import ClassWasm.Archive
import ClassWasm.Arguments
import ClassWasm.Assembly
import ClassWasm.Bytes
import ClassWasm.Cbor
import ClassWasm.Cbor.Library
import ClassWasm.ClassFile
import ClassWasm.ClassFile.Builder
import ClassWasm.ClassFile.Parser
import ClassWasm.Command
import ClassWasm.Command.Flags
import ClassWasm.Command.Target
import ClassWasm.Compilation
import ClassWasm.Compilation.Staging
import ClassWasm.ConstantPool
import ClassWasm.ConstantPool.Entry
import ClassWasm.ConstantPool.Reader
import ClassWasm.Crc32
import ClassWasm.Cursor
import ClassWasm.Decimal
import ClassWasm.Descriptor
import ClassWasm.Disassembly
import ClassWasm.Fault
import ClassWasm.Files
import ClassWasm.Files.Disk
import ClassWasm.Files.Tree
import ClassWasm.Hierarchy
import ClassWasm.Ieee
import ClassWasm.Ieee.Rounding
import ClassWasm.Inflate
import ClassWasm.Instruction
import ClassWasm.Instruction.Decode
import ClassWasm.Instruction.Listing
import ClassWasm.Instruction.Mnemonic
import ClassWasm.Kind
import ClassWasm.Link.LinkMap
import ClassWasm.Link.Linker
import ClassWasm.Link.Options
import ClassWasm.Lowering
import ClassWasm.Lowering.Locals
import ClassWasm.Lowering.Straight
import ClassWasm.Machine
import ClassWasm.Machine.Arithmetic
import ClassWasm.Machine.Error
import ClassWasm.Machine.Frame
import ClassWasm.Machine.Program
import ClassWasm.Machine.Step
import ClassWasm.Main
import ClassWasm.ModifiedUtf8
import ClassWasm.Native.Floats
import ClassWasm.Native.Integers
import ClassWasm.Native.Library
import ClassWasm.Native.Mathematics
import ClassWasm.Native.Method
import ClassWasm.Numeral
import ClassWasm.Path
import ClassWasm.Proofs.Assembly.RoundTrip
import ClassWasm.Proofs.Assembly.Spelling
import ClassWasm.Proofs.Cbor
import ClassWasm.Proofs.Cbor.Library
import ClassWasm.Proofs.ClassFile.Building
import ClassWasm.Proofs.ClassFile.Interning
import ClassWasm.Proofs.ClassFile.Nesting
import ClassWasm.Proofs.ClassFile.Parsed
import ClassWasm.Proofs.ClassFile.RoundTrip
import ClassWasm.Proofs.ClassFile.Truncation
import ClassWasm.Proofs.Compilation.Failure
import ClassWasm.Proofs.Compilation.Staging
import ClassWasm.Proofs.ConstantPool.Accessors
import ClassWasm.Proofs.ConstantPool.Reading
import ClassWasm.Proofs.ConstantPool.RoundTrip
import ClassWasm.Proofs.Cursor
import ClassWasm.Proofs.Decoding
import ClassWasm.Proofs.Decoding.Truncation
import ClassWasm.Proofs.Descriptor
import ClassWasm.Proofs.Entries
import ClassWasm.Proofs.Files.Growth
import ClassWasm.Proofs.Files.Tree
import ClassWasm.Proofs.Hierarchy
import ClassWasm.Proofs.Ieee
import ClassWasm.Proofs.Link.Dispatch
import ClassWasm.Proofs.Link.Exports
import ClassWasm.Proofs.Link.Failures
import ClassWasm.Proofs.Link.Globals
import ClassWasm.Proofs.Link.Imports
import ClassWasm.Proofs.Link.Indices
import ClassWasm.Proofs.Link.InitialValues
import ClassWasm.Proofs.Link.Lookups
import ClassWasm.Proofs.Link.Phases
import ClassWasm.Proofs.Link.Resolution
import ClassWasm.Proofs.Link.Stages
import ClassWasm.Proofs.Link.Starting
import ClassWasm.Proofs.Link.Stored
import ClassWasm.Proofs.Link.Symbols
import ClassWasm.Proofs.Loading
import ClassWasm.Proofs.Lowering.Agreement
import ClassWasm.Proofs.Lowering.BranchRuns
import ClassWasm.Proofs.Lowering.Compiles
import ClassWasm.Proofs.Lowering.Emits
import ClassWasm.Proofs.Lowering.Entry
import ClassWasm.Proofs.Lowering.Exactness
import ClassWasm.Proofs.Lowering.Growth
import ClassWasm.Proofs.Lowering.Locals
import ClassWasm.Proofs.Lowering.OpCode
import ClassWasm.Proofs.Lowering.Progress
import ClassWasm.Proofs.Lowering.Refinement
import ClassWasm.Proofs.Lowering.Requests
import ClassWasm.Proofs.Lowering.Simulation
import ClassWasm.Proofs.Lowering.StraightRuns
import ClassWasm.Proofs.Lowering.StraightTypes
import ClassWasm.Proofs.Lowering.Switches
import ClassWasm.Proofs.Lowering.Validity
import ClassWasm.Proofs.Machine.Depth
import ClassWasm.Proofs.Machine.Frames
import ClassWasm.Proofs.Machine.Initialisation
import ClassWasm.Proofs.Machine.Ledger
import ClassWasm.Proofs.Machine.Runs
import ClassWasm.Proofs.Machine.Soundness
import ClassWasm.Proofs.Machine.Startup
import ClassWasm.Proofs.Machine.Statics
import ClassWasm.Proofs.Machine.Superclasses
import ClassWasm.Proofs.Machine.Watching
import ClassWasm.Proofs.ModifiedUtf8
import ClassWasm.Proofs.ModifiedUtf8.Canonical
import ClassWasm.Proofs.Native.Division
import ClassWasm.Proofs.Native.Library
import ClassWasm.Proofs.Native.Overflow
import ClassWasm.Proofs.Path
import ClassWasm.Proofs.Positions
import ClassWasm.Proofs.Reachability
import ClassWasm.Proofs.Region.Collection
import ClassWasm.Proofs.Region.Nesting
import ClassWasm.Proofs.Region.Structured
import ClassWasm.Proofs.Region.Tree
import ClassWasm.Proofs.Region.Walk
import ClassWasm.Proofs.Region.Widening
import ClassWasm.Proofs.Results
import ClassWasm.Proofs.Shuffle
import ClassWasm.Proofs.StackTyping
import ClassWasm.Proofs.StackTyping.Assignment
import ClassWasm.Proofs.Text.Utf8
import ClassWasm.Proofs.Wasm.Binary
import ClassWasm.Proofs.Wasm.Execution
import ClassWasm.Proofs.Wasm.FloatOrder
import ClassWasm.Proofs.Wasm.Leb128
import ClassWasm.Proofs.Wasm.ModuleBinary
import ClassWasm.Proofs.Wasm.Validation
import ClassWasm.Region
import ClassWasm.Region.Tree
import ClassWasm.Settings
import ClassWasm.Shuffle
import ClassWasm.StackTyping
import ClassWasm.Text
import ClassWasm.Text.Printable
import ClassWasm.Text.Quoted
import ClassWasm.Text.Utf8
import ClassWasm.Toml
import ClassWasm.Toml.Grammar
import ClassWasm.Toml.Scalar
import ClassWasm.Toml.Tables
import ClassWasm.Value
import ClassWasm.Wasm.Instr
import ClassWasm.Wasm.Leb128
import ClassWasm.Wasm.Module
import ClassWasm.Wasm.Types
import ClassWasm.Zip
import ClassWasm.Zip.Writer
