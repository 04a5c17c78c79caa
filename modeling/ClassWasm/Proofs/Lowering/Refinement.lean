/-
  Lowered methods and calls. A function that a method has been lowered to, given the words of the
  arguments and of the statics, returns the word of what a call of the method returns and leaves
  the words of the statics that the call leaves; where the call ends in a division by zero, it
  traps (`lower_refines_call`). A switch over close keys that lists a key twice is the exception:
  a call goes where the first of the two leads, its table where the last does
  (`equal_keys_not_refined`).
-/
import ClassWasm.Proofs.Lowering.Simulation

namespace ClassWasm

namespace Machine

/-- Wherever a call of the method with these arguments comes to, what its code takes for granted
holds. -/
def Routine.RunsRegularly (s : Setting) (r : Routine) (maxSpan : Int) (args : List Value)
    (store : Store) : Prop :=
  ∀ f, Frame.enter 0 args (.fresh r.maxLocals r.maxStack) = .ok () f →
    ∀ q, Point.Reaches s r ⟨0, f, store⟩ q → q.Regular maxSpan r

end Machine

namespace Lowering

open Machine (Setting Routine Program Point End Effect Store Statics staticKey)
open Wasm (Plain Instr Val Config FuncType Exec Invokes Finish)

/-! ## Arguments -/

/-- What a function starts with: the words of its arguments, and zeros in the locals it declares. -/
def startConfig (args : List Value) (declared : List Wasm.ValType) (globals : List Val) : Config :=
  ⟨[], args.map Value.toVal ++ declared.map Val.zero, globals⟩

section

variable {L : Locals} {args : List Value} (hL : L.Sound)
  (hgrows : (Locals.ofParams (args.map Value.kind)).Grows L)

include hgrows

theorem length_startConfig (globals : List Val) :
    (startConfig args (L.types.toList.drop args.length) globals).locals.length = L.types.size := by
  have hlen := congrArg List.length hgrows.types_eq
  simp only [List.length_append, typesOf, List.length_map, Array.length_toList] at hlen
  simp only [startConfig, List.length_append, List.length_map]
  omega

include hL

/-- At the start, a variable that is no parameter holds zero, and so does its local. -/
theorem variables_startConfig {maxLocals maxStack : Nat} {f : Frame}
    (henter : Frame.enter 0 args (.fresh maxLocals maxStack) = .ok () f) (globals : List Val) :
    Variables L f.locals (startConfig args (L.types.toList.drop args.length) globals).locals := by
  have hentered := Machine.enter_spec henter
  obtain ⟨-, -, -, htypes, hslots⟩ := Locals.ofParams_spec (args.map Value.kind)
  have hparam {j : Nat} {v : Value} (hj : args[j]? = some v) :
      (startConfig args (L.types.toList.drop args.length) globals).locals[j]? = some v.toVal := by
    have hlt := (List.getElem?_eq_some_iff.mp hj).1
    simp only [startConfig]
    rw [List.getElem?_append_left (by simpa using hlt), List.getElem?_map, hj]
    rfl
  intro s v hv i hi
  rcases hentered.only s v hv with hfresh | ⟨j, hj, hargs⟩
  · obtain rfl : v = .int 0 := by
      simp only [Frame.fresh, Array.getElem?_replicate] at hfresh
      split at hfresh <;> cases hfresh
      rfl
    rcases hgrows.new_slots _ i hi with hold | hnew
    · -- A parameter that lies in this variable has been stored there.
      have hkey := (hslots _ _).mp hold
      have hlt : i < args.length := by
        have := (List.getElem?_eq_some_iff.mp hkey).1
        rw [Locals.length_paramSlots, List.length_map] at this
        exact this
      have hstored := hentered.stored i _ _ hkey (List.getElem?_eq_getElem hlt)
      rw [hv] at hstored
      exact hparam ((List.getElem?_eq_getElem hlt).trans hstored.symm)
    · have hsize : args.length ≤ i := by
        rw [htypes] at hnew
        simpa using hnew
      have htype := hL.slots _ _ hi
      rw [← Array.getElem?_toList] at htype
      simp only [startConfig]
      rw [List.getElem?_append_right (by simpa using hsize), List.getElem?_map, List.getElem?_drop,
        List.length_map, Nat.add_sub_cancel' hsize, htype]
      rfl
  · have hlook := hgrows.slots _ _ ((hslots _ _).mpr hj)
    obtain rfl := Option.some.inj (hlook.symm.trans hi)
    exact hparam hargs

end

/-! ## Ends -/

theorem length_returned {v : Value} {type : MethodType} (h : v.kind = type.resultKind) :
    (returned v).length = (FuncType.ofMethodType type).results.length := by
  rw [results_ofMethodType, returned, h, resultTypes]
  split <;> rfl

/-- How a function ends whose code has done all of a run. -/
def Refines (resolver : Resolver) (program : Program) (T : Array FuncType) (type : FuncType)
    (f : Function) (args : List Val) (globals : List Val) (store : Store) : End → Prop
  | .value v => ∃ globals', Invokes T type (Locals.expand f.locals) f.body args globals
      (.returned (returned v) globals') ∧ Encodes resolver program store.statics globals'
  | .byZero => Invokes T type (Locals.expand f.locals) f.body args globals .trapped

/-- No run gets past the last instruction. -/
theorem Pairing.Arrives.ne_next {x : Pairing} (hx : x.Linked) {labels : List Label} {n : Nat}
    {r : Wasm.Outcome × Config} (h : x.Arrives labels x.ctx.instrs.size n r) : r.1 ≠ .next := by
  obtain ⟨o, c⟩ := r
  rintro rfl
  obtain ⟨m, -, q, hends, hpc, -⟩ := h
  obtain ⟨-, i, -, -, hi, -⟩ := hends.cases
  rw [hx.instrs, hpc, Array.getElem?_eq_none (Nat.le_refl _)] at hi
  cases hi

/-- A run that has been simulated to the end of its method has ended there. -/
theorem Pairing.Arrives.refines {x : Pairing} (hx : x.Linked) {type : MethodType}
    (hresult : x.routine.result = type.resultKind) {f : Function} {args globals : List Val} {n : Nat}
    {r : Wasm.Outcome × Config}
    (hexec : Exec x.types f.body ⟨[], args ++ (Locals.expand f.locals).map Val.zero, globals⟩ r)
    (h : x.Arrives [] x.ctx.instrs.size n r) :
    Refines x.ctx.resolver x.setting.program x.types (.ofMethodType type) f args globals x.store
      x.ending := by
  obtain ⟨o, c⟩ := r
  cases o with
  | next => exact absurd rfl (h.ne_next hx)
  | br d =>
    obtain ⟨m, -, q, l, -, hl, -⟩ := h
    cases hl
  | ret =>
    obtain ⟨v, rest, hending, hkind, hstack, hencodes⟩ := h
    rw [hending]
    refine ⟨c.globals, ⟨_, hexec, ?_⟩, hencodes⟩
    have hlen := length_returned (hkind.trans hresult)
    have hreverse : (returned v).reverse = returned v := by
      unfold returned
      split <;> rfl
    rw [Wasm.finish?, hstack, ← hlen, List.take_left, hreverse]
  | trap =>
    rw [show x.ending = .byZero from h]
    exact ⟨_, hexec, rfl⟩

end Lowering

open Lowering Machine

/-- A method that computes with integers and references and calls no other does the same as the
function it has been lowered to, in a machine whose classes have all been initialised. -/
theorem lower_refines_call {owner : Text} {pool : Pool} {m : Method} {code : Code} {r : Routine}
    (hload : Routine.load owner pool m code = .ok r) (hlength : code.bytes.length ≤ 65535)
    (hint : ∀ i ∈ r.instrs, i.op.isIntegral = true) {tree : List Node}
    (hs : structureOf r.instrs = .ok tree) {resolver : Resolver} {maxSpan : Int}
    {types T : Array Wasm.FuncType} {f : Function}
    (h : lower resolver maxSpan m r.instrs tree types = (.ok f, T)) (hT : T.size ≤ 2 ^ 32)
    {s : Setting} (hresolver : resolver.Matches s.program) {args : List Value}
    (hargs : args.map Value.kind = r.params) {store : Store} (hstarted : store.AllStarted s.program)
    (hfit : store.statics.Fit s.program) {globals : List Wasm.Val}
    (hglobals : Encodes resolver s.program store.statics globals)
    (hregular : r.RunsRegularly s (widestSpan maxSpan) args store) {n depth : Nat} {e : End}
    {store' : Store} (hcall : call s n depth r args store = e.result store') :
    ∃ type, Descriptor.parseMethod m.descriptor = .ok type ∧
      Refines resolver s.program T (.ofMethodType type) f (args.map Value.toVal) globals store' e := by
  obtain ⟨type, htype, -, hd, hoffsets, hparams, hresult⟩ := Routine.load_eq_ok hload
  obtain ⟨type', typing, L, htype', hc⟩ := lower_compiles hd hlength hs h hT
  obtain rfl := Except.ok.inj (htype.symm.trans htype')
  obtain ⟨k, frame, henter, hends⟩ := call_ends hcall
  refine ⟨type, htype, ?_⟩
  have hgrows := hc.params
  rw [← hparams, ← hargs] at hgrows
  have hcount : type.params.length = args.length := by
    have := congrArg List.length (hargs.trans hparams)
    simpa using this.symm
  have hdeclared := hc.declared
  rw [hcount] at hdeclared
  let x : Pairing := ⟨s, depth + 1, r, e, store', .of resolver maxSpan r.instrs typing, L, T⟩
  have hx : x.Linked := ⟨rfl, hoffsets, hresult ▸ hc.checked, hc.locals, hint, hresolver⟩
  have hpos : 0 < r.instrs.size := by
    obtain ⟨-, i, -, -, hi, -⟩ := hends.cases
    exact (Array.getElem?_eq_some_iff.mp hi).1
  have hstack : frame.stack = [] := (enter_spec henter).stack
  have hagrees : x.Agrees ⟨0, frame, store⟩
      (startConfig args (L.types.toList.drop args.length) globals) :=
    { kinds := by
        rw [Frame.kinds, hstack]
        exact hc.checked.typed.start hpos
      started := hstarted
      fits := hfit
      regular := hregular frame henter
      vars := variables_startConfig hc.locals hgrows henter globals
      size := length_startConfig hgrows globals
      globals := hglobals }
  obtain ⟨body, last, hbody, hcode, -⟩ := hc.code
  obtain ⟨o, hexec, harrives⟩ := hcode.simulates hx hc.structured
    (fun l hl => absurd hl List.not_mem_nil) k _ _ rfl hends hagrees (by rw [hstack]; rfl)
  have hwhole := hexec.append_stop (harrives.ne_next hx) last
  rw [← hbody, startConfig, ← hdeclared] at hwhole
  exact harrives.refines hx hresult hwhole

/-! ## A loop with a guard, and a switch -/

def sampleRoutine : Routine :=
  ⟨⟨"C", "f", "(I)I"⟩, [.int], .int, 1, 1, sampleInstrs, .ofInstructions sampleInstrs⟩

/-- No classes, and any clock. -/
def bareSetting : Setting := ⟨[], default⟩

def emptyStore : Store := ⟨[], []⟩

theorem load_sampleMethod :
    Routine.load "C" ⟨#[]⟩ sampleMethod ⟨1, 1, sampleCode, [], []⟩ = .ok sampleRoutine := by
  simp only [Routine.load, sampleMethod, parseMethod_int, decode_sampleCode]
  rfl

theorem lower_refines_call_sample :
    call bareSetting 9 0 sampleRoutine [.int 0] emptyStore = .ok (.int 0) emptyStore ∧
      ∃ globals, Wasm.Invokes #[] ⟨[.i32], [.i32]⟩ [.i32, .i32] sampleFunction.body [.i32 0] []
        (.returned [.i32 0] globals) := by
  have hcall : call bareSetting 9 0 sampleRoutine [.int 0] emptyStore =
      (End.value (.int 0)).result emptyStore := by cbv
  have hint : ∀ i ∈ sampleRoutine.instrs, i.op.isIntegral = true := by
    simp only [sampleRoutine, sampleInstrs, List.mem_toArray]
    decide
  have hmatches : intFields.Matches bareSetting.program := by
    intro ref ref' g g' c c' _ _ hc
    cases (fieldOwner_eq_ok hc).1
  have hregular : sampleRoutine.RunsRegularly bareSetting (widestSpan 0) [.int 0] emptyStore := by
    refine fun f _ q _ => ⟨fun i slot delta v hi hop => ?_, fun i default cases key rest hi hop => ?_⟩ <;>
    · have hmem := Array.mem_of_getElem? hi
      simp only [sampleRoutine, sampleInstrs, List.mem_toArray, List.mem_cons, List.not_mem_nil,
        or_false] at hmem
      rcases hmem with rfl | rfl | rfl | rfl | rfl | rfl | rfl | rfl | rfl <;> cases hop
  have hglobals : Encodes intFields bareSetting.program emptyStore.statics [] := by
    intro ref g c _ hc
    cases (fieldOwner_eq_ok hc).1
  obtain ⟨type, htype, globals, hinvokes, -⟩ := lower_refines_call load_sampleMethod (by decide) hint
    structureOf_sampleInstrs lower_sampleMethod (by decide) hmatches rfl
    (fun c hc => absurd hc List.not_mem_nil) (fun c hc => absurd hc List.not_mem_nil) hglobals
    hregular hcall
  obtain rfl := Except.ok.inj (htype.symm.trans parseMethod_int)
  exact ⟨hcall, globals, hinvokes⟩

/-! ## A switch that lists a key twice -/

def equalKeysCode : Bytes :=
  [0x1a, 0xab, 0, 0, 0, 0, 0, 31, 0, 0, 0, 2, 0, 0, 0, 1, 0, 0, 0, 27, 0, 0, 0, 1, 0, 0, 0, 29,
    0x04, 0xac, 0x05, 0xac, 0x03, 0xac]

def equalKeysInstrs : Array Instruction :=
  #[⟨0, 1, 0x1a, false, .load .int 0⟩, ⟨1, 27, 0xab, false, .lookupSwitch 31 [(1, 27), (1, 29)]⟩,
    ⟨28, 1, 0x04, false, .const (.int 1)⟩, ⟨29, 1, 0xac, false, .ret .int⟩,
    ⟨30, 1, 0x05, false, .const (.int 2)⟩, ⟨31, 1, 0xac, false, .ret .int⟩,
    ⟨32, 1, 0x03, false, .const (.int 0)⟩, ⟨33, 1, 0xac, false, .ret .int⟩]

def equalKeysTree : List Node :=
  [.op 0, .block 1 6 .wrapper [.block 1 4 .wrapper [.block 1 2 .wrapper [.op 1], .op 2, .op 3], .op 4,
    .op 5], .op 6, .op 7]

def equalKeysMethod : Method := ⟨⟨0x0008⟩, "f", "(I)I", [.code ⟨1, 1, equalKeysCode, [], []⟩]⟩

def equalKeysRoutine : Routine :=
  ⟨⟨"C", "f", "(I)I"⟩, [.int], .int, 1, 1, equalKeysInstrs, .ofInstructions equalKeysInstrs⟩

def equalKeysFunction : Function where
  locals := [⟨3, .i32⟩]
  body :=
    [.plain (.localGet 0), .plain (.localSet 1),
      .block .empty
        [.plain (.localGet 1), .plain (.localSet 2),
          .block .empty
            [.plain (.localGet 2), .plain (.localSet 3),
              .block .empty
                [.plain (.localGet 3), .plain (.i32Const 1), .plain (.intBinary .w32 .sub),
                  .plain (.brTable [1] 2)],
              .plain (.i32Const 1), .plain .ret],
          .plain (.i32Const 2), .plain .ret],
      .plain (.i32Const 0), .plain .ret]

set_option maxRecDepth 2000 in
theorem decode_equalKeysCode : decode ⟨#[]⟩ equalKeysCode = .ok equalKeysInstrs := by
  rfl

theorem structureOf_equalKeysInstrs : structureOf equalKeysInstrs = .ok equalKeysTree :=
  structureOf_of_repaired #[⟨1, 6, .wrapper 0⟩, ⟨1, 2, .wrapper 0⟩, ⟨1, 4, .wrapper 0⟩]
    [⟨1, 6, .wrapper 0⟩, ⟨1, 4, .wrapper 0⟩, ⟨1, 2, .wrapper 0⟩] rfl
    (by simp [List.mergeSort, Region.precedes, Region.demote]) rfl

/-- A call with the key finds the first case, the function the second one. -/
theorem equal_keys_not_refined :
    Routine.load "C" ⟨#[]⟩ equalKeysMethod ⟨1, 1, equalKeysCode, [], []⟩ = .ok equalKeysRoutine ∧
      structureOf equalKeysInstrs = .ok equalKeysTree ∧
      lower intFields 0 equalKeysMethod equalKeysInstrs equalKeysTree #[] =
        (.ok equalKeysFunction, #[]) ∧
      call bareSetting 9 0 equalKeysRoutine [.int 1] emptyStore = .ok (.int 1) emptyStore ∧
      ¬ Refines intFields [] #[] ⟨[.i32], [.i32]⟩ equalKeysFunction [(Value.int 1).toVal] [] emptyStore
        (.value (.int 1)) := by
  refine ⟨?_, structureOf_equalKeysInstrs, by cbv, by cbv, ?_⟩
  · simp only [Routine.load, equalKeysMethod, parseMethod_int, decode_equalKeysCode]
    rfl
  · rintro ⟨globals, hinvokes, -⟩
    have hother : Wasm.Invokes #[] ⟨[.i32], [.i32]⟩ [.i32, .i32, .i32] equalKeysFunction.body
        [(Value.int 1).toVal] [] (.returned [.i32 2] []) :=
      ⟨(.ret, ⟨[.i32 2], [.i32 1, .i32 1, .i32 1, .i32 1], []⟩), ⟨20, rfl⟩, rfl⟩
    cases hinvokes.unique hother

end ClassWasm
