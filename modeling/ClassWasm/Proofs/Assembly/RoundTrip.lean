/-
  Code that was assembled is decoded as the instructions it was assembled from. A program is a list
  of items, each a whole instruction or a label; the bytes of its instructions may have been written
  in any portions. Assembly fails exactly where a label is used that stands nowhere or a short
  branch is too long; otherwise every item that is an instruction is decoded at the offset where it
  was put, and whatever it branches to is the last place of its label.
-/
import Mathlib
import ClassWasm.Proofs.Assembly.Spelling
import ClassWasm.Proofs.Results

namespace ClassWasm.Assembly

open Reader
open ClassWasm.Instruction (Spells)

/-! ## Programs -/

/-- What code is assembled from: an instruction without branches or one of the other statements. -/
inductive Item where
  | plain (bs : Bytes) (opcode : UInt8) (wide : Bool) (op : Operation)
  | use (s : Statement)
deriving DecidableEq

namespace Item

def statement : Item → Statement
  | plain bs .. => .raw bs
  | use s => s

/-- The labels that are used, the default of a switch first. -/
def uses : Item → List Text
  | use (.branch _ target) | use (.gotoWide target) => [target]
  | use (.tableSwitch default _ cases) => default :: cases
  | use (.lookupSwitch default cases) => default :: cases.map Prod.snd
  | _ => []

def isInstruction : Item → Bool
  | use (.label _) => false
  | _ => true

/-- Instructions are complete, short branches are such opcodes, and the keys of a table are numbers
of 32 bits, at least one. -/
def Proper (pool : Pool) : Item → Prop
  | plain bs opcode wide op => Spells pool bs opcode wide op ∧ op.branches = []
  | use (.branch opcode _) => Instruction.takesShort opcode = true ∧ opcode ≠ 0x11
  | use (.tableSwitch _ low cases) => cases ≠ [] ∧ low.toInt + cases.length - 1 < 2 ^ 31
  | use (.raw _) => False
  | use _ => True

end Item

/-- The statements of a program, with one for each instruction. -/
def statements (program : List Item) : List Statement := program.map Item.statement

/-- Raw bytes one by one, and other statements as they are. -/
def Statement.bytewise : Statement → List Statement
  | raw bs => bs.map fun b => raw [b]
  | s => [s]

/-- Statements that write the same code in portions of one byte. -/
def bytewise (ss : List Statement) : List Statement := ss.flatMap Statement.bytewise

/-- Items with the offset that the code before them ends at. -/
def place (origin : Nat) : List Item → List (Nat × Item)
  | [] => []
  | item :: items => (origin, item) :: place (origin + item.statement.size origin) items

/-- The last place of the label is behind so many bytes. -/
def Bound (program : List Item) (name : Text) (offset : Nat) : Prop :=
  ∃ before after, program = before ++ .use (.label name) :: after ∧
    .use (.label name) ∉ after ∧ offset = endOffset 0 (statements before)

/-- The instruction is what the item says, apart from where it branches. -/
def Item.Says (i : Instruction) : Item → Prop
  | plain _ opcode wide op => i.opcode = opcode ∧ i.wide = wide ∧ i.op = op
  | use (.branch opcode _) => i.opcode = opcode ∧ i.wide = false ∧
    ∃ make t, Instruction.branch? opcode = some make ∧ i.op = make t
  | use (.gotoWide _) => i.opcode = 0xC8 ∧ i.wide = false ∧ ∃ t, i.op = .goto t
  | use (.tableSwitch _ low _) => i.opcode = 0xAA ∧ i.wide = false ∧
    ∃ default targets, i.op = .tableSwitch default low targets
  | use (.lookupSwitch _ cases) => i.opcode = 0xAB ∧ i.wide = false ∧
    ∃ default pairs, i.op = .lookupSwitch default pairs ∧
      pairs.map Prod.fst = cases.map Prod.fst
  | use (.raw _) | use (.label _) => False

/-! ## Offsets -/

theorem endOffset_cons (origin : Nat) (s : Statement) (ss : List Statement) :
    endOffset origin (s :: ss) = endOffset (origin + s.size origin) ss := rfl

theorem endOffset_append (origin : Nat) (ss ss' : List Statement) :
    endOffset origin (ss ++ ss') = endOffset (endOffset origin ss) ss' :=
  List.foldl_append

theorem layout_append (origin : Nat) (ss ss' : List Statement) :
    layout origin (ss ++ ss') = layout origin ss ++ layout (endOffset origin ss) ss' := by
  induction ss generalizing origin with
  | nil => rfl
  | cons s ss ih => exact congrArg ((origin, s) :: ·) (ih _)

theorem le_endOffset (origin : Nat) (ss : List Statement) : origin ≤ endOffset origin ss := by
  induction ss generalizing origin with
  | nil => exact Nat.le_refl _
  | cons s ss ih => exact (Nat.le_add_right _ _).trans (ih _)

theorem statements_cons (item : Item) (items : List Item) :
    statements (item :: items) = item.statement :: statements items := rfl

/-- The pieces of statements one behind the other. -/
def pieces (origin : Nat) (ss : List Statement) : List Piece :=
  (layout origin ss).flatMap fun (offset, s) => s.pieces offset

theorem pieces_cons (origin : Nat) (s : Statement) (ss : List Statement) :
    pieces origin (s :: ss) = s.pieces origin ++ pieces (origin + s.size origin) ss :=
  List.flatMap_cons

theorem pieces_append (origin : Nat) (ss ss' : List Statement) :
    pieces origin (ss ++ ss') = pieces origin ss ++ pieces (endOffset origin ss) ss' := by
  unfold pieces
  rw [layout_append, List.flatMap_append]

theorem pieces_statements (origin : Nat) (program : List Item) :
    pieces origin (statements program) =
      (place origin program).flatMap fun (offset, item) => item.statement.pieces offset := by
  induction program generalizing origin with
  | nil => rfl
  | cons item items ih => exact congrArg (item.statement.pieces origin ++ ·) (ih _)

/-! ## Labels -/

theorem position?_append (placed placed' : List (Nat × Statement)) (name : Text) :
    position? (placed ++ placed') name = (position? placed' name).or (position? placed name) := by
  unfold position?
  rw [List.reverse_append, List.findSome?_append]

theorem position?_item (origin : Nat) (item : Item) (name : Text) :
    position? [(origin, item.statement)] name =
      if item = .use (.label name) then some origin else none := by
  cases item with
  | plain bs opcode wide op => rfl
  | use s =>
    cases s with
    | label n => simp [Item.statement, position?]
    | _ => rfl

theorem position?_cons (origin : Nat) (item : Item) (items : List Item) (name : Text) :
    position? (layout origin (statements (item :: items))) name =
      (position? (layout (origin + item.statement.size origin) (statements items)) name).or
        (if item = .use (.label name) then some origin else none) := by
  rw [← position?_item]
  exact position?_append [(origin, item.statement)] _ name

theorem position?_eq_none {origin : Nat} {program : List Item} {name : Text} :
    position? (layout origin (statements program)) name = none ↔
      .use (.label name) ∉ program := by
  induction program generalizing origin with
  | nil => simp [statements, layout, position?]
  | cons item items ih =>
    rw [position?_cons, Option.or_eq_none_iff, ih, List.mem_cons, not_or]
    simp [and_comm, eq_comm]

/-- A label stands where it was last put. -/
theorem position?_eq_some {origin : Nat} {program : List Item} {name : Text} {offset : Nat} :
    position? (layout origin (statements program)) name = some offset ↔
      ∃ before after, program = before ++ .use (.label name) :: after ∧
        .use (.label name) ∉ after ∧ offset = endOffset origin (statements before) := by
  induction program generalizing origin with
  | nil => simp [statements, layout, position?]
  | cons item items ih =>
    rw [position?_cons, Option.or_eq_some_iff, ih, position?_eq_none]
    constructor
    · rintro (⟨before, after, rfl, hafter, hoffset⟩ | ⟨hitems, hitem⟩)
      · refine ⟨item :: before, after, rfl, hafter, ?_⟩
        rw [hoffset, statements_cons, endOffset_cons]
      · split at hitem
        · next heq =>
          cases hitem
          exact ⟨[], items, by rw [heq]; rfl, hitems, rfl⟩
        · cases hitem
    · rintro ⟨before, after, hprogram, hafter, hoffset⟩
      cases before with
      | nil =>
        cases hprogram
        right
        exact ⟨hafter, by rw [if_pos rfl, hoffset]; rfl⟩
      | cons item' before =>
        cases hprogram
        left
        refine ⟨before, after, rfl, hafter, ?_⟩
        rw [hoffset, statements_cons, endOffset_cons]

theorem Bound.le {program : List Item} {name : Text} {offset : Nat}
    (h : Bound program name offset) : offset ≤ endOffset 0 (statements program) := by
  obtain ⟨before, after, rfl, -, rfl⟩ := h
  unfold statements
  rw [List.map_append, endOffset_append]
  exact le_endOffset _ _

/-! ## Pieces -/

section

variable {pos : Text → Option Nat}

/-- The bytes of pieces one behind the other. -/
def link (pos : Text → Option Nat) (ps : List Piece) : Except Error Bytes :=
  (ps.mapM (Piece.encode pos)).map List.flatten

theorem assemble_eq (ss : List Statement) :
    assemble ss = link (position? (layout 0 ss)) (pieces 0 ss) := by
  unfold assemble link pieces
  dsimp only
  cases List.mapM (Piece.encode (position? (layout 0 ss)))
    ((layout 0 ss).flatMap fun (offset, s) => s.pieces offset) <;> rfl

theorem link_cons_eq_ok {p : Piece} {ps : List Piece} {bs : Bytes} :
    link pos (p :: ps) = .ok bs ↔
      ∃ x y, p.encode pos = .ok x ∧ link pos ps = .ok y ∧ bs = x ++ y := by
  unfold link
  rw [List.mapM_cons]
  cases p.encode pos with
  | error e => exact ⟨nofun, nofun⟩
  | ok x =>
    cases ps.mapM (Piece.encode pos) with
    | error e => exact ⟨nofun, nofun⟩
    | ok y =>
      constructor
      · intro h
        cases h
        exact ⟨x, y.flatten, rfl, rfl, rfl⟩
      · rintro ⟨x', y', hx, hy, rfl⟩
        cases hx
        cases hy
        rfl

theorem encode_of_link {p : Piece} {bs : Bytes} (h : link pos [p] = .ok bs) :
    p.encode pos = .ok bs := by
  obtain ⟨x, y, hx, hy, rfl⟩ := link_cons_eq_ok.mp h
  cases hy
  rw [hx]
  simp

theorem link_append_eq_ok {ps ps' : List Piece} {bs : Bytes} :
    link pos (ps ++ ps') = .ok bs ↔
      ∃ x y, link pos ps = .ok x ∧ link pos ps' = .ok y ∧ bs = x ++ y := by
  induction ps generalizing bs with
  | nil =>
    constructor
    · intro h
      exact ⟨[], bs, rfl, h, rfl⟩
    · rintro ⟨x, y, hx, hy, rfl⟩
      cases hx
      exact hy
  | cons p ps ih =>
    rw [List.cons_append, link_cons_eq_ok]
    constructor
    · rintro ⟨x, y, hx, hy, rfl⟩
      obtain ⟨y₁, y₂, h₁, h₂, rfl⟩ := ih.mp hy
      exact ⟨x ++ y₁, y₂, link_cons_eq_ok.mpr ⟨x, y₁, hx, h₁, rfl⟩, h₂, by rw [List.append_assoc]⟩
    · rintro ⟨x, y, hx, hy, rfl⟩
      obtain ⟨x₁, x₂, h₁, h₂, rfl⟩ := link_cons_eq_ok.mp hx
      exact ⟨x₁, x₂ ++ y, h₁, ih.mpr ⟨x₂, y, h₂, hy, rfl⟩, by rw [List.append_assoc]⟩

theorem link_eq_error {ps : List Piece} :
    (∃ e, link pos ps = .error e) ↔ ∃ p ∈ ps, ∃ e, p.encode pos = .error e := by
  induction ps with
  | nil => exact ⟨nofun, nofun⟩
  | cons p ps ih =>
    rw [List.exists_mem_cons_iff, ← ih]
    unfold link
    rw [List.mapM_cons]
    cases p.encode pos with
    | error e => exact ⟨fun _ => .inl ⟨e, rfl⟩, fun _ => ⟨e, rfl⟩⟩
    | ok x =>
      cases ps.mapM (Piece.encode pos) with
      | error e => exact ⟨fun _ => .inr ⟨e, rfl⟩, fun _ => ⟨e, rfl⟩⟩
      | ok y =>
        refine ⟨nofun, ?_⟩
        rintro (⟨e, he⟩ | ⟨e, he⟩) <;> cases he

/-- The distance from `origin` to `name` takes more than 16 bits. -/
def Far (pos : Text → Option Nat) (origin : Nat) (name : Text) : Prop :=
  ∃ p, pos name = some p ∧ ((p : Int) - origin < -32768 ∨ 32767 < (p : Int) - origin)

@[simp] theorem encode_bytes_ne_error (bs : Bytes) :
    ¬ ∃ e, (Piece.bytes bs).encode pos = .error e := nofun

@[simp] theorem encode_distance_eq_error {origin : Nat} {name : Text} {wide : Bool} :
    (∃ e, (Piece.distance origin name wide).encode pos = .error e) ↔
      pos name = none ∨ wide = false ∧ Far pos origin name := by
  unfold Piece.encode Far
  cases hpos : pos name with
  | none => simp only [hpos, Except.error.injEq, exists_eq', true_or]
  | some p =>
    simp only [hpos]
    cases wide with
    | true => simp
    | false =>
      by_cases h : (p : Int) - origin < -32768 ∨ 32767 < (p : Int) - origin
      · simp [h]
      · simp [h]

/-- The pairs of a lookup switch fail for labels that stand nowhere. -/
theorem pairs_eq_error {offset : Nat} {cases : List (Int32 × Text)} :
    (∃ p ∈ cases.flatMap fun (key, target) => [Piece.bytes (int key), .distance offset target true],
      ∃ e, p.encode pos = .error e) ↔ ∃ name ∈ cases.map Prod.snd, pos name = none := by
  have hpair (key : Int32) (target : Text) :
      (∃ p ∈ [Piece.bytes (int key), .distance offset target true],
        ∃ e, p.encode pos = .error e) ↔ pos target = none := by simp
  simp only [List.mem_flatMap, List.mem_map]
  constructor
  · rintro ⟨p, ⟨c, hc, hp⟩, he⟩
    exact ⟨c.2, ⟨c, hc, rfl⟩, (hpair c.1 c.2).mp ⟨p, hp, he⟩⟩
  · rintro ⟨_, ⟨c, hc, rfl⟩, hnone⟩
    obtain ⟨p, hp, he⟩ := (hpair c.1 c.2).mpr hnone
    exact ⟨p, ⟨c, hc, hp⟩, he⟩

/-- An item cannot be put into bytes where it uses a label that stands nowhere, or where it is a
short branch and its label is far away. -/
theorem link_item_eq_error {item : Item} {offset : Nat} :
    (∃ e, link pos (item.statement.pieces offset) = .error e) ↔ ∃ name ∈ item.uses,
      pos name = none ∨ (∃ opcode, item = .use (.branch opcode name)) ∧ Far pos offset name := by
  rw [link_eq_error]
  cases item with
  | plain bs opcode wide op => simp [Item.statement, Statement.pieces, Item.uses]
  | use s =>
    cases s with
    | raw bs | label name => simp [Item.statement, Statement.pieces, Item.uses]
    | branch opcode target | gotoWide target =>
      simp [Item.statement, Statement.pieces, Item.uses]
    | tableSwitch default low cases => simp [Item.statement, Statement.pieces, Item.uses]
    | lookupSwitch default cases =>
      simp only [Item.statement, Statement.pieces, Item.uses, List.mem_append, or_and_right,
        exists_or, pairs_eq_error]
      simp

/-! ## Sizes -/

theorem length_encode {p : Piece} {bs : Bytes} (h : p.encode pos = .ok bs) :
    bs.length = p.size := by
  cases p with
  | bytes bs' =>
    cases h
    rfl
  | distance origin target wide =>
    unfold Piece.encode at h
    dsimp only at h
    split at h
    · cases h
    · cases wide with
      | true =>
        cases h
        rfl
      | false =>
        simp only [Bool.false_eq_true, if_false] at h
        split at h
        · cases h
        · cases h
          rfl

theorem length_link {ps : List Piece} {bs : Bytes} (h : link pos ps = .ok bs) :
    bs.length = (ps.map Piece.size).foldr (· + ·) 0 := by
  induction ps generalizing bs with
  | nil =>
    cases h
    rfl
  | cons p ps ih =>
    obtain ⟨x, y, hx, hy, rfl⟩ := link_cons_eq_ok.mp h
    rw [List.length_append, length_encode hx, ih hy]
    rfl

theorem size_of_link {s : Statement} {origin : Nat} {bs : Bytes}
    (h : link pos (s.pieces origin) = .ok bs) : s.size origin = bs.length :=
  (length_link h).symm

/-! ## Portions -/

theorem endOffset_raws (origin : Nat) (bs : Bytes) :
    endOffset origin (bs.map fun b => .raw [b]) = origin + bs.length := by
  induction bs generalizing origin with
  | nil => rfl
  | cons b bs ih =>
    rw [List.map_cons, endOffset_cons, ih, List.length_cons, Nat.add_right_comm]
    rfl

theorem position?_raws (origin : Nat) (bs : Bytes) (name : Text) :
    position? (layout origin (bs.map fun b => .raw [b])) name = none := by
  induction bs generalizing origin with
  | nil => rfl
  | cons b bs ih =>
    rw [List.map_cons, ← List.singleton_append, layout_append, position?_append, ih]
    rfl

theorem link_raws (origin : Nat) (bs : Bytes) :
    link pos (pieces origin (bs.map fun b => .raw [b])) = .ok bs := by
  induction bs generalizing origin with
  | nil => rfl
  | cons b bs ih =>
    rw [List.map_cons, pieces_cons]
    exact link_cons_eq_ok.mpr ⟨[b], bs, rfl, ih _, rfl⟩

theorem endOffset_statement (origin : Nat) (s : Statement) :
    endOffset origin s.bytewise = origin + s.size origin := by
  cases s with
  | raw bs => exact endOffset_raws origin bs
  | _ => rfl

theorem endOffset_bytewise (origin : Nat) (ss : List Statement) :
    endOffset origin (bytewise ss) = endOffset origin ss := by
  induction ss generalizing origin with
  | nil => rfl
  | cons s ss ih =>
    unfold bytewise at ih ⊢
    rw [List.flatMap_cons, endOffset_append, endOffset_statement, ih, endOffset_cons]

theorem position?_bytewise (origin : Nat) (ss : List Statement) (name : Text) :
    position? (layout origin (bytewise ss)) name = position? (layout origin ss) name := by
  induction ss generalizing origin with
  | nil => rfl
  | cons s ss ih =>
    have hhead : position? (layout origin s.bytewise) name = position? [(origin, s)] name := by
      cases s with
      | raw bs => exact position?_raws origin bs name
      | _ => rfl
    unfold bytewise at ih ⊢
    rw [List.flatMap_cons, layout_append, position?_append, endOffset_statement, ih, hhead]
    exact (position?_append [(origin, s)] _ name).symm

theorem link_statement (origin : Nat) (s : Statement) :
    link pos (pieces origin s.bytewise) = link pos (s.pieces origin) := by
  cases s with
  | raw bs =>
    have hwhole : link pos ((Statement.raw bs).pieces origin) = .ok bs :=
      link_cons_eq_ok.mpr ⟨bs, [], rfl, rfl, (List.append_nil bs).symm⟩
    exact (link_raws origin bs).trans hwhole.symm
  | _ => exact congrArg (link pos) (List.append_nil _)

theorem link_bytewise {origin : Nat} {ss : List Statement} {bs : Bytes} :
    link pos (pieces origin (bytewise ss)) = .ok bs ↔ link pos (pieces origin ss) = .ok bs := by
  induction ss generalizing origin bs with
  | nil => rfl
  | cons s ss ih =>
    unfold bytewise at ih ⊢
    rw [List.flatMap_cons, pieces_append, link_append_eq_ok, pieces_cons, link_append_eq_ok,
      endOffset_statement]
    simp only [link_statement, ih]

/-- It does not matter in which portions bytes are written. -/
theorem assemble_bytewise {ss : List Statement} {bs : Bytes} :
    assemble (bytewise ss) = .ok bs ↔ assemble ss = .ok bs := by
  have hpos : position? (layout 0 (bytewise ss)) = position? (layout 0 ss) :=
    funext (position?_bytewise 0 ss)
  rw [assemble_eq, assemble_eq, hpos, link_bytewise]

/-! ## Distances -/

/-- The distance leads from `origin` to the label. -/
def Leads (pos : Text → Option Nat) (origin : Nat) (name : Text) (t : Int32) : Prop :=
  ∃ p, pos name = some p ∧ (origin : Int) + t.toInt = p

section

variable {origin : Nat} {name : Text} {bs : Bytes}

theorem encode_short (h : (Piece.distance origin name false).encode pos = .ok bs) :
    ∃ t : Int16, bs = Bytes.be16 t.toUInt16 ∧ Leads pos origin name t.toInt32 := by
  unfold Piece.encode at h
  dsimp only at h
  split at h
  · cases h
  · next p hp =>
    simp only [Bool.false_eq_true, if_false] at h
    split at h
    · cases h
    · next hrange =>
      cases h
      refine ⟨_, rfl, p, hp, ?_⟩
      rw [Int16.toInt_toInt32, Int16.toInt_ofInt_of_le (by omega) (by omega)]
      omega

variable (hpos : ∀ name p, pos name = some p → p < 2 ^ 31) (horigin : origin < 2 ^ 31)

include hpos horigin

theorem encode_wide (h : (Piece.distance origin name true).encode pos = .ok bs) :
    ∃ t, bs = int t ∧ Leads pos origin name t := by
  unfold Piece.encode at h
  dsimp only at h
  split at h
  · cases h
  · next p hp =>
    cases h
    have hlt := hpos name p hp
    refine ⟨_, rfl, p, hp, ?_⟩
    rw [Int32.toInt_ofInt_of_le (by omega) (by omega)]
    omega

theorem link_targets {names : List Text}
    (h : link pos (names.map (.distance origin · true)) = .ok bs) :
    ∃ ts : List Int32, bs = ts.flatMap int ∧ List.Forall₂ (Leads pos origin) names ts := by
  induction names generalizing bs with
  | nil =>
    cases h
    exact ⟨[], rfl, .nil⟩
  | cons name names ih =>
    obtain ⟨x, y, hx, hy, rfl⟩ := link_cons_eq_ok.mp h
    obtain ⟨t, rfl, ht⟩ := encode_wide hpos horigin hx
    obtain ⟨ts, rfl, hts⟩ := ih hy
    exact ⟨t :: ts, rfl, .cons ht hts⟩

theorem link_pairs {cases : List (Int32 × Text)}
    (h : link pos (cases.flatMap fun (key, target) =>
      [.bytes (int key), .distance origin target true]) = .ok bs) :
    ∃ pairs : List (Int32 × Int32), bs = pairs.flatMap Instruction.pairBytes ∧
      pairs.map Prod.fst = cases.map Prod.fst ∧
      List.Forall₂ (Leads pos origin) (cases.map Prod.snd) (pairs.map Prod.snd) := by
  induction cases generalizing bs with
  | nil =>
    cases h
    exact ⟨[], rfl, rfl, .nil⟩
  | cons c cases ih =>
    obtain ⟨x, y, hx, hy, rfl⟩ := link_append_eq_ok.mp h
    obtain ⟨key, target, hkey, htarget, rfl⟩ := link_cons_eq_ok.mp hx
    cases hkey
    obtain ⟨t, rfl, ht⟩ := encode_wide hpos horigin (encode_of_link htarget)
    obtain ⟨pairs, rfl, hkeys, hpairs⟩ := ih hy
    exact ⟨(c.1, t) :: pairs, rfl, congrArg (c.1 :: ·) hkeys, .cons ht hpairs⟩

end

end

/-- The last key of a table. -/
theorem toInt_high {low : Int32} {n : Nat} (hpos : 0 < n) (h : low.toInt + n - 1 < 2 ^ 31) :
    (low + Int32.ofNat n - 1).toInt = low.toInt + n - 1 := by
  have hlow := low.le_toInt
  have heq : low + Int32.ofNat n - 1 = Int32.ofInt (low.toInt + n - 1) := by
    rw [Int32.ofInt_sub, Int32.ofInt_add, Int32.ofInt_toInt]
    rfl
  rw [heq, Int32.toInt_ofInt_of_le (by omega) h]

theorem length_padding (origin : Nat) : (padding origin).length = Instruction.padding origin := by
  unfold padding Instruction.padding
  rw [List.length_replicate]
  omega

/-! ## Instructions -/

/-- The bytes are decoded as an instruction that says what the item does and branches to its labels,
whatever follows. -/
structure Decoded (pool : Pool) (pos : Text → Option Nat) (offset : Nat) (item : Item) (bs : Bytes)
    (i : Instruction) : Prop where
  next : ∀ rest, Instruction.next pool ⟨bs ++ rest, offset⟩ = .ok (i, ⟨rest, offset + bs.length⟩)
  nonempty : bs ≠ []
  offset_eq : i.offset = offset
  size_eq : i.size = bs.length
  content : item.Says i
  leads : List.Forall₂ (Leads pos offset) item.uses i.op.branches

section

variable {pool : Pool} {pos : Text → Option Nat} {offset : Nat} {bs : Bytes}

theorem decoded_plain {raw : Bytes} {opcode : UInt8} {wide : Bool} {op : Operation}
    (hproper : (Item.plain raw opcode wide op).Proper pool)
    (h : link pos ((Statement.raw raw).pieces offset) = .ok bs) :
    ∃ i, Decoded pool pos offset (.plain raw opcode wide op) bs i := by
  obtain ⟨hspells, hbranches⟩ := hproper
  cases encode_of_link h
  refine ⟨_, hspells.next offset, hspells.ne_nil, rfl, rfl, ⟨rfl, rfl, rfl⟩, ?_⟩
  dsimp only
  rw [hbranches]
  exact .nil

theorem decoded_branch {opcode : UInt8} {target : Text}
    (hproper : (Item.use (.branch opcode target)).Proper pool)
    (h : link pos ((Statement.branch opcode target).pieces offset) = .ok bs) :
    ∃ i, Decoded pool pos offset (.use (.branch opcode target)) bs i := by
  obtain ⟨make, hmake⟩ := Option.isSome_iff_exists.mp
    (Instruction.isSome_branch? hproper.1 hproper.2)
  obtain ⟨x, y, hx, hy, rfl⟩ := link_cons_eq_ok.mp h
  cases hx
  obtain ⟨t, rfl, ht⟩ := encode_short (encode_of_link hy)
  have hspells : Spells pool (opcode :: Bytes.be16 t.toUInt16) opcode false (make t.toInt32) :=
    .short t (Instruction.layout_branch hmake)
  refine ⟨_, hspells.next offset, List.cons_ne_nil _ _, rfl, rfl,
    ⟨rfl, rfl, make, _, hmake, rfl⟩, ?_⟩
  dsimp only
  rw [Instruction.branches_branch hmake]
  exact .cons ht .nil

variable (hpos : ∀ name p, pos name = some p → p < 2 ^ 31)

include hpos

theorem decoded_gotoWide {target : Text} (horigin : offset < 2 ^ 31)
    (h : link pos ((Statement.gotoWide target).pieces offset) = .ok bs) :
    ∃ i, Decoded pool pos offset (.use (.gotoWide target)) bs i := by
  obtain ⟨x, y, hx, hy, rfl⟩ := link_cons_eq_ok.mp h
  cases hx
  obtain ⟨t, rfl, ht⟩ := encode_wide hpos horigin (encode_of_link hy)
  have hspells : Spells pool (0xC8 :: int t) 0xC8 false (.goto t) :=
    .word t (by simp [Instruction.layout])
  exact ⟨_, hspells.next offset, List.cons_ne_nil _ _, rfl, rfl, ⟨rfl, rfl, t, rfl⟩, .cons ht .nil⟩

theorem decoded_tableSwitch {default : Text} {low : Int32} {cases : List Text}
    (hproper : (Item.use (.tableSwitch default low cases)).Proper pool) (horigin : offset < 2 ^ 31)
    (h : link pos ((Statement.tableSwitch default low cases).pieces offset) = .ok bs) :
    ∃ i, Decoded pool pos offset (.use (.tableSwitch default low cases)) bs i := by
  obtain ⟨hne, hlast⟩ := hproper
  obtain ⟨x, y, hx, hy, rfl⟩ := link_append_eq_ok.mp h
  obtain ⟨x₁, x₂, hx₁, hx₂, rfl⟩ := link_cons_eq_ok.mp hx
  obtain ⟨x₃, x₄, hx₃, hx₄, rfl⟩ := link_cons_eq_ok.mp hx₂
  cases hx₁
  cases encode_of_link hx₄
  obtain ⟨d, rfl, hd⟩ := encode_wide hpos horigin hx₃
  obtain ⟨ts, rfl, hts⟩ := link_targets hpos horigin hy
  have hlength := hts.length_eq
  have hcases := List.length_pos_iff.mpr hne
  have hcount : (ts.length : Int) =
      (low + Int32.ofNat cases.length - 1).toInt - low.toInt + 1 := by
    rw [toInt_high hcases hlast]
    omega
  have hts' : ts ≠ [] := List.length_pos_iff.mp (by omega)
  exact ⟨_, Instruction.next_tableSwitch pool (length_padding offset) d hcount hts',
    List.cons_ne_nil _ _, rfl, rfl, ⟨rfl, rfl, d, ts, rfl⟩, .cons hd hts⟩

theorem decoded_lookupSwitch {default : Text} {cases : List (Int32 × Text)}
    (horigin : offset < 2 ^ 31)
    (h : link pos ((Statement.lookupSwitch default cases).pieces offset) = .ok bs)
    (hsize : bs.length < 2 ^ 31) :
    ∃ i, Decoded pool pos offset (.use (.lookupSwitch default cases)) bs i := by
  obtain ⟨x, y, hx, hy, rfl⟩ := link_append_eq_ok.mp h
  obtain ⟨x₁, x₂, hx₁, hx₂, rfl⟩ := link_cons_eq_ok.mp hx
  obtain ⟨x₃, x₄, hx₃, hx₄, rfl⟩ := link_cons_eq_ok.mp hx₂
  cases hx₁
  cases encode_of_link hx₄
  obtain ⟨d, rfl, hd⟩ := encode_wide hpos horigin hx₃
  obtain ⟨pairs, rfl, hkeys, hpairs⟩ := link_pairs hpos horigin hy
  have hlength : pairs.length = cases.length := by simpa using congrArg List.length hkeys
  have hcount : pairs.length < 2 ^ 31 := by
    have hflat : (pairs.flatMap Instruction.pairBytes).length = 8 * pairs.length := by
      simp [Instruction.pairBytes, int, Bytes.be32, Nat.mul_comm]
    rw [List.length_append, hflat] at hsize
    omega
  rw [← hlength]
  exact ⟨_, Instruction.next_lookupSwitch pool (length_padding offset) d hcount,
    List.cons_ne_nil _ _, rfl, rfl, ⟨rfl, rfl, d, pairs, rfl, hkeys⟩, .cons hd hpairs⟩

/-- An item that could be put into bytes is decoded from them. -/
theorem decoded_item {item : Item} (hproper : item.Proper pool)
    (h : link pos (item.statement.pieces offset) = .ok bs) (hsize : offset + bs.length < 2 ^ 31)
    (hitem : item.isInstruction = true) : ∃ i, Decoded pool pos offset item bs i := by
  cases item with
  | plain raw opcode wide op => exact decoded_plain hproper h
  | use s =>
    cases s with
    | raw bs => exact hproper.elim
    | label name => cases hitem
    | branch opcode target => exact decoded_branch hproper h
    | gotoWide target => exact decoded_gotoWide hpos (by omega) h
    | tableSwitch default low cases => exact decoded_tableSwitch hpos hproper (by omega) h
    | lookupSwitch default cases => exact decoded_lookupSwitch hpos (by omega) h (by omega)

/-- Instructions one behind the other are decoded in that order. -/
theorem decodeFrom_items {program : List Item} (hproper : ∀ item ∈ program, item.Proper pool)
    (hsize : endOffset offset (statements program) < 2 ^ 31)
    (h : link pos (pieces offset (statements program)) = .ok bs)
    {fuel : Nat} (hfuel : bs.length ≤ fuel) (done : Array Instruction) :
    ∃ is : List Instruction,
      Instruction.decodeFrom pool done fuel ⟨bs, offset⟩ = .ok (done ++ is.toArray) ∧
      List.Forall₂ (fun placed i => i.offset = placed.1 ∧
        i.size = placed.2.statement.size placed.1 ∧ placed.2.Says i ∧
        List.Forall₂ (Leads pos placed.1) placed.2.uses i.op.branches)
        ((place offset program).filter (·.2.isInstruction)) is := by
  induction program generalizing offset bs fuel done with
  | nil =>
    cases h
    refine ⟨[], ?_, .nil⟩
    cases fuel <;> simp [Instruction.decodeFrom]
  | cons item items ih =>
    rw [statements_cons, pieces_cons] at h
    rw [statements_cons, endOffset_cons] at hsize
    obtain ⟨x, y, hx, hy, rfl⟩ := link_append_eq_ok.mp h
    have hend := size_of_link hx
    have hproper' := fun i hi => hproper i (List.mem_cons_of_mem _ hi)
    have hroom : offset + x.length < 2 ^ 31 := by
      rw [← hend]
      exact (le_endOffset _ _).trans_lt hsize
    cases hitem : item.isInstruction with
    | false =>
      have hlabel : x = [] := by
        cases item with
        | plain bs opcode wide op => cases hitem
        | use s =>
          cases s with
          | label name =>
            cases hx
            rfl
          | _ => cases hitem
      subst hlabel
      obtain ⟨is, hdecode, his⟩ := ih hproper' hsize hy hfuel done
      refine ⟨is, ?_, ?_⟩
      · rw [hend] at hdecode
        exact hdecode
      · rw [place, List.filter_cons_of_neg (by simp [hitem])]
        exact his
    | true =>
      obtain ⟨i, hi⟩ := decoded_item hpos (hproper item List.mem_cons_self) hx hroom hitem
      obtain ⟨b, x', hbytes⟩ := List.exists_cons_of_ne_nil hi.nonempty
      have hlength : 0 < x.length := List.length_pos_iff.mpr hi.nonempty
      rw [List.length_append] at hfuel
      obtain ⟨fuel, rfl⟩ := Nat.exists_eq_add_of_le' (show 1 ≤ fuel by omega)
      obtain ⟨is, hdecode, his⟩ := ih hproper' hsize hy
        (show y.length ≤ fuel by omega) (done.push i)
      refine ⟨i :: is, ?_, ?_⟩
      · rw [Instruction.decodeFrom, hi.next y, ← hend]
        simp [hbytes, hdecode]
      · rw [place, List.filter_cons_of_pos (by simp [hitem])]
        exact .cons ⟨hi.offset_eq, hi.size_eq.trans hend.symm, hi.content, hi.leads⟩ his

end

/-! ## Code -/

/-- The item uses a label that stands nowhere, or is a short branch too far from its label. -/
def Item.Misses (program : List Item) (offset : Nat) (item : Item) : Prop :=
  ∃ name ∈ item.uses, .use (.label name) ∉ program ∨
    (∃ opcode, item = .use (.branch opcode name)) ∧
      ∃ p, Bound program name p ∧ ((p : Int) - offset < -32768 ∨ 32767 < (p : Int) - offset)

/-- The instruction stands where the item was put, takes its bytes, says what it does and branches
to the last places of its labels. -/
def Item.Becomes (program : List Item) (offset : Nat) (item : Item) (i : Instruction) : Prop :=
  i.offset = offset ∧ i.size = item.statement.size offset ∧ item.Says i ∧
    List.Forall₂ (fun name t => ∃ p, Bound program name p ∧ t = (p : Int)) item.uses i.targets

section

variable {program : List Item}

theorem assemble_eq_error : (∃ e, assemble (statements program) = .error e) ↔
    ∃ placed ∈ place 0 program, placed.2.Misses program placed.1 := by
  rw [assemble_eq, pieces_statements, link_eq_error]
  have hitem (placed : Nat × Item) : placed.2.Misses program placed.1 ↔
      ∃ p ∈ placed.2.statement.pieces placed.1, ∃ e,
        p.encode (position? (layout 0 (statements program))) = .error e := by
    rw [← link_eq_error, link_item_eq_error]
    simp only [Far, position?_eq_none, position?_eq_some]
    rfl
  simp only [hitem, List.mem_flatMap]
  constructor
  · rintro ⟨p, ⟨placed, hplaced, hp⟩, he⟩
    exact ⟨placed, hplaced, p, hp, he⟩
  · rintro ⟨placed, hplaced, p, hp, he⟩
    exact ⟨p, ⟨placed, hplaced, hp⟩, he⟩

theorem targets_of_leads {offset : Nat} {names : List Text} {i : Instruction}
    (hoffset : i.offset = offset)
    (h : List.Forall₂ (Leads (position? (layout 0 (statements program))) offset) names
      i.op.branches) :
    List.Forall₂ (fun name t => ∃ p, Bound program name p ∧ t = (p : Int)) names i.targets := by
  unfold Instruction.targets
  rw [List.forall₂_map_right_iff]
  refine h.imp ?_
  rintro name t ⟨p, hp, ht⟩
  refine ⟨p, position?_eq_some.mp hp, ?_⟩
  rw [Instruction.absolute, hoffset, ht]

/-- Assembly fails exactly where an item misses a label. Otherwise the code is decoded as the
instructions of the program, in order. The program may have been written in any portions. -/
theorem decode_assemble {pool : Pool} (hproper : ∀ item ∈ program, item.Proper pool)
    {code : List Statement} (hcode : bytewise code = bytewise (statements program))
    (hsize : endOffset 0 code < 2 ^ 31) :
    ((∃ e, assemble code = .error e) ↔
      ∃ placed ∈ place 0 program, placed.2.Misses program placed.1) ∧
    ∀ bytes, assemble code = .ok bytes →
      ∃ instrs, decode pool bytes = .ok instrs ∧
        List.Forall₂ (fun placed i => placed.2.Becomes program placed.1 i)
          ((place 0 program).filter (·.2.isInstruction)) instrs.toList := by
  have hassemble (bytes : Bytes) :
      assemble code = .ok bytes ↔ assemble (statements program) = .ok bytes := by
    rw [← assemble_bytewise, hcode, assemble_bytewise]
  rw [← endOffset_bytewise, hcode, endOffset_bytewise] at hsize
  constructor
  · rw [← assemble_eq_error, exists_error_iff, exists_error_iff]
    simp only [hassemble]
  · intro bytes hbytes
    rw [hassemble, assemble_eq] at hbytes
    have hpos : ∀ name p, position? (layout 0 (statements program)) name = some p →
        p < 2 ^ 31 := by
      intro name p hp
      have hbound : Bound program name p := position?_eq_some.mp hp
      exact hbound.le.trans_lt hsize
    obtain ⟨is, hdecode, his⟩ := decodeFrom_items hpos hproper hsize hbytes (Nat.le_refl _) #[]
    refine ⟨is.toArray, ?_, ?_⟩
    · rw [decode, hdecode, Array.empty_append]
    · refine his.imp ?_
      rintro placed i ⟨hoffset, hsize, hsays, hleads⟩
      exact ⟨hoffset, hsize, hsays, targets_of_leads hoffset hleads⟩

end

def branchingPool : Pool := ⟨#[none, some (.integer 70000)]⟩

/-- Branches in both directions, a label that is put twice and both switches. -/
def branching : List Item := [
  .use (.label "top"),
  .plain [0x13, 0, 1] 0x13 false (.const (.int 70000)),
  .use (.branch 0x99 "end"),
  .use (.tableSwitch "top" (-1) ["end", "middle", "end"]),
  .use (.label "middle"),
  .use (.lookupSwitch "end" [(7, "top"), (-3, "middle")]),
  .use (.label "top"),
  .use (.gotoWide "middle"),
  .use (.branch 0xA7 "top"),
  .use (.label "end"),
  .plain [0x04] 0x04 false (.const (.int 1)),
  .plain [0xAC] 0xAC false (.ret .int)]

/-- The same with an instruction in two portions and two instructions in one. -/
def branchingCode : List Statement := [
  .label "top", .raw [0x13], .raw [0, 1], .branch 0x99 "end",
  .tableSwitch "top" (-1) ["end", "middle", "end"], .label "middle",
  .lookupSwitch "end" [(7, "top"), (-3, "middle")], .label "top", .gotoWide "middle",
  .branch 0xA7 "top", .label "end", .raw [0x04, 0xAC]]

theorem proper_branching : ∀ item ∈ branching, item.Proper branchingPool := by
  have hload : Spells branchingPool [0x13, 0, 1] 0x13 false (.const (.int 70000)) :=
    .constant16 1 (by simp [Instruction.layout]) (.int rfl)
  have hone : Spells branchingPool [0x04] 0x04 false (.const (.int 1)) :=
    .plain (by simp [Instruction.layout])
  have hret : Spells branchingPool [0xAC] 0xAC false (.ret .int) :=
    .plain (by simp [Instruction.layout, Instruction.returnKind, Instruction.slotKind])
  simp only [branching, List.forall_mem_cons, Item.Proper]
  exact ⟨trivial, ⟨hload, rfl⟩, by decide, by decide, trivial, trivial, trivial, trivial,
    by decide, trivial, ⟨hone, rfl⟩, ⟨hret, rfl⟩, fun _ h => (List.not_mem_nil h).elim⟩

theorem decode_assemble_branching :
    (∀ item ∈ branching, item.Proper branchingPool) ∧
    bytewise branchingCode = bytewise (statements branching) ∧
    endOffset 0 branchingCode < 2 ^ 31 ∧
    ∃ bytes, assemble branchingCode = .ok bytes ∧
      ∃ instrs, decode branchingPool bytes = .ok instrs ∧
        List.Forall₂ (fun placed i => placed.2.Becomes branching placed.1 i)
          ((place 0 branching).filter (·.2.isInstruction)) instrs.toList := by
  have hcode : bytewise branchingCode = bytewise (statements branching) := rfl
  have hsize : endOffset 0 branchingCode < 2 ^ 31 := by decide
  have hsome : (assemble branchingCode).toOption.isSome = true := by cbv
  obtain ⟨bytes, hbytes⟩ := Option.isSome_iff_exists.mp hsome
  have hok := ok_of_toOption hbytes
  exact ⟨proper_branching, hcode, hsize, bytes, hok,
    (decode_assemble proper_branching hcode hsize).2 bytes hok⟩

end ClassWasm.Assembly
