/-
  Library methods by their references, and what they make of words. No two methods have one
  reference, so each is found under its own (`find?_eq_some_iff`). Methods on integers read the low
  bits of the words they are given and leave zeros above those of the word they give back; on bits,
  both integer types are words of some width (`Provides`), and what is proved of a method from there
  on does not depend on which.
-/
import Mathlib.Tactic
import ClassWasm.Native.Library

namespace ClassWasm.Native

/-! ## References -/

theorem refs_nodup : (library.map Method.ref).Nodup := by
  refine ((List.mergeSort_perm _ _).map Method.ref).nodup_iff.mpr ?_
  decide +kernel

/-- Every method is found under its reference, and nothing else is. -/
theorem find?_eq_some_iff {ref : MemberRef} {m : Method} :
    find? ref = some m ↔ m ∈ library ∧ m.ref = ref := by
  constructor
  · intro h
    exact ⟨List.mem_of_find?_eq_some h, by simpa using List.find?_some h⟩
  · rintro ⟨hm, rfl⟩
    obtain ⟨m', hfind⟩ : ∃ m', find? m.ref = some m' :=
      Option.isSome_iff_exists.mp (List.find?_isSome.mpr ⟨m, hm, by simp⟩)
    have href : m'.ref = m.ref := by simpa using List.find?_some hfind
    rw [hfind, List.inj_on_of_nodup_map refs_nodup (List.mem_of_find?_eq_some hfind) hm href]

theorem find?_mathematics {m : Method} (h : m ∈ Mathematics.methods) : find? m.ref = some m := by
  refine find?_eq_some_iff.mpr ⟨List.mem_mergeSort.mpr ?_, rfl⟩
  exact List.mem_append_left _ (List.mem_append_right _ h)

/-! ## Words -/

/-- The integer types of methods of mathematics. -/
inductive IntegerType where
  | int
  | long
deriving DecidableEq

/-- A number that `w` bits hold, with its sign. -/
def Fits (w : Nat) (v : Int) : Prop := -2 ^ (w - 1) ≤ v ∧ v < 2 ^ (w - 1)

theorem fits_toInt {w : Nat} (x : BitVec w) : Fits w x.toInt := ⟨BitVec.le_toInt x, BitVec.toInt_lt⟩

theorem Fits.toInt_ofInt {w : Nat} (hw : 0 < w) {v : Int} (h : Fits w v) :
    (BitVec.ofInt w v).toInt = v :=
  BitVec.toInt_ofInt_eq_self hw h.1 h.2

/-- The low bits of a word. -/
def lowBits (w : Nat) (x : UInt64) : BitVec w := x.toBitVec.setWidth w

/-- The word with some bits and zeros above them. -/
def wordOf {w : Nat} (v : BitVec w) : UInt64 := ⟨v.setWidth 64⟩

namespace IntegerType

def bits : IntegerType → Nat
  | int => 32
  | long => 64

def descriptor : IntegerType → Text
  | int => "I"
  | long => "J"

/-- The reference to a method that takes two integers and returns one. -/
def ref (t : IntegerType) (name : Text) : MemberRef :=
  ⟨Mathematics.owner, name, "(" ++ t.descriptor ++ t.descriptor ++ ")" ++ t.descriptor⟩

end IntegerType

/-- The library has a method of this name that computes `f` on the low bits of its first two words,
whatever stands above them. -/
def Provides (t : IntegerType) (name : Text)
    (f : BitVec t.bits → BitVec t.bits → Except Exception (BitVec t.bits)) : Prop :=
  ∃ m, find? (t.ref name) = some m ∧ ∀ (clock : Clock) (x y : UInt64) (rest : List UInt64),
    m.run clock (x :: y :: rest) = (f (lowBits t.bits x) (lowBits t.bits y)).map wordOf

/-- A check that is made on machine integers is made on their bits. -/
theorem map_guard {α β : Type} {f : α → β} {p q : Prop} [Decidable p] [Decidable q] {e : Exception}
    {x : α} {y : β} (hpq : p ↔ q) (hx : f x = y) :
    (if p then .error e else .ok x : Except Exception α).map f = if q then .error e else .ok y := by
  subst hx
  by_cases h : q
  · rw [if_pos h, if_pos (hpq.mpr h)]
    rfl
  · rw [if_neg h, if_neg (mt hpq.mp h)]
    rfl

/-- What a method computes on machine integers, it computes on their bits. -/
theorem run_checked {α : Type} [Encoded α] {w : Nat} {bits : α → BitVec w}
    (hread : ∀ x, bits (Encoded.ofWord x) = lowBits w x)
    (hwrite : ∀ v : α, Encoded.toWord v = wordOf (bits v)) {f : α → α → Except Exception α}
    {g : BitVec w → BitVec w → Except Exception (BitVec w)}
    (h : ∀ a b, (f a b).map bits = g (bits a) (bits b)) (owner name : Text) (clock : Clock)
    (x y : UInt64) (rest : List UInt64) :
    (checked owner name f).run clock (x :: y :: rest) =
      (g (lowBits w x) (lowBits w y)).map wordOf := by
  change (f (Encoded.ofWord x) (Encoded.ofWord y)).map Encoded.toWord = _
  rw [← hread, ← hread, ← h]
  cases f (Encoded.ofWord x) (Encoded.ofWord y) with
  | error e => rfl
  | ok v => exact congrArg Except.ok (hwrite v)

theorem provides_int {name : Text} {f : Int32 → Int32 → Except Exception Int32}
    {g : BitVec 32 → BitVec 32 → Except Exception (BitVec 32)}
    (hm : checked Mathematics.owner name f ∈ Mathematics.methods)
    (h : ∀ a b, (f a b).map Int32.toBitVec = g a.toBitVec b.toBitVec) : Provides .int name g :=
  ⟨_, find?_mathematics hm, run_checked (fun _ => rfl) (fun _ => rfl) h _ _⟩

theorem provides_long {name : Text} {f : Int64 → Int64 → Except Exception Int64}
    {g : BitVec 64 → BitVec 64 → Except Exception (BitVec 64)}
    (hm : checked Mathematics.owner name f ∈ Mathematics.methods)
    (h : ∀ a b, (f a b).map Int64.toBitVec = g a.toBitVec b.toBitVec) : Provides .long name g :=
  ⟨_, find?_mathematics hm,
    run_checked (fun _ => (BitVec.setWidth_eq _).symm) (fun _ => by simp [wordOf]; rfl) h _ _⟩

end ClassWasm.Native
