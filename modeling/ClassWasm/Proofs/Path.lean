/-
  The parts of a cleaned path. Its double dots come first (`downward_clean`): from where the first
  name is entered, the path only leads further down.
-/
import ClassWasm.Path

namespace ClassWasm

/-! ## Pieces of a text -/

namespace Text

variable {sep : UInt8}

theorem pieces_of_not_mem {bs : List UInt8} (h : sep ∉ bs) (piece : List UInt8) :
    splitOn.pieces sep piece bs = [⟨piece.reverse ++ bs⟩] := by
  induction bs generalizing piece with
  | nil => simp only [splitOn.pieces, List.append_nil]
  | cons b bs ih =>
    rw [List.mem_cons, not_or] at h
    rw [splitOn.pieces, if_neg (Ne.symm h.1), ih h.2, List.reverse_cons, List.append_assoc,
      List.singleton_append]

theorem pieces_append_sep {bs : List UInt8} (h : sep ∉ bs) (piece rest : List UInt8) :
    splitOn.pieces sep piece (bs ++ sep :: rest) =
      ⟨piece.reverse ++ bs⟩ :: splitOn.pieces sep [] rest := by
  induction bs generalizing piece with
  | nil => simp only [List.nil_append, splitOn.pieces, if_pos, List.append_nil]
  | cons b bs ih =>
    rw [List.mem_cons, not_or] at h
    rw [List.cons_append, splitOn.pieces, if_neg (Ne.symm h.1), ih h.2, List.reverse_cons,
      List.append_assoc, List.singleton_append]

/-- Texts that were joined are found again. -/
theorem splitOn_join {ts : List Text} (hne : ts ≠ []) (h : ∀ t ∈ ts, sep ∉ t.bytes) :
    (join ⟨[sep]⟩ ts).splitOn sep = ts := by
  induction ts with
  | nil => exact absurd rfl hne
  | cons t ts ih =>
    have ht := h t List.mem_cons_self
    cases ts with
    | nil =>
      simp only [join, splitOn, List.map_cons, List.map_nil, List.intercalate_singleton]
      exact pieces_of_not_mem ht []
    | cons t' ts =>
      have hrest := ih (List.cons_ne_nil _ _) fun u hu => h u (List.mem_cons_of_mem _ hu)
      simp only [join, splitOn, List.map_cons, List.intercalate_cons_cons, List.append_assoc,
        List.singleton_append] at hrest ⊢
      rw [pieces_append_sep ht, hrest]
      rfl

theorem not_mem_of_mem_pieces {bs piece : List UInt8} (h : sep ∉ piece) {t : Text}
    (ht : t ∈ splitOn.pieces sep piece bs) : sep ∉ t.bytes := by
  induction bs generalizing piece with
  | nil =>
    obtain rfl := List.mem_singleton.mp ht
    simpa using h
  | cons b bs ih =>
    rw [splitOn.pieces] at ht
    split at ht
    · rcases List.mem_cons.mp ht with rfl | ht
      · simpa using h
      · exact ih List.not_mem_nil ht
    · next hb => exact ih (by simpa using ⟨Ne.symm hb, h⟩) ht

theorem not_mem_of_mem_splitOn {t u : Text} (h : u ∈ t.splitOn sep) : sep ∉ u.bytes :=
  not_mem_of_mem_pieces List.not_mem_nil h

end Text

/-! ## Parts of a path -/

namespace Path

/-- The part for the directory above. -/
def above : Text := ".."

/-- Double dots come before all names. -/
def Downward (parts : List Text) : Prop :=
  ∃ dots names, parts = dots ++ names ∧ (∀ d ∈ dots, d.isEmpty ∨ d = above) ∧ above ∉ names

/-- What `reduce` keeps, in reverse. -/
def Kept (kept : List Text) : Prop :=
  ∃ names dots, kept = names ++ dots ∧ above ∉ names ∧ (∀ d ∈ dots, d = above) ∧
    ∀ part ∈ kept, slash ∉ part.bytes

theorem Kept.name {kept : List Text} (h : Kept kept) {part : Text} (habove : part ≠ above)
    (hslash : slash ∉ part.bytes) : Kept (part :: kept) := by
  obtain ⟨names, dots, rfl, hnames, hdots, hall⟩ := h
  exact ⟨part :: names, dots, rfl, List.not_mem_cons_of_ne_of_not_mem habove.symm hnames, hdots,
    List.forall_mem_cons.mpr ⟨hslash, hall⟩⟩

theorem Kept.tail {last : Text} {before : List Text} (h : Kept (last :: before))
    (hlast : last ≠ above) : Kept before := by
  obtain ⟨names, dots, heq, hnames, hdots, hall⟩ := h
  cases names with
  | nil =>
    rw [List.nil_append] at heq
    exact absurd (hdots last (heq ▸ List.mem_cons_self)) hlast
  | cons name names =>
    obtain ⟨rfl, rfl⟩ := List.cons.inj heq
    exact ⟨names, dots, rfl, fun h => hnames (List.mem_cons_of_mem _ h), hdots,
      fun part hpart => hall part (List.mem_cons_of_mem _ hpart)⟩

theorem Kept.above {before : List Text} (h : Kept (above :: before)) :
    Kept (Path.above :: Path.above :: before) := by
  obtain ⟨names, dots, heq, hnames, hdots, hall⟩ := h
  cases names with
  | nil =>
    rw [List.nil_append] at heq
    subst heq
    exact ⟨[], Path.above :: Path.above :: before, rfl, List.not_mem_nil,
      List.forall_mem_cons.mpr ⟨rfl, hdots⟩,
      List.forall_mem_cons.mpr ⟨hall _ List.mem_cons_self, hall⟩⟩
  | cons name names =>
    obtain ⟨rfl, rfl⟩ := List.cons.inj heq
    exact absurd List.mem_cons_self hnames

theorem kept_reduce {rooted : Bool} {kept parts : List Text} (h : Kept kept)
    (hparts : ∀ part ∈ parts, slash ∉ part.bytes) : Kept (reduce rooted kept parts).reverse := by
  induction parts generalizing kept with
  | nil => rwa [reduce, List.reverse_reverse]
  | cons part parts ih =>
    obtain ⟨hpart, hparts⟩ := List.forall_mem_cons.mp hparts
    unfold reduce
    split
    · exact ih h hparts
    · split
      · next habove =>
        cases kept with
        | nil =>
          refine ih ?_ hparts
          cases rooted with
          | true => exact h
          | false =>
            exact ⟨[], [part], rfl, List.not_mem_nil, List.forall_mem_singleton.mpr habove,
              List.forall_mem_singleton.mpr hpart⟩
        | cons last before =>
          refine ih ?_ hparts
          split
          · next hlast =>
            subst hlast habove
            exact h.above
          · next hlast => exact h.tail hlast
      · next habove => exact ih (h.name habove hpart) hparts

theorem not_mem_parts {p part : Text} (h : part ∈ parts p) : slash ∉ part.bytes :=
  Text.not_mem_of_mem_splitOn h

theorem parts_cons_slash (p : Text) : parts ("/" ++ p) = .empty :: parts p := rfl

theorem Kept.downward {kept : List Text} (h : Kept kept.reverse) : Downward kept := by
  obtain ⟨names, dots, heq, hnames, hdots, -⟩ := h
  refine ⟨dots.reverse, names.reverse, ?_, fun d hd => .inr (hdots d (List.mem_reverse.mp hd)),
    fun h => hnames (List.mem_reverse.mp h)⟩
  rw [← List.reverse_append, ← heq, List.reverse_reverse]

theorem Downward.rooted {parts : List Text} (h : Downward parts) : Downward (.empty :: parts) := by
  obtain ⟨dots, names, rfl, hdots, hnames⟩ := h
  exact ⟨.empty :: dots, names, rfl, List.forall_mem_cons.mpr ⟨.inl rfl, hdots⟩, hnames⟩

theorem downward_join {kept : List Text} (h : Kept kept.reverse) :
    Downward (parts (Text.join "/" kept)) := by
  obtain ⟨_, _, -, -, -, hslash⟩ := id h
  by_cases hne : kept = []
  · subst hne
    exact ⟨[.empty], [], rfl, by simp [Text.empty, Text.isEmpty], List.not_mem_nil⟩
  · have hparts : parts (Text.join "/" kept) = kept :=
      Text.splitOn_join hne fun t ht => hslash t (List.mem_reverse.mpr ht)
    rw [hparts]
    exact h.downward

/-- A cleaned path goes up first and then only down. -/
theorem downward_clean (p : Text) : Downward (parts (clean p)) := by
  have hkept : Kept (reduce (isAbsolute p) [] (parts p)).reverse :=
    kept_reduce ⟨[], [], rfl, List.not_mem_nil, List.forall_mem_nil _, List.forall_mem_nil _⟩
      fun part => not_mem_parts
  have hjoin := downward_join hkept
  unfold clean
  simp only
  split
  · rw [parts_cons_slash]
    exact hjoin.rooted
  · split
    · exact ⟨[], ["."], rfl, List.forall_mem_nil _, by decide⟩
    · exact hjoin

/-- All that is above a cleaned path is cleaned. -/
theorem downward_of_mem_upward {p q : Text} (h : q ∈ upward (clean p)) : Downward (parts q) := by
  have hgo : ∀ n p, Downward (parts p) → ∀ q ∈ upward.go n p, Downward (parts q) := by
    intro n
    induction n with
    | zero =>
      intro p hp q hq
      rwa [List.mem_singleton.mp hq]
    | succ n ih =>
      intro p hp q hq
      unfold upward.go at hq
      split at hq
      · rwa [List.mem_singleton.mp hq]
      · rcases List.mem_cons.mp hq with rfl | hq
        · exact hp
        · exact ih _ (downward_clean _) q hq
  exact hgo _ _ (downward_clean p) q h

end Path

end ClassWasm
