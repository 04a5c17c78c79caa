/-
  Trees of files and the places in them. In a closed tree every file and directory lies in a
  directory. Where a path leads depends on the directories alone (`walk_mono`), and a cleaned path
  that leads nowhere in a closed tree leads to a new place once there are more directories
  (`find_new`).
-/
import ClassWasm.Files.Tree
import ClassWasm.Proofs.Path
import ClassWasm.Proofs.Results

namespace ClassWasm.FileTree

variable {t t' : FileTree} {p q : FilePlace} {n : FileNode}

/-- Something of the tree is listed for a place. -/
def Has (t : FileTree) (p : FilePlace) : Prop := p ∈ t.nodes.map Prod.fst

instance (t : FileTree) (p : FilePlace) : Decidable (t.Has p) :=
  inferInstanceAs (Decidable (p ∈ t.nodes.map Prod.fst))

def IsDirectory (t : FileTree) (p : FilePlace) : Prop := t.node? p = some .directory

instance (t : FileTree) (p : FilePlace) : Decidable (t.IsDirectory p) :=
  inferInstanceAs (Decidable (t.node? p = some .directory))

/-- Files and directories lie in directories, and relative paths start at one. -/
structure Closed (t : FileTree) : Prop where
  parents : ∀ p, t.Has p → p ≠ [] ∧ t.IsDirectory p.dropLast
  current : t.IsDirectory t.current

theorem closed_iff : t.Closed ↔
    (∀ n ∈ t.nodes, n.1 ≠ [] ∧ t.IsDirectory n.1.dropLast) ∧ t.IsDirectory t.current := by
  constructor
  · exact fun h => ⟨fun n hn => h.parents n.1 (List.mem_map_of_mem hn), h.current⟩
  · rintro ⟨hparents, hcurrent⟩
    refine ⟨fun p hp => ?_, hcurrent⟩
    obtain ⟨n, hn, rfl⟩ := List.mem_map.mp hp
    exact hparents n hn

instance (t : FileTree) : Decidable t.Closed := decidable_of_iff _ closed_iff.symm

/-- All directories of one tree are there in another one, and relative paths start at the same. -/
structure Reaches (t t' : FileTree) : Prop where
  current : t'.current = t.current
  directories : ∀ p, t.IsDirectory p → t'.IsDirectory p

theorem Reaches.refl (t : FileTree) : Reaches t t := ⟨rfl, fun _ h => h⟩

theorem Reaches.trans {t'' : FileTree} (h : Reaches t t') (h' : Reaches t' t'') : Reaches t t'' :=
  ⟨h'.current.trans h.current, fun p hp => h'.directories p (h.directories p hp)⟩

/-! ## Nodes -/

theorem isDirectory_root (t : FileTree) : t.IsDirectory [] := if_pos rfl

theorem ne_root_of_not_isDirectory (h : ¬ t.IsDirectory p) : p ≠ [] :=
  fun hroot => h (hroot ▸ isDirectory_root t)

theorem not_isDirectory_of_none (h : t.node? p = none) : ¬ t.IsDirectory p := by
  intro hp
  rw [IsDirectory, h] at hp
  cases hp

theorem not_isDirectory_of_file {data : Bytes} (h : t.node? p = some (.file data)) :
    ¬ t.IsDirectory p := by
  intro hp
  rw [IsDirectory, h] at hp
  cases hp

theorem node?_of_ne (t : FileTree) (hp : p ≠ []) : t.node? p = t.nodes.lookup p := if_neg hp

theorem node?_eq_none : t.node? p = none ↔ p ≠ [] ∧ ¬ t.Has p := by
  by_cases hp : p = []
  · subst hp
    exact iff_of_false (Option.some_ne_none _) fun h => h.1 rfl
  · rw [node?_of_ne t hp, List.lookup_eq_none_iff]
    refine ⟨fun h => ⟨hp, fun hhas => ?_⟩, fun h n hn => ?_⟩
    · obtain ⟨n, hn, rfl⟩ := List.mem_map.mp hhas
      simpa using h n hn
    · have hne : p ≠ n.1 := fun heq => h.2 (List.mem_map.mpr ⟨n, hn, heq.symm⟩)
      simpa using hne

theorem has_of_node? (h : t.node? p = some n) (hp : p ≠ []) : t.Has p := by
  by_contra hnot
  rw [node?_eq_none.mpr ⟨hp, hnot⟩] at h
  cases h

theorem Closed.parent (h : t.Closed) (hp : t.IsDirectory p) : t.IsDirectory p.dropLast := by
  by_cases hroot : p = []
  · subst hroot
    exact hp
  · exact (h.parents p (has_of_node? hp hroot)).2

/-- Nothing lies where there is no directory. -/
theorem Closed.nothing_below (h : t.Closed) (hp : t.node? p = none) (name : Text) :
    t.node? (p ++ [name]) = none := by
  refine node?_eq_none.mpr ⟨List.append_ne_nil_of_right_ne_nil _ (List.cons_ne_nil _ _),
    fun hhas => ?_⟩
  have hparent := (h.parents _ hhas).2
  rw [List.dropLast_concat] at hparent
  exact not_isDirectory_of_none hp hparent

theorem has_insert : (t.insert p n).Has q ↔ t.Has q ∨ q = p := by
  simp only [Has, insert, List.map_append, List.mem_append, List.map_cons, List.map_nil,
    List.mem_singleton]

theorem has_erase : (t.erase p).Has q ↔ t.Has q ∧ q ≠ p := by
  simp only [Has, erase, List.mem_map, List.mem_filter, decide_eq_true_eq]
  constructor
  · rintro ⟨n, ⟨hn, hne⟩, rfl⟩
    exact ⟨⟨n, hn, rfl⟩, hne⟩
  · rintro ⟨⟨n, hn, rfl⟩, hne⟩
    exact ⟨n, ⟨hn, hne⟩, rfl⟩

theorem node?_insert (hp : t.node? p = none) :
    (t.insert p n).node? q = if q = p then some n else t.node? q := by
  obtain ⟨hroot, hnew⟩ := node?_eq_none.mp hp
  by_cases hq : q = []
  · subst hq
    rw [if_neg (Ne.symm hroot)]
    rfl
  · rw [node?_of_ne _ hq, node?_of_ne _ hq, insert, List.lookup_append]
    by_cases hsame : q = p
    · subst hsame
      rw [if_pos rfl, ← node?_of_ne t hq, hp]
      simp
    · have hne : (q == p) = false := beq_false_of_ne hsame
      rw [if_neg hsame, List.lookup_cons, hne]
      exact Option.or_none

theorem lookup_filter_ne (hne : q ≠ p) (nodes : List (FilePlace × FileNode)) :
    (nodes.filter fun (r, _) => r ≠ p).lookup q = nodes.lookup q := by
  induction nodes with
  | nil => rfl
  | cons n nodes ih =>
    by_cases hkeep : n.1 = p
    · have hother : (q == n.1) = false := beq_false_of_ne (hkeep ▸ hne)
      rw [List.filter_cons_of_neg (by simpa using hkeep), ih, List.lookup_cons, hother]
    · rw [List.filter_cons_of_pos (by simpa using hkeep), List.lookup_cons, List.lookup_cons, ih]

theorem node?_erase (hp : p ≠ []) :
    (t.erase p).node? q = if q = p then none else t.node? q := by
  split
  · next hsame =>
    subst hsame
    exact node?_eq_none.mpr ⟨hp, fun h => (has_erase.mp h).2 rfl⟩
  · next hne =>
    by_cases hq : q = []
    · subst hq
      rfl
    · rw [node?_of_ne _ hq, node?_of_ne _ hq]
      exact lookup_filter_ne hne t.nodes

/-! ## Where paths lead -/

/-- One part of a path leads from a directory to a place. -/
inductive Turns (p : FilePlace) : Text → FilePlace → Prop
  | stay {part : Text} (h : part.isEmpty ∨ part = ".") : Turns p part p
  | above : Turns p Path.above p.dropLast
  | name {part : Text} (h : part ≠ Path.above) (hstay : ¬ (part.isEmpty ∨ part = ".")) :
    Turns p part (p ++ [part])

theorem walk_cons_ok {part : Text} {rest : List Text} (h : t.walk p (part :: rest) = .ok q) :
    t.IsDirectory p ∧ ∃ p', Turns p part p' ∧
      (∀ t' : FileTree, t'.IsDirectory p → t'.walk p (part :: rest) = t'.walk p' rest) := by
  unfold walk at h
  split at h
  · cases h
  · cases h
  · next hp =>
    refine ⟨hp, ?_⟩
    split at h
    · next hstay =>
      refine ⟨p, .stay hstay, fun t' hp' => ?_⟩
      rw [walk, hp']
      exact if_pos hstay
    · next hstay =>
      split at h
      · next habove =>
        subst habove
        refine ⟨p.dropLast, .above, fun t' hp' => ?_⟩
        rw [walk, hp']
        rfl
      · next habove =>
        split at h
        · cases h
        · next hlong =>
          refine ⟨p ++ [part], .name habove hstay, fun t' hp' => ?_⟩
          rw [walk, hp']
          simp only
          rw [if_neg hstay, if_neg habove, if_neg hlong]

/-- A path that leads somewhere leads there with more directories as well. -/
theorem walk_mono (h : ∀ p, t.IsDirectory p → t'.IsDirectory p) {parts : List Text}
    (hwalk : t.walk p parts = .ok q) : t'.walk p parts = .ok q := by
  induction parts generalizing p with
  | nil => exact hwalk
  | cons part rest ih =>
    obtain ⟨hp, p', -, heq⟩ := walk_cons_ok hwalk
    rw [heq t hp] at hwalk
    rw [heq t' (h p hp)]
    exact ih hwalk

theorem place_ok {path : Text} (h : t.place path = .ok p) :
    ∃ start, (start = [] ∨ start = t.current) ∧ ∀ t' : FileTree, t'.current = t.current →
      t'.place path = t'.walk start (Path.parts path) := by
  unfold place at h
  split at h
  · cases h
  · next hempty =>
    split at h
    · cases h
    · next hlong =>
      refine ⟨if Path.isAbsolute path then [] else t.current, ?_, fun t' hcurrent => ?_⟩
      · split
        · exact .inl rfl
        · exact .inr rfl
      · rw [place, if_neg hempty, if_neg hlong, hcurrent]

theorem place_mono (h : Reaches t t') {path : Text} (hplace : t.place path = .ok p) :
    t'.place path = .ok p := by
  obtain ⟨start, -, heq⟩ := place_ok hplace
  rw [heq t rfl] at hplace
  rw [heq t' h.current]
  exact walk_mono h.directories hplace

theorem Closed.start (h : t.Closed) (hp : p = [] ∨ p = t.current) : t.IsDirectory p := by
  rcases hp with rfl | rfl
  · exact isDirectory_root t
  · exact h.current

/-- What a path leads to lies in a directory. -/
theorem Closed.walk_parent (h : t.Closed) {parts : List Text} (hp : t.IsDirectory p.dropLast)
    (hwalk : t.walk p parts = .ok q) : t.IsDirectory q.dropLast := by
  induction parts generalizing p with
  | nil =>
    cases hwalk
    exact hp
  | cons part rest ih =>
    obtain ⟨hdirectory, p', hturn, heq⟩ := walk_cons_ok hwalk
    rw [heq t hdirectory] at hwalk
    refine ih ?_ hwalk
    cases hturn with
    | stay => exact hp
    | above => exact h.parent hp
    | name =>
      rw [List.dropLast_concat]
      exact hdirectory

theorem Closed.place_parent (h : t.Closed) {path : Text} (hplace : t.place path = .ok p) :
    t.IsDirectory p.dropLast := by
  obtain ⟨start, hstart, heq⟩ := place_ok hplace
  rw [heq t rfl] at hplace
  exact h.walk_parent (h.parent (h.start hstart)) hplace

/-! ## Paths that lead nowhere -/

/-- Nothing is where the parts of a path lead. -/
def LeadsNowhere (t : FileTree) (p : FilePlace) (parts : List Text) : Prop :=
  t.walk p parts = .error .missing ∨ ∃ q, t.walk p parts = .ok q ∧ t.node? q = none

section

variable (h : t.Closed)

include h

/-- Names lead from a new place to a new place. -/
theorem Closed.walk_new {names : List Text} (hnames : Path.above ∉ names) (hp : t.node? p = none)
    (hwalk : t'.walk p names = .ok q) : t.node? q = none := by
  induction names generalizing p with
  | nil =>
    cases hwalk
    exact hp
  | cons part rest ih =>
    obtain ⟨hdirectory, p', hturn, heq⟩ := walk_cons_ok hwalk
    rw [heq t' hdirectory] at hwalk
    refine ih (fun hmem => hnames (List.mem_cons_of_mem _ hmem)) ?_ hwalk
    cases hturn with
    | stay => exact hp
    | above => exact absurd List.mem_cons_self hnames
    | name => exact h.nothing_below hp part

theorem Closed.walk_names {names : List Text} (hnames : Path.above ∉ names)
    (hnowhere : t.LeadsNowhere p names) (hwalk : t'.walk p names = .ok q) : t.node? q = none := by
  induction names generalizing p with
  | nil =>
    cases hwalk
    obtain hmissing | ⟨r, hr, hnone⟩ := hnowhere
    · cases hmissing
    · cases hr
      exact hnone
  | cons part rest ih =>
    cases hp : t.node? p with
    | none => exact h.walk_new hnames hp hwalk
    | some n =>
      cases n with
      | file data =>
        unfold LeadsNowhere walk at hnowhere
        rw [hp] at hnowhere
        obtain hmissing | ⟨r, hr, -⟩ := hnowhere
        · cases hmissing
        · cases hr
      | directory =>
        obtain ⟨hdirectory, p', -, heq⟩ := walk_cons_ok hwalk
        rw [heq t' hdirectory] at hwalk
        unfold LeadsNowhere at hnowhere
        rw [heq t hp] at hnowhere
        exact ih (fun hmem => hnames (List.mem_cons_of_mem _ hmem)) hnowhere hwalk

/-- A way that goes up first and then down leads to a new place, once it leads anywhere. -/
theorem Closed.walk_downward {parts : List Text} (hparts : Path.Downward parts)
    (hp : t.IsDirectory p) (hnowhere : t.LeadsNowhere p parts) (hwalk : t'.walk p parts = .ok q) :
    t.node? q = none := by
  obtain ⟨dots, names, rfl, hdots, hnames⟩ := hparts
  induction dots generalizing p with
  | nil => exact h.walk_names hnames hnowhere hwalk
  | cons dot dots ih =>
    obtain ⟨hdot, hdots⟩ := List.forall_mem_cons.mp hdots
    rw [List.cons_append] at hwalk hnowhere
    obtain ⟨hdirectory, p', hturn, heq⟩ := walk_cons_ok hwalk
    rw [heq t' hdirectory] at hwalk
    unfold LeadsNowhere at hnowhere
    rw [heq t hp] at hnowhere
    refine ih ?_ hnowhere hwalk hdots
    cases hturn with
    | stay => exact hp
    | above => exact h.parent hp
    | name hname hempty => exact absurd hdot (not_or.mpr ⟨fun he => hempty (.inl he), hname⟩)

end

/-! ## Operations -/

theorem find_of_place {path : Text} (h : t.place path = .ok p) :
    t.find path = match t.node? p with
      | none => .error .missing
      | some n => .ok (p, n) := by
  unfold find
  rw [h]
  rfl

theorem find_eq_ok {path : Text} :
    t.find path = .ok (p, n) ↔ t.place path = .ok p ∧ t.node? p = some n := by
  constructor
  · intro h
    cases hplace : t.place path with
    | error e =>
      rw [find, hplace] at h
      cases h
    | ok q =>
      rw [find_of_place hplace] at h
      split at h
      · cases h
      · next hq =>
        cases h
        exact ⟨rfl, hq⟩
  · rintro ⟨hplace, hnode⟩
    rw [find_of_place hplace, hnode]

theorem vacant_eq_ok {path : Text} :
    t.vacant path = .ok p ↔ t.place path = .ok p ∧ t.node? p = none := by
  have hvacant {q : FilePlace} (h : t.place path = .ok q) :
      t.vacant path = if (t.node? q).isSome then .error .present else .ok q := by
    unfold vacant
    rw [h]
    rfl
  constructor
  · intro h
    cases hplace : t.place path with
    | error e =>
      rw [vacant, hplace] at h
      cases h
    | ok q =>
      rw [hvacant hplace] at h
      split at h
      · cases h
      · next hnone =>
        cases h
        exact ⟨rfl, by simpa using hnone⟩
  · rintro ⟨hplace, hnone⟩
    rw [hvacant hplace, hnone]
    rfl

theorem insert_eq_ok {path : Text} :
    (t.vacant path >>= fun p => pure (t.insert p n)) = .ok t' ↔
      ∃ p, t.vacant path = .ok p ∧ t' = t.insert p n := by
  rw [bind_eq_ok]
  refine exists_congr fun p => and_congr_right fun _ => ?_
  exact ⟨fun h => (Except.ok.inj h).symm, fun h => congrArg Except.ok h.symm⟩

theorem makeDirectory_eq_ok {path : Text} :
    t.makeDirectory path = .ok t' ↔ ∃ p, t.vacant path = .ok p ∧ t' = t.insert p .directory :=
  insert_eq_ok

theorem createFile_eq_ok {path : Text} {data : Bytes} :
    t.createFile path data = .ok t' ↔
      ∃ p, t.vacant path = .ok p ∧ t' = t.insert p (.file data) :=
  insert_eq_ok

theorem find_missing {path : Text} (h : t.find path = .error .missing) :
    t.place path = .error .missing ∨ ∃ p, t.place path = .ok p ∧ t.node? p = none := by
  cases hplace : t.place path with
  | error e =>
    rw [find, hplace] at h
    cases h
    exact .inl rfl
  | ok p =>
    rw [find_of_place hplace] at h
    split at h
    · next hnone => exact .inr ⟨p, rfl, hnone⟩
    · cases h

/-- Where a cleaned path did not lead anywhere, it leads to a new place. -/
theorem Closed.place_new (h : t.Closed) (hcurrent : t'.current = t.current) {path : Text}
    (hpath : Path.Downward (Path.parts path)) (hmissing : t.find path = .error .missing)
    (hplace : t'.place path = .ok q) : t.node? q = none := by
  obtain ⟨start, hstart, heq⟩ := place_ok hplace
  have hnowhere := find_missing hmissing
  rw [heq t hcurrent.symm] at hnowhere
  rw [heq t' rfl] at hplace
  rw [hcurrent] at hstart
  exact h.walk_downward hpath (h.start hstart) hnowhere hplace

end ClassWasm.FileTree
