/-
  Trees that grow and are cut back. A tree grows by directories and files at new places (`Grown`).
  Another one may lack some old files and have some new nodes (`Differs`). As long as it has the
  directories of a grown tree, the paths that made them name the same places there, so that
  directories can be removed in the reverse order (`remove_made`).
-/
import ClassWasm.Proofs.Files.Tree

namespace ClassWasm.FileTree

variable {t₀ t t' : FileTree} {p q : FilePlace} {n : FileNode} {path : Text}

/-! ## Places that are taken and left -/

theorem isDirectory_insert (hp : t.node? p = none) :
    (t.insert p n).IsDirectory q ↔ q = p ∧ n = .directory ∨ t.IsDirectory q := by
  unfold IsDirectory
  rw [node?_insert hp]
  by_cases hq : q = p
  · subst hq
    simp [hp]
  · simp [hq]

theorem reaches_insert (hp : t.node? p = none) (n : FileNode) : Reaches t (t.insert p n) :=
  ⟨rfl, fun _ hq => (isDirectory_insert hp).mpr (.inr hq)⟩

theorem isDirectory_erase (hp : p ≠ []) :
    (t.erase p).IsDirectory q ↔ q ≠ p ∧ t.IsDirectory q := by
  unfold IsDirectory
  rw [node?_erase hp]
  by_cases hq : q = p
  · simp [hq]
  · simp [hq]

/-- A place that is not a directory of one tree is none that this tree reaches another one by. -/
theorem Reaches.erase (h : Reaches t t') (hp : ¬ t.IsDirectory p) : Reaches t (t'.erase p) := by
  have hroot : p ≠ [] := ne_root_of_not_isDirectory hp
  refine ⟨h.current, fun q hq => (isDirectory_erase hroot).mpr ⟨?_, h.directories q hq⟩⟩
  rintro rfl
  exact hp hq

theorem erase_of_not_has (h : ¬ t.Has p) : t.erase p = t := by
  have hall : t.nodes.filter (fun n => n.1 ≠ p) = t.nodes := by
    refine List.filter_eq_self.mpr fun n hn => ?_
    simpa using fun heq => h (List.mem_map.mpr ⟨n, hn, heq⟩)
  exact congrArg (fun nodes => { t with nodes }) hall

theorem Closed.insert (h : t.Closed) (hvacant : t.vacant path = .ok p) (n : FileNode) :
    (t.insert p n).Closed := by
  obtain ⟨hplace, hnone⟩ := vacant_eq_ok.mp hvacant
  have hreach := reaches_insert hnone n
  refine ⟨fun q hq => ?_, hreach.directories _ h.current⟩
  rcases has_insert.mp hq with hq | rfl
  · obtain ⟨hroot, hparent⟩ := h.parents q hq
    exact ⟨hroot, hreach.directories _ hparent⟩
  · exact ⟨(node?_eq_none.mp hnone).1, hreach.directories _ (h.place_parent hplace)⟩

/-! ## Removals -/

/-- The tree after an attempt to remove what is at a path. -/
def without (t : FileTree) (path : Text) : FileTree := (t.remove path).toOption.getD t

theorem remove_run (t : FileTree) (path : Text) :
    (Files.remove path : StateM FileTree (Except FileFault Unit)) t =
      match t.remove path with
      | .ok t => (.ok (), t)
      | .error e => (.error ⟨"remove", [path], e⟩, t) := rfl

theorem remove_without (t : FileTree) (path : Text) : ∃ r,
    (Files.remove path : StateM FileTree (Except FileFault Unit)) t = (r, t.without path) := by
  rw [remove_run]
  unfold without
  cases t.remove path with
  | ok t' => exact ⟨_, rfl⟩
  | error e => exact ⟨_, rfl⟩

theorem remove_eq (hplace : t.place path = .ok p) (hp : t.node? p = some n) :
    t.remove path =
      if n = .directory ∧ t.hasChildren p then .error .notEmpty else .ok (t.erase p) := by
  unfold remove
  rw [find_eq_ok.mpr ⟨hplace, hp⟩]
  rfl

/-- What goes with a removal is the node at the path. -/
theorem without_cases (t : FileTree) (path : Text) :
    t.without path = t ∨ ∃ p n, t.place path = .ok p ∧ t.node? p = some n ∧
      t.without path = t.erase p := by
  unfold without
  cases hremove : t.remove path with
  | error e => exact .inl rfl
  | ok t' =>
    refine .inr ?_
    cases hfind : t.find path with
    | error e =>
      rw [remove, hfind] at hremove
      cases hremove
    | ok found =>
      obtain ⟨hplace, hnode⟩ := find_eq_ok.mp hfind
      refine ⟨found.1, found.2, hplace, hnode, ?_⟩
      rw [remove_eq hplace hnode] at hremove
      split at hremove
      · cases hremove
      · cases hremove
        rfl

/-- An attempt to remove a file leaves nothing at its place. -/
theorem without_file (hplace : t.place path = .ok p) (hp : ¬ t.IsDirectory p) :
    t.without path = t.erase p := by
  cases hnode : t.node? p with
  | none =>
    rw [erase_of_not_has (node?_eq_none.mp hnode).2]
    refine (without_cases t path).resolve_right ?_
    rintro ⟨q, n, hq, hn, -⟩
    cases hplace.symm.trans hq
    rw [hnode] at hn
    cases hn
  | some n =>
    have hfile : n ≠ .directory := by
      rintro rfl
      exact hp hnode
    unfold without
    rw [remove_eq hplace hnode, if_neg fun h => hfile h.1]
    rfl

/-! ## Growth -/

/-- How a tree has come from another one: by directories made, given by their paths from the last
one to the first, and by files made, given in order. -/
inductive Grown (t₀ : FileTree) : (directories files : List Text) → FileTree → Prop
  | start : Grown t₀ [] [] t₀
  | directory {ds fs : List Text} {t : FileTree} {path : Text} {p : FilePlace}
    (h : Grown t₀ ds fs t) (hvacant : t.vacant path = .ok p) :
    Grown t₀ (path :: ds) fs (t.insert p .directory)
  | file {ds fs : List Text} {t : FileTree} {path : Text} {p : FilePlace}
    (h : Grown t₀ ds fs t) (hvacant : t.vacant path = .ok p) (data : Bytes) :
    Grown t₀ ds (fs ++ [path]) (t.insert p (.file data))

/-- A tree is another one without what was at lost places and with more nodes, which are at new
places or lost ones. -/
structure Differs (t₀ : FileTree) (lost : List FilePlace) (more : List (FilePlace × FileNode))
    (t : FileTree) : Prop where
  current : t.current = t₀.current
  nodes : t.nodes = t₀.nodes.filter (fun n => n.1 ∉ lost) ++ more
  places : ∀ n ∈ more, n.1 ≠ [] ∧ (t₀.Has n.1 → n.1 ∈ lost)

section

variable {lost : List FilePlace} {more : List (FilePlace × FileNode)}

theorem filter_nothing_lost (nodes : List (FilePlace × FileNode)) :
    nodes.filter (fun n => n.1 ∉ ([] : List FilePlace)) = nodes :=
  List.filter_eq_self.mpr fun _ _ => by simp

theorem differs_refl (t : FileTree) : Differs t [] [] t :=
  ⟨rfl, by rw [filter_nothing_lost, List.append_nil], List.forall_mem_nil _⟩

theorem Differs.eq (h : Differs t [] [] t') : t' = t := by
  have hnodes : t'.nodes = t.nodes := by
    rw [h.nodes, filter_nothing_lost, List.append_nil]
  calc t' = ⟨t'.nodes, t'.current⟩ := rfl
    _ = ⟨t.nodes, t.current⟩ := by rw [hnodes, h.current]

theorem Differs.has (h : Differs t₀ lost more t) :
    t.Has p ↔ t₀.Has p ∧ p ∉ lost ∨ p ∈ more.map Prod.fst := by
  unfold Has
  rw [h.nodes, List.map_append, List.mem_append]
  refine or_congr_left ?_
  simp only [List.mem_map, List.mem_filter, decide_eq_true_eq]
  constructor
  · rintro ⟨n, ⟨hn, hlost⟩, rfl⟩
    exact ⟨⟨n, hn, rfl⟩, hlost⟩
  · rintro ⟨⟨n, hn, rfl⟩, hlost⟩
    exact ⟨n, ⟨hn, hlost⟩, rfl⟩

theorem Differs.insert (h : Differs t₀ lost more t) (hroot : p ≠ []) (hp : t₀.Has p → p ∈ lost)
    (n : FileNode) : Differs t₀ lost (more ++ [(p, n)]) (t.insert p n) := by
  refine ⟨h.current, ?_, fun m hm => ?_⟩
  · rw [FileTree.insert, h.nodes, List.append_assoc]
  · rcases List.mem_append.mp hm with hm | hm
    · exact h.places m hm
    · obtain rfl := List.mem_singleton.mp hm
      exact ⟨hroot, hp⟩

theorem Differs.erase (h : Differs t₀ lost more t) (hp : t₀.Has p → p ∈ lost) :
    Differs t₀ lost (more.filter fun n => n.1 ≠ p) (t.erase p) := by
  refine ⟨h.current, ?_, fun m hm => h.places m (List.mem_of_mem_filter hm)⟩
  change t.nodes.filter (fun n => n.1 ≠ p) = _
  rw [h.nodes, List.filter_append, List.filter_filter]
  congr 1
  refine List.filter_congr fun n hn => ?_
  have hhas : t₀.Has n.1 := List.mem_map_of_mem hn
  by_cases hlost : n.1 ∈ lost
  · simp [hlost]
  · have hne : n.1 ≠ p := fun heq => hlost (heq ▸ hp (heq ▸ hhas))
    simp [hlost, hne]

theorem Differs.node? (h : Differs t [] more t') (hp : t.node? p = some n) :
    t'.node? p = some n := by
  by_cases hroot : p = []
  · subst hroot
    exact hp
  · rw [node?_of_ne _ hroot] at hp ⊢
    rw [h.nodes, filter_nothing_lost, List.lookup_append, hp, Option.some_or]

theorem Differs.reaches (h : Differs t [] more t') : Reaches t t' :=
  ⟨h.current, fun _ hp => h.node? hp⟩

theorem Differs.trans {more' : List (FilePlace × FileNode)} (h : Differs t₀ [] more t)
    (h' : Differs t [] more' t') : Differs t₀ [] (more ++ more') t' := by
  refine ⟨h'.current.trans h.current, ?_, fun n hn => ?_⟩
  · rw [h'.nodes, filter_nothing_lost, h.nodes, List.append_assoc]
  · rcases List.mem_append.mp hn with hn | hn
    · exact h.places n hn
    · obtain ⟨hroot, hlost⟩ := h'.places n hn
      exact ⟨hroot, fun hp => hlost (h.has.mpr (.inl ⟨hp, List.not_mem_nil⟩))⟩

/-- Whatever was at a place is lost. -/
theorem Differs.lose (h : Differs t₀ lost more t) (p : FilePlace) :
    Differs t₀ (p :: lost) (more.filter fun n => n.1 ≠ p) (t.erase p) := by
  refine ⟨h.current, ?_, fun m hm => ?_⟩
  · change t.nodes.filter (fun n => n.1 ≠ p) = _
    rw [h.nodes, List.filter_append, List.filter_filter]
    congr 1
    refine List.filter_congr fun n _ => ?_
    simp
  · obtain ⟨hroot, hlost⟩ := h.places m (List.mem_of_mem_filter hm)
    exact ⟨hroot, fun hhas => List.mem_cons_of_mem _ (hlost hhas)⟩

end

/-! ## What has grown -/

section

variable {ds fs rest : List Text}

theorem Grown.closed (h : Grown t₀ ds fs t) (h₀ : t₀.Closed) : t.Closed := by
  induction h with
  | start => exact h₀
  | directory _ hvacant ih => exact ih.insert hvacant _
  | file _ hvacant _ ih => exact ih.insert hvacant _

theorem Grown.reaches (h : Grown t₀ ds fs t) : Reaches t₀ t := by
  induction h with
  | start => exact .refl t₀
  | directory _ hvacant ih => exact ih.trans (reaches_insert (vacant_eq_ok.mp hvacant).2 _)
  | file _ hvacant _ ih => exact ih.trans (reaches_insert (vacant_eq_ok.mp hvacant).2 _)

theorem Grown.has (h : Grown t₀ ds fs t) (hp : t₀.Has p) : t.Has p := by
  induction h with
  | start => exact hp
  | directory _ _ ih => exact has_insert.mpr (.inl ih)
  | file _ _ _ ih => exact has_insert.mpr (.inl ih)

/-- A new place of a grown tree is one of a directory, or of a file that was made. -/
theorem Grown.differs (h : Grown t₀ ds fs t) : ∃ more, Differs t₀ [] more t ∧
    ∀ n ∈ more, n.2 = .directory ∧ t.IsDirectory n.1 ∨
      ∃ path ∈ fs, t.place path = .ok n.1 := by
  induction h with
  | start => exact ⟨[], differs_refl t₀, List.forall_mem_nil _⟩
  | directory h hvacant ih =>
    obtain ⟨more, hdiffers, hmore⟩ := ih
    obtain ⟨-, hnone⟩ := vacant_eq_ok.mp hvacant
    obtain ⟨hroot, hnew⟩ := node?_eq_none.mp hnone
    have hreach := reaches_insert hnone .directory
    refine ⟨_, hdiffers.insert hroot (fun hp => absurd (h.has hp) hnew) _, fun n hn => ?_⟩
    rcases List.mem_append.mp hn with hn | hn
    · rcases hmore n hn with ⟨hkind, hdirectory⟩ | ⟨path, hpath, hplace⟩
      · exact .inl ⟨hkind, hreach.directories _ hdirectory⟩
      · exact .inr ⟨path, hpath, place_mono hreach hplace⟩
    · obtain rfl := List.mem_singleton.mp hn
      exact .inl ⟨rfl, (isDirectory_insert hnone).mpr (.inl ⟨rfl, rfl⟩)⟩
  | @file ds fs t path p h hvacant data ih =>
    obtain ⟨more, hdiffers, hmore⟩ := ih
    obtain ⟨hplace, hnone⟩ := vacant_eq_ok.mp hvacant
    obtain ⟨hroot, hnew⟩ := node?_eq_none.mp hnone
    have hreach := reaches_insert hnone (.file data)
    refine ⟨_, hdiffers.insert hroot (fun hp => absurd (h.has hp) hnew) _, fun n hn => ?_⟩
    rcases List.mem_append.mp hn with hn | hn
    · rcases hmore n hn with ⟨hkind, hdirectory⟩ | ⟨path', hpath, hplace⟩
      · exact .inl ⟨hkind, hreach.directories _ hdirectory⟩
      · exact .inr ⟨path', List.mem_append_left _ hpath, place_mono hreach hplace⟩
    · obtain rfl := List.mem_singleton.mp hn
      exact .inr ⟨path, List.mem_append_right _ List.mem_cons_self, place_mono hreach hplace⟩

theorem node?_insert_of_some {m : FileNode} (hp : t.node? p = none) (hq : t.node? q = some m)
    (n : FileNode) : (t.insert p n).node? q = some m := by
  have hne : q ≠ p := by
    rintro rfl
    rw [hp] at hq
    cases hq
  rw [node?_insert hp, if_neg hne, hq]

/-- The files that were made are there. -/
theorem Grown.files (h : Grown t₀ ds fs t) {path : Text} (hpath : path ∈ fs) :
    ∃ p data, t.place path = .ok p ∧ t.node? p = some (.file data) ∧ ¬ t₀.Has p := by
  induction h with
  | start => cases hpath
  | directory h hvacant ih =>
    obtain ⟨p, data, hplace, hnode, hnew⟩ := ih hpath
    obtain ⟨-, hnone⟩ := vacant_eq_ok.mp hvacant
    exact ⟨p, data, place_mono (reaches_insert hnone _) hplace,
      node?_insert_of_some hnone hnode _, hnew⟩
  | @file ds fs t path' p' h hvacant data' ih =>
    obtain ⟨hplace', hnone⟩ := vacant_eq_ok.mp hvacant
    rcases List.mem_append.mp hpath with hpath | hpath
    · obtain ⟨p, data, hplace, hnode, hnew⟩ := ih hpath
      exact ⟨p, data, place_mono (reaches_insert hnone _) hplace,
        node?_insert_of_some hnone hnode _, hnew⟩
    · obtain rfl := List.mem_singleton.mp hpath
      refine ⟨p', data', place_mono (reaches_insert hnone _) hplace', ?_,
        fun hp => (node?_eq_none.mp hnone).2 (h.has hp)⟩
      rw [node?_insert hnone, if_pos rfl]

/-- Before the last directory was made. -/
theorem Grown.before (h : Grown t₀ (path :: ds) fs t) : ∃ t₁ fs₁ p, Grown t₀ ds fs₁ t₁ ∧
    t₁.vacant path = .ok p ∧ Reaches (t₁.insert p .directory) t ∧
      ∀ q, t.IsDirectory q → q = p ∨ t₁.IsDirectory q := by
  generalize hds : path :: ds = ds' at h
  induction h with
  | start => cases hds
  | @directory _ fs t _ p h hvacant =>
    obtain ⟨rfl, rfl⟩ := List.cons.inj hds
    exact ⟨t, fs, p, h, hvacant, .refl _, fun q hq =>
      ((isDirectory_insert (vacant_eq_ok.mp hvacant).2).mp hq).imp_left And.left⟩
  | file _ hvacant _ ih =>
    obtain ⟨t₁, fs₁, p, h₁, hvacant₁, hreach, hback⟩ := ih hds
    obtain ⟨-, hnone⟩ := vacant_eq_ok.mp hvacant
    refine ⟨t₁, fs₁, p, h₁, hvacant₁, hreach.trans (reaches_insert hnone _), fun q hq => ?_⟩
    rcases (isDirectory_insert hnone).mp hq with ⟨-, hfile⟩ | hq
    · cases hfile
    · exact hback q hq

theorem Grown.drop (h : Grown t₀ (ds ++ rest) fs t) :
    ∃ t₁ fs₁, Grown t₀ rest fs₁ t₁ ∧ Reaches t₁ t := by
  induction ds generalizing t fs with
  | nil => exact ⟨t, fs, h, .refl t⟩
  | cons path ds ih =>
    obtain ⟨t₁, fs₁, p, h₁, hvacant, hreach, -⟩ := h.before
    obtain ⟨t₂, fs₂, h₂, hreach₂⟩ := ih h₁
    have hgrow := reaches_insert (vacant_eq_ok.mp hvacant).2 .directory
    exact ⟨t₂, fs₂, h₂, (hreach₂.trans hgrow).trans hreach⟩

/-- Files alone add no directory. -/
theorem Grown.old (h : Grown t₀ [] fs t) (hp : t.IsDirectory p) : t₀.IsDirectory p := by
  generalize hds : ([] : List Text) = ds at h
  induction h with
  | start => exact hp
  | directory => cases hds
  | file _ hvacant _ ih =>
    rcases (isDirectory_insert (vacant_eq_ok.mp hvacant).2).mp hp with ⟨-, hfile⟩ | hp
    · cases hfile
    · exact ih hp hds

theorem Grown.append {ds' : List Text} (h : Grown t₀ ds fs t) (h' : Grown t ds' [] t') :
    Grown t₀ (ds' ++ ds) fs t' := by
  generalize hfs : ([] : List Text) = fs' at h'
  induction h' with
  | start => exact h
  | directory _ hvacant ih => exact .directory (ih hfs) hvacant
  | file => exact absurd hfs.symm (List.append_ne_nil_of_right_ne_nil _ (List.cons_ne_nil _ _))

end

/-! ## Cutting back -/

theorem remove_made (hvacant : t.vacant path = .ok p) (h : Reaches (t.insert p .directory) t') :
    t'.remove path =
      if t'.hasChildren p then .error .notEmpty else .ok (t'.erase p) := by
  obtain ⟨hplace, hnone⟩ := vacant_eq_ok.mp hvacant
  have hreach : Reaches t t' := (reaches_insert hnone _).trans h
  have hdirectory : t'.IsDirectory p :=
    h.directories p ((isDirectory_insert hnone).mpr (.inl ⟨rfl, rfl⟩))
  rw [remove_eq (place_mono hreach hplace) hdirectory]
  simp only [true_and]

/-- A new directory has nothing in it that is older. -/
theorem Closed.no_children (h : t.Closed) (hp : t.node? p = none)
    (hrest : ∀ q, t'.Has q → q = p ∨ t.Has q) : t'.hasChildren p = false := by
  by_contra hchildren
  obtain ⟨⟨q, n⟩, hq, hchild⟩ := List.any_eq_true.mp (Bool.of_not_eq_false hchildren)
  obtain ⟨hroot, hparent⟩ : q ≠ [] ∧ q.dropLast = p := by simpa using hchild
  rcases hrest q (List.mem_map_of_mem hq) with rfl | hold
  · have hlength := congrArg List.length hparent
    rw [List.length_dropLast] at hlength
    have := List.length_pos_iff.mpr hroot
    omega
  · have hdirectory := (h.parents q hold).2
    rw [hparent] at hdirectory
    exact not_isDirectory_of_none hp hdirectory

end ClassWasm.FileTree
