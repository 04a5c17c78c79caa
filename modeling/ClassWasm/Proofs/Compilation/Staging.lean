/-
  Files that are written together, and what is left when one cannot be. Staging only makes
  directories and temporary files (`stageAll_spec`), giving files their names only replaces files
  (`commitFrom_fails`), and what was staged is removed again in the reverse order (`discard_spec`).
  So a failure leaves the tree as it was (`writeAll_fails`), unless a file could not get its name
  after others had got theirs, or a directory could not be made after others had been.
-/
import ClassWasm.Compilation.Staging
import ClassWasm.Proofs.Files.Growth

namespace ClassWasm.Staging

open FileTree

variable {t₀ t t' : FileTree} {lost : List FilePlace} {more : List (FilePlace × FileNode)}

/-! ## Looking and making -/

theorem kind_eq_missing {path : Text} (h : t.kind path = .error .missing) :
    t.find path = .error .missing := by
  unfold FileTree.kind at h
  cases hfind : t.find path with
  | error e =>
    rw [hfind] at h
    cases h
    rfl
  | ok found =>
    obtain ⟨p, n⟩ := found
    rw [hfind] at h
    cases n <;> cases h

/-- Only what is not there counts as missing. -/
theorem missing_run (paths : List Text) (t : FileTree) : ∃ new,
    (missing paths : StateM FileTree (List Text)) t = (new, t) ∧
      ∀ p ∈ new, p ∈ paths ∧ t.find p = .error .missing := by
  induction paths with
  | nil => exact ⟨[], rfl, List.forall_mem_nil _⟩
  | cons path paths ih =>
    have hkind : (Files.kind path : StateM FileTree (Except FileFault FileKind)) t =
      ((t.kind path).mapError fun reason => ⟨"stat", [path], reason⟩, t) := rfl
    obtain ⟨new, hnew, hall⟩ := ih
    simp only [missing, bind, StateT.bind, hkind]
    cases hresult : t.kind path with
    | ok k => exact ⟨[], rfl, List.forall_mem_nil _⟩
    | error reason =>
      cases reason with
      | missing =>
        have hrest := congrArg (fun r : List Text × FileTree => (path :: r.1, r.2)) hnew
        refine ⟨path :: new, hrest, List.forall_mem_cons.mpr
          ⟨⟨List.mem_cons_self, kind_eq_missing hresult⟩, fun p hp => ?_⟩⟩
        exact ⟨List.mem_cons_of_mem _ (hall p hp).1, (hall p hp).2⟩
      | _ => exact ⟨[], rfl, List.forall_mem_nil _⟩

theorem makeDirectory_run (path : Text) (t : FileTree) :
    (Files.makeDirectory path : StateM FileTree (Except FileFault Unit)) t =
      match t.makeDirectory path with
      | .ok t => (.ok (), t)
      | .error e => (.error ⟨"mkdir", [path], e⟩, t) := rfl

/-- Directories are made in order, up to the first failure. -/
theorem makeAll_run (paths : List Text) (t : FileTree) : ∃ r made t',
    (makeAll paths : StateM FileTree (Except FileFault Unit)) t = (r, t') ∧
      Grown t made.reverse [] t' ∧ (r = .ok () → made = paths) ∧
      ∀ e, r = .error e → e.action = "mkdir" := by
  induction paths generalizing t with
  | nil => exact ⟨.ok (), [], t, rfl, .start, fun _ => rfl, fun _ he => (by cases he)⟩
  | cons path paths ih =>
    simp only [makeAll, bind, StateT.bind, makeDirectory_run]
    cases hresult : t.makeDirectory path with
    | error e =>
      refine ⟨.error ⟨"mkdir", [path], e⟩, [], t, rfl, .start, fun hr => ?_, fun f hf => ?_⟩
      · cases hr
      · cases hf
        rfl
    | ok t₁ =>
      obtain ⟨p, hvacant, rfl⟩ := makeDirectory_eq_ok.mp hresult
      obtain ⟨r, made, t', hrun, hgrown, hall, hfails⟩ := ih (t.insert p .directory)
      refine ⟨r, path :: made, t', hrun, ?_, fun hr => congrArg _ (hall hr), hfails⟩
      rw [List.reverse_cons]
      exact (Grown.start.directory hvacant).append hgrown

theorem removeWhile_cons (path : Text) (paths : List Text) (t : FileTree) :
    (removeWhile (path :: paths) : StateM FileTree Unit) t =
      match t.remove path with
      | .ok t => (removeWhile paths : StateM FileTree Unit) t
      | .error _ => ((), t) := by
  simp only [removeWhile, bind, StateT.bind, remove_run]
  cases t.remove path <;> rfl

/-- Attempts to remove what was not there leave alone what was. -/
theorem removeWhile_new (h₀ : t₀.Closed) {paths : List Text}
    (hpaths : ∀ p ∈ paths, Path.Downward (Path.parts p) ∧ t₀.find p = .error .missing)
    (hdiffers : Differs t₀ [] more t) : ∃ more',
    Differs t₀ [] more' ((removeWhile paths : StateM FileTree Unit) t).2 ∧
      ∀ n ∈ more', n ∈ more := by
  induction paths generalizing t more with
  | nil => exact ⟨more, hdiffers, fun _ hn => hn⟩
  | cons path paths ih =>
    obtain ⟨⟨hpath, hmissing⟩, hpaths⟩ := List.forall_mem_cons.mp hpaths
    rw [removeWhile_cons]
    cases hremove : t.remove path with
    | error e => exact ⟨more, hdiffers, fun _ hn => hn⟩
    | ok t₁ =>
      have hgone : t₁ = t ∨ ∃ p n, t.place path = .ok p ∧ t.node? p = some n ∧ t₁ = t.erase p := by
        have hcases := without_cases t path
        rwa [without, hremove] at hcases
      rcases hgone with rfl | ⟨p, n, hplace, -, rfl⟩
      · exact ih hpaths hdiffers
      · have hnew : t₀.node? p = none := h₀.place_new hdiffers.current hpath hmissing hplace
        obtain ⟨more', hdiffers', hmore'⟩ := ih hpaths
          (hdiffers.erase fun hp => absurd hp (node?_eq_none.mp hnew).2)
        exact ⟨more', hdiffers', fun n hn => List.mem_of_mem_filter (hmore' n hn)⟩

/-- Removes directories that were made last, as far as that goes; all of them if nothing else is
left. -/
theorem removeWhile_made (h₀ : t₀.Closed) {paths rest fs : List Text} {made : FileTree}
    (hmade : Grown t₀ (paths ++ rest) fs made) (hreach : Reaches made t)
    (hdiffers : Differs t₀ lost more t) : ∃ made' fs' more',
    Grown t₀ rest fs' made' ∧ Reaches made' ((removeWhile paths : StateM FileTree Unit) t).2 ∧
      Differs t₀ lost more' ((removeWhile paths : StateM FileTree Unit) t).2 ∧
      (∀ n ∈ more', n ∈ more) ∧
      ((∀ n ∈ more, made.IsDirectory n.1) → ∀ n ∈ more', made'.IsDirectory n.1) := by
  induction paths generalizing made fs t more with
  | nil => exact ⟨made, fs, more, hmade, hreach, hdiffers, fun _ hn => hn, fun h => h⟩
  | cons path paths ih =>
    obtain ⟨made₁, fs₁, p, hmade₁, hvacant, hreach₁, hback⟩ := hmade.before
    obtain ⟨-, hnone⟩ := vacant_eq_ok.mp hvacant
    have hnew : ¬ t₀.Has p := fun hp => (node?_eq_none.mp hnone).2 (hmade₁.has hp)
    have hmine : ¬ made₁.IsDirectory p := not_isDirectory_of_none hnone
    have hthrough : Reaches made₁ t :=
      (reaches_insert hnone .directory).trans (hreach₁.trans hreach)
    rw [removeWhile_cons, remove_made hvacant (hreach₁.trans hreach)]
    cases hchildren : t.hasChildren p with
    | false =>
      obtain ⟨made', fs', more', hmade', hreach', hdiffers', hsub, hexact⟩ :=
        ih hmade₁ (hthrough.erase hmine) (hdiffers.erase fun hp => absurd hp hnew)
      refine ⟨made', fs', more', hmade', hreach', hdiffers',
        fun n hn => List.mem_of_mem_filter (hsub n hn), fun hall => hexact fun n hn => ?_⟩
      obtain ⟨hn, hne⟩ := List.mem_filter.mp hn
      exact (hback n.1 (hall n hn)).resolve_left (by simpa using hne)
    | true =>
      obtain ⟨made', fs', hmade', hreach'⟩ := hmade₁.drop
      refine ⟨made', fs', more, hmade', hreach'.trans hthrough, hdiffers, fun _ hn => hn,
        fun hall => ?_⟩
      -- Nothing but older directories can be left, and those are not in the new one.
      have hempty : t.hasChildren p = false := by
        refine (hmade₁.closed h₀).no_children hnone fun q hq => ?_
        rcases hdiffers.has.mp hq with ⟨hold, -⟩ | hq
        · exact .inr (hmade₁.has hold)
        · obtain ⟨n, hn, rfl⟩ := List.mem_map.mp hq
          exact (hback n.1 (hall n hn)).imp_right fun h => has_of_node? h (hdiffers.places n hn).1
      rw [hempty] at hchildren
      cases hchildren

/-! ## Staging -/

/-- The tree has grown by what is staged. -/
def Staged (t₀ : FileTree) (s : Staging) (t : FileTree) : Prop :=
  Grown t₀ s.directories.flatten (s.files.map StagedFile.temporary) t

/-- What was attempted when a file could not be written. -/
def Error.attempted (e : Error) : Option Text := e.fault.map FileFault.action

/-- A tree has more directories than another one, if the attempt to make one has failed. -/
def Leaves (t : FileTree) (e : Error) (t' : FileTree) : Prop :=
  ∃ more, Differs t [] more t' ∧ (∀ n ∈ more, n.2 = .directory) ∧
    (more ≠ [] → e.attempted = some ("mkdir" : Text))

theorem leaves_refl (t : FileTree) (e : Error) : Leaves t e t :=
  ⟨[], differs_refl t, List.forall_mem_nil _, fun h => absurd rfl h⟩

theorem makeDirectories_run (path : Text) (h : t.Closed) : ∃ r t',
    (makeDirectories path : StateM FileTree (Except Error (List Text))) t = (r, t') ∧
      match r with
      | .ok new => Grown t new [] t'
      | .error e => Leaves t e t' := by
  obtain ⟨new, hnew, hmissing⟩ := missing_run (Path.upward (Path.directory path)) t
  obtain ⟨r, made, t', hrun, hgrown, hdone, hfails⟩ := makeAll_run new.reverse t
  simp only [makeDirectories, bind, StateT.bind, hnew, hrun]
  cases r with
  | ok _ =>
    rw [hdone rfl, List.reverse_reverse] at hgrown
    exact ⟨.ok new, t', rfl, hgrown⟩
  | error e =>
    obtain ⟨more, hdiffers, hmore⟩ := hgrown.differs
    have hkinds : ∀ n ∈ more, n.2 = .directory := by
      intro n hn
      obtain ⟨hkind, -⟩ | ⟨_, hnone, -⟩ := hmore n hn
      · exact hkind
      · cases hnone
    have hpaths : ∀ p ∈ new, Path.Downward (Path.parts p) ∧ t.find p = .error .missing :=
      fun p hp => ⟨Path.downward_of_mem_upward (hmissing p hp).1, (hmissing p hp).2⟩
    obtain ⟨more', hdiffers', hsub⟩ := removeWhile_new h hpaths hdiffers
    refine ⟨.error ⟨path, some e⟩, _, rfl, more', hdiffers', fun n hn => hkinds n (hsub n hn),
      fun _ => ?_⟩
    exact congrArg some (hfails e rfl)

theorem createTemporary_run (directory stem : Text) (data : Bytes) (t : FileTree) : ∃ r t',
    (Files.createTemporary directory stem data : StateM FileTree (Except FileFault Text)) t =
        (r, t') ∧
      match r with
      | .ok temporary => ∃ p, t.vacant temporary = .ok p ∧ t' = t.insert p (.file data)
      | .error _ => t' = t := by
  let path := t.freshPath directory stem
  have hcreate : (Files.createTemporary directory stem data :
      StateM FileTree (Except FileFault Text)) t =
    let done := FileTree.change "open" [path] (fun t => t.createFile path data) t
    (done.1.map fun _ => path, done.2) := rfl
  rw [hcreate]
  simp only [FileTree.change]
  cases hresult : t.createFile path data with
  | ok t' => exact ⟨.ok path, t', rfl, createFile_eq_ok.mp hresult⟩
  | error e => exact ⟨.error ⟨"open", [path], e⟩, t, rfl, rfl⟩

/-- Writes data for a path whose directory is there. -/
def stageFile (s : Staging) (path : Text) (data : Bytes) :
    StateM FileTree (Except Error Unit × Staging) := do
  match ← Files.createTemporary (Path.directory path) ("." ++ Path.base path ++ ".") data with
  | .error e => return (.error ⟨path, some e⟩, s)
  | .ok temporary => return (.ok (), { s with files := s.files ++ [⟨path, temporary⟩] })

/-- How staging goes on a tree that has grown by what was staged before. -/
def Stages (t₀ : FileTree) (s : Staging) (paths : List Text)
    (x : StateM FileTree (Except Error Unit × Staging)) (t : FileTree) : Prop :=
  ∃ r s' t', x t = ((r, s'), t') ∧
    match r with
    | .ok _ => Staged t₀ s' t' ∧ ∀ f ∈ s'.files, f ∈ s.files ∨ f.path ∈ paths
    | .error e => ∃ t₁, Staged t₀ s' t₁ ∧ Leaves t₁ e t'

theorem stageFile_run (s : Staging) (path : Text) (data : Bytes) (h : Staged t₀ s t) :
    Stages t₀ s [path] (stageFile s path data) t := by
  obtain ⟨made, t', hcreate, hmade⟩ := createTemporary_run (Path.directory path)
    ("." ++ Path.base path ++ ".") data t
  simp only [Stages, stageFile, bind, StateT.bind, hcreate]
  cases made with
  | error e =>
    obtain rfl : t' = t := hmade
    exact ⟨.error ⟨path, some e⟩, s, t', rfl, t', h, leaves_refl _ _⟩
  | ok temporary =>
    obtain ⟨p, hvacant, rfl⟩ := hmade
    refine ⟨.ok (), _, _, rfl, ?_, fun f hf => ?_⟩
    · rw [Staged, List.map_append]
      exact h.file hvacant data
    · rcases List.mem_append.mp hf with hf | hf
      · exact .inl hf
      · rw [List.mem_singleton.mp hf]
        exact .inr List.mem_cons_self

theorem stage_run (s : Staging) (path : Text) (data : Bytes) (h₀ : t₀.Closed)
    (h : Staged t₀ s t) : Stages t₀ s [path] (s.stage path data) t := by
  obtain ⟨r, t₁, hrun, hr⟩ := makeDirectories_run path (h.closed h₀)
  simp only [Stages, stage, bind, StateT.bind, hrun]
  cases r with
  | error e => exact ⟨.error e, s, t₁, rfl, t, h, hr⟩
  | ok new =>
    obtain ⟨s₁, hs₁⟩ : ∃ s₁, s₁ =
      if new.isEmpty then s else { s with directories := new :: s.directories } := ⟨_, rfl⟩
    have hfiles : s₁.files = s.files := by
      rw [hs₁]
      split <;> rfl
    have hdirectories : s₁.directories.flatten = new ++ s.directories.flatten := by
      rw [hs₁]
      split
      · next hempty => rw [List.isEmpty_iff.mp hempty, List.nil_append]
      · rfl
    have hstaged : Staged t₀ s₁ t₁ := by
      rw [Staged, hfiles, hdirectories]
      exact h.append hr
    have hfile := stageFile_run s₁ path data hstaged
    rw [Stages, hfiles] at hfile
    have hkind : (Files.kind path : StateM FileTree (Except FileFault FileKind)) t₁ =
      ((t₁.kind path).mapError fun reason => ⟨"stat", [path], reason⟩, t₁) := rfl
    simp only [← hs₁, bind, StateT.bind, hkind]
    cases t₁.kind path with
    | error e => exact hfile
    | ok k =>
      cases k with
      | file => exact hfile
      | directory => exact ⟨.error ⟨path, none⟩, s₁, t₁, rfl, t₁, hstaged, leaves_refl _ _⟩

theorem stageAll_run (s : Staging) (files : List (Text × Bytes)) (h₀ : t₀.Closed)
    (h : Staged t₀ s t) : Stages t₀ s (files.map Prod.fst) (s.stageAll files) t := by
  induction files generalizing s t with
  | nil => exact ⟨.ok (), s, t, rfl, h, fun f hf => .inl hf⟩
  | cons file files ih =>
    obtain ⟨r, s₁, t₁, hrun, hr⟩ := stage_run s file.1 file.2 h₀ h
    simp only [Stages, stageAll, bind, StateT.bind, hrun]
    cases r with
    | error e => exact ⟨.error e, s₁, t₁, rfl, hr⟩
    | ok _ =>
      obtain ⟨hstaged, hfiles⟩ := hr
      obtain ⟨r, s', t', hrest, hr⟩ := ih s₁ hstaged
      refine ⟨r, s', t', hrest, ?_⟩
      cases r with
      | error e => exact hr
      | ok _ =>
        refine ⟨hr.1, fun f hf => ?_⟩
        rcases hr.2 f hf with hf | hf
        · exact (hfiles f hf).imp_right fun h => List.mem_cons.mpr (.inl (List.mem_singleton.mp h))
        · exact .inr (List.mem_cons_of_mem _ hf)

/-! ## Removing -/

/-- Attempts to remove files leave nothing at their places. -/
theorem removeFiles_run {made : FileTree} (path : StagedFile → Text) {files : List StagedFile}
    (hreach : Reaches made t) (hdiffers : Differs t₀ lost more t)
    (hfiles : ∀ f ∈ files, ∃ p, made.place (path f) = .ok p ∧ ¬ t.IsDirectory p ∧
      (t₀.Has p → p ∈ lost)) : ∃ t' more',
    (files.forM fun f => do let _ ← Files.remove (path f) : StateM FileTree Unit) t = ((), t') ∧
      Reaches made t' ∧ (∀ p, t'.IsDirectory p → t.IsDirectory p) ∧ Differs t₀ lost more' t' ∧
      ∀ n ∈ more', n ∈ more ∧ ∀ f ∈ files, made.place (path f) ≠ .ok n.1 := by
  induction files generalizing t more with
  | nil =>
    exact ⟨t, more, rfl, hreach, fun _ hp => hp, hdiffers,
      fun n hn => ⟨hn, List.forall_mem_nil _⟩⟩
  | cons f files ih =>
    obtain ⟨⟨p, hplace, hfile, hlost⟩, hfiles⟩ := List.forall_mem_cons.mp hfiles
    have hroot : p ≠ [] := ne_root_of_not_isDirectory hfile
    have hless : ∀ q, (t.erase p).IsDirectory q → t.IsDirectory q :=
      fun q hq => ((isDirectory_erase hroot).mp hq).2
    obtain ⟨r, hremove⟩ := remove_without t (path f)
    rw [without_file (place_mono hreach hplace) hfile] at hremove
    obtain ⟨t', more', hrun, hreach', hless', hdiffers', hmore'⟩ :=
      ih (hreach.erase fun hp => hfile (hreach.directories p hp)) (hdiffers.erase hlost)
        fun f hf => by
          obtain ⟨q, hq, hqfile, hqlost⟩ := hfiles f hf
          exact ⟨q, hq, fun hdirectory => hqfile (hless q hdirectory), hqlost⟩
    refine ⟨t', more', ?_, hreach', fun q hq => hless q (hless' q hq), hdiffers', fun n hn => ?_⟩
    · simp only [List.forM, bind, StateT.bind, hremove]
      exact hrun
    · obtain ⟨hn, hothers⟩ := hmore' n hn
      obtain ⟨hn, hne⟩ := List.mem_filter.mp hn
      refine ⟨hn, List.forall_mem_cons.mpr ⟨fun hsame => ?_, hothers⟩⟩
      rw [hplace] at hsame
      cases hsame
      simp at hne

/-- Removes all directories that were made, as far as that goes. -/
theorem removeDirectories_run (h₀ : t₀.Closed) {groups : List (List Text)} {fs : List Text}
    {made : FileTree} (hmade : Grown t₀ groups.flatten fs made) (hreach : Reaches made t)
    (hdiffers : Differs t₀ lost more t) : ∃ t' more',
    (groups.forM removeWhile : StateM FileTree Unit) t = ((), t') ∧ Differs t₀ lost more' t' ∧
      (∀ n ∈ more', n ∈ more) ∧
      ((∀ n ∈ more, made.IsDirectory n.1) → ∀ n ∈ more', t₀.IsDirectory n.1) := by
  induction groups generalizing made fs t more with
  | nil =>
    exact ⟨t, more, rfl, hdiffers, fun _ hn => hn, fun hall n hn => hmade.old (hall n hn)⟩
  | cons group groups ih =>
    rw [List.flatten_cons] at hmade
    obtain ⟨made', fs', more', hmade', hreach', hdiffers', hsub, hexact⟩ :=
      removeWhile_made h₀ hmade hreach hdiffers
    obtain ⟨t', more'', hrun, hdiffers'', hsub', hexact'⟩ := ih hmade' hreach' hdiffers'
    exact ⟨t', more'', hrun, hdiffers'', fun n hn => hsub n (hsub' n hn),
      fun hall => hexact' (hexact hall)⟩

/-- Something that is there in addition is a directory that was made for what is staged, or one of
the staged files. -/
def Undoable (made : FileTree) (s : Staging) (lost : List FilePlace) (n : FilePlace × FileNode) :
    Prop :=
  n.2 = .directory ∧ made.IsDirectory n.1 ∧ n.1 ∉ lost ∨
    ∃ f ∈ s.files, made.place f.temporary = .ok n.1

/-- Discarding leaves no file. It leaves no directory if all were made for what is staged. -/
theorem discard_run (h₀ : t₀.Closed) {s : Staging} {fs : List Text} {made : FileTree}
    (hmade : Grown t₀ s.directories.flatten fs made) (hreach : Reaches made t)
    (hdiffers : Differs t₀ lost more t)
    (hfiles : ∀ f ∈ s.files, ∃ p, made.place f.temporary = .ok p ∧ ¬ t.IsDirectory p ∧
      (t₀.Has p → p ∈ lost))
    (hmore : ∀ n ∈ more, n.2 = .directory ∨ ∃ f ∈ s.files, made.place f.temporary = .ok n.1) :
    ∃ t' left, (s.discard : StateM FileTree Unit) t = ((), t') ∧
      Differs t₀ lost (left.map fun p => (p, .directory)) t' ∧
      ((∀ n ∈ more, Undoable made s lost n) → left = []) := by
  obtain ⟨t₁, more₁, hrun₁, hreach₁, -, hdiffers₁, hmore₁⟩ :=
    removeFiles_run StagedFile.temporary hreach hdiffers hfiles
  obtain ⟨t', more', hrun, hdiffers', hsub, hexact⟩ :=
    removeDirectories_run h₀ hmade hreach₁ hdiffers₁
  have hkinds : ∀ n ∈ more₁, n.2 = .directory := by
    intro n hn
    obtain ⟨hn, hothers⟩ := hmore₁ n hn
    rcases hmore n hn with hkind | ⟨f, hf, hplace⟩
    · exact hkind
    · exact absurd hplace (hothers f hf)
  have hleft : (more'.map Prod.fst).map (fun p => (p, FileNode.directory)) = more' := by
    rw [List.map_map]
    refine (List.map_congr_left fun n hn => ?_).trans (List.map_id more')
    exact Prod.ext rfl (hkinds n (hsub n hn)).symm
  refine ⟨t', more'.map Prod.fst, ?_, hleft.symm ▸ hdiffers', fun hall => ?_⟩
  · change (s.directories.forM removeWhile : StateM FileTree Unit)
      ((s.files.forM fun f => do let _ ← Files.remove f.temporary : StateM FileTree Unit) t).2 = _
    rw [hrun₁]
    exact hrun
  · have hmine : ∀ n ∈ more₁, made.IsDirectory n.1 ∧ n.1 ∉ lost := by
      intro n hn
      obtain ⟨hn, hothers⟩ := hmore₁ n hn
      rcases hall n hn with ⟨-, hmine⟩ | ⟨f, hf, hplace⟩
      · exact hmine
      · exact absurd hplace (hothers f hf)
    rw [List.map_eq_nil_iff, List.eq_nil_iff_forall_not_mem]
    intro n hn
    obtain ⟨hroot, hlost⟩ := hdiffers'.places n hn
    have hold : t₀.IsDirectory n.1 := hexact (fun n hn => (hmine n hn).1) n hn
    exact (hmine n (hsub n hn)).2 (hlost (has_of_node? hold hroot))

theorem Staged.undoable {made : FileTree} {s : Staging} (h : Staged t₀ s made) :
    ∃ more, Differs t₀ [] more made ∧ ∀ n ∈ more, Undoable made s [] n := by
  obtain ⟨more, hdiffers, hkinds⟩ := h.differs
  refine ⟨more, hdiffers, fun n hn => ?_⟩
  rcases hkinds n hn with ⟨hkind, hdirectory⟩ | ⟨path, hpath, hplace⟩
  · exact .inl ⟨hkind, hdirectory, List.not_mem_nil⟩
  · obtain ⟨f, hf, rfl⟩ := List.mem_map.mp hpath
    exact .inr ⟨f, hf, hplace⟩

/-- A file cannot be staged. Discarding leaves nothing but directories, if one could not be made. -/
theorem discard_staged (h₀ : t₀.Closed) {s : Staging} {made : FileTree} (h : Staged t₀ s made)
    {e : Error} (hleaves : Leaves made e t) : ∃ t' left,
    (s.discard : StateM FileTree Unit) t = ((), t') ∧
      Differs t₀ [] (left.map fun p => (p, .directory)) t' ∧
      (left ≠ [] → e.attempted = some ("mkdir" : Text)) := by
  obtain ⟨more, hdiffers, hmore⟩ := h.undoable
  obtain ⟨more', hdiffers', hkinds', hattempted⟩ := hleaves
  have hfiles : ∀ f ∈ s.files, ∃ p, made.place f.temporary = .ok p ∧ ¬ t.IsDirectory p ∧
      (t₀.Has p → p ∈ ([] : List FilePlace)) := by
    intro f hf
    obtain ⟨p, data, hplace, hnode, hnew⟩ := h.files (List.mem_map_of_mem hf)
    exact ⟨p, hplace, not_isDirectory_of_file (hdiffers'.node? hnode), fun hp => absurd hp hnew⟩
  obtain ⟨t', left, hdiscard, hleft, hexact⟩ := discard_run h₀ h hdiffers'.reaches
    (hdiffers.trans hdiffers') hfiles fun n hn => by
      rcases List.mem_append.mp hn with hn | hn
      · exact (hmore n hn).imp_left And.left
      · exact .inl (hkinds' n hn)
  refine ⟨t', left, hdiscard, hleft, fun hne => hattempted ?_⟩
  rintro rfl
  rw [List.append_nil] at hexact
  exact hne (hexact hmore)

/-! ## Giving files their names -/

theorem rename_ok {old new : Text} (h : t.rename old new = .ok t') :
    ∃ p n q, t.place old = .ok p ∧ t.node? p = some n ∧ t.place new = .ok q ∧
      ¬ t.IsDirectory q ∧ t' = ((t.erase p).erase q).insert q n := by
  obtain ⟨⟨p, n⟩, hfind, h⟩ := bind_eq_ok.mp h
  obtain ⟨hplace, hnode⟩ := find_eq_ok.mp hfind
  dsimp only at h
  split at h
  · cases h
  · next hkind =>
    obtain ⟨q, hnew, h⟩ := bind_eq_ok.mp h
    refine ⟨p, n, q, hplace, hnode, hnew, fun hdirectory => hkind ?_, (Except.ok.inj h).symm⟩
    rw [FileTree.kind, find_eq_ok.mpr ⟨hnew, hdirectory⟩]
    rfl

theorem rename_run (old new : Text) (t : FileTree) :
    (Files.rename old new : StateM FileTree (Except FileFault Unit)) t =
      match t.rename old new with
      | .ok t => (.ok (), t)
      | .error e => (.error ⟨"rename", [old, new], e⟩, t) := rfl

/-- Some staged files have their names and the others not yet. What was at the places of those that
have is lost; apart from that the directories and the other temporary files are new. -/
structure Halfway (t₀ made : FileTree) (s : Staging) (done files : List StagedFile)
    (lost : List FilePlace) (more : List (FilePlace × FileNode)) (t : FileTree) : Prop where
  reaches : Reaches made t
  back : Reaches t made
  differs : Differs t₀ lost more t
  named : ∀ d ∈ done, d ∈ s.files ∧ ∃ q ∈ lost, made.place d.path = .ok q
  places : ∀ q ∈ lost, ¬ made.IsDirectory q ∧ ∃ d ∈ done, made.place d.path = .ok q
  waiting : ∀ f ∈ files, f ∈ s.files
  kinds : ∀ n ∈ more, n.2 = .directory ∧ made.IsDirectory n.1 ∨
    (∃ f ∈ files, made.place f.temporary = .ok n.1) ∨ n.1 ∈ lost

section

variable {made : FileTree} {s : Staging} {done files : List StagedFile} {f : StagedFile}
  (hmade : Staged t₀ s made)

include hmade

/-- Nothing has its name before the first file is renamed. -/
theorem Staged.halfway : ∃ more, Halfway t₀ made s [] s.files [] more made := by
  obtain ⟨more, hdiffers, hmore⟩ := hmade.undoable
  refine ⟨more, .refl made, .refl made, hdiffers, List.forall_mem_nil _, List.forall_mem_nil _,
    fun _ hf => hf, fun n hn => ?_⟩
  rcases hmore n hn with ⟨hkind, hdirectory, -⟩ | hfile
  · exact .inl ⟨hkind, hdirectory⟩
  · exact .inr (.inl hfile)

/-- A file gets its name. -/
theorem Halfway.rename (h : Halfway t₀ made s done (f :: files) lost more t) {p q : FilePlace}
    {n : FileNode} (hold : t.place f.temporary = .ok p) (hnode : t.node? p = some n)
    (hnew : t.place f.path = .ok q) (hq : ¬ t.IsDirectory q) : ∃ more',
    Halfway t₀ made s (done ++ [f]) files (q :: lost) more' (((t.erase p).erase q).insert q n) := by
  have hf : f ∈ s.files := h.waiting f List.mem_cons_self
  obtain ⟨p', data, htemporary, hdata, hpnew⟩ := hmade.files (List.mem_map_of_mem hf)
  have hpfile : ¬ made.IsDirectory p' := not_isDirectory_of_file hdata
  cases (place_mono h.reaches htemporary).symm.trans hold
  have hpt : ¬ t.IsDirectory p := fun hp => hpfile (h.back.directories p hp)
  have hqmade : ¬ made.IsDirectory q := fun hp => hq (h.reaches.directories q hp)
  have hproot : p ≠ [] := ne_root_of_not_isDirectory hpt
  have hqroot : q ≠ [] := ne_root_of_not_isDirectory hq
  have hn : n ≠ .directory := by
    rintro rfl
    exact hpt hnode
  have hnone : ((t.erase p).erase q).node? q = none := by
    rw [node?_erase hqroot, if_pos rfl]
  have hdiffers := ((h.differs.erase fun hp => absurd hp hpnew).lose q).insert hqroot
    (fun _ => List.mem_cons_self) n
  refine ⟨_, ((h.reaches.erase hpfile).erase hqmade).trans (reaches_insert hnone n),
    ⟨h.back.current, fun r hr => ?_⟩, hdiffers, ?_, ?_,
    fun g hg => h.waiting g (List.mem_cons_of_mem _ hg), fun m hm => ?_⟩
  · rcases (isDirectory_insert hnone).mp hr with ⟨-, hdirectory⟩ | hr
    · exact absurd hdirectory hn
    · exact h.back.directories r
        ((isDirectory_erase hproot).mp ((isDirectory_erase hqroot).mp hr).2).2
  · intro d hd
    rcases List.mem_append.mp hd with hd | hd
    · obtain ⟨hds, r, hr, hplace⟩ := h.named d hd
      exact ⟨hds, r, List.mem_cons_of_mem _ hr, hplace⟩
    · rw [List.mem_singleton.mp hd]
      exact ⟨hf, q, List.mem_cons_self, place_mono h.back hnew⟩
  · refine List.forall_mem_cons.mpr ⟨⟨hqmade, f, List.mem_append_right _ List.mem_cons_self,
      place_mono h.back hnew⟩, fun r hr => ?_⟩
    obtain ⟨hrfile, d, hd, hplace⟩ := h.places r hr
    exact ⟨hrfile, d, List.mem_append_left _ hd, hplace⟩
  · rcases List.mem_append.mp hm with hm | hm
    · obtain ⟨hm, -⟩ := List.mem_filter.mp hm
      obtain ⟨hm, hmp⟩ := List.mem_filter.mp hm
      rcases h.kinds m hm with hkind | ⟨g, hg, hplace⟩ | hlost
      · exact .inl hkind
      · rcases List.mem_cons.mp hg with rfl | hg
        · cases htemporary.symm.trans hplace
          simp at hmp
        · exact .inr (.inl ⟨g, hg, hplace⟩)
      · exact .inr (.inr (List.mem_cons_of_mem _ hlost))
    · rw [List.mem_singleton.mp hm]
      exact .inr (.inr List.mem_cons_self)

/-- What has failed to give files their names: nothing has happened to what is there in addition,
but something is lost if any file had its name already. -/
structure Abandoned (t₀ made : FileTree) (s s' : Staging) (lost : List FilePlace)
    (more : List (FilePlace × FileNode)) (t : FileTree) : Prop where
  reaches : Reaches made t
  back : ∀ p, t.IsDirectory p → made.IsDirectory p
  differs : Differs t₀ lost more t
  directories : s'.directories = s.directories
  files : ∀ f ∈ s'.files, f ∈ s.files
  places : ∀ q ∈ lost, ¬ made.IsDirectory q ∧ ∃ d ∈ s.files, made.place d.path = .ok q
  kinds : ∀ n ∈ more, Undoable made s' lost n

omit hmade in
/-- A file cannot get its name. The files that had theirs are removed. -/
theorem Halfway.abandon (h : Halfway t₀ made s done files lost more t) : ∃ t' more',
    (done.forM fun d => do let _ ← Files.remove d.path : StateM FileTree Unit) t = ((), t') ∧
      Abandoned t₀ made s { s with files } lost more' t' := by
  have hplaces : ∀ d ∈ done, ∃ q, made.place d.path = .ok q ∧ ¬ t.IsDirectory q ∧
      (t₀.Has q → q ∈ lost) := by
    intro d hd
    obtain ⟨-, q, hq, hplace⟩ := h.named d hd
    exact ⟨q, hplace, fun hdirectory => (h.places q hq).1 (h.back.directories q hdirectory),
      fun _ => hq⟩
  obtain ⟨t', more', hremoved, hreaches, hback, hdiffers, hmore⟩ :=
    removeFiles_run StagedFile.path h.reaches h.differs hplaces
  refine ⟨t', more', hremoved, hreaches, fun q hq => h.back.directories q (hback q hq), hdiffers,
    rfl, h.waiting, fun q hq => ?_, fun n hn => ?_⟩
  · obtain ⟨hfile, d, hd, hplace⟩ := h.places q hq
    exact ⟨hfile, d, (h.named d hd).1, hplace⟩
  · obtain ⟨hn, hothers⟩ := hmore n hn
    have hkept : n.1 ∉ lost := fun hlost => by
      obtain ⟨-, d, hd, hplace⟩ := h.places n.1 hlost
      exact hothers d hd hplace
    rcases h.kinds n hn with ⟨hkind, hdirectory⟩ | hwaiting | hlost
    · exact .inl ⟨hkind, hdirectory, hkept⟩
    · exact .inr hwaiting
    · exact absurd hlost hkept

theorem commitFrom_fails (h : Halfway t₀ made s done files lost more t) {e : Error} {s' : Staging}
    {t' : FileTree} (hrun : (s.commitFrom done files :
      StateM FileTree (Except Error Unit × Staging)) t = ((.error e, s'), t')) :
    ∃ lost more, Abandoned t₀ made s s' lost more t' ∧ e.attempted = some ("rename" : Text) := by
  induction files generalizing done lost more t with
  | nil => cases hrun
  | cons f files ih =>
    rw [commitFrom] at hrun
    simp only [bind, StateT.bind, rename_run] at hrun
    cases hrename : t.rename f.temporary f.path with
    | error reason =>
      rw [hrename] at hrun
      obtain ⟨t₁, more₁, hremoved, habandoned⟩ := h.abandon
      let fault : FileFault := ⟨"rename", [f.temporary, f.path], reason⟩
      change (((.error ⟨f.path, some fault⟩ : Except Error Unit), { s with files := f :: files }),
        ((done.forM fun d => do let _ ← Files.remove d.path : StateM FileTree Unit) t).2) = _
        at hrun
      rw [hremoved] at hrun
      cases hrun
      exact ⟨lost, more₁, habandoned, rfl⟩
    | ok t₁ =>
      rw [hrename] at hrun
      obtain ⟨p, n, q, hold, hnode, hnew, hq, rfl⟩ := rename_ok hrename
      obtain ⟨more', hnext⟩ := h.rename hmade hold hnode hnew hq
      exact ih hnext hrun

/-- Discarding after that leaves nothing, but what is lost stays lost. -/
theorem Abandoned.discard (h₀ : t₀.Closed) {s' : Staging}
    (h : Abandoned t₀ made s s' lost more t) : ∃ t',
    (s'.discard : StateM FileTree Unit) t = ((), t') ∧ Differs t₀ lost [] t' := by
  have hgrown : Grown t₀ s'.directories.flatten (s.files.map StagedFile.temporary) made :=
    h.directories ▸ hmade
  have hfiles : ∀ f ∈ s'.files, ∃ p, made.place f.temporary = .ok p ∧ ¬ t.IsDirectory p ∧
      (t₀.Has p → p ∈ lost) := by
    intro f hf
    obtain ⟨p, data, hplace, hnode, hnew⟩ := hmade.files (List.mem_map_of_mem (h.files f hf))
    exact ⟨p, hplace, fun hp => not_isDirectory_of_file hnode (h.back p hp),
      fun hp => absurd hp hnew⟩
  obtain ⟨t', left, hdiscard, hleft, hexact⟩ := discard_run h₀ hgrown h.reaches h.differs hfiles
    fun n hn => (h.kinds n hn).imp_left And.left
  obtain rfl := hexact h.kinds
  exact ⟨t', hdiscard, hleft⟩

end

/-! ## Writing files -/

/-- A file that cannot be written. The tree is without what was at places of files that had their
names already, and with directories that were made for a path. There are none of the first unless a
file could not get its name, and none of the second unless a directory could not be made. -/
theorem writeAll_fails (h₀ : t₀.Closed) {files : List (Text × Bytes)} {e : Error} {t' : FileTree}
    (h : (writeAll files : StateM FileTree (Except Error Unit)) t₀ = (.error e, t')) :
    ∃ lost left, Differs t₀ lost (left.map fun p => (p, .directory)) t' ∧
      (lost ≠ [] → e.attempted = some ("rename" : Text)) ∧
      (left ≠ [] → e.attempted = some ("mkdir" : Text)) ∧
      ∀ p ∈ lost, ¬ t₀.IsDirectory p ∧
        ∃ made, Reaches t₀ made ∧ ∃ f ∈ files, made.place f.1 = .ok p := by
  obtain ⟨r, s, made, hrun, hr⟩ := stageAll_run {} files h₀ (t := t₀) .start
  rw [writeAll] at h
  simp only [bind, StateT.bind, hrun] at h
  cases r with
  | error e' =>
    obtain ⟨t₁, hstaged, hleaves⟩ := hr
    obtain ⟨t'', left, hdiscard, hleft, hattempted⟩ := discard_staged h₀ hstaged hleaves
    change ((.error e' : Except Error Unit), ((s.discard : StateM FileTree Unit) made).2) = _ at h
    rw [hdiscard] at h
    cases h
    exact ⟨[], left, hleft, fun hne => absurd rfl hne, hattempted, List.forall_mem_nil _⟩
  | ok _ =>
    obtain ⟨hstaged, hpaths⟩ := hr
    obtain ⟨more, hstart⟩ := hstaged.halfway
    let commit : StateM FileTree (Except Error Unit × Staging) := s.commit
    change ((commit made).1.1,
      (((commit made).1.2.discard : StateM FileTree Unit) (commit made).2).2) = _ at h
    cases hcommit : commit made with
    | mk result t₁ =>
      obtain ⟨r, s'⟩ := result
      rw [hcommit] at h
      cases r with
      | ok _ => cases h
      | error e' =>
        obtain ⟨lost, more', habandoned, hattempted⟩ := commitFrom_fails hstaged hstart hcommit
        obtain ⟨t'', hdiscard, hdiffers⟩ := habandoned.discard hstaged h₀
        simp only [hdiscard] at h
        cases h
        refine ⟨lost, [], hdiffers, fun _ => hattempted, fun hne => absurd rfl hne, fun p hp => ?_⟩
        obtain ⟨hfile, d, hd, hplace⟩ := habandoned.places p hp
        obtain ⟨file, hf, hpath⟩ := List.mem_map.mp ((hpaths d hd).resolve_left List.not_mem_nil)
        refine ⟨fun hdirectory => hfile (hstaged.reaches.directories p hdirectory), made,
          hstaged.reaches, file, hf, ?_⟩
        rw [hpath]
        exact hplace

end ClassWasm.Staging
