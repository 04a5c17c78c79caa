/-
  What a failed compilation does to the tree of files. Reading and linking leave it alone, so only
  the writing of the outputs counts (`compile_fails`). An old file may be lost when a later output
  cannot get its name, and directories may be left when one cannot be made (`directory_left`).
-/
import ClassWasm.Compilation
import ClassWasm.Proofs.Compilation.Staging

namespace ClassWasm.Compilation

open FileTree

/-! ## Reading -/

section

variable {α β ε : Type} {t t' : FileTree}

/-- A step that only looks at the tree. -/
def Looks (x : StateM FileTree α) : Prop := ∀ t, (x t).2 = t

theorem looks_pure (a : α) : Looks (pure a) := fun _ => rfl

theorem Looks.bind {x : StateM FileTree α} {f : α → StateM FileTree β} (hx : Looks x)
    (hf : ∀ a, Looks (f a)) : Looks (x >>= f) := by
  intro t
  change (f (x t).1 (x t).2).2 = t
  rw [hf, hx]

theorem looks_source (path : Text) : Looks (Archive.source path) := by
  refine Looks.bind (fun _ => rfl) fun found => ?_
  cases found with
  | error e => exact looks_pure _
  | ok k => cases k <;> exact looks_pure _

theorem read_run (path : Text) (t : FileTree) :
    (Files.read path : StateM FileTree (Except FileFault Bytes)) t =
      match t.find path with
      | .ok (_, .file data) => (.ok data, t)
      | .ok (_, .directory) => (.error ⟨"read", [path], .isDirectory⟩, t)
      | .error reason => (.error ⟨"open", [path], reason⟩, t) := rfl

theorem looks_read (path : Text) : Looks (Files.read path : StateM FileTree _) := by
  intro t
  rw [read_run]
  split <;> rfl

theorem looks_entries (path : Text) (s : Archive.Source) : Looks (Archive.entries path s) := by
  cases s with
  | directory => exact Looks.bind (fun _ => rfl) fun _ => looks_pure _
  | file => exact (looks_read path).bind fun _ => looks_pure _
  | zip =>
    refine (looks_read path).bind fun data => ?_
    cases data <;> exact looks_pure _

theorem looks_readAll (path : Text) : Looks (Archive.readAll path) := by
  refine (looks_source path).bind fun s => ?_
  cases s with
  | error e => exact looks_pure _
  | ok s => exact looks_entries path s

theorem run_bind (x : ExceptT ε (StateM FileTree) α) (f : α → ExceptT ε (StateM FileTree) β)
    (t : FileTree) : (x >>= f).run t =
      match x.run t with
      | (.ok a, t) => (f a).run t
      | (.error e, t) => (.error e, t) := by
  change (ExceptT.bindCont f (x.run t).1 : StateM FileTree (Except ε β)) (x.run t).2 = _
  cases x.run t with
  | mk r t => cases r <;> rfl

theorem looks_run_bind {x : ExceptT ε (StateM FileTree) α} {f : α → ExceptT ε (StateM FileTree) β}
    (hx : Looks x.run) (hf : ∀ a, Looks (f a).run) : Looks (x >>= f).run := by
  intro t
  have hlook := hx t
  rw [run_bind]
  cases hrun : x.run t with
  | mk r t₁ =>
    rw [hrun] at hlook
    obtain rfl : t₁ = t := hlook
    cases r with
    | ok a => exact hf a t₁
    | error e => rfl

/-- Where a step that may fail only looks at the tree, a failure is its own or that of the rest. -/
theorem Looks.bind_error {x : ExceptT ε (StateM FileTree) α} {f : α → ExceptT ε (StateM FileTree) β}
    (hx : Looks x.run) {e : ε} (h : (x >>= f).run t = (.error e, t')) :
    x.run t = (.error e, t') ∧ t' = t ∨
      ∃ a, x.run t = (.ok a, t) ∧ (f a).run t = (.error e, t') := by
  have hlook := hx t
  rw [run_bind] at h
  cases hrun : x.run t with
  | mk r t₁ =>
    rw [hrun] at hlook h
    obtain rfl : t₁ = t := hlook
    cases r with
    | ok a => exact .inr ⟨a, rfl, h⟩
    | error e =>
      cases h
      exact .inl ⟨rfl, rfl⟩

theorem looks_lift (x : Except ε α) : Looks (liftM x : ExceptT ε (StateM FileTree) α).run :=
  fun _ => rfl

end

theorem looks_readContainer (i : Input) (withResources : Bool) (path : Text) :
    Looks (readContainer i withResources path : ExceptT Error (StateM FileTree) Input).run := by
  have hread : Looks (liftM (Archive.readAll path : StateM FileTree _) :
      ExceptT Error (StateM FileTree) (Except Archive.Error (List Archive.Entry))).run :=
    (looks_readAll path).bind fun _ => looks_pure _
  refine looks_run_bind hread fun entries => ?_
  cases entries with
  | error e => exact looks_pure _
  | ok entries => exact looks_lift _

theorem looks_foldlM (withResources : Bool) (paths : List Text) (i : Input) :
    Looks (paths.foldlM (readContainer · withResources) i :
      ExceptT Error (StateM FileTree) Input).run := by
  induction paths generalizing i with
  | nil => exact looks_pure _
  | cons path paths ih =>
    rw [List.foldlM_cons]
    exact looks_run_bind (looks_readContainer i withResources path) ih

theorem looks_readInput (s : Settings) :
    Looks (read s : ExceptT Error (StateM FileTree) Input).run := by
  unfold read
  split
  · exact looks_pure _
  · exact looks_run_bind (looks_readContainer {} true s.input.path) fun i => looks_foldlM false _ i

/-- What the writing of a file attempted when it failed. -/
def Error.attempted : Error → Option Text
  | output e => e.attempted
  | _ => none

/-- A failure leaves the tree alone, or it is one of writing the outputs. -/
theorem compile_error {s : Settings} {t t' : FileTree} {e : Error}
    (h : (compile s : ExceptT Error (StateM FileTree) Summary).run t = (.error e, t')) :
    t' = t ∨ ∃ archive module map e',
      (Staging.writeAll (outputs s archive module map) : StateM FileTree _) t = (.error e', t') ∧
        e = .output e' := by
  unfold compile at h
  rcases (looks_readInput s).bind_error h with ⟨-, hsame⟩ | ⟨i, -, h⟩
  · exact .inl hsame
  rcases (looks_lift _).bind_error h with ⟨-, hsame⟩ | ⟨⟨module, map⟩, -, h⟩
  · exact .inl hsame
  rcases (looks_lift _).bind_error h with ⟨-, hsame⟩ | ⟨archive, -, h⟩
  · exact .inl hsame
  refine .inr ⟨archive, module, map, ?_⟩
  let write : StateM FileTree (Except Staging.Error Unit) :=
    Staging.writeAll (outputs s archive module map)
  have hlift : (liftM write : ExceptT Error (StateM FileTree) (Except Staging.Error Unit)).run t =
    (.ok (write t).1, (write t).2) := rfl
  rw [run_bind, hlift] at h
  cases hwrite : write t with
  | mk r t₁ =>
    rw [hwrite] at h
    cases r with
    | error e' =>
      cases h
      exact ⟨e', hwrite, rfl⟩
    | ok _ => cases h

theorem mem_outputs {s : Settings} {archive : Option (Nat × Bytes)} {module : Wasm.Module}
    {map : Link.LinkMap} {f : Text × Bytes} (hf : f ∈ outputs s archive module map) :
    f.1 ∈ [s.output.assets, s.output.module, s.output.linkMap] := by
  unfold outputs at hf
  rcases List.mem_append.mp hf with hf | hf
  · rcases List.mem_append.mp hf with hf | hf
    · obtain ⟨found, -, rfl⟩ := Option.map_eq_some_iff.mp (Option.mem_toList.mp hf)
      exact List.mem_cons_self
    · obtain rfl := List.mem_singleton.mp hf
      exact List.mem_cons_of_mem _ List.mem_cons_self
  · split at hf
    · cases hf
    · obtain rfl := List.mem_singleton.mp hf
      exact List.mem_cons_of_mem _ (List.mem_cons_of_mem _ List.mem_cons_self)

/-! ## Failures -/

/-- A compilation that fails leaves the tree of files as it was, with two exceptions. Where an
output cannot get its name, what was at the places of outputs that had theirs is lost. Where a
directory cannot be made, others that were made on the way may be left. -/
theorem compile_fails (s : Settings) {t t' : FileTree} {e : Error} (ht : t.Closed)
    (h : (compile s : ExceptT Error (StateM FileTree) Summary).run t = (.error e, t')) :
    (e.attempted ≠ some ("rename" : Text) → e.attempted ≠ some ("mkdir" : Text) → t' = t) ∧
      ∃ lost left, Differs t lost (left.map fun p => (p, .directory)) t' ∧
        (lost ≠ [] → e.attempted = some ("rename" : Text)) ∧
        (left ≠ [] → e.attempted = some ("mkdir" : Text)) ∧
        ∀ p ∈ lost, ¬ t.IsDirectory p ∧ ∃ made, Reaches t made ∧
          ∃ path ∈ [s.output.assets, s.output.module, s.output.linkMap],
            made.place path = .ok p := by
  rcases compile_error h with rfl | ⟨archive, module, map, e', hwrite, rfl⟩
  · exact ⟨fun _ _ => rfl, [], [], differs_refl t', fun hne => absurd rfl hne,
      fun hne => absurd rfl hne, List.forall_mem_nil _⟩
  · obtain ⟨lost, left, hdiffers, hrename, hmkdir, hlost⟩ := Staging.writeAll_fails ht hwrite
    refine ⟨fun hnorename hnomkdir => ?_, lost, left, hdiffers, hrename, hmkdir, fun p hp => ?_⟩
    · obtain rfl : lost = [] := by
        by_contra hne
        exact hnorename (hrename hne)
      obtain rfl : left = [] := by
        by_contra hne
        exact hnomkdir (hmkdir hne)
      exact hdiffers.eq
    · obtain ⟨hfile, made, hreach, f, hf, hplace⟩ := hlost p hp
      exact ⟨hfile, made, hreach, f.1, mem_outputs hf, hplace⟩

/-- A run that is given by its message and the tree after it. -/
theorem run_of_message {x : Except Error Summary × FileTree} {t : FileTree} {message : Text}
    (htree : x.2 = t)
    (hmessage : (match x.1 with | .error e => some e.message | .ok _ => none) = some message) :
    ∃ e, x = (.error e, t) ∧ e.message = message := by
  obtain ⟨r, t'⟩ := x
  cases r with
  | ok _ => cases hmessage
  | error e => exact ⟨e, by rw [show t' = t from htree], Option.some.inj hmessage⟩

/-- An empty class. -/
def plainBytes : Bytes :=
  [0xca, 0xfe, 0xba, 0xbe, 0, 0, 0, 52, 0, 3, 1, 0, 1, 0x58, 7, 0, 1, 0, 0x21, 0, 2, 0, 0, 0, 0,
    0, 0, 0, 0, 0, 0]

/-- That class beside an older output. -/
def olderTree : FileTree where
  nodes := [(["X.class"], .file plainBytes), (["m.wasm"], .file [1])]

/-- The link map is to go below a directory that is not there. -/
def misplacedMap : Settings where
  input := { path := "X.class" }
  output := { module := "m.wasm", linkMap := "new/../m.cbor" }

/-- The module has its name by the time that the link map cannot get its own, and the older one is
lost. -/
theorem compile_fails_renaming :
    let after : FileTree := { nodes := [(["X.class"], .file plainBytes)] }
    olderTree.Closed ∧ ∃ e, (compile misplacedMap : ExceptT Error (StateM FileTree) Summary).run
        olderTree = (.error e, after) ∧
      ∃ lost left : List FilePlace,
        Differs olderTree lost (left.map fun p => (p, .directory)) after ∧ lost ≠ [] ∧
          e.attempted = some ("rename" : Text) := by
  have hclosed : olderTree.Closed := by decide
  obtain ⟨e, hrun, -⟩ : ∃ e,
      (compile misplacedMap : ExceptT Error (StateM FileTree) Summary).run olderTree =
        (.error e, { nodes := [(["X.class"], .file plainBytes)] }) ∧
      e.message = "new/../m.cbor: rename ./.m.cbor.* new/../m.cbor: no such file or directory" :=
    run_of_message (by decide +kernel) (by decide +kernel)
  refine ⟨hclosed, e, hrun, ?_⟩
  obtain ⟨-, lost, left, hdiffers, hrename, -⟩ := compile_fails misplacedMap hclosed hrun
  have hlost : lost ≠ [] := by
    rintro rfl
    have hkept := hdiffers.has.mpr (.inl ⟨(by decide : olderTree.Has ["m.wasm"]), List.not_mem_nil⟩)
    exact absurd hkept (by decide)
  exact ⟨lost, left, hdiffers, hlost, hrename hlost⟩

/-! ## A directory that is left -/

/-- A name that no file can have. -/
def longName : Text := ⟨List.replicate 256 0x4c⟩

def plainTree : FileTree where
  nodes := [(["X.class"], .file plainBytes)]

/-- The module is to go into a directory in another one, neither of which is there. -/
def deepModule : Settings where
  input := { path := "X.class" }
  output := { module := "a/" ++ longName ++ "/m.wasm" }

/-- The outer directory is made, the inner one cannot be, and the outer one is left. -/
theorem directory_left :
    plainTree.Closed ∧ ∃ e, (compile deepModule : ExceptT Error (StateM FileTree) Summary).run
        plainTree = (.error e, plainTree.insert ["a"] .directory) ∧
      e.message = "a/" ++ longName ++ "/m.wasm: mkdir a/" ++ longName ++ ": file name too long" :=
  ⟨by decide, run_of_message (by decide +kernel) (by decide +kernel)⟩

end ClassWasm.Compilation
