import ContractAbi.FileTree
import ContractAbi.Proofs.Results

/-!
# What changes in a tree of files

Writing a file changes one location of a tree, and making directories only adds directories where
there was nothing. Neither takes a directory away, so a path that leads somewhere still leads there
after it.
-/
namespace ContractAbi.FileTree

variable {tree before between after : FileTree} {location base : Location} {path : Path}
variable {steps : List Step}

@[simp] theorem entry?_nil (tree : FileTree) : tree.entry? [] = some .directory := rfl

theorem entry?_put (tree : FileTree) {location : Location} (hne : location ≠ []) (entry : FileEntry)
    (other : Location) :
    FileTree.entry? (tree.put location entry) other =
      if other = location then some entry else tree.entry? other := by
  cases other with
  | nil => rw [entry?_nil, if_neg hne.symm, entry?_nil]
  | cons name rest =>
    simp only [put, entry?, List.isEmpty_cons, Bool.false_eq_true, if_false, lookup_putEntry]

theorem entry?_put_self (tree : FileTree) (hne : location ≠ []) (entry : FileEntry) :
    FileTree.entry? (tree.put location entry) location = some entry := by
  rw [entry?_put tree hne, if_pos rfl]

theorem entry?_put_of_ne (tree : FileTree) (hne : location ≠ []) (entry : FileEntry)
    {other : Location} (h : other ≠ location) :
    FileTree.entry? (tree.put location entry) other = tree.entry? other := by
  rw [entry?_put tree hne, if_neg h]

/-- The directories of one tree are directories of another, and both work from the same one. -/
structure KeepsDirectories (before after : FileTree) : Prop where
  workingDirectory : after.workingDirectory = before.workingDirectory
  directory : ∀ location, before.entry? location = some .directory →
    after.entry? location = some .directory

namespace KeepsDirectories

theorem refl (tree : FileTree) : KeepsDirectories tree tree := ⟨rfl, fun _ h => h⟩

theorem trans (h : KeepsDirectories before between) (hnext : KeepsDirectories between after) :
    KeepsDirectories before after :=
  ⟨hnext.workingDirectory.trans h.workingDirectory,
    fun location hdirectory => hnext.directory location (h.directory location hdirectory)⟩

theorem put_file (hne : location ≠ []) (h : tree.entry? location ≠ some .directory) (text : String) :
    KeepsDirectories tree (tree.put location (.file text)) where
  workingDirectory := rfl
  directory other hother := by
    rw [entry?_put_of_ne tree hne _ fun heq => h (heq ▸ hother), hother]

/-- A file that was put into a tree is no directory of it. -/
theorem of_put_file (hne : location ≠ []) (text : String) :
    KeepsDirectories (tree.put location (.file text)) tree where
  workingDirectory := rfl
  directory other hother := by
    rw [entry?_put tree hne] at hother
    split at hother
    · cases hother
    · exact hother

theorem put_directory (hne : location ≠ []) : KeepsDirectories tree (tree.put location .directory) where
  workingDirectory := rfl
  directory other hother := by
    rw [entry?_put tree hne]
    split
    · rfl
    · exact hother

theorem demandDirectory (h : KeepsDirectories before after)
    (hdemand : before.demandDirectory location = .ok ()) : after.demandDirectory location = .ok () := by
  have hdirectory : before.entry? location = some .directory := by
    unfold FileTree.demandDirectory at hdemand
    split at hdemand
    · assumption
    · cases hdemand
    · cases hdemand
  rw [FileTree.demandDirectory, h.directory location hdirectory]

theorem walk (h : KeepsDirectories before after) (hwalk : before.walk base steps = .ok location) :
    after.walk base steps = .ok location := by
  induction steps generalizing base with
  | nil => exact hwalk
  | cons step rest ih =>
    obtain ⟨⟨⟩, hdemand, hwalk⟩ := of_bind_eq_ok hwalk
    obtain ⟨middle, hnext, hwalk⟩ := of_bind_eq_ok hwalk
    rw [FileTree.walk, h.demandDirectory hdemand, hnext]
    exact ih hwalk

theorem origin (h : KeepsDirectories before after) (path : Path) :
    after.origin path = before.origin path := by
  rw [FileTree.origin, FileTree.origin, h.workingDirectory]

theorem locate (h : KeepsDirectories before after) (hlocate : before.locate path = .ok location) :
    after.locate path = .ok location := by
  rw [FileTree.locate] at hlocate ⊢
  split at hlocate
  · cases hlocate
  case isFalse hsteps =>
    rw [if_neg hsteps, h.origin]
    exact h.walk hlocate

theorem newLocation? (h : KeepsDirectories before after) {result : Option Location}
    (hplace : before.newLocation? path = .ok result) : after.newLocation? path = .ok result := by
  obtain ⟨directory, hwalk, hplace⟩ := of_bind_eq_ok hplace
  obtain ⟨⟨⟩, hdemand, hplace⟩ := of_bind_eq_ok hplace
  rw [FileTree.newLocation?, h.origin, h.walk hwalk]
  simp only [bind, Except.bind, h.demandDirectory hdemand]
  exact hplace

end KeepsDirectories

theorem walk_append (tree : FileTree) (base : Location) (steps more : List Step) :
    tree.walk base (steps ++ more) = tree.walk base steps >>= fun middle => tree.walk middle more := by
  induction steps generalizing base with
  | nil => rfl
  | cons step rest ih =>
    simp only [List.cons_append, walk, bind_assoc, ih]

/-- The location that the steps of a path lead to. A path without steps leads to where it starts. -/
def target (tree : FileTree) (path : Path) : Except FileFault Location :=
  tree.walk (tree.origin path) path.steps

theorem KeepsDirectories.target (h : KeepsDirectories before after)
    (htarget : before.target path = .ok location) : after.target path = .ok location := by
  rw [FileTree.target, h.origin]
  exact h.walk htarget

theorem locate_eq_target (h : path.steps ≠ []) : tree.locate path = tree.target path := by
  rw [locate, target, if_neg]
  simpa using fun hnil => absurd hnil h

/-- A new entry belongs into the directory that the steps before the last one lead to, under the
name that this last one is. -/
theorem of_newLocation?_eq_some (h : tree.newLocation? path = .ok (some location)) :
    ∃ directory name, path.steps = path.steps.dropLast ++ [.name name] ∧
      tree.walk (tree.origin path) path.steps.dropLast = .ok directory ∧
      tree.demandDirectory directory = .ok () ∧ next directory (.name name) = .ok location := by
  obtain ⟨directory, hwalk, h⟩ := of_bind_eq_ok h
  obtain ⟨⟨⟩, hdemand, h⟩ := of_bind_eq_ok h
  split at h
  case h_1 name hlast =>
    obtain ⟨found, hnext, h⟩ := of_bind_eq_ok h
    obtain rfl := Option.some.inj (Except.ok.inj h)
    exact ⟨directory, name, (List.dropLast_append_getLast? _ hlast).symm, hwalk, hdemand, hnext⟩
  case h_2 => cases h

theorem next_name_eq_ok {name : String} (h : next base (.name name) = .ok location) :
    location = base ++ [name] := by
  simp only [next] at h
  split at h
  · cases h
  · exact (Except.ok.inj h).symm

theorem walk_name_eq_ok {name : String} (h : tree.walk base [.name name] = .ok location) :
    location = base ++ [name] := by
  obtain ⟨⟨⟩, -, h⟩ := of_bind_eq_ok h
  obtain ⟨found, hnext, h⟩ := of_bind_eq_ok h
  obtain rfl := Except.ok.inj h
  exact next_name_eq_ok hnext

/-- The directory of a new entry, for a path whose last step is known. -/
theorem exists_directory_of_newLocation? {name : String} (hsteps : path.steps = steps ++ [.name name])
    (h : tree.newLocation? path = .ok (some location)) :
    ∃ directory, tree.walk (tree.origin path) steps = .ok directory ∧ location = directory ++ [name] := by
  obtain ⟨directory, last, hlast, hwalk, -, hnext⟩ := of_newLocation?_eq_some h
  rw [hsteps, List.dropLast_concat] at hlast hwalk
  obtain ⟨-, ⟨⟩⟩ := List.append_singleton_inj.1 hlast
  exact ⟨directory, hwalk, next_name_eq_ok hnext⟩

theorem target_of_newLocation? (h : tree.newLocation? path = .ok (some location)) :
    tree.target path = .ok location := by
  obtain ⟨directory, name, hsteps, hwalk, hdemand, hnext⟩ := of_newLocation?_eq_some h
  rw [target, hsteps, walk_append, hwalk]
  change tree.walk directory [.name name] = _
  rw [walk, hdemand, hnext]
  rfl

theorem steps_ne_nil_of_newLocation? (h : tree.newLocation? path = .ok (some location)) :
    path.steps ≠ [] := by
  obtain ⟨directory, name, hsteps, -⟩ := of_newLocation?_eq_some h
  rw [hsteps]
  exact List.append_ne_nil_of_right_ne_nil _ (List.cons_ne_nil _ _)

theorem ne_nil_of_newLocation? (h : tree.newLocation? path = .ok (some location)) : location ≠ [] := by
  obtain ⟨directory, name, -, -, -, hnext⟩ := of_newLocation?_eq_some h
  rw [next_name_eq_ok hnext]
  exact List.append_ne_nil_of_right_ne_nil _ (List.cons_ne_nil _ _)

theorem locate_of_newLocation? (h : tree.newLocation? path = .ok (some location)) :
    tree.locate path = .ok location := by
  rw [locate_eq_target (steps_ne_nil_of_newLocation? h), target_of_newLocation? h]

/-- A text that a system takes as a path, and that leads to a name in a directory. -/
structure Places (tree : FileTree) (path : String) (location : Location) : Prop where
  check : checkText path = .ok ()
  place : tree.newLocation? (.ofText path) = .ok (some location)

namespace Places

variable {path text : String}

theorem keeps (h : before.Places path location) (hkeeps : KeepsDirectories before after) :
    after.Places path location :=
  ⟨h.check, hkeeps.newLocation? h.place⟩

theorem ne_nil (h : tree.Places path location) : location ≠ [] := ne_nil_of_newLocation? h.place

theorem read_eq (h : tree.Places path location) (hslash : (Path.ofText path).endsInSlash = false)
    (hentry : tree.entry? location = some (.file text)) : tree.read path = .ok text := by
  have hread : tree.readPath (.ofText path) = .ok text := by
    rw [readPath, locate_of_newLocation? h.place]
    dsimp only [bind, Except.bind]
    rw [hentry]
    simp [hslash]
  rw [read, h.check]
  exact hread

end Places

/-- Writing a file gives one location its text. -/
theorem of_replace_eq_ok {path text : String} (h : tree.replace path text = .ok after) :
    ∃ location, tree.Places path location ∧ tree.entry? location ≠ some .directory ∧
      after = tree.put location (.file text) := by
  obtain ⟨⟨⟩, hcheck, h⟩ := of_bind_eq_ok h
  obtain ⟨place, hplace, h⟩ := of_bind_eq_ok h
  cases place with
  | none => cases h
  | some location =>
    dsimp only at h
    split at h
    · cases h
    case isFalse hentry => exact ⟨location, ⟨hcheck, hplace⟩, hentry, (Except.ok.inj h).symm⟩

/-- Nothing has changed but that directories are there now where there was nothing, at some paths. -/
structure AddsDirectories (before : FileTree) (paths : List Path) (after : FileTree) : Prop where
  keeps : KeepsDirectories before after
  entry : ∀ location, after.entry? location = before.entry? location ∨
    (before.entry? location = none ∧ after.entry? location = some .directory ∧
      ∃ path ∈ paths, after.locate path = .ok location)

namespace AddsDirectories

variable {paths more : List Path}

theorem refl (tree : FileTree) (paths : List Path) : tree.AddsDirectories paths tree :=
  ⟨.refl tree, fun _ => .inl rfl⟩

theorem mono (h : before.AddsDirectories paths after) (hpaths : paths ⊆ more) :
    before.AddsDirectories more after where
  keeps := h.keeps
  entry location := (h.entry location).imp_right fun ⟨hnone, hdirectory, path, hpath, hlocate⟩ =>
    ⟨hnone, hdirectory, path, hpaths hpath, hlocate⟩

theorem trans (h : before.AddsDirectories paths between)
    (hnext : between.AddsDirectories paths after) : before.AddsDirectories paths after where
  keeps := h.keeps.trans hnext.keeps
  entry location := by
    rcases h.entry location with hsame | ⟨hnone, hdirectory, path, hpath, hlocate⟩
    · rw [← hsame]
      exact hnext.entry location
    · -- a directory that is there already stays one
      exact .inr ⟨hnone, hnext.keeps.directory location hdirectory, path, hpath,
        hnext.keeps.locate hlocate⟩

end AddsDirectories

theorem addsDirectories_of_makeDirectory (h : tree.makeDirectory path = .ok after) :
    tree.AddsDirectories [path] after := by
  obtain ⟨place, hplace, h⟩ := of_bind_eq_ok h
  cases place with
  | none => cases h
  | some location =>
    dsimp only at h
    split at h
    · cases h
    case isFalse hfree =>
      have hne := ne_nil_of_newLocation? hplace
      have hnone : tree.entry? location = none := by simpa using hfree
      obtain rfl := Except.ok.inj h
      have hkeeps : KeepsDirectories tree (tree.put location .directory) := .put_directory hne
      refine ⟨hkeeps, fun other => ?_⟩
      rw [entry?_put tree hne]
      split
      case isTrue heq =>
        subst heq
        exact .inr ⟨hnone, rfl, path, List.mem_singleton_self _,
          locate_of_newLocation? (hkeeps.newLocation? hplace)⟩
      case isFalse => exact .inl rfl

theorem addsDirectories_of_ensureDirectory (h : tree.ensureDirectory path = .ok after) :
    tree.AddsDirectories [path] after := by
  rw [ensureDirectory] at h
  split at h
  case h_1 made hmade =>
    obtain rfl := Except.ok.inj h
    exact addsDirectories_of_makeDirectory hmade
  case h_2 =>
    split at h
    · obtain rfl := Except.ok.inj h
      exact .refl _ _
    · cases h

/-- The directories that are made to have one are that directory and some of those above it. -/
theorem addsDirectories_of_makeChain {paths : List Path} (h : tree.makeChain paths = .ok after) :
    tree.AddsDirectories paths after := by
  induction paths generalizing after with
  | nil =>
    obtain rfl := Except.ok.inj h
    exact .refl _ _
  | cons path above ih =>
    rw [makeChain] at h
    split at h
    case h_1 =>
      split at h
      · cases h
      · obtain ⟨made, hmade, h⟩ := of_bind_eq_ok h
        exact ((ih hmade).mono (List.subset_cons_self _ _)).trans
          ((addsDirectories_of_ensureDirectory h).mono (by simp))
    case h_2 => exact (addsDirectories_of_ensureDirectory h).mono (by simp)

/-- The path of a directory and the paths above it. -/
def chain (path : String) : List Path :=
  .ofText path :: (Path.ofText path).above

theorem addsDirectories_of_makeDirectories {path : String} (h : tree.makeDirectories path = .ok after) :
    tree.AddsDirectories (chain path) after := by
  rw [makeDirectories] at h
  split at h
  · obtain rfl := Except.ok.inj h
    exact .refl _ _
  · obtain ⟨⟨⟩, -, h⟩ := of_bind_eq_ok h
    exact addsDirectories_of_makeChain h

end ContractAbi.FileTree
