import ContractAbi.Proofs.CodegenRuns

/-!
# Paths of modules

The directory of a module and its two files are told by joining paths with a name that may be any text.
They lie one below the other, as they should, if the name is an ordinary component. Apart from dots in
front of such a name and from absolute names that lead into the output directory by themselves, no
other name has this.
-/
namespace ContractAbi

namespace Path

variable {directory text name : String} {steps : List Step}

/-- The path has the components of the directory and one more, which is a name. -/
structure IsChild (directory path : String) : Prop where
  root : (ofText path).isAbsolute = (ofText directory).isAbsolute
  last : ∃ name, (ofText path).simplified.steps = (ofText directory).simplified.steps ++ [.name name]

/-- The steps that do not stay. -/
def moving (steps : List Step) : List Step :=
  steps.filter (· ≠ .here)

/-- The step that stays and is kept as a component, at the front of a relative path. -/
def dotInFront (path : Path) : List Step :=
  if path.isAbsolute = false ∧ path.steps.head? = some .here then [.here] else []

theorem moving_append (steps others : List Step) :
    moving (steps ++ others) = moving steps ++ moving others :=
  List.filter_append _ _

theorem moving_eq_nil_iff : moving steps = [] ↔ ∀ step ∈ steps, step = .here := by
  simp [moving]

theorem steps_simplified (path : Path) :
    path.simplified.steps = dotInFront path ++ moving path.steps := by
  obtain ⟨isAbsolute, steps, endsInSlash⟩ := path
  rcases steps with _ | ⟨_ | _ | _, rest⟩ <;> cases isAbsolute <;>
    simp [simplified, dotInFront, moving]

theorem steps_ne_nil (hrelative : (ofText text).isAbsolute = false) (hne : text ≠ "") :
    (ofText text).steps ≠ [] := by
  cases htext : text.toList with
  | nil => exact absurd (String.toList_eq_nil_iff.1 htext) hne
  | cons c rest =>
    have hslash : isSlash c = false := by simpa [ofText, htext] using hrelative
    obtain ⟨first, others, hsplit⟩ := List.exists_cons_of_ne_nil (Text.split_ne_nil isSlash rest)
    simp [ofText, htext, pieces, Text.split, hslash, hsplit, Text.consFirst]

/-- What is joined to a directory lies directly in it if one step of it moves, to a name. No dot may
come to the front by that. -/
theorem isChild_join_iff (hrelative : (ofText text).isAbsolute = false) :
    IsChild directory (join directory text) ↔ (∃ name, moving (ofText text).steps = [.name name]) ∧
      (directory = "" → (ofText text).steps.head? ≠ some .here) := by
  have hroot := isAbsolute_join directory hrelative
  have hsteps := steps_join directory hrelative
  by_cases hempty : directory = ""
  · subst hempty
    have hjoin : (ofText (join "" text)).simplified.steps =
        dotInFront (ofText text) ++ moving (ofText text).steps := by
      rw [steps_simplified, dotInFront, hroot, hsteps, dotInFront, hrelative]
      rfl
    have hnone : (ofText "").simplified.steps = [] := rfl
    constructor
    · rintro ⟨-, name, hlast⟩
      rw [hjoin, hnone, dotInFront, hrelative] at hlast
      by_cases hdot : (ofText text).steps.head? = some .here
      · simp [hdot] at hlast
      · exact ⟨⟨name, by simpa [hdot] using hlast⟩, fun _ => hdot⟩
    · rintro ⟨⟨name, hmoving⟩, hdot⟩
      refine ⟨hroot, name, ?_⟩
      rw [hjoin, hnone, dotInFront, if_neg fun h => hdot rfl h.2, hmoving]
  · have hfront : dotInFront (ofText (join directory text)) = dotInFront (ofText directory) := by
      rw [dotInFront, dotInFront, hroot]
      cases habsolute : (ofText directory).isAbsolute with
      | true => rfl
      | false =>
        rw [hsteps, List.head?_append_of_ne_nil _ (steps_ne_nil habsolute hempty)]
    have hjoin : (ofText (join directory text)).simplified.steps =
        (ofText directory).simplified.steps ++ moving (ofText text).steps := by
      rw [steps_simplified, hfront, hsteps, moving_append, ← List.append_assoc, ← steps_simplified]
    constructor
    · rintro ⟨-, name, hlast⟩
      rw [hjoin, List.append_cancel_left_eq] at hlast
      exact ⟨⟨name, hlast⟩, fun h => absurd h hempty⟩
    · rintro ⟨⟨name, hmoving⟩, -⟩
      exact ⟨hroot, name, by rw [hjoin, hmoving]⟩

/-- The step that the last part of a name takes, if there is something in it. -/
def lastSteps (name : String) : List Step :=
  if lastPart name = "" then [] else [stepOf (lastPart name)]

theorem steps_eq_lead_append_last (name : String) :
    (ofText name).steps = leadSteps name ++ lastSteps name := by
  by_cases hlast : lastPart name = ""
  · have htake : name.toList.rtakeWhile (!isSlash ·) = [] := by
      rw [← String.toList_ofList (l := name.toList.rtakeWhile _), ← lastPart, hlast]
      rfl
    have hdrop : name.toList.rdropWhile (!isSlash ·) = name.toList := by
      conv_rhs => rw [← @List.rdropWhile_append_rtakeWhile _ (!isSlash ·) name.toList, htake]
      rw [List.append_nil]
    rw [lastSteps, if_pos hlast, List.append_nil, leadSteps, hdrop]
    rfl
  · rw [lastSteps, if_neg hlast, steps_eq_of_lastPart rfl hlast]

theorem stepOf_eq_here_iff {piece : String} : stepOf piece = .here ↔ piece = "." := by
  rw [stepOf]
  split
  · simp_all
  · split <;> simp_all

theorem exists_stepOf_eq_name_iff {piece : String} :
    (∃ part, stepOf piece = .name part) ↔ piece ≠ "." ∧ piece ≠ ".." := by
  rw [stepOf]
  split
  · simp_all
  · split <;> simp_all

theorem moving_lastSteps (name : String) : moving (lastSteps name) =
    if lastPart name = "" ∨ lastPart name = "." then [] else [stepOf (lastPart name)] := by
  by_cases hempty : lastPart name = ""
  · rw [lastSteps, if_pos hempty, if_pos (.inl hempty)]
    rfl
  · rw [lastSteps, if_neg hempty]
    simp [moving, List.filter_cons, stepOf_eq_here_iff, hempty]

theorem exists_moving_lastSteps_iff : (∃ part, moving (lastSteps name) = [.name part]) ↔
    lastPart name ≠ "" ∧ lastPart name ≠ "." ∧ lastPart name ≠ ".." := by
  rw [moving_lastSteps]
  split <;> rename_i hstays
  · exact iff_of_false (by simp) fun ⟨hempty, hhere, _⟩ => hstays.elim hempty hhere
  · simp_all [exists_stepOf_eq_name_iff]

/-- An ordinary component: a name without slashes, or with dots for the steps before its last one. A
dot does not stand first of all, where it would be kept. -/
structure IsOrdinary (outputDir name : String) : Prop where
  relative : (ofText name).isAbsolute = false
  lead : ∀ step ∈ leadSteps name, step = .here
  last : lastPart name ≠ "" ∧ lastPart name ≠ "." ∧ lastPart name ≠ ".."
  noDot : outputDir = "" → leadSteps name = []

/-- An absolute name that leads into the output directory by itself, and ends there in a slash or in a
dot behind one. -/
structure LeadsInto (outputDir name : String) : Prop where
  absolute : (ofText name).isAbsolute = true
  last : lastPart name = "" ∨ lastPart name = "."
  child : IsChild outputDir name

/-- The file named after a module lies in the directory with the name of the module. -/
theorem isChild_source_of_absolute (habsolute : (ofText name).isAbsolute = true) :
    IsChild name (name ++ ".rs") ↔ lastPart name = "" ∨ lastPart name = "." := by
  have hnone (text : String) (h : (ofText text).isAbsolute = true) :
      (ofText text).simplified.steps = moving (ofText text).steps := by
    rw [steps_simplified, dotInFront, h]
    rfl
  have hroot := isAbsolute_source name
  have hsource : (ofText (name ++ ".rs")).simplified.steps =
      moving (leadSteps name) ++ [.name (lastPart name ++ ".rs")] := by
    rw [hnone _ (hroot.trans habsolute), steps_source, moving_append]
    rfl
  have hdirectory : (ofText name).simplified.steps =
      moving (leadSteps name) ++ moving (lastSteps name) := by
    rw [hnone _ habsolute, steps_eq_lead_append_last, moving_append]
  rw [moving_lastSteps] at hdirectory
  constructor
  · rintro ⟨-, part, hlast⟩
    by_contra hmoves
    rw [hsource, hdirectory, if_neg hmoves] at hlast
    have hlength := congrArg List.length hlast
    simp at hlength
  · intro hstays
    rw [if_pos hstays, List.append_nil] at hdirectory
    exact ⟨hroot, lastPart name ++ ".rs", by rw [hsource, hdirectory]⟩

end Path

namespace Conversion

open ContractAbi.Path (IsChild IsOrdinary LeadsInto)

variable {conversion : Conversion} {outputDir : String}

/-- The directory of the module lies directly in the output directory, and both files directly in the
directory of the module. -/
structure StaysInside (conversion : Conversion) (outputDir : String) : Prop where
  directory : IsChild outputDir (conversion.moduleDir outputDir)
  source : IsChild (conversion.moduleDir outputDir) (conversion.sourcePath outputDir)
  beside : IsChild (conversion.moduleDir outputDir) (conversion.modulePath outputDir)

/-- The file beside the source always lies in the directory of the module. -/
theorem isChild_modulePath (conversion : Conversion) (outputDir : String) :
    IsChild (conversion.moduleDir outputDir) (conversion.modulePath outputDir) :=
  (Path.isChild_join_iff (by decide)).2 ⟨⟨"mod.rs", by decide⟩, fun _ => by decide⟩

theorem staysInside_iff_of_relative
    (hrelative : (Path.ofText conversion.contract.moduleName).isAbsolute = false) :
    conversion.StaysInside outputDir ↔ IsOrdinary outputDir conversion.contract.moduleName := by
  have hdirectory := @Path.isChild_join_iff outputDir _ hrelative
  have hsource := @Path.isChild_join_iff (conversion.moduleDir outputDir) _
    ((Path.isAbsolute_source _).trans hrelative)
  rw [Path.steps_source, Path.moving_append] at hsource
  rw [Path.steps_eq_lead_append_last, Path.moving_append] at hdirectory
  constructor
  · intro h
    obtain ⟨⟨part, hlead⟩, -⟩ := hsource.1 h.source
    obtain ⟨hlast, hdot⟩ := hdirectory.1 h.directory
    have hstay : Path.moving (Path.leadSteps conversion.contract.moduleName) = [] :=
      (List.append_eq_singleton_iff.1 hlead).elim And.left fun h => by cases h.2
    rw [hstay, List.nil_append, Path.exists_moving_lastSteps_iff] at hlast
    refine ⟨hrelative, Path.moving_eq_nil_iff.1 hstay, hlast, fun hempty => ?_⟩
    cases hsteps : Path.leadSteps conversion.contract.moduleName with
    | nil => rfl
    | cons step rest =>
      have hstep : step = .here := Path.moving_eq_nil_iff.1 hstay step (hsteps ▸ List.mem_cons_self)
      exact absurd (by rw [hsteps, hstep]; rfl) (hdot hempty)
  · intro h
    have hstay := Path.moving_eq_nil_iff.2 h.lead
    refine ⟨hdirectory.2 ⟨?_, fun hempty => ?_⟩, hsource.2 ⟨?_, ?_⟩, isChild_modulePath _ _⟩
    · rw [hstay, List.nil_append]
      exact Path.exists_moving_lastSteps_iff.2 h.last
    · rw [h.noDot hempty, List.nil_append, Path.lastSteps, if_neg h.last.1, List.head?_cons]
      exact fun hhere => h.last.2.1 (Path.stepOf_eq_here_iff.1 (Option.some.inj hhere))
    · exact ⟨_, by rw [hstay]; rfl⟩
    · -- the directory of the module has at least the step of its name
      intro hempty
      have hsteps := Path.steps_join outputDir hrelative
      have hname := Path.steps_eq_lead_append_last conversion.contract.moduleName
      rw [Path.lastSteps, if_neg h.last.1] at hname
      rw [← moduleDir, hempty, hname] at hsteps
      exact absurd (congrArg List.length hsteps) (by simp [Path.ofText, Path.pieces_nil])

theorem staysInside_iff_of_absolute
    (habsolute : (Path.ofText conversion.contract.moduleName).isAbsolute = true) :
    conversion.StaysInside outputDir ↔ LeadsInto outputDir conversion.contract.moduleName := by
  have hdirectory : conversion.moduleDir outputDir = conversion.contract.moduleName :=
    Path.join_of_isAbsolute habsolute
  have hsource : conversion.sourcePath outputDir = conversion.contract.moduleName ++ ".rs" :=
    Path.join_of_isAbsolute ((Path.isAbsolute_source _).trans habsolute)
  have hchild := Path.isChild_source_of_absolute habsolute
  constructor
  · rintro ⟨hinside, hfile, -⟩
    rw [hdirectory] at hinside hfile
    exact ⟨habsolute, hchild.1 (hsource ▸ hfile), hinside⟩
  · rintro ⟨-, hlast, hinside⟩
    refine ⟨by rwa [hdirectory], ?_, isChild_modulePath _ _⟩
    rw [hdirectory, hsource]
    exact hchild.2 hlast

theorem staysInside_iff : conversion.StaysInside outputDir ↔
    IsOrdinary outputDir conversion.contract.moduleName ∨
      LeadsInto outputDir conversion.contract.moduleName := by
  cases habsolute : (Path.ofText conversion.contract.moduleName).isAbsolute with
  | false =>
    rw [staysInside_iff_of_relative habsolute, or_iff_left]
    exact fun h => absurd h.absolute (by simp [habsolute])
  | true =>
    rw [staysInside_iff_of_absolute habsolute, or_iff_right]
    exact fun h => absurd h.relative (by simp [habsolute])

/-- A name without slashes is an ordinary component unless it is empty, a dot or two dots. -/
theorem staysInside_iff_of_unmarked (hslash : '/' ∉ conversion.contract.moduleName.toList) :
    conversion.StaysInside outputDir ↔ Path.IsPlain conversion.contract.moduleName := by
  have hrelative := Path.isAbsolute_of_unmarked hslash
  have hlead := Path.leadSteps_of_unmarked hslash
  rw [staysInside_iff_of_relative hrelative]
  constructor
  · intro h
    have hlast := h.last
    rw [Path.lastPart_of_unmarked hslash] at hlast
    exact ⟨hslash, hlast⟩
  · rintro ⟨-, hlast⟩
    rw [← Path.lastPart_of_unmarked hslash] at hlast
    exact ⟨hrelative, by simp [hlead], hlast, fun _ => hlead⟩

end Conversion

/-- A small first letter does not make a name plain or take that away. -/
theorem Identifier.isPlain_lowerFirst {name : String} :
    Path.IsPlain (lowerFirst name) ↔ Path.IsPlain name := by
  have hdots : ∀ dots ∈ ["", ".", ".."], (lowerFirst name = dots ↔ name = dots) := by
    intro dots hdots
    have htexts : name = dots ↔ name.toList = dots.toList := String.toList_inj.symm
    rw [htexts, lowerFirst, String.ofList_eq]
    cases name.toList with
    | nil => rfl
    | cons c rest =>
      have hdot := @toLower_eq_iff c '.' (by decide)
      simp only [List.mem_cons, List.not_mem_nil, or_false] at hdots
      rcases hdots with rfl | rfl | rfl <;> simp [lowerHead, hdot]
  rw [Path.IsPlain, Path.IsPlain, slash_mem_lowerFirst, ne_eq, ne_eq, ne_eq, hdots "" (by simp),
    hdots "." (by simp), hdots ".." (by simp)]

/-- The files of a module stay inside the output directory exactly if the name of the module is one
ordinary component, but for absolute names that lead into the output directory by themselves. For a
contract without a slash in its name that means any name but the empty one, a dot and two dots. Of the
three relations only that of the file beside the source holds for every name. -/
theorem module_files_stay_inside_iff {document : Document} {policy : EndpointPolicy}
    {options : GenerationOptions} {conversion : Conversion}
    (hconvert : document.convert policy options = .ok conversion) (outputDir : String) :
    (conversion.StaysInside outputDir ↔
      Path.IsOrdinary outputDir (Identifier.lowerFirst document.name) ∨
        Path.LeadsInto outputDir (Identifier.lowerFirst document.name)) ∧
    Path.IsChild (conversion.moduleDir outputDir) (conversion.modulePath outputDir) ∧
    ('/' ∉ document.name.toList →
      (conversion.StaysInside outputDir ↔
        document.name ≠ "" ∧ document.name ≠ "." ∧ document.name ≠ "..")) := by
  have hname := Document.moduleName_of_convert hconvert
  refine ⟨hname ▸ Conversion.staysInside_iff, Conversion.isChild_modulePath _ _, fun hslash => ?_⟩
  have hmodule : '/' ∉ conversion.contract.moduleName.toList := by
    rwa [hname, Identifier.slash_mem_lowerFirst]
  rw [Conversion.staysInside_iff_of_unmarked hmodule, hname, Identifier.isPlain_lowerFirst]
  exact and_iff_right hslash

/-- The files of a vault stay inside the output directory. A contract called `../Pair` converts too, and
its files do not. -/
theorem vault_stays_inside_and_pair_does_not :
    (∃ conversion, (hollow "Vault").convert .strict .standard = .ok conversion ∧
      conversion.StaysInside "out") ∧
    ∃ conversion, (hollow "../Pair").convert .strict .standard = .ok conversion ∧
      ¬ conversion.StaysInside "out" := by
  have hconverts {result : Except ConversionFault Conversion} (h : result.toBool = true) :
      ∃ conversion, result = .ok conversion := by
    cases result with
    | error fault => cases h
    | ok conversion => exact ⟨conversion, rfl⟩
  constructor
  · obtain ⟨conversion, hconvert⟩ :=
      @hconverts ((hollow "Vault").convert .strict .standard) (by decide +kernel)
    obtain ⟨-, -, hname⟩ := module_files_stay_inside_iff hconvert "out"
    exact ⟨conversion, hconvert, (hname (by decide)).2 (by decide)⟩
  · obtain ⟨conversion, hconvert⟩ :=
      @hconverts ((hollow "../Pair").convert .strict .standard) (by decide +kernel)
    refine ⟨conversion, hconvert, fun hinside => ?_⟩
    rcases (module_files_stay_inside_iff hconvert "out").1.1 hinside with hordinary | hleads
    · exact absurd (hordinary.lead .up (by decide)) (by decide)
    · exact absurd hleads.absolute (by decide)

end ContractAbi
