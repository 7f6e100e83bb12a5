import ContractAbi.Proofs.AcceptedEndpoints
import ContractAbi.Proofs.DocumentText
import ContractAbi.Proofs.InputNesting
import ContractAbi.Proofs.WrittenModules

/-!
# Runs that generate code

A run that generates code either fails before it writes anything or writes one module. It fails with
the first fault of its stages: the settings, the log filter, the document, the conversion. Otherwise
it writes the two files of the module that the settings in effect ask for, and they lie below the
output directory, in a directory of their own, if the name of the module is a plain one. This holds for
every host, whatever its log filter is and whatever its libraries make of filters and of YAML. Left out
are inputs that are inside themselves, for which the code would have no end.
-/
namespace ContractAbi

open FileTree

theorem Data.of_defaulted {α : Type} {given : List (String × Data)} {field : String}
    {read : Data → Option α} {default value : α} (h : defaulted given field read default = some value) :
    value = ((given.lookup field).bind read).getD default := by
  rw [defaulted] at h
  cases hlookup : given.lookup field with
  | none => simpa [hlookup] using h.symm
  | some data => simp_all

namespace Command

variable {host : Host} {tree after : FileTree} {call : CodegenCall} {settings : Settings}

namespace Settings

def keys : List String := ["output_dir", "runtime_crate", "allow_partial", "log_filter"]

/-- What the text of a settings file says about a key. Blank text says nothing. -/
def given? (host : Host) (text key : String) : Option Data :=
  if Text.allBlank text.toList then none
  else ((host.yaml? text).bind (Data.strictRecord? keys)).bind (·.lookup key)

/-- Each setting is what the file says about its key, and the default if the file says nothing. -/
theorem of_parse? {text : String} (h : parse? host text = some settings) :
    settings.outputDir = ((given? host text "output_dir").bind Data.text?).getD standard.outputDir ∧
      settings.runtimeCrate =
        ((given? host text "runtime_crate").bind Data.text?).getD standard.runtimeCrate ∧
      settings.allowPartial =
        ((given? host text "allow_partial").bind Data.bool?).getD standard.allowPartial ∧
      settings.logFilter = ((given? host text "log_filter").bind Data.text?).getD standard.logFilter := by
  by_cases hblank : Text.allBlank text.toList = true
  · simp_all [parse?, given?]
  · rw [parse?, if_neg hblank] at h
    obtain ⟨data, hdata, h⟩ := Option.bind_eq_some_iff.1 h
    obtain ⟨given, hgiven, h⟩ := Option.bind_eq_some_iff.1 h
    obtain ⟨outputDir, houtput, h⟩ := Option.bind_eq_some_iff.1 h
    obtain ⟨runtimeCrate, hcrate, h⟩ := Option.bind_eq_some_iff.1 h
    obtain ⟨allowPartial, hpartial, h⟩ := Option.bind_eq_some_iff.1 h
    obtain ⟨logFilter, hfilter, h⟩ := Option.bind_eq_some_iff.1 h
    obtain rfl := Option.some.inj h
    have hentry : ∀ key, given? host text key = given.lookup key := fun key => by
      rw [given?, if_neg hblank, hdata, Option.bind_some, keys, hgiven, Option.bind_some]
    simp only [hentry]
    exact ⟨Data.of_defaulted houtput, Data.of_defaulted hcrate, Data.of_defaulted hpartial,
      Data.of_defaulted hfilter⟩

end Settings

/-- What the settings file of a run says about a key. -/
def givenSetting? (host : Host) (tree : FileTree) (config : Option String) (key : String) :
    Option Data :=
  (tree.read (config.getD Settings.defaultFile)).toOption.bind (Settings.given? host · key)

/-- The settings that hold for a call: what the command line says wins over the settings file, and
that over the default. Dropping endpoints that fail is asked for by either of the two. -/
structure InEffect (host : Host) (tree : FileTree) (call : CodegenCall) (settings : Settings) : Prop where
  outputDir : settings.outputDir =
    (call.outputDir.or ((givenSetting? host tree call.config "output_dir").bind Data.text?)).getD
      "generated"
  runtimeCrate : settings.runtimeCrate =
    (call.runtimeCrate.or ((givenSetting? host tree call.config "runtime_crate").bind Data.text?)).getD
      "abi_reflect"
  allowPartial : settings.allowPartial =
    (call.allowPartial ||
      ((givenSetting? host tree call.config "allow_partial").bind Data.bool?).getD false)
  logFilter : settings.logFilter =
    ((givenSetting? host tree call.config "log_filter").bind Data.text?).getD "info"

theorem SettingsFile.path_eq {config : Option String} {path : String}
    (h : SettingsFile tree config path) : path = config.getD Settings.defaultFile := by
  cases h with
  | named => rfl
  | found => rfl

/-- The settings that a run finds are those that the entries of the file leave. -/
theorem FindsSettings.eq {config : Option String} (h : FindsSettings host tree config (.ok settings)) :
    settings.outputDir = ((givenSetting? host tree config "output_dir").bind Data.text?).getD
        Settings.standard.outputDir ∧
      settings.runtimeCrate = ((givenSetting? host tree config "runtime_crate").bind Data.text?).getD
        Settings.standard.runtimeCrate ∧
      settings.allowPartial = ((givenSetting? host tree config "allow_partial").bind Data.bool?).getD
        Settings.standard.allowPartial ∧
      settings.logFilter = ((givenSetting? host tree config "log_filter").bind Data.text?).getD
        Settings.standard.logFilter := by
  cases h with
  | given hfile hread hparse =>
    have hentry : ∀ key, givenSetting? host tree config key = Settings.given? host _ key := fun key => by
      rw [givenSetting?, ← hfile.path_eq, hread]
      rfl
    simp only [hentry]
    exact Settings.of_parse? hparse
  | absent h =>
    have hentry : ∀ key, givenSetting? host tree config key = none := fun key => by
      cases config with
      | some path => exact absurd (.named path) (h path)
      | none =>
        cases hread : tree.read Settings.defaultFile with
        | error fault => rw [givenSetting?, Option.getD_none, hread]; rfl
        | ok text => exact absurd (.found hread) (h _)
    simp only [hentry]
    exact ⟨rfl, rfl, rfl, rfl⟩

theorem inEffect_forCall (h : FindsSettings host tree call.config (.ok settings)) :
    InEffect host tree call (settings.forCall call) := by
  obtain ⟨houtput, hcrate, hpartial, hfilter⟩ := h.eq
  refine ⟨?_, ?_, ?_, hfilter⟩
  · rw [Settings.forCall, houtput, Option.getD_or]
    rfl
  · rw [Settings.forCall, hcrate, Option.getD_or]
    rfl
  · rw [Settings.forCall, hpartial]
    rfl

namespace CodegenCall

/-- A run fails with the first fault of its stages. -/
inductive Fails (call : CodegenCall) (host : Host) (tree : FileTree) : CommandFault → Prop
  | settings {fault : CommandFault} (h : FindsSettings host tree call.config (.error fault)) :
      Fails call host tree fault
  | logFilter {settings : Settings} (h : FindsSettings host tree call.config (.ok settings))
      (hfilter : host.hasFilter (settings.filterFor call.verbose) = false) :
      Fails call host tree (.invalidLogFilter (settings.filterFor call.verbose))
  | document {settings : Settings} {fault : LoadFault} (h : Starts host tree (.codegen call) settings)
      (hload : LoadsDocument host tree call.file (.error fault)) :
      Fails call host tree (.unloadable call.file fault)
  | conversion {settings : Settings} {document : Document} {fault : ConversionFault}
      (h : Starts host tree (.codegen call) settings)
      (hload : LoadsDocument host tree call.file (.ok document))
      (hconvert : document.convert (settings.forCall call).policy
        (settings.forCall call).generationOptions = .error fault) :
      Fails call host tree (.unconvertible call.file fault)

/-- All stages of a run succeed: with the settings in effect the document converts. -/
structure Prepares (call : CodegenCall) (host : Host) (tree : FileTree) (settings : Settings)
    (document : Document) (conversion : Conversion) : Prop where
  starts : ∃ found, Starts host tree (.codegen call) found ∧ settings = found.forCall call
  loads : LoadsDocument host tree call.file (.ok document)
  converts : document.convert (if settings.allowPartial then .skipFailed else .strict)
    ⟨settings.runtimeCrate, true⟩ = .ok conversion

theorem fails_or_prepares (call : CodegenCall) (host : Host) (tree : FileTree) :
    (∃ fault, call.Fails host tree fault) ∨
      ∃ settings document conversion, call.Prepares host tree settings document conversion := by
  obtain ⟨result, hfound⟩ := exists_findsSettings host tree call.config
  cases result with
  | error fault => exact .inl ⟨fault, .settings hfound⟩
  | ok settings =>
    cases hfilter : host.hasFilter (settings.filterFor call.verbose) with
    | false => exact .inl ⟨_, .logFilter hfound hfilter⟩
    | true =>
      have hstart : Starts host tree (.codegen call) settings := ⟨hfound, hfilter⟩
      obtain ⟨loaded, hload⟩ := exists_loadsDocument host tree call.file
      cases loaded with
      | error fault => exact .inl ⟨_, .document hstart hload⟩
      | ok document =>
        cases hconvert : document.convert (settings.forCall call).policy
            (settings.forCall call).generationOptions with
        | error fault => exact .inl ⟨_, .conversion hstart hload hconvert⟩
        | ok conversion =>
          exact .inr ⟨settings.forCall call, document, conversion, ⟨settings, hstart, rfl⟩, hload,
            hconvert⟩

/-- A fault of a stage ends the run before anything is written. -/
theorem Fails.onTree_perform {fault : CommandFault} (h : call.Fails host tree fault) :
    onTree (perform host (.codegen call)) tree = (.error fault, tree) := by
  cases h with
  | settings h => exact onTree_bind_of_error (onTree_findSettings h) _
  | logFilter h hfilter =>
    refine (onTree_bind_of_ok (onTree_findSettings h) _).trans ?_
    rw [checkLogFilter, Invocation.isVerbose, if_neg (ne_true_of_eq_false hfilter)]
    exact onTree_bind_of_error (onTree_liftExcept _ _) _
  | document h hload =>
    rw [h.onTree_perform]
    exact onTree_bind_of_error (onTree_loadDocument hload) _
  | conversion h hload hconvert =>
    rw [h.onTree_perform]
    refine (onTree_bind_of_ok (onTree_loadDocument hload) _).trans ?_
    dsimp only
    rw [hconvert]
    exact onTree_bind_of_error (onTree_liftExcept _ _) _

/-- Past all stages a run writes its module. -/
theorem Prepares.onTree_perform {settings : Settings} {document : Document} {conversion : Conversion}
    (h : call.Prepares host tree settings document conversion) :
    onTree (perform host (.codegen call)) tree =
      match onTree (writeModule conversion settings.outputDir) tree with
      | (.ok (), after) => (.ok (generationText conversion settings.outputDir), after)
      | (.error fault, after) => (.error fault, after) := by
  obtain ⟨found, hstart, rfl⟩ := h.starts
  have hconvert : document.convert (found.forCall call).policy
      (found.forCall call).generationOptions = .ok conversion := h.converts
  rw [hstart.onTree_perform]
  refine (onTree_bind_of_ok (onTree_loadDocument h.loads) _).trans ?_
  dsimp only
  rw [hconvert]
  refine (onTree_bind_of_ok (onTree_liftExcept _ _) _).trans ?_
  refine (onTree_bind _ _ _).trans ?_
  rcases onTree (writeModule conversion (found.forCall call).outputDir) tree with ⟨result, after⟩
  cases result <;> rfl

end CodegenCall
end Command

namespace Path

variable {name : String}

/-- A name that a directory can have: one part, which neither stays nor leads up. -/
def IsPlain (name : String) : Prop :=
  '/' ∉ name.toList ∧ name ≠ "" ∧ name ≠ "." ∧ name ≠ ".."

instance (name : String) : Decidable (IsPlain name) :=
  inferInstanceAs (Decidable (_ ∧ _))

theorem isAbsolute_of_unmarked (h : '/' ∉ name.toList) : (ofText name).isAbsolute = false := by
  cases hname : name.toList with
  | nil => simp [ofText, hname]
  | cons c rest =>
    have hc : c ≠ '/' := fun heq => h (by simp [hname, heq])
    simp [ofText, hname, isSlash, hc]

theorem steps_of_unmarked (h : '/' ∉ name.toList) (hne : name ≠ "") :
    (ofText name).steps = [stepOf name] := by
  rw [steps_eq_of_lastPart (lastPart_of_unmarked h) hne, leadSteps_of_unmarked h]
  rfl

end Path

namespace Conversion

variable {conversion : Conversion} {outputDir : String} {before made after : FileTree}
  {source beside : Location}

/-- Both files lie in a directory that is named after the module and lies in the output directory. -/
def InOwnDirectory (conversion : Conversion) (outputDir : String) (tree : FileTree)
    (source beside : Location) : Prop :=
  ∃ output, tree.target (.ofText outputDir) = .ok output ∧
    source = output ++ [conversion.contract.moduleName, conversion.contract.moduleName ++ ".rs"] ∧
    beside = output ++ [conversion.contract.moduleName, "mod.rs"]

/-- The directory of a module with a name of one part is one step from the output directory. -/
theorem exists_output (hslash : '/' ∉ conversion.contract.moduleName.toList) {directory : Location}
    (hdirectory : made.target (.ofText (conversion.moduleDir outputDir)) = .ok directory) :
    ∃ output, made.target (.ofText outputDir) = .ok output ∧
      made.walk output (Path.ofText conversion.contract.moduleName).steps = .ok directory := by
  have hrelative := Path.isAbsolute_of_unmarked hslash
  rw [moduleDir, target, origin, Path.isAbsolute_join _ hrelative, Path.steps_join _ hrelative,
    walk_append] at hdirectory
  exact of_bind_eq_ok hdirectory

/-- The names that are no names of directories do not lead below a directory. -/
theorem length_le_of_walk {name : String} {output directory : Location}
    (hname : name = "" ∨ name = "." ∨ name = "..")
    (hwalk : made.walk output (Path.ofText name).steps = .ok directory) :
    directory.length ≤ output.length := by
  rcases hname with rfl | rfl | rfl
  · exact (congrArg List.length (Except.ok.inj hwalk)).ge
  · obtain ⟨⟨⟩, -, hwalk⟩ := of_bind_eq_ok hwalk
    exact (congrArg List.length (Except.ok.inj hwalk)).ge
  · obtain ⟨⟨⟩, -, hwalk⟩ := of_bind_eq_ok hwalk
    obtain rfl : output.dropLast = directory := Except.ok.inj hwalk
    simp

theorem Writes.isPlain_of_inOwnDirectory (h : conversion.Writes outputDir before made source beside after)
    (hown : conversion.InOwnDirectory outputDir after source beside) :
    Path.IsPlain conversion.contract.moduleName := by
  obtain ⟨output, houtput, hsourceOwn, hbesideOwn⟩ := hown
  obtain ⟨directory, hdirectory, hbeside⟩ := h.exists_directory
  obtain ⟨lead, -, hsource⟩ := h.exists_lead hdirectory
  -- the source is named after the last part of the name, so there is no other part
  have hlast : Path.lastPart conversion.contract.moduleName = conversion.contract.moduleName := by
    rw [hsource, List.append_cons output] at hsourceOwn
    exact (String.append_left_inj ".rs").1 (List.append_singleton_inj.1 hsourceOwn).2
  have hslash : '/' ∉ conversion.contract.moduleName.toList := fun hmem => by
    have hpart := Path.slash_not_mem_lastPart conversion.contract.moduleName
    rw [hlast] at hpart
    exact absurd (hpart '/' hmem) (by decide)
  have hstep : directory = output ++ [conversion.contract.moduleName] := by
    rw [hbeside, List.append_cons output] at hbesideOwn
    exact (List.append_singleton_inj.1 hbesideOwn).1
  obtain ⟨found, hfound, hwalk⟩ := exists_output hslash hdirectory
  obtain rfl : output = found := Except.ok.inj (houtput.symm.trans (h.keeps.target hfound))
  have hlonger : ¬ directory.length ≤ output.length := by simp [hstep]
  refine ⟨hslash, fun hname => ?_, fun hname => ?_, fun hname => ?_⟩ <;>
    exact hlonger (length_le_of_walk (by simp [hname]) hwalk)

theorem Writes.inOwnDirectory_of_isPlain (h : conversion.Writes outputDir before made source beside after)
    (hplain : Path.IsPlain conversion.contract.moduleName) :
    conversion.InOwnDirectory outputDir after source beside := by
  obtain ⟨hslash, hempty, hhere, hup⟩ := hplain
  obtain ⟨directory, hdirectory, hbeside⟩ := h.exists_directory
  obtain ⟨lead, hlead, hsource⟩ := h.exists_lead hdirectory
  obtain ⟨output, houtput, hwalk⟩ := exists_output hslash hdirectory
  rw [Path.steps_of_unmarked hslash hempty, Path.stepOf_eq_name hhere hup] at hwalk
  have hstep : directory = output ++ [conversion.contract.moduleName] := walk_name_eq_ok hwalk
  rw [Path.leadSteps_of_unmarked hslash, Writes.start, Path.isAbsolute_of_unmarked hslash] at hlead
  obtain rfl : directory = lead := Except.ok.inj hlead
  refine ⟨output, h.keeps.target houtput, ?_, ?_⟩
  · rw [hsource, hstep, Path.lastPart_of_unmarked hslash, List.append_assoc]
    rfl
  · rw [hbeside, hstep, List.append_assoc]
    rfl

/-- The files lie in the directory of their module, below the output directory, exactly if the name
of the module is plain. -/
theorem Writes.inOwnDirectory_iff (h : conversion.Writes outputDir before made source beside after) :
    conversion.InOwnDirectory outputDir after source beside ↔
      Path.IsPlain conversion.contract.moduleName :=
  ⟨h.isPlain_of_inOwnDirectory, h.inOwnDirectory_of_isPlain⟩

/-- What the writing of a module leaves as it was: everything beyond the two files, but directories
are made on the way to the module where there was nothing. -/
theorem Writes.entry?_or (h : conversion.Writes outputDir before made source beside after)
    {location : Location} (hsource : location ≠ source) (hbeside : location ≠ beside) :
    after.entry? location = before.entry? location ∨
      (before.entry? location = none ∧ after.entry? location = some .directory ∧
        ∃ path ∈ chain (conversion.moduleDir outputDir), after.locate path = .ok location) := by
  rw [h.entry?_of_ne hsource hbeside]
  exact (h.adds.entry location).imp_right fun ⟨hnone, hdirectory, path, hpath, hlocate⟩ =>
    ⟨hnone, hdirectory, path, hpath, h.keeps.locate hlocate⟩

end Conversion

namespace Command

/-- A tree after a run that wrote a module: nothing that was there is changed but the two files of
the module, whose paths are those that the conversion gives them, and nothing is new but those and the
directories on the way to them. The files lie in a directory of their own in the output directory
exactly if the name of the module is plain. -/
structure WroteModule (conversion : Conversion) (outputDir : String) (before after : FileTree)
    (source beside : Location) : Prop where
  sourceAt : after.locate (.ofText (conversion.sourcePath outputDir)) = .ok source
  besideAt : after.locate (.ofText (conversion.modulePath outputDir)) = .ok beside
  sourceText : source ≠ beside → after.entry? source = some (.file conversion.source)
  besideText : after.entry? beside = some (.file (moduleFileText conversion.contract.moduleName))
  others : ∀ location, location ≠ source → location ≠ beside →
    after.entry? location = before.entry? location ∨
      (before.entry? location = none ∧ after.entry? location = some .directory ∧
        ∃ path ∈ chain (conversion.moduleDir outputDir), after.locate path = .ok location)
  inOwnDirectory : conversion.InOwnDirectory outputDir after source beside ↔
    Path.IsPlain conversion.contract.moduleName

theorem exists_wroteModule {conversion : Conversion} {outputDir : String} {before after : FileTree}
    (h : onTree (writeModule conversion outputDir) before = (.ok (), after)) :
    ∃ source beside, WroteModule conversion outputDir before after source beside := by
  obtain ⟨made, source, beside, h⟩ := Conversion.exists_writes h
  exact ⟨source, beside, {
    sourceAt := locate_of_newLocation? (h.sourcePlace.keeps h.keeps).place
    besideAt := locate_of_newLocation? (h.besidePlace.keeps h.keeps).place
    sourceText := h.entry?_source
    besideText := h.entry?_beside
    others := fun _ => h.entry?_or
    inOwnDirectory := h.inOwnDirectory_iff }⟩

namespace CodegenCall

variable {call : CodegenCall} {host : Host} {tree after : FileTree} {settings : Settings}

/-- If a run comes to write its module, the system lets it. -/
def MayWrite (call : CodegenCall) (host : Host) (tree : FileTree) : Prop :=
  ∀ settings document conversion, call.Prepares host tree settings document conversion →
    ∃ after, onTree (writeModule conversion settings.outputDir) tree = (.ok (), after)

theorem mayWrite_of_success {words : List String}
    (hwords : Request.ofWords words = .run (.codegen call)) {output : String}
    (hrun : (run words host : StateM FileTree Report).run tree = (.success output, after)) :
    call.MayWrite host tree := by
  intro settings document conversion hprepared
  have hperform := hprepared.onTree_perform
  rcases hwrite : onTree (writeModule conversion settings.outputDir) tree with ⟨result, written⟩
  rw [hwrite] at hperform
  cases result with
  | ok => exact ⟨written, rfl⟩
  | error fault => cases (Prod.mk.inj (hrun.symm.trans (run_of_error hwords hperform))).1

/-- If a run comes to generate code for a contract, the code for its inputs ends. -/
def InputsEnd (call : CodegenCall) (host : Host) (tree : FileTree) : Prop :=
  ∀ settings document contract, Starts host tree (.codegen call) settings →
    LoadsDocument host tree call.file (.ok document) →
    Contract.ofDocument (settings.forCall call).policy document = .ok contract → contract.InputsEnd

theorem Prepares.keepsInputs {document : Document} {conversion : Conversion}
    (h : call.Prepares host tree settings document conversion) (hinputs : call.InputsEnd host tree) :
    conversion.contract.KeepsInputs := by
  obtain ⟨found, hstart, rfl⟩ := h.starts
  have hcontract := (Document.of_convert_eq_ok h.converts).1
  exact (hinputs found document conversion.contract hstart h.loads hcontract).keepsInputs

end CodegenCall

/-- A run that generates code fails and leaves every file and directory as it is exactly if one of its
stages fails. Otherwise it succeeds and has written one module: that of the conversion which the
settings in effect ask for. Nothing is assumed of the host: `RUST_LOG` may hold a filter or not, and
its libraries may accept any filters and any YAML. The file system lets the module be written, and no
input is inside itself, as its code would have no end. -/
theorem generation_is_all_or_nothing {words : List String} {call : CodegenCall}
    (hwords : Request.ofWords words = .run (.codegen call)) {host : Host} {tree after : FileTree}
    {report : Report} (hinputs : call.InputsEnd host tree) (haccess : call.MayWrite host tree)
    (hrun : (run words host : StateM FileTree Report).run tree = (report, after)) :
    (report.code ≠ 0 ∧ after = tree ↔ ∃ fault, call.Fails host tree fault) ∧
      (∀ fault, call.Fails host tree fault → report = .ofFault fault ∧ after = tree) ∧
      ((¬ ∃ fault, call.Fails host tree fault) → ∃ settings document conversion source beside,
        call.Prepares host tree settings document conversion ∧ InEffect host tree call settings ∧
          conversion.contract.KeepsInputs ∧
          report = .success (generationText conversion settings.outputDir) ∧
          WroteModule conversion settings.outputDir tree after source beside) := by
  have hfails : ∀ fault, call.Fails host tree fault → report = .ofFault fault ∧ after = tree :=
    fun fault hfault => Prod.mk.inj (hrun.symm.trans (run_of_error hwords hfault.onTree_perform))
  have hprepares : ∀ settings document conversion,
      call.Prepares host tree settings document conversion →
      report = .success (generationText conversion settings.outputDir) ∧
        ∃ source beside, WroteModule conversion settings.outputDir tree after source beside := by
    intro settings document conversion hprepared
    obtain ⟨written, hwrite⟩ := haccess settings document conversion hprepared
    have hperform := hprepared.onTree_perform
    rw [hwrite] at hperform
    obtain ⟨rfl, rfl⟩ := Prod.mk.inj (hrun.symm.trans (run_of_ok hwords hperform))
    exact ⟨rfl, exists_wroteModule hwrite⟩
  refine ⟨⟨fun ⟨hcode, _⟩ => ?_, fun ⟨fault, hfault⟩ => ?_⟩, hfails, fun hnone => ?_⟩
  · rcases call.fails_or_prepares host tree with hfault | ⟨settings, document, conversion, hprepared⟩
    · exact hfault
    · rw [(hprepares settings document conversion hprepared).1] at hcode
      exact absurd rfl hcode
  · obtain ⟨rfl, rfl⟩ := hfails fault hfault
    exact ⟨by simp [Report.ofFault], rfl⟩
  · obtain ⟨settings, document, conversion, hprepared⟩ :=
      (call.fails_or_prepares host tree).resolve_left hnone
    have hkeeps := hprepared.keepsInputs hinputs
    obtain ⟨found, hstart, rfl⟩ := hprepared.starts
    obtain ⟨hreport, source, beside, hwrote⟩ := hprepares _ _ _ hprepared
    exact ⟨_, document, conversion, source, beside, hprepared, inEffect_forCall hstart.found, hkeeps,
      hreport, hwrote⟩

def settingsText : String := "output_dir: out\nruntime_crate: core\nallow_partial: true"

/-- A used tree with a document, and with settings in the default place. -/
def codegenTree (name : String) : FileTree :=
  (usedTree.putFile ["work", "a.json"] (hollow name).json.compact).putFile ["work", "abi-gen.yaml"]
    settingsText

def codegenWords : List String := ["codegen", "-f", "a.json", "--runtime-crate", "kit"]

def codegenCall : CodegenCall := ⟨"a.json", none, some "kit", false, none, false⟩

/-- A host with a log filter of its own. -/
def codegenHost : Host := ⟨some "warn", ["debug", "info", "warn"].contains, Yaml.parse?⟩

theorem parse_settingsText :
    Settings.parse? codegenHost settingsText = some ⟨"out", "core", true, "info"⟩ := by
  have hdata : codegenHost.yaml? settingsText = some (.map [(.plain "output_dir", .plain "out"),
      (.plain "runtime_crate", .plain "core"), (.plain "allow_partial", .plain "true")]) := by
    cbv
  rw [Settings.parse?, if_neg (by decide), hdata]
  decide

theorem parse_hollow (name : String) (yaml? : String → Option Data) :
    Document.parse .json (hollow name).json.compact yaml? = .ok (hollow name) := by
  have hwritable : (hollow name).IsWritable := by
    constructor <;> exact fun _ hmem => absurd hmem List.not_mem_nil
  exact Document.parse_of_parse? hwritable (Json.parse?_compact (Document.isSound_json hwritable))

section

variable {name : String} {settings : Settings} {document : Document} {conversion : Conversion}

theorem prepares_codegenCall
    (hconvert : (hollow name).convert .skipFailed ⟨"kit", true⟩ = .ok conversion) :
    codegenCall.Prepares codegenHost (codegenTree name) ⟨"out", "kit", true, "info"⟩ (hollow name)
      conversion := by
  have hsettings : (codegenTree name).read Settings.defaultFile = .ok settingsText := by
    rfl
  have hdocument : (codegenTree name).read "a.json" = .ok (hollow name).json.compact := by
    rfl
  refine ⟨⟨⟨"out", "core", true, "info"⟩, ⟨?_, by decide⟩, by decide⟩, ?_, ?_⟩
  · exact .given (.found hsettings) hsettings parse_settingsText
  · exact .loaded hdocument (parse_hollow name _) rfl
  · exact hconvert

theorem eq_hollow_of_loadsDocument
    (h : LoadsDocument codegenHost (codegenTree name) codegenCall.file (.ok document)) :
    document = hollow name := by
  cases h with
  | loaded hread hparse =>
    obtain rfl : (hollow name).json.compact = _ := Except.ok.inj hread
    exact Except.ok.inj (hparse.symm.trans (parse_hollow name _))

theorem moduleName_of_prepares
    (h : codegenCall.Prepares codegenHost (codegenTree name) settings document conversion) :
    conversion.contract.moduleName = Identifier.lowerFirst name := by
  have hname := Document.moduleName_of_convert h.converts
  rw [eq_hollow_of_loadsDocument h.loads] at hname
  exact hname

theorem inputsEnd_codegenCall (name : String) :
    codegenCall.InputsEnd codegenHost (codegenTree name) := by
  intro settings document contract _ hload hcontract endpoint hendpoint
  obtain ⟨decl, hdecl, -⟩ := Contract.exists_declaration hcontract hendpoint
  rw [eq_hollow_of_loadsDocument hload] at hdecl
  cases hdecl

/-- The run writes where it may, so it succeeds. -/
theorem exists_run_codegenWords (name : String)
    (hwrite : ((hollow name).convert .skipFailed ⟨"kit", true⟩).map (fun conversion =>
      (onTree (writeModule conversion "out") (codegenTree name)).1) = .ok (.ok ())) :
    ∃ output after, (run codegenWords codegenHost : StateM FileTree Report).run (codegenTree name) =
      (.success output, after) := by
  obtain ⟨conversion, after, hconvert, hwritten⟩ := Document.exists_written hwrite
  have hwords : Request.ofWords codegenWords = .run (.codegen codegenCall) := by decide
  have hperform := (prepares_codegenCall hconvert).onTree_perform
  rw [hwritten] at hperform
  exact ⟨generationText conversion "out", after, run_of_ok hwords hperform⟩

end

theorem not_loadsDocument_usedTree (document : Document) :
    ¬ LoadsDocument codegenHost usedTree codegenCall.file (.ok document) := by
  have hmissing : usedTree.read codegenCall.file = .error .notFound := by rfl
  rintro (_ | _ | _ | ⟨hread, -⟩)
  cases hmissing.symm.trans hread

theorem fails_usedTree : codegenCall.Fails codegenHost usedTree
    (.unloadable "a.json" (.unreadable "a.json" .notFound)) := by
  have hsettings : FindsSettings codegenHost usedTree none (.ok .standard) := by
    apply FindsSettings.absent
    intro path hfile
    cases hfile with
    | found hread => cases hread
  exact .document ⟨hsettings, by decide⟩ (.unreadable (by rfl))

/-- The files of a pair lie in a directory of their own in the output directory, which the settings
name. Those of a contract called `../Pair` do not. Without a document nothing is written. -/
theorem pair_lies_in_its_own_directory :
    (∃ settings conversion after source beside,
      (run codegenWords codegenHost : StateM FileTree Report).run (codegenTree "Pair") =
        (.success (generationText conversion (Settings.outputDir settings)), after) ∧
      InEffect codegenHost (codegenTree "Pair") codegenCall settings ∧
      WroteModule conversion settings.outputDir (codegenTree "Pair") after source beside ∧
      conversion.InOwnDirectory settings.outputDir after source beside) ∧
    (∃ settings conversion after source beside,
      (run codegenWords codegenHost : StateM FileTree Report).run (codegenTree "../Pair") =
        (.success (generationText conversion (Settings.outputDir settings)), after) ∧
      WroteModule conversion settings.outputDir (codegenTree "../Pair") after source beside ∧
      ¬ conversion.InOwnDirectory settings.outputDir after source beside) ∧
    ∃ report, (run codegenWords codegenHost : StateM FileTree Report).run usedTree = (report, usedTree) ∧
      report.code ≠ 0 := by
  have hwords : Request.ofWords codegenWords = .run (.codegen codegenCall) := by decide
  -- a run that reports success has failed at no stage
  have hwrote (name : String) {output : String} {after : FileTree}
      (hrun : (run codegenWords codegenHost : StateM FileTree Report).run (codegenTree name) =
        (.success output, after)) :
      ∃ settings conversion source beside,
        (run codegenWords codegenHost : StateM FileTree Report).run (codegenTree name) =
          (.success (generationText conversion (Settings.outputDir settings)), after) ∧
        InEffect codegenHost (codegenTree name) codegenCall settings ∧
        WroteModule conversion settings.outputDir (codegenTree name) after source beside ∧
        conversion.contract.moduleName = Identifier.lowerFirst name := by
    obtain ⟨hfails, -, hprepares⟩ :=
      generation_is_all_or_nothing hwords (inputsEnd_codegenCall name)
        (CodegenCall.mayWrite_of_success hwords hrun) hrun
    obtain ⟨settings, _, conversion, source, beside, hprepared, heffect, -, hreport, hwrote⟩ :=
      hprepares fun hfault => (hfails.2 hfault).1 rfl
    rw [hreport] at hrun
    exact ⟨settings, conversion, source, beside, hrun, heffect, hwrote, moduleName_of_prepares hprepared⟩
  refine ⟨?_, ?_, ?_⟩
  · obtain ⟨_, after, hrun⟩ := exists_run_codegenWords "Pair" (by decide +kernel)
    obtain ⟨settings, conversion, source, beside, hrun, heffect, hwrote, hname⟩ := hwrote "Pair" hrun
    refine ⟨settings, conversion, after, source, beside, hrun, heffect, hwrote, ?_⟩
    rw [hwrote.inOwnDirectory, hname]
    decide
  · obtain ⟨_, after, hrun⟩ := exists_run_codegenWords "../Pair" (by decide +kernel)
    obtain ⟨settings, conversion, source, beside, hrun, -, hwrote, hname⟩ := hwrote "../Pair" hrun
    refine ⟨settings, conversion, after, source, beside, hrun, hwrote, ?_⟩
    rw [hwrote.inOwnDirectory, hname]
    decide
  · have hinputs : codegenCall.InputsEnd codegenHost usedTree :=
      fun _ document _ _ hload => absurd hload (not_loadsDocument_usedTree document)
    have haccess : codegenCall.MayWrite codegenHost usedTree :=
      fun _ document _ hprepared => absurd hprepared.loads (not_loadsDocument_usedTree document)
    obtain ⟨-, hfault, -⟩ := generation_is_all_or_nothing hwords hinputs haccess rfl
    obtain ⟨hreport, hafter⟩ := hfault _ fails_usedTree
    exact ⟨_, Prod.ext rfl hafter, by rw [hreport]; decide⟩

end Command
end ContractAbi
