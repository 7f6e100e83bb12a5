import ContractAbi.Proofs.CommandRuns
import ContractAbi.Proofs.EndpointPolicy
import ContractAbi.Proofs.Paths
import ContractAbi.Proofs.SnakeCase
import ContractAbi.Proofs.TreeChanges

/-!
# Written modules

A module is written in three steps: its directory is made, then its source is written, then the file
beside the source. The name of the source comes from the name of the contract, which is any text. The
last step leaves the source alone unless both files have the same location, and that happens exactly
if the module is called `mod` and the rest of its name leads back to its own directory.
-/
namespace ContractAbi

open FileTree Command

theorem SourceFile.head?_text (file : SourceFile) : file.text.toList.head? = some '/' := by
  simp [text, Code.render, Text.unlines, lines, headerLines, String.join_cons]

theorem head?_moduleFileText (moduleName : String) :
    (moduleFileText moduleName).toList.head? = some '#' := by
  simp [moduleFileText, Code.render, Text.unlines, String.join_cons]

namespace Document

variable {document : Document} {policy : EndpointPolicy} {options : GenerationOptions}
  {conversion : Conversion}

/-- A conversion has a contract of the document, and the text of its file as source. -/
theorem of_convert_eq_ok (h : document.convert policy options = .ok conversion) :
    Contract.ofDocument policy document = .ok conversion.contract ∧
      ∃ file, conversion.contract.sourceFile options = .ok file ∧ conversion.source = file.text := by
  obtain ⟨contract, hcontract, h⟩ := of_bind_eq_ok h
  obtain ⟨file, hfile, h⟩ := of_bind_eq_ok h
  obtain rfl := Except.ok.inj h
  dsimp only
  exact ⟨hcontract, file, hfile, rfl⟩

theorem moduleName_of_convert (h : document.convert policy options = .ok conversion) :
    conversion.contract.moduleName = Identifier.lowerFirst document.name := by
  obtain ⟨session, progress, -, -, hcontract⟩ := Contract.exists_run (of_convert_eq_ok h).1
  rw [hcontract]
  rfl

theorem source_ne_moduleFileText (h : document.convert policy options = .ok conversion)
    (moduleName : String) : conversion.source ≠ moduleFileText moduleName := by
  obtain ⟨-, file, -, hsource⟩ := of_convert_eq_ok h
  intro heq
  have hhead := file.head?_text
  rw [← hsource, heq, head?_moduleFileText] at hhead
  exact absurd hhead (by decide)

end Document

namespace Identifier

theorem toLower_eq_m {c : Char} : c.toLower = 'm' ↔ c = 'm' ∨ c = 'M' := by
  constructor
  · intro h
    cases hupper : c.isUpper with
    | true =>
      have hlower : ¬ c.isLower = true := by
        intro hlower
        simp only [Char.isUpper, Char.isLower, Bool.and_eq_true, decide_eq_true_eq] at hupper hlower
        exact absurd (UInt32.le_trans hlower.1 hupper.2) (by decide)
      right
      rw [← Char.toUpper_eq_of_not_isLower hlower, ← Char.toUpper_toLower_eq_toUpper, h]
      rfl
    | false =>
      left
      rw [← h, Char.toLower_eq_of_not_isUpper (by simp [hupper])]
  · rintro (rfl | rfl) <;> decide

theorem slash_mem_lowerFirst {name : String} :
    '/' ∈ (lowerFirst name).toList ↔ '/' ∈ name.toList := by
  rw [lowerFirst, String.toList_ofList]
  cases name.toList with
  | nil => rfl
  | cons c rest =>
    rw [lowerHead, List.mem_cons, List.mem_cons, eq_comm, toLower_eq_iff (by decide), eq_comm]

theorem lowerFirst_eq_mod {name : String} : lowerFirst name = "mod" ↔ name = "mod" ∨ name = "Mod" := by
  have htexts : ∀ text : String, name = text ↔ name.toList = text.toList :=
    fun text => String.toList_inj.symm
  rw [htexts, htexts, lowerFirst, String.ofList_eq]
  cases name.toList with
  | nil => decide
  | cons c rest =>
    rw [lowerHead, show "mod".toList = ['m', 'o', 'd'] from rfl, show "Mod".toList = ['M', 'o', 'd'] from rfl]
    simp only [List.cons.injEq, toLower_eq_m]
    tauto

end Identifier

namespace Conversion

variable {conversion : Conversion} {outputDir : String} {before made after : FileTree}
  {source beside directory lead : Location}

/-- The module of a conversion comes into a tree: in the tree with its directory, both files get
their texts at their locations, the file beside the source last. -/
structure Writes (conversion : Conversion) (outputDir : String) (before made : FileTree)
    (source beside : Location) (after : FileTree) : Prop where
  adds : before.AddsDirectories (chain (conversion.moduleDir outputDir)) made
  sourcePlace : made.Places (conversion.sourcePath outputDir) source
  sourceFree : made.entry? source ≠ some .directory
  besidePlace : made.Places (conversion.modulePath outputDir) beside
  besideFree : made.entry? beside ≠ some .directory
  result : after = (made.put source (.file conversion.source)).put beside
    (.file (moduleFileText conversion.contract.moduleName))

theorem exists_writes (h : onTree (writeModule conversion outputDir) before = (.ok (), after)) :
    ∃ made source beside, conversion.Writes outputDir before made source beside after := by
  obtain ⟨⟨⟩, made, hmade, h⟩ := of_onTree_bind_eq_ok h
  obtain ⟨⟨⟩, first, hfirst, h⟩ := of_onTree_bind_eq_ok h
  obtain ⟨⟨⟩, second, hsecond, h⟩ := of_onTree_bind_eq_ok h
  obtain rfl := (Prod.mk.inj h).2
  obtain ⟨source, hsource, hsourceFree, rfl⟩ :=
    of_replace_eq_ok (of_onTree_orUnwritable_eq_ok hfirst)
  obtain ⟨beside, hbeside, hbesideFree, rfl⟩ :=
    of_replace_eq_ok (of_onTree_orUnwritable_eq_ok hsecond)
  -- the first file is no directory, so the way to the second was there before it
  have hback : KeepsDirectories (made.put source (.file conversion.source)) made :=
    .of_put_file hsource.ne_nil conversion.source
  exact ⟨made, source, beside, {
    adds := addsDirectories_of_makeDirectories (of_onTree_orUnwritable_eq_ok hmade)
    sourcePlace := hsource
    sourceFree := hsourceFree
    besidePlace := hbeside.keeps hback
    besideFree := fun hdirectory => hbesideFree
      ((KeepsDirectories.put_file hsource.ne_nil hsourceFree _).directory beside hdirectory)
    result := rfl }⟩

namespace Writes

theorem keeps (h : conversion.Writes outputDir before made source beside after) :
    KeepsDirectories made after := by
  have hsource := KeepsDirectories.put_file h.sourcePlace.ne_nil h.sourceFree conversion.source
  refine hsource.trans ?_
  rw [h.result]
  refine .put_file h.besidePlace.ne_nil (fun hdirectory => h.besideFree ?_) _
  exact (KeepsDirectories.of_put_file h.sourcePlace.ne_nil _).directory beside hdirectory

theorem entry?_beside (h : conversion.Writes outputDir before made source beside after) :
    after.entry? beside = some (.file (moduleFileText conversion.contract.moduleName)) := by
  rw [h.result, entry?_put_self _ h.besidePlace.ne_nil]

theorem entry?_source (h : conversion.Writes outputDir before made source beside after)
    (hne : source ≠ beside) : after.entry? source = some (.file conversion.source) := by
  rw [h.result, entry?_put_of_ne _ h.besidePlace.ne_nil _ hne, entry?_put_self _ h.sourcePlace.ne_nil]

/-- Beyond the two files, nothing changes but that directories are made. -/
theorem entry?_of_ne (h : conversion.Writes outputDir before made source beside after)
    {location : Location} (hsource : location ≠ source) (hbeside : location ≠ beside) :
    after.entry? location = made.entry? location := by
  rw [h.result, entry?_put_of_ne _ h.besidePlace.ne_nil _ hbeside,
    entry?_put_of_ne _ h.sourcePlace.ne_nil _ hsource]

theorem read_beside (h : conversion.Writes outputDir before made source beside after) :
    after.read (conversion.modulePath outputDir) =
      .ok (moduleFileText conversion.contract.moduleName) := by
  refine (h.besidePlace.keeps h.keeps).read_eq ?_ h.entry?_beside
  exact Path.endsInSlash_join _ (by decide)

theorem read_source (h : conversion.Writes outputDir before made source beside after) {text : String}
    (hentry : after.entry? source = some (.file text)) :
    after.read (conversion.sourcePath outputDir) = .ok text := by
  refine (h.sourcePlace.keeps h.keeps).read_eq ?_ hentry
  have hne : conversion.contract.moduleName ++ ".rs" ≠ "" := by
    intro hnil
    have hlength := congrArg (fun text => text.toList.length) hnil
    simp at hlength
  rw [sourcePath, Path.endsInSlash_join _ hne, Path.endsInSlash_source]

/-- The file beside the source lies in the directory of the module. -/
theorem exists_directory (h : conversion.Writes outputDir before made source beside after) :
    ∃ directory, made.target (.ofText (conversion.moduleDir outputDir)) = .ok directory ∧
      beside = directory ++ ["mod.rs"] := by
  have hrelative : (Path.ofText "mod.rs").isAbsolute = false := by decide
  have hsteps : (Path.ofText (conversion.modulePath outputDir)).steps =
      (Path.ofText (conversion.moduleDir outputDir)).steps ++ [.name "mod.rs"] := by
    rw [modulePath, Path.steps_join _ hrelative]
    rfl
  obtain ⟨directory, hwalk, hbeside⟩ := exists_directory_of_newLocation? hsteps h.besidePlace.place
  refine ⟨directory, ?_, hbeside⟩
  rwa [origin, modulePath, Path.isAbsolute_join _ hrelative] at hwalk

/-- Where the name of a module sets out from: the directory of the module, or the root. -/
def start (conversion : Conversion) (directory : Location) : Location :=
  if (Path.ofText conversion.contract.moduleName).isAbsolute then [] else directory

/-- The source lies where the steps before the last part of the name lead. -/
theorem exists_lead (h : conversion.Writes outputDir before made source beside after)
    (hdirectory : made.target (.ofText (conversion.moduleDir outputDir)) = .ok directory) :
    ∃ lead, made.walk (start conversion directory)
        (Path.leadSteps conversion.contract.moduleName) = .ok lead ∧
      source = lead ++ [Path.lastPart conversion.contract.moduleName ++ ".rs"] := by
  have hplace := h.sourcePlace.place
  rw [sourcePath] at hplace
  cases habsolute : (Path.ofText conversion.contract.moduleName).isAbsolute with
  | true =>
    rw [Path.join_of_isAbsolute (by rw [Path.isAbsolute_source, habsolute])] at hplace
    obtain ⟨lead, hwalk, hsource⟩ := exists_directory_of_newLocation? (Path.steps_source _) hplace
    rw [origin, Path.isAbsolute_source, habsolute] at hwalk
    exact ⟨lead, by rwa [start, habsolute], hsource⟩
  | false =>
    have hrelative := (Path.isAbsolute_source conversion.contract.moduleName).trans habsolute
    have hsteps := Path.steps_join (conversion.moduleDir outputDir) hrelative
    rw [Path.steps_source, ← List.append_assoc] at hsteps
    obtain ⟨lead, hwalk, hsource⟩ := exists_directory_of_newLocation? hsteps hplace
    rw [origin, Path.isAbsolute_join _ hrelative, walk_append] at hwalk
    rw [target, origin] at hdirectory
    rw [hdirectory] at hwalk
    exact ⟨lead, by rwa [start, habsolute], hsource⟩

end Writes

/-- The source goes where the file beside it goes: the module is called `mod`, and the rest of its
name leads from its directory back to that directory. -/
structure OverwritesItself (conversion : Conversion) (outputDir : String) (tree : FileTree) : Prop where
  relative : (Path.ofText conversion.contract.moduleName).isAbsolute = false
  lastPart : Path.lastPart conversion.contract.moduleName = "mod"
  leadsBack : ∃ directory, tree.target (.ofText (conversion.moduleDir outputDir)) = .ok directory ∧
    tree.walk directory (Path.leadSteps conversion.contract.moduleName) = .ok directory

/-- An absolute name that ends in `mod` leads from a directory into another one. -/
theorem Writes.relative_of_eq (h : conversion.Writes outputDir before made source beside after)
    (heq : source = beside) : (Path.ofText conversion.contract.moduleName).isAbsolute = false ∧
      Path.lastPart conversion.contract.moduleName = "mod" ∧
      ∃ directory, made.target (.ofText (conversion.moduleDir outputDir)) = .ok directory ∧
        made.walk directory (Path.leadSteps conversion.contract.moduleName) = .ok directory := by
  obtain ⟨directory, hdirectory, hbeside⟩ := h.exists_directory
  obtain ⟨lead, hlead, hsource⟩ := h.exists_lead hdirectory
  rw [hsource, hbeside] at heq
  obtain ⟨rfl, hfile⟩ := List.append_singleton_inj.1 heq
  have hpart : Path.lastPart conversion.contract.moduleName = "mod" :=
    (@String.append_left_inj _ "mod" ".rs").1 hfile
  cases habsolute : (Path.ofText conversion.contract.moduleName).isAbsolute with
  | false =>
    rw [Writes.start, habsolute] at hlead
    exact ⟨rfl, hpart, lead, hdirectory, hlead⟩
  | true =>
    rw [Writes.start, if_pos habsolute] at hlead
    rw [moduleDir, Path.join_of_isAbsolute habsolute, target, origin, if_pos habsolute,
      Path.steps_eq_of_lastPart hpart (by decide), walk_append, hlead] at hdirectory
    have hlonger : lead = lead ++ ["mod"] := walk_name_eq_ok hdirectory
    exact absurd (congrArg List.length hlonger) (by simp)

theorem Writes.overwritesItself_iff (h : conversion.Writes outputDir before made source beside after) :
    conversion.OverwritesItself outputDir after ↔ source = beside := by
  constructor
  · rintro ⟨hrelative, hpart, other, hother, hback⟩
    obtain ⟨directory, hdirectory, hbeside⟩ := h.exists_directory
    obtain ⟨lead, hlead, hsource⟩ := h.exists_lead hdirectory
    rw [Writes.start, hrelative] at hlead
    obtain rfl : directory = other := Except.ok.inj ((h.keeps.target hdirectory).symm.trans hother)
    obtain rfl : lead = directory := Except.ok.inj ((h.keeps.walk hlead).symm.trans hback)
    rw [hsource, hbeside, hpart]
    rfl
  · intro heq
    obtain ⟨hrelative, hpart, directory, hdirectory, hback⟩ := h.relative_of_eq heq
    exact ⟨hrelative, hpart, directory, h.keeps.target hdirectory, h.keeps.walk hback⟩

/-- For a name without a slash the source is lost exactly if the name is `mod`. -/
theorem Writes.overwritesItself_iff_of_unmarked
    (h : conversion.Writes outputDir before made source beside after)
    (hslash : '/' ∉ conversion.contract.moduleName.toList) :
    conversion.OverwritesItself outputDir after ↔ conversion.contract.moduleName = "mod" := by
  constructor
  · rintro ⟨-, hpart, -⟩
    rwa [Path.lastPart_of_unmarked hslash] at hpart
  · intro hname
    obtain ⟨directory, hdirectory, -⟩ := h.exists_directory
    refine ⟨by rw [hname]; decide, by rw [Path.lastPart_of_unmarked hslash, hname], directory,
      h.keeps.target hdirectory, ?_⟩
    rw [Path.leadSteps_of_unmarked hslash]
    rfl

end Conversion

/-- A module comes into a tree if its document converts and the system lets the steps of the write. -/
theorem Document.exists_written {document : Document} {policy : EndpointPolicy}
    {options : GenerationOptions} {outputDir : String} {before : FileTree}
    (h : (document.convert policy options).map (fun conversion =>
      (onTree (writeModule conversion outputDir) before).1) = .ok (.ok ())) :
    ∃ conversion after, document.convert policy options = .ok conversion ∧
      onTree (writeModule conversion outputDir) before = (.ok (), after) := by
  obtain ⟨conversion, hconvert, hok⟩ := of_map_eq_ok h
  rcases hwrite : onTree (writeModule conversion outputDir) before with ⟨result, after⟩
  rw [hwrite] at hok
  obtain rfl : Except.ok () = result := hok
  exact ⟨conversion, after, hconvert, hwrite⟩

/-- After a module is written, the file beside the source is read back with its text. The source is
read back unless it has the location of that file, which then has taken its place; for a contract
without a slash in its name this happens exactly if it is called `mod` or `Mod`. -/
theorem written_source_is_read_back_iff {document : Document} {policy : EndpointPolicy}
    {options : GenerationOptions} {conversion : Conversion}
    (hconvert : document.convert policy options = .ok conversion) {outputDir : String}
    {before after : FileTree}
    (hwrite : onTree (writeModule conversion outputDir) before = (.ok (), after)) :
    after.read (conversion.modulePath outputDir) =
        .ok (moduleFileText conversion.contract.moduleName) ∧
      (after.read (conversion.sourcePath outputDir) = .ok conversion.source ↔
        ¬ conversion.OverwritesItself outputDir after) ∧
      (conversion.OverwritesItself outputDir after →
        after.read (conversion.sourcePath outputDir) =
          .ok (moduleFileText conversion.contract.moduleName)) ∧
      ('/' ∉ document.name.toList →
        (conversion.OverwritesItself outputDir after ↔ document.name = "mod" ∨ document.name = "Mod")) := by
  obtain ⟨made, source, beside, h⟩ := Conversion.exists_writes hwrite
  have hname := Document.moduleName_of_convert hconvert
  have hlost : conversion.OverwritesItself outputDir after →
      after.read (conversion.sourcePath outputDir) =
        .ok (moduleFileText conversion.contract.moduleName) :=
    fun hover => h.read_source (h.overwritesItself_iff.1 hover ▸ h.entry?_beside)
  refine ⟨h.read_beside, ⟨fun hread hover => ?_, fun hkept => ?_⟩, hlost, fun hslash => ?_⟩
  · exact Document.source_ne_moduleFileText hconvert _ (Except.ok.inj (hread.symm.trans (hlost hover)))
  · exact h.read_source (h.entry?_source fun heq => hkept (h.overwritesItself_iff.2 heq))
  · rw [h.overwritesItself_iff_of_unmarked (by rwa [hname, Identifier.slash_mem_lowerFirst]), hname,
      Identifier.lowerFirst_eq_mod]

/-- A contract without endpoints. -/
def hollow (name : String) : Document where
  buildInfo := ⟨none, ⟨"multiversx-sc", "0.39.4"⟩⟩
  docs := []
  name
  constructor := none
  endpoints := []
  events := []
  hasCallbacks := false
  types := ∅

/-- A tree in which modules have been written before. -/
def usedTree : FileTree :=
  ((FileTree.ofDirectory ["work"]).putFile ["work", "out", "vault", "vault.rs"] "old").putFile
    ["work", "out", "mod", "mod.rs"] "old"

/-- Both files of the vault are read back. Of a contract called `Mod` the source is lost, and the
path that the run prints leads to the file that declares a module. -/
theorem vault_is_read_back_and_mod_is_not :
    (∃ conversion after, (hollow "Vault").convert .strict .standard = .ok conversion ∧
      onTree (writeModule conversion "out") usedTree = (.ok (), after) ∧
      after.read (conversion.sourcePath "out") = .ok conversion.source ∧
      after.read (conversion.modulePath "out") = .ok (moduleFileText conversion.contract.moduleName)) ∧
    ∃ conversion after, (hollow "Mod").convert .strict .standard = .ok conversion ∧
      onTree (writeModule conversion "out") usedTree = (.ok (), after) ∧
      after.read (conversion.sourcePath "out") = .ok (moduleFileText conversion.contract.moduleName) ∧
      conversion.source ≠ moduleFileText conversion.contract.moduleName := by
  constructor
  · obtain ⟨conversion, after, hconvert, hwrite⟩ :=
      @Document.exists_written (hollow "Vault") .strict .standard "out" usedTree (by decide +kernel)
    obtain ⟨hbeside, hsource, -, hname⟩ := written_source_is_read_back_iff hconvert hwrite
    refine ⟨conversion, after, hconvert, hwrite, hsource.2 fun hover => ?_, hbeside⟩
    exact absurd ((hname (by decide)).1 hover) (by decide)
  · obtain ⟨conversion, after, hconvert, hwrite⟩ :=
      @Document.exists_written (hollow "Mod") .strict .standard "out" usedTree (by decide +kernel)
    obtain ⟨-, -, hlost, hname⟩ := written_source_is_read_back_iff hconvert hwrite
    exact ⟨conversion, after, hconvert, hwrite, hlost ((hname (by decide)).2 (.inr rfl)),
      Document.source_ne_moduleFileText hconvert _⟩

end ContractAbi
