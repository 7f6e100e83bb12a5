import ContractAbi.Command.Program
import ContractAbi.FileTree
import ContractAbi.Proofs.Results

/-!
# Runs on a tree of files

A run reads its settings, checks the log filter and loads its document before it does anything else.
Each of these stages has one outcome on a host and a tree of files and leaves the tree as it is.
-/
namespace ContractAbi.Command

variable {α β : Type} {host : Host} {tree after : FileTree}

/-- A program that reads and writes files, run on a tree. -/
def onTree (program : ExceptT CommandFault (StateM FileTree) α) (tree : FileTree) :
    Except CommandFault α × FileTree :=
  program.run tree

theorem onTree_bind (program : ExceptT CommandFault (StateM FileTree) α)
    (next : α → ExceptT CommandFault (StateM FileTree) β) (tree : FileTree) :
    onTree (program >>= next) tree = match onTree program tree with
      | (.ok value, after) => onTree (next value) after
      | (.error fault, after) => (.error fault, after) := by
  change (match program.run tree with | (result, after) => ExceptT.bindCont next result after) = _
  rw [onTree]
  rcases program.run tree with ⟨result, after⟩
  cases result <;> rfl

@[simp] theorem onTree_liftExcept (result : Except CommandFault α) (tree : FileTree) :
    onTree (liftExcept result) tree = (result, tree) := by
  cases result <;> rfl

theorem onTree_bind_of_ok {program : ExceptT CommandFault (StateM FileTree) α} {value : α}
    (h : onTree program tree = (.ok value, after))
    (next : α → ExceptT CommandFault (StateM FileTree) β) :
    onTree (program >>= next) tree = onTree (next value) after := by
  rw [onTree_bind, h]

theorem onTree_bind_of_error {program : ExceptT CommandFault (StateM FileTree) α} {fault : CommandFault}
    (h : onTree program tree = (.error fault, after))
    (next : α → ExceptT CommandFault (StateM FileTree) β) :
    onTree (program >>= next) tree = (.error fault, after) := by
  rw [onTree_bind, h]

theorem of_onTree_bind_eq_ok {program : ExceptT CommandFault (StateM FileTree) α}
    {next : α → ExceptT CommandFault (StateM FileTree) β} {value : β}
    (h : onTree (program >>= next) tree = (.ok value, after)) :
    ∃ middle between, onTree program tree = (.ok middle, between) ∧
      onTree (next middle) between = (.ok value, after) := by
  rw [onTree_bind] at h
  rcases hprogram : onTree program tree with ⟨result, between⟩
  rw [hprogram] at h
  cases result with
  | error fault => cases h
  | ok middle => exact ⟨middle, between, rfl, h⟩

theorem onTree_orUnwritable (path : String) (operation : FileTree → Except FileFault FileTree)
    (tree : FileTree) :
    onTree (orUnwritable path (FileTree.change operation)) tree = match operation tree with
      | .ok changed => (.ok (), changed)
      | .error fault => (.error (.unwritable path fault), tree) := by
  change ((FileTree.change operation tree).1.mapError _, (FileTree.change operation tree).2) = _
  rw [FileTree.change]
  cases operation tree <;> rfl

theorem of_onTree_orUnwritable_eq_ok {path : String} {operation : FileTree → Except FileFault FileTree}
    (h : onTree (orUnwritable path (FileTree.change operation)) tree = (.ok (), after)) :
    operation tree = .ok after := by
  rw [onTree_orUnwritable] at h
  split at h
  case h_1 hchanged => rw [hchanged, (Prod.mk.inj h).2]
  case h_2 => cases h

section Reports

variable {words : List String} {invocation : Invocation}

/-- A run reports what its command prints. -/
theorem run_of_ok {output : String} (h : Request.ofWords words = .run invocation)
    (hperform : onTree (perform host invocation) tree = (.ok output, after)) :
    (run words host : StateM FileTree Report).run tree = (.success output, after) := by
  have hrun : StateT.run (ExceptT.run (perform host invocation) : StateM FileTree _) tree =
      (.ok output, after) := hperform
  rw [run, h]
  dsimp only
  rw [StateT.run_bind, hrun]
  rfl

/-- A run reports the fault of its command. -/
theorem run_of_error {fault : CommandFault} (h : Request.ofWords words = .run invocation)
    (hperform : onTree (perform host invocation) tree = (.error fault, after)) :
    (run words host : StateM FileTree Report).run tree = (.ofFault fault, after) := by
  have hrun : StateT.run (ExceptT.run (perform host invocation) : StateM FileTree _) tree =
      (.error fault, after) := hperform
  rw [run, h]
  dsimp only
  rw [StateT.run_bind, hrun]
  rfl

end Reports

/-- The settings file of a run: the one that is named, or else the default one if it is there. -/
inductive SettingsFile (tree : FileTree) : Option String → String → Prop
  | named (path : String) : SettingsFile tree (some path) path
  | found {text : String} (h : tree.read Settings.defaultFile = .ok text) :
    SettingsFile tree none Settings.defaultFile

/-- What the search for settings comes to. -/
inductive FindsSettings (host : Host) (tree : FileTree) (config : Option String) :
    Except CommandFault Settings → Prop
  | unreadable {path : String} {fault : FileFault} (hfile : SettingsFile tree config path)
      (hread : tree.read path = .error fault) :
      FindsSettings host tree config (.error (.unreadableSettings path fault))
  | invalid {path text : String} (hfile : SettingsFile tree config path)
      (hread : tree.read path = .ok text) (hparse : Settings.parse? host text = none) :
      FindsSettings host tree config (.error (.invalidSettings path))
  | given {path text : String} {settings : Settings} (hfile : SettingsFile tree config path)
      (hread : tree.read path = .ok text) (hparse : Settings.parse? host text = some settings) :
      FindsSettings host tree config (.ok settings)
  | absent (h : ∀ path, ¬ SettingsFile tree config path) : FindsSettings host tree config (.ok .standard)

theorem exists_findsSettings (host : Host) (tree : FileTree) (config : Option String) :
    ∃ result, FindsSettings host tree config result := by
  by_cases hfile : ∃ path, SettingsFile tree config path
  · obtain ⟨path, hfile⟩ := hfile
    cases hread : tree.read path with
    | error fault => exact ⟨_, .unreadable hfile hread⟩
    | ok text =>
      cases hparse : Settings.parse? host text with
      | none => exact ⟨_, .invalid hfile hread hparse⟩
      | some settings => exact ⟨_, .given hfile hread hparse⟩
  · exact ⟨_, .absent fun path h => hfile ⟨path, h⟩⟩

theorem onTree_read (path : String)
    (next : Except FileFault String → ExceptT CommandFault (StateM FileTree) α) (tree : FileTree) :
    onTree (do next (← (FileStore.read path : StateM FileTree _))) tree =
      onTree (next (tree.read path)) tree :=
  rfl

theorem onTree_readSettings (host : Host) (path : String) (tree : FileTree) :
    onTree (readSettings host path) tree = (match tree.read path with
      | .error fault => .error (.unreadableSettings path fault)
      | .ok text =>
        match Settings.parse? host text with
        | some settings => .ok settings
        | none => .error (.invalidSettings path), tree) := by
  rw [readSettings, onTree_read]
  cases tree.read path with
  | error fault => rfl
  | ok text =>
    dsimp only
    cases Settings.parse? host text <;> rfl

theorem onTree_findSettings_of_file {config : Option String} {path : String}
    (h : SettingsFile tree config path) :
    onTree (findSettings host config) tree = onTree (readSettings host path) tree := by
  cases h with
  | named => rfl
  | found hread =>
    change onTree (if (tree.read Settings.defaultFile).toBool then _ else _) tree = _
    rw [hread]
    rfl

theorem onTree_findSettings {config : Option String} {result : Except CommandFault Settings}
    (h : FindsSettings host tree config result) :
    onTree (findSettings host config) tree = (result, tree) := by
  cases h with
  | unreadable hfile hread =>
    rw [onTree_findSettings_of_file hfile, onTree_readSettings, hread]
  | invalid hfile hread hparse =>
    rw [onTree_findSettings_of_file hfile, onTree_readSettings, hread]
    simp only [hparse]
  | given hfile hread hparse =>
    rw [onTree_findSettings_of_file hfile, onTree_readSettings, hread]
    simp only [hparse]
  | absent h =>
    cases config with
    | some path => exact absurd (.named path) (h path)
    | none =>
      change onTree (if (tree.read Settings.defaultFile).toBool then _ else _) tree = _
      cases hread : tree.read Settings.defaultFile with
      | error fault => rfl
      | ok text => exact absurd (.found hread) (h _)

/-- A run gets past its settings and its log filter. -/
structure Starts (host : Host) (tree : FileTree) (invocation : Invocation) (settings : Settings) :
    Prop where
  found : FindsSettings host tree invocation.config? (.ok settings)
  filter : host.hasFilter (settings.filterFor invocation.isVerbose) = true

theorem Starts.onTree_perform {invocation : Invocation} {settings : Settings}
    (h : Starts host tree invocation settings) :
    onTree (perform host invocation) tree = onTree (match invocation with
      | .codegen call => runCodegen host settings call
      | .analyze call => runAnalyze host call
      | .decode call => runDecode host call) tree := by
  rw [perform, onTree_bind_of_ok (onTree_findSettings h.found), checkLogFilter, if_pos h.filter]
  exact onTree_bind_of_ok (onTree_liftExcept _ _) _

/-- What the loading of a document comes to. -/
inductive LoadsDocument (host : Host) (tree : FileTree) (file : String) :
    Except LoadFault Document → Prop
  | unreadable {fault : FileFault} (hread : tree.read file = .error fault) :
      LoadsDocument host tree file (.error (.unreadable file fault))
  | malformed {text : String} {fault : LoadFault} (hread : tree.read file = .ok text)
      (hparse : Document.parse (.ofPath file) text host.yaml? = .error fault) :
      LoadsDocument host tree file (.error fault)
  | unsupported {text : String} {document : Document} (hread : tree.read file = .ok text)
      (hparse : Document.parse (.ofPath file) text host.yaml? = .ok document)
      (hframework : document.isSupported = false) :
      LoadsDocument host tree file (.error (.unsupportedFramework document.framework.name))
  | loaded {text : String} {document : Document} (hread : tree.read file = .ok text)
      (hparse : Document.parse (.ofPath file) text host.yaml? = .ok document)
      (hframework : document.isSupported = true) : LoadsDocument host tree file (.ok document)

theorem exists_loadsDocument (host : Host) (tree : FileTree) (file : String) :
    ∃ result, LoadsDocument host tree file result := by
  cases hread : tree.read file with
  | error fault => exact ⟨_, .unreadable hread⟩
  | ok text =>
    cases hparse : Document.parse (.ofPath file) text host.yaml? with
    | error fault => exact ⟨_, .malformed hread hparse⟩
    | ok document =>
      cases hframework : document.isSupported with
      | false => exact ⟨_, .unsupported hread hparse hframework⟩
      | true => exact ⟨_, .loaded hread hparse hframework⟩

theorem onTree_loadDocument {file : String} {result : Except LoadFault Document}
    (h : LoadsDocument host tree file result) :
    onTree (loadDocument host file) tree = (result.mapError (.unloadable file), tree) := by
  rw [loadDocument, onTree_read]
  cases h with
  | unreadable hread =>
    rw [hread]
    rfl
  | malformed hread hparse =>
    rw [hread]
    simp only [Document.ofFileText, hparse, onTree_liftExcept]
    rfl
  | unsupported hread hparse hframework =>
    rw [hread]
    simp only [Document.ofFileText, hparse, onTree_liftExcept]
    simp only [bind, Except.bind, Document.checkFramework, hframework, Bool.false_eq_true, if_false]
  | loaded hread hparse hframework =>
    rw [hread]
    simp only [Document.ofFileText, hparse, onTree_liftExcept]
    simp only [bind, Except.bind, Document.checkFramework, hframework, if_true]
    rfl

end ContractAbi.Command
