import ContractAbi.Bindings.SourceFile
import ContractAbi.Command.CommandFault
import ContractAbi.Command.Invocation
import ContractAbi.Command.Settings
import ContractAbi.Contract.Basic
import ContractAbi.Contract.Writing
import ContractAbi.FileTree
import ContractAbi.Json.Printer

/-!
The program: it reads the command line, the settings and the document, and carries out a command.
Settings are read and checked before the document, and nothing is written before everything is
converted. An analysis is a text; decoded outputs are an object if they are named and several, where
of outputs with one name the last one is written, and otherwise an array; generated bindings are two
files in a directory of their own.
-/
namespace ContractAbi

namespace Conversion

/-- The directory of the generated module. -/
def moduleDir (conversion : Conversion) (outputDir : String) : String :=
  Path.join outputDir conversion.contract.moduleName

/-- The path of the generated source. -/
def sourcePath (conversion : Conversion) (outputDir : String) : String :=
  Path.join (conversion.moduleDir outputDir) (conversion.contract.moduleName ++ ".rs")

/-- The path of the file beside the generated source. -/
def modulePath (conversion : Conversion) (outputDir : String) : String :=
  Path.join (conversion.moduleDir outputDir) "mod.rs"

/-- The files of the module with their texts, in the order in which they are written. -/
def files (conversion : Conversion) (outputDir : String) : List (String × String) :=
  [(conversion.sourcePath outputDir, conversion.source),
    (conversion.modulePath outputDir, moduleFileText conversion.contract.moduleName)]

end Conversion

namespace Command

namespace Analysis

def recordLine (name : String) (fields : List Field) : String :=
  "  " ++ name ++ " (struct, " ++ toString fields.length ++ " fields)"

def enumLine (name : String) (variants : List Variant) : String :=
  "  " ++ name ++ " (enum, " ++ toString variants.length ++ " variants)"

def compositeLine (name : String) (fields : List Field) : String :=
  "  " ++ name ++ " = <" ++ ",".intercalate (fields.map (·.type.display)) ++ ">"

def outputLine (type : ResolvedType) (plan : OutputPlan) : String :=
  "    " ++ type.display ++ ": " ++ plan.strategy.label ++ " from slot " ++ toString plan.firstSlot

/-- What is said of an endpoint in brackets. -/
def tags (endpoint : Endpoint) : List String :=
  [endpoint.kind.word] ++ (if endpoint.onlyOwner then ["owner"] else []) ++
    (if endpoint.acceptsTokenPayment then ["payable"] else [])

def endpointLines (endpoint : Endpoint) : List String :=
  ("  " ++ endpoint.name ++ " -> " ++ endpoint.methodName ++ " [" ++
    ", ".intercalate (tags endpoint) ++ "]") ::
    (endpoint.outputTypes.zip endpoint.plans).map fun output => outputLine output.1 output.2

def aliasLines (aliases : List Primitive) : List String :=
  if aliases.isEmpty then [] else ["Aliases: " ++ ", ".intercalate (aliases.map Primitive.keyword)]

def compositeLines (composites : NameMap (List Field)) : List String :=
  if composites.entries.isEmpty then []
  else "Composites:" :: composites.entries.map fun entry => compositeLine entry.1 entry.2

def lines (contract : Contract) : List String :=
  ["Contract: " ++ contract.name ++ " (" ++ contract.framework.name ++ " " ++
    contract.framework.version ++ ")"] ++
  aliasLines contract.aliases ++
  ["Named types:"] ++
  contract.catalog.records.entries.map (fun entry => recordLine entry.1 entry.2) ++
  contract.catalog.enums.entries.map (fun entry => enumLine entry.1 entry.2) ++
  compositeLines contract.catalog.composites ++
  ["Endpoints:"] ++
  contract.endpoints.flatMap endpointLines ++
  contract.skipped.map (fun name => "Skipped: " ++ name ++ " (unknown mutability)") ++
  contract.failures.map fun failure =>
    "Failed: " ++ failure.endpoint ++ ": " ++ failure.fault.root.message

end Analysis

/-- The analysis of a contract, as text or as JSON. -/
def analysisText (contract : Contract) (json : Bool) : String :=
  if json then contract.json.pretty ++ "\n" else Text.unlines (Analysis.lines contract)

/-- The readonly endpoint of a name. -/
def readonlyEndpoint (contract : Contract) (call : DecodeCall) : Except CommandFault Endpoint :=
  match contract.endpoints.find? (·.name = call.endpoint) with
  | some endpoint =>
    if endpoint.kind = .readonly then .ok endpoint else .error (.notReadonly call.endpoint)
  | none =>
    match contract.failures.find? (·.endpoint = call.endpoint) with
    | some failure => .error (.failedEndpoint call.endpoint failure.fault.root)
    | none => .error (.noEndpoint call.endpoint call.file)

/-- The bytes of slots from the one at `index` on. -/
def slotBytes (index : Nat) : List String → Except CommandFault (List Bytes)
  | [] => .ok []
  | slot :: rest => do
    let bytes ← (Hex.decode slot).mapError (.invalidSlot index)
    return bytes :: (← slotBytes (index + 1) rest)

/-- Decoded outputs as JSON. -/
def outputsJson (endpoint : Endpoint) (values : List Value) : Json :=
  if endpoint.hasNamedOutputs then
    let named := (endpoint.outputs.zip values).foldl
      (fun members output => putEntry (output.1.name.getD "") output.2.json members) []
    .object named
  else .array (values.map Value.json)

/-- Decodes the outputs of an endpoint of a contract. -/
def decodeSlots (contract : Contract) (call : DecodeCall) : Except CommandFault Json := do
  let endpoint ← readonlyEndpoint contract call
  let slots ← slotBytes 0 call.slots
  let values ← (contract.catalog.decodeOutputs call.endpoint endpoint.outputTypes slots).mapError
    .undecodable
  return outputsJson endpoint values

/-- Decoded outputs as text. -/
def outputsText (json : Json) (pretty : Bool) : String :=
  (if pretty then json.pretty else json.compact) ++ "\n"

variable {m : Type → Type} [Monad m] [FileStore m]

/-- Names the path that an access to files was about in its fault. -/
def orUnwritable (path : String) (access : m (Except FileFault α)) : ExceptT CommandFault m α :=
  ExceptT.mk do return (← access).mapError (.unwritable path)

def writeFiles : List (String × String) → ExceptT CommandFault m Unit
  | [] => return ()
  | (path, text) :: rest => do
    orUnwritable path (FileStore.replace path text)
    writeFiles rest

/-- Writes the module of a conversion below a directory. -/
def writeModule (conversion : Conversion) (outputDir : String) : ExceptT CommandFault m Unit := do
  let directory := conversion.moduleDir outputDir
  orUnwritable directory (FileStore.makeDirectories directory)
  writeFiles (conversion.files outputDir)

/-- The line that tells what was written. -/
def generationText (conversion : Conversion) (outputDir : String) : String :=
  "Generated " ++ conversion.sourcePath outputDir ++ " (" ++
    toString conversion.contract.endpoints.length ++ " endpoints, " ++
    toString conversion.contract.failures.length ++ " skipped)\n"

/-- What a run of the program leaves behind besides files. -/
structure Report where
  code : UInt8
  output : String
  error : Option String
  deriving DecidableEq, Repr

namespace Report

def success (output : String) : Report := ⟨0, output, none⟩

def ofFault (fault : CommandFault) : Report := ⟨1, "", some fault.report⟩

/-- The report on a command line that cannot be understood. -/
def ofUsage (fault : UsageFault) : Report :=
  ⟨2, "", some ("error: " ++ fault.message ++ "\n\nFor more information, try '--help'.\n")⟩

end Report

/-- Reads settings from a file. -/
def readSettings (host : Host) (path : String) : ExceptT CommandFault m Settings := do
  match ← (FileStore.read path : m _) with
  | .error fault => throw (.unreadableSettings path fault)
  | .ok text =>
    match Settings.parse? host text with
    | some settings => return settings
    | none => throw (.invalidSettings path)

/-- Reads the settings from the file that is named, or else from the default one if it is there. -/
def findSettings (host : Host) (config : Option String) : ExceptT CommandFault m Settings := do
  match config with
  | some path => readSettings host path
  | none =>
    if ← (FileStore.isFile Settings.defaultFile : m _) then readSettings host Settings.defaultFile
    else return .standard

/-- Whether there is a log filter: the one in `RUST_LOG` if it is set to one, or else the fallback. -/
def Host.hasFilter (host : Host) (fallback : String) : Bool :=
  host.rustLog.any host.isLogFilter || host.isLogFilter fallback

/-- Refuses the fallback if there is no log filter. -/
def checkLogFilter (host : Host) (fallback : String) : Except CommandFault Unit :=
  if host.hasFilter fallback then .ok () else .error (.invalidLogFilter fallback)

/-- Loads the document in a file. -/
def loadDocument (host : Host) (file : String) : ExceptT CommandFault m Document := do
  match ← (FileStore.read file : m _) with
  | .error fault => throw (.unloadable file (.unreadable file fault))
  | .ok text =>
    let loaded := Document.ofFileText file text host.yaml?
    liftExcept (loaded.mapError (CommandFault.unloadable file))

/-- The contract model that analysis and decoding work on: endpoints that fail are reported. -/
def resolveContract (document : Document) : Except CommandFault Contract :=
  (Contract.ofDocument .skipFailed document).mapError .unresolvable

/-- Converts a document and writes the module. -/
def runCodegen (host : Host) (settings : Settings) (call : CodegenCall) :
    ExceptT CommandFault m String := do
  let document ← loadDocument host call.file
  let settings := settings.forCall call
  let converted := document.convert settings.policy settings.generationOptions
  let conversion ← liftExcept (converted.mapError (CommandFault.unconvertible call.file))
  writeModule conversion settings.outputDir
  return generationText conversion settings.outputDir

def runAnalyze (host : Host) (call : AnalyzeCall) : ExceptT CommandFault m String := do
  let document ← loadDocument host call.file
  let contract ← liftExcept (resolveContract document)
  return analysisText contract call.json

def runDecode (host : Host) (call : DecodeCall) : ExceptT CommandFault m String := do
  let document ← loadDocument host call.file
  let contract ← liftExcept (resolveContract document)
  let json ← liftExcept (decodeSlots contract call)
  return outputsText json call.pretty

/-- Carries out a command and gives what it prints. -/
def perform (host : Host) (invocation : Invocation) : ExceptT CommandFault m String := do
  let settings ← findSettings host invocation.config?
  liftExcept (checkLogFilter host (settings.filterFor invocation.isVerbose))
  match invocation with
  | .codegen call => runCodegen host settings call
  | .analyze call => runAnalyze host call
  | .decode call => runDecode host call

/-- Runs the program with the words of a command line. -/
def run (words : List String) (host : Host := .standard) : m Report := do
  match Request.ofWords words with
  | .refuse fault => return .ofUsage fault
  | .help name => return .success (helpText name)
  | .version => return .success versionText
  | .run invocation =>
    match ← (perform host invocation).run with
    | .ok output => return .success output
    | .error fault => return .ofFault fault

end Command
end ContractAbi
