import ContractAbi.Bindings.SourceFile
import ContractAbi.Command.Invocation
import ContractAbi.Text.Basic
import ContractAbi.Yaml.Node

/-!
Settings from a configuration file. Each setting has a default, and what the command line says
wins over the file. The libraries that read log filters and YAML belong to the host of a run; results
about runs hold for every host, and the standard one has what is needed to run the program.
-/
namespace ContractAbi.Command.LogFilter

/-- Letters and digits of ASCII, and what joins the parts of a target. -/
def isTargetChar (c : Char) : Bool :=
  c.isAlphanum || c = '_' || c = ':' || c = '-'

def levels : List String :=
  ["trace", "debug", "info", "warn", "error", "off", "0", "1", "2", "3", "4", "5"]

def isLevel (word : List Char) : Bool :=
  levels.contains (String.ofList (word.map Char.toLower))

/-- What follows the subject of a directive: nothing, or a level that may be left out. -/
def isLevelPart : List Char → Bool
  | [] => true
  | '=' :: level => level.isEmpty || isLevel level
  | _ => false

/-- Takes a target or a span from the front, if one stands there. -/
def afterSubject? (text : List Char) : Option (List Char) :=
  match text with
  | '[' :: rest =>
    match rest.dropWhile (· ≠ ']') with
    | [] => none
    | _ :: after => some after
  | _ => if text.head?.any isTargetChar then some (text.dropWhile isTargetChar) else none

def isDirective (text : List Char) : Bool :=
  match afterSubject? text with
  | none => false
  | some rest => isLevelPart rest || ((afterSubject? rest).any isLevelPart)

/-- Whether every directive of a filter is well formed. Empty ones do not count. This is a sketch of
what the logging library accepts: levels, and targets and spans with levels. -/
def isValid (filter : String) : Bool :=
  (Text.split (· = ',') filter.toList).all fun part => part.isEmpty || isDirective part

end ContractAbi.Command.LogFilter

namespace ContractAbi.Command

/-- What a run takes from outside of the program and its files. -/
structure Host where
  /-- The value of the variable `RUST_LOG`, if it is set. -/
  rustLog : Option String
  /-- Whether the logging library accepts a text as a filter. -/
  isLogFilter : String → Bool
  /-- What the YAML library makes of a text. -/
  yaml? : String → Option Data

/-- A host without a log filter of its own, and with the libraries of this project. -/
def Host.standard : Host := ⟨none, LogFilter.isValid, Yaml.parse?⟩

structure Settings where
  outputDir : String
  runtimeCrate : String
  allowPartial : Bool
  logFilter : String
  deriving DecidableEq, Repr

namespace Settings

def standard : Settings :=
  ⟨"generated", GenerationOptions.standard.runtimeCrate, false, "info"⟩

/-- The file that is read from the working directory if the command line names none. -/
def defaultFile : String := "abi-gen.yaml"

/-- Reads settings from data. A key without a meaning is refused. -/
def ofData? (d : Data) : Option Settings := do
  let given ← d.strictRecord? ["output_dir", "runtime_crate", "allow_partial", "log_filter"]
  return {
    outputDir := ← Data.defaulted given "output_dir" Data.text? standard.outputDir
    runtimeCrate := ← Data.defaulted given "runtime_crate" Data.text? standard.runtimeCrate
    allowPartial := ← Data.defaulted given "allow_partial" Data.bool? standard.allowPartial
    logFilter := ← Data.defaulted given "log_filter" Data.text? standard.logFilter }

/-- The settings in the text of a file. Blank text leaves all defaults. -/
def parse? (host : Host) (text : String) : Option Settings :=
  if Text.allBlank text.toList then some standard else (host.yaml? text).bind ofData?

/-- The log filter that a run falls back on if its host has none. -/
def filterFor (settings : Settings) (verbose : Bool) : String :=
  if verbose then "debug" else settings.logFilter

/-- The settings that hold for a call. -/
def forCall (settings : Settings) (call : CodegenCall) : Settings :=
  { settings with
    outputDir := call.outputDir.getD settings.outputDir
    runtimeCrate := call.runtimeCrate.getD settings.runtimeCrate
    allowPartial := call.allowPartial || settings.allowPartial }

def policy (settings : Settings) : EndpointPolicy :=
  if settings.allowPartial then .skipFailed else .strict

def generationOptions (settings : Settings) : GenerationOptions :=
  { GenerationOptions.standard with runtimeCrate := settings.runtimeCrate }

end Settings
end ContractAbi.Command
