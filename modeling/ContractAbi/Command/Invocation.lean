import ContractAbi.Command.Options
import ContractAbi.Text.Basic

/-!
The commands, what they are called with, and their help texts. Every option has a line of help with its
names in a column of their own.
-/
namespace ContractAbi.Command

structure CodegenCall where
  file : String
  outputDir : Option String
  runtimeCrate : Option String
  allowPartial : Bool
  config : Option String
  verbose : Bool
  deriving DecidableEq, Repr

structure AnalyzeCall where
  file : String
  json : Bool
  verbose : Bool
  deriving DecidableEq, Repr

structure DecodeCall where
  file : String
  endpoint : String
  slots : List String
  pretty : Bool
  verbose : Bool
  deriving DecidableEq, Repr

inductive Invocation where
  | codegen (call : CodegenCall)
  | analyze (call : AnalyzeCall)
  | decode (call : DecodeCall)
  deriving DecidableEq, Repr

inductive CommandName where
  | codegen | analyze | decode
  deriving DecidableEq, Repr

namespace CommandName

def all : List CommandName := [.codegen, .analyze, .decode]

def word : CommandName → String
  | .codegen => "codegen"
  | .analyze => "analyze"
  | .decode => "decode"

def ofWord? (word : String) : Option CommandName :=
  all.find? (·.word = word)

def about : CommandName → String
  | .codegen => "Generate Rust client bindings from a contract ABI"
  | .analyze => "Show resolved types, composites and endpoint decode strategies"
  | .decode => "Decode raw return slots of a readonly endpoint and print JSON"

def verboseOption : OptionSpec :=
  .flag (some 'v') "verbose" "Enable verbose output"

def options : CommandName → List OptionSpec
  | .codegen => [
      (OptionSpec.path (some 'f') "file" "FILE"
        "Contract ABI file (JSON, or YAML by extension)").required,
      .path (some 'o') "output" "DIR" "Output directory for generated code",
      .text none "runtime-crate" "CRATE" "Crate the generated code imports its runtime from",
      .flag none "allow-partial"
        "Drop endpoints that fail to convert instead of failing the run",
      .path none "config" "FILE" "YAML config file (defaults to ./abi-gen.yaml when present)",
      verboseOption,
      .help]
  | .analyze => [
      (OptionSpec.path (some 'f') "file" "FILE" "Contract ABI file").required,
      .flag none "json" "Print the resolved model as JSON",
      verboseOption,
      .help]
  | .decode => [
      (OptionSpec.path (some 'f') "file" "FILE" "Contract ABI file").required,
      (OptionSpec.text (some 'e') "endpoint" "ENDPOINT"
        "Endpoint name as declared in the ABI").required,
      (OptionSpec.text none "slot" "HEX" "Hex-encoded return slot, repeated in order").repeatable,
      .flag none "pretty" "Pretty-print the JSON output",
      verboseOption,
      .help]

end CommandName

/-- The call that some options make. Required options are known to be given. -/
def Invocation.ofGiven (name : CommandName) (given : Given) : Invocation :=
  let file := (given.value? "file").getD ""
  let verbose := given.has "verbose"
  match name with
  | .codegen => .codegen {
      file, verbose
      outputDir := given.value? "output"
      runtimeCrate := given.value? "runtime-crate"
      allowPartial := given.has "allow-partial"
      config := given.value? "config" }
  | .analyze => .analyze { file, verbose, json := given.has "json" }
  | .decode => .decode {
      file, verbose
      endpoint := (given.value? "endpoint").getD ""
      slots := given.values "slot"
      pretty := given.has "pretty" }

def Invocation.isVerbose : Invocation → Bool
  | .codegen call => call.verbose
  | .analyze call => call.verbose
  | .decode call => call.verbose

/-- The configuration file that a call names. -/
def Invocation.config? : Invocation → Option String
  | .codegen call => call.config
  | _ => none

/-- What a command line asks for. -/
inductive Request where
  | run (invocation : Invocation)
  /-- Help on a command, or on the program. -/
  | help (name : Option CommandName)
  | version
  | refuse (fault : UsageFault)
  deriving DecidableEq, Repr

/-- The options of the program itself. -/
def programOptions : List OptionSpec := [.help, .version]

def Request.ofStop (name : Option CommandName) : Stop → Request
  | .usage fault => .refuse fault
  | .help => .help name
  | .version => .version

/-- Help on what the words name. -/
def Request.ofHelpWords : List String → Request
  | [] => .help none
  | word :: rest =>
    match CommandName.ofWord? word, rest with
    | some name, [] => .help (some name)
    | some _, extra :: _ => .refuse (.unknownCommand extra)
    | none, _ => .refuse (.unknownCommand word)

def Request.ofWords : List String → Request
  | [] => .refuse .noCommand
  | "help" :: rest => .ofHelpWords rest
  | word :: rest =>
    match CommandName.ofWord? word with
    | some name =>
      match readOptions name.options rest with
      | .ok given => .run (.ofGiven name given)
      | .error stop => .ofStop (some name) stop
    | none =>
      if Progress.isValue word then .refuse (.unknownCommand word)
      else
        match Progress.start.take programOptions word with
        | .error stop => .ofStop none stop
        | .ok _ => .refuse .noCommand

def programName : String := "abi"

def programVersion : String := "0.1.0"

def programAbout : String :=
  "MultiversX ABI toolchain - binding generation, analysis and return-data decoding"

def padRight (width : Nat) (text : String) : String :=
  text ++ String.ofList (List.replicate (width - text.length) ' ')

/-- Rows of two columns; the second one starts two blanks behind the longest first entry. -/
def table (rows : List (String × String)) : List String :=
  let width := (rows.map (·.1.length)).foldl max 0
  rows.map fun row => "  " ++ padRight (width + 2) row.1 ++ row.2

namespace OptionSpec

/-- A long option with a placeholder for its value. -/
def usage (spec : OptionSpec) : String :=
  match spec.kind with
  | .value placeholder _ => "--" ++ spec.long ++ " <" ++ placeholder ++ ">"
  | _ => "--" ++ spec.long

def names (spec : OptionSpec) : String :=
  match spec.short with
  | some c => "-" ++ String.singleton c ++ ", " ++ spec.usage
  | none => "    " ++ spec.usage

end OptionSpec

def optionTable (specs : List OptionSpec) : List String :=
  "Options:" :: table (specs.map fun spec => (spec.names, spec.about))

def programHelp : String :=
  let commands := CommandName.all.map (fun name => (name.word, name.about)) ++
    [("help", "Print this message or the help of the given subcommand(s)")]
  Text.unlines ([programAbout, "", "Usage: " ++ programName ++ " <COMMAND>", "", "Commands:"] ++
    table commands ++ [""] ++ optionTable programOptions)

def CommandName.help (name : CommandName) : String :=
  let required := (name.options.filter (·.isRequired)).map fun spec => " " ++ spec.usage
  Text.unlines ([name.about, "",
    "Usage: " ++ programName ++ " " ++ name.word ++ " [OPTIONS]" ++ String.join required, ""] ++
    optionTable name.options)

def helpText : Option CommandName → String
  | none => programHelp
  | some name => name.help

def versionText : String :=
  programName ++ " " ++ programVersion ++ "\n"

end ContractAbi.Command
