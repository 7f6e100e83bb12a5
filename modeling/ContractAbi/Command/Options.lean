/-!
Options on a command line. A command says which options it has; its words are then read one at a
time, where an option that takes a value may have to wait for the next word. Help and version are
answered as soon as they are met.
-/
namespace ContractAbi.Command

/-- What an option stands for. -/
inductive OptionKind where
  | flag
  /-- An option with a value. A path must not be empty. -/
  | value (placeholder : String) (isPath : Bool)
  | help
  | version
  deriving DecidableEq, Repr

structure OptionSpec where
  short : Option Char
  long : String
  kind : OptionKind
  isRequired : Bool
  mayRepeat : Bool
  about : String
  deriving DecidableEq, Repr

namespace OptionSpec

def flag (short : Option Char) (long about : String) : OptionSpec :=
  ⟨short, long, .flag, false, false, about⟩

def text (short : Option Char) (long placeholder about : String) : OptionSpec :=
  ⟨short, long, .value placeholder false, false, false, about⟩

def path (short : Option Char) (long placeholder about : String) : OptionSpec :=
  ⟨short, long, .value placeholder true, false, false, about⟩

def required (spec : OptionSpec) : OptionSpec :=
  { spec with isRequired := true }

def repeatable (spec : OptionSpec) : OptionSpec :=
  { spec with mayRepeat := true }

def help : OptionSpec := ⟨some 'h', "help", .help, false, false, "Print help"⟩

def version : OptionSpec := ⟨some 'V', "version", .version, false, false, "Print version"⟩

def takesValue (spec : OptionSpec) : Bool :=
  match spec.kind with
  | .value _ _ => true
  | _ => false

end OptionSpec

/-- Why a command line cannot be understood. -/
inductive UsageFault where
  | noCommand
  | unknownCommand (word : String)
  | unexpected (word : String)
  | missingValue (option : String)
  | valueForFlag (option : String)
  | repeated (option : String)
  | missing (option : String)
  deriving DecidableEq, Repr

def UsageFault.message : UsageFault → String
  | .noCommand => "a command is required"
  | .unknownCommand word => "unrecognized subcommand '" ++ word ++ "'"
  | .unexpected word => "unexpected argument '" ++ word ++ "' found"
  | .missingValue option => "a value is required for '--" ++ option ++ "' but none was supplied"
  | .valueForFlag option => "no value is expected for '--" ++ option ++ "'"
  | .repeated option => "the argument '--" ++ option ++ "' cannot be used multiple times"
  | .missing option => "the argument '--" ++ option ++ "' was not provided"

/-- Why the reading of a command line ends early. -/
inductive Stop where
  | usage (fault : UsageFault)
  | help
  | version
  deriving DecidableEq, Repr

/-- The options given so far, in order, each with its long name; a flag has no value. -/
structure Given where
  options : List (String × Option String)
  deriving DecidableEq, Repr

namespace Given

def values (given : Given) (long : String) : List String :=
  given.options.filterMap fun option => if option.1 = long then option.2 else none

def value? (given : Given) (long : String) : Option String :=
  (given.values long).head?

def has (given : Given) (long : String) : Bool :=
  given.options.any (·.1 = long)

end Given

/-- Where the reading of a command line stands. -/
structure Progress where
  given : Given
  /-- The option whose value comes next. -/
  awaiting : Option OptionSpec
  /-- Two dashes have ended the options. -/
  isOver : Bool
  deriving DecidableEq, Repr

namespace Progress

def start : Progress := ⟨⟨[]⟩, none, false⟩

/-- Takes an option, with its value if it has one. -/
def give (progress : Progress) (spec : OptionSpec) (value : Option String) :
    Except Stop Progress :=
  let long := spec.long
  if !spec.mayRepeat && progress.given.has long then .error (.usage (.repeated long))
  else
    match spec.kind, value with
    | .help, _ => .error .help
    | .version, _ => .error .version
    | .value _ true, some "" => .error (.usage (.missingValue long))
    | _, _ => .ok { progress with
        given := ⟨progress.given.options ++ [(long, value)]⟩
        awaiting := none }

/-- Takes an option with the value attached to it, or waits for its value. -/
def meet (progress : Progress) (spec : OptionSpec) (attached : Option String) :
    Except Stop Progress :=
  if spec.takesValue then
    match attached with
    | some value => progress.give spec (some value)
    | none => .ok { progress with awaiting := some spec }
  else if attached.isSome then .error (.usage (.valueForFlag spec.long))
  else progress.give spec none

/-- Takes a word of short options behind their dash. The first one with a value takes what is
left of the word, if there is something left. -/
def takeShort (specs : List OptionSpec) (word : String) (progress : Progress) :
    List Char → Except Stop Progress
  | [] => .ok progress
  | c :: rest =>
    match specs.find? (·.short = some c) with
    | none => .error (.usage (.unexpected word))
    | some spec =>
      if spec.takesValue then
        let attached := match rest with
          | [] => none
          | '=' :: value => some (String.ofList value)
          | value => some (String.ofList value)
        progress.meet spec attached
      else
        match progress.meet spec none with
        | .error stop => .error stop
        | .ok progress => takeShort specs word progress rest

/-- Takes a long option behind its dashes; a value may be attached with an equals sign. -/
def takeLong (specs : List OptionSpec) (word : String) (progress : Progress) (chars : List Char) :
    Except Stop Progress :=
  let long := String.ofList (chars.takeWhile (· ≠ '='))
  let attached := match chars.dropWhile (· ≠ '=') with
    | [] => none
    | _ :: value => some (String.ofList value)
  match specs.find? (·.long = long) with
  | none => .error (.usage (.unexpected word))
  | some spec => progress.meet spec attached

/-- Whether a word can be the value of the option before it. -/
def isValue (word : String) : Bool :=
  word.toList.head? ≠ some '-' || word = "-"

/-- Takes the next word. -/
def take (specs : List OptionSpec) (progress : Progress) (word : String) :
    Except Stop Progress :=
  match progress.awaiting with
  | some spec =>
    if isValue word then progress.give spec (some word)
    else .error (.usage (.missingValue spec.long))
  | none =>
    if progress.isOver || isValue word then .error (.usage (.unexpected word))
    else
      match word.toList with
      | ['-', '-'] => .ok { progress with isOver := true }
      | '-' :: '-' :: chars => progress.takeLong specs word chars
      | _ :: chars => progress.takeShort specs word chars
      | [] => .error (.usage (.unexpected word))

end Progress

/-- Reads the words of a command. Every required option must be given. -/
def readOptions (specs : List OptionSpec) (words : List String) : Except Stop Given := do
  let progress ← words.foldlM (Progress.take specs) Progress.start
  match progress.awaiting with
  | some spec => .error (.usage (.missingValue spec.long))
  | none =>
    match specs.find? fun spec => spec.isRequired && !progress.given.has spec.long with
    | some spec => .error (.usage (.missing spec.long))
    | none => return progress.given

end ContractAbi.Command
