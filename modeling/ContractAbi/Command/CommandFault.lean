import ContractAbi.Loading
import ContractAbi.Reflection
import ContractAbi.ConversionFault

/-!
Why a command fails, and how that is reported: the message of the fault and below it the messages
of its causes, with numbers if there are several.
-/
namespace ContractAbi.Command

inductive CommandFault where
  | unreadableSettings (path : String) (fault : FileFault)
  | invalidSettings (path : String)
  | invalidLogFilter (filter : String)
  | unloadable (file : String) (fault : LoadFault)
  | unconvertible (file : String) (fault : ConversionFault)
  | unresolvable (fault : ConversionFault)
  | unwritable (path : String) (fault : FileFault)
  | failedEndpoint (endpoint : String) (root : ConversionFault)
  | noEndpoint (endpoint file : String)
  | notReadonly (endpoint : String)
  | invalidSlot (index : Nat) (fault : Hex.Fault)
  | undecodable (fault : ReflectionFault)
  deriving DecidableEq, Repr

namespace CommandFault

/-- What is said of a log filter with a directive that is not well formed. -/
def filterDetail : String := "a directive is not well formed"

def message : CommandFault → String
  | .unreadableSettings path _ => "failed to read config " ++ path
  | .invalidSettings path => "invalid config " ++ path
  | .invalidLogFilter filter => "invalid log filter '" ++ filter ++ "'"
  | .unloadable file _ => "failed to load ABI " ++ file
  | .unconvertible file _ => "failed to convert " ++ file
  | .unresolvable fault => fault.message
  | .unwritable path fault => "failed to write " ++ path ++ ": " ++ fault.message
  | .failedEndpoint endpoint root =>
    "endpoint '" ++ endpoint ++ "' cannot be decoded: " ++ root.message
  | .noEndpoint endpoint file => "endpoint '" ++ endpoint ++ "' not found in " ++ file
  | .notReadonly endpoint =>
    "endpoint '" ++ endpoint ++ "' is not readonly; mutable calls return a transaction hash"
  | .invalidSlot index _ => "slot " ++ toString index ++ " is not valid hex"
  | .undecodable fault => fault.message

/-- The messages of what lies under the fault, outermost first. -/
def causes : CommandFault → List String
  | .unreadableSettings _ fault => [fault.message]
  | .invalidSettings _ => [LoadFault.formDetail]
  | .invalidLogFilter _ => [filterDetail]
  | .unloadable _ fault => fault.message :: fault.causes
  | .unconvertible _ fault => fault.message :: fault.causes
  | .unresolvable fault => fault.causes
  | .unwritable _ fault => [fault.message]
  | .failedEndpoint _ _ | .noEndpoint _ _ | .notReadonly _ => []
  | .invalidSlot _ fault => [fault.message]
  | .undecodable fault => fault.causes

/-- A text whose lines behind the first one are moved to the right. -/
def hang (width : Nat) (text : String) : String :=
  let margin := List.replicate width ' '
  String.ofList (text.toList.flatMap fun c => if c = '\n' then c :: margin else [c])

def causeLine (message : String) : String :=
  "    " ++ hang 4 message ++ "\n"

/-- A cause with its number, which ends in the fifth column. -/
def numberedCauseLine (index : Nat) (message : String) : String :=
  let number := toString index
  String.ofList (List.replicate (5 - number.length) ' ') ++ number ++ ": " ++ hang 7 message ++ "\n"

def causesText : List String → String
  | [] => ""
  | [cause] => "\nCaused by:\n" ++ causeLine cause
  | causes => "\nCaused by:\n" ++ String.join (causes.mapIdx numberedCauseLine)

/-- The report of a fault. -/
def report (fault : CommandFault) : String :=
  "Error: " ++ fault.message ++ "\n" ++ causesText fault.causes

end CommandFault
end ContractAbi.Command
