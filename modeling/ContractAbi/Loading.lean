import ContractAbi.Data
import ContractAbi.Document.Reading
import ContractAbi.FileTree
import ContractAbi.Json.Reader
import ContractAbi.Path
import ContractAbi.Yaml.Node

/-!
Loading documents. The extension of a file decides whether its text is JSON or YAML, and a loaded
document must come from a supported framework. What a YAML text holds is for a library to say; the one
of this project stands in for it where none is given.
-/
namespace ContractAbi

inductive DocumentFormat where
  | json | yaml
  deriving DecidableEq, Repr

namespace DocumentFormat

def word : DocumentFormat → String
  | .json => "JSON"
  | .yaml => "YAML"

/-- Files with a YAML extension in either case hold YAML, all others JSON. -/
def ofPath (path : String) : DocumentFormat :=
  match (Path.ofText path).extension? with
  | some extension =>
    if ["yaml", "yml"].contains (String.ofList (extension.toList.map Char.toLower)) then .yaml
    else .json
  | none => .json

def data? (yaml? : String → Option Data) : DocumentFormat → String → Option Data
  | .json, text => (Json.parse? text).map Json.data
  | .yaml, text => yaml? text

end DocumentFormat

inductive LoadFault where
  | unreadable (path : String) (fault : FileFault)
  | malformed (format : DocumentFormat)
  | unsupportedFramework (name : String)
  deriving DecidableEq, Repr

namespace LoadFault

/-- What is said of a text that holds no value of the expected form. -/
def formDetail : String := "the text does not have the expected form"

def message : LoadFault → String
  | .unreadable path fault => "failed to read ABI file " ++ path ++ ": " ++ fault.message
  | .malformed format => "invalid " ++ format.word ++ " ABI document: " ++ formDetail
  | .unsupportedFramework name =>
    "unsupported contract framework '" ++ name ++ "' (expected one of: " ++
      ", ".intercalate supportedFrameworks ++ ")"

/-- The messages of what lies under the fault. -/
def causes : LoadFault → List String
  | .unreadable _ fault => [fault.message]
  | .malformed _ => [formDetail]
  | .unsupportedFramework _ => []

end LoadFault

namespace Document

/-- The document in a text. -/
def parse (format : DocumentFormat) (text : String) (yaml? : String → Option Data := Yaml.parse?) :
    Except LoadFault Document :=
  match (format.data? yaml? text).bind ofData? with
  | some document => .ok document
  | none => .error (.malformed format)

/-- Refuses a document of a framework that is not supported. -/
def checkFramework (document : Document) : Except LoadFault Unit :=
  if document.isSupported then .ok () else .error (.unsupportedFramework document.framework.name)

/-- The document in the text of a file, if its framework is supported. -/
def ofFileText (path text : String) (yaml? : String → Option Data) : Except LoadFault Document := do
  let document ← parse (.ofPath path) text yaml?
  document.checkFramework
  return document

end Document
end ContractAbi
