import ContractAbi.Layout
import ContractAbi.TypeExpr.Brackets

/-!
Why a document cannot be turned into bindings. A fault of one endpoint carries the fault that lies
under it; every fault has one message and the messages of its causes behind it.
-/
namespace ContractAbi

inductive EnumFault where
  | noVariants
  | tooLarge (discriminant : Nat) (variant : String)
  | repeated (discriminant : UInt8)
  deriving DecidableEq, Repr

def EnumFault.message : EnumFault → String
  | .noVariants => "enum has no variants"
  | .tooLarge discriminant variant =>
    "discriminant " ++ toString discriminant ++ " of '" ++ variant ++ "' does not fit in one byte"
  | .repeated discriminant =>
    "discriminant " ++ toString discriminant ++ " is used more than once"

/-- Where a type stands that has no decoder. -/
inductive ShapePlace where
  | fieldOf (field type : String)
  | outputsOf (endpoint : String)
  | generatedDecoder
  deriving DecidableEq, Repr

def ShapePlace.message : ShapePlace → String
  | .fieldOf field type => "field '" ++ field ++ "' of '" ++ type ++ "'"
  | .outputsOf endpoint => "outputs of '" ++ endpoint ++ "'"
  | .generatedDecoder => "generated decoder"

/-- The kinds of generated items that claim a name. -/
inductive ItemKind where
  | method | type
  deriving DecidableEq, Repr

def ItemKind.word : ItemKind → String
  | .method => "method"
  | .type => "type"

inductive ConversionFault where
  | unrecognizedExpression (fault : TypeExpr.Unrecognized)
  | unknownType (name : String)
  | unnamedInput (endpoint : String) (index : Nat)
  | mixedOutputs (endpoint : String)
  | undecodable (place : ShapePlace) (fault : ShapeFault)
  | unsupportedFramework (name : String)
  | invalidEnum (name : String) (fault : EnumFault)
  | duplicateItem (kind : ItemKind) (name owner : String)
  | inEndpoint (endpoint : String) (cause : ConversionFault)
  deriving DecidableEq, Repr

namespace ConversionFault

def message : ConversionFault → String
  | .unrecognizedExpression fault => fault.message
  | .unknownType name => "unknown abi field type '" ++ name ++ "'"
  | .unnamedInput endpoint index =>
    "input " ++ toString index ++ " of endpoint '" ++ endpoint ++ "' has no name"
  | .mixedOutputs endpoint => "endpoint '" ++ endpoint ++ "' mixes named and unnamed outputs"
  | .undecodable place fault =>
    "unsupported decode shape in " ++ place.message ++ ": " ++ fault.message
  | .unsupportedFramework name => "unsupported contract framework '" ++ name ++ "'"
  | .invalidEnum name fault => "invalid enum '" ++ name ++ "': " ++ fault.message
  | .duplicateItem kind name owner =>
    kind.word ++ " '" ++ name ++ "' is already generated for '" ++ owner ++ "'"
  | .inEndpoint endpoint cause => "endpoint '" ++ endpoint ++ "': " ++ message cause

/-- The messages of what lies under the fault, outermost first. -/
def causes : ConversionFault → List String
  | .undecodable _ fault => [fault.message]
  | .inEndpoint _ cause => cause.message :: causes cause
  | _ => []

/-- The fault without the endpoints around it. -/
def root : ConversionFault → ConversionFault
  | .inEndpoint _ cause => root cause
  | fault => fault

end ConversionFault
end ContractAbi
