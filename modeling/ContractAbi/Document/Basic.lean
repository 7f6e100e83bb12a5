import ContractAbi.NameMap

/-!
The document that describes a contract: the framework it was built with, its endpoints and events,
and its named types in document order. Types are still expressions here.
-/
namespace ContractAbi

structure Crate where
  name : String
  version : String
  deriving DecidableEq, Repr

structure Framework where
  name : String
  version : String
  deriving DecidableEq, Repr

structure BuildInfo where
  contractCrate : Option Crate
  framework : Framework
  deriving DecidableEq, Repr

structure InputDecl where
  name : String
  type : String
  multiArg : Bool
  deriving DecidableEq, Repr

structure OutputDecl where
  name : String
  type : String
  multiResult : Bool
  deriving DecidableEq, Repr

structure Constructor where
  docs : List String
  inputs : List InputDecl
  outputs : List OutputDecl
  deriving DecidableEq, Repr

/-- Whether calling an endpoint may change the contract. Other words are kept as they are. -/
inductive Mutability where
  | readonly
  | mutable
  | other (word : String)
  deriving DecidableEq, Repr

def Mutability.ofWord (word : String) : Mutability :=
  if word = "readonly" then .readonly
  else if word = "mutable" then .mutable
  else .other word

def Mutability.word : Mutability → String
  | .readonly => "readonly"
  | .mutable => "mutable"
  | .other word => word

theorem Mutability.ofWord_word_ofWord (word : String) : ofWord (ofWord word).word = ofWord word := by
  by_cases hr : word = "readonly" <;> by_cases hm : word = "mutable" <;>
    simp [ofWord, Mutability.word, hr, hm]

structure EndpointDecl where
  name : String
  docs : List String
  onlyOwner : Bool
  mutability : Mutability
  payableInTokens : List String
  inputs : List InputDecl
  outputs : List OutputDecl
  deriving DecidableEq, Repr

structure EventInput where
  name : String
  type : String
  indexed : Bool
  deriving DecidableEq, Repr

structure Event where
  identifier : String
  inputs : List EventInput
  deriving DecidableEq, Repr

structure FieldDecl where
  name : String
  type : String
  deriving DecidableEq, Repr

structure VariantDecl where
  name : String
  discriminant : Nat
  deriving DecidableEq, Repr

inductive TypeDefinition where
  | record (docs : List String) (fields : List FieldDecl)
  | enum (docs : List String) (variants : List VariantDecl)
  deriving DecidableEq, Repr

def TypeDefinition.docs : TypeDefinition → List String
  | .record docs _ | .enum docs _ => docs

structure Document where
  buildInfo : BuildInfo
  docs : List String
  name : String
  constructor : Option Constructor
  endpoints : List EndpointDecl
  events : List Event
  hasCallbacks : Bool
  types : NameMap TypeDefinition
  deriving DecidableEq, Repr

/-- The frameworks whose documents are understood. -/
def supportedFrameworks : List String :=
  ["multiversx-sc", "elrond-wasm"]

def Document.framework (document : Document) : Framework :=
  document.buildInfo.framework

def Document.isSupported (document : Document) : Bool :=
  supportedFrameworks.contains document.framework.name

end ContractAbi
