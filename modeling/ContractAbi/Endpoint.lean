import ContractAbi.Layout
import ContractAbi.Resolution
import ContractAbi.Text.Basic

/-!
Endpoints ready for generation. The structure of a declaration is checked before any of its types
is resolved; the outputs of a call that changes the contract are resolved aside, because no
generated code decodes them.
-/
namespace ContractAbi

inductive EndpointKind where
  | readonly | mutable
  deriving DecidableEq, Repr

structure Input where
  name : String
  type : ResolvedType
  deriving DecidableEq, Repr

structure Output where
  name : Option String
  type : ResolvedType
  multiResult : Bool
  deriving DecidableEq, Repr

structure Endpoint where
  name : String
  methodName : String
  docs : List String
  kind : EndpointKind
  onlyOwner : Bool
  acceptsTokenPayment : Bool
  inputs : List Input
  outputs : List Output
  /-- Where each output lies; empty unless the endpoint is readonly. -/
  plans : List OutputPlan
  deriving DecidableEq, Repr

namespace Endpoint

/-- Several outputs that all have a name. -/
def hasNamedOutputs (endpoint : Endpoint) : Bool :=
  1 < endpoint.outputs.length && endpoint.outputs.all (·.name.isSome)

def outputTypes (endpoint : Endpoint) : List ResolvedType :=
  endpoint.outputs.map (·.type)

/-- The name of the declaration that holds several named outputs. -/
def outputStructName (endpoint : Endpoint) : String :=
  Identifier.pascal endpoint.name ++ "Output"

/-- A readonly endpoint with several named outputs returns them in one declared structure. -/
def outputStruct? (endpoint : Endpoint) : Option (List (String × ResolvedType)) :=
  if endpoint.kind = .readonly && endpoint.hasNamedOutputs then
    some (endpoint.outputs.map fun output => (output.name.getD "", output.type))
  else none

end Endpoint

/-- The token that is paid as the value of a call and not as a token transfer. -/
def nativeToken : String := "EGLD"

def isBlankName (name : String) : Bool :=
  Text.allBlank name.toList

/-- An output name without blanks around it; a blank name is none. -/
def outputName? (name : String) : Option String :=
  if isBlankName name then none else some (String.ofList (Text.trim name.toList))

namespace EndpointDecl

def kind? (decl : EndpointDecl) : Option EndpointKind :=
  match decl.mutability with
  | .readonly => some .readonly
  | .mutable => some .mutable
  | .other _ => none

/-- Every input has a name, and either all outputs have one or none has. -/
def checkNames (decl : EndpointDecl) : Except ConversionFault Unit :=
  match decl.inputs.findIdx? (isBlankName ·.name) with
  | some index => .error (.unnamedInput decl.name index)
  | none =>
    let named := (decl.outputs.filter (!isBlankName ·.name)).length
    if named ≠ 0 ∧ named ≠ decl.outputs.length then .error (.mixedOutputs decl.name) else .ok ()

def acceptsTokenPayment (decl : EndpointDecl) : Bool :=
  decl.payableInTokens.any (· ≠ nativeToken)

end EndpointDecl

def resolveInputs (types : NameMap TypeDefinition) : List InputDecl → Resolve (List Input)
  | [] => return []
  | input :: rest => do
    let type ← resolve types input.type
    return ⟨input.name, type⟩ :: (← resolveInputs types rest)

def resolveOutputs (types : NameMap TypeDefinition) : List OutputDecl → Resolve (List Output)
  | [] => return []
  | output :: rest => do
    let type ← resolve types output.type
    return ⟨outputName? output.name, type, output.multiResult⟩ :: (← resolveOutputs types rest)

/-- The outputs of a readonly endpoint with their places in the slots. -/
def planOutputsOf (endpoint : String) (outputs : List Output) : Resolve (List OutputPlan) :=
  match planOutputs (outputs.map (·.type)) with
  | .ok plans => return plans
  | .error fault => throw (.undecodable (.outputsOf endpoint) fault)

/-- The outputs of an endpoint, with their plans if generated code decodes them. -/
def classifyOutputs (types : NameMap TypeDefinition) (decl : EndpointDecl) :
    EndpointKind → Resolve (List Output × List OutputPlan)
  | .readonly => do
    let outputs ← resolveOutputs types decl.outputs
    return (outputs, ← planOutputsOf decl.name outputs)
  | .mutable => do
    return (← Resolve.aside (resolveOutputs types decl.outputs), [])

/-- Resolves an endpoint of known kind. -/
def classifyAs (types : NameMap TypeDefinition) (decl : EndpointDecl) (kind : EndpointKind) :
    Resolve Endpoint := do
  match decl.checkNames with
  | .error fault => throw fault
  | .ok _ =>
    let inputs ← resolveInputs types decl.inputs
    let (outputs, plans) ← classifyOutputs types decl kind
    return {
      name := decl.name
      methodName := Identifier.method decl.name
      docs := decl.docs
      kind, inputs, outputs, plans
      onlyOwner := decl.onlyOwner
      acceptsTokenPayment := decl.acceptsTokenPayment }

/-- Resolves an endpoint, unless it is neither readonly nor mutable. -/
def classify (types : NameMap TypeDefinition) (decl : EndpointDecl) : Resolve (Option Endpoint) :=
  match decl.kind? with
  | none => return none
  | some kind => return some (← classifyAs types decl kind)

end ContractAbi
