import ContractAbi.Bindings.Code
import ContractAbi.Bindings.Decoder
import ContractAbi.Bindings.Encoder
import ContractAbi.Endpoint

/-!
The methods of a generated client, one for each endpoint. A method collects its arguments, sends
a query or a call, and for a query decodes the outputs.
-/
namespace ContractAbi

inductive MethodBody where
  /-- Sends a query and decodes what it returns; `result` is built from the decoded outputs. -/
  | query (outputs : List OutputStatement) (decodes : Bool) (result : String)
  /-- Sends a call, with a token payment if the endpoint takes one. -/
  | call (takesPayment : Bool)
  deriving DecidableEq, Repr

structure Method where
  endpoint : String
  name : String
  docs : List String
  onlyOwner : Bool
  parameters : List String
  returnType : String
  /-- The statements that collect the arguments; none without inputs. -/
  arguments : Option (List EncodeStatement)
  body : MethodBody
  deriving Repr

namespace Endpoint

def returnType (endpoint : Endpoint) : String :=
  match endpoint.kind with
  | .mutable => "String"
  | .readonly =>
    match endpoint.outputs with
    | [] => "()"
    | [output] => output.type.ownedText
    | outputs =>
      if endpoint.hasNamedOutputs then endpoint.outputStructName
      else "(" ++ ", ".intercalate (outputs.map (·.type.ownedText)) ++ ")"

/-- The expression for what a query returns. -/
def resultText (endpoint : Endpoint) : String :=
  match endpoint.outputs with
  | [] => "()"
  | [_] => outputVariable 0
  | outputs =>
    if endpoint.hasNamedOutputs then
      Code.inlineBraces endpoint.outputStructName <| outputs.mapIdx fun index output =>
        Identifier.field (output.name.getD "") ++ ": " ++ outputVariable index
    else "(" ++ ", ".intercalate ((List.range outputs.length).map outputVariable) ++ ")"

def parameters (endpoint : Endpoint) : List String :=
  let settings :=
    match endpoint.kind with
    | .readonly => []
    | .mutable =>
      ["options: &CallOptions"] ++
        (if endpoint.acceptsTokenPayment then ["payment: Option<&TokenPayment>"] else [])
  let inputs := endpoint.inputs.map fun input =>
    Identifier.parameter input.name ++ ": " ++ input.type.parameterText
  ["&self"] ++ settings ++ inputs

def encodeInputs (endpoint : Endpoint) (catalog : Catalog) : List EncodeStatement :=
  endpoint.inputs.flatMap fun input =>
    catalog.encodeStatements ⟨Identifier.parameter input.name, []⟩ input.type

def methodBody (endpoint : Endpoint) : Except ConversionFault MethodBody :=
  match endpoint.kind with
  | .mutable => .ok (.call endpoint.acceptsTokenPayment)
  | .readonly => do
    let outputs ← outputStatements 0 (endpoint.outputTypes.zip endpoint.plans)
    return .query outputs (!endpoint.outputs.isEmpty) endpoint.resultText

end Endpoint

def Method.ofEndpoint (catalog : Catalog) (endpoint : Endpoint) : Except ConversionFault Method :=
  return {
    endpoint := endpoint.name
    name := endpoint.methodName
    docs := endpoint.docs
    onlyOwner := endpoint.onlyOwner
    parameters := endpoint.parameters
    returnType := endpoint.returnType
    arguments := if endpoint.inputs.isEmpty then none else some (endpoint.encodeInputs catalog)
    body := ← endpoint.methodBody }

namespace Method

open Code

def ownerNote : String :=
  "/// Only the contract owner may call this endpoint."

/-- The comment of a method, which says whether only the owner may call it. -/
def commentLines (method : Method) : Lines :=
  let note :=
    if method.onlyOwner then (if method.docs.isEmpty then [] else ["///"]) ++ [ownerNote] else []
  docLines method.docs ++ note

def argumentLines (method : Method) : Lines :=
  match method.arguments with
  | none => []
  | some statements =>
    "let mut args: Vec<String> = Vec::new();" :: EncodeStatement.linesOf statements

def queryText (method : Method) : String :=
  let args := if method.arguments.isSome then "&args" else "&[]"
  "self.transport.query(&self.contract_address, " ++ quoted method.endpoint ++ ", " ++ args ++ ")?;"

def callLines (method : Method) (takesPayment : Bool) : Lines :=
  let args := if method.arguments.isSome then "args" else "Vec::new()"
  let fields := [
    "contract_address: &self.contract_address,",
    "endpoint: " ++ quoted method.endpoint ++ ",",
    "args: " ++ args ++ ",",
    "options,",
    (if takesPayment then "payment," else "payment: None,")]
  block "let outcome = self.transport.call(CallRequest" fields "\x7d)?;" ++
    ["outcome.into_result(" ++ quoted method.endpoint ++ ")"]

def sendLines (method : Method) : Lines :=
  match method.body with
  | .call takesPayment => method.callLines takesPayment
  | .query outputs decodes result =>
    let send :=
      if decodes then
        ["let slots = " ++ method.queryText,
          "let data = ReturnData::new(" ++ quoted method.endpoint ++ ", &slots);"]
      else [method.queryText]
    send ++ outputs.map OutputStatement.line ++ ["Ok(" ++ result ++ ")"]

def headText (method : Method) : String :=
  "pub fn " ++ method.name ++ "(" ++ ", ".intercalate method.parameters ++ ") -> Result<" ++
    method.returnType ++ ", BindingError>"

def lines (method : Method) : Lines :=
  method.commentLines ++ braces method.headText (method.argumentLines ++ method.sendLines)

end Method
end ContractAbi
