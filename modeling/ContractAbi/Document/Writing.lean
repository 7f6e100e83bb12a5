import ContractAbi.Document.Basic
import ContractAbi.Json.Tree

/-!
Writing a document as JSON, with every default spelled out. Only an absent contract crate is left
out.
-/
namespace ContractAbi

def Crate.json (crate : Crate) : Json :=
  .object [("name", .text crate.name), ("version", .text crate.version)]

def Framework.json (framework : Framework) : Json :=
  .object [("name", .text framework.name), ("version", .text framework.version)]

def BuildInfo.json (info : BuildInfo) : Json :=
  let crate := match info.contractCrate with
    | some crate => [("contractCrate", crate.json)]
    | none => []
  .object (crate ++ [("framework", info.framework.json)])

def InputDecl.json (input : InputDecl) : Json :=
  .object [("name", .text input.name), ("type", .text input.type),
    ("multi_arg", .bool input.multiArg)]

def OutputDecl.json (output : OutputDecl) : Json :=
  .object [("name", .text output.name), ("type", .text output.type),
    ("multi_result", .bool output.multiResult)]

def Constructor.json (c : Constructor) : Json :=
  .object [("docs", .texts c.docs), ("inputs", .array (c.inputs.map InputDecl.json)),
    ("outputs", .array (c.outputs.map OutputDecl.json))]

def EndpointDecl.json (endpoint : EndpointDecl) : Json :=
  .object [
    ("name", .text endpoint.name),
    ("docs", .texts endpoint.docs),
    ("onlyOwner", .bool endpoint.onlyOwner),
    ("mutability", .text endpoint.mutability.word),
    ("payableInTokens", .texts endpoint.payableInTokens),
    ("inputs", .array (endpoint.inputs.map InputDecl.json)),
    ("outputs", .array (endpoint.outputs.map OutputDecl.json))]

def EventInput.json (input : EventInput) : Json :=
  .object [("name", .text input.name), ("type", .text input.type), ("indexed", .bool input.indexed)]

def Event.json (event : Event) : Json :=
  .object [("identifier", .text event.identifier),
    ("inputs", .array (event.inputs.map EventInput.json))]

def FieldDecl.json (field : FieldDecl) : Json :=
  .object [("name", .text field.name), ("type", .text field.type)]

def VariantDecl.json (variant : VariantDecl) : Json :=
  .object [("name", .text variant.name), ("discriminant", .natural variant.discriminant)]

def TypeDefinition.json : TypeDefinition → Json
  | .record docs fields =>
    .object [("type", .text "struct"), ("docs", .texts docs),
      ("fields", .array (fields.map FieldDecl.json))]
  | .enum docs variants =>
    .object [("type", .text "enum"), ("docs", .texts docs),
      ("variants", .array (variants.map VariantDecl.json))]

def Document.json (document : Document) : Json :=
  .object [
    ("buildInfo", document.buildInfo.json),
    ("docs", .texts document.docs),
    ("name", .text document.name),
    ("constructor", (document.constructor.map Constructor.json).getD .null),
    ("endpoints", .array (document.endpoints.map EndpointDecl.json)),
    ("events", .array (document.events.map Event.json)),
    ("hasCallbacks", .bool document.hasCallbacks),
    ("types", .object (document.types.mapValues TypeDefinition.json).entries)]

end ContractAbi
