import ContractAbi.Contract.Basic
import ContractAbi.Json.Tree
import ContractAbi.Layout
import ContractAbi.ResolvedType

/-!
Writing types, catalogs, output plans and contract models as JSON. A failure is written with the
message of its root.
-/
namespace ContractAbi

mutual

def ResolvedType.json : ResolvedType → Json
  | .primitive kind => .object [("kind", .text "primitive"), ("primitive", .text kind.label)]
  | .record name => .object [("kind", .text "named-record"), ("name", .text name)]
  | .enum name => .object [("kind", .text "named-enum"), ("name", .text name)]
  | .list element => .object [("kind", .text "list"), ("inner", element.json)]
  | .variadic element => .object [("kind", .text "simple-variadic"), ("inner", element.json)]
  | .variadicMulti name members => compositeJson "multi-variadic" name members
  | .multi name members => compositeJson "multi" name members
  | .tuple name members => compositeJson "tuple" name members

def ResolvedType.compositeJson (kind name : String) (members : List ResolvedType) : Json :=
  .object [("kind", .text kind),
    ("composite", .object [("name", .text name), ("members", .array (jsonOfTypes members))])]

def ResolvedType.jsonOfTypes : List ResolvedType → List Json
  | [] => []
  | type :: rest => type.json :: jsonOfTypes rest

end

def Field.json (field : Field) : Json :=
  .object [("name", .text field.name), ("field_type", field.type.json)]

def Variant.json (variant : Variant) : Json :=
  .object [("name", .text variant.name), ("discriminant", .natural variant.discriminant.toNat)]

def fieldsJson (fields : List Field) : Json :=
  .array (fields.map Field.json)

def Catalog.json (catalog : Catalog) : Json :=
  .object [
    ("records", .object (catalog.records.mapValues fieldsJson).entries),
    ("enums", .object (catalog.enums.mapValues fun vs => .array (vs.map Variant.json)).entries),
    ("composites", .object (catalog.composites.mapValues fieldsJson).entries)]

def Strategy.json (strategy : Strategy) : Json :=
  let width := match strategy with
    | .groups width | .group width => [("width", Json.natural width)]
    | _ => []
  .object (("strategy", .text strategy.label) :: width)

def OutputPlan.json (plan : OutputPlan) : Json :=
  .object [("strategy", plan.strategy.json), ("first_slot", .natural plan.firstSlot)]

def EndpointKind.word : EndpointKind → String
  | .readonly => "readonly"
  | .mutable => "mutable"

def Input.json (input : Input) : Json :=
  .object [("name", .text input.name), ("ty", input.type.json)]

def Output.json (output : Output) : Json :=
  .object [("name", .optional output.name), ("ty", output.type.json),
    ("multi_result", .bool output.multiResult)]

def Endpoint.json (endpoint : Endpoint) : Json :=
  .object [
    ("name", .text endpoint.name),
    ("method_name", .text endpoint.methodName),
    ("docs", .texts endpoint.docs),
    ("kind", .text endpoint.kind.word),
    ("only_owner", .bool endpoint.onlyOwner),
    ("accepts_token_payment", .bool endpoint.acceptsTokenPayment),
    ("inputs", .array (endpoint.inputs.map Input.json)),
    ("outputs", .array (endpoint.outputs.map Output.json)),
    ("plans", .array (endpoint.plans.map OutputPlan.json))]

def EndpointFailure.json (failure : EndpointFailure) : Json :=
  .object [("endpoint", .text failure.endpoint), ("error", .text failure.fault.root.message)]

def Contract.json (contract : Contract) : Json :=
  .object [
    ("name", .text contract.name),
    ("module_name", .text contract.moduleName),
    ("accessor_name", .text contract.accessorName),
    ("framework", .text contract.framework.name),
    ("framework_version", .text contract.framework.version),
    ("docs", .texts contract.docs),
    ("type_docs", .object (contract.typeDocs.mapValues Json.texts).entries),
    ("catalog", contract.catalog.json),
    ("custom_types", .texts (contract.aliases.map Primitive.label)),
    ("imports", .texts contract.imports),
    ("endpoints", .array (contract.endpoints.map Endpoint.json)),
    ("skipped", .texts contract.skipped),
    ("failures", .array (contract.failures.map EndpointFailure.json))]

end ContractAbi
