import ContractAbi.Declarations
import ContractAbi.Endpoint

/-!
The model of a contract: everything that generated code or a decoder needs, resolved and checked.
Each endpoint is resolved as a unit. One that fails leaves nothing behind; whether the others
still make a model is a matter of policy.
-/
namespace ContractAbi

/-- What becomes of a document when one of its endpoints fails. -/
inductive EndpointPolicy where
  /-- The first failing endpoint fails the document. -/
  | strict
  /-- Failing endpoints are dropped and reported. -/
  | skipFailed
  deriving DecidableEq, Repr

structure EndpointFailure where
  endpoint : String
  fault : ConversionFault
  deriving DecidableEq, Repr

structure Contract where
  name : String
  moduleName : String
  accessorName : String
  framework : Framework
  docs : List String
  typeDocs : NameMap (List String)
  catalog : Catalog
  aliases : List Primitive
  imports : List String
  endpoints : List Endpoint
  /-- Endpoints that are neither readonly nor mutable. -/
  skipped : List String
  failures : List EndpointFailure
  deriving DecidableEq, Repr

/-- Names of generated items that are taken, each with the item of the document that has it. -/
structure ItemNames where
  methods : NameMap String
  types : NameMap String
  deriving DecidableEq, Repr

namespace ItemNames

def ofDocument (document : Document) : ItemNames :=
  ⟨∅, NameMap.ofList (document.types.names.map fun name => (Identifier.type name, name))⟩

/-- Takes the name of the endpoint's output structure, if it has one. -/
def claimOutputStruct (items : ItemNames) (endpoint : Endpoint) :
    Except ConversionFault ItemNames :=
  match endpoint.outputStruct? with
  | none => .ok items
  | some _ =>
    match items.types.get? endpoint.outputStructName with
    | some owner => .error (.duplicateItem .type endpoint.outputStructName owner)
    | none => .ok { items with types := items.types.put endpoint.outputStructName endpoint.name }

/-- Takes the names of the items generated for an endpoint, all or none. -/
def claim (items : ItemNames) (endpoint : Endpoint) : Except ConversionFault ItemNames :=
  match items.methods.get? endpoint.methodName with
  | some owner => .error (.duplicateItem .method endpoint.methodName owner)
  | none => do
    let items ← items.claimOutputStruct endpoint
    return { items with methods := items.methods.put endpoint.methodName endpoint.name }

end ItemNames

/-- The endpoints taken so far and what they left behind. -/
structure EndpointProgress where
  context : Context
  items : ItemNames
  endpoints : List Endpoint
  skipped : List String
  failures : List EndpointFailure
  deriving DecidableEq, Repr

namespace EndpointProgress

def start (context : Context) (items : ItemNames) : EndpointProgress :=
  ⟨context, items, [], [], []⟩

def accept (progress : EndpointProgress) (context : Context) (items : ItemNames)
    (endpoint : Endpoint) : EndpointProgress :=
  { progress with context, items, endpoints := progress.endpoints ++ [endpoint] }

def skip (progress : EndpointProgress) (name : String) : EndpointProgress :=
  { progress with skipped := progress.skipped ++ [name] }

/-- Reports an endpoint that failed, or fails with it. -/
def refuse (progress : EndpointProgress) (policy : EndpointPolicy) (name : String)
    (fault : ConversionFault) : Except ConversionFault EndpointProgress :=
  let fault := .inEndpoint name fault
  match policy with
  | .strict => .error fault
  | .skipFailed => .ok { progress with failures := progress.failures ++ [⟨name, fault⟩] }

/-- Takes the next endpoint of the document. -/
def step (types : NameMap TypeDefinition) (policy : EndpointPolicy) (progress : EndpointProgress)
    (decl : EndpointDecl) : Except ConversionFault EndpointProgress :=
  match (classify types decl).run progress.context with
  | .error fault _ => progress.refuse policy decl.name fault
  | .ok none _ => .ok (progress.skip decl.name)
  | .ok (some endpoint) context =>
    match progress.items.claim endpoint with
    | .error fault => progress.refuse policy decl.name fault
    | .ok items => .ok (progress.accept context items endpoint)

end EndpointProgress

/-- The name of the generated client. It gives way to other generated types. -/
def clientName (document : Document) (items : ItemNames) (catalog : Catalog) : String :=
  let name := Identifier.type (Identifier.pascal document.name)
  if items.types.contains name || catalog.composites.contains name then name ++ "Client" else name

/-- The model of a document from its declared types and its endpoints. -/
def Contract.ofProgress (document : Document) (session : Session) (progress : EndpointProgress) :
    Contract :=
  let catalog := { session with context := progress.context : Session }.catalog
  { name := document.name
    moduleName := Identifier.lowerFirst document.name
    accessorName := clientName document progress.items catalog
    framework := document.framework
    docs := document.docs
    typeDocs := document.types.mapValues TypeDefinition.docs
    catalog
    aliases := progress.context.aliases
    imports := progress.context.imports
    endpoints := progress.endpoints
    skipped := progress.skipped
    failures := progress.failures }

/-- The model of a document whose framework is known to be supported. -/
def Contract.ofSupported (policy : EndpointPolicy) (document : Document) :
    Except ConversionFault Contract :=
  match (declareNamedTypes document.types).run (Session.start (Context.ofDocument document)) with
  | .error fault _ => .error fault
  | .ok _ session => do
    let progress ← document.endpoints.foldlM (EndpointProgress.step document.types policy)
      (.start session.context (ItemNames.ofDocument document))
    return .ofProgress document session progress

/-- The model of a document. -/
def Contract.ofDocument (policy : EndpointPolicy) (document : Document) :
    Except ConversionFault Contract :=
  if document.isSupported then Contract.ofSupported policy document
  else .error (.unsupportedFramework document.framework.name)

end ContractAbi
