import ContractAbi.Bindings.Declaration
import ContractAbi.Bindings.Method
import ContractAbi.Contract.Basic

/-!
The generated file of a contract: a header, the declared types, and the client with a method for
each endpoint.
-/
namespace ContractAbi

structure GenerationOptions where
  /-- The crate that generated code takes its runtime from. -/
  runtimeCrate : String
  emitDocs : Bool
  deriving DecidableEq, Repr

def GenerationOptions.standard : GenerationOptions := ⟨"abi_reflect", true⟩

/-- Documentation, unless it is left out. -/
def GenerationOptions.docs (options : GenerationOptions) (docs : List String) : List String :=
  if options.emitDocs then docs else []

inductive TypeItem where
  | record (item : RecordItem)
  | enum (item : EnumItem)
  deriving DecidableEq, Repr

structure ClientItem where
  name : String
  contract : String
  docs : List String
  methods : List Method
  deriving Repr

structure SourceFile where
  contract : String
  framework : Framework
  runtimeCrate : String
  imports : List String
  aliases : List Primitive
  types : List TypeItem
  outputs : List OutputItem
  client : ClientItem
  deriving Repr

/-- The items that every generated file takes from the runtime, in order. -/
def runtimeItems : List String :=
  ["BindingError", "CallOptions", "CallRequest", "NetworkTransport", "ReturnData", "TokenPayment",
    "WireError"]

namespace Contract

/-- The declaration of a named type; a name that the catalog does not declare has none. -/
def typeItem? (contract : Contract) (options : GenerationOptions) (name : String)
    (docs : List String) : Except ConversionFault (Option TypeItem) :=
  let docs := options.docs docs
  match contract.catalog.records.get? name with
  | some fields => return some (.record (← RecordItem.ofFields contract.catalog name fields docs))
  | none =>
    match contract.catalog.enums.get? name with
    | some variants => return some (.enum (← EnumItem.ofVariants name variants docs))
    | none => return none

def compositeItem (contract : Contract) (name : String) (fields : List Field) :
    Except ConversionFault TypeItem :=
  return .record (← RecordItem.ofFields contract.catalog name fields [])

def outputItem? (endpoint : Endpoint) : Option OutputItem :=
  endpoint.outputStruct?.map (OutputItem.ofFields endpoint.outputStructName)

def method (contract : Contract) (options : GenerationOptions) (endpoint : Endpoint) :
    Except ConversionFault Method :=
  Method.ofEndpoint contract.catalog { endpoint with docs := options.docs endpoint.docs }

/-- The generated file of a contract. -/
def sourceFile (contract : Contract) (options : GenerationOptions) :
    Except ConversionFault SourceFile := do
  let named ← contract.typeDocs.entries.mapM fun entry =>
    contract.typeItem? options entry.1 entry.2
  let composites ← contract.catalog.composites.entries.mapM fun entry =>
    contract.compositeItem entry.1 entry.2
  let methods ← contract.endpoints.mapM (contract.method options)
  return {
    contract := contract.name
    framework := contract.framework
    runtimeCrate := options.runtimeCrate
    imports := contract.imports ++ runtimeItems
    aliases := contract.aliases
    types := named.filterMap id ++ composites
    outputs := contract.endpoints.filterMap outputItem?
    client := ⟨contract.accessorName, contract.name, options.docs contract.docs, methods⟩ }

end Contract

open Code

def TypeItem.lines : TypeItem → Lines
  | .record item => item.lines
  | .enum item => item.lines

def TypeItem.name : TypeItem → String
  | .record item => item.name
  | .enum item => item.name

namespace ClientItem

def structLines (client : ClientItem) : Lines :=
  docLines client.docs ++ ["/// Client for the \x60" ++ client.contract ++ "\x60 contract."] ++
    braces ("pub struct " ++ client.name ++ "<T>") ["transport: T,", "contract_address: String,"]

def accessLines : Lines :=
  braces "pub fn new(transport: T, contract_address: impl Into<String>) -> Self"
      ["Self \x7b transport, contract_address: contract_address.into() \x7d"] ++ [""] ++
    braces "pub fn transport(&self) -> &T" ["&self.transport"] ++ [""] ++
    braces "pub fn contract_address(&self) -> &str" ["&self.contract_address"]

def lines (client : ClientItem) : Lines :=
  client.structLines ++ [""] ++
    braces ("impl<T: NetworkTransport> " ++ client.name ++ "<T>")
      (accessLines ++ client.methods.flatMap fun method => "" :: method.lines)

end ClientItem

namespace SourceFile

def headerLines (file : SourceFile) : Lines :=
  ["//! Client bindings for the \x60" ++ file.contract ++ "\x60 contract.",
    "//!",
    "//! Generated by abi_gen from a " ++ file.framework.name ++ " " ++ file.framework.version ++
      " ABI. Do not edit.",
    "#![allow(dead_code, unused_imports, unused_mut, clippy::all)]",
    "",
    "use " ++ file.runtimeCrate ++ "::wire::\x7bself, NestedDecoder, WireArg\x7d;",
    "use " ++ file.runtimeCrate ++ "::\x7b" ++ ", ".intercalate file.imports ++ "\x7d;"]

def aliasLines (file : SourceFile) : Lines :=
  if file.aliases.isEmpty then [] else "" :: file.aliases.map aliasLine

def lines (file : SourceFile) : Lines :=
  file.headerLines ++ file.aliasLines ++
    file.types.flatMap (fun item => "" :: item.lines) ++
    file.outputs.flatMap (fun item => "" :: item.lines) ++
    "" :: file.client.lines

def text (file : SourceFile) : String :=
  render file.lines

end SourceFile

/-- The file that makes the generated one a module of its directory. -/
def moduleFileText (moduleName : String) : String :=
  render ["#[allow(non_snake_case)]", "mod " ++ moduleName ++ ";", "",
    "pub use " ++ moduleName ++ "::*;"]

/-- A contract model with its generated source. -/
structure Conversion where
  contract : Contract
  source : String
  deriving DecidableEq, Repr

def Document.convert (document : Document) (policy : EndpointPolicy) (options : GenerationOptions) :
    Except ConversionFault Conversion := do
  let contract ← Contract.ofDocument policy document
  let file ← contract.sourceFile options
  return ⟨contract, file.text⟩

end ContractAbi
