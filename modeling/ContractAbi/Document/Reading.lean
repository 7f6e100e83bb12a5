import ContractAbi.Data
import ContractAbi.Document.Basic

/-!
Reading a document from data. Absent fields take their defaults, keys without a meaning are passed
over, and a named type given twice keeps its first place and its last definition.
-/
namespace ContractAbi

open Data (required defaulted nullable)

def Data.lines? : Data → Option (List String) := Data.listOf? Data.text?

def Crate.ofData? (d : Data) : Option Crate := do
  let given ← d.record? ["name", "version"]
  return {
    name := ← required given "name" Data.text?
    version := ← defaulted given "version" Data.text? "" }

def Framework.ofData? (d : Data) : Option Framework := do
  let given ← d.record? ["name", "version"]
  return {
    name := ← required given "name" Data.text?
    version := ← defaulted given "version" Data.text? "" }

def BuildInfo.ofData? (d : Data) : Option BuildInfo := do
  let given ← d.record? ["contractCrate", "framework"]
  return {
    contractCrate := ← nullable given "contractCrate" Crate.ofData?
    framework := ← required given "framework" Framework.ofData? }

def InputDecl.ofData? (d : Data) : Option InputDecl := do
  let given ← d.record? ["name", "type", "multi_arg"]
  return {
    name := ← defaulted given "name" Data.text? ""
    type := ← required given "type" Data.text?
    multiArg := ← defaulted given "multi_arg" Data.bool? false }

def OutputDecl.ofData? (d : Data) : Option OutputDecl := do
  let given ← d.record? ["name", "type", "multi_result"]
  return {
    name := ← defaulted given "name" Data.text? ""
    type := ← required given "type" Data.text?
    multiResult := ← defaulted given "multi_result" Data.bool? false }

def Constructor.ofData? (d : Data) : Option Constructor := do
  let given ← d.record? ["docs", "inputs", "outputs"]
  return {
    docs := ← defaulted given "docs" Data.lines? []
    inputs := ← defaulted given "inputs" (Data.listOf? InputDecl.ofData?) []
    outputs := ← defaulted given "outputs" (Data.listOf? OutputDecl.ofData?) [] }

def Mutability.ofData? (d : Data) : Option Mutability :=
  d.text?.map Mutability.ofWord

def EndpointDecl.ofData? (d : Data) : Option EndpointDecl := do
  let given ← d.record?
    ["name", "docs", "onlyOwner", "mutability", "payableInTokens", "inputs", "outputs"]
  return {
    name := ← required given "name" Data.text?
    docs := ← defaulted given "docs" Data.lines? []
    onlyOwner := ← defaulted given "onlyOwner" Data.bool? false
    mutability := ← defaulted given "mutability" Mutability.ofData? .mutable
    payableInTokens := ← defaulted given "payableInTokens" Data.lines? []
    inputs := ← defaulted given "inputs" (Data.listOf? InputDecl.ofData?) []
    outputs := ← defaulted given "outputs" (Data.listOf? OutputDecl.ofData?) [] }

def EventInput.ofData? (d : Data) : Option EventInput := do
  let given ← d.record? ["name", "type", "indexed"]
  return {
    name := ← required given "name" Data.text?
    type := ← required given "type" Data.text?
    indexed := ← defaulted given "indexed" Data.bool? false }

def Event.ofData? (d : Data) : Option Event := do
  let given ← d.record? ["identifier", "inputs"]
  return {
    identifier := ← required given "identifier" Data.text?
    inputs := ← defaulted given "inputs" (Data.listOf? EventInput.ofData?) [] }

def FieldDecl.ofData? (d : Data) : Option FieldDecl := do
  let given ← d.record? ["name", "type"]
  return {
    name := ← required given "name" Data.text?
    type := ← required given "type" Data.text? }

def VariantDecl.ofData? (d : Data) : Option VariantDecl := do
  let given ← d.record? ["name", "discriminant"]
  return {
    name := ← required given "name" Data.text?
    discriminant := ← required given "discriminant" Data.natural? }

/-- Takes the kind of a type definition apart from its content. -/
def TypeDefinition.kind? : Data → Option (String × Data)
  | .list (kind :: content) => kind.text?.map (·, .list content)
  | .map entries =>
    let isKind := fun (entry : Data × Data) => entry.1.text? == some "type"
    match entries.filter isKind with
    | [entry] => entry.2.text?.map (·, .map (entries.filter (!isKind ·)))
    | _ => none
  | _ => none

/-- Lists and maps may stand this deep in a type definition. -/
def TypeDefinition.depthLimit : Nat := 125

/-- Reads a type definition. Its scalars are given a meaning before its kind is known, so a name
that spells a number or a boolean is no text here. -/
def TypeDefinition.ofData? (d : Data) : Option TypeDefinition := do
  let (kind, content) ← TypeDefinition.kind? (← d.settle?)
  if d.depth > TypeDefinition.depthLimit then none
  else if kind = "struct" then do
    let given ← content.record? ["docs", "fields"]
    return .record (← defaulted given "docs" Data.lines? [])
      (← defaulted given "fields" (Data.listOf? FieldDecl.ofData?) [])
  else if kind = "enum" then do
    let given ← content.record? ["docs", "variants"]
    return .enum (← defaulted given "docs" Data.lines? [])
      (← defaulted given "variants" (Data.listOf? VariantDecl.ofData?) [])
  else none

def Document.typesOfData? (d : Data) : Option (NameMap TypeDefinition) := do
  let entries ← d.entries?
  let types ← entries.mapM fun entry => (TypeDefinition.ofData? entry.2).map (entry.1, ·)
  return NameMap.ofList types

def Document.ofData? (d : Data) : Option Document := do
  let given ← d.record? ["buildInfo", "docs", "name", "constructor", "endpoints", "events",
    "hasCallbacks", "types"]
  return {
    buildInfo := ← required given "buildInfo" BuildInfo.ofData?
    docs := ← defaulted given "docs" Data.lines? []
    name := ← required given "name" Data.text?
    constructor := ← nullable given "constructor" Constructor.ofData?
    endpoints := ← defaulted given "endpoints" (Data.listOf? EndpointDecl.ofData?) []
    events := ← defaulted given "events" (Data.listOf? Event.ofData?) []
    hasCallbacks := ← defaulted given "hasCallbacks" Data.bool? false
    types := ← defaulted given "types" Document.typesOfData? ∅ }

end ContractAbi
