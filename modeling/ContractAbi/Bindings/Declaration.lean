import ContractAbi.Bindings.Code
import ContractAbi.Bindings.Decoder

/-!
The types that generated code declares: records and composites, enums, structures that hold the
outputs of an endpoint, and aliases of primitives. Each declaration is data first and text then.
-/
namespace ContractAbi

structure FieldItem where
  name : String
  type : String
  reader : NestedReader
  zero : String
  deriving DecidableEq, Repr

/-- A record with decoders and a default. Composites that only ever are arguments may hold values
without a byte layout; those have no decoders. -/
structure RecordItem where
  name : String
  docs : List String
  fields : List FieldItem
  hasDecoders : Bool
  deriving DecidableEq, Repr

structure EnumItem where
  name : String
  /-- The name of the enum in error messages. -/
  label : String
  docs : List String
  variants : List (String × UInt8)
  default : String
  deriving DecidableEq, Repr

structure OutputItem where
  name : String
  fields : List (String × String)
  deriving DecidableEq, Repr

def FieldItem.ofField (catalog : Catalog) (field : Field) : Except ConversionFault FieldItem :=
  return {
    name := Identifier.field field.name
    type := field.type.ownedText
    reader := NestedReader.ofType field.type
    zero := ← field.type.zeroText catalog }

def isNestable (type : ResolvedType) : Bool :=
  (checkNested type).toBool

def RecordItem.ofFields (catalog : Catalog) (name : String) (fields : List Field)
    (docs : List String) : Except ConversionFault RecordItem :=
  return {
    name := Identifier.type name
    docs
    fields := ← fields.mapM (FieldItem.ofField catalog)
    hasDecoders := fields.all (isNestable ·.type) }

def EnumItem.ofVariants (name : String) (variants : List Variant) (docs : List String) :
    Except ConversionFault EnumItem :=
  match Catalog.defaultVariant? variants with
  | none => .error (.invalidEnum name .noVariants)
  | some default => .ok {
      name := Identifier.type name
      label := name
      docs
      variants := variants.map fun variant => (Identifier.type variant.name, variant.discriminant)
      default := Identifier.type default.name }

def OutputItem.ofFields (name : String) (fields : List (String × ResolvedType)) : OutputItem :=
  ⟨name, fields.map fun field => (Identifier.field field.1, field.2.ownedText)⟩

open Code

def aliasLine (kind : Primitive) : String :=
  "pub type " ++ kind.typeText ++ " = " ++ kind.aliasTarget ++ ";"

def fieldLine (name type : String) : String :=
  "pub " ++ name ++ ": " ++ type ++ ","

def entryLine (name value : String) : String :=
  name ++ ": " ++ value ++ ","

def nestedDecoderHead : String :=
  "pub fn decode_nested(decoder: &mut NestedDecoder<'_>) -> Result<Self, WireError>"

def topDecoderHead : String :=
  "pub fn top_decode(slot: &[u8]) -> Result<Self, WireError>"

/-- The default of a type, given the lines of its value. -/
def defaultLines (name : String) (value : Lines) : Lines :=
  braces ("impl Default for " ++ name) (braces "fn default() -> Self" value)

def recordAttribute : String :=
  "#[derive(Debug, Clone, PartialEq, Eq)]"

namespace RecordItem

def structLines (item : RecordItem) : Lines :=
  recordAttribute ::
    braces ("pub struct " ++ item.name) (item.fields.map fun field => fieldLine field.name field.type)

def decoderLines (item : RecordItem) : Lines :=
  let entries := item.fields.map fun field =>
    entryLine field.name (field.reader.call "decoder" ++ "?")
  let value := block "Ok(Self" entries "\x7d)"
  let nested := braces nestedDecoderHead (block "decoder.read_with(|decoder|" value "\x7d)")
  let top := braces topDecoderHead ["wire::decode_record(slot, Self::decode_nested)"]
  braces ("impl " ++ item.name) (nested ++ [""] ++ top)

def zeroLines (item : RecordItem) : Lines :=
  defaultLines item.name
    (braces "Self" (item.fields.map fun field => entryLine field.name field.zero))

def lines (item : RecordItem) : Lines :=
  docLines item.docs ++ item.structLines ++ [""] ++
    (if item.hasDecoders then item.decoderLines ++ [""] else []) ++ item.zeroLines

end RecordItem

namespace EnumItem

def declarationLines (item : EnumItem) : Lines :=
  ["#[derive(Debug, Clone, Copy, PartialEq, Eq, Hash)]", "#[repr(u8)]"] ++
    braces ("pub enum " ++ item.name)
      (item.variants.map fun variant => variant.1 ++ " = " ++ toString variant.2.toNat ++ ",")

def caseLine (item : EnumItem) (variant : String × UInt8) : String :=
  toString variant.2.toNat ++ " => Ok(" ++ item.name ++ "::" ++ variant.1 ++ "),"

def failLine (item : EnumItem) : String :=
  "_ => Err(WireError::UnknownDiscriminant \x7b type_name: " ++ quoted item.label ++
    ".to_string(), value \x7d),"

def decoderLines (item : EnumItem) : Lines :=
  let cases := item.variants.map item.caseLine ++ [item.failLine]
  let ofDiscriminant :=
    braces "pub fn try_from_discriminant(value: u8) -> Result<Self, WireError>"
      (braces "match value" cases)
  let discriminant := braces "pub fn discriminant(self) -> u8" ["self as u8"]
  let nested := braces nestedDecoderHead
    ["decoder.read_with(|decoder| Self::try_from_discriminant(decoder.read_u8()?))"]
  let top := braces topDecoderHead ["Self::try_from_discriminant(wire::top_decode_u8(slot)?)"]
  braces ("impl " ++ item.name)
    (ofDiscriminant ++ [""] ++ discriminant ++ [""] ++ nested ++ [""] ++ top)

def zeroLines (item : EnumItem) : Lines :=
  defaultLines item.name [item.name ++ "::" ++ item.default]

def argumentLines (item : EnumItem) : Lines :=
  braces ("impl WireArg for " ++ item.name)
    (braces "fn to_wire_arg(&self) -> String" ["self.discriminant().to_wire_arg()"])

def lines (item : EnumItem) : Lines :=
  docLines item.docs ++ item.declarationLines ++ [""] ++ item.decoderLines ++ [""] ++
    item.zeroLines ++ [""] ++ item.argumentLines

end EnumItem

def OutputItem.lines (item : OutputItem) : Lines :=
  recordAttribute ::
    braces ("pub struct " ++ item.name) (item.fields.map fun field => fieldLine field.1 field.2)

end ContractAbi
