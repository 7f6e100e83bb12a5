import ContractAbi.Proofs.DecoderBodies
import ContractAbi.Reflection

/-!
# Running generated decoders

The decoders that are read from a generated file run over the wire format. A declared decoder
function is known by its body alone, so the functions of a file are any that solve the equations of
its bodies. What generated code builds has identifiers where a decoded value has names.
-/
namespace ContractAbi

/-- What generated code builds. -/
inductive Built where
  | scalar (value : Wire.Scalar)
  | variant (type variant : String)
  | struct (type : String) (fields : List (String × Built))
  | list (elements : List Built)
  deriving Repr, Inhabited

/-- The decoder functions of the declared types. -/
structure Decoders where
  nested : String → Wire.Reader Built
  top : String → Bytes → Except Wire.Fault Built

def NestedReader.run (decoders : Decoders) : NestedReader → Wire.Reader Built
  | .scalar codec => return .scalar (← codec.read)
  | .declared type => decoders.nested type
  | .list item => return .list (← Wire.readList (item.run decoders))
  | .unsupported shape => throw (.unsupportedShape shape)

def SlotDecoder.run (decoders : Decoders) : SlotDecoder → Bytes → Except Wire.Fault Built
  | .scalar codec, slot => return .scalar (← codec.top slot)
  | .declared type, slot => decoders.top type slot

def MemberDecoder.run (decoders : Decoders) : MemberDecoder → Bytes → Except Wire.Fault Built
  | .slot decoder, bytes => decoder.run decoders bytes
  | .packed item, bytes => .ok (.list (Wire.packed (item.run decoders) bytes))

namespace GroupDecoder

/-- The members from the one at `index` on, each built from its slot of the group. -/
def runMembers (decoders : Decoders) (index : Nat) :
    List MemberDecoder → List Bytes → Except Wire.Fault (List (String × Built))
  | member :: members, slot :: slots => do
    let value ← member.run decoders slot
    return (memberName index, value) :: (← runMembers decoders (index + 1) members slots)
  | _, _ => .ok []

def run (decoders : Decoders) (decoder : GroupDecoder) (group : List Bytes) :
    Except Wire.Fault Built :=
  return .struct decoder.type (← runMembers decoders 0 decoder.members group)

end GroupDecoder

def OutputDecoder.run (decoders : Decoders) (data : ReturnData) (slot : Nat) :
    OutputDecoder → Except BindingFault Built
  | .scalar decoder => data.scalar slot (decoder.run decoders)
  | .selfTerminating item => .ok (.list (data.selfTerminating slot (item.run decoders)))
  | .eachSlot decoder => .ok (.list (data.eachSlot slot (decoder.run decoders)))
  | .groups width decoder => .ok (.list (data.groups slot width (decoder.run decoders)))
  | .group width decoder => data.group slot width (decoder.run decoders)

/-- Runs statements in order and gives what each binds; the first fault ends the run. -/
def Decoders.runStatements (decoders : Decoders) (data : ReturnData) :
    List OutputStatement → Except BindingFault (List (Nat × Built))
  | [] => .ok []
  | statement :: rest => do
    let value ← statement.decoder.run decoders data statement.firstSlot
    return (statement.index, value) :: (← decoders.runStatements data rest)

namespace DecoderItem

def type : DecoderItem → String
  | .record type _ => type
  | .enum type _ _ => type

def readEntries (decoders : Decoders) :
    List (String × NestedReader) → Wire.Reader (List (String × Built))
  | [] => return []
  | (name, reader) :: rest => do
    let value ← reader.run decoders
    return (name, value) :: (← readEntries decoders rest)

/-- The variant of the first case with the discriminant. -/
def variantOf (type label : String) (cases : List (UInt8 × String)) (discriminant : UInt8) :
    Except Wire.Fault Built :=
  match cases.find? (·.1 = discriminant) with
  | some case => .ok (.variant type case.2)
  | none => .error (.unknownDiscriminant label discriminant)

/-- The body of the decoder of values inside other data. -/
def nestedBody (decoders : Decoders) : DecoderItem → Wire.Reader Built
  | .record type fields => return .struct type (← readEntries decoders fields)
  | .enum type label cases => do variantOf type label cases (← Wire.readByte)

/-- The body of the decoder of whole slots. -/
def topBody (decoders : Decoders) : DecoderItem → Bytes → Except Wire.Fault Built
  | .record type _, slot => Wire.topRead (decoders.nested type) slot
  | .enum type label cases, slot => do
    variantOf type label cases (UInt8.ofNat (← Wire.topWord .u8 slot))

/-- The functions of the type do what their bodies say. -/
structure Holds (item : DecoderItem) (decoders : Decoders) : Prop where
  nested : decoders.nested item.type = item.nestedBody decoders
  top : decoders.top item.type = item.topBody decoders

end DecoderItem

/-- The functions do what the bodies in the file say. -/
def SourceFile.Defines (file : SourceFile) (decoders : Decoders) : Prop :=
  ∀ item ∈ file.decoders, item.Holds decoders

namespace Catalog

/-- The declarations of records and composites. -/
def structs (catalog : Catalog) : List (String × List Field) :=
  catalog.records.entries ++ catalog.composites.entries

mutual

/-- The value that generated code has built: a struct is the record with its identifier and the
same fields in order, and a variant is the one with its identifier in the enum. -/
def valueOf? (catalog : Catalog) : Built → Option Value
  | .scalar value => some (.scalar value)
  | .variant type variant => do
    let entry ← catalog.enums.entries.find? (Identifier.type ·.1 = type)
    let variant ← entry.2.find? (Identifier.type ·.name = variant)
    return .enum entry.1 variant.name variant.discriminant
  | .struct type fields => do
    let entry ← catalog.structs.find? (Identifier.type ·.1 = type)
    return .record entry.1 (← fieldValues? catalog entry.2 fields)
  | .list elements => (elementValues? catalog elements).map .list

def fieldValues? (catalog : Catalog) :
    List Field → List (String × Built) → Option (List (String × Value))
  | [], [] => some []
  | field :: fields, (name, part) :: parts =>
    if name = Identifier.field field.name then do
      let value ← valueOf? catalog part
      return (field.name, value) :: (← fieldValues? catalog fields parts)
    else none
  | _, _ => none

def elementValues? (catalog : Catalog) : List Built → Option (List Value)
  | [] => some []
  | element :: elements => do
    let value ← valueOf? catalog element
    return value :: (← elementValues? catalog elements)

end

end Catalog

namespace Built

mutual

/-- What generated code builds for a value. -/
def ofValue : Value → Built
  | .scalar value => .scalar value
  | .enum type name _ => .variant (Identifier.type type) (Identifier.type name)
  | .record type fields => .struct (Identifier.type type) (ofFields fields)
  | .list elements => .list (ofElements elements)

def ofFields : List (String × Value) → List (String × Built)
  | [] => []
  | (name, value) :: rest => (Identifier.field name, ofValue value) :: ofFields rest

def ofElements : List Value → List Built
  | [] => []
  | value :: rest => ofValue value :: ofElements rest

end

end Built
end ContractAbi
