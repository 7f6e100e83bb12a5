import ContractAbi.Layout
import ContractAbi.ResolvedType
import ContractAbi.ReturnData
import ContractAbi.Value

/-!
Decoding the outputs of an endpoint straight from their types. Declarations and places in the
slots are checked before any slot is looked at.
-/
namespace ContractAbi

inductive ReflectionFault where
  | unknownType (endpoint type : String)
  | shape (endpoint : String) (fault : ShapeFault)
  | binding (fault : BindingFault)
  deriving DecidableEq, Repr

namespace ReflectionFault

def message : ReflectionFault → String
  | .unknownType endpoint type =>
    "type '" ++ type ++ "' referenced by '" ++ endpoint ++ "' is not declared"
  | .shape endpoint fault =>
    "endpoint '" ++ endpoint ++ "' has an undecodable output: " ++ fault.message
  | .binding fault => fault.message

/-- The messages of what lies under the fault. -/
def causes : ReflectionFault → List String
  | .unknownType _ _ => []
  | .shape _ fault => [fault.message]
  | .binding fault => fault.causes

end ReflectionFault

namespace Catalog

mutual

/-- The first named type or tuple in a type that the catalog does not declare. -/
def undeclared? (catalog : Catalog) : ResolvedType → Option String
  | .primitive _ => none
  | .record name => if catalog.records.contains name then none else some name
  | .enum name => if catalog.enums.contains name then none else some name
  | .list element | .variadic element => undeclared? catalog element
  | .tuple name members =>
    if catalog.composites.contains name then undeclaredMember? catalog members else some name
  | .variadicMulti _ members | .multi _ members => undeclaredMember? catalog members

def undeclaredMember? (catalog : Catalog) : List ResolvedType → Option String
  | [] => none
  | member :: rest => undeclared? catalog member <|> undeclaredMember? catalog rest

end

/-- The variant with a discriminant. -/
def enumValue (catalog : Catalog) (name : String) (discriminant : UInt8) :
    Except Wire.Fault Value :=
  match catalog.enums.get? name with
  | none => .error (.undeclaredType name)
  | some variants =>
    match variants.find? (·.discriminant = discriminant) with
    | some variant => .ok (.enum name variant.name discriminant)
    | none => .error (.unknownDiscriminant name discriminant)

mutual

/-- Reads a value inside other data, given a way to read records by name. -/
def readType (catalog : Catalog) (readNamed : String → Wire.Reader Value) :
    ResolvedType → Wire.Reader Value
  | .primitive kind => return .scalar (← kind.codec.read)
  | .enum name => do catalog.enumValue name (← Wire.readByte)
  | .record name => readNamed name
  | .tuple name members => return .record name (← readMembers catalog readNamed 0 members)
  | .list element => return .list (← Wire.readList (readType catalog readNamed element))
  | type => throw (.unsupportedShape type.display)

/-- Reads the members of a tuple from the one at `index` on. -/
def readMembers (catalog : Catalog) (readNamed : String → Wire.Reader Value) (index : Nat) :
    List ResolvedType → Wire.Reader (List (String × Value))
  | [] => return []
  | member :: rest => do
    let value ← readType catalog readNamed member
    return (memberName index, value) :: (← readMembers catalog readNamed (index + 1) rest)

end

/-- Reads the fields of a record into those read before. -/
def readFields (catalog : Catalog) (readNamed : String → Wire.Reader Value)
    (values : List (String × Value)) : List Field → Wire.Reader (List (String × Value))
  | [] => return values
  | field :: rest => do
    let value ← readType catalog readNamed field.type
    readFields catalog readNamed (putEntry field.name value values) rest

/-- Reads a declared record in which records are nested at most `nesting` deep. Deeper records are
reported as endless, which for the limit below they are: a reading that reaches it never ends. -/
def readRecord (catalog : Catalog) (nesting : Nat) (name : String) : Wire.Reader Value :=
  match catalog.records.get? name with
  | none => throw (.undeclaredType name)
  | some fields =>
    match nesting with
    | 0 => throw (.endlessType name)
    | nesting + 1 => return .record name (← readFields catalog (readRecord catalog nesting) [] fields)

/-- The depth that nested records can reach in some bytes: between two bytes that are read, no
record is entered twice, unless it begins with itself and is entered for ever. -/
def nestingLimit (catalog : Catalog) (bytes : Bytes) : Nat :=
  (bytes.length + 1) * catalog.records.size

/-- Reads a value inside other data. -/
def read (catalog : Catalog) (type : ResolvedType) : Wire.Reader Value := fun bytes =>
  readType catalog (readRecord catalog (catalog.nestingLimit bytes)) type bytes

/-- Decodes a value from a slot of its own. -/
def decodeSlot (catalog : Catalog) (type : ResolvedType) (slot : Bytes) :
    Except Wire.Fault Value :=
  match type with
  | .primitive kind => return .scalar (← kind.codec.top slot)
  | .enum name => do catalog.enumValue name (UInt8.ofNat (← Wire.topWord .u8 slot))
  | .record _ | .tuple _ _ => Wire.topRead (catalog.read type) slot
  | type => .error (.unsupportedShape type.display)

/-- Decodes the packed elements of a list of records. -/
def decodePacked (catalog : Catalog) (element : ResolvedType) (slot : Bytes) : Value :=
  .list (Wire.packed (catalog.read element) slot)

/-- Decodes a member of a group from its slot. -/
def decodeMember (catalog : Catalog) (type : ResolvedType) (slot : Bytes) :
    Except Wire.Fault Value :=
  match type with
  | .list element =>
    if element.isRecordLike then .ok (catalog.decodePacked element slot)
    else catalog.decodeSlot type slot
  | type => catalog.decodeSlot type slot

/-- Decodes members from the one at `index` on, one in each slot. -/
def decodeMembers (catalog : Catalog) (index : Nat) :
    List ResolvedType → List Bytes → Except Wire.Fault (List (String × Value))
  | member :: members, slot :: slots => do
    let value ← catalog.decodeMember member slot
    return (memberName index, value) :: (← decodeMembers catalog (index + 1) members slots)
  | _, _ => .ok []

/-- Decodes one group of slots. -/
def decodeGroup (catalog : Catalog) (name : String) (members : List ResolvedType)
    (group : List Bytes) : Except Wire.Fault Value :=
  return .record name (← catalog.decodeMembers 0 members group)

/-- Decodes one planned output. -/
def decodeOutput (catalog : Catalog) (data : ReturnData) (type : ResolvedType) (plan : OutputPlan) :
    Except ReflectionFault Value :=
  match plan.strategy, type with
  | .scalar, type => (data.scalar plan.firstSlot (catalog.decodeSlot type)).mapError .binding
  | .selfTerminating, .list element =>
    .ok (.list (data.selfTerminating plan.firstSlot (catalog.read element)))
  | .eachSlot, .list element | .eachSlot, .variadic element =>
    .ok (.list (data.eachSlot plan.firstSlot (catalog.decodeSlot element)))
  | .groups width, .variadicMulti name members =>
    .ok (.list (data.groups plan.firstSlot width (catalog.decodeGroup name members)))
  | .group width, .multi name members =>
    (data.group plan.firstSlot width (catalog.decodeGroup name members)).mapError .binding
  | strategy, type => .error (.shape data.endpoint ⟨type, .undecodable strategy.label⟩)

def decodePlanned (catalog : Catalog) (data : ReturnData) :
    List (ResolvedType × OutputPlan) → Except ReflectionFault (List Value)
  | [] => .ok []
  | (type, plan) :: rest => do
    let value ← catalog.decodeOutput data type plan
    return value :: (← decodePlanned catalog data rest)

/-- Decodes every output of a call, in order. -/
def decodeOutputs (catalog : Catalog) (endpoint : String) (outputs : List ResolvedType)
    (slots : List Bytes) : Except ReflectionFault (List Value) :=
  match catalog.undeclaredMember? outputs with
  | some type => .error (.unknownType endpoint type)
  | none =>
    match planOutputs outputs with
    | .error fault => .error (.shape endpoint fault)
    | .ok plans => catalog.decodePlanned ⟨endpoint, slots⟩ (outputs.zip plans)

end Catalog
end ContractAbi
