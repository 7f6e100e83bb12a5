import ContractAbi.Bindings.Code
import ContractAbi.ConversionFault
import ContractAbi.Text.Identifier
import ContractAbi.Wire.Codec

/-!
Decoders in generated code: readers of nested values, decoders of whole slots and of groups, and
the statement that decodes one output. The strategy of an output picks the statement; what it
does on failure is left to the runtime function that it calls.
-/
namespace ContractAbi

/-- Reads a value inside other data. -/
inductive NestedReader where
  | scalar (codec : Wire.Codec)
  /-- The reader that a declared type has. -/
  | declared (type : String)
  | list (item : NestedReader)
  /-- Fails with a type that has no place inside other data. -/
  | unsupported (shape : String)
  deriving DecidableEq, Repr

/-- Decodes a slot of its own. -/
inductive SlotDecoder where
  | scalar (codec : Wire.Codec)
  | declared (type : String)
  deriving DecidableEq, Repr

inductive MemberDecoder where
  | slot (decoder : SlotDecoder)
  | packed (item : NestedReader)
  deriving DecidableEq, Repr

/-- Builds a declared composite from the slots of a group. -/
structure GroupDecoder where
  type : String
  members : List MemberDecoder
  deriving DecidableEq, Repr

inductive OutputDecoder where
  | scalar (decoder : SlotDecoder)
  | selfTerminating (item : NestedReader)
  | eachSlot (decoder : SlotDecoder)
  | groups (width : Nat) (decoder : GroupDecoder)
  | group (width : Nat) (decoder : GroupDecoder)
  deriving DecidableEq, Repr

/-- Binds the decoded output `index`, which begins at a slot. -/
structure OutputStatement where
  index : Nat
  firstSlot : Nat
  decoder : OutputDecoder
  deriving DecidableEq, Repr

def NestedReader.ofType : ResolvedType → NestedReader
  | .primitive kind => .scalar kind.codec
  | .record name | .enum name => .declared (Identifier.type name)
  | .tuple name _ => .declared name
  | .list element => .list (ofType element)
  | type => .unsupported type.display

/-- A fault in a type that generated code should decode. -/
def undecodable (type : ResolvedType) (reason : ShapeReason) : ConversionFault :=
  .undecodable .generatedDecoder ⟨type, reason⟩

def SlotDecoder.ofType : ResolvedType → Except ConversionFault SlotDecoder
  | .primitive kind => .ok (.scalar kind.codec)
  | .record name | .enum name => .ok (.declared (Identifier.type name))
  | .tuple name _ => .ok (.declared name)
  | type => .error (undecodable type .notOneSlot)

def MemberDecoder.ofType (type : ResolvedType) : Except ConversionFault MemberDecoder :=
  match type with
  | .list element =>
    if element.isRecordLike then .ok (.packed (NestedReader.ofType element))
    else (SlotDecoder.ofType type).map .slot
  | type => (SlotDecoder.ofType type).map .slot

def GroupDecoder.ofMembers (name : String) (members : List ResolvedType) :
    Except ConversionFault GroupDecoder :=
  return ⟨name, ← members.mapM MemberDecoder.ofType⟩

/-- The decoder of an output, if its strategy fits its type. -/
def OutputDecoder.ofOutput (strategy : Strategy) (type : ResolvedType) :
    Except ConversionFault OutputDecoder :=
  match strategy, type with
  | .scalar, type => return .scalar (← SlotDecoder.ofType type)
  | .selfTerminating, .list element => .ok (.selfTerminating (NestedReader.ofType element))
  | .eachSlot, .list element | .eachSlot, .variadic element =>
    return .eachSlot (← SlotDecoder.ofType element)
  | .groups width, .variadicMulti name members =>
    return .groups width (← GroupDecoder.ofMembers name members)
  | .group width, .multi name members =>
    return .group width (← GroupDecoder.ofMembers name members)
  | _, type => .error (undecodable type .strategyMismatch)

def OutputStatement.ofOutput (index : Nat) (type : ResolvedType) (plan : OutputPlan) :
    Except ConversionFault OutputStatement :=
  return ⟨index, plan.firstSlot, ← OutputDecoder.ofOutput plan.strategy type⟩

/-- The statements for planned outputs from the one at `index` on. -/
def outputStatements (index : Nat) :
    List (ResolvedType × OutputPlan) → Except ConversionFault (List OutputStatement)
  | [] => .ok []
  | (type, plan) :: rest => do
    let statement ← OutputStatement.ofOutput index type plan
    return statement :: (← outputStatements (index + 1) rest)

namespace NestedReader

/-- The reader applied to a variable. -/
def call (decoder : String) : NestedReader → String
  | .scalar codec => decoder ++ ".read_" ++ codec.name ++ "()"
  | .declared type => type ++ "::decode_nested(" ++ decoder ++ ")"
  | .list (.declared type) => decoder ++ ".read_list(" ++ type ++ "::decode_nested)"
  | .list item => decoder ++ ".read_list(|item| " ++ call "item" item ++ ")"
  | .unsupported shape =>
    "Err(WireError::UnsupportedShape \x7b shape: " ++ Code.quoted shape ++ ".to_string() \x7d)"

/-- The reader as a function. -/
def function : NestedReader → String
  | .declared type => type ++ "::decode_nested"
  | reader => "|item| " ++ reader.call "item"

end NestedReader

def SlotDecoder.function : SlotDecoder → String
  | .scalar codec => "wire::top_decode_" ++ codec.name
  | .declared type => type ++ "::top_decode"

def MemberDecoder.text (index : Nat) : MemberDecoder → String
  | .slot decoder => decoder.function ++ "(&group[" ++ toString index ++ "])?"
  | .packed item =>
    "wire::decode_self_terminating(&group[" ++ toString index ++ "], " ++ item.function ++ ")"

/-- The function from a group of slots to the composite. -/
def GroupDecoder.function (decoder : GroupDecoder) : String :=
  let fields := decoder.members.mapIdx fun index member =>
    memberName index ++ ": " ++ member.text index
  "|group| Ok(" ++ Code.inlineBraces decoder.type fields ++ ")"

def OutputDecoder.text (slot : Nat) : OutputDecoder → String
  | .scalar decoder => "data.scalar(" ++ toString slot ++ ", " ++ decoder.function ++ ")?"
  | .selfTerminating item =>
    "data.self_terminating(" ++ toString slot ++ ", " ++ item.function ++ ")"
  | .eachSlot decoder => "data.each_slot(" ++ toString slot ++ ", " ++ decoder.function ++ ")"
  | .groups width decoder =>
    "data.groups(" ++ toString slot ++ ", " ++ toString width ++ ", " ++ decoder.function ++ ")"
  | .group width decoder =>
    "data.group(" ++ toString slot ++ ", " ++ toString width ++ ", " ++ decoder.function ++ ")?"

def outputVariable (index : Nat) : String :=
  "out" ++ toString index

def OutputStatement.line (statement : OutputStatement) : String :=
  "let " ++ outputVariable statement.index ++ " = " ++
    statement.decoder.text statement.firstSlot ++ ";"

end ContractAbi
