import ContractAbi.Wire.Packing

/-!
A cursor over the bytes of a slot. A read of several steps moves the cursor with each of them and
puts it back if one fails, so the next read starts where the failed one did.
-/
namespace ContractAbi.Wire

/-- A place in some bytes. -/
structure Cursor where
  data : Bytes
  offset : Nat
  deriving DecidableEq, Repr

namespace Cursor

def start (data : Bytes) : Cursor := ⟨data, 0⟩

/-- The bytes that are not read yet. -/
def rest (cursor : Cursor) : Bytes :=
  cursor.data.drop cursor.offset

def remaining (cursor : Cursor) : Nat :=
  cursor.data.length - cursor.offset

end Cursor

/-- A read on a cursor, which stands somewhere afterwards whether or not the read succeeds. -/
abbrev Scan := EStateM Fault Cursor

namespace Scan

/-- Takes the next `needed` bytes. -/
def take (needed : Nat) : Scan Bytes := fun cursor =>
  if cursor.remaining < needed then .error (.insufficientData needed cursor.remaining) cursor
  else .ok (cursor.rest.take needed) { cursor with offset := cursor.offset + needed }

/-- Puts the cursor back to where the read started if the read fails. -/
def atomic (read : Scan α) : Scan α := fun cursor =>
  match read cursor with
  | .ok value after => .ok value after
  | .error fault after => .error fault { after with offset := cursor.offset }

/-- A check of what was read, which takes nothing. -/
def check (result : Except Fault α) : Scan α := fun cursor =>
  match result with
  | .ok value => .ok value cursor
  | .error fault => .error fault cursor

def word (size : Word) : Scan Nat := do
  return naturalOf (← take size.width)

def byte : Scan UInt8 := do
  return UInt8.ofNat (← word .u8)

/-- Bytes behind their length. -/
def payload : Scan Bytes := do
  take (← word .u32)

def times (item : Scan α) : Nat → Scan (List α)
  | 0 => return []
  | count + 1 => do
    let value ← item
    return value :: (← times item count)

/-- A list behind the number of its items. -/
def list (item : Scan α) : Scan (List α) :=
  atomic do times item (← word .u32)

end Scan

/-- Reads a scalar on a cursor. -/
def Codec.scan : Codec → Scan Scalar
  | .bool => Scan.atomic do Scan.check (boolOf (← Scan.byte))
  | .word size => return .unsigned (← Scan.word size)
  | .natural => Scan.atomic do return .integer (naturalOf (← Scan.payload))
  | .integer => Scan.atomic do return .integer (integerOf (← Scan.payload))
  | .text => Scan.atomic do return .text (← Scan.check (textOf (← Scan.atomic Scan.payload)))
  | .bytes => return .bytes (← Scan.atomic Scan.payload)
  | .address => return .address (← Scan.take addressLength)

mutual

/-- Reads what a specification asks for on a cursor. -/
def NestedSpec.scan : NestedSpec → Scan Datum
  | .scalar codec => return .scalar (← codec.scan)
  | .nothing => return .nothing
  | .list item => return .items (← Scan.list item.scan)
  | .record members => Scan.atomic do return .items (← scanMembers members)

def NestedSpec.scanMembers : List NestedSpec → Scan (List Datum)
  | [] => return []
  | member :: rest => do
    let value ← member.scan
    return value :: (← scanMembers rest)

end

/-- One read of a sequence: what it asked for, what came of it and how it moved the cursor. -/
structure Attempt where
  spec : NestedSpec
  before : Cursor
  result : Except Fault Datum
  after : Cursor

def Attempt.succeeded (attempt : Attempt) : Bool :=
  attempt.result.isOk

namespace Cursor

def attempt (cursor : Cursor) (spec : NestedSpec) : Attempt :=
  match spec.scan cursor with
  | .ok value after => ⟨spec, cursor, .ok value, after⟩
  | .error fault after => ⟨spec, cursor, .error fault, after⟩

/-- Reads one specification after the other and goes on after failures. -/
def attempts (cursor : Cursor) : List NestedSpec → List Attempt
  | [] => []
  | spec :: rest =>
    let attempt := cursor.attempt spec
    attempt :: attempt.after.attempts rest

end Cursor
end ContractAbi.Wire
