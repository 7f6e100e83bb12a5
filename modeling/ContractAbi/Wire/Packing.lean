import ContractAbi.Wire.Codec

/-!
Lists inside slots. A counted list has its length in front; a packed list has none and runs as far
as its slot holds complete items.
-/
namespace ContractAbi.Wire

def readTimes (item : Reader α) : Nat → Reader (List α)
  | 0 => return []
  | count + 1 => do
    let value ← item
    return value :: (← readTimes item count)

/-- A list behind the number of its items. -/
def readList (item : Reader α) : Reader (List α) := do
  readTimes item (← readWord .u32)

/-- The items back to back at the front of a slot. The first place at which no item can be read,
or none that takes a byte, ends the list. -/
def packed (item : Reader α) (slot : Bytes) : List α :=
  match item slot with
  | .error _ => []
  | .ok (value, rest) => if rest.length < slot.length then value :: packed item rest else []
termination_by slot.length

/-- Reads a value from the front of a slot and passes over what is left. -/
def topRead (read : Reader α) (slot : Bytes) : Except Fault α :=
  (read slot).map (·.1)

/-- What to read inside other data. -/
inductive NestedSpec where
  | scalar (codec : Codec)
  | nothing
  | list (item : NestedSpec)
  | record (members : List NestedSpec)
  deriving Repr, Inhabited

/-- How to decode a whole slot. -/
inductive TopSpec where
  | scalar (codec : Codec)
  | packed (item : NestedSpec)
  | whole (spec : NestedSpec)
  deriving Repr, Inhabited

/-- What a specification reads. -/
inductive Datum where
  | scalar (value : Scalar)
  | nothing
  | items (values : List Datum)
  deriving Repr, Inhabited

mutual

def NestedSpec.read : NestedSpec → Reader Datum
  | .scalar codec => return .scalar (← codec.read)
  | .nothing => return .nothing
  | .list item => return .items (← readList item.read)
  | .record members => return .items (← readMembers members)

def NestedSpec.readMembers : List NestedSpec → Reader (List Datum)
  | [] => return []
  | member :: rest => do
    let value ← member.read
    return value :: (← readMembers rest)

end

def TopSpec.decode : TopSpec → Bytes → Except Fault Datum
  | .scalar codec, slot => return .scalar (← codec.top slot)
  | .packed item, slot => .ok (.items (Wire.packed item.read slot))
  | .whole spec, slot => topRead spec.read slot

end ContractAbi.Wire
