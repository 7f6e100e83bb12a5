import ContractAbi.Json.Tree
import ContractAbi.NameMap
import ContractAbi.Wire.Codec

/-!
Decoded values. Tuples and groups are records too, with the fields `var0`, `var1` and so on.
-/
namespace ContractAbi

inductive Value where
  | scalar (value : Wire.Scalar)
  | enum (type variant : String) (discriminant : UInt8)
  | record (type : String) (fields : List (String × Value))
  | list (elements : List Value)
  deriving Repr, Inhabited

namespace Value

/-- Induction on a value in which its parts are given together. -/
@[elab_as_elim]
theorem memberInduction {motive : Value → Prop} (scalar : ∀ value, motive (.scalar value))
    (enum : ∀ type variant discriminant, motive (.enum type variant discriminant))
    (record : ∀ type fields, (∀ entry ∈ fields, motive entry.2) → motive (.record type fields))
    (list : ∀ elements, (∀ element ∈ elements, motive element) → motive (.list elements))
    (value : Value) : motive value :=
  Value.rec (motive_1 := motive) (motive_2 := fun fields => ∀ entry ∈ fields, motive entry.2)
    (motive_3 := fun elements => ∀ element ∈ elements, motive element)
    (motive_4 := fun entry => motive entry.2) scalar enum record list
    (fun _ h => absurd h List.not_mem_nil)
    (fun _ _ he hrest _ h => (List.mem_cons.1 h).elim (fun heq => heq ▸ he) (hrest _))
    (fun _ h => absurd h List.not_mem_nil)
    (fun _ _ he hrest _ h => (List.mem_cons.1 h).elim (fun heq => heq ▸ he) (hrest _))
    (fun _ _ h => h) value

/-- The value of a word. -/
def unsigned? : Value → Option Nat
  | .scalar (.unsigned n) => some n
  | _ => none

/-- The text of a string or a big integer. -/
def text? : Value → Option String
  | .scalar (.text s) => some s
  | .scalar (.integer i) => some (toString i)
  | _ => none

def elements? : Value → Option (List Value)
  | .list elements => some elements
  | _ => none

def field? (value : Value) (name : String) : Option Value :=
  match value with
  | .record _ fields => fields.lookup name
  | _ => none

end Value

def Wire.Scalar.json : Wire.Scalar → Json
  | .bool value => .object [("kind", .text "bool"), ("value", .bool value)]
  | .unsigned value => .object [("kind", .text "unsigned"), ("value", .natural value)]
  | .integer value => .object [("kind", .text "big-integer"), ("value", .text (toString value))]
  | .text value => .object [("kind", .text "text"), ("value", .text value)]
  | .bytes value => .object [("kind", .text "bytes"), ("hex", .text (Hex.text value))]
  | .address value => .object [("kind", .text "address"), ("hex", .text (Hex.text value))]

mutual

def Value.json : Value → Json
  | .scalar value => value.json
  | .enum type variant discriminant =>
    .object [("kind", .text "enum"), ("type_name", .text type), ("variant", .text variant),
      ("discriminant", .natural discriminant.toNat)]
  | .record type fields =>
    .object [("kind", .text "record"), ("type_name", .text type),
      ("fields", .object (Value.jsonOfFields fields))]
  | .list elements =>
    .object [("kind", .text "list"), ("elements", .array (Value.jsonOfElements elements))]

def Value.jsonOfFields : List (String × Value) → List (String × Json)
  | [] => []
  | (name, value) :: rest => (name, value.json) :: Value.jsonOfFields rest

def Value.jsonOfElements : List Value → List Json
  | [] => []
  | value :: rest => value.json :: Value.jsonOfElements rest

end

end ContractAbi
