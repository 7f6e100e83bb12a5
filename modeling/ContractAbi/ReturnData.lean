import ContractAbi.Wire.Packing

/-!
The slots that a query returns, with one function for each way in which values lie in them. Each
has its own answer to a failure: a scalar or a single group ends the call, repeated values skip
what fails, and a packed list ends there.
-/
namespace ContractAbi

structure TransportFault where
  message : String
  /-- The message of what lies under the fault. -/
  source : Option String
  deriving DecidableEq, Repr

inductive BindingFault where
  | transport (fault : TransportFault)
  | invalidResponse (endpoint : String) (slot : Nat) (cause : Wire.Fault)
  | callFailed (endpoint transaction reason : String)
  deriving DecidableEq, Repr

namespace BindingFault

def message : BindingFault → String
  | .transport fault => "transport error: " ++ fault.message
  | .invalidResponse endpoint slot cause =>
    "invalid response from '" ++ endpoint ++ "' at slot " ++ toString slot ++ ": " ++ cause.message
  | .callFailed endpoint transaction reason =>
    "call to '" ++ endpoint ++ "' failed in transaction " ++ transaction ++ ": " ++ reason

/-- The messages of what lies under the fault. -/
def causes : BindingFault → List String
  | .transport fault => fault.source.toList
  | .invalidResponse _ _ cause => [cause.message]
  | .callFailed _ _ _ => []

end BindingFault

structure ReturnData where
  endpoint : String
  slots : List Bytes
  deriving DecidableEq, Repr

namespace ReturnData

/-- The slot at an index, which must have been returned. -/
def slot (data : ReturnData) (index : Nat) : Except BindingFault Bytes :=
  match data.slots[index]? with
  | some slot => .ok slot
  | none =>
    .error (.invalidResponse data.endpoint index (.missingSlot index data.slots.length))

/-- Decodes with the slot to blame for a failure. -/
def blame (data : ReturnData) (index : Nat) (result : Except Wire.Fault α) :
    Except BindingFault α :=
  result.mapError (.invalidResponse data.endpoint index)

/-- One value in one slot. -/
def scalar (data : ReturnData) (index : Nat) (decode : Bytes → Except Wire.Fault α) :
    Except BindingFault α := do
  let slot ← data.slot index
  data.blame index (decode slot)

/-- The values packed into one slot; an absent slot holds none. -/
def selfTerminating (data : ReturnData) (index : Nat) (item : Wire.Reader α) : List α :=
  match data.slots[index]? with
  | some slot => Wire.packed item slot
  | none => []

/-- One value in each slot to the end. -/
def eachSlot (data : ReturnData) (start : Nat) (decode : Bytes → Except Wire.Fault α) : List α :=
  (data.slots.drop start).filterMap fun slot => (decode slot).toOption

/-- The complete groups of `width` slots at the front of some slots. -/
def completeGroups (width : Nat) (slots : List Bytes) : List (List Bytes) :=
  if 0 < width ∧ width ≤ slots.length then
    slots.take width :: completeGroups width (slots.drop width)
  else []
termination_by slots.length
decreasing_by
  simp only [List.length_drop]
  omega

/-- A value in each `width` slots to the end. -/
def groups (data : ReturnData) (start width : Nat)
    (decode : List Bytes → Except Wire.Fault α) : List α :=
  (completeGroups width (data.slots.drop start)).filterMap fun group => (decode group).toOption

/-- One value over `width` slots, all of which must have been returned. -/
def group (data : ReturnData) (start width : Nat) (decode : List Bytes → Except Wire.Fault α) :
    Except BindingFault α :=
  if data.slots.length < start + width then
    let missing := max data.slots.length start
    .error (.invalidResponse data.endpoint missing (.missingSlot missing data.slots.length))
  else data.blame start (decode ((data.slots.drop start).take width))

end ReturnData
end ContractAbi
