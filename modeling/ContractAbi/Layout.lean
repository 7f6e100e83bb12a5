import ContractAbi.ResolvedType

/-!
How the outputs of an endpoint lie in the slots that a query returns. The shape of an output alone
decides the strategy; outputs take their slots from left to right, and nothing may follow an
output that takes every slot to the end.
-/
namespace ContractAbi

inductive ShapeReason where
  | notOneSlot
  | listOfLists
  | multiValueInRecord
  | groupList
  | afterRepeating
  | strategyMismatch
  | undecodable (label : String)
  deriving DecidableEq, Repr

def ShapeReason.message : ShapeReason → String
  | .notOneSlot => "value does not fit a single return slot"
  | .listOfLists => "nested lists of lists are not decodable"
  | .multiValueInRecord => "multi-value types cannot appear inside a record"
  | .groupList => "only lists of records can be decoded from one group slot"
  | .afterRepeating => "output follows a repeating output"
  | .strategyMismatch => "strategy does not match the output shape"
  | .undecodable label => label

/-- A type stands where no value of it can be decoded. -/
structure ShapeFault where
  type : ResolvedType
  reason : ShapeReason
  deriving DecidableEq, Repr

def ShapeFault.message (fault : ShapeFault) : String :=
  "unsupported decode shape '" ++ fault.type.display ++ "': " ++ fault.reason.message

mutual

/-- A value that can sit inside a record at a byte offset. -/
def checkNested : ResolvedType → Except ShapeFault Unit
  | .primitive _ | .enum _ | .record _ => .ok ()
  | .tuple _ members => checkNestedAll members
  | .list (.list element) => .error ⟨.list (.list element), .listOfLists⟩
  | .list element => checkNested element
  | type => .error ⟨type, .multiValueInRecord⟩

def checkNestedAll : List ResolvedType → Except ShapeFault Unit
  | [] => .ok ()
  | member :: rest => do
    checkNested member
    checkNestedAll rest

end

/-- A value that fills one whole slot. -/
def checkTopLevel : ResolvedType → Except ShapeFault Unit
  | .primitive _ | .enum _ | .record _ => .ok ()
  | .tuple _ members => checkNestedAll members
  | type => .error ⟨type, .notOneSlot⟩

/-- A member of a group: one slot, in which a list of records may be packed. -/
def checkGroupMember : ResolvedType → Except ShapeFault Unit
  | .list element =>
    if element.isRecordLike then checkNested element else .error ⟨.list element, .groupList⟩
  | type => checkTopLevel type

def checkGroup : List ResolvedType → Except ShapeFault Unit
  | [] => .ok ()
  | member :: rest => do
    checkGroupMember member
    checkGroup rest

inductive Strategy where
  /-- One value in one slot; a failure ends the call. -/
  | scalar
  /-- Records back to back in one slot; the first incomplete one ends the list. -/
  | selfTerminating
  /-- One value in each slot to the end; failing slots are skipped. -/
  | eachSlot
  /-- A value in each `width` slots to the end; failing and incomplete groups are skipped. -/
  | groups (width : Nat)
  /-- One value over `width` slots; a failure ends the call. -/
  | group (width : Nat)
  deriving DecidableEq, Repr

namespace Strategy

def select : ResolvedType → Except ShapeFault Strategy
  | .list element =>
    if element.isRecordLike then do
      checkNested element
      return .selfTerminating
    else do
      checkTopLevel element
      return .eachSlot
  | .variadic element => do
    checkTopLevel element
    return .eachSlot
  | .variadicMulti _ members => do
    checkGroup members
    return .groups members.length
  | .multi _ members => do
    checkGroup members
    return .group members.length
  | type => do
    checkTopLevel type
    return .scalar

/-- Repeating strategies read every slot to the end of the array. -/
def isRepeating : Strategy → Bool
  | .eachSlot | .groups _ => true
  | _ => false

/-- The number of slots that a strategy of fixed extent takes. -/
def span? : Strategy → Option Nat
  | .scalar | .selfTerminating => some 1
  | .group width => some width
  | .eachSlot | .groups _ => none

def label : Strategy → String
  | .scalar => "scalar"
  | .selfTerminating => "self-terminating"
  | .eachSlot => "each-slot"
  | .groups _ => "groups"
  | .group _ => "group"

end Strategy

/-- Where one output lies in the slot array. -/
structure OutputPlan where
  strategy : Strategy
  firstSlot : Nat
  deriving DecidableEq, Repr

/-- Plans outputs from a slot on; `none` stands for the position after a repeating output. -/
def planFrom (cursor : Option Nat) : List ResolvedType → Except ShapeFault (List OutputPlan)
  | [] => .ok []
  | output :: rest =>
    match cursor with
    | none => .error ⟨output, .afterRepeating⟩
    | some slot => do
      let strategy ← Strategy.select output
      let plans ← planFrom (strategy.span?.map (slot + ·)) rest
      return ⟨strategy, slot⟩ :: plans

def planOutputs (outputs : List ResolvedType) : Except ShapeFault (List OutputPlan) :=
  planFrom (some 0) outputs

end ContractAbi
