import ContractAbi.TypeExpr.Form

/-!
Type expressions as trees. Every text has a tree: a part that cannot be read becomes a leaf that
carries it, so a reader of the tree meets faults in the order in which they stand in the text.
-/
namespace ContractAbi

inductive TypeExpr where
  | primitive (kind : Primitive)
  | named (name : String)
  | list (element : TypeExpr)
  | variadic (element : TypeExpr)
  | variadicMulti (members : List TypeExpr)
  | multi (members : List TypeExpr)
  | tuple (members : List TypeExpr)
  | unrecognized (fault : TypeExpr.Unrecognized)
  deriving Repr, Inhabited

namespace TypeExpr

/-- Induction on a tree in which the members of an argument list are given together. -/
@[elab_as_elim]
theorem memberInduction {motive : TypeExpr → Prop}
    (primitive : ∀ kind, motive (.primitive kind)) (named : ∀ name, motive (.named name))
    (list : ∀ element, motive element → motive (.list element))
    (variadic : ∀ element, motive element → motive (.variadic element))
    (variadicMulti : ∀ members, (∀ m ∈ members, motive m) → motive (.variadicMulti members))
    (multi : ∀ members, (∀ m ∈ members, motive m) → motive (.multi members))
    (tuple : ∀ members, (∀ m ∈ members, motive m) → motive (.tuple members))
    (unrecognized : ∀ fault, motive (.unrecognized fault)) (tree : TypeExpr) : motive tree :=
  TypeExpr.rec (motive_2 := fun members => ∀ m ∈ members, motive m) primitive named list variadic
    variadicMulti multi tuple unrecognized (fun _ h => absurd h List.not_mem_nil)
    (fun _ _ hm hrest _ h => (List.mem_cons.1 h).elim (fun he => he ▸ hm) (hrest _)) tree

/-- Reads each member of an argument list, given a way to read shorter texts. -/
def ofMembers (inner : List Char) (build : List TypeExpr → TypeExpr)
    (read : (text : List Char) → text.length ≤ inner.length → TypeExpr) : TypeExpr :=
  match h : members? inner with
  | .error fault => .unrecognized fault
  | .ok members => build (members.attach.map fun m => read m.1 (length_member_le h m.1 m.2))

/-- The tree of a type expression. -/
def ofText (text : List Char) : TypeExpr :=
  match h : Form.ofText text with
  | .error fault => .unrecognized fault
  | .ok (.primitive kind) => .primitive kind
  | .ok (.named name) => .named (String.ofList name)
  | .ok (.list inner) =>
    have := Form.length_argument_lt h rfl
    .list (ofText inner)
  | .ok (.variadic inner) =>
    have := Form.length_argument_lt h rfl
    .variadic (ofText inner)
  | .ok (.variadicMulti inner) =>
    have := Form.length_argument_lt h rfl
    ofMembers inner .variadicMulti fun member _ => ofText member
  | .ok (.multi inner) =>
    have := Form.length_argument_lt h rfl
    ofMembers inner .multi fun member _ => ofText member
  | .ok (.tuple inner) =>
    have := Form.length_argument_lt h rfl
    ofMembers inner .tuple fun member _ => ofText member
termination_by text.length

/-- The tree of an expression given as a string. -/
def parse (expression : String) : TypeExpr :=
  ofText expression.toList

end TypeExpr
end ContractAbi
