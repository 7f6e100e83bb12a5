import ContractAbi.Bindings.Code
import ContractAbi.ResolvedType
import ContractAbi.Text.Identifier

/-!
The statements that flatten one parameter into the arguments of a call: one argument for each
primitive or enum in it, in declaration order, with a loop for each list.
-/
namespace ContractAbi

/-- A variable, or a field reached from one. -/
structure Place where
  root : String
  fields : List String
  deriving DecidableEq, Repr, Inhabited

namespace Place

def field (place : Place) (name : String) : Place :=
  { place with fields := place.fields ++ [name] }

def text (place : Place) : String :=
  ".".intercalate (place.root :: place.fields)

end Place

inductive EncodeStatement where
  /-- Appends one argument. -/
  | push (place : Place)
  /-- Runs the body for each element of a list. -/
  | forEach (item : String) (source : Place) (body : List EncodeStatement)
  deriving Repr, Inhabited

mutual

def EncodeStatement.lines : EncodeStatement → Code.Lines
  | .push place => ["args.push(" ++ place.text ++ ".to_wire_arg());"]
  | .forEach item source body =>
    Code.braces ("for " ++ item ++ " in " ++ source.text ++ ".iter()")
      (EncodeStatement.linesOf body)

def EncodeStatement.linesOf : List EncodeStatement → Code.Lines
  | [] => []
  | statement :: rest => statement.lines ++ EncodeStatement.linesOf rest

end

/-- Loop variables are numbered by the depth of their loop. -/
def loopVariable (depth : Nat) : String :=
  "item" ++ toString depth

/-- Encodes the fields of a declared type at a place, inside so many loops. -/
abbrev EncodeFields := ResolvedType → Place → (depth : Nat) → List EncodeStatement

namespace ResolvedType

mutual

def encode (encodeFields : EncodeFields) (place : Place) (depth : Nat) :
    ResolvedType → List EncodeStatement
  | .primitive _ | .enum _ => [.push place]
  | .record name => encodeFields (.record name) place depth
  | .tuple name members => encodeFields (.tuple name members) place depth
  | .multi _ members => encodeMembers encodeFields place depth 0 members
  | .list element | .variadic element =>
    let item := loopVariable depth
    [.forEach item place (encode encodeFields ⟨item, []⟩ (depth + 1) element)]
  | .variadicMulti _ members =>
    let item := loopVariable depth
    [.forEach item place (encodeMembers encodeFields ⟨item, []⟩ (depth + 1) 0 members)]

/-- Encodes the members of a group from the one at `index` on. -/
def encodeMembers (encodeFields : EncodeFields) (place : Place) (depth index : Nat) :
    List ResolvedType → List EncodeStatement
  | [] => []
  | member :: rest =>
    encode encodeFields (place.field (memberName index)) depth member ++
      encodeMembers encodeFields place depth (index + 1) rest

end

end ResolvedType

namespace Catalog

/-- Encodes the fields of a record or tuple in which declared types are nested at most so deep. What
lies deeper is left out; beyond the limit below it is inside itself, and its code would have no end. -/
def encodeFields (catalog : Catalog) : (nesting : Nat) → EncodeFields
  | 0, _, _, _ => []
  | nesting + 1, type, place, depth =>
    ((catalog.fieldsOf? type).getD []).flatMap fun field =>
      field.type.encode (catalog.encodeFields nesting) (place.field (Identifier.field field.name))
        depth

/-- The statements for a parameter. Without recursion no more types are nested than declared. -/
def encodeStatements (catalog : Catalog) (place : Place) (type : ResolvedType) :
    List EncodeStatement :=
  type.encode (catalog.encodeFields (catalog.records.size + catalog.composites.size)) place 0

end Catalog
end ContractAbi
