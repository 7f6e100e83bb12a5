/-!
JSON values. Objects keep their members in order, repeated names included, and numbers keep their
spelling, so that the same text can be written again.
-/
namespace ContractAbi

inductive Json where
  | null
  | bool (value : Bool)
  | number (lexeme : String)
  | text (value : String)
  | array (items : List Json)
  | object (members : List (String × Json))
  /-- A value that can be passed over but not read: a text or an object name with half of a
  surrogate pair, or a number beyond the range of doubles. -/
  | damaged
  deriving Repr, Inhabited

namespace Json

def natural (n : Nat) : Json := .number (toString n)

def texts (lines : List String) : Json := .array (lines.map .text)

/-- A text, or null where there is none. -/
def optional (value : Option String) : Json :=
  match value with
  | some s => .text s
  | none => .null

/-- The value of a number written with digits alone. -/
def natural? : Json → Option Nat
  | .number lexeme => if lexeme.toList.all Char.isDigit then lexeme.toNat? else none
  | _ => none

def text? : Json → Option String
  | .text value => some value
  | _ => none

def bool? : Json → Option Bool
  | .bool value => some value
  | _ => none

def items? : Json → Option (List Json)
  | .array items => some items
  | _ => none

def members? : Json → Option (List (String × Json))
  | .object members => some members
  | _ => none

/-- The first member of that name; null counts as absent. -/
def member? (value : Json) (name : String) : Option Json :=
  match value.members?.bind (·.lookup name) with
  | some .null => none
  | found => found

end Json
end ContractAbi
