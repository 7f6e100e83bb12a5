import ContractAbi.Json.Tree

/-!
Writing JSON text: in one line without blanks, or over lines with two blanks a level. A text
escapes quotes, backslashes and control characters and writes all else as it is.
-/
namespace ContractAbi.Json

def controlEscape (c : Char) : List Char :=
  let digit := fun n => if n < 10 then Char.ofNat (48 + n) else Char.ofNat (87 + n)
  ['\\', 'u', '0', '0', digit (c.toNat / 16), digit (c.toNat % 16)]

def escapeChar (c : Char) : List Char :=
  if c = '"' then ['\\', '"']
  else if c = '\\' then ['\\', '\\']
  else if c = '\x08' then ['\\', 'b']
  else if c = '\x0c' then ['\\', 'f']
  else if c = '\n' then ['\\', 'n']
  else if c = '\r' then ['\\', 'r']
  else if c = '\t' then ['\\', 't']
  else if c.toNat < 0x20 then controlEscape c
  else [c]

def quote (text : String) : List Char :=
  '"' :: text.toList.flatMap escapeChar ++ ['"']

/-- The text of a value that is no array and no object. -/
def atom : Json → List Char
  | .bool true => "true".toList
  | .bool false => "false".toList
  | .number lexeme => lexeme.toList
  | .text value => quote value
  | _ => "null".toList

mutual

def compactChars : Json → List Char
  | .array items => '[' :: compactItems items ++ [']']
  | .object members => '\x7b' :: compactMembers members ++ ['\x7d']
  | value => atom value

def compactItems : List Json → List Char
  | [] => []
  | [item] => compactChars item
  | item :: rest => compactChars item ++ ',' :: compactItems rest

def compactMembers : List (String × Json) → List Char
  | [] => []
  | [(name, value)] => quote name ++ ':' :: compactChars value
  | (name, value) :: rest => quote name ++ ':' :: compactChars value ++ ',' :: compactMembers rest

end

/-- The value in one line. -/
def compact (value : Json) : String :=
  String.ofList (compactChars value)

def lineAt (level : Nat) : List Char :=
  '\n' :: List.replicate (2 * level) ' '

mutual

def prettyChars (level : Nat) : Json → List Char
  | .array [] => ['[', ']']
  | .array items => '[' :: prettyItems (level + 1) items ++ lineAt level ++ [']']
  | .object [] => ['\x7b', '\x7d']
  | .object members => '\x7b' :: prettyMembers (level + 1) members ++ lineAt level ++ ['\x7d']
  | value => atom value

def prettyItems (level : Nat) : List Json → List Char
  | [] => []
  | [item] => lineAt level ++ prettyChars level item
  | item :: rest => lineAt level ++ prettyChars level item ++ ',' :: prettyItems level rest

def prettyMembers (level : Nat) : List (String × Json) → List Char
  | [] => []
  | [(name, value)] => lineAt level ++ quote name ++ ':' :: ' ' :: prettyChars level value
  | (name, value) :: rest =>
    lineAt level ++ quote name ++ ':' :: ' ' :: prettyChars level value ++
      ',' :: prettyMembers level rest

end

/-- The value over lines, two blanks a level. -/
def pretty (value : Json) : String :=
  String.ofList (prettyChars 0 value)

end ContractAbi.Json
