import ContractAbi.Json.Tree
import ContractAbi.Text.Basic

/-!
The data of a document text, whatever its format. A plain scalar carries its spelling and takes
its meaning from the place where it is read; everything else has one meaning. Where nothing else
decides it, a plain scalar is null, a boolean, an integer in one of four bases, a floating-point number,
or text, and it is text if it has the tag of texts. A JSON number is natural only when it is written
with digits alone.
-/
namespace ContractAbi

inductive Data where
  | null
  | bool (value : Bool)
  | natural (value : Nat)
  /-- A number that is no natural number below `2 ^ 64`. -/
  | number
  | text (value : String)
  | plain (spelling : String)
  /-- A plain scalar with the tag of texts. Where a boolean is read, its spelling decides all the same. -/
  | tagged (spelling : String)
  | list (items : List Data)
  | map (entries : List (Data × Data))
  /-- A value that can be passed over but not read. -/
  | damaged
  deriving Repr, Inhabited

namespace Data

def isNullWord (s : String) : Bool :=
  s = "null" || s = "Null" || s = "NULL" || s = "~"

def ofBoolWord? (s : String) : Option Bool :=
  if s = "true" ∨ s = "True" ∨ s = "TRUE" then some true
  else if s = "false" ∨ s = "False" ∨ s = "FALSE" then some false
  else none

/-- No value at all: null, or a plain scalar that is empty or spells null. -/
def isNull : Data → Bool
  | .null => true
  | .plain s => s.isEmpty || isNullWord s
  | _ => false

/-- A plain scalar without text, which may stand for an empty list or map. -/
def isBlank : Data → Bool
  | .plain s | .tagged s => s.isEmpty
  | _ => false

def text? : Data → Option String
  | .text s | .plain s | .tagged s => some s
  | _ => none

def bool? : Data → Option Bool
  | .bool b => some b
  | .plain s | .tagged s => ofBoolWord? s
  | _ => none

def natural? : Data → Option Nat
  | .natural n => some n
  | _ => none

def items? : Data → Option (List Data)
  | .list items => some items
  | d => if d.isBlank then some [] else none

def listOf? (read : Data → Option α) (d : Data) : Option (List α) :=
  d.items?.bind (·.mapM read)

/-- The entries of a map whose keys are all texts. -/
def entries? : Data → Option (List (String × Data))
  | .map entries => entries.mapM fun entry => entry.1.text?.map (·, entry.2)
  | d => if d.isBlank then some [] else none

/-- The given values of a record with the named fields: a map, in which other keys are passed
over and a field stands at most once, or a list of the first fields in order. -/
def record? (fields : List String) : Data → Option (List (String × Data))
  | .list items => if items.length ≤ fields.length then some (fields.zip items) else none
  | d => do
    let given := (← d.entries?).filter fun entry => fields.contains entry.1
    if (given.map (·.1)).Nodup then some given else none

/-- The given values of a record that has no other fields than the named ones. -/
def strictRecord? (fields : List String) (d : Data) : Option (List (String × Data)) :=
  let isStrict :=
    match d with
    | .list _ => true
    | _ => (d.entries?.getD []).all fun entry => fields.contains entry.1
  if isStrict then d.record? fields else none

def required (given : List (String × Data)) (field : String) (read : Data → Option α) : Option α :=
  (given.lookup field).bind read

def defaulted (given : List (String × Data)) (field : String) (read : Data → Option α)
    (default : α) : Option α :=
  match given.lookup field with
  | some d => read d
  | none => some default

/-- A field that may be absent or null. -/
def nullable (given : List (String × Data)) (field : String) (read : Data → Option α) :
    Option (Option α) :=
  match given.lookup field with
  | some d => if d.isNull then some none else (read d).map some
  | none => some none

mutual

/-- The number of lists and maps around the innermost value. -/
def depth : Data → Nat
  | .list items => depthOfItems items + 1
  | .map entries => depthOfEntries entries + 1
  | _ => 0

def depthOfItems : List Data → Nat
  | [] => 0
  | item :: rest => max (depth item) (depthOfItems rest)

def depthOfEntries : List (Data × Data) → Nat
  | [] => 0
  | (key, value) :: rest => max (max (depth key) (depth value)) (depthOfEntries rest)

end

/-- An integer after its sign: with the mark of a base, or decimal without a needless zero. -/
def magnitude? (digits : List Char) : Option Nat :=
  let decimal :=
    if digits.length > 1 ∧ digits.head? = some '0' ∧ digits.all Char.isDigit then none
    else Text.ofDigits? 10 digits
  match digits with
  | '0' :: 'x' :: rest => Text.ofDigits? 16 rest <|> decimal
  | '0' :: 'o' :: rest => Text.ofDigits? 8 rest <|> decimal
  | '0' :: 'b' :: rest => Text.ofDigits? 2 rest <|> decimal
  | _ => decimal

def integer? : List Char → Option Int
  | '-' :: rest => (magnitude? rest).map fun n => -(n : Int)
  | '+' :: rest => (magnitude? rest).map fun n => (n : Int)
  | digits => (magnitude? digits).map fun n => (n : Int)

def isExponent : List Char → Bool
  | [] => true
  | e :: rest =>
    let digits := match rest with
      | '+' :: digits => digits
      | '-' :: digits => digits
      | digits => digits
    (e = 'e' || e = 'E') && !digits.isEmpty && digits.all Char.isDigit

/-- A decimal number after its sign, with digits on at least one side of the point. -/
def isDecimal (word : List Char) : Bool :=
  let whole := word.takeWhile Char.isDigit
  match word.dropWhile Char.isDigit with
  | '.' :: rest =>
    !(whole.isEmpty && (rest.takeWhile Char.isDigit).isEmpty) &&
      isExponent (rest.dropWhile Char.isDigit)
  | rest => !whole.isEmpty && isExponent rest

def isInfinity (word : List Char) : Bool :=
  [".inf", ".Inf", ".INF"].contains (String.ofList word)

def isFloat : List Char → Bool
  | '+' :: rest => isInfinity rest || isDecimal rest
  | '-' :: rest => isInfinity rest || isDecimal rest
  | word =>
    isInfinity word || [".nan", ".NaN", ".NAN"].contains (String.ofList word) || isDecimal word

/-- Whether 128 bits hold an integer, with a sign or without one. -/
def isWide (i : Int) : Bool :=
  -(Nat.pow 2 127 : Int) ≤ i && i < (Nat.pow 2 128 : Int)

/-- An integer as data. Beyond 64 bits, one that still has 128 cannot be read. -/
def ofInteger (i : Int) : Data :=
  if 0 ≤ i ∧ i < UInt64.size then .natural i.toNat
  else if Int64.minValue.toInt ≤ i ∧ i < 0 then .number
  else if isWide i then .damaged
  else .number

/-- The meaning of a plain scalar. Digits behind a needless zero are text. -/
def ofPlain (s : String) : Data :=
  let word := s.toList
  let unsigned := match word with
    | '+' :: rest => rest
    | '-' :: rest => rest
    | rest => rest
  if s.isEmpty || isNullWord s then .null
  else
    match ofBoolWord? s with
    | some b => .bool b
    | none =>
      match integer? word with
      | some i => ofInteger i
      | none =>
        if unsigned.length > 1 && unsigned.head? = some '0' && unsigned.all Char.isDigit then .text s
        else if isFloat word then .number
        else .text s

mutual

/-- Gives every plain scalar its meaning; fails where a value cannot be read. -/
def settle? : Data → Option Data
  | .plain s =>
    match ofPlain s with
    | .damaged => none
    | d => some d
  | .tagged s => some (.text s)
  | .damaged => none
  | .list items => (settleItems? items).map .list
  | .map entries => (settleEntries? entries).map .map
  | d => some d

def settleItems? : List Data → Option (List Data)
  | [] => some []
  | item :: rest => do
    return (← settle? item) :: (← settleItems? rest)

def settleEntries? : List (Data × Data) → Option (List (Data × Data))
  | [] => some []
  | (key, value) :: rest => do
    return (← settle? key, ← settle? value) :: (← settleEntries? rest)

end

end Data

namespace Json

def leafData : Json → Data
  | .bool value => .bool value
  | .number lexeme =>
    match natural? (.number lexeme) with
    | some n => if n < UInt64.size then .natural n else .number
    | none => .number
  | .text value => .text value
  | .damaged => .damaged
  | _ => .null

mutual

def data : Json → Data
  | .array items => .list (dataOfItems items)
  | .object members => .map (dataOfMembers members)
  | value => leafData value

def dataOfItems : List Json → List Data
  | [] => []
  | item :: rest => data item :: dataOfItems rest

def dataOfMembers : List (String × Json) → List (Data × Data)
  | [] => []
  | (name, value) :: rest => (.text name, data value) :: dataOfMembers rest

end

end Json
end ContractAbi
