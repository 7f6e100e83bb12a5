import ContractAbi.Json.Tree
import ContractAbi.Text.Basic

/-!
The tokens of JSON text. Words (literals and numbers) run to the next blank, quote or punctuation
and are read as values; texts have their escapes undone, where two escapes in a row may stand for
the halves of one character. A numeral stands for a double unless it lies beyond the largest one.
-/
namespace ContractAbi.Json.Numeral

/-- A numeral in parts: the digits before and after the point, and the exponent. -/
structure Parts where
  whole : List Char
  fraction : List Char
  exponentIsNegative : Bool
  exponent : List Char
  deriving DecidableEq, Repr

def withoutSign (sign : Char → Bool) : List Char → List Char
  | [] => []
  | c :: rest => if sign c then rest else c :: rest

def isWhole : List Char → Bool
  | [] => false
  | c :: rest => c ≠ '0' || rest.isEmpty

/-- Reads an exponent to the end of the numeral. -/
def exponent? (whole fraction : List Char) : List Char → Option Parts
  | [] => some ⟨whole, fraction, false, []⟩
  | e :: rest =>
    let digits := withoutSign (fun c => c = '+' || c = '-') rest
    if (e = 'e' || e = 'E') && !digits.isEmpty && digits.all Char.isDigit then
      some ⟨whole, fraction, rest.head? = some '-', digits⟩
    else none

def fraction? (whole : List Char) : List Char → Option Parts
  | '.' :: rest =>
    let fraction := rest.takeWhile Char.isDigit
    if fraction.isEmpty then none
    else exponent? whole fraction (rest.dropWhile Char.isDigit)
  | rest => exponent? whole [] rest

/-- The parts of a numeral, if the text is one. -/
def parts? (text : List Char) : Option Parts :=
  let body := withoutSign (· = '-') text
  let whole := body.takeWhile Char.isDigit
  if isWhole whole then fraction? whole (body.dropWhile Char.isDigit) else none

/-- The value of a row of decimal digits. -/
def digitsValue (digits : List Char) : Nat :=
  digits.foldl (fun n c => n * 10 + (c.toNat - 48)) 0

/-- The least magnitude that rounds beyond every double: `2 ^ 1024 - 2 ^ 970`. -/
def doubleBound : Nat := Nat.pow 2 1024 - Nat.pow 2 970

/-- Whether the magnitude rounds beyond every double. The number of its digits decides unless it
is close to the bound. -/
def Parts.exceedsDouble (p : Parts) : Bool :=
  let digits := (p.whole ++ p.fraction).dropWhile (· = '0')
  let size : Int := digitsValue p.exponent
  let scale : Int := (if p.exponentIsNegative then -size else size) - p.fraction.length
  let order : Int := digits.length + scale
  if digits.isEmpty || order < 300 then false
  else if order > 320 then true
  else doubleBound * Nat.pow 10 (-scale).toNat ≤ digitsValue digits * Nat.pow 10 scale.toNat

end ContractAbi.Json.Numeral

namespace ContractAbi.Json

inductive Token where
  | openArray | closeArray | openObject | closeObject | colon | comma
  | word (lexeme : List Char)
  | text (value : List Char)
  | halfText
  deriving DecidableEq, Repr

namespace Token

def isSpace (c : Char) : Bool :=
  c = ' ' || c = '\t' || c = '\n' || c = '\r'

def punctuation? (c : Char) : Option Token :=
  if c = '[' then some .openArray
  else if c = ']' then some .closeArray
  else if c = '\x7b' then some .openObject
  else if c = '\x7d' then some .closeObject
  else if c = ':' then some .colon
  else if c = ',' then some .comma
  else none

def isWordChar (c : Char) : Bool :=
  !isSpace c && c ≠ '"' && (punctuation? c).isNone

/-- One character of a text, or half of a surrogate pair given by an escape. -/
inductive TextUnit where
  | char (c : Char)
  | half (code : Nat)
  deriving DecidableEq, Repr

def TextUnit.ofHex? (a b c d : Char) : Option TextUnit := do
  let code ← Text.ofDigits? 16 [a, b, c, d]
  return if 0xD800 ≤ code ∧ code ≤ 0xDFFF then .half code else .char (Char.ofNat code)

/-- The character of a one-letter escape. -/
def escaped? (c : Char) : Option Char :=
  if c = '"' ∨ c = '\\' ∨ c = '/' then some c
  else if c = 'b' then some '\x08'
  else if c = 'f' then some '\x0c'
  else if c = 'n' then some '\n'
  else if c = 'r' then some '\r'
  else if c = 't' then some '\t'
  else none

def consUnit (u : TextUnit) (read : List TextUnit × List Char) : List TextUnit × List Char :=
  (u :: read.1, read.2)

/-- Reads to the closing quote, behind the opening one; also gives what follows it. -/
def units? : List Char → Option (List TextUnit × List Char)
  | [] => none
  | '"' :: rest => some ([], rest)
  | '\\' :: 'u' :: a :: b :: c :: d :: rest => do
    let u ← TextUnit.ofHex? a b c d
    return consUnit u (← units? rest)
  | '\\' :: c :: rest => do
    let e ← escaped? c
    return consUnit (.char e) (← units? rest)
  | c :: rest => if c.toNat < 0x20 ∨ c = '\\' then none else (units? rest).map (consUnit (.char c))

/-- Joins the halves of surrogate pairs; a half that stands alone has no character. -/
def joinUnits? : List TextUnit → Option (List Char)
  | [] => some []
  | .char c :: rest => (joinUnits? rest).map (c :: ·)
  | .half high :: .half low :: rest =>
    if high < 0xDC00 ∧ 0xDC00 ≤ low then
      (joinUnits? rest).map (Char.ofNat (0x10000 + (high - 0xD800) * 0x400 + (low - 0xDC00)) :: ·)
    else none
  | .half _ :: _ => none

def ofUnits (units : List TextUnit) : Token :=
  match joinUnits? units with
  | some value => .text value
  | none => .halfText

/-- Behind an escape, reading goes on to the same end. -/
theorem exists_units_of_escape {α : Type} {escape : Option α} {unit : α → TextUnit}
    {rest after : List Char} {units : List TextUnit}
    (h : (do let e ← escape; return consUnit (unit e) (← units? rest)) = some (units, after)) :
    ∃ others, units? rest = some (others, after) := by
  simp only [Option.bind_eq_bind, Option.bind_eq_some_iff] at h
  obtain ⟨e, -, ⟨others, last⟩, hrest, h⟩ := h
  obtain ⟨-, rfl⟩ := Prod.mk.inj (Option.some.inj h)
  exact ⟨others, hrest⟩

theorem length_units_lt {text after : List Char} {units : List TextUnit}
    (h : units? text = some (units, after)) : after.length < text.length := by
  fun_induction units? text generalizing units after with
  | case1 => simp at h
  | case2 rest =>
    simp only [Option.some.injEq, Prod.mk.injEq] at h
    simp [h.2]
  | case3 a b c d rest ih =>
    obtain ⟨others, hrest⟩ := exists_units_of_escape h
    have := ih hrest
    simp only [List.length_cons]
    omega
  | case4 c rest hn ih =>
    obtain ⟨others, hrest⟩ := exists_units_of_escape h
    have := ih hrest
    simp only [List.length_cons]
    omega
  | case5 => simp at h
  | case6 c rest hq hu he hc ih =>
    obtain ⟨⟨others, last⟩, hrest, hcons⟩ := Option.map_eq_some_iff.1 h
    have := ih hrest
    simp only [consUnit, Prod.mk.injEq] at hcons
    simp only [List.length_cons, ← hcons.2]
    omega

/-- The tokens of a text, unless a quoted text in it does not end or is badly written. -/
def lex (text : List Char) : Option (List Token) :=
  match text with
  | [] => some []
  | c :: rest =>
    if isSpace c then lex rest
    else if c = '"' then
      match _h : units? rest with
      | none => none
      | some (units, after) => (lex after).map (ofUnits units :: ·)
    else
      match punctuation? c with
      | some token => (lex rest).map (token :: ·)
      | none =>
        (lex (rest.dropWhile isWordChar)).map (.word (c :: rest.takeWhile isWordChar) :: ·)
termination_by text.length
decreasing_by
  · simp
  · have := length_units_lt _h
    simp only [List.length_cons]
    omega
  · simp
  · have := (List.dropWhile_sublist isWordChar (l := rest)).length_le
    simp only [List.length_cons]
    omega

end Token
end ContractAbi.Json
