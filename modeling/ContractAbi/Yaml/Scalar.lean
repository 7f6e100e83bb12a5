import ContractAbi.Text.Basic
import ContractAbi.Yaml.Cell

/-!
Scalars of YAML. In every style the lines are folded: one break becomes a blank, and of several breaks
the first one is dropped. A plain scalar ends at a comment, at a colon that could follow a key, and
inside brackets at their punctuation; a quoted one may run over lines, but not over a document mark; the
header of a block may fix its indentation and says what becomes of the breaks at the end.
-/
namespace ContractAbi.Yaml

inductive Gap where
  | blanks (chars : List Char)
  /-- The first break, if it is not escaped, and those behind it. -/
  | breaks (first : Option Char) (more : List Char)
  deriving DecidableEq, Repr

namespace Gap

def none : Gap := .blanks []

def isNone (gap : Gap) : Bool :=
  gap = .none

def hasBreak : Gap → Bool
  | .blanks _ => false
  | .breaks _ _ => true

def addBlank (c : Char) : Gap → Gap
  | .blanks chars => .blanks (chars ++ [c])
  | .breaks first more => .breaks first more

def addBreak (c : Char) : Gap → Gap
  | .blanks _ => .breaks (some c) []
  | .breaks first more => .breaks first (more ++ [c])

/-- The text of breaks between two lines that are folded into one. -/
def fold (first : Option Char) (more : List Char) : List Char :=
  if first = some '\n' then (if more.isEmpty then [' '] else more) else first.toList ++ more

def text : Gap → List Char
  | .blanks chars => chars
  | .breaks first more => fold first more

end Gap
end ContractAbi.Yaml

namespace ContractAbi.Yaml.Plain

def isFlowMark (c : Char) : Bool :=
  c = ',' || c = '[' || c = ']' || c = '\x7b' || c = '\x7d'

structure Result where
  text : List Char
  /-- Whether the scalar ended on an earlier line. -/
  brokeLine : Bool
  rest : Cells

def Result.extend (chars : List Char) (result : Result) : Result :=
  { result with text := chars ++ result.text }

/-- Whether a scalar stops in front of a character behind a gap. -/
def endsAfterGap (inFlow : Bool) (indent : Nat) (cell : Cell) (cells : Cells) : Bool :=
  (!inFlow && cell.column < indent) || cells.atDocumentMark || cell.char = '#'

def endsAt (inFlow : Bool) (cell : Cell) (rest : Cells) : Bool :=
  (cell.char = ':' && rest.atGap) || (inFlow && isFlowMark cell.char)

/-- A colon in brackets must not stand right before their punctuation. -/
def isStrayColon (inFlow : Bool) (cell : Cell) (rest : Cells) : Bool :=
  inFlow && cell.char = ':' && rest.startsWith fun c => isFlowMark c || c = '?'

/-- Scans a scalar behind a gap; lines must be indented by `indent`. -/
def scanFrom (inFlow : Bool) (indent : Nat) (gap : Gap) : Cells → Option Result
  | [] => some ⟨[], gap.hasBreak, []⟩
  | cell :: rest =>
    if isBlank cell.char then
      if gap.hasBreak && cell.column < indent && cell.char = '\t' then none
      else scanFrom inFlow indent (gap.addBlank cell.char) rest
    else if isBreak cell.char then scanFrom inFlow indent (gap.addBreak cell.char) rest
    else if !gap.isNone && endsAfterGap inFlow indent cell (cell :: rest) then
      some ⟨[], gap.hasBreak, cell :: rest⟩
    else if isStrayColon inFlow cell rest then none
    else if endsAt inFlow cell rest then some ⟨[], gap.hasBreak, cell :: rest⟩
    else (scanFrom inFlow indent .none rest).map (.extend (gap.text ++ [cell.char]))

/-- Scans the scalar that starts here. -/
def scan (inFlow : Bool) (indent : Nat) (cells : Cells) : Option Result :=
  scanFrom inFlow indent .none cells

/-- Characters that cannot start a plain scalar. -/
def indicators : List Char :=
  ['-', '?', ':', ',', '[', ']', '\x7b', '\x7d', '#', '&', '*', '!', '|', '>', Char.ofNat 39, '"',
    '%', '@', '\x60']

/-- Whether a plain scalar starts here. A dash, a question mark or a colon does it too, unless a
gap follows. -/
def starts (inFlow : Bool) : Cells → Bool
  | [] => false
  | cell :: rest =>
    let c := cell.char
    !(indicators.contains c || isBlank c || isBreak c) ||
      (c = '-' && !Cells.startsWith isBlank rest) ||
      (c = '?' && !Cells.atGap rest) ||
      (c = ':' && !inFlow && !Cells.atGap rest)

end ContractAbi.Yaml.Plain

namespace ContractAbi.Yaml.Quoted

/-- The text of a scalar and what follows its closing quote. -/
abbrev Result := List Char × Cells

def extend (chars : List Char) (result : Result) : Result :=
  (chars ++ result.1, result.2)

def singleQuote : Char := Char.ofNat 39

/-- Scans between single quotes. After a quote it takes another one for the scalar's end. -/
def single (gap : Gap) : Cells → Option Result
  | [] => none
  | cell :: rest =>
    if isBlank cell.char then single (gap.addBlank cell.char) rest
    else if isBreak cell.char then single (gap.addBreak cell.char) rest
    else if Cells.atDocumentMark (cell :: rest) then none
    else if cell.char = singleQuote then
      match rest with
      | next :: rest =>
        if next.char = singleQuote then (single .none rest).map (extend (gap.text ++ [singleQuote]))
        else some (gap.text, next :: rest)
      | [] => some (gap.text, [])
    else (single .none rest).map (extend (gap.text ++ [cell.char]))

/-- The character of a one-letter escape. -/
def escapes : List (Char × Char) :=
  [('0', '\x00'), ('a', '\x07'), ('b', '\x08'), ('t', '\t'), ('\t', '\t'), ('n', '\n'),
    ('v', '\x0b'), ('f', '\x0c'), ('r', '\r'), ('e', '\x1b'), (' ', ' '), ('"', '"'),
    (singleQuote, singleQuote), ('/', '/'), ('\\', '\\'), ('N', '\u0085'), ('_', '\u00a0'),
    ('L', '\u2028'), ('P', '\u2029')]

/-- The number of hexadecimal digits behind an escape. -/
def hexEscapes : List (Char × Nat) :=
  [('x', 2), ('u', 4), ('U', 8)]

/-- The character with a code, if there is one. -/
def charOf? (code : Nat) : Option Char :=
  if code.isValidChar then some (Char.ofNat code) else none

/-- Where a scan between double quotes stands. -/
inductive Progress where
  | text (gap : Gap)
  | escape
  | hex (digits code : Nat)
  deriving DecidableEq, Repr

/-- Scans between double quotes. -/
def double : Progress → Cells → Option Result
  | _, [] => none
  | .text gap, cell :: rest =>
    if isBlank cell.char then double (.text (gap.addBlank cell.char)) rest
    else if isBreak cell.char then double (.text (gap.addBreak cell.char)) rest
    else if Cells.atDocumentMark (cell :: rest) then none
    else if cell.char = '"' then some (gap.text, rest)
    else if cell.char = '\\' then (double .escape rest).map (extend gap.text)
    else (double (.text .none) rest).map (extend (gap.text ++ [cell.char]))
  | .escape, cell :: rest =>
    if isBreak cell.char then double (.text (.breaks none [])) rest
    else
      match escapes.lookup cell.char, hexEscapes.lookup cell.char with
      | some c, _ => (double (.text .none) rest).map (extend [c])
      | none, some digits => double (.hex digits 0) rest
      | none, none => none
  | .hex digits code, cell :: rest =>
    match Text.digitValue? 16 cell.char with
    | none => none
    | some value =>
      let code := code * 16 + value
      if digits ≤ 1 then
        match charOf? code with
        | some c => (double (.text .none) rest).map (extend [c])
        | none => none
      else double (.hex (digits - 1) code) rest

/-- Scans behind an opening quote of either kind. -/
def scan (quote : Char) (cells : Cells) : Option Result :=
  if quote = '"' then double (.text .none) cells else single .none cells

end ContractAbi.Yaml.Quoted

namespace ContractAbi.Yaml.Block

/-- What becomes of the breaks at the end of a scalar: all go, the first one stays, or all stay. -/
inductive Chomping where
  | strip | clip | keep
  deriving DecidableEq, Repr

structure Header where
  folded : Bool
  chomping : Chomping
  /-- The indentation relative to the surrounding block. -/
  increment : Option Nat
  deriving DecidableEq, Repr

def chompingOf? (c : Char) : Option Chomping :=
  if c = '-' then some .strip else if c = '+' then some .keep else none

def isIncrement (c : Char) : Bool :=
  c.isDigit && c ≠ '0'

/-- Reads the marks of a header, which may stand in either order. -/
def header? (folded : Bool) (cells : Cells) : Option (Header × Cells) := do
  let (marks, rest) := cells.spanChars fun c => c.isDigit || (chompingOf? c).isSome
  let digit := fun (c : Char) => if isIncrement c then some (c.toNat - 48) else none
  let header ← match marks with
    | [] => some ⟨folded, .clip, none⟩
    | [a] =>
      match chompingOf? a with
      | some chomping => some ⟨folded, chomping, none⟩
      | none => (digit a).map fun n => ⟨folded, .clip, some n⟩
    | [a, b] =>
      match chompingOf? a, chompingOf? b with
      | some chomping, none => (digit b).map fun n => ⟨folded, chomping, some n⟩
      | none, some chomping => (digit a).map fun n => ⟨folded, chomping, some n⟩
      | _, _ => none
    | _ => none
  return (header, ← rest.skipLineEnd?)

/-- The greatest column reached by the blank lines and the first blanks of another one. A tab must
not stand there. -/
def deepest (found : Nat) : Cells → Option Nat
  | [] => some found
  | cell :: rest =>
    if cell.char = ' ' then deepest (max found (cell.column + 1)) rest
    else if cell.char = '\t' then none
    else if isBreak cell.char then deepest found rest
    else some found

/-- The indentation of a scalar inside a block whose content starts at `outer` or further right. -/
def indentation? (header : Header) (outer : Nat) (cells : Cells) : Option Nat :=
  match header.increment with
  | some n => some (outer - 1 + n)
  | none => (deepest 0 cells).map fun column => max column (max outer 1)

/-- Where a scan stands: in a line, or between lines with the break at the end of the last one and
those behind it. `afterBlank` tells whether the last line starts with a blank. -/
inductive Progress where
  | line (afterBlank : Bool)
  | between (afterBlank : Bool) (first : Option Char) (more : List Char)
  deriving DecidableEq, Repr

/-- The breaks before a line, which are folded unless a line next to them starts with a blank. -/
def joined (folded afterBlank beforeBlank : Bool) (first : Option Char) (more : List Char) :
    List Char :=
  if folded && !afterBlank && !beforeBlank then Gap.fold first more else first.toList ++ more

def chomped (chomping : Chomping) (first : Option Char) (more : List Char) : List Char :=
  match chomping with
  | .strip => []
  | .clip => first.toList
  | .keep => first.toList ++ more

def extend (chars : List Char) (result : List Char × Cells) : List Char × Cells :=
  (chars ++ result.1, result.2)

/-- Scans lines that start at column `indent`. -/
def scanFrom (header : Header) (indent : Nat) : Progress → Cells → Option (List Char × Cells)
  | .line _, [] => some ([], [])
  | .between _ first more, [] => some (chomped header.chomping first more, [])
  | .line afterBlank, cell :: rest =>
    if isBreak cell.char then
      scanFrom header indent (.between afterBlank (some cell.char) []) rest
    else (scanFrom header indent (.line afterBlank) rest).map (extend [cell.char])
  | .between afterBlank first more, cell :: rest =>
    if isBreak cell.char then
      scanFrom header indent (.between afterBlank first (more ++ [cell.char])) rest
    else if cell.column < indent && cell.char = ' ' then
      scanFrom header indent (.between afterBlank first more) rest
    else if cell.column < indent && cell.char = '\t' then none
    else if cell.column = indent then
      let beforeBlank := isBlank cell.char
      (scanFrom header indent (.line beforeBlank) rest).map
        (extend (joined header.folded afterBlank beforeBlank first more ++ [cell.char]))
    else some (chomped header.chomping first more, cell :: rest)

/-- Scans a scalar behind its first mark, inside a block whose content starts at `outer` or
further right. -/
def scan (folded : Bool) (outer : Nat) (cells : Cells) : Option (List Char × Cells) := do
  let (header, rest) ← header? folded cells
  let rest := rest.drop 1
  scanFrom header (← indentation? header outer rest) (.between false none []) rest

end ContractAbi.Yaml.Block
