/-!
YAML text as a list of cells: each character with its place. All common line breaks are written as
one newline before, so that a break is one character. The end of a list is the end of the text.
-/
namespace ContractAbi.Yaml

structure Cell where
  char : Char
  index : Nat
  line : Nat
  column : Nat
  deriving DecidableEq, Repr, Inhabited

abbrev Cells := List Cell

/-- The separators of Unicode, which break lines like a newline. -/
def isSeparator (c : Char) : Bool :=
  c = '\u2028' || c = '\u2029'

def isBreak (c : Char) : Bool :=
  c = '\n' || isSeparator c

def isBlank (c : Char) : Bool :=
  c = ' ' || c = '\t'

/-- Letters, digits, `-` and `_`, as in the names of anchors and tags. -/
def isNameChar (c : Char) : Bool :=
  c.isAlphanum || c = '-' || c = '_'

def byteOrderMark : Char := '\ufeff'

/-- Control characters other than tabs and breaks, and the noncharacters at the end of the plane,
are refused. -/
def isPrintable (c : Char) : Bool :=
  c = '\t' || c = '\n' || (0x20 ≤ c.toNat && c.toNat ≤ 0x7E) ||
    (0xA0 ≤ c.toNat && c.toNat ≤ 0xFFFD) || 0x10000 ≤ c.toNat

/-- Writes each carriage return, with a newline behind it or not, and each next-line character as
one newline. -/
def joinBreaks : List Char → List Char
  | '\r' :: '\n' :: rest => '\n' :: joinBreaks rest
  | c :: rest => (if c = '\r' ∨ c = '\u0085' then '\n' else c) :: joinBreaks rest
  | [] => []

def cellsFrom (index line column : Nat) : List Char → Cells
  | [] => []
  | c :: rest =>
    ⟨c, index, line, column⟩ ::
      if isBreak c then cellsFrom (index + 1) (line + 1) 0 rest
      else cellsFrom (index + 1) line (column + 1) rest

/-- The cells of a text, if all its characters are printable. -/
def cells? (text : String) : Option Cells :=
  let chars := joinBreaks text.toList
  if chars.all isPrintable then some (cellsFrom 0 0 0 chars) else none

namespace Cells

def startsWith (p : Char → Bool) (cells : Cells) : Bool :=
  cells.head?.any (p ·.char)

/-- A break or the end of the text. -/
def atLineEnd (cells : Cells) : Bool :=
  cells.head?.all (isBreak ·.char)

/-- A blank, a break or the end of the text. -/
def atGap (cells : Cells) : Bool :=
  cells.head?.all fun cell => isBlank cell.char || isBreak cell.char

/-- Three equal characters at the start of a line with a gap behind them. -/
def atRule (mark : Char) : Cells → Bool
  | a :: b :: c :: rest =>
    a.column = 0 && a.char = mark && b.char = mark && c.char = mark && atGap rest
  | _ => false

/-- A line that starts or ends a document. -/
def atDocumentMark (cells : Cells) : Bool :=
  atRule '-' cells || atRule '.' cells

def skip (count : Nat) (cells : Cells) : Cells :=
  List.drop count cells

def skipBlanks (cells : Cells) : Cells :=
  cells.dropWhile (isBlank ·.char)

/-- What stands before the next break. -/
def skipLine (cells : Cells) : Cells :=
  cells.dropWhile (!isBreak ·.char)

/-- Skips blanks and a comment, and then demands the end of the line. -/
def skipLineEnd? (cells : Cells) : Option Cells :=
  let rest := cells.skipBlanks
  let rest := if rest.startsWith (· = '#') then rest.skipLine else rest
  if rest.atLineEnd then some rest else none

def spanChars (p : Char → Bool) (cells : Cells) : List Char × Cells :=
  ((cells.takeWhile (p ·.char)).map (·.char), cells.dropWhile (p ·.char))

end Cells
end ContractAbi.Yaml
