/-!
Characters and texts. Blank characters are the 25 members of Unicode's White_Space property, of which
texts are trimmed. Texts are cut at marks, digits of a base are read as numbers, and bytes are written
in hexadecimal digits.
-/
namespace ContractAbi.Text

/-- The ranges of the White_Space property, in order. -/
def blankRanges : List (Nat × Nat) :=
  [(0x09, 0x0D), (0x20, 0x20), (0x85, 0x85), (0xA0, 0xA0), (0x1680, 0x1680), (0x2000, 0x200A),
    (0x2028, 0x2029), (0x202F, 0x202F), (0x205F, 0x205F), (0x3000, 0x3000)]

def isBlank (c : Char) : Bool :=
  blankRanges.any fun range => range.1 ≤ c.toNat && c.toNat ≤ range.2

def trimStart (text : List Char) : List Char :=
  text.dropWhile isBlank

def trimEnd (text : List Char) : List Char :=
  (text.reverse.dropWhile isBlank).reverse

def trim (text : List Char) : List Char :=
  trimEnd (trimStart text)

def allBlank (text : List Char) : Bool :=
  text.all isBlank

theorem length_trimStart_le (text : List Char) : (trimStart text).length ≤ text.length :=
  (List.dropWhile_sublist isBlank).length_le

theorem length_trimEnd_le (text : List Char) : (trimEnd text).length ≤ text.length := by
  have h := (List.dropWhile_sublist isBlank (l := text.reverse)).length_le
  simpa [trimEnd] using h

theorem length_trim_le (text : List Char) : (trim text).length ≤ text.length :=
  Nat.le_trans (length_trimEnd_le _) (length_trimStart_le text)

/-- Puts a character in front of the first part. -/
def consFirst (c : Char) : List (List Char) → List (List Char)
  | [] => [[c]]
  | part :: parts => (c :: part) :: parts

/-- The parts between the marks of a text, of which there is one more than marks. -/
def split (isMark : Char → Bool) : List Char → List (List Char)
  | [] => [[]]
  | c :: rest => if isMark c then [] :: split isMark rest else consFirst c (split isMark rest)

theorem length_consFirst_le {c : Char} {parts : List (List Char)} {n : Nat}
    (h : ∀ part ∈ parts, part.length ≤ n) : ∀ part ∈ consFirst c parts, part.length ≤ n + 1 := by
  intro part hp
  cases parts with
  | nil => simp_all [consFirst]
  | cons first others =>
    simp only [consFirst, List.mem_cons] at hp
    rcases hp with rfl | hp
    · simpa using h first (by simp)
    · exact Nat.le_succ_of_le (h part (by simp [hp]))

/-- The lines as one text, each with a break behind it. -/
def unlines (lines : List String) : String :=
  String.join (lines.map (· ++ "\n"))

/-- The value of a digit in a base of at most 36. -/
def digitValue? (base : Nat) (c : Char) : Option Nat :=
  let value :=
    if c.isDigit then c.toNat - 48
    else if c.isLower then c.toNat - 87
    else if c.isUpper then c.toNat - 55
    else base
  if value < base then some value else none

/-- The number that a row of digits writes; a row without digits writes none. -/
def ofDigits? (base : Nat) (digits : List Char) : Option Nat :=
  if digits.isEmpty then none
  else (digits.mapM (digitValue? base)).map fun values => values.foldl (fun n v => n * base + v) 0

/-- A natural number is spelled with its decimal digits. -/
theorem toList_toString (n : Nat) : (toString n).toList = Nat.toDigits 10 n := by
  rw [Nat.toString_eq_repr, Nat.toList_repr]

theorem isDigit_of_mem_toString {n : Nat} {c : Char} (h : c ∈ (toString n).toList) :
    c.isDigit = true := by
  rw [toList_toString] at h
  exact Nat.isDigit_of_mem_toDigits (by decide) (by decide) h

theorem toList_toString_ne_nil (n : Nat) : (toString n).toList ≠ [] := by
  rw [toList_toString]
  exact Nat.toDigits_ne_nil

end ContractAbi.Text

namespace ContractAbi

/-- A string of bytes: a return slot, an argument, the payload of a value. -/
abbrev Bytes := List UInt8

namespace Hex

def digit (n : Nat) : Char :=
  if n < 10 then Char.ofNat (48 + n) else Char.ofNat (87 + n)

def encodeByte (b : UInt8) : List Char :=
  [digit (b.toNat / 16), digit (b.toNat % 16)]

def encode (bytes : Bytes) : List Char :=
  bytes.flatMap encodeByte

/-- The hexadecimal text of some bytes. -/
def text (bytes : Bytes) : String :=
  String.ofList (encode bytes)

inductive Fault where
  | oddLength
  | badDigit (byte : UInt8) (position : Nat)
  deriving DecidableEq, Repr

/-- The value of a hexadecimal digit given as one byte of text. -/
def digitValue? (b : UInt8) : Option UInt8 :=
  if 48 ≤ b ∧ b ≤ 57 then some (b - 48)
  else if 97 ≤ b ∧ b ≤ 102 then some (b - 87)
  else if 65 ≤ b ∧ b ≤ 70 then some (b - 55)
  else none

def valueAt (b : UInt8) (position : Nat) : Except Fault UInt8 :=
  match digitValue? b with
  | some v => .ok v
  | none => .error (.badDigit b position)

/-- Reads digits in pairs; `position` is that of the first of them in the whole text. -/
def decodeFrom (position : Nat) : Bytes → Except Fault Bytes
  | high :: low :: rest => do
    let h ← valueAt high position
    let l ← valueAt low (position + 1)
    let bytes ← decodeFrom (position + 2) rest
    return (h * 16 + l) :: bytes
  | _ => .ok []

/-- Reads the bytes of a hexadecimal text. An odd number of digits is found before a wrong one. -/
def decode (s : String) : Except Fault Bytes :=
  let digits := s.toUTF8.toList
  if digits.length % 2 = 1 then .error .oddLength else decodeFrom 0 digits

def quoteMark : Char := Char.ofNat 39

/-- One byte as a quoted character, with escapes for those that have no visible form. -/
def quoteByte (b : UInt8) : String :=
  let n := b.toNat
  let body : List Char :=
    if n = 0 then ['\\', '0']
    else if n = 9 then ['\\', 't']
    else if n = 10 then ['\\', 'n']
    else if n = 13 then ['\\', 'r']
    else if n = 39 then ['\\', quoteMark]
    else if n = 92 then ['\\', '\\']
    else if n < 32 ∨ (127 ≤ n ∧ n ≤ 160) ∨ n = 173 then
      ['\\', 'u', '\x7b'] ++ Nat.toDigits 16 n ++ ['\x7d']
    else [Char.ofNat n]
  String.ofList ([quoteMark] ++ body ++ [quoteMark])

def Fault.message : Fault → String
  | .oddLength => "Odd number of digits"
  | .badDigit b position =>
    "Invalid character " ++ quoteByte b ++ " at position " ++ toString position

end Hex
end ContractAbi
