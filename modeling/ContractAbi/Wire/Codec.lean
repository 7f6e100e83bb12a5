import ContractAbi.Primitive
import ContractAbi.Text.Basic

/-!
The scalars of the wire format: the numbers that bytes spell, why bytes do not hold a value of the
expected type, and the codec of each scalar. A scalar is decoded either from a slot of its own,
whose length is then its length, or at the front of some bytes, where integers have their full
width and payloads have their length in front. A reader that fails takes nothing.
-/
namespace ContractAbi
namespace Wire

/-- The fixed-width unsigned integers. -/
inductive Word where
  | u8 | u16 | u32 | u64
  deriving DecidableEq, Repr

namespace Word

def name : Word → String
  | .u8 => "u8"
  | .u16 => "u16"
  | .u32 => "u32"
  | .u64 => "u64"

/-- The number of bytes of a word. -/
def width : Word → Nat
  | .u8 => 1
  | .u16 => 2
  | .u32 => 4
  | .u64 => 8

end Word

inductive Fault where
  | insufficientData (needed available : Nat)
  | overflow (word : Word) (length : Nat)
  | invalidUtf8
  | invalidBool (byte : UInt8)
  | unknownDiscriminant (type : String) (byte : UInt8)
  | invalidAddressLength (length : Nat)
  | missingSlot (index available : Nat)
  | undeclaredType (type : String)
  | unsupportedShape (shape : String)
  /-- A record that begins with itself. Nothing is ever refused for it: it marks a reading that does
  not end. -/
  | endlessType (type : String)
  deriving DecidableEq, Repr

def Fault.message : Fault → String
  | .insufficientData needed available =>
    "not enough data: need " ++ toString needed ++ " bytes, have " ++ toString available
  | .overflow word length => toString length ++ "-byte value does not fit in " ++ word.name
  | .invalidUtf8 => "invalid utf-8 in string value"
  | .invalidBool byte => "invalid boolean encoding 0x" ++ Hex.text [byte]
  | .unknownDiscriminant type byte =>
    "unknown discriminant " ++ toString byte.toNat ++ " for enum '" ++ type ++ "'"
  | .invalidAddressLength length => "address must be 32 bytes, got " ++ toString length
  | .missingSlot index available =>
    "return slot " ++ toString index ++ " missing, only " ++ toString available ++
      " slots returned"
  | .undeclaredType type => "type '" ++ type ++ "' is not declared"
  | .unsupportedShape shape => "'" ++ shape ++ "' cannot be decoded here"
  | .endlessType type => "type '" ++ type ++ "' holds itself without end"

/-- The number that bytes spell, highest byte first. -/
def naturalOf (bytes : Bytes) : Nat :=
  bytes.foldl (fun n b => n * 256 + b.toNat) 0

/-- The number of values that so many bytes can spell. -/
def valueCount (width : Nat) : Nat := Nat.pow 256 width

/-- The number that bytes spell in two's complement; the first bit is the sign. -/
def integerOf (bytes : Bytes) : Int :=
  let n : Int := naturalOf bytes
  if bytes.head?.any (128 ≤ ·) then n - valueCount bytes.length else n

/-- The value of a primitive. Words and naturals differ from integers only in how they are
written. -/
inductive Scalar where
  | bool (value : Bool)
  | unsigned (value : Nat)
  | integer (value : Int)
  | text (value : String)
  | bytes (value : Bytes)
  | address (value : Bytes)
  deriving DecidableEq, Repr

/-- Reads a value at the front of some bytes and gives what is left. -/
abbrev Reader := StateT Bytes (Except Fault)

/-- Takes the next `needed` bytes. -/
def take (needed : Nat) : Reader Bytes := fun rest =>
  if rest.length < needed then .error (.insufficientData needed rest.length)
  else .ok (rest.take needed, rest.drop needed)

def readWord (word : Word) : Reader Nat := do
  return naturalOf (← take word.width)

def readByte : Reader UInt8 := do
  return UInt8.ofNat (← readWord .u8)

/-- Bytes behind their length. -/
def readPayload : Reader Bytes := do
  take (← readWord .u32)

def textOf (bytes : Bytes) : Except Fault String :=
  match String.fromUTF8? ⟨bytes.toArray⟩ with
  | some text => .ok text
  | none => .error .invalidUtf8

/-- The bytes in a register of 64 bits: each of them pushes those before it up by its width. -/
def shiftIn (bytes : Bytes) : UInt64 :=
  bytes.foldl (fun register byte => register <<< 8 ||| byte.toUInt64) 0

/-- The lowest bits of a register, as many as the word has. -/
def Word.cut : Word → UInt64 → Nat
  | .u8, register => register.toUInt8.toNat
  | .u16, register => register.toUInt16.toNat
  | .u32, register => register.toUInt32.toNat
  | .u64, register => register.toNat

/-- The value of a whole slot as a word, which may have any number of zero bytes in front. -/
def topWord (word : Word) (slot : Bytes) : Except Fault Nat :=
  let significant := slot.dropWhile (· = 0)
  if word.width < significant.length then .error (.overflow word slot.length)
  else .ok (word.cut (shiftIn significant))

def addressLength : Nat := 32

/-- The ways of writing a scalar. -/
inductive Codec where
  | bool
  | word (size : Word)
  | natural | integer
  | text | bytes
  | address
  deriving DecidableEq, Repr

namespace Codec

/-- The name of the codec in reader and decoder functions. -/
def name : Codec → String
  | .bool => "bool"
  | .word size => size.name
  | .natural => "big_uint"
  | .integer => "big_int"
  | .text => "string"
  | .bytes => "bytes"
  | .address => "address"

def all : List Codec :=
  [.bool, .word .u8, .word .u16, .word .u32, .word .u64, .natural, .integer, .text, .bytes, .address]

def ofName? (name : String) : Option Codec :=
  all.find? fun codec => codec.name == name

/-- Decodes a slot of its own. -/
def top : Codec → Bytes → Except Fault Scalar
  | .bool, slot => .ok (.bool (naturalOf slot = 1))
  | .word size, slot => return .unsigned (← topWord size slot)
  | .natural, slot => .ok (.integer (naturalOf slot))
  | .integer, slot => .ok (.integer (integerOf slot))
  | .text, slot => return .text (← textOf slot)
  | .bytes, slot => .ok (.bytes slot)
  | .address, slot =>
    if slot.length = addressLength then .ok (.address slot)
    else .error (.invalidAddressLength slot.length)

/-- Decodes a byte that says whether something holds. -/
def boolOf (byte : UInt8) : Except Fault Scalar :=
  if byte = 0 then .ok (.bool false)
  else if byte = 1 then .ok (.bool true)
  else .error (.invalidBool byte)

/-- Reads a scalar inside other data. -/
def read : Codec → Reader Scalar
  | .bool => do boolOf (← readByte)
  | .word size => return .unsigned (← readWord size)
  | .natural => return .integer (naturalOf (← readPayload))
  | .integer => return .integer (integerOf (← readPayload))
  | .text => do return .text (← textOf (← readPayload))
  | .bytes => return .bytes (← readPayload)
  | .address => return .address (← take addressLength)

end Codec

end Wire

/-- The codec of a primitive. Token identifiers are written as texts. -/
def Primitive.codec : Primitive → Wire.Codec
  | .bool => .bool
  | .u8 => .word .u8
  | .u16 => .word .u16
  | .u32 => .word .u32
  | .u64 => .word .u64
  | .bigUint => .natural
  | .bigInt => .integer
  | .bytes => .bytes
  | .text | .tokenIdentifier | .egldOrEsdtTokenIdentifier => .text
  | .address => .address

end ContractAbi
