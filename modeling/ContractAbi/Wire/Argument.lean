import ContractAbi.Wire.Codec

/-!
Call arguments: the bytes of one scalar as hexadecimal text. Words take their full width and big
numbers as few bytes as they can, natural numbers without leading zeros and signed ones in their
shortest two's complement form, so zero is the empty argument.
-/
namespace ContractAbi.Wire

/-- The lowest `width` bytes of a number, highest first. -/
def wordBytes : (width : Nat) → Nat → Bytes
  | 0, _ => []
  | width + 1, n => wordBytes width (n / 256) ++ [UInt8.ofNat n]

/-- The bytes of a number without leading zeros; zero has none. -/
def naturalBytes (n : Nat) : Bytes :=
  if n = 0 then [] else naturalBytes (n / 256) ++ [UInt8.ofNat n]
termination_by n
decreasing_by omega

/-- The shortest two's complement form of a number; zero has no bytes. -/
def integerBytes : Int → Bytes
  | .ofNat n =>
    let bytes := naturalBytes n
    if bytes.head?.any (128 ≤ ·) then 0 :: bytes else bytes
  | .negSucc n =>
    let width := (naturalBytes n).length
    let bytes := wordBytes width (valueCount width - 1 - n)
    if bytes.head?.any (128 ≤ ·) then bytes else 255 :: bytes

inductive Argument where
  | bool (value : Bool)
  | word (size : Word) (value : Nat)
  | natural (value : Nat)
  | integer (value : Int)
  | text (value : String)
  | bytes (value : Bytes)
  | address (value : Bytes)
  deriving DecidableEq, Repr

namespace Argument

def payload : Argument → Bytes
  | .bool value => [if value then 1 else 0]
  | .word size value => wordBytes size.width value
  | .natural value => naturalBytes value
  | .integer value => integerBytes value
  | .text value => value.toUTF8.toList
  | .bytes value | .address value => value

/-- The argument as it stands in the data of a call. -/
def hexText (argument : Argument) : String :=
  Hex.text argument.payload

end Argument
end ContractAbi.Wire
