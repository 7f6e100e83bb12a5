/-!
The primitive kinds of the wire format, with the keyword of each in type expressions and its label
in written-out types.
-/
namespace ContractAbi

inductive Primitive where
  | bool | u8 | u16 | u32 | u64
  | bigUint | bigInt
  | bytes | text
  | address | tokenIdentifier | egldOrEsdtTokenIdentifier
  deriving DecidableEq, Repr, Inhabited

namespace Primitive

def all : List Primitive :=
  [.bool, .u8, .u16, .u32, .u64, .bigUint, .bigInt, .bytes, .text, .address, .tokenIdentifier,
    .egldOrEsdtTokenIdentifier]

/-- The word that stands for the kind in a type expression. -/
def keyword : Primitive → String
  | .bool => "bool"
  | .u8 => "u8"
  | .u16 => "u16"
  | .u32 => "u32"
  | .u64 => "u64"
  | .bigUint => "BigUint"
  | .bigInt => "BigInt"
  | .bytes => "bytes"
  | .text => "utf-8 string"
  | .address => "Address"
  | .tokenIdentifier => "TokenIdentifier"
  | .egldOrEsdtTokenIdentifier => "EgldOrEsdtTokenIdentifier"

def ofKeyword? (word : String) : Option Primitive :=
  all.find? fun kind => kind.keyword == word

/-- The name of the kind in a written-out model. -/
def label : Primitive → String
  | .bool => "bool"
  | .u8 => "u8"
  | .u16 => "u16"
  | .u32 => "u32"
  | .u64 => "u64"
  | .bigUint => "big-uint"
  | .bigInt => "big-int"
  | .bytes => "bytes"
  | .text => "utf8-string"
  | .address => "address"
  | .tokenIdentifier => "token-identifier"
  | .egldOrEsdtTokenIdentifier => "egld-or-esdt-token-identifier"

def ofLabel? (word : String) : Option Primitive :=
  all.find? fun kind => kind.label == word

/-- Kinds that generated code declares as a named alias, once a file. -/
def isAlias : Primitive → Bool
  | .address | .tokenIdentifier | .egldOrEsdtTokenIdentifier => true
  | _ => false

/-- Bytes of the nested encoding, for kinds without a length in front. -/
def fixedWidth? : Primitive → Option Nat
  | .bool | .u8 => some 1
  | .u16 => some 2
  | .u32 => some 4
  | .u64 => some 8
  | .address => some 32
  | _ => none

theorem ofKeyword?_keyword (kind : Primitive) : ofKeyword? kind.keyword = some kind := by
  cases kind <;> decide

end Primitive
end ContractAbi
