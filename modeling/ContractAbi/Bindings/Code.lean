import ContractAbi.ConversionFault
import ContractAbi.ResolvedType
import ContractAbi.Text.Basic
import ContractAbi.Text.Identifier

/-!
Lines of generated code, and what is written alike in many of them: documentation, the names of types,
and expressions for zero values. A nested line moves two blanks to the right; an empty line stays empty.
-/
namespace ContractAbi.Code

abbrev Lines := List String

def indent (width : Nat) (line : String) : String :=
  String.ofList (List.replicate width ' ') ++ line

def nestLine (line : String) : String :=
  if line.isEmpty then line else indent 2 line

def nest (lines : Lines) : Lines :=
  lines.map nestLine

/-- A head with an opening brace, nested lines, and a line that closes them. -/
def block (head : String) (body : Lines) (close : String) : Lines :=
  [head ++ " \x7b"] ++ nest body ++ [close]

/-- A block that ends with a brace. -/
def braces (head : String) (body : Lines) : Lines :=
  block head body "\x7d"

/-- A text in a row of braces: `Name { a, b }`. -/
def inlineBraces (head : String) (parts : List String) : String :=
  head ++ " \x7b " ++ ", ".intercalate parts ++ " \x7d"

def quoted (text : String) : String :=
  "\"" ++ text ++ "\""

def render (lines : Lines) : String :=
  Text.unlines lines

end ContractAbi.Code

namespace ContractAbi

def docLine (entry : String) : String :=
  if Text.allBlank entry.toList then "///"
  else "/// " ++ String.ofList (Text.trimEnd entry.toList)

def docLines (docs : List String) : Code.Lines :=
  docs.map docLine

/-- The name of a primitive in generated code. -/
def Primitive.typeText : Primitive → String
  | .bool => "bool"
  | .u8 => "u8"
  | .u16 => "u16"
  | .u32 => "u32"
  | .u64 => "u64"
  | .bigUint => "BigUint"
  | .bigInt => "BigInt"
  | .bytes => "Vec<u8>"
  | .text => "String"
  | .address => "Address"
  | .tokenIdentifier => "TokenIdentifier"
  | .egldOrEsdtTokenIdentifier => "EgldOrEsdtTokenIdentifier"

/-- The type that the alias of a primitive stands for. -/
def Primitive.aliasTarget : Primitive → String
  | .address => "[u8; 32]"
  | _ => "String"

namespace ResolvedType

def ownedText : ResolvedType → String
  | .primitive kind => kind.typeText
  | .record name | .enum name => Identifier.type name
  | .list element | .variadic element => "Vec<" ++ ownedText element ++ ">"
  | .variadicMulti name _ => "Vec<" ++ name ++ ">"
  | .multi name _ | .tuple name _ => name

/-- Small copyable values are passed as they are and the rest by reference. -/
def parameterText : ResolvedType → String
  | .primitive kind =>
    match kind with
    | .bool | .u8 | .u16 | .u32 | .u64 => kind.typeText
    | .text | .tokenIdentifier | .egldOrEsdtTokenIdentifier => "&str"
    | .bytes => "&[u8]"
    | .bigUint | .bigInt | .address => "&" ++ kind.typeText
  | .enum name => Identifier.type name
  | .record name => "&" ++ Identifier.type name
  | .multi name _ | .tuple name _ => "&" ++ name
  | .list element | .variadic element => "&[" ++ element.ownedText ++ "]"
  | .variadicMulti name _ => "&[" ++ name ++ "]"

def primitiveZero : Primitive → String
  | .bool => "false"
  | .u8 | .u16 | .u32 | .u64 => "0"
  | .bigUint => "BigUint::default()"
  | .bigInt => "BigInt::default()"
  | .bytes => "Vec::new()"
  | .text | .tokenIdentifier | .egldOrEsdtTokenIdentifier => "String::new()"
  | .address => "[0u8; 32]"

/-- An expression for the zero value of a type. Only an enum without variants has none. -/
def zeroText (catalog : Catalog) : ResolvedType → Except ConversionFault String
  | .primitive kind => .ok (primitiveZero kind)
  | .enum name =>
    match Catalog.defaultVariant? ((catalog.enums.get? name).getD []) with
    | some variant => .ok (Identifier.type name ++ "::" ++ Identifier.type variant.name)
    | none => .error (.invalidEnum name .noVariants)
  | .record name => .ok (Identifier.type name ++ "::default()")
  | .tuple name _ | .multi name _ => .ok (name ++ "::default()")
  | .list _ | .variadic _ | .variadicMulti _ _ => .ok "Vec::new()"

end ResolvedType
end ContractAbi
