/-!
Identifiers of generated code, made from the names an ABI document uses. Words are told apart by
separators and by the case of ASCII letters; a reserved word is escaped.
-/
namespace ContractAbi.Identifier

def isSeparator (c : Char) : Bool :=
  c = '-' || c = ' ' || c = '_'

/-- A capital starts a word after a small letter or a digit, and also after a capital when a
small letter follows it. -/
def startsWord (before : Option Char) (c : Char) (after : List Char) : Bool :=
  match before with
  | none => false
  | some b =>
    c.isUpper && (b.isLower || b.isDigit || (b.isUpper && (after.head?.any Char.isLower)))

/-- The rest of a snake-case name. `mayBreak` holds when some character has been written and the
last one was no underscore. -/
def snakeFrom (before : Option Char) (mayBreak : Bool) : List Char → List Char
  | [] => []
  | c :: rest =>
    if isSeparator c then
      if mayBreak then '_' :: snakeFrom (some c) false rest else snakeFrom (some c) false rest
    else
      let word := c.toLower :: snakeFrom (some c) true rest
      if mayBreak && startsWord before c rest then '_' :: word else word

/-- The name in snake case: `getEGLDReserve` becomes `get_egld_reserve`. -/
def snake (name : String) : String :=
  String.ofList (snakeFrom none false name.toList)

/-- Drops separators and writes a capital where a part starts. -/
def pascalFrom (atStart : Bool) : List Char → List Char
  | [] => []
  | c :: rest =>
    if isSeparator c then pascalFrom true rest
    else (if atStart then c.toUpper else c) :: pascalFrom false rest

/-- The name in Pascal case: `unbond_epoch` becomes `UnbondEpoch`. -/
def pascal (name : String) : String :=
  String.ofList (pascalFrom true name.toList)

def lowerHead : List Char → List Char
  | [] => []
  | c :: rest => c.toLower :: rest

/-- The name with a small first letter: `SalsaContract` becomes `salsaContract`. -/
def lowerFirst (name : String) : String :=
  String.ofList (lowerHead name.toList)

/-- Reserved words that a raw identifier may spell. -/
def rawKeywords : List String :=
  ["as", "break", "const", "continue", "else", "enum", "extern", "false", "fn", "for", "if", "impl",
    "in", "let", "loop", "match", "mod", "move", "mut", "pub", "ref", "return", "static", "struct",
    "trait", "true", "type", "unsafe", "use", "where", "while", "async", "await", "dyn", "abstract",
    "become", "box", "do", "final", "macro", "override", "priv", "typeof", "unsized", "virtual",
    "yield", "try", "gen"]

/-- Reserved words that not even a raw identifier may spell. -/
def pathKeywords : List String :=
  ["self", "Self", "super", "crate"]

/-- A reserved word is escaped; an empty name and one that starts with a digit get an
underscore in front. -/
def escape (name : String) : String :=
  if pathKeywords.contains name then name ++ "_"
  else if rawKeywords.contains name then "r#" ++ name
  else if name.toList.head?.all Char.isDigit then "_" ++ name
  else name

/-- The identifier of a record field, an output or a parameter. -/
def field (name : String) : String :=
  escape (snake name)

/-- The identifier of a type or an enum variant. -/
def type (name : String) : String :=
  escape name

/-- Methods that every generated client has. -/
def clientMethods : List String :=
  ["new", "transport", "contract_address"]

/-- The identifier of an endpoint's method. -/
def method (endpoint : String) : String :=
  let name := snake endpoint
  if clientMethods.contains name then name ++ "_endpoint" else escape name

/-- Names that the bodies of generated methods use themselves. -/
def bodyLocals : List String :=
  ["options", "payment", "args", "slots", "data", "outcome"]

/-- `out` followed by digits only, as generated bodies name decoded outputs. -/
def isOutputLocal : List Char → Bool
  | 'o' :: 'u' :: 't' :: number => !number.isEmpty && number.all Char.isDigit
  | _ => false

/-- The identifier of an input parameter, kept apart from the locals of the method body. -/
def parameter (name : String) : String :=
  let ident := field name
  if bodyLocals.contains ident || isOutputLocal ident.toList then ident ++ "_arg" else ident

end ContractAbi.Identifier
