import ContractAbi.Yaml.Scalar

/-!
The tokens of YAML text. Indentation becomes tokens that open and close blocks. Whether a node is
a key is known only at the colon behind it, so the token that says so is put in afterwards, at a
place that was noted when the node began.
-/
namespace ContractAbi.Yaml

inductive Token where
  | version
  | tagHandle (handle stem : String)
  | documentStart | documentEnd
  | blockSequenceStart | blockMappingStart | blockEnd
  | flowSequenceStart | flowSequenceEnd | flowMappingStart | flowMappingEnd
  | blockEntry | flowEntry | key | value
  | alias (name : String)
  | anchor (name : String)
  | tag (handle suffix : String)
  | scalar (text : String) (isPlain : Bool)
  deriving DecidableEq, Repr

/-- The beginning of a node that may turn out to be a key. -/
structure KeySlot where
  /-- The number of tokens before the node. -/
  position : Nat
  /-- Only a key may stand at the indentation of a block. -/
  required : Bool
  start : Cell
  deriving DecidableEq, Repr

structure Lexer where
  tokens : Array Token
  /-- The columns of the open blocks, innermost first. -/
  indents : List Nat
  slot : Option KeySlot
  /-- The slots around each open bracket, innermost first. -/
  outerSlots : List (Option KeySlot)
  keyAllowed : Bool
  deriving DecidableEq, Repr

namespace Lexer

def start : Lexer := ⟨#[], [], none, [], true⟩

def inFlow (lexer : Lexer) : Bool :=
  !lexer.outerSlots.isEmpty

/-- The first column of the content of the innermost block. -/
def contentColumn (lexer : Lexer) : Nat :=
  match lexer.indents with
  | [] => 0
  | indent :: _ => indent + 1

def push (lexer : Lexer) (token : Token) : Lexer :=
  { lexer with tokens := lexer.tokens.push token }

def insert (lexer : Lexer) (position : Nat) (token : Token) : Lexer :=
  { lexer with tokens := lexer.tokens.insertIdxIfInBounds position token }

def allowKey (lexer : Lexer) (allowed : Bool) : Lexer :=
  { lexer with keyAllowed := allowed }

/-- Gives up a slot, unless a key is required there. -/
def clearSlot (lexer : Lexer) : Option Lexer :=
  if lexer.slot.any (·.required) then none else some { lexer with slot := none }

/-- Notes that a key may begin here. -/
def openSlot (lexer : Lexer) (cell : Cell) : Option Lexer :=
  if lexer.keyAllowed then do
    let lexer ← lexer.clearSlot
    let required := !lexer.inFlow && lexer.indents.head? = some cell.column
    return { lexer with slot := some ⟨lexer.tokens.size, required, cell⟩ }
  else some lexer

/-- The length to which a key is recognised. -/
def keyLimit : Nat := 1024

/-- A key ends on the line it began on, within the limit. -/
def isStale (cell : Cell) (slot : KeySlot) : Bool :=
  slot.start.line < cell.line || slot.start.index + keyLimit < cell.index

/-- Drops the slots that are too far behind a cell, unless a key is required there. -/
def dropStale (lexer : Lexer) (cell : Cell) : Option Lexer :=
  let slots := lexer.slot :: lexer.outerSlots
  let isLost := fun (slot : Option KeySlot) => slot.any fun s => isStale cell s && s.required
  if slots.any isLost then none
  else
    let keep := fun (slot : Option KeySlot) => slot.filter (!isStale cell ·)
    some { lexer with slot := keep lexer.slot, outerSlots := lexer.outerSlots.map keep }

/-- Closes the blocks to the right of a column, or all of them. -/
def closeBlocks (lexer : Lexer) (column : Option Nat) : Lexer :=
  if lexer.inFlow then lexer
  else
    let isClosed := fun indent => column.all (· < indent)
    let ends := (lexer.indents.takeWhile isClosed).map fun _ => Token.blockEnd
    { lexer with tokens := lexer.tokens ++ ends, indents := lexer.indents.dropWhile isClosed }

/-- Opens a block at a column that is further right than the innermost block. -/
def openBlock (lexer : Lexer) (column position : Nat) (token : Token) : Lexer :=
  if !lexer.inFlow && lexer.indents.head?.all (· < column) then
    { lexer.insert position token with indents := column :: lexer.indents }
  else lexer

/-- Opens a block at an indicator, which may stand only where a key may. -/
def openBlockHere (lexer : Lexer) (column : Nat) (token : Token) : Option Lexer :=
  if lexer.inFlow then some lexer
  else if lexer.keyAllowed then some (lexer.openBlock column lexer.tokens.size token)
  else none

/-- A line that starts or ends a document. -/
def documentMark (lexer : Lexer) (token : Token) : Option Lexer := do
  let lexer ← (lexer.closeBlocks none).clearSlot
  return (lexer.allowKey false).push token

def openFlow (lexer : Lexer) (cell : Cell) (token : Token) : Option Lexer := do
  let lexer ← lexer.openSlot cell
  return { (lexer.allowKey true).push token with
    slot := none
    outerSlots := lexer.slot :: lexer.outerSlots }

def closeFlow (lexer : Lexer) (token : Token) : Option Lexer := do
  let lexer := (← lexer.clearSlot).allowKey false |>.push token
  match lexer.outerSlots with
  | [] => return lexer
  | slot :: outerSlots => return { lexer with slot, outerSlots }

def flowEntry (lexer : Lexer) : Option Lexer := do
  return (← lexer.clearSlot).allowKey true |>.push .flowEntry

def blockEntry (lexer : Lexer) (cell : Cell) : Option Lexer := do
  let lexer ← lexer.openBlockHere cell.column .blockSequenceStart
  return (← lexer.clearSlot).allowKey true |>.push .blockEntry

/-- The mark of a key that may take several lines. -/
def explicitKey (lexer : Lexer) (cell : Cell) : Option Lexer := do
  let lexer ← lexer.openBlockHere cell.column .blockMappingStart
  return (← lexer.clearSlot).allowKey (!lexer.inFlow) |>.push .key

/-- The colon of a value. It turns the node in the slot into a key. -/
def value (lexer : Lexer) (cell : Cell) : Option Lexer :=
  match lexer.slot with
  | some slot =>
    let lexer := lexer.insert slot.position .key
    let lexer := lexer.openBlock slot.start.column slot.position .blockMappingStart
    some ({ lexer with slot := none }.allowKey false |>.push .value)
  | none => do
    let lexer ← lexer.openBlockHere cell.column .blockMappingStart
    return (lexer.allowKey (!lexer.inFlow)).push .value

def plain (lexer : Lexer) (cell : Cell) (cells : Cells) : Option (Lexer × Cells) := do
  let lexer ← lexer.openSlot cell
  let result ← Plain.scan lexer.inFlow lexer.contentColumn cells
  let token := .scalar (String.ofList result.text) true
  return ((lexer.allowKey result.brokeLine).push token, result.rest)

def quoted (lexer : Lexer) (cell : Cell) (rest : Cells) : Option (Lexer × Cells) := do
  let lexer ← lexer.openSlot cell
  let (text, rest) ← Quoted.scan cell.char rest
  return ((lexer.allowKey false).push (.scalar (String.ofList text) false), rest)

def block (lexer : Lexer) (cell : Cell) (rest : Cells) : Option (Lexer × Cells) := do
  let lexer ← lexer.clearSlot
  let (text, rest) ← Block.scan (cell.char = '>') lexer.contentColumn rest
  return ((lexer.allowKey true).push (.scalar (String.ofList text) false), rest)

/-- What may follow the name of an anchor. -/
def endsName (cells : Cells) : Bool :=
  cells.atGap || cells.startsWith (['?', ':', ',', ']', '\x7d', '%', '@', '\x60'].contains ·)

/-- An anchor or an alias. -/
def anchor (lexer : Lexer) (cell : Cell) (rest : Cells) : Option (Lexer × Cells) := do
  let lexer ← lexer.openSlot cell
  let (name, rest) := rest.spanChars isNameChar
  if name.isEmpty || !endsName rest then none
  else
    let name := String.ofList name
    let token := if cell.char = '&' then Token.anchor name else Token.alias name
    return ((lexer.allowKey false).push token, rest)

/-- The characters of a tag; a tag in angle brackets and a directive have a few more. -/
def isTagChar (c : Char) : Bool :=
  isNameChar c || [';', '/', '?', ':', '@', '&', '=', '+', '$', '.', '!', '~', '*',
    Char.ofNat 39, '(', ')', '%'].contains c

def isUriChar (c : Char) : Bool :=
  isTagChar c || c = ',' || c = '[' || c = ']'

/-- A handle of two marks with a name between them, if one stands here, and what follows it. -/
def namedHandle? (cells : Cells) : Option (List Char × Cells) :=
  let (name, rest) := cells.spanChars isNameChar
  if rest.startsWith (· = '!') then some ('!' :: name ++ ['!'], rest.skip 1) else none

/-- Reads a tag behind its first mark. -/
def tagToken? (cells : Cells) : Option (Token × Cells) :=
  if cells.startsWith (· = '<') then
    let (uri, rest) := (cells.skip 1).spanChars isUriChar
    if uri.isEmpty || !rest.startsWith (· = '>') then none
    else some (.tag "" (String.ofList uri), rest.skip 1)
  else
    match namedHandle? cells with
    | some (handle, rest) =>
      let (suffix, rest) := rest.spanChars isTagChar
      if suffix.isEmpty then none
      else some (.tag (String.ofList handle) (String.ofList suffix), rest)
    | none =>
      let (suffix, rest) := cells.spanChars isTagChar
      if suffix.isEmpty then some (.tag "" "!", rest)
      else some (.tag "!" (String.ofList suffix), rest)

def tag (lexer : Lexer) (cell : Cell) (rest : Cells) : Option (Lexer × Cells) := do
  let lexer ← lexer.openSlot cell
  let (token, rest) ← tagToken? rest
  if rest.atGap || (lexer.inFlow && rest.startsWith (· = ',')) then
    return ((lexer.allowKey false).push token, rest)
  else none

/-- Reads the version in a directive; only the first one of the language is understood. -/
def versionToken? (cells : Cells) : Option (Token × Cells) :=
  let (major, rest) := cells.spanChars Char.isDigit
  let (minor, after) := (rest.skip 1).spanChars Char.isDigit
  if major = ['1'] && rest.startsWith (· = '.') && (minor = ['1'] || minor = ['2']) then
    some (.version, after)
  else none

/-- Reads the handle of a tag directive and what it stands for. -/
def handleToken? (cells : Cells) : Option (Token × Cells) := do
  let (handle, rest) ←
    if cells.startsWith (· = '!') then
      match namedHandle? (cells.skip 1) with
      | some found => some found
      | none => some (['!'], cells.skip 1)
    else none
  let (stem, after) := rest.skipBlanks.spanChars isUriChar
  if rest.startsWith isBlank && !stem.isEmpty then
    return (.tagHandle (String.ofList handle) (String.ofList stem), after)
  else none

/-- Reads a directive behind its mark, to the end of its line. -/
def directive (lexer : Lexer) (rest : Cells) : Option (Lexer × Cells) := do
  let lexer ← (lexer.closeBlocks none).clearSlot
  let (name, rest) := rest.spanChars isNameChar
  let content := rest.skipBlanks
  let (token, rest) ←
    if name = "YAML".toList && rest.atGap then versionToken? content
    else if name = "TAG".toList && rest.atGap then handleToken? content
    else none
  if rest.atGap then return ((lexer.allowKey false).push token, ← rest.skipLineEnd?) else none

/-- Skips white space and comments. A new line allows a key again. A tab is no white space where
a key may begin. -/
def skipGap (inFlow keyAllowed inComment : Bool) : Cells → Bool × Cells
  | [] => (keyAllowed, [])
  | cell :: rest =>
    if isBreak cell.char then skipGap inFlow (keyAllowed || !inFlow) false rest
    else if inComment || cell.char = '#' then skipGap inFlow keyAllowed true rest
    else if cell.char = ' ' || (cell.char = '\t' && (inFlow || !keyAllowed)) ||
        (cell.char = byteOrderMark && cell.column = 0) then
      skipGap inFlow keyAllowed false rest
    else (keyAllowed, cell :: rest)

/-- Takes an indicator and gives the token for it. -/
def indicator? (lexer : Lexer) (cell : Cell) (rest : Cells) : Option (Option Lexer) :=
  let c := cell.char
  if c = '[' then some (lexer.openFlow cell .flowSequenceStart)
  else if c = '\x7b' then some (lexer.openFlow cell .flowMappingStart)
  else if c = ']' then some (lexer.closeFlow .flowSequenceEnd)
  else if c = '\x7d' then some (lexer.closeFlow .flowMappingEnd)
  else if c = ',' then some lexer.flowEntry
  else if c = '-' && rest.atGap then some (lexer.blockEntry cell)
  else if c = '?' && rest.atGap then some (lexer.explicitKey cell)
  else if c = ':' && (lexer.inFlow || rest.atGap) then some (lexer.value cell)
  else none

/-- Takes a token that is no indicator. -/
def node (lexer : Lexer) (cell : Cell) (rest : Cells) : Option (Lexer × Cells) :=
  let c := cell.char
  if c = '*' || c = '&' then lexer.anchor cell rest
  else if c = '!' then lexer.tag cell rest
  else if (c = '|' || c = '>') && !lexer.inFlow then lexer.block cell rest
  else if c = Quoted.singleQuote || c = '"' then lexer.quoted cell rest
  else if Plain.starts lexer.inFlow (cell :: rest) then lexer.plain cell (cell :: rest)
  else none

/-- Takes the token that starts at a cell. -/
def take (lexer : Lexer) (cell : Cell) (rest : Cells) : Option (Lexer × Cells) := do
  let lexer := (← lexer.dropStale cell).closeBlocks (some cell.column)
  if cell.column = 0 && cell.char = '%' then lexer.directive rest
  else if Cells.atRule '-' (cell :: rest) then return (← lexer.documentMark .documentStart, Cells.skip 2 rest)
  else if Cells.atRule '.' (cell :: rest) then return (← lexer.documentMark .documentEnd, Cells.skip 2 rest)
  else
    match lexer.indicator? cell rest with
    | some lexer => return (← lexer, rest)
    | none => lexer.node cell rest

/-- The tokens from some cells on. Each step takes a cell at least. -/
def lexFrom : (steps : Nat) → Lexer → Cells → Option (Array Token)
  | 0, _, _ => none
  | steps + 1, lexer, cells =>
    match skipGap lexer.inFlow lexer.keyAllowed false cells with
    | (_, []) => (lexer.closeBlocks none).clearSlot.map (·.tokens)
    | (keyAllowed, cell :: rest) => do
      let (lexer, rest) ← (lexer.allowKey keyAllowed).take cell rest
      lexFrom steps lexer rest

end Lexer

/-- The tokens of a text, if it is written well. -/
def Token.lex (text : String) : Option (List Token) := do
  let cells ← cells? text
  let tokens ← Lexer.start.lexFrom (cells.length + 1) cells
  return tokens.toList

end ContractAbi.Yaml
