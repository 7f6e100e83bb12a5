import ContractAbi.Data
import ContractAbi.Yaml.Token

/-!
The nodes of a YAML document, read from its tokens as data. A text holds one document at most; an
alias stands for the node with its anchor, and a node that is left out is an empty plain scalar.
-/
namespace ContractAbi.Yaml

/-- The tokens that are left and the nodes with anchors, latest first. -/
structure Source where
  tokens : List Token
  anchors : List (String × Data)
  deriving Repr

/-- A step that reads tokens and fails where they make no document. -/
abbrev Parse := StateT Source Option

namespace Parse

/-- The next token; none at the end of the text. -/
def peek : Parse (Option Token) :=
  return (← get).tokens.head?

def advance : Parse Unit :=
  modify fun source => { source with tokens := source.tokens.drop 1 }

/-- Takes a token if it comes next. -/
def accept (token : Token) : Parse Bool := do
  if (← peek) = some token then
    advance
    return true
  else return false

def expect (token : Token) : Parse Unit := do
  if ← accept token then return () else failure

/-- Whether one of some tokens comes next. -/
def atAny (tokens : List Token) : Parse Bool :=
  return (← peek).any tokens.contains

end Parse

open Parse

/-- The handles that tags may start with. -/
abbrev Handles := List (String × String)

def standardHandles : Handles :=
  [("!", "!"), ("!!", "tag:yaml.org,2002:")]

def textTag : String := "tag:yaml.org,2002:str"

/-- A tag with its handle replaced. -/
def Handles.resolve? (handles : Handles) (handle suffix : String) : Option String :=
  if handle.isEmpty then some suffix else (handles.lookup handle).map (· ++ suffix)

structure Properties where
  anchor : Option String
  tag : Option String
  deriving DecidableEq, Repr

/-- Whether a node has an anchor or a tag. -/
def Properties.isGiven (properties : Properties) : Bool :=
  properties.anchor.isSome || properties.tag.isSome

/-- A scalar as data. Only a plain one takes its meaning from the place where it stands. -/
def Properties.scalar (properties : Properties) (text : String) (isPlain : Bool) : Data :=
  if !isPlain then .text text
  else if properties.tag = some textTag then .tagged text
  else .plain text

def emptyNode : Data := .plain ""

def anchor? : Parse (Option String) := do
  match ← peek with
  | some (.anchor name) => do
    advance
    return some name
  | _ => return none

def tag? (handles : Handles) : Parse (Option String) := do
  match ← peek with
  | some (.tag handle suffix) => do
    advance
    let tag ← handles.resolve? handle suffix
    return some tag
  | _ => return none

/-- An anchor and a tag, in either order. -/
def properties (handles : Handles) : Parse Properties := do
  let early ← anchor?
  let tag ← tag? handles
  match early with
  | some anchor => return ⟨some anchor, tag⟩
  | none => return ⟨← anchor?, tag⟩

/-- Gives a node its anchor. -/
def bindAnchor (properties : Properties) (node : Data) : Parse Data := do
  match properties.anchor with
  | some name => modify fun source => { source with anchors := (name, node) :: source.anchors }
  | none => pure ()
  return node

def aliased (name : String) : Parse Data := do
  (← get).anchors.lookup name

/-- Whether a list may stand in the place of a node without an indentation of its own, whether
any block may, or none. -/
inductive Place where
  | flow | block | blockValue
  deriving DecidableEq, Repr

mutual

/-- Reads a node, unless one of the given tokens shows that it was left out. -/
def optionalNode (handles : Handles) (place : Place) (ends : List Token) (fuel : Nat) :
    Parse Data := do
  if ← atAny ends then return emptyNode else node handles place fuel
termination_by (fuel, 1)

def node (handles : Handles) (place : Place) (fuel : Nat) : Parse Data := do
  match fuel, ← peek with
  | 0, _ => failure
  | _, some (.alias name) => do
    advance
    aliased name
  | fuel + 1, _ => do
    let properties ← properties handles
    bindAnchor properties (← content handles place properties fuel)
termination_by (fuel, 0)

/-- Reads a node behind its properties. -/
def content (handles : Handles) (place : Place) (properties : Properties) (fuel : Nat) :
    Parse Data := do
  match ← peek, place with
  | some (.scalar text isPlain), _ => do
    advance
    return properties.scalar text isPlain
  | some .flowSequenceStart, _ => do
    advance
    return .list (← flowItems handles true fuel)
  | some .flowMappingStart, _ => do
    advance
    return .map (← flowEntries handles true fuel)
  | some .blockEntry, .blockValue => return .list (← looseItems handles fuel)
  | some .blockSequenceStart, .block | some .blockSequenceStart, .blockValue => do
    advance
    return .list (← blockItems handles fuel)
  | some .blockMappingStart, .block | some .blockMappingStart, .blockValue => do
    advance
    return .map (← blockEntries handles fuel)
  | _, _ => if properties.isGiven then return properties.scalar "" true else failure
termination_by (fuel, 2)

/-- Reads the items of a block that has an indentation of its own. -/
def blockItems (handles : Handles) : Nat → Parse (List Data)
  | 0 => failure
  | fuel + 1 => do
    if ← accept .blockEnd then return []
    expect .blockEntry
    let item ← optionalNode handles .block [.blockEntry, .blockEnd] fuel
    return item :: (← blockItems handles fuel)
termination_by fuel => (fuel, 0)

/-- Reads items that stand at the indentation of the key before them. -/
def looseItems (handles : Handles) : Nat → Parse (List Data)
  | 0 => failure
  | fuel + 1 => do
    if ← accept .blockEntry then
      let item ← optionalNode handles .block [.blockEntry, .key, .value, .blockEnd] fuel
      return item :: (← looseItems handles fuel)
    else return []
termination_by fuel => (fuel, 0)

/-- Reads entries. Each starts with the mark of a key, and its value may be left out. -/
def blockEntries (handles : Handles) : Nat → Parse (List (Data × Data))
  | 0 => failure
  | fuel + 1 => do
    if ← accept .blockEnd then return []
    let ends := [.key, .value, .blockEnd]
    expect .key
    let key ← optionalNode handles .blockValue ends fuel
    let value ←
      if ← accept .value then optionalNode handles .blockValue ends fuel else pure emptyNode
    return (key, value) :: (← blockEntries handles fuel)
termination_by fuel => (fuel, 0)

/-- Reads the items in brackets; one that is an entry stands for a map with this entry alone. -/
def flowItems (handles : Handles) (isFirst : Bool) : Nat → Parse (List Data)
  | 0 => failure
  | fuel + 1 => do
    if ← accept .flowSequenceEnd then return []
    if !isFirst then expect .flowEntry
    if ← accept .flowSequenceEnd then return []
    let item ←
      if ← accept .key then
        let ends := [.flowEntry, .flowSequenceEnd]
        let key ← optionalNode handles .flow (.value :: ends) fuel
        let value ←
          if ← accept .value then optionalNode handles .flow ends fuel else pure emptyNode
        pure (.map [(key, value)])
      else node handles .flow fuel
    return item :: (← flowItems handles false fuel)
termination_by fuel => (fuel, 0)

/-- Reads the entries in braces; a lone node is a key. -/
def flowEntries (handles : Handles) (isFirst : Bool) : Nat → Parse (List (Data × Data))
  | 0 => failure
  | fuel + 1 => do
    if ← accept .flowMappingEnd then return []
    if !isFirst then expect .flowEntry
    if ← accept .flowMappingEnd then return []
    let ends := [.flowEntry, .flowMappingEnd]
    if ← accept .key then
      let key ← optionalNode handles .flow (.value :: ends) fuel
      let value ← if ← accept .value then optionalNode handles .flow ends fuel else pure emptyNode
      return (key, value) :: (← flowEntries handles false fuel)
    else
      let key ← node handles .flow fuel
      return (key, emptyNode) :: (← flowEntries handles false fuel)
termination_by fuel => (fuel, 0)

end

/-- Reads directives, each of which may stand once. -/
def directives : (seen : List String) → Handles → List Token → Option (Handles × List Token)
  | seen, handles, .version :: rest =>
    if seen.contains "" then none else directives ("" :: seen) handles rest
  | seen, handles, .tagHandle handle stem :: rest =>
    if seen.contains handle then none
    else directives (handle :: seen) ((handle, stem) :: handles) rest
  | _, handles, tokens => some (handles, tokens)

/-- Reads a document; none if the text is over. -/
def document (fuel : Nat) : Parse (Option Data) := do
  let tokens := (← get).tokens
  let (handles, rest) ← directives [] standardHandles tokens
  modify fun source => { source with tokens := rest }
  if ← accept .documentStart then
    let isOver := (← peek).all [.version, .documentStart, .documentEnd].contains
    if isOver then return some emptyNode
    else some <$> node handles .block fuel
  else if rest.length < tokens.length then failure
  else if rest.isEmpty then return none
  else some <$> node handles .block fuel

/-- Reads the only document of a text. -/
def onlyDocument (fuel : Nat) : Parse Data := do
  let found ← document fuel
  let after := (← get).tokens
  if after.all (· = .documentEnd) then return found.getD emptyNode else failure

/-- The data of a YAML text. A text without a document is empty data. -/
def parse? (text : String) : Option Data := do
  let tokens ← Token.lex text
  let (data, _) ← (onlyDocument (3 * (tokens.length + 1))).run ⟨tokens, []⟩
  return data

end ContractAbi.Yaml
