import ContractAbi.Json.Token

/-!
Reading JSON text: the tokens are taken one at a time by a machine that keeps the open arrays and
objects on a stack.
-/
namespace ContractAbi.Json

/-- Members read so far, last first; a name with half of a surrogate pair is no text. -/
abbrev PartialMembers := List (Option String × Json)

/-- An array or object that is not closed yet. -/
inductive Frame where
  | array (items : List Json)
  | object (members : PartialMembers) (name : Option String)
  deriving Repr

/-- What must come next. -/
inductive ReadState where
  | item (frames : List Frame)
  | firstItem (frames : List Frame)
  | afterItem (items : List Json) (frames : List Frame)
  | firstName (frames : List Frame)
  | nextName (members : PartialMembers) (frames : List Frame)
  | colon (members : PartialMembers) (name : Option String) (frames : List Frame)
  | afterMember (members : PartialMembers) (frames : List Frame)
  | done (value : Json)
  deriving Repr

/-- The state after a complete value. -/
def ReadState.complete (value : Json) : List Frame → ReadState
  | [] => .done value
  | .array items :: frames => .afterItem (value :: items) frames
  | .object members name :: frames => .afterMember ((name, value) :: members) frames

/-- An object whose names are all texts; another one can only be passed over. -/
def ofMembers (members : PartialMembers) : Json :=
  match members.reverse.mapM fun m => m.1.map (·, m.2) with
  | some named => .object named
  | none => .damaged

/-- The value of a word: a literal or a number. -/
def ofWord? (word : List Char) : Option Json :=
  if word = "null".toList then some .null
  else if word = "true".toList then some (.bool true)
  else if word = "false".toList then some (.bool false)
  else
    (Numeral.parts? word).map fun parts =>
      if parts.exceedsDouble then .damaged else .number (String.ofList word)

/-- Takes a token that starts a value. -/
def ReadState.startValue (frames : List Frame) : Token → Option ReadState
  | .openArray => some (.firstItem frames)
  | .openObject => some (.firstName frames)
  | .word lexeme => (ofWord? lexeme).map fun value => .complete value frames
  | .text value => some (.complete (.text (String.ofList value)) frames)
  | .halfText => some (.complete .damaged frames)
  | _ => none

/-- The name that a token gives to a member, if it can be a name. -/
def nameOf? : Token → Option (Option String)
  | .text value => some (some (String.ofList value))
  | .halfText => some none
  | _ => none

def ReadState.step : ReadState → Token → Option ReadState
  | .item frames, token => startValue frames token
  | .firstItem frames, .closeArray => some (.complete (.array []) frames)
  | .firstItem frames, token => startValue (.array [] :: frames) token
  | .afterItem items frames, .comma => some (.item (.array items :: frames))
  | .afterItem items frames, .closeArray => some (.complete (.array items.reverse) frames)
  | .firstName frames, .closeObject => some (.complete (.object []) frames)
  | .firstName frames, token => (nameOf? token).map fun name => .colon [] name frames
  | .nextName members frames, token => (nameOf? token).map fun name => .colon members name frames
  | .colon members name frames, .colon => some (.item (.object members name :: frames))
  | .afterMember members frames, .comma => some (.nextName members frames)
  | .afterMember members frames, .closeObject => some (.complete (ofMembers members) frames)
  | _, _ => none

def ofTokens? (tokens : List Token) : Option Json :=
  match tokens.foldlM ReadState.step (.item []) with
  | some (.done value) => some value
  | _ => none

/-- The value of a JSON text. -/
def parse? (text : String) : Option Json :=
  (Token.lex text.toList).bind ofTokens?

end ContractAbi.Json
