import ContractAbi.Proofs.DecoderText
import ContractAbi.Proofs.Results

/-!
# The bodies of declared decoders

The decoder functions of records and enums are read back from the lines of their declarations, and
the statements of a method from the lines of its body.
-/
namespace ContractAbi

/-- What the decoder functions of a declared type do. -/
inductive DecoderItem where
  /-- Reads the fields in order and builds the record. -/
  | record (type : String) (fields : List (String × NestedReader))
  /-- Picks the first variant with the discriminant; `label` names the enum in faults. -/
  | enum (type label : String) (cases : List (UInt8 × String))

namespace DecoderText

/-- A name with a colon behind it; the name has no blanks. -/
def label : Scan String := fun input =>
  match (input.takeWhile (· ≠ ' ')).reverse with
  | ':' :: front => some (String.ofList front.reverse, input.dropWhile (· ≠ ' '))
  | _ => none

/-- All of the text but its given end. -/
def ending (back : String) : Scan String := fun input =>
  (input.dropSuffix? back.toList).map fun front => (String.ofList front, [])

/-- The type of an implementation. -/
def implementation : Scan String := do
  literal "impl "
  ending " \x7b"

/-- A field with the reader of its value. -/
def fieldEntry : Scan (String × NestedReader) := do
  literal "        "
  let name ← label
  literal " "
  let value ← reader "decoder"
  literal "?,"
  return (name, value)

/-- A variant of the type with its discriminant. -/
def enumCase (type : String) : Scan (UInt8 × String) := do
  literal "      "
  let discriminant ← number
  literal " => Ok("
  literal type
  literal "::"
  let variant ← ending "),"
  if discriminant < 256 then return (UInt8.ofNat discriminant, variant) else failure

/-- What happens to other discriminants. -/
def enumFailure : Scan String := do
  literal "      _ => Err(WireError::UnknownDiscriminant \x7b type_name: \""
  ending "\".to_string(), value \x7d),"

def recordOpening : List String :=
  ["  pub fn decode_nested(decoder: &mut NestedDecoder<'_>) -> Result<Self, WireError> \x7b",
    "    decoder.read_with(|decoder| \x7b",
    "      Ok(Self \x7b"]

def recordClosing : List String :=
  ["      \x7d)",
    "    \x7d)",
    "  \x7d",
    "",
    "  pub fn top_decode(slot: &[u8]) -> Result<Self, WireError> \x7b",
    "    wire::decode_record(slot, Self::decode_nested)",
    "  \x7d",
    "\x7d"]

def enumOpening : List String :=
  ["  pub fn try_from_discriminant(value: u8) -> Result<Self, WireError> \x7b",
    "    match value \x7b"]

def enumClosing : List String :=
  ["    \x7d",
    "  \x7d",
    "",
    "  pub fn discriminant(self) -> u8 \x7b",
    "    self as u8",
    "  \x7d",
    "",
    "  pub fn decode_nested(decoder: &mut NestedDecoder<'_>) -> Result<Self, WireError> \x7b",
    "    decoder.read_with(|decoder| Self::try_from_discriminant(decoder.read_u8()?))",
    "  \x7d",
    "",
    "  pub fn top_decode(slot: &[u8]) -> Result<Self, WireError> \x7b",
    "    Self::try_from_discriminant(wire::top_decode_u8(slot)?)",
    "  \x7d",
    "\x7d"]

def record? : List String → Option DecoderItem
  | [] => none
  | head :: lines => do
    let type ← whole implementation head
    let lines ← lines.dropPrefix? recordOpening
    let entries ← lines.dropSuffix? recordClosing
    return .record type (← entries.mapM (whole fieldEntry))

def enum? : List String → Option DecoderItem
  | [] => none
  | head :: lines => do
    let type ← whole implementation head
    let lines ← lines.dropPrefix? enumOpening
    let lines ← lines.dropSuffix? enumClosing
    let label ← whole enumFailure (← lines.getLast?)
    return .enum type label (← lines.dropLast.mapM (whole (enumCase type)))

/-- The decoder functions that the lines of an implementation write. -/
def item? (lines : List String) : Option DecoderItem :=
  record? lines <|> enum? lines

end DecoderText

namespace Code

theorem nestLine_eq {line : String} (h : line ≠ "") : nestLine line = "  " ++ line := by
  have hempty : line.isEmpty = false := by simpa using h
  have hblanks : String.ofList (List.replicate 2 ' ') = "  " := rfl
  rw [nestLine, hempty, indent, hblanks]
  rfl

theorem nestLine_three {line : String} (h : line ≠ "") :
    nestLine (nestLine (nestLine line)) = "      " ++ line := by
  have hne : ∀ text : String, text ≠ "" → "  " ++ text ≠ "" := by
    intro text htext heq
    exact htext (String.append_eq_empty_iff.1 heq).2
  have hblanks : "      " = "  " ++ ("  " ++ "  ") := by simp
  rw [nestLine_eq h, nestLine_eq (hne _ h), nestLine_eq (hne _ (hne _ h)), hblanks]
  simp only [String.append_assoc]

theorem nestLine_four {line : String} (h : line ≠ "") :
    nestLine (nestLine (nestLine (nestLine line))) = "        " ++ line := by
  have hblanks : "        " = "  " ++ "      " := by simp
  have hne : "      " ++ line ≠ "" := fun heq => h (String.append_eq_empty_iff.1 heq).2
  rw [nestLine_three h, nestLine_eq hne, hblanks, String.append_assoc]

theorem append_ne_empty {front back : String} (h : back ≠ "") : front ++ back ≠ "" :=
  fun heq => h (String.append_eq_empty_iff.1 heq).2

end Code

namespace RecordItem

def decoder (item : RecordItem) : DecoderItem :=
  .record item.name (item.fields.map fun field => (field.name, field.reader))

/-- The line that reads a field. -/
def fieldText (field : FieldItem) : String :=
  "        " ++ (field.name ++ ":" ++ " " ++ (field.reader.call "decoder" ++ "?,"))

theorem nestLine_entryLine (field : FieldItem) :
    Code.nestLine (Code.nestLine (Code.nestLine (Code.nestLine
      (entryLine field.name (field.reader.call "decoder" ++ "?"))))) = fieldText field := by
  have hcolon : ": " = ":" ++ " " := by simp
  have hclose : "?," = "?" ++ "," := by simp
  have hne : entryLine field.name (field.reader.call "decoder" ++ "?") ≠ "" :=
    Code.append_ne_empty (by simp)
  rw [Code.nestLine_four hne]
  simp only [fieldText, entryLine, hcolon, hclose, String.append_assoc]

theorem decoderLines_eq (item : RecordItem) :
    item.decoderLines = ("impl " ++ item.name ++ " \x7b") ::
      (DecoderText.recordOpening ++ (item.fields.map fieldText ++ DecoderText.recordClosing)) := by
  unfold decoderLines
  simp only [Code.braces, Code.block, Code.nest, List.map_append, List.map_cons, List.map_nil,
    List.map_map, Function.comp_def, nestLine_entryLine, List.cons_append, List.nil_append,
    List.append_assoc]
  exact congrArg (List.cons _) rfl

end RecordItem

namespace EnumItem

def decoder (item : EnumItem) : DecoderItem :=
  .enum item.name item.label (item.variants.map fun variant => (variant.2, variant.1))

/-- The line of a variant. -/
def caseText (item : EnumItem) (variant : String × UInt8) : String :=
  "      " ++ (toString variant.2.toNat ++
    (" => Ok(" ++ (item.name ++ ("::" ++ (variant.1 ++ "),")))))

/-- The line of all other discriminants. -/
def failureText (item : EnumItem) : String :=
  "      _ => Err(WireError::UnknownDiscriminant \x7b type_name: \"" ++
    (item.label ++ "\".to_string(), value \x7d),")

theorem nestLine_caseLine (item : EnumItem) (variant : String × UInt8) :
    Code.nestLine (Code.nestLine (Code.nestLine (item.caseLine variant))) =
      item.caseText variant := by
  have hne : item.caseLine variant ≠ "" := Code.append_ne_empty (by simp)
  rw [Code.nestLine_three hne]
  simp only [caseText, caseLine, String.append_assoc]

theorem nestLine_failLine (item : EnumItem) :
    Code.nestLine (Code.nestLine (Code.nestLine item.failLine)) = item.failureText := by
  have hopen : "      _ => Err(WireError::UnknownDiscriminant \x7b type_name: \"" =
      "      " ++ ("_ => Err(WireError::UnknownDiscriminant \x7b type_name: " ++ "\"") := by simp
  have hclose : "\".to_string(), value \x7d)," = "\"" ++ ".to_string(), value \x7d)," := by simp
  have hne : item.failLine ≠ "" := Code.append_ne_empty (by simp)
  rw [Code.nestLine_three hne]
  unfold failureText failLine Code.quoted
  simp only [hopen, hclose, String.append_assoc]

theorem decoderLines_eq (item : EnumItem) :
    item.decoderLines = ("impl " ++ item.name ++ " \x7b") :: (DecoderText.enumOpening ++
      ((item.variants.map item.caseText ++ [item.failureText]) ++ DecoderText.enumClosing)) := by
  unfold decoderLines
  simp only [Code.braces, Code.block, Code.nest, List.map_append, List.map_cons, List.map_nil,
    List.map_map, Function.comp_def, nestLine_caseLine, nestLine_failLine, List.cons_append,
    List.nil_append, List.append_assoc]
  exact congrArg (List.cons _) rfl

end EnumItem

namespace DecoderText

theorem label_append (rest : List Char) {name : String} (h : ' ' ∉ name.toList) :
    label (name.toList ++ (":".toList ++ (" ".toList ++ rest))) =
      some (name, " ".toList ++ rest) := by
  have hfront : ∀ c ∈ name.toList ++ ":".toList, decide (c ≠ ' ') = true := by
    intro c hc
    rcases List.mem_append.1 hc with hc | hc
    · exact decide_eq_true fun heq => h (heq ▸ hc)
    · obtain rfl : c = ':' := List.mem_singleton.1 hc
      rfl
  have htake : (" ".toList ++ rest).takeWhile (· ≠ ' ') = [] := rfl
  have hdrop : (" ".toList ++ rest).dropWhile (· ≠ ' ') = " ".toList ++ rest := rfl
  have hreverse : (name.toList ++ ":".toList).reverse = ':' :: name.toList.reverse := by
    rw [List.reverse_append]
    rfl
  rw [← List.append_assoc, label, List.takeWhile_append_of_pos hfront, htake, List.append_nil,
    hreverse, List.dropWhile_append_of_pos hfront, hdrop]
  simp only [List.reverse_reverse, String.ofList_toList]

theorem ending_append (front back : String) :
    ending back (front.toList ++ back.toList) = some (front, []) := by
  have hdrop : (front.toList ++ back.toList).dropSuffix? back.toList = some front.toList :=
    List.dropSuffix?_eq_some_iff.2 ⟨back.toList, rfl, beq_self_eq_true _⟩
  rw [ending, hdrop, Option.map_some, String.ofList_toList]

theorem implementation_append (type : String) :
    whole implementation ("impl " ++ type ++ " \x7b") = some type := by
  refine whole_of_eq ?_
  simp only [String.toList_append, List.append_assoc]
  rw [implementation, bind_apply, literal_append]
  exact ending_append type _

theorem fieldEntry_fieldText {field : FieldItem} (hname : ' ' ∉ field.name.toList)
    (hplain : field.reader.Plain) :
    whole fieldEntry (RecordItem.fieldText field) = some (field.name, field.reader) := by
  have hlabel := label_append ((field.reader.call "decoder").toList ++ "?,".toList) hname
  have hdecoder : IsWord "decoder" := isWord_of_all (by rfl)
  have hreader := reader_call "?,".toList hplain hdecoder
  have hend := literal_append "?," []
  rw [List.append_nil] at hend
  refine whole_of_eq ?_
  unfold RecordItem.fieldText
  simp only [String.toList_append, List.append_assoc]
  rw [fieldEntry]
  simp only [bind_apply, literal_append, hlabel, hreader, hend]
  rfl

theorem enumCase_caseText (item : EnumItem) (variant : String × UInt8) :
    whole (enumCase item.name) (item.caseText variant) = some (variant.2, variant.1) := by
  have hnumber := number_append variant.2.toNat (stops_append " => Ok(" (by rfl)
    (item.name.toList ++ ("::".toList ++ (variant.1.toList ++ "),".toList))))
  have hbyte : variant.2.toNat < 256 := variant.2.toNat_lt
  refine whole_of_eq ?_
  unfold EnumItem.caseText
  simp only [String.toList_append]
  rw [enumCase]
  simp only [bind_apply, literal_append, hnumber, ending_append, if_pos hbyte, UInt8.ofNat_toNat]
  rfl

theorem enumFailure_failureText (item : EnumItem) :
    whole enumFailure item.failureText = some item.label := by
  refine whole_of_eq ?_
  unfold EnumItem.failureText
  simp only [String.toList_append]
  rw [enumFailure, bind_apply, literal_append]
  exact ending_append item.label _

theorem dropPrefix?_append (front back : List String) :
    (front ++ back).dropPrefix? front = some back :=
  List.dropPrefix?_append_of_beq back (beq_self_eq_true front)

theorem dropSuffix?_append (front back : List String) :
    (front ++ back).dropSuffix? back = some front :=
  List.dropSuffix?_eq_some_iff.2 ⟨back, rfl, beq_self_eq_true back⟩

/-- The decoder functions of a record are read back from its implementation. -/
theorem item?_record {item : RecordItem}
    (hnames : ∀ field ∈ item.fields, ' ' ∉ field.name.toList)
    (hplain : ∀ field ∈ item.fields, field.reader.Plain) :
    item? item.decoderLines = some item.decoder := by
  have hfields : (item.fields.map RecordItem.fieldText).mapM (whole fieldEntry) =
      some (item.fields.map fun field => (field.name, field.reader)) :=
    mapM_map_eq_some fun field hfield =>
      fieldEntry_fieldText (hnames field hfield) (hplain field hfield)
  have hrecord : record? item.decoderLines = some item.decoder := by
    rw [RecordItem.decoderLines_eq, record?, implementation_append]
    simp only [Option.bind_eq_bind, Option.bind_some, dropPrefix?_append, dropSuffix?_append,
      hfields]
    rfl
  rw [item?, hrecord]
  rfl

/-- The decoder functions of an enum are read back from its implementation. -/
theorem item?_enum (item : EnumItem) : item? item.decoderLines = some item.decoder := by
  have hcases : (item.variants.map item.caseText).mapM (whole (enumCase item.name)) =
      some (item.variants.map fun variant => (variant.2, variant.1)) :=
    mapM_map_eq_some fun variant _ => enumCase_caseText item variant
  have hrecord : record? item.decoderLines = none := by
    rw [EnumItem.decoderLines_eq, record?, implementation_append]
    rfl
  have henum : enum? item.decoderLines = some item.decoder := by
    rw [EnumItem.decoderLines_eq, enum?, implementation_append]
    simp only [Option.bind_eq_bind, Option.bind_some, dropPrefix?_append, dropSuffix?_append,
      List.getLast?_concat, List.dropLast_concat, enumFailure_failureText, hcases]
    rfl
  rw [item?, hrecord, henum]
  rfl

end DecoderText

/-- The statements in the body of a method, in order. -/
def Method.statements (method : Method) : List OutputStatement :=
  method.sendLines.filterMap DecoderText.statement?

/-- The line that keeps the returned slots for an endpoint. -/
def dataLine (endpoint : String) : String :=
  "let data = ReturnData::new(" ++ Code.quoted endpoint ++ ", &slots);"

/-- The implementation of the decoders of a declared type, if it has any. -/
def TypeItem.decoderLines : TypeItem → Code.Lines
  | .record item => if item.hasDecoders then item.decoderLines else []
  | .enum item => item.decoderLines

/-- The implementation stands among the lines of the type. -/
theorem TypeItem.decoderLines_infix (item : TypeItem) : item.decoderLines <:+: item.lines := by
  cases item with
  | record item =>
    have hlines : (TypeItem.record item).lines = docLines item.docs ++ item.structLines ++ [""] ++
        (if item.hasDecoders then item.decoderLines ++ [""] else []) ++ item.zeroLines := rfl
    rw [hlines, decoderLines]
    cases item.hasDecoders with
    | true =>
      rw [if_pos rfl, if_pos rfl]
      exact ⟨docLines item.docs ++ item.structLines ++ [""], [""] ++ item.zeroLines, by
        simp only [List.append_assoc]⟩
    | false => exact List.nil_infix
  | enum item =>
    exact ⟨docLines item.docs ++ item.declarationLines ++ [""],
      [""] ++ item.zeroLines ++ [""] ++ item.argumentLines, by
        simp only [decoderLines, lines, EnumItem.lines, List.append_assoc]⟩

def TypeItem.decoder? (item : TypeItem) : Option DecoderItem :=
  DecoderText.item? item.decoderLines

/-- The decoders that a file declares. -/
def SourceFile.decoders (file : SourceFile) : List DecoderItem :=
  file.types.filterMap TypeItem.decoder?

namespace Method

open DecoderText

variable {method : Method}

theorem statement?_queryText (method : Method) : statement? method.queryText = none := by
  unfold queryText
  simp only [String.append_assoc]
  exact statement?_of_head_ne (by rfl)

theorem statement?_slots (method : Method) :
    statement? ("let slots = " ++ method.queryText) = none := by
  have hopen : "let slots = " = "let " ++ "slots = " := by simp
  rw [hopen, String.append_assoc]
  exact statement?_of_variable_ne (by rfl)

theorem statement?_dataLine (endpoint : String) : statement? (dataLine endpoint) = none := by
  have hopen : "let data = ReturnData::new(" = "let " ++ "data = ReturnData::new(" := by simp
  unfold dataLine
  simp only [hopen, String.append_assoc]
  exact statement?_of_variable_ne (by rfl)

theorem statement?_result (result : String) : statement? ("Ok(" ++ result ++ ")") = none := by
  rw [String.append_assoc]
  exact statement?_of_head_ne (by rfl)

theorem filterMap_statement? {statements : List OutputStatement}
    (hplain : ∀ s ∈ statements, s.decoder.Plain) :
    (statements.map OutputStatement.line).filterMap statement? = statements := by
  induction statements with
  | nil => rfl
  | cons first rest ih =>
    rw [List.map_cons, List.filterMap_cons_some (statement?_line (hplain first List.mem_cons_self)),
      ih fun s hs => hplain s (List.mem_cons_of_mem _ hs)]

/-- The statements of a query are read back from the lines of its method. -/
theorem statements_query {outputs : List OutputStatement} {decodes : Bool} {result : String}
    (hbody : method.body = .query outputs decodes result)
    (hplain : ∀ s ∈ outputs, s.decoder.Plain) : method.statements = outputs := by
  have hlast : ["Ok(" ++ result ++ ")"].filterMap statement? = [] := by
    rw [List.filterMap_cons_none (statement?_result result), List.filterMap_nil]
  have hslots : ["let slots = " ++ method.queryText, dataLine method.endpoint].filterMap
      statement? = [] := by
    rw [List.filterMap_cons_none (statement?_slots method),
      List.filterMap_cons_none (statement?_dataLine _), List.filterMap_nil]
  have hquery : [method.queryText].filterMap statement? = [] := by
    rw [List.filterMap_cons_none (statement?_queryText method), List.filterMap_nil]
  rw [statements, sendLines, hbody]
  cases decodes with
  | true =>
    change List.filterMap statement?
      (["let slots = " ++ method.queryText, dataLine method.endpoint] ++ _ ++ _) = _
    rw [List.filterMap_append, List.filterMap_append, hslots, hlast, filterMap_statement? hplain,
      List.nil_append, List.append_nil]
  | false =>
    change List.filterMap statement? ([method.queryText] ++ _ ++ _) = _
    rw [List.filterMap_append, List.filterMap_append, hquery, hlast, filterMap_statement? hplain,
      List.nil_append, List.append_nil]

/-- A query that decodes keeps its slots under the name of its endpoint. -/
theorem dataLine_mem {outputs : List OutputStatement} {result : String}
    (hbody : method.body = .query outputs true result) :
    dataLine method.endpoint ∈ method.sendLines := by
  rw [sendLines, hbody]
  exact List.mem_append_left _ (List.mem_append_left _ (List.mem_cons_of_mem _ List.mem_cons_self))

end Method
end ContractAbi
