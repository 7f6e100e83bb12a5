import Mathlib
import ContractAbi.Bindings.SourceFile
import ContractAbi.Text.Basic

/-!
# Reading the text of decoders

The statements that decode outputs are read back from their lines. The readers know the fixed texts
of the language and not the functions that wrote them, and what they read from a written line is
what was written.
-/
namespace ContractAbi
namespace DecoderText

/-- Reads the front of a text and gives what is left. -/
abbrev Scan := StateT (List Char) Option

section Scans

variable {α β : Type} {text : String} {rest : List Char}

theorem bind_apply (first : Scan α) (next : α → Scan β) (input : List Char) :
    (first >>= next) input =
      match first input with
      | some (value, rest) => next value rest
      | none => none := by
  simp only [bind, StateT.bind]
  cases first input <;> rfl

theorem lift_apply (value : α) (input : List Char) :
    (liftM (some value) : Scan α) input = some (value, input) :=
  rfl

theorem orElse_of_some {first second : Scan α} {input : List Char} {result : α × List Char}
    (h : first input = some result) : (first <|> second) input = some result := by
  change (first input <|> second input) = some result
  rw [h]
  rfl

theorem orElse_of_none {first second : Scan α} {input : List Char} (h : first input = none) :
    (first <|> second) input = second input := by
  change (first input <|> second input) = second input
  rw [h]
  rfl

def literal (text : String) : Scan Unit := fun input =>
  (input.dropPrefix? text.toList).map ((), ·)

theorem literal_append (text : String) (rest : List Char) :
    literal text (text.toList ++ rest) = some ((), rest) := by
  rw [literal, List.dropPrefix?_append_of_beq rest (beq_self_eq_true text.toList)]
  rfl

/-- A text with another first character is not the literal. -/
theorem literal_of_head_ne {text other : String}
    (h : (text.toList.head?.any fun c => other.toList.head?.any fun d => c != d) = true)
    (rest : List Char) : literal text (other.toList ++ rest) = none := by
  rw [literal]
  cases ht : text.toList with
  | nil => simp [ht] at h
  | cons c front =>
    cases ho : other.toList with
    | nil => simp [ho] at h
    | cons d back =>
      have hne : d ≠ c := fun heq => by simp [ht, ho, heq] at h
      simp [List.dropPrefix?, hne]

/-- The characters of names, numbers and escaped names. -/
def isWordChar (c : Char) : Bool :=
  c.isAlphanum || c = '_' || c = '#'

def IsWord (text : String) : Prop :=
  text.toList ≠ [] ∧ ∀ c ∈ text.toList, isWordChar c = true

theorem isWord_of_all {text : String}
    (h : (!text.toList.isEmpty && text.toList.all isWordChar) = true) : IsWord text := by
  obtain ⟨hne, hall⟩ := Bool.and_eq_true_iff.1 h
  exact ⟨by simpa using hne, List.all_eq_true.1 hall⟩

/-- A word that ends here does not go on in the rest. -/
def Stops (rest : List Char) : Prop :=
  rest.head?.any isWordChar = false

theorem stops_append (text : String) (h : (text.toList.head?.any fun c => !isWordChar c) = true)
    (rest : List Char) : Stops (text.toList ++ rest) := by
  cases ht : text.toList with
  | nil => simp [ht] at h
  | cons c front => simpa [Stops, ht] using h

def word : Scan String := fun input =>
  if (input.takeWhile isWordChar).isEmpty then none
  else some (String.ofList (input.takeWhile isWordChar), input.dropWhile isWordChar)

theorem takeWhile_append_of_stops {isPart : Char → Bool} {front rest : List Char}
    (hfront : ∀ c ∈ front, isPart c = true) (hrest : rest.head?.any isPart = false) :
    (front ++ rest).takeWhile isPart = front ∧ (front ++ rest).dropWhile isPart = rest := by
  rw [List.takeWhile_append_of_pos hfront, List.dropWhile_append_of_pos hfront]
  cases rest with
  | nil => simp
  | cons c rest =>
    have hc : isPart c = false := by simpa using hrest
    simp [hc]

theorem word_of_stops {input : List Char} (h : Stops input) : word input = none := by
  have htake : input.takeWhile isWordChar = [] :=
    (takeWhile_append_of_stops (fun _ hc => absurd hc List.not_mem_nil) h).1
  rw [word, htake]
  rfl

theorem word_append (htext : IsWord text) (hrest : Stops rest) :
    word (text.toList ++ rest) = some (text, rest) := by
  obtain ⟨htake, hdrop⟩ := takeWhile_append_of_stops htext.2 hrest
  have hne : text.toList.isEmpty = false := List.isEmpty_eq_false_iff.2 htext.1
  rw [word, htake, hdrop, hne, String.ofList_toList]
  rfl

def number : Scan Nat := do
  let digits ← word
  digits.toNat?

theorem isWord_toString (n : Nat) : IsWord (toString n) := by
  refine ⟨Text.toList_toString_ne_nil n, fun c hc => ?_⟩
  simp [isWordChar, Char.isAlphanum, Text.isDigit_of_mem_toString hc]

theorem number_append (n : Nat) (hrest : Stops rest) :
    number ((toString n).toList ++ rest) = some (n, rest) := by
  have hread : (toString n).toNat? = some n := Nat.toNat?_repr n
  rw [number, bind_apply, word_append (isWord_toString n) hrest]
  simp only [hread]
  rfl

/-- A reader of the whole line. -/
def whole (scan : Scan α) (line : String) : Option α :=
  match scan line.toList with
  | some (value, []) => some value
  | _ => none

theorem whole_of_eq {scan : Scan α} {line : String} {value : α}
    (h : scan line.toList = some (value, [])) : whole scan line = some value := by
  rw [whole, h]

end Scans

/-- The codec whose name stands behind a prefix. -/
def codecOf? (before method : String) : Option Wire.Codec :=
  Wire.Codec.all.find? fun codec => before ++ codec.name = method

/-- A function that reads one item, either of a declared type or with a variable `item`. -/
def itemFunction (reader : Scan NestedReader) : Scan NestedReader :=
  (do
    let type ← word
    literal "::decode_nested"
    return .declared type) <|>
  (do
    literal "|item| "
    reader)

/-- A method call on the decoder; `item` reads the function that a list takes. -/
def methodCall (item : Scan NestedReader) : Scan NestedReader := do
  let method ← word
  literal "("
  if method = "read_list" then
    let item ← item
    literal ")"
    return .list item
  else
    let codec ← codecOf? "read_" method
    literal ")"
    return .scalar codec

/-- A reader applied to a variable, with lists nested at most `depth` deep. -/
def readerWithin : (depth : Nat) → (decoder : String) → Scan NestedReader
  | 0, _ => failure
  | depth + 1, decoder => do
    let scope ← word
    (do
      literal "::decode_nested("
      literal decoder
      literal ")"
      return .declared scope) <|>
    (do
      literal "."
      if scope = decoder then methodCall (itemFunction (readerWithin depth "item")) else failure)

/-- A reader applied to a variable; lists are nested less deep than the text is long. -/
def reader (decoder : String) : Scan NestedReader := fun input =>
  readerWithin input.length decoder input

end DecoderText

namespace NestedReader

open DecoderText (IsWord)

/-- Declared types are words, and everything has a place inside other data. -/
def Plain : NestedReader → Prop
  | .scalar _ => True
  | .declared type => IsWord type
  | .list item => Plain item
  | .unsupported _ => False

/-- How deep lists are nested. -/
def depth : NestedReader → Nat
  | .scalar _ => 0
  | .declared _ => 0
  | .list item => depth item + 1
  | .unsupported _ => 0

theorem call_scalar (decoder : String) (codec : Wire.Codec) :
    (scalar codec).call decoder = decoder ++ ".read_" ++ codec.name ++ "()" := by
  unfold call
  rfl

theorem call_declared (decoder type : String) :
    (declared type).call decoder = type ++ "::decode_nested(" ++ decoder ++ ")" := by
  unfold call
  rfl

theorem call_list (decoder : String) (item : NestedReader) :
    (list item).call decoder = decoder ++ ".read_list(" ++ item.function ++ ")" := by
  have hopen : ".read_list(|item| " = ".read_list(" ++ "|item| " := by simp
  have hclose : "::decode_nested)" = "::decode_nested" ++ ")" := by simp
  cases item with
  | declared type =>
    have htext : (list (declared type)).call decoder =
        decoder ++ ".read_list(" ++ type ++ "::decode_nested)" := by
      unfold call
      rfl
    simp only [htext, hclose, function, String.append_assoc]
  | _ =>
    conv_lhs => unfold call
    simp only [function, hopen, String.append_assoc]

theorem function_of_not_declared {item : NestedReader} (h : ∀ type, item ≠ .declared type) :
    item.function = "|item| " ++ item.call "item" := by
  cases item with
  | declared type => exact absurd rfl (h type)
  | _ => rfl

end NestedReader

namespace DecoderText

section Readers

variable {rest : List Char}

theorem codecOf?_read (codec : Wire.Codec) :
    codecOf? "read_" ("read_" ++ codec.name) = some codec := by
  cases codec with
  | word size => cases size <;> rfl
  | _ => rfl

theorem codecOf?_top (codec : Wire.Codec) :
    codecOf? "top_decode_" ("top_decode_" ++ codec.name) = some codec := by
  cases codec with
  | word size => cases size <;> rfl
  | _ => rfl

theorem isWord_codecName (before : String) (hbefore : before.toList.all isWordChar = true)
    (codec : Wire.Codec) : IsWord (before ++ codec.name) := by
  have hname : IsWord codec.name := by
    cases codec with
    | word size => cases size <;> exact isWord_of_all (by rfl)
    | _ => exact isWord_of_all (by rfl)
  refine ⟨?_, fun c hc => ?_⟩
  · rw [String.toList_append]
    exact fun h => hname.1 (List.append_eq_nil_iff.1 h).2
  · rw [String.toList_append] at hc
    rcases List.mem_append.1 hc with hc | hc
    · exact List.all_eq_true.1 hbefore c hc
    · exact hname.2 c hc

theorem read_name_ne_read_list (codec : Wire.Codec) : "read_" ++ codec.name ≠ "read_list" := by
  cases codec with
  | word size => cases size <;> decide +kernel
  | _ => decide +kernel

/-- A reader of calls makes a reader of functions. -/
theorem itemFunction_append {scan : Scan NestedReader} {item : NestedReader} (hplain : item.Plain)
    (hscan : scan ((item.call "item").toList ++ rest) = some (item, rest)) :
    itemFunction scan (item.function.toList ++ rest) = some (item, rest) := by
  by_cases hdeclared : ∃ type, item = .declared type
  · obtain ⟨type, rfl⟩ := hdeclared
    have htext : (NestedReader.declared type).function = type ++ "::decode_nested" := rfl
    have hstops := stops_append "::decode_nested" (by rfl) rest
    refine orElse_of_some ?_
    rw [htext, String.toList_append, List.append_assoc, bind_apply, word_append hplain hstops]
    simp only [bind_apply, literal_append]
    rfl
  · have htext := NestedReader.function_of_not_declared fun type h => hdeclared ⟨type, h⟩
    have hstops := stops_append "|item| " (by rfl) ((item.call "item").toList ++ rest)
    rw [htext, String.toList_append, List.append_assoc]
    refine (orElse_of_none ?_).trans ?_
    · rw [bind_apply, word_of_stops hstops]
    · simp only [bind_apply, literal_append, hscan]

theorem methodCall_scalar (item : Scan NestedReader) (codec : Wire.Codec) :
    methodCall item (("read_" ++ codec.name).toList ++ ("()".toList ++ rest)) =
      some (.scalar codec, rest) := by
  have hparens : "()" = "(" ++ ")" := by simp
  have hstops := stops_append "(" (by rfl) (")".toList ++ rest)
  have hword := isWord_codecName "read_" (by rfl) codec
  rw [hparens, String.toList_append (s := "("), List.append_assoc, methodCall, bind_apply,
    word_append hword hstops]
  simp only [bind_apply, literal_append, if_neg (read_name_ne_read_list codec), codecOf?_read,
    lift_apply]
  rfl

theorem methodCall_list {item : Scan NestedReader} {value : NestedReader} {text : String}
    (h : item (text.toList ++ (")".toList ++ rest)) = some (value, ")".toList ++ rest)) :
    methodCall item ("read_list(".toList ++ (text.toList ++ (")".toList ++ rest))) =
      some (.list value, rest) := by
  have hopen : "read_list(" = "read_list" ++ "(" := by simp
  have hword : IsWord "read_list" := isWord_of_all (by rfl)
  have hstops := stops_append "(" (by rfl) (text.toList ++ (")".toList ++ rest))
  rw [hopen, String.toList_append, List.append_assoc, methodCall, bind_apply,
    word_append hword hstops]
  simp only [bind_apply, literal_append, if_pos, h]
  rfl

theorem isWord_item : IsWord "item" :=
  isWord_of_all (by rfl)

/-- A method call on the decoder is read as such. -/
theorem readerWithin_method {depth : Nat} {decoder text : String} {value : NestedReader}
    (hdecoder : IsWord decoder) (h : methodCall (itemFunction (readerWithin depth "item"))
      (text.toList ++ rest) = some (value, rest)) :
    readerWithin (depth + 1) decoder ((decoder ++ "." ++ text).toList ++ rest) =
      some (value, rest) := by
  have hstops := stops_append "." (by rfl) (text.toList ++ rest)
  simp only [String.toList_append, List.append_assoc]
  rw [readerWithin, bind_apply, word_append hdecoder hstops]
  refine (orElse_of_none ?_).trans ?_
  · rw [bind_apply, literal_of_head_ne (by rfl)]
  · rw [bind_apply, literal_append]
    simp only [if_pos, h]

theorem readerWithin_declared {type : String} (htype : IsWord type) (depth : Nat)
    (decoder : String) :
    readerWithin (depth + 1) decoder (((NestedReader.declared type).call decoder).toList ++ rest) =
      some (.declared type, rest) := by
  have hstops := stops_append "::decode_nested(" (by rfl)
    (decoder.toList ++ (")".toList ++ rest))
  simp only [NestedReader.call_declared, String.toList_append, List.append_assoc]
  rw [readerWithin, bind_apply, word_append htype hstops]
  refine orElse_of_some ?_
  simp only [bind_apply, literal_append]
  rfl

theorem readerWithin_call {value : NestedReader} (hplain : value.Plain) {depth : Nat}
    (hdepth : value.depth < depth) {decoder : String} (hdecoder : IsWord decoder) :
    readerWithin depth decoder ((value.call decoder).toList ++ rest) = some (value, rest) := by
  induction value generalizing depth decoder rest with
  | scalar codec =>
    obtain ⟨depth, rfl⟩ : ∃ d, depth = d + 1 := ⟨depth - 1, by omega⟩
    have hdot : ".read_" = "." ++ "read_" := by simp
    have htext : (NestedReader.scalar codec).call decoder =
        decoder ++ "." ++ (("read_" ++ codec.name) ++ "()") := by
      simp only [NestedReader.call_scalar, hdot, String.append_assoc]
    rw [htext]
    refine readerWithin_method hdecoder ?_
    rw [String.toList_append, List.append_assoc]
    exact methodCall_scalar _ codec
  | declared type =>
    obtain ⟨depth, rfl⟩ : ∃ d, depth = d + 1 := ⟨depth - 1, by omega⟩
    exact readerWithin_declared hplain depth decoder
  | list item ih =>
    obtain ⟨depth, rfl⟩ : ∃ d, depth = d + 1 := ⟨depth - 1, by omega⟩
    have hdot : ".read_list(" = "." ++ "read_list(" := by simp
    have htext : (NestedReader.list item).call decoder =
        decoder ++ "." ++ ("read_list(" ++ (item.function ++ ")")) := by
      simp only [NestedReader.call_list, hdot, String.append_assoc]
    have hitem : item.depth < depth := Nat.lt_of_succ_lt_succ hdepth
    rw [htext]
    refine readerWithin_method hdecoder ?_
    simp only [String.toList_append, List.append_assoc]
    exact methodCall_list (itemFunction_append hplain (ih hplain hitem isWord_item))
  | unsupported shape => exact absurd hplain id

theorem depth_lt_length_call {value : NestedReader} (hplain : value.Plain) (decoder : String) :
    value.depth < (value.call decoder).toList.length := by
  have hclose : 0 < ")".toList.length := Nat.zero_lt_succ 0
  induction value generalizing decoder with
  | scalar codec =>
    have hparens : 0 < "()".toList.length := Nat.zero_lt_succ 1
    rw [NestedReader.call_scalar, String.toList_append, List.length_append, NestedReader.depth]
    omega
  | declared type =>
    rw [NestedReader.call_declared, String.toList_append, List.length_append, NestedReader.depth]
    omega
  | list item ih =>
    have hitem : item.depth ≤ item.function.toList.length := by
      by_cases hdeclared : ∃ type, item = .declared type
      · obtain ⟨type, rfl⟩ := hdeclared
        exact Nat.zero_le _
      · have hlt := ih hplain "item"
        rw [NestedReader.function_of_not_declared fun type h => hdeclared ⟨type, h⟩,
          String.toList_append, List.length_append]
        omega
    have hopen : 0 < ".read_list(".toList.length := Nat.zero_lt_succ 10
    simp only [NestedReader.call_list, String.toList_append, List.length_append, NestedReader.depth]
    omega
  | unsupported shape => exact absurd hplain id

/-- A call is read back, whatever follows it. -/
theorem reader_call (rest : List Char) {value : NestedReader} (hplain : value.Plain) {decoder : String}
    (hdecoder : IsWord decoder) :
    reader decoder ((value.call decoder).toList ++ rest) = some (value, rest) := by
  have hdepth := depth_lt_length_call hplain decoder
  refine readerWithin_call hplain ?_ hdecoder
  rw [List.length_append]
  omega

/-- A function is read back, whatever follows it. -/
theorem item_function (rest : List Char) {item : NestedReader} (hplain : item.Plain) :
    itemFunction (reader "item") (item.function.toList ++ rest) = some (item, rest) :=
  itemFunction_append hplain (reader_call rest hplain isWord_item)

end Readers

/-- The decoder of a slot, from the scope and the name of its function. -/
def slotDecoderOf? (scope function : String) : Option SlotDecoder :=
  if function = "top_decode" then some (.declared scope)
  else if scope = "wire" then (codecOf? "top_decode_" function).map .scalar
  else none

def slotDecoder : Scan SlotDecoder := do
  let scope ← word
  literal "::"
  let function ← word
  slotDecoderOf? scope function

/-- The value of a slot of the group, which has to be the one at the index. -/
def member (index : Nat) : Scan MemberDecoder := do
  let scope ← word
  literal "::"
  let function ← word
  literal "(&group["
  let slot ← number
  if slot ≠ index then failure
  else if scope = "wire" ∧ function = "decode_self_terminating" then
    literal "], "
    let item ← itemFunction (reader "item")
    literal ")"
    return .packed item
  else
    literal "])?"
    let decoder ← slotDecoderOf? scope function
    return .slot decoder

def separator (index : Nat) : Scan Unit :=
  if index = 0 then return () else literal ", "

/-- A member under the name of its position. -/
def entry (index : Nat) : Scan MemberDecoder := do
  separator index
  literal "var"
  let position ← number
  literal ": "
  if position = index then member index else failure

/-- So many members from the one at `index` on. -/
def entries (index : Nat) : (count : Nat) → Scan (List MemberDecoder)
  | 0 => return []
  | count + 1 => do
    let first ← entry index
    let rest ← entries (index + 1) count
    return first :: rest

/-- The function from a group to a declared composite with a member for each slot of the group. -/
def groupDecoder (width : Nat) : Scan GroupDecoder := do
  literal "|group| Ok("
  let type ← word
  literal " \x7b "
  let members ← entries 0 width
  literal " \x7d"
  literal ")"
  return ⟨type, members⟩

end DecoderText

def SlotDecoder.Plain : SlotDecoder → Prop
  | .scalar _ => True
  | .declared type => DecoderText.IsWord type

def MemberDecoder.Plain : MemberDecoder → Prop
  | .slot decoder => decoder.Plain
  | .packed item => item.Plain

namespace MemberDecoder

theorem text_slot (index : Nat) (decoder : SlotDecoder) :
    (slot decoder).text index = decoder.function ++ "(&group[" ++ toString index ++ "])?" := by
  unfold text
  rfl

theorem text_packed (index : Nat) (item : NestedReader) :
    (packed item).text index = "wire" ++ "::" ++ "decode_self_terminating" ++ "(&group[" ++
      toString index ++ "], " ++ item.function ++ ")" := by
  have hopen : "wire::decode_self_terminating(&group[" =
      "wire" ++ "::" ++ "decode_self_terminating" ++ "(&group[" := by simp
  unfold text
  simp only [hopen]

end MemberDecoder

/-- The declared type is a word, and there is a member for each of `width` slots. -/
structure GroupDecoder.Plain (decoder : GroupDecoder) (width : Nat) : Prop where
  type : DecoderText.IsWord decoder.type
  width : decoder.members.length = width
  members : ∀ member ∈ decoder.members, member.Plain

namespace DecoderText

section Slots

variable {rest : List Char}

theorem top_name_ne (codec : Wire.Codec) :
    "top_decode_" ++ codec.name ≠ "top_decode" ∧
      "top_decode_" ++ codec.name ≠ "decode_self_terminating" := by
  cases codec with
  | word size => cases size <;> decide +kernel
  | _ => decide +kernel

/-- The function of a slot decoder is a name in a scope, and it is not the one for packed items. -/
theorem exists_path {decoder : SlotDecoder} (hplain : decoder.Plain) :
    ∃ scope name, decoder.function = scope ++ "::" ++ name ∧ IsWord scope ∧ IsWord name ∧
      slotDecoderOf? scope name = some decoder ∧ name ≠ "decode_self_terminating" := by
  cases decoder with
  | scalar codec =>
    obtain ⟨hdeclared, hpacked⟩ := top_name_ne codec
    have htext : "wire::top_decode_" = "wire" ++ "::" ++ "top_decode_" := by simp
    refine ⟨"wire", "top_decode_" ++ codec.name, ?_, isWord_of_all (by rfl),
      isWord_codecName _ (by rfl) codec, ?_, hpacked⟩
    · unfold SlotDecoder.function
      simp only [htext, String.append_assoc]
    · rw [slotDecoderOf?, if_neg hdeclared, if_pos rfl, codecOf?_top]
      rfl
  | declared type =>
    have htext : "::top_decode" = "::" ++ "top_decode" := by simp
    refine ⟨type, "top_decode", ?_, hplain, isWord_of_all (by rfl), ?_, by decide +kernel⟩
    · unfold SlotDecoder.function
      simp only [htext, String.append_assoc]
    · rw [slotDecoderOf?, if_pos rfl]

theorem slotDecoder_function {decoder : SlotDecoder} (hplain : decoder.Plain) (hrest : Stops rest) :
    slotDecoder (decoder.function.toList ++ rest) = some (decoder, rest) := by
  obtain ⟨scope, name, htext, hscope, hname, hread, -⟩ := exists_path hplain
  have hstops := stops_append "::" (by rfl) (name.toList ++ rest)
  rw [htext]
  simp only [String.toList_append, List.append_assoc]
  rw [slotDecoder, bind_apply, word_append hscope hstops]
  simp only [bind_apply, literal_append, word_append hname hrest, hread]
  rfl

theorem member_text {decoder : MemberDecoder} (hplain : decoder.Plain) (index : Nat) :
    member index ((decoder.text index).toList ++ rest) = some (decoder, rest) := by
  cases decoder with
  | slot decoder =>
    obtain ⟨scope, name, htext, hscope, hname, hread, hne⟩ := exists_path hplain
    have hslot := number_append index (stops_append "])?" (by rfl) rest)
    have hcall := stops_append "(&group[" (by rfl)
      ((toString index).toList ++ ("])?".toList ++ rest))
    have hpath := stops_append "::" (by rfl)
      (name.toList ++ ("(&group[".toList ++ ((toString index).toList ++ ("])?".toList ++ rest))))
    rw [MemberDecoder.text_slot, htext]
    simp only [String.toList_append, List.append_assoc]
    rw [member, bind_apply, word_append hscope hpath]
    simp only [bind_apply, literal_append, word_append hname hcall, hslot, ne_eq, not_true_eq_false,
      if_false, hne, and_false, hread, lift_apply]
    rfl
  | packed item =>
    have hscope : IsWord "wire" := isWord_of_all (by rfl)
    have hname : IsWord "decode_self_terminating" := isWord_of_all (by rfl)
    have hitem := item_function (")".toList ++ rest) hplain
    have hslot := number_append index
      (stops_append "], " (by rfl) (item.function.toList ++ (")".toList ++ rest)))
    have hcall := stops_append "(&group[" (by rfl)
      ((toString index).toList ++ ("], ".toList ++ (item.function.toList ++ (")".toList ++ rest))))
    have hpath := stops_append "::" (by rfl) ("decode_self_terminating".toList ++
      ("(&group[".toList ++ ((toString index).toList ++
        ("], ".toList ++ (item.function.toList ++ (")".toList ++ rest))))))
    simp only [MemberDecoder.text_packed, String.toList_append, List.append_assoc]
    rw [member, bind_apply, word_append hscope hpath]
    simp only [bind_apply, literal_append, word_append hname hcall, hslot, ne_eq, not_true_eq_false,
      if_false, and_self, if_true, hitem]
    rfl

/-- The text of a member under the name of its position. -/
def entryText (index : Nat) (decoder : MemberDecoder) : String :=
  memberName index ++ ": " ++ decoder.text index

/-- The texts of members from the one at `index` on, with commas between them. -/
def entriesText (index : Nat) : List MemberDecoder → String
  | [] => ""
  | decoder :: decoders =>
    (if index = 0 then "" else ", ") ++ entryText index decoder ++ entriesText (index + 1) decoders

/-- An entry in front of others, with a comma behind it. -/
theorem intercalate_mapIdx (text : Nat → MemberDecoder → String) (decoder next : MemberDecoder)
    (decoders : List MemberDecoder) :
    ", ".intercalate ((decoder :: next :: decoders).mapIdx text) = text 0 decoder ++
      (", " ++ ", ".intercalate ((next :: decoders).mapIdx fun i d => text (i + 1) d)) := by
  have hne : ((next :: decoders).mapIdx fun i d => text (i + 1) d) ≠ [] := by simp
  rw [List.mapIdx_cons, String.intercalate_cons_of_ne_nil hne, String.append_assoc]

theorem entriesText_succ (index : Nat) (decoder : MemberDecoder) (decoders : List MemberDecoder) :
    entriesText (index + 1) (decoder :: decoders) = ", " ++ ", ".intercalate
      ((decoder :: decoders).mapIdx fun i d => entryText (index + 1 + i) d) := by
  induction decoders generalizing index decoder with
  | nil =>
    rw [entriesText, entriesText, if_neg (Nat.succ_ne_zero index), List.mapIdx_singleton,
      String.intercalate_singleton, String.append_empty]
  | cons next decoders ih =>
    have hshift : (fun i d => entryText (index + 1 + (i + 1)) d) =
        fun i d => entryText (index + 1 + 1 + i) d := by
      funext i d
      rw [Nat.add_comm i, ← Nat.add_assoc]
    rw [entriesText, ih, if_neg (Nat.succ_ne_zero index), intercalate_mapIdx, hshift,
      String.append_assoc]

theorem intercalate_entryText (decoders : List MemberDecoder) :
    ", ".intercalate (decoders.mapIdx entryText) = entriesText 0 decoders := by
  cases decoders with
  | nil => rfl
  | cons decoder decoders =>
    rw [entriesText, if_pos rfl, String.empty_append]
    cases decoders with
    | nil =>
      rw [List.mapIdx_singleton, String.intercalate_singleton, entriesText, String.append_empty]
    | cons next decoders =>
      have hshift : (fun i d => entryText (i + 1) d) = fun i d => entryText (0 + 1 + i) d := by
        funext i d
        rw [Nat.zero_add, Nat.add_comm 1]
      rw [entriesText_succ, intercalate_mapIdx, hshift]

theorem separator_append (index : Nat) :
    separator index ((if index = 0 then "" else ", ").toList ++ rest) = some ((), rest) := by
  by_cases hindex : index = 0
  · rw [separator, if_pos hindex, if_pos hindex]
    rfl
  · rw [separator, if_neg hindex, if_neg hindex, literal_append]

theorem entry_entryText (rest : List Char) {decoder : MemberDecoder} (hplain : decoder.Plain)
    (index : Nat) : entry index
        ((if index = 0 then "" else ", ").toList ++ ((entryText index decoder).toList ++ rest)) =
      some (decoder, rest) := by
  have hposition := number_append index
    (stops_append ": " (by rfl) ((decoder.text index).toList ++ rest))
  rw [entry, bind_apply, separator_append, entryText, memberName]
  simp only [String.toList_append, List.append_assoc, bind_apply, literal_append, hposition,
    if_true, member_text hplain]

theorem entries_entriesText (rest : List Char) {decoders : List MemberDecoder}
    (hplain : ∀ d ∈ decoders, d.Plain) (index : Nat) :
    entries index decoders.length ((entriesText index decoders).toList ++ rest) =
      some (decoders, rest) := by
  induction decoders generalizing index with
  | nil => rfl
  | cons decoder decoders ih =>
    have hfirst := entry_entryText ((entriesText (index + 1) decoders).toList ++ rest)
      (hplain decoder List.mem_cons_self) index
    have hrest := ih (fun d hd => hplain d (List.mem_cons_of_mem _ hd)) (index + 1)
    rw [entriesText, String.toList_append, String.toList_append, List.append_assoc,
      List.append_assoc, List.length_cons, entries]
    simp only [bind_apply, hfirst, hrest]
    rfl

theorem groupDecoder_function (rest : List Char) {decoder : GroupDecoder} {width : Nat}
    (hplain : decoder.Plain width) :
    groupDecoder width (decoder.function.toList ++ rest) = some (decoder, rest) := by
  have htext : decoder.function = "|group| Ok(" ++ (decoder.type ++ " \x7b " ++
      entriesText 0 decoder.members ++ " \x7d") ++ ")" := by
    rw [← intercalate_entryText]
    rfl
  have htype := word_append hplain.type (stops_append " \x7b " (by rfl)
    ((entriesText 0 decoder.members).toList ++ (" \x7d".toList ++ (")".toList ++ rest))))
  have hentries := entries_entriesText (" \x7d".toList ++ (")".toList ++ rest))
    hplain.members 0
  rw [hplain.width] at hentries
  simp only [htext, String.toList_append, List.append_assoc]
  rw [groupDecoder]
  simp only [bind_apply, literal_append, htype, hentries]
  rfl

end Slots

/-- What stands behind the first slot in the call that decodes an output. -/
def outputArguments (method : String) : Scan OutputDecoder := do
  if method = "scalar" then
    let decoder ← slotDecoder
    literal ")?"
    return .scalar decoder
  else if method = "self_terminating" then
    let item ← itemFunction (reader "item")
    literal ")"
    return .selfTerminating item
  else if method = "each_slot" then
    let decoder ← slotDecoder
    literal ")"
    return .eachSlot decoder
  else if method = "groups" then
    let width ← number
    literal ", "
    let decoder ← groupDecoder width
    literal ")"
    return .groups width decoder
  else if method = "group" then
    let width ← number
    literal ", "
    let decoder ← groupDecoder width
    literal ")?"
    return .group width decoder
  else failure

def statement : Scan OutputStatement := do
  literal "let "
  literal "out"
  let index ← number
  literal " = "
  literal "data."
  let method ← word
  literal "("
  let slot ← number
  literal ", "
  let decoder ← outputArguments method
  literal ";"
  return ⟨index, slot, decoder⟩

/-- The statement that a line writes. -/
def statement? (line : String) : Option OutputStatement :=
  whole statement line

end DecoderText

namespace OutputDecoder

def Plain : OutputDecoder → Prop
  | .scalar decoder | .eachSlot decoder => decoder.Plain
  | .selfTerminating item => item.Plain
  | .groups width decoder | .group width decoder => decoder.Plain width

/-- The method of the return data that decodes the output. -/
def method : OutputDecoder → String
  | .scalar _ => "scalar"
  | .selfTerminating _ => "self_terminating"
  | .eachSlot _ => "each_slot"
  | .groups _ _ => "groups"
  | .group _ _ => "group"

/-- The text of what stands behind the first slot. -/
def argumentText : OutputDecoder → String
  | .scalar decoder => decoder.function ++ ")?"
  | .selfTerminating item => item.function ++ ")"
  | .eachSlot decoder => decoder.function ++ ")"
  | .groups width decoder => toString width ++ ", " ++ decoder.function ++ ")"
  | .group width decoder => toString width ++ ", " ++ decoder.function ++ ")?"

theorem text_eq (slot : Nat) (decoder : OutputDecoder) :
    decoder.text slot =
      "data." ++ decoder.method ++ "(" ++ toString slot ++ ", " ++ decoder.argumentText := by
  have hscalar : "data.scalar(" = "data." ++ "scalar" ++ "(" := by simp
  have hpacked : "data.self_terminating(" = "data." ++ "self_terminating" ++ "(" := by simp
  have heach : "data.each_slot(" = "data." ++ "each_slot" ++ "(" := by simp
  have hgroups : "data.groups(" = "data." ++ "groups" ++ "(" := by simp
  have hgroup : "data.group(" = "data." ++ "group" ++ "(" := by simp
  cases decoder with
  | scalar decoder =>
    conv_lhs => unfold text
    simp only [method, argumentText, hscalar, String.append_assoc]
  | selfTerminating item =>
    conv_lhs => unfold text
    simp only [method, argumentText, hpacked, String.append_assoc]
  | eachSlot decoder =>
    conv_lhs => unfold text
    simp only [method, argumentText, heach, String.append_assoc]
  | groups width decoder =>
    conv_lhs => unfold text
    simp only [method, argumentText, hgroups, String.append_assoc]
  | group width decoder =>
    conv_lhs => unfold text
    simp only [method, argumentText, hgroup, String.append_assoc]

theorem isWord_method (decoder : OutputDecoder) : DecoderText.IsWord decoder.method := by
  cases decoder <;> rw [method] <;> exact DecoderText.isWord_of_all (by rfl)

end OutputDecoder

namespace DecoderText

section Statements

variable {rest : List Char}

theorem outputArguments_argumentText (rest : List Char) {decoder : OutputDecoder}
    (hplain : decoder.Plain) : outputArguments decoder.method
      (decoder.argumentText.toList ++ rest) = some (decoder, rest) := by
  cases decoder with
  | scalar decoder =>
    have hdecoder := slotDecoder_function hplain (stops_append ")?" (by rfl) rest)
    rw [OutputDecoder.method, OutputDecoder.argumentText, String.toList_append, List.append_assoc,
      outputArguments, if_pos rfl]
    simp only [bind_apply, hdecoder, literal_append]
    rfl
  | selfTerminating item =>
    have hitem := item_function (")".toList ++ rest) hplain
    rw [OutputDecoder.method, OutputDecoder.argumentText, String.toList_append, List.append_assoc,
      outputArguments, if_neg (by decide +kernel), if_pos rfl]
    simp only [bind_apply, hitem, literal_append]
    rfl
  | eachSlot decoder =>
    have hdecoder := slotDecoder_function hplain (stops_append ")" (by rfl) rest)
    rw [OutputDecoder.method, OutputDecoder.argumentText, String.toList_append, List.append_assoc,
      outputArguments, if_neg (by decide +kernel), if_neg (by decide +kernel), if_pos rfl]
    simp only [bind_apply, hdecoder, literal_append]
    rfl
  | groups width decoder =>
    have hwidth := number_append width (stops_append ", " (by rfl)
      (decoder.function.toList ++ (")".toList ++ rest)))
    have hdecoder := groupDecoder_function (")".toList ++ rest) hplain
    rw [OutputDecoder.method, OutputDecoder.argumentText, outputArguments,
      if_neg (by decide +kernel), if_neg (by decide +kernel), if_neg (by decide +kernel),
      if_pos rfl]
    simp only [String.toList_append, List.append_assoc, bind_apply, hwidth, hdecoder,
      literal_append]
    rfl
  | group width decoder =>
    have hwidth := number_append width (stops_append ", " (by rfl)
      (decoder.function.toList ++ (")?".toList ++ rest)))
    have hdecoder := groupDecoder_function (")?".toList ++ rest) hplain
    rw [OutputDecoder.method, OutputDecoder.argumentText, outputArguments,
      if_neg (by decide +kernel), if_neg (by decide +kernel), if_neg (by decide +kernel),
      if_neg (by decide +kernel), if_pos rfl]
    simp only [String.toList_append, List.append_assoc, bind_apply, hwidth, hdecoder,
      literal_append]
    rfl

/-- A statement is read back from its line. -/
theorem statement?_line {statement : OutputStatement} (hplain : statement.decoder.Plain) :
    statement? statement.line = some statement := by
  obtain ⟨index, slot, decoder⟩ := statement
  have hindex := number_append index (stops_append " = " (by rfl) ("data.".toList ++
    (decoder.method.toList ++ ("(".toList ++ ((toString slot).toList ++ (", ".toList ++
      (decoder.argumentText.toList ++ ";".toList)))))))
  have hmethod := word_append decoder.isWord_method (stops_append "(" (by rfl)
    ((toString slot).toList ++ (", ".toList ++ (decoder.argumentText.toList ++ ";".toList))))
  have hslot := number_append slot (stops_append ", " (by rfl)
    (decoder.argumentText.toList ++ ";".toList))
  have harguments := outputArguments_argumentText (";".toList) hplain
  have hend : literal ";" ";".toList = some ((), []) := by
    have h := literal_append ";" []
    rwa [List.append_nil] at h
  refine whole_of_eq ?_
  simp only [OutputStatement.line, OutputDecoder.text_eq, outputVariable, String.toList_append,
    List.append_assoc]
  rw [statement]
  simp only [bind_apply, literal_append, hindex, hmethod, hslot, harguments, hend]
  rfl

/-- A line that begins in another way is no statement. -/
theorem statement?_of_head_ne {front back : String}
    (h : ("let ".toList.head?.any fun c => front.toList.head?.any fun d => c != d) = true) :
    statement? (front ++ back) = none := by
  rw [statement?, whole, statement, bind_apply, String.toList_append, literal_of_head_ne h]

theorem statement?_of_variable_ne {front back : String}
    (h : ("out".toList.head?.any fun c => front.toList.head?.any fun d => c != d) = true) :
    statement? ("let " ++ (front ++ back)) = none := by
  rw [statement?, whole, statement, bind_apply, String.toList_append, literal_append]
  simp only [bind_apply, String.toList_append, literal_of_head_ne h]

end Statements

end DecoderText
end ContractAbi
