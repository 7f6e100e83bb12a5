import ContractAbi.Proofs.Results
import ContractAbi.Json.Printer
import ContractAbi.Json.Reader
import ContractAbi.Text.Basic

/-!
# Written values are read back

Between a JSON value and its text stand its tokens. However the text is laid out, it has the tokens of
its value, and the reader, given the tokens, puts the value together again.
-/
namespace ContractAbi.Json

open Token

theorem units?_escape {e c : Char} (h : escaped? e = some c) (rest : List Char) :
    units? ('\\' :: e :: rest) = (units? rest).map (consUnit (.char c)) := by
  rw [units?, h]
  · cases units? rest <;> rfl
  · rintro a b d e r rfl -
    simp [escaped?] at h

theorem units?_hex {a b c d : Char} {unit : TextUnit} (h : TextUnit.ofHex? a b c d = some unit)
    (rest : List Char) :
    units? ('\\' :: 'u' :: a :: b :: c :: d :: rest) = (units? rest).map (consUnit unit) := by
  rw [units?, h]
  cases units? rest <;> rfl

/-- The hexadecimal digits of a control character read as the character. -/
theorem ofHex?_digits {c : Char} (h : c.toNat < 0x20) :
    TextUnit.ofHex? '0' '0' (Hex.digit (c.toNat / 16)) (Hex.digit (c.toNat % 16)) = some (.char c) := by
  have hall : ∀ n : Fin 32, TextUnit.ofHex? '0' '0' (Hex.digit (n / 16)) (Hex.digit (n % 16)) =
      some (.char (Char.ofNat n)) := by decide
  rw [hall ⟨c.toNat, h⟩, Char.ofNat_toNat]

/-- An escaped character reads as the character. -/
theorem units?_escapeChar (c : Char) (rest : List Char) :
    units? (escapeChar c ++ rest) = (units? rest).map (consUnit (.char c)) := by
  unfold escapeChar
  split_ifs with hquote hslash hb hf hn hr ht hlow
  · exact units?_escape (by rw [hquote]; rfl) rest
  · exact units?_escape (by rw [hslash]; rfl) rest
  · exact units?_escape (by rw [hb]; rfl) rest
  · exact units?_escape (by rw [hf]; rfl) rest
  · exact units?_escape (by rw [hn]; rfl) rest
  · exact units?_escape (by rw [hr]; rfl) rest
  · exact units?_escape (by rw [ht]; rfl) rest
  · exact units?_hex (ofHex?_digits hlow) rest
  · rw [List.singleton_append, units?]
    · rw [if_neg (by simp [hlow, hslash])]
    · exact hquote
    · rintro a b d e r rfl
      exact absurd rfl hslash
    · rintro d r rfl
      exact absurd rfl hslash

theorem units?_escaped (text rest : List Char) :
    units? (text.flatMap escapeChar ++ '"' :: rest) = some (text.map .char, rest) := by
  induction text with
  | nil => rfl
  | cons c text ih =>
    rw [List.flatMap_cons, List.append_assoc, units?_escapeChar, ih]
    rfl

theorem joinUnits?_chars (text : List Char) : joinUnits? (text.map .char) = some text := by
  induction text with
  | nil => rfl
  | cons c text ih =>
    rw [List.map_cons, joinUnits?, ih]
    rfl

theorem lex_space {c : Char} (h : isSpace c = true) (rest : List Char) : lex (c :: rest) = lex rest := by
  rw [lex, if_pos h]

theorem lex_spaces {gap : List Char} (h : ∀ c ∈ gap, isSpace c = true) (rest : List Char) :
    lex (gap ++ rest) = lex rest := by
  induction gap with
  | nil => rfl
  | cons c gap ih =>
    rw [List.cons_append, lex_space (h c List.mem_cons_self),
      ih fun other hother => h other (List.mem_cons_of_mem _ hother)]

theorem lex_punctuation {c : Char} {token : Token} (h : punctuation? c = some token)
    (rest : List Char) : lex (c :: rest) = (lex rest).map (token :: ·) := by
  have hspace : isSpace c = false := by
    by_contra hspace
    simp only [isSpace, Bool.not_eq_false, Bool.or_eq_true, decide_eq_true_eq] at hspace
    rcases hspace with ((rfl | rfl) | rfl) | rfl <;> cases h
  have hquote : c ≠ '"' := by
    rintro rfl
    cases h
  rw [lex, if_neg (by simp [hspace]), if_neg hquote]
  simp only [h]

theorem lex_quote (text : String) (rest : List Char) :
    lex (quote text ++ rest) = (lex rest).map (.text text.toList :: ·) := by
  have hunits := units?_escaped text.toList rest
  simp only [quote, List.cons_append, List.append_assoc, List.nil_append]
  rw [lex, if_neg (by decide), if_pos rfl]
  split
  · rename_i hnone
    rw [hunits] at hnone
    cases hnone
  · rename_i units after hsome
    rw [hunits] at hsome
    obtain ⟨rfl, rfl⟩ := Prod.mk.inj (Option.some.inj hsome)
    rw [ofUnits, joinUnits?_chars]

/-- A word before the text ends with it. -/
def Ends (rest : List Char) : Prop :=
  ∀ c ∈ rest.head?, isWordChar c = false

theorem ends_spaces {gap rest : List Char} (h : ∀ c ∈ gap, isSpace c = true) (hrest : Ends rest) :
    Ends (gap ++ rest) := by
  cases gap with
  | nil => exact hrest
  | cons c gap =>
    intro other hother
    obtain rfl : c = other := by simpa using hother
    simp [isWordChar, h c List.mem_cons_self]

theorem lex_word {word rest : List Char} (hne : word ≠ []) (hword : ∀ c ∈ word, isWordChar c = true)
    (hrest : Ends rest) : lex (word ++ rest) = (lex rest).map (.word word :: ·) := by
  cases word with
  | nil => exact absurd rfl hne
  | cons c word =>
    have hfirst := hword c List.mem_cons_self
    simp only [isWordChar, Bool.and_eq_true, Bool.not_eq_true', decide_eq_true_eq,
      Option.isNone_iff_eq_none] at hfirst
    obtain ⟨⟨hspace, hquote⟩, hpunctuation⟩ := hfirst
    have hothers : ∀ other ∈ word, isWordChar other = true := fun other hother =>
      hword other (List.mem_cons_of_mem _ hother)
    have htake : rest.takeWhile isWordChar = [] := by
      cases rest with
      | nil => rfl
      | cons other rest => exact List.takeWhile_cons_of_neg (by simp [hrest other rfl])
    have hdrop : rest.dropWhile isWordChar = rest := by
      have happend := List.takeWhile_append_dropWhile (p := isWordChar) (l := rest)
      rwa [htake] at happend
    rw [List.cons_append, lex, if_neg (by simp [hspace]), if_neg hquote]
    simp only [hpunctuation]
    rw [List.takeWhile_append_of_pos hothers, List.dropWhile_append_of_pos hothers, htake, hdrop,
      List.append_nil]

mutual

/-- The tokens that a value is written with. -/
def tokens : Json → List Token
  | .null => [.word "null".toList]
  | .bool true => [.word "true".toList]
  | .bool false => [.word "false".toList]
  | .number lexeme => [.word lexeme.toList]
  | .text value => [.text value.toList]
  | .array items => .openArray :: (tokensOfItems items ++ [.closeArray])
  | .object members => .openObject :: (tokensOfMembers members ++ [.closeObject])
  | .damaged => [.halfText]

def tokensOfItems : List Json → List Token
  | [] => []
  | [item] => tokens item
  | item :: rest => tokens item ++ .comma :: tokensOfItems rest

def tokensOfMembers : List (String × Json) → List Token
  | [] => []
  | [(name, value)] => .text name.toList :: .colon :: tokens value
  | (name, value) :: rest =>
    .text name.toList :: .colon :: (tokens value ++ .comma :: tokensOfMembers rest)

end

/-- The text is that of a number within the range of doubles. -/
structure IsNumeral (lexeme : String) : Prop where
  read : ofWord? lexeme.toList = some (.number lexeme)
  word : ∀ c ∈ lexeme.toList, isWordChar c = true

theorem IsNumeral.ne_nil {lexeme : String} (h : IsNumeral lexeme) : lexeme.toList ≠ [] := by
  intro hnil
  have hread := h.read
  rw [hnil] at hread
  cases hread

mutual

/-- All numbers in the value are spelled as numbers, and none of it is damaged. -/
def IsSound : Json → Prop
  | .number lexeme => IsNumeral lexeme
  | .array items => AllSound items
  | .object members => MembersSound members
  | .damaged => False
  | .null | .bool _ | .text _ => True

def AllSound : List Json → Prop
  | [] => True
  | item :: rest => IsSound item ∧ AllSound rest

def MembersSound : List (String × Json) → Prop
  | [] => True
  | member :: rest => IsSound member.2 ∧ MembersSound rest

end

theorem allSound_iff {items : List Json} : AllSound items ↔ ∀ item ∈ items, item.IsSound := by
  induction items with
  | nil => simp [AllSound]
  | cons item rest ih => simp [AllSound, ih]

theorem membersSound_iff {members : List (String × Json)} :
    MembersSound members ↔ ∀ member ∈ members, member.2.IsSound := by
  induction members with
  | nil => simp [MembersSound]
  | cons member rest ih => simp [MembersSound, ih]

@[simp] theorem isSound_null : null.IsSound := by
  rw [IsSound]
  trivial

@[simp] theorem isSound_bool (value : Bool) : (bool value).IsSound := by
  rw [IsSound]
  trivial

@[simp] theorem isSound_text (value : String) : (text value).IsSound := by
  rw [IsSound]
  trivial

@[simp] theorem isSound_array {items : List Json} :
    (array items).IsSound ↔ ∀ item ∈ items, item.IsSound := by
  rw [IsSound, allSound_iff]

@[simp] theorem isSound_object {members : List (String × Json)} :
    (object members).IsSound ↔ ∀ member ∈ members, member.2.IsSound := by
  rw [IsSound, membersSound_iff]

@[simp] theorem isSound_texts (lines : List String) : (texts lines).IsSound := by
  simp [texts]

theorem isWordChar_of_isDigit {c : Char} (h : c.isDigit = true) : isWordChar c = true := by
  have hother {other : Char} (hdigit : other.isDigit = false) : c ≠ other := by
    rintro rfl
    rw [h] at hdigit
    cases hdigit
  simp [isWordChar, isSpace, punctuation?, hother]

/-- No needless zero stands before a number. -/
theorem head?_toDigits {n : Nat} (h : 0 < n) : (Nat.toDigits 10 n).head? ≠ some '0' := by
  induction n using Nat.strong_induction_on with
  | h n ih =>
    rcases Nat.lt_or_ge n 10 with hn | hn
    · rw [Nat.toDigits_of_lt_base hn, List.head?_cons]
      interval_cases n <;> decide
    · rw [Nat.toDigits_of_base_le (by decide) hn, List.head?_append_of_ne_nil _ Nat.toDigits_ne_nil]
      exact ih (n / 10) (by omega) (by omega)

theorem isWhole_toDigits (n : Nat) : Numeral.isWhole (Nat.toDigits 10 n) = true := by
  rcases Nat.eq_zero_or_pos n with rfl | hn
  · rfl
  · have hhead := head?_toDigits hn
    cases hdigits : Nat.toDigits 10 n with
    | nil => exact absurd hdigits Nat.toDigits_ne_nil
    | cons c rest =>
      rw [hdigits] at hhead
      have hc : c ≠ '0' := fun hc => hhead (by rw [hc, List.head?_cons])
      simp [Numeral.isWhole, hc]

theorem parts?_toString (n : Nat) :
    Numeral.parts? (toString n).toList = some ⟨(toString n).toList, [], false, []⟩ := by
  have hdigits : ∀ c ∈ (toString n).toList, c.isDigit = true := fun c hc =>
    Text.isDigit_of_mem_toString hc
  have hwhole : Numeral.isWhole (toString n).toList = true := by
    rw [Text.toList_toString, isWhole_toDigits]
  have hsign : Numeral.withoutSign (· = '-') (toString n).toList = (toString n).toList := by
    cases hcons : (toString n).toList with
    | nil => rfl
    | cons c rest =>
      have hdigit := hdigits c (hcons ▸ List.mem_cons_self)
      refine if_neg fun hc => ?_
      rw [of_decide_eq_true hc] at hdigit
      cases hdigit
  have htake : (toString n).toList.takeWhile Char.isDigit = (toString n).toList := by
    simpa using hdigits
  have hdrop : (toString n).toList.dropWhile Char.isDigit = [] := by
    simpa using hdigits
  simp only [Numeral.parts?, hsign, htake, hdrop, hwhole, if_true]
  rfl

/-- A whole number of less than 300 digits is no larger than a double can be. -/
theorem exceedsDouble_whole {digits : List Char} (h : digits.length < 300) :
    Numeral.Parts.exceedsDouble ⟨digits, [], false, []⟩ = false := by
  have hdrop := (List.dropWhile_sublist (· = '0') (l := digits)).length_le
  have horder : ((digits.dropWhile (· = '0')).length : Int) < 300 := by omega
  simp [Numeral.Parts.exceedsDouble, Numeral.digitsValue, horder]

/-- The digits of a natural number of 64 bits are a number. -/
theorem isNumeral_toString {n : Nat} (h : n < UInt64.size) : IsNumeral (toString n) := by
  have hword {word : List Char} (hword : word.any fun c => !c.isDigit) :
      (toString n).toList ≠ word := by
    rintro rfl
    obtain ⟨c, hc, hdigit⟩ := List.any_eq_true.1 hword
    simp [Text.isDigit_of_mem_toString hc] at hdigit
  have hlength : (toString n).toList.length ≤ 20 := by
    rw [Text.toList_toString]
    exact (Nat.length_toDigits_le_iff (by decide) (by decide)).2 (lt_trans h (by decide))
  refine ⟨?_, fun c hc => isWordChar_of_isDigit (Text.isDigit_of_mem_toString hc)⟩
  rw [ofWord?, if_neg (hword rfl), if_neg (hword rfl), if_neg (hword rfl), parts?_toString,
    Option.map_some, exceedsDouble_whole (hlength.trans_lt (by decide)), String.ofList_toList]
  rfl

theorem isSound_natural {n : Nat} (h : n < UInt64.size) : (natural n).IsSound := by
  rw [natural, IsSound]
  exact isNumeral_toString h

mutual

/-- The text of a value with a gap of its own before each part and each closing bracket of a level,
and a space behind each colon. -/
def laidOut (gap : Nat → List Char) (space : List Char) (level : Nat) : Json → List Char
  | .array [] => ['[', ']']
  | .array items => '[' :: laidOutItems gap space (level + 1) items ++ gap level ++ [']']
  | .object [] => ['\x7b', '\x7d']
  | .object members =>
    '\x7b' :: laidOutMembers gap space (level + 1) members ++ gap level ++ ['\x7d']
  | value => atom value

def laidOutItems (gap : Nat → List Char) (space : List Char) (level : Nat) : List Json → List Char
  | [] => []
  | [item] => gap level ++ laidOut gap space level item
  | item :: rest =>
    gap level ++ laidOut gap space level item ++ ',' :: laidOutItems gap space level rest

def laidOutMembers (gap : Nat → List Char) (space : List Char) (level : Nat) :
    List (String × Json) → List Char
  | [] => []
  | [(name, value)] => gap level ++ quote name ++ ':' :: space ++ laidOut gap space level value
  | (name, value) :: rest =>
    gap level ++ quote name ++ ':' :: space ++ laidOut gap space level value ++
      ',' :: laidOutMembers gap space level rest

end

mutual

theorem compactChars_eq (level : Nat) :
    (value : Json) → compactChars value = laidOut (fun _ => []) [] level value
  | .array [] => rfl
  | .array (item :: rest) => by
    rw [compactChars, laidOut, compactItems_eq (level + 1)]
    · simp
    · simp
  | .object [] => rfl
  | .object (member :: rest) => by
    rw [compactChars, laidOut, compactMembers_eq (level + 1)]
    · simp
    · simp
  | .null | .bool _ | .number _ | .text _ | .damaged => rfl

theorem compactItems_eq (level : Nat) :
    (items : List Json) → compactItems items = laidOutItems (fun _ => []) [] level items
  | [] => rfl
  | [item] => by simp [compactItems, laidOutItems, compactChars_eq level item]
  | item :: next :: rest => by
    simp [compactItems, laidOutItems, compactChars_eq level item, compactItems_eq level (next :: rest)]

theorem compactMembers_eq (level : Nat) :
    (members : List (String × Json)) →
      compactMembers members = laidOutMembers (fun _ => []) [] level members
  | [] => rfl
  | [(name, value)] => by simp [compactMembers, laidOutMembers, compactChars_eq level value]
  | (name, value) :: next :: rest => by
    simp [compactMembers, laidOutMembers, compactChars_eq level value,
      compactMembers_eq level (next :: rest)]

end

mutual

theorem prettyChars_eq (level : Nat) :
    (value : Json) → prettyChars level value = laidOut lineAt [' '] level value
  | .array [] => rfl
  | .array (item :: rest) => by
    rw [prettyChars, laidOut, prettyItems_eq (level + 1)]
    · simp
    · simp
  | .object [] => rfl
  | .object (member :: rest) => by
    rw [prettyChars, laidOut, prettyMembers_eq (level + 1)]
    · simp
    · simp
  | .null | .bool _ | .number _ | .text _ | .damaged => rfl

theorem prettyItems_eq (level : Nat) :
    (items : List Json) → prettyItems level items = laidOutItems lineAt [' '] level items
  | [] => rfl
  | [item] => by simp [prettyItems, laidOutItems, prettyChars_eq level item]
  | item :: next :: rest => by
    simp [prettyItems, laidOutItems, prettyChars_eq level item, prettyItems_eq level (next :: rest)]

theorem prettyMembers_eq (level : Nat) :
    (members : List (String × Json)) →
      prettyMembers level members = laidOutMembers lineAt [' '] level members
  | [] => rfl
  | [(name, value)] => by simp [prettyMembers, laidOutMembers, prettyChars_eq level value]
  | (name, value) :: next :: rest => by
    simp [prettyMembers, laidOutMembers, prettyChars_eq level value,
      prettyMembers_eq level (next :: rest)]

end

/-- Behind an opening bracket items are read like behind a comma: none begins with a closing
bracket. -/
theorem foldlM_firstItem {items : List Json} (hne : items ≠ []) (rest : List Token)
    (frames : List Frame) :
    (tokensOfItems items ++ rest).foldlM ReadState.step (.firstItem frames) =
      (tokensOfItems items ++ rest).foldlM ReadState.step (.item (.array [] :: frames)) := by
  have hvalue (value : Json) (rest : List Token) :
      (value.tokens ++ rest).foldlM ReadState.step (.firstItem frames) =
        (value.tokens ++ rest).foldlM ReadState.step (.item (.array [] :: frames)) := by
    cases value with
    | bool value => cases value <;> rfl
    | _ => rfl
  match items with
  | [] => exact absurd rfl hne
  | [item] => exact hvalue item rest
  | item :: next :: others =>
    rw [tokensOfItems, List.append_assoc]
    · exact hvalue item _
    · simp

/-- Members whose names are texts, last first, as the reader keeps them. -/
def partialMembers (members : List (String × Json)) : PartialMembers :=
  members.reverse.map fun member => (some member.1, member.2)

@[simp] theorem partialMembers_concat (members : List (String × Json)) (name : String)
    (value : Json) :
    partialMembers (members ++ [(name, value)]) = (some name, value) :: partialMembers members := by
  simp [partialMembers]

theorem ofMembers_partialMembers (members : List (String × Json)) :
    ofMembers (partialMembers members) = .object members := by
  have hnamed : (members.map fun member => (some member.1, member.2)).mapM
      (fun member : Option String × Json => member.1.map (·, member.2)) = some (members.map id) :=
    mapM_map_eq_some fun _ _ => rfl
  rw [ofMembers, partialMembers, ← List.map_reverse, List.reverse_reverse, hnamed, List.map_id]

theorem step_nextName (members : PartialMembers) (name : String) (frames : List Frame) :
    ReadState.step (.nextName members frames) (.text name.toList) =
      some (.colon members (some name) frames) := by
  simp [ReadState.step, nameOf?, String.ofList_toList]

mutual

/-- The tokens of a value make a complete value of it. -/
theorem foldlM_tokens : (value : Json) → value.IsSound → ∀ frames : List Frame,
    value.tokens.foldlM ReadState.step (.item frames) = some (.complete value frames)
  | .null, _, _ => rfl
  | .bool true, _, _ => rfl
  | .bool false, _, _ => rfl
  | .number lexeme, h, frames => by
    have hnumeral : IsNumeral lexeme := h
    simp [tokens, ReadState.step, ReadState.startValue, hnumeral.read]
  | .text value, _, frames => by
    simp [tokens, ReadState.step, ReadState.startValue, String.ofList_toList]
  | .array [], _, _ => rfl
  | .array (item :: rest), h, frames =>
    (foldlM_firstItem (List.cons_ne_nil item rest) [.closeArray] frames).trans
      (foldlM_items (item :: rest) (List.cons_ne_nil _ _) h [] frames)
  | .object [], _, _ => rfl
  | .object [(name, value)], h, frames =>
    foldlM_members [(name, value)] (List.cons_ne_nil _ _) h [] frames
  | .object ((name, value) :: next :: rest), h, frames =>
    foldlM_members ((name, value) :: next :: rest) (List.cons_ne_nil _ _) h [] frames

theorem foldlM_items : (items : List Json) → items ≠ [] → AllSound items →
    ∀ (seen : List Json) (frames : List Frame),
      (tokensOfItems items ++ [Token.closeArray]).foldlM ReadState.step
        (.item (.array seen.reverse :: frames)) = some (.complete (.array (seen ++ items)) frames)
  | [], hne, _, _, _ => absurd rfl hne
  | [item], _, h, seen, frames => by
    rw [tokensOfItems, List.foldlM_append, foldlM_tokens item h.1]
    change some (ReadState.complete (.array (item :: seen.reverse).reverse) frames) = _
    rw [List.reverse_cons, List.reverse_reverse]
  | item :: next :: rest, _, h, seen, frames => by
    have hrest := foldlM_items (next :: rest) (List.cons_ne_nil _ _) h.2 (seen ++ [item]) frames
    rw [List.reverse_concat, List.append_assoc] at hrest
    rw [tokensOfItems, List.append_assoc, List.foldlM_append, foldlM_tokens item h.1]
    · exact hrest
    · simp

theorem foldlM_members : (members : List (String × Json)) → members ≠ [] → MembersSound members →
    ∀ (seen : List (String × Json)) (frames : List Frame),
      (tokensOfMembers members ++ [Token.closeObject]).foldlM ReadState.step
        (.nextName (partialMembers seen) frames) =
          some (.complete (.object (seen ++ members)) frames)
  | [], hne, _, _, _ => absurd rfl hne
  | [(name, value)], _, h, seen, frames => by
    rw [tokensOfMembers, List.cons_append, List.cons_append, List.foldlM_cons, step_nextName]
    change (value.tokens ++ [Token.closeObject]).foldlM ReadState.step
      (.item (.object (partialMembers seen) (some name) :: frames)) = _
    rw [List.foldlM_append, foldlM_tokens value h.1]
    change some (ReadState.complete (ofMembers ((some name, value) :: partialMembers seen)) frames) = _
    rw [← partialMembers_concat, ofMembers_partialMembers]
  | (name, value) :: next :: rest, _, h, seen, frames => by
    have hrest := foldlM_members (next :: rest) (List.cons_ne_nil _ _) h.2
      (seen ++ [(name, value)]) frames
    rw [partialMembers_concat, List.append_assoc] at hrest
    rw [tokensOfMembers, List.cons_append, List.cons_append, List.foldlM_cons, step_nextName]
    · change (value.tokens ++ Token.comma :: tokensOfMembers (next :: rest) ++
        [Token.closeObject]).foldlM ReadState.step
          (.item (.object (partialMembers seen) (some name) :: frames)) = _
      rw [List.append_assoc, List.foldlM_append, foldlM_tokens value h.1]
      exact hrest
    · simp

end

theorem ofTokens?_tokens {value : Json} (h : value.IsSound) : ofTokens? value.tokens = some value := by
  rw [ofTokens?, foldlM_tokens value h []]
  rfl

/-- Around a value and between its parts stand blanks only. -/
structure IsBlank (gap : Nat → List Char) (space : List Char) : Prop where
  gap : ∀ level, ∀ c ∈ gap level, isSpace c = true
  space : ∀ c ∈ space, isSpace c = true

theorem ends_cons {c : Char} (h : isWordChar c = false) (rest : List Char) : Ends (c :: rest) := by
  rintro other hother
  obtain rfl : c = other := by simpa using hother
  exact h

section Layout

variable {gap : Nat → List Char} {space : List Char}

mutual

/-- However it is laid out, the text of a value has the tokens of the value. -/
theorem lex_laidOut (hblank : IsBlank gap space) (level : Nat) : (value : Json) → value.IsSound →
    ∀ {rest : List Char}, Ends rest →
      lex (laidOut gap space level value ++ rest) = (lex rest).map (value.tokens ++ ·)
  | .null, _, rest, hrest =>
    show lex ("null".toList ++ rest) = _ from
      lex_word (by decide) (List.all_eq_true.1 rfl) hrest
  | .bool true, _, rest, hrest =>
    show lex ("true".toList ++ rest) = _ from
      lex_word (by decide) (List.all_eq_true.1 rfl) hrest
  | .bool false, _, rest, hrest =>
    show lex ("false".toList ++ rest) = _ from
      lex_word (by decide) (List.all_eq_true.1 rfl) hrest
  | .number lexeme, h, _, hrest =>
    have hnumeral : IsNumeral lexeme := h
    lex_word hnumeral.ne_nil hnumeral.word hrest
  | .text value, _, rest, _ => lex_quote value rest
  | .array [], _, rest, _ => by
    rw [laidOut, List.cons_append, List.cons_append, lex_punctuation rfl, lex_punctuation rfl,
      Option.map_map]
    rfl
  | .array (item :: others), h, rest, _ => by
    have hclose : Ends (gap level ++ ']' :: rest) :=
      ends_spaces (hblank.gap level) (ends_cons (by decide) rest)
    rw [laidOut]
    · simp only [List.cons_append, List.append_assoc, List.nil_append]
      rw [lex_punctuation rfl, lex_laidOutItems hblank (level + 1) (item :: others) h hclose,
        lex_spaces (hblank.gap level), lex_punctuation rfl, Option.map_map, Option.map_map, tokens]
      simp [Function.comp_def]
    · simp
  | .object [], _, rest, _ => by
    rw [laidOut, List.cons_append, List.cons_append, lex_punctuation rfl, lex_punctuation rfl,
      Option.map_map]
    rfl
  | .object (member :: others), h, rest, _ => by
    have hclose : Ends (gap level ++ '\x7d' :: rest) :=
      ends_spaces (hblank.gap level) (ends_cons (by decide) rest)
    rw [laidOut]
    · simp only [List.cons_append, List.append_assoc, List.nil_append]
      rw [lex_punctuation rfl, lex_laidOutMembers hblank (level + 1) (member :: others) h hclose,
        lex_spaces (hblank.gap level), lex_punctuation rfl, Option.map_map, Option.map_map, tokens]
      simp [Function.comp_def]
    · simp

theorem lex_laidOutItems (hblank : IsBlank gap space) (level : Nat) : (items : List Json) →
    AllSound items → ∀ {rest : List Char}, Ends rest →
      lex (laidOutItems gap space level items ++ rest) = (lex rest).map (tokensOfItems items ++ ·)
  | [], _, rest, _ => by simp [laidOutItems, tokensOfItems]
  | [item], h, rest, hrest => by
    rw [laidOutItems, List.append_assoc, lex_spaces (hblank.gap level),
      lex_laidOut hblank level item h.1 hrest, tokensOfItems]
  | item :: next :: others, h, rest, hrest => by
    rw [laidOutItems, tokensOfItems]
    · simp only [List.cons_append, List.append_assoc]
      rw [lex_spaces (hblank.gap level), lex_laidOut hblank level item h.1 (ends_cons (by decide) _),
        lex_punctuation rfl, lex_laidOutItems hblank level (next :: others) h.2 hrest, Option.map_map,
        Option.map_map]
      simp [Function.comp_def]
    · simp
    · simp

theorem lex_laidOutMembers (hblank : IsBlank gap space) (level : Nat) :
    (members : List (String × Json)) → MembersSound members → ∀ {rest : List Char}, Ends rest →
      lex (laidOutMembers gap space level members ++ rest) =
        (lex rest).map (tokensOfMembers members ++ ·)
  | [], _, rest, _ => by simp [laidOutMembers, tokensOfMembers]
  | [(name, value)], h, rest, hrest => by
    rw [laidOutMembers]
    simp only [List.cons_append, List.append_assoc]
    rw [lex_spaces (hblank.gap level), lex_quote, lex_punctuation rfl, lex_spaces hblank.space,
      lex_laidOut hblank level value h.1 hrest, Option.map_map, Option.map_map, tokensOfMembers]
    simp [Function.comp_def]
  | (name, value) :: next :: others, h, rest, hrest => by
    rw [laidOutMembers, tokensOfMembers]
    · simp only [List.cons_append, List.append_assoc]
      rw [lex_spaces (hblank.gap level), lex_quote, lex_punctuation rfl, lex_spaces hblank.space,
        lex_laidOut hblank level value h.1 (ends_cons (by decide) _), lex_punctuation rfl,
        lex_laidOutMembers hblank level (next :: others) h.2 hrest]
      simp [Function.comp_def]
    · simp
    · simp

end

theorem lex_value (hblank : IsBlank gap space) {value : Json} (h : value.IsSound) :
    lex (laidOut gap space 0 value) = some value.tokens := by
  have hends : Ends [] := by
    intro c hc
    cases hc
  have hlex := lex_laidOut hblank 0 value h hends
  rw [List.append_nil] at hlex
  rw [hlex, lex]
  simp

end Layout

/-- A value that is written in one line is read back. -/
theorem parse?_compact {value : Json} (h : value.IsSound) : parse? value.compact = some value := by
  have hblank : IsBlank (fun _ => []) [] :=
    ⟨fun _ c hc => absurd hc List.not_mem_nil, fun c hc => absurd hc List.not_mem_nil⟩
  rw [parse?, compact, String.toList_ofList, compactChars_eq 0, lex_value hblank h]
  exact ofTokens?_tokens h

/-- A value that is written over lines is read back. -/
theorem parse?_pretty {value : Json} (h : value.IsSound) : parse? value.pretty = some value := by
  have hblank : IsBlank lineAt [' '] := by
    refine ⟨fun level c hc => ?_, fun c hc => ?_⟩
    · rcases List.mem_cons.1 hc with rfl | hc
      · rfl
      · rw [List.eq_of_mem_replicate hc]
        rfl
    · rw [List.mem_singleton.1 hc]
      rfl
  rw [parse?, pretty, String.toList_ofList, prettyChars_eq 0, lex_value hblank h]
  exact ofTokens?_tokens h

end ContractAbi.Json
