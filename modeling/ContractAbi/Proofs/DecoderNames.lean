import ContractAbi.Proofs.DecoderMatching
import ContractAbi.Proofs.SnakeCase

/-!
# Identifiers of declarations

Generated code names every declaration by an identifier. Names that a document may refer to become
words, names of composites and their members stay as they are, and as long as identifiers are
distinct a built value stands for one value of the catalog.
-/
namespace ContractAbi

open DecoderText (IsWord isWordChar isWord_of_all)

theorem DecoderText.isWord_append_left {front back : String} (hfront : IsWord front)
    (hback : ∀ c ∈ back.toList, isWordChar c = true) : IsWord (front ++ back) := by
  refine ⟨fun h => ?_, fun c hc => ?_⟩
  · rw [String.toList_append] at h
    exact hfront.1 (List.append_eq_nil_iff.1 h).1
  · rw [String.toList_append] at hc
    rcases List.mem_append.1 hc with hc | hc
    · exact hfront.2 c hc
    · exact hback c hc

theorem isWord_of_isTypeName {name : String} (h : TypeExpr.isTypeName name.toList = true) :
    IsWord name := by
  cases hname : name.toList with
  | nil =>
    rw [hname] at h
    cases h
  | cons first rest =>
    rw [hname, TypeExpr.isTypeName, Bool.and_eq_true] at h
    obtain ⟨hfirst, hrest⟩ := h
    refine ⟨by simp [hname], fun c hc => ?_⟩
    rw [hname] at hc
    rcases List.mem_cons.1 hc with rfl | hc
    · rw [TypeExpr.isNameStart, Bool.or_eq_true] at hfirst
      rcases hfirst with halpha | hunderscore
      · simp [isWordChar, Char.isAlphanum, halpha]
      · simp [isWordChar, of_decide_eq_true hunderscore]
    · have hc := List.all_eq_true.1 hrest c hc
      rw [TypeExpr.isNameRest, Bool.or_eq_true] at hc
      rcases hc with halnum | hunderscore
      · simp [isWordChar, halnum]
      · simp [isWordChar, of_decide_eq_true hunderscore]

namespace Identifier

/-- Escaping puts at most some characters of words around a name. -/
theorem escape_cases (name : String) :
    escape name = name ∨ escape name = name ++ "_" ∨ escape name = "r#" ++ name ∨
      escape name = "_" ++ name := by
  cases escapes name with
  | path _ hescape => exact .inr (.inl hescape)
  | raw _ hescape => exact .inr (.inr (.inl hescape))
  | digit _ hescape => exact .inr (.inr (.inr hescape))
  | free _ hescape => exact .inl hescape

/-- The identifier of a type that a document may refer to is a word. -/
theorem isWord_type {name : String} (h : TypeExpr.isTypeName name.toList = true) :
    IsWord (type name) := by
  have hname : IsWord name := isWord_of_isTypeName h
  rcases escape_cases name with he | he | he | he
  · rw [type, he]
    exact hname
  · rw [type, he]
    exact DecoderText.isWord_append_left hname (isWord_of_all (by rfl)).2
  · rw [type, he]
    exact DecoderText.isWord_append_left (isWord_of_all (by rfl)) hname.2
  · rw [type, he]
    exact DecoderText.isWord_append_left (isWord_of_all (by rfl)) hname.2

theorem blank_not_mem_field (name : String) : ' ' ∉ (field name).toList := by
  have hsnake : ' ' ∉ (snake name).toList := (isSnake_snake name).noBlank
  have hback : ∀ text : String, ' ' ∉ text.toList → ' ' ∉ (snake name ++ text).toList := by
    intro text htext
    rw [String.toList_append, List.mem_append, not_or]
    exact ⟨hsnake, htext⟩
  have hfront : ∀ text : String, ' ' ∉ text.toList → ' ' ∉ (text ++ snake name).toList := by
    intro text htext
    rw [String.toList_append, List.mem_append, not_or]
    exact ⟨htext, hsnake⟩
  rcases escape_cases (snake name) with he | he | he | he <;> rw [field, he]
  · exact hsnake
  · exact hback "_" (by decide)
  · exact hfront "r#" (by decide)
  · exact hfront "_" (by decide)

/-- A name that no reserved word begins like, and that begins with no digit, is not escaped. -/
theorem escape_of_front {name : String} {front : List Char} (hname : name.toList.take 3 = front)
    (hpath : ∀ word ∈ pathKeywords, word.toList.take 3 ≠ front)
    (hraw : ∀ word ∈ rawKeywords, word.toList.take 3 ≠ front)
    (hdigit : front.head?.all Char.isDigit = false) : escape name = name := by
  have hfirst : name.toList.head?.all Char.isDigit = false := by
    rw [← hname] at hdigit
    cases hlist : name.toList with
    | nil =>
      rw [hlist] at hdigit
      cases hdigit
    | cons c rest =>
      rw [hlist] at hdigit
      exact hdigit
  have hnotPath : ¬ pathKeywords.contains name = true := fun hmem =>
    hpath name (List.contains_iff_mem.1 hmem) hname
  have hnotRaw : ¬ rawKeywords.contains name = true := fun hmem =>
    hraw name (List.contains_iff_mem.1 hmem) hname
  rw [escape, if_neg hnotPath, if_neg hnotRaw, hfirst]
  rfl

/-- The name of a composite is its own identifier. -/
theorem type_compositeName (index : Nat) :
    type (Registry.compositeName index) = Registry.compositeName index := by
  have hname : (Registry.compositeName index).toList.take 3 = "Com".toList := by
    rw [Registry.compositeName, String.toList_append]
    rfl
  exact escape_of_front hname (by decide +kernel) (by decide +kernel) rfl

theorem isWord_compositeName (index : Nat) : IsWord (Registry.compositeName index) :=
  DecoderText.isWord_append_left (isWord_of_all (by rfl)) (DecoderText.isWord_toString index).2

theorem small_of_isDigit {c : Char} (h : c.isDigit = true) :
    c.isUpper = false ∧ isSeparator c = false := by
  have hrange : c.val.toNat ≤ 57 := by
    rw [Char.isDigit, Bool.and_eq_true, decide_eq_true_eq, decide_eq_true_eq] at h
    exact UInt32.le_iff_toNat_le.1 h.2
  have hseparators : ∀ d : Char, d.isDigit = false → c ≠ d := fun d hd heq => by
    rw [heq, hd] at h
    cases h
  have hupper : ¬ (65 : UInt32) ≤ c.val := fun hle => by
    have hle := UInt32.le_iff_toNat_le.1 hle
    have hlow : (65 : UInt32).toNat = 65 := rfl
    omega
  have hdash := hseparators '-' (by decide)
  have hblank := hseparators ' ' (by decide)
  have hunderscore := hseparators '_' (by decide)
  refine ⟨?_, by simp [isSeparator, hdash, hblank, hunderscore]⟩
  exact decide_eq_false fun hrange => hupper hrange.1

/-- The name of a member is its own identifier. -/
theorem field_memberName (index : Nat) : field (memberName index) = memberName index := by
  have hsmall : ∀ c ∈ (memberName index).toList, c.isUpper = false ∧ isSeparator c = false := by
    have hfront : ∀ c ∈ ['v', 'a', 'r'], c.isUpper = false ∧ isSeparator c = false := by
      simp [Char.isUpper, isSeparator]
    intro c hc
    rw [memberName, String.toList_append] at hc
    rcases List.mem_append.1 hc with hc | hc
    · exact hfront c hc
    · exact small_of_isDigit (Text.isDigit_of_mem_toString hc)
  rw [field, snake, (SnakeRest.of_small hsmall).snakeFrom_eq, String.ofList_toList]
  have hname : (memberName index).toList.take 3 = "var".toList := by
    rw [memberName, String.toList_append]
    rfl
  exact escape_of_front hname (by decide +kernel) (by decide +kernel) rfl

end Identifier

theorem find?_eq_some_of_nodup {α β : Type} [DecidableEq β] {key : α → β} {parts : List α} {part : α}
    (h : (parts.map key).Nodup) (hpart : part ∈ parts) :
    parts.find? (fun other => key other = key part) = some part := by
  induction parts with
  | nil => exact absurd hpart List.not_mem_nil
  | cons first rest ih =>
    rw [List.map_cons, List.nodup_cons] at h
    rcases List.mem_cons.1 hpart with rfl | hpart
    · exact List.find?_cons_of_pos (decide_eq_true rfl)
    · have hne : key first ≠ key part := fun heq => h.1 (heq ▸ List.mem_map_of_mem hpart)
      rw [List.find?_cons_of_neg (by simpa using hne)]
      exact ih h.2 hpart

namespace Catalog

/-- Every declaration has an identifier of its own, and so has every variant of an enum; the fields
of a struct have different names. -/
structure Named (catalog : Catalog) : Prop where
  types : ((catalog.structs.map (·.1) ++ catalog.enums.names).map Identifier.type).Nodup
  fields : ∀ entry ∈ catalog.structs, (entry.2.map (·.name)).Nodup
  variants : ∀ name variants, catalog.enums.get? name = some variants →
    (variants.map (Identifier.type ·.name)).Nodup

variable {catalog : Catalog}

theorem Named.find?_struct (h : catalog.Named) {entry : String × List Field}
    (hentry : entry ∈ catalog.structs) :
    catalog.structs.find? (Identifier.type ·.1 = Identifier.type entry.1) = some entry := by
  have htypes := h.types
  rw [List.map_append, List.map_map] at htypes
  exact find?_eq_some_of_nodup (List.nodup_append.1 htypes).1 hentry

theorem Named.find?_enum (h : catalog.Named) {name : String} {variants : List Variant}
    (hget : catalog.enums.get? name = some variants) :
    catalog.enums.entries.find? (Identifier.type ·.1 = Identifier.type name) =
      some (name, variants) := by
  have htypes := h.types
  rw [List.map_append, NameMap.names, List.map_map (l := catalog.enums.entries)] at htypes
  exact find?_eq_some_of_nodup (List.nodup_append.1 htypes).2.1 (NameMap.get?_eq_some_iff.1 hget)

theorem fieldValues?_of_match {fields : List Field} {values : List (String × Value)}
    {parts : List (String × Built)}
    (h : FieldsMatch (fun value part => catalog.valueOf? part = some value) fields values parts) :
    catalog.fieldValues? fields parts = some values := by
  induction h with
  | nil => rfl
  | cons hvalue _ ih =>
    rw [fieldValues?, if_pos rfl, hvalue, ih]
    rfl

theorem elementValues?_of_match {values : List Value} {parts : List Built}
    (h : List.Forall₂ (fun value part => catalog.valueOf? part = some value) values parts) :
    catalog.elementValues? parts = some values := by
  induction h with
  | nil => rfl
  | cons hvalue _ ih =>
    rw [elementValues?, hvalue, ih]
    rfl

/-- What is built stands for its value. -/
theorem Named.views_valueOf? (h : catalog.Named) :
    catalog.Views fun value part => catalog.valueOf? part = some value where
  scalar _ := by rw [valueOf?]
  variant name variants hget variant hvariant := by
    have hfind := find?_eq_some_of_nodup (h.variants name variants hget) hvariant
    rw [valueOf?, h.find?_enum hget]
    simp only [Option.bind_eq_bind, Option.bind_some, hfind]
    rfl
  struct name fields values parts hentry hparts := by
    rw [valueOf?, h.find?_struct hentry]
    simp only [Option.bind_eq_bind, Option.bind_some, fieldValues?_of_match hparts]
    rfl
  list values parts hparts := by
    rw [valueOf?, elementValues?_of_match hparts]
    rfl

theorem ofFields_of_match {fields : List Field} {values : List (String × Value)}
    {parts : List (String × Built)}
    (h : FieldsMatch (fun value part => Built.ofValue value = part) fields values parts) :
    Built.ofFields values = parts := by
  induction h with
  | nil => rfl
  | cons hvalue _ ih => rw [Built.ofFields, hvalue, ih]

theorem ofElements_of_match {values : List Value} {parts : List Built}
    (h : List.Forall₂ (fun value part => Built.ofValue value = part) values parts) :
    Built.ofElements values = parts := by
  induction h with
  | nil => rfl
  | cons hvalue _ ih => rw [Built.ofElements, hvalue, ih]

/-- What is built is what is built for its value. -/
theorem views_ofValue (catalog : Catalog) :
    catalog.Views fun value part => Built.ofValue value = part where
  scalar _ := by rw [Built.ofValue]
  variant _ _ _ _ _ := by rw [Built.ofValue]
  struct name fields values parts _ hparts := by rw [Built.ofValue, ofFields_of_match hparts]
  list values parts hparts := by rw [Built.ofValue, ofElements_of_match hparts]

end Catalog
end ContractAbi
