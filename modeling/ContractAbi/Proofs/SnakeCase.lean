import ContractAbi.Text.Identifier
import Mathlib

/-!
# Names in snake case

A name in snake case has no capitals and no separators but single underscores, each behind some other
character. Writing a name in snake case drops separators and nothing else, and it leaves alone what is
in snake case already. An identifier is such a name, kept apart from the reserved words. What keeps it
apart is either part of a snake-case name or put back when it is lost.
-/
namespace ContractAbi.Identifier

variable {mayBreak : Bool} {text : List Char}

/-- The characters of a name that are no separators, as small letters. -/
def bare (name : String) : List Char :=
  (name.toList.filter (!isSeparator ·)).map Char.toLower

/-- A text without capitals and without separators but underscores, of which none is the first
character and no two stand side by side. -/
structure IsSnake (text : List Char) : Prop where
  small : ∀ c ∈ text, c.isUpper = false
  noDash : '-' ∉ text
  noBlank : ' ' ∉ text
  front : text.head? ≠ some '_'
  single : ¬ ['_', '_'] <:+: text

/-- What a snake-case name may go on with. An underscore may be next where `mayBreak` holds. -/
inductive SnakeRest : Bool → List Char → Prop
  | nil {mayBreak : Bool} : SnakeRest mayBreak []
  | underscore {rest : List Char} (hrest : SnakeRest false rest) : SnakeRest true ('_' :: rest)
  | word {mayBreak : Bool} {c : Char} {rest : List Char} (hsmall : c.isUpper = false)
      (hword : isSeparator c = false) (hrest : SnakeRest true rest) : SnakeRest mayBreak (c :: rest)

/-- Only letters become other characters when they become small, and those are letters again. -/
theorem toLower_eq_iff {c other : Char} (h : other.isAlpha = false) : c.toLower = other ↔ c = other := by
  cases hupper : c.isUpper with
  | false => rw [Char.toLower_eq_of_not_isUpper (by simp [hupper])]
  | true =>
    have halpha : c.isAlpha = true := by rw [Char.isAlpha, hupper, Bool.true_or]
    refine iff_of_false ?_ ?_ <;> rintro rfl
    · rw [Char.isAlpha_toLower_eq_isAlpha, halpha] at h
      cases h
    · rw [halpha] at h
      cases h

theorem isSeparator_eq_false_iff {c : Char} :
    isSeparator c = false ↔ c ≠ '-' ∧ c ≠ ' ' ∧ c ≠ '_' := by
  simp [isSeparator, and_assoc]

theorem isSeparator_toLower {c : Char} (h : isSeparator c = false) : isSeparator c.toLower = false := by
  rw [isSeparator_eq_false_iff] at h ⊢
  simpa only [ne_eq, toLower_eq_iff (show Char.isAlpha '-' = false by decide),
    toLower_eq_iff (show Char.isAlpha ' ' = false by decide),
    toLower_eq_iff (show Char.isAlpha '_' = false by decide)] using h

theorem SnakeRest.isSnake (h : SnakeRest mayBreak text) :
    (∀ c ∈ text, c.isUpper = false ∧ c ≠ '-' ∧ c ≠ ' ') ∧
      (mayBreak = false → text.head? ≠ some '_') ∧ ¬ ['_', '_'] <:+: text := by
  induction h with
  | nil => simp
  | @underscore rest hrest ih =>
    obtain ⟨hall, hfront, hsingle⟩ := ih
    refine ⟨List.forall_mem_cons.2 ⟨by decide, hall⟩, by simp, ?_⟩
    rw [List.infix_cons_iff, List.cons_prefix_cons, not_or]
    refine ⟨fun hprefix => hfront rfl ?_, hsingle⟩
    obtain ⟨others, rfl⟩ := hprefix.2
    rfl
  | @word mayBreak c rest hsmall hword hrest ih =>
    obtain ⟨hall, -, hsingle⟩ := ih
    obtain ⟨hdash, hblank, hunderscore⟩ := isSeparator_eq_false_iff.1 hword
    refine ⟨List.forall_mem_cons.2 ⟨⟨hsmall, hdash, hblank⟩, hall⟩, by simp [hunderscore], ?_⟩
    rw [List.infix_cons_iff, List.cons_prefix_cons, not_or]
    exact ⟨fun hprefix => hunderscore hprefix.1.symm, hsingle⟩

theorem SnakeRest.of_small (h : ∀ c ∈ text, c.isUpper = false ∧ isSeparator c = false) :
    SnakeRest mayBreak text := by
  induction text generalizing mayBreak with
  | nil => exact .nil
  | cons c rest ih =>
    obtain ⟨⟨hsmall, hword⟩, hrest⟩ := List.forall_mem_cons.1 h
    exact .word hsmall hword (ih hrest)

theorem SnakeRest.mono (h : SnakeRest false text) : SnakeRest true text := by
  cases h with
  | nil => exact .nil
  | word hsmall hword hrest => exact .word hsmall hword hrest

theorem snakeRest_of_single (hall : ∀ c ∈ text, c.isUpper = false ∧ c ≠ '-' ∧ c ≠ ' ')
    (hfront : mayBreak = false → text.head? ≠ some '_') (hsingle : ¬ ['_', '_'] <:+: text) :
    SnakeRest mayBreak text := by
  induction text generalizing mayBreak with
  | nil => exact .nil
  | cons c rest ih =>
    obtain ⟨⟨hsmall, hdash, hblank⟩, hrest⟩ := List.forall_mem_cons.1 hall
    rw [List.infix_cons_iff, List.cons_prefix_cons, not_or] at hsingle
    obtain ⟨hpair, hsingle⟩ := hsingle
    by_cases hunderscore : c = '_'
    · subst hunderscore
      cases mayBreak with
      | false => exact absurd rfl (hfront rfl)
      | true =>
        refine .underscore (ih hrest (fun _ hhead => hpair ⟨rfl, ?_⟩) hsingle)
        obtain ⟨others, rfl⟩ := List.head?_eq_some_iff.1 hhead
        exact List.cons_prefix_cons.2 ⟨rfl, List.nil_prefix⟩
    · exact .word hsmall (isSeparator_eq_false_iff.2 ⟨hdash, hblank, hunderscore⟩)
        (ih hrest (fun hfalse => by cases hfalse) hsingle)

theorem snakeRest_iff : SnakeRest false text ↔ IsSnake text := by
  constructor
  · intro h
    obtain ⟨hall, hfront, hsingle⟩ := h.isSnake
    exact ⟨fun c hc => (hall c hc).1, fun hmem => (hall _ hmem).2.1 rfl,
      fun hmem => (hall _ hmem).2.2 rfl, hfront rfl, hsingle⟩
  · intro h
    refine snakeRest_of_single (fun c hc => ⟨h.small c hc, ?_, ?_⟩) (fun _ => h.front) h.single
    · exact fun heq => h.noDash (heq ▸ hc)
    · exact fun heq => h.noBlank (heq ▸ hc)

theorem snakeRest_snakeFrom (before : Option Char) (mayBreak : Bool) (name : List Char) :
    SnakeRest mayBreak (snakeFrom before mayBreak name) := by
  induction name generalizing before mayBreak with
  | nil => exact .nil
  | cons c rest ih =>
    rw [snakeFrom]
    by_cases hseparator : isSeparator c = true
    · rw [if_pos hseparator]
      cases mayBreak with
      | false => exact ih _ _
      | true => exact .underscore (ih _ _)
    · rw [if_neg hseparator]
      have hword (mayBreak : Bool) : SnakeRest mayBreak (c.toLower :: snakeFrom (some c) true rest) :=
        .word (Char.isUpper_toLower_eq_false c) (isSeparator_toLower (by simpa using hseparator)) (ih _ _)
      cases mayBreak with
      | false => exact hword false
      | true =>
        simp only [Bool.true_and]
        split
        · exact .underscore (hword false)
        · exact hword true

/-- What is in snake case stays as it is, whatever stood before it. -/
theorem SnakeRest.snakeFrom_eq (h : SnakeRest mayBreak text) (before : Option Char) :
    snakeFrom before mayBreak text = text := by
  induction h generalizing before with
  | nil => rfl
  | underscore _ ih => rw [snakeFrom, if_pos (by decide), if_pos rfl, ih]
  | @word mayBreak c rest hsmall hword _ ih =>
    have hstart : startsWord before c rest = false := by
      cases before with
      | none => rfl
      | some b => simp [startsWord, hsmall]
    have hlower : c.toLower = c := Char.toLower_eq_of_not_isUpper (by simp [hsmall])
    simp [snakeFrom, hword, hstart, hlower, ih]

theorem filter_snakeFrom (before : Option Char) (mayBreak : Bool) (name : List Char) :
    (snakeFrom before mayBreak name).filter (!isSeparator ·) =
      (name.filter (!isSeparator ·)).map Char.toLower := by
  induction name generalizing before mayBreak with
  | nil => rfl
  | cons c rest ih =>
    have hunderscore : isSeparator '_' = true := by decide
    cases hseparator : isSeparator c with
    | true => cases mayBreak <;> simp [snakeFrom, hseparator, hunderscore, ih]
    | false =>
      have hlower := isSeparator_toLower hseparator
      simp only [snakeFrom, hseparator, Bool.false_eq_true, if_false]
      split <;> simp [hunderscore, hlower, hseparator, ih]

theorem isSnake_snake (name : String) : IsSnake (snake name).toList := by
  rw [snake, String.toList_ofList, ← snakeRest_iff]
  exact snakeRest_snakeFrom _ _ _

/-- The names that snake case leaves alone are those that are in snake case. -/
theorem snake_eq_self_iff {name : String} : snake name = name ↔ IsSnake name.toList := by
  constructor
  · intro h
    rw [← h]
    exact isSnake_snake name
  · intro h
    rw [snake, (snakeRest_iff.2 h).snakeFrom_eq, String.ofList_toList]

theorem bare_snake (name : String) : bare (snake name) = bare name := by
  rw [bare, snake, String.toList_ofList, filter_snakeFrom, List.map_map, bare]
  exact List.map_congr_left fun c _ => Char.toLower_eq_of_not_isUpper (by simp)

/-- An identifier that no table of reserved words has and that begins like an identifier. -/
structure IsFree (ident : String) : Prop where
  notPath : ident ∉ pathKeywords
  notRaw : ident ∉ rawKeywords
  nonempty : ident ≠ ""
  noDigit : ident.toList.head?.any Char.isDigit = false

/-- How a name is escaped, with what was found out about it. -/
inductive Escapes (name : String) : Prop
  | path (h : name ∈ pathKeywords) (hescape : escape name = name ++ "_")
  | raw (h : name ∈ rawKeywords) (hescape : escape name = "r#" ++ name)
  | digit (h : name.toList.head?.all Char.isDigit = true) (hescape : escape name = "_" ++ name)
  | free (h : IsFree name) (hescape : escape name = name)

theorem escapes (name : String) : Escapes name := by
  by_cases hpath : name ∈ pathKeywords
  · exact .path hpath (by rw [escape, if_pos (List.contains_iff_mem.2 hpath)])
  by_cases hraw : name ∈ rawKeywords
  · refine .raw hraw ?_
    rw [escape, if_neg (by simpa using hpath), if_pos (List.contains_iff_mem.2 hraw)]
  have hescape : escape name = if name.toList.head?.all Char.isDigit then "_" ++ name else name := by
    rw [escape, if_neg (by simpa using hpath), if_neg (by simpa using hraw)]
  by_cases hdigit : name.toList.head?.all Char.isDigit = true
  · exact .digit hdigit (by rw [hescape, if_pos hdigit])
  · refine .free ⟨hpath, hraw, ?_, ?_⟩ (by rw [hescape, if_neg hdigit])
    · rintro rfl
      exact hdigit rfl
    · cases hhead : name.toList.head? with
      | none => rfl
      | some c => simpa [hhead] using hdigit

theorem IsFree.escape_eq {ident : String} (h : IsFree ident) : escape ident = ident := by
  cases escapes ident with
  | path hpath => exact absurd hpath h.notPath
  | raw hraw => exact absurd hraw h.notRaw
  | digit hdigit =>
    have hfirst := h.noDigit
    cases hhead : ident.toList.head? with
    | none => exact absurd (String.toList_eq_nil_iff.1 (List.head?_eq_none_iff.1 hhead)) h.nonempty
    | some c => simp_all
  | free _ hescape => exact hescape

/-- What begins with a character that no reserved word and no number begins with is free. -/
theorem isFree_of_head {ident : String} {c : Char} (hhead : ident.toList.head? = some c)
    (hdigit : c.isDigit = false)
    (hwords : ∀ word ∈ pathKeywords ++ rawKeywords, word.toList.head? ≠ some c) : IsFree ident := by
  refine ⟨fun hmem => ?_, fun hmem => ?_, ?_, by simp [hhead, hdigit]⟩
  · exact hwords _ (List.mem_append_left _ hmem) hhead
  · exact hwords _ (List.mem_append_right _ hmem) hhead
  · rintro rfl
    cases hhead

theorem isFree_escape (name : String) : IsFree (escape name) := by
  cases escapes name with
  | path h hescape =>
    have hwords : ∀ word ∈ pathKeywords, word ++ "_" ∉ pathKeywords ++ rawKeywords ∧
        word.toList.head?.any Char.isDigit = false ∧ word ≠ "" := by decide +kernel
    obtain ⟨hword, hdigit, hempty⟩ := hwords name h
    rw [hescape]
    refine ⟨fun hmem => hword (List.mem_append_left _ hmem),
      fun hmem => hword (List.mem_append_right _ hmem), by simp, ?_⟩
    rwa [String.toList_append, List.head?_append_of_ne_nil _ (by simpa using hempty)]
  | raw h hescape =>
    have hmark : ∀ word ∈ pathKeywords ++ rawKeywords, '#' ∉ word.toList := by decide +kernel
    have hmem : '#' ∈ (escape name).toList := by simp [hescape]
    refine ⟨fun hword => ?_, fun hword => ?_, ?_, by simp [hescape]⟩
    · exact hmark _ (List.mem_append_left _ hword) hmem
    · exact hmark _ (List.mem_append_right _ hword) hmem
    · simp [hescape]
  | digit h hescape =>
    exact isFree_of_head (by simp [hescape]) (by decide : '_'.isDigit = false) (by decide +kernel)
  | free h hescape => exact hescape.symm ▸ h

/-- Escaping a name in snake case leaves it in snake case, or the pass takes away what it added. -/
theorem snake_escape {name : String} (h : IsSnake name.toList) :
    snake (escape name) = escape name ∨ snake (escape name) = name := by
  have hrest : SnakeRest false name.toList := snakeRest_iff.2 h
  cases escapes name with
  | path hmem hescape =>
    -- one of these words has a capital, so it is not in snake case
    have hwords : ∀ word ∈ pathKeywords, word = "Self" ∨ snake (word ++ "_") = word ++ "_" := by
      decide +kernel
    rcases hwords name hmem with rfl | hsnake
    · exact absurd (h.small 'S' (by decide)) (by decide)
    · exact .inl (by rw [hescape, hsnake])
  | raw hmem hescape =>
    refine .inl (snake_eq_self_iff.2 (snakeRest_iff.1 ?_))
    rw [hescape, String.toList_append]
    exact .word (by decide) (by decide) (.word (by decide) (by decide) hrest.mono)
  | digit hdigit hescape =>
    right
    rw [hescape, snake, String.toList_append]
    change String.ofList (snakeFrom (some '_') false name.toList) = name
    rw [hrest.snakeFrom_eq, String.ofList_toList]
  | free hfree hescape => exact .inl (by rw [hescape, snake_eq_self_iff.2 h])

theorem field_field (name : String) : field (field name) = field name := by
  have hfree : escape (field name) = field name := (isFree_escape (snake name)).escape_eq
  rw [field]
  rcases snake_escape (isSnake_snake name) with hsnake | hsnake
  · rw [field, hsnake]
    exact hfree
  · rw [field, hsnake]

/-- A name in snake case has the characters of the name that are no separators, in small letters, and
a second pass leaves it alone. The identifier of a field is left alone by a second pass too, and it is
no reserved word and begins like an identifier. -/
theorem snake_names_and_fields_are_stable (name : String) :
    (IsSnake (snake name).toList ∧ bare (snake name) = bare name ∧ snake (snake name) = snake name ∧
      (snake name = name ↔ IsSnake name.toList)) ∧
    IsFree (field name) ∧ field (field name) = field name :=
  ⟨⟨isSnake_snake name, bare_snake name, snake_eq_self_iff.2 (isSnake_snake name), snake_eq_self_iff⟩,
    isFree_escape _, field_field name⟩

end ContractAbi.Identifier
