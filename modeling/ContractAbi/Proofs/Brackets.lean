import Mathlib
import ContractAbi.TypeExpr.Brackets

/-!
# Brackets that pair up

The two splits of a type expression are told by what a text looks like, not by how it is scanned.
A text is an application when a pair of brackets that starts in it ends it; its parts are the texts
between the commas that lie outside every pair of brackets.
-/
namespace ContractAbi

namespace Text

variable {text : List Char}

theorem exists_trimEnd (text : List Char) :
    ∃ back, text = trimEnd text ++ back ∧ ∀ c ∈ back, isBlank c = true := by
  refine ⟨(text.reverse.takeWhile isBlank).reverse, ?_, ?_⟩
  · rw [trimEnd, ← List.reverse_append, List.takeWhile_append_dropWhile, List.reverse_reverse]
  · exact fun c hc => List.mem_takeWhile_imp (List.mem_reverse.1 hc)

/-- A trimmed text is the text without blanks at its ends. -/
theorem exists_trim (text : List Char) :
    ∃ front back, text = front ++ trim text ++ back ∧ (∀ c ∈ front, isBlank c = true) ∧
      ∀ c ∈ back, isBlank c = true := by
  obtain ⟨back, hback, hblank⟩ := exists_trimEnd (trimStart text)
  refine ⟨text.takeWhile isBlank, back, ?_, fun c hc => List.mem_takeWhile_imp hc, hblank⟩
  rw [List.append_assoc, trim, ← hback, trimStart, List.takeWhile_append_dropWhile]

/-- Trimming keeps the characters that are no blanks. -/
theorem mem_trim {c : Char} (hblank : isBlank c = false) : c ∈ trim text ↔ c ∈ text := by
  obtain ⟨front, back, heq, hfront, hback⟩ := exists_trim text
  have houtside : c ∉ front ∧ c ∉ back := by
    refine ⟨fun h => ?_, fun h => ?_⟩
    · exact absurd (hfront c h) (by simp [hblank])
    · exact absurd (hback c h) (by simp [hblank])
  conv_rhs => rw [heq]
  simp [houtside]

theorem trimStart_of_head (h : ∀ c ∈ text.head?, isBlank c = false) : trimStart text = text := by
  cases text with
  | nil => rfl
  | cons c rest => simp [trimStart, h c rfl]

theorem trimEnd_of_last (h : ∀ c ∈ text.getLast?, isBlank c = false) : trimEnd text = text := by
  rw [List.getLast?_eq_head?_reverse] at h
  rw [trimEnd, ← trimStart, trimStart_of_head h, List.reverse_reverse]

theorem trim_eq_self (hhead : ∀ c ∈ text.head?, isBlank c = false)
    (hlast : ∀ c ∈ text.getLast?, isBlank c = false) : trim text = text := by
  rw [trim, trimStart_of_head hhead, trimEnd_of_last hlast]

theorem isBlank_head_trimStart (text : List Char) :
    ∀ c ∈ (trimStart text).head?, isBlank c = false := by
  intro c hc
  have h := List.head?_dropWhile_not isBlank text
  rw [trimStart] at hc
  rw [hc] at h
  exact h

/-- A trimmed text has no blank at its front. -/
theorem isBlank_head_trim (text : List Char) : ∀ c ∈ (trim text).head?, isBlank c = false := by
  intro c hc
  apply isBlank_head_trimStart text c
  obtain ⟨back, hback, -⟩ := exists_trimEnd (trimStart text)
  rw [hback, List.head?_append, ← trim]
  simp [Option.mem_def.1 hc]

theorem isBlank_last_trim (text : List Char) : ∀ c ∈ (trim text).getLast?, isBlank c = false := by
  intro c hc
  apply isBlank_head_trimStart (trimStart text).reverse c
  rwa [trim, trimEnd, ← trimStart, List.getLast?_reverse] at hc

@[simp] theorem trim_trim (text : List Char) : trim (trim text) = trim text :=
  trim_eq_self (isBlank_head_trim text) (isBlank_last_trim text)

end Text

namespace TypeExpr

variable {text inner front rest : List Char} {depth : Nat}

/-- Every bracket of the text has its partner in it. -/
inductive Paired : List Char → Prop
  | nil : Paired []
  | plain {c : Char} {rest : List Char} (hopen : c ≠ '<') (hclose : c ≠ '>') (hrest : Paired rest) :
      Paired (c :: rest)
  | pair {inner rest : List Char} (hinner : Paired inner) (hrest : Paired rest) :
      Paired ('<' :: (inner ++ '>' :: rest))

/-- Every bracket of the text has its partner in it, and every comma lies between two partners. -/
inductive Enclosed : List Char → Prop
  | nil : Enclosed []
  | plain {c : Char} {rest : List Char} (hopen : c ≠ '<') (hclose : c ≠ '>') (hcomma : c ≠ ',')
      (hrest : Enclosed rest) : Enclosed (c :: rest)
  | pair {inner rest : List Char} (hinner : Paired inner) (hrest : Enclosed rest) :
      Enclosed ('<' :: (inner ++ '>' :: rest))

theorem Enclosed.paired (h : Enclosed text) : Paired text := by
  induction h with
  | nil => exact .nil
  | plain hopen hclose _ _ ih => exact .plain hopen hclose ih
  | pair hinner _ ih => exact .pair hinner ih

theorem Paired.append (hleft : Paired text) (hright : Paired rest) : Paired (text ++ rest) := by
  induction hleft with
  | nil => exact hright
  | plain hopen hclose _ ih => exact .plain hopen hclose ih
  | pair hinner _ _ ih =>
    rw [List.cons_append, List.append_assoc, List.cons_append]
    exact .pair hinner ih

theorem Enclosed.append (hleft : Enclosed text) (hright : Enclosed rest) : Enclosed (text ++ rest) := by
  induction hleft with
  | nil => exact hright
  | plain hopen hclose hcomma _ ih => exact .plain hopen hclose hcomma ih
  | pair hinner _ ih =>
    rw [List.cons_append, List.append_assoc, List.cons_append]
    exact .pair hinner ih

theorem enclosed_of_plain (h : ∀ c ∈ text, c ≠ '<' ∧ c ≠ '>' ∧ c ≠ ',') : Enclosed text := by
  induction text with
  | nil => exact .nil
  | cons c rest ih =>
    obtain ⟨hopen, hclose, hcomma⟩ := h c List.mem_cons_self
    exact .plain hopen hclose hcomma (ih fun d hd => h d (List.mem_cons_of_mem _ hd))

/-- The text closes `depth` brackets that were opened before it, and what lies behind them is as
`whole` says. -/
def Closes (whole : List Char → Prop) : Nat → List Char → Prop
  | 0, text => whole text
  | depth + 1, text =>
    ∃ inner rest, Paired inner ∧ text = inner ++ '>' :: rest ∧ Closes whole depth rest

section Closes

variable {whole : List Char → Prop}

theorem Closes.plain {c : Char} (hopen : c ≠ '<') (hclose : c ≠ '>')
    (hwhole : depth = 0 → whole text → whole (c :: text)) (h : Closes whole depth text) :
    Closes whole depth (c :: text) := by
  cases depth with
  | zero => exact hwhole rfl h
  | succ depth =>
    obtain ⟨inner, rest, hinner, rfl, hrest⟩ := h
    exact ⟨c :: inner, rest, .plain hopen hclose hinner, rfl, hrest⟩

theorem Closes.opens (hwhole : ∀ inner rest, Paired inner → whole rest →
    whole ('<' :: (inner ++ '>' :: rest))) (h : Closes whole (depth + 1) text) :
    Closes whole depth ('<' :: text) := by
  obtain ⟨inner, rest, hinner, rfl, hrest⟩ := h
  cases depth with
  | zero => exact hwhole inner rest hinner hrest
  | succ depth =>
    obtain ⟨next, last, hnext, rfl, hlast⟩ := hrest
    refine ⟨'<' :: (inner ++ '>' :: next), last, .pair hinner hnext, ?_, hlast⟩
    simp

end Closes

@[simp] theorem depthAfter_open (depth : Nat) (rest : List Char) :
    depthAfter depth ('<' :: rest) = depthAfter (depth + 1) rest := by
  simp [depthAfter]

@[simp] theorem depthAfter_close (depth : Nat) (rest : List Char) :
    depthAfter (depth + 1) ('>' :: rest) = depthAfter depth rest := by
  simp [depthAfter]

theorem depthAfter_plain {c : Char} (hopen : c ≠ '<') (hclose : c ≠ '>') (depth : Nat)
    (rest : List Char) : depthAfter depth (c :: rest) = depthAfter depth rest := by
  simp [depthAfter, hopen, hclose]

theorem closes_of_depthAfter (h : depthAfter depth text = some 0) : Closes Paired depth text := by
  induction text generalizing depth with
  | nil =>
    obtain rfl := Option.some.inj h
    exact .nil
  | cons c rest ih =>
    simp only [depthAfter] at h
    split at h
    · rename_i hc
      subst hc
      exact (ih h).opens fun _ _ => .pair
    · split at h
      · rename_i hc
        subst hc
        cases depth with
        | zero => cases h
        | succ depth => exact ⟨[], rest, .nil, rfl, ih h⟩
      · rename_i hopen hclose
        exact (ih h).plain hopen hclose fun _ => .plain hopen hclose

/-- A paired text leaves the depth as it is. -/
theorem Paired.depthAfter_append (h : Paired text) (depth : Nat) (rest : List Char) :
    depthAfter depth (text ++ rest) = depthAfter depth rest := by
  induction h generalizing depth rest with
  | nil => rfl
  | plain hopen hclose _ ih =>
    rw [List.cons_append, depthAfter_plain hopen hclose, ih]
  | pair _ _ ihinner ihrest =>
    rw [List.cons_append, List.append_assoc, List.cons_append, depthAfter_open, ihinner,
      depthAfter_close, ihrest]

theorem isBalanced_iff : isBalanced text = true ↔ Paired text := by
  rw [isBalanced, beq_iff_eq]
  refine ⟨closes_of_depthAfter, fun h => ?_⟩
  have hafter := h.depthAfter_append 0 []
  rwa [List.append_nil] at hafter

@[simp] theorem parts?_open (depth : Nat) (rest : List Char) :
    parts? depth ('<' :: rest) = (parts? (depth + 1) rest).map (Text.consFirst '<') := by
  simp [parts?]

@[simp] theorem parts?_close (depth : Nat) (rest : List Char) :
    parts? (depth + 1) ('>' :: rest) = (parts? depth rest).map (Text.consFirst '>') := by
  simp [parts?]

@[simp] theorem parts?_comma (rest : List Char) :
    parts? 0 (',' :: rest) = (parts? 0 rest).map ([] :: ·) := by
  simp [parts?]

theorem parts?_plain {c : Char} (hopen : c ≠ '<') (hclose : c ≠ '>') (hcomma : c = ',' → depth ≠ 0)
    (rest : List Char) : parts? depth (c :: rest) = (parts? depth rest).map (Text.consFirst c) := by
  have hinside : ¬(c = ',' ∧ depth = 0) := fun h => hcomma h.1 h.2
  simp [parts?, hopen, hclose, hinside]

/-- The texts are the parts between the commas that lie outside every pair of brackets. -/
structure Separates (text : List Char) (parts : List (List Char)) : Prop where
  nonempty : parts ≠ []
  joined : text = [','].intercalate parts
  enclosed : ∀ part ∈ parts, Enclosed part

theorem intercalate_consFirst (c : Char) (first : List Char) (others : List (List Char)) :
    [','].intercalate (Text.consFirst c (first :: others)) =
      c :: [','].intercalate (first :: others) := by
  cases others with
  | nil => simp [Text.consFirst, List.intercalate]
  | cons second others => simp [Text.consFirst, List.intercalate]

theorem intercalate_nil_cons (first : List Char) (others : List (List Char)) :
    [','].intercalate ([] :: first :: others) = ',' :: [','].intercalate (first :: others) := by
  simp [List.intercalate]

/-- A first part that closes what is open, and other parts that are enclosed. -/
theorem closes_of_parts? {parts : List (List Char)} (h : parts? depth text = some parts) :
    ∃ first others, parts = first :: others ∧ text = [','].intercalate parts ∧
      Closes Enclosed depth first ∧ ∀ part ∈ others, Enclosed part := by
  induction text generalizing depth parts with
  | nil =>
    simp only [parts?] at h
    split at h
    · rename_i hdepth
      subst hdepth
      obtain rfl := Option.some.inj h
      exact ⟨[], [], rfl, rfl, Enclosed.nil, fun _ h => absurd h List.not_mem_nil⟩
    · cases h
  | cons c rest ih =>
    simp only [parts?] at h
    split at h
    · rename_i hc
      subst hc
      obtain ⟨parts, hparts, rfl⟩ := Option.map_eq_some_iff.1 h
      obtain ⟨first, others, rfl, htext, hfirst, hothers⟩ := ih hparts
      refine ⟨'<' :: first, others, rfl, ?_, hfirst.opens fun _ _ => .pair, hothers⟩
      rw [intercalate_consFirst, ← htext]
    · split at h
      · rename_i hc
        subst hc
        cases depth with
        | zero => cases h
        | succ depth =>
          obtain ⟨parts, hparts, rfl⟩ := Option.map_eq_some_iff.1 h
          obtain ⟨first, others, rfl, htext, hfirst, hothers⟩ := ih hparts
          refine ⟨'>' :: first, others, rfl, ?_, ⟨[], first, .nil, rfl, hfirst⟩, hothers⟩
          rw [intercalate_consFirst, ← htext]
      · rename_i hopen hclose
        split at h
        · rename_i hc
          obtain ⟨rfl, rfl⟩ := hc
          obtain ⟨parts, hparts, rfl⟩ := Option.map_eq_some_iff.1 h
          obtain ⟨first, others, rfl, htext, hfirst, hothers⟩ := ih hparts
          refine ⟨[], first :: others, rfl, ?_, Enclosed.nil, ?_⟩
          · rw [intercalate_nil_cons, ← htext]
          · intro part hpart
            rcases List.mem_cons.1 hpart with rfl | hpart
            · exact hfirst
            · exact hothers part hpart
        · rename_i hcomma
          obtain ⟨parts, hparts, rfl⟩ := Option.map_eq_some_iff.1 h
          obtain ⟨first, others, rfl, htext, hfirst, hothers⟩ := ih hparts
          refine ⟨c :: first, others, rfl, ?_, ?_, hothers⟩
          · rw [intercalate_consFirst, ← htext]
          · exact hfirst.plain hopen hclose fun hdepth =>
              .plain hopen hclose fun hc => hcomma ⟨hc, hdepth⟩

/-- Puts a text in front of the first part. -/
def prependFirst (text : List Char) (parts : List (List Char)) : List (List Char) :=
  text.foldr Text.consFirst parts

theorem prependFirst_cons (text first : List Char) (others : List (List Char)) :
    prependFirst text (first :: others) = (text ++ first) :: others := by
  induction text with
  | nil => rfl
  | cons c rest ih =>
    rw [prependFirst, List.foldr_cons, ← prependFirst, ih]
    rfl

theorem map_prependFirst_cons (c : Char) (text : List Char) (parts? : Option (List (List Char))) :
    (parts?.map (prependFirst text)).map (Text.consFirst c) =
      parts?.map (prependFirst (c :: text)) := by
  cases parts? <;> rfl

theorem map_prependFirst_append (left right : List Char) (parts? : Option (List (List Char))) :
    (parts?.map (prependFirst right)).map (prependFirst left) =
      parts?.map (prependFirst (left ++ right)) := by
  cases parts? with
  | none => rfl
  | some parts => simp [prependFirst]

/-- Inside a pair of brackets a paired text belongs to the first part. -/
theorem Paired.parts?_append (h : Paired text) (depth : Nat) (rest : List Char) :
    parts? (depth + 1) (text ++ rest) = (parts? (depth + 1) rest).map (prependFirst text) := by
  induction h generalizing depth rest with
  | nil => exact Option.map_id'.symm
  | plain hopen hclose _ ih =>
    rw [List.cons_append, parts?_plain hopen hclose fun _ => Nat.succ_ne_zero depth, ih,
      map_prependFirst_cons]
  | pair _ _ ihinner ihrest =>
    rw [List.cons_append, List.append_assoc, List.cons_append, parts?_open, ihinner, parts?_close,
      ihrest, map_prependFirst_cons, map_prependFirst_cons, map_prependFirst_append, List.cons_append]

/-- An enclosed text belongs to the first part. -/
theorem Enclosed.parts?_append (h : Enclosed text) (rest : List Char) :
    parts? 0 (text ++ rest) = (parts? 0 rest).map (prependFirst text) := by
  induction h generalizing rest with
  | nil => exact Option.map_id'.symm
  | plain hopen hclose hcomma _ ih =>
    rw [List.cons_append, parts?_plain hopen hclose fun hc => absurd hc hcomma, ih,
      map_prependFirst_cons]
  | pair hinner _ ihrest =>
    rw [List.cons_append, List.append_assoc, List.cons_append, parts?_open, hinner.parts?_append,
      parts?_close, ihrest, map_prependFirst_cons, map_prependFirst_cons, map_prependFirst_append,
      List.cons_append]

theorem parts?_intercalate {parts : List (List Char)} (hne : parts ≠ [])
    (h : ∀ part ∈ parts, Enclosed part) : parts? 0 ([','].intercalate parts) = some parts := by
  induction parts with
  | nil => exact absurd rfl hne
  | cons first others ih =>
    have hfirst := h first List.mem_cons_self
    cases others with
    | nil =>
      have htext : [','].intercalate [first] = first ++ [] := by simp [List.intercalate]
      rw [htext, hfirst.parts?_append, parts?, if_pos rfl, Option.map_some, prependFirst_cons,
        List.append_nil]
    | cons second others =>
      have hothers := ih (List.cons_ne_nil _ _) fun part hp => h part (List.mem_cons_of_mem _ hp)
      have htext : [','].intercalate (first :: second :: others) =
          first ++ ',' :: [','].intercalate (second :: others) := by simp [List.intercalate]
      rw [htext, hfirst.parts?_append, parts?_comma, hothers, Option.map_some, Option.map_some,
        prependFirst_cons, List.append_nil]

theorem parts?_eq_some_iff {parts : List (List Char)} :
    parts? 0 text = some parts ↔ Separates text parts := by
  refine ⟨fun h => ?_, fun h => ?_⟩
  · obtain ⟨first, others, rfl, htext, hfirst, hothers⟩ := closes_of_parts? h
    refine ⟨List.cons_ne_nil _ _, htext, fun part hpart => ?_⟩
    rcases List.mem_cons.1 hpart with rfl | hpart
    · exact hfirst
    · exact hothers part hpart
  · rw [h.joined, parts?_intercalate h.nonempty h.enclosed]

/-- A text with parts is paired. -/
theorem Separates.paired {parts : List (List Char)} (h : Separates text parts) : Paired text := by
  obtain ⟨hne, rfl, henclosed⟩ := h
  induction parts with
  | nil => exact absurd rfl hne
  | cons first others ih =>
    have hfirst := (henclosed first List.mem_cons_self).paired
    cases others with
    | nil => simpa [List.intercalate] using hfirst
    | cons second others =>
      have hothers := ih (List.cons_ne_nil _ _) fun part hp => henclosed part (List.mem_cons_of_mem _ hp)
      have htext : [','].intercalate (first :: second :: others) =
          first ++ ',' :: [','].intercalate (second :: others) := by simp [List.intercalate]
      rw [htext]
      exact hfirst.append (.plain (by decide) (by decide) hothers)

/-- The members of an argument list are its parts, trimmed, and none of them is blank. -/
theorem members?_eq_ok_iff {members : List (List Char)} :
    members? text = .ok members ↔
      ∃ parts, Separates text parts ∧ members = parts.map Text.trim ∧ ∀ m ∈ members, m ≠ [] := by
  have hall : ∀ parts : List (List Char), (parts.map Text.trim).all (· ≠ []) = true ↔
      ∀ m ∈ parts.map Text.trim, m ≠ [] := by simp
  constructor
  · intro h
    simp only [members?] at h
    split at h
    · cases h
    · rename_i parts hparts
      split at h
      · rename_i hne
        obtain rfl := Except.ok.inj h
        exact ⟨parts, parts?_eq_some_iff.1 hparts, rfl, (hall parts).1 hne⟩
      · cases h
  · rintro ⟨parts, hparts, rfl, hne⟩
    simp only [members?, parts?_eq_some_iff.2 hparts]
    exact if_pos ((hall parts).2 hne)

/-- The text is a front without brackets and a bracketed inner text behind it. -/
structure Applies (text front inner : List Char) : Prop where
  text_eq : text = front ++ '<' :: (inner ++ ['>'])
  front_open : '<' ∉ front
  paired : Paired inner

theorem application?_of_mem (hfront : '<' ∉ front) (tail : List Char) :
    application? (front ++ '<' :: tail) =
      if tail.getLast? = some '>' ∧ isBalanced tail.dropLast ∧ Text.trim front ≠ [] then
        .ok (some (Text.trim front, tail.dropLast))
      else .error ⟨front ++ '<' :: tail⟩ := by
  have hall : ∀ c ∈ front, decide (c ≠ '<') = true := by
    intro c hc
    simpa using fun he : c = '<' => hfront (he ▸ hc)
  have htake : (front ++ '<' :: tail).takeWhile (· ≠ '<') = front := by
    rw [List.takeWhile_append_of_pos hall]
    simp
  have hdrop : (front ++ '<' :: tail).dropWhile (· ≠ '<') = '<' :: tail := by
    rw [List.dropWhile_append_of_pos hall]
    simp
  simp only [application?, htake, hdrop]

theorem application?_of_not_mem (h : '<' ∉ text) :
    application? text = if text.contains '>' then .error ⟨text⟩ else .ok none := by
  have hdrop : text.dropWhile (· ≠ '<') = [] := by
    rw [List.dropWhile_eq_nil_iff]
    intro c hc
    simpa using fun he : c = '<' => h (he ▸ hc)
  simp only [application?, hdrop]

theorem application?_eq_some_iff {head : List Char} :
    application? text = .ok (some (head, inner)) ↔
      head ≠ [] ∧ ∃ front, Applies text front inner ∧ Text.trim front = head := by
  constructor
  · intro h
    by_cases hmem : '<' ∈ text
    · obtain ⟨front, tail, rfl, hfront⟩ := List.eq_append_cons_of_mem hmem
      rw [application?_of_mem hfront] at h
      split at h
      · rename_i hcond
        obtain ⟨hlast, hbalanced, hne⟩ := hcond
        obtain ⟨inner', rfl⟩ := List.getLast?_eq_some_iff.1 hlast
        obtain ⟨rfl, rfl⟩ := Prod.mk.inj (Option.some.inj (Except.ok.inj h))
        rw [List.dropLast_concat] at hbalanced ⊢
        exact ⟨hne, front, ⟨rfl, hfront, isBalanced_iff.1 hbalanced⟩, rfl⟩
      · cases h
    · rw [application?_of_not_mem hmem] at h
      split at h <;> cases h
  · rintro ⟨hne, front, ⟨rfl, hfront, hpaired⟩, rfl⟩
    rw [application?_of_mem hfront, List.dropLast_concat, if_pos]
    exact ⟨List.getLast?_concat, isBalanced_iff.2 hpaired, hne⟩

theorem application?_eq_none_iff :
    application? text = .ok none ↔ '<' ∉ text ∧ '>' ∉ text := by
  constructor
  · intro h
    by_cases hmem : '<' ∈ text
    · obtain ⟨front, tail, rfl, hfront⟩ := List.eq_append_cons_of_mem hmem
      rw [application?_of_mem hfront] at h
      split at h <;> cases h
    · rw [application?_of_not_mem hmem] at h
      split at h
      · cases h
      · rename_i hclose
        exact ⟨hmem, fun hc => hclose (List.contains_iff_mem.2 hc)⟩
  · rintro ⟨hopen, hclose⟩
    rw [application?_of_not_mem hopen, if_neg]
    exact fun hc => hclose (List.contains_iff_mem.1 hc)

end TypeExpr
end ContractAbi
