import ContractAbi.Proofs.Display

/-!
# Optional wrappers

A wrapper may be put around any part of an expression, and the expression still resolves to the same
type and leaves the same context. The one exception is a group directly behind `variadic<`, which is
no longer seen as one that repeats.
-/
namespace ContractAbi

namespace Text

variable {text front back : List Char}

/-- Blanks around a text are trimmed with its own. -/
theorem trim_append_blanks (hfront : ∀ c ∈ front, isBlank c = true)
    (hback : ∀ c ∈ back, isBlank c = true) : trim (front ++ text ++ back) = trim text := by
  have hstart : trimStart (front ++ text ++ back) = trimStart (text ++ back) := by
    rw [trimStart, List.append_assoc, List.dropWhile_append_of_pos hfront, trimStart]
  have hend : ∀ kept : List Char, trimEnd (kept ++ back) = trimEnd kept := by
    intro kept
    have hreverse : ∀ c ∈ back.reverse, isBlank c = true := fun c hc => hback c (List.mem_reverse.1 hc)
    rw [trimEnd, List.reverse_append, List.dropWhile_append_of_pos hreverse, trimEnd]
  rw [trim, hstart, trimStart, List.dropWhile_append]
  split
  · rename_i hempty
    rw [List.dropWhile_eq_nil_iff.2 hback, trim, trimStart, List.isEmpty_iff.1 hempty]
  · rw [hend, trim, trimStart]

end Text

namespace Shape

variable {members others : List Shape}

theorem repeated_inj : repeated members = repeated others ↔ members = others := by
  rcases members with _ | ⟨first, _ | ⟨second, rest⟩⟩ <;>
    rcases others with _ | ⟨first', _ | ⟨second', rest'⟩⟩ <;> simp [repeated]

theorem grouped_inj : grouped members = grouped others ↔ members = others := by
  rcases members with _ | ⟨first, _ | ⟨second, rest⟩⟩ <;>
    rcases others with _ | ⟨first', _ | ⟨second', rest'⟩⟩ <;> simp [grouped]

/-- A group that repeats is told from repeated groups. -/
theorem variadic_grouped_ne_repeated (members : List Shape) :
    variadic (grouped members) ≠ repeated members := by
  rcases members with _ | ⟨first, _ | ⟨second, rest⟩⟩
  · nofun
  · intro h
    have hsize : sizeOf (list first) = sizeOf first := congrArg sizeOf (variadic.inj h)
    simp at hsize
  · nofun

end Shape

namespace TypeExpr

variable {types : NameMap TypeDefinition} {text result inner changedInner part other : List Char}
  {head : Head} {parent : Option Head} {shape : Shape}

def Blanks (text : List Char) : Prop :=
  ∀ c ∈ text, Text.isBlank c = true

/-- A head, its brackets and an inner text between them. -/
def applied (word : String) (gap inner : List Char) : List Char :=
  word.toList ++ gap ++ '<' :: (inner ++ ['>'])

/-- The second text is the first with `other` in place of the expression `part`. That is all of the
text, or it stands between the brackets of a head, of which `parent` is the innermost. -/
inductive Replaces (part other : List Char) : Option Head → List Char → List Char → Prop
  | whole {front back : List Char} (hfront : Blanks front) (hback : Blanks back) :
      Replaces part other none (front ++ part ++ back) (front ++ other ++ back)
  | argument {head : Head} {word : String} {parent : Option Head}
      {front gap back inner changedInner : List Char}
      (hhead : head = .optional ∨ head = .list ∨ head = .variadic) (hword : word ∈ head.spellings)
      (hfront : Blanks front) (hgap : Blanks gap) (hback : Blanks back)
      (hinner : Replaces part other parent inner changedInner) :
      Replaces part other (parent.or (some head)) (front ++ applied word gap inner ++ back)
        (front ++ applied word gap changedInner ++ back)
  | member {head : Head} {word : String} {parent : Option Head}
      {front gap back member changedMember : List Char} {before after : List (List Char)}
      (hhead : head = .multi ∨ head = .tuple) (hword : word ∈ head.spellings)
      (hfront : Blanks front) (hgap : Blanks gap) (hback : Blanks back)
      (hmembers : ∀ m ∈ before ++ member :: after, Enclosed m)
      (hmember : Replaces part other parent member changedMember) :
      Replaces part other (parent.or (some head))
        (front ++ applied word gap ([','].intercalate (before ++ member :: after)) ++ back)
        (front ++ applied word gap ([','].intercalate (before ++ changedMember :: after)) ++ back)

def IsGroup (text : List Char) : Prop :=
  ∃ group, Writes .multi text group

/-- The part is a group written directly behind `variadic<`. -/
def IsRepeatedGroup (parent : Option Head) (part : List Char) : Prop :=
  parent = some .variadic ∧ IsGroup part

theorem writes_applied {word : String} {gap : List Char} (hword : word ∈ head.spellings)
    (hgap : Blanks gap) : Writes head (applied word gap inner) inner := by
  have hident := Head.isIdentifier_spelling hword
  refine ⟨word.toList ++ gap, word, hword, ?_, ?_⟩
  · apply Text.trim_eq_self
    · intro c hc
      rw [applied, List.append_assoc, List.head?_append_of_ne_nil _ hident.ne_nil] at hc
      exact hident.not_isBlank c (List.mem_of_head? hc)
    · intro c hc
      rw [applied, ← List.cons_append, ← List.append_assoc, List.getLast?_concat] at hc
      obtain rfl := Option.some.inj hc
      decide
  · have htrim : Text.trim ([] ++ word.toList ++ gap) = Text.trim word.toList :=
      Text.trim_append_blanks (by simp) hgap
    exact htrim.trans hident.trim_eq

theorem derives_append_blanks {front back : List Char} (hfront : Blanks front) (hback : Blanks back) :
    Derives types (front ++ text ++ back) shape ↔ Derives types text shape := by
  rw [← derives_trim_iff, Text.trim_append_blanks hfront hback, derives_trim_iff]

theorem writes_append_blanks {front back : List Char} (hfront : Blanks front) (hback : Blanks back) :
    Writes head (front ++ text ++ back) inner ↔ Writes head text inner := by
  rw [Writes, Text.trim_append_blanks hfront hback, Writes]

theorem writes_between_blanks {word : String} {front gap back : List Char}
    (hword : word ∈ head.spellings) (hfront : Blanks front) (hgap : Blanks gap) (hback : Blanks back) :
    Writes head (front ++ applied word gap inner ++ back) inner :=
  (writes_append_blanks hfront hback).2 (writes_applied hword hgap)

/-- Lists that go with each other fall apart together, and any pair may take the place of one. -/
theorem exists_of_forall₂_append_cons {α β : Type} {rule : α → β → Prop} {before after : List α}
    {x : α} {ys : List β} (h : List.Forall₂ rule (before ++ x :: after) ys) :
    ∃ front y back, ys = front ++ y :: back ∧ rule x y ∧
      ∀ x' y', rule x' y' → List.Forall₂ rule (before ++ x' :: after) (front ++ y' :: back) := by
  induction before generalizing ys with
  | nil =>
    obtain ⟨y, back, hy, hback, rfl⟩ := List.forall₂_cons_left_iff.1 h
    exact ⟨[], y, back, rfl, hy, fun x' y' h' => .cons h' hback⟩
  | cons first before ih =>
    obtain ⟨first', ys, hfirst, hrest, rfl⟩ := List.forall₂_cons_left_iff.1 h
    obtain ⟨front, y, back, rfl, hy, hchange⟩ := ih hrest
    exact ⟨first' :: front, y, back, rfl, hy, fun x' y' h' => .cons hfirst (hchange x' y' h')⟩

/-- A member has a shape of its own among the members' shapes, and changing the member changes that
shape. -/
theorem MembersDerive.exists_member {before after : List (List Char)} {member : List Char}
    {shapes : List Shape} (hmembers : ∀ m ∈ before ++ member :: after, Enclosed m)
    (h : MembersDerive types ([','].intercalate (before ++ member :: after)) shapes) :
    ∃ front own back, shapes = front ++ own :: back ∧ Derives types member own ∧
      ∀ changedMember changed, Derives types changedMember changed →
        MembersDerive types ([','].intercalate (before ++ changedMember :: after))
          (front ++ changed :: back) := by
  obtain ⟨parts, hparts, hall⟩ := h
  have hseparates : Separates ([','].intercalate (before ++ member :: after))
      (before ++ member :: after) := ⟨by simp, rfl, hmembers⟩
  obtain rfl : before ++ member :: after = parts :=
    Option.some.inj ((parts?_eq_some_iff.2 hseparates).symm.trans (parts?_eq_some_iff.2 hparts))
  obtain ⟨front, own, back, rfl, hown, hchange⟩ := exists_of_forall₂_append_cons hall
  refine ⟨front, own, back, rfl, hown, fun changedMember changed hchanged => ?_⟩
  refine ⟨before ++ changedMember :: after, ⟨by simp, rfl, ?_⟩, hchange _ _ hchanged⟩
  intro m hm
  rcases List.mem_append.1 hm with hm | hm
  · exact hmembers m (List.mem_append_left _ hm)
  · rcases List.mem_cons.1 hm with rfl | hm
    · exact hchanged.enclosed
    · exact hmembers m (List.mem_append_right _ (List.mem_cons_of_mem _ hm))

/-- The shapes of what is written with a head. -/
theorem Writes.derives_iff (h : Writes head text inner) :
    Derives types text shape ↔ HeadDerives types head inner shape :=
  ⟨h.derives, fun hinner => TypeExpr.derives_iff.2 (.inr ⟨head, inner, h, hinner⟩)⟩

theorem Writes.isGroup_iff (h : Writes head text inner) (hderives : Derives types text shape) :
    IsGroup text ↔ head = .multi := by
  constructor
  · rintro ⟨group, hgroup⟩
    exact h.head_unique hgroup (h.derives hderives).paired
  · rintro rfl
    exact ⟨inner, h⟩

/-- A variadic repeats the members of its argument if that is a group, and else the argument. -/
theorem headDerives_variadic_iff :
    HeadDerives types .variadic inner shape ↔
      ∃ element, Derives types inner element ∧ ((¬ IsGroup inner ∧ shape = .variadic element) ∨
        IsGroup inner ∧ ∃ members, element = .grouped members ∧ shape = .repeated members) := by
  constructor
  · rintro (⟨element, hplain, hinner, rfl⟩ | ⟨group, members, hgroup, hall, rfl⟩)
    · exact ⟨element, hinner, .inl ⟨fun ⟨group, hgroup⟩ => hplain group hgroup, rfl⟩⟩
    · have hinner : Derives types inner (.grouped members) := hgroup.derives_iff.2 ⟨members, hall, rfl⟩
      exact ⟨.grouped members, hinner, .inr ⟨⟨group, hgroup⟩, members, rfl, rfl⟩⟩
  · rintro ⟨element, hinner, ⟨hplain, rfl⟩ | ⟨⟨group, hgroup⟩, members, rfl, rfl⟩⟩
    · exact .inl ⟨element, fun group hgroup => hplain ⟨group, hgroup⟩, hinner, rfl⟩
    · obtain ⟨others, hall, heq⟩ := hgroup.derives hinner
      exact .inr ⟨group, others, hgroup, hall, by rw [Shape.grouped_inj.1 heq]⟩

/-- A part in the middle of a text leaves the head of the text. -/
theorem Replaces.isGroup_iff (h : Replaces part other parent text result) (hparent : parent ≠ none)
    (hderives : Derives types text shape) {changed : Shape} (hchanged : Derives types result changed) :
    IsGroup result ↔ IsGroup text := by
  cases h with
  | whole => exact absurd rfl hparent
  | argument hhead hword hfront hgap hback =>
    rw [(writes_between_blanks hword hfront hgap hback).isGroup_iff hderives,
      (writes_between_blanks hword hfront hgap hback).isGroup_iff hchanged]
  | member hhead hword hfront hgap hback =>
    rw [(writes_between_blanks hword hfront hgap hback).isGroup_iff hderives,
      (writes_between_blanks hword hfront hgap hback).isGroup_iff hchanged]

/-- A part that is all of a text makes it a group; the wrapped part does not. -/
theorem Replaces.isGroup_whole (h : Replaces part other none text result)
    (hother : Writes .optional other part) {changed : Shape} (hchanged : Derives types result changed) :
    (IsGroup text ↔ IsGroup part) ∧ ¬ IsGroup result := by
  generalize hnone : (none : Option Head) = parent at h
  cases h with
  | whole hfront hback =>
    have hresult := (derives_append_blanks hfront hback).1 hchanged
    refine ⟨by simp only [IsGroup, writes_append_blanks hfront hback], ?_⟩
    simp only [IsGroup, writes_append_blanks hfront hback]
    exact fun hgroup => nomatch (hother.isGroup_iff hresult).1 hgroup
  | @argument _ _ parent => cases parent <;> cases hnone
  | @member _ _ parent => cases parent <;> cases hnone

theorem isRepeatedGroup_or_iff (hhead : head ≠ .variadic) :
    IsRepeatedGroup (parent.or (some head)) part ↔ IsRepeatedGroup parent part := by
  cases parent <;> simp [IsRepeatedGroup, hhead]

/-- What is said of the argument of a variadic holds of the variadic, apart from a group that is all
of the argument. -/
theorem Replaces.exists_variadic (h : Replaces part other parent inner changedInner)
    (hother : Writes .optional other part)
    (hinner : ∀ element, Derives types inner element → ∃ changed, Derives types changedInner changed ∧
      (changed = element ↔ ¬ IsRepeatedGroup parent part))
    (hderives : HeadDerives types .variadic inner shape) :
    ∃ changed, HeadDerives types .variadic changedInner changed ∧
      (changed = shape ↔ ¬ IsRepeatedGroup (parent.or (some .variadic)) part) := by
  simp only [headDerives_variadic_iff] at hderives ⊢
  obtain ⟨element, helement, hshape⟩ := hderives
  obtain ⟨changed, hchanged, heq⟩ := hinner element helement
  cases parent with
  | none =>
    obtain ⟨hpart, hno⟩ := h.isGroup_whole hother hchanged
    obtain rfl : changed = element := heq.2 (by simp [IsRepeatedGroup])
    refine ⟨.variadic changed, ⟨changed, hchanged, .inl ⟨hno, rfl⟩⟩, ?_⟩
    rcases hshape with ⟨hplain, rfl⟩ | ⟨hgroup, members, rfl, rfl⟩
    · simp [IsRepeatedGroup, ← hpart, hplain]
    · simp [IsRepeatedGroup, ← hpart, hgroup, Shape.variadic_grouped_ne_repeated]
  | some head =>
    have hsame := h.isGroup_iff (by simp) helement hchanged
    rcases hshape with ⟨hplain, rfl⟩ | ⟨hgroup, members, rfl, rfl⟩
    · refine ⟨.variadic changed, ⟨changed, hchanged, .inl ⟨hsame.not.2 hplain, rfl⟩⟩, ?_⟩
      rw [Shape.variadic.injEq, heq, Option.some_or]
    · obtain ⟨group, hwrites⟩ := hsame.2 hgroup
      obtain ⟨others, -, rfl⟩ := hwrites.derives hchanged
      refine ⟨.repeated others, ⟨_, hchanged, .inr ⟨⟨group, hwrites⟩, others, rfl, rfl⟩⟩, ?_⟩
      rw [Shape.repeated_inj, ← Shape.grouped_inj, heq, Option.some_or]

/-- Wrapping a part keeps the expression in the grammar, and its shape unless the part is a group
that repeats. -/
theorem Replaces.exists_derives (h : Replaces part other parent text result)
    (hother : Writes .optional other part) (hderives : Derives types text shape) :
    ∃ changed, Derives types result changed ∧ (changed = shape ↔ ¬ IsRepeatedGroup parent part) := by
  induction h generalizing shape with
  | whole hfront hback =>
    have hpart : Derives types part shape := (derives_append_blanks hfront hback).1 hderives
    refine ⟨shape, (derives_append_blanks hfront hback).2 (.optional hother hpart), ?_⟩
    simp [IsRepeatedGroup]
  | @argument head word parent front gap back inner changedInner hhead hword hfront hgap hback hinner ih =>
    have htext := (writes_between_blanks hword hfront hgap hback).derives hderives
    have hresult : ∀ {changed}, HeadDerives types head changedInner changed →
        Derives types (front ++ applied word gap changedInner ++ back) changed :=
      (writes_between_blanks hword hfront hgap hback).derives_iff.2
    rcases hhead with rfl | rfl | rfl
    · obtain ⟨changed, hchanged, heq⟩ := ih htext
      exact ⟨changed, hresult hchanged, heq.trans (isRepeatedGroup_or_iff (by decide)).not.symm⟩
    · obtain ⟨element, helement, rfl⟩ := htext
      obtain ⟨changed, hchanged, heq⟩ := ih helement
      refine ⟨.list changed, hresult ⟨changed, hchanged, rfl⟩, ?_⟩
      rw [Shape.list.injEq, heq, isRepeatedGroup_or_iff (by decide)]
    · obtain ⟨changed, hchanged, heq⟩ := hinner.exists_variadic hother (fun _ => ih) htext
      exact ⟨changed, hresult hchanged, heq⟩
  | @member head word parent front gap back member changedMember before after hhead hword hfront hgap
      hback hmembers hmember ih =>
    have htext := (writes_between_blanks hword hfront hgap hback).derives hderives
    have hresult : ∀ {changed}, HeadDerives types head
          ([','].intercalate (before ++ changedMember :: after)) changed →
        Derives types (front ++ applied word gap
          ([','].intercalate (before ++ changedMember :: after)) ++ back) changed :=
      (writes_between_blanks hword hfront hgap hback).derives_iff.2
    have hchange : ∀ {shapes}, MembersDerive types ([','].intercalate (before ++ member :: after)) shapes →
        ∃ changed, MembersDerive types ([','].intercalate (before ++ changedMember :: after)) changed ∧
          (changed = shapes ↔ ¬ IsRepeatedGroup parent part) := by
      intro shapes hshapes
      obtain ⟨first, own, last, rfl, hown, hreplace⟩ := hshapes.exists_member hmembers
      obtain ⟨changed, hchanged, heq⟩ := ih hown
      refine ⟨first ++ changed :: last, hreplace _ _ hchanged, ?_⟩
      rw [List.append_cancel_left_eq, List.cons.injEq, and_iff_left rfl, heq]
    rcases hhead with rfl | rfl
    · obtain ⟨shapes, hshapes, rfl⟩ := htext
      obtain ⟨changed, hchanged, heq⟩ := hchange hshapes
      refine ⟨.grouped changed, hresult ⟨changed, hchanged, rfl⟩, ?_⟩
      rw [Shape.grouped_inj, heq, isRepeatedGroup_or_iff (by decide)]
    · obtain ⟨shapes, hshapes, rfl⟩ := htext
      obtain ⟨changed, hchanged, heq⟩ := hchange hshapes
      refine ⟨.tuple changed, hresult ⟨changed, hchanged, rfl⟩, ?_⟩
      rw [Shape.tuple.injEq, heq, isRepeatedGroup_or_iff (by decide)]

end TypeExpr

/-- In one context, an expression of some shape resolves, and to the same as another expression
exactly if that has the same shape. -/
theorem Resolve.exists_run_of_derives {types : NameMap TypeDefinition} {context after : Context}
    {expression other : String} {type : ResolvedType} {shape : Shape}
    (hresolve : (resolve types expression).run context = .ok type after)
    (hderives : TypeExpr.Derives types other.toList shape) :
    ∃ otherType last, (resolve types other).run context = .ok otherType last ∧
      ((otherType = type ∧ last = after) ↔ shape = type.shape) := by
  have hdecides : Decides types (resolve types other) ResolvedType.shape
      (TypeExpr.Derives types other.toList) := decides_ofText other.toList
  have hrun := hdecides context
  cases hother : (resolve types other).run context with
  | error fault last =>
    rw [hother] at hrun
    exact absurd hderives (hrun.1 shape)
  | ok otherType last =>
    rw [hother] at hrun
    obtain rfl := (hrun shape).1 hderives
    refine ⟨otherType, last, rfl, fun h => by rw [h.1], fun hshape => ?_⟩
    exact (adds_resolveTree hresolve).eq_of_shape (adds_resolveTree hother) hshape

theorem Resolve.derives_of_run {types : NameMap TypeDefinition} {context after : Context}
    {expression : String} {type : ResolvedType}
    (hresolve : (resolve types expression).run context = .ok type after) :
    TypeExpr.Derives types expression.toList type.shape := by
  have hdecides : Decides types (resolve types expression) ResolvedType.shape
      (TypeExpr.Derives types expression.toList) := decides_ofText expression.toList
  have hrun := hdecides context
  rw [hresolve] at hrun
  exact (hrun type.shape).2 rfl

/-- Around whatever part of an expression a wrapper is put, the expression still resolves. The type
and the context are the same as before exactly if the part is no group directly behind `variadic<`. -/
theorem wrapped_part_resolves_alike_iff (document : Document) (context after : Context)
    (expression result : String) (type : ResolvedType) (part wrapped : List Char)
    (parent : Option TypeExpr.Head)
    (hresolve : (resolve document.types expression).run context = .ok type after)
    (hwrapped : TypeExpr.Writes .optional wrapped part)
    (hreplaces : TypeExpr.Replaces part wrapped parent expression.toList result.toList) :
    ∃ other last, (resolve document.types result).run context = .ok other last ∧
      ((other = type ∧ last = after) ↔ ¬ TypeExpr.IsRepeatedGroup parent part) := by
  obtain ⟨shape, hshape, hsame⟩ := hreplaces.exists_derives hwrapped (Resolve.derives_of_run hresolve)
  obtain ⟨other, last, hother, halike⟩ := Resolve.exists_run_of_derives hresolve hshape
  exact ⟨other, last, hother, halike.trans hsame⟩

/-- What `variadic<multi<u8,u16>>` means where nothing is named `ComplexType0`. -/
def pairs : ResolvedType :=
  .variadicMulti "ComplexType0" [.primitive .u8, .primitive .u16]

open TypeExpr in
theorem pairs_resolve_alike_but_for_the_group :
    ∃ after, (resolve auction.types "variadic<multi<u8,u16>>").run (Context.ofDocument auction) =
        .ok pairs after ∧
      (∃ other last, (resolve auction.types "variadic<multi<Option<u8>,u16>>").run
        (Context.ofDocument auction) = .ok other last ∧ other = pairs ∧ last = after) ∧
      ∃ other last, (resolve auction.types "variadic<Option<multi<u8,u16>>>").run
        (Context.ofDocument auction) = .ok other last ∧ ¬ (other = pairs ∧ last = after) := by
  have hrun := Resolve.run_of_outcome (show ((resolve auction.types "variadic<multi<u8,u16>>").outcome
      (Context.ofDocument auction)).1 = .ok pairs by decide +kernel)
  have hblanks : Blanks [] := nofun
  have hwrapped : ∀ part, Writes .optional (applied "Option" [] part) part :=
    fun part => writes_applied (by simp [Head.spellings]) hblanks
  -- Around the first member the wrapper changes nothing.
  have hmember : Replaces "u8".toList (applied "Option" [] "u8".toList) (some .multi)
      "variadic<multi<u8,u16>>".toList "variadic<multi<Option<u8>,u16>>".toList := by
    have henclosed : ∀ m ∈ [] ++ "u8".toList :: ["u16".toList], Enclosed m := by
      intro m hm
      rcases List.mem_pair.1 hm with rfl | rfl <;> exact enclosed_of_plain (by simp)
    have hgroup := @Replaces.member "u8".toList (applied "Option" [] "u8".toList) .multi "multi" none
      [] [] [] _ _ [] ["u16".toList] (.inl rfl) (by simp [Head.spellings]) hblanks hblanks hblanks
      henclosed (.whole hblanks hblanks)
    have hwhole := @Replaces.argument _ _ .variadic "variadic" _ [] [] [] _ _ (.inr (.inr rfl))
      (by simp [Head.spellings]) hblanks hblanks hblanks hgroup
    simpa [applied, List.intercalate] using hwhole
  have hsingle : ¬ IsRepeatedGroup (some .multi) "u8".toList := fun h => absurd h.1 (by decide)
  obtain ⟨other, last, hother, halike⟩ :=
    wrapped_part_resolves_alike_iff auction _ _ _ _ pairs _ _ _ hrun (hwrapped _) hmember
  -- Around the group it hides that the group repeats.
  have hargument : Replaces "multi<u8,u16>".toList (applied "Option" [] "multi<u8,u16>".toList)
      (some .variadic) "variadic<multi<u8,u16>>".toList "variadic<Option<multi<u8,u16>>>".toList := by
    have hwhole := @Replaces.argument "multi<u8,u16>".toList (applied "Option" [] "multi<u8,u16>".toList)
      .variadic "variadic" _ [] [] [] _ _ (.inr (.inr rfl)) (by simp [Head.spellings]) hblanks hblanks
      hblanks (.whole hblanks hblanks)
    simpa [applied] using hwhole
  have hgroup : IsRepeatedGroup (some .variadic) "multi<u8,u16>".toList :=
    ⟨rfl, "u8,u16".toList, writes_of_spelling "multi" (by simp [Head.spellings]) (by simp)⟩
  obtain ⟨changed, final, hchanged, hdiffers⟩ :=
    wrapped_part_resolves_alike_iff auction _ _ _ _ pairs _ _ _ hrun (hwrapped _) hargument
  exact ⟨_, hrun, ⟨other, last, hother, halike.2 hsingle⟩, changed, final, hchanged,
    fun h => hdiffers.1 h hgroup⟩

end ContractAbi
