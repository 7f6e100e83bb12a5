import ContractAbi.Proofs.Footprint
import ContractAbi.Proofs.Grammar

/-!
# Canonical expressions

The display text of a type is an expression for it. In a context that a resolution of the type has
left behind, the text resolves to the same type again, names of composites included, and there is
nothing left to note or to register.
-/
namespace ContractAbi

namespace Shape

variable {members others : List Shape} {element : Shape}

theorem eq_of_repeated_variadic (h : repeated members = .variadic element) : members = [element] := by
  rcases members with _ | ⟨first, _ | ⟨second, rest⟩⟩ <;> cases h
  rfl

theorem eq_of_repeated_variadicMulti (h : repeated members = .variadicMulti others) :
    members = others := by
  rcases members with _ | ⟨first, _ | ⟨second, rest⟩⟩ <;> cases h <;> rfl

theorem eq_of_grouped_list (h : grouped members = .list element) : members = [element] := by
  rcases members with _ | ⟨first, _ | ⟨second, rest⟩⟩ <;> cases h
  rfl

theorem eq_of_grouped_multi (h : grouped members = .multi others) : members = others := by
  rcases members with _ | ⟨first, _ | ⟨second, rest⟩⟩ <;> cases h <;> rfl

end Shape

namespace TypeExpr

variable {types : NameMap TypeDefinition} {text inner other : List Char} {head otherHead : Head}
  {shape : Shape}

theorem IsIdentifier.not_isBlank (h : IsIdentifier text) : ∀ c ∈ text, Text.isBlank c = false := by
  have hle : ∀ {a b : Char}, a ≤ b → a.toNat ≤ b.toNat :=
    fun h => UInt32.le_iff_toNat_le.1 (Char.le_def.1 h)
  intro c hc
  -- Every blank lies below the digits or above the small letters.
  have hrange : 48 ≤ c.toNat ∧ c.toNat ≤ 122 := by
    rcases h.mem c hc with (⟨hlow, hhigh⟩ | ⟨hlow, hhigh⟩) | ⟨hlow, hhigh⟩ | rfl
    · exact ⟨le_trans (by decide) (hle hlow), le_trans (hle hhigh) (by decide)⟩
    · exact ⟨le_trans (by decide) (hle hlow), le_trans (hle hhigh) (by decide)⟩
    · exact ⟨le_trans (by decide) (hle hlow), le_trans (hle hhigh) (by decide)⟩
    · decide
  simp [Text.isBlank, Text.blankRanges]
  omega

theorem IsIdentifier.trim_eq (h : IsIdentifier text) : Text.trim text = text :=
  Text.trim_eq_self (fun c hc => h.not_isBlank c (List.mem_of_head? hc))
    fun c hc => h.not_isBlank c (List.mem_of_getLast? hc)

theorem trim_keyword (kind : Primitive) : Text.trim kind.keyword.toList = kind.keyword.toList := by
  apply Text.trim_eq_self
  · cases kind <;> simp [Primitive.keyword] <;> decide
  · cases kind <;> simp [Primitive.keyword] <;> decide

/-- A spelling in front of brackets needs no trimming. -/
theorem writes_of_spelling (word : String) (h : word ∈ head.spellings)
    (htext : text = word.toList ++ '<' :: (inner ++ ['>'])) : Writes head text inner := by
  have hident := Head.isIdentifier_spelling h
  refine ⟨word.toList, word, h, ?_, hident.trim_eq⟩
  rw [htext]
  apply Text.trim_eq_self
  · intro c hc
    rw [List.head?_append_of_ne_nil _ hident.ne_nil] at hc
    exact hident.not_isBlank c (List.mem_of_head? hc)
  · intro c hc
    rw [← List.cons_append, ← List.append_assoc, List.getLast?_concat] at hc
    obtain rfl := Option.some.inj hc
    decide

/-- A text is written with one head only. -/
theorem Writes.head_unique (h : Writes head text inner) (hother : Writes otherHead text other)
    (hpaired : Paired inner) : head = otherHead := by
  obtain ⟨word, happ, hword⟩ := writes_iff.1 ⟨h, hpaired⟩
  exact Option.some.inj (hword.symm.trans (hother.of_application? happ).1)

/-- What is written with a head derives its shape from the head. -/
theorem Writes.derives (h : Writes head text inner) (hderives : Derives types text shape) :
    HeadDerives types head inner shape := by
  have hsplit := derives_iff_application.1 hderives
  rcases happ : application? (Text.trim text) with fault | _ | ⟨word, found⟩
  · simp [happ] at hsplit
  · exact absurd happ h.application?_ne_none
  · obtain ⟨hword, rfl⟩ := h.of_application? happ
    simpa [happ, hword] using hsplit

end TypeExpr

namespace ResolvedType

open TypeExpr

variable {types : NameMap TypeDefinition} {inner : List Char}

mutual

/-- No plain variadic stands directly over a group. -/
def NoVariadicGroup : ResolvedType → Prop
  | .primitive _ | .record _ | .enum _ => True
  | .list element => NoVariadicGroup element
  | .variadic element => (∀ name members, element ≠ .multi name members) ∧ NoVariadicGroup element
  | .variadicMulti _ members | .multi _ members | .tuple _ members => NoVariadicGroupInAll members

def NoVariadicGroupInAll : List ResolvedType → Prop
  | [] => True
  | member :: rest => NoVariadicGroup member ∧ NoVariadicGroupInAll rest

end

theorem noVariadicGroupInAll_iff {members : List ResolvedType} :
    NoVariadicGroupInAll members ↔ ∀ m ∈ members, m.NoVariadicGroup := by
  induction members with
  | nil => simp [NoVariadicGroupInAll]
  | cons member rest ih => simp [NoVariadicGroupInAll, ih]

theorem shapes_eq_map (members : List ResolvedType) : shapes members = members.map shape := by
  induction members with
  | nil => rfl
  | cons member rest ih => simp [shapes, ih]

theorem displayMembers_eq : (members : List ResolvedType) →
    (displayMembers members).toList = [','].intercalate (members.map (·.display.toList))
  | [] => by simp [displayMembers, List.intercalate]
  | [member] => by simp [displayMembers, List.intercalate]
  | member :: second :: rest => by
    have hrest := displayMembers_eq (second :: rest)
    rw [displayMembers, String.toList_append, String.toList_append, hrest]
    · simp [List.intercalate]
    · simp

/-- The display texts of members are the parts of an argument list. -/
theorem membersDerive_display {members : List ResolvedType} (hne : members ≠ [])
    (h : ∀ m ∈ members, Derives types m.display.toList m.shape) :
    MembersDerive types (displayMembers members).toList (shapes members) := by
  refine ⟨members.map (·.display.toList), ⟨by simpa using hne, displayMembers_eq members, ?_⟩, ?_⟩
  · intro part hpart
    obtain ⟨member, hmember, rfl⟩ := List.mem_map.1 hpart
    exact (h member hmember).enclosed
  · rw [shapes_eq_map, List.forall₂_map_left_iff, List.forall₂_map_right_iff, List.forall₂_same]
    exact h

theorem writes_list (element : ResolvedType) :
    Writes .list (display (.list element)).toList element.display.toList :=
  writes_of_spelling "List" (by simp [Head.spellings]) (by simp)

theorem writes_variadic (element : ResolvedType) :
    Writes .variadic (display (.variadic element)).toList element.display.toList :=
  writes_of_spelling "variadic" (by simp [Head.spellings]) (by simp)

theorem writes_multi (name : String) (members : List ResolvedType) :
    Writes .multi (display (.multi name members)).toList (displayMembers members).toList :=
  writes_of_spelling "multi" (by simp [Head.spellings]) (by simp)

theorem writes_tuple (name : String) (members : List ResolvedType) :
    Writes .tuple (display (.tuple name members)).toList (displayMembers members).toList :=
  writes_of_spelling "tuple" (by simp [Head.spellings]) (by simp)

theorem writes_variadicMulti (name : String) (members : List ResolvedType) :
    Writes .variadic (display (.variadicMulti name members)).toList
      (display (.multi name members)).toList :=
  writes_of_spelling "variadic" (by simp [Head.spellings]) (by simp)

/-- Only the display text of a group is written as one. -/
theorem not_writes_multi {element : ResolvedType} (h : Derives types element.display.toList element.shape)
    (hgroup : ∀ name members, element ≠ .multi name members) (group : List Char) :
    ¬ Writes .multi element.display.toList group := by
  intro hmulti
  obtain ⟨members, -, hshape⟩ := hmulti.derives h
  cases element with
  | list element =>
    have hinner := ((writes_list element).derives h).paired
    cases (writes_list element).head_unique hmulti hinner
  | multi name members => exact hgroup name members rfl
  | _ => rcases members with _ | ⟨first, _ | ⟨second, rest⟩⟩ <;> cases hshape

theorem derives_display_variadic {element : ResolvedType} (hno : (variadic element).NoVariadicGroup)
    (h : Derives types element.display.toList element.shape) :
    Derives types (display (.variadic element)).toList (shape (.variadic element)) :=
  .variadic (writes_variadic element) (not_writes_multi h hno.1) h

/-- Members of derived shapes are written as they are derived. -/
theorem membersDerive_of_shapes {members : List (List Char × Shape)} {results : List ResolvedType}
    (hparts : Separates inner (members.map (·.1))) (hshapes : shapes results = members.map (·.2))
    (hno : NoVariadicGroupInAll results)
    (h : ∀ member ∈ members, ∀ type : ResolvedType, type.shape = member.2 → type.NoVariadicGroup →
      Derives types type.display.toList type.shape) :
    MembersDerive types (displayMembers results).toList (members.map (·.2)) := by
  rw [← hshapes]
  apply membersDerive_display
  · rintro rfl
    exact hparts.nonempty (by simpa [shapes] using hshapes.symm)
  · intro result hresult
    have hmem : result.shape ∈ members.map (·.2) := by
      rw [← hshapes, shapes_eq_map]
      exact List.mem_map_of_mem hresult
    obtain ⟨member, hmember, hshape⟩ := List.mem_map.1 hmem
    exact h member hmember result hshape.symm (noVariadicGroupInAll_iff.1 hno result hresult)

/-- A derivation of a type is one of its display text. -/
theorem derives_display {text : List Char} {shape : Shape} (h : Derives types text shape)
    (type : ResolvedType) (hshape : type.shape = shape) (hno : type.NoVariadicGroup) :
    Derives types type.display.toList type.shape := by
  induction h generalizing type with
  | @primitive text kind hword =>
    cases type <;> cases hshape
    exact .primitive (trim_keyword _)
  | record hname hident hkeyword hget =>
    cases type <;> cases hshape
    exact .record hident.trim_eq hident hkeyword hget
  | enum hname hident hkeyword hget =>
    cases type <;> cases hshape
    exact .enum hident.trim_eq hident hkeyword hget
  | optional _ _ ih => exact ih type hshape hno
  | list _ _ ih =>
    cases type <;> cases hshape
    exact .list (writes_list _) (ih _ rfl hno)
  | variadic _ _ _ ih =>
    cases type <;> cases hshape
    exact derives_display_variadic hno (ih _ rfl hno.2)
  | @variadicMulti text inner group members _ _ hparts _ ih =>
    cases type with
    | variadic element =>
      have hone := Shape.eq_of_repeated_variadic hshape.symm
      obtain ⟨member, hmember, hshape⟩ := List.mem_map.1 (hone ▸ List.mem_singleton_self element.shape)
      exact derives_display_variadic hno (ih member hmember element hshape.symm hno.2)
    | variadicMulti name results =>
      have hshapes := (Shape.eq_of_repeated_variadicMulti hshape.symm).symm
      have hall := membersDerive_of_shapes hparts hshapes hno ih
      rw [hshape]
      exact derives_iff.2 (.inr ⟨.variadic, _, writes_variadicMulti name results,
        .inr ⟨_, _, writes_multi name results, hall, rfl⟩⟩)
    | _ => rcases members with _ | ⟨first, _ | ⟨second, rest⟩⟩ <;> cases hshape
  | @multi text inner members _ hparts _ ih =>
    cases type with
    | list element =>
      have hone := Shape.eq_of_grouped_list hshape.symm
      obtain ⟨member, hmember, hshape⟩ := List.mem_map.1 (hone ▸ List.mem_singleton_self element.shape)
      exact .list (writes_list element) (ih member hmember element hshape.symm hno)
    | multi name results =>
      have hshapes := (Shape.eq_of_grouped_multi hshape.symm).symm
      have hall := membersDerive_of_shapes hparts hshapes hno ih
      rw [hshape]
      exact derives_iff.2 (.inr ⟨.multi, _, writes_multi name results, _, hall, rfl⟩)
    | _ => rcases members with _ | ⟨first, _ | ⟨second, rest⟩⟩ <;> cases hshape
  | @tuple text inner members _ hparts _ ih =>
    cases type with
    | tuple name results =>
      have hshapes : shapes results = members.map (·.2) := Shape.tuple.inj hshape
      have hall := membersDerive_of_shapes hparts hshapes hno ih
      rw [hshape]
      exact derives_iff.2 (.inr ⟨.tuple, _, writes_tuple name results, _, hall, rfl⟩)
    | _ => cases hshape

end ResolvedType

namespace Registry

variable {before after registry : Registry} {composite : Composite} {composites : List Composite}

/-- Looking up the members of the composite finds its name. -/
def Finds (registry : Registry) (composite : Composite) : Prop :=
  registry.nameOf? (memberFields composite.members) = some composite.name

theorem Finds.getOrCreate (h : registry.Finds composite) :
    registry.getOrCreate composite.members = (composite.name, registry) := by
  rw [Registry.getOrCreate, h]

/-- Another registration leaves what is found already. -/
theorem Finds.mono {members : List ResolvedType} {name : String} (h : before.Finds composite)
    (hcreate : before.getOrCreate members = (name, after)) : after.Finds composite := by
  rcases getOrCreate_cases hcreate with ⟨-, rfl⟩ | ⟨-, -, hentries⟩
  · exact h
  · obtain ⟨entry, hfind, hname⟩ := Option.map_eq_some_iff.1 h
    rw [Finds, nameOf?, hentries, List.find?_append, hfind]
    simp [hname]

theorem finds_getOrCreate (h : before.getOrCreate composite.members = (composite.name, after)) :
    after.Finds composite := by
  rcases getOrCreate_cases h with ⟨hfound, rfl⟩ | ⟨hnone, -, hentries⟩
  · exact hfound
  · rw [Finds, nameOf?, hentries, List.find?_append, Option.map_eq_none_iff.1 hnone]
    simp

theorem Adds.finds_of_finds (h : before.Adds composites after) (hfinds : before.Finds composite) :
    after.Finds composite := by
  induction h with
  | nil => exact hfinds
  | cons first _ ih => exact ih (hfinds.mono first)

/-- After a registration every composite is found. -/
theorem Adds.finds (h : before.Adds composites after) : ∀ c ∈ composites, after.Finds c := by
  induction h with
  | nil => simp
  | cons first others ih =>
    intro c hc
    rcases List.mem_cons.1 hc with rfl | hc
    · exact others.finds_of_finds (finds_getOrCreate first)
    · exact ih c hc

/-- Registering what is found changes nothing. -/
theorem adds_of_finds (h : ∀ c ∈ composites, registry.Finds c) : registry.Adds composites registry := by
  induction composites with
  | nil => exact .nil registry
  | cons composite rest ih =>
    exact .cons (h composite List.mem_cons_self).getOrCreate
      (ih fun c hc => h c (List.mem_cons_of_mem _ hc))

end Registry

namespace Context

variable {before after context : Context} {kind : Primitive} {type : ResolvedType}

/-- The primitive has left its mark in the context. -/
structure Noted (context : Context) (kind : Primitive) : Prop where
  bigInt : kind = .bigInt → context.usesBigInt = true
  bigUint : kind = .bigUint → context.usesBigUint = true
  listed : kind.isAlias = true → kind ∈ context.aliases

theorem Noted.note_eq_self (h : context.Noted kind) : context.note kind = context := by
  have hbigInt : (context.usesBigInt || kind == .bigInt) = context.usesBigInt := by
    by_cases hkind : kind = .bigInt
    · simp [h.bigInt hkind]
    · simp [hkind]
  have hbigUint : (context.usesBigUint || kind == .bigUint) = context.usesBigUint := by
    by_cases hkind : kind = .bigUint
    · simp [h.bigUint hkind]
    · simp [hkind]
  have hlisted : ¬ (kind.isAlias && !context.aliases.contains kind) = true := by
    intro hnew
    obtain ⟨hkind, hnew⟩ := Bool.and_eq_true_iff.1 hnew
    simp [h.listed hkind] at hnew
  rw [note_eq, hbigInt, hbigUint, if_neg hlisted]

theorem noted_note (context : Context) (kind : Primitive) : (context.note kind).Noted kind where
  bigInt := by
    rintro rfl
    simp [usesBigInt_note]
  bigUint := by
    rintro rfl
    simp [usesBigUint_note]
  listed halias := by
    rw [aliases_note]
    by_cases hmem : kind ∈ context.aliases <;> simp [halias, hmem]

theorem Noted.note (h : context.Noted kind) (other : Primitive) : (context.note other).Noted kind where
  bigInt hkind := by simp [usesBigInt_note, h.bigInt hkind]
  bigUint hkind := by simp [usesBigUint_note, h.bigUint hkind]
  listed halias := (context.grows_note other).aliases.subset (h.listed halias)

theorem Noted.noteAll (h : context.Noted kind) (kinds : List Primitive) :
    (context.noteAll kinds).Noted kind := by
  induction kinds generalizing context with
  | nil => exact h
  | cons other rest ih => exact ih (h.note other)

theorem noted_noteAll {kinds : List Primitive} (h : kind ∈ kinds) :
    (context.noteAll kinds).Noted kind := by
  induction kinds generalizing context with
  | nil => exact absurd h List.not_mem_nil
  | cons other rest ih =>
    rcases List.mem_cons.1 h with rfl | h
    · exact (noted_note context kind).noteAll rest
    · exact ih h

theorem noteAll_eq_self {kinds : List Primitive} (h : ∀ kind ∈ kinds, context.Noted kind) :
    context.noteAll kinds = context := by
  induction kinds with
  | nil => rfl
  | cons kind rest ih =>
    rw [noteAll_cons, (h kind List.mem_cons_self).note_eq_self]
    exact ih fun other hother => h other (List.mem_cons_of_mem _ hother)

/-- What a type needs is in the context. -/
structure Holds (context : Context) (type : ResolvedType) : Prop where
  noted : ∀ kind ∈ type.primitives, context.Noted kind
  found : ∀ composite ∈ type.composites, context.registry.Finds composite

/-- A context holds what was added to it. -/
theorem Adds.holds (h : before.Adds type.primitives type.composites after) : after.Holds type where
  noted kind hkind := by
    have hnoted : (after.withRegistry before.registry).Noted kind := h.noted ▸ noted_noteAll hkind
    exact ⟨hnoted.bigInt, hnoted.bigUint, hnoted.listed⟩
  found := h.registered.finds

end Context

/-- Registered in one registry, types of the same shape are the same type and leave the same
registry. -/
def ResolvedType.DeterminedByShape (type : ResolvedType) : Prop :=
  ∀ (registry after last : Registry) (other : ResolvedType), other.shape = type.shape →
    registry.Adds type.composites after → registry.Adds other.composites last →
      other = type ∧ last = after

namespace Registry.Adds

variable {registry after last : Registry} {members others : List ResolvedType}
  {name otherName : String}

theorem members_eq (h : ∀ m ∈ members, m.DeterminedByShape)
    (hshapes : ResolvedType.shapes others = ResolvedType.shapes members)
    (hadds : registry.Adds (ResolvedType.compositesOfAll members) after)
    (hothers : registry.Adds (ResolvedType.compositesOfAll others) last) :
    others = members ∧ last = after := by
  induction members generalizing registry others with
  | nil =>
    cases others with
    | nil =>
      cases hadds
      cases hothers
      exact ⟨rfl, rfl⟩
    | cons other rest => cases hshapes
  | cons member members ih =>
    cases others with
    | nil => cases hshapes
    | cons other rest =>
      obtain ⟨hshape, hrest⟩ := List.cons.inj hshapes
      obtain ⟨middle, hfirst, hadds⟩ := hadds.of_append
      obtain ⟨middle', hfirst', hothers⟩ := hothers.of_append
      obtain ⟨rfl, rfl⟩ := h member List.mem_cons_self registry middle middle' other hshape hfirst hfirst'
      obtain ⟨rfl, hafter⟩ := ih (fun m hm => h m (List.mem_cons_of_mem _ hm)) hrest hadds hothers
      exact ⟨rfl, hafter⟩

/-- A composite comes behind its members, which are the same already. -/
theorem composite_eq (h : ∀ m ∈ members, m.DeterminedByShape)
    (hshapes : ResolvedType.shapes others = ResolvedType.shapes members)
    (hadds : registry.Adds (ResolvedType.compositesOfAll members ++ [⟨name, members⟩]) after)
    (hothers : registry.Adds (ResolvedType.compositesOfAll others ++ [⟨otherName, others⟩]) last) :
    otherName = name ∧ others = members ∧ last = after := by
  obtain ⟨middle, hmembers, hself⟩ := hadds.of_append
  obtain ⟨middle', hmembers', hself'⟩ := hothers.of_append
  obtain ⟨rfl, rfl⟩ := members_eq h hshapes hmembers hmembers'
  cases hself with
  | cons first rest =>
    cases hself' with
    | cons first' rest' =>
      cases rest
      cases rest'
      obtain ⟨rfl, rfl⟩ := Prod.mk.inj (first.symm.trans first')
      exact ⟨rfl, rfl, rfl⟩

end Registry.Adds

theorem ResolvedType.determinedByShape (type : ResolvedType) : type.DeterminedByShape := by
  induction type using ResolvedType.memberInduction with
  | primitive _ | record _ | enum _ =>
    intro registry after last other hshape hadds hother
    cases other <;> cases hshape
    cases hadds
    cases hother
    exact ⟨rfl, rfl⟩
  | list element ih =>
    intro registry after last other hshape hadds hother
    cases other with
    | list other =>
      obtain ⟨rfl, rfl⟩ := ih registry after last other (Shape.list.inj hshape) hadds hother
      exact ⟨rfl, rfl⟩
    | _ => cases hshape
  | variadic element ih =>
    intro registry after last other hshape hadds hother
    cases other with
    | variadic other =>
      obtain ⟨rfl, rfl⟩ := ih registry after last other (Shape.variadic.inj hshape) hadds hother
      exact ⟨rfl, rfl⟩
    | _ => cases hshape
  | variadicMulti name members ih =>
    intro registry after last other hshape hadds hother
    cases other with
    | variadicMulti otherName others =>
      obtain ⟨rfl, rfl, rfl⟩ := hadds.composite_eq ih (Shape.variadicMulti.inj hshape) hother
      exact ⟨rfl, rfl⟩
    | _ => cases hshape
  | multi name members ih =>
    intro registry after last other hshape hadds hother
    cases other with
    | multi otherName others =>
      obtain ⟨rfl, rfl, rfl⟩ := hadds.composite_eq ih (Shape.multi.inj hshape) hother
      exact ⟨rfl, rfl⟩
    | _ => cases hshape
  | tuple name members ih =>
    intro registry after last other hshape hadds hother
    cases other with
    | tuple otherName others =>
      obtain ⟨rfl, rfl, rfl⟩ := hadds.composite_eq ih (Shape.tuple.inj hshape) hother
      exact ⟨rfl, rfl⟩
    | _ => cases hshape

/-- In a context, types of the same shape are the same type and leave the same context. -/
theorem Context.Adds.eq_of_shape {context after last : Context} {type other : ResolvedType}
    (hadds : context.Adds type.primitives type.composites after)
    (hother : context.Adds other.primitives other.composites last)
    (hshape : other.shape = type.shape) : other = type ∧ last = after := by
  obtain ⟨rfl, hregistry⟩ :=
    type.determinedByShape _ _ _ other hshape hadds.registered hother.registered
  refine ⟨rfl, ?_⟩
  have hnoted : last.withRegistry context.registry = after.withRegistry context.registry :=
    hother.noted.trans hadds.noted.symm
  calc last = (last.withRegistry context.registry).withRegistry last.registry := rfl
    _ = (after.withRegistry context.registry).withRegistry after.registry := by rw [hnoted, hregistry]
    _ = after := rfl

/-- Where its composites are found, a type is the only one of its shape that can be registered, and
registering it changes nothing. -/
def ResolvedType.FixedByShape (type : ResolvedType) : Prop :=
  ∀ (registry after : Registry) (other : ResolvedType), other.shape = type.shape →
    (∀ c ∈ type.composites, registry.Finds c) → registry.Adds other.composites after →
      other = type ∧ after = registry

theorem ResolvedType.fixedByShape (type : ResolvedType) : type.FixedByShape :=
  fun registry after other hshape hfound hadds =>
    type.determinedByShape registry registry after other hshape (Registry.adds_of_finds hfound) hadds

/-- A type of the shape of a held one is that type, and it adds nothing. -/
theorem Context.Adds.eq_of_holds {context after : Context} {type other : ResolvedType}
    (hadds : context.Adds other.primitives other.composites after) (hholds : context.Holds type)
    (hshape : other.shape = type.shape) : other = type ∧ after = context := by
  obtain ⟨rfl, hregistry⟩ := type.fixedByShape _ _ other hshape hholds.found hadds.registered
  refine ⟨rfl, ?_⟩
  have hnoted := hadds.noted
  rw [Context.noteAll_eq_self hholds.noted, ← hregistry] at hnoted
  exact hnoted

/-- The display text of a type resolves to the same type, and the context in which the type was
resolved stays as it is. -/
theorem display_resolves_to_itself (document : Document) (context after : Context)
    (expression : String) (type : ResolvedType)
    (hresolve : (resolve document.types expression).run context = .ok type after)
    (hgroups : type.NoVariadicGroup) :
    (resolve document.types type.display).run after = .ok type after := by
  have hexpression : Resolve.Decides document.types (resolve document.types expression)
      ResolvedType.shape (TypeExpr.Derives document.types expression.toList) :=
    Resolve.decides_ofText expression.toList
  have hdisplay : Resolve.Decides document.types (resolve document.types type.display)
      ResolvedType.shape (TypeExpr.Derives document.types type.display.toList) :=
    Resolve.decides_ofText type.display.toList
  have hbefore := hexpression context
  rw [hresolve] at hbefore
  have hderives := ResolvedType.derives_display ((hbefore type.shape).2 rfl) type rfl hgroups
  have hagain := hdisplay after
  cases hr : (resolve document.types type.display).run after with
  | error fault last =>
    rw [hr] at hagain
    exact absurd hderives (hagain.1 type.shape)
  | ok other last =>
    rw [hr] at hagain
    have hshape : other.shape = type.shape := ((hagain type.shape).1 hderives).symm
    obtain ⟨rfl, rfl⟩ := (Resolve.adds_resolveTree hr).eq_of_holds
      (Resolve.adds_resolveTree hresolve).holds hshape
    rfl

theorem Resolve.run_of_outcome {step : Resolve α} {context : Context} {value : α}
    (h : (step.outcome context).1 = .ok value) :
    step.run context = .ok value (step.outcome context).2 := by
  rw [Resolve.outcome] at h ⊢
  cases hr : step.run context with
  | error fault after => simp [hr] at h
  | ok result after =>
    rw [hr] at h
    rw [Except.ok.inj h]

/-- A document with one named type. -/
def auction : Document where
  buildInfo := ⟨none, ⟨"multiversx-sc", "0.43.3"⟩⟩
  docs := []
  name := "Auction"
  constructor := none
  endpoints := []
  events := []
  hasCallbacks := false
  types := NameMap.ofList [("Bid", .record [] [⟨"amount", "BigUint"⟩])]

/-- What `variadic< multi <optional<Bid>, tuple<Address,List<tuple<u64>>>> >` means there. -/
def bids : ResolvedType :=
  .variadicMulti "ComplexType2" [.record "Bid", .tuple "ComplexType1"
    [.primitive .address, .list (.tuple "ComplexType0" [.primitive .u64])]]

theorem bids_display_resolves_to_itself :
    ∃ after, (resolve auction.types "variadic< multi <optional<Bid>, tuple<Address,List<tuple<u64>>>> >").run
        (Context.ofDocument auction) = .ok bids after ∧ bids.NoVariadicGroup ∧
      (resolve auction.types bids.display).run after = .ok bids after := by
  have hrun := Resolve.run_of_outcome (show ((resolve auction.types
    "variadic< multi <optional<Bid>, tuple<Address,List<tuple<u64>>>> >").outcome
      (Context.ofDocument auction)).1 = .ok bids by decide +kernel)
  have hgroups : bids.NoVariadicGroup := by
    simp [bids, ResolvedType.NoVariadicGroup, ResolvedType.NoVariadicGroupInAll]
  exact ⟨_, hrun, hgroups, display_resolves_to_itself auction _ _ _ bids hrun hgroups⟩

end ContractAbi
