import ContractAbi.Proofs.Resolution
import ContractAbi.Proofs.Results

/-!
# What resolution leaves in a context

A resolution that succeeds notes the primitives of its type from left to right and registers the
composites of its type, inner ones first. It leaves nothing else in the context, so the type says
all about the difference between the context before and the one after.
-/
namespace ContractAbi

namespace ResolvedType

mutual

/-- Every primitive in a type, from left to right. -/
def primitives : ResolvedType → List Primitive
  | .primitive kind => [kind]
  | .record _ | .enum _ => []
  | .list element | .variadic element => primitives element
  | .variadicMulti _ members | .multi _ members | .tuple _ members => primitivesOfAll members

def primitivesOfAll : List ResolvedType → List Primitive
  | [] => []
  | member :: rest => primitives member ++ primitivesOfAll rest

end

theorem primitivesOfAll_append (left right : List ResolvedType) :
    primitivesOfAll (left ++ right) = primitivesOfAll left ++ primitivesOfAll right := by
  induction left with
  | nil => rfl
  | cons type rest ih => simp [primitivesOfAll, ih]

theorem compositesOfAll_append (left right : List ResolvedType) :
    compositesOfAll (left ++ right) = compositesOfAll left ++ compositesOfAll right := by
  induction left with
  | nil => rfl
  | cons type rest ih => simp [compositesOfAll, ih]

end ResolvedType

theorem memberFields_injective {left right : List ResolvedType}
    (h : memberFields left = memberFields right) : left = right := by
  rw [← types_memberFields left, h, types_memberFields]

/-- Registering finds the entry with the members, or adds one at the end under a new name. -/
theorem Registry.getOrCreate_cases {registry after : Registry} {members : List ResolvedType}
    {name : String} (h : registry.getOrCreate members = (name, after)) :
    (registry.nameOf? (memberFields members) = some name ∧ after = registry) ∨
      (registry.nameOf? (memberFields members) = none ∧ name ∉ registry.entries.names ∧
        after.entries.entries = registry.entries.entries ++ [(name, memberFields members)]) := by
  simp only [Registry.getOrCreate] at h
  split at h
  · rename_i known hknown
    obtain ⟨rfl, rfl⟩ := Prod.mk.inj h
    exact .inl ⟨hknown, rfl⟩
  · rename_i hnone
    obtain ⟨rfl, rfl⟩ := Prod.mk.inj h
    exact .inr ⟨hnone, registry.freshName_not_mem,
      NameMap.entries_put_of_not_mem registry.freshName_not_mem⟩

/-- Registering the composites in their order gives each of them the name that it has. -/
inductive Registry.Adds : Registry → List Composite → Registry → Prop
  | nil (registry : Registry) : Adds registry [] registry
  | cons {before middle after : Registry} {composite : Composite} {rest : List Composite}
      (first : before.getOrCreate composite.members = (composite.name, middle))
      (others : Adds middle rest after) : Adds before (composite :: rest) after

theorem Registry.Adds.append {before middle after : Registry} {left right : List Composite}
    (hleft : before.Adds left middle) (hright : middle.Adds right after) :
    before.Adds (left ++ right) after := by
  induction hleft with
  | nil registry => exact hright
  | cons first _ ih => exact .cons first (ih hright)

theorem Registry.Adds.of_append {before after : Registry} {left right : List Composite}
    (h : before.Adds (left ++ right) after) :
    ∃ middle, before.Adds left middle ∧ middle.Adds right after := by
  induction left generalizing before with
  | nil => exact ⟨before, .nil before, h⟩
  | cons composite rest ih =>
    cases h with
    | cons first others =>
      obtain ⟨middle, hrest, hright⟩ := ih others
      exact ⟨middle, .cons first hrest, hright⟩

namespace Context

/-- The context in which some primitives are noted as well. -/
def noteAll (context : Context) (kinds : List Primitive) : Context :=
  kinds.foldl Context.note context

def withRegistry (context : Context) (registry : Registry) : Context :=
  { context with registry }

@[simp] theorem noteAll_nil (context : Context) : context.noteAll [] = context := rfl

@[simp] theorem noteAll_cons (context : Context) (kind : Primitive) (kinds : List Primitive) :
    context.noteAll (kind :: kinds) = (context.note kind).noteAll kinds := rfl

theorem noteAll_append (context : Context) (left right : List Primitive) :
    context.noteAll (left ++ right) = (context.noteAll left).noteAll right :=
  List.foldl_append

theorem note_eq (context : Context) (kind : Primitive) :
    context.note kind = {
      usesBigInt := context.usesBigInt || kind == .bigInt
      usesBigUint := context.usesBigUint || kind == .bigUint
      aliases :=
        if kind.isAlias && !context.aliases.contains kind then context.aliases ++ [kind]
        else context.aliases
      registry := context.registry } := by
  rw [← usesBigInt_note, ← usesBigUint_note, ← aliases_note]
  exact congrArg (Context.mk _ _ _) (registry_note context kind)

/-- Noting a primitive and changing the registry do not meet. -/
theorem note_withRegistry (context : Context) (registry : Registry) (kind : Primitive) :
    (context.withRegistry registry).note kind = (context.note kind).withRegistry registry := by
  rw [note_eq, note_eq]
  rfl

theorem noteAll_withRegistry (context : Context) (registry : Registry) (kinds : List Primitive) :
    (context.withRegistry registry).noteAll kinds =
      (context.noteAll kinds).withRegistry registry := by
  induction kinds generalizing context with
  | nil => rfl
  | cons kind rest ih => rw [noteAll_cons, note_withRegistry, ih, noteAll_cons]

/-- The difference between two contexts: some primitives are noted and some composites are
registered, each in order. -/
structure Adds (before : Context) (kinds : List Primitive) (composites : List Composite)
    (after : Context) : Prop where
  noted : after.withRegistry before.registry = before.noteAll kinds
  registered : before.registry.Adds composites after.registry

theorem Adds.refl (context : Context) : context.Adds [] [] context :=
  ⟨rfl, .nil _⟩

theorem Adds.append {before middle after : Context} {kinds others : List Primitive}
    {composites more : List Composite} (hfirst : before.Adds kinds composites middle)
    (hrest : middle.Adds others more after) :
    before.Adds (kinds ++ others) (composites ++ more) after := by
  refine ⟨?_, hfirst.registered.append hrest.registered⟩
  calc after.withRegistry before.registry
      = (after.withRegistry middle.registry).withRegistry before.registry := rfl
    _ = (middle.noteAll others).withRegistry before.registry := by rw [hrest.noted]
    _ = (middle.withRegistry before.registry).noteAll others := by rw [noteAll_withRegistry]
    _ = before.noteAll (kinds ++ others) := by rw [hfirst.noted, noteAll_append]

/-- The difference that some types make, one after the other. -/
def Uses (before : Context) (types : List ResolvedType) (after : Context) : Prop :=
  before.Adds (ResolvedType.primitivesOfAll types) (ResolvedType.compositesOfAll types) after

theorem Uses.refl (context : Context) : context.Uses [] context :=
  Adds.refl context

theorem Uses.append {before middle after : Context} {left right : List ResolvedType}
    (hleft : before.Uses left middle) (hright : middle.Uses right after) :
    before.Uses (left ++ right) after := by
  rw [Uses, ResolvedType.primitivesOfAll_append, ResolvedType.compositesOfAll_append]
  exact Adds.append hleft hright

theorem uses_singleton {before after : Context} {type : ResolvedType} :
    before.Uses [type] after ↔ before.Adds type.primitives type.composites after := by
  simp [Uses, ResolvedType.primitivesOfAll, ResolvedType.compositesOfAll]

end Context

namespace Resolve

variable {α β : Type} {types : NameMap TypeDefinition} {before after : Context}

theorem adds_registerComposite {members : List ResolvedType} {name : String}
    (h : (registerComposite members).run before = .ok name after) :
    before.Adds [] [⟨name, members⟩] after := by
  obtain ⟨rfl, rfl⟩ := EStateM.Result.ok.inj h
  exact ⟨rfl, .cons rfl (.nil _)⟩

/-- Around its members a composite adds itself. -/
theorem adds_composite {members : List ResolvedType} {build : String → ResolvedType}
    {type : ResolvedType} {start : Context} (hmembers : start.Uses members before)
    (hprimitives : ∀ name, (build name).primitives = ResolvedType.primitivesOfAll members)
    (hcomposites : ∀ name,
      (build name).composites = ResolvedType.compositesOfAll members ++ [⟨name, members⟩])
    (h : (do return build (← registerComposite members) : Resolve ResolvedType).run before =
      .ok type after) : start.Adds type.primitives type.composites after := by
  obtain ⟨name, middle, hname, h⟩ := of_run_bind_eq_ok h
  obtain ⟨rfl, rfl⟩ := of_run_pure_eq_ok h
  rw [hprimitives, hcomposites, ← List.append_nil (ResolvedType.primitivesOfAll members)]
  exact Context.Adds.append hmembers (adds_registerComposite hname)

theorem adds_tupleOf {members : List ResolvedType} {type : ResolvedType} {start : Context}
    (hmembers : start.Uses members before) (h : (tupleOf members).run before = .ok type after) :
    start.Adds type.primitives type.composites after :=
  adds_composite hmembers (fun _ => rfl) (fun _ => rfl) h

theorem adds_multiOf {members : List ResolvedType} {type : ResolvedType} {start : Context}
    (hmembers : start.Uses members before) (h : (multiOf members).run before = .ok type after) :
    start.Adds type.primitives type.composites after := by
  rw [multiOf.eq_def] at h
  split at h
  · obtain ⟨rfl, rfl⟩ := of_run_pure_eq_ok h
    exact Context.uses_singleton.1 hmembers
  · exact adds_composite hmembers (fun _ => rfl) (fun _ => rfl) h

theorem adds_variadicOf {members : List ResolvedType} {type : ResolvedType} {start : Context}
    (hmembers : start.Uses members before) (h : (variadicOf members).run before = .ok type after) :
    start.Adds type.primitives type.composites after := by
  rw [variadicOf.eq_def] at h
  split at h
  · obtain ⟨rfl, rfl⟩ := of_run_pure_eq_ok h
    exact Context.uses_singleton.1 hmembers
  · exact adds_composite hmembers (fun _ => rfl) (fun _ => rfl) h

theorem adds_resolveName {name : String} {type : ResolvedType}
    (h : (resolveName types name).run before = .ok type after) :
    before.Adds type.primitives type.composites after := by
  rw [resolveName] at h
  split at h
  · obtain ⟨rfl, rfl⟩ := of_run_pure_eq_ok h
    exact .refl _
  · obtain ⟨rfl, rfl⟩ := of_run_pure_eq_ok h
    exact .refl _
  · cases h

/-- The members of a group are resolved in order. -/
theorem uses_resolveTrees {trees : List TypeExpr} {members : List ResolvedType}
    (hmember : ∀ tree ∈ trees, ∀ (before after : Context) (type : ResolvedType),
      (resolveTree types tree).run before = .ok type after →
        before.Adds type.primitives type.composites after)
    (h : (resolveTrees types trees).run before = .ok members after) :
    before.Uses members after := by
  induction trees generalizing before members with
  | nil =>
    obtain ⟨rfl, rfl⟩ := of_run_pure_eq_ok h
    exact .refl _
  | cons tree rest ih =>
    rw [resolveTrees] at h
    obtain ⟨type, middle, hfirst, h⟩ := of_run_bind_eq_ok h
    obtain ⟨others, last, hrest, h⟩ := of_run_bind_eq_ok h
    obtain ⟨rfl, rfl⟩ := of_run_pure_eq_ok h
    have htype := hmember tree List.mem_cons_self before middle type hfirst
    have hothers := ih (fun t ht => hmember t (List.mem_cons_of_mem _ ht)) hrest
    exact Context.Uses.append (Context.uses_singleton.2 htype) hothers

/-- What a type leaves in the context is what is in the type. -/
theorem adds_resolveTree {tree : TypeExpr} {type : ResolvedType}
    (h : (resolveTree types tree).run before = .ok type after) :
    before.Adds type.primitives type.composites after := by
  induction tree using TypeExpr.memberInduction generalizing before after type with
  | primitive kind =>
    rw [resolveTree] at h
    obtain ⟨rfl, rfl⟩ := EStateM.Result.ok.inj h
    refine ⟨(Context.note_withRegistry before before.registry kind).symm, ?_⟩
    rw [Context.registry_note]
    exact .nil _
  | named name =>
    rw [resolveTree] at h
    exact adds_resolveName h
  | list element ih =>
    rw [resolveTree] at h
    obtain ⟨inner, middle, hinner, h⟩ := of_run_bind_eq_ok h
    obtain ⟨rfl, rfl⟩ := of_run_pure_eq_ok h
    rw [ResolvedType.primitives, ResolvedType.composites]
    exact ih hinner
  | variadic element ih =>
    rw [resolveTree] at h
    obtain ⟨inner, middle, hinner, h⟩ := of_run_bind_eq_ok h
    obtain ⟨rfl, rfl⟩ := of_run_pure_eq_ok h
    rw [ResolvedType.primitives, ResolvedType.composites]
    exact ih hinner
  | variadicMulti members ih =>
    rw [resolveTree] at h
    obtain ⟨parts, middle, hparts, h⟩ := of_run_bind_eq_ok h
    exact adds_variadicOf (uses_resolveTrees (fun t ht _ _ _ => ih t ht) hparts) h
  | multi members ih =>
    rw [resolveTree] at h
    obtain ⟨parts, middle, hparts, h⟩ := of_run_bind_eq_ok h
    exact adds_multiOf (uses_resolveTrees (fun t ht _ _ _ => ih t ht) hparts) h
  | tuple members ih =>
    rw [resolveTree] at h
    obtain ⟨parts, middle, hparts, h⟩ := of_run_bind_eq_ok h
    exact adds_tupleOf (uses_resolveTrees (fun t ht _ _ _ => ih t ht) hparts) h
  | unrecognized fault =>
    rw [resolveTree] at h
    cases h

theorem uses_resolve {expression : String} {type : ResolvedType}
    (h : (resolve types expression).run before = .ok type after) : before.Uses [type] after :=
  Context.uses_singleton.2 (adds_resolveTree h)

end Resolve
end ContractAbi
