import ContractAbi.Proofs.Expression
import ContractAbi.Proofs.Registry
import ContractAbi.Endpoint

/-!
# What resolution keeps

Resolving an expression keeps the registry sound and only adds to the context, whether it succeeds
or fails. A type that it gives has an entry for every composite in it and names only types that the
document declares.
-/
namespace ContractAbi

namespace ResolvedType

mutual

/-- The named types in a type are identifiers, and the document declares each of them as what the
type says it is. -/
def Grounded (types : NameMap TypeDefinition) : ResolvedType → Prop
  | .primitive _ => True
  | .record name =>
    TypeExpr.isTypeName name.toList = true ∧ ∃ docs fields, types.get? name = some (.record docs fields)
  | .enum name =>
    TypeExpr.isTypeName name.toList = true ∧ ∃ docs variants, types.get? name = some (.enum docs variants)
  | .list element | .variadic element => Grounded types element
  | .variadicMulti _ members | .multi _ members | .tuple _ members => GroundedAll types members

def GroundedAll (types : NameMap TypeDefinition) : List ResolvedType → Prop
  | [] => True
  | member :: rest => Grounded types member ∧ GroundedAll types rest

end

theorem groundedAll_iff {types : NameMap TypeDefinition} {members : List ResolvedType} :
    GroundedAll types members ↔ ∀ m ∈ members, Grounded types m := by
  induction members with
  | nil => simp [GroundedAll]
  | cons member rest ih => simp [GroundedAll, ih]

end ResolvedType

/-- What is noted in a context is only added to. -/
structure Context.Grows (before after : Context) : Prop where
  registry : before.registry.Extends after.registry
  aliases : before.aliases <+: after.aliases
  imports : before.imports ⊆ after.imports

namespace Context

theorem Grows.refl (context : Context) : context.Grows context :=
  ⟨.refl _, List.prefix_refl _, List.Subset.refl _⟩

theorem Grows.trans {a b c : Context} (hab : a.Grows b) (hbc : b.Grows c) : a.Grows c :=
  ⟨hab.registry.trans hbc.registry, hab.aliases.trans hbc.aliases,
    List.Subset.trans hab.imports hbc.imports⟩

@[simp] theorem registry_note (context : Context) (kind : Primitive) :
    (context.note kind).registry = context.registry := by
  cases kind <;> simp only [note] <;> split <;> rfl

theorem aliases_note (context : Context) (kind : Primitive) :
    (context.note kind).aliases =
      if kind.isAlias && !context.aliases.contains kind then context.aliases ++ [kind]
      else context.aliases := by
  cases kind <;> simp [note, Primitive.isAlias] <;> split <;> rfl

theorem usesBigInt_note (context : Context) (kind : Primitive) :
    (context.note kind).usesBigInt = (context.usesBigInt || kind == .bigInt) := by
  cases kind <;> simp only [note] <;> (try split) <;> simp

theorem usesBigUint_note (context : Context) (kind : Primitive) :
    (context.note kind).usesBigUint = (context.usesBigUint || kind == .bigUint) := by
  cases kind <;> simp only [note] <;> (try split) <;> simp

theorem mem_imports {context : Context} {name : String} :
    name ∈ context.imports ↔
      name = "BigInt" ∧ context.usesBigInt = true ∨ name = "BigUint" ∧ context.usesBigUint = true := by
  simp only [imports, List.mem_append]
  refine or_congr ?_ ?_
  · cases context.usesBigInt <;> simp
  · cases context.usesBigUint <;> simp

theorem grows_note (context : Context) (kind : Primitive) : context.Grows (context.note kind) := by
  refine ⟨?_, ?_, ?_⟩
  · rw [registry_note]
    exact .refl _
  · rw [aliases_note]
    split
    · exact List.prefix_append _ _
    · exact List.prefix_refl _
  · intro name hname
    rw [mem_imports] at hname ⊢
    refine hname.imp ?_ ?_
    · rintro ⟨rfl, h⟩
      exact ⟨rfl, by simp [usesBigInt_note, h]⟩
    · rintro ⟨rfl, h⟩
      exact ⟨rfl, by simp [usesBigUint_note, h]⟩

end Context

/-- The registry is sound, and the document declares the named types in its entries. -/
structure Context.Sound (context : Context) (types : NameMap TypeDefinition) : Prop where
  registry : context.registry.Sound
  grounded : ∀ entry ∈ context.registry.entries.entries, ∀ field ∈ entry.2,
    field.type.Grounded types

theorem Context.sound_reserving (types : NameMap TypeDefinition) (names : List String) :
    (Context.reserving names).Sound types :=
  ⟨Registry.sound_reserving names, fun _ h => absurd h List.not_mem_nil⟩

namespace Resolve

variable {α β : Type} {types : NameMap TypeDefinition} {pre : Context → Prop}

/-- From a sound context the step leads to a sound context that has grown, also when it fails. If
`pre` holds before it and it succeeds, `post` holds after it. -/
def Keeps (types : NameMap TypeDefinition) (pre : Context → Prop) (step : Resolve α)
    (post : α → Context → Prop) : Prop :=
  ∀ context, context.Sound types → pre context →
    match step.run context with
    | .ok value after => after.Sound types ∧ context.Grows after ∧ post value after
    | .error _ after => after.Sound types ∧ context.Grows after

theorem Keeps.pure {value : α} {post : α → Context → Prop} (h : ∀ context, pre context → post value context) :
    Keeps types pre (Pure.pure value) post :=
  fun context hs hp => ⟨hs, .refl context, h context hp⟩

theorem Keeps.throw {fault : ConversionFault} {post : α → Context → Prop} :
    Keeps types pre (MonadExcept.throw fault) post :=
  fun context hs _ => ⟨hs, .refl context⟩

theorem Keeps.bind {step : Resolve α} {next : α → Resolve β} {mid : α → Context → Prop}
    {post : β → Context → Prop} (hstep : Keeps types pre step mid)
    (hnext : ∀ value, Keeps types (mid value) (next value) post) : Keeps types pre (step >>= next) post := by
  intro context hs hp
  have h := hstep context hs hp
  rw [EStateM.run_bind]
  cases hr : step.run context with
  | error fault after =>
    simp only [hr] at h ⊢
    exact h
  | ok value after =>
    simp only [hr] at h ⊢
    obtain ⟨hs', hg, hm⟩ := h
    have h' := hnext value after hs' hm
    cases hr' : (next value).run after with
    | error fault last =>
      simp only [hr'] at h' ⊢
      exact ⟨h'.1, hg.trans h'.2⟩
    | ok result last =>
      simp only [hr'] at h' ⊢
      exact ⟨h'.1, hg.trans h'.2.1, h'.2.2⟩

theorem Keeps.mono {step : Resolve α} {post post' : α → Context → Prop} {pre' : Context → Prop}
    (h : Keeps types pre step post) (hpre : ∀ context, pre' context → pre context)
    (hpost : ∀ value context, post value context → post' value context) : Keeps types pre' step post' := by
  intro context hs hp
  have hk := h context hs (hpre context hp)
  cases hr : step.run context with
  | error fault after =>
    simp only [hr] at hk ⊢
    exact hk
  | ok value after =>
    simp only [hr] at hk ⊢
    exact ⟨hk.1, hk.2.1, hpost value after hk.2.2⟩

theorem Keeps.outcome {step : Resolve α} {post : α → Context → Prop} (h : Keeps types pre step post)
    {context : Context} (hs : context.Sound types) (hp : pre context) :
    (step.outcome context).2.Sound types ∧ context.Grows (step.outcome context).2 ∧
      ∀ value, (step.outcome context).1 = .ok value → post value (step.outcome context).2 := by
  have hk := h context hs hp
  rw [Resolve.outcome]
  cases hr : step.run context with
  | error fault after =>
    simp only [hr] at hk
    exact ⟨hk.1, hk.2, fun value he => absurd he (by simp)⟩
  | ok value after =>
    simp only [hr] at hk
    exact ⟨hk.1, hk.2.1, fun other he => Except.ok.inj he ▸ hk.2.2⟩

/-- A fact that growth does not touch is still there after the step. -/
theorem Keeps.frame {step : Resolve α} {post : α → Context → Prop} {fact : Context → Prop}
    (h : Keeps types pre step post)
    (hfact : ∀ before after, Context.Grows before after → fact before → fact after) :
    Keeps types (fun context => pre context ∧ fact context) step
      (fun value context => post value context ∧ fact context) := by
  intro context hs hp
  have hk := h context hs hp.1
  cases hr : step.run context with
  | error fault after =>
    simp only [hr] at hk ⊢
    exact hk
  | ok value after =>
    simp only [hr] at hk ⊢
    exact ⟨hk.1, hk.2.1, hk.2.2, hfact context after hk.2.1 hp.2⟩

/-- Steps one after the other collect what each of them gives, and facts about the results that
growth does not touch. -/
theorem Keeps.collect {head : Resolve α} {tail : Resolve (List β)} {make : α → β}
    {fact : β → Context → Prop} {count : Nat}
    (hhead : Keeps types (fun _ => True) head fun value context => fact (make value) context)
    (htail : Keeps types (fun _ => True) tail fun results context =>
      results.length = count ∧ ∀ result ∈ results, fact result context)
    (hfact : ∀ result before after, Context.Grows before after → fact result before → fact result after) :
    Keeps types (fun _ => True) (do let value ← head; return make value :: (← tail)) fun results context =>
      results.length = count + 1 ∧ ∀ result ∈ results, fact result context := by
  apply hhead.bind
  intro value
  have hframe := htail.frame (hfact (make value))
  refine Keeps.bind (hframe.mono (fun context hp => ⟨trivial, hp⟩) fun _ _ hp => hp) fun results => ?_
  refine .pure fun context hp => ⟨by simp [hp.1.1], ?_⟩
  intro result hmem
  rcases List.mem_cons.1 hmem with rfl | hmem
  · exact hp.2
  · exact hp.1.2 result hmem

/-- A step that is run aside leaves the context as it was. -/
theorem Keeps.aside (step : Resolve α) :
    Keeps types pre (Resolve.aside step) fun _ context => pre context := by
  intro context hs hp
  cases hr : step context with
  | ok value after =>
    simp only [EStateM.run, Resolve.aside, hr]
    exact ⟨hs, .refl context, hp⟩
  | error fault after =>
    simp only [EStateM.run, Resolve.aside, hr]
    exact ⟨hs, .refl context⟩

end Resolve

/-- Every composite of the type is registered, and the document declares its named types. -/
structure Context.Admits (context : Context) (types : NameMap TypeDefinition) (type : ResolvedType) :
    Prop where
  known : context.registry.Knows type
  grounded : type.Grounded types

variable {types : NameMap TypeDefinition} {members : List ResolvedType}

theorem Context.Grows.admits {before after : Context} (h : before.Grows after) {type : ResolvedType}
    (ht : before.Admits types type) : after.Admits types type :=
  ⟨h.registry.knows ht.known, ht.grounded⟩

theorem Context.Grows.admitsAll {before after : Context} (h : before.Grows after)
    (hm : ∀ m ∈ members, before.Admits types m) : ∀ m ∈ members, after.Admits types m :=
  fun m hmem => h.admits (hm m hmem)

namespace Resolve

theorem keeps_registerComposite (hne : members ≠ []) :
    Keeps types (fun context => ∀ m ∈ members, context.Admits types m) (registerComposite members)
      (fun name context => context.registry.Holds ⟨name, members⟩ ∧
        ∀ m ∈ members, context.Admits types m) := by
  intro context hs hm
  obtain ⟨hs', he, hh⟩ := hs.registry.getOrCreate hne fun m hmem => (hm m hmem).known
  have hg : context.Grows { context with registry := (context.registry.getOrCreate members).2 } :=
    ⟨he, List.prefix_refl _, List.Subset.refl _⟩
  refine ⟨⟨hs', fun entry hentry field hfield => ?_⟩, hg, hh, hg.admitsAll hm⟩
  rcases Registry.mem_getOrCreate hentry with hentry | hentry
  · exact hs.grounded entry hentry field hfield
  · have hmem : field.type ∈ members := by
      rw [← types_memberFields members, ← hentry]
      exact List.mem_map_of_mem hfield
    exact (hm field.type hmem).grounded

/-- A type that is built from members around a registered name is admitted like its members. -/
theorem keeps_composite {build : String → ResolvedType} (hne : members ≠ [])
    (hcomposites : ∀ name,
      (build name).composites = ResolvedType.compositesOfAll members ++ [⟨name, members⟩])
    (hgrounded : ∀ name, ResolvedType.GroundedAll types members → (build name).Grounded types) :
    Keeps types (fun context => ∀ m ∈ members, context.Admits types m)
      (do return build (← registerComposite members)) (fun type context => context.Admits types type) := by
  refine (keeps_registerComposite hne).bind fun name => .pure fun context ⟨hname, hm⟩ => ⟨?_, ?_⟩
  · intro composite hc
    rw [hcomposites, List.mem_append, List.mem_singleton] at hc
    rcases hc with hc | rfl
    · obtain ⟨m, hmem, hc⟩ := ResolvedType.mem_compositesOfAll.1 hc
      exact (hm m hmem).known composite hc
    · exact hname
  · exact hgrounded name (ResolvedType.groundedAll_iff.2 fun m hmem => (hm m hmem).grounded)

theorem keeps_tupleOf (hne : members ≠ []) :
    Keeps types (fun context => ∀ m ∈ members, context.Admits types m) (tupleOf members)
      (fun type context => context.Admits types type) :=
  keeps_composite hne (fun _ => rfl) fun _ h => h

theorem keeps_multiOf (hne : members ≠ []) :
    Keeps types (fun context => ∀ m ∈ members, context.Admits types m) (multiOf members)
      (fun type context => context.Admits types type) := by
  rw [multiOf.eq_def]
  split
  · rename_i member
    exact .pure fun context hm => ⟨(hm member List.mem_cons_self).known,
      (hm member List.mem_cons_self).grounded⟩
  · exact keeps_composite hne (fun _ => rfl) fun _ h => h

theorem keeps_variadicOf (hne : members ≠ []) :
    Keeps types (fun context => ∀ m ∈ members, context.Admits types m) (variadicOf members)
      (fun type context => context.Admits types type) := by
  rw [variadicOf.eq_def]
  split
  · rename_i member
    exact .pure fun context hm => ⟨(hm member List.mem_cons_self).known,
      (hm member List.mem_cons_self).grounded⟩
  · exact keeps_composite hne (fun _ => rfl) fun _ h => h

theorem keeps_resolveName {pre : Context → Prop} {name : String}
    (hname : TypeExpr.isTypeName name.toList = true) :
    Keeps types pre (resolveName types name) (fun type context => context.Admits types type) := by
  rw [resolveName]
  split
  · rename_i docs fields hget
    exact .pure fun context _ => ⟨fun _ h => absurd h List.not_mem_nil, hname, docs, fields, hget⟩
  · rename_i docs variants hget
    exact .pure fun context _ => ⟨fun _ h => absurd h List.not_mem_nil, hname, docs, variants, hget⟩
  · exact .throw

theorem keeps_resolveTrees {trees : List TypeExpr}
    (h : ∀ tree ∈ trees, Keeps types (fun _ => True) (resolveTree types tree)
      (fun type context => context.Admits types type)) :
    Keeps types (fun _ => True) (resolveTrees types trees)
      (fun result context => result.length = trees.length ∧ ∀ m ∈ result, context.Admits types m) := by
  induction trees with
  | nil =>
    rw [resolveTrees]
    exact .pure fun context _ => ⟨rfl, fun _ h => absurd h List.not_mem_nil⟩
  | cons tree rest ih =>
    rw [resolveTrees]
    exact (h tree List.mem_cons_self).collect (ih fun t ht => h t (List.mem_cons_of_mem _ ht))
      fun _ _ _ hg => hg.admits

/-- Resolving the members of a group and then building a type of them. -/
theorem keeps_group {trees : List TypeExpr} {build : List ResolvedType → Resolve ResolvedType}
    (hne : trees ≠ [])
    (h : ∀ tree ∈ trees, Keeps types (fun _ => True) (resolveTree types tree)
      (fun type context => context.Admits types type))
    (hbuild : ∀ {members : List ResolvedType}, members ≠ [] →
      Keeps types (fun context => ∀ m ∈ members, context.Admits types m) (build members)
        (fun type context => context.Admits types type)) :
    Keeps types (fun _ => True) (do build (← resolveTrees types trees))
      (fun type context => context.Admits types type) := by
  apply (keeps_resolveTrees h).bind
  intro members context hs hp
  have hlen : members ≠ [] := by
    intro he
    rw [he, List.length_nil] at hp
    exact hne (List.length_eq_zero_iff.1 hp.1.symm)
  exact hbuild hlen context hs hp.2

theorem keeps_resolveTree (tree : TypeExpr) (hproper : tree.Proper) :
    Keeps types (fun _ => True) (resolveTree types tree) (fun type context => context.Admits types type) := by
  induction tree using TypeExpr.memberInduction with
  | primitive kind =>
    rw [resolveTree]
    intro context hs _
    have hg := context.grows_note kind
    have hs' : (context.note kind).Sound types :=
      ⟨by rw [Context.registry_note]; exact hs.registry,
        by rw [Context.registry_note]; exact hs.grounded⟩
    exact ⟨hs', hg, fun _ h => absurd h List.not_mem_nil, trivial⟩
  | named name =>
    rw [resolveTree]
    exact keeps_resolveName hproper
  | list element ih =>
    rw [resolveTree]
    exact (ih hproper).bind fun type => .pure fun context h => ⟨h.known, h.grounded⟩
  | variadic element ih =>
    rw [resolveTree]
    exact (ih hproper).bind fun type => .pure fun context h => ⟨h.known, h.grounded⟩
  | variadicMulti members ih =>
    rw [resolveTree]
    exact keeps_group hproper.1
      (fun m hm => ih m hm (TypeExpr.properAll_iff.1 hproper.2 m hm)) keeps_variadicOf
  | multi members ih =>
    rw [resolveTree]
    exact keeps_group hproper.1
      (fun m hm => ih m hm (TypeExpr.properAll_iff.1 hproper.2 m hm)) keeps_multiOf
  | tuple members ih =>
    rw [resolveTree]
    exact keeps_group hproper.1
      (fun m hm => ih m hm (TypeExpr.properAll_iff.1 hproper.2 m hm)) keeps_tupleOf
  | unrecognized fault =>
    rw [resolveTree]
    exact .throw

/-- Resolving any text keeps the registry sound, and a type that it gives is admitted. -/
theorem keeps_resolve (expression : String) :
    Keeps types (fun _ => True) (resolve types expression)
      (fun type context => context.Admits types type) :=
  keeps_resolveTree _ (TypeExpr.proper_parse expression)

end Resolve

/-- The types of an endpoint that generated code uses are admitted, and the outputs of a readonly
endpoint lie where its plans say. -/
structure Context.AdmitsEndpoint (context : Context) (types : NameMap TypeDefinition)
    (endpoint : Endpoint) : Prop where
  inputs : ∀ input ∈ endpoint.inputs, context.Admits types input.type
  outputs : endpoint.kind = .readonly → ∀ output ∈ endpoint.outputs, context.Admits types output.type
  plans : endpoint.kind = .readonly → planOutputs endpoint.outputTypes = .ok endpoint.plans

theorem Context.Grows.admitsEndpoint {before after : Context} (h : before.Grows after)
    {endpoint : Endpoint} (he : before.AdmitsEndpoint types endpoint) :
    after.AdmitsEndpoint types endpoint :=
  ⟨fun input hi => h.admits (he.inputs input hi),
    fun hk output ho => h.admits (he.outputs hk output ho), he.plans⟩

namespace Resolve

theorem keeps_resolveInputs (inputs : List InputDecl) :
    Keeps types (fun _ => True) (resolveInputs types inputs) fun result context =>
      result.length = inputs.length ∧ ∀ input ∈ result, context.Admits types input.type := by
  induction inputs with
  | nil =>
    rw [resolveInputs]
    exact .pure fun context _ => ⟨rfl, fun _ h => absurd h List.not_mem_nil⟩
  | cons input rest ih =>
    rw [resolveInputs]
    exact (keeps_resolve input.type).collect ih fun _ _ _ hg => hg.admits

theorem keeps_resolveOutputs (outputs : List OutputDecl) :
    Keeps types (fun _ => True) (resolveOutputs types outputs) fun result context =>
      result.length = outputs.length ∧ ∀ output ∈ result, context.Admits types output.type := by
  induction outputs with
  | nil =>
    rw [resolveOutputs]
    exact .pure fun context _ => ⟨rfl, fun _ h => absurd h List.not_mem_nil⟩
  | cons output rest ih =>
    rw [resolveOutputs]
    exact (keeps_resolve output.type).collect ih fun _ _ _ hg => hg.admits

theorem keeps_planOutputsOf {pre : Context → Prop} (name : String) (outputs : List Output) :
    Keeps types pre (planOutputsOf name outputs) fun plans context =>
      pre context ∧ planOutputs (outputs.map (·.type)) = .ok plans := by
  rw [planOutputsOf]
  split
  · rename_i plans hplans
    exact .pure fun context hp => ⟨hp, hplans⟩
  · exact .throw

theorem keeps_classifyOutputs (decl : EndpointDecl) (kind : EndpointKind) {inputs : List Input} :
    Keeps types (fun context => ∀ input ∈ inputs, context.Admits types input.type)
      (classifyOutputs types decl kind) fun result context =>
        (∀ input ∈ inputs, context.Admits types input.type) ∧
          (kind = .readonly → (∀ output ∈ result.1, context.Admits types output.type) ∧
            planOutputs (result.1.map (·.type)) = .ok result.2) := by
  cases kind with
  | readonly =>
    have hstable : ∀ before after, Context.Grows before after →
        (∀ input ∈ inputs, before.Admits types input.type) →
          ∀ input ∈ inputs, after.Admits types input.type :=
      fun before after hg h input hi => hg.admits (h input hi)
    have houtputs := (@keeps_resolveOutputs types decl.outputs).frame hstable
    rw [classifyOutputs]
    refine (houtputs.mono (fun _ hp => ⟨trivial, hp⟩) fun _ _ hp => hp).bind fun outputs => ?_
    exact (keeps_planOutputsOf decl.name outputs).bind fun plans => .pure fun context hp =>
      ⟨hp.1.2, fun _ => ⟨hp.1.1.2, hp.2⟩⟩
  | mutable =>
    rw [classifyOutputs]
    exact (Keeps.aside _).bind fun outputs => .pure fun context hp =>
      ⟨hp, fun hk => EndpointKind.noConfusion hk⟩

theorem keeps_classifyAs (decl : EndpointDecl) (kind : EndpointKind) :
    Keeps types (fun _ => True) (classifyAs types decl kind) fun endpoint context =>
      context.AdmitsEndpoint types endpoint := by
  rw [classifyAs]
  split
  · exact .throw
  · refine ((keeps_resolveInputs decl.inputs).mono (fun _ hp => hp) fun _ _ hp => hp.2).bind
      fun inputs => ?_
    refine (keeps_classifyOutputs decl kind).bind fun result => .pure fun context hp => ?_
    exact ⟨hp.1, fun hk => (hp.2 hk).1, fun hk => (hp.2 hk).2⟩

/-- Classifying an endpoint keeps the registry sound, and an endpoint that it gives is admitted. -/
theorem keeps_classify (decl : EndpointDecl) :
    Keeps types (fun _ => True) (classify types decl) fun endpoint? context =>
      ∀ endpoint, endpoint? = some endpoint → context.AdmitsEndpoint types endpoint := by
  rw [classify]
  split
  · exact .pure fun context _ endpoint h => absurd h (by simp)
  · refine (keeps_classifyAs decl _).bind fun endpoint => .pure fun context h other ho => ?_
    exact Option.some.inj ho ▸ h

end Resolve
end ContractAbi
