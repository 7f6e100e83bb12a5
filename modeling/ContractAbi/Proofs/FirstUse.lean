import ContractAbi.Proofs.EndpointPolicy
import ContractAbi.Proofs.Footprint
import ContractAbi.Proofs.Results
import ContractAbi.Contract.Basic

/-!
# What a contract declares is what it uses

The types of a contract are those of its record fields, its inputs and the outputs of its readonly
endpoints. The aliases, imports and composites of the contract are exactly those that occur in its
types, in the order in which they first occur.
-/
namespace ContractAbi

section FirstOccurrences

variable {α β : Type} [BEq α] [LawfulBEq α] [BEq β] [LawfulBEq β]

/-- An item behind a list counts if it is not in the list. -/
theorem eraseDups_concat (items : List α) (item : α) :
    (items ++ [item]).eraseDups =
      if item ∈ items then items.eraseDups else items.eraseDups ++ [item] := by
  rw [List.eraseDups_append]
  split
  · rename_i h
    have hremoved : [item].removeAll items = [] := by simp [List.removeAll, h]
    rw [hremoved, List.eraseDups_nil, List.append_nil]
  · rename_i h
    have hkept : [item].removeAll items = [item] := by simp [List.removeAll, h]
    rw [hkept]
    rfl

theorem nodup_eraseDups (items : List α) : items.eraseDups.Nodup := by
  induction items using List.reverseRecOn with
  | nil => exact .nil
  | append_singleton items item ih =>
    rw [eraseDups_concat]
    split
    · exact ih
    · rename_i hnew
      refine List.nodup_append'.2 ⟨ih, List.nodup_singleton item, List.disjoint_singleton.2 ?_⟩
      exact fun hmem => hnew (List.mem_eraseDups.1 hmem)

/-- Items that a function tells apart have their first occurrences where their values have. -/
theorem eraseDups_map {f : α → β} {items : List α}
    (h : ∀ a ∈ items, ∀ b ∈ items, f a = f b → a = b) :
    (items.map f).eraseDups = items.eraseDups.map f := by
  induction items using List.reverseRecOn with
  | nil => rfl
  | append_singleton items item ih =>
    have hbefore : ∀ a ∈ items, a ∈ items ++ [item] := fun a ha => List.mem_append_left _ ha
    have hitem : item ∈ items ++ [item] := List.mem_append_right _ List.mem_cons_self
    have hvalue : f item ∈ items.map f ↔ item ∈ items := by
      refine ⟨fun hmem => ?_, List.mem_map_of_mem⟩
      obtain ⟨other, hother, heq⟩ := List.mem_map.1 hmem
      exact h other (hbefore other hother) item hitem heq ▸ hother
    have hrest := ih fun a ha b hb => h a (hbefore a ha) b (hbefore b hb)
    rw [List.map_append, List.map_cons, List.map_nil, eraseDups_concat, eraseDups_concat, hrest]
    simp only [hvalue]
    split
    · rfl
    · rw [List.map_append, List.map_cons, List.map_nil]

end FirstOccurrences

namespace Context

variable {context after : Context}

theorem aliases_noteAll {seen : List Primitive} (kinds : List Primitive)
    (h : context.aliases = (seen.filter Primitive.isAlias).eraseDups) :
    (context.noteAll kinds).aliases = ((seen ++ kinds).filter Primitive.isAlias).eraseDups := by
  induction kinds generalizing context seen with
  | nil => rw [noteAll_nil, List.append_nil, h]
  | cons kind rest ih =>
    rw [noteAll_cons, List.append_cons]
    apply ih
    rw [aliases_note, List.filter_append, h]
    by_cases halias : kind.isAlias = true
    · have hone : [kind].filter Primitive.isAlias = [kind] := by simp [halias]
      rw [hone, eraseDups_concat]
      simp [halias]
    · have hnone : [kind].filter Primitive.isAlias = [] := by simp [halias]
      rw [hnone, List.append_nil, if_neg (by simp [halias])]

theorem usesBigInt_noteAll (kinds : List Primitive) :
    (context.noteAll kinds).usesBigInt = (context.usesBigInt || kinds.contains .bigInt) := by
  induction kinds generalizing context with
  | nil => simp
  | cons kind rest ih =>
    rw [noteAll_cons, ih, usesBigInt_note, List.contains_cons, Bool.or_assoc, Bool.beq_comm]

theorem usesBigUint_noteAll (kinds : List Primitive) :
    (context.noteAll kinds).usesBigUint = (context.usesBigUint || kinds.contains .bigUint) := by
  induction kinds generalizing context with
  | nil => simp
  | cons kind rest ih =>
    rw [noteAll_cons, ih, usesBigUint_note, List.contains_cons, Bool.or_assoc, Bool.beq_comm]

end Context

namespace Composite

theorem eq_of_entry_eq {a b : Composite} (h : a.entry = b.entry) : a = b := by
  obtain ⟨hname, hfields⟩ := Prod.mk.inj h
  cases a
  cases b
  exact Composite.mk.injEq .. ▸ ⟨hname, memberFields_injective hfields⟩

/-- Composites have the same name if and only if they have the same members. -/
def NamedByMembers (composites : List Composite) : Prop :=
  ∀ a ∈ composites, ∀ b ∈ composites, a.name = b.name ↔ a.members = b.members

end Composite

namespace Registry

/-- The entries are those of the composites, in the order of their first occurrences. -/
structure Lists (registry : Registry) (composites : List Composite) : Prop where
  entries : registry.entries.entries = composites.eraseDups.map Composite.entry
  named : Composite.NamedByMembers composites

variable {registry before after : Registry} {composites seen : List Composite}

theorem lists_reserving (names : List String) : (reserving names).Lists [] :=
  ⟨rfl, fun _ h => absurd h List.not_mem_nil⟩

theorem Lists.mem_entries (h : registry.Lists composites) {entry : String × List Field} :
    entry ∈ registry.entries.entries ↔ ∃ composite ∈ composites, composite.entry = entry := by
  rw [h.entries]
  simp only [List.mem_map, List.mem_eraseDups]

/-- A composite that gets a name of an entry is one of those that are listed. -/
theorem Lists.mem_of_nameOf? (h : registry.Lists composites) {members : List ResolvedType}
    {name : String} (hname : registry.nameOf? (memberFields members) = some name) :
    ⟨name, members⟩ ∈ composites := by
  obtain ⟨composite, hmem, hentry⟩ := h.mem_entries.1 (Registry.mem_of_nameOf? hname)
  have heq : composite = ⟨name, members⟩ := Composite.eq_of_entry_eq hentry
  exact heq ▸ hmem

/-- A composite without an entry has a new name and new members. -/
theorem Lists.named_concat (h : registry.Lists composites) {members : List ResolvedType}
    {name : String} (hnone : registry.nameOf? (memberFields members) = none)
    (hname : name ∉ registry.entries.names) :
    Composite.NamedByMembers (composites ++ [⟨name, members⟩]) := by
  have hnames : ∀ a ∈ composites, a.name ≠ name := by
    rintro a ha rfl
    exact hname (NameMap.mem_names_of_mem (h.mem_entries.2 ⟨a, ha, rfl⟩))
  have hmembers : ∀ a ∈ composites, a.members ≠ members := by
    rintro a ha rfl
    have hentry : a.entry ∈ registry.entries.entries := h.mem_entries.2 ⟨a, ha, rfl⟩
    exact Registry.nameOf?_eq_none hnone (List.mem_map.2 ⟨a.entry, hentry, rfl⟩)
  intro a ha b hb
  rcases List.mem_append.1 ha with ha | ha <;> rcases List.mem_append.1 hb with hb | hb
  · exact h.named a ha b hb
  · obtain rfl := List.mem_singleton.1 hb
    exact iff_of_false (hnames a ha) (hmembers a ha)
  · obtain rfl := List.mem_singleton.1 ha
    exact iff_of_false (hnames b hb).symm (hmembers b hb).symm
  · obtain rfl := List.mem_singleton.1 ha
    obtain rfl := List.mem_singleton.1 hb
    exact iff_of_true rfl rfl

theorem Lists.getOrCreate (h : registry.Lists composites) {members : List ResolvedType}
    {name : String} (hget : registry.getOrCreate members = (name, after)) :
    after.Lists (composites ++ [⟨name, members⟩]) := by
  rcases getOrCreate_cases hget with ⟨hname, rfl⟩ | ⟨hnone, hnew, hentries⟩
  · have hmem := h.mem_of_nameOf? hname
    refine ⟨?_, fun a ha b hb => ?_⟩
    · rw [eraseDups_concat, if_pos hmem, h.entries]
    · have hall : ∀ c ∈ composites ++ [⟨name, members⟩], c ∈ composites := by
        intro c hc
        rcases List.mem_append.1 hc with hc | hc
        · exact hc
        · exact List.mem_singleton.1 hc ▸ hmem
      exact h.named a (hall a ha) b (hall b hb)
  · refine ⟨?_, h.named_concat hnone hnew⟩
    have hmem : ⟨name, members⟩ ∉ composites := fun hmem =>
      hnew (NameMap.mem_names_of_mem (h.mem_entries.2 ⟨_, hmem, rfl⟩))
    rw [hentries, eraseDups_concat, if_neg hmem, h.entries, List.map_append]
    rfl

theorem Lists.adds (h : before.Lists seen) (hadds : before.Adds composites after) :
    after.Lists (seen ++ composites) := by
  induction hadds generalizing seen with
  | nil registry => rwa [List.append_nil]
  | cons first _ ih =>
    rw [List.append_cons]
    exact ih (h.getOrCreate first)

/-- The field lists of the entries are those of the different member lists. -/
theorem Lists.values (h : registry.Lists composites) :
    registry.entries.values = (composites.map Composite.members).eraseDups.map memberFields := by
  have hinjective : ∀ a ∈ composites, ∀ b ∈ composites, a.members = b.members → a = b := by
    intro a ha b hb hmembers
    have hname := (h.named a ha b hb).2 hmembers
    cases a
    cases b
    exact Composite.mk.injEq .. ▸ ⟨hname, hmembers⟩
  rw [eraseDups_map hinjective, NameMap.values, h.entries, List.map_map, List.map_map]
  rfl

end Registry

namespace Resolve

variable {types : NameMap TypeDefinition} {before after : Context}

theorem uses_resolveFields {name : String} {decls : List FieldDecl} {fields : List Field}
    (h : (resolveFields types name decls).run before = .ok fields after) :
    fields.map (·.name) = decls.map (·.name) ∧ before.Uses (fields.map (·.type)) after := by
  induction decls generalizing before fields with
  | nil =>
    obtain ⟨rfl, rfl⟩ := of_run_pure_eq_ok h
    exact ⟨rfl, .refl _⟩
  | cons decl rest ih =>
    rw [resolveFields] at h
    obtain ⟨type, middle, htype, h⟩ := of_run_bind_eq_ok h
    split at h
    · cases h
    · obtain ⟨others, last, hothers, h⟩ := of_run_bind_eq_ok h
      obtain ⟨rfl, rfl⟩ := of_run_pure_eq_ok h
      obtain ⟨hnames, huses⟩ := ih hothers
      refine ⟨by simp [hnames], ?_⟩
      exact Context.Uses.append (uses_resolve htype) huses

end Resolve

/-- The name of a record and the names of its fields. -/
def TypeDefinition.outline? (name : String) : TypeDefinition → Option (String × List String)
  | .record _ fields => some (name, fields.map (·.name))
  | .enum _ _ => none

theorem TypeDefinition.name_of_outline? {name other : String} {definition : TypeDefinition}
    (h : other ∈ (definition.outline? name).toList.map (·.1)) : other = name := by
  cases definition with
  | record docs fields => exact List.mem_singleton.1 h
  | enum docs variants => exact absurd h List.not_mem_nil

/-- The outlines of the records among some named types. -/
def recordOutlines (entries : List (String × TypeDefinition)) : List (String × List String) :=
  entries.filterMap fun entry => entry.2.outline? entry.1

theorem recordOutlines_cons (entry : String × TypeDefinition) (rest : List (String × TypeDefinition)) :
    recordOutlines (entry :: rest) = (entry.2.outline? entry.1).toList ++ recordOutlines rest := by
  rw [recordOutlines, List.filterMap_cons]
  cases entry.2 <;> rfl

namespace Session

variable {types : NameMap TypeDefinition} {before middle after : Session}

def outlineOf (record : String × List Field) : String × List String :=
  (record.1, record.2.map (·.name))

def fieldTypes (record : String × List Field) : List ResolvedType :=
  record.2.map (·.type)

/-- The difference between two sessions: some records are declared at the end, and the context has
what their fields use. -/
structure Adds (before : Session) (added : List (String × List Field)) (after : Session) : Prop where
  records : after.records.entries = before.records.entries ++ added
  uses : before.context.Uses (added.flatMap fieldTypes) after.context

theorem Adds.append {left right : List (String × List Field)} (hleft : before.Adds left middle)
    (hright : middle.Adds right after) : before.Adds (left ++ right) after := by
  refine ⟨?_, ?_⟩
  · rw [hright.records, hleft.records, List.append_assoc]
  · rw [List.flatMap_append]
    exact hleft.uses.append hright.uses

theorem Adds.of_mem_names {added : List (String × List Field)} (h : before.Adds added after)
    {name : String} (hname : name ∈ after.records.names) :
    name ∈ before.records.names ∨ name ∈ (added.map outlineOf).map (·.1) := by
  rw [NameMap.names, h.records, List.map_append, List.mem_append] at hname
  rw [List.map_map]
  exact hname

/-- A named type adds its record, if it is one. -/
theorem adds_declareType {name : String} {definition : TypeDefinition}
    (hnew : name ∉ before.records.names)
    (h : (declareType types name definition).run before = .ok () after) :
    ∃ added, before.Adds added after ∧
      added.map outlineOf = (definition.outline? name).toList := by
  cases definition with
  | record docs decls =>
    simp only [declareType, EStateM.run_bind] at h
    simp only [EStateM.run, Declare.inContext] at h
    cases hr : resolveFields types name decls before.context with
    | error fault context =>
      simp only [hr] at h
      cases h
    | ok fields context =>
      simp only [hr] at h
      obtain ⟨-, rfl⟩ := EStateM.Result.ok.inj h
      obtain ⟨hnames, huses⟩ := Resolve.uses_resolveFields hr
      refine ⟨[(name, fields)], ⟨NameMap.entries_put_of_not_mem hnew, ?_⟩, ?_⟩
      · rw [List.flatMap_singleton]
        exact huses
      · exact congrArg (fun names => [(name, names)]) hnames
  | enum docs decls =>
    rw [declareType] at h
    cases hv : resolveEnum name decls with
    | error fault =>
      rw [hv] at h
      cases h
    | ok variants =>
      rw [hv] at h
      obtain ⟨-, rfl⟩ := EStateM.Result.ok.inj h
      exact ⟨[], ⟨(List.append_nil _).symm, .refl _⟩, rfl⟩

theorem adds_declareTypes {entries : List (String × TypeDefinition)}
    (hdistinct : (entries.map (·.1)).Nodup)
    (hnew : ∀ entry ∈ entries, entry.1 ∉ before.records.names)
    (h : (declareTypes types entries).run before = .ok () after) :
    ∃ added, before.Adds added after ∧ added.map outlineOf = recordOutlines entries := by
  induction entries generalizing before with
  | nil =>
    obtain ⟨-, rfl⟩ := EStateM.Result.ok.inj h
    exact ⟨[], ⟨(List.append_nil _).symm, .refl _⟩, rfl⟩
  | cons entry rest ih =>
    obtain ⟨name, definition⟩ := entry
    rw [List.map_cons, List.nodup_cons] at hdistinct
    obtain ⟨_, middle, hr, h⟩ := of_run_bind_eq_ok h
    obtain ⟨first, hfirst, houtline⟩ := adds_declareType (hnew _ List.mem_cons_self) hr
    have hrest : ∀ entry ∈ rest, entry.1 ∉ middle.records.names := by
      intro entry hentry hmem
      rcases hfirst.of_mem_names hmem with hmem | hmem
      · exact hnew entry (List.mem_cons_of_mem _ hentry) hmem
      · rw [houtline] at hmem
        have hname := TypeDefinition.name_of_outline? hmem
        exact hdistinct.1 (hname ▸ List.mem_map_of_mem hentry)
    obtain ⟨others, hothers, houtlines⟩ := ih hdistinct.2 hrest h
    refine ⟨first ++ others, hfirst.append hothers, ?_⟩
    rw [List.map_append, houtline, houtlines, recordOutlines_cons]

/-- Declaring every named type adds the records of the document. -/
theorem adds_declareNamedTypes (hbefore : before.records = ∅)
    (h : (declareNamedTypes types).run before = .ok () after) :
    after.records.entries.map outlineOf = recordOutlines types.entries ∧
      before.context.Uses (after.records.entries.flatMap fieldTypes) after.context := by
  have hnew : ∀ entry ∈ types.entries, entry.1 ∉ before.records.names := by
    intro entry _ hmem
    rw [hbefore] at hmem
    exact absurd hmem List.not_mem_nil
  obtain ⟨_, middle, hr, h⟩ := of_run_bind_eq_ok h
  obtain ⟨added, hadds, houtlines⟩ := adds_declareTypes types.distinct hnew hr
  have hmiddle : middle.records.entries = added := by
    rw [hadds.records, hbefore]
    rfl
  have hafter : after = middle := by
    simp only [EStateM.run_bind, EStateM.run_get] at h
    split at h
    · cases h
    · exact (EStateM.Result.ok.inj h).2.symm
  rw [hafter, hmiddle]
  exact ⟨houtlines, hadds.uses⟩

end Session

/-- The types of an endpoint that generated code uses: the outputs of a call that changes the
contract are not among them. -/
def Endpoint.usedTypes (endpoint : Endpoint) : List ResolvedType :=
  endpoint.inputs.map (·.type) ++
    (if endpoint.kind = .readonly then endpoint.outputTypes else [])

namespace Resolve

variable {types : NameMap TypeDefinition} {before after : Context}

theorem uses_resolveInputs {decls : List InputDecl} {inputs : List Input}
    (h : (resolveInputs types decls).run before = .ok inputs after) :
    before.Uses (inputs.map (·.type)) after := by
  induction decls generalizing before inputs with
  | nil =>
    obtain ⟨rfl, rfl⟩ := of_run_pure_eq_ok h
    exact .refl _
  | cons decl rest ih =>
    rw [resolveInputs] at h
    obtain ⟨type, middle, htype, h⟩ := of_run_bind_eq_ok h
    obtain ⟨others, last, hothers, h⟩ := of_run_bind_eq_ok h
    obtain ⟨rfl, rfl⟩ := of_run_pure_eq_ok h
    exact Context.Uses.append (uses_resolve htype) (ih hothers)

theorem uses_resolveOutputs {decls : List OutputDecl} {outputs : List Output}
    (h : (resolveOutputs types decls).run before = .ok outputs after) :
    before.Uses (outputs.map (·.type)) after := by
  induction decls generalizing before outputs with
  | nil =>
    obtain ⟨rfl, rfl⟩ := of_run_pure_eq_ok h
    exact .refl _
  | cons decl rest ih =>
    rw [resolveOutputs] at h
    obtain ⟨type, middle, htype, h⟩ := of_run_bind_eq_ok h
    obtain ⟨others, last, hothers, h⟩ := of_run_bind_eq_ok h
    obtain ⟨rfl, rfl⟩ := of_run_pure_eq_ok h
    exact Context.Uses.append (uses_resolve htype) (ih hothers)

theorem of_planOutputsOf {name : String} {outputs : List Output} {plans : List OutputPlan}
    (h : (planOutputsOf name outputs).run before = .ok plans after) : after = before := by
  rw [planOutputsOf] at h
  split at h
  · exact (of_run_pure_eq_ok h).2
  · cases h

theorem of_aside {step : Resolve α} {value : α}
    (h : (Resolve.aside step).run before = .ok value after) : after = before := by
  simp only [EStateM.run, Resolve.aside] at h
  split at h
  · exact (EStateM.Result.ok.inj h).2.symm
  · cases h

/-- Outputs leave something behind only if they are decoded. -/
theorem uses_classifyOutputs {decl : EndpointDecl} {kind : EndpointKind}
    {result : List Output × List OutputPlan}
    (h : (classifyOutputs types decl kind).run before = .ok result after) :
    before.Uses (if kind = .readonly then result.1.map (·.type) else []) after := by
  cases kind with
  | readonly =>
    rw [classifyOutputs] at h
    obtain ⟨outputs, middle, houtputs, h⟩ := of_run_bind_eq_ok h
    obtain ⟨plans, last, hplans, h⟩ := of_run_bind_eq_ok h
    obtain ⟨rfl, rfl⟩ := of_run_pure_eq_ok h
    obtain rfl := of_planOutputsOf hplans
    exact uses_resolveOutputs houtputs
  | mutable =>
    rw [classifyOutputs] at h
    obtain ⟨outputs, middle, houtputs, h⟩ := of_run_bind_eq_ok h
    obtain ⟨rfl, rfl⟩ := of_run_pure_eq_ok h
    obtain rfl := of_aside houtputs
    exact .refl _

theorem uses_classifyAs {decl : EndpointDecl} {kind : EndpointKind} {endpoint : Endpoint}
    (h : (classifyAs types decl kind).run before = .ok endpoint after) :
    before.Uses endpoint.usedTypes after := by
  rw [classifyAs] at h
  split at h
  · cases h
  · obtain ⟨inputs, middle, hinputs, h⟩ := of_run_bind_eq_ok h
    obtain ⟨result, last, houtputs, h⟩ := of_run_bind_eq_ok h
    obtain ⟨rfl, rfl⟩ := of_run_pure_eq_ok h
    exact Context.Uses.append (uses_resolveInputs hinputs) (uses_classifyOutputs houtputs)

/-- An endpoint that is taken leaves what its types use. -/
theorem uses_classify {decl : EndpointDecl} {endpoint : Endpoint}
    (h : (classify types decl).run before = .ok (some endpoint) after) :
    before.Uses endpoint.usedTypes after := by
  rw [classify] at h
  split at h
  · exact absurd (of_run_pure_eq_ok h).1 (by simp)
  · obtain ⟨other, middle, hother, h⟩ := of_run_bind_eq_ok h
    obtain ⟨hsame, rfl⟩ := of_run_pure_eq_ok h
    obtain rfl := Option.some.inj hsame
    exact uses_classifyAs hother

end Resolve

namespace EndpointProgress

variable {types : NameMap TypeDefinition} {policy : EndpointPolicy} {initial : Context}
  {progress after : EndpointProgress}

/-- The context has what the endpoints use that were taken, and nothing else since it began. -/
def UsesTaken (initial : Context) (progress : EndpointProgress) : Prop :=
  initial.Uses (progress.endpoints.flatMap Endpoint.usedTypes) progress.context

theorem UsesTaken.step (h : progress.UsesTaken initial) {decl : EndpointDecl}
    (hstep : EndpointProgress.step types policy progress decl = .ok after) :
    after.UsesTaken initial := by
  cases steps_of_eq_ok hstep with
  | accepted hclassify =>
    have huses := Context.Uses.append h (Resolve.uses_classify hclassify)
    rw [UsesTaken, accept, List.flatMap_append, List.flatMap_singleton]
    exact huses
  | skipped | unresolved | refused => exact h

theorem UsesTaken.foldlM (h : progress.UsesTaken initial) {decls : List EndpointDecl}
    (hrun : decls.foldlM (EndpointProgress.step types policy) progress = .ok after) :
    after.UsesTaken initial :=
  keeps_foldlM (fun _ _ _ h hstep => h.step hstep) h hrun

end EndpointProgress

namespace Contract

/-- The types that a contract uses: the fields of its records, and then endpoint for endpoint the
inputs and the outputs that are decoded. -/
def usedTypes (contract : Contract) : List ResolvedType :=
  contract.catalog.records.entries.flatMap Session.fieldTypes ++
    contract.endpoints.flatMap Endpoint.usedTypes

def usedPrimitives (contract : Contract) : List Primitive :=
  ResolvedType.primitivesOfAll contract.usedTypes

def usedComposites (contract : Contract) : List Composite :=
  ResolvedType.compositesOfAll contract.usedTypes

/-- Everything is declared that the types of a contract use, and nothing else is. -/
structure DeclaresUses (contract : Contract) (document : Document) : Prop where
  /-- The records are those of the document, in its order and each with its fields in their order. -/
  records : contract.catalog.records.entries.map Session.outlineOf =
    recordOutlines document.types.entries
  /-- The aliases come in the order of their first use. -/
  aliases : contract.aliases = (contract.usedPrimitives.filter Primitive.isAlias).eraseDups
  imports : contract.imports =
    (if .bigInt ∈ contract.usedPrimitives then ["BigInt"] else []) ++
      (if .bigUint ∈ contract.usedPrimitives then ["BigUint"] else [])
  /-- The composites come in the order of their first use, with the names that the types use. -/
  composites : contract.catalog.composites.entries =
    contract.usedComposites.eraseDups.map Composite.entry
  /-- There is one declaration for each member list. -/
  members : contract.catalog.composites.values =
    (contract.usedComposites.map Composite.members).eraseDups.map memberFields
  named : Composite.NamedByMembers contract.usedComposites

theorem declaresUses_of_uses {contract : Contract} {document : Document} {context : Context}
    (hrecords : contract.catalog.records.entries.map Session.outlineOf =
      recordOutlines document.types.entries)
    (haliases : contract.aliases = context.aliases) (himports : contract.imports = context.imports)
    (hcomposites : contract.catalog.composites = context.registry.entries)
    (huses : (Context.ofDocument document).Uses contract.usedTypes context) :
    contract.DeclaresUses document := by
  have hnoted : context.withRegistry (Context.ofDocument document).registry =
      (Context.ofDocument document).noteAll contract.usedPrimitives := huses.noted
  have hlists : context.registry.Lists contract.usedComposites :=
    (Registry.lists_reserving _).adds huses.registered
  have hbigInt : context.usesBigInt = contract.usedPrimitives.contains .bigInt := by
    have h := congrArg Context.usesBigInt hnoted
    rw [Context.usesBigInt_noteAll] at h
    exact h
  have hbigUint : context.usesBigUint = contract.usedPrimitives.contains .bigUint := by
    have h := congrArg Context.usesBigUint hnoted
    rw [Context.usesBigUint_noteAll] at h
    exact h
  have hnotedAliases : context.aliases =
      (contract.usedPrimitives.filter Primitive.isAlias).eraseDups := by
    have hnone : (Context.ofDocument document).aliases =
        (([] : List Primitive).filter Primitive.isAlias).eraseDups := rfl
    have h := congrArg Context.aliases hnoted
    rw [Context.aliases_noteAll _ hnone] at h
    exact h
  exact {
    records := hrecords
    aliases := haliases.trans hnotedAliases
    imports := by
      rw [himports, Context.imports, hbigInt, hbigUint]
      simp only [List.contains_iff_mem]
    composites := hcomposites ▸ hlists.entries
    members := hcomposites ▸ hlists.values
    named := hlists.named }

end Contract

/-- What a contract declares is exactly what its types use, in the order of first use. -/
theorem declarations_follow_first_use (document : Document) (policy : EndpointPolicy)
    (contract : Contract) (h : Contract.ofDocument policy document = .ok contract) :
    contract.DeclaresUses document := by
  rw [Contract.ofDocument] at h
  split at h
  · rw [Contract.ofSupported] at h
    cases hd : (declareNamedTypes document.types).run (Session.start (Context.ofDocument document)) with
    | error fault session =>
      rw [hd] at h
      cases h
    | ok value session =>
      simp only [hd] at h
      obtain ⟨progress, hrun, h⟩ := of_bind_eq_ok h
      obtain rfl := Except.ok.inj h
      obtain ⟨houtlines, hdeclared⟩ := Session.adds_declareNamedTypes rfl hd
      have hbegin : (EndpointProgress.start session.context
          (ItemNames.ofDocument document)).UsesTaken session.context := Context.Uses.refl _
      exact Contract.declaresUses_of_uses houtlines rfl rfl rfl
        (Context.Uses.append hdeclared (hbegin.foldlM hrun))
  · cases h

/-- A document in which one endpoint fails behind an alias and a tuple, and another one changes the
contract and has outputs. -/
def market : Document where
  buildInfo := ⟨none, ⟨"multiversx-sc", "0.43.3"⟩⟩
  docs := []
  name := "Market"
  constructor := none
  endpoints := [
    ⟨"getOffers", [], false, .readonly, [], [], [⟨"", "variadic<multi<Address,tuple<bool>>>", true⟩]⟩,
    ⟨"getBids", [], false, .readonly, [], [],
      [⟨"", "tuple<EgldOrEsdtTokenIdentifier,Missing>", false⟩]⟩,
    ⟨"buy", [], false, .mutable, [], [⟨"amount", "BigUint", false⟩], [⟨"", "tuple<BigInt,u64>", false⟩]⟩,
    ⟨"getPrices", [], false, .readonly, [], [], [⟨"", "multi<u64>", false⟩]⟩]
  events := []
  hasCallbacks := false
  types := NameMap.ofList
    [("Offer", .record [] [⟨"token", "TokenIdentifier"⟩, ⟨"parts", "List<tuple<u8,tuple<bool>>>"⟩])]

theorem market_declarations_follow_first_use :
    ∃ contract, Contract.ofDocument .skipFailed market = .ok contract ∧ contract.DeclaresUses market ∧
      contract.aliases = [.tokenIdentifier, .address] ∧ contract.imports = ["BigUint"] ∧
        contract.catalog.composites.names = ["ComplexType0", "ComplexType1", "ComplexType2"] := by
  have hlenient : (Contract.ofDocument .skipFailed market).map (fun contract =>
      (contract.aliases, contract.imports, contract.catalog.composites.names)) =
        .ok ([.tokenIdentifier, .address], ["BigUint"],
          ["ComplexType0", "ComplexType1", "ComplexType2"]) := by decide +kernel
  obtain ⟨contract, hcontract, hparts⟩ := of_map_eq_ok hlenient
  obtain ⟨haliases, hrest⟩ := Prod.mk.inj hparts
  obtain ⟨himports, hnames⟩ := Prod.mk.inj hrest
  exact ⟨contract, hcontract, declarations_follow_first_use market .skipFailed contract hcontract,
    haliases.symm, himports.symm, hnames.symm⟩

end ContractAbi
