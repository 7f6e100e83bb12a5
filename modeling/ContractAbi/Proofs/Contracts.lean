import ContractAbi.Proofs.Declarations
import ContractAbi.Proofs.EndpointPolicy
import ContractAbi.Proofs.Results
import ContractAbi.Contract.Basic
import ContractAbi.Reflection

/-!
# Contracts and their documents

The catalog of a contract comes from a session that represents the document, and the types of its
endpoints are admitted by the context of that session. So every declaration that an output refers
to is there, and has the fields that the output carries.
-/
namespace ContractAbi

namespace EndpointProgress

variable {types : NameMap TypeDefinition} {policy : EndpointPolicy} {initial : Context}
  {progress after : EndpointProgress}

/-- The context is sound and has grown, and it admits the endpoints that were taken. -/
structure Sound (types : NameMap TypeDefinition) (initial : Context) (progress : EndpointProgress) :
    Prop where
  context : progress.context.Sound types
  grows : initial.Grows progress.context
  endpoints : ∀ endpoint ∈ progress.endpoints, progress.context.AdmitsEndpoint types endpoint

/-- Whatever the next endpoint is, the context stays sound and every taken endpoint is admitted. -/
theorem Sound.step (h : progress.Sound types initial) {decl : EndpointDecl}
    (hstep : step types policy progress decl = .ok after) : after.Sound types initial := by
  have hk := Resolve.keeps_classify decl progress.context h.context trivial
  cases steps_of_eq_ok hstep with
  | accepted hclassify =>
    simp only [hclassify] at hk
    obtain ⟨hs, hg, hadmits⟩ := hk
    refine ⟨hs, h.grows.trans hg, fun other hother => ?_⟩
    rcases List.mem_append.1 hother with hother | hother
    · exact hg.admitsEndpoint (h.endpoints other hother)
    · obtain rfl := List.mem_singleton.1 hother
      exact hadmits other rfl
  | skipped | unresolved | refused => exact ⟨h.context, h.grows, h.endpoints⟩

theorem Sound.foldlM (h : progress.Sound types initial) {decls : List EndpointDecl}
    (hrun : decls.foldlM (EndpointProgress.step types policy) progress = .ok after) :
    after.Sound types initial :=
  keeps_foldlM (fun _ _ _ h hstep => h.step hstep) h hrun

end EndpointProgress

namespace Contract

/-- The contract is the model of the document, and the session is what resolution ended in. -/
structure Models (contract : Contract) (document : Document) (session : Session) : Prop where
  catalog : contract.catalog = session.catalog
  typeDocs : contract.typeDocs = document.types.mapValues TypeDefinition.docs
  context : session.context.Sound document.types
  reserved : session.context.registry.reserved = document.types.names.map Identifier.type
  represents : session.Represents document.types
  declares : ∀ name definition, document.types.get? name = some definition →
    session.Declares name definition
  endpoints : ∀ endpoint ∈ contract.endpoints,
    session.context.AdmitsEndpoint document.types endpoint

theorem exists_models {document : Document} {policy : EndpointPolicy} {contract : Contract}
    (h : ofDocument policy document = .ok contract) : ∃ session, contract.Models document session := by
  obtain ⟨session, progress, hdeclared, hrun, rfl⟩ := exists_run h
  have hstart : (Session.start (Context.ofDocument document)).context.Sound document.types :=
    Context.sound_reserving document.types _
  have hcontinues := @declareNamedTypes_continues document.types _ hstart
  rw [Document.declared] at hdeclared
  rw [hdeclared] at hcontinues
  obtain ⟨hcontinues, hdeclares⟩ := hcontinues
  have hbegin : (EndpointProgress.start session.context (ItemNames.ofDocument document)).Sound
      document.types session.context :=
    ⟨hcontinues.sound, .refl _, fun _ h => absurd h List.not_mem_nil⟩
  have hsound := hbegin.foldlM hrun
  have hlast := Session.continues_inContext hsound.context hsound.grows
  exact ⟨{ session with context := progress.context }, {
    catalog := rfl
    typeDocs := rfl
    context := hsound.context
    reserved := hsound.grows.registry.reserved.trans hcontinues.grows.registry.reserved
    represents := hlast.represents (hcontinues.represents (Session.represents_start _))
    declares := fun name definition hget =>
      hlast.declares name definition (hdeclares name definition hget)
    endpoints := hsound.endpoints }⟩

end Contract

theorem checkNested_list_iff {element : ResolvedType} : checkNested (.list element) = .ok () ↔
    (∀ inner, element ≠ .list inner) ∧ checkNested element = .ok () := by
  cases element with
  | list inner => exact iff_of_false (fun h => by cases h) fun h => h.1 inner rfl
  | _ => exact ⟨fun h => ⟨fun inner he => ResolvedType.noConfusion he, h⟩, And.right⟩

theorem checkNestedAll_eq_forM (members : List ResolvedType) :
    checkNestedAll members = forM members checkNested := by
  induction members with
  | nil => rfl
  | cons member rest ih => rw [checkNestedAll, ih, List.forM_cons]

theorem checkGroup_eq_forM (members : List ResolvedType) :
    checkGroup members = forM members checkGroupMember := by
  induction members with
  | nil => rfl
  | cons member rest ih => rw [checkGroup, ih, List.forM_cons]

theorem checkNestedAll_iff {members : List ResolvedType} :
    checkNestedAll members = .ok () ↔ ∀ m ∈ members, checkNested m = .ok () := by
  rw [checkNestedAll_eq_forM, forM_eq_ok_iff]

theorem checkGroup_iff {members : List ResolvedType} :
    checkGroup members = .ok () ↔ ∀ m ∈ members, checkGroupMember m = .ok () := by
  rw [checkGroup_eq_forM, forM_eq_ok_iff]

/-- The strategy of a type, with what was checked of the type. -/
inductive Strategy.Suits : ResolvedType → Strategy → Prop
  | packed {element} (hrecord : element.isRecordLike = true)
      (hcheck : checkNested element = .ok ()) : Suits (.list element) .selfTerminating
  | spread {element} (hrecord : element.isRecordLike = false)
      (hcheck : checkTopLevel element = .ok ()) : Suits (.list element) .eachSlot
  | variadic {element} (hcheck : checkTopLevel element = .ok ()) : Suits (.variadic element) .eachSlot
  | groups {name members} (hcheck : checkGroup members = .ok ()) :
      Suits (.variadicMulti name members) (.groups members.length)
  | group {name members} (hcheck : checkGroup members = .ok ()) :
      Suits (.multi name members) (.group members.length)
  | scalar {type} (htop : type.isTopDecodable = true) (hcheck : checkTopLevel type = .ok ()) :
      Suits type .scalar

theorem Strategy.suits_of_select {type : ResolvedType} {strategy : Strategy}
    (h : Strategy.select type = .ok strategy) : Suits type strategy := by
  cases type with
  | primitive kind =>
    obtain rfl := Except.ok.inj h
    exact .scalar rfl rfl
  | record name =>
    obtain rfl := Except.ok.inj h
    exact .scalar rfl rfl
  | enum name =>
    obtain rfl := Except.ok.inj h
    exact .scalar rfl rfl
  | tuple name members =>
    rw [Strategy.select] at h
    · obtain ⟨_, hcheck, h⟩ := of_bind_eq_ok h
      obtain rfl := Except.ok.inj h
      exact .scalar rfl hcheck
    all_goals simp
  | list element =>
    rw [Strategy.select] at h
    split at h
    · rename_i hrecord
      obtain ⟨_, hcheck, h⟩ := of_bind_eq_ok h
      obtain rfl := Except.ok.inj h
      exact .packed hrecord hcheck
    · rename_i hrecord
      obtain ⟨_, hcheck, h⟩ := of_bind_eq_ok h
      obtain rfl := Except.ok.inj h
      exact .spread (by simpa using hrecord) hcheck
  | variadic element =>
    rw [Strategy.select] at h
    obtain ⟨_, hcheck, h⟩ := of_bind_eq_ok h
    obtain rfl := Except.ok.inj h
    exact .variadic hcheck
  | variadicMulti name members =>
    rw [Strategy.select] at h
    obtain ⟨_, hcheck, h⟩ := of_bind_eq_ok h
    obtain rfl := Except.ok.inj h
    exact .groups hcheck
  | multi name members =>
    rw [Strategy.select] at h
    obtain ⟨_, hcheck, h⟩ := of_bind_eq_ok h
    obtain rfl := Except.ok.inj h
    exact .group hcheck

theorem of_planFrom {slot : Nat} {output : ResolvedType} {rest : List ResolvedType}
    {plans : List OutputPlan} (h : planFrom (some slot) (output :: rest) = .ok plans) :
    ∃ strategy others, Strategy.select output = .ok strategy ∧
      planFrom (strategy.span?.map (slot + ·)) rest = .ok others ∧
      plans = ⟨strategy, slot⟩ :: others := by
  rw [planFrom] at h
  obtain ⟨strategy, hselect, h⟩ := of_bind_eq_ok h
  obtain ⟨others, hothers, h⟩ := of_bind_eq_ok h
  exact ⟨strategy, others, hselect, hothers, (Except.ok.inj h).symm⟩

/-- Nothing is planned after a repeating output. -/
theorem eq_nil_of_planFrom_none {types : List ResolvedType} {plans : List OutputPlan}
    (h : planFrom none types = .ok plans) : types = [] := by
  cases types with
  | nil => rfl
  | cons output rest => cases h

/-- Every output has a plan, and its strategy suits it. -/
theorem suits_of_planFrom {slot : Option Nat} {types : List ResolvedType} {plans : List OutputPlan}
    (h : planFrom slot types = .ok plans) :
    List.Forall₂ (fun type plan => Strategy.Suits type plan.strategy) types plans := by
  induction types generalizing slot plans with
  | nil =>
    obtain rfl := Except.ok.inj h
    exact .nil
  | cons output rest ih =>
    cases slot with
    | none => cases h
    | some slot =>
      obtain ⟨strategy, others, hselect, hothers, rfl⟩ := of_planFrom h
      exact .cons (Strategy.suits_of_select hselect) (ih hothers)

/-- The first variant is resolved to its name and a new discriminant. -/
theorem resolveVariants_cons {name : String} {seen : List UInt8} {decl : VariantDecl}
    {rest : List VariantDecl} {variants : List Variant}
    (h : resolveVariants name seen (decl :: rest) = .ok variants) :
    ∃ others, UInt8.ofNat decl.discriminant ∉ seen ∧
      resolveVariants name (UInt8.ofNat decl.discriminant :: seen) rest = .ok others ∧
      variants = ⟨decl.name, UInt8.ofNat decl.discriminant⟩ :: others := by
  rw [resolveVariants] at h
  split at h
  · simp only at h
    split at h
    · cases h
    · rename_i hunseen
      obtain ⟨others, hothers, h⟩ := of_bind_eq_ok h
      exact ⟨others, fun hmem => hunseen (List.contains_iff_mem.2 hmem), hothers,
        (Except.ok.inj h).symm⟩
  · cases h

/-- The discriminants of an enum differ from each other and from those seen before. -/
theorem resolveVariants_distinct {name : String} {seen : List UInt8} {decls : List VariantDecl}
    {variants : List Variant} (h : resolveVariants name seen decls = .ok variants) :
    (variants.map (·.discriminant)).Nodup ∧ ∀ variant ∈ variants, variant.discriminant ∉ seen := by
  induction decls generalizing seen variants with
  | nil =>
    obtain rfl := Except.ok.inj h
    exact ⟨.nil, fun _ h => absurd h List.not_mem_nil⟩
  | cons decl rest ih =>
    obtain ⟨others, hnew, hrest, rfl⟩ := resolveVariants_cons h
    obtain ⟨hdistinct, hothers⟩ := ih hrest
    refine ⟨List.nodup_cons.2 ⟨fun hmem => ?_, hdistinct⟩, fun variant hvariant => ?_⟩
    · obtain ⟨variant, hvariant, heq⟩ := List.mem_map.1 hmem
      exact hothers variant hvariant (heq ▸ List.mem_cons_self)
    · rcases List.mem_cons.1 hvariant with rfl | hvariant
      · exact hnew
      · exact fun hmem => hothers variant hvariant (List.mem_cons_of_mem _ hmem)

theorem resolveEnum_distinct {name : String} {decls : List VariantDecl} {variants : List Variant}
    (h : resolveEnum name decls = .ok variants) : (variants.map (·.discriminant)).Nodup := by
  rw [resolveEnum] at h
  split at h
  · cases h
  · exact (resolveVariants_distinct h).1

namespace Contract.Models

variable {contract : Contract} {document : Document} {session : Session} {type : ResolvedType}
  {members : List ResolvedType} {name : String}

theorem exists_record (h : contract.Models document session)
    (hg : (ResolvedType.record name).Grounded document.types) :
    ∃ fields, contract.catalog.records.get? name = some fields := by
  obtain ⟨-, docs, decls, hget⟩ := hg
  have hmem : name ∈ contract.catalog.records.names := h.catalog ▸ h.declares name _ hget
  cases hfind : contract.catalog.records.get? name with
  | none => exact absurd hmem (NameMap.get?_eq_none_iff.1 hfind)
  | some fields => exact ⟨fields, rfl⟩

theorem exists_enum (h : contract.Models document session)
    (hg : (ResolvedType.enum name).Grounded document.types) :
    ∃ variants, contract.catalog.enums.get? name = some variants := by
  obtain ⟨-, docs, decls, hget⟩ := hg
  have hmem : name ∈ contract.catalog.enums.names := h.catalog ▸ h.declares name _ hget
  cases hfind : contract.catalog.enums.get? name with
  | none => exact absurd hmem (NameMap.get?_eq_none_iff.1 hfind)
  | some variants => exact ⟨variants, rfl⟩

/-- The fields of a record are admitted and have a byte layout. -/
theorem admitsField (h : contract.Models document session) {fields : List Field}
    (hget : contract.catalog.records.get? name = some fields) {field : Field} (hfield : field ∈ fields) :
    Resolve.AdmitsField document.types session.context field := by
  rw [h.catalog] at hget
  obtain ⟨docs, decls, -, -, hfields⟩ := h.represents.records name fields hget
  exact hfields field hfield

theorem discriminants_nodup (h : contract.Models document session) {variants : List Variant}
    (hget : contract.catalog.enums.get? name = some variants) :
    (variants.map (·.discriminant)).Nodup := by
  rw [h.catalog] at hget
  obtain ⟨docs, decls, -, hresolve⟩ := h.represents.enums name variants hget
  exact resolveEnum_distinct hresolve

theorem mem_composites (h : contract.Models document session) {entry : String × List Field} :
    entry ∈ contract.catalog.composites.entries ↔ entry ∈ session.context.registry.entries.entries := by
  rw [h.catalog]
  rfl

/-- The composite of a tuple is declared with the tuple's members. -/
theorem get?_composite (h : contract.Models document session)
    (hadmits : session.context.Admits document.types (.tuple name members)) :
    contract.catalog.composites.get? name = some (memberFields members) := by
  have hholds : session.context.registry.Holds ⟨name, members⟩ :=
    hadmits.known _ (List.mem_append_right _ List.mem_cons_self)
  exact NameMap.get?_eq_some_iff.2 (h.mem_composites.2 hholds)

/-- A group that repeats has members. -/
theorem members_ne_nil (h : contract.Models document session)
    (hadmits : session.context.Admits document.types (.variadicMulti name members)) :
    members ≠ [] := by
  rintro rfl
  have hholds : session.context.registry.Holds ⟨name, []⟩ :=
    hadmits.known _ (List.mem_append_right _ List.mem_cons_self)
  exact (h.context.registry.fieldNames _ hholds).1 rfl

end Contract.Models

namespace Context.Admits

variable {context : Context} {types : NameMap TypeDefinition} {members : List ResolvedType}
  {name : String}

/-- What holds of a type with members holds of each of them. -/
theorem of_members {type : ResolvedType} (h : context.Admits types type)
    (hcomposites : type.composites = ResolvedType.compositesOfAll members ++ [⟨name, members⟩])
    (hgrounded : type.Grounded types → ResolvedType.GroundedAll types members) :
    ∀ m ∈ members, context.Admits types m := by
  intro m hm
  refine ⟨fun composite hc => h.known composite ?_, ?_⟩
  · rw [hcomposites]
    exact List.mem_append_left _ (ResolvedType.mem_compositesOfAll.2 ⟨m, hm, hc⟩)
  · exact ResolvedType.groundedAll_iff.1 (hgrounded h.grounded) m hm

theorem tuple (h : context.Admits types (.tuple name members)) :
    ∀ m ∈ members, context.Admits types m :=
  h.of_members rfl id

theorem multi (h : context.Admits types (.multi name members)) :
    ∀ m ∈ members, context.Admits types m :=
  h.of_members rfl id

theorem variadicMulti (h : context.Admits types (.variadicMulti name members)) :
    ∀ m ∈ members, context.Admits types m :=
  h.of_members rfl id

theorem list {element : ResolvedType} (h : context.Admits types (.list element)) :
    context.Admits types element :=
  ⟨h.known, h.grounded⟩

theorem variadic {element : ResolvedType} (h : context.Admits types (.variadic element)) :
    context.Admits types element :=
  ⟨h.known, h.grounded⟩

end Context.Admits

theorem Catalog.undeclaredMember?_eq_none {catalog : Catalog} {types : List ResolvedType}
    (h : ∀ type ∈ types, catalog.undeclared? type = none) : catalog.undeclaredMember? types = none := by
  induction types with
  | nil => rfl
  | cons type rest ih =>
    rw [Catalog.undeclaredMember?, h type List.mem_cons_self,
      ih fun t ht => h t (List.mem_cons_of_mem _ ht)]
    rfl

namespace Contract.Models

open Catalog (undeclaredMember?_eq_none)

variable {contract : Contract} {document : Document} {session : Session} {type : ResolvedType}

/-- An admitted type refers only to declarations of the catalog. -/
theorem undeclared?_eq_none (h : contract.Models document session)
    (hadmits : session.context.Admits document.types type) :
    contract.catalog.undeclared? type = none := by
  induction type using ResolvedType.memberInduction with
  | primitive kind => rfl
  | record name =>
    obtain ⟨fields, hget⟩ := h.exists_record hadmits.grounded
    have hmem := NameMap.mem_names_of_mem (NameMap.get?_eq_some_iff.1 hget)
    rw [Catalog.undeclared?, if_pos (NameMap.contains_iff.2 hmem)]
  | enum name =>
    obtain ⟨variants, hget⟩ := h.exists_enum hadmits.grounded
    have hmem := NameMap.mem_names_of_mem (NameMap.get?_eq_some_iff.1 hget)
    rw [Catalog.undeclared?, if_pos (NameMap.contains_iff.2 hmem)]
  | list element ih => exact ih hadmits.list
  | variadic element ih => exact ih hadmits.variadic
  | tuple name members ih =>
    have hmem := NameMap.mem_names_of_mem (NameMap.get?_eq_some_iff.1 (h.get?_composite hadmits))
    rw [Catalog.undeclared?, if_pos (NameMap.contains_iff.2 hmem)]
    exact undeclaredMember?_eq_none fun m hm => ih m hm (hadmits.tuple m hm)
  | variadicMulti name members ih =>
    exact undeclaredMember?_eq_none fun m hm => ih m hm (hadmits.variadicMulti m hm)
  | multi name members ih =>
    exact undeclaredMember?_eq_none fun m hm => ih m hm (hadmits.multi m hm)

/-- Decoding the outputs of a readonly endpoint is decoding them by the endpoint's own plans. -/
theorem decodeOutputs_eq (h : contract.Models document session) {endpoint : Endpoint}
    (hendpoint : endpoint ∈ contract.endpoints) (hkind : endpoint.kind = .readonly)
    (slots : List Bytes) :
    contract.catalog.decodeOutputs endpoint.name endpoint.outputTypes slots =
      contract.catalog.decodePlanned ⟨endpoint.name, slots⟩
        (endpoint.outputTypes.zip endpoint.plans) := by
  have hadmits := h.endpoints endpoint hendpoint
  have hdeclared : contract.catalog.undeclaredMember? endpoint.outputTypes = none := by
    refine undeclaredMember?_eq_none fun type htype => ?_
    obtain ⟨output, houtput, rfl⟩ := List.mem_map.1 htype
    exact h.undeclared?_eq_none (hadmits.outputs hkind output houtput)
  rw [Catalog.decodeOutputs, hdeclared, hadmits.plans hkind]

end Contract.Models
end ContractAbi
