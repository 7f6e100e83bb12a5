import ContractAbi.Proofs.DecoderSolution
import ContractAbi.Proofs.ReturnEncoding

/-!
# What generated clients decode

The method of a readonly endpoint is read back from the lines of a generated file. Over any slots
that a contract returns, its statements bind what stands for the values that reflection decodes, or
they end with the same fault at the same slot.
-/
namespace ContractAbi

namespace Context.Sound

variable {context : Context} {types : NameMap TypeDefinition} {type : ResolvedType}

theorem plain_slot (hs : context.Sound types) (htype : context.Admits types type)
    {decoder : SlotDecoder} (hdecoder : SlotDecoder.ofType type = .ok decoder) : decoder.Plain := by
  cases type with
  | primitive kind =>
    obtain rfl := Except.ok.inj hdecoder
    exact trivial
  | record name =>
    obtain rfl := Except.ok.inj hdecoder
    exact Identifier.isWord_type htype.grounded.1
  | enum name =>
    obtain rfl := Except.ok.inj hdecoder
    exact Identifier.isWord_type htype.grounded.1
  | tuple name members =>
    obtain rfl := Except.ok.inj hdecoder
    exact hs.isWord_composite (htype.known _ (List.mem_append_right _ List.mem_cons_self))
  | _ => cases hdecoder

theorem plain_member (hs : context.Sound types) (htype : context.Admits types type)
    (hcheck : checkGroupMember type = .ok ()) {decoder : MemberDecoder}
    (hdecoder : MemberDecoder.ofType type = .ok decoder) : decoder.Plain := by
  rcases member_cases hcheck hdecoder with
    ⟨element, rfl, -, hnested, rfl⟩ | ⟨-, ⟨slot, hslot, rfl⟩, -⟩
  · have helement : context.AdmitsNested types element := ⟨htype.list, hnested⟩
    exact helement.plain hs
  · exact hs.plain_slot htype hslot

theorem plain_group (hs : context.Sound types) {name : String} {members : List ResolvedType}
    (hholds : context.registry.Holds ⟨name, members⟩)
    (htypes : ∀ m ∈ members, context.Admits types m) (hcheck : checkGroup members = .ok ())
    {decoder : GroupDecoder} (hdecoder : GroupDecoder.ofMembers name members = .ok decoder) :
    decoder.Plain members.length := by
  obtain ⟨hname, hdecoded⟩ := groupDecoder_of_ofMembers hdecoder
  refine ⟨hname ▸ hs.isWord_composite hholds, hdecoded.length_eq.symm, fun member hmember => ?_⟩
  obtain ⟨part, hpart, hmade⟩ := exists_of_forall₂_right hdecoded hmember
  exact hs.plain_member (htypes part hpart) (checkGroup_iff.1 hcheck part hpart) hmade

/-- The decoder of an output can be read back from its text. -/
theorem plain_output (hs : context.Sound types) (htype : context.Admits types type)
    {strategy : Strategy} (hsuits : Strategy.Suits type strategy) {decoder : OutputDecoder}
    (hdecoder : OutputDecoder.ofOutput strategy type = .ok decoder) : decoder.Plain := by
  cases hsuits with
  | packed hrecord hcheck =>
    obtain rfl := Except.ok.inj hdecoder
    have helement : context.AdmitsNested types _ := ⟨htype.list, hcheck⟩
    exact helement.plain hs
  | spread hrecord hcheck =>
    obtain ⟨slot, hslot, hdecoder⟩ := of_bind_eq_ok hdecoder
    obtain rfl := Except.ok.inj hdecoder
    exact hs.plain_slot htype.list hslot
  | variadic hcheck =>
    obtain ⟨slot, hslot, hdecoder⟩ := of_bind_eq_ok hdecoder
    obtain rfl := Except.ok.inj hdecoder
    exact hs.plain_slot htype.variadic hslot
  | groups hcheck =>
    obtain ⟨group, hgroup, hdecoder⟩ := of_bind_eq_ok hdecoder
    obtain rfl := Except.ok.inj hdecoder
    have hholds := htype.known _ (List.mem_append_right _ List.mem_cons_self)
    exact hs.plain_group hholds htype.variadicMulti hcheck hgroup
  | group hcheck =>
    obtain ⟨group, hgroup, hdecoder⟩ := of_bind_eq_ok hdecoder
    obtain rfl := Except.ok.inj hdecoder
    have hholds := htype.known _ (List.mem_append_right _ List.mem_cons_self)
    exact hs.plain_group hholds htype.multi hcheck hgroup
  | scalar htop hcheck =>
    obtain ⟨slot, hslot, hdecoder⟩ := of_bind_eq_ok hdecoder
    obtain rfl := Except.ok.inj hdecoder
    exact hs.plain_slot htype hslot

/-- The statements for planned outputs can be read back from their lines. -/
theorem plain_statements (hs : context.Sound types)
    {outputs : List (ResolvedType × OutputPlan)}
    (htypes : ∀ output ∈ outputs, context.Admits types output.1 ∧
      Strategy.Suits output.1 output.2.strategy)
    {index : Nat} {statements : List OutputStatement}
    (hstatements : outputStatements index outputs = .ok statements) :
    ∀ statement ∈ statements, statement.decoder.Plain := by
  induction outputs generalizing index statements with
  | nil =>
    obtain rfl := Except.ok.inj hstatements
    exact fun _ hmem => absurd hmem List.not_mem_nil
  | cons output rest ih =>
    obtain ⟨type, plan⟩ := output
    obtain ⟨decoder, others, hdecoder, hrest, rfl⟩ := outputStatements_cons hstatements
    obtain ⟨htype, hsuits⟩ := htypes (type, plan) List.mem_cons_self
    intro statement hstatement
    rcases List.mem_cons.1 hstatement with rfl | hstatement
    · exact hs.plain_output htype hsuits hdecoder
    · exact ih (fun output hmem => htypes output (List.mem_cons_of_mem _ hmem)) hrest statement
        hstatement

end Context.Sound

/-- The planned outputs of a readonly endpoint have admitted types, and their strategies suit
them. -/
theorem Context.AdmitsEndpoint.suits {context : Context} {types : NameMap TypeDefinition}
    {endpoint : Endpoint} (h : context.AdmitsEndpoint types endpoint)
    (hkind : endpoint.kind = .readonly) :
    (endpoint.outputTypes.zip endpoint.plans).length = endpoint.outputs.length ∧
      ∀ output ∈ endpoint.outputTypes.zip endpoint.plans,
        context.Admits types output.1 ∧ Strategy.Suits output.1 output.2.strategy := by
  have hsuits := List.forall₂_iff_zip.1 (suits_of_planFrom (h.plans hkind))
  constructor
  · rw [List.length_zip, ← hsuits.1, min_self, Endpoint.outputTypes, List.length_map]
  · intro output houtput
    obtain ⟨entry, hentry, heq⟩ := List.mem_map.1 (List.of_mem_zip houtput).1
    exact ⟨heq ▸ h.outputs hkind entry hentry, hsuits.2 houtput⟩

/-- The method of a readonly endpoint sends a query and decodes the planned outputs. -/
theorem Contract.query_of_method {contract : Contract} {options : GenerationOptions}
    {endpoint : Endpoint} {method : Method} (h : contract.method options endpoint = .ok method)
    (hkind : endpoint.kind = .readonly) :
    method.endpoint = endpoint.name ∧ ∃ statements result,
      outputStatements 0 (endpoint.outputTypes.zip endpoint.plans) = .ok statements ∧
      method.body = .query statements (!endpoint.outputs.isEmpty) result := by
  have hbody : Endpoint.methodBody { endpoint with docs := options.docs endpoint.docs } = (do
      let statements ← outputStatements 0 (endpoint.outputTypes.zip endpoint.plans)
      return .query statements (!endpoint.outputs.isEmpty) endpoint.resultText) := by
    rw [Endpoint.methodBody, hkind]
    rfl
  rw [Contract.method, Method.ofEndpoint] at h
  obtain ⟨body, hmade, h⟩ := of_bind_eq_ok h
  rw [hbody] at hmade
  obtain ⟨statements, hstatements, hmade⟩ := of_bind_eq_ok hmade
  obtain rfl := Except.ok.inj hmade
  obtain rfl := Except.ok.inj h
  exact ⟨rfl, statements, endpoint.resultText, hstatements, rfl⟩

/-- The method of a readonly endpoint agrees with reflection: its statements bind the outputs in
order, and over any slots they bind what stands for the values that reflection decodes, or they end
with the same fault. -/
structure Method.AgreesWith (method : Method) (endpoint : Endpoint) (catalog : Catalog)
    (decoders : Decoders) : Prop where
  name : method.endpoint = endpoint.name
  data : endpoint.outputs ≠ [] → dataLine endpoint.name ∈ method.sendLines
  indexes : method.statements.map (·.index) = List.range endpoint.outputs.length
  outcome : ∀ slots : List Bytes,
    ((decoders.runStatements ⟨endpoint.name, slots⟩ method.statements).mapError .binding).map
        (List.map fun bound => (bound.1, catalog.valueOf? bound.2)) =
      (catalog.decodeOutputs endpoint.name endpoint.outputTypes slots).map
        (List.mapIdx fun index value => (index, some value))

/-- What is bound stands for the values in order. -/
theorem map_valueOf?_of_binds {catalog : Catalog} {index : Nat} {values : List Value}
    {parts : List (Nat × Built)}
    (h : BindsFrom (fun value part => catalog.valueOf? part = some value) index values parts) :
    parts.map (fun bound => (bound.1, catalog.valueOf? bound.2)) =
      values.mapIdx fun i value => (index + i, some value) := by
  induction h with
  | nil => rfl
  | @cons index value part values parts hvalue _ ih =>
    have hindex : ∀ i, index + 1 + i = index + (i + 1) := fun i => by omega
    simp only [hindex] at ih
    rw [List.map_cons, List.mapIdx_cons, hvalue, ih, Nat.add_zero]

theorem Contract.Compares.agreesWith {contract : Contract} {document : Document}
    {session : Session} {decoders : Decoders} {options : GenerationOptions}
    (h : contract.Compares document session decoders fun value part =>
      contract.catalog.valueOf? part = some value)
    {endpoint : Endpoint} (hendpoint : endpoint ∈ contract.endpoints)
    (hkind : endpoint.kind = .readonly) {method : Method}
    (hmethod : contract.method options endpoint = .ok method) :
    method.AgreesWith endpoint contract.catalog decoders := by
  obtain ⟨hname, statements, result, hstatements, hbody⟩ := query_of_method hmethod hkind
  obtain ⟨hlength, hsuits⟩ := (h.models.endpoints endpoint hendpoint).suits hkind
  have hplain := h.models.context.plain_statements hsuits hstatements
  have hread : method.statements = statements := Method.statements_query hbody hplain
  constructor
  · exact hname
  · intro hne
    have hdecodes : (!endpoint.outputs.isEmpty) = true := by simpa using hne
    rw [hdecodes] at hbody
    exact hname ▸ Method.dataLine_mem hbody
  · rw [hread, index_outputStatements hstatements, hlength, List.range_eq_range']
  · intro slots
    have hmatch := h.matches_statements hsuits hstatements ⟨endpoint.name, slots⟩
    rw [hread, h.models.decodeOutputs_eq hendpoint hkind]
    generalize contract.catalog.decodePlanned _ _ = left at hmatch
    generalize (decoders.runStatements _ _).mapError _ = right at hmatch
    cases hmatch with
    | error fault => rfl
    | ok hbinds =>
      have hvalues := map_valueOf?_of_binds hbinds
      simp only [Nat.zero_add] at hvalues
      exact congrArg Except.ok hvalues

/-- The decoders of a generated file agree with reflection. There are functions that do what their
bodies say, and with any such functions the method of every readonly endpoint decodes what
reflection decodes. -/
theorem generated_decoders_agree {policy : EndpointPolicy} {document : Document}
    {contract : Contract} (hcontract : Contract.ofDocument policy document = .ok contract)
    {options : GenerationOptions} {file : SourceFile}
    (hfile : contract.sourceFile options = .ok file) (hdistinct : document.DistinctIdentifiers)
    (hacyclic : contract.catalog.Acyclic) :
    (∃ decoders, file.Defines decoders) ∧ ∀ decoders, file.Defines decoders →
      List.Forall₂ (fun endpoint method => endpoint.kind = .readonly →
          method.AgreesWith endpoint contract.catalog decoders)
        contract.endpoints file.client.methods := by
  obtain ⟨session, hmodels⟩ := Contract.exists_models hcontract
  obtain ⟨-, -, -, -, hmethods, -⟩ := Contract.exists_parts hfile
  have hnamed := hmodels.named hdistinct
  refine ⟨⟨.ofCatalog contract.catalog, fun item hitem => ?_⟩, fun decoders hdefines => ?_⟩
  · exact hmodels.solvedBy_ofCatalog hacyclic hnamed item ((hmodels.mem_decoders_iff hfile).1 hitem)
  · have hsolved : contract.catalog.SolvedBy decoders := fun item hitem =>
      hdefines item ((hmodels.mem_decoders_iff hfile).2 hitem)
    have hcompares : contract.Compares document session decoders fun value part =>
        contract.catalog.valueOf? part = some value :=
      ⟨hmodels, hacyclic, hnamed, hsolved, hnamed.views_valueOf?⟩
    have hmade := List.forall₂_iff_zip.1 (forall₂_of_mapM hmethods)
    refine List.forall₂_iff_zip.2 ⟨hmade.1, fun {endpoint method} hpair hkind => ?_⟩
    exact hcompares.agreesWith (List.of_mem_zip hpair).1 hkind (hmade.2 hpair)

theorem vault_types {name : String} {definition : TypeDefinition}
    (h : vault.types.get? name = some definition) :
    definition = .record [] [⟨"share", "Share"⟩, ⟨"epochs", "List<u16>"⟩] ∨
      definition = .record [] [⟨"amount", "BigUint"⟩] ∨
      definition = .enum [] [⟨"Idle", 0⟩, ⟨"Busy", 3⟩] := by
  have hentries : vault.types.entries =
      [("Stake", .record [] [⟨"share", "Share"⟩, ⟨"epochs", "List<u16>"⟩]),
        ("Share", .record [] [⟨"amount", "BigUint"⟩]),
        ("State", .enum [] [⟨"Idle", 0⟩, ⟨"Busy", 3⟩])] := rfl
  have hmem := NameMap.get?_eq_some_iff.1 h
  rw [hentries] at hmem
  have hdefinition := List.mem_map_of_mem (f := Prod.snd) hmem
  simpa using hdefinition

theorem vault_distinctIdentifiers : vault.DistinctIdentifiers where
  types := by decide +kernel
  fields name docs fields hget := by
    rcases vault_types hget with h | h | h <;> cases h <;> decide +kernel
  variants name docs variants hget := by
    rcases vault_types hget with h | h | h <;> cases h
    decide +kernel

theorem vault_file {contract : Contract}
    (hcontract : Contract.ofDocument .strict vault = .ok contract) :
    ∃ file, contract.sourceFile .standard = .ok file := by
  have hconverts : ((Contract.ofDocument .strict vault).bind (·.sourceFile .standard)).toBool =
      true := by decide +kernel
  rw [hcontract] at hconverts
  change (contract.sourceFile .standard).toBool = true at hconverts
  cases hfile : contract.sourceFile .standard with
  | error fault =>
    rw [hfile] at hconverts
    cases hconverts
  | ok file => exact ⟨file, rfl⟩

/-- The only method of the vault's client agrees with reflection. -/
theorem vault_decoders_agree : ∃ contract file method,
    Contract.ofDocument .strict vault = .ok contract ∧
    contract.sourceFile .standard = .ok file ∧ vault.DistinctIdentifiers ∧
    contract.catalog.Acyclic ∧ file.client.methods = [method] ∧
    (∃ decoders, file.Defines decoders) ∧ ∀ decoders, file.Defines decoders →
      method.AgreesWith vaultEndpoint vaultCatalog decoders := by
  obtain ⟨contract, hcontract, hcatalog, hendpoints⟩ := vault_contract
  obtain ⟨file, hfile⟩ := vault_file hcontract
  have hacyclic : contract.catalog.Acyclic := hcatalog ▸ vaultCatalog_acyclic
  obtain ⟨⟨decoders, hdefines⟩, hagree⟩ :=
    generated_decoders_agree hcontract hfile vault_distinctIdentifiers hacyclic
  rw [hendpoints] at hagree
  have hlength := (hagree decoders hdefines).length_eq
  obtain ⟨method, hmethods⟩ := List.length_eq_one_iff.1 hlength.symm
  refine ⟨contract, file, method, hcontract, hfile, vault_distinctIdentifiers, hacyclic, hmethods,
    ⟨decoders, hdefines⟩, fun others hothers => ?_⟩
  have hmethod := hagree others hothers
  rw [hmethods, hcatalog] at hmethod
  cases hmethod with
  | cons hfirst _ => exact hfirst rfl

end ContractAbi
