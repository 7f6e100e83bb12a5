import ContractAbi.Proofs.ItemNames

/-!
# Names that endpoints claim

An endpoint that is accepted takes the name of its method and, if it returns a structure, the name
of the structure. The names that are taken are those of the accepted endpoints and of the named
types, each beside the item that holds it, so an endpoint is refused just when one of them holds a
name that it needs, and one that is refused leaves its names to others.
-/
namespace ContractAbi

namespace Identifier

/-- No endpoint's method is one that every client has. -/
theorem method_not_mem_clientMethods (endpoint : String) : method endpoint ∉ clientMethods := by
  have hends : ∀ word ∈ clientMethods,
      word.toList.getLast? ≠ some '_' ∧ word.toList.head? ≠ some 'r' ∧ word.toList.head? ≠ some '_' := by
    decide
  rw [method]
  split
  · rename_i hmem
    simp only [clientMethods, List.contains_iff_mem, List.mem_cons, List.not_mem_nil, or_false] at hmem
    rcases hmem with h | h | h <;> rw [h] <;> decide
  · rename_i hfree
    rw [List.contains_iff_mem] at hfree
    rcases escape_cases (snake endpoint) with h | h | h | h <;> rw [h]
    · exact hfree
    · intro hmem
      exact (hends _ hmem).1 (by simp)
    · intro hmem
      exact (hends _ hmem).2.1 (by simp)
    · intro hmem
      exact (hends _ hmem).2.2 (by simp)

end Identifier

namespace NameMap

variable {m : NameMap String} {held more : String → String → Prop} {name owner : String}

/-- The names of the map are those that are held, and what stands beside a name is a holder. -/
structure Records (m : NameMap String) (held : String → String → Prop) : Prop where
  holder : ∀ name owner, m.get? name = some owner → held name owner
  taken : ∀ name owner, held name owner → name ∈ m.names

theorem Records.free (h : m.Records held) (hget : m.get? name = none) (owner : String) :
    ¬ held name owner :=
  fun hheld => get?_eq_none_iff.1 hget (h.taken name owner hheld)

theorem Records.put (h : m.Records held)
    (hmore : ∀ other holder, more other holder ↔ held other holder ∨ other = name ∧ holder = owner) :
    (m.put name owner).Records more where
  holder other holder hget := by
    rw [get?_put] at hget
    split at hget
    · rename_i hname
      exact (hmore other holder).2 (.inr ⟨hname, (Option.some.inj hget).symm⟩)
    · exact (hmore other holder).2 (.inl (h.holder other holder hget))
  taken other holder hheld := by
    have hput : other ∈ (m.put name owner).names ↔ other = name ∨ other ∈ m.names := mem_names_putEntry
    rcases (hmore other holder).1 hheld with hheld | ⟨hname, -⟩
    · exact hput.2 (.inr (h.taken other holder hheld))
    · exact hput.2 (.inl hname)

theorem records_ofList (entries : List (String × String)) :
    (ofList entries).Records fun name owner => (name, owner) ∈ entries := by
  have hfold (entries : List (String × String)) : ∀ {m : NameMap String} {held}, m.Records held →
      (entries.foldl (fun m entry => m.put entry.1 entry.2) m).Records
        fun name owner => held name owner ∨ (name, owner) ∈ entries := by
    induction entries with
    | nil => exact fun h => by simpa using h
    | cons entry rest ih =>
      intro m held h
      have hfirst : (m.put entry.1 entry.2).Records
          fun name owner => held name owner ∨ name = entry.1 ∧ owner = entry.2 :=
        h.put fun _ _ => .rfl
      simpa only [List.foldl_cons, List.mem_cons, Prod.ext_iff, or_assoc] using ih hfirst
  have hempty : (empty : NameMap String).Records fun _ _ => False := ⟨nofun, nofun⟩
  rw [ofList]
  simpa only [false_or] using hfold entries hempty

end NameMap

/-- A readonly endpoint with several outputs that all have a name returns them in a structure. -/
def Endpoint.ReturnsStruct (endpoint : Endpoint) : Prop :=
  endpoint.kind = .readonly ∧ 1 < endpoint.outputs.length ∧
    ∀ output ∈ endpoint.outputs, output.name ≠ none

theorem Endpoint.outputStruct?_isSome_iff {endpoint : Endpoint} :
    endpoint.outputStruct?.isSome = true ↔ endpoint.ReturnsStruct := by
  rw [outputStruct?, ReturnsStruct]
  split <;> simp_all [hasNamedOutputs, Option.isSome_iff_ne_none]

/-- The method or type `name` is that of `owner`, an accepted endpoint or a named type. -/
def HeldBy (document : Document) (accepted : List Endpoint) : ItemKind → String → String → Prop
  | .method, name, owner => ∃ endpoint ∈ accepted, endpoint.methodName = name ∧ endpoint.name = owner
  | .type, name, owner =>
    (owner ∈ document.types.names ∧ Identifier.type owner = name) ∨
      ∃ endpoint ∈ accepted, endpoint.ReturnsStruct ∧ endpoint.outputStructName = name ∧
        endpoint.name = owner

/-- The fault of an endpoint that needs a name which is held. The method comes first, and the fault
tells a holder. -/
inductive Clash (document : Document) (accepted : List Endpoint) (endpoint : Endpoint) :
    ConversionFault → Prop
  | method {owner : String} (h : HeldBy document accepted .method endpoint.methodName owner) :
      Clash document accepted endpoint (.duplicateItem .method endpoint.methodName owner)
  | type {owner : String} (hmethod : ∀ other, ¬ HeldBy document accepted .method endpoint.methodName other)
      (hstruct : endpoint.ReturnsStruct)
      (h : HeldBy document accepted .type endpoint.outputStructName owner) :
      Clash document accepted endpoint (.duplicateItem .type endpoint.outputStructName owner)

namespace ItemNames

variable {document : Document} {accepted : List Endpoint} {items : ItemNames}

/-- The names that are taken are the held ones. -/
structure Tracks (items : ItemNames) (document : Document) (accepted : List Endpoint) : Prop where
  methods : items.methods.Records (HeldBy document accepted .method)
  types : items.types.Records (HeldBy document accepted .type)

theorem tracks_ofDocument (document : Document) : (ofDocument document).Tracks document [] where
  methods := ⟨nofun, fun _ _ ⟨_, hmem, _⟩ => absurd hmem List.not_mem_nil⟩
  types := by
    have hsame : (fun name owner => (name, owner) ∈
        document.types.names.map fun name => (Identifier.type name, name)) =
        HeldBy document [] .type := by
      funext name owner
      simp [HeldBy, and_comm]
    exact hsame ▸ NameMap.records_ofList _

theorem heldBy_method_append (endpoint : Endpoint) (name owner : String) :
    HeldBy document (accepted ++ [endpoint]) .method name owner ↔
      HeldBy document accepted .method name owner ∨ name = endpoint.methodName ∧ owner = endpoint.name := by
  simp only [HeldBy, List.mem_append, List.mem_singleton, or_and_right, exists_or, exists_eq_left]
  rw [@eq_comm _ endpoint.methodName, @eq_comm _ endpoint.name]

theorem heldBy_type_append (endpoint : Endpoint) (name owner : String) :
    HeldBy document (accepted ++ [endpoint]) .type name owner ↔
      HeldBy document accepted .type name owner ∨
        endpoint.ReturnsStruct ∧ name = endpoint.outputStructName ∧ owner = endpoint.name := by
  simp only [HeldBy, List.mem_append, List.mem_singleton, or_and_right, exists_or, exists_eq_left,
    or_assoc]
  rw [@eq_comm _ endpoint.outputStructName, @eq_comm _ endpoint.name]

/-- A claim succeeds just when the endpoint clashes with nothing, and then its names are taken too. -/
theorem Tracks.claim (h : items.Tracks document accepted) (endpoint : Endpoint) :
    match items.claim endpoint with
    | .ok after =>
      (∀ fault, ¬ Clash document accepted endpoint fault) ∧
        after.Tracks document (accepted ++ [endpoint])
    | .error fault => Clash document accepted endpoint fault := by
  rw [ItemNames.claim]
  cases hmethod : items.methods.get? endpoint.methodName with
  | some owner => exact .method (h.methods.holder _ _ hmethod)
  | none =>
    have hfree := h.methods.free hmethod
    have hmethods := h.methods.put (heldBy_method_append endpoint)
    rw [claimOutputStruct]
    cases hstruct : endpoint.outputStruct? with
    | none =>
      have hno : ¬ endpoint.ReturnsStruct := by
        rw [← Endpoint.outputStruct?_isSome_iff, hstruct]
        exact Bool.false_ne_true
      refine ⟨fun fault hclash => ?_, hmethods, ?_⟩
      · cases hclash with
        | method hheld => exact hfree _ hheld
        | type _ hreturns => exact hno hreturns
      · have hsame : HeldBy document (accepted ++ [endpoint]) .type = HeldBy document accepted .type := by
          funext name owner
          simp [heldBy_type_append, hno]
        exact hsame ▸ h.types
    | some fields =>
      have hreturns : endpoint.ReturnsStruct := by
        rw [← Endpoint.outputStruct?_isSome_iff, hstruct]
        rfl
      cases htype : items.types.get? endpoint.outputStructName with
      | some owner => exact .type hfree hreturns (h.types.holder _ _ htype)
      | none =>
        refine ⟨fun fault hclash => ?_, hmethods, ?_⟩
        · cases hclash with
          | method hheld => exact hfree _ hheld
          | type _ _ hheld => exact h.types.free htype _ hheld
        · refine h.types.put fun name owner => ?_
          rw [heldBy_type_append, and_iff_right hreturns]

end ItemNames

/-- What becomes of an endpoint that could be resolved. If it clashes with nothing, it is accepted and
its names are taken; else it is reported with the clash, and nothing but the report is left of it. -/
inductive Admission (document : Document) (progress : EndpointProgress) (endpoint : Endpoint)
    (context : Context) : EndpointProgress → Prop
  | accepted {items : ItemNames} (hfree : ∀ fault, ¬ Clash document progress.endpoints endpoint fault)
      (htracks : items.Tracks document (progress.endpoints ++ [endpoint])) :
      Admission document progress endpoint context (progress.accept context items endpoint)
  | refused {fault : ConversionFault} (hclash : Clash document progress.endpoints endpoint fault) :
      Admission document progress endpoint context (progress.report endpoint.name fault)

namespace EndpointProgress

variable {document : Document} {policy : EndpointPolicy} {types : NameMap TypeDefinition}
  {progress next : EndpointProgress} {decl : EndpointDecl}

/-- The names that are taken are those of the accepted endpoints, and no two of these have the same
method. -/
structure KeepsNames (document : Document) (progress : EndpointProgress) : Prop where
  tracks : progress.items.Tracks document progress.endpoints
  methods : (progress.endpoints.map (·.methodName)).Nodup
  named : ∀ endpoint ∈ progress.endpoints, endpoint.methodName = Identifier.method endpoint.name

theorem keepsNames_start (document : Document) (context : Context) :
    (start context (ItemNames.ofDocument document)).KeepsNames document where
  tracks := ItemNames.tracks_ofDocument document
  methods := .nil
  named := nofun

theorem KeepsNames.admission (h : progress.KeepsNames document) {endpoint : Endpoint}
    {context : Context} (hstep : step types policy progress decl = .ok next)
    (hclassify : (classify types decl).run progress.context = .ok (some endpoint) context) :
    Admission document progress endpoint context next := by
  have hclaim := h.tracks.claim endpoint
  obtain ⟨hname, -⟩ := classify_some hclassify
  cases steps_of_eq_ok hstep with
  | accepted hsome hitems =>
    obtain ⟨hsame, rfl⟩ := EStateM.Result.ok.inj (hclassify.symm.trans hsome)
    obtain rfl := Option.some.inj hsame
    rw [hitems] at hclaim
    exact .accepted hclaim.1 hclaim.2
  | skipped hnone => cases hclassify.symm.trans hnone
  | unresolved herror => cases hclassify.symm.trans herror
  | refused hsome hfault =>
    obtain ⟨hsame, -⟩ := EStateM.Result.ok.inj (hclassify.symm.trans hsome)
    obtain rfl := Option.some.inj hsame
    rw [hfault] at hclaim
    rw [← hname]
    exact .refused hclaim

/-- The method of an endpoint that clashes with nothing is new. -/
theorem KeepsNames.accept (h : progress.KeepsNames document) {endpoint : Endpoint} {context : Context}
    {items : ItemNames} (hfree : ∀ fault, ¬ Clash document progress.endpoints endpoint fault)
    (htracks : items.Tracks document (progress.endpoints ++ [endpoint]))
    (hnamed : endpoint.methodName = Identifier.method endpoint.name) :
    (progress.accept context items endpoint).KeepsNames document where
  tracks := htracks
  methods := by
    have hnew : endpoint.methodName ∉ progress.endpoints.map (·.methodName) := by
      intro hmem
      obtain ⟨other, hother, hsame⟩ := List.mem_map.1 hmem
      exact hfree _ (.method ⟨other, hother, hsame, rfl⟩)
    rw [EndpointProgress.accept, List.map_append, List.nodup_append', List.map_singleton,
      List.disjoint_singleton]
    exact ⟨h.methods, List.nodup_singleton _, hnew⟩
  named other hother := by
    rcases List.mem_append.1 hother with hother | hother
    · exact h.named other hother
    · rw [List.mem_singleton.1 hother, hnamed]

theorem KeepsNames.step (h : progress.KeepsNames document)
    (hstep : EndpointProgress.step types policy progress decl = .ok next) :
    next.KeepsNames document := by
  cases steps_of_eq_ok hstep with
  | @accepted endpoint context items hclassify hclaim =>
    obtain ⟨hname, hmethod, -⟩ := classify_some hclassify
    have hclaimed := h.tracks.claim endpoint
    rw [hclaim] at hclaimed
    exact h.accept hclaimed.1 hclaimed.2 (by rw [hmethod, hname])
  | skipped | unresolved | refused => exact ⟨h.tracks, h.methods, h.named⟩

theorem KeepsNames.foldlM (h : progress.KeepsNames document) {decls : List EndpointDecl}
    (hrun : decls.foldlM (EndpointProgress.step types policy) progress = .ok next) :
    next.KeepsNames document :=
  keeps_foldlM (fun _ _ _ h hstep => h.step hstep) h hrun

/-- What is accepted stays accepted, and what is reported stays reported. -/
def Extends (progress next : EndpointProgress) : Prop :=
  progress.endpoints <+: next.endpoints ∧ progress.failures <+: next.failures

theorem extends_step (hstep : step types policy progress decl = .ok next) : progress.Extends next := by
  cases steps_of_eq_ok hstep with
  | accepted => exact ⟨List.prefix_append _ _, List.prefix_rfl⟩
  | skipped => exact ⟨List.prefix_rfl, List.prefix_rfl⟩
  | unresolved | refused => exact ⟨List.prefix_rfl, List.prefix_append _ _⟩

theorem extends_foldlM {decls : List EndpointDecl}
    (hrun : decls.foldlM (step types policy) progress = .ok next) : progress.Extends next := by
  refine keeps_foldlM (fun middle decl next h hstep => ?_) ⟨List.prefix_rfl, List.prefix_rfl⟩ hrun
  obtain ⟨hendpoints, hfailures⟩ := extends_step hstep
  exact ⟨h.1.trans hendpoints, h.2.trans hfailures⟩

end EndpointProgress

theorem mem_outputNames {endpoints : List Endpoint} {name : String} :
    name ∈ outputNames endpoints ↔
      ∃ endpoint ∈ endpoints, endpoint.ReturnsStruct ∧ endpoint.outputStructName = name := by
  simp only [outputNames, List.mem_map, List.mem_filterMap, Contract.outputItem?, Option.map_eq_some_iff,
    ← Endpoint.outputStruct?_isSome_iff, Option.isSome_iff_exists]
  constructor
  · rintro ⟨item, ⟨endpoint, hendpoint, fields, hfields, rfl⟩, rfl⟩
    exact ⟨endpoint, hendpoint, ⟨fields, hfields⟩, rfl⟩
  · rintro ⟨endpoint, hendpoint, ⟨fields, hfields⟩, rfl⟩
    exact ⟨_, ⟨endpoint, hendpoint, fields, hfields, rfl⟩, rfl⟩

/-- Where no name is listed twice, the structures of endpoints have different names. -/
theorem pairwise_of_nodup_outputNames {endpoints : List Endpoint} (h : (outputNames endpoints).Nodup) :
    endpoints.Pairwise fun first second => first.ReturnsStruct → second.ReturnsStruct →
      first.outputStructName ≠ second.outputStructName := by
  induction endpoints with
  | nil => exact .nil
  | cons endpoint rest ih =>
    rw [← List.singleton_append, outputNames_append, List.nodup_append] at h
    refine .cons (fun other hother hfirst hsecond => ?_) (ih h.2.1)
    exact h.2.2 _ (mem_outputNames.2 ⟨endpoint, List.mem_cons_self, hfirst, rfl⟩) _
      (mem_outputNames.2 ⟨other, hother, hsecond, rfl⟩)

/-- The progress that an analysis makes with some endpoints of a document. -/
def Document.Reaches (document : Document) (policy : EndpointPolicy) (decls : List EndpointDecl)
    (progress : EndpointProgress) : Prop :=
  ∃ session, document.declared = .ok () session ∧
    decls.foldlM (EndpointProgress.step document.types policy)
      (.start session.context (ItemNames.ofDocument document)) = .ok progress

namespace Contract

variable {document : Document} {policy : EndpointPolicy} {contract : Contract}

/-- Methods differ from each other and from those of every client; structures of outputs differ from
each other, from the named types and from the composites. -/
structure NamesDiffer (contract : Contract) (document : Document) : Prop where
  methods : (contract.endpoints.map (·.methodName)).Nodup
  methods_own : ∀ endpoint ∈ contract.endpoints,
    endpoint.methodName ∉ ["new", "transport", "contract_address"]
  outputs : contract.endpoints.Pairwise fun first second =>
    first.ReturnsStruct → second.ReturnsStruct → first.outputStructName ≠ second.outputStructName
  outputs_types : ∀ endpoint ∈ contract.endpoints, endpoint.ReturnsStruct →
    ∀ type ∈ document.types.names, endpoint.outputStructName ≠ Identifier.type type
  outputs_composites : ∀ endpoint ∈ contract.endpoints, endpoint.ReturnsStruct →
    endpoint.outputStructName ∉ contract.catalog.composites.names

theorem namesDiffer (h : ofDocument policy document = .ok contract) : contract.NamesDiffer document := by
  have hclaims := claimsNames h
  obtain ⟨models, hmodels⟩ := exists_models h
  obtain ⟨session, progress, -, hrun, rfl⟩ := exists_run h
  have hkeeps := (EndpointProgress.keepsNames_start document session.context).foldlM hrun
  refine ⟨hkeeps.methods, fun endpoint hmem => ?_, pairwise_of_nodup_outputNames hclaims.outputs,
    fun endpoint hmem hreturns type htype heq => ?_, fun endpoint hmem hreturns hcomposite => ?_⟩
  · rw [hkeeps.named endpoint hmem]
    exact Identifier.method_not_mem_clientMethods endpoint.name
  · have houtput := mem_outputNames.2 ⟨endpoint, hmem, hreturns, heq⟩
    exact hclaims.outputs_free _ houtput (List.mem_map_of_mem htype)
  · rw [hmodels.catalog] at hcomposite
    obtain ⟨index, heq⟩ := hmodels.context.registry.named _ hcomposite
    exact compositeName_ne_append index _ "Output" rfl rfl heq.symm

end Contract

/-- Where a document is analysed, the names of its endpoints differ. Behind every front of the
endpoints the names that are taken are those of the accepted endpoints and of the named types, and
the next endpoint, if it can be resolved, is accepted just when its names are free. -/
theorem endpoint_names_are_claimed_once {document : Document} {policy : EndpointPolicy}
    {contract : Contract} (h : Contract.ofDocument policy document = .ok contract) :
    contract.NamesDiffer document ∧
      ∀ before decl after, document.endpoints = before ++ decl :: after →
        ∃ progress next, document.Reaches policy before progress ∧
          document.Reaches policy (before ++ [decl]) next ∧
          progress.items.Tracks document progress.endpoints ∧
          next.endpoints <+: contract.endpoints ∧ next.failures <+: contract.failures ∧
          ∀ endpoint context,
            (classify document.types decl).run progress.context = .ok (some endpoint) context →
              Admission document progress endpoint context next := by
  refine ⟨Contract.namesDiffer h, fun before decl after hsplit => ?_⟩
  obtain ⟨session, last, hdeclared, hrun, rfl⟩ := Contract.exists_run h
  rw [hsplit, List.foldlM_append] at hrun
  obtain ⟨progress, hbefore, hrun⟩ := of_bind_eq_ok hrun
  rw [List.foldlM_cons] at hrun
  obtain ⟨next, hstep, hafter⟩ := of_bind_eq_ok hrun
  have hkeeps := (EndpointProgress.keepsNames_start document session.context).foldlM hbefore
  have hnext : (before ++ [decl]).foldlM (EndpointProgress.step document.types policy)
      (.start session.context (ItemNames.ofDocument document)) = .ok next := by
    rw [List.foldlM_append, hbefore]
    exact (bind_pure _).trans hstep
  obtain ⟨hendpoints, hfailures⟩ := EndpointProgress.extends_foldlM hafter
  exact ⟨progress, next, ⟨session, hdeclared, hbefore⟩, ⟨session, hdeclared, hnext⟩, hkeeps.tracks,
    hendpoints, hfailures, fun endpoint context hclassify => hkeeps.admission hstep hclassify⟩

/-- A readonly endpoint that returns a structure. -/
def EndpointDecl.range (name : String) : EndpointDecl :=
  { EndpointDecl.query name "u8" with outputs := [⟨"low", "u8", false⟩, ⟨"high", "u8", false⟩] }

/-- A document in which two endpoints would have one structure, and two would have one method. -/
def gauge : Document where
  buildInfo := ⟨none, ⟨"multiversx-sc", "0.43.3"⟩⟩
  docs := []
  name := "Gauge"
  constructor := none
  endpoints := [.range "get_a_b_c", .range "getABC", .range "get_abc", .range "getAbc"]
  events := []
  hasCallbacks := false
  types := ∅

/-- The method of an endpoint that is refused for its structure is taken by the next one. -/
theorem gauge_names_are_claimed_once :
    ∃ contract, Contract.ofDocument .skipFailed gauge = .ok contract ∧
      contract.endpoints.map (fun endpoint => (endpoint.name, endpoint.methodName)) =
        [("get_a_b_c", "get_a_b_c"), ("get_abc", "get_abc")] ∧
      contract.failures =
        [⟨"getABC", .inEndpoint "getABC" (.duplicateItem .type "GetABCOutput" "get_a_b_c")⟩,
          ⟨"getAbc", .inEndpoint "getAbc" (.duplicateItem .method "get_abc" "get_abc")⟩] ∧
      contract.NamesDiffer gauge ∧
      ∃ progress, gauge.Reaches .skipFailed [.range "get_a_b_c", .range "getABC"] progress ∧
        progress.items.Tracks gauge progress.endpoints := by
  have hrun : (Contract.ofDocument .skipFailed gauge).map (fun contract =>
      (contract.endpoints.map (fun endpoint => (endpoint.name, endpoint.methodName)),
        contract.failures)) =
      .ok ([("get_a_b_c", "get_a_b_c"), ("get_abc", "get_abc")],
        [⟨"getABC", .inEndpoint "getABC" (.duplicateItem .type "GetABCOutput" "get_a_b_c")⟩,
          ⟨"getAbc", .inEndpoint "getAbc" (.duplicateItem .method "get_abc" "get_abc")⟩]) := by
    decide +kernel
  obtain ⟨contract, hcontract, hnames⟩ := of_map_eq_ok hrun
  obtain ⟨hendpoints, hfailures⟩ := Prod.mk.inj hnames
  obtain ⟨hdiffer, hsteps⟩ := endpoint_names_are_claimed_once hcontract
  obtain ⟨progress, next, hreaches, -, htracks, -⟩ :=
    hsteps [.range "get_a_b_c", .range "getABC"] (.range "get_abc") [.range "getAbc"] rfl
  exact ⟨contract, hcontract, hendpoints.symm, hfailures.symm, hdiffer, progress, hreaches, htracks⟩

end ContractAbi
