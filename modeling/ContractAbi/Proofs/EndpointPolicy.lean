import ContractAbi.Contract.Basic
import ContractAbi.Proofs.Results

/-!
# Strict and lenient conversion

Each endpoint of a document is accepted, skipped or failed, and one that fails leaves everything but
the list of failures as it was. So a lenient conversion is the strict conversion of the document
without the endpoints that fail, and a strict conversion fails with the first of the failures.
-/
namespace ContractAbi

/-- What becomes of an endpoint of a document. -/
inductive Fate where
  | accepted (endpoint : Endpoint)
  | skipped (name : String)
  | failed (failure : EndpointFailure)
  deriving DecidableEq, Repr

namespace Fate

def endpoint? : Fate → Option Endpoint
  | .accepted endpoint => some endpoint
  | _ => none

def skipped? : Fate → Option String
  | .skipped name => some name
  | _ => none

def failure? : Fate → Option EndpointFailure
  | .failed failure => some failure
  | _ => none

/-- The fate is one of this endpoint. Only endpoints of unknown kind are skipped, and a failure is
reported in the endpoint's name. -/
def Of (decl : EndpointDecl) : Fate → Prop
  | .accepted endpoint => endpoint.name = decl.name ∧ decl.kind? = some endpoint.kind
  | .skipped name => name = decl.name ∧ decl.kind? = none
  | .failed failure =>
    failure.endpoint = decl.name ∧ decl.kind? ≠ none ∧
      ∃ cause, failure.fault = .inEndpoint decl.name cause

end Fate

/-- The endpoints that do not fail, in their order. -/
def survivors : List EndpointDecl → List Fate → List EndpointDecl
  | decl :: decls, fate :: fates =>
    if fate.failure?.isSome then survivors decls fates else decl :: survivors decls fates
  | _, _ => []

/-- What an endpoint leads to in a context in which some names are taken. -/
inductive Verdict where
  | accepted (endpoint : Endpoint) (context : Context) (items : ItemNames)
  | skipped
  | failed (fault : ConversionFault)

namespace Verdict

def judge (types : NameMap TypeDefinition) (context : Context) (items : ItemNames)
    (decl : EndpointDecl) : Verdict :=
  match (classify types decl).run context with
  | .error fault _ => .failed fault
  | .ok none _ => .skipped
  | .ok (some endpoint) context =>
    match items.claim endpoint with
    | .error fault => .failed fault
    | .ok items => .accepted endpoint context items

def fate (name : String) : Verdict → Fate
  | .accepted endpoint _ _ => .accepted endpoint
  | .skipped => .skipped name
  | .failed fault => .failed ⟨name, .inEndpoint name fault⟩

/-- The progress behind an endpoint when failures are only recorded. -/
def record (name : String) (progress : EndpointProgress) : Verdict → EndpointProgress
  | .accepted endpoint context items => progress.accept context items endpoint
  | .skipped => progress.skip name
  | .failed fault =>
    { progress with failures := progress.failures ++ [⟨name, .inEndpoint name fault⟩] }

end Verdict

theorem classifyAs_name {types : NameMap TypeDefinition} {decl : EndpointDecl} {kind : EndpointKind}
    {endpoint : Endpoint} {context after : Context}
    (h : (classifyAs types decl kind).run context = .ok endpoint after) :
    endpoint.name = decl.name ∧ endpoint.methodName = Identifier.method decl.name ∧
      endpoint.kind = kind := by
  rw [classifyAs] at h
  split at h
  · cases h
  · obtain ⟨inputs, middle, -, h⟩ := of_run_bind_eq_ok h
    obtain ⟨outputs, last, -, h⟩ := of_run_bind_eq_ok h
    obtain ⟨rfl, -⟩ := of_run_pure_eq_ok h
    exact ⟨rfl, rfl, rfl⟩

theorem classify_some {types : NameMap TypeDefinition} {decl : EndpointDecl} {endpoint : Endpoint}
    {context after : Context} (h : (classify types decl).run context = .ok (some endpoint) after) :
    endpoint.name = decl.name ∧ endpoint.methodName = Identifier.method decl.name ∧
      decl.kind? = some endpoint.kind := by
  rw [classify] at h
  split at h
  · exact absurd (EStateM.Result.ok.inj h).1 (by simp)
  · rename_i kind hkind
    obtain ⟨other, middle, hrun, h⟩ := of_run_bind_eq_ok h
    obtain ⟨hsame, -⟩ := of_run_pure_eq_ok h
    obtain rfl := Option.some.inj hsame
    obtain ⟨hname, hmethod, hk⟩ := classifyAs_name hrun
    exact ⟨hname, hmethod, hk ▸ hkind⟩

theorem classify_none {types : NameMap TypeDefinition} {decl : EndpointDecl} {context after : Context}
    (h : (classify types decl).run context = .ok none after) : decl.kind? = none := by
  rw [classify] at h
  split at h
  · assumption
  · obtain ⟨other, middle, -, h⟩ := of_run_bind_eq_ok h
    exact absurd (of_run_pure_eq_ok h).1 (by simp)

theorem classify_error {types : NameMap TypeDefinition} {decl : EndpointDecl} {context after : Context}
    {fault : ConversionFault} (h : (classify types decl).run context = .error fault after) :
    decl.kind? ≠ none := by
  intro hkind
  rw [classify, hkind] at h
  cases h

namespace EndpointProgress

variable {types : NameMap TypeDefinition} {progress : EndpointProgress} {decl : EndpointDecl}

/-- The verdict on the next endpoint. -/
def verdict (types : NameMap TypeDefinition) (progress : EndpointProgress) (decl : EndpointDecl) :
    Verdict :=
  .judge types progress.context progress.items decl

theorem step_eq (policy : EndpointPolicy) :
    step types policy progress decl =
      match progress.verdict types decl with
      | .accepted endpoint context items => .ok (progress.accept context items endpoint)
      | .skipped => .ok (progress.skip decl.name)
      | .failed fault => progress.refuse policy decl.name fault := by
  simp only [step, verdict, Verdict.judge]
  cases (classify types decl).run progress.context with
  | error fault after => rfl
  | ok endpoint? after =>
    cases endpoint? with
    | none => rfl
    | some endpoint =>
      simp only
      cases progress.items.claim endpoint <;> rfl

theorem step_skipFailed :
    step types .skipFailed progress decl =
      .ok ((progress.verdict types decl).record decl.name progress) := by
  rw [step_eq]
  cases progress.verdict types decl <;> rfl

theorem step_strict :
    step types .strict progress decl =
      match ((progress.verdict types decl).fate decl.name).failure? with
      | some failure => .error failure.fault
      | none => .ok ((progress.verdict types decl).record decl.name progress) := by
  rw [step_eq]
  cases progress.verdict types decl <;> rfl

/-- The progress with one more failure. -/
def report (progress : EndpointProgress) (name : String) (fault : ConversionFault) :
    EndpointProgress :=
  { progress with failures := progress.failures ++ [⟨name, .inEndpoint name fault⟩] }

theorem of_refuse_eq_ok {policy : EndpointPolicy} {name : String} {fault : ConversionFault}
    {next : EndpointProgress} (h : progress.refuse policy name fault = .ok next) :
    policy = .skipFailed ∧ next = progress.report name fault := by
  cases policy with
  | strict => cases h
  | skipFailed => exact ⟨rfl, (Except.ok.inj h).symm⟩

/-- What the next endpoint can lead to. -/
inductive Steps (types : NameMap TypeDefinition) (policy : EndpointPolicy) (progress : EndpointProgress)
    (decl : EndpointDecl) : EndpointProgress → Prop
  | accepted {endpoint : Endpoint} {context : Context} {items : ItemNames}
      (hclassify : (classify types decl).run progress.context = .ok (some endpoint) context)
      (hclaim : progress.items.claim endpoint = .ok items) :
      Steps types policy progress decl (progress.accept context items endpoint)
  | skipped {context : Context} (hclassify : (classify types decl).run progress.context = .ok none context) :
      Steps types policy progress decl (progress.skip decl.name)
  | unresolved {context : Context} {fault : ConversionFault}
      (hclassify : (classify types decl).run progress.context = .error fault context)
      (hpolicy : policy = .skipFailed) :
      Steps types policy progress decl (progress.report decl.name fault)
  | refused {endpoint : Endpoint} {context : Context} {fault : ConversionFault}
      (hclassify : (classify types decl).run progress.context = .ok (some endpoint) context)
      (hclaim : progress.items.claim endpoint = .error fault) (hpolicy : policy = .skipFailed) :
      Steps types policy progress decl (progress.report decl.name fault)

theorem steps_of_eq_ok {policy : EndpointPolicy} {next : EndpointProgress}
    (h : step types policy progress decl = .ok next) : Steps types policy progress decl next := by
  rw [step] at h
  cases hclassify : (classify types decl).run progress.context with
  | error fault context =>
    rw [hclassify] at h
    obtain ⟨hpolicy, rfl⟩ := of_refuse_eq_ok h
    exact .unresolved hclassify hpolicy
  | ok endpoint? context =>
    cases endpoint? with
    | none =>
      rw [hclassify] at h
      obtain rfl := Except.ok.inj h
      exact .skipped hclassify
    | some endpoint =>
      simp only [hclassify] at h
      cases hclaim : progress.items.claim endpoint with
      | error fault =>
        rw [hclaim] at h
        obtain ⟨hpolicy, rfl⟩ := of_refuse_eq_ok h
        exact .refused hclassify hclaim hpolicy
      | ok items =>
        rw [hclaim] at h
        obtain rfl := Except.ok.inj h
        exact .accepted hclassify hclaim

theorem fate_of : ((progress.verdict types decl).fate decl.name).Of decl := by
  simp only [verdict, Verdict.judge]
  cases hrun : (classify types decl).run progress.context with
  | error fault after => exact ⟨rfl, classify_error hrun, fault, rfl⟩
  | ok endpoint? after =>
    cases endpoint? with
    | none => exact ⟨rfl, classify_none hrun⟩
    | some endpoint =>
      obtain ⟨hname, -, hkind⟩ := classify_some hrun
      simp only
      cases progress.items.claim endpoint with
      | ok items => exact ⟨hname, hkind⟩
      | error fault => exact ⟨rfl, by simp [hkind], fault, rfl⟩

/-- The fates of the next endpoints, and the progress behind them if failures are only recorded. -/
def settle (types : NameMap TypeDefinition) (progress : EndpointProgress) :
    List EndpointDecl → List Fate × EndpointProgress
  | [] => ([], progress)
  | decl :: rest =>
    let verdict := progress.verdict types decl
    let settled := settle types (verdict.record decl.name progress) rest
    (verdict.fate decl.name :: settled.1, settled.2)

theorem foldlM_skipFailed (decls : List EndpointDecl) :
    decls.foldlM (step types .skipFailed) progress = .ok (progress.settle types decls).2 := by
  induction decls generalizing progress with
  | nil => rfl
  | cons decl rest ih =>
    rw [List.foldlM_cons, step_skipFailed]
    exact ih

/-- A strict run stops at the first failure and otherwise ends like a lenient one. -/
theorem foldlM_strict (decls : List EndpointDecl) :
    decls.foldlM (step types .strict) progress =
      match (progress.settle types decls).1.filterMap Fate.failure? with
      | failure :: _ => .error failure.fault
      | [] => .ok (progress.settle types decls).2 := by
  induction decls generalizing progress with
  | nil => rfl
  | cons decl rest ih =>
    rw [List.foldlM_cons, step_strict, settle, List.filterMap_cons]
    cases ((progress.verdict types decl).fate decl.name).failure? with
    | some failure => rfl
    | none => exact ih

theorem fates_of (decls : List EndpointDecl) :
    List.Forall₂ Fate.Of decls (progress.settle types decls).1 := by
  induction decls generalizing progress with
  | nil => exact .nil
  | cons decl rest ih => exact .cons fate_of ih

/-- Each fate adds to one of the three lists. -/
theorem settle_lists (decls : List EndpointDecl) :
    let settled := progress.settle types decls
    settled.2.endpoints = progress.endpoints ++ settled.1.filterMap Fate.endpoint? ∧
      settled.2.skipped = progress.skipped ++ settled.1.filterMap Fate.skipped? ∧
      settled.2.failures = progress.failures ++ settled.1.filterMap Fate.failure? := by
  induction decls generalizing progress with
  | nil => simp [settle]
  | cons decl rest ih =>
    have hrest := @ih ((progress.verdict types decl).record decl.name progress)
    simp only [settle, List.filterMap_cons]
    generalize progress.verdict types decl = verdict at hrest ⊢
    obtain ⟨he, hs, hf⟩ := hrest
    cases verdict with
    | accepted endpoint context items =>
      exact ⟨he.trans (List.append_assoc _ [endpoint] _), hs, hf⟩
    | skipped => exact ⟨he, hs.trans (List.append_assoc _ [decl.name] _), hf⟩
    | failed fault => exact ⟨he, hs, hf.trans (List.append_assoc _ [_] _)⟩

/-- A strict run over the endpoints that do not fail ends where a lenient run over all of them ends,
apart from the failures. -/
theorem foldlM_survivors (decls : List EndpointDecl) (failures : List EndpointFailure) :
    (survivors decls (progress.settle types decls).1).foldlM (step types .strict)
        { progress with failures } =
      .ok { (progress.settle types decls).2 with failures } := by
  induction decls generalizing progress with
  | nil => rfl
  | cons decl rest ih =>
    have hverdict : verdict types { progress with failures } decl = progress.verdict types decl := rfl
    simp only [settle, survivors]
    have hrest := @ih ((progress.verdict types decl).record decl.name progress)
    cases hv : progress.verdict types decl with
    | accepted endpoint context items =>
      rw [hv] at hrest
      simp only [Verdict.fate, Fate.failure?, Option.isSome_none, Bool.false_eq_true, if_false]
      rw [List.foldlM_cons, step_strict, hverdict, hv]
      exact hrest
    | skipped =>
      rw [hv] at hrest
      simp only [Verdict.fate, Fate.failure?, Option.isSome_none, Bool.false_eq_true, if_false]
      rw [List.foldlM_cons, step_strict, hverdict, hv]
      exact hrest
    | failed fault =>
      rw [hv] at hrest
      simp only [Verdict.fate, Fate.failure?, Option.isSome_some, if_true]
      exact hrest

end EndpointProgress

namespace Document

/-- The document with other endpoints. -/
def withEndpoints (document : Document) (endpoints : List EndpointDecl) : Document :=
  { document with endpoints }

/-- The run that declares the named types of a document, before any endpoint. -/
def declared (document : Document) : EStateM.Result ConversionFault Session Unit :=
  (declareNamedTypes document.types).run (Session.start (Context.ofDocument document))

end Document

namespace Contract

variable {document : Document} {session : Session}

theorem ofDocument_of_error {fault : ConversionFault} (hsupported : document.isSupported = true)
    (h : document.declared = .error fault session) (policy : EndpointPolicy) :
    ofDocument policy document = .error fault := by
  rw [ofDocument, if_pos hsupported, ofSupported, ← Document.declared, h]

theorem ofDocument_of_ok (hsupported : document.isSupported = true)
    (h : document.declared = .ok () session) (policy : EndpointPolicy) (decls : List EndpointDecl) :
    ofDocument policy (document.withEndpoints decls) =
      (decls.foldlM (EndpointProgress.step document.types policy)
        (.start session.context (ItemNames.ofDocument document))).map
          (ofProgress document session) := by
  have hsame : (document.withEndpoints decls).declared = .ok () session := h
  have hframework : (document.withEndpoints decls).isSupported = true := hsupported
  rw [ofDocument, if_pos hframework, ofSupported, ← Document.declared, hsame]
  rfl

/-- The runs that a contract comes from. -/
theorem exists_run {policy : EndpointPolicy} {contract : Contract}
    (h : ofDocument policy document = .ok contract) :
    ∃ session progress, document.declared = .ok () session ∧
      document.endpoints.foldlM (EndpointProgress.step document.types policy)
        (.start session.context (ItemNames.ofDocument document)) = .ok progress ∧
      contract = .ofProgress document session progress := by
  have hsupported : document.isSupported = true := by
    rw [ofDocument] at h
    split at h
    · assumption
    · cases h
  cases hdeclared : document.declared with
  | error fault session =>
    rw [ofDocument_of_error hsupported hdeclared] at h
    cases h
  | ok _ session =>
    have hrun := ofDocument_of_ok hsupported hdeclared policy document.endpoints
    obtain ⟨progress, hprogress, hcontract⟩ := of_map_eq_ok (hrun.symm.trans h)
    exact ⟨session, progress, rfl, hprogress, hcontract⟩

/-- How a lenient conversion accounts for the endpoints of a document, and what a strict one makes
of it. -/
structure Accounts (document : Document) (contract : Contract) (fates : List Fate) : Prop where
  lenient : ofDocument .skipFailed document = .ok contract
  /-- Each endpoint has one fate. -/
  each : List.Forall₂ Fate.Of document.endpoints fates
  endpoints : contract.endpoints = fates.filterMap Fate.endpoint?
  skipped : contract.skipped = fates.filterMap Fate.skipped?
  failures : contract.failures = fates.filterMap Fate.failure?
  /-- A strict conversion gives the same contract, or the fault of the first failure. -/
  strict : ofDocument .strict document =
    match contract.failures with
    | [] => .ok contract
    | failure :: _ => .error failure.fault
  /-- Endpoints that fail leave no trace but the list of failures. -/
  traceless : ofDocument .strict (document.withEndpoints (survivors document.endpoints fates)) =
    .ok { contract with failures := [] }

theorem accounts_of_declared (hsupported : document.isSupported = true)
    (h : document.declared = .ok () session) : ∃ contract fates, Accounts document contract fates := by
  let start := EndpointProgress.start session.context (ItemNames.ofDocument document)
  let settled := start.settle document.types document.endpoints
  obtain ⟨hendpoints, hskipped, hfailures⟩ :=
    @EndpointProgress.settle_lists document.types start document.endpoints
  refine ⟨ofProgress document session settled.2, settled.1, ?_⟩
  exact {
    lenient := by
      refine (ofDocument_of_ok hsupported h .skipFailed document.endpoints).trans ?_
      rw [EndpointProgress.foldlM_skipFailed]
      rfl
    each := EndpointProgress.fates_of document.endpoints
    endpoints := hendpoints
    skipped := hskipped
    failures := hfailures
    strict := by
      refine (ofDocument_of_ok hsupported h .strict document.endpoints).trans ?_
      have hsame : (ofProgress document session settled.2).failures =
          settled.1.filterMap Fate.failure? := hfailures
      rw [EndpointProgress.foldlM_strict, hsame]
      change Except.map _ (match settled.1.filterMap Fate.failure? with
        | failure :: _ => .error failure.fault
        | [] => .ok settled.2) = _
      cases settled.1.filterMap Fate.failure? <;> rfl
    traceless := by
      refine (ofDocument_of_ok hsupported h .strict (survivors document.endpoints settled.1)).trans ?_
      have hrun := @EndpointProgress.foldlM_survivors document.types start document.endpoints []
      exact congrArg (Except.map (ofProgress document session)) hrun }

end Contract

/-- A supported document fails under both policies, with the fault of its named types, or an account
of its endpoints can be given. -/
theorem failed_endpoints_leave_no_trace (document : Document)
    (hsupported : document.isSupported = true) :
    match document.declared with
    | .error fault _ => ∀ policy, Contract.ofDocument policy document = .error fault
    | .ok _ _ => ∃ contract fates, Contract.Accounts document contract fates := by
  cases h : document.declared with
  | error fault session => exact Contract.ofDocument_of_error hsupported h
  | ok value session => exact Contract.accounts_of_declared hsupported h

/-- A readonly endpoint with one output. -/
def EndpointDecl.query (name output : String) : EndpointDecl :=
  ⟨name, [], false, .readonly, [], [], [⟨"", output, false⟩]⟩

/-- A document in which one endpoint fails after part of its output is resolved, and another one
after all of it is. -/
def ledger : Document where
  buildInfo := ⟨none, ⟨"multiversx-sc", "0.43.3"⟩⟩
  docs := []
  name := "Ledger"
  constructor := none
  endpoints := [.query "getTotal" "BigUint", .query "getShare" "tuple<tuple<u8>,Share>",
    .query "get_total" "tuple<u64,bool>", .query "getOwner" "tuple<Address,bool>"]
  events := []
  hasCallbacks := false
  types := ∅

theorem ledger_failures_leave_no_trace :
    ledger.isSupported = true ∧ ∃ contract fates, Contract.Accounts ledger contract fates ∧
      contract.failures.map (·.endpoint) = ["getShare", "get_total"] ∧
        contract.catalog.composites.names = ["ComplexType0"] := by
  have hsupported : ledger.isSupported = true := by decide
  have haccount := failed_endpoints_leave_no_trace ledger hsupported
  have hdeclared : ledger.declared = .ok () (Session.start (Context.ofDocument ledger)) := rfl
  rw [hdeclared] at haccount
  obtain ⟨contract, fates, ha⟩ := haccount
  have hlenient : (Contract.ofDocument .skipFailed ledger).map (fun contract =>
      (contract.failures.map (·.endpoint), contract.catalog.composites.names)) =
        .ok (["getShare", "get_total"], ["ComplexType0"]) := by decide +kernel
  rw [ha.lenient] at hlenient
  have hpair := Except.ok.inj hlenient
  exact ⟨hsupported, contract, fates, ha, congrArg Prod.fst hpair, congrArg Prod.snd hpair⟩

end ContractAbi
