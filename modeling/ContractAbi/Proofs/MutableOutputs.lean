import ContractAbi.Bindings.SourceFile
import ContractAbi.Proofs.EndpointPolicy
import ContractAbi.Proofs.FirstUse

/-!
# Outputs that no code decodes

The outputs of an endpoint that changes the contract are checked and kept in the model, but generated
code does not decode them. A document that converts still does without them, and the source stays
the same; so documents that differ in such outputs alone have the same source.
-/
namespace ContractAbi

/-- The declaration without outputs if its endpoint changes the contract. -/
def EndpointDecl.silent (decl : EndpointDecl) : EndpointDecl :=
  if decl.mutability = .mutable then { decl with outputs := [] } else decl

/-- The endpoint without outputs if it changes the contract. -/
def Endpoint.silent (endpoint : Endpoint) : Endpoint :=
  if endpoint.kind = .mutable then { endpoint with outputs := [] } else endpoint

def EndpointProgress.silent (progress : EndpointProgress) : EndpointProgress :=
  { progress with endpoints := progress.endpoints.map Endpoint.silent }

def Contract.silent (contract : Contract) : Contract :=
  { contract with endpoints := contract.endpoints.map Endpoint.silent }

def Document.silent (document : Document) : Document :=
  document.withEndpoints (document.endpoints.map EndpointDecl.silent)

namespace EndpointDecl

variable {decl : EndpointDecl}

theorem silent_of_ne (h : decl.mutability ≠ .mutable) : decl.silent = decl :=
  if_neg h

theorem silent_of_mutable (h : decl.mutability = .mutable) : decl.silent = { decl with outputs := [] } :=
  if_pos h

@[simp] theorem name_silent (decl : EndpointDecl) : decl.silent.name = decl.name := by
  rw [silent]
  split <;> rfl

@[simp] theorem kind?_silent (decl : EndpointDecl) : decl.silent.kind? = decl.kind? := by
  rw [silent]
  split <;> rfl

theorem kind?_eq_mutable : decl.kind? = some .mutable ↔ decl.mutability = .mutable := by
  cases h : decl.mutability <;> simp [kind?, h]

/-- Without outputs there are none to be named in part. -/
theorem checkNames_of_no_outputs (h : decl.checkNames = .ok ()) :
    { decl with outputs := [] }.checkNames = .ok () := by
  rw [checkNames] at h ⊢
  split at h
  · cases h
  · rename_i hnamed
    simp only [hnamed]
    rfl

end EndpointDecl

namespace Endpoint

variable {endpoint : Endpoint}

theorem silent_of_readonly (h : endpoint.kind = .readonly) : endpoint.silent = endpoint :=
  if_neg (by simp [h])

theorem silent_of_mutable (h : endpoint.kind = .mutable) :
    endpoint.silent = { endpoint with outputs := [] } :=
  if_pos h

@[simp] theorem name_silent (endpoint : Endpoint) : endpoint.silent.name = endpoint.name := by
  rw [silent]
  split <;> rfl

@[simp] theorem kind_silent (endpoint : Endpoint) : endpoint.silent.kind = endpoint.kind := by
  rw [silent]
  split <;> rfl

@[simp] theorem methodName_silent (endpoint : Endpoint) :
    endpoint.silent.methodName = endpoint.methodName := by
  rw [silent]
  split <;> rfl

@[simp] theorem outputStructName_silent (endpoint : Endpoint) :
    endpoint.silent.outputStructName = endpoint.outputStructName := by
  rw [outputStructName, name_silent, outputStructName]

theorem outputStruct?_of_mutable (h : endpoint.kind = .mutable) : endpoint.outputStruct? = none := by
  simp [outputStruct?, h]

@[simp] theorem outputStruct?_silent (endpoint : Endpoint) :
    endpoint.silent.outputStruct? = endpoint.outputStruct? := by
  cases hkind : endpoint.kind with
  | readonly => rw [silent_of_readonly hkind]
  | mutable =>
    rw [outputStruct?_of_mutable hkind, silent_of_mutable hkind]
    exact outputStruct?_of_mutable hkind

end Endpoint

section Classification

variable {types : NameMap TypeDefinition} {decl : EndpointDecl} {endpoint : Endpoint}
variable {before after : Context}

/-- An endpoint that changes the contract is classified without its outputs if it is with them, and
both leave the same context. -/
theorem classifyAs_silent
    (h : (classifyAs types decl .mutable).run before = .ok endpoint after) :
    (classifyAs types { decl with outputs := [] } .mutable).run before =
      .ok { endpoint with outputs := [] } after := by
  rw [classifyAs] at h ⊢
  split at h
  · cases h
  · rename_i hnames
    obtain ⟨inputs, middle, hinputs, h⟩ := of_run_bind_eq_ok h
    obtain ⟨outputs, last, houtputs, h⟩ := of_run_bind_eq_ok h
    obtain ⟨rfl, rfl⟩ := of_run_pure_eq_ok h
    rw [EndpointDecl.checkNames_of_no_outputs hnames]
    simp only [EStateM.run_bind, hinputs]
    obtain ⟨resolved, other, hresolved, houtputs⟩ := of_run_bind_eq_ok houtputs
    obtain ⟨rfl, rfl⟩ := of_run_pure_eq_ok houtputs
    obtain rfl := Resolve.of_aside hresolved
    rfl

theorem classify_silent (h : (classify types decl).run before = .ok (some endpoint) after) :
    (classify types decl.silent).run before = .ok (some endpoint.silent) after := by
  obtain ⟨-, -, hkind⟩ := classify_some h
  cases hk : endpoint.kind with
  | readonly =>
    have hreadonly : decl.mutability ≠ .mutable := fun hm => by
      rw [EndpointDecl.kind?_eq_mutable.2 hm, hk] at hkind
      cases hkind
    rwa [EndpointDecl.silent_of_ne hreadonly, Endpoint.silent_of_readonly hk]
  | mutable =>
    rw [hk] at hkind
    rw [EndpointDecl.silent_of_mutable (EndpointDecl.kind?_eq_mutable.1 hkind),
      Endpoint.silent_of_mutable hk]
    rw [classify, hkind] at h
    obtain ⟨other, middle, hother, h⟩ := of_run_bind_eq_ok h
    obtain ⟨hsame, rfl⟩ := of_run_pure_eq_ok h
    obtain rfl := Option.some.inj hsame
    have hkind' : { decl with outputs := [] }.kind? = some .mutable := hkind
    rw [classify, hkind']
    simp only [EStateM.run_bind, classifyAs_silent hother]
    rfl

theorem classify_silent_none (h : (classify types decl).run before = .ok none after) :
    (classify types decl.silent).run before = .ok none before := by
  have hkind := classify_none h
  rw [classify, EndpointDecl.kind?_silent, hkind]
  rfl

end Classification

theorem ItemNames.claim_silent (items : ItemNames) (endpoint : Endpoint) :
    items.claim endpoint.silent = items.claim endpoint := by
  simp [claim, claimOutputStruct]

namespace EndpointProgress

variable {types : NameMap TypeDefinition} {progress after : EndpointProgress}

/-- An endpoint that a strict conversion takes is taken without its outputs too. -/
theorem step_silent {decl : EndpointDecl} (h : step types .strict progress decl = .ok after) :
    step types .strict progress.silent decl.silent = .ok after.silent := by
  have hcontext : progress.silent.context = progress.context := rfl
  have hitems : progress.silent.items = progress.items := rfl
  rw [step] at h ⊢
  rw [hcontext, hitems]
  split at h
  · cases h
  · rename_i hrun
    obtain rfl := Except.ok.inj h
    rw [classify_silent_none hrun, EndpointDecl.name_silent]
    rfl
  · rename_i endpoint context hrun
    rw [classify_silent hrun]
    simp only [ItemNames.claim_silent]
    split at h
    · cases h
    · rename_i items hclaim
      obtain rfl := Except.ok.inj h
      simp [accept, silent]

theorem foldlM_silent {decls : List EndpointDecl}
    (h : decls.foldlM (step types .strict) progress = .ok after) :
    (decls.map EndpointDecl.silent).foldlM (step types .strict) progress.silent = .ok after.silent := by
  induction decls generalizing progress with
  | nil =>
    obtain rfl := Except.ok.inj h
    rfl
  | cons decl rest ih =>
    rw [List.foldlM_cons] at h
    obtain ⟨middle, hstep, hrest⟩ := of_bind_eq_ok h
    rw [List.map_cons, List.foldlM_cons, step_silent hstep]
    exact ih hrest

end EndpointProgress

namespace Contract

/-- A document that converts does so without the outputs that no code decodes. -/
theorem ofDocument_silent {document : Document} {contract : Contract}
    (h : ofDocument .strict document = .ok contract) :
    ofDocument .strict document.silent = .ok contract.silent := by
  have hsupported : document.isSupported = true := by
    by_contra hnot
    rw [ofDocument, if_neg hnot] at h
    cases h
  cases hdeclared : document.declared with
  | error fault session =>
    rw [ofDocument_of_error hsupported hdeclared] at h
    cases h
  | ok value session =>
    have hrun := ofDocument_of_ok hsupported hdeclared .strict document.endpoints
    rw [show document.withEndpoints document.endpoints = document from rfl, h] at hrun
    obtain ⟨progress, hprogress, rfl⟩ := of_map_eq_ok hrun.symm
    have hsilent := EndpointProgress.foldlM_silent hprogress
    rw [Document.silent, ofDocument_of_ok hsupported hdeclared]
    exact congrArg (Except.map (ofProgress document session)) hsilent

end Contract

namespace Contract

/-- The method of an endpoint that changes the contract is made without a look at its outputs. -/
theorem method_of_mutable (contract : Contract) (options : GenerationOptions) {endpoint : Endpoint}
    (h : endpoint.kind = .mutable) :
    contract.method options endpoint = .ok {
      endpoint := endpoint.name
      name := endpoint.methodName
      docs := options.docs endpoint.docs
      onlyOwner := endpoint.onlyOwner
      parameters := endpoint.parameters
      returnType := "String"
      arguments :=
        if endpoint.inputs.isEmpty then none else some (endpoint.encodeInputs contract.catalog)
      body := .call endpoint.acceptsTokenPayment } := by
  cases endpoint
  cases h
  rfl

theorem method_silent (contract : Contract) (options : GenerationOptions) (endpoint : Endpoint) :
    contract.silent.method options endpoint.silent = contract.method options endpoint := by
  cases hkind : endpoint.kind with
  | readonly =>
    rw [Endpoint.silent_of_readonly hkind]
    rfl
  | mutable =>
    have hsilent : endpoint.silent.kind = .mutable := by rw [Endpoint.kind_silent, hkind]
    rw [contract.method_of_mutable options hkind, contract.silent.method_of_mutable options hsilent,
      Endpoint.silent_of_mutable hkind]
    rfl

theorem outputItem?_silent (endpoint : Endpoint) :
    outputItem? endpoint.silent = outputItem? endpoint := by
  simp [outputItem?]

/-- The generated file is the same without the outputs that no code decodes. -/
theorem sourceFile_silent (contract : Contract) (options : GenerationOptions) :
    contract.silent.sourceFile options = contract.sourceFile options := by
  have hmethods : contract.silent.endpoints.mapM (contract.silent.method options) =
      contract.endpoints.mapM (contract.method options) := by
    rw [silent, List.mapM_map]
    exact congrArg (List.mapM · contract.endpoints) (funext (contract.method_silent options))
  have houtputs : contract.silent.endpoints.filterMap outputItem? =
      contract.endpoints.filterMap outputItem? := by
    rw [silent, List.filterMap_map]
    exact congrArg (List.filterMap · contract.endpoints) (funext outputItem?_silent)
  rw [sourceFile, hmethods, houtputs]
  rfl

end Contract

namespace Document

/-- Without the outputs that no code decodes a document that converts has the same source. -/
theorem convert_silent {document : Document} {options : GenerationOptions} {conversion : Conversion}
    (h : document.convert .strict options = .ok conversion) :
    document.silent.convert .strict options = .ok ⟨conversion.contract.silent, conversion.source⟩ := by
  rw [convert] at h ⊢
  obtain ⟨contract, hcontract, h⟩ := of_bind_eq_ok h
  obtain ⟨file, hfile, h⟩ := of_bind_eq_ok h
  obtain rfl := Except.ok.inj h
  rw [Contract.ofDocument_silent hcontract]
  change (contract.silent.sourceFile options >>= _) = _
  rw [contract.sourceFile_silent, hfile]
  simp only [bind, Except.bind, pure, Except.pure]

end Document

/-- The declarations are the same, or are so but for the outputs of an endpoint that changes the
contract. -/
inductive EndpointDecl.SameButOutputs : EndpointDecl → EndpointDecl → Prop
  | same (decl : EndpointDecl) : SameButOutputs decl decl
  | outputs (decl : EndpointDecl) (outputs : List OutputDecl) (h : decl.mutability = .mutable) :
    SameButOutputs decl { decl with outputs }

/-- The documents differ in the outputs of endpoints that change the contract and in nothing else. -/
structure Document.SameButMutableOutputs (left right : Document) : Prop where
  endpoints : List.Forall₂ EndpointDecl.SameButOutputs left.endpoints right.endpoints
  rest : left.withEndpoints right.endpoints = right

theorem EndpointDecl.SameButOutputs.silent_eq {left right : EndpointDecl}
    (h : left.SameButOutputs right) : left.silent = right.silent := by
  cases h with
  | same => rfl
  | outputs outputs hmutable =>
    have hright : { left with outputs }.mutability = .mutable := hmutable
    rw [silent_of_mutable hmutable, silent_of_mutable hright]

theorem Document.SameButMutableOutputs.silent_eq {left right : Document}
    (h : left.SameButMutableOutputs right) : left.silent = right.silent := by
  have hdecls : left.endpoints.map EndpointDecl.silent = right.endpoints.map EndpointDecl.silent :=
    (map_eq_of_forall₂ h.endpoints fun _ _ _ hsame => hsame.silent_eq.symm).symm
  rw [Document.silent, hdecls, ← h.rest]
  rfl

/-- Documents that differ only in outputs that no code decodes, and that both convert, have the same
source under the same options. -/
theorem mutable_outputs_leave_the_source {left right : Document} (options : GenerationOptions)
    (h : left.SameButMutableOutputs right) {first second : Conversion}
    (hfirst : left.convert .strict options = .ok first)
    (hsecond : right.convert .strict options = .ok second) : first.source = second.source := by
  have hleft := Document.convert_silent hfirst
  have hright := Document.convert_silent hsecond
  rw [h.silent_eq, hright] at hleft
  exact (congrArg Conversion.source (Except.ok.inj hleft)).symm

/-- A contract whose first endpoint changes it and returns the given outputs; the second one is
readonly and returns a composite and an alias. -/
def teller (outputs : List OutputDecl) : Document where
  buildInfo := ⟨none, ⟨"multiversx-sc", "0.43.3"⟩⟩
  docs := []
  name := "Teller"
  constructor := none
  endpoints := [⟨"withdraw", [], false, .mutable, ["*"], [⟨"amount", "BigUint", false⟩], outputs⟩,
    .query "getAccount" "tuple<Address,u64>"]
  events := []
  hasCallbacks := false
  types := ∅

theorem teller_outputs_leave_the_source :
    let outputs : List OutputDecl :=
      [⟨"paid", "tuple<TokenIdentifier,BigInt>", false⟩, ⟨"left", "multi<u8,u8>", true⟩]
    (teller []).SameButMutableOutputs (teller outputs) ∧
      ∃ first second, (teller []).convert .strict .standard = .ok first ∧
        (teller outputs).convert .strict .standard = .ok second ∧
        first.contract.endpoints ≠ second.contract.endpoints ∧ first.source = second.source := by
  intro outputs
  have hsame : (teller []).SameButMutableOutputs (teller outputs) :=
    ⟨.cons (.outputs _ outputs rfl) (.cons (.same _) .nil), rfl⟩
  have hconvert (outputs : List OutputDecl) (counts : List Nat)
      (h : ((teller outputs).convert .strict .standard).map (fun conversion =>
        conversion.contract.endpoints.map (·.outputs.length)) = .ok counts) :
      ∃ conversion, (teller outputs).convert .strict .standard = .ok conversion ∧
        conversion.contract.endpoints.map (·.outputs.length) = counts := by
    obtain ⟨conversion, hconversion, hcounts⟩ := of_map_eq_ok h
    exact ⟨conversion, hconversion, hcounts.symm⟩
  obtain ⟨first, hfirst, hnone⟩ := hconvert [] [0, 1] (by decide +kernel)
  obtain ⟨second, hsecond, htwo⟩ := hconvert outputs [2, 1] (by decide +kernel)
  refine ⟨hsame, first, second, hfirst, hsecond, fun heq => ?_,
    mutable_outputs_leave_the_source .standard hsame hfirst hsecond⟩
  rw [heq, htwo] at hnone
  exact absurd hnone (by decide)

end ContractAbi
