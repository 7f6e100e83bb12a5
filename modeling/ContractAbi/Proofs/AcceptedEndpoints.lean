import ContractAbi.Proofs.Classification
import ContractAbi.Proofs.EndpointNames

/-!
# Accepted endpoints

The endpoints of a contract stand for declarations of its document, in the order of the document. No
two of them have one name.
-/
namespace ContractAbi

/-- What an endpoint keeps of its declaration. Its outputs have the names of the declared ones, without
the blanks around them. -/
structure Endpoint.StandsFor (endpoint : Endpoint) (decl : EndpointDecl) : Prop where
  name : endpoint.name = decl.name
  methodName : endpoint.methodName = Identifier.method decl.name
  docs : endpoint.docs = decl.docs
  kind : decl.kind? = some endpoint.kind
  onlyOwner : endpoint.onlyOwner = decl.onlyOwner
  outputNames : endpoint.outputs.map (·.name) = decl.outputs.map (outputName? ·.name)

namespace EndpointDecl

variable {types : NameMap TypeDefinition} {decl : EndpointDecl} {before after : Context}

theorem map_name_outputsOf {outputs : List ResolvedType}
    (h : Resolves types before decl.outputTypes outputs after) :
    (decl.outputsOf outputs).map (·.name) = decl.outputs.map (outputName? ·.name) := by
  have hlength := length_resolvedOutputs h
  rw [outputsOf, List.map_zipWith]
  refine List.ext_getElem (by simp [hlength]) fun index hleft hright => ?_
  simp only [List.getElem_zipWith, List.getElem_map]

theorem standsFor_of_classify {endpoint : Endpoint}
    (h : (classify types decl).run before = .ok (some endpoint) after) : endpoint.StandsFor decl := by
  obtain ⟨hname, hmethod, hkind⟩ := classify_some h
  cases classifies_iff.1 h with
  | readonly _ _ _ houtputs => exact ⟨hname, hmethod, rfl, hkind, rfl, map_name_outputsOf houtputs⟩
  | mutable _ _ _ houtputs => exact ⟨hname, hmethod, rfl, hkind, rfl, map_name_outputsOf houtputs⟩

end EndpointDecl

namespace EndpointProgress

variable {types : NameMap TypeDefinition} {policy : EndpointPolicy} {progress after : EndpointProgress}

/-- A run adds endpoints that stand for some of the declarations it goes through. -/
theorem exists_taken {decls : List EndpointDecl}
    (hrun : decls.foldlM (step types policy) progress = .ok after) :
    ∃ endpoints taken, after.endpoints = progress.endpoints ++ endpoints ∧ taken.Sublist decls ∧
      List.Forall₂ Endpoint.StandsFor endpoints taken := by
  induction decls generalizing progress with
  | nil =>
    obtain rfl := Except.ok.inj hrun
    exact ⟨[], [], (List.append_nil _).symm, .slnil, .nil⟩
  | cons decl rest ih =>
    rw [List.foldlM_cons] at hrun
    obtain ⟨next, hstep, hrest⟩ := of_bind_eq_ok hrun
    obtain ⟨endpoints, taken, hendpoints, hsublist, hstands⟩ := ih hrest
    cases steps_of_eq_ok hstep with
    | @accepted endpoint _ _ hclassify =>
      refine ⟨endpoint :: endpoints, decl :: taken, ?_, hsublist.cons_cons decl,
        .cons (EndpointDecl.standsFor_of_classify hclassify) hstands⟩
      rw [hendpoints, accept, List.append_assoc]
      rfl
    | skipped | unresolved | refused => exact ⟨endpoints, taken, hendpoints, hsublist.cons decl, hstands⟩

end EndpointProgress

namespace Contract

variable {document : Document} {policy : EndpointPolicy} {contract : Contract}

theorem exists_declarations (h : ofDocument policy document = .ok contract) :
    ∃ taken, taken.Sublist document.endpoints ∧
      List.Forall₂ Endpoint.StandsFor contract.endpoints taken := by
  obtain ⟨session, progress, -, hrun, rfl⟩ := exists_run h
  obtain ⟨endpoints, taken, hendpoints, hsublist, hstands⟩ := EndpointProgress.exists_taken hrun
  obtain rfl : progress.endpoints = endpoints := hendpoints
  exact ⟨taken, hsublist, hstands⟩

theorem exists_declaration (h : ofDocument policy document = .ok contract) {endpoint : Endpoint}
    (hendpoint : endpoint ∈ contract.endpoints) :
    ∃ decl ∈ document.endpoints, endpoint.StandsFor decl := by
  obtain ⟨taken, hsublist, hstands⟩ := exists_declarations h
  obtain ⟨decl, hdecl, hstandsFor⟩ := exists_of_forall₂_left hstands hendpoint
  exact ⟨decl, hsublist.subset hdecl, hstandsFor⟩

/-- Endpoints of one name would have one method. -/
theorem nodup_names (h : ofDocument policy document = .ok contract) :
    (contract.endpoints.map (·.name)).Nodup := by
  have hmethods : contract.endpoints.map (·.methodName) =
      (contract.endpoints.map (·.name)).map Identifier.method := by
    rw [List.map_map]
    refine List.map_congr_left fun endpoint hendpoint => ?_
    obtain ⟨decl, -, hstands⟩ := exists_declaration h hendpoint
    rw [Function.comp_apply, hstands.methodName, hstands.name]
  have hdiffer := (namesDiffer h).methods
  rw [hmethods] at hdiffer
  exact .of_map Identifier.method hdiffer

end Contract
end ContractAbi
