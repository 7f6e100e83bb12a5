import ContractAbi.Proofs.AcceptedEndpoints
import ContractAbi.Proofs.CommandRuns
import ContractAbi.Proofs.DecoderNames
import ContractAbi.Proofs.DocumentText
import ContractAbi.Proofs.ValueTypes

/-!
# Printed outputs

A run that decodes prints several named outputs as an object. The object has the names in the order in
which they come first, each with the value of the last output of that name. So it shows every output
exactly if no two declared names are equal up to the blanks around them.
-/
namespace ContractAbi

/-- What is left of entries when a later one takes the place of an earlier one with its name. -/
structure KeepsLast {α : Type} (entries kept : List (String × α)) : Prop where
  names : kept.map (·.1) = (entries.map (·.1)).eraseDups
  values : ∀ before entry after, entries = before ++ entry :: after →
    (∀ later ∈ after, later.1 ≠ entry.1) → kept.lookup entry.1 = some entry.2
  all : kept = entries ↔ (entries.map (·.1)).Nodup

namespace NameMap

variable {α : Type}

theorem entries_ofList_eq_foldl (entries : List (String × α)) :
    (ofList entries).entries = entries.foldl (fun kept entry => putEntry entry.1 entry.2 kept) [] := by
  induction entries using List.reverseRecOn with
  | nil => rfl
  | append_singleton entries entry ih => rw [ofList_concat, entries_put, ih, List.foldl_concat]

theorem names_ofList (entries : List (String × α)) :
    (ofList entries).names = (entries.map (·.1)).eraseDups := by
  induction entries using List.reverseRecOn with
  | nil => rfl
  | append_singleton entries entry ih =>
    rw [ofList_concat, names, entries_put, names_putEntry, ← names, ih, List.map_append,
      List.map_singleton, eraseDups_concat]
    simp only [List.mem_eraseDups]

theorem get?_ofList_append {name : String} {after : List (String × α)}
    (h : ∀ later ∈ after, later.1 ≠ name) (before : List (String × α)) :
    (ofList (before ++ after)).get? name = (ofList before).get? name := by
  induction after using List.reverseRecOn with
  | nil => rw [List.append_nil]
  | append_singleton after entry ih =>
    have hne : name ≠ entry.1 := (h entry (List.mem_append_right _ List.mem_cons_self)).symm
    rw [← List.append_assoc, ofList_concat, get?_put, if_neg hne]
    exact ih fun later hlater => h later (List.mem_append_left _ hlater)

theorem keepsLast_ofList (entries : List (String × α)) : KeepsLast entries (ofList entries).entries where
  names := names_ofList entries
  values before entry after hsplit hlater := by
    have hlast := get?_ofList_append hlater (before ++ [entry])
    rw [List.append_assoc, List.singleton_append, ← hsplit, ofList_concat, get?_put, if_pos rfl] at hlast
    exact hlast
  all := ⟨fun heq => heq ▸ (ofList entries).distinct, entries_ofList⟩

end NameMap

namespace Endpoint

variable {endpoint : Endpoint} {values : List Value}

/-- The name and the value of each output, in the order of the outputs. -/
def namedValues (endpoint : Endpoint) (values : List Value) : List (String × Json) :=
  (endpoint.outputs.zip values).map fun output => (output.1.name.getD "", output.2.json)

theorem map_fst_namedValues (hlength : endpoint.outputs.length = values.length) :
    (endpoint.namedValues values).map (·.1) = endpoint.outputs.map (·.name.getD "") := by
  rw [namedValues, List.map_map]
  refine Eq.trans ?_ (congrArg (List.map _) (List.map_fst_zip hlength.le))
  rw [List.map_map]
  rfl

/-- Outputs that all have a name have the declared ones, without the blanks around them. -/
theorem StandsFor.map_name {decl : EndpointDecl} (h : endpoint.StandsFor decl)
    (hnamed : endpoint.hasNamedOutputs = true) :
    endpoint.outputs.map (·.name.getD "") =
      decl.outputs.map fun output => String.ofList (Text.trim output.name.toList) := by
  have hsome : ∀ output ∈ decl.outputs, (outputName? output.name).isSome = true := by
    intro output houtput
    have hmem := List.mem_map_of_mem (f := fun output => outputName? output.name) houtput
    rw [← h.outputNames] at hmem
    obtain ⟨own, hown, hname⟩ := List.mem_map.1 hmem
    rw [hasNamedOutputs, Bool.and_eq_true, List.all_eq_true] at hnamed
    exact hname ▸ hnamed.2 own hown
  have hnames := congrArg (List.map (Option.getD · "")) h.outputNames
  rw [List.map_map, List.map_map] at hnames
  refine hnames.trans (List.map_congr_left fun output houtput => ?_)
  have hone := hsome output houtput
  rw [outputName?] at hone
  rw [Function.comp_apply, outputName?]
  split at hone
  case isTrue => cases hone
  case isFalse hblank =>
    rw [if_neg hblank]
    rfl

end Endpoint

namespace Catalog

theorem length_of_decodeOutputs {catalog : Catalog} {endpoint : String} {outputs : List ResolvedType}
    {slots : List Bytes} {values : List Value}
    (h : catalog.decodeOutputs endpoint outputs slots = .ok values) : outputs.length = values.length := by
  rw [decodeOutputs] at h
  split at h
  · cases h
  · split at h
    · cases h
    · rename_i plans hplans
      exact (conforms_of_decodePlanned (suits_of_planFrom hplans) h).length_eq

end Catalog

namespace Command

variable {host : Host} {tree : FileTree} {call : DecodeCall} {document : Document} {contract : Contract}
  {endpoint : Endpoint} {slots : List Bytes} {values : List Value}

/-- Everything goes well that a run does before it prints several named outputs. -/
structure ReadsOutputs (host : Host) (tree : FileTree) (call : DecodeCall) (document : Document)
    (contract : Contract) (endpoint : Endpoint) (slots : List Bytes) (values : List Value) : Prop where
  starts : ∃ settings, Starts host tree (.decode call) settings
  loads : LoadsDocument host tree call.file (.ok document)
  analysed : Contract.ofDocument .skipFailed document = .ok contract
  accepted : endpoint ∈ contract.endpoints
  name : endpoint.name = call.endpoint
  readonly : endpoint.kind = .readonly
  named : endpoint.hasNamedOutputs = true
  given : slotBytes 0 call.slots = .ok slots
  decoded : contract.catalog.decodeOutputs call.endpoint endpoint.outputTypes slots = .ok values

namespace ReadsOutputs

theorem length_eq (h : ReadsOutputs host tree call document contract endpoint slots values) :
    endpoint.outputs.length = values.length := by
  rw [← Catalog.length_of_decodeOutputs h.decoded, Endpoint.outputTypes, List.length_map]

theorem readonlyEndpoint_eq (h : ReadsOutputs host tree call document contract endpoint slots values) :
    readonlyEndpoint contract call = .ok endpoint := by
  have hfind := find?_eq_some_of_nodup (Contract.nodup_names h.analysed) h.accepted
  rw [h.name] at hfind
  rw [readonlyEndpoint, hfind]
  exact if_pos h.readonly

theorem outputsJson_eq (h : ReadsOutputs host tree call document contract endpoint slots values) :
    outputsJson endpoint values = .object (NameMap.ofList (endpoint.namedValues values)).entries := by
  rw [outputsJson, if_pos h.named, NameMap.entries_ofList_eq_foldl, Endpoint.namedValues, List.foldl_map]

theorem onTree_perform (h : ReadsOutputs host tree call document contract endpoint slots values) :
    onTree (perform host (.decode call)) tree =
      (.ok (outputsText (.object (NameMap.ofList (endpoint.namedValues values)).entries) call.pretty),
        tree) := by
  obtain ⟨settings, hstart⟩ := h.starts
  have hdecode : decodeSlots contract call = .ok (outputsJson endpoint values) := by
    rw [decodeSlots, h.readonlyEndpoint_eq]
    dsimp only [bind, Except.bind]
    rw [h.given]
    dsimp only
    rw [h.decoded]
    rfl
  rw [hstart.onTree_perform]
  refine (onTree_bind_of_ok (onTree_loadDocument h.loads) _).trans ?_
  rw [resolveContract, h.analysed]
  refine (onTree_bind_of_ok (onTree_liftExcept _ _) _).trans ?_
  rw [hdecode]
  refine (onTree_bind_of_ok (onTree_liftExcept _ _) _).trans ?_
  rw [h.outputsJson_eq]
  rfl

end ReadsOutputs

/-- A run that decodes several named outputs changes no file and prints one object. Of outputs with one
name it shows the last; it shows all outputs with their values, in their order, exactly if the names in
the document differ in more than the blanks around them. -/
theorem outputs_are_printed_iff_names_differ {words : List String}
    (hwords : Request.ofWords words = .run (.decode call))
    (hreads : ReadsOutputs host tree call document contract endpoint slots values) :
    ∃ decl ∈ document.endpoints, endpoint.StandsFor decl ∧
      endpoint.outputs.length = values.length ∧
      ∃ members, (run words host : StateM FileTree Report).run tree =
          (.success (outputsText (.object members) call.pretty), tree) ∧
        KeepsLast (endpoint.namedValues values) members ∧
        (members = endpoint.namedValues values ↔
          (decl.outputs.map fun output => String.ofList (Text.trim output.name.toList)).Nodup) := by
  obtain ⟨decl, hdecl, hstands⟩ := Contract.exists_declaration hreads.analysed hreads.accepted
  have hkeeps := NameMap.keepsLast_ofList (endpoint.namedValues values)
  refine ⟨decl, hdecl, hstands, hreads.length_eq, _, ?_, hkeeps, ?_⟩
  · exact run_of_ok hwords hreads.onTree_perform
  · rw [hkeeps.all, Endpoint.map_fst_namedValues hreads.length_eq, hstands.map_name hreads.named]

/-- Two endpoints with several named outputs; two of the first one have one name. -/
def balances : Document where
  buildInfo := ⟨none, ⟨"multiversx-sc", "0.43.3"⟩⟩
  docs := []
  name := "Balances"
  constructor := none
  endpoints := [
    { EndpointDecl.query "getBalance" "u8" with
      outputs := [⟨"amount", "u8", false⟩, ⟨"fee", "u8", false⟩, ⟨" amount ", "u16", false⟩] },
    .range "getRange"]
  events := []
  hasCallbacks := false
  types := ∅

def getBalance : Endpoint :=
  (balances.endpoints.getD 0 (.range "")).toEndpoint .readonly []
    [.primitive .u8, .primitive .u8, .primitive .u16] [⟨.scalar, 0⟩, ⟨.scalar, 1⟩, ⟨.scalar, 2⟩]

def getRange : Endpoint :=
  (EndpointDecl.range "getRange").toEndpoint .readonly [] [.primitive .u8, .primitive .u8]
    [⟨.scalar, 0⟩, ⟨.scalar, 1⟩]

def balancesTree : FileTree :=
  (FileTree.ofDirectory ["work"]).putFile ["work", "a.json"] balances.json.compact

def balancesCall (endpoint : Endpoint) (slots : List String) : DecodeCall :=
  ⟨"a.json", endpoint.name, slots, false, false⟩

theorem reads_balances {endpoint : Endpoint} (hendpoint : endpoint ∈ [getBalance, getRange])
    {given : List String} {slots : List Bytes} {values : List Value}
    (hgiven : slotBytes 0 given = .ok slots)
    (hdecoded : (⟨∅, ∅, ∅⟩ : Catalog).decodeOutputs endpoint.name endpoint.outputTypes slots = .ok values) :
    ∃ contract, ReadsOutputs .standard balancesTree (balancesCall endpoint given) balances contract
      endpoint slots values := by
  have hwritable : balances.IsWritable := by
    refine ⟨?_, fun _ hmem => absurd hmem List.not_mem_nil⟩
    simp [balances, EndpointDecl.IsWritable, EndpointDecl.query, EndpointDecl.range,
      (by decide : Mutability.ofWord Mutability.readonly.word = .readonly)]
  have htext : balancesTree.read "a.json" = .ok balances.json.compact := by rfl
  have hparse : Document.parse .json balances.json.compact = .ok balances :=
    Document.parse_of_parse? hwritable (Json.parse?_compact (Document.isSound_json hwritable))
  have hload : LoadsDocument .standard balancesTree "a.json" (.ok balances) := .loaded htext hparse rfl
  have hfilter : Host.standard.hasFilter (Settings.standard.filterFor false) = true := by decide
  have habsent : ∀ path, ¬ SettingsFile balancesTree none path := by
    rintro path (_ | hread)
    cases hread
  obtain ⟨contract, hanalysed, hparts⟩ := of_map_eq_ok (by decide +kernel :
    (Contract.ofDocument .skipFailed balances).map (fun contract => (contract.catalog, contract.endpoints)) =
      .ok (⟨∅, ∅, ∅⟩, [getBalance, getRange]))
  obtain ⟨hcatalog, hendpoints⟩ := Prod.mk.inj hparts
  have hreadonly : endpoint.kind = .readonly ∧ endpoint.hasNamedOutputs = true := by
    simp only [List.mem_cons, List.not_mem_nil, or_false] at hendpoint
    rcases hendpoint with rfl | rfl <;> decide
  exact ⟨contract, {
    starts := ⟨.standard, .absent habsent, hfilter⟩
    loads := hload
    analysed := hanalysed
    accepted := hendpoints ▸ hendpoint
    name := rfl
    readonly := hreadonly.1
    named := hreadonly.2
    given := hgiven
    decoded := hcatalog ▸ hdecoded }⟩

/-- The first amount of a balance is lost, and the ends of a range are both printed. -/
theorem balance_loses_its_first_amount :
    (∃ members, (run ["decode", "-f", "a.json", "-e", "getBalance", "--slot", "01", "--slot", "02",
          "--slot", "0300"] : StateM FileTree Report).run balancesTree =
        (.success (outputsText (.object members) false), balancesTree) ∧
      members.map (·.1) = ["amount", "fee"] ∧
      members.lookup "amount" = some (Value.scalar (.unsigned 768)).json) ∧
    (run ["decode", "-f", "a.json", "-e", "getRange", "--slot", "04", "--slot", "05"] :
        StateM FileTree Report).run balancesTree =
      (.success (outputsText (.object [("low", (Value.scalar (.unsigned 4)).json),
        ("high", (Value.scalar (.unsigned 5)).json)]) false), balancesTree) := by
  constructor
  · obtain ⟨contract, hreads⟩ := @reads_balances getBalance (by decide) ["01", "02", "0300"]
      [[1], [2], [3, 0]] [.scalar (.unsigned 1), .scalar (.unsigned 2), .scalar (.unsigned 768)]
      (by decide +kernel) (by with_unfolding_all rfl)
    have hwords : Request.ofWords ["decode", "-f", "a.json", "-e", "getBalance", "--slot", "01", "--slot",
        "02", "--slot", "0300"] = .run (.decode (balancesCall getBalance ["01", "02", "0300"])) := by
      decide
    obtain ⟨_, -, -, -, members, hrun, hkeeps, -⟩ :=
      outputs_are_printed_iff_names_differ hwords hreads
    refine ⟨members, hrun, hkeeps.names.trans (by decide), ?_⟩
    exact hkeeps.values [_, _] (_, _) [] rfl fun _ hlater => absurd hlater List.not_mem_nil
  · obtain ⟨contract, hreads⟩ := @reads_balances getRange (by decide) ["04", "05"]
      [[4], [5]] [.scalar (.unsigned 4), .scalar (.unsigned 5)]
      (by decide +kernel) (by with_unfolding_all rfl)
    have hwords : Request.ofWords ["decode", "-f", "a.json", "-e", "getRange", "--slot", "04", "--slot",
        "05"] = .run (.decode (balancesCall getRange ["04", "05"])) := by
      decide
    obtain ⟨_, -, -, -, members, hrun, hkeeps, -⟩ :=
      outputs_are_printed_iff_names_differ hwords hreads
    obtain rfl := hkeeps.all.2 (by decide)
    exact hrun

end Command
end ContractAbi
