import ContractAbi.Proofs.DecoderFiles
import ContractAbi.Proofs.EndpointPolicy
import ContractAbi.Proofs.FirstUse

/-!
# Names of generated items

The declarations of a generated file are its public lines at the margin. Output structures take
names that are free, composites avoid the named types, and the client gives way to both. What they
leave to the document is whether the identifiers of its types differ, and whether one of them or
the client is called like an alias or like the name that the client falls back to.
-/
namespace ContractAbi

open Code

/-- A line at the margin that declares something public. -/
def Code.isPublic (line : String) : Bool :=
  "pub ".toList.isPrefixOf line.toList

def TypeItem.head : TypeItem → String
  | .record item => "pub struct " ++ item.name ++ " \x7b"
  | .enum item => "pub enum " ++ item.name ++ " \x7b"

/-- The declarations of a file: each has a name, and a line in which it is declared. -/
def SourceFile.declarations (file : SourceFile) : List (String × String) :=
  file.aliases.map (fun kind => (kind.typeText, aliasLine kind)) ++
    file.types.map (fun item => (item.name, item.head)) ++
    file.outputs.map (fun item => (item.name, "pub struct " ++ item.name ++ " \x7b")) ++
    [(file.client.name, "pub struct " ++ file.client.name ++ "<T> \x7b")]

/-- The names of the declarations of a file, in order. -/
def SourceFile.declaredNames (file : SourceFile) : List String :=
  file.declarations.map (·.1)

def Document.typeIdentifiers (document : Document) : List String :=
  document.types.names.map Identifier.type

/-- The names of the structures that hold the outputs of endpoints. -/
def outputNames (endpoints : List Endpoint) : List String :=
  (endpoints.filterMap Contract.outputItem?).map (·.name)

/-- What the names of a file need from the document: its types have different identifiers, and
neither one of them nor the client has a name that is taken before it. -/
structure Contract.NamesApart (contract : Contract) (document : Document) : Prop where
  types : document.typeIdentifiers.Nodup
  aliases : ∀ kind ∈ contract.aliases, kind.typeText ∉ document.typeIdentifiers
  client_alias : contract.accessorName ∉ contract.aliases.map Primitive.typeText
  client_type : contract.accessorName ∉ document.typeIdentifiers

namespace Code

theorem isPublic_append {front : String} (h : isPublic front = true) (back : String) :
    isPublic (front ++ back) = true := by
  rw [isPublic, List.isPrefixOf_iff_prefix] at h ⊢
  rw [String.toList_append]
  exact h.trans (List.prefix_append _ _)

theorem isPublic_of_head {front : String} (h : front.toList.head?.any (· ≠ 'p') = true)
    (back : String) : isPublic (front ++ back) = false := by
  rw [isPublic, String.toList_append]
  cases hfront : front.toList with
  | nil =>
    rw [hfront] at h
    cases h
  | cons c rest =>
    rw [hfront] at h
    have hc : ('p' == c) = false := beq_eq_false_iff_ne.2 (Ne.symm (of_decide_eq_true h))
    change ('p' == c && _) = false
    rw [hc, Bool.false_and]

theorem filter_nest (lines : Lines) : (nest lines).filter isPublic = [] := by
  refine List.filter_eq_nil_iff.2 fun line hline => ?_
  obtain ⟨inner, -, rfl⟩ := List.mem_map.1 hline
  rw [nestLine, Bool.not_eq_true]
  split
  · rename_i hempty
    obtain rfl := String.isEmpty_iff.1 hempty
    rfl
  · exact isPublic_of_head rfl inner

/-- A block is public by its head. -/
theorem filter_braces (head : String) (body : Lines) :
    (braces head body).filter isPublic = [head ++ " \x7b"].filter isPublic := by
  have hclose : ["\x7d"].filter isPublic = [] := rfl
  rw [braces, block, List.filter_append, List.filter_append, filter_nest, hclose, List.append_nil,
    List.append_nil]

theorem filter_braces_public {front : String} (h : isPublic front = true) (back : String)
    (body : Lines) : (braces (front ++ back) body).filter isPublic = [front ++ back ++ " \x7b"] := by
  rw [filter_braces, List.filter_cons_of_pos (isPublic_append (isPublic_append h back) _),
    List.filter_nil]

theorem filter_braces_private {front : String} (h : front.toList.head?.any (· ≠ 'p') = true)
    (back : String) (body : Lines) : (braces (front ++ back) body).filter isPublic = [] := by
  rw [filter_braces, String.append_assoc, List.filter_cons_of_neg (by simp [isPublic_of_head h]),
    List.filter_nil]

end Code

theorem filter_docLines (docs : List String) : (docLines docs).filter isPublic = [] := by
  refine List.filter_eq_nil_iff.2 fun line hline => ?_
  obtain ⟨entry, -, rfl⟩ := List.mem_map.1 hline
  rw [docLine, Bool.not_eq_true]
  split
  · rfl
  · exact isPublic_of_head rfl _

theorem RecordItem.filter_lines (item : RecordItem) :
    item.lines.filter isPublic = ["pub struct " ++ item.name ++ " \x7b"] := by
  have hstruct : item.structLines.filter isPublic = ["pub struct " ++ item.name ++ " \x7b"] :=
    filter_braces_public rfl item.name _
  have hdecoder : item.decoderLines.filter isPublic = [] := filter_braces_private rfl item.name _
  have hzero : item.zeroLines.filter isPublic = [] := filter_braces_private rfl item.name _
  have hblank : [""].filter isPublic = [] := rfl
  rw [lines]
  split <;>
    simp only [List.filter_append, filter_docLines, hstruct, hdecoder, hzero, hblank,
      List.nil_append, List.append_nil]

theorem EnumItem.filter_lines (item : EnumItem) :
    item.lines.filter isPublic = ["pub enum " ++ item.name ++ " \x7b"] := by
  have henum : item.declarationLines.filter isPublic = ["pub enum " ++ item.name ++ " \x7b"] :=
    filter_braces_public rfl item.name _
  have hdecoder : item.decoderLines.filter isPublic = [] := filter_braces_private rfl item.name _
  have hzero : item.zeroLines.filter isPublic = [] := filter_braces_private rfl item.name _
  have hargument : item.argumentLines.filter isPublic = [] := filter_braces_private rfl item.name _
  have hblank : [""].filter isPublic = [] := rfl
  simp only [lines, List.filter_append, filter_docLines, henum, hdecoder, hzero, hargument, hblank,
    List.nil_append, List.append_nil]

theorem TypeItem.filter_lines (item : TypeItem) : item.lines.filter isPublic = [item.head] := by
  cases item with
  | record item => exact item.filter_lines
  | enum item => exact item.filter_lines

theorem OutputItem.filter_lines (item : OutputItem) :
    item.lines.filter isPublic = ["pub struct " ++ item.name ++ " \x7b"] :=
  filter_braces_public rfl item.name _

theorem ClientItem.filter_structLines (client : ClientItem) :
    client.structLines.filter isPublic = ["pub struct " ++ client.name ++ "<T> \x7b"] := by
  have hnote : ["/// Client for the \x60" ++ client.contract ++ "\x60 contract."].filter isPublic =
      [] := by
    rw [String.append_assoc, List.filter_cons_of_neg (by simp [isPublic_of_head]), List.filter_nil]
  have hstruct (body : Lines) : (braces ("pub struct " ++ client.name ++ "<T>") body).filter isPublic =
      ["pub struct " ++ client.name ++ "<T> \x7b"] := by
    rw [filter_braces_public (isPublic_append rfl client.name), String.append_assoc]
    rfl
  rw [structLines, List.filter_append, List.filter_append, filter_docLines, hnote, hstruct]
  rfl

theorem ClientItem.filter_lines (client : ClientItem) :
    client.lines.filter isPublic = ["pub struct " ++ client.name ++ "<T> \x7b"] := by
  have himpl (body : Lines) :
      (braces ("impl<T: NetworkTransport> " ++ client.name ++ "<T>") body).filter isPublic = [] := by
    rw [String.append_assoc]
    exact filter_braces_private rfl _ body
  have hblank : [""].filter isPublic = [] := rfl
  rw [lines, List.filter_append, List.filter_append, filter_structLines, hblank, himpl,
    List.append_nil, List.append_nil]

theorem SourceFile.filter_headerLines (file : SourceFile) :
    file.headerLines.filter isPublic = [] := by
  refine List.filter_eq_nil_iff.2 fun line hline => ?_
  rw [Bool.not_eq_true]
  simp only [headerLines, String.append_assoc, List.mem_cons, List.not_mem_nil, or_false] at hline
  rcases hline with rfl | rfl | rfl | rfl | rfl | rfl | rfl
  · exact isPublic_of_head rfl _
  · rfl
  · exact isPublic_of_head rfl _
  · rfl
  · rfl
  · exact isPublic_of_head rfl _
  · exact isPublic_of_head rfl _

theorem SourceFile.filter_aliasLines (file : SourceFile) :
    file.aliasLines.filter isPublic = file.aliases.map ContractAbi.aliasLine := by
  have hlines : (file.aliases.map ContractAbi.aliasLine).filter isPublic =
      file.aliases.map ContractAbi.aliasLine := by
    refine List.filter_eq_self.2 fun line hline => ?_
    obtain ⟨kind, -, rfl⟩ := List.mem_map.1 hline
    exact isPublic_append (isPublic_append (isPublic_append (isPublic_append rfl _) _) _) _
  rw [SourceFile.aliasLines]
  split
  · rename_i hempty
    rw [List.isEmpty_iff.1 hempty]
    rfl
  · exact hlines

/-- The lines of items with a blank line before each. -/
theorem filter_items {α : Type} {lines : α → Lines} {head : α → String}
    (h : ∀ item, (lines item).filter isPublic = [head item]) (items : List α) :
    (items.flatMap fun item => "" :: lines item).filter isPublic = items.map head := by
  induction items with
  | nil => rfl
  | cons item rest ih =>
    rw [List.flatMap_cons, List.filter_append, ih, List.filter_cons_of_neg (by decide), h, List.map_cons,
      List.singleton_append]

/-- The public lines of a file declare its items, in order. -/
theorem SourceFile.filter_lines (file : SourceFile) :
    file.lines.filter isPublic = file.declarations.map (·.2) := by
  have hclient : ("" :: file.client.lines).filter isPublic =
      ["pub struct " ++ file.client.name ++ "<T> \x7b"] := file.client.filter_lines
  simp only [lines, declarations, List.filter_append, filter_headerLines, filter_aliasLines,
    filter_items TypeItem.filter_lines, filter_items OutputItem.filter_lines, hclient, List.map_append,
    List.map_map, Function.comp_def, List.map_cons, List.map_nil, List.nil_append]

/-- The name of a composite ends with a digit. -/
theorem compositeName_ne_append (index : Nat) (front back : String) {last : Char}
    (hlast : back.toList.getLast? = some last) (hdigit : last.isDigit = false) :
    Registry.compositeName index ≠ front ++ back := by
  intro heq
  obtain ⟨digit, hend⟩ : ∃ digit, (toString index).toList.getLast? = some digit :=
    ⟨_, List.getLast?_eq_some_getLast (Text.toList_toString_ne_nil index)⟩
  have hends := congrArg (fun name : String => name.toList.getLast?) heq
  simp only [Registry.compositeName, String.toList_append, List.getLast?_append, hlast, hend] at hends
  obtain rfl := Option.some.inj hends
  rw [Text.isDigit_of_mem_toString (List.mem_of_getLast? hend)] at hdigit
  cases hdigit

theorem typeText_ending {kind : Primitive} (halias : kind.isAlias = true) :
    ∃ last, kind.typeText.toList.getLast? = some last ∧ last.isDigit = false ∧ last ≠ 't' := by
  cases kind with
  | address => exact ⟨'s', rfl, rfl, by decide⟩
  | tokenIdentifier => exact ⟨'r', rfl, rfl, by decide⟩
  | egldOrEsdtTokenIdentifier => exact ⟨'r', rfl, rfl, by decide⟩
  | _ => cases halias

theorem typeText_ne_composite {kind : Primitive} (halias : kind.isAlias = true) (index : Nat) :
    kind.typeText ≠ Registry.compositeName index := by
  intro heq
  obtain ⟨last, hlast, hdigit, -⟩ := typeText_ending halias
  exact compositeName_ne_append index "" kind.typeText hlast hdigit
    (heq.symm.trans String.empty_append.symm)

/-- No alias ends like the structure of an endpoint's outputs. -/
theorem typeText_ne_output {kind : Primitive} (halias : kind.isAlias = true) (front : String) :
    kind.typeText ≠ front ++ "Output" := by
  intro heq
  obtain ⟨last, hlast, -, hne⟩ := typeText_ending halias
  rw [heq, String.toList_append, List.getLast?_append] at hlast
  exact hne (Option.some.inj hlast).symm

theorem client_ne_output (front other : String) : front ++ "Client" ≠ other ++ "Output" := by
  intro heq
  have hlists := congrArg String.toList heq
  rw [String.toList_append, String.toList_append] at hlists
  have hlength : "Client".toList.length = "Output".toList.length := by decide +kernel
  exact absurd (List.append_inj_right' hlists hlength) (by decide +kernel)

theorem typeText_injective {kind other : Primitive} (h : kind.typeText = other.typeText) :
    kind = other := by
  cases kind <;> cases other <;> first | rfl | exact absurd h (by decide)

theorem outputNames_append (front back : List Endpoint) :
    outputNames (front ++ back) = outputNames front ++ outputNames back := by
  rw [outputNames, List.filterMap_append, List.map_append, outputNames, outputNames]

namespace ItemNames

variable {items middle after : ItemNames}

/-- The names were free, and they are taken now. -/
structure Takes (items : ItemNames) (names : List String) (after : ItemNames) : Prop where
  taken : ∀ name, name ∈ after.types.names ↔ name ∈ items.types.names ∨ name ∈ names
  distinct : names.Nodup
  free : ∀ name ∈ names, name ∉ items.types.names

theorem Takes.refl (items : ItemNames) : items.Takes [] items :=
  ⟨fun _ => by simp, .nil, fun _ h => absurd h List.not_mem_nil⟩

theorem Takes.append {names others : List String} (h : items.Takes names middle)
    (hrest : middle.Takes others after) : items.Takes (names ++ others) after where
  taken name := by rw [hrest.taken, h.taken, List.mem_append, or_assoc]
  distinct := by
    refine List.nodup_append.2 ⟨h.distinct, hrest.distinct, ?_⟩
    rintro name hname other hother rfl
    exact hrest.free name hother ((h.taken name).2 (.inr hname))
  free name hname := by
    rcases List.mem_append.1 hname with hname | hname
    · exact h.free name hname
    · exact fun hmem => hrest.free name hname ((h.taken name).2 (.inl hmem))

theorem takes_claimOutputStruct {endpoint : Endpoint}
    (h : items.claimOutputStruct endpoint = .ok after) :
    items.Takes (outputNames [endpoint]) after := by
  rw [claimOutputStruct] at h
  cases hstruct : endpoint.outputStruct? with
  | none =>
    rw [hstruct] at h
    obtain rfl := Except.ok.inj h
    have hnone : outputNames [endpoint] = [] := by
      simp [outputNames, Contract.outputItem?, hstruct]
    exact hnone ▸ .refl items
  | some fields =>
    have hone : outputNames [endpoint] = [endpoint.outputStructName] := by
      simp [outputNames, Contract.outputItem?, hstruct, OutputItem.ofFields]
    simp only [hstruct] at h
    cases hget : items.types.get? endpoint.outputStructName with
    | some owner =>
      rw [hget] at h
      cases h
    | none =>
      rw [hget] at h
      obtain rfl := Except.ok.inj h
      rw [hone]
      refine ⟨fun name => ?_, List.nodup_singleton _, fun name hname => ?_⟩
      · rw [List.mem_singleton, or_comm]
        exact mem_names_putEntry
      · obtain rfl := List.mem_singleton.1 hname
        exact NameMap.get?_eq_none_iff.1 hget

theorem takes_claim {endpoint : Endpoint} (h : items.claim endpoint = .ok after) :
    items.Takes (outputNames [endpoint]) after := by
  rw [claim] at h
  split at h
  · cases h
  · obtain ⟨others, hothers, h⟩ := of_bind_eq_ok h
    obtain rfl := Except.ok.inj h
    have htakes := takes_claimOutputStruct hothers
    exact ⟨htakes.taken, htakes.distinct, htakes.free⟩

/-- At first the identifiers of the named types are taken. -/
theorem mem_ofDocument {document : Document} {name : String} :
    name ∈ (ofDocument document).types.names ↔ name ∈ document.typeIdentifiers := by
  have hfold (entries : List (String × String)) (m : NameMap String) :
      name ∈ (entries.foldl (fun m entry => m.put entry.1 entry.2) m).names ↔
        name ∈ m.names ∨ name ∈ entries.map (·.1) := by
    induction entries generalizing m with
    | nil => simp
    | cons entry rest ih =>
      have hput : name ∈ (m.put entry.1 entry.2).names ↔ name = entry.1 ∨ name ∈ m.names :=
        mem_names_putEntry
      rw [List.foldl_cons, ih, hput, List.map_cons, List.mem_cons, or_assoc, or_left_comm]
  have hnames : (document.types.names.map fun name => (Identifier.type name, name)).map (·.1) =
      document.typeIdentifiers := by
    rw [List.map_map]
    rfl
  rw [ofDocument, NameMap.ofList, hfold, hnames]
  exact or_iff_right List.not_mem_nil

end ItemNames

namespace EndpointProgress

variable {types : NameMap TypeDefinition} {policy : EndpointPolicy} {initial : ItemNames}
  {progress after : EndpointProgress}

/-- The endpoints that were taken have taken the names of their structures, and nothing else has
taken a name. -/
def TakesNames (initial : ItemNames) (progress : EndpointProgress) : Prop :=
  initial.Takes (outputNames progress.endpoints) progress.items

theorem TakesNames.step (h : progress.TakesNames initial) {decl : EndpointDecl}
    (hstep : EndpointProgress.step types policy progress decl = .ok after) :
    after.TakesNames initial := by
  cases steps_of_eq_ok hstep with
  | accepted _ hclaim =>
    rw [TakesNames, accept, outputNames_append]
    exact h.append (ItemNames.takes_claim hclaim)
  | skipped | unresolved | refused => exact h

theorem TakesNames.foldlM (h : progress.TakesNames initial) {decls : List EndpointDecl}
    (hrun : decls.foldlM (EndpointProgress.step types policy) progress = .ok after) :
    after.TakesNames initial :=
  keeps_foldlM (fun _ _ _ h hstep => h.step hstep) h hrun

end EndpointProgress

namespace Contract

variable {document : Document} {policy : EndpointPolicy} {contract : Contract}
  {options : GenerationOptions} {file : SourceFile}

/-- What holds of the names of a contract whatever the document is. -/
structure ClaimsNames (contract : Contract) (document : Document) : Prop where
  aliases : contract.aliases.Nodup ∧ ∀ kind ∈ contract.aliases, kind.isAlias = true
  outputs : (outputNames contract.endpoints).Nodup
  outputs_free : ∀ name ∈ outputNames contract.endpoints, name ∉ document.typeIdentifiers
  /-- The client has a free name, or one that it falls back to. -/
  client : (contract.accessorName ∉ outputNames contract.endpoints ∧
      contract.accessorName ∉ contract.catalog.composites.names) ∨
    ∃ front, contract.accessorName = front ++ "Client"

theorem claimsNames (h : ofDocument policy document = .ok contract) :
    contract.ClaimsNames document := by
  obtain ⟨session, progress, hdeclared, hrun, rfl⟩ := exists_run h
  obtain ⟨houtlines, huses⟩ := Session.adds_declareNamedTypes rfl hdeclared
  have hbegin : (EndpointProgress.start session.context
      (ItemNames.ofDocument document)).UsesTaken session.context := Context.Uses.refl _
  have hdeclares : (ofProgress document session progress).DeclaresUses document :=
    declaresUses_of_uses houtlines rfl rfl rfl (Context.Uses.append huses (hbegin.foldlM hrun))
  have haliases := hdeclares.aliases
  have hstart : (EndpointProgress.start session.context (ItemNames.ofDocument document)).TakesNames
      (ItemNames.ofDocument document) := ItemNames.Takes.refl _
  have htakes := hstart.foldlM hrun
  refine ⟨⟨?_, fun kind hkind => ?_⟩, htakes.distinct, fun name hname hmem => ?_, ?_⟩
  · rw [haliases]
    exact nodup_eraseDups _
  · rw [haliases, List.mem_eraseDups] at hkind
    exact (List.mem_filter.1 hkind).2
  · exact htakes.free name hname (ItemNames.mem_ofDocument.2 hmem)
  · simp only [ofProgress, clientName]
    split
    · exact .inr ⟨_, rfl⟩
    · rename_i hfree
      rw [Bool.or_eq_true, not_or, NameMap.contains_iff, NameMap.contains_iff] at hfree
      exact .inl ⟨fun hmem => hfree.1 ((htakes.taken _).2 (.inr hmem)), hfree.2⟩

theorem names_of_sourceFile (h : contract.sourceFile options = .ok file) :
    file.aliases = contract.aliases ∧
      file.outputs.map (·.name) = outputNames contract.endpoints ∧
      file.client.name = contract.accessorName := by
  rw [sourceFile] at h
  obtain ⟨named, -, h⟩ := of_bind_eq_ok h
  obtain ⟨composites, -, h⟩ := of_bind_eq_ok h
  obtain ⟨methods, -, h⟩ := of_bind_eq_ok h
  obtain rfl := Except.ok.inj h
  exact ⟨rfl, rfl, rfl⟩

theorem output_ending {endpoints : List Endpoint} {name : String} (h : name ∈ outputNames endpoints) :
    ∃ front, name = front ++ "Output" := by
  obtain ⟨item, hitem, rfl⟩ := List.mem_map.1 h
  obtain ⟨endpoint, -, hmade⟩ := List.mem_filterMap.1 hitem
  obtain ⟨fields, -, rfl⟩ := Option.map_eq_some_iff.1 hmade
  exact ⟨_, rfl⟩

namespace Models

variable {session : Session}

theorem name_of_ofFields {catalog : Catalog} {name : String} {fields : List Field}
    {docs : List String} {item : RecordItem}
    (h : RecordItem.ofFields catalog name fields docs = .ok item) : item.name = Identifier.type name := by
  rw [RecordItem.ofFields] at h
  obtain ⟨items, -, h⟩ := of_bind_eq_ok h
  obtain rfl := Except.ok.inj h
  rfl

/-- Every named type of the document is declared, under its identifier. -/
theorem typeItem?_named (h : contract.Models document session) {name : String}
    (hname : name ∈ document.types.names) {docs : List String} {result : Option TypeItem}
    (hmade : contract.typeItem? options name docs = .ok result) :
    ∃ item, result = some item ∧ item.name = Identifier.type name := by
  rw [typeItem?] at hmade
  split at hmade
  · obtain ⟨item, hitem, hmade⟩ := of_bind_eq_ok hmade
    obtain rfl := Except.ok.inj hmade
    exact ⟨_, rfl, name_of_ofFields hitem⟩
  · rename_i hrecords
    split at hmade
    · obtain ⟨item, hitem, hmade⟩ := of_bind_eq_ok hmade
      obtain rfl := Except.ok.inj hmade
      refine ⟨_, rfl, ?_⟩
      rw [EnumItem.ofVariants] at hitem
      split at hitem
      · cases hitem
      · obtain rfl := Except.ok.inj hitem
        rfl
    · rename_i henums
      obtain ⟨⟨other, definition⟩, hentry, rfl⟩ := List.mem_map.1 hname
      have hdeclares := h.declares other definition (NameMap.get?_eq_some_iff.2 hentry)
      rw [h.catalog] at hrecords henums
      cases definition with
      | record _ _ => exact absurd hdeclares (NameMap.get?_eq_none_iff.1 hrecords)
      | enum _ _ => exact absurd hdeclares (NameMap.get?_eq_none_iff.1 henums)

theorem names_of_types (h : contract.Models document session)
    (hfile : contract.sourceFile options = .ok file) :
    file.types.map (·.name) = document.typeIdentifiers ++ contract.catalog.composites.names := by
  obtain ⟨named, composites, hnamed, hcomposites, -, htypes⟩ := exists_parts hfile
  have hentries : contract.typeDocs.names = document.types.names := by
    rw [h.typeDocs, NameMap.names, NameMap.mapValues, List.map_map]
    rfl
  have hresults : named.map (Option.map TypeItem.name) =
      contract.typeDocs.entries.map fun entry => some (Identifier.type entry.1) := by
    refine map_eq_of_forall₂ (forall₂_of_mapM hnamed) fun entry hentry result hmade => ?_
    have hname : entry.1 ∈ document.types.names := hentries ▸ NameMap.mem_names_of_mem hentry
    obtain ⟨item, rfl, hitem⟩ := h.typeItem?_named hname hmade
    exact congrArg some hitem
  have hfirst : (named.filterMap id).map (·.name) = document.typeIdentifiers := by
    have hsame := congrArg (List.filterMap id) hresults
    rw [List.filterMap_map, List.filterMap_map] at hsame
    rw [List.map_filterMap, Document.typeIdentifiers, ← hentries, NameMap.names, List.map_map]
    exact hsame.trans (congrFun List.filterMap_eq_map _)
  have hsecond : composites.map (·.name) = contract.catalog.composites.names := by
    refine map_eq_of_forall₂ (forall₂_of_mapM hcomposites) fun entry hentry item hmade => ?_
    rw [compositeItem] at hmade
    obtain ⟨recordItem, hitem, hmade⟩ := of_bind_eq_ok hmade
    obtain rfl := Except.ok.inj hmade
    exact (name_of_ofFields hitem).trans
      (h.composite_identifier (NameMap.mem_names_of_mem hentry)).1
  rw [htypes, List.map_append, hfirst, hsecond]

/-- The names of a file are those of its aliases, its named types, its composites, the structures of
its outputs and its client. -/
theorem declaredNames_eq (h : contract.Models document session)
    (hfile : contract.sourceFile options = .ok file) :
    file.declaredNames = contract.aliases.map Primitive.typeText ++
      (document.typeIdentifiers ++ contract.catalog.composites.names) ++
      outputNames contract.endpoints ++ [contract.accessorName] := by
  obtain ⟨haliases, houtputs, hclient⟩ := names_of_sourceFile hfile
  rw [← h.names_of_types hfile, ← houtputs, ← haliases, ← hclient]
  simp only [SourceFile.declaredNames, SourceFile.declarations, List.map_append, List.map_map,
    Function.comp_def, List.map_cons, List.map_nil]

theorem exists_compositeName (h : contract.Models document session) {name : String}
    (hname : name ∈ contract.catalog.composites.names) :
    ∃ index, name = Registry.compositeName index :=
  h.context.registry.named name (by rwa [h.catalog] at hname)

theorem composites_disjoint_outputs (h : contract.Models document session) :
    contract.catalog.composites.names.Disjoint (outputNames contract.endpoints) := by
  intro name hcomposite houtput
  obtain ⟨index, rfl⟩ := h.exists_compositeName hcomposite
  obtain ⟨front, heq⟩ := output_ending houtput
  exact compositeName_ne_append index front "Output" rfl rfl heq

end Models

namespace ClaimsNames

variable {session : Session}

theorem aliases_disjoint_composites (h : contract.ClaimsNames document)
    (hmodels : contract.Models document session) :
    (contract.aliases.map Primitive.typeText).Disjoint contract.catalog.composites.names := by
  intro name halias hcomposite
  obtain ⟨kind, hkind, rfl⟩ := List.mem_map.1 halias
  obtain ⟨index, heq⟩ := hmodels.exists_compositeName hcomposite
  exact typeText_ne_composite (h.aliases.2 kind hkind) index heq

theorem aliases_disjoint_outputs (h : contract.ClaimsNames document) :
    (contract.aliases.map Primitive.typeText).Disjoint (outputNames contract.endpoints) := by
  intro name halias houtput
  obtain ⟨kind, hkind, rfl⟩ := List.mem_map.1 halias
  obtain ⟨front, heq⟩ := output_ending houtput
  exact typeText_ne_output (h.aliases.2 kind hkind) front heq

/-- Also the name that the client falls back to is that of no structure. -/
theorem client_free (h : contract.ClaimsNames document) (hmodels : contract.Models document session) :
    contract.accessorName ∉ outputNames contract.endpoints ∧
      contract.accessorName ∉ contract.catalog.composites.names := by
  rcases h.client with hfree | ⟨front, hclient⟩
  · exact hfree
  · refine ⟨fun houtput => ?_, fun hcomposite => ?_⟩
    · obtain ⟨other, heq⟩ := output_ending houtput
      exact client_ne_output front other (hclient.symm.trans heq)
    · obtain ⟨index, heq⟩ := hmodels.exists_compositeName hcomposite
      exact compositeName_ne_append index front "Client" rfl rfl (heq.symm.trans hclient)

/-- The names of a file differ just when the document keeps them apart: no other two can meet. -/
theorem nodup_iff (h : contract.ClaimsNames document)
    (hmodels : contract.Models document session) (hfile : contract.sourceFile options = .ok file) :
    file.declaredNames.Nodup ↔ contract.NamesApart document := by
  have haliases : (contract.aliases.map Primitive.typeText).Nodup :=
    h.aliases.1.map fun _ _ => typeText_injective
  have hcomposites : contract.catalog.composites.names.Nodup := contract.catalog.composites.distinct
  have htypeComposite : document.typeIdentifiers.Disjoint contract.catalog.composites.names :=
    fun name htype hcomposite => (hmodels.composite_identifier hcomposite).2 htype
  have htypeOutput : document.typeIdentifiers.Disjoint (outputNames contract.endpoints) :=
    fun name htype houtput => h.outputs_free name houtput htype
  rw [hmodels.declaredNames_eq hfile]
  simp only [List.nodup_append', List.disjoint_append_left, List.disjoint_append_right,
    List.disjoint_singleton, List.nodup_singleton, List.mem_append, not_or, haliases,
    hcomposites, h.outputs, h.aliases_disjoint_composites hmodels, h.aliases_disjoint_outputs,
    htypeComposite, htypeOutput, hmodels.composites_disjoint_outputs, h.client_free hmodels,
    true_and, and_true]
  constructor
  · rintro ⟨⟨htypes, hdisjoint⟩, ⟨hclientAlias, hclientType, -⟩, -⟩
    exact ⟨htypes, fun kind hkind => hdisjoint (List.mem_map_of_mem hkind), hclientAlias, hclientType⟩
  · intro hapart
    refine ⟨⟨hapart.types, fun name halias => ?_⟩,
      ⟨hapart.client_alias, hapart.client_type, not_false⟩, not_false⟩
    obtain ⟨kind, hkind, rfl⟩ := List.mem_map.1 halias
    exact hapart.aliases kind hkind

end ClaimsNames
end Contract

/-- The public lines of a generated file declare its items, and their names differ just when the
document keeps them apart. The names are those of the items of the file. A key or a documentation entry
with a line break in it may put further lines into the text, and what these declare is not counted. -/
theorem declared_names_differ_iff {document : Document} {policy : EndpointPolicy}
    {options : GenerationOptions} {conversion : Conversion}
    (h : document.convert policy options = .ok conversion) :
    ∃ file, conversion.contract.sourceFile options = .ok file ∧ conversion.source = file.text ∧
      file.lines.filter isPublic = file.declarations.map (·.2) ∧
      (file.declaredNames.Nodup ↔ conversion.contract.NamesApart document) := by
  rw [Document.convert] at h
  obtain ⟨contract, hcontract, h⟩ := of_bind_eq_ok h
  obtain ⟨file, hfile, h⟩ := of_bind_eq_ok h
  obtain rfl := Except.ok.inj h
  obtain ⟨session, hmodels⟩ := Contract.exists_models hcontract
  dsimp only
  exact ⟨file, hfile, rfl, file.filter_lines,
    (Contract.claimsNames hcontract).nodup_iff hmodels hfile⟩

/-- A contract that has an owner. -/
def owned (name : String) : Document where
  buildInfo := ⟨none, ⟨"multiversx-sc", "0.39.4"⟩⟩
  docs := []
  name
  constructor := none
  endpoints := [.query "getOwner" "Address"]
  events := []
  hasCallbacks := false
  types := ∅

/-- The client of a contract with the name of an alias has that name too. -/
theorem owned_declared_names :
    (∃ conversion file, (owned "Vault").convert .strict .standard = .ok conversion ∧
      conversion.contract.sourceFile .standard = .ok file ∧
      file.declaredNames = ["Address", "Vault"] ∧ conversion.contract.NamesApart (owned "Vault")) ∧
    ∃ conversion file, (owned "Address").convert .strict .standard = .ok conversion ∧
      conversion.contract.sourceFile .standard = .ok file ∧
      file.declaredNames = ["Address", "Address"] ∧
      ¬ conversion.contract.NamesApart (owned "Address") := by
  have hrun (name : String) (names : List String)
      (h : ((owned name).convert .strict .standard).map (fun conversion =>
        (conversion.contract.sourceFile .standard).map (·.declaredNames)) = .ok (.ok names)) :
      ∃ conversion file, (owned name).convert .strict .standard = .ok conversion ∧
        conversion.contract.sourceFile .standard = .ok file ∧ file.declaredNames = names ∧
        (file.declaredNames.Nodup ↔ conversion.contract.NamesApart (owned name)) := by
    obtain ⟨conversion, hconversion, hnames⟩ := of_map_eq_ok h
    obtain ⟨file, hfile, -, -, hiff⟩ := declared_names_differ_iff hconversion
    rw [hfile] at hnames
    exact ⟨conversion, file, hconversion, hfile, (Except.ok.inj hnames).symm, hiff⟩
  constructor
  · obtain ⟨conversion, file, hconversion, hfile, hnames, hiff⟩ :=
      hrun "Vault" ["Address", "Vault"] (by decide +kernel)
    exact ⟨conversion, file, hconversion, hfile, hnames, hiff.1 (hnames ▸ by decide)⟩
  · obtain ⟨conversion, file, hconversion, hfile, hnames, hiff⟩ :=
      hrun "Address" ["Address", "Address"] (by decide +kernel)
    exact ⟨conversion, file, hconversion, hfile, hnames,
      fun hapart => absurd (hnames ▸ hiff.2 hapart) (by decide)⟩

end ContractAbi
