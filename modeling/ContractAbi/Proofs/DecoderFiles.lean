import ContractAbi.Proofs.Contracts
import ContractAbi.Proofs.DecoderNames

/-!
# The decoders of a generated file

A generated file declares a decoder for every record and enum of the catalog and for every
composite with a byte layout, and it declares no others. With distinct identifiers in the document,
every declaration of the catalog has an identifier of its own.
-/
namespace ContractAbi

/-- No two types, no two fields of a record and no two variants of an enum share an identifier. -/
structure Document.DistinctIdentifiers (document : Document) : Prop where
  types : (document.types.names.map Identifier.type).Nodup
  fields : ∀ name docs fields, document.types.get? name = some (.record docs fields) →
    (fields.map (Identifier.field ·.name)).Nodup
  variants : ∀ name docs variants, document.types.get? name = some (.enum docs variants) →
    (variants.map (Identifier.type ·.name)).Nodup

/-- A registered composite has a generated name. -/
theorem Context.Sound.isWord_composite {context : Context} {types : NameMap TypeDefinition}
    (hs : context.Sound types) {name : String} {members : List ResolvedType}
    (hholds : context.registry.Holds ⟨name, members⟩) : DecoderText.IsWord name := by
  obtain ⟨index, hindex⟩ := hs.registry.named name (NameMap.mem_names_of_mem hholds)
  rw [hindex]
  exact Identifier.isWord_compositeName index

/-- An admitted type of which a value has a place inside other data. -/
structure Context.AdmitsNested (context : Context) (types : NameMap TypeDefinition)
    (type : ResolvedType) : Prop where
  admitted : context.Admits types type
  nested : checkNested type = .ok ()

namespace Context.AdmitsNested

variable {context : Context} {types : NameMap TypeDefinition} {members : List ResolvedType}
  {name : String}

theorem list {element : ResolvedType} (h : context.AdmitsNested types (.list element)) :
    context.AdmitsNested types element :=
  ⟨h.admitted.list, (checkNested_list_iff.1 h.nested).2⟩

theorem tuple (h : context.AdmitsNested types (.tuple name members)) :
    ∀ m ∈ members, context.AdmitsNested types m :=
  fun m hm => ⟨h.admitted.tuple m hm, checkNestedAll_iff.1 h.nested m hm⟩

/-- The reader of an admitted type can be read back from its text. -/
theorem plain {type : ResolvedType} (h : context.AdmitsNested types type)
    (hs : context.Sound types) : (NestedReader.ofType type).Plain := by
  induction type using ResolvedType.memberInduction with
  | primitive kind => exact trivial
  | record name => exact Identifier.isWord_type h.admitted.grounded.1
  | enum name => exact Identifier.isWord_type h.admitted.grounded.1
  | tuple name members _ =>
    have hholds := h.admitted.known _ (List.mem_append_right _ List.mem_cons_self)
    exact hs.isWord_composite hholds
  | list element ih => exact ih h.list
  | variadic element _ => cases h.nested
  | variadicMulti name members _ => cases h.nested
  | multi name members _ => cases h.nested

end Context.AdmitsNested

/-- The fields of a composite have admitted types. -/
theorem Context.Sound.admits_field {context : Context} {types : NameMap TypeDefinition}
    (hs : context.Sound types) {entry : String × List Field}
    (hentry : entry ∈ context.registry.entries.entries) {field : Field} (hfield : field ∈ entry.2) :
    context.Admits types field.type := by
  refine ⟨fun composite hcomposite => ?_, hs.grounded entry hentry field hfield⟩
  obtain ⟨i, hi⟩ := List.mem_iff_getElem?.1 hentry
  obtain ⟨j, -, hj⟩ := hs.registry.closed i entry hi field hfield composite hcomposite
  exact List.mem_of_getElem? hj

theorem names_of_resolveVariants {name : String} {seen : List UInt8} {decls : List VariantDecl}
    {variants : List Variant} (h : resolveVariants name seen decls = .ok variants) :
    variants.map (·.name) = decls.map (·.name) := by
  induction decls generalizing seen variants with
  | nil =>
    obtain rfl := Except.ok.inj h
    rfl
  | cons decl rest ih =>
    obtain ⟨others, -, hothers, rfl⟩ := resolveVariants_cons h
    rw [List.map_cons, List.map_cons, ih hothers]

theorem names_of_resolveEnum {name : String} {decls : List VariantDecl} {variants : List Variant}
    (h : resolveEnum name decls = .ok variants) : variants.map (·.name) = decls.map (·.name) := by
  rw [resolveEnum] at h
  split at h
  · cases h
  · exact names_of_resolveVariants h

namespace Contract.Models

variable {contract : Contract} {document : Document} {session : Session} {name : String}

/-- A record of the catalog is one of the document, with the same field names. -/
theorem record_of_document (h : contract.Models document session) {fields : List Field}
    (hget : contract.catalog.records.get? name = some fields) :
    ∃ docs decls, document.types.get? name = some (.record docs decls) ∧
      fields.map (·.name) = decls.map (·.name) := by
  rw [h.catalog] at hget
  obtain ⟨docs, decls, htype, hnames, -⟩ := h.represents.records name fields hget
  exact ⟨docs, decls, htype, hnames⟩

/-- An enum of the catalog is one of the document, with the same variant names. -/
theorem enum_of_document (h : contract.Models document session) {variants : List Variant}
    (hget : contract.catalog.enums.get? name = some variants) :
    ∃ docs decls, document.types.get? name = some (.enum docs decls) ∧
      variants.map (·.name) = decls.map (·.name) := by
  rw [h.catalog] at hget
  obtain ⟨docs, decls, htype, hresolve⟩ := h.represents.enums name variants hget
  exact ⟨docs, decls, htype, names_of_resolveEnum hresolve⟩

theorem exists_of_mem_records (h : contract.Models document session)
    (hname : name ∈ contract.catalog.records.names) :
    ∃ docs decls, document.types.get? name = some (.record docs decls) := by
  obtain ⟨⟨other, fields⟩, hentry, rfl⟩ := List.mem_map.1 hname
  obtain ⟨docs, decls, htype, -⟩ := h.record_of_document (NameMap.get?_eq_some_iff.2 hentry)
  exact ⟨docs, decls, htype⟩

theorem exists_of_mem_enums (h : contract.Models document session)
    (hname : name ∈ contract.catalog.enums.names) :
    ∃ docs decls, document.types.get? name = some (.enum docs decls) := by
  obtain ⟨⟨other, variants⟩, hentry, rfl⟩ := List.mem_map.1 hname
  obtain ⟨docs, decls, htype, -⟩ := h.enum_of_document (NameMap.get?_eq_some_iff.2 hentry)
  exact ⟨docs, decls, htype⟩

/-- The names of composites are identifiers that no named type has. -/
theorem composite_identifier (h : contract.Models document session)
    (hname : name ∈ contract.catalog.composites.names) :
    Identifier.type name = name ∧ name ∉ document.types.names.map Identifier.type := by
  have hregistry : name ∈ session.context.registry.entries.names := by
    rw [h.catalog] at hname
    exact hname
  obtain ⟨index, rfl⟩ := h.context.registry.named name hregistry
  refine ⟨Identifier.type_compositeName index, ?_⟩
  rw [← h.reserved]
  exact h.context.registry.unreserved _ hregistry

theorem mem_documentNames {definition : TypeDefinition}
    (hget : document.types.get? name = some definition) : name ∈ document.types.names :=
  NameMap.mem_names_of_mem (NameMap.get?_eq_some_iff.1 hget)

/-- No record has the name of an enum. -/
theorem disjoint_names (h : contract.Models document session) :
    ∀ a ∈ contract.catalog.records.names, ∀ b ∈ contract.catalog.enums.names, a ≠ b := by
  rintro a ha b hb rfl
  obtain ⟨docs, fields, hrecord⟩ := h.exists_of_mem_records ha
  obtain ⟨others, variants, henum⟩ := h.exists_of_mem_enums hb
  rw [hrecord] at henum
  cases henum

/-- Records and enums have identifiers of named types. -/
theorem mem_documentNames_of_declared (h : contract.Models document session)
    (hname : name ∈ contract.catalog.records.names ++ contract.catalog.enums.names) :
    name ∈ document.types.names := by
  rcases List.mem_append.1 hname with hname | hname
  · obtain ⟨docs, fields, hget⟩ := h.exists_of_mem_records hname
    exact mem_documentNames hget
  · obtain ⟨docs, variants, hget⟩ := h.exists_of_mem_enums hname
    exact mem_documentNames hget

/-- Records, composites and enums have different identifiers. -/
theorem nodup_types (h : contract.Models document session) (hd : document.DistinctIdentifiers) :
    ((contract.catalog.structs.map (·.1) ++ contract.catalog.enums.names).map
      Identifier.type).Nodup := by
  have hperm : (contract.catalog.structs.map (·.1) ++ contract.catalog.enums.names).Perm
      ((contract.catalog.records.names ++ contract.catalog.enums.names) ++
        contract.catalog.composites.names) := by
    rw [Catalog.structs, List.map_append, List.append_assoc, List.append_assoc]
    exact List.perm_append_comm.append_left _
  have hdeclared : (contract.catalog.records.names ++ contract.catalog.enums.names).Nodup :=
    List.nodup_append.2
      ⟨contract.catalog.records.distinct, contract.catalog.enums.distinct, h.disjoint_names⟩
  have hinjective := hdeclared.map_on fun a ha b hb heq =>
    List.inj_on_of_nodup_map hd.types (h.mem_documentNames_of_declared ha)
      (h.mem_documentNames_of_declared hb) heq
  have hcomposites : contract.catalog.composites.names.map Identifier.type =
      contract.catalog.composites.names := by
    refine (List.map_congr_left fun name hname => ?_).trans (List.map_id _)
    exact (h.composite_identifier hname).1
  refine (hperm.map Identifier.type).nodup_iff.2 ?_
  rw [List.map_append, hcomposites]
  refine List.nodup_append.2 ⟨hinjective, contract.catalog.composites.distinct, ?_⟩
  rintro identifier hidentifier name hname rfl
  obtain ⟨other, hother, heq⟩ := List.mem_map.1 hidentifier
  exact (h.composite_identifier hname).2
    (List.mem_map.2 ⟨other, h.mem_documentNames_of_declared hother, heq⟩)

theorem named (h : contract.Models document session) (hd : document.DistinctIdentifiers) :
    contract.catalog.Named where
  types := h.nodup_types hd
  fields entry hentry := by
    rcases List.mem_append.1 hentry with hentry | hentry
    · obtain ⟨docs, decls, hget, hnames⟩ := h.record_of_document (NameMap.get?_eq_some_iff.2 hentry)
      have hfields := hd.fields _ docs decls hget
      rw [hnames]
      refine List.Nodup.of_map Identifier.field ?_
      rwa [List.map_map]
    · obtain ⟨-, hnames⟩ := h.context.registry.fieldNames entry (h.mem_composites.1 hentry)
      rw [hnames]
      exact List.nodup_range.map fun _ _ => memberName_injective
  variants name variants hget := by
    obtain ⟨docs, decls, htype, hnames⟩ := h.enum_of_document hget
    have hidentifiers := congrArg (List.map Identifier.type) hnames
    rw [List.map_map, List.map_map] at hidentifiers
    exact (congrArg List.Nodup hidentifiers).mpr (hd.variants name docs decls htype)

end Contract.Models

theorem fieldItem_of_ofField {catalog : Catalog} {field : Field} {item : FieldItem}
    (h : FieldItem.ofField catalog field = .ok item) :
    (item.name, item.reader) = (Identifier.field field.name, NestedReader.ofType field.type) := by
  rw [FieldItem.ofField] at h
  obtain ⟨zero, -, h⟩ := of_bind_eq_ok h
  obtain rfl := Except.ok.inj h
  rfl

theorem fieldItems_of_mapM {catalog : Catalog} {fields : List Field} {items : List FieldItem}
    (h : fields.mapM (FieldItem.ofField catalog) = .ok items) :
    items.map (fun field => (field.name, field.reader)) =
      fields.map fun field => (Identifier.field field.name, NestedReader.ofType field.type) := by
  have hitems := forall₂_of_mapM h
  clear h
  induction hitems with
  | nil => rfl
  | cons hfirst _ ih => rw [List.map_cons, List.map_cons, ih, fieldItem_of_ofField hfirst]

/-- The item of a struct decodes it, if all its fields have a byte layout. -/
theorem recordItem_of_ofFields {catalog : Catalog} {name : String} {fields : List Field}
    {docs : List String} {item : RecordItem}
    (h : RecordItem.ofFields catalog name fields docs = .ok item) :
    item.decoder = DecoderItem.ofStruct name fields ∧
      item.hasDecoders = fields.all (isNestable ·.type) := by
  rw [RecordItem.ofFields] at h
  obtain ⟨items, hitems, h⟩ := of_bind_eq_ok h
  obtain rfl := Except.ok.inj h
  refine ⟨?_, rfl⟩
  rw [RecordItem.decoder, DecoderItem.ofStruct, fieldItems_of_mapM hitems]

theorem enumItem_of_ofVariants {name : String} {variants : List Variant} {docs : List String}
    {item : EnumItem} (h : EnumItem.ofVariants name variants docs = .ok item) :
    item.decoder = DecoderItem.ofEnum name variants := by
  rw [EnumItem.ofVariants] at h
  split at h
  · cases h
  · obtain rfl := Except.ok.inj h
    simp only [EnumItem.decoder, DecoderItem.ofEnum, List.map_map, Function.comp_def]

/-- The decoders of a struct with plain readers are read back from its item. -/
theorem item?_of_struct {name : String} {fields : List Field} {item : RecordItem}
    (hdecoder : item.decoder = DecoderItem.ofStruct name fields)
    (hplain : ∀ field ∈ fields, (NestedReader.ofType field.type).Plain) :
    DecoderText.item? item.decoderLines = some (DecoderItem.ofStruct name fields) := by
  have hfields : item.fields.map (fun field => (field.name, field.reader)) =
      fields.map fun field => (Identifier.field field.name, NestedReader.ofType field.type) :=
    (DecoderItem.record.inj hdecoder).2
  have hfield : ∀ f ∈ item.fields, ∃ field ∈ fields, f.name = Identifier.field field.name ∧
      f.reader = NestedReader.ofType field.type := by
    intro f hf
    have hmem := List.mem_map_of_mem (f := fun field : FieldItem => (field.name, field.reader)) hf
    rw [hfields] at hmem
    obtain ⟨field, hfield, heq⟩ := List.mem_map.1 hmem
    obtain ⟨hname, hreader⟩ := Prod.mk.inj heq
    exact ⟨field, hfield, hname.symm, hreader.symm⟩
  rw [← hdecoder]
  refine DecoderText.item?_record (fun f hf => ?_) fun f hf => ?_
  · obtain ⟨field, -, hname, -⟩ := hfield f hf
    exact hname ▸ Identifier.blank_not_mem_field field.name
  · obtain ⟨field, hmem, -, hreader⟩ := hfield f hf
    exact hreader ▸ hplain field hmem

/-- The decoders that a catalog calls for. -/
inductive Catalog.HasDecoder (catalog : Catalog) : DecoderItem → Prop
  | record {name : String} {fields : List Field} (hget : catalog.records.get? name = some fields) :
      HasDecoder catalog (.ofStruct name fields)
  | enum {name : String} {variants : List Variant}
      (hget : catalog.enums.get? name = some variants) : HasDecoder catalog (.ofEnum name variants)
  | composite {name : String} {fields : List Field}
      (hentry : (name, fields) ∈ catalog.composites.entries)
      (hnested : ∀ field ∈ fields, checkNested field.type = .ok ()) :
      HasDecoder catalog (.ofStruct name fields)

theorem isNestable_iff {type : ResolvedType} :
    isNestable type = true ↔ checkNested type = .ok () := by
  rw [isNestable]
  cases checkNested type <;> simp [Except.toBool]

namespace Contract

variable {contract : Contract} {document : Document} {session : Session}
  {options : GenerationOptions} {file : SourceFile}

/-- The parts that a generated file was made from. -/
theorem exists_parts (h : contract.sourceFile options = .ok file) :
    ∃ named composites,
      contract.typeDocs.entries.mapM (fun entry => contract.typeItem? options entry.1 entry.2) =
        .ok named ∧
      contract.catalog.composites.entries.mapM (fun entry => contract.compositeItem entry.1 entry.2) =
        .ok composites ∧
      contract.endpoints.mapM (contract.method options) = .ok file.client.methods ∧
      file.types = named.filterMap id ++ composites := by
  rw [sourceFile] at h
  obtain ⟨named, hnamed, h⟩ := of_bind_eq_ok h
  obtain ⟨composites, hcomposites, h⟩ := of_bind_eq_ok h
  obtain ⟨methods, hmethods, h⟩ := of_bind_eq_ok h
  obtain rfl := Except.ok.inj h
  exact ⟨named, composites, hnamed, hcomposites, hmethods, rfl⟩

namespace Models

variable {name : String} {fields : List Field} {variants : List Variant} {docs : List String}

/-- The fields of a record have a byte layout and plain readers. -/
theorem admitsNested_record (h : contract.Models document session)
    (hget : contract.catalog.records.get? name = some fields) :
    ∀ field ∈ fields, session.context.AdmitsNested document.types field.type := by
  intro field hfield
  have hadmits := h.admitsField hget hfield
  exact ⟨hadmits.admitted, hadmits.nested⟩

/-- The fields of a composite with a byte layout have plain readers. -/
theorem admitsNested_composite (h : contract.Models document session)
    (hentry : (name, fields) ∈ contract.catalog.composites.entries)
    (hnested : ∀ field ∈ fields, checkNested field.type = .ok ()) :
    ∀ field ∈ fields, session.context.AdmitsNested document.types field.type :=
  fun field hfield =>
    ⟨h.context.admits_field (h.mem_composites.1 hentry) hfield, hnested field hfield⟩

theorem decoder?_struct (h : contract.Models document session) {item : RecordItem}
    (hitem : RecordItem.ofFields contract.catalog name fields docs = .ok item)
    (hfields : ∀ field ∈ fields, session.context.AdmitsNested document.types field.type) :
    (TypeItem.record item).decoder? = some (.ofStruct name fields) := by
  obtain ⟨hdecoder, hdecodes⟩ := recordItem_of_ofFields hitem
  have hall : fields.all (isNestable ·.type) = true :=
    List.all_eq_true.2 fun field hfield => isNestable_iff.2 (hfields field hfield).nested
  rw [TypeItem.decoder?, TypeItem.decoderLines, hdecodes, hall, if_pos rfl]
  exact item?_of_struct hdecoder fun field hfield => (hfields field hfield).plain h.context

theorem decoder?_record (h : contract.Models document session)
    (hget : contract.catalog.records.get? name = some fields) {result : Option TypeItem}
    (hitem : contract.typeItem? options name docs = .ok result) :
    ∃ item, result = some item ∧ item.decoder? = some (.ofStruct name fields) := by
  rw [typeItem?, hget] at hitem
  obtain ⟨item, hmade, hitem⟩ := of_bind_eq_ok hitem
  obtain rfl := Except.ok.inj hitem
  exact ⟨.record item, rfl, h.decoder?_struct hmade (h.admitsNested_record hget)⟩

theorem decoder?_enum (hrecord : contract.catalog.records.get? name = none)
    (hget : contract.catalog.enums.get? name = some variants) {result : Option TypeItem}
    (hitem : contract.typeItem? options name docs = .ok result) :
    ∃ item, result = some item ∧ item.decoder? = some (.ofEnum name variants) := by
  rw [typeItem?, hrecord, hget] at hitem
  obtain ⟨item, hmade, hitem⟩ := of_bind_eq_ok hitem
  obtain rfl := Except.ok.inj hitem
  refine ⟨.enum item, rfl, ?_⟩
  rw [TypeItem.decoder?, TypeItem.decoderLines, DecoderText.item?_enum,
    enumItem_of_ofVariants hmade]

/-- A composite has a decoder as soon as all its fields have a byte layout. -/
theorem decoder?_composite (h : contract.Models document session)
    (hentry : (name, fields) ∈ contract.catalog.composites.entries) {item : TypeItem}
    (hitem : contract.compositeItem name fields = .ok item) (decoder : DecoderItem) :
    item.decoder? = some decoder ↔
      (∀ field ∈ fields, checkNested field.type = .ok ()) ∧ decoder = .ofStruct name fields := by
  rw [compositeItem] at hitem
  obtain ⟨recordItem, hmade, hitem⟩ := of_bind_eq_ok hitem
  obtain rfl := Except.ok.inj hitem
  by_cases hnested : ∀ field ∈ fields, checkNested field.type = .ok ()
  · rw [h.decoder?_struct hmade (h.admitsNested_composite hentry hnested), Option.some_inj]
    exact ⟨fun heq => ⟨hnested, heq.symm⟩, fun heq => heq.2.symm⟩
  · have hall : fields.all (isNestable ·.type) = false := by
      rw [Bool.eq_false_iff]
      intro hall
      exact hnested fun field hfield => isNestable_iff.1 (List.all_eq_true.1 hall field hfield)
    have hnone : (TypeItem.record recordItem).decoder? = none := by
      rw [TypeItem.decoder?, TypeItem.decoderLines, (recordItem_of_ofFields hmade).2, hall]
      rfl
    rw [hnone]
    constructor
    · intro heq
      cases heq
    · intro hboth
      exact absurd hboth.1 hnested

theorem not_record_of_enum (h : contract.Models document session)
    (hget : contract.catalog.enums.get? name = some variants) :
    contract.catalog.records.get? name = none := by
  have henum := NameMap.mem_names_of_mem (NameMap.get?_eq_some_iff.1 hget)
  exact NameMap.get?_eq_none_iff.2 fun hrecord => h.disjoint_names name hrecord name henum rfl

/-- The item of a named type decodes what the catalog declares under the name. -/
theorem hasDecoder_of_typeItem (h : contract.Models document session) {item : TypeItem}
    (hitem : contract.typeItem? options name docs = .ok (some item)) {decoder : DecoderItem}
    (hdecoder : item.decoder? = some decoder) : contract.catalog.HasDecoder decoder := by
  cases hrecord : contract.catalog.records.get? name with
  | some fields =>
    obtain ⟨other, hsome, hother⟩ := h.decoder?_record hrecord hitem
    obtain rfl := Option.some.inj hsome
    rw [hother] at hdecoder
    obtain rfl := Option.some.inj hdecoder
    exact .record hrecord
  | none =>
    cases henum : contract.catalog.enums.get? name with
    | some variants =>
      obtain ⟨other, hsome, hother⟩ := decoder?_enum hrecord henum hitem
      obtain rfl := Option.some.inj hsome
      rw [hother] at hdecoder
      obtain rfl := Option.some.inj hdecoder
      exact .enum henum
    | none =>
      rw [typeItem?, hrecord, henum] at hitem
      cases hitem

/-- Every named type of the document is in the file's documentation. -/
theorem exists_typeDocs (h : contract.Models document session) {definition : TypeDefinition}
    (hget : document.types.get? name = some definition) :
    ∃ docs, (name, docs) ∈ contract.typeDocs.entries := by
  rw [h.typeDocs]
  exact ⟨definition.docs, List.mem_map.2 ⟨_, NameMap.get?_eq_some_iff.1 hget, rfl⟩⟩

/-- A generated file declares just the decoders that the catalog calls for. -/
theorem mem_decoders_iff (h : contract.Models document session)
    (hfile : contract.sourceFile options = .ok file) {decoder : DecoderItem} :
    decoder ∈ file.decoders ↔ contract.catalog.HasDecoder decoder := by
  obtain ⟨named, composites, hnamed, hcomposites, -, htypes⟩ := exists_parts hfile
  have hnamed := forall₂_of_mapM hnamed
  have hcomposites := forall₂_of_mapM hcomposites
  rw [SourceFile.decoders, htypes, List.filterMap_append, List.mem_append]
  constructor
  · rintro (hmem | hmem)
    · obtain ⟨item, hitem, hdecoder⟩ := List.mem_filterMap.1 hmem
      obtain ⟨result, hresult, rfl⟩ := List.mem_filterMap.1 hitem
      obtain ⟨entry, -, hmade⟩ := exists_of_forall₂_right hnamed hresult
      exact h.hasDecoder_of_typeItem hmade hdecoder
    · obtain ⟨item, hitem, hdecoder⟩ := List.mem_filterMap.1 hmem
      obtain ⟨entry, hentry, hmade⟩ := exists_of_forall₂_right hcomposites hitem
      obtain ⟨hnested, rfl⟩ := (h.decoder?_composite hentry hmade decoder).1 hdecoder
      exact .composite hentry hnested
  · intro hdecoder
    cases hdecoder with
    | record hget =>
      obtain ⟨docs, decls, htype, -⟩ := h.record_of_document hget
      obtain ⟨docs, hdocs⟩ := h.exists_typeDocs htype
      obtain ⟨result, hresult, hmade⟩ := exists_of_forall₂_left hnamed hdocs
      obtain ⟨item, rfl, hitem⟩ := h.decoder?_record hget hmade
      exact .inl (List.mem_filterMap.2 ⟨item, List.mem_filterMap.2 ⟨_, hresult, rfl⟩, hitem⟩)
    | enum hget =>
      obtain ⟨docs, decls, htype, -⟩ := h.enum_of_document hget
      obtain ⟨docs, hdocs⟩ := h.exists_typeDocs htype
      obtain ⟨result, hresult, hmade⟩ := exists_of_forall₂_left hnamed hdocs
      obtain ⟨item, rfl, hitem⟩ := decoder?_enum (h.not_record_of_enum hget) hget hmade
      exact .inl (List.mem_filterMap.2 ⟨item, List.mem_filterMap.2 ⟨_, hresult, rfl⟩, hitem⟩)
    | composite hentry hnested =>
      obtain ⟨item, hitem, hmade⟩ := exists_of_forall₂_left hcomposites hentry
      have hdecoder := (h.decoder?_composite hentry hmade _).2 ⟨hnested, rfl⟩
      exact .inr (List.mem_filterMap.2 ⟨item, hitem, hdecoder⟩)

end Models
end Contract
end ContractAbi
