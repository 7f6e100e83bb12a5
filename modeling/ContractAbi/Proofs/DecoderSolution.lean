import ContractAbi.Proofs.DecoderAgreement

/-!
# Functions that solve the bodies of decoders

The bodies of the decoders call each other, and records may be nested without a bound. Reading a
value as the catalog says and then building what stands for it solves all bodies at once.
-/
namespace ContractAbi

open Wire (Follows)

/-- Every type that the catalog declares, beside its name. -/
def Catalog.declaredTypes (catalog : Catalog) : List (String × ResolvedType) :=
  catalog.records.entries.map (fun entry => (entry.1, .record entry.1)) ++
    catalog.composites.entries.map (fun entry =>
      (entry.1, .tuple entry.1 (entry.2.map (·.type)))) ++
    catalog.enums.entries.map fun entry => (entry.1, .enum entry.1)

/-- The declared type with an identifier. -/
def Catalog.typeOf? (catalog : Catalog) (identifier : String) : Option ResolvedType :=
  (catalog.declaredTypes.find? (Identifier.type ·.1 = identifier)).map (·.2)

/-- The functions that read what the catalog reads, and build what stands for the value. -/
def Decoders.ofCatalog (catalog : Catalog) : Decoders where
  nested identifier :=
    match catalog.typeOf? identifier with
    | some type => Built.ofValue <$> catalog.read type
    | none => throw (.undeclaredType identifier)
  top identifier slot :=
    match catalog.typeOf? identifier with
    | some type => (catalog.decodeSlot type slot).map Built.ofValue
    | none => .error (.undeclaredType identifier)

namespace Catalog

variable {catalog : Catalog} {name : String} {type : ResolvedType}

theorem names_declaredTypes (catalog : Catalog) :
    catalog.declaredTypes.map (·.1) = catalog.structs.map (·.1) ++ catalog.enums.names := by
  simp only [declaredTypes, structs, NameMap.names, List.map_append, List.map_map]
  rfl

theorem Named.typeOf?_eq (h : catalog.Named) (hmem : (name, type) ∈ catalog.declaredTypes) :
    catalog.typeOf? (Identifier.type name) = some type := by
  have hnodup : (catalog.declaredTypes.map (Identifier.type ·.1)).Nodup := by
    have htypes := h.types
    rwa [← names_declaredTypes, List.map_map] at htypes
  rw [typeOf?, find?_eq_some_of_nodup hnodup hmem]
  rfl

theorem Named.nested_ofCatalog (h : catalog.Named) (hmem : (name, type) ∈ catalog.declaredTypes) :
    (Decoders.ofCatalog catalog).nested (Identifier.type name) =
      Built.ofValue <$> catalog.read type := by
  simp only [Decoders.ofCatalog, h.typeOf?_eq hmem]

theorem Named.top_ofCatalog (h : catalog.Named) (hmem : (name, type) ∈ catalog.declaredTypes)
    (slot : Bytes) : (Decoders.ofCatalog catalog).top (Identifier.type name) slot =
      (catalog.decodeSlot type slot).map Built.ofValue := by
  simp only [Decoders.ofCatalog, h.typeOf?_eq hmem]

theorem record_mem_declaredTypes {fields : List Field}
    (hget : catalog.records.get? name = some fields) :
    (name, .record name) ∈ catalog.declaredTypes := by
  refine List.mem_append_left _ (List.mem_append_left _ ?_)
  exact List.mem_map.2 ⟨(name, fields), NameMap.get?_eq_some_iff.1 hget, rfl⟩

theorem enum_mem_declaredTypes {variants : List Variant}
    (hget : catalog.enums.get? name = some variants) :
    (name, .enum name) ∈ catalog.declaredTypes := by
  refine List.mem_append_right _ ?_
  exact List.mem_map.2 ⟨(name, variants), NameMap.get?_eq_some_iff.1 hget, rfl⟩

theorem composite_mem_declaredTypes {fields : List Field}
    (hentry : (name, fields) ∈ catalog.composites.entries) :
    (name, .tuple name (fields.map (·.type))) ∈ catalog.declaredTypes := by
  refine List.mem_append_left _ (List.mem_append_right _ ?_)
  exact List.mem_map.2 ⟨(name, fields), hentry, rfl⟩

end Catalog

/-- Fields with the names of members are the fields of their types. -/
theorem eq_memberFields {fields : List Field}
    (h : fields.map (·.name) = (List.range fields.length).map memberName) :
    fields = memberFields (fields.map (·.type)) := by
  apply List.ext_getElem (by simp [memberFields])
  intro index hfield hmember
  have hnames : (fields.map (·.name))[index]? = ((List.range fields.length).map memberName)[index]? :=
    congrArg (·[index]?) h
  have hname : fields[index].name = memberName index := by simpa [hfield] using hnames
  simp [memberFields, ← hname]

namespace Contract.Models

variable {contract : Contract} {document : Document} {session : Session} {name : String}

/-- The readers of admitted types read what the catalog reads. -/
theorem follows_ofCatalog (h : contract.Models document session)
    (hacyclic : contract.catalog.Acyclic) (hnamed : contract.catalog.Named) {type : ResolvedType}
    (htype : session.context.AdmitsNested document.types type) (bound : Nat) :
    Follows bound (fun value part => Built.ofValue value = part) (contract.catalog.read type)
      ((NestedReader.ofType type).run (.ofCatalog contract.catalog)) := by
  have hviews := contract.catalog.views_ofValue
  induction type using ResolvedType.memberInduction generalizing bound with
  | primitive kind => exact hviews.follows_primitive hacyclic kind
  | record name =>
    obtain ⟨fields, hget⟩ := h.exists_record htype.admitted.grounded
    have hmem := Catalog.record_mem_declaredTypes hget
    exact Follows.iff_eq_map.2 (hnamed.nested_ofCatalog hmem) bound
  | enum name =>
    obtain ⟨variants, hget⟩ := h.exists_enum htype.admitted.grounded
    have hmem := Catalog.enum_mem_declaredTypes hget
    exact Follows.iff_eq_map.2 (hnamed.nested_ofCatalog hmem) bound
  | list element ih =>
    exact (hviews.follows_list hacyclic (ih htype.list bound)).mono (Nat.le_succ bound)
  | tuple name members _ =>
    have hentry := NameMap.get?_eq_some_iff.1 (h.get?_composite htype.admitted)
    have hmem := Catalog.composite_mem_declaredTypes hentry
    have hidentifier := (h.composite_identifier (NameMap.mem_names_of_mem hentry)).1
    have hnested := hnamed.nested_ofCatalog hmem
    rw [hidentifier, types_memberFields] at hnested
    exact Follows.iff_eq_map.2 hnested bound
  | variadic element _ => cases htype.nested
  | variadicMulti name members _ => cases htype.nested
  | multi name members _ => cases htype.nested

/-- The functions solve the body of a struct, if it reads the fields one after the other. -/
theorem holds_struct (h : contract.Models document session)
    (hacyclic : contract.catalog.Acyclic) (hnamed : contract.catalog.Named) {fields : List Field}
    {type : ResolvedType} (hentry : (name, fields) ∈ contract.catalog.structs)
    (hmem : (name, type) ∈ contract.catalog.declaredTypes)
    (hread : contract.catalog.read type = (do
      return .record name (← contract.catalog.readEach fields)))
    (hslot : contract.catalog.decodeSlot type = Wire.topRead (contract.catalog.read type))
    (hfields : ∀ field ∈ fields, session.context.AdmitsNested document.types field.type) :
    (DecoderItem.ofStruct name fields).Holds (.ofCatalog contract.catalog) := by
  have hviews := contract.catalog.views_ofValue
  have hnested := hnamed.nested_ofCatalog hmem
  constructor
  · refine hnested.trans (Follows.iff_eq_map.1 fun bound => ?_).symm
    rw [hread]
    exact hviews.follows_struct hentry fun field hfield =>
      h.follows_ofCatalog hacyclic hnamed (hfields field hfield) bound
  · funext slot
    refine (hnamed.top_ofCatalog hmem slot).trans (Matches.iff_eq_map.1 ?_).symm
    rw [hslot]
    exact Follows.topRead (Follows.iff_eq_map.2 hnested) slot

/-- Reading what the catalog reads solves the bodies of all decoders. -/
theorem solvedBy_ofCatalog (h : contract.Models document session)
    (hacyclic : contract.catalog.Acyclic) (hnamed : contract.catalog.Named) :
    contract.catalog.SolvedBy (.ofCatalog contract.catalog) := by
  intro item hitem
  cases hitem with
  | @record name fields hget =>
    have hentry : (name, fields) ∈ contract.catalog.structs :=
      List.mem_append_left _ (NameMap.get?_eq_some_iff.1 hget)
    have hread := hacyclic.read_record_each hget (hnamed.fields _ hentry)
    exact h.holds_struct hacyclic hnamed hentry (Catalog.record_mem_declaredTypes hget) hread rfl
      (h.admitsNested_record hget)
  | @composite name fields hentry hnested =>
    have hnames := h.context.registry.fieldNames _ (h.mem_composites.1 hentry)
    have hread := hacyclic.read_tuple name (fields.map (·.type))
    rw [← eq_memberFields hnames.2] at hread
    exact h.holds_struct hacyclic hnamed (List.mem_append_right _ hentry)
      (Catalog.composite_mem_declaredTypes hentry) hread rfl
      (h.admitsNested_composite hentry hnested)
  | @enum name variants hget =>
    have hviews := contract.catalog.views_ofValue
    have hmem := Catalog.enum_mem_declaredTypes hget
    constructor
    · refine (hnamed.nested_ofCatalog hmem).trans (Follows.iff_eq_map.1 fun bound => ?_).symm
      exact hviews.follows_enum hacyclic hget
    · funext slot
      refine (hnamed.top_ofCatalog hmem slot).trans (Matches.iff_eq_map.1 ?_).symm
      apply (Matches.refl (Wire.topWord .u8 slot)).bind
      intro word other hword
      subst hword
      exact hviews.matches_enumValue hget _

end Contract.Models
end ContractAbi
