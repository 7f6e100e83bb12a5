import ContractAbi.Proofs.ArgumentBytes
import ContractAbi.Proofs.ContextIndependence
import ContractAbi.Proofs.PayloadAgreement
import ContractAbi.Proofs.SlotNumbers

/-!
# Enums from the document to the slot

A document is refused for an enum just when the variants make no enum and the named types before it
are declared. The enums of a document that is accepted are in its catalog with all their variants,
and since those have different one-byte discriminants, a slot stands for one variant at most.
-/
namespace ContractAbi

variable {types : NameMap TypeDefinition} {name : String} {decls : List VariantDecl}
  {before after : Session} {fault : ConversionFault}

/-- Fields are not refused for an enum. -/
theorem resolveFields_ne_invalidEnum {fields : List FieldDecl} {context last : Context}
    (h : (resolveFields types name fields).run context = .error fault last) (enum : String)
    (cause : EnumFault) : fault ≠ .invalidEnum enum cause := by
  induction fields generalizing context last with
  | nil => cases h
  | cons field rest ih =>
    rw [resolveFields, EStateM.run_bind] at h
    have hdecides : Resolve.Decides types (resolve types field.type) ResolvedType.shape
        (TypeExpr.Derives types field.type.toList) := Resolve.decides_ofText field.type.toList
    have hexpression := hdecides context
    cases hr : (resolve types field.type).run context with
    | error fault' middle =>
      simp only [hr] at h hexpression
      obtain ⟨rfl, -⟩ := EStateM.Result.error.inj h
      rintro rfl
      exact hexpression.2
    | ok type middle =>
      simp only [hr] at h
      split at h
      · obtain ⟨rfl, -⟩ := EStateM.Result.error.inj h
        exact ConversionFault.noConfusion
      · rw [EStateM.run_bind] at h
        cases hrest : (resolveFields types name rest).run middle with
        | error fault' final =>
          rw [hrest] at h
          obtain ⟨rfl, -⟩ := EStateM.Result.error.inj h
          exact ih hrest
        | ok fields final =>
          rw [hrest] at h
          cases h

theorem Session.Refuses.violates {other : String} {definition : TypeDefinition} {cause : EnumFault}
    (h : before.Refuses types other definition (.invalidEnum name cause) after) :
    name = other ∧ ∃ docs decls, definition = .enum docs decls ∧ Violates decls cause := by
  cases h with
  | record hrun => exact absurd rfl (resolveFields_ne_invalidEnum hrun name cause)
  | enum hresolve =>
    obtain ⟨violated, hviolates, heq⟩ := resolveEnum_eq_error_iff.1 hresolve
    obtain ⟨rfl, rfl⟩ := ConversionFault.invalidEnum.inj heq
    exact ⟨rfl, _, _, rfl, hviolates⟩

theorem Violates.declareType_eq {cause : EnumFault} (h : Violates decls cause) (docs : List String) :
    (declareType types name (.enum docs decls)).run before = .error (.invalidEnum name cause) before := by
  rw [declareType, h.resolveEnum_eq]
  rfl

/-- A document that is refused for an enum is refused for what is wrong with the variants of it. -/
theorem violates_of_declareNamedTypes {docs : List String} {context : Context} {cause : EnumFault}
    (hget : types.get? name = some (.enum docs decls))
    (h : (declareNamedTypes types).run (.start context) = .error (.invalidEnum name cause) after) :
    Violates decls cause := by
  rw [Session.run_declareNamedTypes] at h
  obtain ⟨⟨other, definition⟩, hentry, middle, hrefused⟩ := exists_refused_of_declareTypes h
  obtain ⟨rfl, docs', decls', rfl, hviolates⟩ := hrefused.violates
  cases hget.symm.trans (NameMap.get?_eq_some_iff.2 hentry)
  exact hviolates

theorem Violates.declareNamedTypes_eq {docs : List String} {cause : EnumFault}
    {front rest : List (String × TypeDefinition)} (h : Violates decls cause)
    (hentries : types.entries = front ++ (name, .enum docs decls) :: rest)
    (hfront : ∀ entry ∈ front, Declarable types entry.1 entry.2) (context : Context) :
    ∃ after, (declareNamedTypes types).run (.start context) = .error (.invalidEnum name cause) after := by
  obtain ⟨middle, hmiddle⟩ := (Session.exists_declareTypes_iff (.start context)).2 hfront
  refine ⟨middle, ?_⟩
  rw [Session.run_declareNamedTypes, hentries, declareTypes_append, EStateM.run_bind, hmiddle]
  simp only [declareTypes, EStateM.run_bind, h.declareType_eq docs]

namespace VariantDecl

/-- The value that a variant of the enum is decoded to. -/
def value (decl : VariantDecl) (name : String) : Value :=
  .enum name decl.variant.name decl.variant.discriminant

/-- The argument of a variant is its discriminant. -/
def argument (decl : VariantDecl) : Wire.Argument :=
  .word .u8 decl.discriminant

end VariantDecl

namespace Catalog

variable {catalog : Catalog} {readNamed : String → Wire.Reader Value}

/-- The enum is declared with the variants in their order, and a slot is decoded to the one variant
with the number in it. -/
structure DecodesEnum (catalog : Catalog) (name : String) (decls : List VariantDecl) : Prop where
  variants : catalog.enums.get? name = some (decls.map VariantDecl.variant)
  decoded : ∀ slot, ∀ decl ∈ decls, Wire.bigEndian slot = decl.discriminant →
    catalog.decodeSlot (.enum name) slot = .ok (decl.value name)
  only : ∀ decl ∈ decls, ∀ other ∈ decls, decl.discriminant = other.discriminant → decl = other
  unknown : ∀ slot, Wire.bigEndian slot < 256 → (∀ decl ∈ decls, decl.discriminant ≠ Wire.bigEndian slot) →
    catalog.decodeSlot (.enum name) slot =
      .error (.unknownDiscriminant name (UInt8.ofNat (Wire.bigEndian slot)))
  overflow : ∀ slot, 256 ≤ Wire.bigEndian slot →
    catalog.decodeSlot (.enum name) slot = .error (.overflow .u8 slot.length)
  /-- The argument of a variant is one byte, which is decoded to the variant from a slot of its own and
  in front of other bytes. -/
  argument : ∀ decl ∈ decls, ∃ byte, Hex.decode decl.argument.hexText = .ok [byte] ∧
    catalog.decodeSlot (.enum name) [byte] = .ok (decl.value name) ∧
    ∀ readNamed later, catalog.readType readNamed (.enum name) (byte :: later) = .ok (decl.value name, later)
  /-- The empty slot is decoded to the variant that stands for the zero value. -/
  default : ∀ value, catalog.decodeSlot (.enum name) [] = .ok value →
    ∃ variant, defaultVariant? (decls.map VariantDecl.variant) = some variant ∧
      value = .enum name variant.name variant.discriminant

theorem decodeSlot_enum (name : String) (slot : Bytes) :
    catalog.decodeSlot (.enum name) slot =
      if Wire.bigEndian slot < 256 then catalog.enumValue name (UInt8.ofNat (Wire.bigEndian slot))
      else .error (.overflow .u8 slot.length) := by
  have hvalues : 256 ^ Wire.Word.u8.width = 256 := rfl
  rw [decodeSlot, Wire.topWord_eq, Wire.naturalOf_eq_bigEndian, hvalues]
  split <;> rfl

theorem enumValue_eq {variants : List Variant} (hget : catalog.enums.get? name = some variants)
    (discriminant : UInt8) : catalog.enumValue name discriminant =
      match variants.find? (·.discriminant = discriminant) with
      | some variant => .ok (.enum name variant.name discriminant)
      | none => .error (.unknownDiscriminant name discriminant) := by
  cases hfind : variants.find? (·.discriminant = discriminant) <;>
    simp only [enumValue, hget, hfind]

end Catalog

namespace IsEnum

variable {catalog : Catalog} {decl : VariantDecl}

theorem discriminants_nodup (h : IsEnum decls) :
    ((decls.map VariantDecl.variant).map (·.discriminant)).Nodup := by
  have hresolve : resolveEnum "" decls = .ok (decls.map VariantDecl.variant) := h.resolveEnum_eq
  exact resolveEnum_distinct hresolve

theorem enumValue_eq (h : IsEnum decls)
    (hget : catalog.enums.get? name = some (decls.map VariantDecl.variant)) (hmem : decl ∈ decls) :
    catalog.enumValue name (UInt8.ofNat decl.discriminant) = .ok (decl.value name) :=
  Catalog.enumValue_of_mem hget (List.mem_map_of_mem hmem) h.discriminants_nodup

/-- A byte that is not the discriminant of a variant stands for none. -/
theorem enumValue_eq_error (h : IsEnum decls)
    (hget : catalog.enums.get? name = some (decls.map VariantDecl.variant)) {number : Nat}
    (hnumber : number < 256) (hnone : ∀ decl ∈ decls, decl.discriminant ≠ number) :
    catalog.enumValue name (UInt8.ofNat number) =
      .error (.unknownDiscriminant name (UInt8.ofNat number)) := by
  have hfind : (decls.map VariantDecl.variant).find? (·.discriminant = UInt8.ofNat number) = none := by
    refine List.find?_eq_none.2 fun variant hvariant => ?_
    obtain ⟨decl, hdecl, rfl⟩ := List.mem_map.1 hvariant
    rw [decide_eq_true_eq, VariantDecl.variant, ofNat_inj_of_lt (h.small decl hdecl) hnumber]
    exact hnone decl hdecl
  rw [Catalog.enumValue_eq hget, hfind]

theorem decodeSlot_eq (h : IsEnum decls)
    (hget : catalog.enums.get? name = some (decls.map VariantDecl.variant)) (hmem : decl ∈ decls)
    {slot : Bytes} (hslot : Wire.bigEndian slot = decl.discriminant) :
    catalog.decodeSlot (.enum name) slot = .ok (decl.value name) := by
  rw [Catalog.decodeSlot_enum, hslot, if_pos (h.small decl hmem)]
  exact h.enumValue_eq hget hmem

theorem decodesEnum (h : IsEnum decls)
    (hget : catalog.enums.get? name = some (decls.map VariantDecl.variant)) :
    catalog.DecodesEnum name decls where
  variants := hget
  decoded slot decl hmem hslot := h.decodeSlot_eq hget hmem hslot
  only decl hmem other hother heq := List.inj_on_of_nodup_map h.distinct hmem hother heq
  unknown slot hlt hnone := by
    rw [Catalog.decodeSlot_enum, if_pos hlt]
    exact h.enumValue_eq_error hget hlt hnone
  overflow slot hle := by rw [Catalog.decodeSlot_enum, if_neg (Nat.not_lt.2 hle)]
  argument decl hmem := by
    have hslot : Wire.bigEndian [UInt8.ofNat decl.discriminant] = decl.discriminant := by
      rw [← Wire.naturalOf_eq_bigEndian, Wire.naturalOf_singleton]
      exact UInt8.toNat_ofNat_of_lt' (h.small decl hmem)
    have hdecoded := h.decodeSlot_eq hget hmem hslot
    refine ⟨UInt8.ofNat decl.discriminant, Hex.decode_text _, hdecoded, fun readNamed later => ?_⟩
    rw [Catalog.readType_enum, hdecoded]
    rfl
  default value hvalue := by
    have hempty : catalog.decodeSlot (.enum name) [] = catalog.enumValue name 0 := rfl
    rw [hempty, Catalog.enumValue_eq hget] at hvalue
    cases hfind : (decls.map VariantDecl.variant).find? (·.discriminant = 0) with
    | none => simp [hfind] at hvalue
    | some variant =>
      have hzero : variant.discriminant = 0 := by simpa using List.find?_some hfind
      simp only [hfind] at hvalue
      refine ⟨variant, by rw [Catalog.defaultVariant?, hfind]; rfl, ?_⟩
      rw [hzero]
      exact (Except.ok.inj hvalue).symm

end IsEnum

/-- What becomes of an enum of the document when the named types are declared in the context. -/
structure Document.SettlesEnum (document : Document) (context : Context) (name : String)
    (decls : List VariantDecl) : Prop where
  /-- The variants make an enum, or there is one thing that is wrong with them first. -/
  decided : IsEnum decls ∧ (∀ fault, ¬ Violates decls fault) ∨
    ¬ IsEnum decls ∧ ∃! fault, Violates decls fault
  accepted : (∃ after, (declareNamedTypes document.types).run (.start context) = .ok () after) ↔
    IsEnum decls ∧ ∀ other definition, document.types.get? other = some definition → other ≠ name →
      Declarable document.types other definition
  /-- The enum is refused unless a named type before it is. -/
  refused : ∀ docs front rest, document.types.entries = front ++ (name, .enum docs decls) :: rest →
    (∀ entry ∈ front, Declarable document.types entry.1 entry.2) → ∀ fault, Violates decls fault →
      ∃ after, (declareNamedTypes document.types).run (.start context) =
        .error (.invalidEnum name fault) after
  blamed : ∀ fault after, (declareNamedTypes document.types).run (.start context) =
    .error (.invalidEnum name fault) after → Violates decls fault
  decoded : ∀ after, (declareNamedTypes document.types).run (.start context) = .ok () after →
    after.catalog.DecodesEnum name decls

/-- An enum of a document is accepted exactly if nothing is wrong with its variants, and is blamed for
the first thing that is. An accepted one is decoded by its discriminants, in the order of the document. -/
theorem enums_are_accepted_and_decoded_exactly (document : Document) (context : Context)
    (name : String) (docs : List String) (decls : List VariantDecl)
    (h : document.types.get? name = some (.enum docs decls)) :
    document.SettlesEnum context name decls where
  decided := by
    rcases isEnum_or_violates decls with henum | ⟨fault, hfault⟩
    · exact .inl ⟨henum, fun fault hfault => hfault.not_isEnum henum⟩
    · exact .inr ⟨hfault.not_isEnum, fault, hfault, fun other hother => hother.unique hfault⟩
  accepted := by
    rw [Session.exists_declareNamedTypes_iff]
    refine ⟨fun hall => ⟨hall name _ h, fun other definition hget _ => hall other definition hget⟩, ?_⟩
    rintro ⟨henum, hothers⟩ other definition hget
    by_cases hname : other = name
    · subst hname
      cases h.symm.trans hget
      exact henum
    · exact hothers other definition hget hname
  refused docs front rest hentries hfront fault hfault :=
    hfault.declareNamedTypes_eq hentries hfront context
  blamed fault after hrun := violates_of_declareNamedTypes h hrun
  decoded after hrun := by
    have henum : IsEnum decls :=
      (Session.exists_declareNamedTypes_iff context).1 ⟨after, hrun⟩ name _ h
    exact henum.decodesEnum
      (((Session.resolved_of_declareNamedTypes hrun).enums name _).2 ⟨docs, decls, h, henum.resolveEnum_eq⟩)

/-- A document whose enum does not begin with the variant for zero. -/
def lottery : Document where
  buildInfo := ⟨none, ⟨"multiversx-sc", "0.43.3"⟩⟩
  docs := []
  name := "Lottery"
  constructor := none
  endpoints := []
  events := []
  hasCallbacks := false
  types := NameMap.ofList
    [("Round", .record [] [⟨"status", "Status"⟩]),
      ("Status", .enum [] [⟨"Ended", 2⟩, ⟨"Inactive", 0⟩, ⟨"Running", 255⟩])]

/-- The document is accepted, so the slots of the enum are those of its variants. -/
theorem lottery_settles_its_enum :
    lottery.types.get? "Status" = some (.enum [] [⟨"Ended", 2⟩, ⟨"Inactive", 0⟩, ⟨"Running", 255⟩]) ∧
    lottery.SettlesEnum .empty "Status" [⟨"Ended", 2⟩, ⟨"Inactive", 0⟩, ⟨"Running", 255⟩] ∧
    ∃ after, (declareNamedTypes lottery.types).run (.start .empty) = .ok () after ∧
      after.catalog.DecodesEnum "Status" [⟨"Ended", 2⟩, ⟨"Inactive", 0⟩, ⟨"Running", 255⟩] := by
  have hsettles := enums_are_accepted_and_decoded_exactly lottery .empty "Status" [] _ rfl
  have haccepted : (declareNamedTypes lottery.types).run' (.start .empty) = some () := by
    decide +kernel
  cases hrun : (declareNamedTypes lottery.types).run (.start .empty) with
  | error fault after => simp [EStateM.run', hrun] at haccepted
  | ok value after => exact ⟨rfl, hsettles, after, rfl, hsettles.decoded after hrun⟩

end ContractAbi
