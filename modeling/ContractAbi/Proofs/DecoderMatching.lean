import ContractAbi.Proofs.DecoderRuns
import ContractAbi.Proofs.Reading

/-!
# Decoders that match readers

A decoder matches a reader when on the same bytes both fail with the same fault, or both leave the
same bytes and give related results. Matching goes through sequences, lists and packed slots, so
that only the declared types are left to compare.
-/
namespace ContractAbi

/-- The same fault, or related results. -/
inductive Matches {ε α β : Type} (R : α → β → Prop) : Except ε α → Except ε β → Prop
  | ok {left : α} {right : β} (h : R left right) : Matches R (.ok left) (.ok right)
  | error (fault : ε) : Matches R (.error fault) (.error fault)

namespace Matches

variable {ε α β γ δ : Type} {R : α → β → Prop} {S : γ → δ → Prop}

theorem bind {left : Except ε α} {right : Except ε β} {f : α → Except ε γ} {g : β → Except ε δ}
    (h : Matches R left right) (hnext : ∀ a b, R a b → Matches S (f a) (g b)) :
    Matches S (left >>= f) (right >>= g) := by
  cases h with
  | ok hab => exact hnext _ _ hab
  | error fault => exact .error fault

theorem mapError {ζ : Type} {left : Except ε α} {right : Except ε β} (h : Matches R left right)
    (f : ε → ζ) : Matches R (left.mapError f) (right.mapError f) := by
  cases h with
  | ok hab => exact .ok hab
  | error fault => exact .error (f fault)

theorem map {left : Except ε α} {right : Except ε β} {f : α → γ} {g : β → δ}
    (h : Matches R left right) (hmap : ∀ a b, R a b → S (f a) (g b)) :
    Matches S (left.map f) (right.map g) := by
  cases h with
  | ok hab => exact .ok (hmap _ _ hab)
  | error fault => exact .error fault

theorem refl (result : Except ε α) : Matches Eq result result := by
  cases result with
  | ok value => exact .ok rfl
  | error fault => exact .error fault

/-- A result matches what a function makes of it, and nothing else does. -/
theorem iff_eq_map {f : α → β} {left : Except ε α} {right : Except ε β} :
    Matches (fun a b => f a = b) left right ↔ right = left.map f := by
  constructor
  · intro h
    cases h with
    | ok hab => exact congrArg Except.ok hab.symm
    | error fault => rfl
  · rintro rfl
    cases left with
    | ok value => exact .ok rfl
    | error fault => exact .error fault

/-- What succeeds on one side succeeds on the other. -/
theorem filterMap_toOption {ι : Type} {f : ι → Except ε α} {g : ι → Except ε β}
    {parts : List ι} (h : ∀ i ∈ parts, Matches R (f i) (g i)) :
    List.Forall₂ R (parts.filterMap fun i => (f i).toOption)
      (parts.filterMap fun i => (g i).toOption) := by
  induction parts with
  | nil => exact .nil
  | cons part rest ih =>
    have hpart := h part List.mem_cons_self
    have hrest := ih fun i hi => h i (List.mem_cons_of_mem _ hi)
    rw [List.filterMap_cons, List.filterMap_cons]
    generalize f part = left at hpart
    generalize g part = right at hpart
    cases hpart with
    | ok hab => exact .cons hab hrest
    | error fault => exact hrest

end Matches

namespace Wire

variable {α β γ δ : Type} {R : α → β → Prop} {S : γ → δ → Prop} {bound : Nat}

/-- The decoder matches the reader on fewer than `bound` bytes. -/
def Follows (bound : Nat) (R : α → β → Prop) (reader : Reader α) (decoder : Reader β) : Prop :=
  ∀ bytes : Bytes, bytes.length < bound →
    Matches (fun left right => R left.1 right.1 ∧ left.2 = right.2) (reader bytes) (decoder bytes)

namespace Follows

variable {reader : Reader α} {decoder : Reader β}

theorem mono {small large : Nat} (h : Follows large R reader decoder) (hle : small ≤ large) :
    Follows small R reader decoder :=
  fun bytes hlt => h bytes (by omega)

theorem refl (reader : Reader α) : Follows bound Eq reader reader := by
  intro bytes _
  cases reader bytes with
  | ok result => exact .ok ⟨rfl, rfl⟩
  | error fault => exact .error fault

theorem pure {left : α} {right : β} (h : R left right) :
    Follows bound R (Pure.pure left) (Pure.pure right) :=
  fun _ _ => .ok ⟨h, rfl⟩

theorem lift {left : Except Fault α} {right : Except Fault β} (h : Matches R left right) :
    Follows bound R (liftM left) (liftM right) := by
  intro bytes _
  cases h with
  | ok hab => exact .ok ⟨hab, rfl⟩
  | error fault => exact .error fault

theorem bind {f : α → Reader γ} {g : β → Reader δ} (h : Follows bound R reader decoder)
    (hshrinks : Shrinks reader) (hnext : ∀ a b, R a b → Follows bound S (f a) (g b)) :
    Follows bound S (reader >>= f) (decoder >>= g) := by
  intro bytes hlt
  rw [Reader.bind_apply, Reader.bind_apply]
  have hmatch := h bytes hlt
  cases hr : reader bytes with
  | error fault =>
    rw [hr] at hmatch
    cases hd : decoder bytes with
    | error other =>
      rw [hd] at hmatch
      cases hmatch
      exact .error fault
    | ok result =>
      rw [hd] at hmatch
      cases hmatch
  | ok left =>
    rw [hr] at hmatch
    cases hd : decoder bytes with
    | error other =>
      rw [hd] at hmatch
      cases hmatch
    | ok right =>
      rw [hd] at hmatch
      obtain ⟨value, rest⟩ := left
      obtain ⟨other, middle⟩ := right
      cases hmatch with
      | ok hpair =>
        obtain ⟨hvalue, rfl⟩ := hpair
        have hrest := hshrinks bytes value rest hr
        exact hnext value other hvalue rest (by omega)

theorem readTimes (h : Follows bound R reader decoder) (hshrinks : Shrinks reader) (count : Nat) :
    Follows bound (List.Forall₂ R) (readTimes reader count) (readTimes decoder count) := by
  induction count with
  | zero => exact .pure .nil
  | succ count ih =>
    apply h.bind hshrinks
    intro a b hab
    exact ih.bind (shrinks_readTimes hshrinks count) fun as bs habs => .pure (.cons hab habs)

/-- Behind its count a list has fewer bytes left. -/
theorem readList (h : Follows bound R reader decoder) (hshrinks : Shrinks reader) :
    Follows (bound + 1) (List.Forall₂ R) (readList reader) (readList decoder) := by
  intro bytes hlt
  simp only [Wire.readList, Reader.bind_apply]
  cases hcount : readWord .u32 bytes with
  | error fault => exact .error fault
  | ok pair =>
    obtain ⟨count, rest⟩ := pair
    have hrest := length_lt_of_readWord hcount
    exact h.readTimes hshrinks count rest (by omega)

/-- A reader followed by a function is what matches the reader in that way. -/
theorem iff_eq_map {f : α → β} :
    (∀ bound, Follows bound (fun a b => f a = b) reader decoder) ↔ decoder = f <$> reader := by
  constructor
  · intro h
    funext bytes
    have hmatch := h (bytes.length + 1) bytes (by omega)
    rw [map_eq_pure_bind, Reader.bind_apply]
    generalize reader bytes = left at hmatch
    generalize decoder bytes = right at hmatch
    cases hmatch with
    | error fault => rfl
    | ok hpair =>
      rename_i left right
      obtain ⟨hvalue, hrest⟩ := hpair
      exact congrArg Except.ok (Prod.ext hvalue.symm hrest.symm)
  · rintro rfl bound bytes -
    rw [map_eq_pure_bind, Reader.bind_apply]
    cases reader bytes with
    | ok result => exact .ok ⟨rfl, rfl⟩
    | error fault => exact .error fault

theorem topRead (h : ∀ bound, Follows bound R reader decoder) (slot : Bytes) :
    Matches R (topRead reader slot) (topRead decoder slot) :=
  (h (slot.length + 1) slot (by omega)).map fun _ _ hpair => hpair.1

theorem packed (h : ∀ bound, Follows bound R reader decoder) (slot : Bytes) :
    List.Forall₂ R (packed reader slot) (packed decoder slot) := by
  induction hlength : slot.length using Nat.strong_induction_on generalizing slot with
  | _ length ih =>
    have hmatch := h (slot.length + 1) slot (by omega)
    rw [Wire.packed, Wire.packed]
    generalize reader slot = left at hmatch
    generalize decoder slot = right at hmatch
    cases hmatch with
    | error fault => exact .nil
    | ok hpair =>
      rename_i left right
      obtain ⟨value, rest⟩ := left
      obtain ⟨other, middle⟩ := right
      obtain ⟨hvalue, rfl⟩ := hpair
      simp only
      by_cases hshorter : rest.length < slot.length
      · rw [if_pos hshorter, if_pos hshorter]
        exact .cons hvalue (ih rest.length (by omega) rest rfl)
      · rw [if_neg hshorter, if_neg hshorter]
        exact .nil

end Follows

end Wire

namespace DecoderItem

/-- The decoder of a record or composite with these fields. -/
def ofStruct (name : String) (fields : List Field) : DecoderItem :=
  .record (Identifier.type name)
    (fields.map fun field => (Identifier.field field.name, NestedReader.ofType field.type))

/-- The decoder of an enum with these variants. -/
def ofEnum (name : String) (variants : List Variant) : DecoderItem :=
  .enum (Identifier.type name) name
    (variants.map fun variant => (variant.discriminant, Identifier.type variant.name))

end DecoderItem

/-- The values of the fields in order, each beside the part that was built for it. -/
inductive FieldsMatch (R : Value → Built → Prop) :
    List Field → List (String × Value) → List (String × Built) → Prop
  | nil : FieldsMatch R [] [] []
  | cons {field : Field} {fields : List Field} {value : Value} {values : List (String × Value)}
      {part : Built} {parts : List (String × Built)} (hvalue : R value part)
      (hrest : FieldsMatch R fields values parts) :
      FieldsMatch R (field :: fields) ((field.name, value) :: values)
        ((Identifier.field field.name, part) :: parts)

namespace Catalog

/-- A relation between values and what is built for them that goes through the declarations of the
catalog. -/
structure Views (catalog : Catalog) (R : Value → Built → Prop) : Prop where
  scalar : ∀ value, R (.scalar value) (.scalar value)
  variant : ∀ name variants, catalog.enums.get? name = some variants → ∀ variant ∈ variants,
    R (.enum name variant.name variant.discriminant)
      (.variant (Identifier.type name) (Identifier.type variant.name))
  struct : ∀ name fields values parts, (name, fields) ∈ catalog.structs →
    FieldsMatch R fields values parts →
    R (.record name values) (.struct (Identifier.type name) parts)
  list : ∀ values parts, List.Forall₂ R values parts → R (.list values) (.list parts)

open Wire (Follows Shrinks)

variable {catalog : Catalog} {R : Value → Built → Prop} {decoders : Decoders} {bound : Nat}

theorem follows_readEach {fields : List Field} (h : ∀ field ∈ fields,
      Follows bound R (catalog.read field.type) ((NestedReader.ofType field.type).run decoders)) :
    Follows bound (FieldsMatch R fields) (catalog.readEach fields)
      (DecoderItem.readEntries decoders
        (fields.map fun field => (Identifier.field field.name, NestedReader.ofType field.type))) := by
  induction fields with
  | nil => exact .pure .nil
  | cons field rest ih =>
    have hrest := ih fun f hf => h f (List.mem_cons_of_mem _ hf)
    apply (h field List.mem_cons_self).bind (shrinks_read field.type)
    intro value part hvalue
    apply hrest.bind (shrinks_readEach rest)
    intro values parts hvalues
    exact .pure (.cons hvalue hvalues)

/-- The body of a struct's decoder matches reading its fields. -/
theorem Views.follows_struct (hviews : catalog.Views R) {name : String} {fields : List Field}
    (hentry : (name, fields) ∈ catalog.structs) (h : ∀ field ∈ fields,
      Follows bound R (catalog.read field.type) ((NestedReader.ofType field.type).run decoders)) :
    Follows bound R (do return .record name (← catalog.readEach fields))
      ((DecoderItem.ofStruct name fields).nestedBody decoders) := by
  apply (follows_readEach h).bind (shrinks_readEach fields)
  intro values parts hparts
  exact .pure (hviews.struct name fields values parts hentry hparts)

/-- A case is found where the variant is. -/
theorem Views.matches_enumValue (hviews : catalog.Views R) {name : String} {variants : List Variant}
    (hget : catalog.enums.get? name = some variants) (discriminant : UInt8) :
    Matches R (catalog.enumValue name discriminant)
      (DecoderItem.variantOf (Identifier.type name) name (variants.map fun variant =>
        (variant.discriminant, Identifier.type variant.name)) discriminant) := by
  rw [enumValue, hget, DecoderItem.variantOf, List.find?_map]
  simp only [Function.comp_def]
  cases hfind : variants.find? (·.discriminant = discriminant) with
  | none => exact .error _
  | some variant =>
    have hmem := List.mem_of_find?_eq_some hfind
    have hdiscriminant : variant.discriminant = discriminant := by
      simpa using List.find?_some hfind
    subst hdiscriminant
    exact .ok (hviews.variant name variants hget variant hmem)

theorem Views.follows_enum (hviews : catalog.Views R) (hacyclic : catalog.Acyclic) {name : String}
    {variants : List Variant} (hget : catalog.enums.get? name = some variants) :
    Follows bound R (catalog.read (.enum name))
      ((DecoderItem.ofEnum name variants).nestedBody decoders) := by
  rw [hacyclic.read_enum]
  apply (Follows.refl Wire.readByte).bind Wire.shrinks_readByte
  intro byte other hbyte
  subst hbyte
  exact .lift (hviews.matches_enumValue hget byte)

theorem Views.follows_primitive (hviews : catalog.Views R) (hacyclic : catalog.Acyclic)
    (kind : Primitive) : Follows bound R (catalog.read (.primitive kind))
      ((NestedReader.scalar kind.codec).run decoders) := by
  rw [hacyclic.read_primitive]
  apply (Follows.refl kind.codec.read).bind kind.codec.shrinks_read
  intro value other hvalue
  subst hvalue
  exact .pure (hviews.scalar value)

theorem Views.follows_list (hviews : catalog.Views R) (hacyclic : catalog.Acyclic)
    {element : ResolvedType} (h : Follows bound R (catalog.read element)
      ((NestedReader.ofType element).run decoders)) :
    Follows (bound + 1) R (catalog.read (.list element))
      ((NestedReader.ofType (.list element)).run decoders) := by
  have hread : Shrinks (catalog.read element) := shrinks_read element
  rw [hacyclic.read_list]
  apply (h.readList hread).bind (Wire.shrinks_readList hread)
  intro values parts hvalues
  exact .pure (hviews.list values parts hvalues)

end Catalog
end ContractAbi
