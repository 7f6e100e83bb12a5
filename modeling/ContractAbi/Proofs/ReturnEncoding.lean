import ContractAbi.Proofs.Contracts
import ContractAbi.Proofs.Scalars

/-!
# Encoding return data

The reference encoding of typed values: inside other data, in a slot of their own, packed into one
slot, and as the outputs of an endpoint over all its slots. Decoding the encoded outputs of an
endpoint gives the values back.
-/
namespace ContractAbi

namespace Catalog

open Wire (prefixed wordBytes Word Argument)

variable (catalog : Catalog)

mutual

/-- A value inside other data: scalars in their nested form, one byte for an enum, the fields of a
record one after the other, and the elements of a list behind their number. -/
def encode : ResolvedType → Value → Bytes
  | .primitive kind, .scalar scalar => kind.codec.nested scalar
  | .enum _, .enum _ _ discriminant => [discriminant]
  | .record name, .record _ values => encodeEntries ((catalog.records.get? name).getD []) values
  | .tuple _ members, .record _ values => encodeEntries (memberFields members) values
  | .list element, .list elements =>
    wordBytes Word.u32.width elements.length ++ encodeElements element elements
  | _, _ => []

def encodeEntries : List Field → List (String × Value) → Bytes
  | field :: fields, (_, value) :: values => encode field.type value ++ encodeEntries fields values
  | _, _ => []

def encodeElements (element : ResolvedType) : List Value → Bytes
  | [] => []
  | value :: values => encode element value ++ encodeElements element values

end

mutual

/-- The value is of the type, and the lengths and counts that are written into the encoding fit
their four bytes. -/
def Fits : ResolvedType → Value → Prop
  | .primitive kind, .scalar scalar =>
    kind.codec.Fits scalar ∧
      (kind.codec.hasPrefix = true → (kind.codec.argument scalar).payload.length < 2 ^ 32)
  | .enum name, .enum type variant discriminant =>
    type = name ∧ ∃ variants, catalog.enums.get? name = some variants ∧
      ⟨variant, discriminant⟩ ∈ variants
  | .record name, .record type values =>
    type = name ∧ ∃ fields, catalog.records.get? name = some fields ∧ FitsFields fields values
  | .tuple name members, .record type values =>
    type = name ∧ FitsFields (memberFields members) values
  | .list element, .list elements => elements.length < 2 ^ 32 ∧ FitsElements element elements
  | _, _ => False

def FitsFields : List Field → List (String × Value) → Prop
  | [], [] => True
  | field :: fields, (name, value) :: values =>
    name = field.name ∧ Fits field.type value ∧ FitsFields fields values
  | _, _ => False

def FitsElements (element : ResolvedType) : List Value → Prop
  | [] => True
  | value :: values => Fits element value ∧ FitsElements element values

end

/-- A value in a slot of its own: the argument of a scalar or a discriminant, or the nested form. -/
def encodeSlot : ResolvedType → Value → Bytes
  | .primitive kind, .scalar scalar => (kind.codec.argument scalar).payload
  | .enum _, .enum _ _ discriminant => (Argument.word .u8 discriminant.toNat).payload
  | type, value => catalog.encode type value

/-- In a slot of its own a scalar has no length in front. -/
def FitsSlot : ResolvedType → Value → Prop
  | .primitive kind, .scalar scalar => kind.codec.Fits scalar
  | type, value => catalog.Fits type value

/-- Elements that are packed back to back are of the type, and none of them is empty. -/
def FitsPacked (element : ResolvedType) (elements : List Value) : Prop :=
  ∀ value ∈ elements, catalog.Fits element value ∧ catalog.encode element value ≠ []

/-- A member of a group in its slot; a list is packed. -/
def encodeMember : ResolvedType → Value → Bytes
  | .list element, .list elements => catalog.encodeElements element elements
  | type, value => catalog.encodeSlot type value

def FitsMember : ResolvedType → Value → Prop
  | .list element, .list elements => catalog.FitsPacked element elements
  | type, value => catalog.FitsSlot type value

/-- A group takes one slot for each member. -/
def encodeGroup (members : List ResolvedType) : Value → List Bytes
  | .record _ values => List.zipWith (fun member entry => catalog.encodeMember member entry.2) members values
  | _ => []

def FitsGroup (name : String) (members : List ResolvedType) : Value → Prop
  | .record type values =>
    type = name ∧ List.Forall₂ (fun field entry => entry.1 = field.name ∧
      catalog.FitsMember field.type entry.2) (memberFields members) values
  | _ => False

/-- The slots of one output. -/
def encodeOutput : ResolvedType → Value → List Bytes
  | .list element, .list elements =>
    if element.isRecordLike then [catalog.encodeElements element elements]
    else elements.map (catalog.encodeSlot element)
  | .variadic element, .list elements => elements.map (catalog.encodeSlot element)
  | .variadicMulti _ members, .list groups => groups.flatMap (catalog.encodeGroup members)
  | .multi _ members, group => catalog.encodeGroup members group
  | type, value => [catalog.encodeSlot type value]

def FitsOutput : ResolvedType → Value → Prop
  | .list element, .list elements =>
    if element.isRecordLike then catalog.FitsPacked element elements
    else ∀ value ∈ elements, catalog.FitsSlot element value
  | .variadic element, .list elements => ∀ value ∈ elements, catalog.FitsSlot element value
  | .variadicMulti name members, .list groups => ∀ group ∈ groups, catalog.FitsGroup name members group
  | .multi name members, group => catalog.FitsGroup name members group
  | type, value => catalog.FitsSlot type value

/-- The slots of all outputs. -/
def encodeOutputs (types : List ResolvedType) (values : List Value) : List Bytes :=
  (List.zipWith catalog.encodeOutput types values).flatten

/-- What the records and enums of a catalog need for their values to be told apart. -/
structure Readable : Prop where
  acyclic : catalog.Acyclic
  fieldNames : ∀ name fields, catalog.records.get? name = some fields → (fields.map (·.name)).Nodup
  discriminants : ∀ name variants, catalog.enums.get? name = some variants →
    (variants.map (·.discriminant)).Nodup

variable {catalog}

theorem fitsElements_iff {element : ResolvedType} {elements : List Value} :
    catalog.FitsElements element elements ↔ ∀ value ∈ elements, catalog.Fits element value := by
  induction elements with
  | nil => simp [FitsElements]
  | cons value rest ih => simp [FitsElements, ih]

theorem enumValue_of_mem {name variant : String} {discriminant : UInt8} {variants : List Variant}
    (hget : catalog.enums.get? name = some variants) (hmem : ⟨variant, discriminant⟩ ∈ variants)
    (hdistinct : (variants.map (·.discriminant)).Nodup) :
    catalog.enumValue name discriminant = .ok (.enum name variant discriminant) := by
  have hfind : variants.find? (·.discriminant = discriminant) = some ⟨variant, discriminant⟩ := by
    clear hget
    induction variants with
    | nil => exact absurd hmem List.not_mem_nil
    | cons first rest ih =>
      rw [List.map_cons, List.nodup_cons] at hdistinct
      rcases List.mem_cons.1 hmem with rfl | hmem
      · simp
      · have hne : first.discriminant ≠ discriminant := fun he =>
          hdistinct.1 (he ▸ List.mem_map.2 ⟨_, hmem, rfl⟩)
        rw [List.find?_cons_of_neg (by simpa using hne)]
        exact ih hmem hdistinct.2
  rw [enumValue, hget]
  simp only [hfind]

section Nested

variable {readNamed : String → Wire.Reader Value}

/-- Fields that are read one after the other are put behind those read before. -/
theorem readFields_encodeEntries {fields : List Field} {values : List (String × Value)}
    (hfits : catalog.FitsFields fields values)
    (hread : ∀ entry ∈ values, ∀ type, catalog.Fits type entry.2 → ∀ rest,
      readType catalog readNamed type (catalog.encode type entry.2 ++ rest) = .ok (entry.2, rest))
    (before : List (String × Value))
    (hnew : (before.map (·.1) ++ fields.map (·.name)).Nodup) (rest : Bytes) :
    readFields catalog readNamed before fields (catalog.encodeEntries fields values ++ rest) =
      .ok (before ++ values, rest) := by
  induction fields generalizing values before with
  | nil =>
    cases values with
    | nil =>
      rw [List.append_nil]
      rfl
    | cons entry rest => exact absurd hfits id
  | cons field fields ih =>
    cases values with
    | nil => exact absurd hfits id
    | cons entry values =>
      obtain ⟨name, value⟩ := entry
      obtain ⟨rfl, hvalue, hvalues⟩ := hfits
      have hfirst := hread _ List.mem_cons_self field.type hvalue
        (catalog.encodeEntries fields values ++ rest)
      have hput : putEntry field.name value before = before ++ [(field.name, value)] := by
        apply putEntry_of_not_mem
        intro hmem
        exact List.disjoint_of_nodup_append hnew hmem List.mem_cons_self
      rw [encodeEntries, readFields, Wire.Reader.bind_apply, List.append_assoc, hfirst]
      simp only [hput]
      rw [ih hvalues (fun e he => hread e (List.mem_cons_of_mem _ he)), List.append_assoc]
      · rfl
      · simpa [List.map_append, List.append_assoc] using hnew

theorem readMembers_encodeEntries {members : List ResolvedType} {values : List (String × Value)}
    (index : Nat) (hfits : catalog.FitsFields (memberFieldsFrom index members) values)
    (hread : ∀ entry ∈ values, ∀ type, catalog.Fits type entry.2 → ∀ rest,
      readType catalog readNamed type (catalog.encode type entry.2 ++ rest) = .ok (entry.2, rest))
    (rest : Bytes) :
    readMembers catalog readNamed index members
        (catalog.encodeEntries (memberFieldsFrom index members) values ++ rest) =
      .ok (values, rest) := by
  induction members generalizing values index with
  | nil =>
    cases values with
    | nil => rfl
    | cons entry rest => exact absurd hfits id
  | cons member members ih =>
    cases values with
    | nil => exact absurd hfits id
    | cons entry values =>
      obtain ⟨name, value⟩ := entry
      obtain ⟨rfl, hvalue, hvalues⟩ := hfits
      have hfirst := hread _ List.mem_cons_self member hvalue
        (catalog.encodeEntries (memberFieldsFrom (index + 1) members) values ++ rest)
      have hrest := ih (index + 1) hvalues fun e he => hread e (List.mem_cons_of_mem _ he)
      rw [readMembers, Wire.Reader.bind_apply, memberFieldsFrom, encodeEntries, List.append_assoc,
        hfirst]
      simp only [Wire.Reader.bind_apply, hrest]
      rfl

theorem readTimes_encodeElements {item : Wire.Reader Value} {element : ResolvedType}
    {elements : List Value}
    (hread : ∀ value ∈ elements, ∀ rest, item (catalog.encode element value ++ rest) = .ok (value, rest))
    (rest : Bytes) :
    Wire.readTimes item elements.length (catalog.encodeElements element elements ++ rest) =
      .ok (elements, rest) := by
  induction elements with
  | nil => rfl
  | cons value elements ih =>
    have hfirst := hread value List.mem_cons_self (catalog.encodeElements element elements ++ rest)
    have hrest := ih fun v hv => hread v (List.mem_cons_of_mem _ hv)
    rw [List.length_cons, Wire.readTimes, Wire.Reader.bind_apply, encodeElements, List.append_assoc,
      hfirst]
    simp only [Wire.Reader.bind_apply, hrest]
    rfl

end Nested

/-- An encoded value at the front of other bytes is read back, and the bytes behind it are left. -/
theorem Readable.read_encode (h : catalog.Readable) {type : ResolvedType} {value : Value}
    (hfits : catalog.Fits type value) (rest : Bytes) :
    catalog.read type (catalog.encode type value ++ rest) = .ok (value, rest) := by
  induction value using Value.memberInduction generalizing type rest with
  | scalar scalar =>
    cases type with
    | primitive kind =>
      obtain ⟨hscalar, hlength⟩ := hfits
      change (kind.codec.read >>= fun s => pure (Value.scalar s)) (kind.codec.nested scalar ++ rest) = _
      rw [Wire.Reader.bind_apply, Wire.Codec.read_nested hscalar hlength]
      rfl
    | _ => exact absurd hfits id
  | enum name variant discriminant =>
    cases type with
    | enum declared =>
      obtain ⟨rfl, variants, hget, hmem⟩ := hfits
      have hvalue := enumValue_of_mem hget hmem (h.discriminants _ _ hget)
      change (Wire.readByte >>= fun byte => liftM (catalog.enumValue name byte))
        (discriminant :: rest) = _
      rw [Wire.Reader.bind_apply, Wire.readByte_cons]
      simp only [hvalue]
      rfl
    | _ => exact absurd hfits id
  | record name values ih =>
    have hread : ∀ entry ∈ values, ∀ type, catalog.Fits type entry.2 → ∀ rest,
        readType catalog (fun inner => catalog.read (.record inner)) type
          (catalog.encode type entry.2 ++ rest) = .ok (entry.2, rest) := by
      intro entry hentry type hfits rest
      rw [← h.acyclic.read_eq]
      exact ih entry hentry hfits rest
    cases type with
    | record declared =>
      obtain ⟨rfl, fields, hget, hvalues⟩ := hfits
      have hfields := readFields_encodeEntries hvalues hread [] (h.fieldNames _ _ hget) rest
      rw [h.acyclic.read_record hget, Wire.Reader.bind_apply, encode, hget]
      simp only [Option.getD_some, hfields]
      rfl
    | tuple declared members =>
      obtain ⟨rfl, hvalues⟩ := hfits
      rw [memberFields_eq] at hvalues
      have hmembers := readMembers_encodeEntries 0 hvalues hread rest
      rw [h.acyclic.read_eq, readType, Wire.Reader.bind_apply, encode, memberFields_eq, hmembers]
      rfl
    | _ => exact absurd hfits id
  | list elements ih =>
    cases type with
    | list element =>
      obtain ⟨hcount, helements⟩ := hfits
      have hread : ∀ value ∈ elements, ∀ rest,
          readType catalog (fun inner => catalog.read (.record inner)) element
            (catalog.encode element value ++ rest) = .ok (value, rest) := by
        intro value hvalue rest
        rw [← h.acyclic.read_eq]
        exact ih value hvalue (fitsElements_iff.1 helements value hvalue) rest
      have htimes := readTimes_encodeElements hread rest
      rw [h.acyclic.read_eq, readType, Wire.Reader.bind_apply, encode, List.append_assoc,
        Wire.readList, Wire.Reader.bind_apply, Wire.readWord_append hcount]
      simp only [htimes]
      rfl
    | _ => exact absurd hfits id

section Slots

variable (h : catalog.Readable) {type element : ResolvedType} {value : Value} {elements : List Value}

include h

theorem Readable.topRead_encode (hfits : catalog.Fits type value) :
    Wire.topRead (catalog.read type) (catalog.encode type value) = .ok value := by
  have hread := h.read_encode hfits []
  rw [List.append_nil] at hread
  rw [Wire.topRead, hread]
  rfl

/-- A value that fills a slot is decoded from it. -/
theorem Readable.decodeSlot_encodeSlot (hcheck : checkTopLevel type = .ok ())
    (hfits : catalog.FitsSlot type value) :
    catalog.decodeSlot type (catalog.encodeSlot type value) = .ok value := by
  cases type with
  | primitive kind =>
    cases value with
    | scalar scalar =>
      have htop := Wire.Codec.top_argument hfits
      rw [decodeSlot, encodeSlot, htop]
      rfl
    | _ => exact absurd hfits id
  | enum name =>
    cases value with
    | enum declared variant discriminant =>
      obtain ⟨rfl, variants, hget, hmem⟩ := hfits
      have hlt : discriminant.toNat < 256 ^ Word.u8.width := discriminant.toNat_lt
      have hword : Wire.topWord .u8 (wordBytes Word.u8.width discriminant.toNat) =
          .ok discriminant.toNat := Wire.Codec.topWord_wordBytes hlt
      have hvalue := enumValue_of_mem hget hmem (h.discriminants _ _ hget)
      rw [decodeSlot, encodeSlot, Argument.payload, hword]
      change catalog.enumValue declared (UInt8.ofNat discriminant.toNat) = _
      rw [UInt8.ofNat_toNat, hvalue]
    | _ => exact absurd hfits id
  | record name =>
    cases value with
    | record declared values => exact h.topRead_encode hfits
    | _ => exact absurd hfits id
  | tuple name members =>
    cases value with
    | record declared values => exact h.topRead_encode hfits
    | _ => exact absurd hfits id
  | list element => cases hcheck
  | variadic element => cases hcheck
  | variadicMulti name members => cases hcheck
  | multi name members => cases hcheck

/-- Packed elements are read until the slot is used up. -/
theorem Readable.packed_encodeElements (hfits : catalog.FitsPacked element elements) :
    Wire.packed (catalog.read element) (catalog.encodeElements element elements) = elements := by
  induction elements with
  | nil =>
    rw [Wire.packed, encodeElements]
    cases catalog.read element [] with
    | error fault => rfl
    | ok pair => exact if_neg (Nat.not_lt_zero _)
  | cons value rest ih =>
    obtain ⟨hvalue, hne⟩ := hfits value List.mem_cons_self
    have hread := h.read_encode hvalue (catalog.encodeElements element rest)
    have hpos : 0 < (catalog.encode element value).length := List.length_pos_iff.2 hne
    have hless : (catalog.encodeElements element rest).length <
        (catalog.encode element value ++ catalog.encodeElements element rest).length := by
      rw [List.length_append]
      omega
    rw [Wire.packed, encodeElements, hread]
    simp only
    rw [if_pos hless, ih fun v hv => hfits v (List.mem_cons_of_mem _ hv)]

theorem Readable.decodeMember_encodeMember (hcheck : checkGroupMember type = .ok ())
    (hfits : catalog.FitsMember type value) :
    catalog.decodeMember type (catalog.encodeMember type value) = .ok value := by
  cases type with
  | list element =>
    rw [checkGroupMember] at hcheck
    split at hcheck
    · rename_i hrecord
      cases value with
      | list elements =>
        rw [decodeMember, if_pos hrecord, encodeMember, decodePacked, h.packed_encodeElements hfits]
      | _ => exact absurd hfits id
    · cases hcheck
  | primitive kind => exact @Readable.decodeSlot_encodeSlot catalog h (.primitive kind) value rfl hfits
  | enum name => exact @Readable.decodeSlot_encodeSlot catalog h (.enum name) value rfl hfits
  | record name => exact @Readable.decodeSlot_encodeSlot catalog h (.record name) value rfl hfits
  | tuple name members =>
    rw [checkGroupMember] at hcheck
    · exact @Readable.decodeSlot_encodeSlot catalog h (.tuple name members) value hcheck hfits
    · exact fun element he => ResolvedType.noConfusion he
  | variadic element => cases hcheck
  | variadicMulti name members => cases hcheck
  | multi name members => cases hcheck

theorem Readable.decodeMembers_encode {members : List ResolvedType} {values : List (String × Value)}
    (index : Nat) (hcheck : checkGroup members = .ok ())
    (hfits : List.Forall₂ (fun field entry => entry.1 = field.name ∧
      catalog.FitsMember field.type entry.2) (memberFieldsFrom index members) values) :
    catalog.decodeMembers index members
        (List.zipWith (fun member entry => catalog.encodeMember member entry.2) members values) =
      .ok values := by
  induction members generalizing index values with
  | nil =>
    cases hfits
    rfl
  | cons member rest ih =>
    rw [memberFieldsFrom] at hfits
    cases hfits with
    | cons hfirst hrest =>
      rename_i entry values
      obtain ⟨name, value⟩ := entry
      obtain ⟨rfl, hvalue⟩ := hfirst
      rw [checkGroup] at hcheck
      obtain ⟨_, hmember, hothers⟩ := of_bind_eq_ok hcheck
      have hdecode := h.decodeMember_encodeMember hmember hvalue
      have htail := ih (index + 1) hothers hrest
      rw [List.zipWith_cons_cons, decodeMembers, hdecode]
      simp only [bind, Except.bind, htail]
      rfl

/-- The slots of a group are decoded member by member. -/
theorem Readable.decodeGroup_encodeGroup {name : String} {members : List ResolvedType}
    (hcheck : checkGroup members = .ok ()) (hfits : catalog.FitsGroup name members value) :
    catalog.decodeGroup name members (catalog.encodeGroup members value) = .ok value := by
  cases value with
  | record declared values =>
    obtain ⟨rfl, hvalues⟩ := hfits
    rw [memberFields_eq] at hvalues
    rw [decodeGroup, encodeGroup, h.decodeMembers_encode 0 hcheck hvalues]
    rfl
  | _ => exact absurd hfits id

omit h in
theorem length_encodeGroup {name : String} {members : List ResolvedType}
    (hfits : catalog.FitsGroup name members value) :
    (catalog.encodeGroup members value).length = members.length := by
  cases value with
  | record declared values =>
    have hlength := hfits.2.length_eq
    rw [length_memberFields] at hlength
    rw [encodeGroup, List.length_zipWith]
    omega
  | _ => exact absurd hfits id

end Slots

end Catalog

namespace ReturnData

variable {α : Type} (endpoint : String) (before after : List Bytes)

theorem scalar_at (slot : Bytes) (decode : Bytes → Except Wire.Fault α) :
    ReturnData.scalar ⟨endpoint, before ++ slot :: after⟩ before.length decode =
      ReturnData.blame ⟨endpoint, before ++ slot :: after⟩ before.length (decode slot) := by
  have hslot : ReturnData.slot ⟨endpoint, before ++ slot :: after⟩ before.length = .ok slot := by
    simp [ReturnData.slot]
  rw [ReturnData.scalar, hslot]
  rfl

theorem selfTerminating_at (slot : Bytes) (item : Wire.Reader α) :
    ReturnData.selfTerminating ⟨endpoint, before ++ slot :: after⟩ before.length item =
      Wire.packed item slot := by
  simp [ReturnData.selfTerminating]

theorem eachSlot_at (decode : Bytes → Except Wire.Fault α) :
    ReturnData.eachSlot ⟨endpoint, before ++ after⟩ before.length decode =
      after.filterMap fun slot => (decode slot).toOption := by
  rw [ReturnData.eachSlot, List.drop_left]

theorem groups_at (width : Nat) (decode : List Bytes → Except Wire.Fault α) :
    ReturnData.groups ⟨endpoint, before ++ after⟩ before.length width decode =
      (completeGroups width after).filterMap fun group => (decode group).toOption := by
  rw [ReturnData.groups, List.drop_left]

theorem group_at (group : List Bytes) (decode : List Bytes → Except Wire.Fault α) :
    ReturnData.group ⟨endpoint, before ++ (group ++ after)⟩ before.length group.length decode =
      ReturnData.blame ⟨endpoint, before ++ (group ++ after)⟩ before.length (decode group) := by
  have hroom : ¬ (before ++ (group ++ after)).length < before.length + group.length := by
    simp only [List.length_append]
    omega
  rw [ReturnData.group, if_neg hroom, List.drop_left, List.take_left]

end ReturnData

namespace Catalog

open Wire (prefixed wordBytes Word Argument)

variable {catalog : Catalog}

theorem filterMap_toOption_map {α β : Type} {encode : α → β} {decode : β → Except Wire.Fault α}
    {values : List α} (h : ∀ value ∈ values, decode (encode value) = .ok value) :
    (values.map encode).filterMap (fun slot => (decode slot).toOption) = values := by
  induction values with
  | nil => rfl
  | cons value rest ih =>
    have hfirst : (decode (encode value)).toOption = some value := by
      rw [h value List.mem_cons_self]
      rfl
    rw [List.map_cons, List.filterMap_cons, hfirst]
    simp only [ih fun v hv => h v (List.mem_cons_of_mem _ hv)]

theorem completeGroups_flatMap {encode : Value → List Bytes} {width : Nat} {groups : List Value}
    (hwidth : 0 < width) (h : ∀ group ∈ groups, (encode group).length = width) :
    ReturnData.completeGroups width (groups.flatMap encode) = groups.map encode := by
  induction groups with
  | nil =>
    rw [List.flatMap_nil, ReturnData.completeGroups, if_neg]
    · rfl
    · simp only [List.length_nil, not_and, Nat.not_le]
      exact fun _ => hwidth
  | cons group rest ih =>
    have hlength := h group List.mem_cons_self
    have hroom : 0 < width ∧ width ≤ (encode group ++ rest.flatMap encode).length := by
      rw [List.length_append]
      omega
    rw [List.flatMap_cons, ReturnData.completeGroups, if_pos hroom, List.take_left' hlength,
      List.drop_left' hlength, ih fun g hg => h g (List.mem_cons_of_mem _ hg), List.map_cons]

variable {type element : ResolvedType} {value : Value} {elements : List Value}

/-- How many slots an output takes if its strategy fixes the number. -/
theorem length_encodeOutput {strategy : Strategy} (hsuits : Strategy.Suits type strategy)
    (hfits : catalog.FitsOutput type value) {width : Nat} (hspan : strategy.span? = some width) :
    (catalog.encodeOutput type value).length = width := by
  cases hsuits with
  | packed hrecord hcheck =>
    obtain rfl := Option.some.inj hspan
    cases value with
    | list elements => rw [encodeOutput, if_pos hrecord, List.length_singleton]
    | _ => exact absurd hfits id
  | spread hrecord hcheck => cases hspan
  | variadic hcheck => cases hspan
  | groups hcheck => cases hspan
  | group hcheck =>
    obtain rfl := Option.some.inj hspan
    exact length_encodeGroup hfits
  | scalar htop hcheck =>
    obtain rfl := Option.some.inj hspan
    cases type with
    | primitive kind => rfl
    | record name => rfl
    | enum name => rfl
    | tuple name members => rfl
    | _ => cases htop

/-- Elements that fill a slot each are read back from the slots that are left. -/
theorem Readable.eachSlot_encodeSlot (h : catalog.Readable) (hcheck : checkTopLevel element = .ok ())
    (hfits : ∀ value ∈ elements, catalog.FitsSlot element value) (endpoint : String)
    (before : List Bytes) :
    ReturnData.eachSlot ⟨endpoint, before ++ elements.map (catalog.encodeSlot element)⟩ before.length
      (catalog.decodeSlot element) = elements := by
  rw [ReturnData.eachSlot_at]
  exact filterMap_toOption_map fun value hvalue => h.decodeSlot_encodeSlot hcheck (hfits value hvalue)

/-- Groups with members are read back from the slots that are left. -/
theorem Readable.groups_encodeGroup (h : catalog.Readable) {name : String}
    {members : List ResolvedType} {groups : List Value} (hcheck : checkGroup members = .ok ())
    (hne : members ≠ []) (hfits : ∀ group ∈ groups, catalog.FitsGroup name members group)
    (endpoint : String) (before : List Bytes) :
    ReturnData.groups ⟨endpoint, before ++ groups.flatMap (catalog.encodeGroup members)⟩ before.length
      members.length (catalog.decodeGroup name members) = groups := by
  have hslots := completeGroups_flatMap (List.length_pos_iff.2 hne) fun group hgroup =>
    length_encodeGroup (hfits group hgroup)
  rw [ReturnData.groups_at, hslots]
  exact filterMap_toOption_map fun group hgroup => h.decodeGroup_encodeGroup hcheck (hfits group hgroup)

/-- An output is decoded from its slots, wherever they stand. One that repeats has to be the last. -/
theorem Readable.decodeOutput_encodeOutput (h : catalog.Readable) {strategy : Strategy}
    (hsuits : Strategy.Suits type strategy) (hfits : catalog.FitsOutput type value)
    (hwidth : ∀ name members, type = .variadicMulti name members → members ≠ [])
    (endpoint : String) (before after : List Bytes) (hafter : strategy.span? = none → after = []) :
    catalog.decodeOutput ⟨endpoint, before ++ (catalog.encodeOutput type value ++ after)⟩ type
      ⟨strategy, before.length⟩ = .ok value := by
  cases hsuits with
  | packed hrecord hcheck =>
    cases value with
    | list elements =>
      rw [FitsOutput, if_pos hrecord] at hfits
      rw [encodeOutput, if_pos hrecord]
      change Except.ok (Value.list _) = _
      rw [List.singleton_append, ReturnData.selfTerminating_at, h.packed_encodeElements hfits]
    | _ => exact absurd hfits id
  | spread hrecord hcheck =>
    cases value with
    | list elements =>
      rw [FitsOutput, hrecord] at hfits
      rw [encodeOutput, hrecord, hafter rfl, List.append_nil]
      exact congrArg (fun values => Except.ok (Value.list values))
        (h.eachSlot_encodeSlot hcheck hfits endpoint before)
    | _ => exact absurd hfits id
  | variadic hcheck =>
    cases value with
    | list elements =>
      rw [encodeOutput, hafter rfl, List.append_nil]
      exact congrArg (fun values => Except.ok (Value.list values))
        (h.eachSlot_encodeSlot hcheck hfits endpoint before)
    | _ => exact absurd hfits id
  | groups hcheck =>
    rename_i name members
    cases value with
    | list groups =>
      rw [encodeOutput, hafter rfl, List.append_nil]
      exact congrArg (fun values => Except.ok (Value.list values))
        (h.groups_encodeGroup hcheck (hwidth name members rfl) hfits endpoint before)
    | _ => exact absurd hfits id
  | group hcheck =>
    rename_i name members
    have hlength := length_encodeGroup hfits
    have hdecode := h.decodeGroup_encodeGroup hcheck hfits
    rw [encodeOutput]
    change Except.mapError _ (ReturnData.group _ before.length members.length _) = _
    rw [← hlength, ReturnData.group_at, hdecode]
    rfl
  | scalar htop hcheck =>
    have hslot : catalog.encodeOutput type value = [catalog.encodeSlot type value] ∧
        catalog.FitsSlot type value := by
      cases type with
      | primitive kind => exact ⟨rfl, hfits⟩
      | record name => exact ⟨rfl, hfits⟩
      | enum name => exact ⟨rfl, hfits⟩
      | tuple name members => exact ⟨rfl, hfits⟩
      | _ => cases htop
    have hdecode := h.decodeSlot_encodeSlot hcheck hslot.2
    rw [hslot.1]
    change Except.mapError _ (ReturnData.scalar _ before.length _) = _
    rw [List.singleton_append, ReturnData.scalar_at, hdecode]
    rfl

/-- Outputs that are planned from a slot on are decoded from there on. -/
theorem Readable.decodePlanned_encodeOutputs (h : catalog.Readable) (endpoint : String)
    {types : List ResolvedType} {values : List Value} {plans : List OutputPlan} {before : List Bytes}
    (hplans : planFrom (some before.length) types = .ok plans)
    (hfits : List.Forall₂ catalog.FitsOutput types values)
    (hwidth : ∀ name members, .variadicMulti name members ∈ types → members ≠ []) :
    catalog.decodePlanned ⟨endpoint, before ++ catalog.encodeOutputs types values⟩ (types.zip plans) =
      .ok values := by
  induction types generalizing values plans before with
  | nil =>
    cases hfits
    rfl
  | cons type rest ih =>
    cases hfits with
    | cons hvalue hvalues =>
      rename_i value values
      obtain ⟨strategy, others, hselect, hothers, rfl⟩ := of_planFrom hplans
      have hsuits := Strategy.suits_of_select hselect
      have hall : catalog.encodeOutputs (type :: rest) (value :: values) =
          catalog.encodeOutput type value ++ catalog.encodeOutputs rest values := by
        rw [encodeOutputs, List.zipWith_cons_cons, List.flatten_cons]
        rfl
      have hafter : strategy.span? = none → catalog.encodeOutputs rest values = [] := by
        intro hspan
        rw [hspan] at hothers
        obtain rfl := eq_nil_of_planFrom_none hothers
        rfl
      have hfirst := h.decodeOutput_encodeOutput hsuits hvalue
        (fun name members he => hwidth name members (he ▸ List.mem_cons_self)) endpoint before
        (catalog.encodeOutputs rest values) hafter
      have hrest : catalog.decodePlanned
          ⟨endpoint, before ++ (catalog.encodeOutput type value ++ catalog.encodeOutputs rest values)⟩
          (rest.zip others) = .ok values := by
        cases hspan : strategy.span? with
        | none =>
          rw [hspan] at hothers
          obtain rfl := eq_nil_of_planFrom_none hothers
          cases hvalues
          rfl
        | some width =>
          have hlength : (before ++ catalog.encodeOutput type value).length = before.length + width := by
            rw [List.length_append, length_encodeOutput hsuits hvalue hspan]
          rw [hspan, Option.map_some, ← hlength] at hothers
          rw [← List.append_assoc]
          exact ih hothers hvalues fun name members hmem =>
            hwidth name members (List.mem_cons_of_mem _ hmem)
      rw [hall, List.zip_cons_cons, decodePlanned, hfirst]
      simp only [bind, Except.bind, hrest]
      rfl

end Catalog

/-- Decoding the slots of encoded outputs gives the outputs back, for every readonly endpoint of
every contract. -/
theorem decodeOutputs_encodeOutputs {policy : EndpointPolicy} {document : Document}
    {contract : Contract} (hcontract : Contract.ofDocument policy document = .ok contract)
    (hacyclic : contract.catalog.Acyclic)
    (hnames : ∀ name fields, contract.catalog.records.get? name = some fields →
      (fields.map (·.name)).Nodup)
    {endpoint : Endpoint} (hendpoint : endpoint ∈ contract.endpoints)
    (hkind : endpoint.kind = .readonly) {values : List Value}
    (hfits : List.Forall₂ contract.catalog.FitsOutput endpoint.outputTypes values) :
    contract.catalog.decodeOutputs endpoint.name endpoint.outputTypes
      (contract.catalog.encodeOutputs endpoint.outputTypes values) = .ok values := by
  obtain ⟨session, hmodels⟩ := Contract.exists_models hcontract
  have hreadable : contract.catalog.Readable :=
    ⟨hacyclic, hnames, fun name variants hget => hmodels.discriminants_nodup hget⟩
  have hadmits := hmodels.endpoints endpoint hendpoint
  have hwidth : ∀ name members, .variadicMulti name members ∈ endpoint.outputTypes → members ≠ [] := by
    intro name members hmem
    obtain ⟨output, houtput, htype⟩ := List.mem_map.1 hmem
    exact hmodels.members_ne_nil (htype ▸ hadmits.outputs hkind output houtput)
  rw [hmodels.decodeOutputs_eq hendpoint hkind]
  exact @Catalog.Readable.decodePlanned_encodeOutputs _ hreadable endpoint.name _ _ _ []
    (hadmits.plans hkind) hfits hwidth

/-- A document with nested records, an enum and a readonly endpoint with outputs of three kinds. -/
def vault : Document where
  buildInfo := ⟨none, ⟨"multiversx-sc", "0.43.3"⟩⟩
  docs := []
  name := "Vault"
  constructor := none
  endpoints := [⟨"getAll", [], false, .readonly, [], [],
    [⟨"", "tuple<Stake,State>", false⟩, ⟨"", "List<Stake>", false⟩,
      ⟨"", "variadic<multi<bytes,BigInt>>", true⟩]⟩]
  events := []
  hasCallbacks := false
  types := NameMap.ofList
    [("Stake", .record [] [⟨"share", "Share"⟩, ⟨"epochs", "List<u16>"⟩]),
      ("Share", .record [] [⟨"amount", "BigUint"⟩]),
      ("State", .enum [] [⟨"Idle", 0⟩, ⟨"Busy", 3⟩])]

def vaultCatalog : Catalog where
  records := NameMap.ofList
    [("Stake", [⟨"share", .record "Share"⟩, ⟨"epochs", .list (.primitive .u16)⟩]),
      ("Share", [⟨"amount", .primitive .bigUint⟩])]
  enums := NameMap.ofList [("State", [⟨"Idle", 0⟩, ⟨"Busy", 3⟩])]
  composites := NameMap.ofList
    [("ComplexType0", [⟨"var0", .record "Stake"⟩, ⟨"var1", .enum "State"⟩]),
      ("ComplexType1", [⟨"var0", .primitive .bytes⟩, ⟨"var1", .primitive .bigInt⟩])]

def vaultEndpoint : Endpoint where
  name := "getAll"
  methodName := "get_all"
  docs := []
  kind := .readonly
  onlyOwner := false
  acceptsTokenPayment := false
  inputs := []
  outputs := [⟨none, .tuple "ComplexType0" [.record "Stake", .enum "State"], false⟩,
    ⟨none, .list (.record "Stake"), false⟩,
    ⟨none, .variadicMulti "ComplexType1" [.primitive .bytes, .primitive .bigInt], true⟩]
  plans := [⟨.scalar, 0⟩, ⟨.selfTerminating, 1⟩, ⟨.groups 2, 2⟩]

theorem vault_contract : ∃ contract, Contract.ofDocument .strict vault = .ok contract ∧
    contract.catalog = vaultCatalog ∧ contract.endpoints = [vaultEndpoint] := by
  have hview : (Contract.ofDocument .strict vault).map
      (fun contract => (contract.catalog, contract.endpoints)) =
        .ok (vaultCatalog, [vaultEndpoint]) := by decide +kernel
  cases hcontract : Contract.ofDocument .strict vault with
  | error fault =>
    rw [hcontract] at hview
    cases hview
  | ok contract =>
    rw [hcontract] at hview
    have hpair := Except.ok.inj hview
    exact ⟨contract, rfl, congrArg Prod.fst hpair, congrArg Prod.snd hpair⟩

/-- A stake of the vault with its share and epochs. -/
def stake (amount : Int) (epochs : List Nat) : Value :=
  .record "Stake" [("share", .record "Share" [("amount", .scalar (.integer amount))]),
    ("epochs", .list (epochs.map fun epoch => .scalar (.unsigned epoch)))]

def vaultValues : List Value :=
  [.record "ComplexType0" [("var0", stake 300 [1, 65535]), ("var1", .enum "State" "Busy" 3)],
    .list [stake 0 [], stake 7 [2]],
    .list [.record "ComplexType1" [("var0", .scalar (.bytes [1, 2])), ("var1", .scalar (.integer (-129)))]]]

theorem vaultCatalog_records {name : String} {fields : List Field}
    (h : vaultCatalog.records.get? name = some fields) :
    (name = "Stake" ∧ fields = [⟨"share", .record "Share"⟩, ⟨"epochs", .list (.primitive .u16)⟩]) ∨
      (name = "Share" ∧ fields = [⟨"amount", .primitive .bigUint⟩]) := by
  have hentries : vaultCatalog.records.entries =
      [("Stake", [⟨"share", .record "Share"⟩, ⟨"epochs", .list (.primitive .u16)⟩]),
        ("Share", [⟨"amount", .primitive .bigUint⟩])] := by decide
  have hmem := NameMap.get?_eq_some_iff.1 h
  rw [hentries] at hmem
  simpa using hmem

theorem vaultCatalog_acyclic : vaultCatalog.Acyclic := by
  refine @Catalog.acyclic_of_layer _ (fun name => if name = "Stake" then 1 else 0) ?_
  rintro outer inner ⟨fields, hget, field, hfield, hinner⟩
  rcases vaultCatalog_records hget with ⟨rfl, rfl⟩ | ⟨rfl, rfl⟩
  · fin_cases hfield
    · obtain rfl := List.mem_singleton.1 hinner
      decide
    · exact absurd hinner List.not_mem_nil
  · fin_cases hfield
    exact absurd hinner List.not_mem_nil

theorem fits_stake {amount : Int} {epochs : List Nat} (hamount : 0 ≤ amount)
    (hlength : (Wire.naturalBytes amount.toNat).length < 2 ^ 32) (hcount : epochs.length < 2 ^ 32)
    (hepochs : ∀ epoch ∈ epochs, epoch < 65536) :
    vaultCatalog.Fits (.record "Stake") (stake amount epochs) := by
  refine ⟨rfl, _, rfl, rfl, ⟨rfl, _, rfl, rfl, ⟨hamount, fun _ => hlength⟩, trivial⟩, rfl, ⟨?_, ?_⟩, trivial⟩
  · simpa using hcount
  · apply Catalog.fitsElements_iff.2
    intro value hvalue
    obtain ⟨epoch, hepoch, rfl⟩ := List.mem_map.1 hvalue
    exact ⟨hepochs epoch hepoch, fun h => by cases h⟩

theorem vault_fits : List.Forall₂ vaultCatalog.FitsOutput vaultEndpoint.outputTypes vaultValues := by
  have hstakes : ∀ value ∈ [stake 0 [], stake 7 [2]],
      vaultCatalog.Fits (.record "Stake") value ∧ vaultCatalog.encode (.record "Stake") value ≠ [] := by
    intro value hvalue
    fin_cases hvalue
    · exact ⟨fits_stake (by decide) (by decide +kernel) (by decide) (by decide), by decide +kernel⟩
    · exact ⟨fits_stake (by decide) (by decide +kernel) (by decide) (by decide), by decide +kernel⟩
  have hgroups : ∀ value ∈ [Value.record "ComplexType1" [("var0", .scalar (.bytes [1, 2])),
      ("var1", .scalar (.integer (-129)))]],
      vaultCatalog.FitsGroup "ComplexType1" [.primitive .bytes, .primitive .bigInt] value := by
    intro value hvalue
    obtain rfl := List.mem_singleton.1 hvalue
    exact ⟨rfl, .cons ⟨rfl, trivial⟩ (.cons ⟨rfl, trivial⟩ .nil)⟩
  refine .cons ⟨rfl, rfl, ?_, rfl, ⟨rfl, _, rfl, ?_⟩, trivial⟩ (.cons hstakes (.cons hgroups .nil))
  · exact fits_stake (by decide) (by decide +kernel) (by decide) (by decide)
  · decide

theorem vault_outputs_round_trip : ∃ contract, Contract.ofDocument .strict vault = .ok contract ∧
    contract.catalog.Acyclic ∧
    (∀ name fields, contract.catalog.records.get? name = some fields →
      (fields.map (·.name)).Nodup) ∧
    vaultEndpoint ∈ contract.endpoints ∧ vaultEndpoint.kind = .readonly ∧
    List.Forall₂ contract.catalog.FitsOutput vaultEndpoint.outputTypes vaultValues ∧
    contract.catalog.decodeOutputs vaultEndpoint.name vaultEndpoint.outputTypes
      (contract.catalog.encodeOutputs vaultEndpoint.outputTypes vaultValues) = .ok vaultValues := by
  obtain ⟨contract, hcontract, hcatalog, hendpoints⟩ := vault_contract
  have hmem : vaultEndpoint ∈ contract.endpoints := hendpoints ▸ List.mem_cons_self
  have hacyclic : contract.catalog.Acyclic := hcatalog ▸ vaultCatalog_acyclic
  have hnames : ∀ name fields, contract.catalog.records.get? name = some fields →
      (fields.map (·.name)).Nodup := by
    intro name fields hget
    rw [hcatalog] at hget
    rcases vaultCatalog_records hget with ⟨rfl, rfl⟩ | ⟨rfl, rfl⟩ <;> decide
  have hfits : List.Forall₂ contract.catalog.FitsOutput vaultEndpoint.outputTypes vaultValues :=
    hcatalog ▸ vault_fits
  exact ⟨contract, hcontract, hacyclic, hnames, hmem, rfl, hfits,
    decodeOutputs_encodeOutputs hcontract hacyclic hnames hmem rfl hfits⟩

end ContractAbi
