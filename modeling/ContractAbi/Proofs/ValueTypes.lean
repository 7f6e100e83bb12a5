import ContractAbi.Proofs.ArgumentBytes
import ContractAbi.Proofs.FirstUse
import ContractAbi.Proofs.JsonText
import ContractAbi.Proofs.Reading
import ContractAbi.Proofs.RepeatedValues
import ContractAbi.Proofs.ReturnEncoding

/-!
# Decoded values are of their types

Whatever bytes a query returns, a value that is decoded from them has the form that its type asks
for, down to the scalars in it. A value can be decoded in a slot of its own, in a group of slots or
inside other data; the three ways meet in the values that they give.
-/
namespace ContractAbi

namespace Text

/-- The text spells the number in decimal digits, without a needless zero in front. -/
def IsDecimal (text : List Char) (n : Nat) : Prop :=
  ofDigits? 10 text = some n ∧ (text.head? = some '0' → text = ['0'])

/-- The text spells the number in decimal digits, behind a sign if the number is negative. -/
def IsSignedDecimal (text : List Char) (value : Int) : Prop :=
  (∃ n : Nat, value = n ∧ IsDecimal text n) ∨
    ∃ (n : Nat) (digits : List Char), 0 < n ∧ value = -n ∧ text = '-' :: digits ∧ IsDecimal digits n

theorem ofDigits?_concat {base m d : Nat} {digits : List Char} {c : Char}
    (hdigits : ofDigits? base digits = some m) (hc : digitValue? base c = some d) :
    ofDigits? base (digits ++ [c]) = some (m * base + d) := by
  have hne : (digits ++ [c]).isEmpty = false := by simp
  rw [ofDigits?] at hdigits ⊢
  split at hdigits
  · cases hdigits
  · obtain ⟨values, hvalues, rfl⟩ := Option.map_eq_some_iff.1 hdigits
    simp [hne, List.mapM_append, hvalues, hc]

theorem digitValue?_digitChar {n : Nat} (h : n < 10) : digitValue? 10 n.digitChar = some n := by
  interval_cases n <;> decide

theorem ofDigits?_toDigits (n : Nat) : ofDigits? 10 (Nat.toDigits 10 n) = some n := by
  induction n using Nat.strong_induction_on with
  | _ n ih =>
    rcases Nat.lt_or_ge n 10 with hn | hn
    · rw [Nat.toDigits_of_lt_base hn]
      simp [ofDigits?, digitValue?_digitChar hn]
    · rw [Nat.toDigits_of_base_le (by decide) hn,
        ofDigits?_concat (ih (n / 10) (by omega)) (digitValue?_digitChar (Nat.mod_lt n (by decide))),
        Nat.div_add_mod' n 10]

theorem isDecimal_toString (n : Nat) : IsDecimal (toString n).toList n := by
  rw [toList_toString]
  refine ⟨ofDigits?_toDigits n, fun hhead => ?_⟩
  rcases Nat.eq_zero_or_pos n with rfl | hn
  · rfl
  · exact absurd hhead (Json.head?_toDigits hn)

theorem isSignedDecimal_toString (value : Int) : IsSignedDecimal (toString value).toList value := by
  cases value with
  | ofNat n => exact .inl ⟨n, rfl, isDecimal_toString n⟩
  | negSucc n =>
    refine .inr ⟨n + 1, (toString (n + 1)).toList, Nat.succ_pos n, rfl, ?_, isDecimal_toString (n + 1)⟩
    exact String.toList_append (s := "-")

end Text

/-- The number of bits of an unsigned number. -/
def Primitive.bits? : Primitive → Option Nat
  | .u8 => some 8
  | .u16 => some 16
  | .u32 => some 32
  | .u64 => some 64
  | _ => none

/-- The scalars of a primitive. A big number and an address are judged by the text that they are
written as. -/
inductive Primitive.Admits : Primitive → Wire.Scalar → Prop
  | bool (value : Bool) : Admits .bool (.bool value)
  | unsigned {kind : Primitive} {bits n : Nat} (hkind : kind.bits? = some bits) (hn : n < 2 ^ bits) :
    Admits kind (.unsigned n)
  | bigUint {value : Int} {n : Nat} (hvalue : value = n)
      (htext : Text.IsDecimal (toString value).toList n) : Admits .bigUint (.integer value)
  | bigInt {value : Int} (htext : Text.IsSignedDecimal (toString value).toList value) :
    Admits .bigInt (.integer value)
  | text {kind : Primitive} (hkind : kind ∈ [.text, .tokenIdentifier, .egldOrEsdtTokenIdentifier])
      (value : String) : Admits kind (.text value)
  | bytes (value : Bytes) : Admits .bytes (.bytes value)
  | address {value : Bytes} (hlength : (Hex.text value).length = 64)
      (hdigits : ∀ c ∈ (Hex.text value).toList, c ∈ Hex.lowerDigits) : Admits .address (.address value)

/-- The field is the last one of its name. -/
def LastNamed (fields : List Field) (field : Field) : Prop :=
  ∃ before after, fields = before ++ field :: after ∧ ∀ later ∈ after, later.name ≠ field.name

/-- The value has the form that the type asks for. If a record declares a field more than once, the
value stands where the field is declared first and is of the type that is declared last. -/
inductive Catalog.Conforms (catalog : Catalog) : ResolvedType → Value → Prop
  | primitive {kind : Primitive} {scalar : Wire.Scalar} (h : kind.Admits scalar) :
    Conforms catalog (.primitive kind) (.scalar scalar)
  | enum {name : String} {variants : List Variant} {variant : Variant}
      (hdecl : catalog.enums.get? name = some variants) (hvariant : variant ∈ variants) :
    Conforms catalog (.enum name) (.enum name variant.name variant.discriminant)
  | record {name : String} {fields : List Field} {values : List (String × Value)}
      (hdecl : catalog.records.get? name = some fields)
      (hnames : values.map (·.1) = (fields.map (·.name)).eraseDups)
      (hvalues : ∀ field value, LastNamed fields field → (field.name, value) ∈ values →
        Conforms catalog field.type value) :
    Conforms catalog (.record name) (.record name values)
  | composite {type : ResolvedType} {name : String} {members : List ResolvedType}
      {values : List (String × Value)} (htype : type = .tuple name members ∨ type = .multi name members)
      (hnames : values.map (·.1) = (List.range members.length).map memberName)
      (hvalues : ∀ (index : Nat) member entry, members[index]? = some member →
        values[index]? = some entry → Conforms catalog member entry.2) :
    Conforms catalog type (.record name values)
  | list {element : ResolvedType} {elements : List Value}
      (h : ∀ value ∈ elements, Conforms catalog element value) :
    Conforms catalog (.list element) (.list elements)
  | variadic {element : ResolvedType} {elements : List Value}
      (h : ∀ value ∈ elements, Conforms catalog element value) :
    Conforms catalog (.variadic element) (.list elements)
  | variadicMulti {name : String} {members : List ResolvedType} {groups : List Value}
      (h : ∀ group ∈ groups, Conforms catalog (.multi name members) group) :
    Conforms catalog (.variadicMulti name members) (.list groups)

namespace Wire

variable {α β : Type}

/-- Every value that the reader gives is good. -/
def Yields (reader : Reader α) (good : α → Prop) : Prop :=
  ∀ bytes value rest, reader bytes = .ok (value, rest) → good value

variable {good : α → Prop}

theorem Yields.pure {value : α} (h : good value) : Yields (Pure.pure value : Reader α) good := by
  intro bytes result rest hresult
  obtain ⟨rfl, -⟩ := Prod.mk.inj (Except.ok.inj hresult)
  exact h

theorem Yields.throw {fault : Fault} : Yields (MonadExcept.throw fault : Reader α) good :=
  fun _ _ _ h => by cases h

theorem Yields.bind {first : Reader β} {next : β → Reader α} {part : β → Prop}
    (hfirst : Yields first part) (hnext : ∀ value, part value → Yields (next value) good) :
    Yields (first >>= next) good := by
  intro bytes result rest h
  obtain ⟨value, middle, hf, h⟩ := Reader.exists_of_bind h
  exact hnext value (hfirst bytes value middle hf) middle result rest h

theorem Yields.lift {result : Except Fault α} (h : ∀ value, result = .ok value → good value) :
    Yields (liftM result : Reader α) good := by
  intro bytes value rest hvalue
  cases result with
  | error fault => cases hvalue
  | ok other =>
    obtain ⟨rfl, -⟩ := Prod.mk.inj (Except.ok.inj hvalue)
    exact h _ rfl

theorem yields_any (reader : Reader α) : Yields reader fun _ => True :=
  fun _ _ _ _ => trivial

theorem yields_take (needed : Nat) : Yields (take needed) (·.length = needed) :=
  fun _ _ _ h => (take_ok h).1

theorem yields_readWord (word : Word) : Yields (readWord word) (· < 256 ^ word.width) :=
  (yields_take _).bind fun bytes hlength => .pure (hlength ▸ naturalOf_lt bytes)

theorem yields_readTimes {item : Reader α} (hitem : Yields item good) (count : Nat) :
    Yields (readTimes item count) fun values => ∀ value ∈ values, good value := by
  induction count with
  | zero => exact .pure fun _ h => absurd h List.not_mem_nil
  | succ count ih =>
    exact hitem.bind fun _ hvalue => ih.bind fun _ hrest => .pure (List.forall_mem_cons.2 ⟨hvalue, hrest⟩)

theorem yields_readList {item : Reader α} (hitem : Yields item good) :
    Yields (readList item) fun values => ∀ value ∈ values, good value :=
  (yields_any _).bind fun _ _ => yields_readTimes hitem _

theorem good_of_packed {item : Reader α} (hitem : Yields item good) (slot : Bytes) :
    ∀ value ∈ packed item slot, good value := by
  induction hlength : slot.length using Nat.strong_induction_on generalizing slot with
  | _ length ih =>
    subst hlength
    rw [packed]
    cases hread : item slot with
    | error fault => exact fun _ h => absurd h List.not_mem_nil
    | ok pair =>
      obtain ⟨value, rest⟩ := pair
      by_cases hshorter : rest.length < slot.length
      · simp only [if_pos hshorter]
        exact List.forall_mem_cons.2 ⟨hitem slot value rest hread, ih rest.length hshorter rest rfl⟩
      · simp only [if_neg hshorter]
        exact fun _ h => absurd h List.not_mem_nil

theorem good_of_topRead {reader : Reader α} (h : Yields reader good) {slot : Bytes} {value : α}
    (hvalue : topRead reader slot = .ok value) : good value := by
  obtain ⟨pair, hpair, rfl⟩ := of_map_eq_ok hvalue
  exact h slot pair.1 pair.2 hpair

namespace Codec

theorem fits_of_boolOf {byte : UInt8} {scalar : Scalar} (h : boolOf byte = .ok scalar) :
    Codec.bool.Fits scalar := by
  rw [boolOf] at h
  split at h
  · obtain rfl := Except.ok.inj h
    trivial
  · split at h
    · obtain rfl := Except.ok.inj h
      trivial
    · cases h

theorem yields_read (codec : Codec) : Yields codec.read codec.Fits := by
  cases codec with
  | bool => exact (yields_any _).bind fun _ _ => .lift fun _ => fits_of_boolOf
  | word size => exact (yields_readWord size).bind fun _ hn => .pure hn
  | natural => exact (yields_any _).bind fun bytes _ => .pure (Int.natCast_nonneg (naturalOf bytes))
  | integer => exact (yields_any _).bind fun _ _ => .pure trivial
  | text => exact (yields_any _).bind fun _ _ => (yields_any _).bind fun _ _ => .pure trivial
  | bytes => exact (yields_any _).bind fun _ _ => .pure trivial
  | address => exact (yields_take _).bind fun _ hlength => .pure hlength

end Codec
end Wire

namespace Primitive

variable {kind : Primitive}

/-- The text of an address has two digits for each of its bytes. -/
theorem admits_address {value : Bytes} (h : value.length = Wire.addressLength) :
    Admits .address (.address value) := by
  refine .address ?_ fun c hc => ?_
  · rw [Hex.text, String.length_ofList, Hex.length_encode, h]
    rfl
  · rw [Hex.text, String.toList_ofList] at hc
    exact Hex.mem_lowerDigits_of_mem_encode hc

theorem admits_bigUint {value : Int} (h : 0 ≤ value) : Admits .bigUint (.integer value) := by
  obtain ⟨n, rfl⟩ := Int.eq_ofNat_of_zero_le h
  exact .bigUint rfl (Text.isDecimal_toString n)

/-- What the codec of a primitive can write is a scalar of the primitive. -/
theorem admits_of_fits {scalar : Wire.Scalar} (h : kind.codec.Fits scalar) : kind.Admits scalar := by
  cases scalar with
  | bool value =>
    cases kind with
    | bool => exact .bool value
    | _ => exact h.elim
  | unsigned n =>
    cases kind with
    | u8 | u16 | u32 | u64 => exact .unsigned rfl h
    | _ => exact h.elim
  | integer value =>
    cases kind with
    | bigUint => exact admits_bigUint h
    | bigInt => exact .bigInt (Text.isSignedDecimal_toString value)
    | _ => exact h.elim
  | text value =>
    cases kind with
    | text | tokenIdentifier | egldOrEsdtTokenIdentifier => exact .text (by decide) value
    | _ => exact h.elim
  | bytes value =>
    cases kind with
    | bytes => exact .bytes value
    | _ => exact h.elim
  | address value =>
    cases kind with
    | address => exact admits_address h
    | _ => exact h.elim

end Primitive

section Fields

variable {fields : List Field} {first field : Field}

theorem lastNamed_concat (h : LastNamed (fields ++ [first]) field) :
    field = first ∨ field.name ≠ first.name ∧ LastNamed fields field := by
  obtain ⟨before, after, hsplit, hlater⟩ := h
  rcases after.eq_nil_or_concat with rfl | ⟨middle, last, rfl⟩
  · exact .inl (List.append_singleton_inj.1 hsplit).2.symm
  · rw [List.concat_eq_append] at hlater hsplit
    rw [← List.cons_append, ← List.append_assoc] at hsplit
    obtain ⟨rfl, rfl⟩ := List.append_singleton_inj.1 hsplit
    have hname := hlater first (List.mem_append_right _ List.mem_cons_self)
    exact .inr ⟨hname.symm, before, middle, rfl,
      fun later hmem => hlater later (List.mem_append_left _ hmem)⟩

/-- Giving a name again leaves the names as they are. -/
theorem names_putEntry {α : Type} (name : String) (value : α) (entries : List (String × α)) :
    (putEntry name value entries).map (·.1) =
      if name ∈ entries.map (·.1) then entries.map (·.1) else entries.map (·.1) ++ [name] := by
  induction entries with
  | nil => rfl
  | cons entry rest ih =>
    by_cases hfirst : entry.1 = name
    · simp [putEntry, hfirst]
    · have hname : name ≠ entry.1 := Ne.symm hfirst
      simp only [putEntry, if_neg hfirst, List.map_cons, ih, List.mem_cons, hname, false_or]
      split <;> rfl

end Fields

namespace Catalog

variable {catalog : Catalog}

/-- The fields that are read so far, with the value of a name that comes again in its first place. -/
structure ConformFields (catalog : Catalog) (fields : List Field) (values : List (String × Value)) :
    Prop where
  names : values.map (·.1) = (fields.map (·.name)).eraseDups
  values : ∀ field value, LastNamed fields field → values.lookup field.name = some value →
    catalog.Conforms field.type value

/-- The members from one index on, with their names. -/
structure ConformMembers (catalog : Catalog) (index : Nat) (members : List ResolvedType)
    (values : List (String × Value)) : Prop where
  names : values.map (·.1) = (List.range' index members.length).map memberName
  values : List.Forall₂ (fun member entry => catalog.Conforms member entry.2) members values

theorem ConformFields.nil : catalog.ConformFields [] [] where
  names := rfl
  values _ _ _ h := by cases h

theorem ConformFields.put {fields : List Field} {field : Field} {values : List (String × Value)}
    {value : Value} (h : catalog.ConformFields fields values)
    (hvalue : catalog.Conforms field.type value) :
    catalog.ConformFields (fields ++ [field]) (putEntry field.name value values) where
  names := by
    rw [names_putEntry, h.names, List.map_append, List.map_singleton, eraseDups_concat]
    simp only [List.mem_eraseDups]
  values other found hlast hfound := by
    rw [lookup_putEntry] at hfound
    -- a name that comes again keeps its place, but the later field says what its value is
    rcases lastNamed_concat hlast with rfl | ⟨hname, hlast⟩
    · rw [if_pos rfl] at hfound
      exact Option.some.inj hfound ▸ hvalue
    · rw [if_neg hname] at hfound
      exact h.values other found hlast hfound

theorem ConformFields.record {name : String} {fields : List Field} {values : List (String × Value)}
    (hdecl : catalog.records.get? name = some fields) (h : catalog.ConformFields fields values) :
    catalog.Conforms (.record name) (.record name values) := by
  have hdistinct : (values.map (·.1)).Nodup := h.names ▸ nodup_eraseDups _
  exact .record hdecl h.names fun field value hlast hmem =>
    h.values field value hlast ((lookup_eq_some_iff_mem hdistinct).2 hmem)

theorem ConformMembers.nil (index : Nat) : catalog.ConformMembers index [] [] :=
  ⟨rfl, .nil⟩

theorem ConformMembers.cons {index : Nat} {member : ResolvedType} {members : List ResolvedType}
    {value : Value} {values : List (String × Value)} (hvalue : catalog.Conforms member value)
    (h : catalog.ConformMembers (index + 1) members values) :
    catalog.ConformMembers index (member :: members) ((memberName index, value) :: values) where
  names := by rw [List.map_cons, h.names, List.length_cons, List.range'_succ, List.map_cons]
  values := .cons hvalue h.values

theorem ConformMembers.composite {type : ResolvedType} {name : String} {members : List ResolvedType}
    {values : List (String × Value)} (htype : type = .tuple name members ∨ type = .multi name members)
    (h : catalog.ConformMembers 0 members values) : catalog.Conforms type (.record name values) := by
  refine .composite htype (List.range_eq_range' ▸ h.names) fun index member entry hmember hentry => ?_
  obtain ⟨other, hother, hconforms⟩ := exists_getElem?_of_forall₂ h.values hmember
  obtain rfl := Option.some.inj (hother.symm.trans hentry)
  exact hconforms

section Readers

variable {readNamed : String → Wire.Reader Value}

theorem conforms_of_enumValue {name : String} {discriminant : UInt8} {value : Value}
    (h : catalog.enumValue name discriminant = .ok value) : catalog.Conforms (.enum name) value := by
  rw [enumValue] at h
  split at h
  · cases h
  · rename_i variants hdecl
    split at h
    · rename_i variant hfound
      obtain rfl := Except.ok.inj h
      have hsame : variant.discriminant = discriminant := by simpa using List.find?_some hfound
      exact hsame ▸ .enum hdecl (List.mem_of_find?_eq_some hfound)
    · cases h

theorem yields_readMembers {members : List ResolvedType}
    (h : ∀ member ∈ members,
      Wire.Yields (readType catalog readNamed member) (catalog.Conforms member)) (index : Nat) :
    Wire.Yields (readMembers catalog readNamed index members)
      (catalog.ConformMembers index members) := by
  induction members generalizing index with
  | nil => exact .pure (.nil index)
  | cons member rest ih =>
    obtain ⟨hmember, hrest⟩ := List.forall_mem_cons.1 h
    rw [readMembers]
    exact hmember.bind fun _ hvalue => (ih hrest (index + 1)).bind fun _ hvalues =>
      .pure (.cons hvalue hvalues)

/-- A value inside other data is of its type if the records in it are. -/
theorem yields_readType
    (h : ∀ name, Wire.Yields (readNamed name) (catalog.Conforms (.record name)))
    (type : ResolvedType) :
    Wire.Yields (readType catalog readNamed type) (catalog.Conforms type) := by
  induction type using ResolvedType.memberInduction with
  | primitive kind =>
    rw [readType]
    exact (Wire.Codec.yields_read kind.codec).bind fun _ hfits =>
      .pure (.primitive (Primitive.admits_of_fits hfits))
  | record name =>
    rw [readType]
    exact h name
  | enum name =>
    rw [readType]
    exact (Wire.yields_any _).bind fun _ _ => .lift fun _ => conforms_of_enumValue
  | list element ih =>
    rw [readType]
    exact (Wire.yields_readList ih).bind fun _ helements => .pure (.list helements)
  | tuple name members ih =>
    rw [readType]
    exact (yields_readMembers ih 0).bind fun _ hvalues => .pure (hvalues.composite (.inl rfl))
  | variadic element _ => exact .throw
  | variadicMulti name members _ => exact .throw
  | multi name members _ => exact .throw

/-- Reading further fields goes on with the fields that were read. -/
theorem yields_readFields
    (h : ∀ name, Wire.Yields (readNamed name) (catalog.Conforms (.record name)))
    (fields : List Field) {before : List Field} {values : List (String × Value)}
    (hvalues : catalog.ConformFields before values) :
    Wire.Yields (readFields catalog readNamed values fields)
      (catalog.ConformFields (before ++ fields)) := by
  induction fields generalizing before values with
  | nil =>
    rw [List.append_nil]
    exact .pure hvalues
  | cons field rest ih =>
    rw [readFields, List.append_cons]
    exact (yields_readType h field.type).bind fun _ hvalue => ih (hvalues.put hvalue)

theorem yields_readRecord (nesting : Nat) (name : String) :
    Wire.Yields (readRecord catalog nesting name) (catalog.Conforms (.record name)) := by
  induction nesting generalizing name with
  | zero =>
    rw [readRecord.eq_def]
    split <;> exact .throw
  | succ nesting ih =>
    rw [readRecord.eq_def]
    split
    · exact .throw
    · rename_i fields hdecl
      exact (yields_readFields ih fields .nil).bind fun _ hvalues => .pure (hvalues.record hdecl)

theorem yields_read (type : ResolvedType) : Wire.Yields (catalog.read type) (catalog.Conforms type) :=
  -- how deep records may be nested depends on the bytes, but what is read does not
  fun bytes => yields_readType (yields_readRecord (catalog.nestingLimit bytes)) type bytes

end Readers

section Slots

variable {type : ResolvedType} {slot : Bytes} {value : Value}

theorem conforms_of_decodeSlot (h : catalog.decodeSlot type slot = .ok value) :
    catalog.Conforms type value := by
  cases type with
  | primitive kind =>
    rw [decodeSlot] at h
    obtain ⟨scalar, hscalar, h⟩ := of_bind_eq_ok h
    obtain rfl := Except.ok.inj h
    exact .primitive (Primitive.admits_of_fits (Wire.Codec.fits_of_top hscalar))
  | enum name =>
    rw [decodeSlot] at h
    obtain ⟨discriminant, -, h⟩ := of_bind_eq_ok h
    exact conforms_of_enumValue h
  | record name => exact Wire.good_of_topRead (yields_read _) h
  | tuple name members => exact Wire.good_of_topRead (yields_read _) h
  | list element => cases h
  | variadic element => cases h
  | variadicMulti name members => cases h
  | multi name members => cases h

theorem conforms_decodePacked (catalog : Catalog) (element : ResolvedType) (slot : Bytes) :
    catalog.Conforms (.list element) (catalog.decodePacked element slot) :=
  .list (Wire.good_of_packed (yields_read element) slot)

theorem conforms_of_decodeMember (h : catalog.decodeMember type slot = .ok value) :
    catalog.Conforms type value := by
  rw [decodeMember.eq_def] at h
  split at h
  · split at h
    · obtain rfl := Except.ok.inj h
      exact conforms_decodePacked catalog _ slot
    · exact conforms_of_decodeSlot h
  · exact conforms_of_decodeSlot h

theorem conformMembers_of_decodeMembers {index : Nat} {members : List ResolvedType}
    {slots : List Bytes} {values : List (String × Value)} (hlength : slots.length = members.length)
    (h : catalog.decodeMembers index members slots = .ok values) :
    catalog.ConformMembers index members values := by
  induction members generalizing index slots values with
  | nil =>
    obtain rfl := List.eq_nil_of_length_eq_zero hlength
    obtain rfl := Except.ok.inj h
    exact .nil index
  | cons member rest ih =>
    obtain ⟨slot, slots, rfl⟩ := List.exists_cons_of_length_eq_add_one hlength
    rw [decodeMembers] at h
    obtain ⟨value, hvalue, h⟩ := of_bind_eq_ok h
    obtain ⟨others, hothers, h⟩ := of_bind_eq_ok h
    obtain rfl := Except.ok.inj h
    exact .cons (conforms_of_decodeMember hvalue) (ih (Nat.succ.inj hlength) hothers)

/-- A group of as many slots as members gives a record of the members. -/
theorem conforms_of_decodeGroup {name : String} {members : List ResolvedType} {slots : List Bytes}
    (hlength : slots.length = members.length)
    (h : catalog.decodeGroup name members slots = .ok value) :
    catalog.Conforms (.multi name members) value := by
  rw [decodeGroup] at h
  obtain ⟨values, hvalues, h⟩ := of_bind_eq_ok h
  obtain rfl := Except.ok.inj h
  exact (conformMembers_of_decodeMembers hlength hvalues).composite (.inr rfl)

end Slots

end Catalog

namespace ReturnData

variable {α : Type} {data : ReturnData} {index width : Nat} {good : α → Prop}

theorem good_of_scalar {decode : Bytes → Except Wire.Fault α}
    (hdecode : ∀ slot value, decode slot = .ok value → good value) {value : α}
    (h : data.scalar index decode = .ok value) : good value := by
  obtain ⟨slot, -, h⟩ := of_bind_eq_ok h
  exact hdecode slot value (of_mapError_eq_ok h)

theorem good_of_selfTerminating {item : Wire.Reader α} (hitem : Wire.Yields item good) :
    ∀ value ∈ data.selfTerminating index item, good value := by
  rw [selfTerminating]
  split
  · exact Wire.good_of_packed hitem _
  · exact fun _ h => absurd h List.not_mem_nil

theorem good_of_filterMap {β : Type} {decode : β → Except Wire.Fault α} {slots : List β}
    (hdecode : ∀ slot ∈ slots, ∀ value, decode slot = .ok value → good value) :
    ∀ value ∈ slots.filterMap fun slot => (decode slot).toOption, good value := by
  intro value hvalue
  obtain ⟨slot, hslot, hvalue⟩ := List.mem_filterMap.1 hvalue
  cases hresult : decode slot with
  | error fault =>
    rw [hresult] at hvalue
    cases hvalue
  | ok other =>
    rw [hresult] at hvalue
    obtain rfl := Option.some.inj hvalue
    exact hdecode slot hslot other hresult

/-- Groups of slots come to a decoder in full. -/
theorem good_of_groups {decode : List Bytes → Except Wire.Fault α}
    (hdecode : ∀ group, group.length = width → ∀ value, decode group = .ok value → good value) :
    ∀ value ∈ data.groups index width decode, good value :=
  good_of_filterMap fun group hgroup => hdecode group (length_of_mem_completeGroups hgroup)

theorem good_of_group {decode : List Bytes → Except Wire.Fault α}
    (hdecode : ∀ group, group.length = width → ∀ value, decode group = .ok value → good value)
    {value : α} (h : data.group index width decode = .ok value) : good value := by
  rw [group] at h
  split at h
  · cases h
  · rename_i hroom
    refine hdecode _ ?_ value (of_mapError_eq_ok h)
    rw [List.length_take, List.length_drop]
    omega

end ReturnData

namespace Catalog

variable {catalog : Catalog}

/-- An output whose strategy suits it gives a value of its type. -/
theorem conforms_of_decodeOutput {data : ReturnData} {type : ResolvedType} {plan : OutputPlan}
    {value : Value} (hsuits : Strategy.Suits type plan.strategy)
    (h : catalog.decodeOutput data type plan = .ok value) : catalog.Conforms type value := by
  obtain ⟨strategy, firstSlot⟩ := plan
  cases hsuits with
  | packed hrecord hcheck =>
    obtain rfl := Except.ok.inj h
    exact .list (ReturnData.good_of_selfTerminating (yields_read _))
  | spread hrecord hcheck =>
    obtain rfl := Except.ok.inj h
    exact .list (ReturnData.good_of_filterMap fun _ _ _ => conforms_of_decodeSlot)
  | variadic hcheck =>
    obtain rfl := Except.ok.inj h
    exact .variadic (ReturnData.good_of_filterMap fun _ _ _ => conforms_of_decodeSlot)
  | groups hcheck =>
    obtain rfl := Except.ok.inj h
    exact .variadicMulti (ReturnData.good_of_groups fun _ hlength _ => conforms_of_decodeGroup hlength)
  | group hcheck =>
    exact ReturnData.good_of_group (fun _ hlength _ => conforms_of_decodeGroup hlength)
      (of_mapError_eq_ok h)
  | scalar htop hcheck =>
    exact ReturnData.good_of_scalar (fun _ _ => conforms_of_decodeSlot) (of_mapError_eq_ok h)

theorem conforms_of_decodePlanned {data : ReturnData} {outputs : List ResolvedType}
    {plans : List OutputPlan} {values : List Value}
    (hsuits : List.Forall₂ (fun type plan => Strategy.Suits type plan.strategy) outputs plans)
    (h : catalog.decodePlanned data (outputs.zip plans) = .ok values) :
    List.Forall₂ catalog.Conforms outputs values := by
  induction hsuits generalizing values with
  | nil =>
    obtain rfl := Except.ok.inj h
    exact .nil
  | cons hfirst _ ih =>
    rw [List.zip_cons_cons, decodePlanned] at h
    obtain ⟨value, hvalue, h⟩ := of_bind_eq_ok h
    obtain ⟨others, hothers, h⟩ := of_bind_eq_ok h
    obtain rfl := Except.ok.inj h
    exact .cons (conforms_of_decodeOutput hfirst hvalue) (ih hothers)

end Catalog

/-- There is one value for each output, and it is of the type of the output. -/
theorem decoded_values_conform {catalog : Catalog} {endpoint : String} {outputs : List ResolvedType}
    {slots : List Bytes} {values : List Value}
    (h : catalog.decodeOutputs endpoint outputs slots = .ok values) :
    List.Forall₂ catalog.Conforms outputs values := by
  rw [Catalog.decodeOutputs] at h
  split at h
  · cases h
  · split at h
    · cases h
    · rename_i plans hplans
      exact Catalog.conforms_of_decodePlanned (suits_of_planFrom hplans) h

/-- A roster whose entries declare their number twice. -/
def rosterCatalog : Catalog where
  records := NameMap.ofList
    [("Entry", [⟨"id", .primitive .u8⟩, ⟨"role", .enum "Role"⟩, ⟨"id", .primitive .u16⟩])]
  enums := NameMap.ofList [("Role", [⟨"Guest", 0⟩, ⟨"Owner", 4⟩])]
  composites := ∅

def rosterOutputs : List ResolvedType :=
  [.multi "ComplexType0" [.primitive .bigInt, .list (.record "Entry")], .variadic (.primitive .bigUint)]

/-- A balance, an entry with the start of another one behind it, and two supplies. -/
def rosterSlots : List Bytes :=
  [[255], [7, 4, 1, 2, 9, 4], [1, 0], []]

def rosterValues : List Value :=
  [.record "ComplexType0" [("var0", .scalar (.integer (-1))),
      ("var1", .list [.record "Entry" [("id", .scalar (.unsigned 258)), ("role", .enum "Role" "Owner" 4)]])],
    .list [.scalar (.integer 256), .scalar (.integer 0)]]

theorem roster_values_conform :
    rosterCatalog.decodeOutputs "getRoster" rosterOutputs rosterSlots = .ok rosterValues ∧
    List.Forall₂ rosterCatalog.Conforms rosterOutputs rosterValues := by
  have hdecode : rosterCatalog.decodeOutputs "getRoster" rosterOutputs rosterSlots =
      .ok rosterValues := by
    with_unfolding_all rfl
  exact ⟨hdecode, decoded_values_conform hdecode⟩

end ContractAbi
