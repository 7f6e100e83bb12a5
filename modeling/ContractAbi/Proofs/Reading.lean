import ContractAbi.Proofs.Registry
import ContractAbi.Reflection

/-!
# Reading without a limit

A reader of records carries a limit on how deep records are nested. When no record contains itself
the limit is never reached, so reading a record is reading its fields, and the limit disappears
from every argument about what is read.
-/
namespace ContractAbi

namespace Wire

variable {α β : Type}

theorem Reader.bind_apply (first : Reader α) (next : α → Reader β) (bytes : Bytes) :
    (first >>= next) bytes =
      match first bytes with
      | .ok (value, rest) => next value rest
      | .error fault => .error fault := by
  simp only [bind, StateT.bind]
  cases first bytes <;> rfl

theorem Reader.exists_of_bind {first : Reader α} {next : α → Reader β} {bytes rest : Bytes} {result : β}
    (h : (first >>= next) bytes = .ok (result, rest)) :
    ∃ value middle, first bytes = .ok (value, middle) ∧ next value middle = .ok (result, rest) := by
  rw [Reader.bind_apply] at h
  cases hf : first bytes with
  | error fault =>
    rw [hf] at h
    cases h
  | ok pair =>
    obtain ⟨value, middle⟩ := pair
    rw [hf] at h
    exact ⟨value, middle, rfl, h⟩

/-- The reader leaves no more bytes than it was given. -/
def Shrinks (reader : Reader α) : Prop :=
  ∀ bytes value rest, reader bytes = .ok (value, rest) → rest.length ≤ bytes.length

theorem Shrinks.pure {value : α} : Shrinks (Pure.pure value : Reader α) := by
  intro bytes result rest h
  obtain ⟨-, rfl⟩ := Prod.mk.inj (Except.ok.inj h)
  exact Nat.le_refl _

theorem Shrinks.throw {fault : Fault} : Shrinks (MonadExcept.throw fault : Reader α) :=
  fun _ _ _ h => by cases h

theorem Shrinks.bind {first : Reader α} {next : α → Reader β} (hfirst : Shrinks first)
    (hnext : ∀ value, Shrinks (next value)) : Shrinks (first >>= next) := by
  intro bytes result rest h
  obtain ⟨value, middle, hf, h⟩ := Reader.exists_of_bind h
  exact (hnext value middle result rest h).trans (hfirst bytes value middle hf)

theorem Shrinks.lift {result : Except Fault α} : Shrinks (liftM result : Reader α) := by
  intro bytes value rest h
  cases result with
  | error fault => cases h
  | ok other =>
    obtain ⟨-, rfl⟩ := Prod.mk.inj (Except.ok.inj h)
    exact Nat.le_refl _

theorem take_ok {needed : Nat} {bytes value rest : Bytes} (h : take needed bytes = .ok (value, rest)) :
    value.length = needed ∧ bytes = value ++ rest := by
  rw [take] at h
  split at h
  · cases h
  · obtain ⟨rfl, rfl⟩ := Prod.mk.inj (Except.ok.inj h)
    exact ⟨List.length_take_of_le (by omega), (List.take_append_drop needed bytes).symm⟩

theorem shrinks_take (needed : Nat) : Shrinks (take needed) := by
  intro bytes value rest h
  rw [(take_ok h).2, List.length_append]
  omega

theorem shrinks_readWord (word : Word) : Shrinks (readWord word) :=
  (shrinks_take _).bind fun _ => .pure

theorem shrinks_readByte : Shrinks readByte :=
  (shrinks_readWord _).bind fun _ => .pure

theorem shrinks_readPayload : Shrinks readPayload :=
  (shrinks_readWord _).bind shrinks_take

theorem Codec.shrinks_read (codec : Codec) : Shrinks codec.read := by
  cases codec with
  | bool => exact shrinks_readByte.bind fun _ => .lift
  | word size => exact (shrinks_readWord size).bind fun _ => .pure
  | natural => exact shrinks_readPayload.bind fun _ => .pure
  | integer => exact shrinks_readPayload.bind fun _ => .pure
  | text => exact shrinks_readPayload.bind fun _ => Shrinks.lift.bind fun _ => .pure
  | bytes => exact shrinks_readPayload.bind fun _ => .pure
  | address => exact (shrinks_take _).bind fun _ => .pure

theorem shrinks_readTimes {item : Reader α} (hitem : Shrinks item) (count : Nat) :
    Shrinks (readTimes item count) := by
  induction count with
  | zero => exact .pure
  | succ count ih => exact hitem.bind fun _ => ih.bind fun _ => .pure

theorem shrinks_readList {item : Reader α} (hitem : Shrinks item) : Shrinks (readList item) :=
  (shrinks_readWord _).bind fun _ => shrinks_readTimes hitem _

/-- A count takes bytes. -/
theorem length_lt_of_readWord {word : Word} {bytes rest : Bytes} {count : Nat}
    (h : readWord word bytes = .ok (count, rest)) : rest.length < bytes.length := by
  obtain ⟨value, middle, ht, h⟩ := Reader.exists_of_bind h
  obtain ⟨-, rfl⟩ := Prod.mk.inj (Except.ok.inj h)
  obtain ⟨hlength, hbytes⟩ := take_ok ht
  have hwidth : 0 < word.width := by cases word <;> decide
  rw [hbytes, List.length_append]
  omega

/-- The readers agree on fewer than `bound` bytes. -/
def SameBelow (bound : Nat) (left right : Reader α) : Prop :=
  ∀ bytes, bytes.length < bound → left bytes = right bytes

theorem SameBelow.refl (bound : Nat) (reader : Reader α) : SameBelow bound reader reader :=
  fun _ _ => rfl

theorem SameBelow.mono {small large : Nat} {left right : Reader α} (h : SameBelow large left right)
    (hle : small ≤ large) : SameBelow small left right :=
  fun bytes hlt => h bytes (by omega)

theorem SameBelow.bind {bound : Nat} {left right : Reader α} {next next' : α → Reader β}
    (h : SameBelow bound left right) (hshrinks : Shrinks left)
    (hnext : ∀ value, SameBelow bound (next value) (next' value)) :
    SameBelow bound (left >>= next) (right >>= next') := by
  intro bytes hlt
  rw [Reader.bind_apply, Reader.bind_apply, ← h bytes hlt]
  cases hl : left bytes with
  | error fault => rfl
  | ok pair =>
    obtain ⟨value, rest⟩ := pair
    have hrest := hshrinks bytes value rest hl
    exact hnext value rest (by omega)

theorem SameBelow.readTimes {bound : Nat} {left right : Reader α} (h : SameBelow bound left right)
    (hshrinks : Shrinks left) (count : Nat) :
    SameBelow bound (readTimes left count) (readTimes right count) := by
  induction count with
  | zero => exact .refl _ _
  | succ count ih => exact h.bind hshrinks fun _ => ih.bind (shrinks_readTimes hshrinks _) fun _ => .refl _ _

/-- Behind its count a list has fewer bytes left. -/
theorem SameBelow.readList {bound : Nat} {left right : Reader α} (h : SameBelow bound left right)
    (hshrinks : Shrinks left) : SameBelow (bound + 1) (readList left) (readList right) := by
  intro bytes hlt
  simp only [Wire.readList, Reader.bind_apply]
  cases hc : readWord .u32 bytes with
  | error fault => rfl
  | ok pair =>
    obtain ⟨count, rest⟩ := pair
    have hrest := length_lt_of_readWord hc
    exact h.readTimes hshrinks count rest (by omega)

end Wire

namespace ResolvedType

mutual

/-- The records that a value of the type contains as they are, outside any list. -/
def inlineRecords : ResolvedType → List String
  | .record name => [name]
  | .tuple _ members => inlineRecordsOfAll members
  | _ => []

def inlineRecordsOfAll : List ResolvedType → List String
  | [] => []
  | member :: rest => inlineRecords member ++ inlineRecordsOfAll rest

end

theorem mem_inlineRecordsOfAll {members : List ResolvedType} {name : String} :
    name ∈ inlineRecordsOfAll members ↔ ∃ m ∈ members, name ∈ m.inlineRecords := by
  induction members with
  | nil => simp [inlineRecordsOfAll]
  | cons member rest ih => simp [inlineRecordsOfAll, ih]

end ResolvedType

namespace Catalog

open Wire (Shrinks SameBelow)

variable {catalog : Catalog}

/-- A field of the outer record contains the inner one outside any list. -/
def Contains (catalog : Catalog) (outer inner : String) : Prop :=
  ∃ fields, catalog.records.get? outer = some fields ∧
    ∃ field ∈ fields, inner ∈ field.type.inlineRecords

/-- No record contains itself, directly or through other records. A list may hold the record that
it is a field of. -/
def Acyclic (catalog : Catalog) : Prop :=
  ∀ name, ¬ Relation.TransGen catalog.Contains name name

section Below

variable {leads : String → String → Prop}

open Classical in
/-- The declared records that a record leads to, directly or through other records. -/
noncomputable def below (catalog : Catalog) (leads : String → String → Prop) (name : String) :
    Finset String :=
  catalog.records.names.toFinset.filter (Relation.TransGen leads name)

theorem mem_below {name inner : String} : inner ∈ catalog.below leads name ↔
    inner ∈ catalog.records.names ∧ Relation.TransGen leads name inner := by
  classical rw [below, Finset.mem_filter, List.mem_toFinset]

/-- A record has more below it than a record that it leads to, unless that one leads to itself. -/
theorem card_below_lt {outer inner : String} (hleads : leads outer inner)
    (hinner : inner ∈ catalog.records.names) (hself : ¬ Relation.TransGen leads inner inner) :
    (catalog.below leads inner).card < (catalog.below leads outer).card := by
  have hmem : inner ∈ catalog.below leads outer := mem_below.2 ⟨hinner, .single hleads⟩
  have hsubset : catalog.below leads inner ⊆ catalog.below leads outer := by
    intro name hname
    obtain ⟨hdeclared, hpath⟩ := mem_below.1 hname
    exact mem_below.2 ⟨hdeclared, .head hleads hpath⟩
  exact Finset.card_lt_card ⟨hsubset, fun hsuper => hself (mem_below.1 (hsuper hmem)).2⟩

theorem card_below_lt_size {name : String} (hname : name ∈ catalog.records.names)
    (hself : ¬ Relation.TransGen leads name name) :
    (catalog.below leads name).card < catalog.records.size := by
  classical
  have hmem : name ∈ catalog.records.names.toFinset := List.mem_toFinset.2 hname
  have hsubset : catalog.below leads name ⊆ catalog.records.names.toFinset :=
    Finset.filter_subset _ _
  have hcard : catalog.records.names.toFinset.card ≤ catalog.records.size := by
    refine (List.toFinset_card_le _).trans ?_
    rw [NameMap.names, List.length_map, NameMap.size]
  have hproper : catalog.below leads name ⊂ catalog.records.names.toFinset :=
    ⟨hsubset, fun hsuper => hself (mem_below.1 (hsuper hmem)).2⟩
  exact (Finset.card_lt_card hproper).trans_le hcard

end Below

/-- The declared records lie in finitely many layers, and each contains only records of lower
layers. -/
structure Layering (catalog : Catalog) (layer : String → Nat) : Prop where
  descends : ∀ outer inner, catalog.Contains outer inner → inner ∈ catalog.records.names →
    layer inner < layer outer
  bounded : ∀ name ∈ catalog.records.names, layer name < catalog.records.size

theorem Acyclic.exists_layering (h : catalog.Acyclic) : ∃ layer, catalog.Layering layer :=
  ⟨fun name => (catalog.below catalog.Contains name).card,
    fun _ inner hcontains hinner => card_below_lt hcontains hinner (h inner),
    fun name hname => card_below_lt_size hname (h name)⟩

/-- A layering of all names shows that no record contains itself. -/
theorem acyclic_of_layer {layer : String → Nat}
    (h : ∀ outer inner, catalog.Contains outer inner → layer inner < layer outer) :
    catalog.Acyclic := by
  have hpath : ∀ outer inner, Relation.TransGen catalog.Contains outer inner →
      layer inner < layer outer := by
    intro outer inner hpath
    induction hpath with
    | single hstep => exact h _ _ hstep
    | tail _ hstep ih => exact (h _ _ hstep).trans ih
  exact fun name hname => Nat.lt_irrefl _ (hpath name name hname)

/-- A bound for the records that can be entered one inside the other from here on. -/
def weight (catalog : Catalog) (layer : String → Nat) (bytes : Bytes) (name : String) : Nat :=
  bytes.length * catalog.records.size + layer name

section Weight

variable {layer : String → Nat} {name inner : String} {bytes rest : Bytes}

theorem weight_lt_limit (hbounded : layer name < catalog.records.size) :
    catalog.weight layer bytes name < catalog.nestingLimit bytes := by
  rw [weight, nestingLimit, Nat.succ_mul]
  omega

theorem weight_lt_of_layer_lt (hlt : layer inner < layer name) (hrest : rest.length ≤ bytes.length) :
    catalog.weight layer rest inner < catalog.weight layer bytes name := by
  have hle : rest.length * catalog.records.size ≤ bytes.length * catalog.records.size :=
    Nat.mul_le_mul_right _ hrest
  rw [weight, weight]
  omega

/-- Fewer bytes weigh more than any layer. -/
theorem weight_lt_of_length_lt (hbounded : layer inner < catalog.records.size)
    (hrest : rest.length < bytes.length) :
    catalog.weight layer rest inner < catalog.weight layer bytes name := by
  have hle : (rest.length + 1) * catalog.records.size ≤ bytes.length * catalog.records.size :=
    Nat.mul_le_mul_right _ hrest
  rw [Nat.succ_mul] at hle
  rw [weight, weight]
  omega

/-- A record inside a field is of a lower layer. -/
theorem Layering.weight_lt_of_inline (h : catalog.Layering layer) {fields : List Field} {field : Field}
    (hget : catalog.records.get? name = some fields) (hfield : field ∈ fields)
    (hinner : inner ∈ field.type.inlineRecords) (hdeclared : inner ∈ catalog.records.names)
    (hrest : rest.length ≤ bytes.length) :
    catalog.weight layer rest inner < catalog.weight layer bytes name :=
  weight_lt_of_layer_lt (h.descends name inner ⟨fields, hget, field, hfield, hinner⟩ hdeclared) hrest

end Weight

section Readers

variable {readNamed other : String → Wire.Reader Value}

theorem shrinks_readMembers {members : List ResolvedType}
    (h : ∀ m ∈ members, Shrinks (readType catalog readNamed m)) (index : Nat) :
    Shrinks (readMembers catalog readNamed index members) := by
  induction members generalizing index with
  | nil => exact .pure
  | cons member rest ih =>
    have hrest := ih (fun m hm => h m (List.mem_cons_of_mem _ hm)) (index + 1)
    exact (h member List.mem_cons_self).bind fun _ => hrest.bind fun _ => .pure

theorem shrinks_readType (h : ∀ name, Shrinks (readNamed name)) (type : ResolvedType) :
    Shrinks (readType catalog readNamed type) := by
  induction type using ResolvedType.memberInduction with
  | primitive kind => exact kind.codec.shrinks_read.bind fun _ => .pure
  | record name => exact h name
  | enum name => exact Wire.shrinks_readByte.bind fun _ => .lift
  | list element ih => exact (Wire.shrinks_readList ih).bind fun _ => .pure
  | tuple name members ih => exact (shrinks_readMembers ih 0).bind fun _ => .pure
  | variadic element _ => exact .throw
  | variadicMulti name members _ => exact .throw
  | multi name members _ => exact .throw

theorem shrinks_readFields (h : ∀ name, Shrinks (readNamed name)) (fields : List Field)
    (values : List (String × Value)) : Shrinks (readFields catalog readNamed values fields) := by
  induction fields generalizing values with
  | nil => exact .pure
  | cons field rest ih => exact (shrinks_readType h field.type).bind fun _ => ih _

theorem shrinks_readRecord (nesting : Nat) (name : String) :
    Shrinks (readRecord catalog nesting name) := by
  induction nesting generalizing name with
  | zero =>
    rw [readRecord]
    split <;> exact .throw
  | succ nesting ih =>
    rw [readRecord]
    split
    · exact .throw
    · exact (shrinks_readFields ih _ _).bind fun _ => .pure

theorem sameBelow_readMembers {bound : Nat} {members : List ResolvedType}
    (hshrinks : ∀ name, Shrinks (readNamed name))
    (h : ∀ m ∈ members, SameBelow bound (readType catalog readNamed m) (readType catalog other m))
    (index : Nat) :
    SameBelow bound (readMembers catalog readNamed index members)
      (readMembers catalog other index members) := by
  induction members generalizing index with
  | nil => exact .refl _ _
  | cons member rest ih =>
    have hrest := ih (fun m hm => h m (List.mem_cons_of_mem _ hm)) (index + 1)
    apply (h member List.mem_cons_self).bind (shrinks_readType hshrinks member)
    intro value
    exact hrest.bind (shrinks_readMembers (fun m _ => shrinks_readType hshrinks m) _) fun _ => .refl _ _

/-- What a type reads depends on the records in it, and for those inside lists on fewer bytes. -/
theorem sameBelow_readType (hshrinks : ∀ name, Shrinks (readNamed name)) (type : ResolvedType)
    (bound : Nat) (hinline : ∀ name ∈ type.inlineRecords,
      SameBelow (bound + 1) (readNamed name) (other name))
    (hbelow : ∀ name, SameBelow bound (readNamed name) (other name)) :
    SameBelow (bound + 1) (readType catalog readNamed type) (readType catalog other type) := by
  induction type using ResolvedType.memberInduction generalizing bound with
  | primitive kind => exact .refl _ _
  | record name => exact hinline name List.mem_cons_self
  | enum name => exact .refl _ _
  | list element ih =>
    have helement : SameBelow bound (readType catalog readNamed element)
        (readType catalog other element) := by
      cases bound with
      | zero => exact fun _ hlt => absurd hlt (by omega)
      | succ bound =>
        exact ih bound (fun name _ => hbelow name) fun name => (hbelow name).mono (by omega)
    have hread : Shrinks (readType catalog readNamed element) := shrinks_readType hshrinks element
    exact (helement.readList hread).bind (Wire.shrinks_readList hread) fun _ => .refl _ _
  | tuple name members ih =>
    have hmembers : ∀ m ∈ members, ∀ inner ∈ m.inlineRecords,
        inner ∈ (ResolvedType.tuple name members).inlineRecords :=
      fun m hm inner hinner => ResolvedType.mem_inlineRecordsOfAll.2 ⟨m, hm, hinner⟩
    have hall : ∀ m ∈ members,
        SameBelow (bound + 1) (readType catalog readNamed m) (readType catalog other m) :=
      fun m hm => ih m hm bound (fun inner hi => hinline inner (hmembers m hm inner hi)) hbelow
    exact (sameBelow_readMembers hshrinks hall 0).bind
      (shrinks_readMembers (fun m _ => shrinks_readType hshrinks m) 0) fun _ => .refl _ _
  | variadic element _ => exact .refl _ _
  | variadicMulti name members _ => exact .refl _ _
  | multi name members _ => exact .refl _ _

theorem sameBelow_readFields {bound : Nat} (hshrinks : ∀ name, Shrinks (readNamed name))
    {fields : List Field} (h : ∀ field ∈ fields,
      SameBelow bound (readType catalog readNamed field.type) (readType catalog other field.type))
    (values : List (String × Value)) :
    SameBelow bound (readFields catalog readNamed values fields)
      (readFields catalog other values fields) := by
  induction fields generalizing values with
  | nil => exact .refl _ _
  | cons field rest ih =>
    apply (h field List.mem_cons_self).bind (shrinks_readType hshrinks field.type)
    intro value
    exact ih (fun f hf => h f (List.mem_cons_of_mem _ hf)) _

end Readers

theorem readRecord_of_undeclared {name : String} (h : catalog.records.get? name = none)
    (nesting : Nat) : readRecord catalog nesting name = throw (.undeclaredType name) := by
  cases nesting <;> rw [readRecord, h]

theorem mem_names_of_get? {name : String} {fields : List Field}
    (h : catalog.records.get? name = some fields) : name ∈ catalog.records.names :=
  NameMap.mem_names_of_mem (NameMap.get?_eq_some_iff.1 h)

theorem read_record_apply (name : String) (bytes : Bytes) :
    catalog.read (.record name) bytes = readRecord catalog (catalog.nestingLimit bytes) name bytes :=
  rfl

namespace Layering

variable {layer : String → Nat} {name : String} {bytes : Bytes}

/-- Any two limits that are high enough for the bytes that are left read the same. -/
theorem readRecord_stable (h : catalog.Layering layer) (measure : Nat) {n m : Nat}
    (hmeasure : catalog.weight layer bytes name ≤ measure)
    (hn : name ∈ catalog.records.names → measure < n)
    (hm : name ∈ catalog.records.names → measure < m) :
    readRecord catalog n name bytes = readRecord catalog m name bytes := by
  induction measure using Nat.strong_induction_on generalizing name bytes n m with
  | _ measure ih =>
    cases hget : catalog.records.get? name with
    | none => rw [readRecord_of_undeclared hget, readRecord_of_undeclared hget]
    | some fields =>
      have hname := mem_names_of_get? hget
      obtain ⟨n, rfl⟩ : ∃ n', n = n' + 1 := ⟨n - 1, by have := hn hname; omega⟩
      obtain ⟨m, rfl⟩ : ∃ m', m = m' + 1 := ⟨m - 1, by have := hm hname; omega⟩
      have hlower : ∀ inner (rest : Bytes), (inner ∈ catalog.records.names →
          catalog.weight layer rest inner < catalog.weight layer bytes name) →
          readRecord catalog n inner rest = readRecord catalog m inner rest := by
        intro inner rest hlt
        by_cases hinner : inner ∈ catalog.records.names
        · have hless := hlt hinner
          have hn' := hn hname
          have hm' := hm hname
          exact ih _ (by omega) (Nat.le_refl _) (fun _ => by omega) fun _ => by omega
        · have hnone := NameMap.get?_eq_none_iff.2 hinner
          rw [readRecord_of_undeclared hnone, readRecord_of_undeclared hnone]
      have hfields : ∀ field ∈ fields, SameBelow (bytes.length + 1)
          (readType catalog (readRecord catalog n) field.type)
          (readType catalog (readRecord catalog m) field.type) := by
        intro field hfield
        refine sameBelow_readType (shrinks_readRecord n) field.type bytes.length ?_ ?_
        · intro inner hinner rest hrest
          exact hlower inner rest fun hd => h.weight_lt_of_inline hget hfield hinner hd (by omega)
        · intro inner rest hrest
          exact hlower inner rest fun hd => weight_lt_of_length_lt (h.bounded inner hd) hrest
      have hsame := sameBelow_readFields (shrinks_readRecord n) hfields [] bytes (by omega)
      rw [readRecord, readRecord, hget]
      simp only [Wire.Reader.bind_apply, hsame]

/-- The limit for the bytes that are left is high enough. -/
theorem readRecord_eq_read (h : catalog.Layering layer) {n : Nat}
    (hn : name ∈ catalog.records.names → catalog.weight layer bytes name < n) :
    readRecord catalog n name bytes = catalog.read (.record name) bytes :=
  h.readRecord_stable _ (Nat.le_refl _) hn fun hname => weight_lt_limit (h.bounded name hname)

end Layering

/-- The records of a type are read like records of their own. -/
theorem Acyclic.read_eq (h : catalog.Acyclic) (type : ResolvedType) :
    catalog.read type = readType catalog (fun name => catalog.read (.record name)) type := by
  obtain ⟨layer, hlayer⟩ := h.exists_layering
  funext bytes
  have hrecord : ∀ name (rest : Bytes), rest.length ≤ bytes.length →
      readRecord catalog (catalog.nestingLimit bytes) name rest = catalog.read (.record name) rest := by
    intro name rest hrest
    apply hlayer.readRecord_eq_read
    intro hname
    have hlt : catalog.weight layer rest name < catalog.nestingLimit rest :=
      weight_lt_limit (hlayer.bounded name hname)
    have hle : catalog.nestingLimit rest ≤ catalog.nestingLimit bytes :=
      Nat.mul_le_mul_right _ (by omega)
    omega
  refine sameBelow_readType (shrinks_readRecord _) type bytes.length ?_ ?_ bytes (by omega)
  · exact fun name _ rest hrest => hrecord name rest (by omega)
  · exact fun name rest hrest => hrecord name rest (by omega)

/-- A record is read field by field. -/
theorem Acyclic.read_record (h : catalog.Acyclic) {name : String} {fields : List Field}
    (hget : catalog.records.get? name = some fields) :
    catalog.read (.record name) = (do
      let values ← readFields catalog (fun inner => catalog.read (.record inner)) [] fields
      return .record name values) := by
  obtain ⟨layer, hlayer⟩ := h.exists_layering
  funext bytes
  have hlimit : catalog.weight layer bytes name < catalog.nestingLimit bytes :=
    weight_lt_limit (hlayer.bounded name (mem_names_of_get? hget))
  obtain ⟨limit, heq⟩ : ∃ limit, catalog.nestingLimit bytes = limit + 1 :=
    ⟨catalog.nestingLimit bytes - 1, by omega⟩
  have hfields : ∀ field ∈ fields, SameBelow (bytes.length + 1)
      (readType catalog (readRecord catalog limit) field.type)
      (readType catalog (fun inner => catalog.read (.record inner)) field.type) := by
    intro field hfield
    refine sameBelow_readType (shrinks_readRecord limit) field.type bytes.length ?_ ?_
    · intro inner hinner rest hrest
      apply hlayer.readRecord_eq_read
      intro hd
      have hlt : catalog.weight layer rest inner < catalog.weight layer bytes name :=
        hlayer.weight_lt_of_inline hget hfield hinner hd (by omega)
      omega
    · intro inner rest hrest
      apply hlayer.readRecord_eq_read
      intro hd
      have hlt : catalog.weight layer rest inner < catalog.weight layer bytes name :=
        weight_lt_of_length_lt (hlayer.bounded inner hd) hrest
      omega
  have hsame := sameBelow_readFields (shrinks_readRecord limit) hfields [] bytes (by omega)
  rw [read_record_apply, heq, readRecord, hget]
  simp only [Wire.Reader.bind_apply, hsame]

theorem shrinks_read (type : ResolvedType) : Shrinks (catalog.read type) :=
  fun bytes => shrinks_readType (shrinks_readRecord _) type bytes

/-- Induction on the bytes that are left and on the records inside a record. -/
theorem Acyclic.recordInduction (h : catalog.Acyclic) {motive : Nat → String → Prop}
    (zero : ∀ name, motive 0 name)
    (succ : ∀ bound name, (∀ inner, catalog.Contains name inner → motive (bound + 1) inner) →
      (∀ inner, motive bound inner) → motive (bound + 1) name)
    (bound : Nat) (name : String) : motive bound name := by
  obtain ⟨layer, hlayer⟩ := h.exists_layering
  induction bound generalizing name with
  | zero => exact zero name
  | succ bound ih =>
    have hundeclared : ∀ other, other ∉ catalog.records.names → motive (bound + 1) other := by
      intro other hother
      refine succ bound other (fun inner hinner => ?_) ih
      obtain ⟨fields, hget, -⟩ := hinner
      exact absurd (mem_names_of_get? hget) hother
    induction hheight : layer name using Nat.strong_induction_on generalizing name with
    | _ height ihlayer =>
      refine succ bound name (fun inner hinner => ?_) ih
      by_cases hdeclared : inner ∈ catalog.records.names
      · exact ihlayer (layer inner) (hheight ▸ hlayer.descends name inner hinner hdeclared) inner rfl
      · exact hundeclared inner hdeclared

/-- Reads the fields of a struct, each under its name. -/
def readEach (catalog : Catalog) : List Field → Wire.Reader (List (String × Value))
  | [] => return []
  | field :: rest => do
    let value ← catalog.read field.type
    return (field.name, value) :: (← readEach catalog rest)

theorem shrinks_readEach (fields : List Field) : Shrinks (catalog.readEach fields) := by
  induction fields with
  | nil => exact .pure
  | cons field rest ih => exact (shrinks_read field.type).bind fun _ => ih.bind fun _ => .pure

theorem Acyclic.readMembers_eq (h : catalog.Acyclic) (index : Nat) (members : List ResolvedType) :
    readMembers catalog (fun name => catalog.read (.record name)) index members =
      catalog.readEach (memberFieldsFrom index members) := by
  induction members generalizing index with
  | nil => rfl
  | cons member rest ih => rw [readMembers, ih, ← h.read_eq, memberFieldsFrom, readEach]

/-- Fields with names of their own are read behind those that were read before. -/
theorem Acyclic.readFields_eq (h : catalog.Acyclic) {fields : List Field}
    {values : List (String × Value)} (hnew : (values.map (·.1) ++ fields.map (·.name)).Nodup) :
    readFields catalog (fun name => catalog.read (.record name)) values fields = (do
      let others ← catalog.readEach fields
      return values ++ others) := by
  induction fields generalizing values with
  | nil =>
    rw [readFields, readEach, pure_bind, List.append_nil]
  | cons field rest ih =>
    have hput : ∀ value, putEntry field.name value values = values ++ [(field.name, value)] := by
      intro value
      apply putEntry_of_not_mem
      intro hmem
      exact List.disjoint_of_nodup_append hnew hmem List.mem_cons_self
    rw [readFields, ← h.read_eq, readEach, bind_assoc]
    refine congrArg _ (funext fun value => ?_)
    rw [hput, ih (by simpa [List.append_assoc] using hnew), bind_assoc]
    simp only [pure_bind, List.append_assoc, List.singleton_append]

theorem Acyclic.read_primitive (h : catalog.Acyclic) (kind : Primitive) :
    catalog.read (.primitive kind) = (do return .scalar (← kind.codec.read)) := by
  rw [h.read_eq, readType]

theorem Acyclic.read_enum (h : catalog.Acyclic) (name : String) :
    catalog.read (.enum name) = (do catalog.enumValue name (← Wire.readByte)) := by
  rw [h.read_eq, readType]

theorem Acyclic.read_list (h : catalog.Acyclic) (element : ResolvedType) :
    catalog.read (.list element) = (do return .list (← Wire.readList (catalog.read element))) := by
  rw [h.read_eq, readType, ← h.read_eq]

theorem Acyclic.read_tuple (h : catalog.Acyclic) (name : String) (members : List ResolvedType) :
    catalog.read (.tuple name members) = (do
      return .record name (← catalog.readEach (memberFields members))) := by
  rw [h.read_eq, readType, h.readMembers_eq, memberFields_eq]

theorem Acyclic.read_record_each (h : catalog.Acyclic) {name : String} {fields : List Field}
    (hget : catalog.records.get? name = some fields) (hnames : (fields.map (·.name)).Nodup) :
    catalog.read (.record name) = (do return .record name (← catalog.readEach fields)) := by
  have hnew : (([] : List (String × Value)).map (·.1) ++ fields.map (·.name)).Nodup := hnames
  rw [h.read_record hget, h.readFields_eq hnew, bind_assoc]
  rfl

end Catalog
end ContractAbi
