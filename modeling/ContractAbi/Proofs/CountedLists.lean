import ContractAbi.Proofs.Contracts
import ContractAbi.Proofs.FirstUse
import ContractAbi.Proofs.NestedSpellings

/-!
# Counted lists and the bytes behind them

Nothing is compared with the count in front of a list, so a list is short only because every item
takes a byte. But some values take none: structs without fields, and structs and tuples of nothing
else. Lists of other items have no more of them than they take bytes, and a value with such lists
only has no more list elements than bytes; a list of weightless values is as long as its count says.
-/
namespace ContractAbi

namespace Wire

variable {α β : Type} {cost : α → Nat} {size : α → Nat}

/-- A value takes at least as many bytes as it costs. -/
def Spends (cost : α → Nat) (reader : Reader α) : Prop :=
  ∀ bytes value rest, reader bytes = .ok (value, rest) → cost value + rest.length ≤ bytes.length

namespace Spends

theorem pure {value : α} (h : cost value = 0) : Spends cost (Pure.pure value : Reader α) := by
  intro bytes result rest hread
  obtain ⟨rfl, rfl⟩ := Prod.mk.inj (Except.ok.inj hread)
  rw [h, Nat.zero_add]

theorem throw {fault : Fault} : Spends cost (MonadExcept.throw fault : Reader α) :=
  fun _ _ _ h => nomatch h

theorem lift {result : Except Fault α} (h : ∀ value, result = .ok value → cost value = 0) :
    Spends cost (liftM result : Reader α) := by
  intro bytes value rest hread
  cases result with
  | error fault => cases hread
  | ok other =>
    obtain ⟨rfl, rfl⟩ := Prod.mk.inj (Except.ok.inj hread)
    rw [h other rfl, Nat.zero_add]

theorem mono {less : α → Nat} {reader : Reader α} (h : Spends cost reader)
    (hless : ∀ value, less value ≤ cost value) : Spends less reader := by
  intro bytes value rest hread
  have hcost := h bytes value rest hread
  have hle := hless value
  omega

/-- Whatever follows gives no bytes back. -/
theorem before {first : Reader α} {next : α → Reader β} {count : Nat}
    (hfirst : Spends (fun _ => count) first) (hnext : ∀ value, Shrinks (next value)) :
    Spends (fun _ => count) (first >>= next) := by
  intro bytes result rest h
  obtain ⟨value, middle, hf, h⟩ := Reader.exists_of_bind h
  have hspent := hfirst bytes value middle hf
  have hshrunk := hnext value middle result rest h
  exact (Nat.add_le_add_left hshrunk count).trans hspent

theorem bind {first : Reader α} {next : α → Reader β} {extra total : β → Nat}
    (hfirst : Spends cost first) (hnext : ∀ value, Spends extra (next value))
    (htotal : ∀ value result, total result ≤ cost value + extra result) :
    Spends total (first >>= next) := by
  intro bytes result rest h
  obtain ⟨value, middle, hf, h⟩ := Reader.exists_of_bind h
  have hspent := hfirst bytes value middle hf
  have hspent' := hnext value middle result rest h
  have hle := htotal value result
  omega

theorem map {reader : Reader α} {f : α → β} {total : β → Nat} (h : Spends cost reader)
    (htotal : ∀ value, total (f value) ≤ cost value) : Spends total (do return f (← reader)) := by
  intro bytes result rest hread
  obtain ⟨value, middle, hf, hread⟩ := Reader.exists_of_bind hread
  obtain ⟨rfl, rfl⟩ := Prod.mk.inj (Except.ok.inj hread)
  have hspent := h bytes value middle hf
  have hle := htotal value
  omega

/-- What the parts of a sequence cost adds up, with a base for each part. -/
theorem cons {head : Reader α} {tail : Reader (List β)} {make : α → β} {each : β → Nat} {base rest : Nat}
    (hhead : Spends cost head) (htail : Spends (fun values => (values.map each).sum + rest) tail)
    (hmake : ∀ value, each (make value) + base ≤ cost value) :
    Spends (fun values => (values.map each).sum + (base + rest))
      (do let value ← head; return make value :: (← tail)) := by
  intro bytes result last hread
  obtain ⟨value, middle, hf, hread⟩ := Reader.exists_of_bind hread
  obtain ⟨others, after, ht, hread⟩ := Reader.exists_of_bind hread
  obtain ⟨rfl, rfl⟩ := Prod.mk.inj (Except.ok.inj hread)
  have hspent := hhead bytes value middle hf
  have hspent' := htail middle others after ht
  have hle := hmake value
  simp only [List.map_cons, List.sum_cons] at hspent' ⊢
  omega

theorem readTimes {item : Reader α} (h : Spends cost item) (count : Nat) :
    Spends (fun values => (values.map cost).sum) (readTimes item count) := by
  induction count with
  | zero => exact .pure rfl
  | succ count ih =>
    have hcons : Spends (fun values => (values.map cost).sum + (0 + 0))
        (do let value ← item; return value :: (← Wire.readTimes item count)) :=
      h.cons ih fun _ => Nat.le_refl _
    exact hcons

end Spends

theorem spends_take (needed : Nat) : Spends (fun _ => needed) (take needed) := by
  intro bytes value rest hread
  obtain ⟨hlength, rfl⟩ := take_ok hread
  rw [List.length_append, hlength]

theorem spends_readWord (word : Word) : Spends (fun _ => word.width) (readWord word) :=
  (spends_take _).map fun _ => Nat.le_refl _

theorem spends_readByte : Spends (fun _ => 1) readByte :=
  (spends_readWord .u8).map fun _ => Nat.le_refl _

theorem spends_readPayload : Spends (fun _ => 4) readPayload :=
  (spends_readWord .u32).before shrinks_take

/-- The count of a list is four bytes. -/
theorem Spends.readList {item : Reader α} (h : Spends cost item) :
    Spends (fun values => (values.map cost).sum + 4) (readList item) :=
  (spends_readWord .u32).bind h.readTimes fun _ _ => Nat.le_of_eq (Nat.add_comm _ _)

/-- Every scalar takes a byte. -/
theorem Codec.spends_read (codec : Codec) : Spends (fun _ => 1) codec.read := by
  cases codec with
  | bool => exact spends_readByte.before fun _ => .lift
  | word size => exact (spends_readWord size).map fun _ => by cases size <;> decide
  | natural | integer | bytes => exact spends_readPayload.map fun _ => by decide
  | text =>
    refine (spends_readPayload.before fun _ => ?_).mono fun _ => by decide
    exact Shrinks.lift.bind fun _ => .pure
  | address => exact (spends_take _).map fun _ => by decide

/-- A cursor moves at least as far as the value costs. -/
def Scan.Advances (cost : α → Nat) (scan : Scan α) : Prop :=
  ∀ (cursor : Cursor) (value : α) (after : Cursor), cursor.Stands → scan cursor = .ok value after →
    cost value + cursor.offset ≤ after.offset

theorem Scan.Mirrors.advances_iff {scan : Scan α} {reader : Reader α} (h : Mirrors scan reader) :
    Advances cost scan ↔ Spends cost reader := by
  constructor
  · intro hadvances bytes value rest hread
    have hscan := h (.start bytes) (Cursor.stands_start bytes)
    have hstart : reader (Cursor.start bytes).rest = .ok (value, rest) := hread
    rw [hstart] at hscan
    obtain ⟨after, hafter, hdata, hstands, rfl⟩ := hscan
    have hmoved := hadvances (.start bytes) value after (Cursor.stands_start bytes) hafter
    have hwithin : after.offset ≤ bytes.length := by rwa [Cursor.Stands, hdata] at hstands
    rw [Cursor.length_rest, Cursor.remaining, hdata]
    change cost value + (bytes.length - after.offset) ≤ bytes.length
    omega
  · intro hspends cursor value after hstands hread
    have hscan := h cursor hstands
    cases hr : reader cursor.rest with
    | error fault =>
      rw [hr] at hscan
      obtain ⟨other, hother, -⟩ := hscan
      cases hread.symm.trans hother
    | ok pair =>
      rw [hr] at hscan
      obtain ⟨other, hother, hdata, hwithin, hrest⟩ := hscan
      cases hread.symm.trans hother
      have hspent := hspends cursor.rest pair.1 pair.2 hr
      rw [← hrest, Cursor.length_rest, Cursor.length_rest, Cursor.remaining, Cursor.remaining, hdata]
        at hspent
      rw [Cursor.Stands] at hstands
      rw [Cursor.Stands, hdata] at hwithin
      omega

/-- The reader gives the value whatever the bytes are, and leaves all of them. -/
def Gives (reader : Reader α) (value : α) : Prop :=
  ∀ bytes, reader bytes = .ok (value, bytes)

namespace Gives

theorem pure (value : α) : Gives (Pure.pure value : Reader α) value :=
  fun _ => rfl

theorem bind {first : Reader α} {next : α → Reader β} {value : α} {result : β} (h : Gives first value)
    (hnext : Gives (next value) result) : Gives (first >>= next) result := by
  intro bytes
  rw [Reader.bind_apply, h]
  exact hnext bytes

theorem readTimes {item : Reader α} {value : α} (h : Gives item value) (count : Nat) :
    Gives (readTimes item count) (List.replicate count value) := by
  induction count with
  | zero => exact .pure _
  | succ count ih => exact h.bind (ih.bind (.pure _))

theorem readList {item : Reader α} {value : α} (h : Gives item value) {count : Nat}
    (hcount : count < 2 ^ 32) (rest : Bytes) :
    readList item (wordBytes 4 count ++ rest) = .ok (List.replicate count value, rest) := by
  have hword : count < 256 ^ Word.u32.width := hcount
  have hread : readWord .u32 (wordBytes 4 count ++ rest) = .ok (count, rest) := readWord_append hword
  rw [Wire.readList, Reader.bind_apply, hread]
  exact h.readTimes count rest

end Gives

/-- What becomes of lists whose items are weightless or not: unless they are, a list is no longer than
the bytes that it takes; if they are, four bytes are enough for every length. -/
structure SizesLists (size : α → Nat) (list : Reader α) (weightless : Prop) : Prop where
  bounded_iff : Spends size list ↔ ¬ weightless
  counted : weightless → ∀ count < 2 ^ 32, ∀ rest, ∃ items,
    size items = count ∧ list (wordBytes 4 count ++ rest) = .ok (items, rest)

theorem SizesLists.of_cases {list : Reader α} {weightless : Prop}
    (hbounded : ¬ weightless → Spends size list)
    (hcounted : weightless → ∀ count < 2 ^ 32, ∀ rest, ∃ items,
      size items = count ∧ list (wordBytes 4 count ++ rest) = .ok (items, rest)) :
    SizesLists size list weightless := by
  refine ⟨⟨fun h hweightless => ?_, hbounded⟩, hcounted⟩
  obtain ⟨items, hsize, hread⟩ := hcounted hweightless 5 (by decide) []
  have hspent := h _ items [] hread
  rw [hsize] at hspent
  exact absurd hspent (by decide)

open Classical in
/-- The fewest bytes that a value takes. -/
noncomputable def leastBytes (weightless : Prop) : Nat :=
  if weightless then 0 else 1

theorem leastBytes_le (weightless : Prop) : leastBytes weightless ≤ 1 := by
  rw [leastBytes]
  split <;> decide

theorem leastBytes_of_not {weightless : Prop} (h : ¬ weightless) : leastBytes weightless = 1 :=
  if_neg h

theorem leastBytes_le_sum {parts : List α} {whole : Prop} {weightless : α → Prop}
    (h : (∀ part ∈ parts, weightless part) → whole) :
    leastBytes whole ≤ (parts.map fun part => leastBytes (weightless part)).sum := by
  by_cases hall : ∀ part ∈ parts, weightless part
  · rw [leastBytes, if_pos (h hall)]
    exact Nat.zero_le _
  · obtain ⟨part, hpart, hnot⟩ : ∃ part ∈ parts, ¬ weightless part := by simpa using hall
    have hone : leastBytes (weightless part) ≤
        (parts.map fun part => leastBytes (weightless part)).sum :=
      List.single_le_sum (fun _ _ => Nat.zero_le _) _ (List.mem_map_of_mem hpart)
    rw [leastBytes_of_not hnot] at hone
    exact (leastBytes_le whole).trans hone

namespace NestedSpec

/-- A value takes no bytes: there is nothing to read, or a record of such values. -/
inductive Weightless : NestedSpec → Prop
  | nothing : Weightless .nothing
  | record {members : List NestedSpec} (h : ∀ member ∈ members, Weightless member) :
      Weightless (.record members)

theorem spends_readMembers {members : List NestedSpec}
    (h : ∀ member ∈ members, Spends (fun _ => leastBytes member.Weightless) member.read) :
    Spends (fun _ => (members.map fun member => leastBytes member.Weightless).sum)
      (readMembers members) := by
  induction members with
  | nil => exact .pure rfl
  | cons member rest ih =>
    have hrest := ih fun m hm => h m (List.mem_cons_of_mem _ hm)
    rw [readMembers, List.map_cons, List.sum_cons]
    exact (h member List.mem_cons_self).bind (fun _ => hrest.map fun _ => Nat.le_refl _)
      fun _ _ => Nat.le_refl _

theorem spends_read (spec : NestedSpec) : Spends (fun _ => leastBytes spec.Weightless) spec.read := by
  induction spec using memberInduction with
  | scalar codec => exact codec.spends_read.map fun _ => leastBytes_le _
  | nothing =>
    rw [leastBytes, if_pos .nothing]
    exact .pure rfl
  | list item ih =>
    exact ih.readList.map fun _ => (leastBytes_le _).trans ((by decide : 1 ≤ 4).trans (Nat.le_add_left _ _))
  | record members ih => exact (spends_readMembers ih).map fun _ => leastBytes_le_sum .record

theorem exists_gives_readMembers {members : List NestedSpec}
    (h : ∀ member ∈ members, ∃ datum, Gives member.read datum) :
    ∃ data, Gives (readMembers members) data := by
  induction members with
  | nil => exact ⟨[], .pure _⟩
  | cons member rest ih =>
    obtain ⟨datum, hdatum⟩ := h member List.mem_cons_self
    obtain ⟨data, hdata⟩ := ih fun m hm => h m (List.mem_cons_of_mem _ hm)
    exact ⟨datum :: data, hdatum.bind (hdata.bind (.pure _))⟩

theorem Weightless.exists_gives {spec : NestedSpec} (h : spec.Weightless) :
    ∃ datum, Gives spec.read datum := by
  induction h with
  | nothing => exact ⟨.nothing, .pure _⟩
  | record _ ih =>
    obtain ⟨data, hdata⟩ := exists_gives_readMembers ih
    exact ⟨.items data, hdata.bind (.pure _)⟩

theorem sizesLists (item : NestedSpec) : SizesLists List.length (readList item.read) item.Weightless := by
  refine .of_cases (fun h => ?_) fun h count hcount rest => ?_
  · have hspends := item.spends_read.readList
    simp only [leastBytes_of_not h] at hspends
    exact hspends.mono fun values => by simp
  · obtain ⟨datum, hdatum⟩ := h.exists_gives
    exact ⟨List.replicate count datum, List.length_replicate, hdatum.readList hcount rest⟩

/-- What bounds the lists of the items, in the bytes that are read and on a cursor. -/
structure BoundsLists (item : NestedSpec) : Prop where
  read : SizesLists List.length (readList item.read) item.Weightless
  scan : Scan.Advances List.length (Scan.list item.scan) ↔ ¬ item.Weightless

theorem boundsLists (item : NestedSpec) : item.BoundsLists :=
  ⟨item.sizesLists, item.mirrors_scan.list.advances_iff.trans item.sizesLists.bounded_iff⟩

end NestedSpec

end Wire

namespace Value

mutual

/-- The number of list elements anywhere in a value. -/
def elementCount : Value → Nat
  | .scalar _ | .enum _ _ _ => 0
  | .record _ fields => elementCountOfFields fields
  | .list elements => elements.length + elementCountOfAll elements

def elementCountOfFields : List (String × Value) → Nat
  | [] => 0
  | (_, value) :: rest => elementCount value + elementCountOfFields rest

def elementCountOfAll : List Value → Nat
  | [] => 0
  | value :: rest => elementCount value + elementCountOfAll rest

end

/-- The number of elements of a list. -/
def listLength (value : Value) : Nat :=
  (value.elements?.getD []).length

/-- A measure that is zero for what is no record or list, and for a record no more than for its
fields. -/
structure Additive (measure : Value → Nat) : Prop where
  scalar : ∀ value, measure (.scalar value) = 0
  enum : ∀ type variant discriminant, measure (.enum type variant discriminant) = 0
  record : ∀ type fields, measure (.record type fields) ≤ (fields.map fun field => measure field.2).sum

theorem elementCountOfFields_eq (fields : List (String × Value)) :
    elementCountOfFields fields = (fields.map fun field => field.2.elementCount).sum := by
  induction fields with
  | nil => rfl
  | cons field rest ih => rw [elementCountOfFields, ih, List.map_cons, List.sum_cons]

theorem elementCountOfAll_eq (elements : List Value) :
    elementCountOfAll elements = (elements.map elementCount).sum := by
  induction elements with
  | nil => rfl
  | cons element rest ih => rw [elementCountOfAll, ih, List.map_cons, List.sum_cons]

theorem additive_zero : Additive fun _ => 0 :=
  ⟨fun _ => rfl, fun _ _ _ => rfl, fun _ _ => Nat.zero_le _⟩

theorem additive_elementCount : Additive elementCount where
  scalar _ := by rw [elementCount]
  enum _ _ _ := by rw [elementCount]
  record _ fields := by rw [elementCount, elementCountOfFields_eq]

end Value

namespace ResolvedType

mutual

/-- The types of the elements of the counted lists in a value of the type. -/
def listElements : ResolvedType → List ResolvedType
  | .list element => element :: listElements element
  | .tuple _ members => listElementsOfAll members
  | _ => []

def listElementsOfAll : List ResolvedType → List ResolvedType
  | [] => []
  | member :: rest => listElements member ++ listElementsOfAll rest

end

theorem mem_listElementsOfAll {members : List ResolvedType} {element : ResolvedType} :
    element ∈ listElementsOfAll members ↔ ∃ m ∈ members, element ∈ m.listElements := by
  induction members with
  | nil => simp [listElementsOfAll]
  | cons member rest ih => simp [listElementsOfAll, ih]

end ResolvedType

namespace Catalog

open Wire (Spends Gives leastBytes)

variable {catalog : Catalog} {readNamed : String → Wire.Reader Value} {measure : Value → Nat}
  {type : ResolvedType} {name : String} {fields : List Field}

/-- A value takes no bytes: it is a struct or a tuple of such values, and none of another kind. -/
inductive Weightless (catalog : Catalog) : ResolvedType → Prop
  | record {name : String} {fields : List Field} (hget : catalog.records.get? name = some fields)
      (h : ∀ field ∈ fields, Weightless catalog field.type) : Weightless catalog (.record name)
  | tuple {name : String} {members : List ResolvedType}
      (h : ∀ member ∈ members, Weightless catalog member) : Weightless catalog (.tuple name members)

/-- What the measure says of a list in the type, it says of elements that take bytes. -/
def Covers (catalog : Catalog) (measure : Value → Nat) (type : ResolvedType) : Prop :=
  ∀ element ∈ type.listElements, ∀ values, measure (.list values) ≤
    (values.map fun value => measure value + leastBytes (catalog.Weightless element)).sum

/-- A value takes as many bytes as it measures, and one more if it is not weightless. -/
def Measures (catalog : Catalog) (measure : Value → Nat) (type : ResolvedType)
    (reader : Wire.Reader Value) : Prop :=
  Spends (fun value => measure value + leastBytes (catalog.Weightless type)) reader

theorem measure_enumValue (hm : Value.Additive measure) {discriminant : UInt8} {value : Value}
    (h : catalog.enumValue name discriminant = .ok value) : measure value = 0 := by
  rw [enumValue] at h
  split at h
  · cases h
  · split at h
    · obtain rfl := Except.ok.inj h
      exact hm.enum _ _ _
    · cases h

theorem spends_readMembers {members : List ResolvedType}
    (h : ∀ m ∈ members, catalog.Measures measure m (readType catalog readNamed m)) (index : Nat) :
    Spends (fun values => (values.map fun value => measure value.2).sum +
        (members.map fun m => leastBytes (catalog.Weightless m)).sum)
      (readMembers catalog readNamed index members) := by
  induction members generalizing index with
  | nil => exact .pure rfl
  | cons member rest ih =>
    have hrest := ih (fun m hm => h m (List.mem_cons_of_mem _ hm)) (index + 1)
    rw [List.map_cons, List.sum_cons]
    exact (h member List.mem_cons_self).cons hrest fun _ => Nat.le_refl _

theorem measures_readType (hm : Value.Additive measure)
    (hnamed : ∀ name, catalog.Measures measure (.record name) (readNamed name))
    (hcovers : catalog.Covers measure type) :
    catalog.Measures measure type (readType catalog readNamed type) := by
  induction type using ResolvedType.memberInduction with
  | primitive kind =>
    refine kind.codec.spends_read.map fun value => ?_
    rw [hm.scalar, Nat.zero_add]
    exact Wire.leastBytes_le _
  | record name => exact hnamed name
  | enum name =>
    refine Wire.spends_readByte.bind (fun byte => .lift fun _ => measure_enumValue hm) fun _ value => ?_
    rw [Nat.add_comm]
    exact Nat.add_le_add_right (Wire.leastBytes_le _) _
  | list element ih =>
    have helement := ih fun inner hinner => hcovers inner (List.mem_cons_of_mem _ hinner)
    refine helement.readList.map fun values => ?_
    have hlist := hcovers element List.mem_cons_self values
    have hleast := Wire.leastBytes_le (catalog.Weightless (.list element))
    omega
  | tuple name members ih =>
    have hmembers := spends_readMembers (fun m hmem => ih m hmem fun inner hinner =>
      hcovers inner (ResolvedType.mem_listElementsOfAll.2 ⟨m, hmem, hinner⟩)) 0
    exact hmembers.map fun values =>
      Nat.add_le_add (hm.record name values) (Wire.leastBytes_le_sum .tuple)
  | variadic | variadicMulti | multi => exact .throw

theorem sum_putEntry_le (measure : Value → Nat) (name : String) (value : Value)
    (values : List (String × Value)) :
    ((putEntry name value values).map fun value => measure value.2).sum ≤
      measure value + (values.map fun value => measure value.2).sum := by
  induction values with
  | nil => exact Nat.le_refl _
  | cons entry rest ih =>
    rw [putEntry]
    split
    · simp only [List.map_cons, List.sum_cons]
      omega
    · simp only [List.map_cons, List.sum_cons]
      omega

/-- The values that were read before the fields are kept, except for those of repeated names. -/
theorem measure_readFields
    (h : ∀ field ∈ fields, catalog.Measures measure field.type (readType catalog readNamed field.type))
    {values result : List (String × Value)} {bytes rest : Bytes}
    (hread : readFields catalog readNamed values fields bytes = .ok (result, rest)) :
    (result.map fun value => measure value.2).sum +
        (fields.map fun field => leastBytes (catalog.Weightless field.type)).sum + rest.length ≤
      (values.map fun value => measure value.2).sum + bytes.length := by
  induction fields generalizing values bytes with
  | nil =>
    obtain ⟨rfl, rfl⟩ := Prod.mk.inj (Except.ok.inj hread)
    simp
  | cons field others ih =>
    rw [readFields] at hread
    obtain ⟨value, middle, hfield, hread⟩ := Wire.Reader.exists_of_bind hread
    have hspent : measure value + leastBytes (catalog.Weightless field.type) + middle.length ≤
        bytes.length := h field List.mem_cons_self bytes value middle hfield
    have hrest := ih (fun f hf => h f (List.mem_cons_of_mem _ hf)) hread
    have hput := sum_putEntry_le measure field.name value values
    rw [List.map_cons, List.sum_cons]
    omega

theorem measures_readRecord (hm : Value.Additive measure)
    (hcovers : ∀ name fields, catalog.records.get? name = some fields →
      ∀ field ∈ fields, catalog.Covers measure field.type) (nesting : Nat) (name : String) :
    catalog.Measures measure (.record name) (readRecord catalog nesting name) := by
  induction nesting generalizing name with
  | zero =>
    rw [readRecord]
    split <;> exact .throw
  | succ nesting ih =>
    rw [readRecord]
    split
    · exact .throw
    · rename_i fields hget
      intro bytes value rest hread
      obtain ⟨values, middle, hfields, hread⟩ := Wire.Reader.exists_of_bind hread
      obtain ⟨rfl, rfl⟩ := Prod.mk.inj (Except.ok.inj hread)
      have hspent := measure_readFields (fun field hfield =>
        measures_readType hm ih (hcovers name fields hget field hfield)) hfields
      have hrecord := hm.record name values
      have hleast : leastBytes (catalog.Weightless (.record name)) ≤
          (fields.map fun field => leastBytes (catalog.Weightless field.type)).sum :=
        Wire.leastBytes_le_sum (.record hget)
      change measure (.record name values) + leastBytes (catalog.Weightless (.record name)) +
        middle.length ≤ bytes.length
      simp only [List.map_nil, List.sum_nil, Nat.zero_add] at hspent
      omega

theorem measures_read (hm : Value.Additive measure)
    (hcovers : ∀ name fields, catalog.records.get? name = some fields →
      ∀ field ∈ fields, catalog.Covers measure field.type) (htype : catalog.Covers measure type) :
    catalog.Measures measure type (catalog.read type) :=
  fun bytes => measures_readType hm (measures_readRecord hm hcovers _) htype bytes

theorem Weightless.inline (h : catalog.Weightless type) (hname : name ∈ type.inlineRecords) :
    catalog.Weightless (.record name) := by
  induction h with
  | record hget h =>
    obtain rfl := List.mem_singleton.1 hname
    exact .record hget h
  | tuple _ ih =>
    obtain ⟨m, hm, hinner⟩ := ResolvedType.mem_inlineRecordsOfAll.1 hname
    exact ih m hm hinner

/-- The records that a weightless value contains end somewhere. -/
theorem Weightless.acc (h : catalog.Weightless type) (hname : name ∈ type.inlineRecords) :
    Acc (fun inner outer => catalog.Contains outer inner) name := by
  induction h generalizing name with
  | record hget h ih =>
    obtain rfl := List.mem_singleton.1 hname
    refine ⟨_, fun inner hcontains => ?_⟩
    obtain ⟨fields, hget', field, hfield, hinner⟩ := hcontains
    obtain rfl := Option.some.inj (hget.symm.trans hget')
    exact ih field hfield hinner
  | tuple _ ih =>
    obtain ⟨m, hm, hinner⟩ := ResolvedType.mem_inlineRecordsOfAll.1 hname
    exact ih m hm hinner

theorem not_transGen_of_acc (h : Acc (fun inner outer => catalog.Contains outer inner) name) :
    ¬ Relation.TransGen catalog.Contains name name := by
  induction h with
  | intro name _ ih =>
    intro hcycle
    obtain ⟨inner, hcontains, hback⟩ := Relation.TransGen.head'_iff.1 hcycle
    exact ih inner hcontains (.tail' hback hcontains)

theorem exists_gives_readMembers {members : List ResolvedType}
    (h : ∀ m ∈ members, ∃ value, Gives (readType catalog readNamed m) value) (index : Nat) :
    ∃ values, Gives (readMembers catalog readNamed index members) values := by
  induction members generalizing index with
  | nil => exact ⟨[], .pure _⟩
  | cons member rest ih =>
    obtain ⟨value, hvalue⟩ := h member List.mem_cons_self
    obtain ⟨values, hvalues⟩ := ih (fun m hm => h m (List.mem_cons_of_mem _ hm)) (index + 1)
    exact ⟨(memberName index, value) :: values, hvalue.bind (hvalues.bind (.pure _))⟩

theorem Weightless.exists_gives_readType (h : catalog.Weightless type)
    (hnamed : ∀ inner ∈ type.inlineRecords, ∃ value, Gives (readNamed inner) value) :
    ∃ value, Gives (readType catalog readNamed type) value := by
  induction h with
  | record => exact hnamed _ List.mem_cons_self
  | @tuple name members _ ih =>
    have hmembers : ∀ m ∈ members, ∃ value, Gives (readType catalog readNamed m) value :=
      fun m hm => ih m hm fun inner hinner =>
        hnamed inner (ResolvedType.mem_inlineRecordsOfAll.2 ⟨m, hm, hinner⟩)
    obtain ⟨values, hvalues⟩ := exists_gives_readMembers hmembers 0
    exact ⟨.record name values, hvalues.bind (.pure _)⟩

theorem exists_gives_readFields
    (h : ∀ field ∈ fields, ∃ value, Gives (readType catalog readNamed field.type) value)
    (values : List (String × Value)) :
    ∃ result, Gives (readFields catalog readNamed values fields) result := by
  induction fields generalizing values with
  | nil => exact ⟨values, .pure _⟩
  | cons field rest ih =>
    obtain ⟨value, hvalue⟩ := h field List.mem_cons_self
    obtain ⟨result, hresult⟩ := ih (fun f hf => h f (List.mem_cons_of_mem _ hf))
      (putEntry field.name value values)
    exact ⟨result, hvalue.bind hresult⟩

/-- The limit on nested records leaves room for all that are below a weightless one. -/
theorem Weightless.exists_gives_readRecord (h : catalog.Weightless (.record name)) {nesting : Nat}
    (hnesting : (catalog.below catalog.Contains name).card < nesting) :
    ∃ value, Gives (readRecord catalog nesting name) value := by
  induction nesting generalizing name with
  | zero => exact absurd hnesting (Nat.not_lt_zero _)
  | succ nesting ih =>
    cases h with
    | @record _ fields hget h =>
      have hfields : ∀ field ∈ fields, ∃ value,
          Gives (readType catalog (readRecord catalog nesting) field.type) value := by
        intro field hfield
        refine (h field hfield).exists_gives_readType fun inner hinner => ?_
        have hweightless := (h field hfield).inline hinner
        have hdeclared : inner ∈ catalog.records.names := by
          cases hweightless with
          | record hget' => exact mem_names_of_get? hget'
        have hlower := card_below_lt ⟨fields, hget, field, hfield, hinner⟩ hdeclared
          (not_transGen_of_acc ((h field hfield).acc hinner))
        exact ih hweightless (by omega)
      obtain ⟨values, hvalues⟩ := exists_gives_readFields hfields []
      refine ⟨.record name values, ?_⟩
      rw [readRecord, hget]
      exact hvalues.bind (.pure _)

theorem Weightless.exists_gives (h : catalog.Weightless type) {nesting : Nat}
    (hnesting : catalog.records.size ≤ nesting) :
    ∃ value, Gives (readType catalog (readRecord catalog nesting) type) value := by
  refine h.exists_gives_readType fun inner hinner => ?_
  have hrecord := h.inline hinner
  refine hrecord.exists_gives_readRecord (Nat.lt_of_lt_of_le ?_ hnesting)
  cases hrecord with
  | record hget => exact card_below_lt_size (mem_names_of_get? hget) (not_transGen_of_acc (h.acc hinner))

/-- Whatever the catalog is, a list is bounded by its bytes unless its elements are weightless. -/
theorem sizesLists (catalog : Catalog) (element : ResolvedType) :
    Wire.SizesLists Value.listLength (catalog.read (.list element)) (catalog.Weightless element) := by
  refine .of_cases (fun h => ?_) fun h count hcount rest => ?_
  · intro bytes value rest hread
    obtain ⟨values, middle, hvalues, hread⟩ := Wire.Reader.exists_of_bind hread
    obtain ⟨rfl, rfl⟩ := Prod.mk.inj (Except.ok.inj hread)
    have hcovers : ∀ type : ResolvedType, catalog.Covers (fun _ => 0) type :=
      fun _ _ _ _ => Nat.zero_le _
    have hspends := (measures_readType Value.additive_zero (measures_readRecord Value.additive_zero
      (fun _ _ _ field _ => hcovers field.type) (catalog.nestingLimit bytes)) (hcovers element)).readList
    have hspent := hspends bytes values middle hvalues
    simp only [Wire.leastBytes_of_not h, Nat.zero_add, List.map_const', List.sum_replicate,
      smul_eq_mul, Nat.mul_one] at hspent
    change values.length + middle.length ≤ bytes.length
    omega
  · have hlimit : catalog.records.size ≤ catalog.nestingLimit (Wire.wordBytes 4 count ++ rest) :=
      Nat.le_mul_of_pos_left _ (Nat.succ_pos _)
    obtain ⟨value, hvalue⟩ := h.exists_gives hlimit
    refine ⟨.list (List.replicate count value), List.length_replicate, ?_⟩
    change (do return Value.list (← Wire.readList (readType catalog _ element)) : Wire.Reader Value) _ = _
    rw [Wire.Reader.bind_apply, hvalue.readList hcount rest]
    rfl

/-- The elements of the counted lists in the type take bytes. -/
def WeighsElements (catalog : Catalog) (type : ResolvedType) : Prop :=
  ∀ element ∈ type.listElements, ¬ catalog.Weightless element

/-- A value has no more list elements than bytes, inside other data and in a slot of its own. -/
structure BoundsElements (catalog : Catalog) (type : ResolvedType) : Prop where
  read : Spends Value.elementCount (catalog.read type)
  slot : ∀ slot value, catalog.decodeSlot type slot = .ok value → value.elementCount ≤ slot.length

theorem WeighsElements.covers (h : catalog.WeighsElements type) :
    catalog.Covers Value.elementCount type := by
  intro element helement values
  rw [Wire.leastBytes_of_not (h element helement), Value.elementCount, Value.elementCountOfAll_eq,
    List.sum_map_add, List.map_const', List.sum_replicate, smul_eq_mul, Nat.mul_one, Nat.add_comm]

theorem WeighsElements.boundsElements (h : catalog.WeighsElements type)
    (hfields : ∀ name fields, catalog.records.get? name = some fields →
      ∀ field ∈ fields, catalog.WeighsElements field.type) : catalog.BoundsElements type := by
  have hread : Spends Value.elementCount (catalog.read type) := by
    have hmeasures := measures_read Value.additive_elementCount
      (fun name fields hget field hfield => (hfields name fields hget field hfield).covers) h.covers
    exact Spends.mono hmeasures fun _ => Nat.le_add_right _ _
  refine ⟨hread, fun slot value hvalue => ?_⟩
  have hwhole : ∀ {value}, Wire.topRead (catalog.read type) slot = .ok value →
      value.elementCount ≤ slot.length := by
    intro value hvalue
    obtain ⟨⟨other, rest⟩, hother, rfl⟩ := of_map_eq_ok hvalue
    exact (Nat.le_add_right _ _).trans (hread slot _ rest hother)
  cases type with
  | primitive kind =>
    obtain ⟨scalar, -, hvalue⟩ := of_bind_eq_ok hvalue
    obtain rfl := Except.ok.inj hvalue
    exact Nat.zero_le _
  | enum name =>
    obtain ⟨discriminant, -, hvalue⟩ := of_bind_eq_ok hvalue
    rw [measure_enumValue Value.additive_elementCount hvalue]
    exact Nat.zero_le _
  | record name => exact hwhole hvalue
  | tuple name members => exact hwhole hvalue
  | list | variadic | variadicMulti | multi => cases hvalue

end Catalog

namespace ResolvedType

variable {type element : ResolvedType}

/-- No tuple or group in the type is empty. -/
def Filled (type : ResolvedType) : Prop :=
  ∀ composite ∈ type.composites, composite.members ≠ []

theorem mem_composites_of_listElements (h : element ∈ type.listElements) {composite : Composite}
    (hmem : composite ∈ element.composites) : composite ∈ type.composites := by
  induction type using memberInduction with
  | list inner ih =>
    rcases List.mem_cons.1 h with rfl | h
    · exact hmem
    · exact ih h
  | tuple name members ih =>
    obtain ⟨m, hm, helement⟩ := mem_listElementsOfAll.1 h
    exact List.mem_append_left _ (mem_compositesOfAll.2 ⟨m, hm, ih m hm helement⟩)
  | _ => exact absurd h List.not_mem_nil

theorem Filled.of_listElements (h : type.Filled) (helement : element ∈ type.listElements) :
    element.Filled :=
  fun composite hmem => h composite (mem_composites_of_listElements helement hmem)

end ResolvedType

/-- If no struct is empty and no tuple is, every value takes a byte. -/
theorem Catalog.not_weightless {catalog : Catalog} {type : ResolvedType}
    (hrecords : ∀ name fields, catalog.records.get? name = some fields →
      fields ≠ [] ∧ ∀ field ∈ fields, field.type.Filled) (h : type.Filled) :
    ¬ catalog.Weightless type := by
  intro hweightless
  induction hweightless with
  | @record name fields hget _ ih =>
    obtain ⟨hne, hfilled⟩ := hrecords name fields hget
    obtain ⟨field, hfield⟩ := List.exists_mem_of_ne_nil fields hne
    exact ih field hfield (hfilled field hfield)
  | @tuple name members _ ih =>
    have hne : members ≠ [] := h ⟨name, members⟩ (List.mem_append_right _ List.mem_cons_self)
    obtain ⟨m, hm⟩ := List.exists_mem_of_ne_nil members hne
    refine ih m hm fun composite hmem => h composite (List.mem_append_left _ ?_)
    exact ResolvedType.mem_compositesOfAll.2 ⟨m, hm, hmem⟩

namespace Contract

variable {contract : Contract} {document : Document} {session : Session} {type : ResolvedType}

theorem Models.filled (h : contract.Models document session)
    (hadmits : session.context.Admits document.types type) : type.Filled := by
  rintro ⟨name, members⟩ hmem rfl
  exact (h.context.registry.fieldNames _ (hadmits.known _ hmem)).1 rfl

theorem Models.admits_usedTypes (h : contract.Models document session)
    (htype : type ∈ contract.usedTypes) : session.context.Admits document.types type := by
  rcases List.mem_append.1 htype with htype | htype
  · obtain ⟨⟨name, fields⟩, hentry, htype⟩ := List.mem_flatMap.1 htype
    obtain ⟨field, hfield, rfl⟩ := List.mem_map.1 htype
    exact (h.admitsField (NameMap.get?_eq_some_iff.2 hentry) hfield).admitted
  · obtain ⟨endpoint, hendpoint, htype⟩ := List.mem_flatMap.1 htype
    have hadmits := h.endpoints endpoint hendpoint
    rcases List.mem_append.1 htype with htype | htype
    · obtain ⟨input, hinput, rfl⟩ := List.mem_map.1 htype
      exact hadmits.inputs input hinput
    · split at htype
      · rename_i hkind
        obtain ⟨output, houtput, rfl⟩ := List.mem_map.1 htype
        exact hadmits.outputs hkind output houtput
      · exact absurd htype List.not_mem_nil

/-- The fields of a record are those that the document declares for it. -/
theorem Models.fields_eq_nil_iff (h : contract.Models document session) {name : String}
    {fields : List Field} (hget : contract.catalog.records.get? name = some fields) :
    fields = [] ↔ ∃ docs, document.types.get? name = some (.record docs []) := by
  rw [h.catalog] at hget
  obtain ⟨docs, decls, htypes, hnames, -⟩ := h.represents.records name fields hget
  have hempty : fields = [] ↔ decls = [] := by
    rw [← List.map_eq_nil_iff (f := Field.name), hnames, List.map_eq_nil_iff]
  rw [hempty, htypes]
  constructor
  · rintro rfl
    exact ⟨docs, rfl⟩
  · rintro ⟨docs', heq⟩
    cases heq
    rfl

/-- What bounds the lists in the values of a contract. -/
structure BoundsLists (contract : Contract) (document : Document) : Prop where
  types : ∀ element, Wire.SizesLists Value.listLength (contract.catalog.read (.list element))
    (contract.catalog.Weightless element)
  /-- A value of a struct without fields takes no bytes. -/
  weightless : ∀ name docs, document.types.get? name = some (.record docs []) →
    contract.catalog.Weightless (.record name)
  /-- If every struct has a field, values have no more list elements than bytes. -/
  bounded : (∀ name docs, document.types.get? name ≠ some (.record docs [])) →
    (∀ type ∈ contract.usedTypes, contract.catalog.BoundsElements type) ∧
      ∀ name, contract.catalog.BoundsElements (.record name)

theorem Models.weighsElements (h : contract.Models document session)
    (hstructs : ∀ name docs, document.types.get? name ≠ some (.record docs []))
    (hadmits : session.context.Admits document.types type) : contract.catalog.WeighsElements type := by
  intro element helement
  refine Catalog.not_weightless (fun name fields hget => ⟨fun hnil => ?_, fun field hfield => ?_⟩)
    ((h.filled hadmits).of_listElements helement)
  · obtain ⟨docs, hget'⟩ := (h.fields_eq_nil_iff hget).1 hnil
    exact hstructs name docs hget'
  · exact h.filled (h.admitsField hget hfield).admitted

end Contract

/-- Lists are as long as their counts say when their elements take no bytes, and otherwise no longer
than the bytes that they take. -/
theorem counted_lists_are_bounded_unless_weightless (document : Document) (policy : EndpointPolicy)
    (contract : Contract) (h : Contract.ofDocument policy document = .ok contract) :
    (∀ item : Wire.NestedSpec, item.BoundsLists) ∧ contract.BoundsLists document := by
  obtain ⟨session, hmodels⟩ := Contract.exists_models h
  refine ⟨Wire.NestedSpec.boundsLists, contract.catalog.sizesLists, fun name docs hget => ?_,
    fun hstructs => ?_⟩
  · obtain ⟨fields, hfields⟩ : ∃ fields, contract.catalog.records.get? name = some fields := by
      have hdeclared : name ∈ session.records.names := hmodels.declares name _ hget
      cases hfind : contract.catalog.records.get? name with
      | none =>
        rw [hmodels.catalog] at hfind
        exact absurd hdeclared (NameMap.get?_eq_none_iff.1 hfind)
      | some fields => exact ⟨fields, rfl⟩
    obtain rfl := (hmodels.fields_eq_nil_iff hfields).2 ⟨docs, hget⟩
    exact .record hfields fun _ hfield => absurd hfield List.not_mem_nil
  · have hfields : ∀ name fields, contract.catalog.records.get? name = some fields →
        ∀ field ∈ fields, contract.catalog.WeighsElements field.type := fun name fields hget field hfield =>
      hmodels.weighsElements hstructs (hmodels.admitsField hget hfield).admitted
    have hrecord : ∀ name, contract.catalog.WeighsElements (.record name) :=
      fun _ _ helement => absurd helement List.not_mem_nil
    exact ⟨fun type htype => (hmodels.weighsElements hstructs
      (hmodels.admits_usedTypes htype)).boundsElements hfields,
      fun name => (hrecord name).boundsElements hfields⟩

/-- A document with a list of structs that have no fields. -/
def gallery : Document where
  buildInfo := ⟨none, ⟨"multiversx-sc", "0.43.3"⟩⟩
  docs := []
  name := "Gallery"
  constructor := none
  endpoints := [⟨"getHall", [], false, .readonly, [], [], [⟨"", "Hall", false⟩]⟩]
  events := []
  hasCallbacks := false
  types := NameMap.ofList
    [("Spot", .record [] []), ("Hall", .record [] [⟨"spots", "List<Spot>"⟩])]

/-- Four bytes hold five elements. -/
theorem gallery_sizes_its_lists :
    ∃ contract, Contract.ofDocument .strict gallery = .ok contract ∧ contract.BoundsLists gallery ∧
      contract.catalog.decodeSlot (.record "Hall") [0, 0, 0, 5] =
        .ok (.record "Hall" [("spots", .list (List.replicate 5 (.record "Spot" [])))]) := by
  have hview : (Contract.ofDocument .strict gallery).map (·.catalog) =
      .ok ⟨NameMap.ofList [("Spot", []), ("Hall", [⟨"spots", .list (.record "Spot")⟩])], ∅, ∅⟩ := by
    decide +kernel
  obtain ⟨contract, hcontract, hcatalog⟩ := of_map_eq_ok hview
  refine ⟨contract, hcontract, (counted_lists_are_bounded_unless_weightless gallery .strict contract
    hcontract).2, ?_⟩
  rw [← hcatalog]
  rfl

end ContractAbi
