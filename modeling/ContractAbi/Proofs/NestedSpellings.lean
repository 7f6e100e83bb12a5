import ContractAbi.Proofs.ArgumentBytes
import ContractAbi.Proofs.PayloadAgreement

/-!
# One spelling for each value

What a reader takes is settled by the value that it gives. Words, texts, addresses and the counts of
lists are taken in the form in which they are written and in no other. Only big numbers leave a
choice: their payloads may begin with bytes that repeat the sign, and the length in front counts
them.
-/
namespace ContractAbi.Wire

variable {α β : Type}

theorem eq_of_naturalOf {left right : Bytes} (hlength : left.length = right.length)
    (h : naturalOf left = naturalOf right) : left = right := by
  rw [← wordBytes_naturalOf left, hlength, h, wordBytes_naturalOf]

theorem integerOf_neg_iff (bytes : Bytes) : integerOf bytes < 0 ↔ bytes.head?.any (128 ≤ ·) = true := by
  have hlt : (naturalOf bytes : Int) < 256 ^ bytes.length := by exact_mod_cast naturalOf_lt bytes
  by_cases hsign : bytes.head?.any (128 ≤ ·) = true
  · rw [integerOf_of_sign hsign]
    exact iff_of_true (by omega) hsign
  · rw [integerOf_of_no_sign (by simpa using hsign)]
    exact iff_of_false (by omega) hsign

theorem eq_of_integerOf {left right : Bytes} (hlength : left.length = right.length)
    (h : integerOf left = integerOf right) : left = right := by
  have hsigns : left.head?.any (128 ≤ ·) = true ↔ right.head?.any (128 ≤ ·) = true := by
    rw [← integerOf_neg_iff, ← integerOf_neg_iff, h]
  apply eq_of_naturalOf hlength
  by_cases hsign : left.head?.any (128 ≤ ·) = true
  · rw [integerOf_of_sign hsign, integerOf_of_sign (hsigns.1 hsign), hlength] at h
    omega
  · rw [integerOf_of_no_sign (by simpa using hsign),
      integerOf_of_no_sign (by simpa using mt hsigns.2 hsign)] at h
    exact_mod_cast h

/-- The byte that repeats the sign of a value in front of its payload. -/
def Scalar.filler : Scalar → UInt8
  | .integer value => if value < 0 then 255 else 0
  | _ => 0

theorem integerOf_filled (bytes : Bytes) :
    integerOf ((Scalar.integer (integerOf bytes)).filler :: bytes) = integerOf bytes := by
  rw [Scalar.filler]
  by_cases hsign : bytes.head?.any (128 ≤ ·) = true
  · rw [if_pos ((integerOf_neg_iff bytes).2 hsign), integerOf_of_sign hsign,
      integerOf_of_sign (by simp), naturalOf_cons, List.length_cons]
    push_cast
    change (255 : Int) * 256 ^ bytes.length + naturalOf bytes - 256 ^ (bytes.length + 1) = _
    rw [pow_succ]
    ring
  · rw [if_neg (mt (integerOf_neg_iff bytes).1 hsign), integerOf_of_no_sign (by simp),
      integerOf_of_no_sign (by simpa using hsign), naturalOf_cons]
    simp

theorem integerOf_fillers (count : Nat) (bytes : Bytes) :
    integerOf (List.replicate count (Scalar.integer (integerOf bytes)).filler ++ bytes) =
      integerOf bytes := by
  induction count with
  | zero => rfl
  | succ count ih =>
    have hfilled := integerOf_filled
      (List.replicate count (Scalar.integer (integerOf bytes)).filler ++ bytes)
    rwa [ih] at hfilled

/-- Bytes are those of their natural number behind zeros. -/
theorem exists_zeros (bytes : Bytes) :
    ∃ count, bytes = List.replicate count 0 ++ naturalBytes (naturalOf bytes) := by
  have hle : (naturalBytes (naturalOf bytes)).length ≤ bytes.length :=
    length_naturalBytes_le (naturalOf_lt bytes)
  refine ⟨bytes.length - (naturalBytes (naturalOf bytes)).length, eq_of_naturalOf ?_ ?_⟩
  · rw [List.length_append, List.length_replicate]
    omega
  · rw [naturalOf_zeros, naturalOf_naturalBytes]

/-- Bytes are those of their integer behind repetitions of its sign. -/
theorem exists_fillers (bytes : Bytes) : ∃ count, bytes =
    List.replicate count (Scalar.integer (integerOf bytes)).filler ++ integerBytes (integerOf bytes) := by
  obtain ⟨hlow, hhigh⟩ := integerOf_range bytes
  have hle := length_integerBytes_le hlow hhigh
  have hfillers := integerOf_fillers (bytes.length - (integerBytes (integerOf bytes)).length)
    (integerBytes (integerOf bytes))
  rw [integerOf_integerBytes] at hfillers
  refine ⟨bytes.length - (integerBytes (integerOf bytes)).length, eq_of_integerOf ?_ hfillers.symm⟩
  rw [List.length_append, List.length_replicate]
  omega

theorem toList_of_textOf {bytes : Bytes} {text : String} (h : textOf bytes = .ok text) :
    text.toUTF8.toList = bytes := by
  simp only [textOf, String.fromUTF8?] at h
  split at h
  · rename_i hvalid
    split at hvalid
    · obtain rfl := Option.some.inj hvalid
      obtain rfl := Except.ok.inj h
      change ByteArray.toList ⟨bytes.toArray⟩ = bytes
      rw [ByteArray.toList, toList_loop]
      rfl
    · cases hvalid
  · cases h

namespace Codec

/-- Payloads of big numbers may begin with redundant bytes. -/
def isBig : Codec → Bool
  | .natural | .integer => true
  | .bool | .word _ | .text | .bytes | .address => false

/-- The payload of a scalar behind so many bytes that repeat its sign. -/
def widened (codec : Codec) (extra : Nat) (value : Scalar) : Bytes :=
  List.replicate extra value.filler ++ (codec.argument value).payload

/-- Bytes that repeat the sign do not count. -/
theorem top_widened {codec : Codec} {value : Scalar} (h : codec.Fits value) {extra : Nat}
    (hextra : codec.isBig = false → extra = 0) : codec.top (codec.widened extra value) = .ok value := by
  cases codec with
  | natural =>
    cases value with
    | integer i =>
      have hi : ((i.toNat : Nat) : Int) = i := Int.toNat_of_nonneg h
      have hfiller : (Scalar.integer i).filler = 0 := if_neg (Int.not_lt.2 h)
      rw [top, widened, hfiller, naturalOf_zeros]
      simp only [argument, Argument.payload, naturalOf_naturalBytes, hi]
    | _ => exact absurd h id
  | integer =>
    cases value with
    | integer i =>
      have hfilled := integerOf_fillers extra (integerBytes i)
      rw [integerOf_integerBytes] at hfilled
      exact congrArg (fun i => Except.ok (Scalar.integer i)) hfilled
    | _ => exact absurd h id
  | bool | word size | text | bytes | address =>
    obtain rfl := hextra rfl
    exact top_argument h

/-- The only payloads that decode to a scalar are its own and, for big numbers, longer ones. -/
theorem exists_widened {codec : Codec} {payload : Bytes} {value : Scalar} (hsuits : codec.Suits payload)
    (h : codec.top payload = .ok value) :
    ∃ extra, (codec.isBig = false → extra = 0) ∧ payload = codec.widened extra value := by
  cases codec with
  | bool =>
    refine ⟨0, fun _ => rfl, ?_⟩
    obtain rfl := Except.ok.inj h
    rcases hsuits with rfl | rfl <;> rfl
  | word size =>
    have hlength : payload.length = size.width := hsuits
    have hlt := naturalOf_lt payload
    rw [hlength] at hlt
    rw [top, topWord_eq, if_pos hlt] at h
    obtain rfl := Except.ok.inj h
    refine ⟨0, fun _ => rfl, ?_⟩
    change payload = wordBytes size.width (naturalOf payload)
    rw [← hlength, wordBytes_naturalOf]
  | natural =>
    obtain rfl := Except.ok.inj h
    obtain ⟨extra, hpayload⟩ := exists_zeros payload
    exact ⟨extra, fun h => by (cases h), hpayload⟩
  | integer =>
    obtain rfl := Except.ok.inj h
    obtain ⟨extra, hpayload⟩ := exists_fillers payload
    exact ⟨extra, fun h => by (cases h), hpayload⟩
  | text =>
    refine ⟨0, fun _ => rfl, ?_⟩
    rw [top] at h
    cases htext : textOf payload with
    | error fault =>
      rw [htext] at h
      cases h
    | ok text =>
      rw [htext] at h
      obtain rfl := Except.ok.inj h
      exact (toList_of_textOf htext).symm
  | bytes =>
    obtain rfl := Except.ok.inj h
    exact ⟨0, fun _ => rfl, rfl⟩
  | address =>
    have hlength : payload.length = addressLength := hsuits
    rw [top, if_pos hlength] at h
    obtain rfl := Except.ok.inj h
    exact ⟨0, fun _ => rfl, rfl⟩

/-- The bytes spell the scalar inside other data: they are its payload, of a big number with any
number of bytes in front that repeat the sign, behind the length of all of it if the codec has one. -/
structure Spells (codec : Codec) (value : Scalar) (bytes : Bytes) : Prop where
  fits : codec.Fits value
  spelled : ∃ extra, (codec.isBig = false → extra = 0) ∧ codec.Suits (codec.widened extra value) ∧
    bytes = codec.framed (codec.widened extra value)

theorem Spells.eq_nested {codec : Codec} {value : Scalar} {bytes : Bytes} (h : codec.Spells value bytes)
    (hexact : codec.isBig = false) : bytes = codec.nested value := by
  obtain ⟨-, extra, hextra, -, rfl⟩ := h
  rw [hextra hexact]
  rfl

theorem length_framed_le {codec : Codec} {short long : Bytes} (h : short.length ≤ long.length) :
    (codec.framed short).length ≤ (codec.framed long).length := by
  rw [framed, framed]
  split
  · simp only [prefixed, List.length_append, length_wordBytes]
    omega
  · exact h

/-- The reference encoding is one of the spellings, and none is shorter. -/
theorem Spells.nested {codec : Codec} {value : Scalar} {bytes : Bytes} (h : codec.Spells value bytes) :
    codec.Spells value (codec.nested value) ∧ (codec.nested value).length ≤ bytes.length := by
  obtain ⟨hfits, extra, -, hsuits, rfl⟩ := h
  have hle : (codec.argument value).payload.length ≤ (codec.widened extra value).length := by
    rw [widened, List.length_append]
    omega
  have hshort : codec.Suits (codec.argument value).payload := hfits.suits fun hprefix => by
    cases codec with
    | natural | integer | text | bytes => exact hle.trans_lt hsuits
    | bool | word size | address => cases hprefix
  exact ⟨⟨hfits, 0, fun _ => rfl, hshort, rfl⟩, length_framed_le hle⟩

end Codec

/-- The reader gives a value just if the bytes at the front spell it, and takes those. -/
def Recognizes (reader : Reader α) (spells : α → Bytes → Prop) : Prop :=
  ∀ bytes value rest, reader bytes = .ok (value, rest) ↔
    ∃ taken, bytes = taken ++ rest ∧ spells value taken

section

variable {reader : Reader α} {spells : α → Bytes → Prop}

theorem Recognizes.congr {others : α → Bytes → Prop} (h : Recognizes reader spells)
    (hiff : ∀ value taken, spells value taken ↔ others value taken) : Recognizes reader others := by
  intro bytes value rest
  simp only [h bytes value rest, hiff]

theorem Recognizes.lift (result : Except Fault α) :
    Recognizes (liftM result : Reader α) fun value taken => result = .ok value ∧ taken = [] := by
  intro bytes value rest
  cases result with
  | error fault =>
    constructor
    · intro h
      cases h
    · rintro ⟨_, _, h, -⟩
      cases h
  | ok other =>
    constructor
    · intro h
      obtain ⟨rfl, rfl⟩ := Prod.mk.inj (Except.ok.inj h)
      exact ⟨[], rfl, rfl, rfl⟩
    · rintro ⟨taken, rfl, h, rfl⟩
      obtain rfl := Except.ok.inj h
      rfl

theorem Recognizes.pure (value : α) :
    Recognizes (Pure.pure value : Reader α) fun result taken => result = value ∧ taken = [] :=
  (Recognizes.lift (.ok value)).congr fun _ _ => by
    rw [Except.ok.injEq, eq_comm]

theorem Recognizes.bind {next : α → Reader β} {follows : α → β → Bytes → Prop}
    (h : Recognizes reader spells) (hnext : ∀ value, Recognizes (next value) (follows value)) :
    Recognizes (reader >>= next) fun result taken => ∃ value front back,
      taken = front ++ back ∧ spells value front ∧ follows value result back := by
  intro bytes result rest
  rw [Reader.bind_apply]
  constructor
  · intro hrun
    cases hfirst : reader bytes with
    | error fault =>
      rw [hfirst] at hrun
      cases hrun
    | ok pair =>
      obtain ⟨value, middle⟩ := pair
      rw [hfirst] at hrun
      obtain ⟨front, rfl, hfront⟩ := (h _ _ _).1 hfirst
      obtain ⟨back, rfl, hback⟩ := (hnext value _ _ _).1 hrun
      exact ⟨front ++ back, (List.append_assoc _ _ _).symm, value, front, back, rfl, hfront, hback⟩
  · rintro ⟨taken, rfl, value, front, back, rfl, hfront, hback⟩
    rw [List.append_assoc, (h _ _ _).2 ⟨front, rfl, hfront⟩]
    exact (hnext value _ _ _).2 ⟨back, rfl, hback⟩

theorem Recognizes.map (h : Recognizes reader spells) (f : α → β) :
    Recognizes (do return f (← reader)) fun result taken => ∃ value, result = f value ∧ spells value taken :=
  (h.bind fun value => .pure (f value)).congr fun result taken => by
    constructor
    · rintro ⟨value, front, back, rfl, hfront, rfl, rfl⟩
      rw [List.append_nil]
      exact ⟨value, rfl, hfront⟩
    · rintro ⟨value, rfl, h⟩
      exact ⟨value, taken, [], (List.append_nil _).symm, h, rfl, rfl⟩

end

theorem recognizes_take (needed : Nat) :
    Recognizes (take needed) fun value taken => value.length = needed ∧ taken = value := by
  intro bytes value rest
  constructor
  · intro h
    obtain ⟨hlength, rfl⟩ := take_ok h
    exact ⟨value, rfl, hlength, rfl⟩
  · rintro ⟨taken, rfl, hlength, rfl⟩
    exact take_append hlength

theorem recognizes_readWord (word : Word) :
    Recognizes (readWord word) fun n taken => n < 256 ^ word.width ∧ taken = wordBytes word.width n :=
  ((recognizes_take word.width).map naturalOf).congr fun n taken => by
    constructor
    · rintro ⟨value, rfl, hlength, rfl⟩
      rw [← hlength]
      exact ⟨naturalOf_lt taken, (wordBytes_naturalOf taken).symm⟩
    · rintro ⟨hlt, rfl⟩
      exact ⟨_, (naturalOf_wordBytes hlt).symm, length_wordBytes _ _, rfl⟩

theorem recognizes_readPayload :
    Recognizes readPayload fun payload taken => payload.length < 2 ^ 32 ∧ taken = prefixed payload :=
  ((recognizes_readWord .u32).bind recognizes_take).congr fun payload taken => by
    constructor
    · rintro ⟨_, _, _, rfl, ⟨hlt, rfl⟩, rfl, rfl⟩
      exact ⟨hlt, rfl⟩
    · rintro ⟨hlt, rfl⟩
      exact ⟨_, _, _, rfl, ⟨hlt, rfl⟩, rfl, rfl⟩

/-- A scalar is read only from a payload that stands where it is read. -/
theorem Codec.exists_framed {codec : Codec} {bytes rest : Bytes} {value : Scalar}
    (h : codec.read bytes = .ok (value, rest)) :
    ∃ payload, codec.Suits payload ∧ bytes = codec.framed payload ++ rest := by
  cases codec with
  | bool =>
    cases bytes with
    | nil => cases h
    | cons byte bytes =>
      rw [read_bool, boolOf] at h
      by_cases hzero : byte = 0
      · rw [if_pos hzero] at h
        obtain ⟨rfl, rfl⟩ := Prod.mk.inj (Except.ok.inj h)
        exact ⟨[byte], .inl (by rw [hzero]), rfl⟩
      · by_cases hone : byte = 1
        · rw [if_neg hzero, if_pos hone] at h
          obtain ⟨rfl, rfl⟩ := Prod.mk.inj (Except.ok.inj h)
          exact ⟨[byte], .inr (by rw [hone]), rfl⟩
        · rw [if_neg hzero, if_neg hone] at h
          cases h
  | word size =>
    obtain ⟨_, rfl, n, rfl, -, rfl⟩ := ((recognizes_readWord size).map _ _ _ _).1 h
    exact ⟨_, length_wordBytes _ _, rfl⟩
  | natural | integer | text | bytes =>
    rw [read_of_hasPrefix rfl] at h
    obtain ⟨_, rfl, payload, _, _, rfl, ⟨hlength, rfl⟩, -, rfl⟩ :=
      (recognizes_readPayload.bind (fun _ => .lift _) _ _ _).1 h
    rw [List.append_nil]
    exact ⟨payload, hlength, rfl⟩
  | address =>
    obtain ⟨_, rfl, payload, -, hlength, rfl⟩ := ((recognizes_take addressLength).map _ _ _ _).1 h
    exact ⟨_, hlength, rfl⟩

theorem Codec.recognizes_read (codec : Codec) : Recognizes codec.read codec.Spells := by
  intro bytes value rest
  constructor
  · intro h
    obtain ⟨payload, hsuits, rfl⟩ := exists_framed h
    rw [read_framed hsuits] at h
    obtain ⟨value, htop, hvalue⟩ := of_map_eq_ok h
    obtain rfl := (Prod.mk.inj hvalue).1
    obtain ⟨extra, hextra, rfl⟩ := exists_widened hsuits htop
    exact ⟨_, rfl, fits_of_top htop, extra, hextra, hsuits, rfl⟩
  · rintro ⟨_, rfl, hfits, extra, hextra, hsuits, rfl⟩
    rw [read_framed hsuits, top_widened hfits hextra]
    rfl

theorem recognizes_list {item : Reader α} {spells : List α → Bytes → Prop}
    (h : ∀ count, Recognizes (readTimes item count) fun values taken =>
      values.length = count ∧ spells values taken) :
    Recognizes (readList item) fun values taken => values.length < 2 ^ 32 ∧ ∃ items,
      taken = wordBytes Word.u32.width values.length ++ items ∧ spells values items :=
  ((recognizes_readWord .u32).bind h).congr fun values taken => by
    constructor
    · rintro ⟨_, _, items, rfl, ⟨hlt, rfl⟩, rfl, hitems⟩
      exact ⟨hlt, items, rfl, hitems⟩
    · rintro ⟨hlt, items, rfl, hitems⟩
      exact ⟨_, _, items, rfl, ⟨hlt, rfl⟩, rfl, hitems⟩

namespace NestedSpec

/-- Induction on a specification in which the members of a record are given together. -/
@[elab_as_elim]
theorem memberInduction {motive : NestedSpec → Prop} (scalar : ∀ codec, motive (.scalar codec))
    (nothing : motive .nothing) (list : ∀ item, motive item → motive (.list item))
    (record : ∀ members, (∀ m ∈ members, motive m) → motive (.record members)) (spec : NestedSpec) :
    motive spec :=
  NestedSpec.rec (motive_2 := fun members => ∀ m ∈ members, motive m) scalar nothing list record
    (fun _ h => absurd h List.not_mem_nil)
    (fun _ _ hm hrest _ h => (List.mem_cons.1 h).elim (fun he => he ▸ hm) (hrest _)) spec

mutual

/-- The reference encoding of a value inside other data. -/
def encode : NestedSpec → Datum → Bytes
  | .scalar codec, .scalar value => codec.nested value
  | .list item, .items values =>
    wordBytes Word.u32.width values.length ++ values.flatMap (encode item)
  | .record members, .items values => encodeMembers members values
  | _, _ => []

def encodeMembers : List NestedSpec → List Datum → Bytes
  | member :: members, value :: values => encode member value ++ encodeMembers members values
  | _, _ => []

end

mutual

/-- No big number is part of the specification. -/
def IsExact : NestedSpec → Prop
  | .scalar codec => codec.isBig = false
  | .nothing => True
  | .list item => IsExact item
  | .record members => AreExact members

def AreExact : List NestedSpec → Prop
  | [] => True
  | member :: members => IsExact member ∧ AreExact members

end

mutual

/-- The bytes spell the value as the reference encoding does, but for big numbers, whose payloads may
have more bytes in front. -/
inductive Spells : NestedSpec → Datum → Bytes → Prop
  | scalar {codec value bytes} (h : codec.Spells value bytes) :
    Spells (.scalar codec) (.scalar value) bytes
  | nothing : Spells .nothing .nothing []
  | list {item values bytes} (hcount : values.length < 2 ^ 32)
    (h : SpellAll (List.replicate values.length item) values bytes) :
    Spells (.list item) (.items values) (wordBytes Word.u32.width values.length ++ bytes)
  | record {members values bytes} (h : SpellAll members values bytes) :
    Spells (.record members) (.items values) bytes

/-- The bytes spell the values back to back. -/
inductive SpellAll : List NestedSpec → List Datum → Bytes → Prop
  | nil : SpellAll [] [] []
  | cons {member value bytes members values others} (h : Spells member value bytes)
    (hrest : SpellAll members values others) :
    SpellAll (member :: members) (value :: values) (bytes ++ others)

end

variable {spec item : NestedSpec} {members : List NestedSpec} {values : List Datum} {bytes : Bytes}

theorem SpellAll.length_eq (h : SpellAll members values bytes) : values.length = members.length := by
  induction members generalizing values bytes with
  | nil =>
    cases h
    rfl
  | cons member members ih =>
    cases h with
    | cons _ hrest => rw [List.length_cons, List.length_cons, ih hrest]

theorem areExact_iff : AreExact members ↔ ∀ member ∈ members, member.IsExact := by
  induction members with
  | nil => simp [AreExact]
  | cons member members ih => simp [AreExact, ih]

theorem encodeMembers_replicate (item : NestedSpec) (values : List Datum) :
    encodeMembers (List.replicate values.length item) values = values.flatMap item.encode := by
  induction values with
  | nil => rfl
  | cons value values ih =>
    rw [List.length_cons, List.replicate_succ, encodeMembers, ih, List.flatMap_cons]

theorem readTimes_eq_readMembers (item : NestedSpec) (count : Nat) :
    readTimes item.read count = readMembers (List.replicate count item) := by
  induction count with
  | zero => rfl
  | succ count ih => rw [readTimes, List.replicate_succ, readMembers, ih]

/-- Members in a row take what they take one by one. -/
theorem recognizes_readMembers (h : ∀ member ∈ members, Recognizes member.read member.Spells) :
    Recognizes (readMembers members) (SpellAll members) := by
  induction members with
  | nil =>
    rw [readMembers]
    refine (Recognizes.pure []).congr fun values taken => ⟨?_, ?_⟩
    · rintro ⟨rfl, rfl⟩
      exact .nil
    · intro hnil
      cases hnil
      exact ⟨rfl, rfl⟩
  | cons member members ih =>
    have hmember := h member List.mem_cons_self
    have hmembers := ih fun other hother => h other (List.mem_cons_of_mem _ hother)
    rw [readMembers]
    refine (hmember.bind fun value => hmembers.map (value :: ·)).congr fun values taken => ⟨?_, ?_⟩
    · rintro ⟨value, front, back, rfl, hfront, others, rfl, hback⟩
      exact .cons hfront hback
    · intro hcons
      cases hcons with
      | cons hfront hback => exact ⟨_, _, _, rfl, hfront, _, rfl, hback⟩

theorem recognizes_read (spec : NestedSpec) : Recognizes spec.read spec.Spells := by
  induction spec using memberInduction with
  | scalar codec =>
    rw [read]
    refine (codec.recognizes_read.map Datum.scalar).congr fun value taken => ⟨?_, ?_⟩
    · rintro ⟨scalar, rfl, h⟩
      exact .scalar h
    · intro h
      cases h with
      | scalar h => exact ⟨_, rfl, h⟩
  | nothing =>
    rw [read]
    refine (Recognizes.pure Datum.nothing).congr fun value taken => ⟨?_, ?_⟩
    · rintro ⟨rfl, rfl⟩
      exact .nothing
    · intro h
      cases h
      exact ⟨rfl, rfl⟩
  | list item ih =>
    have htimes (count : Nat) : Recognizes (readTimes item.read count) fun values taken =>
        values.length = count ∧ SpellAll (List.replicate values.length item) values taken := by
      rw [readTimes_eq_readMembers]
      refine (recognizes_readMembers fun member hmember =>
        List.eq_of_mem_replicate hmember ▸ ih).congr fun values taken => ⟨fun h => ?_, ?_⟩
      · have hlength := h.length_eq
        rw [List.length_replicate] at hlength
        exact ⟨hlength, hlength ▸ h⟩
      · rintro ⟨rfl, h⟩
        exact h
    rw [read]
    refine ((recognizes_list htimes).map Datum.items).congr fun value taken => ⟨?_, ?_⟩
    · rintro ⟨values, rfl, hcount, items, rfl, h⟩
      exact .list hcount h
    · intro h
      cases h with
      | list hcount h => exact ⟨_, rfl, hcount, _, rfl, h⟩
  | record members ih =>
    rw [read]
    refine ((recognizes_readMembers ih).map Datum.items).congr fun value taken => ⟨?_, ?_⟩
    · rintro ⟨values, rfl, h⟩
      exact .record h
    · intro h
      cases h with
      | record h => exact ⟨_, rfl, h⟩

theorem SpellAll.eq_encodeMembers
    (hexact : ∀ member ∈ members, ∀ value bytes, member.Spells value bytes → bytes = member.encode value)
    (h : SpellAll members values bytes) : bytes = encodeMembers members values := by
  induction members generalizing values bytes with
  | nil =>
    cases h
    rfl
  | cons member members ih =>
    cases h with
    | cons hfirst hrest =>
      rw [encodeMembers, ← hexact member List.mem_cons_self _ _ hfirst,
        ← ih (fun other hother => hexact other (List.mem_cons_of_mem _ hother)) hrest]

/-- Without big numbers there is no choice. -/
theorem eq_encode (hexact : spec.IsExact) : ∀ value bytes, spec.Spells value bytes →
    bytes = spec.encode value := by
  induction spec using memberInduction with
  | scalar codec =>
    intro value bytes h
    cases h with
    | scalar h => rw [encode, h.eq_nested hexact]
  | nothing =>
    intro value bytes h
    cases h
    rfl
  | list item ih =>
    intro value bytes h
    cases h with
    | list _ h =>
      rw [encode, ← encodeMembers_replicate,
        ← h.eq_encodeMembers fun member hmember => List.eq_of_mem_replicate hmember ▸ ih hexact]
  | record members ih =>
    intro value bytes h
    cases h with
    | record h =>
      rw [encode]
      exact h.eq_encodeMembers fun member hmember =>
        ih member hmember (areExact_iff.1 hexact member hmember)

theorem SpellAll.encodeMembers
    (hencode : ∀ member ∈ members, ∀ value bytes, member.Spells value bytes →
      member.Spells value (member.encode value) ∧ (member.encode value).length ≤ bytes.length)
    (h : SpellAll members values bytes) :
    SpellAll members values (encodeMembers members values) ∧
      (NestedSpec.encodeMembers members values).length ≤ bytes.length := by
  induction members generalizing values bytes with
  | nil =>
    cases h
    exact ⟨.nil, Nat.zero_le _⟩
  | cons member members ih =>
    cases h with
    | cons hfirst hrest =>
      obtain ⟨hfirst, hfirstLength⟩ := hencode member List.mem_cons_self _ _ hfirst
      obtain ⟨hrest, hrestLength⟩ :=
        ih (fun other hother => hencode other (List.mem_cons_of_mem _ hother)) hrest
      rw [NestedSpec.encodeMembers, List.length_append, List.length_append]
      exact ⟨.cons hfirst hrest, Nat.add_le_add hfirstLength hrestLength⟩

/-- The reference encoding is one of the spellings, and none is shorter. -/
theorem spells_encode (spec : NestedSpec) : ∀ value bytes, spec.Spells value bytes →
    spec.Spells value (spec.encode value) ∧ (spec.encode value).length ≤ bytes.length := by
  induction spec using memberInduction with
  | scalar codec =>
    intro value bytes h
    cases h with
    | scalar h =>
      obtain ⟨hnested, hlength⟩ := h.nested
      rw [encode]
      exact ⟨.scalar hnested, hlength⟩
  | nothing =>
    intro value bytes h
    cases h
    exact ⟨.nothing, Nat.zero_le _⟩
  | list item ih =>
    intro value bytes h
    cases h with
    | list hcount h =>
      obtain ⟨hitems, hlength⟩ :=
        h.encodeMembers fun member hmember => List.eq_of_mem_replicate hmember ▸ ih
      rw [encodeMembers_replicate] at hitems hlength
      rw [encode, List.length_append, List.length_append]
      exact ⟨.list hcount hitems, Nat.add_le_add_left hlength _⟩
  | record members ih =>
    intro value bytes h
    cases h with
    | record h =>
      obtain ⟨hmembers, hlength⟩ := h.encodeMembers ih
      rw [encode]
      exact ⟨.record hmembers, hlength⟩

end NestedSpec

/-- The bytes between two places of a cursor. -/
def Cursor.upTo (cursor after : Cursor) : Bytes :=
  cursor.rest.take (after.offset - cursor.offset)

namespace NestedSpec

variable {spec : NestedSpec} {value : Datum}

theorem scan_of_spells {bytes : Bytes} (h : spec.Spells value bytes) (earlier later : Bytes) :
    spec.scan (.before earlier bytes later) =
      .ok value { Cursor.before earlier bytes later with offset := earlier.length + bytes.length } :=
  scan_of_read (fun _ => (spec.recognizes_read _ _ _).2 ⟨bytes, rfl, h⟩) Cursor.stands_before
    Cursor.rest_before

/-- A read that succeeds takes bytes that spell what it gives. -/
theorem spells_upTo {cursor after : Cursor} (hstands : cursor.Stands)
    (h : spec.scan cursor = .ok value after) : spec.Spells value (cursor.upTo after) := by
  rcases spec.scan_cases hstands with ⟨fault, hscan⟩ | ⟨other, taken, later, hrest, hread⟩
  · rw [h] at hscan
    cases hscan
  · have hscan := scan_of_read hread hstands hrest
    obtain ⟨rfl, rfl⟩ := EStateM.Result.ok.inj (h.symm.trans hscan)
    have htaken : cursor.upTo { cursor with offset := cursor.offset + taken.length } = taken := by
      rw [Cursor.upTo, Nat.add_sub_cancel_left, hrest, List.take_left]
    obtain ⟨bytes, hbytes, hspells⟩ := (spec.recognizes_read _ _ _).1 (hread [])
    rw [List.append_nil, List.append_nil] at hbytes
    rw [htaken, hbytes]
    exact hspells

/-- Each value that the specification reads has its reference encoding, up to redundant bytes in front
of big numbers, as its only spelling. -/
structure HasOneSpelling (spec : NestedSpec) : Prop where
  spelled : ∀ {cursor after : Cursor} {value : Datum}, cursor.Stands →
    spec.scan cursor = .ok value after → spec.Spells value (cursor.upTo after)
  /-- Every spelling is read, whatever stands before and behind it. -/
  read : ∀ {value : Datum} {bytes : Bytes}, spec.Spells value bytes → ∀ earlier later : Bytes,
    spec.scan (.before earlier bytes later) =
      .ok value { Cursor.before earlier bytes later with offset := earlier.length + bytes.length }
  /-- The reference encoding is the shortest of them. -/
  shortest : ∀ {value : Datum} {bytes : Bytes}, spec.Spells value bytes →
    spec.Spells value (spec.encode value) ∧ (spec.encode value).length ≤ bytes.length
  exact : spec.IsExact → ∀ {cursor after : Cursor} {value : Datum}, cursor.Stands →
    spec.scan cursor = .ok value after → cursor.upTo after = spec.encode value
  /-- Reads of the same value take the same bytes. -/
  unique : spec.IsExact → ∀ {cursor after other otherAfter : Cursor} {value : Datum}, cursor.Stands →
    other.Stands → spec.scan cursor = .ok value after → spec.scan other = .ok value otherAfter →
    cursor.upTo after = other.upTo otherAfter

/-- What a specification reads of the bytes is a spelling of the value, and every spelling is read.
Without big numbers a value has just the one that the reference encoding gives it. -/
theorem nested_values_have_one_spelling (spec : NestedSpec) : spec.HasOneSpelling where
  spelled hstands h := spells_upTo hstands h
  read h earlier later := scan_of_spells h earlier later
  shortest h := spec.spells_encode _ _ h
  exact hexact _ _ _ hstands h := eq_encode hexact _ _ (spells_upTo hstands h)
  unique hexact _ _ _ _ _ hstands hother h h' :=
    (eq_encode hexact _ _ (spells_upTo hstands h)).trans
      (eq_encode hexact _ _ (spells_upTo hother h')).symm

/-- A natural number with a zero byte in front and a list of booleans, both with a byte behind. -/
def paddedSeven : Bytes := [0, 0, 0, 2, 0, 7, 9]

def twoBooleans : Bytes := [0, 0, 0, 2, 1, 0, 9]

theorem padded_seven_and_booleans_are_spelled :
    Spells (.scalar .natural) (.scalar (.integer 7)) [0, 0, 0, 2, 0, 7] ∧
    IsExact (.list (.scalar .bool)) ∧
    encode (.list (.scalar .bool)) (.items [.scalar (.bool true), .scalar (.bool false)]) =
      [0, 0, 0, 2, 1, 0] := by
  have hseven : scan (.scalar .natural) (.start paddedSeven) =
      .ok (.scalar (.integer 7)) ⟨paddedSeven, 6⟩ := rfl
  have hbooleans : scan (.list (.scalar .bool)) (.start twoBooleans) =
      .ok (.items [.scalar (.bool true), .scalar (.bool false)]) ⟨twoBooleans, 6⟩ := rfl
  have hexact : IsExact (.list (.scalar .bool)) := rfl
  exact ⟨(nested_values_have_one_spelling _).spelled (Cursor.stands_start _) hseven, hexact,
    ((nested_values_have_one_spelling _).exact hexact (Cursor.stands_start _) hbooleans).symm⟩

end NestedSpec
end ContractAbi.Wire
