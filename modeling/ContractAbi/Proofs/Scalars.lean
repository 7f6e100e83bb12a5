import ContractAbi.Proofs.Reading
import ContractAbi.Proofs.Results
import ContractAbi.Wire.Argument

/-!
# Scalars on the wire

Each scalar has an argument that spells it. Decoding the argument from a slot of its own gives the
scalar back, and so does reading its nested form at the front of other bytes, where payloads stand
behind their length.
-/
namespace ContractAbi.Wire

theorem naturalOf_foldl (bytes : Bytes) (start : Nat) :
    bytes.foldl (fun n b => n * 256 + b.toNat) start = start * 256 ^ bytes.length + naturalOf bytes := by
  induction bytes generalizing start with
  | nil => simp [naturalOf]
  | cons byte rest ih =>
    have hrest := ih byte.toNat
    simp only [naturalOf, List.foldl_cons, List.length_cons, Nat.zero_mul, Nat.zero_add] at hrest ⊢
    rw [ih, hrest, Nat.pow_succ, naturalOf]
    ring

theorem naturalOf_cons (byte : UInt8) (rest : Bytes) :
    naturalOf (byte :: rest) = byte.toNat * 256 ^ rest.length + naturalOf rest := by
  rw [naturalOf, List.foldl_cons, naturalOf_foldl, Nat.zero_mul, Nat.zero_add]

theorem naturalOf_singleton (byte : UInt8) : naturalOf [byte] = byte.toNat := by
  rw [naturalOf_cons]
  simp [naturalOf]

theorem naturalOf_concat (bytes : Bytes) (byte : UInt8) :
    naturalOf (bytes ++ [byte]) = naturalOf bytes * 256 + byte.toNat := by
  rw [naturalOf, List.foldl_append]
  rfl

theorem naturalOf_lt (bytes : Bytes) : naturalOf bytes < 256 ^ bytes.length := by
  induction bytes with
  | nil => simp [naturalOf]
  | cons byte rest ih =>
    have hbyte : byte.toNat * 256 ^ rest.length ≤ 255 * 256 ^ rest.length :=
      Nat.mul_le_mul_right _ (by have := byte.toNat_lt; omega)
    rw [naturalOf_cons, List.length_cons, Nat.pow_succ]
    omega

/-- Zero bytes in front do not count. -/
theorem naturalOf_zeros (count : Nat) (bytes : Bytes) :
    naturalOf (List.replicate count 0 ++ bytes) = naturalOf bytes := by
  induction count with
  | zero => rfl
  | succ count ih =>
    rw [List.replicate_succ, List.cons_append, naturalOf_cons, ih]
    simp

theorem naturalOf_dropWhile (bytes : Bytes) : naturalOf (bytes.dropWhile (· = 0)) = naturalOf bytes := by
  induction bytes with
  | nil => rfl
  | cons byte rest ih =>
    by_cases hbyte : byte = 0
    · rw [List.dropWhile_cons_of_pos (by simp [hbyte]), ih, naturalOf_cons, hbyte]
      simp
    · rw [List.dropWhile_cons_of_neg (by simp [hbyte])]

/-- Bytes that do not begin with zero spell a number that needs all of them. -/
theorem pow_le_naturalOf {byte : UInt8} (h : byte ≠ 0) (rest : Bytes) :
    256 ^ rest.length ≤ naturalOf (byte :: rest) := by
  have hbyte : 1 ≤ byte.toNat := Nat.one_le_iff_ne_zero.2 fun hzero => h (UInt8.toNat_inj.1 hzero)
  have hle := Nat.mul_le_mul_right (256 ^ rest.length) hbyte
  rw [naturalOf_cons]
  omega

/-- The bytes behind leading zeros are as many as the number needs. -/
theorem length_significant_le_iff (bytes : Bytes) (width : Nat) :
    (bytes.dropWhile (· = 0)).length ≤ width ↔ naturalOf bytes < 256 ^ width := by
  rw [← naturalOf_dropWhile]
  constructor
  · intro h
    exact (naturalOf_lt _).trans_le (Nat.pow_le_pow_right (by decide) h)
  · intro h
    cases hbytes : bytes.dropWhile (· = 0) with
    | nil => exact Nat.zero_le _
    | cons byte rest =>
      have hbyte : byte ≠ 0 := by
        have hne : bytes.dropWhile (· = 0) ≠ [] := hbytes ▸ List.cons_ne_nil _ _
        have hhead := List.head_dropWhile_not (· = (0 : UInt8)) hne
        simpa [hbytes] using hhead
      rw [hbytes] at h
      exact (Nat.pow_lt_pow_iff_right (by decide)).1 ((pow_le_naturalOf hbyte rest).trans_lt h)

@[simp] theorem length_wordBytes (width n : Nat) : (wordBytes width n).length = width := by
  induction width generalizing n with
  | zero => rfl
  | succ width ih => simp [wordBytes, ih]

theorem toNat_ofNat_byte (n : Nat) : (UInt8.ofNat n).toNat = n % 256 := by
  rw [UInt8.toNat_ofNat']

theorem naturalOf_wordBytes {width n : Nat} (h : n < 256 ^ width) :
    naturalOf (wordBytes width n) = n := by
  induction width generalizing n with
  | zero =>
    have hzero : n = 0 := by simpa using h
    rw [hzero]
    rfl
  | succ width ih =>
    have hdiv : n / 256 < 256 ^ width := by
      rw [Nat.pow_succ] at h
      exact Nat.div_lt_of_lt_mul (by omega)
    rw [wordBytes, naturalOf_concat, ih hdiv, toNat_ofNat_byte]
    omega

/-- Bytes are the word of their length that has their value. -/
theorem wordBytes_naturalOf (bytes : Bytes) : wordBytes bytes.length (naturalOf bytes) = bytes := by
  induction bytes using List.reverseRecOn with
  | nil => rfl
  | append_singleton bytes byte ih =>
    have hbyte := byte.toNat_lt
    have hdiv : (naturalOf bytes * 256 + byte.toNat) / 256 = naturalOf bytes := by omega
    have hlast : UInt8.ofNat (naturalOf bytes * 256 + byte.toNat) = byte := by
      apply UInt8.toNat_inj.1
      rw [toNat_ofNat_byte]
      omega
    rw [List.length_append, List.length_singleton, naturalOf_concat, wordBytes, hdiv, ih, hlast]

theorem naturalOf_naturalBytes (n : Nat) : naturalOf (naturalBytes n) = n := by
  induction n using Nat.strong_induction_on with
  | _ n ih =>
    rw [naturalBytes]
    split
    · rename_i hzero
      rw [hzero]
      rfl
    · rw [naturalOf_concat, ih (n / 256) (by omega), toNat_ofNat_byte]
      omega

theorem lt_of_length_naturalBytes (n : Nat) : n < 256 ^ (naturalBytes n).length := by
  have h := naturalOf_lt (naturalBytes n)
  rwa [naturalOf_naturalBytes] at h

theorem shiftIn_concat (bytes : Bytes) (byte : UInt8) :
    shiftIn (bytes ++ [byte]) = shiftIn bytes <<< 8 ||| byte.toUInt64 := by
  rw [shiftIn, List.foldl_append]
  rfl

/-- Pushing a register up makes room for a byte and loses what is beyond 64 bits. -/
theorem toNat_push (register : UInt64) (byte : UInt8) :
    (register <<< 8 ||| byte.toUInt64).toNat = (register.toNat * 256 + byte.toNat) % 2 ^ 64 := by
  have hbyte : byte.toNat < 2 ^ 8 := byte.toNat_lt
  have hroom : register.toNat <<< 8 % 2 ^ 64 = (register.toNat % 2 ^ 56) <<< 8 := by
    rw [Nat.shiftLeft_eq, Nat.shiftLeft_eq]
    omega
  rw [UInt64.toNat_or, UInt64.toNat_shiftLeft, UInt8.toNat_toUInt64]
  change (register.toNat <<< 8 % 2 ^ 64) ||| byte.toNat = _
  rw [hroom, ← Nat.shiftLeft_add_eq_or_of_lt hbyte, Nat.shiftLeft_eq]
  omega

theorem toNat_shiftIn (bytes : Bytes) : (shiftIn bytes).toNat = naturalOf bytes % 2 ^ 64 := by
  induction bytes using List.reverseRecOn with
  | nil => rfl
  | append_singleton bytes byte ih =>
    rw [shiftIn_concat, toNat_push, ih, naturalOf_concat]
    omega

/-- No bit of up to eight bytes is lost. -/
theorem toNat_shiftIn_of_le {bytes : Bytes} (h : bytes.length ≤ 8) :
    (shiftIn bytes).toNat = naturalOf bytes := by
  have hpow : 256 ^ bytes.length ≤ 2 ^ 64 :=
    (Nat.pow_le_pow_right (by decide) h).trans_eq (by decide : 256 ^ 8 = 2 ^ 64)
  rw [toNat_shiftIn, Nat.mod_eq_of_lt ((naturalOf_lt bytes).trans_le hpow)]

theorem Word.cut_eq (word : Word) (register : UInt64) :
    word.cut register = register.toNat % 256 ^ word.width := by
  have hregister := register.toNat_lt
  cases word with
  | u8 => exact register.toNat_toUInt8
  | u16 => exact register.toNat_toUInt16
  | u32 => exact register.toNat_toUInt32
  | u64 => exact (Nat.mod_eq_of_lt hregister).symm

theorem Word.width_le (word : Word) : word.width ≤ 8 := by
  cases word <;> decide

/-- A slot holds the number that its bytes spell, if the word has room for it. -/
theorem topWord_eq (word : Word) (slot : Bytes) :
    topWord word slot =
      if naturalOf slot < 256 ^ word.width then .ok (naturalOf slot)
      else .error (.overflow word slot.length) := by
  have hwidth := length_significant_le_iff slot word.width
  simp only [topWord]
  by_cases h : naturalOf slot < 256 ^ word.width
  · have hlength := hwidth.2 h
    rw [if_neg (by omega), if_pos h, word.cut_eq, toNat_shiftIn_of_le (hlength.trans word.width_le),
      naturalOf_dropWhile, Nat.mod_eq_of_lt h]
  · have hlength := mt hwidth.1 h
    rw [if_pos (by omega), if_neg h]

theorem integerOf_of_sign {bytes : Bytes} (h : bytes.head?.any (128 ≤ ·) = true) :
    integerOf bytes = (naturalOf bytes : Int) - 256 ^ bytes.length := by
  simp only [integerOf, h, if_true, valueCount]
  rfl

theorem integerOf_of_no_sign {bytes : Bytes} (h : bytes.head?.any (128 ≤ ·) = false) :
    integerOf bytes = naturalOf bytes := by
  simp [integerOf, h]

theorem integerOf_integerBytes (value : Int) : integerOf (integerBytes value) = value := by
  cases value with
  | ofNat n =>
    simp only [integerBytes]
    split
    · rw [integerOf_of_no_sign (by simp), naturalOf_cons, naturalOf_naturalBytes]
      simp
    · rename_i hsign
      rw [integerOf_of_no_sign (by simpa using hsign), naturalOf_naturalBytes]
      rfl
  | negSucc n =>
    have hn := lt_of_length_naturalBytes n
    simp only [integerBytes, valueCount]
    generalize (naturalBytes n).length = width at hn ⊢
    have hvalue : naturalOf (wordBytes width (256 ^ width - 1 - n)) = 256 ^ width - 1 - n :=
      naturalOf_wordBytes (by omega)
    have hcast : ((256 ^ width - 1 - n : Nat) : Int) = 256 ^ width - 1 - n := by
      push_cast [Nat.cast_sub (show 1 ≤ 256 ^ width by omega),
        Nat.cast_sub (show n ≤ 256 ^ width - 1 by omega)]
      rfl
    change integerOf (if (wordBytes width (256 ^ width - 1 - n)).head?.any (128 ≤ ·) then
      wordBytes width (256 ^ width - 1 - n) else 255 :: wordBytes width (256 ^ width - 1 - n)) = _
    by_cases hsign : (wordBytes width (256 ^ width - 1 - n)).head?.any (128 ≤ ·) = true
    · rw [if_pos hsign, integerOf_of_sign hsign, hvalue, hcast, length_wordBytes, Int.negSucc_eq]
      ring
    · rw [if_neg hsign, integerOf_of_sign (by simp), naturalOf_cons, hvalue, List.length_cons,
        length_wordBytes, Int.negSucc_eq]
      push_cast
      rw [hcast]
      change (255 : Int) * 256 ^ width + (256 ^ width - 1 - n) - 256 ^ (width + 1) = -(n + 1)
      rw [pow_succ]
      ring

theorem toList_loop (bytes : ByteArray) (index : Nat) (seen : List UInt8) :
    ByteArray.toList.loop bytes index seen = seen.reverse ++ bytes.data.toList.drop index := by
  fun_induction ByteArray.toList.loop bytes index seen with
  | case1 index seen hlt ih =>
    have hget : bytes.data.toList.drop index = bytes.get! index :: bytes.data.toList.drop (index + 1) := by
      have hlt' : index < bytes.data.toList.length := hlt
      have hbyte : bytes.data.toList[index] = bytes.get! index := by
        simp only [ByteArray.get!, Array.getElem_toList]
        exact (getElem!_pos bytes.data index hlt).symm
      rw [List.drop_eq_getElem_cons hlt', hbyte]
    rw [ih, hget, List.reverse_cons, List.append_assoc]
    rfl
  | case2 index seen hge =>
    have hnil : bytes.data.toList.drop index = [] := List.drop_eq_nil_of_le (Nat.not_lt.1 hge)
    rw [hnil, List.append_nil]

theorem textOf_toUTF8 (text : String) : textOf text.toUTF8.toList = .ok text := by
  have hbytes : (⟨text.toUTF8.toList.toArray⟩ : ByteArray) = text.toUTF8 := by
    rw [ByteArray.toList, toList_loop]
    rfl
  have hvalid : text.toUTF8.IsValidUTF8 := text.isValidUTF8
  rw [textOf, hbytes, String.fromUTF8?, dif_pos hvalid]
  rfl
theorem take_append {needed : Nat} {bytes rest : Bytes} (h : bytes.length = needed) :
    take needed (bytes ++ rest) = .ok (bytes, rest) := by
  have hlength : ¬ (bytes ++ rest).length < needed := by
    rw [List.length_append]
    omega
  rw [take, if_neg hlength, List.take_left' h, List.drop_left' h]

/-- As many bytes as a word has are read as the number that they spell. -/
theorem readWord_of_length {word : Word} {bytes rest : Bytes} (h : bytes.length = word.width) :
    readWord word (bytes ++ rest) = .ok (naturalOf bytes, rest) := by
  rw [readWord, Reader.bind_apply, take_append h]
  rfl

theorem readWord_append {word : Word} {n : Nat} {rest : Bytes} (h : n < 256 ^ word.width) :
    readWord word (wordBytes word.width n ++ rest) = .ok (n, rest) := by
  rw [readWord_of_length (length_wordBytes _ _), naturalOf_wordBytes h]

theorem readByte_cons (byte : UInt8) (rest : Bytes) : readByte (byte :: rest) = .ok (byte, rest) := by
  have hword : readWord .u8 ([byte] ++ rest) = .ok (naturalOf [byte], rest) := readWord_of_length rfl
  have hbyte : UInt8.ofNat (naturalOf [byte]) = byte := by
    rw [naturalOf_singleton, UInt8.ofNat_toNat]
  change (readWord .u8 >>= fun n => pure (UInt8.ofNat n)) ([byte] ++ rest) = _
  rw [Reader.bind_apply, hword]
  change Except.ok (UInt8.ofNat (naturalOf [byte]), rest) = _
  rw [hbyte]

/-- Bytes with their length in front. -/
def prefixed (payload : Bytes) : Bytes :=
  wordBytes Word.u32.width payload.length ++ payload

theorem readPayload_append {payload rest : Bytes} (h : payload.length < 2 ^ 32) :
    readPayload (prefixed payload ++ rest) = .ok (payload, rest) := by
  rw [readPayload, Reader.bind_apply, prefixed, List.append_assoc, readWord_append h]
  exact take_append rfl

namespace Codec

/-- The codec writes the scalar. -/
def Fits : Codec → Scalar → Prop
  | .bool, .bool _ => True
  | .word size, .unsigned n => n < 256 ^ size.width
  | .natural, .integer i => 0 ≤ i
  | .integer, .integer _ => True
  | .text, .text _ => True
  | .bytes, .bytes _ => True
  | .address, .address value => value.length = addressLength
  | _, _ => False

/-- The argument that spells a scalar of the codec. -/
def argument : Codec → Scalar → Argument
  | _, .bool value => .bool value
  | .word size, .unsigned n => .word size n
  | _, .unsigned n => .natural n
  | .natural, .integer i => .natural i.toNat
  | _, .integer i => .integer i
  | _, .text value => .text value
  | _, .bytes value => .bytes value
  | _, .address value => .address value

/-- Payloads of any length have it in front inside other data. -/
def hasPrefix : Codec → Bool
  | .natural | .integer | .text | .bytes => true
  | .bool | .word _ | .address => false

/-- Payloads that fill a slot of the codec and can stand inside other data: there a payload behind its
length is as long as can be told, any other has the length of its codec, and a boolean is zero or
one. -/
def Suits : Codec → Bytes → Prop
  | .bool, payload => payload = [0] ∨ payload = [1]
  | .word size, payload => payload.length = size.width
  | .address, payload => payload.length = addressLength
  | .natural, payload | .integer, payload | .text, payload | .bytes, payload => payload.length < 2 ^ 32

/-- A payload as it stands inside other data. -/
def framed (codec : Codec) (payload : Bytes) : Bytes :=
  if codec.hasPrefix then prefixed payload else payload

/-- A scalar inside other data. -/
def nested (codec : Codec) (scalar : Scalar) : Bytes :=
  let payload := (codec.argument scalar).payload
  if codec.hasPrefix then prefixed payload else payload

theorem topWord_wordBytes {word : Word} {n : Nat} (h : n < 256 ^ word.width) :
    topWord word (wordBytes word.width n) = .ok n := by
  rw [topWord_eq, naturalOf_wordBytes h, if_pos h]

/-- The argument of a scalar in a slot of its own gives the scalar back. -/
theorem top_argument {codec : Codec} {scalar : Scalar} (h : codec.Fits scalar) :
    codec.top (codec.argument scalar).payload = .ok scalar := by
  cases codec with
  | bool =>
    cases scalar with
    | bool value => cases value <;> rfl
    | _ => exact absurd h id
  | word size =>
    cases scalar with
    | unsigned n =>
      have hword : topWord size (wordBytes size.width n) = .ok n := topWord_wordBytes h
      simp only [argument, Argument.payload, top, hword]
      rfl
    | _ => exact absurd h id
  | natural =>
    cases scalar with
    | integer i =>
      have hi : ((i.toNat : Nat) : Int) = i := Int.toNat_of_nonneg h
      simp only [argument, Argument.payload, top, naturalOf_naturalBytes, hi]
    | _ => exact absurd h id
  | integer =>
    cases scalar with
    | integer i => simp only [argument, Argument.payload, top, integerOf_integerBytes]
    | _ => exact absurd h id
  | text =>
    cases scalar with
    | text value =>
      simp only [argument, Argument.payload, top, textOf_toUTF8]
      rfl
    | _ => exact absurd h id
  | bytes =>
    cases scalar with
    | bytes value => rfl
    | _ => exact absurd h id
  | address =>
    cases scalar with
    | address value =>
      simp only [argument, Argument.payload, top]
      exact if_pos h
    | _ => exact absurd h id

theorem lt_of_topWord {word : Word} {slot : Bytes} {n : Nat} (h : topWord word slot = .ok n) :
    n < 256 ^ word.width := by
  rw [topWord_eq] at h
  split at h
  · rename_i hlt
    obtain rfl := Except.ok.inj h
    exact hlt
  · cases h

/-- Whatever a slot holds, what it is decoded to is written by the codec. -/
theorem fits_of_top {codec : Codec} {slot : Bytes} {scalar : Scalar}
    (h : codec.top slot = .ok scalar) : codec.Fits scalar := by
  cases codec with
  | bool =>
    obtain rfl := Except.ok.inj h
    trivial
  | word size =>
    obtain ⟨n, hn, h⟩ := of_bind_eq_ok h
    obtain rfl := Except.ok.inj h
    exact lt_of_topWord hn
  | natural =>
    obtain rfl := Except.ok.inj h
    exact Int.natCast_nonneg (naturalOf slot)
  | integer =>
    obtain rfl := Except.ok.inj h
    trivial
  | text =>
    obtain ⟨text, -, h⟩ := of_bind_eq_ok h
    obtain rfl := Except.ok.inj h
    trivial
  | bytes =>
    obtain rfl := Except.ok.inj h
    trivial
  | address =>
    rw [top] at h
    split at h
    · rename_i hlength
      obtain rfl := Except.ok.inj h
      exact hlength
    · cases h

/-- A payload behind its length is read as it is. -/
theorem read_prefixed {payload rest : Bytes} (h : payload.length < 2 ^ 32) {α : Type}
    (next : Bytes → Reader α) :
    (readPayload >>= next) (prefixed payload ++ rest) = next payload rest := by
  rw [Reader.bind_apply, readPayload_append h]

/-- What is read behind a length is decoded as from a slot of its own. -/
theorem read_of_hasPrefix {codec : Codec} (h : codec.hasPrefix = true) :
    codec.read = readPayload >>= fun payload => liftM (codec.top payload) := by
  cases codec with
  | natural | integer | bytes => rfl
  | text =>
    change (readPayload >>= fun payload => liftM (textOf payload) >>= fun text => pure (Scalar.text text)) = _
    congr 1
    funext payload bytes
    rw [top]
    cases textOf payload <;> rfl
  | bool | word size | address => cases h

theorem read_bool (byte : UInt8) (rest : Bytes) :
    Codec.bool.read (byte :: rest) = (boolOf byte).map (·, rest) := by
  change (readByte >>= fun byte => liftM (boolOf byte)) (byte :: rest) = _
  rw [Reader.bind_apply, readByte_cons]
  change (liftM (boolOf byte) : Reader Scalar) rest = _
  cases boolOf byte <;> rfl

/-- A payload inside other data is read as it is decoded from a slot of its own, and the bytes behind
it are left. -/
theorem read_framed {codec : Codec} {payload : Bytes} (h : codec.Suits payload) (rest : Bytes) :
    codec.read (codec.framed payload ++ rest) = (codec.top payload).map (·, rest) := by
  cases codec with
  | bool =>
    rcases h with rfl | rfl
    · exact read_bool 0 rest
    · exact read_bool 1 rest
  | word size =>
    have htop : topWord size payload = .ok (naturalOf payload) := by
      rw [topWord_eq, ← show payload.length = size.width from h, if_pos (naturalOf_lt payload)]
    change (readWord size >>= fun n => pure (Scalar.unsigned n)) (payload ++ rest) = _
    rw [Reader.bind_apply, readWord_of_length h, top, htop]
    rfl
  | natural | integer | text | bytes =>
    rw [read_of_hasPrefix rfl]
    refine (read_prefixed h _).trans ?_
    cases top _ payload <;> rfl
  | address =>
    have hlength : payload.length = addressLength := h
    change (take addressLength >>= fun bytes => pure (Scalar.address bytes)) (payload ++ rest) = _
    rw [Reader.bind_apply, take_append hlength, top, if_pos hlength]
    rfl

/-- The payload of a scalar suits its codec, if its length can be told. -/
theorem Fits.suits {codec : Codec} {scalar : Scalar} (h : codec.Fits scalar)
    (hlength : codec.hasPrefix = true → (codec.argument scalar).payload.length < 2 ^ 32) :
    codec.Suits (codec.argument scalar).payload := by
  cases codec with
  | bool =>
    cases scalar with
    | bool value => cases value <;> simp [Suits, argument, Argument.payload]
    | _ => exact absurd h id
  | word size =>
    cases scalar with
    | unsigned n => exact length_wordBytes size.width n
    | _ => exact absurd h id
  | address =>
    cases scalar with
    | address value => exact h
    | _ => exact absurd h id
  | natural | integer | text | bytes => exact hlength rfl

/-- A scalar at the front of other bytes is read and the bytes behind it are left. -/
theorem read_nested {codec : Codec} {scalar : Scalar} (h : codec.Fits scalar)
    (hlength : codec.hasPrefix = true → (codec.argument scalar).payload.length < 2 ^ 32)
    (rest : Bytes) : codec.read (codec.nested scalar ++ rest) = .ok (scalar, rest) := by
  refine (read_framed (h.suits hlength) rest).trans ?_
  rw [top_argument h]
  rfl

end Codec
end ContractAbi.Wire
