import ContractAbi.Proofs.Scalars

/-!
# The text of an argument

The text of a call argument consists of two lower-case hexadecimal digits a byte, and the decoder of
the argument's type gives the value back. Words take their full width, and no shorter bytes than
those of a big number decode to it.
-/
namespace ContractAbi

namespace Hex

/-- The hexadecimal digits that texts are written with. -/
def lowerDigits : List Char :=
  ['0', '1', '2', '3', '4', '5', '6', '7', '8', '9', 'a', 'b', 'c', 'd', 'e', 'f']

theorem digit_mem_lowerDigits {n : Nat} (h : n < 16) : digit n ∈ lowerDigits := by
  have hall : ∀ n : Fin 16, digit n ∈ lowerDigits := by decide
  exact hall ⟨n, h⟩

/-- A digit is one byte of text, from which its value is read. -/
theorem exists_byte_digit {n : Nat} (h : n < 16) :
    ∃ byte, String.utf8EncodeChar (digit n) = [byte] ∧ digitValue? byte = some (UInt8.ofNat n) := by
  have hall : ∀ n : Fin 16, String.utf8EncodeChar (digit n) = [UInt8.ofNat (digit n).toNat] ∧
      digitValue? (UInt8.ofNat (digit n).toNat) = some (UInt8.ofNat n) := by decide
  exact ⟨_, hall ⟨n, h⟩⟩

/-- A byte is put together from its halves. -/
theorem join_halves (byte : UInt8) :
    UInt8.ofNat (byte.toNat / 16) * 16 + UInt8.ofNat (byte.toNat % 16) = byte := by
  have hbyte := byte.toNat_lt
  have hbase : UInt8.toNat 16 = 16 := rfl
  apply UInt8.toNat_inj.1
  simp only [UInt8.toNat_add, UInt8.toNat_mul, UInt8.toNat_ofNat', hbase]
  omega

theorem length_encode (bytes : Bytes) : (encode bytes).length = 2 * bytes.length := by
  induction bytes with
  | nil => rfl
  | cons byte rest ih =>
    rw [encode, List.flatMap_cons, List.length_append, ← encode, ih, List.length_cons]
    change 2 + 2 * rest.length = 2 * (rest.length + 1)
    omega

theorem mem_lowerDigits_of_mem_encode {bytes : Bytes} {c : Char} (h : c ∈ encode bytes) :
    c ∈ lowerDigits := by
  obtain ⟨byte, -, hc⟩ := List.mem_flatMap.1 h
  have hbyte := byte.toNat_lt
  simp only [encodeByte, List.mem_cons, List.not_mem_nil, or_false] at hc
  rcases hc with rfl | rfl
  · exact digit_mem_lowerDigits (by omega)
  · exact digit_mem_lowerDigits (by omega)

/-- The bytes of a text as it is read. -/
theorem toList_toUTF8 (text : List Char) :
    (String.ofList text).toUTF8.toList = text.flatMap String.utf8EncodeChar := by
  change (text.flatMap String.utf8EncodeChar).toByteArray.toList = _
  rw [ByteArray.toList, Wire.toList_loop, List.data_toByteArray]
  rfl

/-- The digits of the first byte stand in front of those of the others. -/
theorem exists_digits (byte : UInt8) (rest : Bytes) :
    ∃ high low, (encode (byte :: rest)).flatMap String.utf8EncodeChar =
        high :: low :: (encode rest).flatMap String.utf8EncodeChar ∧
      digitValue? high = some (UInt8.ofNat (byte.toNat / 16)) ∧
      digitValue? low = some (UInt8.ofNat (byte.toNat % 16)) := by
  have hbyte := byte.toNat_lt
  obtain ⟨high, hhigh, hhighValue⟩ := exists_byte_digit (n := byte.toNat / 16) (by omega)
  obtain ⟨low, hlow, hlowValue⟩ := exists_byte_digit (n := byte.toNat % 16) (by omega)
  refine ⟨high, low, ?_, hhighValue, hlowValue⟩
  simp only [encode, encodeByte, List.flatMap_cons, List.cons_append, List.nil_append, hhigh, hlow]

theorem length_digits (bytes : Bytes) :
    ((encode bytes).flatMap String.utf8EncodeChar).length = 2 * bytes.length := by
  induction bytes with
  | nil => rfl
  | cons byte rest ih =>
    obtain ⟨high, low, hdigits, -⟩ := exists_digits byte rest
    rw [hdigits, List.length_cons, List.length_cons, ih, List.length_cons]
    omega

theorem decodeFrom_digits (bytes : Bytes) (position : Nat) :
    decodeFrom position ((encode bytes).flatMap String.utf8EncodeChar) = .ok bytes := by
  induction bytes generalizing position with
  | nil => rfl
  | cons byte rest ih =>
    obtain ⟨high, low, hdigits, hhigh, hlow⟩ := exists_digits byte rest
    rw [hdigits, decodeFrom, valueAt, hhigh, valueAt, hlow]
    simp only [ih]
    exact congrArg (fun first => Except.ok (first :: rest)) (join_halves byte)

/-- Reading a hexadecimal text gives the bytes that it was written from. -/
theorem decode_text (bytes : Bytes) : decode (text bytes) = .ok bytes := by
  have hlength : ((encode bytes).flatMap String.utf8EncodeChar).length % 2 ≠ 1 := by
    rw [length_digits]
    omega
  simp only [decode, text, toList_toUTF8]
  rw [if_neg hlength, decodeFrom_digits]

end Hex

namespace Wire

/-- A natural number takes no more bytes than are needed to count up to it. -/
theorem length_naturalBytes_le {n width : Nat} (h : n < 256 ^ width) :
    (naturalBytes n).length ≤ width := by
  induction width generalizing n with
  | zero =>
    obtain rfl : n = 0 := by simpa using h
    simp [naturalBytes]
  | succ width ih =>
    rw [naturalBytes]
    split
    · exact Nat.zero_le _
    · rw [Nat.pow_succ] at h
      have hrest := ih (Nat.div_lt_of_lt_mul (Nat.mul_comm _ _ ▸ h))
      rw [List.length_append, List.length_singleton]
      omega

/-- The sign of bytes is set when they spell a number in the upper half of their range. -/
theorem sign_iff (bytes : Bytes) :
    bytes.head?.any (128 ≤ ·) = true ↔ 256 ^ bytes.length ≤ 2 * naturalOf bytes := by
  cases bytes with
  | nil => simp [naturalOf]
  | cons byte rest =>
    have hrest := naturalOf_lt rest
    have hsign : (byte :: rest).head?.any (128 ≤ ·) = true ↔ 128 ≤ byte.toNat := by
      simp [UInt8.le_iff_toNat_le]
    rw [hsign, naturalOf_cons, List.length_cons, Nat.pow_succ]
    constructor
    · intro h
      have := Nat.mul_le_mul_right (256 ^ rest.length) h
      omega
    · intro h
      by_contra hlt
      have := Nat.mul_le_mul_right (256 ^ rest.length) (show byte.toNat ≤ 127 by omega)
      omega

/-- The integers that so many bytes spell. -/
theorem integerOf_range (bytes : Bytes) :
    -(256 ^ bytes.length : Int) ≤ 2 * integerOf bytes ∧
      2 * integerOf bytes < (256 ^ bytes.length : Int) := by
  have hlt : (naturalOf bytes : Int) < 256 ^ bytes.length := by exact_mod_cast naturalOf_lt bytes
  by_cases hsign : bytes.head?.any (128 ≤ ·) = true
  · have hhalf : (256 ^ bytes.length : Int) ≤ 2 * naturalOf bytes := by
      exact_mod_cast (sign_iff bytes).1 hsign
    rw [integerOf_of_sign hsign]
    omega
  · have hhalf : 2 * (naturalOf bytes : Int) < 256 ^ bytes.length := by
      exact_mod_cast Nat.not_le.1 (mt (sign_iff bytes).2 hsign)
    rw [integerOf_of_no_sign (by simpa using hsign)]
    omega

/-- A power of the base that is smaller has fewer digits. -/
theorem lt_of_pow_lt {k width : Nat} (h : 256 ^ k < 256 ^ width) : k < width :=
  (Nat.pow_lt_pow_iff_right (by omega)).1 h

theorem integerBytes_negSucc (n : Nat) :
    integerBytes (.negSucc n) =
      let bytes := wordBytes (naturalBytes n).length (256 ^ (naturalBytes n).length - 1 - n)
      if bytes.head?.any (128 ≤ ·) then bytes else 255 :: bytes := rfl

/-- An integer takes no more bytes than are needed to spell it. -/
theorem length_integerBytes_le {value : Int} {width : Nat} (hlow : -(256 ^ width : Int) ≤ 2 * value)
    (hhigh : 2 * value < (256 ^ width : Int)) : (integerBytes value).length ≤ width := by
  cases value with
  | ofNat n =>
    change 2 * (n : Int) < 256 ^ width at hhigh
    have hn : 2 * n < 256 ^ width := by exact_mod_cast hhigh
    simp only [integerBytes]
    split
    · rename_i hsign
      rw [sign_iff, naturalOf_naturalBytes] at hsign
      exact lt_of_pow_lt (Nat.lt_of_le_of_lt hsign hn)
    · exact length_naturalBytes_le (by omega)
  | negSucc n =>
    have hn : 2 * (n + 1) ≤ 256 ^ width := by
      rw [Int.negSucc_eq] at hlow
      have hcast : 2 * ((n : Int) + 1) ≤ 256 ^ width := by omega
      exact_mod_cast hcast
    have hfits := lt_of_length_naturalBytes n
    have hlength : (naturalBytes n).length ≤ width := length_naturalBytes_le (by omega)
    have hvalue : naturalOf (wordBytes (naturalBytes n).length (256 ^ (naturalBytes n).length - 1 - n)) =
        256 ^ (naturalBytes n).length - 1 - n := naturalOf_wordBytes (by omega)
    have hsign := sign_iff (wordBytes (naturalBytes n).length (256 ^ (naturalBytes n).length - 1 - n))
    rw [length_wordBytes, hvalue] at hsign
    simp only [integerBytes_negSucc]
    split
    · rw [length_wordBytes]
      exact hlength
    · rename_i hnone
      rw [hsign] at hnone
      rw [List.length_cons, length_wordBytes]
      exact lt_of_pow_lt (by omega)

namespace Argument

/-- The argument is a value of its type: words fit their width, and addresses have their length. -/
def IsValid : Argument → Prop
  | .word size value => value < 256 ^ size.width
  | .address value => value.length = addressLength
  | _ => True

/-- The codec of the argument's type. -/
def codec : Argument → Codec
  | .bool _ => .bool
  | .word size _ => .word size
  | .natural _ => .natural
  | .integer _ => .integer
  | .text _ => .text
  | .bytes _ => .bytes
  | .address _ => .address

/-- The value of the argument. -/
def scalar : Argument → Scalar
  | .bool value => .bool value
  | .word _ value => .unsigned value
  | .natural value => .integer value
  | .integer value => .integer value
  | .text value => .text value
  | .bytes value => .bytes value
  | .address value => .address value

variable {argument : Argument}

theorem IsValid.fits (h : argument.IsValid) : argument.codec.Fits argument.scalar := by
  cases argument with
  | bool value => trivial
  | word size value => exact h
  | natural value => exact Int.natCast_nonneg value
  | integer value => trivial
  | text value => trivial
  | bytes value => trivial
  | address value => exact h

theorem argument_scalar (argument : Argument) : argument.codec.argument argument.scalar = argument := by
  cases argument <;> rfl

/-- A slot with the argument's bytes decodes to its value. -/
theorem IsValid.top_payload (h : argument.IsValid) :
    argument.codec.top argument.payload = .ok argument.scalar := by
  have htop := Codec.top_argument h.fits
  rwa [argument_scalar] at htop

/-- A big number: its bytes have the length that its value needs. -/
def IsBig (argument : Argument) : Prop :=
  argument.codec = .natural ∨ argument.codec = .integer

/-- Bytes that decode to a big number are no shorter than those of its argument. -/
theorem IsBig.length_le (h : argument.IsBig) {slot : Bytes}
    (hslot : argument.codec.top slot = .ok argument.scalar) :
    argument.payload.length ≤ slot.length := by
  cases argument with
  | natural value =>
    have hvalue : naturalOf slot = value := by
      have hscalar := Scalar.integer.inj (Except.ok.inj hslot)
      exact_mod_cast hscalar
    exact length_naturalBytes_le (hvalue ▸ naturalOf_lt slot)
  | integer value =>
    have hvalue : integerOf slot = value := Scalar.integer.inj (Except.ok.inj hslot)
    obtain ⟨hlow, hhigh⟩ := integerOf_range slot
    exact length_integerBytes_le (hvalue ▸ hlow) (hvalue ▸ hhigh)
  | bool _ | word _ _ | text _ | bytes _ | address _ =>
    rcases h with h | h <;> exact absurd h (by simp [codec])

/-- The text of an argument spells its value, in one way. -/
structure IsCanonical (argument : Argument) : Prop where
  /-- The text consists of pairs of lower-case digits. -/
  even : argument.hexText.length % 2 = 0
  digits : ∀ c ∈ argument.hexText.toList, c ∈ Hex.lowerDigits
  /-- The bytes of the text decode to the value. -/
  lossless : ∃ slot, Hex.decode argument.hexText = .ok slot ∧
    argument.codec.top slot = .ok argument.scalar
  /-- Words have their full width, of two digits a byte. -/
  width : ∀ size value, argument = .word size value → argument.hexText.length = 2 * size.width
  /-- No shorter bytes decode to a big number. -/
  shortest : argument.IsBig → ∀ slot, argument.codec.top slot = .ok argument.scalar →
    argument.hexText.length ≤ 2 * slot.length
  /-- Zero among the big numbers is the empty argument. -/
  zero : argument.IsBig → argument.scalar = .integer 0 → argument.hexText = ""

theorem length_hexText (argument : Argument) : argument.hexText.length = 2 * argument.payload.length := by
  rw [hexText, Hex.text, String.length_ofList, Hex.length_encode]

/-- Every value of an argument type has a text that spells it losslessly and, for big numbers, as
briefly as possible. -/
theorem arguments_are_lossless_and_canonical (argument : Argument) (h : argument.IsValid) :
    argument.IsCanonical where
  even := by
    rw [length_hexText]
    omega
  digits c hc := by
    rw [hexText, Hex.text, String.toList_ofList] at hc
    exact Hex.mem_lowerDigits_of_mem_encode hc
  lossless := ⟨argument.payload, Hex.decode_text _, h.top_payload⟩
  width := by
    rintro size value rfl
    rw [length_hexText]
    exact congrArg (2 * ·) (length_wordBytes size.width value)
  shortest hbig slot hslot := by
    have hle := hbig.length_le hslot
    rw [length_hexText]
    omega
  zero hbig hzero := by
    have hempty : argument.codec.top [] = .ok argument.scalar := by
      rw [hzero]
      rcases hbig with hcodec | hcodec <;> rw [hcodec] <;> rfl
    have hnil : argument.payload = [] :=
      List.eq_nil_of_length_eq_zero (Nat.le_zero.1 (hbig.length_le hempty))
    rw [hexText, hnil]
    rfl

theorem word_argument_is_canonical :
    (word .u32 258).IsValid ∧ (word .u32 258).IsCanonical ∧ (word .u32 258).hexText = "00000102" := by
  have hvalid : (word .u32 258).IsValid := by
    change 258 < 256 ^ 4
    omega
  exact ⟨hvalid, arguments_are_lossless_and_canonical _ hvalid, by decide +kernel⟩

/-- The bytes of negative numbers at both sides of a sign byte. -/
example : [-128, -129, -32768, -32769].map (hexText ∘ integer) = ["80", "ff7f", "8000", "ff7fff"] := by
  decide +kernel

end Argument
end Wire
end ContractAbi
