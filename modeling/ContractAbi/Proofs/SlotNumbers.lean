import ContractAbi.Proofs.Scalars

/-!
# Numbers in slots of their own

A number that fills a slot is the value of the slot's bytes in base 256, however many zero bytes
stand in front of it. Words are collected in a register of 64 bits, which holds every word that a
slot is decoded to.
-/
namespace ContractAbi.Wire

/-- The number with the bytes as digits in base 256, the highest digit first. -/
def bigEndian (bytes : Bytes) : Nat :=
  Nat.ofDigits 256 (bytes.map UInt8.toNat).reverse

theorem naturalOf_eq_bigEndian (bytes : Bytes) : naturalOf bytes = bigEndian bytes := by
  induction bytes using List.reverseRecOn with
  | nil => rfl
  | append_singleton bytes byte ih =>
    rw [naturalOf_concat, ih, bigEndian, bigEndian, List.map_append, List.reverse_append,
      List.map_singleton, List.reverse_singleton, List.singleton_append, Nat.ofDigits_cons]
    rw [Nat.mul_comm, Nat.add_comm]

theorem bigEndian_padded (zeros : Nat) (bytes : Bytes) :
    bigEndian (List.replicate zeros 0 ++ bytes) = bigEndian bytes := by
  rw [← naturalOf_eq_bigEndian, naturalOf_zeros, naturalOf_eq_bigEndian]

theorem pow_bits (size : Word) : 2 ^ (8 * size.width) = 256 ^ size.width :=
  Nat.pow_mul 2 8 size.width

theorem top_word (size : Word) (slot : Bytes) :
    (Codec.word size).top slot =
      if bigEndian slot < 2 ^ (8 * size.width) then .ok (.unsigned (bigEndian slot))
      else .error (.overflow size slot.length) := by
  rw [Codec.top, topWord_eq, naturalOf_eq_bigEndian, pow_bits]
  split <;> rfl

/-- Whether a slot holds a word, and which, is settled by the number that it spells. -/
theorem toOption_top_word (size : Word) (slot : Bytes) :
    ((Codec.word size).top slot).toOption =
      if bigEndian slot < 2 ^ (8 * size.width) then some (.unsigned (bigEndian slot)) else none := by
  rw [top_word]
  split <;> rfl

/-- What a slot holds as a number of any type. -/
structure HoldsNumber (slot : Bytes) : Prop where
  natural : Codec.natural.top slot = .ok (.integer (bigEndian slot))
  /-- A number that the word has no room for is refused with the length of all of the slot. -/
  word : ∀ size : Word, (Codec.word size).top slot =
    if bigEndian slot < 2 ^ (8 * size.width) then .ok (.unsigned (bigEndian slot))
    else .error (.overflow size slot.length)
  /-- Slots that are alike as big numbers are alike as words. -/
  same : ∀ (size : Word) (other : Bytes), Codec.natural.top other = Codec.natural.top slot →
    ((Codec.word size).top other).toOption = ((Codec.word size).top slot).toOption
  padded : ∀ (size : Word) (zeros : Nat),
    ((Codec.word size).top (List.replicate zeros 0 ++ slot)).toOption =
      ((Codec.word size).top slot).toOption
  /-- After each byte of a word the register holds what the bytes so far spell. -/
  register : ∀ size : Word, bigEndian slot < 2 ^ (8 * size.width) →
    ∀ front, front <+: slot.dropWhile (· = 0) → (shiftIn front).toNat = bigEndian front
  /-- Neither is anything lost when the register is cut to the width of the word. -/
  cut : ∀ size : Word, bigEndian slot < 2 ^ (8 * size.width) →
    size.cut (shiftIn (slot.dropWhile (· = 0))) = bigEndian slot
  bool : Codec.bool.top slot = .ok (.bool (decide (bigEndian slot = 1)))

/-- Whatever its length, a slot is decoded to the number that its bytes spell. -/
theorem whole_slots_hold_their_number (slot : Bytes) : HoldsNumber slot where
  natural := by rw [← naturalOf_eq_bigEndian]; rfl
  word size := top_word size slot
  same size other h := by
    have hcast := Scalar.integer.inj (Except.ok.inj h)
    have hnumber : naturalOf other = naturalOf slot := Int.ofNat.inj hcast
    rw [naturalOf_eq_bigEndian, naturalOf_eq_bigEndian] at hnumber
    rw [toOption_top_word, toOption_top_word, hnumber]
  padded size zeros := by rw [toOption_top_word, toOption_top_word, bigEndian_padded]
  register size h front hfront := by
    rw [pow_bits, ← naturalOf_eq_bigEndian, ← length_significant_le_iff] at h
    rw [toNat_shiftIn_of_le ((hfront.length_le.trans h).trans size.width_le), naturalOf_eq_bigEndian]
  cut size h := by
    rw [pow_bits, ← naturalOf_eq_bigEndian] at h
    have hlength := ((length_significant_le_iff slot size.width).2 h).trans size.width_le
    rw [size.cut_eq, toNat_shiftIn_of_le hlength, naturalOf_dropWhile, Nat.mod_eq_of_lt h,
      naturalOf_eq_bigEndian]
  bool := by rw [← naturalOf_eq_bigEndian]; rfl

/-- Padding does not make room, but it counts in the length that is told. -/
example : (Codec.word .u8).top [0, 0, 255] = .ok (.unsigned 255) ∧
    (Codec.word .u8).top [0, 1, 0] = .error (.overflow .u8 3) := by decide

end ContractAbi.Wire
