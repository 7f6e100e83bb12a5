import ContractAbi.Proofs.NestedReads
import ContractAbi.Reflection

/-!
# Payloads in slots and between other bytes

A scalar is decoded in two ways, from a slot that holds its payload alone or at a place among other
bytes, where payloads of any length have it in front. Both ways give the same value, or refuse the
payload for the same reason, and so do the primitives and enums of a catalog. Only booleans are told
apart: a slot may hold any number, but a byte among others has to be zero or one.
-/
namespace ContractAbi
namespace Wire

namespace Cursor

/-- The cursor in front of some bytes that stand between others. -/
def before (earlier bytes later : Bytes) : Cursor :=
  ⟨earlier ++ bytes ++ later, earlier.length⟩

variable {earlier bytes later : Bytes}

theorem stands_before : (before earlier bytes later).Stands := by
  simp only [Stands, before, List.length_append]
  omega

theorem rest_before : (before earlier bytes later).rest = bytes ++ later := by
  simp only [rest, before, List.append_assoc, List.drop_left]

end Cursor

/-- A scalar between other bytes is scanned as its payload is decoded from a slot of its own. -/
theorem Codec.scan_framed {codec : Codec} {payload : Bytes} (h : codec.Suits payload)
    (earlier later : Bytes) :
    codec.scan (.before earlier (codec.framed payload) later) =
      (Cursor.before earlier (codec.framed payload) later).outcome (codec.framed payload).length
        (codec.top payload) :=
  codec.mirrors_scan.scan_eq codec.restores_scan (read_framed h later) Cursor.stands_before
    Cursor.rest_before

section

variable {byte : UInt8}

theorem boolOf_other (hzero : byte ≠ 0) (hone : byte ≠ 1) :
    Codec.boolOf byte = .error (.invalidBool byte) := by
  rw [Codec.boolOf, if_neg hzero, if_neg hone]

/-- A slot holds true only if it holds one. -/
theorem Codec.top_bool_other (hone : byte ≠ 1) : Codec.bool.top [byte] = .ok (.bool false) := by
  have hvalue : byte.toNat ≠ 1 := fun h => hone (UInt8.toNat_inj.1 h)
  rw [top, naturalOf_singleton, decide_eq_false hvalue]

theorem topWord_singleton (byte : UInt8) : topWord .u8 [byte] = .ok byte.toNat := by
  have hbyte : byte.toNat < 256 ^ Word.u8.width := byte.toNat_lt
  rw [topWord_eq, naturalOf_singleton, if_pos hbyte]

end

end Wire

namespace Catalog

variable {catalog : Catalog} {readNamed : String → Wire.Reader Value}

theorem readType_primitive (kind : Primitive) (bytes : Bytes) :
    catalog.readType readNamed (.primitive kind) bytes =
      (kind.codec.read bytes).map fun (value, rest) => (.scalar value, rest) := by
  rw [readType, Wire.Reader.bind_apply]
  cases kind.codec.read bytes <;> rfl

theorem decodeSlot_primitive (kind : Primitive) (slot : Bytes) :
    catalog.decodeSlot (.primitive kind) slot = (kind.codec.top slot).map .scalar := by
  rw [decodeSlot]
  cases kind.codec.top slot <;> rfl

theorem readType_framed {kind : Primitive} {payload : Bytes} (h : kind.codec.Suits payload)
    (later : Bytes) :
    catalog.readType readNamed (.primitive kind) (kind.codec.framed payload ++ later) =
      (catalog.decodeSlot (.primitive kind) payload).map (·, later) := by
  rw [readType_primitive, Wire.Codec.read_framed h, decodeSlot_primitive]
  cases kind.codec.top payload <;> rfl

theorem readType_enum (name : String) (byte : UInt8) (later : Bytes) :
    catalog.readType readNamed (.enum name) (byte :: later) =
      (catalog.decodeSlot (.enum name) [byte]).map (·, later) := by
  have hslot : catalog.decodeSlot (.enum name) [byte] = catalog.enumValue name byte := by
    rw [decodeSlot, Wire.topWord_singleton]
    change catalog.enumValue name (UInt8.ofNat byte.toNat) = _
    rw [UInt8.ofNat_toNat]
  rw [readType, Wire.Reader.bind_apply, Wire.readByte_cons, hslot]
  change (liftM (catalog.enumValue name byte) : Wire.Reader Value) later = _
  cases catalog.enumValue name byte <;> rfl

/-- A payload is decoded alike from a slot of its own and from its place between other bytes. -/
structure DecodesAlike (catalog : Catalog) (payload earlier later : Bytes) : Prop where
  /-- A cursor moves over the payload and its length, or stays in front of them if the payload is
  refused. -/
  scan : ∀ codec : Wire.Codec, codec.Suits payload →
    codec.scan (.before earlier (codec.framed payload) later) =
      (Wire.Cursor.before earlier (codec.framed payload) later).outcome
        (codec.framed payload).length (codec.top payload)
  /-- Whatever reads the records around it. -/
  primitive : ∀ (kind : Primitive) (readNamed : String → Wire.Reader Value), kind.codec.Suits payload →
    catalog.readType readNamed (.primitive kind) (kind.codec.framed payload ++ later) =
      (catalog.decodeSlot (.primitive kind) payload).map (·, later)
  enum : ∀ (name : String) (readNamed : String → Wire.Reader Value) (byte : UInt8), payload = [byte] →
    catalog.readType readNamed (.enum name) (payload ++ later) =
      (catalog.decodeSlot (.enum name) payload).map (·, later)
  /-- A byte that is neither zero nor one is no boolean among others, but not true in a slot. -/
  bool : ∀ byte : UInt8, payload = [byte] → byte ≠ 0 → byte ≠ 1 →
    Wire.Codec.bool.scan (.before earlier payload later) =
        .error (.invalidBool byte) (.before earlier payload later) ∧
      Wire.Codec.bool.top payload = .ok (.bool false)
  boolPrimitive : ∀ (readNamed : String → Wire.Reader Value) (byte : UInt8), payload = [byte] →
    byte ≠ 0 → byte ≠ 1 →
    catalog.readType readNamed (.primitive .bool) (payload ++ later) = .error (.invalidBool byte) ∧
      catalog.decodeSlot (.primitive .bool) payload = .ok (.scalar (.bool false))

/-- A payload has one meaning: in a slot of its own and among other values it is decoded to the same
value or refused for the same fault, except that a byte beyond one is false in a slot and refused
elsewhere. -/
theorem payloads_are_decoded_alike (catalog : Catalog) (payload earlier later : Bytes) :
    catalog.DecodesAlike payload earlier later where
  scan _ h := Wire.Codec.scan_framed h earlier later
  primitive _ _ h := readType_framed h later
  enum name _ byte h := h ▸ readType_enum name byte later
  bool byte h hzero hone := by
    subst h
    have hread : Wire.Codec.bool.read ([byte] ++ later) =
        (Except.error (.invalidBool byte)).map (·, later) := by
      rw [List.singleton_append, Wire.Codec.read_bool, Wire.boolOf_other hzero hone]
    exact ⟨Wire.Codec.bool.mirrors_scan.scan_eq Wire.Codec.bool.restores_scan hread
      Wire.Cursor.stands_before Wire.Cursor.rest_before, Wire.Codec.top_bool_other hone⟩
  boolPrimitive _ byte h hzero hone := by
    subst h
    constructor
    · rw [readType_primitive, List.singleton_append, Primitive.codec, Wire.Codec.read_bool,
        Wire.boolOf_other hzero hone]
      rfl
    · rw [decodeSlot_primitive, Primitive.codec, Wire.Codec.top_bool_other hone]
      rfl

/-- Two bytes that are no text are refused where they fill a slot, and behind their length, where the
cursor stays in front of them. -/
theorem broken_text_is_refused_alike :
    Wire.Codec.text.Suits [0xC3, 0x28] ∧
    empty.decodeSlot (.primitive .text) [0xC3, 0x28] = .error .invalidUtf8 ∧
    Wire.Codec.text.scan (.before [7] [0, 0, 0, 2, 0xC3, 0x28] [9]) =
      .error .invalidUtf8 (.before [7] [0, 0, 0, 2, 0xC3, 0x28] [9]) := by
  have hsuits : Wire.Codec.text.Suits [0xC3, 0x28] := by
    change 2 < 2 ^ 32
    decide
  have htop : Wire.Codec.text.top [0xC3, 0x28] = .error .invalidUtf8 := by decide +kernel
  have hscan := (payloads_are_decoded_alike empty [0xC3, 0x28] [7] [9]).scan .text hsuits
  rw [htop] at hscan
  refine ⟨hsuits, ?_, hscan⟩
  rw [decodeSlot_primitive, Primitive.codec, htop]
  rfl

end Catalog
end ContractAbi
