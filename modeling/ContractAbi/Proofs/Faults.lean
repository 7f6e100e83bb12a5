import ContractAbi.Proofs.Reading

/-!
# What decoding fails with

A fault of a sequence is a fault of one of its steps. So what is known of the faults of the steps is
known of the faults of a reader that is built from them, and of a call that blames a slot for them.
-/
namespace ContractAbi

namespace Wire

variable {α β : Type} {allowed : Fault → Prop}

/-- If the result is a fault, it is one of those allowed. -/
def BlamesOnly (allowed : Fault → Prop) (result : Except Fault α) : Prop :=
  ∀ fault, result = .error fault → allowed fault

namespace BlamesOnly

theorem ok (value : α) : BlamesOnly allowed (.ok value : Except Fault α) :=
  fun _ h => nomatch h

theorem error {fault : Fault} (h : allowed fault) :
    BlamesOnly allowed (.error fault : Except Fault α) := by
  intro other hother
  obtain rfl := Except.error.inj hother
  exact h

theorem mono {wider : Fault → Prop} {result : Except Fault α} (h : BlamesOnly allowed result)
    (hwider : ∀ fault, allowed fault → wider fault) : BlamesOnly wider result :=
  fun fault hfault => hwider fault (h fault hfault)

theorem bind {first : Except Fault α} {next : α → Except Fault β} (hfirst : BlamesOnly allowed first)
    (hnext : ∀ value, BlamesOnly allowed (next value)) : BlamesOnly allowed (first >>= next) := by
  cases first with
  | error fault => exact .error (hfirst fault rfl)
  | ok value => exact hnext value

end BlamesOnly

/-- Whatever bytes it is given, the reader fails with these faults only. -/
def FailsOnly (allowed : Fault → Prop) (reader : Reader α) : Prop :=
  ∀ bytes, BlamesOnly allowed (reader bytes)

namespace FailsOnly

theorem pure (value : α) : FailsOnly allowed (Pure.pure value : Reader α) :=
  fun _ => .ok _

theorem throw {fault : Fault} (h : allowed fault) :
    FailsOnly allowed (MonadExcept.throw fault : Reader α) :=
  fun _ => .error h

theorem lift {result : Except Fault α} (h : BlamesOnly allowed result) :
    FailsOnly allowed (liftM result : Reader α) :=
  fun _ => h.bind fun _ => .ok _

theorem mono {wider : Fault → Prop} {reader : Reader α} (h : FailsOnly allowed reader)
    (hwider : ∀ fault, allowed fault → wider fault) : FailsOnly wider reader :=
  fun bytes => (h bytes).mono hwider

theorem bind {first : Reader α} {next : α → Reader β} (hfirst : FailsOnly allowed first)
    (hnext : ∀ value, FailsOnly allowed (next value)) : FailsOnly allowed (first >>= next) := by
  intro bytes
  rw [Reader.bind_apply]
  have h := hfirst bytes
  cases hf : first bytes with
  | error fault => exact .error (h fault hf)
  | ok pair => exact hnext pair.1 pair.2

theorem topRead {reader : Reader α} (h : FailsOnly allowed reader) (slot : Bytes) :
    BlamesOnly allowed (topRead reader slot) :=
  (h slot).bind fun _ => .ok _

theorem readTimes {item : Reader α} (hitem : FailsOnly allowed item) (count : Nat) :
    FailsOnly allowed (readTimes item count) := by
  induction count with
  | zero => exact .pure _
  | succ count ih => exact hitem.bind fun _ => ih.bind fun _ => .pure _

/-- A list fails where its number or one of its items does. -/
theorem readList {item : Reader α} (hcount : FailsOnly allowed (readWord .u32))
    (hitem : FailsOnly allowed item) : FailsOnly allowed (readList item) :=
  hcount.bind fun count => hitem.readTimes count

end FailsOnly

/-- The bytes are to blame: there are too few or too many of them, or they spell no value. -/
def Fault.IsBytes : Fault → Prop
  | .insufficientData _ _ | .overflow _ _ | .invalidUtf8 | .invalidBool _ | .invalidAddressLength _ =>
    True
  | _ => False

theorem failsOnly_take (needed : Nat) : FailsOnly Fault.IsBytes (take needed) := by
  intro bytes
  rw [take]
  split
  · exact .error trivial
  · exact .ok _

theorem failsOnly_readWord (word : Word) : FailsOnly Fault.IsBytes (readWord word) :=
  (failsOnly_take _).bind fun _ => .pure _

theorem failsOnly_readByte : FailsOnly Fault.IsBytes readByte :=
  (failsOnly_readWord _).bind fun _ => .pure _

theorem failsOnly_readPayload : FailsOnly Fault.IsBytes readPayload :=
  (failsOnly_readWord _).bind failsOnly_take

theorem blamesOnly_textOf (bytes : Bytes) : BlamesOnly Fault.IsBytes (textOf bytes) := by
  rw [textOf]
  split
  · exact .ok _
  · exact .error trivial

theorem blamesOnly_topWord (word : Word) (slot : Bytes) :
    BlamesOnly Fault.IsBytes (topWord word slot) := by
  simp only [topWord]
  split
  · exact .error trivial
  · exact .ok _

namespace Codec

theorem blamesOnly_boolOf (byte : UInt8) : BlamesOnly Fault.IsBytes (boolOf byte) := by
  rw [boolOf]
  split
  · exact .ok _
  · split
    · exact .ok _
    · exact .error trivial

theorem blamesOnly_top (codec : Codec) (slot : Bytes) : BlamesOnly Fault.IsBytes (codec.top slot) := by
  cases codec with
  | word size => exact (blamesOnly_topWord size slot).bind fun _ => .ok _
  | text => exact (blamesOnly_textOf slot).bind fun _ => .ok _
  | address =>
    rw [top]
    split
    · exact .ok _
    · exact .error trivial
  | _ => exact .ok _

/-- A scalar is never refused for anything but its bytes. -/
theorem failsOnly_read (codec : Codec) : FailsOnly Fault.IsBytes codec.read := by
  cases codec with
  | bool => exact failsOnly_readByte.bind fun byte => .lift (blamesOnly_boolOf byte)
  | word size => exact (failsOnly_readWord size).bind fun _ => .pure _
  | natural => exact failsOnly_readPayload.bind fun _ => .pure _
  | integer => exact failsOnly_readPayload.bind fun _ => .pure _
  | text =>
    exact failsOnly_readPayload.bind fun bytes =>
      (FailsOnly.lift (blamesOnly_textOf bytes)).bind fun _ => .pure _
  | bytes => exact failsOnly_readPayload.bind fun _ => .pure _
  | address => exact (failsOnly_take _).bind fun _ => .pure _

end Codec
end Wire

namespace Catalog

open Wire (BlamesOnly FailsOnly)

variable {catalog : Catalog} {allowed : Wire.Fault → Prop} {members : List ResolvedType}
  {readNamed : String → Wire.Reader Value}

theorem failsOnly_readMembers
    (h : ∀ m ∈ members, FailsOnly allowed (readType catalog readNamed m)) (index : Nat) :
    FailsOnly allowed (readMembers catalog readNamed index members) := by
  induction members generalizing index with
  | nil => exact .pure _
  | cons member rest ih =>
    obtain ⟨hmember, hrest⟩ := List.forall_mem_cons.1 h
    exact hmember.bind fun _ => (ih hrest (index + 1)).bind fun _ => .pure _

theorem failsOnly_readFields {fields : List Field}
    (h : ∀ field ∈ fields, FailsOnly allowed (readType catalog readNamed field.type))
    (values : List (String × Value)) :
    FailsOnly allowed (readFields catalog readNamed values fields) := by
  induction fields generalizing values with
  | nil => exact .pure _
  | cons field rest ih =>
    obtain ⟨hfield, hrest⟩ := List.forall_mem_cons.1 h
    exact hfield.bind fun _ => ih hrest _

theorem blamesOnly_decodeMembers
    (h : ∀ m ∈ members, ∀ slot, BlamesOnly allowed (catalog.decodeMember m slot)) (index : Nat)
    (slots : List Bytes) : BlamesOnly allowed (catalog.decodeMembers index members slots) := by
  induction members generalizing index slots with
  | nil => exact .ok _
  | cons member rest ih =>
    cases slots with
    | nil => exact .ok _
    | cons slot slots =>
      obtain ⟨hmember, hrest⟩ := List.forall_mem_cons.1 h
      exact (hmember slot).bind fun _ => (ih hrest (index + 1) slots).bind fun _ => .ok _

end Catalog

namespace ReturnData

variable {α : Type} {data : ReturnData} {first width index : Nat} {fault : BindingFault}
  {allowed : Wire.Fault → Prop}

/-- The fault blames a slot for one of the faults allowed. -/
def IsResponse (data : ReturnData) (allowed : Wire.Fault → Prop) (fault : BindingFault) : Prop :=
  ∃ index cause, fault = .invalidResponse data.endpoint index cause ∧ allowed cause

theorem isResponse_of_blame {result : Except Wire.Fault α} (hresult : Wire.BlamesOnly allowed result)
    (h : data.blame index result = .error fault) : data.IsResponse allowed fault := by
  cases result with
  | error cause => exact ⟨index, cause, (Except.error.inj h).symm, hresult cause rfl⟩
  | ok value => cases h

/-- Besides what decoding fails with, a call fails for slots that are missing. -/
theorem isResponse_of_scalar {decode : Bytes → Except Wire.Fault α}
    (hmissing : ∀ index available, allowed (.missingSlot index available))
    (hdecode : ∀ slot, Wire.BlamesOnly allowed (decode slot))
    (h : data.scalar index decode = .error fault) : data.IsResponse allowed fault := by
  rw [scalar, slot] at h
  split at h
  · exact isResponse_of_blame (hdecode _) h
  · exact ⟨index, _, (Except.error.inj h).symm, hmissing _ _⟩

theorem isResponse_of_group {decode : List Bytes → Except Wire.Fault α}
    (hmissing : ∀ index available, allowed (.missingSlot index available))
    (hdecode : ∀ slots, Wire.BlamesOnly allowed (decode slots))
    (h : data.group first width decode = .error fault) : data.IsResponse allowed fault := by
  rw [group] at h
  split at h
  · exact ⟨_, _, (Except.error.inj h).symm, hmissing _ _⟩
  · exact isResponse_of_blame (hdecode _) h

end ReturnData
end ContractAbi
