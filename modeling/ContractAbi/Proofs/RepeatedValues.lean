import Mathlib
import ContractAbi.ReturnData

/-!
# Values that repeat to the end

A value in each slot, or in each group of slots, is decoded by itself. So decoding them all comes to
decoding one after the other: what fails is left out, the slots behind the last complete group are
ignored, and the values can be split wherever one of them begins.
-/
namespace ContractAbi.ReturnData

variable {α β : Type}

/-- The data as if only the slots in front of one had been returned. -/
def upTo (data : ReturnData) (point : Nat) : ReturnData :=
  { data with slots := data.slots.take point }

/-- The data as if `width` of the slots had not been returned. -/
def without (data : ReturnData) (first width : Nat) : ReturnData :=
  { data with slots := data.slots.take first ++ data.slots.drop (first + width) }

/-- A value can begin at the slot if the slots from the start up to it are whole values. -/
def IsBoundary (start width point : Nat) : Prop :=
  start ≤ point ∧ width ∣ point - start

/-- Decoding `all` values from a slot on is decoding `one` value of `width` slots after the other. -/
structure RepeatsOne (width : Nat) (all : ReturnData → Nat → List α)
    (one : ReturnData → Nat → Option α) : Prop where
  /-- The values are those of the complete places, in order. -/
  each : ∀ data start, ∃ places : List Nat, places.Pairwise (· < ·) ∧
    (∀ first, first ∈ places ↔ IsBoundary start width first ∧ first + width ≤ data.slots.length) ∧
    all data start = places.filterMap (one data)
  /-- A place without a value may as well not be there. -/
  skips : ∀ data start first, IsBoundary start width first → one data first = none →
    all (data.without first width) start = all data start
  splits : ∀ data start point, IsBoundary start width point →
    all data start = all (data.upTo point) start ++ all data point

section Groups

variable {width : Nat} {slots : List Bytes}

theorem completeGroups_of_short (h : slots.length < width) : completeGroups width slots = [] := by
  rw [completeGroups, if_neg]
  exact fun hroom => absurd hroom.2 (Nat.not_le_of_lt h)

theorem completeGroups_of_le (hwidth : 0 < width) (h : width ≤ slots.length) :
    completeGroups width slots = slots.take width :: completeGroups width (slots.drop width) := by
  rw [completeGroups, if_pos ⟨hwidth, h⟩]

/-- Every group is complete. -/
theorem length_of_mem_completeGroups {group : List Bytes} (h : group ∈ completeGroups width slots) :
    group.length = width := by
  induction hlength : slots.length using Nat.strong_induction_on generalizing slots with
  | _ length ih =>
    rw [completeGroups] at h
    split at h
    · rename_i hfull
      rcases List.mem_cons.1 h with rfl | h
      · exact List.length_take_of_le hfull.2
      · refine ih (slots.drop width).length ?_ h rfl
        rw [List.length_drop]
        omega
    · exact absurd h List.not_mem_nil

/-- The groups are the slots at the multiples of the width. -/
theorem completeGroups_eq_map (hwidth : 0 < width) (slots : List Bytes) :
    completeGroups width slots =
      (List.range (slots.length / width)).map fun k => (slots.drop (k * width)).take width := by
  induction hlength : slots.length using Nat.strong_induction_on generalizing slots with
  | _ length ih =>
    subst hlength
    by_cases hroom : width ≤ slots.length
    · have hcount : slots.length / width = (slots.length - width) / width + 1 :=
        Nat.div_eq_sub_div hwidth hroom
      have hrest := ih (slots.drop width).length (by rw [List.length_drop]; omega) _ rfl
      rw [completeGroups_of_le hwidth hroom, hrest, hcount, List.range_succ_eq_map, List.map_cons,
        List.map_map, List.length_drop, Nat.zero_mul, List.drop_zero]
      refine congrArg _ (List.map_congr_left fun k _ => ?_)
      rw [Function.comp_apply, List.drop_drop, Nat.succ_mul, Nat.add_comm]
    · rw [completeGroups_of_short (Nat.lt_of_not_le hroom),
        Nat.div_eq_of_lt (Nat.lt_of_not_le hroom)]
      rfl

/-- Groups can be taken up to any multiple of the width and then on from it. -/
theorem completeGroups_split (hwidth : 0 < width) (count : Nat) (slots : List Bytes) :
    completeGroups width slots =
      completeGroups width (slots.take (count * width)) ++
        completeGroups width (slots.drop (count * width)) := by
  induction count generalizing slots with
  | zero =>
    have hnone : completeGroups width [] = [] := completeGroups_of_short hwidth
    rw [Nat.zero_mul, List.take_zero, List.drop_zero, hnone, List.nil_append]
  | succ count ih =>
    by_cases hroom : width ≤ slots.length
    · have htake : (slots.take ((count + 1) * width)).take width = slots.take width := by
        rw [List.take_take, Nat.min_eq_left (Nat.le_mul_of_pos_left width (Nat.succ_pos _))]
      have hdrop : (slots.take ((count + 1) * width)).drop width =
          (slots.drop width).take (count * width) := by
        rw [List.drop_take, Nat.succ_mul, Nat.add_sub_cancel]
      have hfront : width ≤ (slots.take ((count + 1) * width)).length := by
        rw [List.length_take, Nat.succ_mul]
        omega
      rw [completeGroups_of_le hwidth hroom, completeGroups_of_le hwidth hfront, htake, hdrop,
        List.cons_append, ih (slots.drop width), List.drop_drop, Nat.succ_mul, Nat.add_comm width]
    · have hshort := Nat.lt_of_not_le hroom
      have hback : (slots.drop ((count + 1) * width)).length < width := by
        rw [List.length_drop]
        omega
      have hfront : (slots.take ((count + 1) * width)).length < width := by
        rw [List.length_take]
        omega
      rw [completeGroups_of_short hshort, completeGroups_of_short hfront,
        completeGroups_of_short hback, List.append_nil]

end Groups

section Group

variable {width : Nat} (decode : List Bytes → Except Wire.Fault α)

theorem toOption_group (data : ReturnData) (first : Nat) :
    (data.group first width decode).toOption =
      if first + width ≤ data.slots.length then
        (decode ((data.slots.drop first).take width)).toOption
      else none := by
  rw [group]
  by_cases hroom : first + width ≤ data.slots.length
  · rw [if_neg (Nat.not_lt.2 hroom), if_pos hroom, blame]
    cases decode ((data.slots.drop first).take width) <;> rfl
  · rw [if_pos (Nat.lt_of_not_le hroom), if_neg hroom]
    rfl

/-- The places of complete groups, counted from the start. -/
theorem mem_places {start count first : Nat} (hwidth : 0 < width) :
    first ∈ (List.range ((count - start) / width)).map (fun k => start + k * width) ↔
      IsBoundary start width first ∧ first + width ≤ count := by
  rw [List.mem_map]
  constructor
  · rintro ⟨k, hk, rfl⟩
    have hroom := (Nat.le_div_iff_mul_le hwidth).1 (List.mem_range.1 hk)
    rw [Nat.succ_mul] at hroom
    refine ⟨⟨Nat.le_add_right _ _, ?_⟩, by omega⟩
    rw [Nat.add_sub_cancel_left]
    exact Nat.dvd_mul_left _ _
  · rintro ⟨⟨hle, k, hk⟩, hroom⟩
    rw [Nat.mul_comm] at hk
    refine ⟨k, List.mem_range.2 ((Nat.le_div_iff_mul_le hwidth).2 ?_), by omega⟩
    rw [Nat.succ_mul]
    omega

theorem groups_eq_filterMap (hwidth : 0 < width) (data : ReturnData) (start : Nat) :
    data.groups start width decode =
      ((List.range ((data.slots.length - start) / width)).map fun k => start + k * width).filterMap
        fun first => (data.group first width decode).toOption := by
  rw [groups, completeGroups_eq_map hwidth, List.filterMap_map, List.filterMap_map, List.length_drop]
  refine List.filterMap_congr fun k hk => ?_
  have hplace : IsBoundary start width (start + k * width) ∧
      start + k * width + width ≤ data.slots.length :=
    (mem_places hwidth).1 (List.mem_map.2 ⟨k, hk, rfl⟩)
  rw [Function.comp_apply, Function.comp_apply, toOption_group, if_pos hplace.2, List.drop_drop]

theorem groups_split (hwidth : 0 < width) (data : ReturnData) {start point : Nat}
    (hpoint : IsBoundary start width point) :
    data.groups start width decode =
      (data.upTo point).groups start width decode ++ data.groups point width decode := by
  obtain ⟨hle, count, hcount⟩ := hpoint
  obtain rfl : point = start + count * width := by rw [Nat.mul_comm]; omega
  rw [groups, completeGroups_split hwidth count, List.filterMap_append, List.drop_drop, groups, groups,
    upTo, List.drop_take, Nat.add_sub_cancel_left]

theorem groups_of_none (hwidth : 0 < width) (data : ReturnData) {first : Nat}
    (hnone : (data.group first width decode).toOption = none) :
    data.groups first width decode = data.groups (first + width) width decode := by
  rw [toOption_group] at hnone
  by_cases hroom : first + width ≤ data.slots.length
  · rw [if_pos hroom] at hnone
    have hslots : width ≤ (data.slots.drop first).length := by
      rw [List.length_drop]
      omega
    rw [groups, completeGroups_of_le hwidth hslots, List.filterMap_cons, hnone, List.drop_drop]
    rfl
  · have hfirst : (data.slots.drop first).length < width := by
      rw [List.length_drop]
      omega
    have hnext : (data.slots.drop (first + width)).length < width := by
      rw [List.length_drop]
      omega
    rw [groups, groups, completeGroups_of_short hfirst, completeGroups_of_short hnext]

theorem upTo_without (data : ReturnData) (first width : Nat) :
    (data.without first width).upTo first = data.upTo first := by
  simp only [upTo, without, mk.injEq, true_and]
  by_cases hle : first ≤ data.slots.length
  · exact List.take_left' (List.length_take_of_le hle)
  · rw [List.drop_eq_nil_of_le (by omega), List.append_nil, List.take_take, Nat.min_self]

theorem drop_without (data : ReturnData) (first width : Nat) :
    (data.without first width).slots.drop first = data.slots.drop (first + width) := by
  change (data.slots.take first ++ data.slots.drop (first + width)).drop first = _
  by_cases hle : first ≤ data.slots.length
  · exact List.drop_left' (List.length_take_of_le hle)
  · have hnone : data.slots.drop (first + width) = [] := List.drop_eq_nil_of_le (by omega)
    rw [hnone, List.append_nil, List.drop_eq_nil_of_le (List.length_take_le _ _)]

theorem repeatsOne_groups (hwidth : 0 < width) :
    RepeatsOne width (fun data start => data.groups start width decode)
      (fun data first => (data.group first width decode).toOption) where
  each data start := by
    refine ⟨_, ?_, fun first => mem_places hwidth, groups_eq_filterMap decode hwidth data start⟩
    refine List.pairwise_map.2 (List.pairwise_lt_range.imp fun {i j} hlt => ?_)
    exact Nat.add_lt_add_left (Nat.mul_lt_mul_of_pos_right hlt hwidth) _
  skips data start first hfirst hnone := by
    have hback : (data.without first width).groups first width decode =
        data.groups first width decode := by
      rw [groups_of_none decode hwidth data hnone, groups, drop_without, groups]
    calc (data.without first width).groups start width decode
        = ((data.without first width).upTo first).groups start width decode ++
            (data.without first width).groups first width decode := groups_split decode hwidth _ hfirst
      _ = (data.upTo first).groups start width decode ++ data.groups first width decode := by
          rw [upTo_without, hback]
      _ = data.groups start width decode := (groups_split decode hwidth data hfirst).symm
  splits data start point hpoint := groups_split decode hwidth data hpoint

end Group

section Slot

variable (decode : Bytes → Except Wire.Fault α)

theorem completeGroups_one (slots : List Bytes) :
    completeGroups 1 slots = slots.map fun slot => [slot] := by
  induction slots with
  | nil => exact completeGroups_of_short Nat.one_pos
  | cons slot rest ih =>
    have hroom : 1 ≤ (slot :: rest).length := Nat.le_add_left 1 rest.length
    rw [completeGroups_of_le Nat.one_pos hroom, List.map_cons, ← ih]
    rfl

theorem eachSlot_eq_groups (data : ReturnData) (start : Nat) :
    data.eachSlot start decode = data.groups start 1 fun group => decode (group.headD []) := by
  rw [eachSlot, groups, completeGroups_one, List.filterMap_map]
  rfl

theorem toOption_scalar (data : ReturnData) (index : Nat) :
    (data.scalar index decode).toOption =
      (data.group index 1 fun group => decode (group.headD [])).toOption := by
  rw [toOption_group, scalar, slot]
  by_cases hroom : index + 1 ≤ data.slots.length
  · have hslot : data.slots[index]? = some data.slots[index] := List.getElem?_eq_getElem hroom
    rw [if_pos hroom, List.take_one_drop_eq_of_lt_length hroom, hslot]
    change (data.blame index (decode data.slots[index])).toOption = (decode data.slots[index]).toOption
    rw [blame]
    cases decode data.slots[index] <;> rfl
  · have hslot : data.slots[index]? = none := List.getElem?_eq_none (by omega)
    rw [if_neg hroom, hslot]
    rfl

theorem repeatsOne_eachSlot :
    RepeatsOne 1 (fun data start => data.eachSlot start decode)
      (fun data index => (data.scalar index decode).toOption) := by
  simp only [eachSlot_eq_groups, toOption_scalar]
  exact repeatsOne_groups _ Nat.one_pos

end Slot

/-- The values in each slot are the scalars of the slots, and the values in groups are the single
groups, with what fails left out. -/
theorem repeated_values_are_single_values (decode : Bytes → Except Wire.Fault α) {width : Nat}
    (hwidth : 0 < width) (decodeGroup : List Bytes → Except Wire.Fault β) :
    RepeatsOne 1 (fun data start => data.eachSlot start decode)
        (fun data index => (data.scalar index decode).toOption) ∧
      RepeatsOne width (fun data start => data.groups start width decodeGroup)
        (fun data first => (data.group first width decodeGroup).toOption) :=
  ⟨repeatsOne_eachSlot decode, repeatsOne_groups decodeGroup hwidth⟩

/-- A bid of an auction: a small number in each of its slots. -/
def bid (slots : List Bytes) : Except Wire.Fault (List Wire.Scalar) :=
  slots.mapM (Wire.Codec.word .u8).top

/-- The owner of an auction, two bids with one between them that does not decode, and half a bid. -/
def auction : ReturnData :=
  ⟨"getAuction", [[9], [1], [2], [0, 0], [1, 0], [7], [0, 5], [3]]⟩

theorem auction_bids_are_single_bids :
    0 < 2 ∧
    RepeatsOne 1 (fun data start => data.eachSlot start (Wire.Codec.word .u8).top)
        (fun data index => (data.scalar index (Wire.Codec.word .u8).top).toOption) ∧
    RepeatsOne 2 (fun data start => data.groups start 2 bid)
        (fun data first => (data.group first 2 bid).toOption) ∧
    auction.groups 1 2 bid = [[.unsigned 1, .unsigned 2], [.unsigned 7, .unsigned 5]] := by
  have hwidth : 0 < 2 := by decide
  obtain ⟨hslots, hgroups⟩ := repeated_values_are_single_values (Wire.Codec.word .u8).top hwidth bid
  exact ⟨hwidth, hslots, hgroups, by decide +kernel⟩

end ContractAbi.ReturnData
