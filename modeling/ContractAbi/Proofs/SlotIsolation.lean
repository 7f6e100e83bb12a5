import ContractAbi.Proofs.NestingLimit
import ContractAbi.Proofs.ReturnEncoding

/-!
# Slots of one output

Every planned output reads its own slots and no others. A call is refused for the first output of
one value that its slots do not hold, and a list is never refused; so what an output decodes to is
the same whatever the slots around it are. Outputs that reach a record which begins with itself are
left out: reading such a record does not end.
-/
namespace ContractAbi

/-- The strategies whose failure ends the call. -/
def Strategy.Aborts : Strategy → Prop
  | .scalar | .group _ => True
  | .selfTerminating | .eachSlot | .groups _ => False

/-- The range of an output in the slot array, which may end before it. -/
def OutputPlan.Covers (plan : OutputPlan) (index : Nat) : Prop :=
  plan.firstSlot ≤ index ∧
    ∀ width, plan.strategy.span? = some width → index < plan.firstSlot + width

/-- The returned slots in the range of an output. -/
def OutputPlan.own (plan : OutputPlan) (slots : List Bytes) : List Bytes :=
  match plan.strategy.span? with
  | some width => (slots.drop plan.firstSlot).take width
  | none => slots.drop plan.firstSlot

namespace Catalog

section Policy

variable (catalog : Catalog) (slots : List Bytes) (type : ResolvedType) (plan : OutputPlan)

/-- Decodes one value from all of its slots. A group has a member in each of them, any other value
is in the only one. -/
def decodeWhole : ResolvedType → List Bytes → Except Wire.Fault Value
  | .multi name members, own => catalog.decodeGroup name members own
  | type, own => catalog.decodeSlot type (own.headD [])

/-- No slot of the range is absent, and together they hold a value. -/
structure DecodesOwn : Prop where
  complete : ∀ index, plan.Covers index → index < slots.length
  holds : ∃ value, catalog.decodeWhole type (plan.own slots) = .ok value

/-- The slot and the cause that an output is refused for. -/
inductive Refuses : Nat → Wire.Fault → Prop
  | absent {index : Nat}
      (hfirst : IsLeast {index | plan.Covers index ∧ slots.length ≤ index} index) :
      Refuses index (.missingSlot index slots.length)
  | undecodable {cause : Wire.Fault} (hcomplete : ∀ index, plan.Covers index → index < slots.length)
      (hfault : catalog.decodeWhole type (plan.own slots) = .error cause) :
      Refuses plan.firstSlot cause

/-- A list is decoded whatever the slots are; without any slot it is empty. -/
def DecodesTo (value : Value) : Prop :=
  (plan.strategy.Aborts → catalog.decodeWhole type (plan.own slots) = .ok value) ∧
    (¬ plan.strategy.Aborts → ∃ elements, value = .list elements ∧
      (slots.length ≤ plan.firstSlot → elements = []))

end Policy

/-- How the decoding of planned outputs uses the slots of a call. -/
structure IsolatesSlots (catalog : Catalog) (endpoint : String)
    (outputs : List (ResolvedType × OutputPlan))
    (decode : List Bytes → Except ReflectionFault (List Value)) : Prop where
  /-- Every reading that an output can lead to comes to an end. -/
  ends : ∀ type, catalog.Reaches (outputs.map Prod.fst) type → ∀ bytes name,
    catalog.read type bytes ≠ .error (.endlessType name)
  succeeds : ∀ slots, (∃ values, decode slots = .ok values) ↔
    ∀ output ∈ outputs, output.2.strategy.Aborts → catalog.DecodesOwn slots output.1 output.2
  /-- The first output of one value that is not held by its slots is the one to blame. -/
  refuses : ∀ (slots : List Bytes) (before after : List (ResolvedType × OutputPlan))
      (output : ResolvedType × OutputPlan),
    outputs = before ++ output :: after →
    (∀ earlier ∈ before, earlier.2.strategy.Aborts →
      catalog.DecodesOwn slots earlier.1 earlier.2) →
    output.2.strategy.Aborts → ¬ catalog.DecodesOwn slots output.1 output.2 →
    ∃ index cause, catalog.Refuses slots output.1 output.2 index cause ∧
      decode slots = .error (.binding (.invalidResponse endpoint index cause))
  values : ∀ slots values, decode slots = .ok values →
    List.Forall₂ (fun output value => catalog.DecodesTo slots output.1 output.2 value) outputs values
  isolated : ∀ (position : Nat) (output : ResolvedType × OutputPlan),
    outputs[position]? = some output → ∀ slots others : List Bytes,
    (∀ index, output.2.Covers index → slots[index]? = others[index]?) →
    ∀ values otherValues, decode slots = .ok values → decode others = .ok otherValues →
      values[position]? = otherValues[position]?
  ignores : ∀ slots others : List Bytes,
    (∀ output ∈ outputs, ∀ index, output.2.Covers index → slots[index]? = others[index]?) →
    decode slots = decode others

end Catalog

namespace OutputPlan

variable {plan : OutputPlan} {width : Nat} {slots others : List Bytes}

theorem covers_iff (hspan : plan.strategy.span? = some width) {index : Nat} :
    plan.Covers index ↔ plan.firstSlot ≤ index ∧ index < plan.firstSlot + width := by
  simp [Covers, hspan]

theorem covers_iff_of_none (hspan : plan.strategy.span? = none) {index : Nat} :
    plan.Covers index ↔ plan.firstSlot ≤ index := by
  simp [Covers, hspan]

/-- A range with slots is complete if its last slot is there. -/
theorem complete_iff (hspan : plan.strategy.span? = some width) (hwidth : 0 < width) :
    (∀ index, plan.Covers index → index < slots.length) ↔
      plan.firstSlot + width ≤ slots.length := by
  simp only [covers_iff hspan]
  constructor
  · intro hall
    have hlast := hall (plan.firstSlot + width - 1) (by omega)
    omega
  · intro hle index hindex
    omega

theorem isLeast_absent (hspan : plan.strategy.span? = some width) (hwidth : 0 < width)
    (hshort : slots.length < plan.firstSlot + width) :
    IsLeast {index | plan.Covers index ∧ slots.length ≤ index}
      (max slots.length plan.firstSlot) := by
  constructor
  · rw [Set.mem_ofPred_eq, covers_iff hspan]
    omega
  · rintro index ⟨hcovers, hlength⟩
    rw [covers_iff hspan] at hcovers
    omega

theorem drop_eq_of_agree (hspan : plan.strategy.span? = none)
    (hagree : ∀ index, plan.Covers index → slots[index]? = others[index]?) :
    slots.drop plan.firstSlot = others.drop plan.firstSlot := by
  refine List.ext_getElem? fun index => ?_
  rw [List.getElem?_drop, List.getElem?_drop]
  exact hagree _ ((covers_iff_of_none hspan).2 (Nat.le_add_right _ _))

theorem own_eq_of_agree
    (hagree : ∀ index, plan.Covers index → slots[index]? = others[index]?) :
    plan.own slots = plan.own others := by
  rw [own, own]
  cases hspan : plan.strategy.span? with
  | none => exact drop_eq_of_agree hspan hagree
  | some width =>
    refine List.ext_getElem? fun index => ?_
    rw [List.getElem?_take, List.getElem?_take]
    split
    · rename_i hindex
      rw [List.getElem?_drop, List.getElem?_drop]
      exact hagree _ ((covers_iff hspan).2 ⟨Nat.le_add_right _ _, by omega⟩)
    · rfl

end OutputPlan

/-- Arrays that agree up to a slot that one of them lacks are the same. -/
theorem eq_of_agree_of_short {slots others : List Bytes} {bound : Nat}
    (hagree : ∀ index < bound, slots[index]? = others[index]?) (hshort : slots.length < bound) :
    slots = others := by
  have habsent : others[slots.length]? = none := by
    rw [← hagree _ hshort]
    exact List.getElem?_eq_none (Nat.le_refl _)
  have hlength := List.getElem?_eq_none_iff.1 habsent
  refine List.ext_getElem? fun index => ?_
  by_cases hindex : index < bound
  · exact hagree index hindex
  · rw [List.getElem?_eq_none (by omega), List.getElem?_eq_none (by omega)]

namespace ReturnData

variable {α : Type} {endpoint : String} {slots others : List Bytes} {start : Nat}

theorem selfTerminating_congr (h : slots[start]? = others[start]?) (item : Wire.Reader α) :
    selfTerminating ⟨endpoint, slots⟩ start item = selfTerminating ⟨endpoint, others⟩ start item := by
  simp only [selfTerminating, h]

theorem eachSlot_congr (h : slots.drop start = others.drop start)
    (decode : Bytes → Except Wire.Fault α) :
    eachSlot ⟨endpoint, slots⟩ start decode = eachSlot ⟨endpoint, others⟩ start decode := by
  simp only [eachSlot, h]

theorem groups_congr (h : slots.drop start = others.drop start) {width : Nat}
    (decode : List Bytes → Except Wire.Fault α) :
    groups ⟨endpoint, slots⟩ start width decode = groups ⟨endpoint, others⟩ start width decode := by
  simp only [groups, h]

end ReturnData

/-- The strategy suits the type, and a group has members. -/
structure OutputPlan.Serves (plan : OutputPlan) (type : ResolvedType) : Prop where
  suits : Strategy.Suits type plan.strategy
  members : ∀ name, type ≠ .multi name []

namespace Catalog

variable {catalog : Catalog} {endpoint : String} {slots others : List Bytes} {type : ResolvedType}
  {plan : OutputPlan}

/-- An output of one value has a range with slots. It needs them all, and then decodes them. -/
theorem decodeOutput_of_aborts (catalog : Catalog) (endpoint : String) (slots : List Bytes)
    (h : plan.Serves type) (haborts : plan.strategy.Aborts) :
    ∃ width, plan.strategy.span? = some width ∧ 0 < width ∧
      catalog.decodeOutput ⟨endpoint, slots⟩ type plan =
        if plan.firstSlot + width ≤ slots.length then
          ((catalog.decodeWhole type (plan.own slots)).mapError
            (.invalidResponse endpoint plan.firstSlot)).mapError .binding
        else .error (.binding (.invalidResponse endpoint (max slots.length plan.firstSlot)
          (.missingSlot (max slots.length plan.firstSlot) slots.length))) := by
  obtain ⟨strategy, firstSlot⟩ := plan
  obtain ⟨hsuits, hmembers⟩ := h
  cases hsuits with
  | packed hrecord hcheck => exact absurd haborts id
  | spread hrecord hcheck => exact absurd haborts id
  | variadic hcheck => exact absurd haborts id
  | groups hcheck => exact absurd haborts id
  | @group name members hcheck =>
    have hpositive : 0 < members.length := by
      rw [List.length_pos_iff]
      rintro rfl
      exact hmembers name rfl
    refine ⟨members.length, rfl, hpositive, ?_⟩
    change (ReturnData.group _ firstSlot members.length _).mapError _ = _
    rw [ReturnData.group]
    by_cases hroom : firstSlot + members.length ≤ slots.length
    · rw [if_pos hroom, if_neg (Nat.not_lt.2 hroom)]
      rfl
    · rw [if_neg hroom, if_pos (Nat.lt_of_not_le hroom)]
      rfl
  | scalar htop hcheck =>
    refine ⟨1, rfl, Nat.one_pos, ?_⟩
    change (ReturnData.scalar _ firstSlot _).mapError _ = _
    rw [ReturnData.scalar, ReturnData.slot]
    by_cases hroom : firstSlot + 1 ≤ slots.length
    · have hslot : slots[firstSlot]? = some slots[firstSlot] := List.getElem?_eq_getElem hroom
      have hown : OutputPlan.own ⟨.scalar, firstSlot⟩ slots = [slots[firstSlot]] := by
        rw [OutputPlan.own]
        exact List.take_one_drop_eq_of_lt_length hroom
      have hwhole : catalog.decodeWhole type [slots[firstSlot]] =
          catalog.decodeSlot type slots[firstSlot] := by
        cases type <;> first | rfl | cases htop
      rw [if_pos hroom, hown, hwhole]
      simp only [hslot]
      rfl
    · have hmax : max slots.length firstSlot = firstSlot := by omega
      have hslot : slots[firstSlot]? = none := List.getElem?_eq_none (by omega)
      rw [if_neg hroom, hmax]
      simp only [hslot]
      rfl

/-- An output of one value is decoded or refused, by what its slots hold. -/
theorem decodeOutput_cases (h : plan.Serves type) (haborts : plan.strategy.Aborts) :
    (catalog.DecodesOwn slots type plan ∧ ∃ value,
      catalog.decodeOutput ⟨endpoint, slots⟩ type plan = .ok value ∧
      catalog.decodeWhole type (plan.own slots) = .ok value) ∨
    (¬ catalog.DecodesOwn slots type plan ∧ ∃ index cause,
      catalog.Refuses slots type plan index cause ∧
      catalog.decodeOutput ⟨endpoint, slots⟩ type plan =
        .error (.binding (.invalidResponse endpoint index cause))) := by
  obtain ⟨width, hspan, hwidth, hdecode⟩ :=
    decodeOutput_of_aborts catalog endpoint slots h haborts
  have hcomplete : (∀ index, plan.Covers index → index < slots.length) ↔
      plan.firstSlot + width ≤ slots.length := OutputPlan.complete_iff hspan hwidth
  by_cases hroom : plan.firstSlot + width ≤ slots.length
  · rw [if_pos hroom] at hdecode
    cases hwhole : catalog.decodeWhole type (plan.own slots) with
    | ok value =>
      rw [hwhole] at hdecode
      exact .inl ⟨⟨hcomplete.2 hroom, value, hwhole⟩, value, hdecode, rfl⟩
    | error cause =>
      rw [hwhole] at hdecode
      refine .inr ⟨fun hown => ?_, _, cause, .undecodable (hcomplete.2 hroom) hwhole, hdecode⟩
      obtain ⟨value, hvalue⟩ := hown.holds
      rw [hwhole] at hvalue
      cases hvalue
  · rw [if_neg hroom] at hdecode
    refine .inr ⟨fun hown => hroom (hcomplete.1 hown.complete), _, _, ?_, hdecode⟩
    exact .absent (OutputPlan.isLeast_absent hspan hwidth (Nat.lt_of_not_le hroom))

theorem decodeWhole_of_decodeOutput (h : plan.Serves type) (haborts : plan.strategy.Aborts)
    {value : Value} (hvalue : catalog.decodeOutput ⟨endpoint, slots⟩ type plan = .ok value) :
    catalog.DecodesOwn slots type plan ∧ catalog.decodeWhole type (plan.own slots) = .ok value := by
  rcases decodeOutput_cases h haborts with
    ⟨hown, other, hdecode, hwhole⟩ | ⟨-, index, cause, -, hdecode⟩
  · rw [hdecode] at hvalue
    exact ⟨hown, Except.ok.inj hvalue ▸ hwhole⟩
  · rw [hdecode] at hvalue
    cases hvalue

/-- A list output always has a value. -/
theorem decodeOutput_of_not_aborts (hsuits : Strategy.Suits type plan.strategy)
    (hlist : ¬ plan.strategy.Aborts) : ∃ elements,
      catalog.decodeOutput ⟨endpoint, slots⟩ type plan = .ok (.list elements) ∧
      (slots.length ≤ plan.firstSlot → elements = []) := by
  obtain ⟨strategy, firstSlot⟩ := plan
  have hdrop : slots.length ≤ firstSlot → slots.drop firstSlot = [] := List.drop_eq_nil_of_le
  cases hsuits with
  | packed hrecord hcheck =>
    refine ⟨_, rfl, fun hle => ?_⟩
    rw [ReturnData.selfTerminating, List.getElem?_eq_none hle]
  | spread hrecord hcheck =>
    refine ⟨_, rfl, fun hle => ?_⟩
    rw [ReturnData.eachSlot, hdrop hle]
    rfl
  | variadic hcheck =>
    refine ⟨_, rfl, fun hle => ?_⟩
    rw [ReturnData.eachSlot, hdrop hle]
    rfl
  | groups hcheck =>
    refine ⟨_, rfl, fun hle => ?_⟩
    rw [ReturnData.groups, hdrop hle, ReturnData.completeGroups, if_neg]
    · rfl
    · rintro ⟨hpositive, hroom⟩
      exact absurd hroom (Nat.not_le_of_lt hpositive)
  | group hcheck => exact absurd trivial hlist
  | scalar htop hcheck => exact absurd trivial hlist

/-- A list output looks at the slots of its range only. -/
theorem decodeOutput_list_congr (hsuits : Strategy.Suits type plan.strategy)
    (hlist : ¬ plan.strategy.Aborts)
    (hagree : ∀ index, plan.Covers index → slots[index]? = others[index]?) :
    catalog.decodeOutput ⟨endpoint, slots⟩ type plan =
      catalog.decodeOutput ⟨endpoint, others⟩ type plan := by
  obtain ⟨strategy, firstSlot⟩ := plan
  cases hsuits with
  | packed hrecord hcheck =>
    have hslot : slots[firstSlot]? = others[firstSlot]? :=
      hagree firstSlot ((OutputPlan.covers_iff rfl).2 ⟨Nat.le_refl _, Nat.lt_succ_self _⟩)
    exact congrArg (fun elements => Except.ok (Value.list elements))
      (ReturnData.selfTerminating_congr hslot _)
  | spread hrecord hcheck =>
    have hdrop : slots.drop firstSlot = others.drop firstSlot :=
      OutputPlan.drop_eq_of_agree rfl hagree
    exact congrArg (fun elements => Except.ok (Value.list elements))
      (ReturnData.eachSlot_congr hdrop _)
  | variadic hcheck =>
    have hdrop : slots.drop firstSlot = others.drop firstSlot :=
      OutputPlan.drop_eq_of_agree rfl hagree
    exact congrArg (fun elements => Except.ok (Value.list elements))
      (ReturnData.eachSlot_congr hdrop _)
  | groups hcheck =>
    have hdrop : slots.drop firstSlot = others.drop firstSlot :=
      OutputPlan.drop_eq_of_agree rfl hagree
    exact congrArg (fun elements => Except.ok (Value.list elements))
      (ReturnData.groups_congr hdrop _)
  | group hcheck => exact absurd trivial hlist
  | scalar htop hcheck => exact absurd trivial hlist

/-- What an output of one value decodes to depends on the slots of its range only. -/
theorem eq_of_decodeOutput (h : plan.Serves type)
    (hagree : ∀ index, plan.Covers index → slots[index]? = others[index]?) {value other : Value}
    (hvalue : catalog.decodeOutput ⟨endpoint, slots⟩ type plan = .ok value)
    (hother : catalog.decodeOutput ⟨endpoint, others⟩ type plan = .ok other) : value = other := by
  by_cases haborts : plan.strategy.Aborts
  · have hwhole := (decodeWhole_of_decodeOutput h haborts hvalue).2
    have hwholeOther := (decodeWhole_of_decodeOutput h haborts hother).2
    rw [OutputPlan.own_eq_of_agree hagree, hwholeOther] at hwhole
    exact (Except.ok.inj hwhole).symm
  · rw [decodeOutput_list_congr h.suits haborts hagree, hother] at hvalue
    exact (Except.ok.inj hvalue).symm

/-- With all its slots there, an output is decoded in the same way whatever follows them. -/
theorem decodeOutput_congr (h : plan.Serves type) {width : Nat}
    (hspan : plan.strategy.span? = some width)
    (hagree : ∀ index, plan.Covers index → slots[index]? = others[index]?)
    (hslots : plan.firstSlot + width ≤ slots.length)
    (hothers : plan.firstSlot + width ≤ others.length) :
    catalog.decodeOutput ⟨endpoint, slots⟩ type plan =
      catalog.decodeOutput ⟨endpoint, others⟩ type plan := by
  by_cases haborts : plan.strategy.Aborts
  · obtain ⟨_, hspanSlots, -, hdecode⟩ :=
      decodeOutput_of_aborts catalog endpoint slots h haborts
    obtain ⟨_, hspanOthers, -, hdecodeOthers⟩ :=
      decodeOutput_of_aborts catalog endpoint others h haborts
    obtain rfl := Option.some.inj (hspan.symm.trans hspanSlots)
    obtain rfl := Option.some.inj (hspan.symm.trans hspanOthers)
    rw [hdecode, hdecodeOthers, if_pos hslots, if_pos hothers, OutputPlan.own_eq_of_agree hagree]
  · exact decodeOutput_list_congr h.suits haborts hagree

theorem decodePlanned_eq_mapM (data : ReturnData) (outputs : List (ResolvedType × OutputPlan)) :
    catalog.decodePlanned data outputs =
      outputs.mapM fun output => catalog.decodeOutput data output.1 output.2 := by
  induction outputs with
  | nil => rfl
  | cons output rest ih =>
    obtain ⟨type, plan⟩ := output
    rw [decodePlanned, ih, List.mapM_cons]

/-- Outputs are planned side by side, so arrays that agree on all of them agree from the first slot
on. -/
theorem decodePlanned_congr {slot : Nat} {outputs : List ResolvedType} {plans : List OutputPlan}
    (hplans : planFrom (some slot) outputs = .ok plans) (hmembers : ∀ name, .multi name [] ∉ outputs)
    (hbefore : ∀ index < slot, slots[index]? = others[index]?)
    (hagree : ∀ output ∈ outputs.zip plans, ∀ index, output.2.Covers index →
      slots[index]? = others[index]?) :
    catalog.decodePlanned ⟨endpoint, slots⟩ (outputs.zip plans) =
      catalog.decodePlanned ⟨endpoint, others⟩ (outputs.zip plans) := by
  induction outputs generalizing slot plans with
  | nil => rfl
  | cons output rest ih =>
    obtain ⟨strategy, after, hselect, hafter, rfl⟩ := of_planFrom hplans
    have hfirst := hagree (output, ⟨strategy, slot⟩) List.mem_cons_self
    cases hspan : strategy.span? with
    | none =>
      have hsame : slots = others := by
        refine List.ext_getElem? fun index => ?_
        by_cases hindex : index < slot
        · exact hbefore index hindex
        · exact hfirst index ((OutputPlan.covers_iff_of_none hspan).2 (Nat.le_of_not_lt hindex))
      rw [hsame]
    | some width =>
      have hupto : ∀ index < slot + width, slots[index]? = others[index]? := by
        intro index hindex
        by_cases hbelow : index < slot
        · exact hbefore index hbelow
        · exact hfirst index ((OutputPlan.covers_iff hspan).2 ⟨Nat.le_of_not_lt hbelow, hindex⟩)
      by_cases hslots : slot + width ≤ slots.length
      · by_cases hothers : slot + width ≤ others.length
        · have houtput : catalog.decodeOutput ⟨endpoint, slots⟩ output ⟨strategy, slot⟩ =
              catalog.decodeOutput ⟨endpoint, others⟩ output ⟨strategy, slot⟩ :=
            decodeOutput_congr ⟨Strategy.suits_of_select hselect,
              fun name heq => hmembers name (heq ▸ List.mem_cons_self)⟩ hspan hfirst hslots hothers
          rw [hspan] at hafter
          have hrest := ih hafter (fun name hmem => hmembers name (List.mem_cons_of_mem _ hmem)) hupto
            fun other hother => hagree other (List.mem_cons_of_mem _ hother)
          rw [List.zip_cons_cons, decodePlanned, decodePlanned, houtput, hrest]
        · have hsame := eq_of_agree_of_short (fun index hindex => (hupto index hindex).symm)
            (Nat.lt_of_not_le hothers)
          rw [hsame]
      · rw [eq_of_agree_of_short hupto (Nat.lt_of_not_le hslots)]

section Planned

variable {outputs : List (ResolvedType × OutputPlan)}

theorem exists_decodeOutput (endpoint : String) (h : plan.Serves type)
    (hown : plan.strategy.Aborts → catalog.DecodesOwn slots type plan) :
    ∃ value, catalog.decodeOutput ⟨endpoint, slots⟩ type plan = .ok value := by
  by_cases haborts : plan.strategy.Aborts
  · rcases decodeOutput_cases h haborts with ⟨-, value, hvalue, -⟩ | ⟨hnot, -⟩
    · exact ⟨value, hvalue⟩
    · exact absurd (hown haborts) hnot
  · obtain ⟨elements, helements, -⟩ := decodeOutput_of_not_aborts h.suits haborts
    exact ⟨.list elements, helements⟩

theorem decodePlanned_succeeds_iff (endpoint : String)
    (hserves : ∀ output ∈ outputs, output.2.Serves output.1) :
    (∃ values, catalog.decodePlanned ⟨endpoint, slots⟩ outputs = .ok values) ↔
      ∀ output ∈ outputs, output.2.strategy.Aborts →
        catalog.DecodesOwn slots output.1 output.2 := by
  rw [decodePlanned_eq_mapM]
  constructor
  · rintro ⟨values, hvalues⟩ output houtput haborts
    obtain ⟨value, -, hvalue⟩ := exists_of_forall₂_left (forall₂_of_mapM hvalues) houtput
    exact (decodeWhole_of_decodeOutput (hserves output houtput) haborts hvalue).1
  · intro hall
    exact exists_mapM_eq_ok fun output houtput =>
      exists_decodeOutput endpoint (hserves output houtput) (hall output houtput)

theorem decodePlanned_refuses (endpoint : String) {before after : List (ResolvedType × OutputPlan)}
    {output : ResolvedType × OutputPlan}
    (hserves : ∀ other ∈ before ++ output :: after, other.2.Serves other.1)
    (hbefore : ∀ earlier ∈ before, earlier.2.strategy.Aborts →
      catalog.DecodesOwn slots earlier.1 earlier.2)
    (haborts : output.2.strategy.Aborts) (hnot : ¬ catalog.DecodesOwn slots output.1 output.2) :
    ∃ index cause, catalog.Refuses slots output.1 output.2 index cause ∧
      catalog.decodePlanned ⟨endpoint, slots⟩ (before ++ output :: after) =
        .error (.binding (.invalidResponse endpoint index cause)) := by
  have houtput := hserves output (List.mem_append_right _ List.mem_cons_self)
  rcases decodeOutput_cases houtput haborts with ⟨hown, -⟩ | ⟨-, index, cause, hrefuses, hfault⟩
  · exact absurd hown hnot
  · refine ⟨index, cause, hrefuses, ?_⟩
    rw [decodePlanned_eq_mapM]
    exact mapM_append_eq_error (fun earlier hearlier => exists_decodeOutput endpoint
      (hserves earlier (List.mem_append_left _ hearlier)) (hbefore earlier hearlier)) hfault

theorem decodePlanned_values (hserves : ∀ output ∈ outputs, output.2.Serves output.1)
    {values : List Value} (hvalues : catalog.decodePlanned ⟨endpoint, slots⟩ outputs = .ok values) :
    List.Forall₂ (fun output value => catalog.DecodesTo slots output.1 output.2 value)
      outputs values := by
  rw [decodePlanned_eq_mapM] at hvalues
  have hmade := List.forall₂_iff_zip.1 (forall₂_of_mapM hvalues)
  refine List.forall₂_iff_zip.2 ⟨hmade.1, fun {output value} hpair => ?_⟩
  have houtput := hserves output (List.of_mem_zip hpair).1
  refine ⟨fun haborts => (decodeWhole_of_decodeOutput houtput haborts (hmade.2 hpair)).2,
    fun hlist => ?_⟩
  obtain ⟨elements, helements, hempty⟩ := decodeOutput_of_not_aborts houtput.suits hlist
  exact ⟨elements, Except.ok.inj ((hmade.2 hpair).symm.trans helements), hempty⟩

theorem decodePlanned_isolated (hserves : ∀ output ∈ outputs, output.2.Serves output.1)
    {position : Nat} {output : ResolvedType × OutputPlan} (houtput : outputs[position]? = some output)
    (hagree : ∀ index, output.2.Covers index → slots[index]? = others[index]?)
    {values otherValues : List Value}
    (hvalues : catalog.decodePlanned ⟨endpoint, slots⟩ outputs = .ok values)
    (hothers : catalog.decodePlanned ⟨endpoint, others⟩ outputs = .ok otherValues) :
    values[position]? = otherValues[position]? := by
  rw [decodePlanned_eq_mapM] at hvalues hothers
  obtain ⟨value, hvalue, hmade⟩ := exists_getElem?_of_forall₂ (forall₂_of_mapM hvalues) houtput
  obtain ⟨other, hother, hmadeOther⟩ :=
    exists_getElem?_of_forall₂ (forall₂_of_mapM hothers) houtput
  have hsame := eq_of_decodeOutput (hserves output (List.mem_of_getElem? houtput)) hagree hmade
    hmadeOther
  rw [hvalue, hother, hsame]

end Planned

/-- Each output of a call is decoded from its own slots. The call fails only for an output of one
value, and it blames the first one that its slots do not hold. None of the records that the outputs
reach may begin with itself, which is needed for reading to end at all, see `grounded_iff`. -/
theorem outputs_read_their_own_slots (catalog : Catalog) (endpoint : String)
    {outputs : List ResolvedType} (hgrounded : catalog.Grounded outputs)
    (hdeclared : catalog.undeclaredMember? outputs = none)
    {plans : List OutputPlan} (hplans : planOutputs outputs = .ok plans)
    (hmembers : ∀ name, .multi name [] ∉ outputs) :
    catalog.IsolatesSlots endpoint (outputs.zip plans) (catalog.decodeOutputs endpoint outputs) := by
  have hserves : ∀ output ∈ outputs.zip plans, output.2.Serves output.1 := fun output houtput =>
    ⟨(List.forall₂_iff_zip.1 (suits_of_planFrom hplans)).2 houtput,
      fun name heq => hmembers name (heq ▸ (List.of_mem_zip houtput).1)⟩
  have hdecode : catalog.decodeOutputs endpoint outputs =
      fun slots => catalog.decodePlanned ⟨endpoint, slots⟩ (outputs.zip plans) := by
    funext slots
    rw [decodeOutputs, hdeclared, hplans]
  have hreaches : ∀ type, catalog.Reaches ((outputs.zip plans).map Prod.fst) type →
      catalog.Reaches outputs type := by
    intro type
    apply Reaches.trans
    intro root hroot
    obtain ⟨output, houtput, rfl⟩ := List.mem_map.1 hroot
    exact reaches_of_mem (List.of_mem_zip houtput).1
  rw [hdecode]
  constructor
  · exact fun type htype => grounded_iff.1 hgrounded type (hreaches type htype)
  · exact fun slots => decodePlanned_succeeds_iff endpoint hserves
  · intro slots before after output hsplit hbefore haborts hnot
    simp only [hsplit] at hserves ⊢
    exact decodePlanned_refuses endpoint hserves hbefore haborts hnot
  · exact fun slots values => decodePlanned_values hserves
  · exact fun position output houtput slots others hagree values otherValues =>
      decodePlanned_isolated hserves houtput hagree
  · exact fun slots others =>
      decodePlanned_congr hplans hmembers fun _ h => absurd h (Nat.not_lt_zero _)

/-- Outputs of three kinds: a packed list, a group of two slots, and a list that takes the rest. -/
def vaultRound : List ResolvedType :=
  [.list (.record "Stake"), .multi "ComplexType1" [.primitive .bytes, .primitive .bigInt],
    .variadic (.primitive .u8)]

def vaultRoundPlans : List OutputPlan :=
  [⟨.selfTerminating, 0⟩, ⟨.group 2, 1⟩, ⟨.eachSlot, 3⟩]

/-- The slots of a round end inside the group, and the list before it holds no complete stake. -/
theorem vaultRound_reads_own_slots :
    vaultCatalog.Grounded vaultRound ∧ vaultCatalog.undeclaredMember? vaultRound = none ∧
    planOutputs vaultRound = .ok vaultRoundPlans ∧ (∀ name, .multi name [] ∉ vaultRound) ∧
    vaultCatalog.IsolatesSlots "getRound" (vaultRound.zip vaultRoundPlans)
      (vaultCatalog.decodeOutputs "getRound" vaultRound) ∧
    vaultCatalog.decodeOutputs "getRound" vaultRound [[255], [1]] =
      .error (.binding (.invalidResponse "getRound" 2 (.missingSlot 2 2))) := by
  have hgrounded : vaultCatalog.Grounded vaultRound := vaultCatalog_acyclic.grounded vaultRound
  have hdeclared : vaultCatalog.undeclaredMember? vaultRound = none := by decide +kernel
  have hplans : planOutputs vaultRound = .ok vaultRoundPlans := rfl
  have hmembers : ∀ name, .multi name [] ∉ vaultRound := by simp [vaultRound]
  refine ⟨hgrounded, hdeclared, hplans, hmembers,
    outputs_read_their_own_slots vaultCatalog "getRound" hgrounded hdeclared hplans hmembers, ?_⟩
  rw [decodeOutputs, hdeclared, hplans]
  rfl

end Catalog
end ContractAbi
