import ContractAbi.Proofs.SlotIsolation

/-!
# The layout of outputs

Outputs are planned from left to right, each behind the slots of those before it. So the ranges of
the plans follow each other without a gap, and only the last of them can be open. An output that has
no place makes the plan fail, and the leftmost such output is the one to blame.
-/
namespace ContractAbi

/-- Nothing follows an item of the kind. -/
def OnlyLast {α : Type} (kind : α → Prop) (items : List α) : Prop :=
  ∀ before item after, items = before ++ item :: after → kind item → after = []

/-- The output takes every slot to the end. -/
def ResolvedType.Repeats (output : ResolvedType) : Prop :=
  ∃ strategy, Strategy.select output = .ok strategy ∧ strategy.isRepeating = true

/-- Every output has a strategy, and only the last one may repeat. -/
structure Plannable (outputs : List ResolvedType) : Prop where
  selected : ∀ output ∈ outputs, ∃ strategy, Strategy.select output = .ok strategy
  onlyLast : OnlyLast ResolvedType.Repeats outputs

/-- What is wrong with an output behind others. That it follows a repeating one comes first,
whatever its own shape is. -/
inductive Offends (before : List ResolvedType) (output : ResolvedType) : ShapeFault → Prop
  | afterRepeating (h : ∃ earlier ∈ before, earlier.Repeats) :
      Offends before output ⟨output, .afterRepeating⟩
  | unselected {fault : ShapeFault} (h : ∀ earlier ∈ before, ¬ earlier.Repeats)
      (hselect : Strategy.select output = .error fault) : Offends before output fault

/-- The number of slots in a range, as far as it is fixed. -/
def Strategy.width (strategy : Strategy) : Nat :=
  strategy.span?.getD 0

/-- The plans of outputs that lie one behind the other from the first slot on. -/
structure LaidOut (outputs : List ResolvedType) (plans : List OutputPlan) : Prop where
  selected : List.Forall₂ (fun output plan => Strategy.select output = .ok plan.strategy) outputs plans
  firstSlot : ∀ before plan after, plans = before ++ plan :: after →
    plan.firstSlot = (before.map (·.strategy.width)).sum
  consecutive : ∀ before plan next after, plans = before ++ plan :: next :: after →
    ∃ width, plan.strategy.span? = some width ∧ next.firstSlot = plan.firstSlot + width
  openLast : OnlyLast (fun plan => plan.strategy.span? = none) plans
  disjoint : plans.Pairwise fun earlier later => ∀ index, earlier.Covers index → ¬ later.Covers index
  /-- No slot is left out, up to the end if an output takes them all. -/
  covers : ∀ index, (∃ plan ∈ plans, plan.Covers index) ↔
    index < (plans.map (·.strategy.width)).sum ∨ ∃ output ∈ outputs, output.Repeats

/-- What planning some outputs comes to. -/
structure PlannedExactly (outputs : List ResolvedType) : Prop where
  succeeds : (∃ plans, planOutputs outputs = .ok plans) ↔ Plannable outputs
  laidOut : ∀ plans, planOutputs outputs = .ok plans → LaidOut outputs plans
  prefixes : ∀ plans, planOutputs outputs = .ok plans →
    ∀ count, planOutputs (outputs.take count) = .ok (plans.take count)
  refuses : ∀ fault, planOutputs outputs = .error fault ↔
    ∃ before output after, outputs = before ++ output :: after ∧ Plannable before ∧
      Offends before output fault

section OnlyLast

variable {α β : Type} {kind : α → Prop} {other : β → Prop}

theorem onlyLast_nil : OnlyLast kind [] :=
  fun _ _ _ h => absurd h.symm (List.append_ne_nil_of_right_ne_nil _ (List.cons_ne_nil _ _))

theorem onlyLast_cons {first : α} {rest : List α} :
    OnlyLast kind (first :: rest) ↔ (kind first → rest = []) ∧ OnlyLast kind rest := by
  constructor
  · intro h
    refine ⟨h [] first rest rfl, fun before item after hsplit => ?_⟩
    exact h (first :: before) item after (congrArg (first :: ·) hsplit)
  · rintro ⟨hfirst, hrest⟩ before item after hsplit hkind
    cases before with
    | nil =>
      obtain ⟨rfl, rfl⟩ := List.cons.inj hsplit
      exact hfirst hkind
    | cons head before =>
      obtain ⟨rfl, htail⟩ := List.cons.inj hsplit
      exact hrest before item after htail hkind

theorem OnlyLast.take {items : List α} (h : OnlyLast kind items) (count : Nat) :
    OnlyLast kind (items.take count) := by
  intro before item after hsplit hkind
  have hall : items = before ++ item :: (after ++ items.drop count) := by
    rw [← List.cons_append, ← List.append_assoc, ← hsplit, List.take_append_drop]
  exact (List.append_eq_nil_iff.1 (h before item _ hall hkind)).1

/-- Lists whose items are of the kinds at the same places. -/
theorem onlyLast_iff_of_forall₂ {items : List α} {others : List β}
    (h : List.Forall₂ (fun item part => kind item ↔ other part) items others) :
    OnlyLast kind items ↔ OnlyLast other others := by
  induction h with
  | nil => exact iff_of_true onlyLast_nil onlyLast_nil
  | @cons item part items others hkind hrest ih =>
    rw [onlyLast_cons, onlyLast_cons, ih, hkind, ← List.length_eq_zero_iff, hrest.length_eq,
      List.length_eq_zero_iff]

theorem onlyLast_map {items : List β} {f : β → α} :
    OnlyLast kind (items.map f) ↔ OnlyLast (fun item => kind (f item)) items :=
  onlyLast_iff_of_forall₂ (List.forall₂_map_left_iff.2 (List.forall₂_same.2 fun _ _ => Iff.rfl))

end OnlyLast

namespace Strategy

theorem span?_eq_none_iff {strategy : Strategy} :
    strategy.span? = none ↔ strategy.isRepeating = true := by
  cases strategy <;> simp [span?, isRepeating]

theorem isRepeating_of_span {strategy : Strategy} {width : Nat} (h : strategy.span? = some width) :
    strategy.isRepeating = false := by
  rw [← Bool.not_eq_true, ← span?_eq_none_iff, h]
  exact Option.some_ne_none width

theorem width_of_span {strategy : Strategy} {width : Nat} (h : strategy.span? = some width) :
    strategy.width = width := by
  rw [Strategy.width, h]
  rfl

/-- The plans of strategies that follow each other from a slot on. -/
def placeFrom (slot : Nat) : List Strategy → List OutputPlan
  | [] => []
  | strategy :: rest => ⟨strategy, slot⟩ :: placeFrom (slot + strategy.width) rest

variable {slot : Nat} {strategies : List Strategy}

theorem map_strategy_placeFrom (slot : Nat) (strategies : List Strategy) :
    (placeFrom slot strategies).map (·.strategy) = strategies := by
  induction strategies generalizing slot with
  | nil => rfl
  | cons strategy rest ih => rw [placeFrom, List.map_cons, ih]

theorem take_placeFrom (slot count : Nat) (strategies : List Strategy) :
    (placeFrom slot strategies).take count = placeFrom slot (strategies.take count) := by
  induction strategies generalizing slot count with
  | nil => rw [placeFrom, List.take_nil, List.take_nil, placeFrom]
  | cons strategy rest ih =>
    cases count with
    | zero => rfl
    | succ count => rw [placeFrom, List.take_succ_cons, List.take_succ_cons, placeFrom, ih]

theorem firstSlot_of_placeFrom {before after : List OutputPlan} {plan : OutputPlan}
    (h : placeFrom slot strategies = before ++ plan :: after) :
    plan.firstSlot = slot + (before.map (·.strategy.width)).sum := by
  induction strategies generalizing slot before with
  | nil => exact absurd h.symm (List.append_ne_nil_of_right_ne_nil _ (List.cons_ne_nil _ _))
  | cons strategy rest ih =>
    rw [placeFrom] at h
    cases before with
    | nil =>
      obtain ⟨rfl, -⟩ := List.cons.inj h
      rfl
    | cons head before =>
      obtain ⟨rfl, htail⟩ := List.cons.inj h
      rw [ih htail, List.map_cons, List.sum_cons, Nat.add_assoc]

theorem le_firstSlot {plan : OutputPlan} (h : plan ∈ placeFrom slot strategies) :
    slot ≤ plan.firstSlot := by
  obtain ⟨before, after, hsplit⟩ := List.append_of_mem h
  rw [firstSlot_of_placeFrom hsplit]
  exact Nat.le_add_right _ _

theorem disjoint_placeFrom (h : OnlyLast (·.isRepeating = true) strategies) :
    (placeFrom slot strategies).Pairwise fun earlier later =>
      ∀ index, earlier.Covers index → ¬ later.Covers index := by
  induction strategies generalizing slot with
  | nil => exact .nil
  | cons strategy rest ih =>
    obtain ⟨hfirst, hrest⟩ := onlyLast_cons.1 h
    rw [placeFrom]
    refine .cons (fun later hlater index hearlier hcovers => ?_) (ih hrest)
    cases hspan : strategy.span? with
    | none =>
      rw [hfirst (span?_eq_none_iff.1 hspan)] at hlater
      exact absurd hlater List.not_mem_nil
    | some width =>
      have hbelow := ((OutputPlan.covers_iff hspan).1 hearlier).2
      have habove := (le_firstSlot hlater).trans hcovers.1
      rw [width_of_span hspan] at habove
      exact absurd hbelow (Nat.not_lt.2 habove)

theorem covers_placeFrom (h : OnlyLast (·.isRepeating = true) strategies) (index : Nat) :
    (∃ plan ∈ placeFrom slot strategies, plan.Covers index) ↔
      slot ≤ index ∧ (index < slot + (strategies.map (·.width)).sum ∨
        ∃ strategy ∈ strategies, strategy.isRepeating = true) := by
  induction strategies generalizing slot with
  | nil => simp [placeFrom]
  | cons strategy rest ih =>
    obtain ⟨hfirst, hrest⟩ := onlyLast_cons.1 h
    have hplans : (∃ plan ∈ placeFrom slot (strategy :: rest), plan.Covers index) ↔
        OutputPlan.Covers ⟨strategy, slot⟩ index ∨
          slot + strategy.width ≤ index ∧ (index < slot + strategy.width + (rest.map (·.width)).sum ∨
            ∃ other ∈ rest, other.isRepeating = true) := by
      rw [placeFrom, List.exists_mem_cons_iff, ih hrest]
    rw [hplans, List.exists_mem_cons_iff, List.map_cons, List.sum_cons]
    cases hspan : strategy.span? with
    | none =>
      have hcovers : OutputPlan.Covers ⟨strategy, slot⟩ index ↔ slot ≤ index :=
        OutputPlan.covers_iff_of_none hspan
      simp only [hcovers, span?_eq_none_iff.1 hspan, true_or, or_true, and_true]
      omega
    | some width =>
      have hcovers : OutputPlan.Covers ⟨strategy, slot⟩ index ↔ slot ≤ index ∧ index < slot + width :=
        OutputPlan.covers_iff hspan
      rw [hcovers, width_of_span hspan, isRepeating_of_span hspan]
      by_cases hopen : ∃ other ∈ rest, other.isRepeating = true
      · simp only [hopen, or_true, and_true]
        omega
      · simp only [hopen, Bool.false_eq_true, or_false]
        omega

end Strategy

section Planned

variable {outputs : List ResolvedType} {slot : Nat} {plans : List OutputPlan}

/-- The strategies that are selected for outputs. -/
abbrev Selects (outputs : List ResolvedType) (strategies : List Strategy) : Prop :=
  List.Forall₂ (fun output strategy => Strategy.select output = .ok strategy) outputs strategies

theorem ResolvedType.repeats_iff {output : ResolvedType} {strategy : Strategy}
    (h : Strategy.select output = .ok strategy) :
    output.Repeats ↔ strategy.isRepeating = true := by
  constructor
  · rintro ⟨other, hother, hrepeating⟩
    obtain rfl := Except.ok.inj (hother.symm.trans h)
    exact hrepeating
  · exact fun hrepeating => ⟨strategy, h, hrepeating⟩

theorem plannable_iff :
    Plannable outputs ↔ ∃ strategies, Selects outputs strategies ∧
      OnlyLast (·.isRepeating = true) strategies := by
  have hagree : ∀ strategies, Selects outputs strategies →
      (OnlyLast ResolvedType.Repeats outputs ↔ OnlyLast (·.isRepeating = true) strategies) :=
    fun strategies hselects => onlyLast_iff_of_forall₂
      (hselects.imp fun _ _ hselect => ResolvedType.repeats_iff hselect)
  constructor
  · rintro ⟨hselected, hlast⟩
    obtain ⟨strategies, hstrategies⟩ := exists_mapM_eq_ok hselected
    have hselects := forall₂_of_mapM hstrategies
    exact ⟨strategies, hselects, (hagree strategies hselects).1 hlast⟩
  · rintro ⟨strategies, hselects, hlast⟩
    refine ⟨fun output houtput => ?_, (hagree strategies hselects).2 hlast⟩
    obtain ⟨strategy, -, hselect⟩ := exists_of_forall₂_left hselects houtput
    exact ⟨strategy, hselect⟩

theorem plannable_cons {output : ResolvedType} {strategy : Strategy} {rest : List ResolvedType}
    (hselect : Strategy.select output = .ok strategy) :
    Plannable (output :: rest) ↔ (strategy.isRepeating = true → rest = []) ∧ Plannable rest := by
  have hall : (∀ other ∈ output :: rest, ∃ selected, Strategy.select other = .ok selected) ↔
      ∀ other ∈ rest, ∃ selected, Strategy.select other = .ok selected := by
    rw [List.forall_mem_cons]
    exact and_iff_right ⟨strategy, hselect⟩
  constructor
  · rintro ⟨hselected, hlast⟩
    rw [onlyLast_cons, ResolvedType.repeats_iff hselect] at hlast
    exact ⟨hlast.1, hall.1 hselected, hlast.2⟩
  · rintro ⟨hfirst, hselected, hlast⟩
    refine ⟨hall.2 hselected, onlyLast_cons.2 ⟨?_, hlast⟩⟩
    rwa [ResolvedType.repeats_iff hselect]

theorem planFrom_cons {output : ResolvedType} {strategy : Strategy} {rest : List ResolvedType}
    (hselect : Strategy.select output = .ok strategy) :
    planFrom (some slot) (output :: rest) =
      (planFrom (strategy.span?.map (slot + ·)) rest).map (⟨strategy, slot⟩ :: ·) := by
  rw [planFrom, hselect]
  rfl

/-- Outputs are planned if they have strategies that can follow each other, and at their places. -/
theorem planFrom_eq_ok_iff :
    planFrom (some slot) outputs = .ok plans ↔ ∃ strategies, Selects outputs strategies ∧
      OnlyLast (·.isRepeating = true) strategies ∧ plans = Strategy.placeFrom slot strategies := by
  induction outputs generalizing slot plans with
  | nil =>
    constructor
    · intro h
      obtain rfl := Except.ok.inj h
      exact ⟨[], .nil, onlyLast_nil, rfl⟩
    · rintro ⟨strategies, hselects, -, rfl⟩
      cases hselects
      rfl
  | cons output rest ih =>
    constructor
    · intro h
      obtain ⟨strategy, others, hselect, hothers, rfl⟩ := of_planFrom h
      cases hspan : strategy.span? with
      | none =>
        rw [hspan] at hothers
        obtain rfl := eq_nil_of_planFrom_none hothers
        obtain rfl := Except.ok.inj hothers
        exact ⟨[strategy], .cons hselect .nil, onlyLast_cons.2 ⟨fun _ => rfl, onlyLast_nil⟩, rfl⟩
      | some width =>
        rw [hspan] at hothers
        obtain ⟨strategies, hselects, hlast, rfl⟩ := ih.1 hothers
        refine ⟨strategy :: strategies, .cons hselect hselects, onlyLast_cons.2 ⟨?_, hlast⟩, ?_⟩
        · rw [Strategy.isRepeating_of_span hspan]
          exact fun h => absurd h Bool.false_ne_true
        · rw [Strategy.placeFrom, Strategy.width_of_span hspan]
    · rintro ⟨strategies, hselects, hlast, rfl⟩
      cases hselects with
      | @cons _ strategy _ strategies hselect hselects =>
        obtain ⟨hfirst, hrest⟩ := onlyLast_cons.1 hlast
        rw [planFrom_cons hselect]
        cases hspan : strategy.span? with
        | none =>
          obtain rfl := hfirst (Strategy.span?_eq_none_iff.1 hspan)
          cases hselects
          rfl
        | some width =>
          rw [Strategy.placeFrom, Strategy.width_of_span hspan, Option.map_some,
            ih.2 ⟨strategies, hselects, hrest, rfl⟩]
          rfl

theorem selected_placeFrom {strategies : List Strategy} (h : Selects outputs strategies) :
    List.Forall₂ (fun output plan => Strategy.select output = .ok plan.strategy) outputs
      (Strategy.placeFrom slot strategies) := by
  induction h generalizing slot with
  | nil => exact .nil
  | cons hselect _ ih => exact .cons hselect ih

theorem laidOut_placeFrom {strategies : List Strategy} (hselects : Selects outputs strategies)
    (hlast : OnlyLast (·.isRepeating = true) strategies) :
    LaidOut outputs (Strategy.placeFrom 0 strategies) := by
  have hstrategies := Strategy.map_strategy_placeFrom 0 strategies
  have hfirst : ∀ before plan after, Strategy.placeFrom 0 strategies = before ++ plan :: after →
      plan.firstSlot = (before.map (·.strategy.width)).sum := by
    intro before plan after hsplit
    rw [Strategy.firstSlot_of_placeFrom hsplit, Nat.zero_add]
  have hopen : OnlyLast (fun plan => plan.strategy.span? = none) (Strategy.placeFrom 0 strategies) := by
    simp only [Strategy.span?_eq_none_iff]
    rw [← hstrategies] at hlast
    exact onlyLast_map.1 hlast
  refine ⟨selected_placeFrom hselects, hfirst, ?_, hopen, Strategy.disjoint_placeFrom hlast,
    fun index => ?_⟩
  · intro before plan next after hsplit
    cases hspan : plan.strategy.span? with
    | none => exact absurd (hopen before plan _ hsplit hspan) (List.cons_ne_nil _ _)
    | some width =>
      have hnext : Strategy.placeFrom 0 strategies = (before ++ [plan]) ++ next :: after := by
        rw [hsplit, List.append_assoc, List.singleton_append]
      refine ⟨width, rfl, ?_⟩
      rw [hfirst _ _ _ hnext, hfirst _ _ _ hsplit, List.map_append, List.sum_append, List.map_singleton,
        List.sum_singleton, Strategy.width_of_span hspan]
  · have hwidths : (Strategy.placeFrom 0 strategies).map (·.strategy.width) =
        strategies.map (·.width) := by
      rw [← congrArg (List.map Strategy.width) hstrategies, List.map_map]
      rfl
    have hrepeats : (∃ strategy ∈ strategies, strategy.isRepeating = true) ↔
        ∃ output ∈ outputs, output.Repeats := by
      constructor
      · rintro ⟨strategy, hstrategy, hrepeating⟩
        obtain ⟨output, houtput, hselect⟩ := exists_of_forall₂_right hselects hstrategy
        exact ⟨output, houtput, strategy, hselect, hrepeating⟩
      · rintro ⟨output, houtput, hrepeats⟩
        obtain ⟨strategy, hstrategy, hselect⟩ := exists_of_forall₂_left hselects houtput
        exact ⟨strategy, hstrategy, (ResolvedType.repeats_iff hselect).1 hrepeats⟩
    rw [Strategy.covers_placeFrom hlast, hwidths, hrepeats, Nat.zero_add]
    exact and_iff_right (Nat.zero_le index)

theorem plannable_nil : Plannable [] :=
  ⟨fun _ h => absurd h List.not_mem_nil, onlyLast_nil⟩

/-- An output in front that does not repeat has no part in the fault. -/
theorem offends_cons {first output : ResolvedType} {before : List ResolvedType} {fault : ShapeFault}
    (hfirst : ¬ first.Repeats) : Offends (first :: before) output fault ↔ Offends before output fault := by
  constructor
  · rintro (⟨⟨earlier, hmem, hrepeats⟩⟩ | ⟨hnone, hselect⟩)
    · rcases List.mem_cons.1 hmem with rfl | hmem
      · exact absurd hrepeats hfirst
      · exact .afterRepeating ⟨earlier, hmem, hrepeats⟩
    · exact .unselected (fun earlier hmem => hnone earlier (List.mem_cons_of_mem _ hmem)) hselect
  · rintro (⟨⟨earlier, hmem, hrepeats⟩⟩ | ⟨hnone, hselect⟩)
    · exact .afterRepeating ⟨earlier, List.mem_cons_of_mem _ hmem, hrepeats⟩
    · exact .unselected (List.forall_mem_cons.2 ⟨hfirst, hnone⟩) hselect

/-- A plan fails for an output behind outputs that can be planned. -/
theorem offends_of_planFrom {fault : ShapeFault} (h : planFrom (some slot) outputs = .error fault) :
    ∃ before output after, outputs = before ++ output :: after ∧ Plannable before ∧
      Offends before output fault := by
  induction outputs generalizing slot with
  | nil => cases h
  | cons first rest ih =>
    cases hselect : Strategy.select first with
    | error cause =>
      rw [planFrom, hselect] at h
      obtain rfl := Except.error.inj h
      exact ⟨[], first, rest, rfl, plannable_nil,
        .unselected (fun _ hmem => absurd hmem List.not_mem_nil) hselect⟩
    | ok strategy =>
      rw [planFrom_cons hselect] at h
      have hrest := error_of_map_eq_error h
      cases hspan : strategy.span? with
      | none =>
        have hrepeats : first.Repeats := ⟨strategy, hselect, Strategy.span?_eq_none_iff.1 hspan⟩
        rw [hspan] at hrest
        cases rest with
        | nil => cases hrest
        | cons output after =>
          obtain rfl := Except.error.inj hrest
          exact ⟨[first], output, after, rfl, (plannable_cons hselect).2 ⟨fun _ => rfl, plannable_nil⟩,
            .afterRepeating ⟨first, List.mem_cons_self, hrepeats⟩⟩
      | some width =>
        have hclosed := Strategy.isRepeating_of_span hspan
        rw [hspan] at hrest
        obtain ⟨before, output, after, rfl, hbefore, hoffends⟩ := ih hrest
        refine ⟨first :: before, output, after, rfl, (plannable_cons hselect).2 ⟨?_, hbefore⟩,
          (offends_cons ?_).2 hoffends⟩
        · rw [hclosed]
          exact fun h => absurd h Bool.false_ne_true
        · rw [ResolvedType.repeats_iff hselect, hclosed]
          exact Bool.false_ne_true

theorem planFrom_of_offends {before after : List ResolvedType} {output : ResolvedType}
    {fault : ShapeFault} (hbefore : Plannable before) (h : Offends before output fault) :
    planFrom (some slot) (before ++ output :: after) = .error fault := by
  induction before generalizing slot with
  | nil =>
    cases h with
    | afterRepeating h =>
      obtain ⟨earlier, hmem, -⟩ := h
      exact absurd hmem List.not_mem_nil
    | unselected _ hselect =>
      rw [List.nil_append, planFrom, hselect]
      rfl
  | cons first rest ih =>
    obtain ⟨strategy, hselect⟩ := hbefore.selected first List.mem_cons_self
    obtain ⟨hlast, hrest⟩ := (plannable_cons hselect).1 hbefore
    rw [List.cons_append, planFrom_cons hselect]
    cases hspan : strategy.span? with
    | none =>
      have hrepeating := Strategy.span?_eq_none_iff.1 hspan
      obtain rfl := hlast hrepeating
      cases h with
      | afterRepeating _ => rfl
      | unselected hnone _ =>
        exact absurd ⟨strategy, hselect, hrepeating⟩ (hnone first List.mem_cons_self)
    | some width =>
      have hclosed : ¬ first.Repeats := by
        rw [ResolvedType.repeats_iff hselect, Strategy.isRepeating_of_span hspan]
        exact Bool.false_ne_true
      rw [Option.map_some, ih hrest ((offends_cons hclosed).1 h)]
      rfl

end Planned

/-- Outputs are planned if each has a strategy and only the last repeats. Their ranges follow each
other from the first slot on, and otherwise the leftmost output without a place is to blame. -/
theorem outputs_are_planned_without_gaps (outputs : List ResolvedType) : PlannedExactly outputs where
  succeeds := by
    rw [plannable_iff]
    constructor
    · rintro ⟨plans, hplans⟩
      obtain ⟨strategies, hselects, hlast, -⟩ := planFrom_eq_ok_iff.1 hplans
      exact ⟨strategies, hselects, hlast⟩
    · rintro ⟨strategies, hselects, hlast⟩
      exact ⟨_, planFrom_eq_ok_iff.2 ⟨strategies, hselects, hlast, rfl⟩⟩
  laidOut plans hplans := by
    obtain ⟨strategies, hselects, hlast, rfl⟩ := planFrom_eq_ok_iff.1 hplans
    exact laidOut_placeFrom hselects hlast
  prefixes plans hplans count := by
    obtain ⟨strategies, hselects, hlast, rfl⟩ := planFrom_eq_ok_iff.1 hplans
    rw [Strategy.take_placeFrom]
    exact planFrom_eq_ok_iff.2
      ⟨strategies.take count, List.forall₂_take count hselects, hlast.take count, rfl⟩
  refuses fault := by
    constructor
    · exact offends_of_planFrom
    · rintro ⟨before, output, after, rfl, hbefore, hoffends⟩
      exact planFrom_of_offends hbefore hoffends

/-- Behind a repeating output the shape of the next one does not matter. -/
example : planOutputs [.variadic (.primitive .u8), .list (.list (.primitive .u8))] =
    .error ⟨.list (.list (.primitive .u8)), .afterRepeating⟩ := rfl

end ContractAbi
