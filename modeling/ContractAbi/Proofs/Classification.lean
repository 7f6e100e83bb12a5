import ContractAbi.Proofs.Brackets
import ContractAbi.Proofs.Contracts

/-!
# The order of classification

What is wrong with the structure of a declaration is found before any of its types is resolved, so
it leaves the context alone. Then the inputs are resolved, the outputs, and at last the outputs of a
readonly endpoint are planned. The first fault on that way is the one that is reported. What the
outputs of a mutable endpoint note is forgotten, whether they can be resolved or not.
-/
namespace ContractAbi

/-- Nothing is left of the name without the blanks around it. -/
def IsBlankText (name : String) : Prop :=
  Text.trim name.toList = []

namespace EndpointDecl

def inputTypes (decl : EndpointDecl) : List String :=
  decl.inputs.map (·.type)

def outputTypes (decl : EndpointDecl) : List String :=
  decl.outputs.map (·.type)

/-- The places of the inputs without a name. -/
def blankInputs (decl : EndpointDecl) : Set Nat :=
  {index | ∃ input, decl.inputs[index]? = some input ∧ IsBlankText input.name}

/-- Some of the outputs have a name, but not all. -/
def MixesOutputs (decl : EndpointDecl) : Prop :=
  (∃ output ∈ decl.outputs, ¬ IsBlankText output.name) ∧ ∃ output ∈ decl.outputs, IsBlankText output.name

/-- The names of the inputs and the outputs are in order. -/
structure WellNamed (decl : EndpointDecl) : Prop where
  inputs : decl.blankInputs = ∅
  outputs : ¬ decl.MixesOutputs

/-- The inputs once their types are resolved. -/
def inputsOf (decl : EndpointDecl) (types : List ResolvedType) : List Input :=
  decl.inputs.zipWith (fun input type => ⟨input.name, type⟩) types

def outputsOf (decl : EndpointDecl) (types : List ResolvedType) : List Output :=
  decl.outputs.zipWith (fun output type => ⟨outputName? output.name, type, output.multiResult⟩) types

/-- The endpoint that a declaration stands for. -/
def toEndpoint (decl : EndpointDecl) (kind : EndpointKind) (inputs outputs : List ResolvedType)
    (plans : List OutputPlan) : Endpoint where
  name := decl.name
  methodName := Identifier.method decl.name
  docs := decl.docs
  kind := kind
  onlyOwner := decl.onlyOwner
  acceptsTokenPayment := decl.acceptsTokenPayment
  inputs := decl.inputsOf inputs
  outputs := decl.outputsOf outputs
  plans := plans

end EndpointDecl

/-- Expressions are resolved one after the other, each in the context that the last one left. -/
inductive Resolves (types : NameMap TypeDefinition) :
    Context → List String → List ResolvedType → Context → Prop
  | nil (context : Context) : Resolves types context [] [] context
  | cons {before middle after : Context} {expression : String} {type : ResolvedType}
      {rest : List String} {others : List ResolvedType}
      (first : (resolve types expression).run before = .ok type middle)
      (hrest : Resolves types middle rest others after) :
      Resolves types before (expression :: rest) (type :: others) after

/-- The first of the expressions that is not resolved has the fault. -/
def FirstFault (types : NameMap TypeDefinition) (start : Context) (expressions : List String)
    (fault : ConversionFault) (after : Context) : Prop :=
  ∃ before expression rest resolved middle, expressions = before ++ expression :: rest ∧
    Resolves types start before resolved middle ∧
    (resolve types expression).run middle = .error fault after

/-- The result of a classification and the context it leaves. -/
inductive Classifies (types : NameMap TypeDefinition) (decl : EndpointDecl) (context : Context) :
    EStateM.Result ConversionFault Context (Option Endpoint) → Prop
  | ignored {word : String} (h : decl.mutability = .other word) :
      Classifies types decl context (.ok none context)
  | unnamedInput {index : Nat} (hknown : ∀ word, decl.mutability ≠ .other word)
      (hleast : IsLeast decl.blankInputs index) :
      Classifies types decl context (.error (.unnamedInput decl.name index) context)
  | mixedOutputs (hknown : ∀ word, decl.mutability ≠ .other word) (hinputs : decl.blankInputs = ∅)
      (hmixed : decl.MixesOutputs) :
      Classifies types decl context (.error (.mixedOutputs decl.name) context)
  | unresolvedInput {fault : ConversionFault} {after : Context}
      (hknown : ∀ word, decl.mutability ≠ .other word) (hnames : decl.WellNamed)
      (hfault : FirstFault types context decl.inputTypes fault after) :
      Classifies types decl context (.error fault after)
  | unresolvedOutput {inputs : List ResolvedType} {middle after : Context} {fault : ConversionFault}
      (hreadonly : decl.mutability = .readonly) (hnames : decl.WellNamed)
      (hinputs : Resolves types context decl.inputTypes inputs middle)
      (hfault : FirstFault types middle decl.outputTypes fault after) :
      Classifies types decl context (.error fault after)
  | unplanned {inputs outputs : List ResolvedType} {middle after : Context} {fault : ShapeFault}
      (hreadonly : decl.mutability = .readonly) (hnames : decl.WellNamed)
      (hinputs : Resolves types context decl.inputTypes inputs middle)
      (houtputs : Resolves types middle decl.outputTypes outputs after)
      (hfault : planOutputs outputs = .error fault) :
      Classifies types decl context (.error (.undecodable (.outputsOf decl.name) fault) after)
  | readonly {inputs outputs : List ResolvedType} {plans : List OutputPlan} {middle after : Context}
      (hreadonly : decl.mutability = .readonly) (hnames : decl.WellNamed)
      (hinputs : Resolves types context decl.inputTypes inputs middle)
      (houtputs : Resolves types middle decl.outputTypes outputs after)
      (hplans : planOutputs outputs = .ok plans) :
      Classifies types decl context (.ok (some (decl.toEndpoint .readonly inputs outputs plans)) after)
  | unresolvedMutableOutput {inputs : List ResolvedType} {middle forgotten : Context}
      {fault : ConversionFault} (hmutable : decl.mutability = .mutable) (hnames : decl.WellNamed)
      (hinputs : Resolves types context decl.inputTypes inputs middle)
      (hfault : FirstFault types middle decl.outputTypes fault forgotten) :
      Classifies types decl context (.error fault middle)
  | mutable {inputs outputs : List ResolvedType} {middle forgotten : Context}
      (hmutable : decl.mutability = .mutable) (hnames : decl.WellNamed)
      (hinputs : Resolves types context decl.inputTypes inputs middle)
      (houtputs : Resolves types middle decl.outputTypes outputs forgotten) :
      Classifies types decl context (.ok (some (decl.toEndpoint .mutable inputs outputs [])) middle)

/-- What classifying a declaration in a context comes to. -/
structure ClassifiedInOrder (types : NameMap TypeDefinition) (decl : EndpointDecl) (context : Context) :
    Prop where
  result : ∀ result, (classify types decl).run context = result ↔ Classifies types decl context result
  plansOfReadonly : ∀ endpoint after, (classify types decl).run context = .ok (some endpoint) after →
    decl.mutability = .readonly → endpoint.outputs.length = decl.outputs.length ∧
      endpoint.plans.length = decl.outputs.length
  plansOfMutable : ∀ endpoint after, (classify types decl).run context = .ok (some endpoint) after →
    decl.mutability = .mutable → endpoint.plans = []

theorem isBlankName_iff {name : String} : isBlankName name = true ↔ IsBlankText name := by
  rw [isBlankName, Text.allBlank, List.all_eq_true, IsBlankText]
  constructor
  · intro h
    have hstart : Text.trimStart name.toList = [] := List.dropWhile_eq_nil_iff.2 h
    rw [Text.trim, hstart]
    rfl
  · intro h c hc
    by_contra hblank
    have hmem := (Text.mem_trim (Bool.eq_false_of_not_eq_true hblank)).2 hc
    rw [h] at hmem
    exact List.not_mem_nil hmem

namespace EndpointDecl

variable {decl : EndpointDecl} {index : Nat}

theorem findIdx?_eq_some_iff :
    decl.inputs.findIdx? (isBlankName ·.name) = some index ↔ IsLeast decl.blankInputs index := by
  rw [List.findIdx?_eq_some_iff_getElem]
  constructor
  · rintro ⟨hindex, hblank, hearlier⟩
    refine ⟨⟨_, List.getElem?_eq_getElem hindex, isBlankName_iff.1 hblank⟩, ?_⟩
    rintro other ⟨input, hinput, hother⟩
    obtain ⟨hlength, rfl⟩ := List.getElem?_eq_some_iff.1 hinput
    by_contra hlt
    exact hearlier other (Nat.lt_of_not_le hlt) (isBlankName_iff.2 hother)
  · rintro ⟨⟨input, hinput, hblank⟩, hleast⟩
    obtain ⟨hindex, rfl⟩ := List.getElem?_eq_some_iff.1 hinput
    refine ⟨hindex, isBlankName_iff.2 hblank, fun other hlt hother => ?_⟩
    have hle := hleast ⟨_, List.getElem?_eq_getElem (hlt.trans hindex), isBlankName_iff.1 hother⟩
    exact absurd hlt (Nat.not_lt.2 hle)

theorem findIdx?_eq_none_iff :
    decl.inputs.findIdx? (isBlankName ·.name) = none ↔ decl.blankInputs = ∅ := by
  rw [List.findIdx?_eq_none_iff, Set.eq_empty_iff_forall_notMem]
  constructor
  · rintro h other ⟨input, hinput, hblank⟩
    have hnamed := h input (List.mem_of_getElem? hinput)
    rw [isBlankName_iff.2 hblank] at hnamed
    cases hnamed
  · intro h input hinput
    obtain ⟨other, hother⟩ := List.mem_iff_getElem?.1 hinput
    by_contra hblank
    exact h other ⟨input, hother, isBlankName_iff.1 (Bool.eq_true_of_not_eq_false hblank)⟩

/-- Some but not all are named if the count of the named ones is neither zero nor full. -/
theorem mixesOutputs_iff :
    decl.MixesOutputs ↔ (decl.outputs.filter (!isBlankName ·.name)).length ≠ 0 ∧
      (decl.outputs.filter (!isBlankName ·.name)).length ≠ decl.outputs.length := by
  have hnamed : ∀ output : OutputDecl, (!isBlankName output.name) = true ↔ ¬ IsBlankText output.name := by
    intro output
    rw [Bool.not_eq_true', ← Bool.not_eq_true, isBlankName_iff]
  rw [ne_eq, List.length_eq_zero_iff, List.filter_eq_nil_iff, ne_eq, List.length_filter_eq_length_iff]
  simp only [hnamed, MixesOutputs, not_forall, not_not, exists_prop]

theorem checkNames_of_isLeast (h : IsLeast decl.blankInputs index) :
    decl.checkNames = .error (.unnamedInput decl.name index) := by
  rw [checkNames, findIdx?_eq_some_iff.2 h]

theorem checkNames_of_mixed (hinputs : decl.blankInputs = ∅) (hmixed : decl.MixesOutputs) :
    decl.checkNames = .error (.mixedOutputs decl.name) := by
  rw [checkNames, findIdx?_eq_none_iff.2 hinputs]
  exact if_pos (mixesOutputs_iff.1 hmixed)

theorem checkNames_of_wellNamed (h : decl.WellNamed) : decl.checkNames = .ok () := by
  rw [checkNames, findIdx?_eq_none_iff.2 h.inputs]
  exact if_neg (mt mixesOutputs_iff.2 h.outputs)

theorem named_cases (decl : EndpointDecl) : (∃ index, IsLeast decl.blankInputs index) ∨
    decl.blankInputs = ∅ ∧ decl.MixesOutputs ∨ decl.WellNamed := by
  cases hblank : decl.inputs.findIdx? (isBlankName ·.name) with
  | some index => exact .inl ⟨index, findIdx?_eq_some_iff.1 hblank⟩
  | none =>
    have hinputs := findIdx?_eq_none_iff.1 hblank
    by_cases hmixed : decl.MixesOutputs
    · exact .inr (.inl ⟨hinputs, hmixed⟩)
    · exact .inr (.inr ⟨hinputs, hmixed⟩)

end EndpointDecl

section Expressions

variable {types : NameMap TypeDefinition} {before middle after : Context} {fault : ConversionFault}
variable {expression : String} {rest : List String}

theorem firstFault_of_error (h : (resolve types expression).run before = .error fault after) :
    FirstFault types before (expression :: rest) fault after :=
  ⟨[], expression, rest, [], before, rfl, .nil before, h⟩

theorem firstFault_of_ok {type : ResolvedType}
    (h : (resolve types expression).run before = .ok type middle)
    (hrest : FirstFault types middle rest fault after) :
    FirstFault types before (expression :: rest) fault after := by
  obtain ⟨left, other, right, resolved, last, rfl, hresolved, hfault⟩ := hrest
  exact ⟨expression :: left, other, right, type :: resolved, last, rfl, .cons h hresolved, hfault⟩

theorem of_firstFault (h : FirstFault types before (expression :: rest) fault after) :
    (resolve types expression).run before = .error fault after ∨
      ∃ type middle, (resolve types expression).run before = .ok type middle ∧
        FirstFault types middle rest fault after := by
  obtain ⟨left, other, right, resolved, last, hsplit, hresolved, hfault⟩ := h
  cases hresolved with
  | nil =>
    obtain ⟨rfl, rfl⟩ := List.cons.inj hsplit
    exact .inl hfault
  | cons hfirst hrest =>
    obtain ⟨rfl, rfl⟩ := List.cons.inj hsplit
    exact .inr ⟨_, _, hfirst, _, other, right, _, last, rfl, hrest, hfault⟩

theorem not_firstFault_nil : ¬ FirstFault types before [] fault after := by
  rintro ⟨left, other, right, resolved, last, hsplit, -⟩
  exact List.append_ne_nil_of_right_ne_nil left (List.cons_ne_nil other right) hsplit.symm

/-- Either all of the types can be resolved, or there is a first fault. -/
theorem resolves_or_firstFault (types : NameMap TypeDefinition) (before : Context)
    (expressions : List String) :
    (∃ resolved after, Resolves types before expressions resolved after) ∨
      ∃ fault after, FirstFault types before expressions fault after := by
  induction expressions generalizing before with
  | nil => exact .inl ⟨[], before, .nil before⟩
  | cons expression rest ih =>
    cases hfirst : (resolve types expression).run before with
    | error fault after => exact .inr ⟨fault, after, firstFault_of_error hfirst⟩
    | ok type middle =>
      obtain ⟨resolved, after, hrest⟩ | ⟨fault, after, hrest⟩ := ih middle
      · exact .inl ⟨type :: resolved, after, .cons hfirst hrest⟩
      · exact .inr ⟨fault, after, firstFault_of_ok hfirst hrest⟩

/-- Steps that resolve the types of some items in order and keep the rest of each item. -/
structure Collects {α β : Type} (types : NameMap TypeDefinition) (expression : α → String)
    (make : α → ResolvedType → β) (collect : List α → Resolve (List β)) : Prop where
  nil : collect [] = pure []
  cons : ∀ item rest, collect (item :: rest) = do
    let type ← resolve types (expression item)
    return make item type :: (← collect rest)

namespace Collects

variable {α β : Type} {expressionOf : α → String} {make : α → ResolvedType → β}
variable {collect : List α → Resolve (List β)} {items : List α}

theorem run_of_resolves (h : Collects types expressionOf make collect) {resolved : List ResolvedType}
    (hresolved : Resolves types before (items.map expressionOf) resolved after) :
    (collect items).run before = .ok (items.zipWith make resolved) after := by
  induction items generalizing before resolved with
  | nil =>
    cases hresolved
    rw [h.nil]
    rfl
  | cons item rest ih =>
    cases hresolved with
    | cons hfirst hrest =>
      rw [h.cons, EStateM.run_bind, hfirst]
      simp only [EStateM.run_bind, ih hrest]
      rfl

theorem run_of_firstFault (h : Collects types expressionOf make collect)
    (hfault : FirstFault types before (items.map expressionOf) fault after) :
    (collect items).run before = .error fault after := by
  induction items generalizing before with
  | nil => exact absurd hfault not_firstFault_nil
  | cons item rest ih =>
    rw [h.cons, EStateM.run_bind]
    obtain herror | ⟨type, middle, hfirst, hrest⟩ := of_firstFault hfault
    · rw [herror]
    · rw [hfirst]
      simp only [EStateM.run_bind, ih hrest]

end Collects

theorem collects_resolveInputs (types : NameMap TypeDefinition) :
    Collects types InputDecl.type (fun input type => ⟨input.name, type⟩) (resolveInputs types) :=
  ⟨rfl, fun _ _ => rfl⟩

theorem collects_resolveOutputs (types : NameMap TypeDefinition) :
    Collects types OutputDecl.type
      (fun output type => ⟨outputName? output.name, type, output.multiResult⟩)
      (resolveOutputs types) :=
  ⟨rfl, fun _ _ => rfl⟩

theorem Resolves.length_eq {resolved : List ResolvedType} {expressions : List String}
    (h : Resolves types before expressions resolved after) : resolved.length = expressions.length := by
  induction h with
  | nil => rfl
  | cons _ _ ih => rw [List.length_cons, List.length_cons, ih]

end Expressions

theorem Resolve.run_aside_of_ok {α : Type} {step : Resolve α} {before after : Context} {value : α}
    (h : step.run before = .ok value after) : (aside step).run before = .ok value before := by
  simp only [EStateM.run, aside] at h ⊢
  rw [h]

theorem Resolve.run_aside_of_error {α : Type} {step : Resolve α} {before after : Context}
    {fault : ConversionFault} (h : step.run before = .error fault after) :
    (aside step).run before = .error fault before := by
  simp only [EStateM.run, aside] at h ⊢
  rw [h]

section Steps

variable {types : NameMap TypeDefinition} {decl : EndpointDecl} {context middle after : Context}
variable {inputs outputs : List ResolvedType} {fault : ConversionFault}

theorem run_classify_of_other {word : String} (h : decl.mutability = .other word) :
    (classify types decl).run context = .ok none context := by
  have hkind : decl.kind? = none := by rw [EndpointDecl.kind?, h]
  rw [classify, hkind]
  rfl

theorem exists_kind (h : ∀ word, decl.mutability ≠ .other word) : ∃ kind, decl.kind? = some kind := by
  rw [EndpointDecl.kind?]
  cases hmutability : decl.mutability with
  | readonly => exact ⟨.readonly, rfl⟩
  | mutable => exact ⟨.mutable, rfl⟩
  | other word => exact absurd hmutability (h word)

/-- A fault of the names is reported at once. -/
theorem run_classify_of_names (hknown : ∀ word, decl.mutability ≠ .other word)
    (h : decl.checkNames = .error fault) :
    (classify types decl).run context = .error fault context := by
  obtain ⟨kind, hkind⟩ := exists_kind hknown
  rw [classify, hkind]
  simp only [EStateM.run_bind, classifyAs, h]
  rfl

theorem run_classify_of_inputs (hknown : ∀ word, decl.mutability ≠ .other word)
    (hnames : decl.WellNamed) (h : FirstFault types context decl.inputTypes fault after) :
    (classify types decl).run context = .error fault after := by
  obtain ⟨kind, hkind⟩ := exists_kind hknown
  rw [classify, hkind]
  simp only [EStateM.run_bind, classifyAs, EndpointDecl.checkNames_of_wellNamed hnames,
    (collects_resolveInputs types).run_of_firstFault h]

/-- With its inputs resolved, a declaration is classified as its outputs are. -/
theorem run_classify_of_outputs {kind : EndpointKind} (hkind : decl.kind? = some kind)
    (hnames : decl.WellNamed) (hinputs : Resolves types context decl.inputTypes inputs middle) :
    (classify types decl).run context =
      match (classifyOutputs types decl kind).run middle with
      | .ok (outputs, plans) after =>
        .ok (some { decl.toEndpoint kind inputs [] plans with outputs }) after
      | .error fault after => .error fault after := by
  rw [classify, hkind]
  simp only [EStateM.run_bind, classifyAs, EndpointDecl.checkNames_of_wellNamed hnames,
    (collects_resolveInputs types).run_of_resolves hinputs]
  cases (classifyOutputs types decl kind).run middle <;> rfl

theorem length_resolvedOutputs (h : Resolves types middle decl.outputTypes outputs after) :
    outputs.length = decl.outputs.length := by
  rw [h.length_eq, EndpointDecl.outputTypes, List.length_map]

theorem map_type_outputsOf (h : Resolves types middle decl.outputTypes outputs after) :
    (decl.outputsOf outputs).map (·.type) = outputs := by
  rw [EndpointDecl.outputsOf, List.map_zipWith]
  exact (List.map_zipWith (f := Prod.snd) (g := Prod.mk)).symm.trans
    (List.map_snd_zip (length_resolvedOutputs h).le)

theorem run_resolveOutputs (h : Resolves types middle decl.outputTypes outputs after) :
    (resolveOutputs types decl.outputs).run middle = .ok (decl.outputsOf outputs) after :=
  (collects_resolveOutputs types).run_of_resolves h

theorem run_resolveOutputs_of_fault (h : FirstFault types middle decl.outputTypes fault after) :
    (resolveOutputs types decl.outputs).run middle = .error fault after :=
  (collects_resolveOutputs types).run_of_firstFault h

/-- Outputs that are decoded are planned in the context that they leave. -/
theorem run_classifyOutputs_readonly
    (h : Resolves types middle decl.outputTypes outputs after) :
    (classifyOutputs types decl .readonly).run middle =
      match planOutputs outputs with
      | .ok plans => .ok (decl.outputsOf outputs, plans) after
      | .error shape => .error (.undecodable (.outputsOf decl.name) shape) after := by
  rw [classifyOutputs]
  simp only [EStateM.run_bind, run_resolveOutputs h, planOutputsOf, map_type_outputsOf h]
  cases planOutputs outputs <;> rfl

theorem run_classifyOutputs_readonly_of_fault
    (h : FirstFault types middle decl.outputTypes fault after) :
    (classifyOutputs types decl .readonly).run middle = .error fault after := by
  rw [classifyOutputs]
  simp only [EStateM.run_bind, run_resolveOutputs_of_fault h]

/-- Other outputs leave the context as it was. -/
theorem run_classifyOutputs_mutable (h : Resolves types middle decl.outputTypes outputs after) :
    (classifyOutputs types decl .mutable).run middle = .ok (decl.outputsOf outputs, []) middle := by
  rw [classifyOutputs]
  simp only [EStateM.run_bind, Resolve.run_aside_of_ok (run_resolveOutputs h)]
  rfl

theorem run_classifyOutputs_mutable_of_fault
    (h : FirstFault types middle decl.outputTypes fault after) :
    (classifyOutputs types decl .mutable).run middle = .error fault middle := by
  rw [classifyOutputs]
  simp only [EStateM.run_bind, Resolve.run_aside_of_error (run_resolveOutputs_of_fault h)]

end Steps

section Classified

variable {types : NameMap TypeDefinition} {decl : EndpointDecl} {context : Context}
variable {result : EStateM.Result ConversionFault Context (Option Endpoint)}

theorem EndpointDecl.kind?_of_readonly (h : decl.mutability = .readonly) :
    decl.kind? = some .readonly := by
  rw [kind?, h]

theorem EndpointDecl.kind?_of_mutable (h : decl.mutability = .mutable) :
    decl.kind? = some .mutable := by
  rw [kind?, h]

theorem run_eq_of_classifies (h : Classifies types decl context result) :
    (classify types decl).run context = result := by
  cases h with
  | ignored h => exact run_classify_of_other h
  | unnamedInput hknown hleast =>
    exact run_classify_of_names hknown (EndpointDecl.checkNames_of_isLeast hleast)
  | mixedOutputs hknown hinputs hmixed =>
    exact run_classify_of_names hknown (EndpointDecl.checkNames_of_mixed hinputs hmixed)
  | unresolvedInput hknown hnames hfault => exact run_classify_of_inputs hknown hnames hfault
  | unresolvedOutput hreadonly hnames hinputs hfault =>
    rw [run_classify_of_outputs (EndpointDecl.kind?_of_readonly hreadonly) hnames hinputs,
      run_classifyOutputs_readonly_of_fault hfault]
  | unplanned hreadonly hnames hinputs houtputs hfault =>
    rw [run_classify_of_outputs (EndpointDecl.kind?_of_readonly hreadonly) hnames hinputs,
      run_classifyOutputs_readonly houtputs, hfault]
  | readonly hreadonly hnames hinputs houtputs hplans =>
    rw [run_classify_of_outputs (EndpointDecl.kind?_of_readonly hreadonly) hnames hinputs,
      run_classifyOutputs_readonly houtputs, hplans]
    rfl
  | unresolvedMutableOutput hmutable hnames hinputs hfault =>
    rw [run_classify_of_outputs (EndpointDecl.kind?_of_mutable hmutable) hnames hinputs,
      run_classifyOutputs_mutable_of_fault hfault]
  | mutable hmutable hnames hinputs houtputs =>
    rw [run_classify_of_outputs (EndpointDecl.kind?_of_mutable hmutable) hnames hinputs,
      run_classifyOutputs_mutable houtputs]
    rfl

/-- With its inputs resolved, a readonly declaration goes one of three ways. -/
theorem classifies_readonly (hreadonly : decl.mutability = .readonly) (hnames : decl.WellNamed)
    {inputs : List ResolvedType} {middle : Context}
    (hinputs : Resolves types context decl.inputTypes inputs middle) :
    ∃ result, Classifies types decl context result := by
  obtain ⟨outputs, after, houtputs⟩ | ⟨fault, after, hfault⟩ :=
    resolves_or_firstFault types middle decl.outputTypes
  · cases hplans : planOutputs outputs with
    | ok plans => exact ⟨_, .readonly hreadonly hnames hinputs houtputs hplans⟩
    | error fault => exact ⟨_, .unplanned hreadonly hnames hinputs houtputs hplans⟩
  · exact ⟨_, .unresolvedOutput hreadonly hnames hinputs hfault⟩

theorem classifies_mutable (hmutable : decl.mutability = .mutable) (hnames : decl.WellNamed)
    {inputs : List ResolvedType} {middle : Context}
    (hinputs : Resolves types context decl.inputTypes inputs middle) :
    ∃ result, Classifies types decl context result := by
  obtain ⟨outputs, forgotten, houtputs⟩ | ⟨fault, forgotten, hfault⟩ :=
    resolves_or_firstFault types middle decl.outputTypes
  · exact ⟨_, .mutable hmutable hnames hinputs houtputs⟩
  · exact ⟨_, .unresolvedMutableOutput hmutable hnames hinputs hfault⟩

/-- Every declaration is classified in some way. -/
theorem exists_classifies (types : NameMap TypeDefinition) (decl : EndpointDecl) (context : Context) :
    ∃ result, Classifies types decl context result := by
  by_cases hknown : ∀ word, decl.mutability ≠ .other word
  · obtain ⟨index, hleast⟩ | ⟨hinputs, hmixed⟩ | hnames := decl.named_cases
    · exact ⟨_, .unnamedInput hknown hleast⟩
    · exact ⟨_, .mixedOutputs hknown hinputs hmixed⟩
    · obtain ⟨inputs, middle, hinputs⟩ | ⟨fault, after, hfault⟩ :=
        resolves_or_firstFault types context decl.inputTypes
      · cases hmutability : decl.mutability with
        | readonly => exact classifies_readonly hmutability hnames hinputs
        | mutable => exact classifies_mutable hmutability hnames hinputs
        | other word => exact absurd hmutability (hknown word)
      · exact ⟨_, .unresolvedInput hknown hnames hfault⟩
  · obtain ⟨word, hother⟩ := not_forall_not.1 hknown
    exact ⟨_, .ignored hother⟩

theorem classifies_iff :
    (classify types decl).run context = result ↔ Classifies types decl context result := by
  constructor
  · -- a run has one result, so any way in which the declaration is classified is the way it goes
    rintro rfl
    obtain ⟨result, hresult⟩ := exists_classifies types decl context
    rwa [run_eq_of_classifies hresult]
  · exact run_eq_of_classifies

theorem length_of_planOutputs {outputs : List ResolvedType} {plans : List OutputPlan}
    (h : planOutputs outputs = .ok plans) : plans.length = outputs.length :=
  (suits_of_planFrom h).length_eq.symm

end Classified

/-- The names of a declaration are checked before its types, and its inputs are resolved before its
outputs. Only what generated code uses stays in the context. -/
theorem classification_checks_structure_first (types : NameMap TypeDefinition) (decl : EndpointDecl)
    (context : Context) : ClassifiedInOrder types decl context where
  result _ := classifies_iff
  plansOfReadonly endpoint after hrun hreadonly := by
    cases classifies_iff.1 hrun with
    | readonly _ _ _ houtputs hplans =>
      have hlength := length_resolvedOutputs houtputs
      refine ⟨?_, (length_of_planOutputs hplans).trans hlength⟩
      rw [EndpointDecl.toEndpoint, EndpointDecl.outputsOf, List.length_zipWith, hlength, Nat.min_self]
    | mutable hmutable => exact absurd (hreadonly.symm.trans hmutable) (by decide)
  plansOfMutable endpoint after hrun hmutable := by
    cases classifies_iff.1 hrun with
    | readonly hreadonly => exact absurd (hreadonly.symm.trans hmutable) (by decide)
    | mutable => rfl

/-- What the inputs of a mutable endpoint note stays when one of its outputs cannot be resolved. -/
example :
    let pay : EndpointDecl := ⟨"pay", [], false, .mutable, [], [⟨"amount", "BigUint", false⟩],
      [⟨"", "tuple<u8,TokenIdentifier>", false⟩, ⟨"", "Receipt", false⟩]⟩
    (classify ∅ pay).outcome .empty =
      (.error (.unknownType "Receipt"), Context.empty.note .bigUint) := by
  decide +kernel

end ContractAbi
