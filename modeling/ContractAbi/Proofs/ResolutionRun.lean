import ContractAbi.Proofs.Declarations

/-!
# Runs of resolution

A run declares named types, resolves expressions, classifies endpoints, and puts contexts aside and
back, in any order. After every step, failed or not, the registry is sound; between two moments
without a restore the context only grows; and what a successful step gives has all its composites
in the registry.
-/
namespace ContractAbi

inductive ResolutionStep where
  | declareTypes
  | resolve (expression : String)
  | classify (decl : EndpointDecl)
  /-- Puts a copy of the context aside. -/
  | snapshot
  /-- Puts one of the copies back. -/
  | restore (index : Nat)
  deriving DecidableEq, Repr

def ResolutionStep.isRestore : ResolutionStep → Bool
  | .restore _ => true
  | _ => false

/-- What a step answers. -/
inductive StepOutcome where
  | declared (result : Except ConversionFault Unit)
  | resolved (result : Except ConversionFault ResolvedType)
  | classified (result : Except ConversionFault (Option Endpoint))
  | moved

/-- The types in an answer that generated code uses. -/
def StepOutcome.types : StepOutcome → List ResolvedType
  | .resolved (.ok type) => [type]
  | .classified (.ok (some endpoint)) =>
    endpoint.inputs.map (·.type) ++
      (if endpoint.kind = .readonly then endpoint.outputTypes else [])
  | _ => []

structure ResolutionState where
  session : Session
  /-- The copies put aside, in their order. -/
  saved : List Context
  deriving DecidableEq, Repr

namespace ResolutionState

def start (context : Context) : ResolutionState := ⟨Session.start context, []⟩

def context (state : ResolutionState) : Context := state.session.context

def withContext (state : ResolutionState) (context : Context) : ResolutionState :=
  { state with session := { state.session with context } }

@[simp] theorem context_withContext (state : ResolutionState) (context : Context) :
    (state.withContext context).context = context := rfl

@[simp] theorem saved_withContext (state : ResolutionState) (context : Context) :
    (state.withContext context).saved = state.saved := rfl

def step (types : NameMap TypeDefinition) (state : ResolutionState) :
    ResolutionStep → StepOutcome × ResolutionState
  | .declareTypes =>
    match (declareNamedTypes types).run state.session with
    | .ok value session => (.declared (.ok value), { state with session })
    | .error fault session => (.declared (.error fault), { state with session })
  | .resolve expression =>
    let (result, context) := (ContractAbi.resolve types expression).outcome state.context
    (.resolved result, state.withContext context)
  | .classify decl =>
    let (result, context) := (ContractAbi.classify types decl).outcome state.context
    (.classified result, state.withContext context)
  | .snapshot => (.moved, { state with saved := state.saved ++ [state.context] })
  | .restore index => (.moved, state.withContext (state.saved[index]?.getD state.context))

/-- The state after some steps. -/
def run (types : NameMap TypeDefinition) (state : ResolutionState) :
    List ResolutionStep → ResolutionState
  | [] => state
  | step :: rest => run types (state.step types step).2 rest

/-- The context is sound and keeps the given names for named types. -/
structure SoundContext (types : NameMap TypeDefinition) (reserved : List String) (context : Context) :
    Prop where
  sound : context.Sound types
  reserved : context.registry.reserved = reserved

/-- The context and all its copies are sound. -/
structure Sound (types : NameMap TypeDefinition) (reserved : List String) (state : ResolutionState) :
    Prop where
  context : SoundContext types reserved state.context
  saved : ∀ context ∈ state.saved, SoundContext types reserved context

variable {types : NameMap TypeDefinition} {state : ResolutionState} {reserved : List String}

theorem sound_start {context : Context} (h : context.Sound types) :
    (start context).Sound types context.registry.reserved :=
  ⟨⟨h, rfl⟩, fun _ hc => absurd hc List.not_mem_nil⟩

/-- Every step but a restore leads from a sound context to a sound one that has grown. -/
theorem step_grows (h : state.context.Sound types) {step : ResolutionStep}
    (hstep : step.isRestore = false) :
    (state.step types step).2.context.Sound types ∧
      state.context.Grows (state.step types step).2.context := by
  cases step with
  | declareTypes =>
    have hd := @declareNamedTypes_continues types state.session h
    simp only [ResolutionState.step]
    cases hr : (declareNamedTypes types).run state.session with
    | ok value after =>
      simp only [hr] at hd ⊢
      exact ⟨hd.1.sound, hd.1.grows⟩
    | error fault after =>
      simp only [hr] at hd ⊢
      exact ⟨hd.sound, hd.grows⟩
  | resolve expression =>
    have hk := (@Resolve.keeps_resolve types expression).outcome h trivial
    exact ⟨hk.1, hk.2.1⟩
  | classify decl =>
    have hk := (@Resolve.keeps_classify types decl).outcome h trivial
    exact ⟨hk.1, hk.2.1⟩
  | snapshot => exact ⟨h, .refl _⟩
  | restore index => exact Bool.noConfusion hstep

/-- A copy that is put back is sound like the context. -/
theorem Sound.getD (h : state.Sound types reserved) (index : Nat) :
    SoundContext types reserved (state.saved[index]?.getD state.context) := by
  cases hget : state.saved[index]? with
  | none => exact h.context
  | some context => exact h.saved context (List.mem_of_getElem? hget)

/-- Every step keeps the context and its copies sound. -/
theorem Sound.step (h : state.Sound types reserved) (step : ResolutionStep) :
    (state.step types step).2.Sound types reserved := by
  have hgrown : step.isRestore = false →
      SoundContext types reserved (state.step types step).2.context := by
    intro hstep
    obtain ⟨hs, hg⟩ := @step_grows types state h.context.sound step hstep
    exact ⟨hs, hg.registry.reserved.trans h.context.reserved⟩
  cases step with
  | declareTypes =>
    refine ⟨hgrown rfl, ?_⟩
    simp only [ResolutionState.step]
    split <;> exact h.saved
  | resolve expression => exact ⟨hgrown rfl, h.saved⟩
  | classify decl => exact ⟨hgrown rfl, h.saved⟩
  | snapshot =>
    refine ⟨hgrown rfl, fun context hcontext => ?_⟩
    rcases List.mem_append.1 hcontext with hcontext | hcontext
    · exact h.saved context hcontext
    · obtain rfl := List.mem_singleton.1 hcontext
      exact h.context
  | restore index => exact ⟨h.getD index, h.saved⟩

theorem Sound.run (h : state.Sound types reserved) (steps : List ResolutionStep) :
    (state.run types steps).Sound types reserved := by
  induction steps generalizing state with
  | nil => exact h
  | cons step rest ih => exact ih (h.step step)

theorem run_grows (h : state.Sound types reserved) {steps : List ResolutionStep}
    (hsteps : ∀ step ∈ steps, step.isRestore = false) :
    state.context.Grows (state.run types steps).context := by
  induction steps generalizing state with
  | nil => exact .refl _
  | cons step rest ih =>
    have hstep : step.isRestore = false := hsteps step List.mem_cons_self
    have hrest : ∀ s ∈ rest, s.isRestore = false := fun s hs => hsteps s (List.mem_cons_of_mem _ hs)
    exact (step_grows h.context.sound hstep).2.trans (ih (h.step step) hrest)

/-- The types that a step answers have all their composites in the registry after it. -/
theorem step_knows (h : state.context.Sound types) (step : ResolutionStep) :
    ∀ type ∈ (state.step types step).1.types,
      (state.step types step).2.context.registry.Knows type := by
  cases step with
  | declareTypes =>
    intro type htype
    simp only [ResolutionState.step] at htype
    split at htype <;> exact absurd htype List.not_mem_nil
  | resolve expression =>
    have hk := (@Resolve.keeps_resolve types expression).outcome h trivial
    simp only [ResolutionState.step, context_withContext]
    cases hr : (ContractAbi.resolve types expression).outcome state.context with
    | mk result after =>
      simp only [hr] at hk ⊢
      intro type htype
      cases result with
      | error fault => exact absurd htype List.not_mem_nil
      | ok value =>
        obtain rfl := List.mem_singleton.1 htype
        exact (hk.2.2 type rfl).known
  | classify decl =>
    have hk := (@Resolve.keeps_classify types decl).outcome h trivial
    simp only [ResolutionState.step, context_withContext]
    cases hr : (ContractAbi.classify types decl).outcome state.context with
    | mk result after =>
      simp only [hr] at hk ⊢
      intro type htype
      match result with
      | .error fault => exact absurd htype List.not_mem_nil
      | .ok none => exact absurd htype List.not_mem_nil
      | .ok (some endpoint) =>
        have he := hk.2.2 _ rfl endpoint rfl
        rcases List.mem_append.1 htype with htype | htype
        · obtain ⟨input, hinput, rfl⟩ := List.mem_map.1 htype
          exact (he.inputs input hinput).known
        · split at htype
          · rename_i hkind
            obtain ⟨output, houtput, rfl⟩ := List.mem_map.1 htype
            exact (he.outputs hkind output houtput).known
          · exact absurd htype List.not_mem_nil
  | snapshot => exact fun _ h => absurd h List.not_mem_nil
  | restore index => exact fun _ h => absurd h List.not_mem_nil

/-- What holds at every moment of a run that began with a context. -/
structure Invariant (types : NameMap TypeDefinition) (initial : Context) (state : ResolutionState) :
    Prop where
  /-- The composites have different names. -/
  names : state.context.registry.entries.names.Nodup
  /-- None of the names is reserved, the field lists differ and have the names `var0`, `var1` and so
  on, and fields refer only to earlier composites with the same members. -/
  registry : state.context.registry.Sound
  reserved : state.context.registry.reserved = initial.registry.reserved
  /-- Until the next restore the context only grows. -/
  grows : ∀ later : List ResolutionStep, (∀ step ∈ later, step.isRestore = false) →
    state.context.Grows (state.run types later).context
  /-- The composites in the answer of the next step are in the registry after it, with the same
  members. -/
  answers : ∀ step, ∀ type ∈ (state.step types step).1.types, ∀ composite ∈ type.composites,
    composite.entry ∈ (state.step types step).2.context.registry.entries.entries

end ResolutionState

/-- The invariant holds at every moment of every run of resolution, whatever the order of its steps
and whichever of them fail. -/
theorem resolution_run_invariant (document : Document) (context : Context)
    (hcontext : context = Context.empty ∨ context = Context.ofDocument document)
    (steps : List ResolutionStep) :
    ((ResolutionState.start context).run document.types steps).Invariant document.types context := by
  have hsound : context.Sound document.types := by
    rcases hcontext with rfl | rfl
    · exact Context.sound_reserving document.types []
    · exact Context.sound_reserving document.types _
  have hrun : ((ResolutionState.start context).run document.types steps).Sound document.types
      context.registry.reserved := (ResolutionState.sound_start hsound).run steps
  exact {
    names := NameMap.distinct _
    registry := hrun.context.sound.registry
    reserved := hrun.context.reserved
    grows := fun later hlater => ResolutionState.run_grows hrun hlater
    answers := fun step => ResolutionState.step_knows hrun.context.sound step }

/-- A document with a record whose field holds nested tuples. -/
def wallet : Document where
  buildInfo := ⟨none, ⟨"multiversx-sc", "0.43.3"⟩⟩
  docs := []
  name := "Wallet"
  constructor := none
  endpoints := []
  events := []
  hasCallbacks := false
  types := NameMap.ofList
    [("Entry", .record [] [⟨"owner", "Address"⟩, ⟨"history", "List<tuple<u8,tuple<bool>>>"⟩])]

/-- A run with an expression that fails half way, and with copies that are put back. -/
def walletSteps : List ResolutionStep :=
  [.snapshot, .declareTypes, .snapshot, .resolve "tuple<tuple<u64>,Missing>", .restore 1,
    .classify ⟨"getPair", [], false, .readonly, [], [], [⟨"", "multi<Entry,BigInt>", false⟩]⟩,
    .restore 0, .resolve "tuple<tuple<bool>,Missing>"]

theorem wallet_run_invariant :
    (Context.ofDocument wallet = Context.empty ∨ Context.ofDocument wallet = Context.ofDocument wallet) ∧
      ((ResolutionState.start (Context.ofDocument wallet)).run wallet.types walletSteps).Invariant
        wallet.types (Context.ofDocument wallet) ∧
      ((ResolutionState.start (Context.ofDocument wallet)).run wallet.types
        walletSteps).context.registry.entries.names = ["ComplexType0"] := by
  refine ⟨Or.inr rfl, resolution_run_invariant wallet _ (Or.inr rfl) walletSteps, ?_⟩
  decide +kernel

end ContractAbi
