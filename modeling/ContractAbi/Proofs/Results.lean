import Mathlib

/-!
# Results of sequences

When a sequence of steps succeeds, every step of it has, and a traversal that succeeds has a result
for each part.
-/
namespace ContractAbi

variable {ε ζ σ α β : Type} {before after : σ}

theorem of_bind_eq_ok {first : Except ε α} {next : α → Except ε β} {value : β}
    (h : first >>= next = .ok value) : ∃ middle, first = .ok middle ∧ next middle = .ok value := by
  cases first with
  | error fault => cases h
  | ok middle => exact ⟨middle, rfl, h⟩

theorem of_map_eq_ok {result : Except ε α} {f : α → β} {value : β}
    (h : result.map f = .ok value) : ∃ part, result = .ok part ∧ value = f part := by
  cases result with
  | error fault => cases h
  | ok part => exact ⟨part, rfl, (Except.ok.inj h).symm⟩

theorem of_mapError_eq_error {result : Except ε α} {f : ε → ζ} {fault : ζ}
    (h : result.mapError f = .error fault) : ∃ cause, result = .error cause ∧ fault = f cause := by
  cases result with
  | error cause => exact ⟨cause, rfl, (Except.error.inj h).symm⟩
  | ok value => cases h

/-- Whatever is made of a fault, a success stays what it is. -/
theorem of_mapError_eq_ok {result : Except ε α} {f : ε → ζ} {value : α}
    (h : result.mapError f = .ok value) : result = .ok value := by
  cases result with
  | error cause => cases h
  | ok other => exact congrArg Except.ok (Except.ok.inj h)

/-- Whatever is made of a success, a fault stays what it is. -/
theorem error_of_map_eq_error {result : Except ε α} {f : α → β} {fault : ε}
    (h : result.map f = .error fault) : result = .error fault := by
  cases result with
  | error other => exact congrArg Except.error (Except.error.inj h)
  | ok part => cases h

/-- A sequence over a state that succeeds has a first step that succeeds. -/
theorem of_run_bind_eq_ok {first : EStateM ε σ α} {next : α → EStateM ε σ β} {value : β}
    (h : (first >>= next).run before = .ok value after) :
    ∃ part middle, first.run before = .ok part middle ∧ (next part).run middle = .ok value after := by
  rw [EStateM.run_bind] at h
  split at h
  · rename_i part middle hfirst
    exact ⟨part, middle, hfirst, h⟩
  · cases h

theorem of_run_pure_eq_ok {result value : α}
    (h : (pure result : EStateM ε σ α).run before = .ok value after) :
    value = result ∧ after = before := by
  obtain ⟨rfl, rfl⟩ := EStateM.Result.ok.inj h
  exact ⟨rfl, rfl⟩

theorem mapError_bind (result : Except ε α) (next : α → Except ε β) (f : ε → ζ) :
    (result >>= next).mapError f = result.mapError f >>= fun value => (next value).mapError f := by
  cases result with
  | error fault => rfl
  | ok value => rfl

/-- What every step of a run keeps holds at the end of it. -/
theorem keeps_foldlM {σ : Type} {step : σ → α → Except ε σ} {keeps : σ → Prop}
    (hstep : ∀ state part next, keeps state → step state part = .ok next → keeps next)
    {parts : List α} {state last : σ} (h : keeps state) (hrun : parts.foldlM step state = .ok last) :
    keeps last := by
  induction parts generalizing state with
  | nil =>
    obtain rfl := Except.ok.inj hrun
    exact h
  | cons part rest ih =>
    rw [List.foldlM_cons] at hrun
    obtain ⟨next, hnext, hrest⟩ := of_bind_eq_ok hrun
    exact ih (hstep state part next h hnext) hrest

theorem forall₂_of_mapM {f : α → Except ε β} {parts : List α} {results : List β}
    (h : parts.mapM f = .ok results) :
    List.Forall₂ (fun part result => f part = .ok result) parts results := by
  induction parts generalizing results with
  | nil =>
    obtain rfl := Except.ok.inj h
    exact .nil
  | cons part rest ih =>
    rw [List.mapM_cons] at h
    obtain ⟨result, hpart, h⟩ := of_bind_eq_ok h
    obtain ⟨others, hrest, h⟩ := of_bind_eq_ok h
    obtain rfl := Except.ok.inj h
    exact .cons hpart (ih hrest)

/-- A traversal succeeds if every step of it does. -/
theorem exists_mapM_eq_ok {f : α → Except ε β} {parts : List α}
    (h : ∀ part ∈ parts, ∃ result, f part = .ok result) :
    ∃ results, parts.mapM f = .ok results := by
  induction parts with
  | nil => exact ⟨[], rfl⟩
  | cons part rest ih =>
    obtain ⟨result, hresult⟩ := h part List.mem_cons_self
    obtain ⟨results, hresults⟩ := ih fun other hother => h other (List.mem_cons_of_mem _ hother)
    refine ⟨result :: results, ?_⟩
    rw [List.mapM_cons, hresult, hresults]
    rfl

/-- A traversal ends with the fault of the first step that fails. -/
theorem mapM_append_eq_error {f : α → Except ε β} {before after : List α} {part : α} {fault : ε}
    (hbefore : ∀ earlier ∈ before, ∃ result, f earlier = .ok result) (hpart : f part = .error fault) :
    (before ++ part :: after).mapM f = .error fault := by
  induction before with
  | nil =>
    rw [List.nil_append, List.mapM_cons, hpart]
    rfl
  | cons earlier rest ih =>
    obtain ⟨result, hresult⟩ := hbefore earlier List.mem_cons_self
    rw [List.cons_append, List.mapM_cons, hresult,
      ih fun other hother => hbefore other (List.mem_cons_of_mem _ hother)]
    rfl

/-- Checks that are made one after the other succeed if all of them do. -/
theorem forM_eq_ok_iff {check : α → Except ε Unit} {parts : List α} :
    forM parts check = .ok () ↔ ∀ part ∈ parts, check part = .ok () := by
  induction parts with
  | nil => exact iff_of_true rfl fun _ h => absurd h List.not_mem_nil
  | cons part rest ih =>
    rw [List.forM_cons, List.forall_mem_cons, ← ih]
    cases check part with
    | error fault => exact iff_of_false (fun h => by cases h) fun h => by cases h.1
    | ok => exact (and_iff_right rfl).symm

/-- Checks that fail do so with the fault of one of them. -/
theorem of_forM_eq_error {check : α → Except ε Unit} {parts : List α} {fault : ε}
    (h : forM parts check = .error fault) : ∃ part ∈ parts, check part = .error fault := by
  induction parts with
  | nil => cases h
  | cons part rest ih =>
    rw [List.forM_cons] at h
    cases hpart : check part with
    | error cause =>
      rw [hpart] at h
      exact ⟨part, List.mem_cons_self, hpart.trans h⟩
    | ok =>
      rw [hpart] at h
      obtain ⟨other, hother, hfault⟩ := ih h
      exact ⟨other, List.mem_cons_of_mem _ hother, hfault⟩

/-- An item that was made for a part. -/
theorem exists_of_forall₂_left {R : α → β → Prop} {parts : List α} {results : List β}
    (h : List.Forall₂ R parts results) {part : α} (hpart : part ∈ parts) :
    ∃ result ∈ results, R part result := by
  induction h with
  | nil => exact absurd hpart List.not_mem_nil
  | cons hfirst _ ih =>
    rcases List.mem_cons.1 hpart with rfl | hpart
    · exact ⟨_, List.mem_cons_self, hfirst⟩
    · obtain ⟨result, hresult, hr⟩ := ih hpart
      exact ⟨result, List.mem_cons_of_mem _ hresult, hr⟩

/-- The part that an item was made for. -/
theorem exists_of_forall₂_right {R : α → β → Prop} {parts : List α} {results : List β}
    (h : List.Forall₂ R parts results) {result : β} (hresult : result ∈ results) :
    ∃ part ∈ parts, R part result := by
  obtain ⟨part, hpart, hr⟩ := exists_of_forall₂_left (List.Forall₂.flip h) hresult
  exact ⟨part, hpart, hr⟩

/-- Items that each agree with their part agree as a list. -/
theorem map_eq_of_forall₂ {γ : Type} {R : α → β → Prop} {parts : List α} {results : List β}
    (h : List.Forall₂ R parts results) {f : α → γ} {g : β → γ}
    (hagree : ∀ part ∈ parts, ∀ result, R part result → g result = f part) :
    results.map g = parts.map f := by
  induction h with
  | nil => rfl
  | cons hfirst _ ih =>
    rw [List.map_cons, List.map_cons, hagree _ List.mem_cons_self _ hfirst,
      ih fun part hpart => hagree part (List.mem_cons_of_mem _ hpart)]

/-- The item at the position of a part. -/
theorem exists_getElem?_of_forall₂ {R : α → β → Prop} {parts : List α} {results : List β}
    (h : List.Forall₂ R parts results) {position : Nat} {part : α}
    (hpart : parts[position]? = some part) : ∃ result, results[position]? = some result ∧ R part result := by
  induction h generalizing position with
  | nil => cases hpart
  | cons hfirst _ ih =>
    cases position with
    | zero =>
      obtain rfl := Option.some.inj hpart
      exact ⟨_, rfl, hfirst⟩
    | succ position => exact ih hpart

theorem mapM_eq_some_of_map_eq {f : α → Option β} {parts : List α} {results : List β}
    (h : parts.map f = results.map some) : parts.mapM f = some results := by
  induction parts generalizing results with
  | nil =>
    obtain rfl := List.map_eq_nil_iff.1 h.symm
    rfl
  | cons part rest ih =>
    cases results with
    | nil => cases h
    | cons result others =>
      obtain ⟨hfirst, hrest⟩ := List.cons.inj h
      rw [List.mapM_cons, hfirst, ih hrest]
      rfl

/-- Reading undoes writing part by part. -/
theorem mapM_map_eq_some {γ : Type} {write : α → γ} {read : γ → Option β} {view : α → β}
    {parts : List α} (h : ∀ part ∈ parts, read (write part) = some (view part)) :
    (parts.map write).mapM read = some (parts.map view) := by
  refine mapM_eq_some_of_map_eq ?_
  rw [List.map_map, List.map_map]
  exact List.map_congr_left h

/-- The part that a result was read from. -/
theorem exists_of_mapM_eq_some {f : α → Option β} {parts : List α} {results : List β}
    (h : parts.mapM f = some results) {result : β} (hresult : result ∈ results) :
    ∃ part ∈ parts, f part = some result := by
  induction parts generalizing results with
  | nil =>
    obtain rfl := Option.some.inj h
    exact absurd hresult List.not_mem_nil
  | cons part rest ih =>
    rw [List.mapM_cons] at h
    obtain ⟨first, hfirst, h⟩ := Option.bind_eq_some_iff.1 h
    obtain ⟨others, hothers, h⟩ := Option.bind_eq_some_iff.1 h
    obtain rfl := Option.some.inj h
    rcases List.mem_cons.1 hresult with rfl | hresult
    · exact ⟨part, List.mem_cons_self, hfirst⟩
    · obtain ⟨other, hother, hread⟩ := ih hothers hresult
      exact ⟨other, List.mem_cons_of_mem _ hother, hread⟩

end ContractAbi
