import ContractAbi.Proofs.FirstUse

/-!
# How composites are numbered

The entries of a registry take the composite names that no named type uses, in the order of their
indices and without a gap. The search for a name begins at the number of entries, so it steps over
names of named types and over entries that such names have pushed forward, and ends at the next
index of the numbering.
-/
namespace ContractAbi
namespace Registry

/-- No named type uses the composite name with this index. -/
def IsOpen (reserved : List String) (index : Nat) : Prop :=
  compositeName index ∉ reserved

instance (reserved : List String) : DecidablePred (IsOpen reserved) := fun index =>
  inferInstanceAs (Decidable (compositeName index ∉ reserved))

variable {registry after : Registry} {reserved : List String}

theorem infinite_isOpen (reserved : List String) : {index | IsOpen reserved index}.Infinite := by
  have hfinite : (Set.preimage compositeName {name | name ∈ reserved}).Finite :=
    reserved.finite_toSet.preimage fun _ _ _ _ h => compositeName_injective h
  exact hfinite.infinite_compl

/-- The index in the name of the entry at a position. -/
noncomputable def openIndex (reserved : List String) (position : Nat) : Nat :=
  Nat.nth (IsOpen reserved) position

theorem isOpen_openIndex (reserved : List String) (position : Nat) :
    IsOpen reserved (openIndex reserved position) :=
  Nat.nth_mem_of_infinite (infinite_isOpen reserved) position

theorem strictMono_openIndex (reserved : List String) : StrictMono (openIndex reserved) :=
  Nat.nth_strictMono (infinite_isOpen reserved)

/-- An open index before that of a position belongs to an earlier position. -/
theorem exists_openIndex_eq {index position : Nat} (hopen : IsOpen reserved index)
    (hlt : index < openIndex reserved position) :
    ∃ earlier < position, openIndex reserved earlier = index := by
  have hindex : openIndex reserved (Nat.count (IsOpen reserved) index) = index := Nat.nth_count hopen
  refine ⟨_, (strictMono_openIndex reserved).lt_iff_lt.1 ?_, hindex⟩
  rwa [hindex]

/-- The search from one index ends at another: it is the first from there on whose name is free. -/
structure SearchEnds (registry : Registry) (start index : Nat) : Prop where
  le : start ≤ index
  free : registry.isTaken (compositeName index) = false
  taken : ∀ k, start ≤ k → k < index → registry.isTaken (compositeName k) = true

theorem SearchEnds.unique {start i j : Nat} (hi : registry.SearchEnds start i)
    (hj : registry.SearchEnds start j) : i = j := by
  rcases Nat.lt_trichotomy i j with hlt | heq | hlt
  · exact absurd (hj.taken i hi.le hlt) (by simp [hi.free])
  · exact heq
  · exact absurd (hi.taken j hj.le hlt) (by simp [hj.free])

/-- The search never goes back and steps over taken names only. -/
theorem firstFree_passes (start tries : Nat) :
    start ≤ registry.firstFree start tries ∧
      ∀ k, start ≤ k → k < registry.firstFree start tries →
        registry.isTaken (compositeName k) = true := by
  induction tries generalizing start with
  | zero => exact ⟨Nat.le_refl start, fun k hle hlt => absurd hlt (Nat.not_lt.2 hle)⟩
  | succ tries ih =>
    rw [firstFree]
    split
    · rename_i htaken
      obtain ⟨hle, hpassed⟩ := ih (start + 1)
      refine ⟨by omega, fun k hk hlt => ?_⟩
      rcases Nat.eq_or_lt_of_le hk with rfl | hk
      · exact htaken
      · exact hpassed k hk hlt
    · exact ⟨Nat.le_refl start, fun k hle hlt => absurd hlt (Nat.not_lt.2 hle)⟩

/-- The search for the name of the next entry ends. -/
theorem exists_searchEnds (registry : Registry) :
    ∃ index, registry.SearchEnds registry.entries.size index ∧
      registry.freshName = compositeName index := by
  obtain ⟨hle, hpassed⟩ := registry.firstFree_passes registry.entries.size
    (registry.reserved.length + registry.entries.size + 1)
  exact ⟨_, ⟨hle, registry.freshName_free, hpassed⟩, rfl⟩

/-- The entries are those of different member lists, in their order, each with the next open
index. -/
structure Numbers (registry : Registry) (reserved : List String)
    (lists : List (List ResolvedType)) : Prop where
  reserves : registry.reserved = reserved
  distinct : lists.Nodup
  entries : registry.entries.entries = lists.mapIdx fun position members =>
    (compositeName (openIndex reserved position), memberFields members)

variable {lists : List (List ResolvedType)} {members : List ResolvedType}

theorem numbers_reserving (reserved : List String) : (reserving reserved).Numbers reserved [] :=
  ⟨rfl, .nil, rfl⟩

theorem Numbers.size (h : registry.Numbers reserved lists) : registry.entries.size = lists.length := by
  rw [NameMap.size, h.entries, List.length_mapIdx]

theorem Numbers.names_getElem? (h : registry.Numbers reserved lists) {position : Nat} {name : String} :
    registry.entries.names[position]? = some name ↔
      position < lists.length ∧ name = compositeName (openIndex reserved position) := by
  simp only [NameMap.names, h.entries, List.getElem?_map, List.getElem?_mapIdx, Option.map_map,
    Option.map_eq_some_iff, Function.comp_apply, List.getElem?_eq_some_iff]
  constructor
  · rintro ⟨-, ⟨hposition, -⟩, rfl⟩
    exact ⟨hposition, rfl⟩
  · rintro ⟨hposition, rfl⟩
    exact ⟨_, ⟨hposition, rfl⟩, rfl⟩

theorem Numbers.values (h : registry.Numbers reserved lists) :
    registry.entries.values = lists.map memberFields := by
  apply List.ext_getElem?
  intro position
  simp only [NameMap.values, h.entries, List.getElem?_map, List.getElem?_mapIdx, Option.map_map]
  rfl

theorem Numbers.mem_values_iff (h : registry.Numbers reserved lists) :
    memberFields members ∈ registry.entries.values ↔ members ∈ lists := by
  rw [h.values]
  exact List.mem_map_of_injective fun _ _ => memberFields_injective

/-- The next entry gets the next open index: all indices between the number of entries and that one
are reserved or belong to entries. -/
theorem Numbers.searchEnds (h : registry.Numbers reserved lists) :
    registry.SearchEnds registry.entries.size (openIndex reserved lists.length) where
  le := h.size ▸ (strictMono_openIndex reserved).le_apply
  free := by
    rw [Bool.eq_false_iff, ne_eq, isTaken_iff, not_or, h.reserves]
    refine ⟨isOpen_openIndex reserved _, fun hname => ?_⟩
    obtain ⟨position, hposition⟩ := List.mem_iff_getElem?.1 hname
    obtain ⟨hlt, heq⟩ := h.names_getElem?.1 hposition
    have hsame := (strictMono_openIndex reserved).injective (compositeName_injective heq)
    omega
  taken k _ hlt := by
    rw [isTaken_iff, h.reserves]
    by_cases hopen : IsOpen reserved k
    · obtain ⟨position, hposition, rfl⟩ := exists_openIndex_eq hopen hlt
      exact .inr (List.mem_of_getElem? (h.names_getElem?.2 ⟨hposition, rfl⟩))
    · exact .inl (not_not.1 hopen)

theorem Numbers.freshName (h : registry.Numbers reserved lists) :
    registry.freshName = compositeName (openIndex reserved lists.length) := by
  obtain ⟨index, hends, hname⟩ := registry.exists_searchEnds
  rw [hname, hends.unique h.searchEnds]

/-- Registering a known list finds its entry and changes nothing. -/
theorem Numbers.getOrCreate_of_mem (h : registry.Numbers reserved lists) (hmem : members ∈ lists) :
    (registry.getOrCreate members).2 = registry ∧
      ((registry.getOrCreate members).1, memberFields members) ∈ registry.entries.entries := by
  rcases getOrCreate_cases (Prod.mk.eta (p := registry.getOrCreate members)).symm with
    ⟨hname, hafter⟩ | ⟨hnone, -, -⟩
  · exact ⟨hafter, mem_of_nameOf? hname⟩
  · exact absurd (h.mem_values_iff.2 hmem) (nameOf?_eq_none hnone)

/-- Registering a new list adds its entry at the end. -/
theorem Numbers.getOrCreate_of_not_mem (h : registry.Numbers reserved lists)
    (hnew : members ∉ lists) :
    registry.getOrCreate members =
      (registry.freshName,
        { registry with entries := registry.entries.put registry.freshName (memberFields members) }) := by
  have hnone : registry.nameOf? (memberFields members) = none := by
    rw [Option.eq_none_iff_forall_not_mem]
    intro name hname
    have hentry := mem_of_nameOf? hname
    exact hnew (h.mem_values_iff.1 (List.mem_map_of_mem hentry))
  simp only [Registry.getOrCreate, hnone]

/-- One call keeps a registry numbered, over the lists that were registered so far. -/
theorem Numbers.getOrCreate {calls : List (List ResolvedType)}
    (h : registry.Numbers reserved calls.eraseDups) (members : List ResolvedType) :
    (registry.getOrCreate members).2.Numbers reserved (calls ++ [members]).eraseDups := by
  rw [eraseDups_concat]
  split
  · rename_i hmem
    rw [(h.getOrCreate_of_mem (List.mem_eraseDups.2 hmem)).1]
    exact h
  · rename_i hnew
    have hnew : members ∉ calls.eraseDups := fun hmem => hnew (List.mem_eraseDups.1 hmem)
    rw [h.getOrCreate_of_not_mem hnew]
    refine ⟨h.reserves, ?_, ?_⟩
    · rw [← List.concat_eq_append]
      exact h.distinct.concat hnew
    · change (registry.entries.put registry.freshName (memberFields members)).entries = _
      rw [NameMap.entries_put_of_not_mem registry.freshName_not_mem, h.freshName, h.entries,
        List.mapIdx_concat]

/-- Registers one member list after the other and gives their names. -/
def getOrCreateAll (registry : Registry) : List (List ResolvedType) → List String × Registry
  | [] => ([], registry)
  | members :: rest =>
    let first := registry.getOrCreate members
    let others := getOrCreateAll first.2 rest
    (first.1 :: others.1, others.2)

/-- A sequence of calls keeps a registry numbered, over the lists that were registered so far. -/
theorem Numbers.getOrCreateAll {seen : List (List ResolvedType)}
    (h : registry.Numbers reserved seen.eraseDups) (calls : List (List ResolvedType)) :
    (registry.getOrCreateAll calls).2.Numbers reserved (seen ++ calls).eraseDups := by
  induction calls generalizing registry seen with
  | nil => rwa [List.append_nil]
  | cons members rest ih =>
    rw [List.append_cons]
    exact ih (h.getOrCreate members)

/-- A call leaves every entry in its place and answers with an entry for the members. -/
theorem getOrCreate_spec (registry : Registry) (members : List ResolvedType) :
    registry.entries.entries <+: (registry.getOrCreate members).2.entries.entries ∧
      ((registry.getOrCreate members).1, memberFields members) ∈
        (registry.getOrCreate members).2.entries.entries := by
  rcases getOrCreate_cases (Prod.mk.eta (p := registry.getOrCreate members)).symm with
    ⟨hname, hafter⟩ | ⟨-, -, hentries⟩
  · rw [hafter]
    exact ⟨List.prefix_refl _, mem_of_nameOf? hname⟩
  · rw [hentries]
    exact ⟨List.prefix_append _ _, List.mem_append_right _ List.mem_cons_self⟩

/-- A sequence of calls leaves every entry in its place. -/
theorem prefix_getOrCreateAll (registry : Registry) (calls : List (List ResolvedType)) :
    registry.entries.entries <+: (registry.getOrCreateAll calls).2.entries.entries := by
  induction calls generalizing registry with
  | nil => exact List.prefix_refl _
  | cons members rest ih => exact (registry.getOrCreate_spec members).1.trans (ih _)

/-- Each call of a sequence answers with an entry for its members, which later calls keep. -/
theorem forall₂_getOrCreateAll (registry : Registry) (calls : List (List ResolvedType)) :
    List.Forall₂ (fun members name =>
        (name, memberFields members) ∈ (registry.getOrCreateAll calls).2.entries.entries)
      calls (registry.getOrCreateAll calls).1 := by
  induction calls generalizing registry with
  | nil => exact .nil
  | cons members rest ih =>
    have hkept := prefix_getOrCreateAll (registry.getOrCreate members).2 rest
    exact .cons (hkept.subset (registry.getOrCreate_spec members).2) (ih _)

/-- What calls on a fresh registry have led to: the names that they gave and the registry behind
them. -/
structure Answers (reserved : List String) (calls : List (List ResolvedType)) (names : List String)
    (registry : Registry) : Prop where
  /-- Each call gave a name, which stands for the members with their positions as field names. -/
  fields : List.Forall₂ (fun members name => ∃ fields, registry.entries.get? name = some fields ∧
    fields.map (·.type) = members ∧
      fields.map (·.name) = (List.range members.length).map memberName) calls names
  /-- Two calls gave the same name exactly when their members are the same. -/
  shared : ∀ i j : Nat, i < calls.length → j < calls.length →
    (names[i]? = names[j]? ↔ calls[i]? = calls[j]?)
  /-- The entry at a position has the open index of that position. -/
  numbered : ∀ (position : Nat) (name : String), registry.entries.names[position]? = some name →
    name = compositeName (openIndex reserved position)
  /-- One more call with a list that is known changes nothing. -/
  known : ∀ members ∈ calls, (registry.getOrCreate members).2 = registry
  /-- One more call with a new list finds a free name and adds one entry behind the others. -/
  added : ∀ members, members ∉ calls → ∃ index,
    registry.SearchEnds registry.entries.size index ∧
      (registry.getOrCreate members).1 = compositeName index ∧
      (registry.getOrCreate members).2.reserved = registry.reserved ∧
      (registry.getOrCreate members).2.entries.entries =
        registry.entries.entries ++ [(compositeName index, memberFields members)]

/-- Calls that gave entries for their members gave the same name exactly to the same members. -/
theorem Numbers.eq_iff (h : registry.Numbers reserved lists) {left right : List ResolvedType}
    {leftName rightName : String}
    (hleft : (leftName, memberFields left) ∈ registry.entries.entries)
    (hright : (rightName, memberFields right) ∈ registry.entries.entries) :
    leftName = rightName ↔ left = right := by
  constructor
  · rintro rfl
    have hget := NameMap.get?_eq_some_iff.2 hleft
    rw [NameMap.get?_eq_some_iff.2 hright] at hget
    exact (memberFields_injective (Option.some.inj hget)).symm
  · rintro rfl
    have hvalues : registry.entries.values.Nodup := by
      rw [h.values]
      exact h.distinct.map fun _ _ => memberFields_injective
    exact congrArg Prod.fst (List.inj_on_of_nodup_map hvalues hleft hright rfl)

/-- Whatever names are reserved and whatever lists are registered: equal lists share an entry, and
the entries have the composite names that are not reserved, in the order of their indices, of which
there is always a next one. -/
theorem composites_are_shared_and_numbered (reserved : List String)
    (calls : List (List ResolvedType)) :
    {index | IsOpen reserved index}.Infinite ∧
      Answers reserved calls ((reserving reserved).getOrCreateAll calls).1
        ((reserving reserved).getOrCreateAll calls).2 := by
  refine ⟨infinite_isOpen reserved, ?_⟩
  have hnumbers : ((reserving reserved).getOrCreateAll calls).2.Numbers reserved
      ([] ++ calls).eraseDups := (numbers_reserving reserved).getOrCreateAll calls
  have hentries := forall₂_getOrCreateAll (reserving reserved) calls
  generalize (reserving reserved).getOrCreateAll calls = run at hnumbers hentries ⊢
  obtain ⟨names, registry⟩ := run
  exact {
    fields := hentries.imp fun members name hentry =>
      ⟨_, NameMap.get?_eq_some_iff.2 hentry, types_memberFields members, names_memberFields members⟩
    shared := by
      intro i j hi hj
      obtain ⟨leftName, hleftName, hleft⟩ :=
        exists_getElem?_of_forall₂ hentries (List.getElem?_eq_getElem hi)
      obtain ⟨rightName, hrightName, hright⟩ :=
        exists_getElem?_of_forall₂ hentries (List.getElem?_eq_getElem hj)
      rw [hleftName, hrightName, List.getElem?_eq_getElem hi, List.getElem?_eq_getElem hj,
        Option.some_inj, Option.some_inj]
      exact hnumbers.eq_iff hleft hright
    numbered := fun position name hname => (hnumbers.names_getElem?.1 hname).2
    known := fun members hmem => (hnumbers.getOrCreate_of_mem (List.mem_eraseDups.2 hmem)).1
    added := by
      intro members hnew
      have hnew : members ∉ calls.eraseDups := fun hmem => hnew (List.mem_eraseDups.1 hmem)
      obtain ⟨index, hends, hname⟩ := registry.exists_searchEnds
      refine ⟨index, hends, ?_⟩
      rw [hnumbers.getOrCreate_of_not_mem hnew, ← hname]
      exact ⟨rfl, rfl, NameMap.entries_put_of_not_mem registry.freshName_not_mem⟩ }

/-- Two names are reserved; the third list is the first again. -/
example :
    ((reserving ["ComplexType1", "ComplexType2"]).getOrCreateAll
      [[.primitive .u8], [.primitive .bool], [.primitive .u8], []]).1 =
        ["ComplexType0", "ComplexType3", "ComplexType0", "ComplexType4"] := by
  decide +kernel

end Registry
end ContractAbi
