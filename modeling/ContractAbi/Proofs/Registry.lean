import Mathlib
import ContractAbi.Resolution

/-!
# The registry of composites

A registry is sound when its entries have different names that no named type uses, different field
lists, and only refer to entries before them. Registering a composite whose members are known keeps
the registry sound, leaves every entry in its place, and answers with an entry for the members.
-/
namespace ContractAbi

/-- A tuple or group inside a type: its name and what it holds. -/
structure Composite where
  name : String
  members : List ResolvedType
  deriving DecidableEq, Repr

/-- The declaration that stands for a composite. -/
def Composite.entry (composite : Composite) : String × List Field :=
  (composite.name, memberFields composite.members)

namespace ResolvedType

mutual

/-- Every tuple and group in a type, inner ones first. -/
def composites : ResolvedType → List Composite
  | .primitive _ | .record _ | .enum _ => []
  | .list element | .variadic element => composites element
  | .variadicMulti name members | .multi name members | .tuple name members =>
    compositesOfAll members ++ [⟨name, members⟩]

def compositesOfAll : List ResolvedType → List Composite
  | [] => []
  | member :: rest => composites member ++ compositesOfAll rest

end

theorem mem_compositesOfAll {members : List ResolvedType} {composite : Composite} :
    composite ∈ compositesOfAll members ↔ ∃ member ∈ members, composite ∈ member.composites := by
  induction members with
  | nil => simp [compositesOfAll]
  | cons member rest ih => simp [compositesOfAll, ih]

end ResolvedType

theorem memberName_injective {i j : Nat} (h : memberName i = memberName j) : i = j :=
  Nat.repr_injective ((String.append_right_inj "var").1 h)

/-- The fields of members of which the first has the given position. -/
def memberFieldsFrom (index : Nat) : List ResolvedType → List Field
  | [] => []
  | member :: rest => ⟨memberName index, member⟩ :: memberFieldsFrom (index + 1) rest

theorem mapIdx_eq_memberFieldsFrom (index : Nat) (members : List ResolvedType) :
    (members.mapIdx fun i member => Field.mk (memberName (index + i)) member) =
      memberFieldsFrom index members := by
  induction members generalizing index with
  | nil => rfl
  | cons member rest ih =>
    rw [List.mapIdx_cons, memberFieldsFrom, ← ih (index + 1)]
    simp only [Nat.add_zero, Nat.add_assoc, Nat.add_comm 1]

theorem memberFields_eq (members : List ResolvedType) :
    memberFields members = memberFieldsFrom 0 members := by
  rw [← mapIdx_eq_memberFieldsFrom]
  simp only [memberFields, Nat.zero_add]

@[simp] theorem types_memberFieldsFrom (index : Nat) (members : List ResolvedType) :
    (memberFieldsFrom index members).map (·.type) = members := by
  induction members generalizing index with
  | nil => rfl
  | cons member rest ih => simp [memberFieldsFrom, ih]

@[simp] theorem names_memberFieldsFrom (index : Nat) (members : List ResolvedType) :
    (memberFieldsFrom index members).map (·.name) =
      (List.range' index members.length).map memberName := by
  induction members generalizing index with
  | nil => rfl
  | cons member rest ih => simp [memberFieldsFrom, ih, List.range'_succ]

@[simp] theorem length_memberFields (members : List ResolvedType) :
    (memberFields members).length = members.length := by
  simp [memberFields]

@[simp] theorem types_memberFields (members : List ResolvedType) :
    (memberFields members).map (·.type) = members := by
  rw [memberFields_eq, types_memberFieldsFrom]

theorem names_memberFields (members : List ResolvedType) :
    (memberFields members).map (·.name) = (List.range members.length).map memberName := by
  rw [memberFields_eq, names_memberFieldsFrom, List.range_eq_range']

namespace Registry

theorem compositeName_injective {i j : Nat} (h : compositeName i = compositeName j) : i = j :=
  Nat.repr_injective ((String.append_right_inj "ComplexType").1 h)

variable {registry : Registry}

theorem isTaken_iff {name : String} :
    registry.isTaken name = true ↔ name ∈ registry.reserved ∨ name ∈ registry.entries.names := by
  simp [isTaken, NameMap.contains_iff]

/-- The search ends at a free name, or every name within its tries is taken. -/
theorem firstFree_free (index tries : Nat) :
    registry.isTaken (compositeName (registry.firstFree index tries)) = false ∨
      ∀ k < tries, registry.isTaken (compositeName (index + k)) = true := by
  induction tries generalizing index with
  | zero => exact Or.inr fun k hk => absurd hk (Nat.not_lt_zero k)
  | succ tries ih =>
    by_cases ht : registry.isTaken (compositeName index) = true
    · simp only [firstFree, ht, if_true]
      apply (ih (index + 1)).imp id
      intro h k hk
      cases k with
      | zero => exact ht
      | succ k =>
        have hs : index + (k + 1) = index + 1 + k := by omega
        rw [hs]
        exact h k (by omega)
    · simp only [firstFree, ht]
      exact Or.inl (by simpa using ht)

/-- A run of taken names is no longer than the list of names that are taken. -/
theorem tries_le_of_taken (index tries : Nat)
    (h : ∀ k < tries, registry.isTaken (compositeName (index + k)) = true) :
    tries ≤ registry.reserved.length + registry.entries.size := by
  let tried := (List.range tries).map fun k => compositeName (index + k)
  have hnodup : tried.Nodup := by
    refine List.Nodup.map (fun i j hij => ?_) List.nodup_range
    exact Nat.add_left_cancel (compositeName_injective hij)
  have hsub : tried ⊆ registry.reserved ++ registry.entries.names := by
    intro name hname
    obtain ⟨k, hk, rfl⟩ := List.mem_map.1 hname
    exact List.mem_append.2 (isTaken_iff.1 (h k (List.mem_range.1 hk)))
  have hlen := (hnodup.subperm hsub).length_le
  simpa [tried, NameMap.names, NameMap.size] using hlen

theorem freshName_free (registry : Registry) : registry.isTaken registry.freshName = false := by
  apply (firstFree_free _ _).resolve_right
  intro h
  have hle := tries_le_of_taken _ _ h
  omega

theorem freshName_not_mem (registry : Registry) : registry.freshName ∉ registry.entries.names := by
  intro h
  have hfree := registry.freshName_free
  rw [isTaken_iff.2 (Or.inr h)] at hfree
  exact Bool.noConfusion hfree

/-- What every registry satisfies that was filled through `getOrCreate`, besides that its names
differ. -/
structure Sound (registry : Registry) : Prop where
  named : ∀ name ∈ registry.entries.names, ∃ index, name = compositeName index
  unreserved : ∀ name ∈ registry.entries.names, name ∉ registry.reserved
  distinct : registry.entries.values.Nodup
  fieldNames : ∀ entry ∈ registry.entries.entries,
    entry.2 ≠ [] ∧ entry.2.map (·.name) = (List.range entry.2.length).map memberName
  closed : ∀ (i : Nat) (entry : String × List Field), registry.entries.entries[i]? = some entry →
    ∀ field ∈ entry.2, ∀ composite ∈ field.type.composites,
      ∃ j < i, registry.entries.entries[j]? = some composite.entry

/-- The entry of a composite is in the registry. -/
def Holds (registry : Registry) (composite : Composite) : Prop :=
  composite.entry ∈ registry.entries.entries

/-- Every composite in a type has its entry. -/
def Knows (registry : Registry) (type : ResolvedType) : Prop :=
  ∀ composite ∈ type.composites, registry.Holds composite

/-- What was registered before stays in its place. -/
structure Extends (before after : Registry) : Prop where
  entries : before.entries.entries <+: after.entries.entries
  reserved : after.reserved = before.reserved

theorem Extends.refl (registry : Registry) : Extends registry registry :=
  ⟨List.prefix_refl _, rfl⟩

theorem Extends.trans {a b c : Registry} (hab : Extends a b) (hbc : Extends b c) : Extends a c :=
  ⟨hab.entries.trans hbc.entries, hbc.reserved.trans hab.reserved⟩

theorem Extends.holds {before after : Registry} (h : Extends before after) {composite : Composite}
    (hc : before.Holds composite) : after.Holds composite :=
  h.entries.subset hc

theorem Extends.knows {before after : Registry} (h : Extends before after) {type : ResolvedType}
    (ht : before.Knows type) : after.Knows type :=
  fun composite hc => h.holds (ht composite hc)

theorem sound_reserving (names : List String) : (reserving names).Sound where
  named _ h := absurd h List.not_mem_nil
  unreserved _ h := absurd h List.not_mem_nil
  distinct := List.nodup_nil
  fieldNames _ h := absurd h List.not_mem_nil
  closed _ _ h := absurd h (by simp [reserving, EmptyCollection.emptyCollection, NameMap.empty])

/-- An entry that is added at the end refers to entries that are there already. -/
theorem Sound.add (h : registry.Sound) {members : List ResolvedType} {index : Nat} {name : String}
    (hindex : name = compositeName index) (hname : registry.isTaken name = false)
    (hnew : memberFields members ∉ registry.entries.values) (hne : members ≠ [])
    (hknown : ∀ member ∈ members, registry.Knows member) :
    ({ registry with entries := registry.entries.put name (memberFields members) } : Registry).Sound := by
  have htaken : name ∉ registry.reserved ∧ name ∉ registry.entries.names := by
    have hn : ¬ registry.isTaken name = true := by simp [hname]
    exact not_or.1 (mt isTaken_iff.2 hn)
  have he : (registry.entries.put name (memberFields members)).entries =
      registry.entries.entries ++ [(name, memberFields members)] :=
    NameMap.entries_put_of_not_mem htaken.2
  constructor
  case named =>
    intro other hother
    simp only [NameMap.names, he, List.map_append, List.mem_append, List.map_cons, List.map_nil,
      List.mem_singleton] at hother
    rcases hother with hother | rfl
    · exact h.named other hother
    · exact ⟨index, hindex⟩
  case unreserved =>
    intro other hother
    simp only [NameMap.names, he, List.map_append, List.mem_append] at hother
    rcases hother with hother | hother
    · exact h.unreserved other hother
    · simp only [List.map_cons, List.map_nil, List.mem_singleton] at hother
      exact hother ▸ htaken.1
  case distinct =>
    simp only [NameMap.values, he, List.map_append, List.map_cons, List.map_nil]
    rw [← List.concat_eq_append]
    exact h.distinct.concat hnew
  case fieldNames =>
    intro entry hentry
    simp only [he, List.mem_append, List.mem_singleton] at hentry
    rcases hentry with hentry | rfl
    · exact h.fieldNames entry hentry
    · refine ⟨?_, ?_⟩
      · simpa [memberFields] using hne
      · rw [names_memberFields, length_memberFields]
  case closed =>
    intro i entry hentry field hfield composite hc
    simp only [he, List.getElem?_append] at hentry ⊢
    split at hentry
    · obtain ⟨j, hj, hentryj⟩ := h.closed i entry hentry field hfield composite hc
      refine ⟨j, hj, ?_⟩
      rw [if_pos (by omega), hentryj]
    · obtain ⟨hi, rfl⟩ : i = registry.entries.entries.length ∧ (name, memberFields members) = entry := by
        rw [List.getElem?_singleton] at hentry
        split at hentry
        · exact ⟨by omega, Option.some.inj hentry⟩
        · exact absurd hentry (by simp)
      have hmem : field.type ∈ members := by
        rw [← types_memberFields members]
        exact List.mem_map_of_mem hfield
      obtain ⟨j, hj⟩ := List.mem_iff_getElem?.1 (hknown field.type hmem composite hc)
      have hlt : j < registry.entries.entries.length := (List.getElem?_eq_some_iff.1 hj).1
      exact ⟨j, by omega, by rw [if_pos hlt, hj]⟩

theorem nameOf?_eq_none {fields : List Field} (h : registry.nameOf? fields = none) :
    fields ∉ registry.entries.values := by
  intro hmem
  obtain ⟨entry, hentry, rfl⟩ := List.mem_map.1 hmem
  simp only [nameOf?, Option.map_eq_none_iff, List.find?_eq_none] at h
  exact h entry hentry (by simp)

theorem mem_of_nameOf? {fields : List Field} {name : String}
    (h : registry.nameOf? fields = some name) : (name, fields) ∈ registry.entries.entries := by
  simp only [nameOf?, Option.map_eq_some_iff] at h
  obtain ⟨entry, hfind, rfl⟩ := h
  have hfields : entry.2 = fields := by simpa using List.find?_some hfind
  exact hfields ▸ List.mem_of_find?_eq_some hfind

/-- An entry after registering was there before or has the members. -/
theorem mem_getOrCreate {members : List ResolvedType} {entry : String × List Field}
    (h : entry ∈ (registry.getOrCreate members).2.entries.entries) :
    entry ∈ registry.entries.entries ∨ entry.2 = memberFields members := by
  simp only [Registry.getOrCreate] at h
  split at h
  · exact Or.inl h
  · have he : (registry.entries.put registry.freshName (memberFields members)).entries =
        registry.entries.entries ++ [(registry.freshName, memberFields members)] :=
      NameMap.entries_put_of_not_mem registry.freshName_not_mem
    rw [he] at h
    rcases List.mem_append.1 h with h | h
    · exact Or.inl h
    · exact Or.inr (List.mem_singleton.1 h ▸ rfl)

/-- Registering keeps a registry sound and what it holds, and gives the members an entry. -/
theorem Sound.getOrCreate (h : registry.Sound) {members : List ResolvedType} (hne : members ≠ [])
    (hknown : ∀ member ∈ members, registry.Knows member) :
    (registry.getOrCreate members).2.Sound ∧ registry.Extends (registry.getOrCreate members).2 ∧
      (registry.getOrCreate members).2.Holds ⟨(registry.getOrCreate members).1, members⟩ := by
  simp only [Registry.getOrCreate]
  split
  · rename_i name hname
    exact ⟨h, Extends.refl registry, mem_of_nameOf? hname⟩
  · rename_i hnone
    have he : (registry.entries.put registry.freshName (memberFields members)).entries =
        registry.entries.entries ++ [(registry.freshName, memberFields members)] :=
      NameMap.entries_put_of_not_mem registry.freshName_not_mem
    refine ⟨h.add rfl registry.freshName_free (nameOf?_eq_none hnone) hne hknown, ⟨?_, rfl⟩, ?_⟩
    · rw [he]
      exact List.prefix_append _ _
    · simp only [Holds, Composite.entry, he]
      exact List.mem_append.2 (Or.inr List.mem_cons_self)

end Registry
end ContractAbi
