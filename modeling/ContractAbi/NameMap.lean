/-!
Maps from names to values that keep the order in which the names were first given. Giving a name
again changes its value and leaves it in its place.
-/
namespace ContractAbi

section Entries

variable {κ : Type} [DecidableEq κ]

/-- Replaces the value of a name that is present, or adds the name at the end. -/
def putEntry (name : κ) (value : α) : List (κ × α) → List (κ × α)
  | [] => [(name, value)]
  | entry :: rest =>
    if entry.1 = name then (name, value) :: rest else entry :: putEntry name value rest

theorem mem_names_putEntry {name : κ} {value : α} {entries : List (κ × α)} {k : κ} :
    k ∈ (putEntry name value entries).map (·.1) ↔ k = name ∨ k ∈ entries.map (·.1) := by
  induction entries with
  | nil => simp [putEntry]
  | cons entry rest ih =>
    by_cases h : entry.1 = name
    · simp [putEntry, h]
    · simp only [putEntry, h, if_false, List.map_cons, List.mem_cons, ih]
      constructor <;> rintro (h | h | h) <;> simp [h]

theorem nodup_names_putEntry {name : κ} {value : α} {entries : List (κ × α)}
    (h : (entries.map (·.1)).Nodup) : ((putEntry name value entries).map (·.1)).Nodup := by
  induction entries with
  | nil => simp [putEntry]
  | cons entry rest ih =>
    simp only [List.map_cons, List.nodup_cons] at h
    by_cases he : entry.1 = name
    · simp only [putEntry, he, if_true, List.map_cons, List.nodup_cons]
      exact ⟨he ▸ h.1, h.2⟩
    · simp only [putEntry, he, if_false, List.map_cons, List.nodup_cons, mem_names_putEntry]
      exact ⟨by simp [h.1], ih h.2⟩

theorem putEntry_of_not_mem {name : κ} {value : α} {entries : List (κ × α)}
    (h : name ∉ entries.map (·.1)) : putEntry name value entries = entries ++ [(name, value)] := by
  induction entries with
  | nil => rfl
  | cons entry rest ih =>
    simp only [List.map_cons, List.mem_cons, not_or] at h
    have he : entry.1 ≠ name := fun he => h.1 he.symm
    simp [putEntry, he, ih h.2]

theorem lookup_putEntry [BEq κ] [LawfulBEq κ] {name k : κ} {value : α} {entries : List (κ × α)} :
    (putEntry name value entries).lookup k = if k = name then some value else entries.lookup k := by
  induction entries with
  | nil =>
    by_cases hk : k = name
    · simp [putEntry, hk]
    · have hb : (k == name) = false := by simp [hk]
      simp [putEntry, List.lookup_cons, hb, hk]
  | cons entry rest ih =>
    obtain ⟨n, v⟩ := entry
    by_cases hn : n = name
    · subst hn
      by_cases hk : k = n
      · simp [putEntry, hk]
      · have hb : (k == n) = false := by simp [hk]
        simp [putEntry, List.lookup_cons, hb, hk]
    · by_cases hk : k = n
      · subst hk
        simp [putEntry, hn]
      · have hb : (k == n) = false := by simp [hk]
        simp [putEntry, hn, List.lookup_cons, ih, hb]

theorem lookup_eq_some_iff_mem [BEq κ] [LawfulBEq κ] {entries : List (κ × α)} {k : κ} {value : α}
    (h : (entries.map (·.1)).Nodup) : entries.lookup k = some value ↔ (k, value) ∈ entries := by
  induction entries with
  | nil => simp
  | cons entry rest ih =>
    obtain ⟨n, v⟩ := entry
    simp only [List.map_cons, List.nodup_cons] at h
    by_cases hk : k = n
    · subst hk
      have hrest : (k, value) ∉ rest := fun hm => h.1 (List.mem_map.2 ⟨_, hm, rfl⟩)
      simp [hrest, eq_comm]
    · have hb : (k == n) = false := by simp [hk]
      simp [List.lookup_cons, hb, hk, ih h.2]

end Entries

/-- Entries in order of first appearance, with every name once. -/
structure NameMap (α : Type) where
  entries : List (String × α)
  distinct : (entries.map (·.1)).Nodup
  deriving DecidableEq, Repr

namespace NameMap

def empty : NameMap α := ⟨[], .nil⟩

instance : Inhabited (NameMap α) := ⟨empty⟩

instance : EmptyCollection (NameMap α) := ⟨empty⟩

def names (m : NameMap α) : List String := m.entries.map (·.1)

def values (m : NameMap α) : List α := m.entries.map (·.2)

def size (m : NameMap α) : Nat := m.entries.length

def get? (m : NameMap α) (name : String) : Option α := m.entries.lookup name

def contains (m : NameMap α) (name : String) : Bool := m.names.contains name

def put (m : NameMap α) (name : String) (value : α) : NameMap α :=
  ⟨putEntry name value m.entries, nodup_names_putEntry m.distinct⟩

def ofList (entries : List (String × α)) : NameMap α :=
  entries.foldl (fun m entry => m.put entry.1 entry.2) empty

def mapValues (f : α → β) (m : NameMap α) : NameMap β :=
  ⟨m.entries.map fun entry => (entry.1, f entry.2), by
    simpa [List.map_map, Function.comp_def] using m.distinct⟩

@[simp] theorem entries_put (m : NameMap α) (name : String) (value : α) :
    (m.put name value).entries = putEntry name value m.entries := rfl

theorem contains_iff {m : NameMap α} {name : String} : m.contains name = true ↔ name ∈ m.names := by
  simp [contains]

theorem get?_eq_some_iff {m : NameMap α} {name : String} {value : α} :
    m.get? name = some value ↔ (name, value) ∈ m.entries :=
  lookup_eq_some_iff_mem m.distinct

theorem get?_eq_none_iff {m : NameMap α} {name : String} : m.get? name = none ↔ name ∉ m.names := by
  rw [get?, List.lookup_eq_none_iff]
  simp only [names, List.mem_map, not_exists, not_and, bne_iff_ne, ne_eq]
  exact ⟨fun h entry hm he => h entry hm he.symm, fun h entry hm he => h entry hm he.symm⟩

theorem mem_names_of_mem {m : NameMap α} {entry : String × α} (h : entry ∈ m.entries) :
    entry.1 ∈ m.names :=
  List.mem_map.2 ⟨entry, h, rfl⟩

theorem get?_put {m : NameMap α} {name k : String} {value : α} :
    (m.put name value).get? k = if k = name then some value else m.get? k :=
  lookup_putEntry

theorem entries_put_of_not_mem {m : NameMap α} {name : String} {value : α} (h : name ∉ m.names) :
    (m.put name value).entries = m.entries ++ [(name, value)] :=
  putEntry_of_not_mem h

@[ext] theorem ext {m n : NameMap α} (h : m.entries = n.entries) : m = n := by
  cases m; cases n; simp_all

end NameMap
end ContractAbi
