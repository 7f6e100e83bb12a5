import Mathlib
import ContractAbi.Bindings.SourceFile

/-!
# Inputs without end

The code for an input goes through the fields of records and tuples and on into their fields, so it has
no end for a type that is inside itself. The statements of a method stop at a limit on nesting. For
every other type the limit is out of reach: nested records and tuples are different ones, and there are
no more of them than the catalog declares.
-/
namespace ContractAbi

namespace ResolvedType

/-- The declaration that a record or tuple goes by. -/
def declaredName? : ResolvedType → Option (String ⊕ String)
  | .record name => some (.inl name)
  | .tuple name _ => some (.inr name)
  | _ => none

end ResolvedType

namespace Catalog

variable {catalog : Catalog} {type part : ResolvedType}

/-- The types that the code for a type goes on with: those of the declared fields of a record or tuple,
and those of the members or elements of any other type. -/
def unfold (catalog : Catalog) : ResolvedType → List ResolvedType
  | .primitive _ | .enum _ => []
  | .list element | .variadic element => [element]
  | .multi _ members | .variadicMulti _ members => members
  | type => ((catalog.fieldsOf? type).getD []).map (·.type)

/-- The code for the first type goes on with the second one. -/
def Unfolds (catalog : Catalog) (whole part : ResolvedType) : Prop :=
  part ∈ catalog.unfold whole

/-- The code for a type ends: nothing that it goes through is inside itself. -/
def CodeEnds (catalog : Catalog) (type : ResolvedType) : Prop :=
  ∀ part, Relation.ReflTransGen catalog.Unfolds type part →
    ¬ Relation.TransGen catalog.Unfolds part part

theorem CodeEnds.of_unfolds (h : catalog.CodeEnds type) (hpart : catalog.Unfolds type part) :
    catalog.CodeEnds part :=
  fun inner hinner => h inner (.head hpart hinner)

theorem unfold_of_declaredName? {name : String ⊕ String} (h : type.declaredName? = some name) :
    catalog.unfold type = ((catalog.fieldsOf? type).getD []).map (·.type) := by
  cases type <;> cases h <;> rfl

/-- What is declared under one name has one list of fields. -/
theorem unfold_congr {name : String ⊕ String} {other : ResolvedType}
    (h : type.declaredName? = some name) (hother : other.declaredName? = some name) :
    catalog.unfold type = catalog.unfold other := by
  cases type <;> cases h <;> cases other <;> cases hother <;> rfl

/-- The names of all declared records and tuples. -/
def declaredNames (catalog : Catalog) : List (String ⊕ String) :=
  catalog.records.names.map .inl ++ catalog.composites.names.map .inr

theorem mem_declaredNames {name : String ⊕ String} {fields : List Field}
    (hname : type.declaredName? = some name) (hfields : catalog.fieldsOf? type = some fields) :
    name ∈ catalog.declaredNames := by
  cases type with
  | record =>
    obtain rfl := Option.some.inj hname
    have hmem := NameMap.mem_names_of_mem (NameMap.get?_eq_some_iff.1 hfields)
    exact List.mem_append_left _ (List.mem_map_of_mem hmem)
  | tuple =>
    obtain rfl := Option.some.inj hname
    have hmem := NameMap.mem_names_of_mem (NameMap.get?_eq_some_iff.1 hfields)
    exact List.mem_append_right _ (List.mem_map_of_mem hmem)
  | _ => cases hname

open Classical in
/-- The declared records and tuples that the code for a type goes through. -/
noncomputable def unfolded (catalog : Catalog) (type : ResolvedType) : Finset (String ⊕ String) :=
  catalog.declaredNames.toFinset.filter fun name =>
    ∃ part, Relation.ReflTransGen catalog.Unfolds type part ∧ part.declaredName? = some name

theorem mem_unfolded {name : String ⊕ String} : name ∈ catalog.unfolded type ↔
    name ∈ catalog.declaredNames ∧
      ∃ part, Relation.ReflTransGen catalog.Unfolds type part ∧ part.declaredName? = some name := by
  classical rw [unfolded, Finset.mem_filter, List.mem_toFinset]

theorem card_unfolded_le (catalog : Catalog) (type : ResolvedType) :
    (catalog.unfolded type).card ≤ catalog.records.size + catalog.composites.size := by
  classical
  have hlength : catalog.declaredNames.length = catalog.records.size + catalog.composites.size := by
    simp [declaredNames, NameMap.names, NameMap.size]
  have hcard : (catalog.unfolded type).card ≤ catalog.declaredNames.toFinset.card :=
    Finset.card_le_card (Finset.filter_subset _ _)
  exact hcard.trans (hlength ▸ List.toFinset_card_le _)

theorem unfolded_subset (hpart : catalog.Unfolds type part) :
    catalog.unfolded part ⊆ catalog.unfolded type := by
  intro name hname
  obtain ⟨hdeclared, inner, hpath, hinner⟩ := mem_unfolded.1 hname
  exact mem_unfolded.2 ⟨hdeclared, inner, .head hpart hpath, hinner⟩

/-- The code for a field does not come back to the declaration of the field. -/
theorem CodeEnds.card_unfolded_lt (h : catalog.CodeEnds type) {name : String ⊕ String}
    (hname : type.declaredName? = some name) (hdeclared : name ∈ catalog.declaredNames)
    (hpart : catalog.Unfolds type part) :
    (catalog.unfolded part).card < (catalog.unfolded type).card := by
  have hself : name ∈ catalog.unfolded type := mem_unfolded.2 ⟨hdeclared, type, .refl, hname⟩
  have hnot : name ∉ catalog.unfolded part := by
    intro hmem
    obtain ⟨-, inner, hpath, hinner⟩ := mem_unfolded.1 hmem
    have hback : catalog.Unfolds inner part := by
      rw [Unfolds, unfold_congr hinner hname]
      exact hpart
    exact h inner (.head hpart hpath) (Relation.TransGen.head' hback hpath)
  exact Finset.card_lt_card ⟨unfolded_subset hpart, fun hsuper => hnot (hsuper hself)⟩

theorem encodeMembers_congr {encode other : EncodeFields} {members : List ResolvedType}
    (h : ∀ member ∈ members, ∀ place depth, member.encode encode place depth =
      member.encode other place depth) (place : Place) (depth index : Nat) :
    ResolvedType.encodeMembers encode place depth index members =
      ResolvedType.encodeMembers other place depth index members := by
  induction members generalizing index with
  | nil => rfl
  | cons member rest ih =>
    obtain ⟨hmember, hrest⟩ := List.forall_mem_cons.1 h
    rw [ResolvedType.encodeMembers, ResolvedType.encodeMembers, hmember, ih hrest]

/-- The code for the type ends, and nesting up to the limit leaves room for all declarations inside. -/
structure HasRoom (catalog : Catalog) (limit : Nat) (type : ResolvedType) : Prop where
  ends : catalog.CodeEnds type
  card_le : (catalog.unfolded type).card ≤ limit

namespace HasRoom

variable {n m limit : Nat} {name : String ⊕ String}

theorem of_unfolds (h : catalog.HasRoom limit type) (hpart : catalog.Unfolds type part) :
    catalog.HasRoom limit part where
  ends := h.ends.of_unfolds hpart
  card_le := (Finset.card_le_card (unfolded_subset hpart)).trans h.card_le

/-- A declaration needs a step of nesting for itself. -/
theorem exists_eq_succ (h : catalog.HasRoom limit type) (hname : type.declaredName? = some name)
    (hdeclared : name ∈ catalog.declaredNames) : ∃ inside, limit = inside + 1 := by
  have hpositive : 0 < (catalog.unfolded type).card :=
    Finset.card_pos.2 ⟨name, mem_unfolded.2 ⟨hdeclared, type, .refl, hname⟩⟩
  have hle := h.card_le
  exact ⟨limit - 1, by omega⟩

/-- The parts of a declaration do not need the step that it takes itself. -/
theorem of_declared (h : catalog.HasRoom (limit + 1) type) (hname : type.declaredName? = some name)
    (hdeclared : name ∈ catalog.declaredNames) (hpart : catalog.Unfolds type part) :
    catalog.HasRoom limit part where
  ends := h.ends.of_unfolds hpart
  card_le := by
    have hless := h.ends.card_unfolded_lt hname hdeclared hpart
    have hle := h.card_le
    omega

theorem encodeFields_eq (hn : catalog.HasRoom n type) (hm : catalog.HasRoom m type)
    (hname : type.declaredName? = some name)
    (ih : ∀ n' < n, ∀ {part : ResolvedType} {m' : Nat}, catalog.HasRoom n' part →
      catalog.HasRoom m' part → ∀ place depth, part.encode (catalog.encodeFields n') place depth =
        part.encode (catalog.encodeFields m') place depth) (place : Place) (depth : Nat) :
    catalog.encodeFields n type place depth = catalog.encodeFields m type place depth := by
  cases hfields : catalog.fieldsOf? type with
  | none => cases n <;> cases m <;> simp [encodeFields, hfields]
  | some fields =>
    have hdeclared := mem_declaredNames hname hfields
    have hunfold : catalog.unfold type = fields.map (·.type) := by
      rw [unfold_of_declaredName? hname, hfields, Option.getD_some]
    obtain ⟨n, rfl⟩ := hn.exists_eq_succ hname hdeclared
    obtain ⟨m, rfl⟩ := hm.exists_eq_succ hname hdeclared
    rw [encodeFields, encodeFields, hfields]
    apply List.flatMap_congr
    intro field hfield
    have hpart : catalog.Unfolds type field.type := by
      rw [Unfolds, hunfold]
      exact List.mem_map_of_mem hfield
    have hinside := hn.of_declared hname hdeclared hpart
    exact ih n (Nat.lt_succ_self n) hinside (hm.of_declared hname hdeclared hpart) _ _

/-- Any two limits that leave room give the same statements. -/
theorem encode_eq (hn : catalog.HasRoom n type) (hm : catalog.HasRoom m type) (place : Place)
    (depth : Nat) : type.encode (catalog.encodeFields n) place depth =
      type.encode (catalog.encodeFields m) place depth := by
  induction n using Nat.strong_induction_on generalizing m type place depth with
  | _ n ihlimit =>
    -- only a record or a tuple takes a step of nesting, so other types go by their structure
    induction type using ResolvedType.memberInduction generalizing place depth with
    | primitive kind => rfl
    | enum name => rfl
    | record name =>
      rw [ResolvedType.encode, ResolvedType.encode]
      exact hn.encodeFields_eq hm rfl ihlimit place depth
    | tuple name members _ =>
      rw [ResolvedType.encode, ResolvedType.encode]
      exact hn.encodeFields_eq hm rfl ihlimit place depth
    | list element ih =>
      have hpart : catalog.Unfolds (.list element) element := List.mem_cons_self
      rw [ResolvedType.encode, ResolvedType.encode]
      simp only [ih (hn.of_unfolds hpart) (hm.of_unfolds hpart)]
    | variadic element ih =>
      have hpart : catalog.Unfolds (.variadic element) element := List.mem_cons_self
      rw [ResolvedType.encode, ResolvedType.encode]
      simp only [ih (hn.of_unfolds hpart) (hm.of_unfolds hpart)]
    | multi name members ih =>
      rw [ResolvedType.encode, ResolvedType.encode]
      apply encodeMembers_congr
      intro member hmember
      have hpart : catalog.Unfolds (.multi name members) member := hmember
      exact ih member hmember (hn.of_unfolds hpart) (hm.of_unfolds hpart)
    | variadicMulti name members ih =>
      have hmembers : ∀ member ∈ members, ∀ place depth,
          member.encode (catalog.encodeFields n) place depth =
            member.encode (catalog.encodeFields m) place depth := by
        intro member hmember
        have hpart : catalog.Unfolds (.variadicMulti name members) member := hmember
        exact ih member hmember (hn.of_unfolds hpart) (hm.of_unfolds hpart)
      rw [ResolvedType.encode, ResolvedType.encode]
      simp only [encodeMembers_congr hmembers]

end HasRoom

/-- A higher limit adds nothing to the statements for a type whose code ends. -/
theorem CodeEnds.encode_eq_encodeStatements (h : catalog.CodeEnds type) {limit : Nat}
    (hlimit : catalog.records.size + catalog.composites.size ≤ limit) (place : Place) :
    type.encode (catalog.encodeFields limit) place 0 = catalog.encodeStatements place type := by
  have hroom : catalog.HasRoom (catalog.records.size + catalog.composites.size) type :=
    ⟨h, catalog.card_unfolded_le type⟩
  have hlarge : catalog.HasRoom limit type := ⟨h, hroom.card_le.trans hlimit⟩
  exact hlarge.encode_eq hroom place 0

end Catalog

namespace Contract

/-- The code for the inputs of all endpoints ends. -/
def InputsEnd (contract : Contract) : Prop :=
  ∀ endpoint ∈ contract.endpoints, ∀ input ∈ endpoint.inputs, contract.catalog.CodeEnds input.type

/-- The statements for the inputs are all there: the limit on nesting cuts none of them off. -/
def KeepsInputs (contract : Contract) : Prop :=
  ∀ endpoint ∈ contract.endpoints, ∀ input ∈ endpoint.inputs, ∀ (place : Place) (limit : Nat),
    contract.catalog.records.size + contract.catalog.composites.size ≤ limit →
    input.type.encode (contract.catalog.encodeFields limit) place 0 =
      contract.catalog.encodeStatements place input.type

theorem InputsEnd.keepsInputs {contract : Contract} (h : contract.InputsEnd) : contract.KeepsInputs :=
  fun endpoint hendpoint input hinput place _ hlimit =>
    (h endpoint hendpoint input hinput).encode_eq_encodeStatements hlimit place

end Contract
end ContractAbi
