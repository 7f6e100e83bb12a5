import Mathlib
import ContractAbi.TypeExpr.Tree

/-!
# Trees of type expressions

Every tree that is read from a text has a member in each of its argument lists, and its names are
identifiers.
-/
namespace ContractAbi.TypeExpr

mutual

/-- Argument lists have a member, and names are identifiers. -/
def Proper : TypeExpr → Prop
  | .primitive _ | .unrecognized _ => True
  | .named name => isTypeName name.toList = true
  | .list element | .variadic element => Proper element
  | .variadicMulti members | .multi members | .tuple members => members ≠ [] ∧ ProperAll members

def ProperAll : List TypeExpr → Prop
  | [] => True
  | member :: rest => Proper member ∧ ProperAll rest

end

theorem properAll_iff {members : List TypeExpr} : ProperAll members ↔ ∀ m ∈ members, Proper m := by
  induction members with
  | nil => simp [ProperAll]
  | cons member rest ih => simp [ProperAll, ih]

theorem parts?_ne_nil {depth : Nat} {text : List Char} {parts : List (List Char)}
    (h : parts? depth text = some parts) : parts ≠ [] := by
  induction text generalizing depth parts with
  | nil =>
    simp only [parts?] at h
    split at h
    · simp [← Option.some.inj h]
    · exact absurd h (by simp)
  | cons c rest ih =>
    have hcons : ∀ {ps : List (List Char)}, Text.consFirst c ps ≠ [] := by
      intro ps
      cases ps <;> simp [Text.consFirst]
    simp only [parts?] at h
    split at h
    · obtain ⟨ps, -, rfl⟩ := Option.map_eq_some_iff.1 h
      exact hcons
    · split at h
      · split at h
        · exact absurd h (by simp)
        · obtain ⟨ps, -, rfl⟩ := Option.map_eq_some_iff.1 h
          exact hcons
      · split at h
        · obtain ⟨ps, -, rfl⟩ := Option.map_eq_some_iff.1 h
          simp
        · obtain ⟨ps, -, rfl⟩ := Option.map_eq_some_iff.1 h
          exact hcons

theorem members?_ne_nil {inner : List Char} {members : List (List Char)}
    (h : members? inner = .ok members) : members ≠ [] := by
  simp only [members?] at h
  split at h
  · exact absurd h (by simp)
  · rename_i parts hparts
    split at h
    · have he := Except.ok.inj h
      subst he
      simpa using parts?_ne_nil hparts
    · exact absurd h (by simp)

theorem Form.ofVariadic_ne_named (inner name : List Char) :
    Form.ofVariadic inner ≠ .ok (.named name) := by
  intro h
  simp only [Form.ofVariadic, bind, Except.bind, pure, Except.pure] at h
  split at h
  · exact absurd h (by simp)
  · split at h
    · have he := Except.ok.inj h
      split at he <;> exact Form.noConfusion he
    · exact Form.noConfusion (Except.ok.inj h)

theorem Form.named_of_stripped {text name : List Char} (h : Form.ofStripped text = .ok (.named name)) :
    isTypeName name = true := by
  simp only [Form.ofStripped, bind, Except.bind, pure, Except.pure] at h
  split at h
  · exact absurd h (by simp)
  · split at h
    · split at h
      · exact Form.noConfusion (Except.ok.inj h)
      · exact absurd h (Form.ofVariadic_ne_named _ name)
      · exact Form.noConfusion (Except.ok.inj h)
      · exact Form.noConfusion (Except.ok.inj h)
      · exact absurd h (by simp)
    · split at h
      · rename_i hname
        exact Form.named.inj (Except.ok.inj h) ▸ hname
      · exact absurd h (by simp)

theorem Form.named_of_text {text name : List Char} (h : Form.ofText text = .ok (.named name)) :
    isTypeName name = true := by
  simp only [Form.ofText] at h
  split at h
  · exact absurd h (by simp)
  · split at h
    · exact absurd (Except.ok.inj h) (by simp)
    · exact Form.named_of_stripped h

theorem proper_ofMembers {inner : List Char} {build : List TypeExpr → TypeExpr}
    {read : (text : List Char) → text.length ≤ inner.length → TypeExpr}
    (hbuild : ∀ members, members ≠ [] → (∀ m ∈ members, Proper m) → Proper (build members))
    (hread : ∀ text h, Proper (read text h)) : Proper (ofMembers inner build read) := by
  rw [ofMembers]
  split
  · trivial
  · rename_i members hm
    refine hbuild _ ?_ ?_
    · simpa using members?_ne_nil hm
    · intro tree htree
      obtain ⟨member, -, rfl⟩ := List.mem_map.1 htree
      exact hread _ _

theorem proper_ofText (text : List Char) : Proper (ofText text) := by
  have hall : ∀ members : List TypeExpr, members ≠ [] → (∀ m ∈ members, Proper m) →
      members ≠ [] ∧ ProperAll members := fun _ hne h => ⟨hne, properAll_iff.2 h⟩
  fun_induction ofText text with
  | case1 => trivial
  | case2 => trivial
  | case3 text name h => simpa [Proper] using Form.named_of_text h
  | case4 text inner h _ ih => exact ih
  | case5 text inner h _ ih => exact ih
  | case6 text inner h _ ih => exact proper_ofMembers (by simpa only [Proper] using hall) ih
  | case7 text inner h _ ih => exact proper_ofMembers (by simpa only [Proper] using hall) ih
  | case8 text inner h _ ih => exact proper_ofMembers (by simpa only [Proper] using hall) ih

theorem proper_parse (expression : String) : Proper (parse expression) :=
  proper_ofText expression.toList

end ContractAbi.TypeExpr
