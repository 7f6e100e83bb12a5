import ContractAbi.Text.Basic

/-!
Angle brackets in type expressions. A text is taken apart either as one head with bracketed
arguments or as members between the commas that lie outside every bracket pair. Both splits look
at brackets only and leave the parts to be read later.
-/
namespace ContractAbi.TypeExpr

/-- A text that is no type expression. -/
structure Unrecognized where
  text : List Char
  deriving DecidableEq, Repr

def Unrecognized.message (e : Unrecognized) : String :=
  "unrecognized type expression '" ++ String.ofList e.text ++ "'"

/-- The bracket depth after a text that starts at `depth`, unless it closes too much. -/
def depthAfter (depth : Nat) : List Char → Option Nat
  | [] => some depth
  | c :: rest =>
    if c = '<' then depthAfter (depth + 1) rest
    else if c = '>' then
      match depth with
      | 0 => none
      | d + 1 => depthAfter d rest
    else depthAfter depth rest

def isBalanced (text : List Char) : Bool :=
  depthAfter 0 text == some 0

/-- Takes `Head<inner>` apart into its trimmed head and the text between the first bracket and
the last, which must be a pair. A text without brackets has no such parts. -/
def application? (text : List Char) : Except Unrecognized (Option (List Char × List Char)) :=
  let head := Text.trim (text.takeWhile (· ≠ '<'))
  match text.dropWhile (· ≠ '<') with
  | [] => if text.contains '>' then .error ⟨text⟩ else .ok none
  | _ :: tail =>
    if tail.getLast? = some '>' ∧ isBalanced tail.dropLast ∧ head ≠ [] then
      .ok (some (head, tail.dropLast))
    else .error ⟨text⟩

theorem length_inner_lt {text head inner : List Char}
    (h : application? text = .ok (some (head, inner))) : inner.length < text.length := by
  have hle := (List.dropWhile_sublist (· ≠ '<') (l := text)).length_le
  simp only [application?] at h
  split at h
  · split at h <;> simp at h
  · rename_i c tail hdrop
    split at h
    · simp only [Except.ok.injEq, Option.some.injEq, Prod.mk.injEq] at h
      simp only [ne_eq, hdrop, List.length_cons] at hle
      rw [← h.2, List.length_dropLast]
      omega
    · simp at h

/-- The parts of a text between the commas at depth 0, if its brackets pair up. -/
def parts? (depth : Nat) : List Char → Option (List (List Char))
  | [] => if depth = 0 then some [[]] else none
  | c :: rest =>
    if c = '<' then (parts? (depth + 1) rest).map (Text.consFirst c)
    else if c = '>' then
      match depth with
      | 0 => none
      | d + 1 => (parts? d rest).map (Text.consFirst c)
    else if c = ',' ∧ depth = 0 then (parts? 0 rest).map ([] :: ·)
    else (parts? depth rest).map (Text.consFirst c)

/-- The members of an argument list, trimmed. A blank member is refused like an open bracket. -/
def members? (inner : List Char) : Except Unrecognized (List (List Char)) :=
  match parts? 0 inner with
  | none => .error ⟨inner⟩
  | some parts =>
    let members := parts.map Text.trim
    if members.all (· ≠ []) then .ok members else .error ⟨inner⟩

theorem length_part_le {depth : Nat} {text : List Char} {parts : List (List Char)}
    (h : parts? depth text = some parts) : ∀ part ∈ parts, part.length ≤ text.length := by
  induction text generalizing depth parts with
  | nil =>
    simp only [parts?] at h
    split at h
    · simp [← Option.some.inj h]
    · simp at h
  | cons c rest ih =>
    simp only [parts?] at h
    split at h
    · obtain ⟨ps, hps, rfl⟩ := Option.map_eq_some_iff.1 h
      exact Text.length_consFirst_le (ih hps)
    · split at h
      · split at h
        · simp at h
        · obtain ⟨ps, hps, rfl⟩ := Option.map_eq_some_iff.1 h
          exact Text.length_consFirst_le (ih hps)
      · split at h
        · obtain ⟨ps, hps, rfl⟩ := Option.map_eq_some_iff.1 h
          intro part hp
          simp only [List.mem_cons] at hp
          rcases hp with rfl | hp
          · simp
          · exact Nat.le_succ_of_le (ih hps part hp)
        · obtain ⟨ps, hps, rfl⟩ := Option.map_eq_some_iff.1 h
          exact Text.length_consFirst_le (ih hps)

theorem length_member_le {inner : List Char} {members : List (List Char)}
    (h : members? inner = .ok members) : ∀ m ∈ members, m.length ≤ inner.length := by
  simp only [members?] at h
  split at h
  · simp at h
  · rename_i parts hparts
    split at h
    · simp only [Except.ok.injEq] at h
      subst h
      intro m hm
      obtain ⟨part, hp, rfl⟩ := List.mem_map.1 hm
      exact Nat.le_trans (Text.length_trim_le part) (length_part_le hparts part hp)
    · simp at h

end ContractAbi.TypeExpr
