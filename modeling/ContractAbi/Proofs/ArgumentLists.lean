import ContractAbi.Proofs.Expression
import ContractAbi.Proofs.OptionalWrappers

/-!
# Argument lists

Whether an argument list can be split, and into what, is told by counting its brackets. Every prefix
must open what it closes and the whole must close what it opens; a comma separates members if as many
brackets are closed before it as opened. Texts that keep these rules by themselves are read back from
the list in which they are joined.
-/
namespace ContractAbi

namespace Text

theorem trim_ne_nil_iff {text : List Char} : trim text ≠ [] ↔ ∃ c ∈ text, isBlank c = false := by
  constructor
  · intro h
    -- the first character that is left is no blank
    obtain ⟨first, rest, hfirst⟩ := List.exists_cons_of_ne_nil h
    have hblank := isBlank_head_trim text first (by rw [hfirst]; rfl)
    exact ⟨first, (mem_trim hblank).1 (hfirst ▸ List.mem_cons_self), hblank⟩
  · rintro ⟨c, hc, hblank⟩
    exact List.ne_nil_of_mem ((mem_trim hblank).2 hc)

end Text

namespace TypeExpr

variable {text before front back : List Char} {depth last : Nat} {parts members : List (List Char)}

/-- No prefix closes more brackets than it opens, and in the end all are closed. -/
structure Balanced (text : List Char) : Prop where
  opened : ∀ front, front <+: text → front.count '>' ≤ front.count '<'
  closed : text.count '<' = text.count '>'

/-- A comma in a text with everything before it closed. -/
def isOuterComma (before : List Char) (c : Char) : Bool :=
  c = ',' && before.count '<' = before.count '>'

/-- The characters of a text, each with what stands before it. -/
def placed (before : List Char) : List Char → List (List Char × Char)
  | [] => []
  | c :: rest => (before, c) :: placed (before ++ [c]) rest

/-- The texts between the outer commas of a text that stands behind another. -/
def outerPartsFrom (before text : List Char) : List (List Char) :=
  ((placed before text).splitOnP fun place => isOuterComma place.1 place.2).map (·.map Prod.snd)

/-- The texts between the commas that lie outside all brackets. -/
def outerParts (text : List Char) : List (List Char) :=
  outerPartsFrom [] text

/-- A text that can be a member of an argument list: balanced, not blank, and without a comma outside
of its brackets. -/
structure IsMember (text : List Char) : Prop where
  balanced : Balanced text
  nonblank : ∃ c ∈ text, Text.isBlank c = false
  noComma : ∀ front rest, text = front ++ ',' :: rest → isOuterComma front ',' = false

/-- The text is the member with blanks around it. -/
def Padded (text member : List Char) : Prop :=
  ∃ front back, Blanks front ∧ Blanks back ∧ text = front ++ member ++ back

theorem forall_prefix_cons {holds : List Char → Prop} {c : Char} {rest : List Char} :
    (∀ front, front <+: c :: rest → holds front) ↔
      holds [] ∧ ∀ front, front <+: rest → holds (c :: front) := by
  constructor
  · exact fun h => ⟨h [] List.nil_prefix, fun front hfront => h _ (List.cons_prefix_cons.2 ⟨rfl, hfront⟩)⟩
  · rintro ⟨hnil, hcons⟩ front hfront
    rcases List.prefix_cons_iff.1 hfront with rfl | ⟨tail, rfl, htail⟩
    · exact hnil
    · exact hcons tail htail

theorem depthAfter_eq_some_iff : depthAfter depth text = some last ↔
    (∀ front, front <+: text → front.count '>' ≤ front.count '<' + depth) ∧
      text.count '<' + depth = text.count '>' + last := by
  induction text generalizing depth with
  | nil => simp [depthAfter]
  | cons c rest ih =>
    rw [forall_prefix_cons]
    by_cases hopen : c = '<'
    · subst hopen
      rw [depthAfter_open, ih]
      simp only [List.count_cons_self, ne_eq, Char.reduceEq, not_false_eq_true, List.count_cons_of_ne,
        List.count_nil, Nat.zero_le, true_and]
      refine and_congr (forall₂_congr fun front _ => ?_) ?_ <;> omega
    by_cases hclose : c = '>'
    · subst hclose
      cases depth with
      | zero =>
        refine iff_of_false (by simp [depthAfter]) fun h => ?_
        exact absurd (h.1.2 [] List.nil_prefix) (by decide)
      | succ depth =>
        rw [depthAfter_close, ih]
        simp only [List.count_cons_self, ne_eq, Char.reduceEq, not_false_eq_true, List.count_cons_of_ne,
          List.count_nil, Nat.zero_le, true_and]
        refine and_congr (forall₂_congr fun front _ => ?_) ?_ <;> omega
    · simp [depthAfter_plain hopen hclose, ih, List.count_cons_of_ne, hopen, hclose]

theorem depthAfter_zero_iff : depthAfter 0 text = some 0 ↔ Balanced text := by
  rw [depthAfter_eq_some_iff]
  exact ⟨fun ⟨hopened, hclosed⟩ => ⟨hopened, hclosed⟩, fun h => ⟨h.opened, h.closed⟩⟩

theorem count_bracket_of_isPlain (h : ∀ c ∈ text, IsPlain c) :
    text.count '<' = 0 ∧ text.count '>' = 0 :=
  ⟨List.count_eq_zero.2 fun hmem => (h _ hmem).1 rfl,
    List.count_eq_zero.2 fun hmem => (h _ hmem).2.1 rfl⟩

/-- What is left of a balanced text without plain characters at its ends is balanced. -/
theorem Balanced.of_plain (hfront : ∀ c ∈ front, IsPlain c) (hback : ∀ c ∈ back, IsPlain c)
    (h : Balanced (front ++ text ++ back)) : Balanced text := by
  obtain ⟨hopenFront, hcloseFront⟩ := count_bracket_of_isPlain hfront
  obtain ⟨hopenBack, hcloseBack⟩ := count_bracket_of_isPlain hback
  refine ⟨fun start hstart => ?_, ?_⟩
  · have hprefix : front ++ start <+: front ++ text ++ back :=
      ((List.prefix_append_right_inj front).2 hstart).trans (List.prefix_append _ _)
    simpa [hopenFront, hcloseFront] using h.opened _ hprefix
  · simpa [hopenFront, hcloseFront, hopenBack, hcloseBack] using h.closed

theorem isOuterComma_append (hfront : ∀ c ∈ front, IsPlain c) (before : List Char) (c : Char) :
    isOuterComma (front ++ before) c = isOuterComma before c := by
  obtain ⟨hopen, hclose⟩ := count_bracket_of_isPlain hfront
  simp [isOuterComma, hopen, hclose]

theorem outerPartsFrom_nil (before : List Char) : outerPartsFrom before [] = [[]] := by
  simp [outerPartsFrom, placed]

theorem outerPartsFrom_cons (before : List Char) (c : Char) (rest : List Char) :
    outerPartsFrom before (c :: rest) =
      if isOuterComma before c then [] :: outerPartsFrom (before ++ [c]) rest
      else Text.consFirst c (outerPartsFrom (before ++ [c]) rest) := by
  rw [outerPartsFrom, placed, List.splitOnP_cons_eq_if_modifyHead]
  split
  · rfl
  · obtain ⟨first, others, hparts⟩ := List.exists_cons_of_ne_nil
      (List.splitOnP_ne_nil (fun place => isOuterComma place.1 place.2) (placed (before ++ [c]) rest))
    rw [outerPartsFrom, hparts]
    rfl

/-- The depth behind a text is what it leaves open, so the split finds its outer commas. -/
theorem parts?_eq (hdepth : before.count '<' = before.count '>' + depth) (text : List Char) :
    parts? depth text =
      if depthAfter depth text = some 0 then some (outerPartsFrom before text) else none := by
  induction text generalizing before depth with
  | nil => simp [parts?, depthAfter, outerPartsFrom_nil]
  | cons c rest ih =>
    have hmap (value : List (List Char)) (holds : Prop) [Decidable holds]
        (f : List (List Char) → List (List Char)) :
        (if holds then some value else none).map f = if holds then some (f value) else none := by
      split <;> rfl
    rw [outerPartsFrom_cons]
    by_cases hopen : c = '<'
    · subst hopen
      rw [parts?_open, depthAfter_open, @ih (before ++ ['<']) _ (by simp; omega), hmap]
      rfl
    by_cases hclose : c = '>'
    · subst hclose
      cases depth with
      | zero => simp [parts?, depthAfter]
      | succ depth =>
        rw [parts?_close, depthAfter_close, @ih (before ++ ['>']) _ (by simp; omega), hmap]
        rfl
    have hnext : (before ++ [c]).count '<' = (before ++ [c]).count '>' + depth := by
      simp [hopen, hclose, hdepth]
    rw [depthAfter_plain hopen hclose]
    by_cases houter : c = ',' ∧ depth = 0
    · obtain ⟨rfl, rfl⟩ := houter
      have hcomma : isOuterComma before ',' = true := by simpa [isOuterComma] using hdepth
      rw [parts?_comma, ih hnext, hmap, hcomma]
      rfl
    · have hinside : isOuterComma before c = false := by
        rw [isOuterComma, Bool.and_eq_false_iff, decide_eq_false_iff_not, decide_eq_false_iff_not]
        refine not_and_or.1 ?_
        rintro ⟨hc, hcount⟩
        exact houter ⟨hc, by omega⟩
      rw [parts?_plain hopen hclose (fun hc hzero => houter ⟨hc, hzero⟩), ih hnext, hmap, hinside]
      rfl

theorem parts?_eq_some_outerParts (h : Balanced text) : parts? 0 text = some (outerParts text) := by
  rw [@parts?_eq [] 0 rfl, if_pos (depthAfter_zero_iff.2 h)]
  rfl

theorem paired_iff : Paired text ↔ Balanced text := by
  rw [← isBalanced_iff, isBalanced, beq_iff_eq, depthAfter_zero_iff]

theorem separates_iff : Separates text parts ↔ Balanced text ∧ parts = outerParts text := by
  rw [← parts?_eq_some_iff]
  constructor
  · intro h
    have hbalanced := paired_iff.1 (parts?_eq_some_iff.1 h).paired
    exact ⟨hbalanced, Option.some.inj (h.symm.trans (parts?_eq_some_outerParts hbalanced))⟩
  · rintro ⟨hbalanced, rfl⟩
    exact parts?_eq_some_outerParts hbalanced

theorem map_snd_placed (before text : List Char) : (placed before text).map Prod.snd = text := by
  induction text generalizing before with
  | nil => rfl
  | cons c rest ih => rw [placed, List.map_cons, ih]

theorem placed_append (before front rest : List Char) :
    placed before (front ++ rest) = placed before front ++ placed (before ++ front) rest := by
  induction front generalizing before with
  | nil => simp [placed]
  | cons c front ih => simp [placed, ih]

theorem exists_of_mem_placed {place : List Char × Char} (h : place ∈ placed before text) :
    ∃ front rest, text = front ++ place.2 :: rest ∧ place.1 = before ++ front := by
  induction text generalizing before with
  | nil => cases h
  | cons c rest ih =>
    rcases List.mem_cons.1 h with rfl | h
    · exact ⟨[], rest, rfl, (List.append_nil _).symm⟩
    · obtain ⟨front, others, rfl, hbefore⟩ := ih h
      exact ⟨c :: front, others, rfl, by rw [hbefore, List.append_assoc]; rfl⟩

/-- A text is its only part exactly if it has no outer comma. -/
theorem outerParts_eq_singleton_iff : outerParts text = [text] ↔
    ∀ front rest, text = front ++ ',' :: rest → isOuterComma front ',' = false := by
  constructor
  · rintro h front rest rfl
    cases hcomma : isOuterComma front ',' with
    | false => rfl
    | true =>
      -- each side of an outer comma has a part of its own
      have hsides := @List.splitOnP_append_cons _ (fun place => isOuterComma place.1 place.2)
        (placed [] front) (placed (front ++ [',']) rest) (front, ',') hcomma
      rw [outerParts, outerPartsFrom, placed_append, List.nil_append, placed, hsides] at h
      have hlength := congrArg List.length h
      have hleft := List.length_pos_of_ne_nil
        (List.splitOnP_ne_nil (fun place => isOuterComma place.1 place.2) (placed [] front))
      have hright := List.length_pos_of_ne_nil
        (List.splitOnP_ne_nil (fun place => isOuterComma place.1 place.2) (placed (front ++ [',']) rest))
      simp only [List.length_map, List.length_append, List.length_singleton] at hlength
      omega
  · intro h
    rw [outerParts, outerPartsFrom, List.splitOnP_eq_singleton, List.map_singleton, map_snd_placed]
    intro place hplace
    obtain ⟨front, rest, htext, hbefore⟩ := exists_of_mem_placed hplace
    rw [hbefore, List.nil_append]
    by_cases hc : place.2 = ','
    · rw [hc] at htext ⊢
      exact h front rest htext
    · simp [isOuterComma, hc]

theorem enclosed_iff : Enclosed text ↔ Balanced text ∧
    ∀ front rest, text = front ++ ',' :: rest → isOuterComma front ',' = false := by
  have hwhole : Enclosed text ↔ Separates text [text] := by
    refine ⟨fun h => ⟨List.cons_ne_nil _ _, by simp [List.intercalate], ?_⟩, fun h => ?_⟩
    · exact fun part hpart => List.mem_singleton.1 hpart ▸ h
    · exact h.enclosed text List.mem_cons_self
  rw [hwhole, separates_iff, ← outerParts_eq_singleton_iff, eq_comm]

theorem isMember_iff : IsMember text ↔ Enclosed text ∧ Text.trim text ≠ [] := by
  rw [enclosed_iff, Text.trim_ne_nil_iff]
  exact ⟨fun h => ⟨⟨h.balanced, h.noComma⟩, h.nonblank⟩, fun ⟨⟨hbalanced, hcomma⟩, hblank⟩ =>
    ⟨hbalanced, hblank, hcomma⟩⟩

theorem Padded.trim_eq {member : List Char} (h : Padded text member) :
    Text.trim text = Text.trim member := by
  obtain ⟨front, back, hfront, hback, rfl⟩ := h
  exact Text.trim_append_blanks hfront hback

theorem padded_trim (text : List Char) : Padded text (Text.trim text) := by
  obtain ⟨front, back, htext, hfront, hback⟩ := Text.exists_trim text
  exact ⟨front, back, hfront, hback, htext⟩

/-- Blanks around a text have no say in whether it can be a member. -/
theorem Padded.isMember_iff {member : List Char} (h : Padded text member) :
    IsMember text ↔ IsMember member := by
  have htrim := h.trim_eq
  obtain ⟨front, back, hfront, hback, rfl⟩ := h
  have hplain {blanks : List Char} (hblanks : Blanks blanks) : ∀ c ∈ blanks, IsPlain c :=
    fun c hc => isPlain_of_isBlank (hblanks c hc)
  rw [TypeExpr.isMember_iff, htrim, TypeExpr.isMember_iff]
  refine and_congr_left fun _ => ⟨fun h => ?_, fun h => ?_⟩
  · obtain ⟨hbalanced, hcomma⟩ := enclosed_iff.1 h
    refine enclosed_iff.2 ⟨hbalanced.of_plain (hplain hfront) (hplain hback), ?_⟩
    rintro start rest rfl
    rw [← isOuterComma_append (hplain hfront)]
    exact hcomma _ (rest ++ back) (by simp)
  · exact ((enclosed_of_plain (hplain hfront)).append h).append (enclosed_of_plain (hplain hback))

/-- A list is split exactly if it is balanced and none of its parts is blank, and then into its parts,
trimmed. -/
theorem members?_eq_ok_iff_outerParts : members? text = .ok members ↔
    (Balanced text ∧ ∀ part ∈ outerParts text, ∃ c ∈ part, Text.isBlank c = false) ∧
      members = (outerParts text).map Text.trim := by
  simp only [members?_eq_ok_iff, separates_iff, ← Text.trim_ne_nil_iff]
  constructor
  · rintro ⟨_, ⟨hbalanced, rfl⟩, rfl, hblank⟩
    exact ⟨⟨hbalanced, fun part hpart => hblank _ (List.mem_map_of_mem hpart)⟩, rfl⟩
  · rintro ⟨⟨hbalanced, hblank⟩, rfl⟩
    refine ⟨_, ⟨hbalanced, rfl⟩, rfl, fun member hmember => ?_⟩
    obtain ⟨part, hpart, rfl⟩ := List.mem_map.1 hmember
    exact hblank part hpart

/-- A list that is not split is refused as a whole. -/
theorem fault_of_members? {fault : Unrecognized} (h : members? text = .error fault) : fault = ⟨text⟩ := by
  simp only [members?] at h
  split at h
  · exact (Except.error.inj h).symm
  · split at h
    · cases h
    · exact (Except.error.inj h).symm

theorem isMember_of_members? (h : members? text = .ok members) : ∀ member ∈ members, IsMember member := by
  obtain ⟨parts, hparts, rfl, hblank⟩ := members?_eq_ok_iff.1 h
  intro member hmember
  obtain ⟨part, hpart, rfl⟩ := List.mem_map.1 hmember
  exact (padded_trim part).isMember_iff.1 (isMember_iff.2 ⟨hparts.enclosed part hpart, hblank _ hmember⟩)

theorem trim_of_members? (h : members? text = .ok members) :
    ∀ member ∈ members, Text.trim member = member := by
  obtain ⟨parts, -, rfl, -⟩ := members?_eq_ok_iff.1 h
  intro member hmember
  obtain ⟨part, -, rfl⟩ := List.mem_map.1 hmember
  exact Text.trim_trim part

/-- Members that are joined, with any blanks around them, are read back. -/
theorem members?_joined {texts : List (List Char)} (hne : members ≠ [])
    (hmembers : ∀ member ∈ members, IsMember member) (hpadded : List.Forall₂ Padded texts members) :
    members? ([','].intercalate texts) = .ok (members.map Text.trim) := by
  have hisMember : ∀ text ∈ texts, IsMember text := fun text htext => by
    obtain ⟨member, hmember, hpad⟩ := exists_of_forall₂_left hpadded htext
    exact hpad.isMember_iff.2 (hmembers member hmember)
  have htrim : texts.map Text.trim = members.map Text.trim := by
    clear hne hmembers hisMember
    induction hpadded with
    | nil => rfl
    | cons hpad _ ih => rw [List.map_cons, hpad.trim_eq, ih, List.map_cons]
  refine members?_eq_ok_iff.2 ⟨texts, ⟨?_, rfl, ?_⟩, htrim.symm, ?_⟩
  · rintro rfl
    cases hpadded
    exact hne rfl
  · exact fun text htext => (isMember_iff.1 (hisMember text htext)).1
  · rw [← htrim]
    intro member hmember
    obtain ⟨text, htext, rfl⟩ := List.mem_map.1 hmember
    exact (isMember_iff.1 (hisMember text htext)).2

/-- Splitting an argument list undoes joining its members. A text is split exactly if no prefix closes
more brackets than it opens, all are closed in the end and no part between its outer commas is blank;
its members are those parts in order, trimmed, and there is at least one. Any other text is refused as
a whole. Each member can be one again, and members that are joined with any blanks around them are
read back. -/
theorem splitting_undoes_joining (text : List Char) :
    ((∃ members, members? text = .ok members) ↔
      Balanced text ∧ ∀ part ∈ outerParts text, ∃ c ∈ part, Text.isBlank c = false) ∧
    (∀ members, members? text = .ok members →
      members = (outerParts text).map Text.trim ∧ members ≠ [] ∧
        ∀ member ∈ members, IsMember member ∧ Text.trim member = member) ∧
    (∀ fault, members? text = .error fault → fault = ⟨text⟩) ∧
    ∀ texts members : List (List Char), members ≠ [] → (∀ member ∈ members, IsMember member) →
      List.Forall₂ Padded texts members → text = [','].intercalate texts →
        members? text = .ok (members.map Text.trim) := by
  refine ⟨?_, fun members h => ?_, fun fault => fault_of_members?, ?_⟩
  · simp only [members?_eq_ok_iff_outerParts, exists_and_left, exists_eq, and_true]
  · obtain ⟨-, hparts⟩ := members?_eq_ok_iff_outerParts.1 h
    exact ⟨hparts, members?_ne_nil h,
      fun member hmember => ⟨isMember_of_members? h member hmember, trim_of_members? h member hmember⟩⟩
  · rintro texts members hne hmembers hpadded rfl
    exact members?_joined hne hmembers hpadded

/-- The members of a pair with a tuple in it. -/
def pairMembers : List (List Char) :=
  ["u8".toList, "tuple<u8,u16>".toList]

/-- A pair is read back from its list, also if wide blanks stand around its members. An empty member
between two commas is refused, and so is a bracket that closes nothing. -/
theorem padded_pair_is_read_back :
    (∀ member ∈ pairMembers, IsMember member) ∧
      members? ([','].intercalate [" u8\t".toList, "\u3000tuple<u8,u16> ".toList]) = .ok pairMembers ∧
      (¬ ∃ members, members? "u8,,u16".toList = .ok members) ∧
      ¬ ∃ members, members? "u8>,<u16".toList = .ok members := by
  have hmembers : ∀ member ∈ pairMembers, IsMember member := fun member hmember =>
    (((splitting_undoes_joining "u8,tuple<u8,u16>".toList).2.1 pairMembers (by decide)).2.2
      member hmember).1
  have hpadded : List.Forall₂ Padded [" u8\t".toList, "\u3000tuple<u8,u16> ".toList] pairMembers :=
    .cons ⟨[' '], ['\t'], by simp [Blanks]; decide, by simp [Blanks]; decide, rfl⟩
      (.cons ⟨['\u3000'], [' '], by simp [Blanks]; decide, by simp [Blanks]; decide, rfl⟩ .nil)
  refine ⟨hmembers, ?_, fun h => ?_, fun h => ?_⟩
  · exact (splitting_undoes_joining _).2.2.2 _ pairMembers (by decide) hmembers hpadded rfl
  · obtain ⟨-, hblank⟩ := (splitting_undoes_joining _).1.1 h
    obtain ⟨c, hc, -⟩ := hblank [] (by decide)
    cases hc
  · obtain ⟨hbalanced, -⟩ := (splitting_undoes_joining _).1.1 h
    exact absurd (hbalanced.opened "u8>".toList ⟨",<u16".toList, rfl⟩) (by decide)

end TypeExpr
end ContractAbi
