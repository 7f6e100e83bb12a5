import ContractAbi.Path
import Mathlib

/-!
# Joined paths

The steps of a joined path are the steps of its parts. So the path of a file that is named after a
module has the steps that lead to the last part of the name, and then that part with its extension.
-/
namespace ContractAbi

namespace Text

variable {isMark : Char → Bool}

theorem consFirst_append (c : Char) {parts : List (List Char)} (h : parts ≠ [])
    (others : List (List Char)) :
    consFirst c (parts ++ others) = consFirst c parts ++ others := by
  cases parts with
  | nil => exact absurd rfl h
  | cons first rest => rfl

theorem split_ne_nil (isMark : Char → Bool) (text : List Char) : split isMark text ≠ [] := by
  cases text with
  | nil => exact List.cons_ne_nil _ _
  | cons c rest =>
    rw [split]
    split
    · exact List.cons_ne_nil _ _
    · cases split isMark rest <;> exact List.cons_ne_nil _ _

/-- A mark cuts a text in two that have nothing to do with each other. -/
theorem split_append_mark {mark : Char} (hmark : isMark mark = true) (front rest : List Char) :
    split isMark (front ++ mark :: rest) = split isMark front ++ split isMark rest := by
  induction front with
  | nil => simp [split, hmark]
  | cons c front ih =>
    rw [List.cons_append, split, split, ih]
    split
    · rfl
    · exact consFirst_append c (split_ne_nil isMark front) _

theorem split_of_unmarked {text : List Char} (h : ∀ c ∈ text, isMark c = false) :
    split isMark text = [text] := by
  induction text with
  | nil => rfl
  | cons c rest ih =>
    rw [split, h c List.mem_cons_self, ih fun other hother => h other (List.mem_cons_of_mem _ hother)]
    rfl

end Text

namespace Path

variable {directory text name : String}

theorem pieces_append_slash (front rest : List Char) :
    pieces (front ++ '/' :: rest) = pieces front ++ pieces rest := by
  rw [pieces, Text.split_append_mark (by decide), List.filter_append, List.map_append]
  rfl

theorem pieces_nil : pieces [] = [] := rfl

/-- A text that ends in a slash, if it is not empty, leads to whatever stands behind it. -/
theorem pieces_append {front : List Char} (h : front = [] ∨ front.getLast?.any isSlash = true)
    (rest : List Char) : pieces (front ++ rest) = pieces front ++ pieces rest := by
  rcases h with rfl | h
  · rfl
  · obtain ⟨last, hlast, hslash⟩ := Option.any_eq_true _ _ |>.1 h
    obtain ⟨before, rfl⟩ := List.getLast?_eq_some_iff.1 hlast
    obtain rfl : last = '/' := of_decide_eq_true hslash
    rw [List.append_assoc, List.singleton_append, pieces_append_slash, pieces_append_slash, pieces_nil,
      List.append_nil]

theorem pieces_of_unmarked {part : List Char} (hne : part ≠ []) (h : ∀ c ∈ part, isSlash c = false) :
    pieces part = [String.ofList part] := by
  rw [pieces, Text.split_of_unmarked h]
  cases part with
  | nil => exact absurd rfl hne
  | cons c rest => rfl

theorem join_of_isAbsolute (h : (ofText text).isAbsolute = true) : join directory text = text := by
  rw [join, if_pos h]

/-- What a path inside a directory has before its own text: the steps of the directory, with a slash
at the end. -/
theorem exists_front (directory : String) (h : (ofText text).isAbsolute = false) :
    ∃ front : List Char, (join directory text).toList = front ++ text.toList ∧
      (front = [] ∨ front.getLast?.any isSlash = true) ∧
      pieces front = pieces directory.toList ∧ front.head? = directory.toList.head? := by
  rw [join, if_neg (by simp [h])]
  by_cases hempty : directory = ""
  · subst hempty
    exact ⟨[], by simp, .inl rfl, rfl, rfl⟩
  · by_cases hslash : (ofText directory).endsInSlash = true
    · refine ⟨directory.toList, ?_, .inr hslash, rfl, rfl⟩
      rw [if_pos (by simp [hslash]), String.toList_append]
    · refine ⟨directory.toList ++ ['/'], ?_, .inr (by simp [isSlash]), ?_, ?_⟩
      · rw [if_neg (by simp [hempty, hslash]), String.toList_append, String.toList_append]
        rfl
      · rw [pieces_append_slash, pieces_nil, List.append_nil]
      · rw [List.head?_append_of_ne_nil _ (by simpa using hempty)]

theorem steps_join (directory : String) (h : (ofText text).isAbsolute = false) :
    (ofText (join directory text)).steps = (ofText directory).steps ++ (ofText text).steps := by
  obtain ⟨front, hjoin, hend, hpieces, -⟩ := exists_front directory h
  simp only [ofText, hjoin, pieces_append hend, hpieces, List.map_append]

theorem isAbsolute_join (directory : String) (h : (ofText text).isAbsolute = false) :
    (ofText (join directory text)).isAbsolute = (ofText directory).isAbsolute := by
  obtain ⟨front, hjoin, -, -, hhead⟩ := exists_front directory h
  cases front with
  | nil =>
    have hdirectory : directory.toList = [] := List.head?_eq_none_iff.1 hhead.symm
    simpa [ofText, hjoin, hdirectory] using h
  | cons c rest => simp [ofText, hjoin, ← hhead]

/-- The end of a joined path is the end of what was joined to it. -/
theorem endsInSlash_join (directory : String) (hne : text ≠ "") :
    (ofText (join directory text)).endsInSlash = (ofText text).endsInSlash := by
  cases h : (ofText text).isAbsolute with
  | true => rw [join_of_isAbsolute h]
  | false =>
    obtain ⟨front, hjoin, -⟩ := exists_front directory h
    have hlist : text.toList ≠ [] := by simpa using hne
    simp only [ofText, hjoin, List.getLast?_append_of_ne_nil front hlist]

/-- What stands behind the last slash of a name. -/
def lastPart (name : String) : String :=
  String.ofList (name.toList.rtakeWhile (!isSlash ·))

/-- The steps that a name takes before its last part. -/
def leadSteps (name : String) : List Step :=
  (pieces (name.toList.rdropWhile (!isSlash ·))).map stepOf

theorem lastPart_of_unmarked (h : '/' ∉ name.toList) : lastPart name = name := by
  have hall : ∀ c ∈ name.toList, (!isSlash c) = true := fun c hc => by
    have hne : c ≠ '/' := fun heq => h (heq ▸ hc)
    simpa [isSlash] using hne
  rw [lastPart, List.rtakeWhile_eq_self_iff.2 hall, String.ofList_toList]

theorem leadSteps_of_unmarked (h : '/' ∉ name.toList) : leadSteps name = [] := by
  have hall : ∀ c ∈ name.toList, (!isSlash c) = true := fun c hc => by
    have hne : c ≠ '/' := fun heq => h (heq ▸ hc)
    simpa [isSlash] using hne
  rw [leadSteps, List.rdropWhile_eq_nil_iff.2 hall]
  rfl

theorem slash_not_mem_lastPart (name : String) : ∀ c ∈ (lastPart name).toList, isSlash c = false := by
  intro c hc
  rw [lastPart, String.toList_ofList] at hc
  simpa using List.mem_rtakeWhile_imp hc

/-- The steps of a name with something behind it that has no slash. -/
theorem steps_append (name : String) {extension : String}
    (hextension : ∀ c ∈ extension.toList, isSlash c = false)
    (hne : lastPart name ++ extension ≠ "") :
    (ofText (name ++ extension)).steps = leadSteps name ++ [stepOf (lastPart name ++ extension)] := by
  have hlead : name.toList.rdropWhile (!isSlash ·) = [] ∨
      (name.toList.rdropWhile (!isSlash ·)).getLast?.any isSlash = true := by
    by_cases hnil : name.toList.rdropWhile (!isSlash ·) = []
    · exact .inl hnil
    · right
      have hlast := List.rdropWhile_last_not (!isSlash ·) name.toList hnil
      rw [List.getLast?_eq_getLast_of_ne_nil hnil]
      simpa using hlast
  have hpart : pieces (lastPart name ++ extension).toList = [lastPart name ++ extension] := by
    rw [pieces_of_unmarked (by simpa using hne), String.ofList_toList]
    intro c hc
    rw [String.toList_append, List.mem_append] at hc
    exact hc.elim (slash_not_mem_lastPart name c) (hextension c)
  have hname : (name ++ extension).toList =
      name.toList.rdropWhile (!isSlash ·) ++ (lastPart name ++ extension).toList := by
    rw [String.toList_append, String.toList_append, lastPart, String.toList_ofList,
      ← List.append_assoc, List.rdropWhile_append_rtakeWhile]
  rw [ofText, hname, pieces_append hlead, hpart, List.map_append, leadSteps]
  rfl

theorem stepOf_eq_name {piece : String} (hhere : piece ≠ ".") (hup : piece ≠ "..") :
    stepOf piece = .name piece := by
  rw [stepOf, if_neg hhere, if_neg hup]

/-- The file named after a module lies where the steps before the last part lead. -/
theorem steps_source (name : String) :
    (ofText (name ++ ".rs")).steps = leadSteps name ++ [.name (lastPart name ++ ".rs")] := by
  have hend : (lastPart name ++ ".rs").toList.getLast? = some 's' := by
    rw [String.toList_append, List.getLast?_append_of_ne_nil _ (by decide)]
    rfl
  have hne : ∀ other : String, other.toList.getLast? ≠ some 's' → lastPart name ++ ".rs" ≠ other := by
    rintro other hother rfl
    exact hother hend
  rw [steps_append name (by simp [isSlash]) (hne "" (by decide)),
    stepOf_eq_name (hne "." (by decide)) (hne ".." (by decide))]

theorem steps_eq_of_lastPart {part : String} (hpart : lastPart name = part) (hne : part ≠ "") :
    (ofText name).steps = leadSteps name ++ [stepOf part] := by
  have hsteps := @steps_append name "" (by simp) (by simpa [hpart] using hne)
  simpa [hpart] using hsteps

theorem isAbsolute_source (name : String) :
    (ofText (name ++ ".rs")).isAbsolute = (ofText name).isAbsolute := by
  cases hname : name.toList with
  | nil =>
    obtain rfl : name = "" := by simpa using hname
    rfl
  | cons c rest => simp [ofText, hname]

theorem endsInSlash_source (name : String) : (ofText (name ++ ".rs")).endsInSlash = false := by
  simp only [ofText, String.toList_append]
  rw [List.getLast?_append_of_ne_nil _ (by decide)]
  rfl

end Path
end ContractAbi
