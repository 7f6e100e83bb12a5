import ContractAbi.Proofs.Brackets
import ContractAbi.Proofs.Expression
import ContractAbi.Proofs.Results
import ContractAbi.Resolution

/-!
# The grammar of type expressions

A grammar says which texts are type expressions, and for each the shape of the type that it stands
for. Resolution accepts exactly the texts of the grammar, whatever is noted in the context, and
gives a type of the derived shape.
-/
namespace ContractAbi

/-- A type without the names of its composites. -/
inductive Shape where
  | primitive (kind : Primitive)
  | record (name : String)
  | enum (name : String)
  | list (element : Shape)
  | variadic (element : Shape)
  | variadicMulti (members : List Shape)
  | multi (members : List Shape)
  | tuple (members : List Shape)

namespace Shape

/-- A group that repeats; one member repeats on its own. -/
def repeated : List Shape → Shape
  | [member] => .variadic member
  | members => .variadicMulti members

/-- A group that stands once; one member is a list. -/
def grouped : List Shape → Shape
  | [member] => .list member
  | members => .multi members

end Shape

namespace ResolvedType

mutual

def shape : ResolvedType → Shape
  | .primitive kind => .primitive kind
  | .record name => .record name
  | .enum name => .enum name
  | .list element => .list (shape element)
  | .variadic element => .variadic (shape element)
  | .variadicMulti _ members => .variadicMulti (shapes members)
  | .multi _ members => .multi (shapes members)
  | .tuple _ members => .tuple (shapes members)

def shapes : List ResolvedType → List Shape
  | [] => []
  | member :: rest => shape member :: shapes rest

end

end ResolvedType

theorem Primitive.keyword_of_ofKeyword? {word : String} {kind : Primitive}
    (h : Primitive.ofKeyword? word = some kind) : kind.keyword = word := by
  simpa using List.find?_some h

namespace TypeExpr

def IsLetter (c : Char) : Prop :=
  ('A' ≤ c ∧ c ≤ 'Z') ∨ ('a' ≤ c ∧ c ≤ 'z')

def IsDigit (c : Char) : Prop :=
  '0' ≤ c ∧ c ≤ '9'

/-- A letter or underscore, and behind it letters, digits and underscores. -/
def IsIdentifier (text : List Char) : Prop :=
  ∃ first rest, text = first :: rest ∧ (IsLetter first ∨ first = '_') ∧
    ∀ c ∈ rest, IsLetter c ∨ IsDigit c ∨ c = '_'

def Head.spellings : Head → List String
  | .optional => ["Option", "optional"]
  | .list => ["List"]
  | .variadic => ["variadic"]
  | .multi => ["multi"]
  | .tuple => ["tuple"]

/-- Without the blanks around it, the text is a spelling of the head with the inner text in brackets
behind it. The spelling may have blanks around it as well. -/
def Writes (head : Head) (text inner : List Char) : Prop :=
  ∃ front, ∃ word ∈ head.spellings,
    Text.trim text = front ++ '<' :: (inner ++ ['>']) ∧ Text.trim front = word.toList

/-- The text is a type expression of this shape. -/
inductive Derives (types : NameMap TypeDefinition) : List Char → Shape → Prop
  | primitive {text : List Char} {kind : Primitive} (hword : Text.trim text = kind.keyword.toList) :
      Derives types text (.primitive kind)
  | record {text : List Char} {name : String} {docs : List String} {fields : List FieldDecl}
      (hname : Text.trim text = name.toList) (hident : IsIdentifier name.toList)
      (hkeyword : ∀ kind : Primitive, name ≠ kind.keyword)
      (hget : types.get? name = some (.record docs fields)) : Derives types text (.record name)
  | enum {text : List Char} {name : String} {docs : List String} {variants : List VariantDecl}
      (hname : Text.trim text = name.toList) (hident : IsIdentifier name.toList)
      (hkeyword : ∀ kind : Primitive, name ≠ kind.keyword)
      (hget : types.get? name = some (.enum docs variants)) : Derives types text (.enum name)
  | optional {text inner : List Char} {shape : Shape} (htext : Writes .optional text inner)
      (hinner : Derives types inner shape) : Derives types text shape
  | list {text inner : List Char} {shape : Shape} (htext : Writes .list text inner)
      (hinner : Derives types inner shape) : Derives types text (.list shape)
  | variadic {text inner : List Char} {shape : Shape} (htext : Writes .variadic text inner)
      (hplain : ∀ group, ¬ Writes .multi inner group) (hinner : Derives types inner shape) :
      Derives types text (.variadic shape)
  | variadicMulti {text inner group : List Char} {members : List (List Char × Shape)}
      (htext : Writes .variadic text inner) (hinner : Writes .multi inner group)
      (hparts : Separates group (members.map (·.1)))
      (hmembers : ∀ member ∈ members, Derives types member.1 member.2) :
      Derives types text (.repeated (members.map (·.2)))
  | multi {text inner : List Char} {members : List (List Char × Shape)}
      (htext : Writes .multi text inner) (hparts : Separates inner (members.map (·.1)))
      (hmembers : ∀ member ∈ members, Derives types member.1 member.2) :
      Derives types text (.grouped (members.map (·.2)))
  | tuple {text inner : List Char} {members : List (List Char × Shape)}
      (htext : Writes .tuple text inner) (hparts : Separates inner (members.map (·.1)))
      (hmembers : ∀ member ∈ members, Derives types member.1 member.2) :
      Derives types text (.tuple (members.map (·.2)))

/-- A character that no split looks at. -/
def IsPlain (c : Char) : Prop :=
  c ≠ '<' ∧ c ≠ '>' ∧ c ≠ ','

variable {types : NameMap TypeDefinition} {text inner word : List Char} {head : Head}
  {shape : Shape}

theorem isPlain_of_isBlank {c : Char} (h : Text.isBlank c = true) : IsPlain c := by
  refine ⟨?_, ?_, ?_⟩ <;> rintro rfl <;> exact absurd h (by decide)

theorem isPlain_keyword (kind : Primitive) : ∀ c ∈ kind.keyword.toList, IsPlain c := by
  cases kind <;> simp [IsPlain, Primitive.keyword]

theorem isLetter_iff {c : Char} : c.isAlpha = true ↔ IsLetter c := by
  simp [Char.isAlpha, Char.isUpper, Char.isLower, IsLetter, Char.le_def, UInt32.le_iff_toNat_le]

theorem isDigit_iff {c : Char} : c.isDigit = true ↔ IsDigit c := by
  simp [Char.isDigit, IsDigit, Char.le_def, UInt32.le_iff_toNat_le]

theorem isTypeName_iff : isTypeName text = true ↔ IsIdentifier text := by
  cases text with
  | nil => simp [isTypeName, IsIdentifier]
  | cons c rest =>
    simp [isTypeName, IsIdentifier, isNameStart, isNameRest, Char.isAlphanum, isLetter_iff,
      isDigit_iff, or_assoc]

theorem IsIdentifier.mem (h : IsIdentifier text) :
    ∀ c ∈ text, IsLetter c ∨ IsDigit c ∨ c = '_' := by
  obtain ⟨first, rest, rfl, hfirst, hrest⟩ := h
  intro c hc
  rcases List.mem_cons.1 hc with rfl | hc
  · exact hfirst.imp_right .inr
  · exact hrest c hc

theorem IsIdentifier.isPlain (h : IsIdentifier text) : ∀ c ∈ text, IsPlain c := by
  intro c hc
  have hmem := h.mem c hc
  refine ⟨?_, ?_, ?_⟩ <;> rintro rfl <;> simp [IsLetter, IsDigit] at hmem

theorem IsIdentifier.ne_nil (h : IsIdentifier text) : text ≠ [] := by
  obtain ⟨first, rest, rfl, -⟩ := h
  exact List.cons_ne_nil _ _

theorem Head.isIdentifier_spelling {word : String} (h : word ∈ head.spellings) :
    IsIdentifier word.toList := by
  apply isTypeName_iff.1
  cases head <;> simp only [Head.spellings, List.mem_cons, List.not_mem_nil, or_false] at h
  · rcases h with rfl | rfl <;> simp [isTypeName, isNameStart, isNameRest]
  all_goals subst h; simp [isTypeName, isNameStart, isNameRest]

theorem Head.ofName?_eq_some_iff {name : String} :
    Head.ofName? name = some head ↔ name ∈ head.spellings := by
  rw [Head.ofName?]
  constructor
  · intro h
    split_ifs at h <;> obtain rfl := Option.some.inj h <;> simp_all [Head.spellings]
  · intro h
    cases head <;> simp only [Head.spellings, List.mem_cons, List.not_mem_nil, or_false] at h
    · rw [if_pos h]
    all_goals subst h; simp

theorem headOf_eq_some_iff :
    headOf word = some head ↔ ∃ spelling ∈ head.spellings, word = spelling.toList := by
  rw [headOf, Head.ofName?_eq_some_iff]
  constructor
  · exact fun h => ⟨_, h, String.toList_ofList.symm⟩
  · rintro ⟨spelling, h, rfl⟩
    rwa [String.ofList_toList]

theorem enclosed_of_trim (h : Enclosed (Text.trim text)) : Enclosed text := by
  obtain ⟨front, back, heq, hfront, hback⟩ := Text.exists_trim text
  rw [heq]
  have hblank : ∀ blanks : List Char, (∀ c ∈ blanks, Text.isBlank c = true) → Enclosed blanks :=
    fun blanks hblanks => enclosed_of_plain fun c hc => isPlain_of_isBlank (hblanks c hc)
  exact ((hblank front hfront).append h).append (hblank back hback)

theorem application?_of_isPlain (h : ∀ c ∈ text, IsPlain c) : application? text = .ok none :=
  application?_eq_none_iff.2 ⟨fun hc => (h _ hc).1 rfl, fun hc => (h _ hc).2.1 rfl⟩

/-- The split of a written application depends on its inner text alone. -/
theorem Writes.application?_eq (h : Writes head text inner) :
    ∃ word, headOf word = some head ∧ application? (Text.trim text) =
      if isBalanced inner then .ok (some (word, inner)) else .error ⟨Text.trim text⟩ := by
  obtain ⟨front, spelling, hspelling, htext, hfront⟩ := h
  have hopen : '<' ∉ front := by
    intro hmem
    have hplain := (Head.isIdentifier_spelling hspelling).isPlain '<'
      (hfront ▸ (Text.mem_trim (by decide)).2 hmem)
    exact hplain.1 rfl
  have hne : Text.trim front ≠ [] := hfront ▸ (Head.isIdentifier_spelling hspelling).ne_nil
  refine ⟨spelling.toList, headOf_eq_some_iff.2 ⟨spelling, hspelling, rfl⟩, ?_⟩
  rw [htext, application?_of_mem hopen, List.getLast?_concat, List.dropLast_concat, hfront]
  simp [hfront ▸ hne]

/-- Where the inner text is paired, the split finds what is written. -/
theorem writes_iff :
    Writes head text inner ∧ Paired inner ↔
      ∃ word, application? (Text.trim text) = .ok (some (word, inner)) ∧ headOf word = some head := by
  constructor
  · rintro ⟨htext, hpaired⟩
    obtain ⟨word, hhead, happ⟩ := htext.application?_eq
    rw [if_pos (isBalanced_iff.2 hpaired)] at happ
    exact ⟨word, happ, hhead⟩
  · rintro ⟨word, happ, hhead⟩
    obtain ⟨spelling, hspelling, rfl⟩ := headOf_eq_some_iff.1 hhead
    obtain ⟨-, front, ⟨htext, -, hpaired⟩, hfront⟩ := application?_eq_some_iff.1 happ
    exact ⟨⟨front, spelling, hspelling, htext, hfront⟩, hpaired⟩

/-- What the split of a written text finds is what is written. -/
theorem Writes.of_application? {found : List Char} (h : Writes head text inner)
    (happ : application? (Text.trim text) = .ok (some (word, found))) :
    headOf word = some head ∧ found = inner := by
  obtain ⟨other, hother, hsplit⟩ := h.application?_eq
  rw [happ] at hsplit
  split at hsplit
  · obtain ⟨rfl, rfl⟩ := Prod.mk.inj (Option.some.inj (Except.ok.inj hsplit))
    exact ⟨hother, rfl⟩
  · cases hsplit

theorem Writes.application?_ne_none (h : Writes head text inner) :
    application? (Text.trim text) ≠ .ok none := by
  obtain ⟨word, -, hsplit⟩ := h.application?_eq
  rw [hsplit]
  split <;> nofun

theorem Writes.enclosed (h : Writes head text inner) (hpaired : Paired inner) : Enclosed text := by
  obtain ⟨front, spelling, hspelling, htext, hfront⟩ := h
  apply enclosed_of_trim
  have hplain : Enclosed front := by
    apply enclosed_of_trim
    rw [hfront]
    exact enclosed_of_plain (Head.isIdentifier_spelling hspelling).isPlain
  rw [htext]
  exact hplain.append (.pair hpaired .nil)

/-- What a declared name stands for. -/
def NameDerives (types : NameMap TypeDefinition) (name : String) (shape : Shape) : Prop :=
  match types.get? name with
  | some (.record _ _) => shape = .record name
  | some (.enum _ _) => shape = .enum name
  | none => False

/-- A text without brackets is a keyword or a declared name. -/
def WordDerives (types : NameMap TypeDefinition) (word : List Char) (shape : Shape) : Prop :=
  (∃ kind : Primitive, word = kind.keyword.toList ∧ shape = .primitive kind) ∨
    ∃ name : String, word = name.toList ∧ IsIdentifier name.toList ∧
      (∀ kind : Primitive, name ≠ kind.keyword) ∧ NameDerives types name shape

/-- The parts of an argument list derive these shapes, one after the other. -/
def MembersDerive (types : NameMap TypeDefinition) (inner : List Char) (shapes : List Shape) : Prop :=
  ∃ parts, Separates inner parts ∧ List.Forall₂ (Derives types) parts shapes

/-- What stands between the brackets behind a head derives the shape with it. -/
def HeadDerives (types : NameMap TypeDefinition) (head : Head) (inner : List Char) (shape : Shape) :
    Prop :=
  match head with
  | .optional => Derives types inner shape
  | .list => ∃ element, Derives types inner element ∧ shape = .list element
  | .variadic =>
    (∃ element, (∀ group, ¬ Writes .multi inner group) ∧ Derives types inner element ∧
      shape = .variadic element) ∨
    ∃ group members, Writes .multi inner group ∧ MembersDerive types group members ∧
      shape = .repeated members
  | .multi => ∃ members, MembersDerive types inner members ∧ shape = .grouped members
  | .tuple => ∃ members, MembersDerive types inner members ∧ shape = .tuple members

theorem membersDerive_iff {shapes : List Shape} :
    MembersDerive types inner shapes ↔
      ∃ members : List (List Char × Shape), Separates inner (members.map (·.1)) ∧
        (∀ member ∈ members, Derives types member.1 member.2) ∧ shapes = members.map (·.2) := by
  constructor
  · rintro ⟨parts, hparts, hall⟩
    have hlength := hall.length_eq
    refine ⟨parts.zip shapes, ?_, fun member hmem => ?_, ?_⟩
    · rwa [List.map_fst_zip hlength.le]
    · exact List.forall₂_zip hall hmem
    · exact (List.map_snd_zip hlength.ge).symm
  · rintro ⟨members, hparts, hall, rfl⟩
    refine ⟨_, hparts, ?_⟩
    rw [List.forall₂_map_left_iff, List.forall₂_map_right_iff, List.forall₂_same]
    exact hall

theorem derives_iff :
    Derives types text shape ↔
      WordDerives types (Text.trim text) shape ∨
        ∃ head inner, Writes head text inner ∧ HeadDerives types head inner shape := by
  constructor
  · intro h
    cases h with
    | primitive hword => exact .inl (.inl ⟨_, hword, rfl⟩)
    | record hname hident hkeyword hget =>
      exact .inl (.inr ⟨_, hname, hident, hkeyword, by simp [NameDerives, hget]⟩)
    | enum hname hident hkeyword hget =>
      exact .inl (.inr ⟨_, hname, hident, hkeyword, by simp [NameDerives, hget]⟩)
    | optional htext hinner => exact .inr ⟨.optional, _, htext, hinner⟩
    | list htext hinner => exact .inr ⟨.list, _, htext, _, hinner, rfl⟩
    | variadic htext hplain hinner =>
      exact .inr ⟨.variadic, _, htext, .inl ⟨_, hplain, hinner, rfl⟩⟩
    | variadicMulti htext hgroup hparts hmembers =>
      have hall := membersDerive_iff.2 ⟨_, hparts, hmembers, rfl⟩
      exact .inr ⟨.variadic, _, htext, .inr ⟨_, _, hgroup, hall, rfl⟩⟩
    | multi htext hparts hmembers =>
      exact .inr ⟨.multi, _, htext, _, membersDerive_iff.2 ⟨_, hparts, hmembers, rfl⟩, rfl⟩
    | tuple htext hparts hmembers =>
      exact .inr ⟨.tuple, _, htext, _, membersDerive_iff.2 ⟨_, hparts, hmembers, rfl⟩, rfl⟩
  · rintro ((⟨kind, hword, rfl⟩ | ⟨name, hname, hident, hkeyword, hget⟩) | ⟨head, inner, htext, h⟩)
    · exact .primitive hword
    · rw [NameDerives] at hget
      split at hget
      · rename_i hdef
        subst hget
        exact .record hname hident hkeyword hdef
      · rename_i hdef
        subst hget
        exact .enum hname hident hkeyword hdef
      · exact hget.elim
    · cases head with
      | optional => exact .optional htext h
      | list =>
        obtain ⟨element, hinner, rfl⟩ := h
        exact .list htext hinner
      | variadic =>
        rcases h with ⟨element, hplain, hinner, rfl⟩ | ⟨group, members, hgroup, hall, rfl⟩
        · exact .variadic htext hplain hinner
        · obtain ⟨members, hparts, hmembers, rfl⟩ := membersDerive_iff.1 hall
          exact .variadicMulti htext hgroup hparts hmembers
      | multi =>
        obtain ⟨members, hall, rfl⟩ := h
        obtain ⟨members, hparts, hmembers, rfl⟩ := membersDerive_iff.1 hall
        exact .multi htext hparts hmembers
      | tuple =>
        obtain ⟨members, hall, rfl⟩ := h
        obtain ⟨members, hparts, hmembers, rfl⟩ := membersDerive_iff.1 hall
        exact .tuple htext hparts hmembers

theorem derives_trim_iff : Derives types (Text.trim text) shape ↔ Derives types text shape := by
  rw [derives_iff, derives_iff]
  simp only [Writes, Text.trim_trim]

theorem WordDerives.isPlain (h : WordDerives types word shape) : ∀ c ∈ word, IsPlain c := by
  rcases h with ⟨kind, rfl, -⟩ | ⟨name, rfl, hident, -⟩
  · exact isPlain_keyword kind
  · exact hident.isPlain

theorem WordDerives.ne_nil (h : WordDerives types word shape) : word ≠ [] := by
  rcases h with ⟨kind, rfl, -⟩ | ⟨name, rfl, hident, -⟩
  · cases kind <;> simp [Primitive.keyword]
  · exact hident.ne_nil

/-- Whatever derives a shape may stand as a member. -/
theorem Derives.enclosed (h : Derives types text shape) : Enclosed text := by
  induction h with
  | primitive hword => exact enclosed_of_trim (hword ▸ enclosed_of_plain (isPlain_keyword _))
  | record hname hident => exact enclosed_of_trim (hname ▸ enclosed_of_plain hident.isPlain)
  | enum hname hident => exact enclosed_of_trim (hname ▸ enclosed_of_plain hident.isPlain)
  | optional htext _ ih => exact htext.enclosed ih.paired
  | list htext _ ih => exact htext.enclosed ih.paired
  | variadic htext _ _ ih => exact htext.enclosed ih.paired
  | variadicMulti htext hgroup hparts => exact htext.enclosed (hgroup.enclosed hparts.paired).paired
  | multi htext hparts => exact htext.enclosed hparts.paired
  | tuple htext hparts => exact htext.enclosed hparts.paired

theorem HeadDerives.paired (h : HeadDerives types head inner shape) : Paired inner := by
  cases head with
  | optional => exact Derives.enclosed h |>.paired
  | list =>
    obtain ⟨element, hinner, -⟩ := h
    exact hinner.enclosed.paired
  | variadic =>
    rcases h with ⟨element, -, hinner, -⟩ | ⟨group, members, hgroup, ⟨parts, hparts, -⟩, -⟩
    · exact hinner.enclosed.paired
    · exact (hgroup.enclosed hparts.paired).paired
  | multi =>
    obtain ⟨members, ⟨parts, hparts, -⟩, -⟩ := h
    exact hparts.paired
  | tuple =>
    obtain ⟨members, ⟨parts, hparts, -⟩, -⟩ := h
    exact hparts.paired

/-- The split decides which rules can apply. -/
theorem derives_iff_application :
    Derives types text shape ↔
      match application? (Text.trim text) with
      | .ok (some (word, inner)) => ∃ head, headOf word = some head ∧ HeadDerives types head inner shape
      | .ok none => WordDerives types (Text.trim text) shape
      | .error _ => False := by
  have hword : WordDerives types (Text.trim text) shape → application? (Text.trim text) = .ok none :=
    fun h => application?_of_isPlain h.isPlain
  have hhead : (∃ head inner, Writes head text inner ∧ HeadDerives types head inner shape) ↔
      ∃ head word inner, application? (Text.trim text) = .ok (some (word, inner)) ∧
        headOf word = some head ∧ HeadDerives types head inner shape := by
    constructor
    · rintro ⟨head, inner, htext, h⟩
      obtain ⟨word, happ, hw⟩ := writes_iff.1 ⟨htext, h.paired⟩
      exact ⟨head, word, inner, happ, hw, h⟩
    · rintro ⟨head, word, inner, happ, hw, h⟩
      exact ⟨head, inner, (writes_iff.2 ⟨word, happ, hw⟩).1, h⟩
  rw [derives_iff, hhead]
  rcases happ : application? (Text.trim text) with fault | _ | ⟨found, rest⟩
  · have hnot : ¬ WordDerives types (Text.trim text) shape := fun h => nomatch happ.symm.trans (hword h)
    simp [hnot]
  · simp
  · have hnot : ¬ WordDerives types (Text.trim text) shape := fun h => nomatch happ.symm.trans (hword h)
    simp only [hnot, false_or, Except.ok.injEq, Option.some.injEq, Prod.mk.injEq]
    constructor
    · rintro ⟨head, word, inner, ⟨rfl, rfl⟩, hw, h⟩
      exact ⟨head, hw, h⟩
    · rintro ⟨head, hw, h⟩
      exact ⟨head, found, rest, ⟨rfl, rfl⟩, hw, h⟩

theorem derives_unwrap (htrim : Text.trim text = text) :
    Text.trim (unwrap text) = unwrap text ∧
      (Derives types (unwrap text) shape ↔ Derives types text shape) ∧
      ∀ word inner, application? (unwrap text) = .ok (some (word, inner)) →
        headOf word ≠ some .optional := by
  fun_induction unwrap text with
  | case1 text word inner happ hopt ih =>
    obtain ⟨htrimmed, hderives, hdone⟩ := ih (Text.trim_trim inner)
    refine ⟨htrimmed, ?_, hdone⟩
    rw [hderives, derives_trim_iff, @derives_iff_application _ text, htrim, happ]
    simp [hopt, HeadDerives]
  | case2 text word inner happ hopt =>
    refine ⟨htrim, .rfl, fun other rest hother => ?_⟩
    obtain ⟨rfl, rfl⟩ := Prod.mk.inj (Option.some.inj (Except.ok.inj (happ.symm.trans hother)))
    exact hopt
  | case3 text hnone =>
    exact ⟨htrim, .rfl, fun word inner happ => (hnone word inner happ).elim⟩

/-- The shapes of a text, told from its form. -/
def Form.Derives (types : NameMap TypeDefinition) : Form → Shape → Prop
  | .primitive kind, shape => shape = .primitive kind
  | .list inner, shape => ∃ element, TypeExpr.Derives types inner element ∧ shape = .list element
  | .variadic inner, shape => ∃ element, TypeExpr.Derives types inner element ∧ shape = .variadic element
  | .variadicMulti inner, shape =>
    ∃ members, MembersDerive types inner members ∧ shape = .repeated members
  | .multi inner, shape => ∃ members, MembersDerive types inner members ∧ shape = .grouped members
  | .tuple inner, shape => ∃ members, MembersDerive types inner members ∧ shape = .tuple members
  | .named name, shape => NameDerives types (String.ofList name) shape

/-- Some form was found, and the shape comes from it. -/
def FormDerives (types : NameMap TypeDefinition) (result : Except Unrecognized Form) (shape : Shape) :
    Prop :=
  match result with
  | .ok form => form.Derives types shape
  | .error _ => False

theorem Form.ofVariadic_eq (inner : List Char) :
    Form.ofVariadic inner = match application? (Text.trim inner) with
      | .ok (some (word, group)) =>
        .ok (if headOf word = some .multi then .variadicMulti group else .variadic inner)
      | .ok none => .ok (.variadic inner)
      | .error fault => .error fault := by
  rw [Form.ofVariadic]
  rcases application? (Text.trim inner) with fault | _ | ⟨word, group⟩ <;> rfl

theorem Form.ofStripped_eq (text : List Char) :
    Form.ofStripped text = match application? text with
      | .ok (some (word, inner)) =>
        match headOf word with
        | some .list => .ok (.list inner)
        | some .variadic => Form.ofVariadic inner
        | some .multi => .ok (.multi inner)
        | some .tuple => .ok (.tuple inner)
        | _ => .error ⟨text⟩
      | .ok none => if isTypeName text then .ok (.named text) else .error ⟨text⟩
      | .error fault => .error fault := by
  rw [Form.ofStripped]
  rcases application? text with fault | _ | ⟨word, inner⟩ <;> rfl

/-- The one split of the argument tells whether it is written as a group. -/
theorem formDerives_ofVariadic :
    FormDerives types (Form.ofVariadic inner) shape ↔ HeadDerives types .variadic inner shape := by
  rw [Form.ofVariadic_eq]
  constructor
  · intro h
    rcases happ : application? (Text.trim inner) with fault | _ | ⟨word, found⟩
    · simp only [happ, FormDerives] at h
    · simp only [happ, FormDerives, Form.Derives] at h
      obtain ⟨element, hinner, rfl⟩ := h
      exact .inl ⟨element, fun group htext => htext.application?_ne_none happ, hinner, rfl⟩
    · simp only [happ, FormDerives] at h
      split at h
      · rename_i hmulti
        obtain ⟨members, hall, rfl⟩ := h
        exact .inr ⟨found, members, (writes_iff.2 ⟨word, happ, hmulti⟩).1, hall, rfl⟩
      · rename_i hmulti
        obtain ⟨element, hinner, rfl⟩ := h
        exact .inl ⟨element, fun group htext => hmulti (htext.of_application? happ).1, hinner, rfl⟩
  · rintro (⟨element, hplain, hinner, rfl⟩ | ⟨group, members, htext, hall, rfl⟩)
    · have hsplit := derives_iff_application.1 hinner
      rcases happ : application? (Text.trim inner) with fault | _ | ⟨word, found⟩
      · simp only [happ] at hsplit
      · exact ⟨element, hinner, rfl⟩
      · have hmulti : headOf word ≠ some .multi :=
          fun hword => hplain found (writes_iff.2 ⟨word, happ, hword⟩).1
        simp only [FormDerives, if_neg hmulti]
        exact ⟨element, hinner, rfl⟩
    · have hpaired : Paired group := by
        obtain ⟨parts, hparts, -⟩ := hall
        exact hparts.paired
      obtain ⟨word, happ, hword⟩ := writes_iff.1 ⟨htext, hpaired⟩
      simp only [happ, hword, if_true, FormDerives]
      exact ⟨members, hall, rfl⟩

theorem nameDerives_of_word {name : String} (hname : ∀ kind : Primitive, name ≠ kind.keyword) :
    WordDerives types name.toList shape ↔ IsIdentifier name.toList ∧ NameDerives types name shape := by
  constructor
  · rintro (⟨kind, hkind, -⟩ | ⟨other, hother, hident, -, h⟩)
    · exact absurd (String.toList_inj.1 hkind) (hname kind)
    · obtain rfl := String.toList_inj.1 hother
      exact ⟨hident, h⟩
  · exact fun h => .inr ⟨name, rfl, h.1, hname, h.2⟩

theorem primitive_of_word {kind : Primitive} :
    WordDerives types kind.keyword.toList shape ↔ shape = .primitive kind := by
  constructor
  · rintro (⟨other, hother, rfl⟩ | ⟨name, hname, -, hkeyword, -⟩)
    · have hkind := congrArg Primitive.ofKeyword? (String.toList_inj.1 hother)
      rw [Primitive.ofKeyword?_keyword, Primitive.ofKeyword?_keyword] at hkind
      rw [Option.some.inj hkind]
    · exact absurd (String.toList_inj.1 hname).symm (hkeyword kind)
  · exact fun h => .inl ⟨kind, rfl, h⟩

theorem formDerives_ofStripped (htrim : Text.trim text = text)
    (hkeyword : ∀ kind : Primitive, text ≠ kind.keyword.toList)
    (hoptional : ∀ word inner, application? text = .ok (some (word, inner)) →
      headOf word ≠ some .optional) :
    FormDerives types (Form.ofStripped text) shape ↔ Derives types text shape := by
  rw [Form.ofStripped_eq, derives_iff_application, htrim]
  rcases happ : application? text with fault | _ | ⟨word, inner⟩
  · rfl
  · have hname : ∀ kind : Primitive, String.ofList text ≠ kind.keyword := by
      rintro kind hkind
      exact hkeyword kind (hkind ▸ String.toList_ofList.symm)
    have hword : WordDerives types (String.ofList text).toList shape ↔
        IsIdentifier (String.ofList text).toList ∧ NameDerives types (String.ofList text) shape :=
      nameDerives_of_word hname
    rw [String.toList_ofList] at hword
    simp only [hword, ← isTypeName_iff]
    split
    · rename_i hident
      simp [FormDerives, Form.Derives, hident]
    · rename_i hident
      simp [FormDerives, hident]
  · have hno := hoptional word inner happ
    simp only
    rcases hhead : headOf word with _ | head
    · simp [FormDerives]
    · simp only [Option.some.injEq, exists_eq_left']
      cases head with
      | optional => exact absurd hhead hno
      | list => rfl
      | variadic => exact formDerives_ofVariadic
      | multi => rfl
      | tuple => rfl

/-- A text without brackets is read as a word. -/
theorem derives_iff_word (hplain : ∀ c ∈ Text.trim text, IsPlain c) :
    Derives types text shape ↔ WordDerives types (Text.trim text) shape := by
  rw [derives_iff_application, application?_of_isPlain hplain]

theorem Derives.trim_ne_nil (h : Derives types text shape) : Text.trim text ≠ [] := by
  intro hnil
  rw [derives_iff_word (by simp [hnil]), hnil] at h
  exact h.ne_nil rfl

/-- Trimming the parts changes nothing, and no part of a derivation is blank. -/
theorem membersDerive_iff_members? {shapes : List Shape} :
    MembersDerive types inner shapes ↔
      ∃ members, members? inner = .ok members ∧ List.Forall₂ (Derives types) members shapes := by
  have htrim : ∀ parts : List (List Char), List.Forall₂ (Derives types) (parts.map Text.trim) shapes ↔
      List.Forall₂ (Derives types) parts shapes := by
    intro parts
    rw [List.forall₂_map_left_iff]
    simp only [derives_trim_iff]
  constructor
  · rintro ⟨parts, hparts, hall⟩
    refine ⟨parts.map Text.trim, members?_eq_ok_iff.2 ⟨parts, hparts, rfl, ?_⟩, (htrim parts).2 hall⟩
    intro member hmember
    obtain ⟨part, hpart, rfl⟩ := List.mem_map.1 hmember
    obtain ⟨shape, -, hshape⟩ := exists_of_forall₂_left hall hpart
    exact hshape.trim_ne_nil
  · rintro ⟨members, hmembers, hall⟩
    obtain ⟨parts, hparts, rfl, -⟩ := members?_eq_ok_iff.1 hmembers
    exact ⟨parts, hparts, (htrim parts).1 hall⟩

/-- The form of a text holds all its derivations. -/
theorem formDerives_ofText :
    FormDerives types (Form.ofText text) shape ↔ Derives types text shape := by
  obtain ⟨htrim, hderives, hoptional⟩ : Text.trim (stripOptional text) = stripOptional text ∧
      (Derives types (stripOptional text) shape ↔ Derives types (Text.trim text) shape) ∧
      ∀ word inner, application? (stripOptional text) = .ok (some (word, inner)) →
        headOf word ≠ some .optional := derives_unwrap (Text.trim_trim text)
  rw [← derives_trim_iff, ← hderives, Form.ofText]
  split
  · rename_i hempty
    rw [List.isEmpty_iff.1 hempty]
    exact iff_of_false id fun h => h.trim_ne_nil rfl
  · split
    · rename_i kind hkind
      have htext : stripOptional text = kind.keyword.toList := by
        rw [Primitive.keyword_of_ofKeyword? hkind, String.toList_ofList]
      rw [htext] at htrim ⊢
      rw [derives_iff_word (htrim.symm ▸ isPlain_keyword kind), htrim, primitive_of_word]
      rfl
    · rename_i hnone
      refine formDerives_ofStripped htrim (fun kind hkind => ?_) hoptional
      rw [hkind, String.ofList_toList, Primitive.ofKeyword?_keyword] at hnone
      cases hnone

end TypeExpr

namespace Resolve

variable {α β γ δ : Type} {types : NameMap TypeDefinition}

/-- A fault of the expression itself: a part that is in no form, or a name that is not declared. -/
def IsExpressionFault (types : NameMap TypeDefinition) : ConversionFault → Prop
  | .unrecognizedExpression _ => True
  | .unknownType name => TypeExpr.IsIdentifier name.toList ∧ types.get? name = none
  | _ => False

/-- Whatever the context, the step succeeds if there is a meaning, and its result then shows the
only one. -/
def Decides (types : NameMap TypeDefinition) (step : Resolve α) (view : α → β) (meant : β → Prop) :
    Prop :=
  ∀ context, match step.run context with
    | .ok value _ => ∀ meaning, meant meaning ↔ meaning = view value
    | .error fault _ => (∀ meaning, ¬ meant meaning) ∧ IsExpressionFault types fault

theorem Decides.pure {value : α} {view : α → β} {meant : β → Prop}
    (h : ∀ meaning, meant meaning ↔ meaning = view value) :
    Decides types (Pure.pure value) view meant :=
  fun _ => h

theorem Decides.throw {fault : ConversionFault} {view : α → β} {meant : β → Prop}
    (hnone : ∀ meaning, ¬ meant meaning) (hfault : IsExpressionFault types fault) :
    Decides types (MonadExcept.throw fault) view meant :=
  fun _ => ⟨hnone, hfault⟩

theorem Decides.congr {step : Resolve α} {view : α → β} {meant meant' : β → Prop}
    (h : Decides types step view meant) (hiff : ∀ meaning, meant' meaning ↔ meant meaning) :
    Decides types step view meant' := by
  obtain rfl : meant' = meant := funext fun meaning => propext (hiff meaning)
  exact h

theorem Decides.bind {step : Resolve α} {next : α → Resolve γ} {view : α → β} {last : γ → δ}
    {meant : β → Prop} {rule : β → δ → Prop} (hstep : Decides types step view meant)
    (hnext : ∀ value, Decides types (next value) last (rule (view value))) :
    Decides types (step >>= next) last fun result => ∃ part, meant part ∧ rule part result := by
  intro context
  have h := hstep context
  rw [EStateM.run_bind]
  cases hr : step.run context with
  | error fault after =>
    simp only [hr] at h ⊢
    exact ⟨fun result ⟨part, hpart, _⟩ => h.1 part hpart, h.2⟩
  | ok value after =>
    simp only [hr] at h ⊢
    have h' := hnext value after
    have hrule : ∀ result, (∃ part, meant part ∧ rule part result) ↔ rule (view value) result :=
      fun result => by simp [h]
    cases hr' : (next value).run after with
    | error fault last =>
      simp only [hr', hrule] at h' ⊢
      exact h'
    | ok result last =>
      simp only [hr', hrule] at h' ⊢
      exact h'

theorem decides_composite {members : List ResolvedType} {build : String → ResolvedType}
    {whole : Shape} (hbuild : ∀ name, (build name).shape = whole) :
    Decides types (do return build (← registerComposite members)) ResolvedType.shape (· = whole) :=
  fun _ meaning => by simp [hbuild]

theorem decides_tupleOf (members : List ResolvedType) :
    Decides types (tupleOf members) ResolvedType.shape
      (· = .tuple (ResolvedType.shapes members)) :=
  decides_composite fun _ => rfl

theorem decides_multiOf : (members : List ResolvedType) →
    Decides types (multiOf members) ResolvedType.shape (· = .grouped (ResolvedType.shapes members))
  | [] => decides_composite fun _ => rfl
  | [_] => .pure fun _ => .rfl
  | _ :: _ :: _ => decides_composite fun _ => rfl

theorem decides_variadicOf : (members : List ResolvedType) →
    Decides types (variadicOf members) ResolvedType.shape
      (· = .repeated (ResolvedType.shapes members))
  | [] => decides_composite fun _ => rfl
  | [_] => .pure fun _ => .rfl
  | _ :: _ :: _ => decides_composite fun _ => rfl

theorem decides_resolveName {name : String} (hident : TypeExpr.IsIdentifier name.toList) :
    Decides types (resolveName types name) ResolvedType.shape (TypeExpr.NameDerives types name) := by
  rw [resolveName]
  cases hget : types.get? name with
  | none =>
    exact .throw (fun shape h => by simp [TypeExpr.NameDerives, hget] at h) ⟨hident, hget⟩
  | some definition =>
    cases definition with
    | record docs fields =>
      exact .pure fun shape => by simp [TypeExpr.NameDerives, hget, ResolvedType.shape]
    | enum docs variants =>
      exact .pure fun shape => by simp [TypeExpr.NameDerives, hget, ResolvedType.shape]

/-- The parts of a group are resolved in order. -/
theorem decides_resolveTrees {parts : List (List Char)}
    (hpart : ∀ part ∈ parts, Decides types (resolveTree types (TypeExpr.ofText part))
      ResolvedType.shape (TypeExpr.Derives types part)) :
    Decides types (resolveTrees types (parts.map TypeExpr.ofText)) ResolvedType.shapes
      (List.Forall₂ (TypeExpr.Derives types) parts) := by
  induction parts with
  | nil =>
    exact .pure fun shapes => List.forall₂_nil_left_iff
  | cons part rest ih =>
    have hrest := ih fun p hp => hpart p (List.mem_cons_of_mem _ hp)
    have hcons : ∀ type : ResolvedType, Decides types
        (do return type :: (← resolveTrees types (rest.map TypeExpr.ofText))) ResolvedType.shapes
        fun shapes => ∃ others, List.Forall₂ (TypeExpr.Derives types) rest others ∧
          shapes = type.shape :: others :=
      fun type => hrest.bind fun others => .pure fun _ => .rfl
    have hall : Decides types (resolveTrees types ((part :: rest).map TypeExpr.ofText))
        ResolvedType.shapes fun shapes => ∃ shape, TypeExpr.Derives types part shape ∧
          ∃ others, List.Forall₂ (TypeExpr.Derives types) rest others ∧ shapes = shape :: others := by
      rw [List.map_cons, resolveTrees]
      exact (hpart part List.mem_cons_self).bind hcons
    refine hall.congr fun shapes => ?_
    rw [List.forall₂_cons_left_iff]
    simp only [exists_and_left]

/-- A group is taken apart into its parts, and what they derive makes up the whole. -/
theorem decides_group {inner : List Char} {build : List TypeExpr → TypeExpr}
    {finish : List ResolvedType → Resolve ResolvedType} {whole : List Shape → Shape}
    (hbuild : ∀ trees, resolveTree types (build trees) = resolveTrees types trees >>= finish)
    (hfinish : ∀ members,
      Decides types (finish members) ResolvedType.shape (· = whole (ResolvedType.shapes members)))
    (hread : ∀ text : List Char, text.length ≤ inner.length →
      Decides types (resolveTree types (TypeExpr.ofText text)) ResolvedType.shape
        (TypeExpr.Derives types text)) :
    Decides types (resolveTree types (TypeExpr.ofMembers inner build fun text _ => TypeExpr.ofText text))
      ResolvedType.shape
      fun shape => ∃ members, TypeExpr.MembersDerive types inner members ∧ shape = whole members := by
  simp only [TypeExpr.membersDerive_iff_members?]
  rw [TypeExpr.ofMembers]
  split
  · rename_i fault hfault
    rw [resolveTree]
    refine .throw ?_ trivial
    rintro shape ⟨shapes, ⟨members, hmembers, -⟩, -⟩
    cases hfault.symm.trans hmembers
  · rename_i members hmembers
    have htrees : members.attach.map (fun m => TypeExpr.ofText m.1) = members.map TypeExpr.ofText := by
      simp
    have hall := decides_resolveTrees fun member hmember =>
      hread member (TypeExpr.length_member_le hmembers member hmember)
    have hwhole : Decides types (resolveTrees types (members.map TypeExpr.ofText) >>= finish)
        ResolvedType.shape fun shape => ∃ shapes,
          List.Forall₂ (TypeExpr.Derives types) members shapes ∧ shape = whole shapes :=
      hall.bind hfinish
    rw [htrees, hbuild]
    simpa [hmembers] using hwhole

/-- Resolution decides the grammar. -/
theorem decides_ofText (text : List Char) :
    Decides types (resolveTree types (TypeExpr.ofText text)) ResolvedType.shape
      (TypeExpr.Derives types text) := by
  have hform : ∀ {text : List Char} {form}, TypeExpr.Form.ofText text = .ok form → ∀ shape,
      TypeExpr.Derives types text shape ↔ form.Derives types shape := by
    intro text form h shape
    rw [← TypeExpr.formDerives_ofText, h]
    rfl
  fun_induction TypeExpr.ofText text with
  | case1 text fault h =>
    rw [resolveTree]
    refine .throw (fun shape hshape => ?_) trivial
    rw [← TypeExpr.formDerives_ofText, h] at hshape
    exact hshape
  | case2 text kind h =>
    rw [resolveTree]
    refine Decides.congr (fun context shape => ?_) (hform h)
    rfl
  | case3 text name h =>
    rw [resolveTree]
    have hident := TypeExpr.isTypeName_iff.1 (TypeExpr.Form.named_of_text h)
    refine (decides_resolveName ?_).congr (hform h)
    rwa [String.toList_ofList]
  | case4 text inner h _ ih =>
    rw [resolveTree]
    exact (ih.bind fun element => .pure fun _ => .rfl).congr (hform h)
  | case5 text inner h _ ih =>
    rw [resolveTree]
    exact (ih.bind fun element => .pure fun _ => .rfl).congr (hform h)
  | case6 text inner h _ ih =>
    exact (decides_group (fun _ => by rw [resolveTree]) decides_variadicOf ih).congr (hform h)
  | case7 text inner h _ ih =>
    exact (decides_group (fun _ => by rw [resolveTree]) decides_multiOf ih).congr (hform h)
  | case8 text inner h _ ih =>
    exact (decides_group (fun _ => by rw [resolveTree]) decides_tupleOf ih).congr (hform h)

end Resolve

/-- Resolution accepts exactly the texts of the grammar, in every context. The type it gives has the
one shape that the text derives; where there is none, the fault is one of the expression. -/
theorem resolution_accepts_the_grammar (types : NameMap TypeDefinition) (context : Context)
    (expression : String) :
    match (resolve types expression).run context with
    | .ok type _ =>
      ∀ shape, TypeExpr.Derives types expression.toList shape ↔ shape = type.shape
    | .error fault _ =>
      (∀ shape, ¬ TypeExpr.Derives types expression.toList shape) ∧
        Resolve.IsExpressionFault types fault := by
  have h : Resolve.Decides types (resolve types expression) ResolvedType.shape
      (TypeExpr.Derives types expression.toList) := Resolve.decides_ofText expression.toList
  have hrun := h context
  cases hr : (resolve types expression).run context with
  | ok type after => simpa only [hr] using hrun
  | error fault after => simpa only [hr] using hrun

end ContractAbi
