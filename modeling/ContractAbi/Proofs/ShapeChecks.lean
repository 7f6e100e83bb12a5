import ContractAbi.Proofs.ContextIndependence
import ContractAbi.Proofs.UndeclaredTypes

/-!
# Checks of shapes

What the checks of an output accept is told by the types that lie inside it. A value can sit at a byte
offset if no type in line with it spreads over slots or is a list of lists; it fills a slot if it is of
one of four kinds besides; and a group takes packed records too. When a check fails, the type it
names is there, and the reason it gives is true of that type.
-/
namespace ContractAbi

namespace ResolvedType

/-- The second type is the first one or is read in line with it: the elements of a list and the
members of a tuple are. -/
inductive Inlines : ResolvedType → ResolvedType → Prop
  | refl (type : ResolvedType) : Inlines type type
  | element {element part : ResolvedType} (h : Inlines element part) : Inlines (.list element) part
  | member {name : String} {members : List ResolvedType} {member part : ResolvedType}
      (hmember : member ∈ members) (h : Inlines member part) : Inlines (.tuple name members) part

theorem Inlines.shows {whole part : ResolvedType} (h : Inlines whole part) : whole.Shows part := by
  induction h with
  | refl type => exact .refl
  | element _ ih => exact .head (List.mem_singleton_self _) ih
  | member hmember _ ih => exact .head hmember ih

end ResolvedType

open ResolvedType (Inlines)

/-- The reason is true of the type. -/
inductive ShapeReason.Fits : ShapeReason → ResolvedType → Prop
  | notOneSlot {type : ResolvedType} (h : type.isTopDecodable = false) : Fits .notOneSlot type
  | listOfLists {element : ResolvedType} : Fits .listOfLists (.list (.list element))
  | multiValue {type : ResolvedType} (h : type.isMultiValue = true) : Fits .multiValueInRecord type
  | groupList {element : ResolvedType} (h : element.isRecordLike = false) :
      Fits .groupList (.list element)

/-- The fault is about a type inside the given one, and gives a reason that is true of it. -/
structure ShapeFault.Concerns (fault : ShapeFault) (type : ResolvedType) : Prop where
  shows : type.Shows fault.type
  fits : fault.reason.Fits fault.type

variable {type element part : ResolvedType} {name : String} {members : List ResolvedType}
  {fault : ShapeFault}

theorem checkNested_tuple_iff :
    checkNested (.tuple name members) = .ok () ↔ ∀ m ∈ members, checkNested m = .ok () := by
  rw [checkNested, checkNestedAll_iff]

/-- A type that has a byte layout spreads over no slots and is no list of lists. -/
theorem plain_of_checkNested (h : checkNested type = .ok ()) :
    type.isMultiValue = false ∧ ∀ element, type ≠ .list (.list element) := by
  cases type with
  | list element =>
    refine ⟨rfl, fun inner heq => ?_⟩
    exact (checkNested_list_iff.1 h).1 inner (ResolvedType.list.inj heq)
  | variadic | variadicMulti | multi => cases h
  | _ => exact ⟨rfl, fun _ heq => ResolvedType.noConfusion heq⟩

theorem checkNested_of_inlines (hinline : type.Inlines part) (h : checkNested type = .ok ()) :
    checkNested part = .ok () := by
  induction hinline with
  | refl => exact h
  | element _ ih => exact ih (checkNested_list_iff.1 h).2
  | member hmember _ ih => exact ih (checkNested_tuple_iff.1 h _ hmember)

theorem checkNested_eq_ok_iff : checkNested type = .ok () ↔
    ∀ part, type.Inlines part → part.isMultiValue = false ∧ ∀ element, part ≠ .list (.list element) := by
  refine ⟨fun h part hpart => plain_of_checkNested (checkNested_of_inlines hpart h), fun h => ?_⟩
  induction type using ResolvedType.memberInduction with
  | primitive | record | enum => rfl
  | list element ih =>
    refine checkNested_list_iff.2 ⟨fun inner heq => ?_, ih fun part hpart => h part (.element hpart)⟩
    exact (h _ (.refl _)).2 inner (congrArg _ heq)
  | variadic | variadicMulti | multi => cases (h _ (.refl _)).1
  | tuple name members ih =>
    exact checkNested_tuple_iff.2 fun m hm => ih m hm fun part hpart => h part (.member hm hpart)

theorem checkTopLevel_of_top (h : type.isTopDecodable = true) : checkTopLevel type = checkNested type := by
  cases type with
  | primitive | record | enum | tuple => rfl
  | _ => cases h

theorem checkTopLevel_of_not_top (h : type.isTopDecodable = false) :
    checkTopLevel type = .error ⟨type, .notOneSlot⟩ := by
  cases type with
  | primitive | record | enum | tuple => cases h
  | _ => rfl

theorem checkTopLevel_eq_ok_iff :
    checkTopLevel type = .ok () ↔ type.isTopDecodable = true ∧ checkNested type = .ok () := by
  cases htop : type.isTopDecodable with
  | true => simp [checkTopLevel_of_top htop]
  | false => simp [checkTopLevel_of_not_top htop]

theorem checkGroupMember_eq_ok_iff : checkGroupMember type = .ok () ↔ checkTopLevel type = .ok () ∨
    ∃ element, type = .list element ∧ element.isRecordLike = true ∧ checkNested element = .ok () := by
  cases type with
  | list element =>
    rw [checkGroupMember]
    cases hrecord : element.isRecordLike <;> simp [checkTopLevel, hrecord]
  | _ => simp [checkGroupMember]

/-- Records and tuples are no lists, so a list of them has a byte layout if they have. -/
theorem checkNested_list_of_isRecordLike (hrecord : element.isRecordLike = true)
    (h : checkNested element = .ok ()) : checkNested (.list element) = .ok () := by
  refine checkNested_list_iff.2 ⟨fun inner heq => ?_, h⟩
  rw [heq] at hrecord
  cases hrecord

theorem checkNested_of_checkTopLevel (h : checkTopLevel type = .ok ()) : checkNested type = .ok () :=
  (checkTopLevel_eq_ok_iff.1 h).2

theorem checkNested_of_checkGroupMember (h : checkGroupMember type = .ok ()) :
    checkNested type = .ok () := by
  rcases checkGroupMember_eq_ok_iff.1 h with htop | ⟨element, rfl, hrecord, helement⟩
  · exact checkNested_of_checkTopLevel htop
  · exact checkNested_list_of_isRecordLike hrecord helement

/-- What a strategy decodes one after the other can sit at a byte offset. -/
theorem Strategy.Suits.nested {strategy : Strategy} (h : Suits type strategy) :
    if strategy = .scalar then checkNested type = .ok ()
    else ∀ part ∈ type.parts, checkNested part = .ok () := by
  cases h with
  | packed _ hcheck => exact fun part hpart => List.mem_singleton.1 hpart ▸ hcheck
  | spread _ hcheck | variadic hcheck =>
    exact fun part hpart => List.mem_singleton.1 hpart ▸ checkNested_of_checkTopLevel hcheck
  | groups hcheck | group hcheck =>
    exact fun part hpart => checkNested_of_checkGroupMember (checkGroup_iff.1 hcheck part hpart)
  | scalar _ hcheck => exact checkNested_of_checkTopLevel hcheck

/-- Choosing a strategy behind a check adds no fault to those of the check. -/
theorem of_check_bind_eq_error {check : Except ShapeFault Unit} {strategy : Strategy}
    (h : (check >>= fun _ => pure strategy) = .error fault) : check = .error fault := by
  cases check with
  | error cause => exact congrArg Except.error (Except.error.inj h)
  | ok => cases h

namespace ShapeFault.Concerns

theorem self {reason : ShapeReason} (h : reason.Fits type) : Concerns ⟨type, reason⟩ type :=
  ⟨.refl, h⟩

/-- A fault about a part is about the whole. -/
theorem of_part (hpart : part ∈ type.parts) (h : fault.Concerns part) : fault.Concerns type :=
  ⟨.head hpart h.shows, h.fits⟩

theorem of_checkNested (h : checkNested type = .error fault) : fault.Concerns type := by
  induction type using ResolvedType.memberInduction with
  | primitive | record | enum => cases h
  | list element ih =>
    by_cases hlist : ∃ inner, element = .list inner
    · obtain ⟨inner, rfl⟩ := hlist
      obtain rfl := Except.error.inj h
      exact self .listOfLists
    · have hcheck : checkNested (.list element) = checkNested element := by
        rw [checkNested]
        exact fun inner heq => hlist ⟨inner, heq⟩
      exact of_part List.mem_cons_self (ih (hcheck ▸ h))
  | variadic | variadicMulti | multi =>
    obtain rfl := Except.error.inj h
    exact self (.multiValue rfl)
  | tuple name members ih =>
    rw [checkNested] at h
    obtain ⟨m, hm, hfault⟩ := of_forM_eq_error (checkNestedAll_eq_forM members ▸ h)
    exact of_part hm (ih m hm hfault)

theorem of_checkTopLevel (h : checkTopLevel type = .error fault) : fault.Concerns type := by
  cases htop : type.isTopDecodable with
  | true => exact of_checkNested (checkTopLevel_of_top htop ▸ h)
  | false =>
    rw [checkTopLevel_of_not_top htop] at h
    obtain rfl := Except.error.inj h
    exact self (.notOneSlot htop)

theorem of_checkGroupMember (h : checkGroupMember type = .error fault) : fault.Concerns type := by
  cases type with
  | list element =>
    rw [checkGroupMember] at h
    cases hrecord : element.isRecordLike with
    | true =>
      rw [if_pos hrecord] at h
      exact of_part List.mem_cons_self (of_checkNested h)
    | false =>
      rw [if_neg (by simp [hrecord])] at h
      obtain rfl := Except.error.inj h
      exact self (.groupList hrecord)
  | _ => exact of_checkTopLevel h

theorem of_checkGroup (hparts : type.parts = members) (h : checkGroup members = .error fault) :
    fault.Concerns type := by
  obtain ⟨m, hm, hfault⟩ := of_forM_eq_error (checkGroup_eq_forM members ▸ h)
  exact of_part (hparts ▸ hm) (of_checkGroupMember hfault)

theorem of_select (h : Strategy.select type = .error fault) : fault.Concerns type := by
  cases type with
  | primitive | record | enum => cases h
  | list element =>
    rw [Strategy.select] at h
    split at h
    · exact of_part List.mem_cons_self (of_checkNested (of_check_bind_eq_error h))
    · exact of_part List.mem_cons_self (of_checkTopLevel (of_check_bind_eq_error h))
  | variadic element =>
    exact of_part List.mem_cons_self (of_checkTopLevel (of_check_bind_eq_error h))
  | variadicMulti name members | multi name members =>
    exact of_checkGroup rfl (of_check_bind_eq_error h)
  | tuple name members => exact of_checkTopLevel (of_check_bind_eq_error h)

end ShapeFault.Concerns

/-- The checks of shapes fit together. A type has a byte layout exactly if neither it nor a type in
line with it is a multi-value or a list of lists. It fills a slot if it is of a kind that does and has a
byte layout, and a member of a group may be a list of records besides; so what is accepted as a group
member, as a value of a slot or as a part that a strategy decodes has a byte layout. A fault of a check
or of the choice of a strategy is about the type or a type inside it, with a reason that is true of it,
and its message displays that type. -/
theorem shape_checks_fit_together (type : ResolvedType) :
    (checkNested type = .ok () ↔ ∀ part, type.Inlines part →
      part.isMultiValue = false ∧ ∀ element, part ≠ .list (.list element)) ∧
    (checkTopLevel type = .ok () ↔ type.isTopDecodable = true ∧ checkNested type = .ok ()) ∧
    (checkGroupMember type = .ok () ↔ checkTopLevel type = .ok () ∨
      ∃ element, type = .list element ∧ element.isRecordLike = true ∧ checkNested element = .ok ()) ∧
    ((checkTopLevel type = .ok () ∨ checkGroupMember type = .ok ()) → checkNested type = .ok ()) ∧
    (∀ strategy, Strategy.select type = .ok strategy →
      if strategy = .scalar then checkNested type = .ok ()
      else ∀ part ∈ type.parts, checkNested part = .ok ()) ∧
    ∀ fault, checkNested type = .error fault ∨ checkTopLevel type = .error fault ∨
        checkGroupMember type = .error fault ∨ Strategy.select type = .error fault →
      ∃ part, type.Shows part ∧ fault.reason.Fits part ∧
        fault.message = "unsupported decode shape '" ++ part.display ++ "': " ++ fault.reason.message := by
  refine ⟨checkNested_eq_ok_iff, checkTopLevel_eq_ok_iff, checkGroupMember_eq_ok_iff, ?_, ?_, ?_⟩
  · rintro (htop | hmember)
    · exact checkNested_of_checkTopLevel htop
    · exact checkNested_of_checkGroupMember hmember
  · exact fun strategy hselect => (Strategy.suits_of_select hselect).nested
  · intro fault h
    have hconcerns : fault.Concerns type := by
      rcases h with h | h | h | h
      · exact .of_checkNested h
      · exact .of_checkTopLevel h
      · exact .of_checkGroupMember h
      · exact .of_select h
    exact ⟨fault.type, hconcerns.shows, hconcerns.fits, rfl⟩

/-- A group of a balance and a list of stakes has a strategy, so both members can sit at a byte offset.
In a group with a list of numbers there is a type that is refused, and the reason is true of it. -/
theorem stakes_are_grouped_and_numbers_are_not :
    (∃ strategy,
      Strategy.select (.multi "ComplexType0" [.primitive .bigUint, .list (.record "Stake")]) = .ok strategy ∧
        checkNested (.list (.record "Stake")) = .ok ()) ∧
    ∃ fault, Strategy.select (.multi "ComplexType0" [.list (.primitive .u8)]) = .error fault ∧
      ∃ part, (ResolvedType.multi "ComplexType0" [.list (.primitive .u8)]).Shows part ∧
        fault.reason.Fits part ∧
        fault.message = "unsupported decode shape '" ++ part.display ++ "': " ++ fault.reason.message := by
  constructor
  · have hparts := (shape_checks_fit_together
      (.multi "ComplexType0" [.primitive .bigUint, .list (.record "Stake")])).2.2.2.2.1 _ rfl
    rw [if_neg (by decide)] at hparts
    exact ⟨_, rfl, hparts _ (by decide)⟩
  · exact ⟨_, rfl, (shape_checks_fit_together _).2.2.2.2.2 _ (.inr (.inr (.inr rfl)))⟩

end ContractAbi
