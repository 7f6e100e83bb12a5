import ContractAbi.Proofs.DecoderFiles
import ContractAbi.Proofs.RepeatedValues

/-!
# Generated decoders agree with reflection

The functions that solve the bodies of a generated file are unique, because no record contains
itself, and they read what reflection reads. So the statements of a method give the values that
reflection gives, or fail with the same fault at the same slot.
-/
namespace ContractAbi

open Wire (Follows Shrinks)

/-- The functions do what the bodies of all decoders of the catalog say. -/
def Catalog.SolvedBy (catalog : Catalog) (decoders : Decoders) : Prop :=
  ∀ item, catalog.HasDecoder item → item.Holds decoders

/-- What a comparison of functions with reading rests on: functions that solve the bodies, and a
relation between values and what is built that goes through the declarations. -/
structure Contract.Compares (contract : Contract) (document : Document) (session : Session)
    (decoders : Decoders) (R : Value → Built → Prop) : Prop where
  models : contract.Models document session
  acyclic : contract.catalog.Acyclic
  named : contract.catalog.Named
  solved : contract.catalog.SolvedBy decoders
  views : contract.catalog.Views R

theorem type_mem_of_mem_memberFields {members : List ResolvedType} {field : Field}
    (h : field ∈ memberFields members) : field.type ∈ members := by
  have hmem := List.mem_map_of_mem (f := fun field : Field => field.type) h
  rwa [types_memberFields] at hmem

/-- A member that is no list fills its slot. -/
theorem member_of_not_list {type : ResolvedType} (h : ∀ element, type ≠ .list element) :
    checkGroupMember type = checkTopLevel type ∧
      MemberDecoder.ofType type = (SlotDecoder.ofType type).map .slot ∧
      ∀ catalog : Catalog, catalog.decodeMember type = catalog.decodeSlot type := by
  cases type with
  | list element => exact absurd rfl (h element)
  | _ => exact ⟨rfl, rfl, fun _ => rfl⟩

/-- A member of a group is a packed list of records or fills its slot. -/
theorem member_cases {type : ResolvedType} (hcheck : checkGroupMember type = .ok ())
    {decoder : MemberDecoder} (hdecoder : MemberDecoder.ofType type = .ok decoder) :
    (∃ element, type = .list element ∧ element.isRecordLike = true ∧
      checkNested element = .ok () ∧ decoder = .packed (NestedReader.ofType element)) ∨
    (checkTopLevel type = .ok () ∧ (∃ slot, SlotDecoder.ofType type = .ok slot ∧
      decoder = .slot slot) ∧
      ∀ catalog : Catalog, catalog.decodeMember type = catalog.decodeSlot type) := by
  by_cases hlist : ∃ element, type = .list element
  · obtain ⟨element, rfl⟩ := hlist
    cases hrecord : element.isRecordLike with
    | true =>
      rw [checkGroupMember, hrecord] at hcheck
      rw [MemberDecoder.ofType, hrecord] at hdecoder
      exact .inl ⟨element, rfl, hrecord, hcheck, (Except.ok.inj hdecoder).symm⟩
    | false =>
      rw [checkGroupMember, hrecord] at hcheck
      cases hcheck
  · obtain ⟨hsame, hmap, hdecode⟩ := member_of_not_list fun element h => hlist ⟨element, h⟩
    rw [hsame] at hcheck
    rw [hmap] at hdecoder
    exact .inr ⟨hcheck, of_map_eq_ok hdecoder, hdecode⟩

theorem groupDecoder_of_ofMembers {name : String} {members : List ResolvedType}
    {decoder : GroupDecoder} (h : GroupDecoder.ofMembers name members = .ok decoder) :
    decoder.type = name ∧
      List.Forall₂ (fun m d => MemberDecoder.ofType m = .ok d) members decoder.members := by
  rw [GroupDecoder.ofMembers] at h
  obtain ⟨decoded, hmembers, h⟩ := of_bind_eq_ok h
  obtain rfl := Except.ok.inj h
  exact ⟨rfl, forall₂_of_mapM hmembers⟩

namespace Contract.Compares

variable {contract : Contract} {document : Document} {session : Session} {decoders : Decoders}
  {R : Value → Built → Prop}

theorem holds_record (h : contract.Compares document session decoders R) {name : String}
    {fields : List Field} (hget : contract.catalog.records.get? name = some fields) :
    (name, fields) ∈ contract.catalog.structs ∧
      (DecoderItem.ofStruct name fields).Holds decoders :=
  ⟨List.mem_append_left _ (NameMap.get?_eq_some_iff.1 hget), h.solved _ (.record hget)⟩

theorem holds_tuple (h : contract.Compares document session decoders R) {name : String}
    {members : List ResolvedType}
    (htype : session.context.AdmitsNested document.types (.tuple name members)) :
    (name, memberFields members) ∈ contract.catalog.structs ∧ Identifier.type name = name ∧
      (DecoderItem.ofStruct name (memberFields members)).Holds decoders := by
  have hentry : (name, memberFields members) ∈ contract.catalog.composites.entries :=
    NameMap.get?_eq_some_iff.1 (h.models.get?_composite htype.admitted)
  have hidentifier := (h.models.composite_identifier (NameMap.mem_names_of_mem hentry)).1
  refine ⟨List.mem_append_right _ hentry, hidentifier, h.solved _ (.composite hentry ?_)⟩
  exact fun field hfield => (htype.tuple _ (type_mem_of_mem_memberFields hfield)).nested

/-- A reader matches its type if the functions of the records in it do, and for those inside lists
on fewer bytes. -/
theorem follows_type (h : contract.Compares document session decoders R) {type : ResolvedType}
    (htype : session.context.AdmitsNested document.types type) (bound : Nat)
    (hinline : ∀ name ∈ type.inlineRecords, ∀ fields,
      contract.catalog.records.get? name = some fields → Follows (bound + 1) R
        (contract.catalog.read (.record name)) (decoders.nested (Identifier.type name)))
    (hbelow : ∀ name fields, contract.catalog.records.get? name = some fields → Follows bound R
      (contract.catalog.read (.record name)) (decoders.nested (Identifier.type name))) :
    Follows (bound + 1) R (contract.catalog.read type)
      ((NestedReader.ofType type).run decoders) := by
  induction type using ResolvedType.memberInduction generalizing bound with
  | primitive kind => exact h.views.follows_primitive h.acyclic kind
  | record name =>
    obtain ⟨fields, hget⟩ := h.models.exists_record htype.admitted.grounded
    exact hinline name List.mem_cons_self fields hget
  | enum name =>
    obtain ⟨variants, hget⟩ := h.models.exists_enum htype.admitted.grounded
    have hbody : decoders.nested (Identifier.type name) = _ := (h.solved _ (.enum hget)).nested
    rw [NestedReader.ofType, NestedReader.run, hbody]
    exact h.views.follows_enum h.acyclic hget
  | list element ih =>
    refine h.views.follows_list h.acyclic ?_
    cases bound with
    | zero => exact fun _ hlt => absurd hlt (Nat.not_lt_zero _)
    | succ bound =>
      refine ih htype.list bound (fun name _ fields hget => hbelow name fields hget) ?_
      exact fun name fields hget => (hbelow name fields hget).mono (Nat.le_succ bound)
  | tuple name members ih =>
    obtain ⟨hentry, hidentifier, hholds⟩ := h.holds_tuple htype
    have hbody : decoders.nested (Identifier.type name) = _ := hholds.nested
    rw [hidentifier] at hbody
    rw [NestedReader.ofType, NestedReader.run, hbody, h.acyclic.read_tuple]
    apply h.views.follows_struct hentry
    intro field hfield
    have hmember := type_mem_of_mem_memberFields hfield
    refine ih field.type hmember (htype.tuple field.type hmember) bound ?_ hbelow
    intro inner hinner
    exact hinline inner (ResolvedType.mem_inlineRecordsOfAll.2 ⟨field.type, hmember, hinner⟩)
  | variadic element _ => cases htype.nested
  | variadicMulti name members _ => cases htype.nested
  | multi name members _ => cases htype.nested

/-- The function of a record matches reading the record. -/
theorem follows_record (h : contract.Compares document session decoders R) (bound : Nat)
    (name : String) : ∀ fields, contract.catalog.records.get? name = some fields →
      Follows bound R (contract.catalog.read (.record name))
        (decoders.nested (Identifier.type name)) := by
  induction bound, name using h.acyclic.recordInduction with
  | zero name => exact fun _ _ _ hlt => absurd hlt (Nat.not_lt_zero _)
  | succ bound name hinner hbelow =>
    intro fields hget
    obtain ⟨hentry, hholds⟩ := h.holds_record hget
    have hbody : decoders.nested (Identifier.type name) = _ := hholds.nested
    rw [hbody, h.acyclic.read_record_each hget (h.named.fields _ hentry)]
    apply h.views.follows_struct hentry
    intro field hfield
    refine h.follows_type (h.models.admitsNested_record hget field hfield) bound ?_ hbelow
    exact fun inner hmem => hinner inner ⟨fields, hget, field, hfield, hmem⟩

/-- The reader of an admitted type matches reading the type. -/
theorem follows_read (h : contract.Compares document session decoders R) {type : ResolvedType}
    (htype : session.context.AdmitsNested document.types type) (bound : Nat) :
    Follows bound R (contract.catalog.read type) ((NestedReader.ofType type).run decoders) := by
  have hfollows := h.follows_type htype bound (fun name _ => h.follows_record (bound + 1) name)
    (h.follows_record bound)
  exact hfollows.mono (Nat.le_succ bound)

/-- The decoder of a slot matches decoding its type. -/
theorem matches_slot (h : contract.Compares document session decoders R) {type : ResolvedType}
    (htype : session.context.Admits document.types type) (hcheck : checkTopLevel type = .ok ())
    {decoder : SlotDecoder} (hdecoder : SlotDecoder.ofType type = .ok decoder) (slot : Bytes) :
    Matches R (contract.catalog.decodeSlot type slot) (decoder.run decoders slot) := by
  cases type with
  | primitive kind =>
    obtain rfl := Except.ok.inj hdecoder
    apply (Matches.refl (kind.codec.top slot)).bind
    intro value other hvalue
    subst hvalue
    exact .ok (h.views.scalar value)
  | record name =>
    obtain rfl := Except.ok.inj hdecoder
    obtain ⟨fields, hget⟩ := h.models.exists_record htype.grounded
    have hbody : decoders.top (Identifier.type name) = _ := (h.holds_record hget).2.top
    rw [SlotDecoder.run, hbody]
    exact Follows.topRead (fun bound => h.follows_record bound name fields hget) slot
  | enum name =>
    obtain rfl := Except.ok.inj hdecoder
    obtain ⟨variants, hget⟩ := h.models.exists_enum htype.grounded
    have hbody : decoders.top (Identifier.type name) = _ := (h.solved _ (.enum hget)).top
    rw [SlotDecoder.run, hbody]
    apply (Matches.refl (Wire.topWord .u8 slot)).bind
    intro word other hword
    subst hword
    exact h.views.matches_enumValue hget _
  | tuple name members =>
    obtain rfl := Except.ok.inj hdecoder
    have hnested : session.context.AdmitsNested document.types (.tuple name members) :=
      ⟨htype, hcheck⟩
    obtain ⟨-, hidentifier, hholds⟩ := h.holds_tuple hnested
    have hbody : decoders.top (Identifier.type name) = _ := hholds.top
    rw [hidentifier] at hbody
    have hread := Follows.topRead (fun bound => h.follows_read hnested bound) slot
    rw [SlotDecoder.run, hbody, DecoderItem.ofStruct, DecoderItem.topBody, hidentifier]
    exact hread
  | list element => cases hcheck
  | variadic element => cases hcheck
  | variadicMulti name members => cases hcheck
  | multi name members => cases hcheck

/-- The decoder of a member matches decoding its type. -/
theorem matches_member (h : contract.Compares document session decoders R) {type : ResolvedType}
    (htype : session.context.Admits document.types type) (hcheck : checkGroupMember type = .ok ())
    {decoder : MemberDecoder} (hdecoder : MemberDecoder.ofType type = .ok decoder) (slot : Bytes) :
    Matches R (contract.catalog.decodeMember type slot) (decoder.run decoders slot) := by
  rcases member_cases hcheck hdecoder with
    ⟨element, rfl, hrecord, hnested, rfl⟩ | ⟨htop, ⟨slotDecoder, hslot, rfl⟩, hsame⟩
  · have helement : session.context.AdmitsNested document.types element := ⟨htype.list, hnested⟩
    have hpacked := Follows.packed (fun bound => h.follows_read helement bound) slot
    rw [Catalog.decodeMember, hrecord, if_pos rfl]
    exact .ok (h.views.list _ _ hpacked)
  · rw [hsame]
    exact h.matches_slot htype htop hslot slot

/-- The decoders of members match decoding the members from one position on. -/
theorem matches_members (h : contract.Compares document session decoders R)
    {members : List ResolvedType} (htypes : ∀ m ∈ members, session.context.Admits document.types m)
    (hcheck : ∀ m ∈ members, checkGroupMember m = .ok ()) {decoded : List MemberDecoder}
    (hdecoded : List.Forall₂ (fun m d => MemberDecoder.ofType m = .ok d) members decoded)
    {group : List Bytes} (hlength : group.length = members.length) (index : Nat) :
    Matches (FieldsMatch R (memberFieldsFrom index members))
      (contract.catalog.decodeMembers index members group)
      (GroupDecoder.runMembers decoders index decoded group) := by
  induction hdecoded generalizing group index with
  | nil =>
    obtain rfl := List.eq_nil_of_length_eq_zero hlength
    exact .ok .nil
  | @cons member decoder members decoded hdecoder hrest ih =>
    cases group with
    | nil => cases hlength
    | cons slot slots =>
      have hmember := h.matches_member (htypes member List.mem_cons_self)
        (hcheck member List.mem_cons_self) hdecoder slot
      have hmembers := ih (fun m hm => htypes m (List.mem_cons_of_mem _ hm))
        (fun m hm => hcheck m (List.mem_cons_of_mem _ hm)) (Nat.succ.inj hlength) (index + 1)
      refine hmember.bind fun value part hvalue => hmembers.bind fun values parts hvalues => ?_
      have hcons : FieldsMatch R (⟨memberName index, member⟩ :: memberFieldsFrom (index + 1) members)
          ((memberName index, value) :: values)
          ((Identifier.field (memberName index), part) :: parts) := .cons hvalue hvalues
      rw [Identifier.field_memberName] at hcons
      exact .ok hcons

/-- The decoder of a group matches decoding the group, if it has a slot for each member. -/
theorem matches_group (h : contract.Compares document session decoders R) {name : String}
    {members : List ResolvedType}
    (hholds : session.context.registry.Holds ⟨name, members⟩)
    (htypes : ∀ m ∈ members, session.context.Admits document.types m)
    (hcheck : checkGroup members = .ok ()) {decoder : GroupDecoder}
    (hdecoder : GroupDecoder.ofMembers name members = .ok decoder) {group : List Bytes}
    (hlength : group.length = members.length) :
    Matches R (contract.catalog.decodeGroup name members group) (decoder.run decoders group) := by
  have hentry : (name, memberFields members) ∈ contract.catalog.composites.entries :=
    h.models.mem_composites.2 hholds
  have hidentifier := (h.models.composite_identifier (NameMap.mem_names_of_mem hentry)).1
  obtain ⟨htype, hdecoded⟩ := groupDecoder_of_ofMembers hdecoder
  have hmembers := h.matches_members htypes (checkGroup_iff.1 hcheck) hdecoded hlength 0
  rw [← memberFields_eq] at hmembers
  apply hmembers.bind
  intro values parts hparts
  have hstruct := h.views.struct name _ values parts (List.mem_append_right _ hentry) hparts
  rw [hidentifier] at hstruct
  rw [htype]
  exact .ok hstruct

end Contract.Compares

namespace ReturnData

variable {α β : Type} {R : α → β → Prop}

theorem matches_scalar (data : ReturnData) (index : Nat) {f : Bytes → Except Wire.Fault α}
    {g : Bytes → Except Wire.Fault β} (h : ∀ slot, Matches R (f slot) (g slot)) :
    Matches R (data.scalar index f) (data.scalar index g) :=
  (Matches.refl (data.slot index)).bind fun slot _ hslot => hslot ▸ (h slot).mapError _

theorem selfTerminating_forall₂ (data : ReturnData) (index : Nat) {reader : Wire.Reader α}
    {decoder : Wire.Reader β} (h : ∀ bound, Follows bound R reader decoder) :
    List.Forall₂ R (data.selfTerminating index reader) (data.selfTerminating index decoder) := by
  rw [selfTerminating, selfTerminating]
  cases data.slots[index]? with
  | none => exact .nil
  | some slot => exact Follows.packed h slot

theorem eachSlot_forall₂ (data : ReturnData) (start : Nat) {f : Bytes → Except Wire.Fault α}
    {g : Bytes → Except Wire.Fault β} (h : ∀ slot, Matches R (f slot) (g slot)) :
    List.Forall₂ R (data.eachSlot start f) (data.eachSlot start g) :=
  Matches.filterMap_toOption fun slot _ => h slot

theorem groups_forall₂ (data : ReturnData) (start : Nat) {width : Nat}
    {f : List Bytes → Except Wire.Fault α} {g : List Bytes → Except Wire.Fault β}
    (h : ∀ group, group.length = width → Matches R (f group) (g group)) :
    List.Forall₂ R (data.groups start width f) (data.groups start width g) :=
  Matches.filterMap_toOption fun group hgroup => h group (length_of_mem_completeGroups hgroup)

theorem matches_group (data : ReturnData) (start : Nat) {width : Nat}
    {f : List Bytes → Except Wire.Fault α} {g : List Bytes → Except Wire.Fault β}
    (h : ∀ group, group.length = width → Matches R (f group) (g group)) :
    Matches R (data.group start width f) (data.group start width g) := by
  rw [group, group]
  split
  · exact .error _
  · refine (h _ ?_).mapError _
    rw [List.length_take, List.length_drop]
    omega

end ReturnData

/-- The values of outputs from the one at `index` on, each beside what the variable of the output is
bound to. -/
inductive BindsFrom (R : Value → Built → Prop) : Nat → List Value → List (Nat × Built) → Prop
  | nil {index : Nat} : BindsFrom R index [] []
  | cons {index : Nat} {value : Value} {part : Built} {values : List Value}
      {parts : List (Nat × Built)} (hvalue : R value part)
      (hrest : BindsFrom R (index + 1) values parts) :
      BindsFrom R index (value :: values) ((index, part) :: parts)

/-- The first statement decodes the first output. -/
theorem outputStatements_cons {index : Nat} {type : ResolvedType} {plan : OutputPlan}
    {rest : List (ResolvedType × OutputPlan)} {statements : List OutputStatement}
    (h : outputStatements index ((type, plan) :: rest) = .ok statements) :
    ∃ decoder others, OutputDecoder.ofOutput plan.strategy type = .ok decoder ∧
      outputStatements (index + 1) rest = .ok others ∧
      statements = ⟨index, plan.firstSlot, decoder⟩ :: others := by
  rw [outputStatements] at h
  obtain ⟨statement, hstatement, h⟩ := of_bind_eq_ok h
  obtain ⟨decoder, hdecoder, hmade⟩ := of_bind_eq_ok hstatement
  obtain ⟨others, hothers, h⟩ := of_bind_eq_ok h
  obtain rfl := Except.ok.inj hmade
  exact ⟨decoder, others, hdecoder, hothers, (Except.ok.inj h).symm⟩

/-- The statements bind the outputs in order. -/
theorem index_outputStatements {index : Nat} {outputs : List (ResolvedType × OutputPlan)}
    {statements : List OutputStatement} (h : outputStatements index outputs = .ok statements) :
    statements.map (·.index) = List.range' index outputs.length := by
  induction outputs generalizing index statements with
  | nil =>
    obtain rfl := Except.ok.inj h
    rfl
  | cons output rest ih =>
    obtain ⟨decoder, others, -, hrest, rfl⟩ := outputStatements_cons h
    rw [List.map_cons, ih hrest, List.length_cons, List.range'_succ]

namespace Contract.Compares

variable {contract : Contract} {document : Document} {session : Session} {decoders : Decoders}
  {R : Value → Built → Prop}

/-- The decoder of an output matches decoding the output. -/
theorem matches_output (h : contract.Compares document session decoders R) {type : ResolvedType}
    {strategy : Strategy} (htype : session.context.Admits document.types type)
    (hsuits : Strategy.Suits type strategy) {decoder : OutputDecoder}
    (hdecoder : OutputDecoder.ofOutput strategy type = .ok decoder) (data : ReturnData)
    (slot : Nat) : Matches R (contract.catalog.decodeOutput data type ⟨strategy, slot⟩)
      ((decoder.run decoders data slot).mapError .binding) := by
  cases hsuits with
  | packed hrecord hcheck =>
    obtain rfl := Except.ok.inj hdecoder
    have helement : session.context.AdmitsNested document.types _ := ⟨htype.list, hcheck⟩
    have hvalues := data.selfTerminating_forall₂ slot fun bound => h.follows_read helement bound
    exact .ok (h.views.list _ _ hvalues)
  | spread hrecord hcheck =>
    obtain ⟨slotDecoder, hslot, hdecoder⟩ := of_bind_eq_ok hdecoder
    obtain rfl := Except.ok.inj hdecoder
    have hvalues := data.eachSlot_forall₂ slot fun bytes =>
      h.matches_slot htype.list hcheck hslot bytes
    exact .ok (h.views.list _ _ hvalues)
  | variadic hcheck =>
    obtain ⟨slotDecoder, hslot, hdecoder⟩ := of_bind_eq_ok hdecoder
    obtain rfl := Except.ok.inj hdecoder
    have hvalues := data.eachSlot_forall₂ slot fun bytes =>
      h.matches_slot htype.variadic hcheck hslot bytes
    exact .ok (h.views.list _ _ hvalues)
  | groups hcheck =>
    obtain ⟨groupDecoder, hgroup, hdecoder⟩ := of_bind_eq_ok hdecoder
    obtain rfl := Except.ok.inj hdecoder
    have hholds := htype.known _ (List.mem_append_right _ List.mem_cons_self)
    have hvalues := data.groups_forall₂ slot fun group hlength =>
      h.matches_group hholds htype.variadicMulti hcheck hgroup hlength
    exact .ok (h.views.list _ _ hvalues)
  | group hcheck =>
    obtain ⟨groupDecoder, hgroup, hdecoder⟩ := of_bind_eq_ok hdecoder
    obtain rfl := Except.ok.inj hdecoder
    have hholds := htype.known _ (List.mem_append_right _ List.mem_cons_self)
    have hvalue := data.matches_group slot fun group hlength =>
      h.matches_group hholds htype.multi hcheck hgroup hlength
    exact hvalue.mapError _
  | scalar htop hcheck =>
    obtain ⟨slotDecoder, hslot, hdecoder⟩ := of_bind_eq_ok hdecoder
    obtain rfl := Except.ok.inj hdecoder
    have hvalue := data.matches_scalar slot fun bytes => h.matches_slot htype hcheck hslot bytes
    exact hvalue.mapError _

/-- The statements match decoding the planned outputs, value by value. -/
theorem matches_statements (h : contract.Compares document session decoders R)
    {outputs : List (ResolvedType × OutputPlan)}
    (htypes : ∀ output ∈ outputs, session.context.Admits document.types output.1 ∧
      Strategy.Suits output.1 output.2.strategy)
    {index : Nat} {statements : List OutputStatement}
    (hstatements : outputStatements index outputs = .ok statements) (data : ReturnData) :
    Matches (BindsFrom R index) (contract.catalog.decodePlanned data outputs)
      ((decoders.runStatements data statements).mapError .binding) := by
  induction outputs generalizing index statements with
  | nil =>
    obtain rfl := Except.ok.inj hstatements
    exact .ok .nil
  | cons output rest ih =>
    obtain ⟨type, plan⟩ := output
    obtain ⟨decoder, others, hdecoder, hrest, rfl⟩ := outputStatements_cons hstatements
    obtain ⟨htype, hsuits⟩ := htypes (type, plan) List.mem_cons_self
    have hfirst := h.matches_output htype hsuits hdecoder data plan.firstSlot
    have hothers := ih (fun output hmem => htypes output (List.mem_cons_of_mem _ hmem)) hrest
    rw [Catalog.decodePlanned, Decoders.runStatements, mapError_bind]
    apply hfirst.bind
    intro value part hvalue
    rw [mapError_bind]
    apply hothers.bind
    intro values parts hvalues
    exact .ok (.cons hvalue hvalues)

end Contract.Compares
end ContractAbi
