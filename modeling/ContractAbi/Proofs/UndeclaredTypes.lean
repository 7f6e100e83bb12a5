import ContractAbi.Proofs.SchemaFaults

/-!
# Undeclared types

Before any slot is decoded, the types of the outputs are searched for names that the catalog does
not declare. The search goes into lists, variadics and members and stops at a record, but decoding
goes on with the fields of the record. So outputs are rejected for each type that they show outside
of records, and what the catalog lacks behind a field is met while decoding, if at all.
-/
namespace ContractAbi

namespace ResolvedType

/-- The types that stand directly inside a type. -/
def parts : ResolvedType → List ResolvedType
  | .list element | .variadic element => [element]
  | .variadicMulti _ members | .multi _ members | .tuple _ members => members
  | .primitive _ | .record _ | .enum _ => []

/-- Induction on a type in which its parts are given together, whatever constructor they stand in. -/
@[elab_as_elim]
theorem partsInduction {motive : ResolvedType → Prop}
    (step : ∀ type, (∀ part ∈ type.parts, motive part) → motive type) (type : ResolvedType) :
    motive type := by
  induction type using ResolvedType.memberInduction with
  | primitive kind => exact step _ fun _ h => absurd h List.not_mem_nil
  | record name => exact step _ fun _ h => absurd h List.not_mem_nil
  | enum name => exact step _ fun _ h => absurd h List.not_mem_nil
  | list element ih => exact step _ fun part h => List.mem_singleton.1 h ▸ ih
  | variadic element ih => exact step _ fun part h => List.mem_singleton.1 h ▸ ih
  | variadicMulti name members ih => exact step _ ih
  | multi name members ih => exact step _ ih
  | tuple name members ih => exact step _ ih

/-- The second type is the first one or stands inside it, at any depth. -/
def Shows : ResolvedType → ResolvedType → Prop :=
  Relation.ReflTransGen fun whole part => part ∈ whole.parts

end ResolvedType

namespace Catalog

open ResolvedType (Shows)
open Wire (BlamesOnly FailsOnly)

/-- The type needs a declaration of the name that the catalog does not have. -/
inductive Lacks (catalog : Catalog) : ResolvedType → String → Prop
  | record {name : String} (h : catalog.records.get? name = none) : Lacks catalog (.record name) name
  | enum {name : String} (h : catalog.enums.get? name = none) : Lacks catalog (.enum name) name
  | tuple {name : String} {members : List ResolvedType} (h : catalog.composites.get? name = none) :
    Lacks catalog (.tuple name members) name

/-- What the second type reads is a part of what the first one reads. -/
inductive Asks (catalog : Catalog) : ResolvedType → ResolvedType → Prop
  | part {whole part : ResolvedType} (h : part ∈ whole.parts) : Asks catalog whole part
  | field {name : String} {fields : List Field} {field : Field}
      (hget : catalog.records.get? name = some fields) (hfield : field ∈ fields) :
      Asks catalog (.record name) field.type

/-- The type is reachable from one of the given types, through the fields of records too. -/
def Reaches (catalog : Catalog) (types : List ResolvedType) (type : ResolvedType) : Prop :=
  ∃ root ∈ types, Relation.ReflTransGen catalog.Asks root type

/-- The type is shown by a field of a record that is reachable. -/
def ReachesByField (catalog : Catalog) (types : List ResolvedType) (type : ResolvedType) : Prop :=
  ∃ name fields field, catalog.Reaches types (.record name) ∧
    catalog.records.get? name = some fields ∧ field ∈ fields ∧ field.type.Shows type

variable {catalog : Catalog} {type part whole : ResolvedType} {types members : List ResolvedType}
  {name : String}

theorem reaches_of_mem (h : type ∈ types) : catalog.Reaches types type :=
  ⟨type, h, .refl⟩

theorem Reaches.tail (h : catalog.Reaches types whole) (hasks : catalog.Asks whole part) :
    catalog.Reaches types part := by
  obtain ⟨root, hroot, hpath⟩ := h
  exact ⟨root, hroot, hpath.tail hasks⟩

theorem Reaches.trans {others : List ResolvedType} (h : ∀ other ∈ others, catalog.Reaches types other)
    (htype : catalog.Reaches others type) : catalog.Reaches types type := by
  obtain ⟨root, hroot, hpath⟩ := htype
  obtain ⟨first, hfirst, hstart⟩ := h root hroot
  exact ⟨first, hfirst, hstart.trans hpath⟩

theorem Reaches.member (h : part ∈ whole.parts) : catalog.Reaches [whole] part :=
  (reaches_of_mem List.mem_cons_self).tail (.part h)

/-- What is reachable is shown by the types themselves or by a field on the way. -/
theorem Reaches.shown_or_byField (h : catalog.Reaches types type) :
    (∃ root ∈ types, root.Shows type) ∨ catalog.ReachesByField types type := by
  obtain ⟨root, hroot, hpath⟩ := h
  induction hpath with
  | refl => exact .inl ⟨root, hroot, .refl⟩
  | tail hstart hasks ih =>
    cases hasks with
    | part hpart =>
      rcases ih with ⟨first, hfirst, hshows⟩ | ⟨name, fields, field, hname, hget, hfield, hshows⟩
      · exact .inl ⟨first, hfirst, hshows.tail hpart⟩
      · exact .inr ⟨name, fields, field, hname, hget, hfield, hshows.tail hpart⟩
    | field hget hfield => exact .inr ⟨_, _, _, ⟨root, hroot, hstart⟩, hget, hfield, .refl⟩

theorem contains_eq_isSome {α : Type} (map : NameMap α) (name : String) :
    map.contains name = (map.get? name).isSome := by
  cases hget : map.get? name with
  | none =>
    have hnot : ¬ map.contains name = true := fun hcontains =>
      NameMap.get?_eq_none_iff.1 hget (NameMap.contains_iff.1 hcontains)
    exact Bool.eq_false_iff.2 hnot
  | some value =>
    exact NameMap.contains_iff.2 (NameMap.mem_names_of_mem (NameMap.get?_eq_some_iff.1 hget))

theorem Lacks.undeclared?_eq (h : catalog.Lacks type name) : catalog.undeclared? type = some name := by
  cases h with
  | record h | enum h | tuple h =>
    rw [undeclared?, contains_eq_isSome, h]
    rfl

/-- A type that has its own declaration is searched part by part. -/
theorem undeclared?_cases (catalog : Catalog) (type : ResolvedType) :
    (∃ name, catalog.Lacks type name) ∨
      catalog.undeclared? type = catalog.undeclaredMember? type.parts := by
  cases type with
  | primitive kind => exact .inr rfl
  | record name =>
    cases hget : catalog.records.get? name with
    | none => exact .inl ⟨name, .record hget⟩
    | some fields => exact .inr (by rw [undeclared?, contains_eq_isSome, hget]; rfl)
  | enum name =>
    cases hget : catalog.enums.get? name with
    | none => exact .inl ⟨name, .enum hget⟩
    | some variants => exact .inr (by rw [undeclared?, contains_eq_isSome, hget]; rfl)
  | tuple name members =>
    cases hget : catalog.composites.get? name with
    | none => exact .inl ⟨name, .tuple hget⟩
    | some fields => exact .inr (by rw [undeclared?, contains_eq_isSome, hget]; rfl)
  | list element | variadic element =>
    refine .inr ?_
    rw [undeclared?]
    change _ = (catalog.undeclared? element <|> none)
    cases catalog.undeclared? element <;> rfl
  | variadicMulti name members | multi name members => exact .inr rfl

theorem exists_of_undeclaredMember? (h : catalog.undeclaredMember? members = some name) :
    ∃ m ∈ members, catalog.undeclared? m = some name := by
  induction members with
  | nil => cases h
  | cons member rest ih =>
    rw [undeclaredMember?] at h
    cases hmember : catalog.undeclared? member with
    | some other =>
      rw [hmember] at h
      exact ⟨member, List.mem_cons_self, hmember.trans h⟩
    | none =>
      rw [hmember] at h
      obtain ⟨m, hm, hname⟩ := ih h
      exact ⟨m, List.mem_cons_of_mem _ hm, hname⟩

/-- The name that is found in a type is one that the type shows and the catalog lacks. -/
theorem exists_shown (h : catalog.undeclared? type = some name) :
    ∃ part, type.Shows part ∧ catalog.Lacks part name := by
  induction type using ResolvedType.partsInduction with
  | step type ih =>
    rcases catalog.undeclared?_cases type with ⟨missing, hlacks⟩ | hparts
    · obtain rfl : missing = name := Option.some.inj (hlacks.undeclared?_eq.symm.trans h)
      exact ⟨type, .refl, hlacks⟩
    · obtain ⟨part, hpart, hname⟩ := exists_of_undeclaredMember? (hparts.symm.trans h)
      obtain ⟨inner, hshows, hlacks⟩ := ih part hpart hname
      exact ⟨inner, .head hpart hshows, hlacks⟩

theorem shown_declared (h : catalog.undeclared? whole = none) (hshows : whole.Shows part) :
    catalog.undeclared? part = none := by
  induction hshows with
  | refl => exact h
  | @tail inner part _ hpart ih =>
    rcases catalog.undeclared?_cases inner with ⟨missing, hlacks⟩ | hparts
    · exact absurd (hlacks.undeclared?_eq.symm.trans ih) (Option.some_ne_none missing)
    · exact undeclaredMember?_eq_none_iff.1 (hparts.symm.trans ih) part hpart

/-- The search finds a name just when the types show one that the catalog lacks. -/
theorem exists_undeclaredMember?_iff :
    (∃ name, catalog.undeclaredMember? types = some name) ↔
      ∃ root ∈ types, ∃ type name, root.Shows type ∧ catalog.Lacks type name := by
  constructor
  · rintro ⟨name, hname⟩
    obtain ⟨root, hroot, hfound⟩ := exists_of_undeclaredMember? hname
    obtain ⟨type, hshows, hlacks⟩ := exists_shown hfound
    exact ⟨root, hroot, type, name, hshows, hlacks⟩
  · rintro ⟨root, hroot, type, name, hshows, hlacks⟩
    refine Option.ne_none_iff_exists'.1 fun hnone => ?_
    have hdeclared := shown_declared (undeclaredMember?_eq_none_iff.1 hnone root hroot) hshows
    exact absurd (hlacks.undeclared?_eq.symm.trans hdeclared) (Option.some_ne_none name)

/-- If the fault is a missing declaration, one of the types asks for it. -/
def Explains (catalog : Catalog) (types : List ResolvedType) (fault : Wire.Fault) : Prop :=
  ∀ name, fault = .undeclaredType name → ∃ type, catalog.Reaches types type ∧ catalog.Lacks type name

theorem explains_of_bytes {fault : Wire.Fault} (h : ¬ fault.IsSchema) : catalog.Explains types fault := by
  rintro name rfl
  exact absurd trivial h

theorem explains_of_lacks (h : catalog.Lacks type name) :
    catalog.Explains [type] (.undeclaredType name) := by
  intro missing hmissing
  obtain rfl := Wire.Fault.undeclaredType.inj hmissing
  exact ⟨type, reaches_of_mem List.mem_cons_self, h⟩

theorem Explains.of_reaches {others : List ResolvedType} {fault : Wire.Fault}
    (h : ∀ other ∈ others, catalog.Reaches types other) (hothers : catalog.Explains others fault) :
    catalog.Explains types fault := by
  intro name hname
  obtain ⟨type, hreaches, hlacks⟩ := hothers name hname
  exact ⟨type, .trans h hreaches, hlacks⟩

/-- What a part of a type is to blame for, the type explains. -/
theorem Explains.of_asks {fault : Wire.Fault} (hasks : catalog.Asks whole part)
    (h : catalog.Explains [part] fault) : catalog.Explains [whole] fault :=
  .of_reaches (fun _ hother => List.mem_singleton.1 hother ▸
    (reaches_of_mem List.mem_cons_self).tail hasks) h

theorem blamesOnly_enumValue (catalog : Catalog) (name : String) (discriminant : UInt8) :
    BlamesOnly (catalog.Explains [.enum name]) (catalog.enumValue name discriminant) := by
  rw [enumValue]
  split
  · rename_i hget
    exact .error (explains_of_lacks (.enum hget))
  · split
    · exact .ok _
    · exact .error (explains_of_bytes id)

section Readers

variable {readNamed : String → Wire.Reader Value}

/-- A value inside other data fails for a missing declaration that its type asks for, if the records
in it do. -/
theorem failsOnly_readType
    (hnamed : ∀ name, FailsOnly (catalog.Explains [.record name]) (readNamed name)) (type : ResolvedType) :
    FailsOnly (catalog.Explains [type]) (readType catalog readNamed type) := by
  induction type using ResolvedType.memberInduction with
  | primitive kind =>
    have hread : FailsOnly (fun fault => ¬ fault.IsSchema) kind.codec.read := kind.codec.readsBytes_read
    exact (hread.mono fun _ => explains_of_bytes).bind fun _ => .pure _
  | record name => exact hnamed name
  | enum name =>
    have hbyte : FailsOnly (fun fault => ¬ fault.IsSchema) Wire.readByte := Wire.readsBytes_readByte
    exact (hbyte.mono fun _ => explains_of_bytes).bind fun byte =>
      .lift (catalog.blamesOnly_enumValue name byte)
  | list element ih =>
    have hcount : FailsOnly (fun fault => ¬ fault.IsSchema) (Wire.readWord .u32) :=
      Wire.readsBytes_readWord _
    have helement : catalog.Asks (.list element) element := .part List.mem_cons_self
    have hitem := ih.mono fun _ => Explains.of_asks helement
    exact ((hcount.mono fun _ => explains_of_bytes).readList hitem).bind fun _ => .pure _
  | tuple name members ih =>
    have hasks : ∀ m ∈ members, catalog.Asks (.tuple name members) m := fun _ hm => .part hm
    have hmembers := fun m hm => (ih m hm).mono fun _ => Explains.of_asks (hasks m hm)
    exact (failsOnly_readMembers hmembers 0).bind fun _ => .pure _
  | variadic element _ => exact .throw nofun
  | variadicMulti name members _ => exact .throw nofun
  | multi name members _ => exact .throw nofun

end Readers

theorem failsOnly_readRecord (nesting : Nat) (name : String) :
    FailsOnly (catalog.Explains [.record name]) (readRecord catalog nesting name) := by
  induction nesting generalizing name with
  | zero =>
    rw [readRecord.eq_def]
    split
    · rename_i hget
      exact .throw (explains_of_lacks (.record hget))
    · exact .throw (explains_of_bytes id)
  | succ nesting ih =>
    rw [readRecord.eq_def]
    split
    · rename_i hget
      exact .throw (explains_of_lacks (.record hget))
    · rename_i fields hget
      have hasks : ∀ field ∈ fields, catalog.Asks (.record name) field.type :=
        fun field hfield => .field hget hfield
      have hfields := fun field hfield =>
        (failsOnly_readType ih field.type).mono fun _ => Explains.of_asks (hasks field hfield)
      exact (failsOnly_readFields hfields []).bind fun _ => .pure _

theorem failsOnly_read (catalog : Catalog) (type : ResolvedType) :
    FailsOnly (catalog.Explains [type]) (catalog.read type) :=
  -- how deep records may be nested depends on the bytes, but who asks for what does not
  fun bytes => failsOnly_readType (failsOnly_readRecord (catalog.nestingLimit bytes)) type bytes

theorem blamesOnly_decodeSlot (catalog : Catalog) (type : ResolvedType) (slot : Bytes) :
    BlamesOnly (catalog.Explains [type]) (catalog.decodeSlot type slot) := by
  cases type with
  | primitive kind =>
    have htop : BlamesOnly (fun fault => ¬ fault.IsSchema) (kind.codec.top slot) :=
      kind.codec.blamesBytes_top slot
    exact (htop.mono fun _ => explains_of_bytes).bind fun _ => .ok _
  | enum name =>
    have hword : BlamesOnly (fun fault => ¬ fault.IsSchema) (Wire.topWord .u8 slot) :=
      Wire.blamesBytes_topWord .u8 slot
    exact (hword.mono fun _ => explains_of_bytes).bind fun _ => catalog.blamesOnly_enumValue name _
  | record name => exact (catalog.failsOnly_read _).topRead slot
  | tuple name members => exact (catalog.failsOnly_read _).topRead slot
  | list element => exact .error nofun
  | variadic element => exact .error nofun
  | variadicMulti name members => exact .error nofun
  | multi name members => exact .error nofun

theorem blamesOnly_decodeMember (catalog : Catalog) (type : ResolvedType) (slot : Bytes) :
    BlamesOnly (catalog.Explains [type]) (catalog.decodeMember type slot) := by
  rw [decodeMember.eq_def]
  split
  · split
    · exact .ok _
    · exact catalog.blamesOnly_decodeSlot _ slot
  · exact catalog.blamesOnly_decodeSlot _ slot

theorem blamesOnly_decodeGroup (catalog : Catalog) (name : String) (members : List ResolvedType)
    (slots : List Bytes) :
    BlamesOnly (catalog.Explains members) (catalog.decodeGroup name members slots) := by
  have hmembers : ∀ m ∈ members, ∀ slot,
      BlamesOnly (catalog.Explains members) (catalog.decodeMember m slot) := fun m hm slot =>
    (catalog.blamesOnly_decodeMember m slot).mono fun _ =>
      Explains.of_reaches fun _ hother => List.mem_singleton.1 hother ▸ reaches_of_mem hm
  exact (blamesOnly_decodeMembers hmembers 0 slots).bind fun _ => .ok _

/-- A call that fails for a missing declaration does so because its outputs ask for it. -/
theorem isResponse_of_decodeOutput {data : ReturnData} {plan : OutputPlan} {fault : BindingFault}
    (h : catalog.decodeOutput data type plan = .error (.binding fault)) :
    data.IsResponse (catalog.Explains [type]) fault := by
  have hmissing : ∀ index available, catalog.Explains [type] (.missingSlot index available) :=
    fun _ _ => explains_of_bytes id
  rw [decodeOutput.eq_def] at h
  split at h
  · obtain ⟨cause, hscalar, hcause⟩ := of_mapError_eq_error h
    obtain rfl := ReflectionFault.binding.inj hcause
    exact ReturnData.isResponse_of_scalar hmissing (catalog.blamesOnly_decodeSlot _) hscalar
  · cases h
  · cases h
  · cases h
  · cases h
  · obtain ⟨cause, hgroup, hcause⟩ := of_mapError_eq_error h
    obtain rfl := ReflectionFault.binding.inj hcause
    refine ReturnData.isResponse_of_group hmissing (fun slots => ?_) hgroup
    exact (catalog.blamesOnly_decodeGroup _ _ slots).mono fun _ =>
      Explains.of_reaches fun _ hm => .member hm
  · cases h

theorem isResponse_of_decodePlanned {data : ReturnData} {outputs : List (ResolvedType × OutputPlan)}
    {fault : BindingFault} (htypes : ∀ output ∈ outputs, output.1 ∈ types)
    (h : catalog.decodePlanned data outputs = .error (.binding fault)) :
    data.IsResponse (catalog.Explains types) fault := by
  induction outputs with
  | nil => cases h
  | cons output rest ih =>
    obtain ⟨hfirst, hrest⟩ := List.forall_mem_cons.1 htypes
    rw [decodePlanned] at h
    cases houtput : catalog.decodeOutput data output.1 output.2 with
    | error other =>
      rw [houtput] at h
      obtain rfl := Except.error.inj h
      obtain ⟨index, cause, hfault, hcause⟩ := isResponse_of_decodeOutput houtput
      exact ⟨index, cause, hfault, hcause.of_reaches fun _ hother =>
        List.mem_singleton.1 hother ▸ reaches_of_mem hfirst⟩
    | ok value =>
      rw [houtput] at h
      exact ih hrest (error_of_map_eq_error h)

end Catalog

namespace DecodeStep

variable {catalog : Catalog} {data : ReturnData} {type : ResolvedType} {plan : OutputPlan}
  {step next : DecodeStep}

/-- The types that the step decodes. -/
def types : DecodeStep → List ResolvedType
  | .slot type _ | .inside _ type _ | .member type _ => [type]
  | .group _ members _ => members

theorem blamesOnly_run (catalog : Catalog) (step : DecodeStep) :
    Wire.BlamesOnly (catalog.Explains step.types) (step.run catalog) := by
  cases step with
  | slot type bytes => exact catalog.blamesOnly_decodeSlot type bytes
  | inside nesting type bytes =>
    exact (Catalog.failsOnly_readType (Catalog.failsOnly_readRecord nesting) type).topRead bytes
  | member type bytes => exact catalog.blamesOnly_decodeMember type bytes
  | group name members slots => exact catalog.blamesOnly_decodeGroup name members slots

open Catalog (reaches_of_mem)

/-- A step is about types that its whole asks for. -/
theorem Leads.reaches (h : Leads catalog step next) :
    ∀ type ∈ next.types, catalog.Reaches step.types type := by
  intro type htype
  cases h with
  | whole _ => exact reaches_of_mem htype
  | field hget hfield _ =>
    obtain rfl := List.mem_singleton.1 htype
    exact (reaches_of_mem List.mem_cons_self).tail (.field hget hfield)
  | part hmember _ =>
    obtain rfl := List.mem_singleton.1 htype
    exact .member hmember
  | element _ => exact .member htype
  | member hmember =>
    obtain rfl := List.mem_singleton.1 htype
    exact reaches_of_mem (List.of_mem_zip hmember).1
  | packed _ _ => exact .member htype
  | own _ => exact reaches_of_mem htype

theorem Begins.reaches (h : Begins catalog data type plan step) :
    ∀ other ∈ step.types, catalog.Reaches [type] other := by
  intro other hother
  cases h with
  | scalar _ => exact reaches_of_mem hother
  | packed _ _ | element _ | variadic _ | groups _ | group _ => exact .member hother

/-- Every step of decoding an output is about types that are reachable from it. -/
theorem Reached.reaches (h : Reached catalog data type plan step) :
    ∀ other ∈ step.types, catalog.Reaches [type] other := by
  obtain ⟨first, hbegins, hpath⟩ := h
  induction hpath with
  | refl => exact hbegins.reaches
  | tail _ hleads ih => exact fun other hother => .trans ih (hleads.reaches other hother)

end DecodeStep

namespace Catalog

variable {catalog : Catalog} {endpoint : String} {outputs : List ResolvedType} {slots : List Bytes}
  {type : ResolvedType} {name : String}

theorem decodePlanned_ne_unknownType {data : ReturnData} {planned : List (ResolvedType × OutputPlan)} :
    catalog.decodePlanned data planned ≠ .error (.unknownType endpoint name) := by
  induction planned with
  | nil => nofun
  | cons output rest ih =>
    intro h
    rw [decodePlanned] at h
    cases houtput : catalog.decodeOutput data output.1 output.2 with
    | ok value =>
      rw [houtput] at h
      exact ih (error_of_map_eq_error h)
    | error fault =>
      rw [houtput] at h
      obtain rfl := Except.error.inj h
      rw [decodeOutput.eq_def] at houtput
      split at houtput
      · obtain ⟨_, -, hcause⟩ := of_mapError_eq_error houtput
        cases hcause
      · cases houtput
      · cases houtput
      · cases houtput
      · cases houtput
      · obtain ⟨_, -, hcause⟩ := of_mapError_eq_error houtput
        cases hcause
      · cases houtput

/-- Only the search reports an unknown type. -/
theorem decodeOutputs_eq_unknownType_iff :
    catalog.decodeOutputs endpoint outputs slots = .error (.unknownType endpoint name) ↔
      catalog.undeclaredMember? outputs = some name := by
  rw [decodeOutputs]
  split
  · rename_i found hfound
    rw [hfound]
    simp
  · rename_i hnone
    rw [hnone]
    refine ⟨fun h => ?_, fun h => by cases h⟩
    split at h
    · cases h
    · exact absurd h decodePlanned_ne_unknownType

/-- The call is refused for a type that is not declared. -/
def Rejects (catalog : Catalog) (endpoint : String) (outputs : List ResolvedType)
    (slots : List Bytes) : Prop :=
  ∃ name, catalog.decodeOutputs endpoint outputs slots = .error (.unknownType endpoint name)

/-- A type of the name is missing, and fields of records ask for it. -/
def MissesBehindField (catalog : Catalog) (outputs : List ResolvedType) (name : String) : Prop :=
  ∃ type, catalog.ReachesByField outputs type ∧ catalog.Lacks type name

theorem rejects_iff : catalog.Rejects endpoint outputs slots ↔
    ∃ root ∈ outputs, ∃ type name, root.Shows type ∧ catalog.Lacks type name := by
  rw [Rejects, ← exists_undeclaredMember?_iff]
  exact exists_congr fun name => decodeOutputs_eq_unknownType_iff

/-- If the outputs are not rejected, what is missing is missing behind a field. -/
theorem missesBehindField (hnot : ¬ catalog.Rejects endpoint outputs slots)
    (hreaches : catalog.Reaches outputs type) (hlacks : catalog.Lacks type name) :
    catalog.MissesBehindField outputs name := by
  rcases hreaches.shown_or_byField with ⟨root, hroot, hshows⟩ | hfield
  · exact absurd (rejects_iff.2 ⟨root, hroot, type, name, hshows, hlacks⟩) hnot
  · exact ⟨type, hfield, hlacks⟩

/-- What becomes of the declarations that the outputs of a call ask for and the catalog lacks. -/
structure RejectsUpToFields (catalog : Catalog) (endpoint : String) (outputs : List ResolvedType)
    (slots : List Bytes) : Prop where
  /-- The call is refused, whatever its slots are, just when the outputs show a missing type. -/
  rejects_iff : catalog.Rejects endpoint outputs slots ↔
    ∃ root ∈ outputs, ∃ type name, root.Shows type ∧ catalog.Lacks type name
  /-- The refusal tells the name of such a type. -/
  named : ∀ name, catalog.decodeOutputs endpoint outputs slots = .error (.unknownType endpoint name) →
    ∃ root ∈ outputs, ∃ type, root.Shows type ∧ catalog.Lacks type name
  /-- If the fields of all records show declared types only, whatever is missing is rejected. -/
  closed : (∀ record fields, catalog.records.get? record = some fields → ∀ field ∈ fields,
      ∀ type name, field.type.Shows type → ¬ catalog.Lacks type name) →
    ∀ type name, catalog.Reaches outputs type → catalog.Lacks type name →
      catalog.Rejects endpoint outputs slots
  /-- A declaration that a step of decoding misses, also where the fault is skipped or ends a list, is
  one that a field asks for. -/
  step : ¬ catalog.Rejects endpoint outputs slots → ∀ plans, planOutputs outputs = .ok plans →
    ∀ type plan, (type, plan) ∈ outputs.zip plans → ∀ step : DecodeStep,
      DecodeStep.Reached catalog ⟨endpoint, slots⟩ type plan step → ∀ name,
        step.run catalog = .error (.undeclaredType name) → catalog.MissesBehindField outputs name
  /-- So is one that the call fails for. -/
  call : ∀ index name, catalog.decodeOutputs endpoint outputs slots =
      .error (.binding (.invalidResponse endpoint index (.undeclaredType name))) →
    catalog.MissesBehindField outputs name

/-- Outputs are rejected for every missing declaration that they show outside of records; the only
ones that decoding can miss, or pass over in silence, are those that fields of records ask for. -/
theorem undeclared_types_are_rejected_up_to_fields (catalog : Catalog) (endpoint : String)
    (outputs : List ResolvedType) (slots : List Bytes) :
    catalog.RejectsUpToFields endpoint outputs slots where
  rejects_iff := rejects_iff
  named name h := by
    obtain ⟨root, hroot, hfound⟩ := exists_of_undeclaredMember? (decodeOutputs_eq_unknownType_iff.1 h)
    obtain ⟨type, hshows, hlacks⟩ := exists_shown hfound
    exact ⟨root, hroot, type, hshows, hlacks⟩
  closed hclosed type name hreaches hlacks := by
    by_contra hnot
    obtain ⟨shown, ⟨record, fields, field, -, hget, hfield, hshows⟩, hmissing⟩ :=
      missesBehindField hnot hreaches hlacks
    exact hclosed record fields hget field hfield shown name hshows hmissing
  step hnot plans hplans type plan hmem step hreached name hrun := by
    have houtput : ∀ root ∈ [type], catalog.Reaches outputs root := fun root hroot =>
      reaches_of_mem (List.mem_singleton.1 hroot ▸ (List.of_mem_zip hmem).1)
    have htypes : ∀ part ∈ step.types, catalog.Reaches outputs part :=
      fun part hpart => .trans houtput (hreached.reaches part hpart)
    obtain ⟨missing, hreaches, hlacks⟩ := DecodeStep.blamesOnly_run catalog step _ hrun name rfl
    exact missesBehindField hnot (.trans htypes hreaches) hlacks
  call index name h := by
    have hnot : ¬ catalog.Rejects endpoint outputs slots := by
      rintro ⟨other, hother⟩
      rw [h] at hother
      cases hother
    rw [decodeOutputs] at h
    split at h
    · cases h
    · split at h
      · cases h
      · obtain ⟨_, cause, hfault, hcause⟩ := isResponse_of_decodePlanned
          (fun output houtput => (List.of_mem_zip houtput).1) h
        obtain ⟨-, -, rfl⟩ := BindingFault.invalidResponse.inj hfault
        obtain ⟨missing, hreaches, hlacks⟩ := hcause name rfl
        exact missesBehindField hnot hreaches hlacks

/-- Orders have an item, and items are not declared. -/
def orderCatalog : Catalog where
  records := NameMap.ofList [("Order", [⟨"item", .record "Item"⟩])]
  enums := ∅
  composites := ∅

/-- Nobody declares the items that orders ask for, and yet a slot with an order is decoded: the step
that misses the declaration ends the list before its first element. -/
theorem order_without_item_is_passed_over :
    orderCatalog.Reaches [.list (.record "Order")] (.record "Item") ∧
    orderCatalog.Lacks (.record "Item") "Item" ∧
    orderCatalog.decodeOutputs "getOrders" [.list (.record "Order")] [[1]] = .ok [.list []] ∧
    DecodeStep.run orderCatalog (.inside 1 (.record "Item") [1]) = .error (.undeclaredType "Item") ∧
    orderCatalog.MissesBehindField [.list (.record "Order")] "Item" := by
  have hget : orderCatalog.records.get? "Order" = some [⟨"item", .record "Item"⟩] := rfl
  have horder : orderCatalog.Reaches [.list (.record "Order")] (.record "Order") :=
    .member List.mem_cons_self
  have hreaches : orderCatalog.Reaches [.list (.record "Order")] (.record "Item") :=
    horder.tail (.field hget List.mem_cons_self)
  have hdecode : orderCatalog.decodeOutputs "getOrders" [.list (.record "Order")] [[1]] =
      .ok [.list []] := by
    with_unfolding_all rfl
  have hnot : ¬ orderCatalog.Rejects "getOrders" [.list (.record "Order")] [[1]] := by
    rintro ⟨name, hname⟩
    rw [hdecode] at hname
    cases hname
  have hbegins : DecodeStep.Begins orderCatalog ⟨"getOrders", [[1]]⟩ (.list (.record "Order"))
      ⟨.selfTerminating, 0⟩ (.inside (orderCatalog.nestingLimit [1]) (.record "Order") [1]) :=
    .packed rfl (List.suffix_refl _)
  have hleads : DecodeStep.Leads orderCatalog (.inside 2 (.record "Order") [1])
      (.inside 1 (.record "Item") [1]) := .field hget List.mem_cons_self (List.suffix_refl _)
  have hrun : DecodeStep.run orderCatalog (.inside 1 (.record "Item") [1]) =
      .error (.undeclaredType "Item") := rfl
  have hrejects := undeclared_types_are_rejected_up_to_fields orderCatalog "getOrders"
    [.list (.record "Order")] [[1]]
  exact ⟨hreaches, .record rfl, hdecode, hrun, hrejects.step hnot _ rfl _ _ List.mem_cons_self _
    ⟨_, hbegins, .single hleads⟩ "Item" hrun⟩

end Catalog
end ContractAbi
