import ContractAbi.Proofs.Contracts
import ContractAbi.Proofs.Faults

/-!
# Faults of decoding

A document that has a model leaves nothing undeclared and nothing of a shape that cannot be decoded.
So a fault of decoding the outputs of one of its endpoints, also one that is skipped or ends a list,
comes from the bytes and never from the types.
-/
namespace ContractAbi

namespace Wire

variable {α β : Type} {fault : Fault}

/-- The types are to blame, whatever the bytes are. -/
def Fault.IsSchema : Fault → Prop
  | .undeclaredType _ | .unsupportedShape _ => True
  | _ => False

/-- If the result is a fault, the types are not to blame. -/
def BlamesBytes (result : Except Fault α) : Prop :=
  ∀ fault, result = .error fault → ¬ fault.IsSchema

namespace BlamesBytes

theorem ok (value : α) : BlamesBytes (.ok value : Except Fault α) :=
  BlamesOnly.ok value

theorem error (h : ¬ fault.IsSchema) : BlamesBytes (.error fault : Except Fault α) :=
  BlamesOnly.error h

theorem bind {first : Except Fault α} {next : α → Except Fault β} (hfirst : BlamesBytes first)
    (hnext : ∀ value, BlamesBytes (next value)) : BlamesBytes (first >>= next) :=
  BlamesOnly.bind hfirst hnext

end BlamesBytes

/-- Whatever bytes it is given, the reader does not blame the types. -/
def ReadsBytes (reader : Reader α) : Prop :=
  ∀ bytes, BlamesBytes (reader bytes)

namespace ReadsBytes

theorem pure (value : α) : ReadsBytes (Pure.pure value : Reader α) :=
  FailsOnly.pure value

theorem throw (h : ¬ fault.IsSchema) : ReadsBytes (MonadExcept.throw fault : Reader α) :=
  FailsOnly.throw h

theorem lift {result : Except Fault α} (h : BlamesBytes result) :
    ReadsBytes (liftM result : Reader α) :=
  FailsOnly.lift h

theorem bind {first : Reader α} {next : α → Reader β} (hfirst : ReadsBytes first)
    (hnext : ∀ value, ReadsBytes (next value)) : ReadsBytes (first >>= next) :=
  FailsOnly.bind hfirst hnext

theorem topRead {reader : Reader α} (h : ReadsBytes reader) (slot : Bytes) :
    BlamesBytes (topRead reader slot) :=
  FailsOnly.topRead h slot

end ReadsBytes

theorem Fault.IsBytes.not_isSchema (h : fault.IsBytes) : ¬ fault.IsSchema := by
  cases fault <;> first | exact id | cases h

theorem readsBytes_readWord (word : Word) : ReadsBytes (readWord word) :=
  (failsOnly_readWord word).mono fun _ => Fault.IsBytes.not_isSchema

theorem readsBytes_readByte : ReadsBytes readByte :=
  failsOnly_readByte.mono fun _ => Fault.IsBytes.not_isSchema

theorem blamesBytes_topWord (word : Word) (slot : Bytes) : BlamesBytes (topWord word slot) :=
  (blamesOnly_topWord word slot).mono fun _ => Fault.IsBytes.not_isSchema

theorem Codec.blamesBytes_top (codec : Codec) (slot : Bytes) : BlamesBytes (codec.top slot) :=
  (codec.blamesOnly_top slot).mono fun _ => Fault.IsBytes.not_isSchema

theorem Codec.readsBytes_read (codec : Codec) : ReadsBytes codec.read :=
  codec.failsOnly_read.mono fun _ => Fault.IsBytes.not_isSchema

theorem ReadsBytes.readList {item : Reader α} (hitem : ReadsBytes item) : ReadsBytes (readList item) :=
  FailsOnly.readList (readsBytes_readWord _) hitem

end Wire

namespace Catalog

open Wire (BlamesBytes ReadsBytes)

variable {catalog : Catalog} {type element : ResolvedType} {members : List ResolvedType}
  {name : String}

theorem undeclaredMember?_eq_none_iff :
    catalog.undeclaredMember? members = none ↔ ∀ m ∈ members, catalog.undeclared? m = none := by
  refine ⟨fun h => ?_, undeclaredMember?_eq_none⟩
  induction members with
  | nil => simp
  | cons member rest ih =>
    rw [undeclaredMember?] at h
    cases hmember : catalog.undeclared? member with
    | some name =>
      rw [hmember] at h
      cases h
    | none =>
      rw [hmember] at h
      intro m hm
      rcases List.mem_cons.1 hm with rfl | hm
      · exact hmember
      · exact ih h m hm

/-- A value of the type can be read inside other data. -/
structure Nests (catalog : Catalog) (type : ResolvedType) : Prop where
  check : checkNested type = .ok ()
  declared : catalog.undeclared? type = none

/-- A value of the type can be decoded from a slot of its own. -/
structure FillsSlot (catalog : Catalog) (type : ResolvedType) : Prop where
  check : checkTopLevel type = .ok ()
  declared : catalog.undeclared? type = none

/-- A value of the type can be a member of a group. -/
structure FillsMember (catalog : Catalog) (type : ResolvedType) : Prop where
  check : checkGroupMember type = .ok ()
  declared : catalog.undeclared? type = none

/-- The fields of every declared record can be read inside other data. -/
def Complete (catalog : Catalog) : Prop :=
  ∀ name fields, catalog.records.get? name = some fields → ∀ field ∈ fields, catalog.Nests field.type

theorem exists_of_contains {map : NameMap α} (h : map.contains name = true) :
    ∃ value, map.get? name = some value := by
  cases hget : map.get? name with
  | none => exact absurd (NameMap.contains_iff.1 h) (NameMap.get?_eq_none_iff.1 hget)
  | some value => exact ⟨value, rfl⟩

theorem exists_record_of_declared (h : catalog.undeclared? (.record name) = none) :
    ∃ fields, catalog.records.get? name = some fields := by
  rw [undeclared?] at h
  split at h
  · rename_i hcontains
    exact exists_of_contains hcontains
  · cases h

theorem exists_enum_of_declared (h : catalog.undeclared? (.enum name) = none) :
    ∃ variants, catalog.enums.get? name = some variants := by
  rw [undeclared?] at h
  split at h
  · rename_i hcontains
    exact exists_of_contains hcontains
  · cases h

theorem members_declared (h : catalog.undeclared? (.tuple name members) = none) :
    ∀ m ∈ members, catalog.undeclared? m = none := by
  rw [undeclared?] at h
  split at h
  · exact undeclaredMember?_eq_none_iff.1 h
  · cases h

theorem Nests.list (h : catalog.Nests (.list element)) : catalog.Nests element :=
  ⟨(checkNested_list_iff.1 h.check).2, h.declared⟩

theorem Nests.tuple (h : catalog.Nests (.tuple name members)) : ∀ m ∈ members, catalog.Nests m :=
  fun m hm => ⟨checkNestedAll_iff.1 h.check m hm, members_declared h.declared m hm⟩

/-- What fills a slot as a record or tuple is read as one. -/
theorem FillsSlot.nests (h : catalog.FillsSlot type) (hrecord : type.isRecordLike = true) :
    catalog.Nests type := by
  cases type with
  | record name => exact ⟨rfl, h.declared⟩
  | tuple name members => exact ⟨h.check, h.declared⟩
  | _ => cases hrecord

/-- A list that is a member of a group holds records. -/
theorem FillsMember.packed (h : catalog.FillsMember (.list element)) :
    element.isRecordLike = true ∧ catalog.Nests element := by
  have hcheck := h.check
  rw [checkGroupMember] at hcheck
  split at hcheck
  · rename_i hrecord
    exact ⟨hrecord, hcheck, h.declared⟩
  · cases hcheck

theorem FillsMember.fillsSlot (h : catalog.FillsMember type) (hlist : ∀ element, type ≠ .list element) :
    catalog.FillsSlot type := by
  cases type with
  | list element => exact absurd rfl (hlist element)
  | _ => exact ⟨h.check, h.declared⟩

theorem fillsMember_of_checkGroup (hcheck : checkGroup members = .ok ())
    (hdeclared : catalog.undeclaredMember? members = none) : ∀ m ∈ members, catalog.FillsMember m :=
  fun m hm => ⟨checkGroup_iff.1 hcheck m hm, undeclaredMember?_eq_none_iff.1 hdeclared m hm⟩

theorem blamesBytes_enumValue (h : catalog.undeclared? (.enum name) = none) (discriminant : UInt8) :
    BlamesBytes (catalog.enumValue name discriminant) := by
  obtain ⟨variants, hget⟩ := exists_enum_of_declared h
  rw [enumValue, hget]
  simp only
  split
  · exact .ok _
  · exact .error id

section Readers

variable {readNamed : String → Wire.Reader Value}

theorem readsBytes_readType
    (hnamed : ∀ name, catalog.undeclared? (.record name) = none → ReadsBytes (readNamed name))
    (h : catalog.Nests type) : ReadsBytes (readType catalog readNamed type) := by
  induction type using ResolvedType.memberInduction with
  | primitive kind => exact kind.codec.readsBytes_read.bind fun _ => .pure _
  | record name => exact hnamed name h.declared
  | enum name =>
    exact Wire.readsBytes_readByte.bind fun byte => .lift (blamesBytes_enumValue h.declared byte)
  | list element ih => exact (ih h.list).readList.bind fun _ => .pure _
  | tuple name members ih =>
    have hmembers : ReadsBytes (readMembers catalog readNamed 0 members) :=
      failsOnly_readMembers (fun m hm => ih m hm (h.tuple m hm)) 0
    exact hmembers.bind fun _ => .pure _
  | variadic element _ => cases h.check
  | variadicMulti name members _ => cases h.check
  | multi name members _ => cases h.check

theorem readsBytes_readFields
    (hnamed : ∀ name, catalog.undeclared? (.record name) = none → ReadsBytes (readNamed name))
    {fields : List Field} (h : ∀ field ∈ fields, catalog.Nests field.type)
    (values : List (String × Value)) : ReadsBytes (readFields catalog readNamed values fields) :=
  failsOnly_readFields (fun field hfield => readsBytes_readType hnamed (h field hfield)) values

end Readers

/-- However deep records may be nested, reading a declared one does not blame the types. -/
theorem Complete.readsBytes_readRecord (h : catalog.Complete) (nesting : Nat) (name : String)
    (hdeclared : catalog.undeclared? (.record name) = none) :
    ReadsBytes (readRecord catalog nesting name) := by
  induction nesting generalizing name with
  | zero =>
    obtain ⟨fields, hget⟩ := exists_record_of_declared hdeclared
    simp only [readRecord, hget]
    exact .throw id
  | succ nesting ih =>
    obtain ⟨fields, hget⟩ := exists_record_of_declared hdeclared
    simp only [readRecord, hget]
    exact (readsBytes_readFields ih (h name fields hget) []).bind fun _ => .pure _

theorem Complete.readsBytes_inside (h : catalog.Complete) (nesting : Nat) (htype : catalog.Nests type) :
    ReadsBytes (readType catalog (readRecord catalog nesting) type) :=
  readsBytes_readType (h.readsBytes_readRecord nesting) htype

theorem Complete.readsBytes_read (h : catalog.Complete) (htype : catalog.Nests type) :
    ReadsBytes (catalog.read type) :=
  fun bytes => h.readsBytes_inside (catalog.nestingLimit bytes) htype bytes

theorem Complete.blamesBytes_decodeSlot (h : catalog.Complete) (htype : catalog.FillsSlot type)
    (slot : Bytes) : BlamesBytes (catalog.decodeSlot type slot) := by
  cases type with
  | primitive kind => exact (kind.codec.blamesBytes_top slot).bind fun _ => .ok _
  | enum name =>
    exact (Wire.blamesBytes_topWord .u8 slot).bind fun _ => blamesBytes_enumValue htype.declared _
  | record name => exact (h.readsBytes_read (htype.nests rfl)).topRead slot
  | tuple name members => exact (h.readsBytes_read (htype.nests rfl)).topRead slot
  | list element => cases htype.check
  | variadic element => cases htype.check
  | variadicMulti name members => cases htype.check
  | multi name members => cases htype.check

theorem Complete.blamesBytes_decodeMember (h : catalog.Complete) (htype : catalog.FillsMember type)
    (slot : Bytes) : BlamesBytes (catalog.decodeMember type slot) := by
  cases type with
  | list element =>
    rw [decodeMember, if_pos htype.packed.1]
    exact .ok _
  | _ => exact h.blamesBytes_decodeSlot (htype.fillsSlot fun _ => nofun) slot

theorem Complete.blamesBytes_decodeGroup (h : catalog.Complete)
    (hmembers : ∀ m ∈ members, catalog.FillsMember m) (slots : List Bytes) :
    BlamesBytes (catalog.decodeGroup name members slots) := by
  have hvalues : BlamesBytes (catalog.decodeMembers 0 members slots) :=
    blamesOnly_decodeMembers (fun m hm => h.blamesBytes_decodeMember (hmembers m hm)) 0 slots
  exact hvalues.bind fun _ => .ok _

end Catalog

/-- A step of decoding outputs, with all that it is given. -/
inductive DecodeStep where
  /-- A value in a slot of its own. -/
  | slot (type : ResolvedType) (slot : Bytes)
  /-- A value at the front of some bytes, with records nested at most so deep. -/
  | inside (nesting : Nat) (type : ResolvedType) (bytes : Bytes)
  /-- A member of a group in its slot. -/
  | member (type : ResolvedType) (slot : Bytes)
  /-- A group over its slots. -/
  | group (name : String) (members : List ResolvedType) (slots : List Bytes)

namespace DecodeStep

open Wire (BlamesBytes)

variable {catalog : Catalog} {data : ReturnData} {type : ResolvedType} {plan : OutputPlan}
  {step next : DecodeStep}

/-- What the step comes to. -/
def run (catalog : Catalog) : DecodeStep → Except Wire.Fault Value
  | .slot type bytes => catalog.decodeSlot type bytes
  | .inside nesting type bytes =>
    Wire.topRead (catalog.readType (catalog.readRecord nesting) type) bytes
  | .member type bytes => catalog.decodeMember type bytes
  | .group name members slots => catalog.decodeGroup name members slots

/-- The second step can be a part of the first. What is read behind other values is given some rest
of the bytes, whichever those values leave. -/
inductive Leads (catalog : Catalog) : DecodeStep → DecodeStep → Prop
  | whole {type : ResolvedType} {slot : Bytes} (hrecord : type.isRecordLike = true) :
      Leads catalog (.slot type slot) (.inside (catalog.nestingLimit slot) type slot)
  | field {nesting : Nat} {name : String} {bytes rest : Bytes} {fields : List Field} {field : Field}
      (hget : catalog.records.get? name = some fields) (hfield : field ∈ fields)
      (hrest : rest <:+ bytes) :
      Leads catalog (.inside (nesting + 1) (.record name) bytes) (.inside nesting field.type rest)
  | part {nesting : Nat} {name : String} {members : List ResolvedType} {member : ResolvedType}
      {bytes rest : Bytes} (hmember : member ∈ members) (hrest : rest <:+ bytes) :
      Leads catalog (.inside nesting (.tuple name members) bytes) (.inside nesting member rest)
  | element {nesting : Nat} {element : ResolvedType} {bytes rest : Bytes} (hrest : rest <:+ bytes) :
      Leads catalog (.inside nesting (.list element) bytes) (.inside nesting element rest)
  | member {name : String} {members : List ResolvedType} {slots : List Bytes} {member : ResolvedType}
      {slot : Bytes} (hmember : (member, slot) ∈ members.zip slots) :
      Leads catalog (.group name members slots) (.member member slot)
  | packed {element : ResolvedType} {slot rest : Bytes} (hrecord : element.isRecordLike = true)
      (hrest : rest <:+ slot) :
      Leads catalog (.member (.list element) slot) (.inside (catalog.nestingLimit rest) element rest)
  | own {type : ResolvedType} {slot : Bytes}
      (hpacked : ∀ element, type = .list element → element.isRecordLike = false) :
      Leads catalog (.member type slot) (.slot type slot)

/-- The steps that decoding a planned output begins with, one for each item that it tries. -/
inductive Begins (catalog : Catalog) (data : ReturnData) :
    ResolvedType → OutputPlan → DecodeStep → Prop
  | scalar {type : ResolvedType} {first : Nat} {slot : Bytes} (hslot : data.slots[first]? = some slot) :
      Begins catalog data type ⟨.scalar, first⟩ (.slot type slot)
  | packed {element : ResolvedType} {first : Nat} {slot rest : Bytes}
      (hslot : data.slots[first]? = some slot) (hrest : rest <:+ slot) :
      Begins catalog data (.list element) ⟨.selfTerminating, first⟩
        (.inside (catalog.nestingLimit rest) element rest)
  | element {element : ResolvedType} {first : Nat} {slot : Bytes} (hslot : slot ∈ data.slots.drop first) :
      Begins catalog data (.list element) ⟨.eachSlot, first⟩ (.slot element slot)
  | variadic {element : ResolvedType} {first : Nat} {slot : Bytes}
      (hslot : slot ∈ data.slots.drop first) :
      Begins catalog data (.variadic element) ⟨.eachSlot, first⟩ (.slot element slot)
  | groups {name : String} {members : List ResolvedType} {first width : Nat} {slots : List Bytes}
      (hgroup : slots ∈ ReturnData.completeGroups width (data.slots.drop first)) :
      Begins catalog data (.variadicMulti name members) ⟨.groups width, first⟩ (.group name members slots)
  | group {name : String} {members : List ResolvedType} {first width : Nat}
      (hslots : first + width ≤ data.slots.length) :
      Begins catalog data (.multi name members) ⟨.group width, first⟩
        (.group name members ((data.slots.drop first).take width))

/-- Decoding the output can come to this step. -/
def Reached (catalog : Catalog) (data : ReturnData) (type : ResolvedType) (plan : OutputPlan)
    (step : DecodeStep) : Prop :=
  ∃ first, Begins catalog data type plan first ∧ Relation.ReflTransGen (Leads catalog) first step

/-- The types of the step were checked for their place. -/
def Checked (catalog : Catalog) : DecodeStep → Prop
  | .slot type _ => catalog.FillsSlot type
  | .inside _ type _ => catalog.Nests type
  | .member type _ => catalog.FillsMember type
  | .group _ members _ => ∀ m ∈ members, catalog.FillsMember m

theorem Checked.blamesBytes (h : step.Checked catalog) (hcomplete : catalog.Complete) :
    BlamesBytes (step.run catalog) := by
  cases step with
  | slot type bytes => exact hcomplete.blamesBytes_decodeSlot h bytes
  | inside nesting type bytes => exact (hcomplete.readsBytes_inside nesting h).topRead bytes
  | member type bytes => exact hcomplete.blamesBytes_decodeMember h bytes
  | group name members slots => exact hcomplete.blamesBytes_decodeGroup h slots

/-- The parts of a checked step are checked. -/
theorem Checked.leads (h : step.Checked catalog) (hcomplete : catalog.Complete)
    (hleads : Leads catalog step next) : next.Checked catalog := by
  cases hleads with
  | whole hrecord => exact Catalog.FillsSlot.nests h hrecord
  | field hget hfield _ => exact hcomplete _ _ hget _ hfield
  | part hmember _ => exact Catalog.Nests.tuple h _ hmember
  | element _ => exact Catalog.Nests.list h
  | member hmember => exact h _ (List.of_mem_zip hmember).1
  | packed _ _ => exact (Catalog.FillsMember.packed h).2
  | own hpacked =>
    refine Catalog.FillsMember.fillsSlot h fun element helement => ?_
    subst helement
    have hrecord := (Catalog.FillsMember.packed h).1
    rw [hpacked element rfl] at hrecord
    cases hrecord

theorem Checked.reach (h : step.Checked catalog) (hcomplete : catalog.Complete)
    (hreach : Relation.ReflTransGen (Leads catalog) step next) : next.Checked catalog := by
  induction hreach with
  | refl => exact h
  | tail _ hleads ih => exact ih.leads hcomplete hleads

/-- The first steps of an output are checked, because its strategy suits it. -/
theorem Begins.checked (h : Begins catalog data type plan step)
    (hsuits : Strategy.Suits type plan.strategy) (hdeclared : catalog.undeclared? type = none) :
    step.Checked catalog := by
  cases h with
  | scalar _ =>
    cases hsuits with
    | scalar _ hcheck => exact ⟨hcheck, hdeclared⟩
  | packed _ _ =>
    cases hsuits with
    | packed _ hcheck => exact ⟨hcheck, hdeclared⟩
  | element _ =>
    cases hsuits with
    | spread _ hcheck => exact ⟨hcheck, hdeclared⟩
  | variadic _ =>
    cases hsuits with
    | variadic hcheck => exact ⟨hcheck, hdeclared⟩
  | groups _ =>
    cases hsuits with
    | groups hcheck => exact Catalog.fillsMember_of_checkGroup hcheck hdeclared
  | group _ =>
    cases hsuits with
    | group hcheck => exact Catalog.fillsMember_of_checkGroup hcheck hdeclared

end DecodeStep

namespace ReturnData

open Wire (BlamesBytes)

variable {α : Type} {data : ReturnData} {first width index : Nat} {fault : BindingFault}

/-- The fault tells of bytes that do not hold a value, or of a missing slot. -/
def IsBadResponse (data : ReturnData) (fault : BindingFault) : Prop :=
  ∃ index cause, fault = .invalidResponse data.endpoint index cause ∧ ¬ cause.IsSchema

theorem isBadResponse_of_scalar {decode : Bytes → Except Wire.Fault α}
    (hdecode : ∀ slot, BlamesBytes (decode slot)) (h : data.scalar index decode = .error fault) :
    data.IsBadResponse fault :=
  isResponse_of_scalar (fun _ _ => id) hdecode h

theorem isBadResponse_of_group {decode : List Bytes → Except Wire.Fault α}
    (hdecode : ∀ slots, BlamesBytes (decode slots)) (h : data.group first width decode = .error fault) :
    data.IsBadResponse fault :=
  isResponse_of_group (fun _ _ => id) hdecode h

end ReturnData

namespace Catalog.Complete

variable {catalog : Catalog} {data : ReturnData} {type : ResolvedType} {plan : OutputPlan}
  {fault : ReflectionFault}

/-- An output whose strategy suits it fails for its bytes only. -/
theorem isBadResponse_of_decodeOutput (h : catalog.Complete)
    (hsuits : Strategy.Suits type plan.strategy) (hdeclared : catalog.undeclared? type = none)
    (herror : catalog.decodeOutput data type plan = .error fault) :
    ∃ cause, fault = .binding cause ∧ data.IsBadResponse cause := by
  obtain ⟨strategy, first⟩ := plan
  cases hsuits with
  | packed _ _ => cases herror
  | spread _ _ => cases herror
  | variadic _ => cases herror
  | groups _ => cases herror
  | group hcheck =>
    obtain ⟨cause, hgroup, rfl⟩ := of_mapError_eq_error herror
    have hmembers := fillsMember_of_checkGroup hcheck hdeclared
    exact ⟨cause, rfl, ReturnData.isBadResponse_of_group (h.blamesBytes_decodeGroup hmembers) hgroup⟩
  | scalar _ hcheck =>
    obtain ⟨cause, hscalar, rfl⟩ := of_mapError_eq_error herror
    exact ⟨cause, rfl,
      ReturnData.isBadResponse_of_scalar (h.blamesBytes_decodeSlot ⟨hcheck, hdeclared⟩) hscalar⟩

theorem isBadResponse_of_decodePlanned (h : catalog.Complete) {types : List ResolvedType}
    {plans : List OutputPlan}
    (hsuits : List.Forall₂ (fun type plan => Strategy.Suits type plan.strategy) types plans)
    (hdeclared : ∀ type ∈ types, catalog.undeclared? type = none)
    (herror : catalog.decodePlanned data (types.zip plans) = .error fault) :
    ∃ cause, fault = .binding cause ∧ data.IsBadResponse cause := by
  induction hsuits with
  | nil => cases herror
  | @cons type plan _ _ hfirst _ ih =>
    rw [List.zip_cons_cons, decodePlanned] at herror
    cases houtput : catalog.decodeOutput data type plan with
    | error cause =>
      rw [houtput] at herror
      obtain rfl := Except.error.inj herror
      exact h.isBadResponse_of_decodeOutput hfirst (hdeclared type List.mem_cons_self) houtput
    | ok value =>
      rw [houtput] at herror
      have hrest := error_of_map_eq_error herror
      exact ih (fun other hother => hdeclared other (List.mem_cons_of_mem _ hother)) hrest

end Catalog.Complete

namespace Contract.Models

variable {contract : Contract} {document : Document} {session : Session}

/-- The fields of all records of a contract were checked when they were declared. -/
theorem complete (h : contract.Models document session) : contract.catalog.Complete := by
  intro name fields hget field hfield
  have hadmits := h.admitsField hget hfield
  exact ⟨hadmits.nested, h.undeclared?_eq_none hadmits.admitted⟩

end Contract.Models

/-- Decoding the outputs of an endpoint never meets a fault of their types: the call only fails with
a bad response, and no step on the way, skipped or not, blames the types. -/
theorem decoding_blames_only_bytes (document : Document) (policy : EndpointPolicy)
    (contract : Contract) (h : Contract.ofDocument policy document = .ok contract)
    (endpoint : Endpoint) (hendpoint : endpoint ∈ contract.endpoints)
    (hkind : endpoint.kind = .readonly) (slots : List Bytes) :
    (∀ fault, contract.catalog.decodeOutputs endpoint.name endpoint.outputTypes slots = .error fault →
      ∃ index cause, fault = .binding (.invalidResponse endpoint.name index cause) ∧
        ¬ cause.IsSchema) ∧
    ∃ plans, planOutputs endpoint.outputTypes = .ok plans ∧
      ∀ type plan, (type, plan) ∈ endpoint.outputTypes.zip plans → ∀ step : DecodeStep,
        DecodeStep.Reached contract.catalog ⟨endpoint.name, slots⟩ type plan step →
          Wire.BlamesBytes (step.run contract.catalog) := by
  obtain ⟨session, hmodels⟩ := Contract.exists_models h
  have hcomplete := hmodels.complete
  have hadmits := hmodels.endpoints endpoint hendpoint
  have hplans := hadmits.plans hkind
  have hsuits := suits_of_planFrom hplans
  have hdeclared : ∀ type ∈ endpoint.outputTypes, contract.catalog.undeclared? type = none := by
    intro type htype
    obtain ⟨output, houtput, rfl⟩ := List.mem_map.1 htype
    exact hmodels.undeclared?_eq_none (hadmits.outputs hkind output houtput)
  refine ⟨fun fault herror => ?_, endpoint.plans, hplans, fun type plan hmem step hreached => ?_⟩
  · rw [hmodels.decodeOutputs_eq hendpoint hkind] at herror
    obtain ⟨_, rfl, index, cause, rfl, hcause⟩ :=
      hcomplete.isBadResponse_of_decodePlanned hsuits hdeclared herror
    exact ⟨index, cause, rfl, hcause⟩
  · obtain ⟨first, hbegins, hreach⟩ := hreached
    have hchecked := hbegins.checked (List.forall₂_zip hsuits hmem)
      (hdeclared type (List.of_mem_zip hmem).1)
    exact (hchecked.reach hcomplete hreach).blamesBytes hcomplete

/-- A document with a view that returns groups, each with a list of records packed into one slot. -/
def raffle : Document where
  buildInfo := ⟨none, ⟨"multiversx-sc", "0.43.3"⟩⟩
  docs := []
  name := "Raffle"
  constructor := none
  endpoints := [⟨"getTickets", [], false, .readonly, [], [],
    [⟨"", "variadic<multi<u64,List<Ticket>>>", true⟩]⟩]
  events := []
  hasCallbacks := false
  types := NameMap.ofList
    [("Ticket", .record [] [⟨"state", "State"⟩]), ("State", .enum [] [⟨"Open", 0⟩])]

def raffleCatalog : Catalog where
  records := NameMap.ofList [("Ticket", [⟨"state", .enum "State"⟩])]
  enums := NameMap.ofList [("State", [⟨"Open", 0⟩])]
  composites := NameMap.ofList
    [("ComplexType0", [⟨"var0", .primitive .u64⟩, ⟨"var1", .list (.record "Ticket")⟩])]

def raffleTickets : ResolvedType :=
  .variadicMulti "ComplexType0" [.primitive .u64, .list (.record "Ticket")]

def raffleEndpoint : Endpoint where
  name := "getTickets"
  methodName := "get_tickets"
  docs := []
  kind := .readonly
  onlyOwner := false
  acceptsTokenPayment := false
  inputs := []
  outputs := [⟨none, raffleTickets, true⟩]
  plans := [⟨.groups 2, 0⟩]

theorem raffle_contract : ∃ contract, Contract.ofDocument .strict raffle = .ok contract ∧
    contract.catalog = raffleCatalog ∧ contract.endpoints = [raffleEndpoint] := by
  have hview : (Contract.ofDocument .strict raffle).map
      (fun contract => (contract.catalog, contract.endpoints)) =
        .ok (raffleCatalog, [raffleEndpoint]) := by decide +kernel
  obtain ⟨contract, hcontract, hpair⟩ := of_map_eq_ok hview
  exact ⟨contract, hcontract, (congrArg Prod.fst hpair).symm, (congrArg Prod.snd hpair).symm⟩

/-- The state of the second ticket, whose byte stands for no state, ends the list of tickets. -/
theorem raffle_step_reached : DecodeStep.Reached raffleCatalog ⟨"getTickets", [[7], [0, 9]]⟩
    raffleTickets ⟨.groups 2, 0⟩ (.inside 1 (.enum "State") [9]) := by
  have hbegins : DecodeStep.Begins raffleCatalog ⟨"getTickets", [[7], [0, 9]]⟩ raffleTickets
      ⟨.groups 2, 0⟩ (.group "ComplexType0" [.primitive .u64, .list (.record "Ticket")] [[7], [0, 9]]) :=
    .groups (by simp [ReturnData.completeGroups])
  have hmember : DecodeStep.Leads raffleCatalog
      (.group "ComplexType0" [.primitive .u64, .list (.record "Ticket")] [[7], [0, 9]])
      (.member (.list (.record "Ticket")) [0, 9]) := .member (by simp)
  have hpacked : DecodeStep.Leads raffleCatalog (.member (.list (.record "Ticket")) [0, 9])
      (.inside 2 (.record "Ticket") [9]) := .packed rfl ⟨[0], rfl⟩
  have hget : raffleCatalog.records.get? "Ticket" = some [⟨"state", .enum "State"⟩] := rfl
  have hfield : DecodeStep.Leads raffleCatalog (.inside 2 (.record "Ticket") [9])
      (.inside 1 (.enum "State") [9]) := .field hget List.mem_cons_self (List.suffix_refl _)
  exact ⟨_, hbegins, ((Relation.ReflTransGen.single hmember).tail hpacked).tail hfield⟩

theorem raffle_blames_only_bytes :
    ∃ contract, Contract.ofDocument .strict raffle = .ok contract ∧
      raffleEndpoint ∈ contract.endpoints ∧ raffleEndpoint.kind = .readonly ∧
      DecodeStep.Reached contract.catalog ⟨raffleEndpoint.name, [[7], [0, 9]]⟩ raffleTickets
        ⟨.groups 2, 0⟩ (.inside 1 (.enum "State") [9]) ∧
      DecodeStep.run contract.catalog (.inside 1 (.enum "State") [9]) =
        .error (.unknownDiscriminant "State" 9) ∧
      Wire.BlamesBytes (DecodeStep.run contract.catalog (.inside 1 (.enum "State") [9])) := by
  obtain ⟨contract, hcontract, hcatalog, hendpoints⟩ := raffle_contract
  have hmem : raffleEndpoint ∈ contract.endpoints := hendpoints ▸ List.mem_cons_self
  have hreached := hcatalog ▸ raffle_step_reached
  obtain ⟨-, plans, hplans, hsteps⟩ := decoding_blames_only_bytes raffle .strict contract hcontract
    raffleEndpoint hmem rfl [[7], [0, 9]]
  obtain rfl : plans = raffleEndpoint.plans := Except.ok.inj (hplans.symm.trans rfl)
  refine ⟨contract, hcontract, hmem, rfl, hreached, ?_, hsteps _ _ ?_ _ hreached⟩
  · rw [hcatalog]
    rfl
  · exact List.mem_cons_self

end ContractAbi
