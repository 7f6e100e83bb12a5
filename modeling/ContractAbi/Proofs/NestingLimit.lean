import ContractAbi.Proofs.CountedLists
import ContractAbi.Proofs.UndeclaredTypes

/-!
# The limit on nested records

Reading a record reads its fields, so it goes on without end if the record is entered again before
any byte is read. Readers stop such a reading at a limit on nesting. When no record that some types
reach begins with itself, whatever stands in the bytes, the limit is out of reach: every byte that
is read allows each record to be entered once more, and the limit leaves room for all of them.
-/
namespace ContractAbi

namespace Wire

variable {α β ι : Type} {bound : Nat} {reader : Reader α}

/-- The reading would not have ended. -/
def Fault.IsEndless : Fault → Prop
  | .endlessType _ => True
  | _ => False

theorem Fault.IsBytes.not_isEndless {fault : Fault} (h : fault.IsBytes) : ¬ fault.IsEndless := by
  cases fault <;> first | exact id | cases h

/-- On fewer than `bound` bytes the reader comes to an end. -/
def EndsBelow (bound : Nat) (reader : Reader α) : Prop :=
  ∀ bytes, bytes.length < bound → BlamesOnly (fun fault => ¬ fault.IsEndless) (reader bytes)

theorem FailsOnly.endsBelow (h : FailsOnly (fun fault => ¬ fault.IsEndless) reader) :
    EndsBelow bound reader :=
  fun bytes _ => h bytes

theorem FailsOnly.endsBelow_of_isBytes (h : FailsOnly Fault.IsBytes reader) : EndsBelow bound reader :=
  (h.mono fun _ => Fault.IsBytes.not_isEndless).endsBelow

namespace EndsBelow

theorem zero : EndsBelow 0 reader :=
  fun _ hlt => absurd hlt (Nat.not_lt_zero _)

theorem mono {large : Nat} (h : EndsBelow large reader) (hle : bound ≤ large) :
    EndsBelow bound reader :=
  fun bytes hlt => h bytes (by omega)

theorem map {f : α → β} (h : EndsBelow bound reader) : EndsBelow bound (do return f (← reader)) := by
  intro bytes hlt
  rw [Reader.bind_apply]
  cases hread : reader bytes with
  | error fault => exact .error (h bytes hlt fault hread)
  | ok pair => exact .ok _

/-- What follows has all the bytes left only if the first part took none. -/
theorem bind {light : Prop} {next : α → Reader β} (h : EndsBelow (bound + 1) reader)
    (hspends : Spends (fun _ => leastBytes light) reader)
    (hheavy : ∀ value, EndsBelow bound (next value))
    (hlight : light → ∀ value, EndsBelow (bound + 1) (next value)) :
    EndsBelow (bound + 1) (reader >>= next) := by
  intro bytes hlt
  rw [Reader.bind_apply]
  cases hread : reader bytes with
  | error fault => exact .error (h bytes hlt fault hread)
  | ok pair =>
    obtain ⟨value, rest⟩ := pair
    have hspent : leastBytes light + rest.length ≤ bytes.length := hspends bytes value rest hread
    by_cases hl : light
    · exact hlight hl value rest (by omega)
    · rw [leastBytes_of_not hl] at hspent
      exact hheavy value rest (by omega)

theorem readTimes (h : EndsBelow bound reader) (hshrinks : Shrinks reader) (count : Nat) :
    EndsBelow bound (readTimes reader count) := by
  induction count with
  | zero => exact FailsOnly.endsBelow (.pure _)
  | succ count ih =>
    intro bytes hlt
    rw [Wire.readTimes, Reader.bind_apply]
    cases hread : reader bytes with
    | error fault => exact .error (h bytes hlt fault hread)
    | ok pair =>
      have hrest := hshrinks bytes pair.1 pair.2 hread
      exact ih.map pair.2 (by omega)

/-- The number of items takes bytes, so the items have fewer of them. -/
theorem readList (h : EndsBelow bound reader) (hshrinks : Shrinks reader) :
    EndsBelow (bound + 1) (readList reader) := by
  intro bytes hlt
  rw [Wire.readList, Reader.bind_apply]
  cases hcount : readWord .u32 bytes with
  | error fault => exact .error ((failsOnly_readWord .u32 bytes fault hcount).not_isEndless)
  | ok pair =>
    have hrest := length_lt_of_readWord hcount
    exact h.readTimes hshrinks pair.1 pair.2 (by omega)

end EndsBelow

/-- Items that are read one after the other: an item has all the bytes left only if those before it
may take none. -/
structure EndInTurn (bound : Nat) (light : ι → Prop) (read : ι → Reader α) (items : List ι) : Prop where
  spends : ∀ item ∈ items, Spends (fun _ => leastBytes (light item)) (read item)
  early : ∀ before item after, items = before ++ item :: after → (∀ other ∈ before, light other) →
    EndsBelow (bound + 1) (read item)
  late : ∀ item ∈ items, EndsBelow bound (read item)

namespace EndInTurn

variable {light : ι → Prop} {read : ι → Reader α} {item : ι} {rest : List ι}

theorem behind_heavy (h : EndInTurn (bound + 1) light read (item :: rest)) :
    EndInTurn bound light read rest where
  spends other hother := h.spends other (List.mem_cons_of_mem _ hother)
  early before other after hsplit _ := h.late other (by simp [hsplit])
  late other hother := (h.late other (List.mem_cons_of_mem _ hother)).mono (Nat.le_succ bound)

theorem behind_light (h : EndInTurn bound light read (item :: rest)) (hlight : light item) :
    EndInTurn bound light read rest where
  spends other hother := h.spends other (List.mem_cons_of_mem _ hother)
  early before other after hsplit hbefore :=
    h.early (item :: before) other after (congrArg (item :: ·) hsplit)
      (List.forall_mem_cons.2 ⟨hlight, hbefore⟩)
  late other hother := h.late other (List.mem_cons_of_mem _ hother)

/-- Whatever the first item took, the others are read in turn again. -/
theorem bind {next : α → Reader β} (h : EndInTurn bound light read (item :: rest))
    (hnext : ∀ limit, EndInTurn limit light read rest → ∀ value, EndsBelow (limit + 1) (next value)) :
    EndsBelow (bound + 1) (read item >>= next) := by
  have hitem : EndsBelow (bound + 1) (read item) := h.early [] item rest rfl nofun
  apply hitem.bind (h.spends item List.mem_cons_self)
  · intro value
    cases bound with
    | zero => exact .zero
    | succ bound => exact hnext bound h.behind_heavy value
  · exact fun hlight => hnext bound (h.behind_light hlight)

end EndInTurn

/-- Whatever bytes it is given, the reader does not end. -/
def NeverEnds (reader : Reader α) : Prop :=
  ∀ bytes, ∃ name, reader bytes = .error (.endlessType name)

/-- Whatever bytes it is given, the reader takes none of them, if it ends. -/
def TakesNone (reader : Reader α) : Prop :=
  ∀ bytes, (∃ value, reader bytes = .ok (value, bytes)) ∨
    ∃ name, reader bytes = .error (.endlessType name)

theorem NeverEnds.bind {next : α → Reader β} (h : NeverEnds reader) : NeverEnds (reader >>= next) := by
  intro bytes
  obtain ⟨name, hname⟩ := h bytes
  exact ⟨name, by rw [Reader.bind_apply, hname]⟩

namespace TakesNone

theorem pure (value : α) : TakesNone (Pure.pure value : Reader α) :=
  fun _ => .inl ⟨value, rfl⟩

theorem bind {next : α → Reader β} (h : TakesNone reader) (hnext : ∀ value, TakesNone (next value)) :
    TakesNone (reader >>= next) := by
  intro bytes
  rw [Reader.bind_apply]
  rcases h bytes with ⟨value, hvalue⟩ | ⟨name, hname⟩
  · rw [hvalue]
    exact hnext value bytes
  · exact .inr ⟨name, by rw [hname]⟩

theorem neverEnds_bind {next : α → Reader β} (h : TakesNone reader)
    (hnext : ∀ value, NeverEnds (next value)) : NeverEnds (reader >>= next) := by
  intro bytes
  rw [Reader.bind_apply]
  rcases h bytes with ⟨value, hvalue⟩ | ⟨name, hname⟩
  · rw [hvalue]
    exact hnext value bytes
  · exact ⟨name, by rw [hname]⟩

end TakesNone
end Wire

namespace Catalog

open Wire (EndsBelow EndInTurn NeverEnds TakesNone FailsOnly BlamesOnly Shrinks Spends leastBytes)

variable {catalog : Catalog} {types : List ResolvedType} {type part whole : ResolvedType}
  {name inner outer : String}

/-- Reading the first type enters the second one before any byte has to be read. -/
inductive OpensWith (catalog : Catalog) : ResolvedType → ResolvedType → Prop
  | member {name : String} {before after : List ResolvedType} {member : ResolvedType}
      (hbefore : ∀ earlier ∈ before, catalog.Weightless earlier) :
      OpensWith catalog (.tuple name (before ++ member :: after)) member
  | field {name : String} {before after : List Field} {field : Field}
      (hget : catalog.records.get? name = some (before ++ field :: after))
      (hbefore : ∀ earlier ∈ before, catalog.Weightless earlier.type) :
      OpensWith catalog (.record name) field.type

/-- No record that is reachable from the types begins with itself. A record may hold itself behind
other values that take bytes, and behind the count of a list: then the bytes come to an end. -/
def Grounded (catalog : Catalog) (types : List ResolvedType) : Prop :=
  ∀ name, catalog.Reaches types (.record name) →
    ¬ Relation.TransGen catalog.OpensWith (.record name) (.record name)

theorem OpensWith.asks (h : catalog.OpensWith whole part) : catalog.Asks whole part := by
  cases h with
  | member _ => exact .part (List.mem_append_right _ List.mem_cons_self)
  | field hget _ => exact .field hget (List.mem_append_right _ List.mem_cons_self)

theorem asks_of_opensWith (h : Relation.ReflTransGen catalog.OpensWith whole part) :
    Relation.ReflTransGen catalog.Asks whole part :=
  Relation.ReflTransGen.mono (fun _ _ => OpensWith.asks) whole part h

/-- A record that a type opens with is contained in it, outside any list. -/
theorem contains_of_opensWith (h : Relation.ReflTransGen catalog.OpensWith type (.record inner)) :
    inner ∈ type.inlineRecords ∨
      ∃ outer ∈ type.inlineRecords, Relation.TransGen catalog.Contains outer inner := by
  induction h using Relation.ReflTransGen.head_induction_on with
  | refl => exact .inl List.mem_cons_self
  | @head whole part hopens _ ih =>
    cases hopens with
    | @member name before after member _ =>
      have hmember : ∀ record ∈ part.inlineRecords,
          record ∈ (ResolvedType.tuple name (before ++ part :: after)).inlineRecords :=
        fun record hrecord => ResolvedType.mem_inlineRecordsOfAll.2
          ⟨part, List.mem_append_right _ List.mem_cons_self, hrecord⟩
      rcases ih with hinner | ⟨outer, houter, hpath⟩
      · exact .inl (hmember inner hinner)
      · exact .inr ⟨outer, hmember outer houter, hpath⟩
    | @field name before after field hget _ =>
      have hfield : ∀ record ∈ field.type.inlineRecords, catalog.Contains name record :=
        fun record hrecord =>
          ⟨_, hget, field, List.mem_append_right _ List.mem_cons_self, hrecord⟩
      rcases ih with hinner | ⟨outer, houter, hpath⟩
      · exact .inr ⟨name, List.mem_cons_self, .single (hfield inner hinner)⟩
      · exact .inr ⟨name, List.mem_cons_self, .head (hfield outer houter) hpath⟩

/-- Records that do not contain themselves do not begin with themselves. -/
theorem grounded_of_not_contains (h : ∀ name, catalog.Reaches types (.record name) →
    ¬ Relation.TransGen catalog.Contains name name) : catalog.Grounded types := by
  intro name hreaches hpath
  obtain ⟨part, hopens, hrest⟩ := Relation.TransGen.head'_iff.1 hpath
  cases hopens with
  | @field _ before after field hget _ =>
    have hfield : ∀ record ∈ field.type.inlineRecords, catalog.Contains name record :=
      fun record hrecord => ⟨_, hget, field, List.mem_append_right _ List.mem_cons_self, hrecord⟩
    rcases contains_of_opensWith hrest with hinner | ⟨outer, houter, hrest⟩
    · exact h name hreaches (.single (hfield name hinner))
    · exact h name hreaches (.head (hfield outer houter) hrest)

theorem Acyclic.grounded (h : catalog.Acyclic) (types : List ResolvedType) : catalog.Grounded types :=
  grounded_of_not_contains fun name _ => h name

section Readers

variable {readNamed : String → Wire.Reader Value} {bound : Nat}

theorem spends_inside (nesting : Nat) (type : ResolvedType) :
    Spends (fun _ => leastBytes (catalog.Weightless type))
      (readType catalog (readRecord catalog nesting) type) := by
  have hcovers : ∀ type : ResolvedType, catalog.Covers (fun _ => 0) type :=
    fun _ _ _ _ => Nat.zero_le _
  have hmeasures := measures_readType Value.additive_zero
    (measures_readRecord Value.additive_zero (fun _ _ _ field _ => hcovers field.type) nesting)
    (hcovers type)
  exact hmeasures.mono fun _ => Nat.le_add_left _ _

theorem endsBelow_readMembers {members : List ResolvedType}
    (h : EndInTurn bound catalog.Weightless (readType catalog readNamed) members) (index : Nat) :
    EndsBelow (bound + 1) (readMembers catalog readNamed index members) := by
  induction members generalizing bound index with
  | nil => exact FailsOnly.endsBelow (.pure _)
  | cons member rest ih =>
    rw [readMembers]
    exact h.bind fun limit hrest value => (ih hrest (index + 1)).map

theorem endsBelow_readFields {fields : List Field}
    (h : EndInTurn bound (fun field => catalog.Weightless field.type)
      (fun field => readType catalog readNamed field.type) fields) (values : List (String × Value)) :
    EndsBelow (bound + 1) (readFields catalog readNamed values fields) := by
  induction fields generalizing bound values with
  | nil => exact FailsOnly.endsBelow (.pure _)
  | cons field rest ih =>
    rw [readFields]
    exact h.bind fun limit hrest value => ih hrest _

theorem blamesOnly_enumValue_of_not_endless (name : String) (discriminant : UInt8) :
    BlamesOnly (fun fault => ¬ fault.IsEndless) (catalog.enumValue name discriminant) := by
  rw [enumValue]
  split
  · exact .error id
  · split
    · exact .ok _
    · exact .error id

/-- Reading a type ends if reading the records that it opens with does, and reading all that is in it
ends on fewer bytes. -/
theorem endsBelow_readType
    (hspends : ∀ type, Spends (fun _ => leastBytes (catalog.Weightless type))
      (readType catalog readNamed type))
    (hopens : ∀ name, Relation.ReflTransGen catalog.OpensWith type (.record name) →
      EndsBelow (bound + 1) (readNamed name))
    (hlate : ∀ part, Relation.ReflTransGen catalog.Asks type part →
      EndsBelow bound (readType catalog readNamed part)) :
    EndsBelow (bound + 1) (readType catalog readNamed type) := by
  induction type using ResolvedType.memberInduction with
  | primitive kind => exact (FailsOnly.endsBelow_of_isBytes kind.codec.failsOnly_read).map
  | record name => exact hopens name .refl
  | enum name =>
    have hbyte : FailsOnly (fun fault => ¬ fault.IsEndless) Wire.readByte :=
      Wire.failsOnly_readByte.mono fun _ => Wire.Fault.IsBytes.not_isEndless
    apply FailsOnly.endsBelow
    exact hbyte.bind fun byte => .lift (blamesOnly_enumValue_of_not_endless name byte)
  | list element _ =>
    have hshrinks : Shrinks (readType catalog readNamed element) := fun bytes value rest h =>
      (Nat.le_add_left _ _).trans (hspends element bytes value rest h)
    have helement := hlate element (.single (.part List.mem_cons_self))
    exact (helement.readList hshrinks).map
  | tuple name members ih =>
    have hmembers : EndInTurn bound catalog.Weightless (readType catalog readNamed) members := by
      constructor
      · exact fun member _ => hspends member
      · intro before member after hsplit hbefore
        subst hsplit
        have hmember : member ∈ before ++ member :: after :=
          List.mem_append_right _ List.mem_cons_self
        apply ih member hmember
        · exact fun name hpath => hopens name (.head (.member hbefore) hpath)
        · exact fun part hpath => hlate part (.head (.part hmember) hpath)
      · exact fun member hmember => hlate member (.single (.part hmember))
    exact (endsBelow_readMembers hmembers 0).map
  | variadic | variadicMulti | multi => exact FailsOnly.endsBelow (.throw id)

/-- Reading a type ends on fewer than `bound` bytes if reading all records in it does. -/
theorem endsBelow_readType_of_asks
    (hspends : ∀ type, Spends (fun _ => leastBytes (catalog.Weightless type))
      (readType catalog readNamed type))
    (hasks : ∀ name, Relation.ReflTransGen catalog.Asks type (.record name) →
      EndsBelow bound (readNamed name)) :
    EndsBelow bound (readType catalog readNamed type) := by
  induction bound generalizing type with
  | zero => exact .zero
  | succ bound ih =>
    apply endsBelow_readType hspends
    · exact fun name hpath => hasks name (asks_of_opensWith hpath)
    · exact fun part hpart => ih fun name hpath =>
        (hasks name (hpart.trans hpath)).mono (Nat.le_succ bound)

end Readers

/-- The record begins with the other one. -/
def Opens (catalog : Catalog) (outer inner : String) : Prop :=
  Relation.TransGen catalog.OpensWith (.record outer) (.record inner)

/-- The number of declared records that a record begins with. -/
noncomputable def depth (catalog : Catalog) (name : String) : Nat :=
  (catalog.below catalog.Opens name).card

theorem not_transGen_opens (h : ¬ catalog.Opens name name) :
    ¬ Relation.TransGen catalog.Opens name name := by
  have hclosed : ∀ inner, Relation.TransGen catalog.Opens name inner → catalog.Opens name inner := by
    intro inner hpath
    induction hpath with
    | single hopens => exact hopens
    | tail _ hopens ih => exact Relation.TransGen.trans ih hopens
  exact fun hself => h (hclosed name hself)

theorem Reaches.path (h : catalog.Reaches types whole)
    (hpath : Relation.ReflTransGen catalog.Asks whole part) : catalog.Reaches types part := by
  obtain ⟨root, hroot, hstart⟩ := h
  exact ⟨root, hroot, hstart.trans hpath⟩

namespace Grounded

theorem depth_lt_size (h : catalog.Grounded types) (hreaches : catalog.Reaches types (.record name))
    (hdeclared : name ∈ catalog.records.names) : catalog.depth name < catalog.records.size :=
  card_below_lt_size hdeclared (not_transGen_opens (h name hreaches))

theorem depth_lt_of_opens (h : catalog.Grounded types)
    (hreaches : catalog.Reaches types (.record inner)) (hdeclared : inner ∈ catalog.records.names)
    (hopens : catalog.Opens outer inner) : catalog.depth inner < catalog.depth outer :=
  card_below_lt hopens hdeclared (not_transGen_opens (h inner hreaches))

/-- Fields are read in turn if records of less weight than theirs are read to an end: behind a byte
every record may be entered again. -/
theorem endInTurn_fields (h : catalog.Grounded types) {nesting : Nat} {bytes : Bytes}
    {fields : List Field} (hreaches : catalog.Reaches types (.record name))
    (hget : catalog.records.get? name = some fields)
    (hlower : ∀ inner (rest : Bytes), catalog.Reaches types (.record inner) →
      (inner ∈ catalog.records.names →
        catalog.weight catalog.depth rest inner < catalog.weight catalog.depth bytes name) →
      BlamesOnly (fun fault => ¬ fault.IsEndless) (readRecord catalog nesting inner rest)) :
    EndInTurn bytes.length (fun field => catalog.Weightless field.type)
      (fun field => readType catalog (readRecord catalog nesting) field.type) fields := by
  have hlate : ∀ type, catalog.Reaches types type →
      EndsBelow bytes.length (readType catalog (readRecord catalog nesting) type) := by
    intro type htype
    apply endsBelow_readType_of_asks (spends_inside nesting)
    intro inner hpath rest hrest
    exact hlower inner rest (htype.path hpath) fun hdeclared =>
      weight_lt_of_length_lt (h.depth_lt_size (htype.path hpath) hdeclared) hrest
  have hfields : ∀ field ∈ fields, catalog.Reaches types field.type :=
    fun field hfield => hreaches.tail (.field hget hfield)
  constructor
  · exact fun field _ => spends_inside nesting field.type
  · intro before field after hsplit hbefore
    subst hsplit
    have hfield := hfields field (List.mem_append_right _ List.mem_cons_self)
    apply endsBelow_readType (spends_inside nesting)
    · intro inner hpath rest hrest
      have hinner := hfield.path (asks_of_opensWith hpath)
      have hopens : catalog.Opens name inner := .head' (.field hget hbefore) hpath
      exact hlower inner rest hinner fun hdeclared =>
        weight_lt_of_layer_lt (h.depth_lt_of_opens hinner hdeclared hopens) (by omega)
    · exact fun part hpath => hlate part (hfield.path hpath)
  · exact fun field hfield => hlate field.type (hfields field hfield)

/-- The limit leaves room for all records that a reachable one can be nested in. -/
theorem blamesOnly_readRecord (h : catalog.Grounded types) (measure : Nat) {nesting : Nat}
    {bytes : Bytes} (hreaches : catalog.Reaches types (.record name))
    (hmeasure : catalog.weight catalog.depth bytes name ≤ measure)
    (hnesting : name ∈ catalog.records.names → measure < nesting) :
    BlamesOnly (fun fault => ¬ fault.IsEndless) (readRecord catalog nesting name bytes) := by
  induction measure using Nat.strong_induction_on generalizing name bytes nesting with
  | _ measure ih =>
    cases hget : catalog.records.get? name with
    | none =>
      rw [readRecord_of_undeclared hget]
      exact .error id
    | some fields =>
      have hname := hnesting (mem_names_of_get? hget)
      obtain ⟨nesting, rfl⟩ : ∃ limit, nesting = limit + 1 := ⟨nesting - 1, by omega⟩
      have hturn : EndInTurn bytes.length (fun field => catalog.Weightless field.type)
          (fun field => readType catalog (readRecord catalog nesting) field.type) fields := by
        apply h.endInTurn_fields hreaches hget
        intro inner rest hinner hlt
        by_cases hdeclared : inner ∈ catalog.records.names
        · have hless := hlt hdeclared
          exact ih _ (by omega) hinner (Nat.le_refl _) fun _ => by omega
        · rw [readRecord_of_undeclared (NameMap.get?_eq_none_iff.2 hdeclared)]
          exact .error id
      rw [readRecord, hget]
      exact (endsBelow_readFields hturn []).map bytes (Nat.lt_succ_self _)

/-- Reading a type that is reachable ends, whatever the bytes are. -/
theorem read_ends (h : catalog.Grounded types) (htype : catalog.Reaches types type) (bytes : Bytes) :
    BlamesOnly (fun fault => ¬ fault.IsEndless) (catalog.read type bytes) := by
  have hinside : EndsBelow (bytes.length + 1)
      (readType catalog (readRecord catalog (catalog.nestingLimit bytes)) type) := by
    apply endsBelow_readType_of_asks (spends_inside _)
    intro name hpath rest hrest
    apply h.blamesOnly_readRecord _ (htype.path hpath) (Nat.le_refl _)
    intro hdeclared
    have hlt : catalog.weight catalog.depth rest name < catalog.nestingLimit rest :=
      weight_lt_limit (h.depth_lt_size (htype.path hpath) hdeclared)
    have hle : catalog.nestingLimit rest ≤ catalog.nestingLimit bytes :=
      Nat.mul_le_mul_right _ (by omega)
    omega
  exact hinside bytes (Nat.lt_succ_self _)

end Grounded

section Endless

variable {readNamed : String → Wire.Reader Value}

theorem takesNone_readMembers {members : List ResolvedType}
    (h : ∀ m ∈ members, TakesNone (readType catalog readNamed m)) (index : Nat) :
    TakesNone (readMembers catalog readNamed index members) := by
  induction members generalizing index with
  | nil => exact .pure _
  | cons member rest ih =>
    obtain ⟨hmember, hrest⟩ := List.forall_mem_cons.1 h
    exact hmember.bind fun _ => (ih hrest (index + 1)).bind fun _ => .pure _

theorem takesNone_readFields {fields : List Field}
    (h : ∀ field ∈ fields, TakesNone (readType catalog readNamed field.type))
    (values : List (String × Value)) : TakesNone (readFields catalog readNamed values fields) := by
  induction fields generalizing values with
  | nil => exact .pure _
  | cons field rest ih =>
    obtain ⟨hfield, hrest⟩ := List.forall_mem_cons.1 h
    exact hfield.bind fun _ => ih hrest _

theorem neverEnds_readMembers {before after : List ResolvedType} {member : ResolvedType}
    (hbefore : ∀ m ∈ before, TakesNone (readType catalog readNamed m))
    (hmember : NeverEnds (readType catalog readNamed member)) (index : Nat) :
    NeverEnds (readMembers catalog readNamed index (before ++ member :: after)) := by
  induction before generalizing index with
  | nil => exact hmember.bind
  | cons first rest ih =>
    obtain ⟨hfirst, hrest⟩ := List.forall_mem_cons.1 hbefore
    exact hfirst.neverEnds_bind fun _ => (ih hrest (index + 1)).bind

theorem neverEnds_readFields {before after : List Field} {field : Field}
    (hbefore : ∀ f ∈ before, TakesNone (readType catalog readNamed f.type))
    (hfield : NeverEnds (readType catalog readNamed field.type)) (values : List (String × Value)) :
    NeverEnds (readFields catalog readNamed values (before ++ field :: after)) := by
  induction before generalizing values with
  | nil => exact hfield.bind
  | cons first rest ih =>
    obtain ⟨hfirst, hrest⟩ := List.forall_mem_cons.1 hbefore
    exact hfirst.neverEnds_bind fun _ => ih hrest _

theorem Weightless.takesNone (h : catalog.Weightless type) (nesting : Nat) :
    TakesNone (readType catalog (readRecord catalog nesting) type) := by
  induction h generalizing nesting with
  | @record name fields hget _ ih =>
    cases nesting with
    | zero => exact fun bytes => .inr ⟨name, by rw [readType, readRecord, hget]; rfl⟩
    | succ nesting =>
      rw [readType, readRecord, hget]
      have hfields := takesNone_readFields (fun field hfield => ih field hfield nesting) []
      exact hfields.bind fun _ => .pure _
  | tuple _ ih =>
    rw [readType]
    have hmembers := takesNone_readMembers (fun m hm => ih m hm nesting) 0
    exact hmembers.bind fun _ => .pure _

theorem neverEnds_readRecord {nesting : Nat} (hopens : catalog.OpensWith (.record outer) part)
    (h : ∀ limit < nesting, NeverEnds (readType catalog (readRecord catalog limit) part)) :
    NeverEnds (readRecord catalog nesting outer) := by
  cases hopens with
  | field hget hbefore =>
    cases nesting with
    | zero => exact fun bytes => ⟨outer, by rw [readRecord, hget]; rfl⟩
    | succ nesting =>
      rw [readRecord, hget]
      exact (neverEnds_readFields (fun f hf => (hbefore f hf).takesNone nesting)
        (h nesting (Nat.lt_succ_self _)) []).bind

/-- A type that opens with a record which begins with itself is read without end: no limit is high
enough. -/
theorem neverEnds_readType (hself : catalog.Opens name name) (nesting : Nat)
    (hpath : Relation.ReflTransGen catalog.OpensWith type (.record name)) :
    NeverEnds (readType catalog (readRecord catalog nesting) type) := by
  induction nesting using Nat.strong_induction_on generalizing type with
  | _ nesting ih =>
    have hrecord : ∀ outer part, catalog.OpensWith (.record outer) part →
        Relation.ReflTransGen catalog.OpensWith part (.record name) →
        NeverEnds (readRecord catalog nesting outer) :=
      fun outer part hopens hrest => neverEnds_readRecord hopens fun limit hlt => ih limit hlt hrest
    induction hpath using Relation.ReflTransGen.head_induction_on with
    | refl =>
      obtain ⟨part, hopens, hrest⟩ := Relation.TransGen.head'_iff.1 hself
      exact hrecord name part hopens hrest
    | head hopens hrest ihrest =>
      cases hopens with
      | member hbefore =>
        rw [readType]
        exact (neverEnds_readMembers (fun m hm => (hbefore m hm).takesNone nesting) ihrest 0).bind
      | field hget hbefore => exact hrecord _ _ (.field hget hbefore) hrest

end Endless

/-- The types are grounded just when reading what is reachable from them always ends. -/
theorem grounded_iff : catalog.Grounded types ↔ ∀ type, catalog.Reaches types type →
    ∀ bytes name, catalog.read type bytes ≠ .error (.endlessType name) := by
  constructor
  · exact fun h type htype bytes name hread => h.read_ends htype bytes _ hread trivial
  · intro h name hreaches hself
    obtain ⟨other, hother⟩ := neverEnds_readType hself (catalog.nestingLimit []) .refl []
    exact h (.record name) hreaches [] other hother

end Catalog
end ContractAbi
