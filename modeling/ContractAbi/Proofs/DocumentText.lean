import ContractAbi.Document.Writing
import ContractAbi.Loading
import ContractAbi.Proofs.JsonText

/-!
# Loaded documents survive being written

A document is written with every default spelled out and read from data in which defaults, unknown
names and repeated types may occur. What is read is always writable: each mutability is the one that
its word stands for, and discriminants have 64 bits. A writable document is read back from its text.
-/
namespace ContractAbi

open Data (required defaulted nullable)

namespace Json

theorem dataOfItems_eq (items : List Json) : dataOfItems items = items.map data := by
  induction items with
  | nil => rfl
  | cons item rest ih => rw [dataOfItems, ih, List.map_cons]

theorem dataOfMembers_eq (members : List (String × Json)) :
    dataOfMembers members = members.map fun member => (.text member.1, member.2.data) := by
  induction members with
  | nil => rfl
  | cons member rest ih => rw [dataOfMembers, ih, List.map_cons]

/-- The data of a number, which is natural only within 64 bits. -/
theorem data_number (lexeme : String) :
    (∃ n : Nat, n < UInt64.size ∧ (number lexeme).data = .natural n) ∨
      (number lexeme).data = .number := by
  rw [data, leafData]
  · split
    · split_ifs with h
      · exact .inl ⟨_, h, rfl⟩
      · exact .inr rfl
    · exact .inr rfl
  all_goals simp

theorem natural?_natural (n : Nat) : natural? (natural n) = some n := by
  have hdigits : (toString n).toList.all Char.isDigit = true :=
    List.all_eq_true.2 fun c hc => Text.isDigit_of_mem_toString hc
  rw [natural, natural?, if_pos hdigits, Nat.toString_eq_repr, Nat.toNat?_repr]

theorem data_natural {n : Nat} (h : n < UInt64.size) : (natural n).data = .natural n := by
  have hnatural := natural?_natural n
  rw [natural] at hnatural
  simp only [natural, data, leafData, hnatural, if_pos h]

mutual

/-- All values in the data of a sound value have a meaning of their own. -/
theorem settle?_data : (value : Json) → value.IsSound → value.data.settle? = some value.data
  | .null, _ | .bool _, _ | .text _, _ => rfl
  | .number lexeme, _ => by
    rcases data_number lexeme with ⟨n, -, h⟩ | h <;> rw [h] <;> rfl
  | .array items, h => by
    rw [data, Data.settle?, settleItems?_data items h]
    rfl
  | .object members, h => by
    rw [data, Data.settle?, settleEntries?_data members h]
    rfl
  | .damaged, h => h.elim

theorem settleItems?_data : (items : List Json) → AllSound items →
    Data.settleItems? (dataOfItems items) = some (dataOfItems items)
  | [], _ => rfl
  | item :: rest, h => by
    rw [dataOfItems, Data.settleItems?, settle?_data item h.1, settleItems?_data rest h.2]
    rfl

theorem settleEntries?_data : (members : List (String × Json)) → MembersSound members →
    Data.settleEntries? (dataOfMembers members) = some (dataOfMembers members)
  | [], _ => rfl
  | member :: rest, h => by
    rw [dataOfMembers, Data.settleEntries?, settle?_data member.2 h.1, settleEntries?_data rest h.2]
    rfl

end

end Json

namespace Data

theorem depth_array_le {α : Type} {json : α → Json} {items : List α} {limit : Nat}
    (h : ∀ item ∈ items, (json item).data.depth ≤ limit) :
    (Json.array (items.map json)).data.depth ≤ limit + 1 := by
  rw [Json.data, depth, Json.dataOfItems_eq, List.map_map]
  refine Nat.succ_le_succ ?_
  induction items with
  | nil => exact Nat.zero_le limit
  | cons item rest ih =>
    exact max_le (h item List.mem_cons_self) (ih fun other hother =>
      h other (List.mem_cons_of_mem _ hother))

theorem depth_object_le {members : List (String × Json)} {limit : Nat}
    (h : ∀ member ∈ members, member.2.data.depth ≤ limit) :
    (Json.object members).data.depth ≤ limit + 1 := by
  rw [Json.data, depth, Json.dataOfMembers_eq]
  refine Nat.succ_le_succ ?_
  induction members with
  | nil => exact Nat.zero_le limit
  | cons member rest ih =>
    exact max_le (max_le (Nat.zero_le limit) (h member List.mem_cons_self)) (ih fun other hother =>
      h other (List.mem_cons_of_mem _ hother))

theorem entries?_object (members : List (String × Json)) :
    (Json.object members).data.entries? =
      some (members.map fun member => (member.1, member.2.data)) := by
  rw [Json.data, Json.dataOfMembers_eq, entries?]
  exact mapM_map_eq_some fun _ _ => rfl

/-- A record is read from its members. -/
theorem record?_object {fields : List String} {members : List (String × Json)}
    (hfields : ∀ member ∈ members, member.1 ∈ fields) (hnames : (members.map (·.1)).Nodup) :
    (Json.object members).data.record? fields =
      some (members.map fun member => (member.1, member.2.data)) := by
  have hentries := entries?_object members
  have hgiven : (members.map fun member => (member.1, member.2.data)).filter
      (fun entry => fields.contains entry.1) = members.map fun member => (member.1, member.2.data) := by
    rw [List.filter_eq_self]
    rintro entry hentry
    obtain ⟨member, hmember, rfl⟩ := List.mem_map.1 hentry
    simpa using hfields member hmember
  have hdistinct : ((members.map fun member => (member.1, member.2.data)).map (·.1)).Nodup := by
    simpa [List.map_map, Function.comp_def] using hnames
  rw [Json.data] at hentries ⊢
  rw [record?, hentries, Option.bind_eq_bind, Option.bind_some, hgiven, if_pos hdistinct]
  simp

@[simp] theorem text?_text (value : String) : (Json.text value).data.text? = some value := rfl

@[simp] theorem bool?_bool (value : Bool) : (Json.bool value).data.bool? = some value := rfl

@[simp] theorem listOf?_array {α : Type} {read : Data → Option α} {json : α → Json} {items : List α}
    (h : ∀ item ∈ items, read (json item).data = some item) :
    listOf? read (Json.array (items.map json)).data = some items := by
  rw [Json.data, Json.dataOfItems_eq, listOf?, items?, Option.bind_some, List.map_map]
  exact (mapM_map_eq_some h).trans (by rw [List.map_id'])

@[simp] theorem lines?_texts (lines : List String) : lines? (Json.texts lines).data = some lines :=
  listOf?_array fun _ _ => rfl

end Data

/-- The mutability is the one that its word stands for. -/
def EndpointDecl.IsWritable (endpoint : EndpointDecl) : Prop :=
  Mutability.ofWord endpoint.mutability.word = endpoint.mutability

/-- The discriminant has 64 bits. -/
def VariantDecl.IsWritable (variant : VariantDecl) : Prop :=
  variant.discriminant < UInt64.size

def TypeDefinition.IsWritable : TypeDefinition → Prop
  | .record _ _ => True
  | .enum _ variants => ∀ variant ∈ variants, variant.IsWritable

structure Document.IsWritable (document : Document) : Prop where
  endpoint : ∀ endpoint ∈ document.endpoints, endpoint.IsWritable
  type : ∀ entry ∈ document.types.entries, entry.2.IsWritable

@[simp] theorem Crate.isSound_json (crate : Crate) : crate.json.IsSound := by
  simp [Crate.json]

@[simp] theorem Framework.isSound_json (framework : Framework) : framework.json.IsSound := by
  simp [Framework.json]

@[simp] theorem BuildInfo.isSound_json (info : BuildInfo) : info.json.IsSound := by
  rcases info with ⟨_ | crate, framework⟩ <;> simp [BuildInfo.json]

@[simp] theorem InputDecl.isSound_json (input : InputDecl) : input.json.IsSound := by
  simp [InputDecl.json]

@[simp] theorem OutputDecl.isSound_json (output : OutputDecl) : output.json.IsSound := by
  simp [OutputDecl.json]

@[simp] theorem Constructor.isSound_json (c : Constructor) : c.json.IsSound := by
  simp [Constructor.json]

@[simp] theorem EndpointDecl.isSound_json (endpoint : EndpointDecl) : endpoint.json.IsSound := by
  simp [EndpointDecl.json]

@[simp] theorem EventInput.isSound_json (input : EventInput) : input.json.IsSound := by
  simp [EventInput.json]

@[simp] theorem Event.isSound_json (event : Event) : event.json.IsSound := by
  simp [Event.json]

@[simp] theorem FieldDecl.isSound_json (field : FieldDecl) : field.json.IsSound := by
  simp [FieldDecl.json]

theorem VariantDecl.isSound_json {variant : VariantDecl} (h : variant.IsWritable) :
    variant.json.IsSound := by
  simp [VariantDecl.json, Json.isSound_natural h]

theorem TypeDefinition.isSound_json {definition : TypeDefinition} (h : definition.IsWritable) :
    definition.json.IsSound := by
  cases definition with
  | record docs fields => simp [TypeDefinition.json]
  | enum docs variants =>
    have hvariants : ∀ variant ∈ variants, variant.json.IsSound := fun variant hvariant =>
      VariantDecl.isSound_json (h variant hvariant)
    simpa [TypeDefinition.json] using hvariants

theorem Document.isSound_json {document : Document} (h : document.IsWritable) :
    document.json.IsSound := by
  have hconstructor : ((document.constructor.map Constructor.json).getD .null).IsSound := by
    cases document.constructor <;> simp
  have htypes : (Json.object (document.types.mapValues TypeDefinition.json).entries).IsSound := by
    rw [Json.isSound_object, NameMap.mapValues, List.forall_mem_map]
    exact fun entry hentry => TypeDefinition.isSound_json (h.type entry hentry)
  simpa [Document.json, hconstructor] using htypes

@[simp] theorem Crate.ofData?_json (crate : Crate) : Crate.ofData? crate.json.data = some crate := by
  rw [Crate.ofData?, Crate.json, Data.record?_object (by simp) (by simp)]
  rfl

@[simp] theorem Framework.ofData?_json (framework : Framework) :
    Framework.ofData? framework.json.data = some framework := by
  rw [Framework.ofData?, Framework.json, Data.record?_object (by simp) (by simp)]
  rfl

@[simp] theorem BuildInfo.ofData?_json (info : BuildInfo) : BuildInfo.ofData? info.json.data = some info := by
  rcases info with ⟨_ | crate, framework⟩
  · rw [BuildInfo.ofData?, BuildInfo.json, Data.record?_object (by simp) (by simp)]
    simp [required, nullable, List.lookup_cons]
  · have hnull : crate.json.data.isNull = false := rfl
    rw [BuildInfo.ofData?, BuildInfo.json, Data.record?_object (by simp) (by simp)]
    simp [required, nullable, List.lookup_cons, hnull]

@[simp] theorem InputDecl.ofData?_json (input : InputDecl) :
    InputDecl.ofData? input.json.data = some input := by
  rw [InputDecl.ofData?, InputDecl.json, Data.record?_object (by simp) (by simp)]
  rfl

@[simp] theorem OutputDecl.ofData?_json (output : OutputDecl) :
    OutputDecl.ofData? output.json.data = some output := by
  rw [OutputDecl.ofData?, OutputDecl.json, Data.record?_object (by simp) (by simp)]
  rfl

@[simp] theorem Constructor.ofData?_json (c : Constructor) : Constructor.ofData? c.json.data = some c := by
  rw [Constructor.ofData?, Constructor.json, Data.record?_object (by simp) (by simp)]
  simp [defaulted, List.lookup_cons]

theorem EndpointDecl.ofData?_json {endpoint : EndpointDecl} (h : endpoint.IsWritable) :
    EndpointDecl.ofData? endpoint.json.data = some endpoint := by
  have hmutability : Mutability.ofData? (Json.text endpoint.mutability.word).data =
      some endpoint.mutability := congrArg some h
  rw [EndpointDecl.ofData?, EndpointDecl.json, Data.record?_object (by simp) (by simp)]
  simp [required, defaulted, List.lookup_cons, hmutability]

@[simp] theorem EventInput.ofData?_json (input : EventInput) :
    EventInput.ofData? input.json.data = some input := by
  rw [EventInput.ofData?, EventInput.json, Data.record?_object (by simp) (by simp)]
  rfl

@[simp] theorem Event.ofData?_json (event : Event) : Event.ofData? event.json.data = some event := by
  rw [Event.ofData?, Event.json, Data.record?_object (by simp) (by simp)]
  simp [required, defaulted, List.lookup_cons]

@[simp] theorem FieldDecl.ofData?_json (field : FieldDecl) :
    FieldDecl.ofData? field.json.data = some field := by
  rw [FieldDecl.ofData?, FieldDecl.json, Data.record?_object (by simp) (by simp)]
  rfl

theorem VariantDecl.ofData?_json {variant : VariantDecl} (h : variant.IsWritable) :
    VariantDecl.ofData? variant.json.data = some variant := by
  have hdiscriminant : (Json.natural variant.discriminant).data.natural? =
      some variant.discriminant := by
    rw [Json.data_natural h, Data.natural?]
  rw [VariantDecl.ofData?, VariantDecl.json, Data.record?_object (by simp) (by simp)]
  simp [required, List.lookup_cons, hdiscriminant]

namespace TypeDefinition

/-- The kind of a written type is taken from its first member. -/
theorem kind?_object {kind : String} {members : List (String × Json)}
    (h : ∀ member ∈ members, member.1 ≠ "type") :
    kind? (Json.object (("type", .text kind) :: members)).data =
      some (kind, (Json.object members).data) := by
  have hothers : ∀ entry ∈ members.map fun member => (Data.text member.1, member.2.data),
      (entry.1.text? == some "type") = false := by
    rintro entry hentry
    obtain ⟨member, hmember, rfl⟩ := List.mem_map.1 hentry
    simpa [Data.text?] using h member hmember
  have hkind : (members.map fun member => (Data.text member.1, member.2.data)).filter
      (fun entry => entry.1.text? == some "type") = [] :=
    List.filter_eq_nil_iff.2 fun entry hentry => by simp [hothers entry hentry]
  have hcontent : (members.map fun member => (Data.text member.1, member.2.data)).filter
      (fun entry => !(entry.1.text? == some "type")) =
        members.map fun member => (Data.text member.1, member.2.data) :=
    List.filter_eq_self.2 fun entry hentry => by simp [hothers entry hentry]
  have hfirst : ((Data.text "type").text? == some "type") = true := by decide
  simp only [Json.data, Json.dataOfMembers_eq, List.map_cons, kind?, List.filter_cons, hfirst,
    hkind, hcontent]
  rfl

theorem depth_json_le (definition : TypeDefinition) : definition.json.data.depth ≤ 3 := by
  have htext (text : String) : (Json.text text).data.depth = 0 := rfl
  have hdocs (lines : List String) : (Json.texts lines).data.depth ≤ 2 :=
    (Data.depth_array_le fun line _ => (htext line).le).trans (by decide)
  cases definition with
  | record docs fields =>
    have hfield (field : FieldDecl) : field.json.data.depth ≤ 1 :=
      Data.depth_object_le (by simp [htext])
    have hfields := Data.depth_array_le fun field (_ : field ∈ fields) => hfield field
    exact Data.depth_object_le (by simp [htext, hdocs, hfields])
  | enum docs variants =>
    have hnumber (n : Nat) : (Json.natural n).data.depth = 0 := by
      rw [Json.natural]
      rcases Json.data_number (toString n) with ⟨m, -, h⟩ | h <;> rw [h] <;> rfl
    have hvariant (variant : VariantDecl) : variant.json.data.depth ≤ 1 :=
      Data.depth_object_le (by simp [htext, hnumber])
    have hvariants := Data.depth_array_le fun variant (_ : variant ∈ variants) => hvariant variant
    exact Data.depth_object_le (by simp [htext, hdocs, hvariants])

theorem ofData?_json {definition : TypeDefinition} (h : definition.IsWritable) :
    ofData? definition.json.data = some definition := by
  have hsettle := Json.settle?_data definition.json (isSound_json h)
  have hdepth : ¬ depthLimit < definition.json.data.depth := by
    have hle := definition.depth_json_le
    rw [depthLimit]
    omega
  rw [ofData?, hsettle]
  cases definition with
  | record docs fields =>
    rw [json] at hdepth ⊢
    rw [Option.bind_eq_bind, Option.bind_some, kind?_object (by simp)]
    simp only [Option.bind_eq_bind, Option.bind_some, if_neg hdepth]
    rw [Data.record?_object (by simp) (by simp)]
    simp [defaulted, List.lookup_cons]
  | enum docs variants =>
    have hvariants := Data.listOf?_array fun variant (hvariant : variant ∈ variants) =>
      VariantDecl.ofData?_json (h variant hvariant)
    rw [json] at hdepth ⊢
    rw [Option.bind_eq_bind, Option.bind_some, kind?_object (by simp)]
    simp only [Option.bind_eq_bind, Option.bind_some, if_neg hdepth]
    rw [if_neg (by decide), Data.record?_object (by simp) (by simp)]
    simp [defaulted, List.lookup_cons, hvariants]

end TypeDefinition

namespace NameMap

theorem ofList_concat {α : Type} (entries : List (String × α)) (entry : String × α) :
    ofList (entries ++ [entry]) = (ofList entries).put entry.1 entry.2 :=
  List.foldl_concat _ _ entry entries

theorem entries_ofList {α : Type} {entries : List (String × α)} (h : (entries.map (·.1)).Nodup) :
    (ofList entries).entries = entries := by
  induction entries using List.reverseRecOn with
  | nil => rfl
  | append_singleton entries entry ih =>
    rw [List.map_append, List.nodup_append] at h
    have hentries := ih h.1
    have hnew : entry.1 ∉ (ofList entries).names := by
      rw [names, hentries]
      exact fun hold => h.2.2 _ hold _ List.mem_cons_self rfl
    rw [ofList_concat, entries_put_of_not_mem hnew, hentries]

theorem ofList_entries {α : Type} (m : NameMap α) : ofList m.entries = m :=
  ext (entries_ofList m.distinct)

end NameMap

theorem Document.typesOfData?_json {document : Document} (h : document.IsWritable) :
    typesOfData? (Json.object (document.types.mapValues TypeDefinition.json).entries).data =
      some document.types := by
  have htypes : ((document.types.mapValues TypeDefinition.json).entries.map fun member =>
      (member.1, member.2.data)).mapM (fun entry =>
        (TypeDefinition.ofData? entry.2).map (entry.1, ·)) = some (document.types.entries.map id) := by
    rw [NameMap.mapValues, List.map_map]
    refine mapM_map_eq_some fun entry hentry => ?_
    rw [Function.comp_apply, TypeDefinition.ofData?_json (h.type entry hentry)]
    rfl
  rw [typesOfData?, Data.entries?_object, Option.bind_eq_bind, Option.bind_some, htypes, List.map_id]
  exact congrArg some document.types.ofList_entries

theorem Document.ofData?_json {document : Document} (h : document.IsWritable) :
    Document.ofData? document.json.data = some document := by
  have hendpoints := Data.listOf?_array fun endpoint (hendpoint : endpoint ∈ document.endpoints) =>
    EndpointDecl.ofData?_json (h.endpoint endpoint hendpoint)
  rw [Document.ofData?, Document.json, Data.record?_object (by simp) (by simp)]
  have hconstructor : (if ((document.constructor.map Constructor.json).getD .null).data.isNull = true
      then some none
      else (Constructor.ofData? ((document.constructor.map Constructor.json).getD .null).data).map
        some) = some document.constructor := by
    cases document.constructor with
    | none => rfl
    | some c => exact congrArg (Option.map some) c.ofData?_json
  simp [required, defaulted, nullable, List.lookup_cons, hendpoints, hconstructor,
    typesOfData?_json h]

namespace Data

mutual

/-- No natural number among the values has more than 64 bits. -/
def Fits : Data → Prop
  | .natural n => n < UInt64.size
  | .list items => ItemsFit items
  | .map entries => EntriesFit entries
  | .null | .bool _ | .number | .text _ | .plain _ | .tagged _ | .damaged => True

def ItemsFit : List Data → Prop
  | [] => True
  | item :: rest => Fits item ∧ ItemsFit rest

def EntriesFit : List (Data × Data) → Prop
  | [] => True
  | entry :: rest => Fits entry.2 ∧ EntriesFit rest

end

theorem itemsFit_iff {items : List Data} : ItemsFit items ↔ ∀ item ∈ items, item.Fits := by
  induction items with
  | nil => simp [ItemsFit]
  | cons item rest ih => simp [ItemsFit, ih]

theorem entriesFit_iff {entries : List (Data × Data)} :
    EntriesFit entries ↔ ∀ entry ∈ entries, entry.2.Fits := by
  induction entries with
  | nil => simp [EntriesFit]
  | cons entry rest ih => simp [EntriesFit, ih]

theorem fits_ofInteger (i : Int) : (ofInteger i).Fits := by
  unfold ofInteger
  split_ifs with hword
  · obtain ⟨hsign, hsize⟩ := hword
    rw [Fits]
    omega
  all_goals simp [Fits]

theorem fits_ofPlain (spelling : String) : (ofPlain spelling).Fits := by
  unfold ofPlain
  simp only
  split
  · simp [Fits]
  · split
    · simp [Fits]
    · split
      · exact fits_ofInteger _
      · split_ifs <;> simp [Fits]

mutual

theorem fits_settle? : (d : Data) → d.Fits → ∀ {settled : Data}, d.settle? = some settled →
    settled.Fits
  | .plain spelling, _, settled, h => by
    rw [settle?] at h
    split at h
    · cases h
    · obtain rfl := Option.some.inj h
      exact fits_ofPlain spelling
  | .tagged spelling, _, settled, h => by
    rw [settle?] at h
    obtain rfl := Option.some.inj h
    trivial
  | .list items, hfits, settled, h => by
    rw [settle?] at h
    obtain ⟨others, hothers, rfl⟩ := Option.map_eq_some_iff.1 h
    exact itemsFit_settleItems? items hfits hothers
  | .map entries, hfits, settled, h => by
    rw [settle?] at h
    obtain ⟨others, hothers, rfl⟩ := Option.map_eq_some_iff.1 h
    exact entriesFit_settleEntries? entries hfits hothers
  | .natural n, hfits, settled, h => Option.some.inj h ▸ hfits
  | .null, hfits, settled, h => Option.some.inj h ▸ hfits
  | .bool value, hfits, settled, h => Option.some.inj h ▸ hfits
  | .number, hfits, settled, h => Option.some.inj h ▸ hfits
  | .text value, hfits, settled, h => Option.some.inj h ▸ hfits

theorem itemsFit_settleItems? : (items : List Data) → ItemsFit items →
    ∀ {settled : List Data}, settleItems? items = some settled → ItemsFit settled
  | [], _, settled, h => Option.some.inj h ▸ trivial
  | item :: rest, hfits, settled, h => by
    rw [settleItems?] at h
    obtain ⟨first, hfirst, h⟩ := Option.bind_eq_some_iff.1 h
    obtain ⟨others, hothers, h⟩ := Option.bind_eq_some_iff.1 h
    obtain rfl := Option.some.inj h
    exact ⟨fits_settle? item hfits.1 hfirst, itemsFit_settleItems? rest hfits.2 hothers⟩

theorem entriesFit_settleEntries? : (entries : List (Data × Data)) → EntriesFit entries →
    ∀ {settled : List (Data × Data)}, settleEntries? entries = some settled → EntriesFit settled
  | [], _, settled, h => Option.some.inj h ▸ trivial
  | entry :: rest, hfits, settled, h => by
    rw [settleEntries?] at h
    obtain ⟨key, -, h⟩ := Option.bind_eq_some_iff.1 h
    obtain ⟨value, hvalue, h⟩ := Option.bind_eq_some_iff.1 h
    obtain ⟨others, hothers, h⟩ := Option.bind_eq_some_iff.1 h
    obtain rfl := Option.some.inj h
    exact ⟨fits_settle? entry.2 hfits.1 hvalue, entriesFit_settleEntries? rest hfits.2 hothers⟩

end

variable {d : Data}

theorem Fits.of_items? {items : List Data} (h : d.Fits) (hitems : d.items? = some items) :
    ∀ item ∈ items, item.Fits := by
  unfold items? at hitems
  split at hitems
  · obtain rfl := Option.some.inj hitems
    exact itemsFit_iff.1 h
  · split_ifs at hitems
    obtain rfl := Option.some.inj hitems
    exact fun item hitem => absurd hitem List.not_mem_nil

theorem Fits.of_entries? {entries : List (String × Data)} (h : d.Fits)
    (hentries : d.entries? = some entries) : ∀ entry ∈ entries, entry.2.Fits := by
  unfold entries? at hentries
  split at hentries
  · intro entry hentry
    obtain ⟨given, hgiven, hread⟩ := exists_of_mapM_eq_some hentries hentry
    obtain ⟨name, -, rfl⟩ := Option.map_eq_some_iff.1 hread
    exact entriesFit_iff.1 h given hgiven
  · split_ifs at hentries
    obtain rfl := Option.some.inj hentries
    exact fun entry hentry => absurd hentry List.not_mem_nil

theorem Fits.of_record? {fields : List String} {given : List (String × Data)} (h : d.Fits)
    (hgiven : d.record? fields = some given) : ∀ entry ∈ given, entry.2.Fits := by
  unfold record? at hgiven
  split at hgiven
  · split_ifs at hgiven
    obtain rfl := Option.some.inj hgiven
    exact fun entry hentry => itemsFit_iff.1 h _ (List.of_mem_zip hentry).2
  · obtain ⟨entries, hentries, hgiven⟩ := Option.bind_eq_some_iff.1 hgiven
    simp only at hgiven
    split_ifs at hgiven
    obtain rfl := Option.some.inj hgiven
    exact fun entry hentry => h.of_entries? hentries entry (List.mem_filter.1 hentry).1

/-- The item that a part of a list was read from. -/
theorem Fits.exists_of_listOf? {α : Type} {read : Data → Option α} {values : List α} {value : α}
    (h : d.Fits) (hvalues : listOf? read d = some values) (hvalue : value ∈ values) :
    ∃ item : Data, item.Fits ∧ read item = some value := by
  obtain ⟨items, hitems, hread⟩ := Option.bind_eq_some_iff.1 hvalues
  obtain ⟨item, hitem, hitemRead⟩ := exists_of_mapM_eq_some hread hvalue
  exact ⟨item, h.of_items? hitems item hitem, hitemRead⟩

theorem mem_of_lookup {given : List (String × Data)} {field : String}
    (h : given.lookup field = some d) : (field, d) ∈ given := by
  obtain ⟨before, after, rfl, -⟩ := List.lookup_eq_some_iff.1 h
  exact List.mem_append_right before List.mem_cons_self

theorem exists_of_required {α : Type} {given : List (String × Data)} {field : String}
    {read : Data → Option α} {value : α} (hgiven : ∀ entry ∈ given, entry.2.Fits)
    (h : required given field read = some value) : ∃ d : Data, d.Fits ∧ read d = some value := by
  obtain ⟨d, hd, hread⟩ := Option.bind_eq_some_iff.1 h
  exact ⟨d, hgiven _ (mem_of_lookup hd), hread⟩

/-- A field that may be absent has its default or was read. -/
theorem eq_or_exists_of_defaulted {α : Type} {given : List (String × Data)} {field : String}
    {read : Data → Option α} {default value : α} (hgiven : ∀ entry ∈ given, entry.2.Fits)
    (h : defaulted given field read default = some value) :
    value = default ∨ ∃ d : Data, d.Fits ∧ read d = some value := by
  unfold defaulted at h
  split at h
  · rename_i d hd
    exact .inr ⟨d, hgiven _ (mem_of_lookup hd), h⟩
  · exact .inl (Option.some.inj h).symm

end Data

namespace Json

mutual

theorem fits_data : (value : Json) → value.data.Fits
  | .array items => by
    rw [data, Data.Fits]
    exact itemsFit_dataOfItems items
  | .object members => by
    rw [data, Data.Fits]
    exact entriesFit_dataOfMembers members
  | .number lexeme => by
    rcases data_number lexeme with ⟨n, hn, h⟩ | h <;> rw [h, Data.Fits]
    · exact hn
    · trivial
  | .null | .bool _ | .text _ | .damaged => by simp [data, leafData, Data.Fits]

theorem itemsFit_dataOfItems : (items : List Json) → Data.ItemsFit (dataOfItems items)
  | [] => trivial
  | item :: rest => ⟨fits_data item, itemsFit_dataOfItems rest⟩

theorem entriesFit_dataOfMembers : (members : List (String × Json)) →
    Data.EntriesFit (dataOfMembers members)
  | [] => trivial
  | member :: rest => ⟨fits_data member.2, entriesFit_dataOfMembers rest⟩

end

end Json

theorem EndpointDecl.isWritable_of_ofData? {d : Data} {endpoint : EndpointDecl} (hfits : d.Fits)
    (h : EndpointDecl.ofData? d = some endpoint) : endpoint.IsWritable := by
  simp only [EndpointDecl.ofData?, Option.bind_eq_bind, Option.bind_eq_some_iff] at h
  obtain ⟨given, hgiven, name, -, docs, -, owner, -, mutability, hmutability, payable, -, inputs, -,
    outputs, -, h⟩ := h
  obtain rfl := Option.some.inj h
  rcases Data.eq_or_exists_of_defaulted (hfits.of_record? hgiven) hmutability with rfl | ⟨d, -, hword⟩
  · rfl
  · obtain ⟨word, -, rfl⟩ := Option.map_eq_some_iff.1 hword
    exact Mutability.ofWord_word_ofWord word

theorem VariantDecl.isWritable_of_ofData? {d : Data} {variant : VariantDecl} (hfits : d.Fits)
    (h : VariantDecl.ofData? d = some variant) : variant.IsWritable := by
  simp only [VariantDecl.ofData?, Option.bind_eq_bind, Option.bind_eq_some_iff] at h
  obtain ⟨given, hgiven, name, -, discriminant, hdiscriminant, h⟩ := h
  obtain rfl := Option.some.inj h
  obtain ⟨d, hnatural, hread⟩ := Data.exists_of_required (hfits.of_record? hgiven) hdiscriminant
  cases d with
  | natural n =>
    obtain rfl := Option.some.inj hread
    exact hnatural
  | _ => cases hread

namespace TypeDefinition

theorem fits_of_kind? {d content : Data} {kind : String} (hfits : d.Fits)
    (h : kind? d = some (kind, content)) : content.Fits := by
  unfold kind? at h
  split at h
  · obtain ⟨_, -, h⟩ := Option.map_eq_some_iff.1 h
    obtain ⟨-, rfl⟩ := Prod.mk.inj h
    exact hfits.2
  · simp only at h
    split at h
    · obtain ⟨_, -, h⟩ := Option.map_eq_some_iff.1 h
      obtain ⟨-, rfl⟩ := Prod.mk.inj h
      exact Data.entriesFit_iff.2 fun entry hentry =>
        Data.entriesFit_iff.1 hfits entry (List.mem_filter.1 hentry).1
    · cases h
  · cases h

theorem isWritable_of_ofData? {d : Data} {definition : TypeDefinition} (hfits : d.Fits)
    (h : ofData? d = some definition) : definition.IsWritable := by
  obtain ⟨settled, hsettled, h⟩ := Option.bind_eq_some_iff.1 h
  obtain ⟨⟨kind, content⟩, hkind, h⟩ := Option.bind_eq_some_iff.1 h
  have hcontent := fits_of_kind? (Data.fits_settle? d hfits hsettled) hkind
  simp only at h
  split_ifs at h
  · simp only [Option.bind_eq_bind, Option.bind_eq_some_iff] at h
    obtain ⟨given, -, docs, -, fields, -, h⟩ := h
    obtain rfl := Option.some.inj h
    trivial
  · simp only [Option.bind_eq_bind, Option.bind_eq_some_iff] at h
    obtain ⟨given, hgiven, docs, -, variants, hvariants, h⟩ := h
    obtain rfl := Option.some.inj h
    intro variant hvariant
    rcases Data.eq_or_exists_of_defaulted (hcontent.of_record? hgiven) hvariants with
      rfl | ⟨d, hd, hread⟩
    · cases hvariant
    · obtain ⟨item, hitem, hitemRead⟩ := hd.exists_of_listOf? hread hvariant
      exact VariantDecl.isWritable_of_ofData? hitem hitemRead

end TypeDefinition

theorem NameMap.mem_of_mem_ofList {α : Type} {entries : List (String × α)} {entry : String × α}
    (h : entry ∈ (NameMap.ofList entries).entries) : entry ∈ entries := by
  induction entries using List.reverseRecOn with
  | nil => exact h
  | append_singleton entries last ih =>
    have hget : (NameMap.ofList (entries ++ [last])).get? entry.1 = some entry.2 :=
      NameMap.get?_eq_some_iff.2 h
    rw [NameMap.ofList_concat, NameMap.get?_put] at hget
    split_ifs at hget with hname
    · obtain rfl : entry = last := Prod.ext hname (Option.some.inj hget).symm
      exact List.mem_append_right entries List.mem_cons_self
    · exact List.mem_append_left _ (ih (NameMap.get?_eq_some_iff.1 hget))

namespace Document

theorem isWritable_of_typesOfData? {d : Data} {types : NameMap TypeDefinition} (hfits : d.Fits)
    (h : typesOfData? d = some types) : ∀ entry ∈ types.entries, entry.2.IsWritable := by
  obtain ⟨given, hgiven, h⟩ := Option.bind_eq_some_iff.1 h
  obtain ⟨entries, hentries, h⟩ := Option.bind_eq_some_iff.1 h
  obtain rfl := Option.some.inj h
  intro entry hentry
  obtain ⟨source, hsource, hread⟩ :=
    exists_of_mapM_eq_some hentries (NameMap.mem_of_mem_ofList hentry)
  obtain ⟨definition, hdefinition, rfl⟩ := Option.map_eq_some_iff.1 hread
  exact TypeDefinition.isWritable_of_ofData? (hfits.of_entries? hgiven source hsource) hdefinition

theorem isWritable_of_ofData? {d : Data} {document : Document} (hfits : d.Fits)
    (h : ofData? d = some document) : document.IsWritable := by
  simp only [ofData?, Option.bind_eq_bind, Option.bind_eq_some_iff] at h
  obtain ⟨given, hgiven, info, -, docs, -, name, -, constructor, -, endpoints, hendpoints, events, -,
    callbacks, -, types, htypes, h⟩ := h
  obtain rfl := Option.some.inj h
  have hgivenFits := hfits.of_record? hgiven
  refine ⟨fun endpoint hendpoint => ?_, ?_⟩
  · rcases Data.eq_or_exists_of_defaulted hgivenFits hendpoints with rfl | ⟨d, hd, hread⟩
    · cases hendpoint
    · obtain ⟨item, hitem, hitemRead⟩ := hd.exists_of_listOf? hread hendpoint
      exact EndpointDecl.isWritable_of_ofData? hitem hitemRead
  · rcases Data.eq_or_exists_of_defaulted hgivenFits htypes with rfl | ⟨d, hd, hread⟩
    · exact fun entry hentry => absurd hentry List.not_mem_nil
    · exact isWritable_of_typesOfData? hd hread

theorem isWritable_of_parse {text : String} {document : Document}
    (h : parse .json text = .ok document) : document.IsWritable := by
  unfold parse at h
  split at h
  · rename_i read hread
    obtain rfl := Except.ok.inj h
    obtain ⟨d, hd, hread⟩ := Option.bind_eq_some_iff.1 hread
    obtain ⟨value, -, rfl⟩ := Option.map_eq_some_iff.1 hd
    exact isWritable_of_ofData? value.fits_data hread
  · cases h

theorem parse_of_parse? {text : String} {document : Document} {yaml? : String → Option Data}
    (h : document.IsWritable) (htext : Json.parse? text = some document.json) :
    parse .json text yaml? = .ok document := by
  rw [parse, DocumentFormat.data?, htext, Option.map_some, Option.bind_some, ofData?_json h]

/-- A loaded document survives being written, in one line and over lines. -/
theorem loaded_documents_are_read_back {text : String} {document : Document}
    (h : parse .json text = .ok document) :
    parse .json document.json.compact = .ok document ∧
      parse .json document.json.pretty = .ok document := by
  have hwritable := isWritable_of_parse h
  have hsound := isSound_json hwritable
  exact ⟨parse_of_parse? hwritable (Json.parse?_compact hsound),
    parse_of_parse? hwritable (Json.parse?_pretty hsound)⟩

end Document

/-- A value with fields left out, a field without a meaning, records written as lists and a type
given twice. -/
def poolGiven : Json :=
  .object [
    ("buildInfo", .object [("framework", .array [.text "multiversx-sc"])]),
    ("name", .text "Pool"),
    ("constructor", .null),
    ("endpoints", .array [.object [("name", .text "drain"), ("mutability", .text "pure"),
      ("since", .natural 7)]]),
    ("types", .object [
      ("State", .array [.text "struct"]),
      ("Gate", .array [.text "struct", .texts ["tap\n"]]),
      ("State", .object [("variants", .array [.array [.text "Open", .natural 300]]),
        ("type", .text "enum")])])]

def poolText : String :=
  "\x7b\"buildInfo\":\x7b\"framework\":[\"multiversx-sc\"]\x7d,\"name\":\"Pool\",\"constructor\":null," ++
  "\"endpoints\":[\x7b\"name\":\"drain\",\"mutability\":\"pure\",\"since\":7\x7d]," ++
  "\"types\":\x7b\"State\":[\"struct\"],\"Gate\":[\"struct\",[\"tap\\n\"]]," ++
  "\"State\":\x7b\"variants\":[[\"Open\",300]],\"type\":\"enum\"\x7d\x7d\x7d"

def pool : Document where
  buildInfo := ⟨none, ⟨"multiversx-sc", ""⟩⟩
  docs := []
  name := "Pool"
  constructor := none
  endpoints := [⟨"drain", [], false, .other "pure", [], [], []⟩]
  events := []
  hasCallbacks := false
  types := NameMap.ofList
    [("State", .enum [] [⟨"Open", 300⟩]), ("Gate", .record ["tap\n"] [])]

theorem parse_poolText : Document.parse .json poolText = .ok pool := by
  have htext : poolText = poolGiven.compact := by decide +kernel
  have hseven : 7 < UInt64.size := by decide
  have hopen : 300 < UInt64.size := by decide
  have hsound : poolGiven.IsSound := by
    simp [poolGiven, Json.isSound_natural hseven, Json.isSound_natural hopen]
  have hread : Document.ofData? poolGiven.data = some pool := by
    simp only [poolGiven, Json.data, Json.dataOfMembers, Json.dataOfItems, Json.data_natural hseven,
      Json.data_natural hopen]
    decide +kernel
  rw [htext, Document.parse, DocumentFormat.data?, Json.parse?_compact hsound, Option.map_some,
    Option.bind_some, hread]

/-- The document of the pool has its defaults filled in, its repeated type settled and its unknown
field gone when it is written, and is read back as it was loaded. -/
theorem pool_is_read_back :
    Document.parse .json poolText = .ok pool ∧
      Document.parse .json pool.json.compact = .ok pool ∧
        Document.parse .json pool.json.pretty = .ok pool :=
  ⟨parse_poolText, Document.loaded_documents_are_read_back parse_poolText⟩

end ContractAbi
