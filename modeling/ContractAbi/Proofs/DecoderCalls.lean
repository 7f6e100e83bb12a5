import ContractAbi.Proofs.GeneratedDecoders

/-!
# Calls of generated decoders

A contract that was made from a document always has a generated file. The checks of its types leave
no declaration without a zero value and no output without a decoder, and each decoder that the file
calls, from a method or from another decoder, is declared in the file with both its functions.
-/
namespace ContractAbi

section Calls

variable (declared : String → Prop)

/-- The reader calls declared types only, and it is not the one that always fails. -/
def NestedReader.CallsOnly : NestedReader → Prop
  | .scalar _ => True
  | .declared type => declared type
  | .list item => item.CallsOnly
  | .unsupported _ => False

def SlotDecoder.CallsOnly : SlotDecoder → Prop
  | .scalar _ => True
  | .declared type => declared type

def MemberDecoder.CallsOnly : MemberDecoder → Prop
  | .slot decoder => decoder.CallsOnly declared
  | .packed item => item.CallsOnly declared

def OutputDecoder.CallsOnly : OutputDecoder → Prop
  | .scalar decoder | .eachSlot decoder => decoder.CallsOnly declared
  | .selfTerminating item => item.CallsOnly declared
  | .groups _ decoder | .group _ decoder => ∀ member ∈ decoder.members, member.CallsOnly declared

/-- The decoder of an enum calls no other decoder. -/
def DecoderItem.CallsOnly : DecoderItem → Prop
  | .record _ fields => ∀ field ∈ fields, field.2.CallsOnly declared
  | .enum _ _ _ => True

end Calls

/-- The lines declare the type and implement both its decoder functions. -/
structure TypeItem.DeclaresDecoders (item : TypeItem) (type : String) : Prop where
  declared : "pub struct " ++ type ++ " \x7b" ∈ item.lines ∨ "pub enum " ++ type ++ " \x7b" ∈ item.lines
  functions : ∃ body, Code.braces ("impl " ++ type) body <:+: item.lines ∧
    (∃ nested, Code.braces nestedDecoderHead nested <:+: body) ∧
    ∃ top, Code.braces topDecoderHead top <:+: body

/-- A named type or a composite of the file has the decoder functions. -/
def SourceFile.DeclaresDecoders (file : SourceFile) (type : String) : Prop :=
  ∃ item ∈ file.types, item.DeclaresDecoders type

/-- Whatever decoder a line of the file calls, the file declares it. The statements of methods and
the bodies of decoders are read back from their lines. -/
structure SourceFile.CallsDeclared (file : SourceFile) : Prop where
  methods : ∀ method ∈ file.client.methods, ∀ outputs decodes result,
    method.body = .query outputs decodes result → method.statements = outputs ∧
      ∀ statement ∈ outputs, statement.decoder.CallsOnly file.DeclaresDecoders
  types : ∀ item ∈ file.types, item.decoderLines ≠ [] →
    ∃ decoder, item.decoder? = some decoder ∧ decoder.CallsOnly file.DeclaresDecoders

/-- Every type that the catalog has a decoder for is declared. -/
def Catalog.DecodersIn (catalog : Catalog) (declared : String → Prop) : Prop :=
  ∀ decoder, catalog.HasDecoder decoder → declared decoder.type

theorem SlotDecoder.exists_ofType {type : ResolvedType} (hcheck : checkTopLevel type = .ok ()) :
    ∃ decoder, SlotDecoder.ofType type = .ok decoder := by
  cases type with
  | primitive kind => exact ⟨_, rfl⟩
  | record name => exact ⟨_, rfl⟩
  | enum name => exact ⟨_, rfl⟩
  | tuple name members => exact ⟨_, rfl⟩
  | _ => cases hcheck

theorem MemberDecoder.exists_ofType {type : ResolvedType} (hcheck : checkGroupMember type = .ok ()) :
    ∃ decoder, MemberDecoder.ofType type = .ok decoder := by
  by_cases hlist : ∃ element, type = .list element
  · obtain ⟨element, rfl⟩ := hlist
    cases hrecord : element.isRecordLike with
    | true => exact ⟨.packed (NestedReader.ofType element), by rw [ofType, hrecord]; rfl⟩
    | false =>
      rw [checkGroupMember, hrecord] at hcheck
      cases hcheck
  · obtain ⟨hsame, hmap, -⟩ := member_of_not_list fun element h => hlist ⟨element, h⟩
    rw [hsame] at hcheck
    obtain ⟨decoder, hdecoder⟩ := SlotDecoder.exists_ofType hcheck
    exact ⟨.slot decoder, by rw [hmap, hdecoder]; rfl⟩

theorem GroupDecoder.exists_ofMembers {members : List ResolvedType}
    (hcheck : checkGroup members = .ok ()) (name : String) :
    ∃ decoder, GroupDecoder.ofMembers name members = .ok decoder := by
  obtain ⟨decoders, hdecoders⟩ := exists_mapM_eq_ok fun member hmember =>
    MemberDecoder.exists_ofType (checkGroup_iff.1 hcheck member hmember)
  exact ⟨⟨name, decoders⟩, by rw [ofMembers, hdecoders]; rfl⟩

/-- An output has a decoder for the strategy that suits its type. -/
theorem OutputDecoder.exists_ofOutput {type : ResolvedType} {strategy : Strategy}
    (hsuits : Strategy.Suits type strategy) :
    ∃ decoder, OutputDecoder.ofOutput strategy type = .ok decoder := by
  cases hsuits with
  | packed hrecord hcheck => exact ⟨_, rfl⟩
  | spread hrecord hcheck =>
    obtain ⟨decoder, hdecoder⟩ := SlotDecoder.exists_ofType hcheck
    exact ⟨.eachSlot decoder, by rw [ofOutput, hdecoder]; rfl⟩
  | variadic hcheck =>
    obtain ⟨decoder, hdecoder⟩ := SlotDecoder.exists_ofType hcheck
    exact ⟨.eachSlot decoder, by rw [ofOutput, hdecoder]; rfl⟩
  | @groups name members hcheck =>
    obtain ⟨decoder, hdecoder⟩ := GroupDecoder.exists_ofMembers hcheck name
    exact ⟨.groups members.length decoder, by rw [ofOutput, hdecoder]; rfl⟩
  | @group name members hcheck =>
    obtain ⟨decoder, hdecoder⟩ := GroupDecoder.exists_ofMembers hcheck name
    exact ⟨.group members.length decoder, by rw [ofOutput, hdecoder]; rfl⟩
  | scalar htop hcheck =>
    obtain ⟨decoder, hdecoder⟩ := SlotDecoder.exists_ofType hcheck
    exact ⟨.scalar decoder, by rw [ofOutput, hdecoder]; rfl⟩

theorem exists_outputStatements {outputs : List (ResolvedType × OutputPlan)}
    (hsuits : ∀ output ∈ outputs, Strategy.Suits output.1 output.2.strategy) (index : Nat) :
    ∃ statements, outputStatements index outputs = .ok statements := by
  induction outputs generalizing index with
  | nil => exact ⟨[], rfl⟩
  | cons output rest ih =>
    obtain ⟨decoder, hdecoder⟩ := OutputDecoder.exists_ofOutput (hsuits output List.mem_cons_self)
    obtain ⟨others, hothers⟩ := ih (fun other h => hsuits other (List.mem_cons_of_mem _ h)) (index + 1)
    refine ⟨⟨index, output.2.firstSlot, decoder⟩ :: others, ?_⟩
    rw [outputStatements, OutputStatement.ofOutput, hdecoder, hothers]
    rfl

theorem Endpoint.exists_methodBody {endpoint : Endpoint}
    (hsuits : endpoint.kind = .readonly → ∀ output ∈ endpoint.outputTypes.zip endpoint.plans,
      Strategy.Suits output.1 output.2.strategy) : ∃ body, endpoint.methodBody = .ok body := by
  rw [methodBody]
  split
  · exact ⟨_, rfl⟩
  · rename_i hkind
    obtain ⟨statements, hstatements⟩ := exists_outputStatements (hsuits hkind) 0
    rw [hstatements]
    exact ⟨_, rfl⟩

theorem Catalog.exists_defaultVariant {variants : List Variant} (h : variants ≠ []) :
    ∃ variant, Catalog.defaultVariant? variants = some variant := by
  rw [Catalog.defaultVariant?]
  cases variants.find? (·.discriminant = 0) with
  | some variant => exact ⟨variant, rfl⟩
  | none => exact ⟨variants.head h, List.head?_eq_some_head h⟩

namespace Contract.Models

variable {contract : Contract} {document : Document} {session : Session} {type : ResolvedType}
  {name : String} {fields : List Field} {docs : List String} {options : GenerationOptions}

theorem variants_ne_nil (h : contract.Models document session) {variants : List Variant}
    (hget : contract.catalog.enums.get? name = some variants) : variants ≠ [] := by
  rw [h.catalog] at hget
  obtain ⟨docs, decls, -, hresolve⟩ := h.represents.enums name variants hget
  have hnames := names_of_resolveEnum hresolve
  rintro rfl
  obtain rfl := List.map_eq_nil_iff.1 hnames.symm
  cases hresolve

theorem exists_enumItem (h : contract.Models document session) (docs : List String)
    {variants : List Variant} (hget : contract.catalog.enums.get? name = some variants) :
    ∃ item, EnumItem.ofVariants name variants docs = .ok item := by
  obtain ⟨variant, hvariant⟩ := Catalog.exists_defaultVariant (h.variants_ne_nil hget)
  rw [EnumItem.ofVariants, hvariant]
  exact ⟨_, rfl⟩

theorem exists_zeroText (h : contract.Models document session)
    (hadmits : session.context.Admits document.types type) :
    ∃ text, type.zeroText contract.catalog = .ok text := by
  cases type with
  | enum name =>
    obtain ⟨variants, hget⟩ := h.exists_enum hadmits.grounded
    obtain ⟨variant, hvariant⟩ := Catalog.exists_defaultVariant (h.variants_ne_nil hget)
    rw [ResolvedType.zeroText, hget, Option.getD_some, hvariant]
    exact ⟨_, rfl⟩
  | _ => exact ⟨_, rfl⟩

theorem exists_recordItem (h : contract.Models document session) (name : String)
    (docs : List String) (hfields : ∀ field ∈ fields, session.context.Admits document.types field.type) :
    ∃ item, RecordItem.ofFields contract.catalog name fields docs = .ok item := by
  have hitem : ∀ field ∈ fields, ∃ item, FieldItem.ofField contract.catalog field = .ok item := by
    intro field hfield
    obtain ⟨zero, hzero⟩ := h.exists_zeroText (hfields field hfield)
    rw [FieldItem.ofField, hzero]
    exact ⟨_, rfl⟩
  obtain ⟨items, hitems⟩ := exists_mapM_eq_ok hitem
  rw [RecordItem.ofFields, hitems]
  exact ⟨_, rfl⟩

theorem exists_typeItem (h : contract.Models document session) (options : GenerationOptions)
    (name : String) (docs : List String) :
    ∃ item?, contract.typeItem? options name docs = .ok item? := by
  rw [typeItem?]
  cases hrecord : contract.catalog.records.get? name with
  | some fields =>
    obtain ⟨item, hitem⟩ := h.exists_recordItem name (options.docs docs)
      fun field hfield => (h.admitsField hrecord hfield).admitted
    simp only [hitem]
    exact ⟨_, rfl⟩
  | none =>
    cases henum : contract.catalog.enums.get? name with
    | some variants =>
      obtain ⟨item, hitem⟩ := h.exists_enumItem (options.docs docs) henum
      simp only [hitem]
      exact ⟨_, rfl⟩
    | none => exact ⟨_, rfl⟩

theorem exists_compositeItem (h : contract.Models document session) {entry : String × List Field}
    (hentry : entry ∈ contract.catalog.composites.entries) :
    ∃ item, contract.compositeItem entry.1 entry.2 = .ok item := by
  obtain ⟨item, hitem⟩ := h.exists_recordItem entry.1 []
    fun field hfield => h.context.admits_field (h.mem_composites.1 hentry) hfield
  rw [compositeItem, hitem]
  exact ⟨_, rfl⟩

theorem exists_method (h : contract.Models document session) {endpoint : Endpoint}
    (hendpoint : endpoint ∈ contract.endpoints) (options : GenerationOptions) :
    ∃ method, contract.method options endpoint = .ok method := by
  obtain ⟨body, hbody⟩ : ∃ body,
      Endpoint.methodBody { endpoint with docs := options.docs endpoint.docs } = .ok body :=
    Endpoint.exists_methodBody fun hkind output houtput =>
      (((h.endpoints endpoint hendpoint).suits hkind).2 output houtput).2
  rw [Contract.method, Method.ofEndpoint, hbody]
  exact ⟨_, rfl⟩

/-- A contract has a generated file. -/
theorem exists_sourceFile (h : contract.Models document session) (options : GenerationOptions) :
    ∃ file, contract.sourceFile options = .ok file := by
  obtain ⟨named, hnamed⟩ := exists_mapM_eq_ok
    fun (entry : String × List String) (_ : entry ∈ contract.typeDocs.entries) =>
      h.exists_typeItem options entry.1 entry.2
  obtain ⟨composites, hcomposites⟩ := exists_mapM_eq_ok
    fun (entry : String × List Field) hentry => h.exists_compositeItem hentry
  obtain ⟨methods, hmethods⟩ := exists_mapM_eq_ok
    fun endpoint hendpoint => h.exists_method hendpoint options
  rw [sourceFile, hnamed, hcomposites, hmethods]
  exact ⟨_, rfl⟩

end Contract.Models

theorem DecoderText.type_of_item? {type : String} {lines : List String} {decoder : DecoderItem}
    (h : item? (("impl " ++ type ++ " \x7b") :: lines) = some decoder) : decoder.type = type := by
  rw [item?] at h
  cases hrecord : record? (("impl " ++ type ++ " \x7b") :: lines) with
  | some other =>
    rw [hrecord] at h
    obtain rfl := Option.some.inj h
    rw [record?, implementation_append, Option.bind_eq_bind, Option.bind_some] at hrecord
    obtain ⟨inner, -, hrecord⟩ := Option.bind_eq_some_iff.1 hrecord
    obtain ⟨entries, -, hrecord⟩ := Option.bind_eq_some_iff.1 hrecord
    obtain ⟨fields, -, hrecord⟩ := Option.bind_eq_some_iff.1 hrecord
    obtain rfl := Option.some.inj hrecord
    rfl
  | none =>
    rw [hrecord] at h
    change enum? (("impl " ++ type ++ " \x7b") :: lines) = some decoder at h
    rw [enum?, implementation_append, Option.bind_eq_bind, Option.bind_some] at h
    obtain ⟨inner, -, h⟩ := Option.bind_eq_some_iff.1 h
    obtain ⟨entries, -, h⟩ := Option.bind_eq_some_iff.1 h
    obtain ⟨last, -, h⟩ := Option.bind_eq_some_iff.1 h
    obtain ⟨label, -, h⟩ := Option.bind_eq_some_iff.1 h
    obtain ⟨cases, -, h⟩ := Option.bind_eq_some_iff.1 h
    obtain rfl := Option.some.inj h
    rfl

namespace TypeItem

theorem decoderLines_ne_nil {item : TypeItem} {decoder : DecoderItem}
    (h : item.decoder? = some decoder) : item.decoderLines ≠ [] := by
  intro hnil
  rw [decoder?, hnil] at h
  cases h

/-- The implementation of the decoders has both functions. -/
theorem decoderLines_eq_braces {item : TypeItem} (h : item.decoderLines ≠ []) :
    ∃ body, item.decoderLines = Code.braces ("impl " ++ item.name) body ∧
      (∃ nested, Code.braces nestedDecoderHead nested <:+: body) ∧
      ∃ top, Code.braces topDecoderHead top <:+: body := by
  cases item with
  | record item =>
    rw [decoderLines] at h
    split at h
    · rename_i hdecodes
      rw [decoderLines, if_pos hdecodes]
      refine ⟨_, rfl, ?_, ?_⟩
      · exact ⟨_, (List.prefix_append _ _).isInfix.trans (List.prefix_append _ _).isInfix⟩
      · exact ⟨_, (List.suffix_append _ _).isInfix⟩
    · exact absurd rfl h
  | enum item =>
    refine ⟨_, rfl, ?_, ?_⟩
    · exact ⟨_, (List.suffix_append _ _).isInfix.trans
        ((List.prefix_append _ _).isInfix.trans (List.prefix_append _ _).isInfix)⟩
    · exact ⟨_, (List.suffix_append _ _).isInfix⟩

theorem mem_lines_declaration (item : TypeItem) :
    "pub struct " ++ item.name ++ " \x7b" ∈ item.lines ∨
      "pub enum " ++ item.name ++ " \x7b" ∈ item.lines := by
  cases item with
  | record item =>
    left
    have hstruct : "pub struct " ++ item.name ++ " \x7b" ∈ item.structLines :=
      List.mem_cons_of_mem _ List.mem_cons_self
    simp only [lines, RecordItem.lines, name, List.mem_append]
    exact .inl (.inl (.inl (.inr hstruct)))
  | enum item =>
    right
    have henum : "pub enum " ++ item.name ++ " \x7b" ∈ item.declarationLines :=
      List.mem_cons_of_mem _ (List.mem_cons_of_mem _ List.mem_cons_self)
    simp only [lines, EnumItem.lines, name, List.mem_append]
    exact .inl (.inl (.inl (.inl (.inl (.inl (.inr henum))))))

/-- An item whose decoder is read back declares the type with both functions. -/
theorem declaresDecoders {item : TypeItem} {decoder : DecoderItem}
    (h : item.decoder? = some decoder) : item.DeclaresDecoders decoder.type := by
  obtain ⟨body, hlines, hfunctions⟩ := decoderLines_eq_braces (decoderLines_ne_nil h)
  have htype : decoder.type = item.name := by
    rw [decoder?, hlines] at h
    exact DecoderText.type_of_item? h
  rw [htype]
  exact ⟨item.mem_lines_declaration, body, hlines ▸ item.decoderLines_infix, hfunctions⟩

end TypeItem

/-- Only the methods of readonly endpoints send queries. -/
theorem Contract.readonly_of_query {contract : Contract} {options : GenerationOptions}
    {endpoint : Endpoint} {method : Method} (h : contract.method options endpoint = .ok method)
    {outputs : List OutputStatement} {decodes : Bool} {result : String}
    (hbody : method.body = .query outputs decodes result) : endpoint.kind = .readonly := by
  rw [Contract.method, Method.ofEndpoint] at h
  obtain ⟨body, hmade, h⟩ := of_bind_eq_ok h
  obtain rfl := Except.ok.inj h
  obtain rfl : body = .query outputs decodes result := hbody
  rw [Endpoint.methodBody] at hmade
  split at hmade
  · cases hmade
  · assumption

namespace Contract.Models

variable {contract : Contract} {document : Document} {session : Session} {type : ResolvedType}
  {options : GenerationOptions} {file : SourceFile}

theorem exists_decoder_named (h : contract.Models document session) {name : String}
    {docs : List String} {item : TypeItem}
    (hmade : contract.typeItem? options name docs = .ok (some item)) :
    ∃ decoder, item.decoder? = some decoder := by
  cases hrecord : contract.catalog.records.get? name with
  | some fields =>
    obtain ⟨other, hsome, hread⟩ := h.decoder?_record hrecord hmade
    obtain rfl := Option.some.inj hsome
    exact ⟨_, hread⟩
  | none =>
    cases henum : contract.catalog.enums.get? name with
    | some variants =>
      obtain ⟨other, hsome, hread⟩ := decoder?_enum hrecord henum hmade
      obtain rfl := Option.some.inj hsome
      exact ⟨_, hread⟩
    | none =>
      rw [typeItem?, hrecord, henum] at hmade
      cases hmade

/-- A composite with an implementation has only fields with a byte layout. -/
theorem nested_of_decoderLines {name : String} {fields : List Field} {item : TypeItem}
    (hmade : contract.compositeItem name fields = .ok item) (hlines : item.decoderLines ≠ []) :
    ∀ field ∈ fields, checkNested field.type = .ok () := by
  rw [compositeItem] at hmade
  obtain ⟨recordItem, hrecord, hmade⟩ := of_bind_eq_ok hmade
  obtain rfl := Except.ok.inj hmade
  rw [TypeItem.decoderLines, (recordItem_of_ofFields hrecord).2] at hlines
  split at hlines
  · rename_i hall
    exact fun field hfield => isNestable_iff.1 (List.all_eq_true.1 hall field hfield)
  · exact absurd rfl hlines

/-- Every decoder that the catalog calls for is declared in the file. -/
theorem decodersIn_file (h : contract.Models document session)
    (hfile : contract.sourceFile options = .ok file) :
    contract.catalog.DecodersIn file.DeclaresDecoders := by
  intro decoder hdecoder
  have hmem := (h.mem_decoders_iff hfile).2 hdecoder
  obtain ⟨item, hitem, hread⟩ := List.mem_filterMap.1 hmem
  exact ⟨item, hitem, TypeItem.declaresDecoders hread⟩

variable {declared : String → Prop}

theorem declared_record (h : contract.Models document session)
    (hdeclared : contract.catalog.DecodersIn declared) {name : String}
    (hadmits : session.context.Admits document.types (.record name)) :
    declared (Identifier.type name) := by
  obtain ⟨fields, hget⟩ := h.exists_record hadmits.grounded
  exact hdeclared _ (.record hget)

theorem declared_enum (h : contract.Models document session)
    (hdeclared : contract.catalog.DecodersIn declared) {name : String}
    (hadmits : session.context.Admits document.types (.enum name)) :
    declared (Identifier.type name) := by
  obtain ⟨variants, hget⟩ := h.exists_enum hadmits.grounded
  exact hdeclared _ (.enum hget)

/-- A tuple that was checked has only fields with a byte layout, so its composite has a decoder. -/
theorem declared_tuple (h : contract.Models document session)
    (hdeclared : contract.catalog.DecodersIn declared) {name : String} {members : List ResolvedType}
    (hnested : session.context.AdmitsNested document.types (.tuple name members)) :
    declared name := by
  have hentry := NameMap.get?_eq_some_iff.1 (h.get?_composite hnested.admitted)
  have hidentifier := (h.composite_identifier (NameMap.mem_names_of_mem hentry)).1
  have hfields : ∀ field ∈ memberFields members, checkNested field.type = .ok () :=
    fun field hfield => (hnested.tuple _ (type_mem_of_mem_memberFields hfield)).nested
  have hcomposite : declared (Identifier.type name) := hdeclared _ (.composite hentry hfields)
  rwa [hidentifier] at hcomposite

theorem callsOnly_nested (h : contract.Models document session)
    (hdeclared : contract.catalog.DecodersIn declared)
    (htype : session.context.AdmitsNested document.types type) :
    (NestedReader.ofType type).CallsOnly declared := by
  induction type using ResolvedType.memberInduction with
  | primitive kind => exact trivial
  | record name => exact h.declared_record hdeclared htype.admitted
  | enum name => exact h.declared_enum hdeclared htype.admitted
  | tuple name members _ => exact h.declared_tuple hdeclared htype
  | list element ih => exact ih htype.list
  | variadic element _ => cases htype.nested
  | variadicMulti name members _ => cases htype.nested
  | multi name members _ => cases htype.nested

theorem callsOnly_slot (h : contract.Models document session)
    (hdeclared : contract.catalog.DecodersIn declared)
    (hadmits : session.context.Admits document.types type) (hcheck : checkTopLevel type = .ok ())
    {decoder : SlotDecoder} (hdecoder : SlotDecoder.ofType type = .ok decoder) :
    decoder.CallsOnly declared := by
  cases type with
  | primitive kind =>
    obtain rfl := Except.ok.inj hdecoder
    exact trivial
  | record name =>
    obtain rfl := Except.ok.inj hdecoder
    exact h.declared_record hdeclared hadmits
  | enum name =>
    obtain rfl := Except.ok.inj hdecoder
    exact h.declared_enum hdeclared hadmits
  | tuple name members =>
    obtain rfl := Except.ok.inj hdecoder
    exact h.declared_tuple hdeclared ⟨hadmits, hcheck⟩
  | _ => cases hcheck

theorem callsOnly_member (h : contract.Models document session)
    (hdeclared : contract.catalog.DecodersIn declared)
    (hadmits : session.context.Admits document.types type) (hcheck : checkGroupMember type = .ok ())
    {decoder : MemberDecoder} (hdecoder : MemberDecoder.ofType type = .ok decoder) :
    decoder.CallsOnly declared := by
  rcases member_cases hcheck hdecoder with
    ⟨element, rfl, -, hnested, rfl⟩ | ⟨hslot, ⟨slot, hmade, rfl⟩, -⟩
  · exact h.callsOnly_nested hdeclared ⟨hadmits.list, hnested⟩
  · exact h.callsOnly_slot hdeclared hadmits hslot hmade

theorem callsOnly_group (h : contract.Models document session)
    (hdeclared : contract.catalog.DecodersIn declared)
    {name : String} {members : List ResolvedType}
    (hadmits : ∀ m ∈ members, session.context.Admits document.types m)
    (hcheck : checkGroup members = .ok ()) {decoder : GroupDecoder}
    (hdecoder : GroupDecoder.ofMembers name members = .ok decoder) :
    ∀ member ∈ decoder.members, member.CallsOnly declared := by
  intro member hmember
  obtain ⟨-, hmade⟩ := groupDecoder_of_ofMembers hdecoder
  obtain ⟨part, hpart, hmade⟩ := exists_of_forall₂_right hmade hmember
  exact h.callsOnly_member hdeclared (hadmits part hpart) (checkGroup_iff.1 hcheck part hpart) hmade

theorem callsOnly_output (h : contract.Models document session)
    (hdeclared : contract.catalog.DecodersIn declared)
    (hadmits : session.context.Admits document.types type) {strategy : Strategy}
    (hsuits : Strategy.Suits type strategy) {decoder : OutputDecoder}
    (hdecoder : OutputDecoder.ofOutput strategy type = .ok decoder) :
    decoder.CallsOnly declared := by
  cases hsuits with
  | packed hrecord hcheck =>
    obtain rfl := Except.ok.inj hdecoder
    exact h.callsOnly_nested hdeclared ⟨hadmits.list, hcheck⟩
  | spread hrecord hcheck =>
    obtain ⟨slot, hslot, hdecoder⟩ := of_bind_eq_ok hdecoder
    obtain rfl := Except.ok.inj hdecoder
    exact h.callsOnly_slot hdeclared hadmits.list hcheck hslot
  | variadic hcheck =>
    obtain ⟨slot, hslot, hdecoder⟩ := of_bind_eq_ok hdecoder
    obtain rfl := Except.ok.inj hdecoder
    exact h.callsOnly_slot hdeclared hadmits.variadic hcheck hslot
  | groups hcheck =>
    obtain ⟨group, hgroup, hdecoder⟩ := of_bind_eq_ok hdecoder
    obtain rfl := Except.ok.inj hdecoder
    exact h.callsOnly_group hdeclared hadmits.variadicMulti hcheck hgroup
  | group hcheck =>
    obtain ⟨group, hgroup, hdecoder⟩ := of_bind_eq_ok hdecoder
    obtain rfl := Except.ok.inj hdecoder
    exact h.callsOnly_group hdeclared hadmits.multi hcheck hgroup
  | scalar htop hcheck =>
    obtain ⟨slot, hslot, hdecoder⟩ := of_bind_eq_ok hdecoder
    obtain rfl := Except.ok.inj hdecoder
    exact h.callsOnly_slot hdeclared hadmits hcheck hslot

theorem callsOnly_statements (h : contract.Models document session)
    (hdeclared : contract.catalog.DecodersIn declared)
    {outputs : List (ResolvedType × OutputPlan)}
    (htypes : ∀ output ∈ outputs, session.context.Admits document.types output.1 ∧
      Strategy.Suits output.1 output.2.strategy)
    {index : Nat} {statements : List OutputStatement}
    (hstatements : outputStatements index outputs = .ok statements) :
    ∀ statement ∈ statements, statement.decoder.CallsOnly declared := by
  induction outputs generalizing index statements with
  | nil =>
    obtain rfl := Except.ok.inj hstatements
    exact fun _ hmem => absurd hmem List.not_mem_nil
  | cons output rest ih =>
    obtain ⟨type, plan⟩ := output
    obtain ⟨decoder, others, hdecoder, hrest, rfl⟩ := outputStatements_cons hstatements
    obtain ⟨hadmits, hsuits⟩ := htypes (type, plan) List.mem_cons_self
    intro statement hstatement
    rcases List.mem_cons.1 hstatement with rfl | hstatement
    · exact h.callsOnly_output hdeclared hadmits hsuits hdecoder
    · exact ih (fun output hmem => htypes output (List.mem_cons_of_mem _ hmem)) hrest statement
        hstatement

/-- The decoder of a declaration reads its fields with declared decoders. -/
theorem callsOnly_decoder (h : contract.Models document session)
    (hdeclared : contract.catalog.DecodersIn declared)
    {decoder : DecoderItem} (hdecoder : contract.catalog.HasDecoder decoder) :
    decoder.CallsOnly declared := by
  have hstruct : ∀ {name : String} {fields : List Field},
      (∀ field ∈ fields, session.context.AdmitsNested document.types field.type) →
      (DecoderItem.ofStruct name fields).CallsOnly declared := by
    intro name fields hfields entry hentry
    obtain ⟨field, hfield, rfl⟩ := List.mem_map.1 hentry
    exact h.callsOnly_nested hdeclared (hfields field hfield)
  cases hdecoder with
  | record hget => exact hstruct (h.admitsNested_record hget)
  | enum hget => exact trivial
  | composite hentry hnested => exact hstruct (h.admitsNested_composite hentry hnested)

/-- Whatever implementation an item has is read back from its lines. -/
theorem exists_decoder (h : contract.Models document session)
    (hfile : contract.sourceFile options = .ok file) {item : TypeItem} (hitem : item ∈ file.types)
    (hlines : item.decoderLines ≠ []) : ∃ decoder, item.decoder? = some decoder := by
  obtain ⟨named, composites, hnamed, hcomposites, -, htypes⟩ := exists_parts hfile
  rw [htypes] at hitem
  rcases List.mem_append.1 hitem with hitem | hitem
  · obtain ⟨result, hresult, rfl⟩ := List.mem_filterMap.1 hitem
    obtain ⟨entry, -, hmade⟩ := exists_of_forall₂_right (forall₂_of_mapM hnamed) hresult
    exact h.exists_decoder_named hmade
  · obtain ⟨entry, hentry, hmade⟩ := exists_of_forall₂_right (forall₂_of_mapM hcomposites) hitem
    exact ⟨_, (h.decoder?_composite hentry hmade _).2 ⟨nested_of_decoderLines hmade hlines, rfl⟩⟩

/-- A generated file declares every decoder that it calls. -/
theorem callsDeclared (h : contract.Models document session)
    (hfile : contract.sourceFile options = .ok file) : file.CallsDeclared := by
  have hdeclared := h.decodersIn_file hfile
  obtain ⟨named, composites, hnamed, hcomposites, hmethods, htypes⟩ := exists_parts hfile
  constructor
  · intro method hmethod outputs decodes result hbody
    obtain ⟨endpoint, hendpoint, hmade⟩ :=
      exists_of_forall₂_right (forall₂_of_mapM hmethods) hmethod
    have hkind : endpoint.kind = .readonly := Contract.readonly_of_query hmade hbody
    obtain ⟨-, statements, other, hstatements, hquery⟩ := Contract.query_of_method hmade hkind
    rw [hbody] at hquery
    obtain ⟨rfl, -, -⟩ := MethodBody.query.inj hquery
    obtain ⟨-, hsuits⟩ := (h.endpoints endpoint hendpoint).suits hkind
    exact ⟨Method.statements_query hbody (h.context.plain_statements hsuits hstatements),
      h.callsOnly_statements hdeclared hsuits hstatements⟩
  · intro item hitem hlines
    obtain ⟨decoder, hread⟩ := h.exists_decoder hfile hitem hlines
    refine ⟨decoder, hread, h.callsOnly_decoder hdeclared ?_⟩
    exact (h.mem_decoders_iff hfile).1 (List.mem_filterMap.2 ⟨item, hitem, hread⟩)

end Contract.Models

/-- Generation fails just when there is no model of the document, and with the same fault. The
generated file declares, with both functions, every decoder that its methods and decoders call. -/
theorem generation_declares_what_it_calls (document : Document) (policy : EndpointPolicy)
    (options : GenerationOptions) :
    match Contract.ofDocument policy document with
    | .error fault => document.convert policy options = .error fault
    | .ok contract => ∃ file, contract.sourceFile options = .ok file ∧
        document.convert policy options = .ok ⟨contract, file.text⟩ ∧ file.CallsDeclared := by
  rw [Document.convert]
  cases hcontract : Contract.ofDocument policy document with
  | error fault => rfl
  | ok contract =>
    obtain ⟨session, hmodels⟩ := Contract.exists_models hcontract
    obtain ⟨file, hfile⟩ := hmodels.exists_sourceFile options
    refine ⟨file, hfile, ?_, hmodels.callsDeclared hfile⟩
    change contract.sourceFile options >>= _ = _
    rw [hfile]
    rfl

end ContractAbi
