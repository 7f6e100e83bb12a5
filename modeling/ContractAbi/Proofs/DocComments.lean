import ContractAbi.Proofs.AcceptedEndpoints
import ContractAbi.Proofs.DecoderCalls
import ContractAbi.Proofs.Paths
import ContractAbi.Proofs.WrittenModules

/-!
# Comments from documentation

Documentation comes into generated code as comments between lines that are there without it. An entry
is trimmed and marked once, at its front. So the lines behind the first one of an entry with line
breaks in it are comments only if they start like one by themselves.
-/
namespace ContractAbi

open Code (Lines)

namespace Text

def isBreak (c : Char) : Bool :=
  c = '\n'

/-- The lines of a text, each of which ends in a break. -/
def brokenLines (text : String) : List (List Char) :=
  (split isBreak text.toList).dropLast

theorem toList_unlines_cons (line : String) (rest : List String) :
    (unlines (line :: rest)).toList = line.toList ++ '\n' :: (unlines rest).toList := by
  rw [unlines, List.map_cons, String.join_cons, String.toList_append, String.toList_append, ← unlines,
    List.append_assoc]
  rfl

theorem split_unlines (lines : List String) :
    split isBreak (unlines lines).toList = lines.flatMap (split isBreak ·.toList) ++ [[]] := by
  induction lines with
  | nil => rfl
  | cons line rest ih =>
    rw [toList_unlines_cons, split_append_mark rfl, ih, List.flatMap_cons, List.append_assoc]

theorem brokenLines_unlines (lines : List String) :
    brokenLines (unlines lines) = lines.flatMap (split isBreak ·.toList) := by
  rw [brokenLines, split_unlines, List.dropLast_concat]

/-- Text without a break in front of another one becomes part of its first line. -/
theorem split_append_of_unmarked {isMark : Char → Bool} {front : List Char}
    (h : ∀ c ∈ front, isMark c = false) (text : List Char) :
    split isMark (front ++ text) =
      (front ++ (split isMark text).headD []) :: (split isMark text).tail := by
  induction front with
  | nil =>
    obtain ⟨first, rest, hsplit⟩ := List.exists_cons_of_ne_nil (split_ne_nil isMark text)
    rw [List.nil_append, hsplit]
    rfl
  | cons c front ih =>
    rw [List.cons_append, split, h c List.mem_cons_self,
      ih fun other hother => h other (List.mem_cons_of_mem _ hother)]
    rfl

theorem trimEnd_of_allBlank {text : List Char} (h : allBlank text = true) : trimEnd text = [] := by
  have hall : ∀ c ∈ text.reverse, isBlank c = true := fun c hc =>
    List.all_eq_true.1 h c (List.mem_reverse.1 hc)
  rw [trimEnd, List.dropWhile_eq_nil_iff.2 hall]
  rfl

end Text

theorem docLine_ne_empty (entry : String) : docLine entry ≠ "" := by
  rw [docLine]
  split
  · decide
  · intro h
    exact absurd (String.append_eq_empty_iff.1 h).1 (by decide)

/-- A comment made from documentation. -/
structure DocComment where
  level : Nat
  docs : List String
  /-- Whether a note follows, which an empty line of the comment sets apart. -/
  hasNote : Bool

namespace DocComment

def entries (comment : DocComment) : List String :=
  comment.docs ++ if comment.hasNote && !comment.docs.isEmpty then [""] else []

def lines (comment : DocComment) : Lines :=
  (docLines comment.entries).map (Code.indent comment.level)

/-- What every line of the comment should start with. -/
def margin (comment : DocComment) : List Char :=
  List.replicate comment.level ' ' ++ "///".toList

/-- Every line of the text that the comment adds to the source is a comment. -/
def IsCommentOnly (comment : DocComment) : Prop :=
  ∀ line ∈ Text.brokenLines (Code.render comment.lines), comment.margin <+: line

/-- The lines of an entry behind its first one, as far as it is not trimmed. -/
def furtherLines (entry : String) : List (List Char) :=
  (Text.split Text.isBreak (Text.trimEnd entry.toList)).tail

theorem mem_entries {comment : DocComment} {entry : String} (h : entry ∈ comment.entries) :
    entry ∈ comment.docs ∨ entry = "" := by
  rcases List.mem_append.1 h with h | h
  · exact .inl h
  · split at h
    · exact .inr (List.mem_singleton.1 h)
    · exact absurd h List.not_mem_nil

theorem brokenLines_render (comment : DocComment) :
    Text.brokenLines (Code.render comment.lines) = comment.entries.flatMap fun entry =>
      Text.split Text.isBreak (Code.indent comment.level (docLine entry)).toList := by
  rw [Code.render, Text.brokenLines_unlines, lines, docLines, List.map_map, List.flatMap_map]
  rfl

theorem isBreak_of_mem_margin (comment : DocComment) : ∀ c ∈ comment.margin, Text.isBreak c = false := by
  intro c hc
  rcases List.mem_append.1 hc with hc | hc
  · rw [List.eq_of_mem_replicate hc]
    rfl
  · obtain rfl : c = '/' := by simpa using hc
    rfl

/-- The first line of an entry starts like a comment, whatever the entry is. -/
theorem exists_first (comment : DocComment) (entry : String) :
    ∃ first, Text.split Text.isBreak (Code.indent comment.level (docLine entry)).toList =
      (comment.margin ++ first) :: furtherLines entry := by
  have hmargin := comment.isBreak_of_mem_margin
  cases hblank : Text.allBlank entry.toList with
  | true =>
    have hlist : (Code.indent comment.level (docLine entry)).toList = comment.margin := by
      rw [docLine, if_pos hblank, Code.indent, String.toList_append, String.toList_ofList]
      rfl
    refine ⟨[], ?_⟩
    rw [hlist, Text.split_of_unmarked hmargin, furtherLines, Text.trimEnd_of_allBlank hblank,
      List.append_nil]
    rfl
  | false =>
    have hlist : (Code.indent comment.level (docLine entry)).toList =
        (comment.margin ++ [' ']) ++ Text.trimEnd entry.toList := by
      rw [docLine, if_neg (by simp [hblank]), Code.indent, String.toList_append, String.toList_append,
        String.toList_ofList, String.toList_ofList, margin]
      simp
    have hfront : ∀ c ∈ comment.margin ++ [' '], Text.isBreak c = false := by
      intro c hc
      rcases List.mem_append.1 hc with hc | hc
      · exact hmargin c hc
      · rw [List.mem_singleton.1 hc]
        rfl
    refine ⟨' ' :: (Text.split Text.isBreak (Text.trimEnd entry.toList)).headD [], ?_⟩
    rw [hlist, Text.split_append_of_unmarked hfront, furtherLines, List.append_assoc]
    rfl

/-- A comment is nothing else exactly if the lines that its entries have behind their first ones start
like a comment as they are. -/
theorem isCommentOnly_iff (comment : DocComment) :
    comment.IsCommentOnly ↔
      ∀ entry ∈ comment.docs, ∀ line ∈ furtherLines entry, comment.margin <+: line := by
  rw [IsCommentOnly, brokenLines_render]
  constructor
  · intro h entry hentry line hline
    obtain ⟨first, hfirst⟩ := comment.exists_first entry
    refine h line (List.mem_flatMap.2 ⟨entry, List.mem_append_left _ hentry, ?_⟩)
    rw [hfirst]
    exact List.mem_cons_of_mem _ hline
  · intro h line hline
    obtain ⟨entry, hentry, hline⟩ := List.mem_flatMap.1 hline
    obtain ⟨first, hfirst⟩ := comment.exists_first entry
    rw [hfirst] at hline
    rcases List.mem_cons.1 hline with rfl | hline
    · exact List.prefix_append _ _
    · rcases mem_entries hentry with hentry | rfl
      · exact h entry hentry line hline
      · exact absurd hline List.not_mem_nil

/-- Entries that have no break inside them become comments. -/
theorem isCommentOnly_of_unbroken {comment : DocComment}
    (h : ∀ entry ∈ comment.docs, ∀ c ∈ Text.trimEnd entry.toList, Text.isBreak c = false) :
    comment.IsCommentOnly := by
  refine comment.isCommentOnly_iff.2 fun entry hentry line hline => ?_
  rw [furtherLines, Text.split_of_unmarked (h entry hentry)] at hline
  exact absurd hline List.not_mem_nil

/-- The comment in a block. -/
def nested (comment : DocComment) : DocComment :=
  { comment with level := comment.level + 2 }

theorem lines_nested (comment : DocComment) : comment.nested.lines = Code.nest comment.lines := by
  rw [Code.nest, lines, lines, docLines, docLines, List.map_map, List.map_map, List.map_map]
  refine List.map_congr_left fun entry _ => ?_
  have hne : (Code.indent comment.level (docLine entry)).isEmpty = false := by
    rw [Code.indent, String.isEmpty_eq_false_iff]
    intro hempty
    exact docLine_ne_empty entry (String.append_eq_empty_iff.1 hempty).2
  have hmargin : List.replicate (comment.level + 2) ' ' =
      List.replicate 2 ' ' ++ List.replicate comment.level ' ' := by
    rw [List.replicate_append_replicate, Nat.add_comm]
  simp only [Function.comp_apply]
  rw [Code.nestLine, if_neg (ne_true_of_eq_false hne), nested, Code.indent, hmargin,
    String.ofList_append, String.append_assoc]
  rfl

end DocComment

/-- Lines with comments put between lines of code. -/
inductive Weaves : List DocComment → Lines → Lines → Prop
  | nil : Weaves [] [] []
  | code {comments : List DocComment} {documented plain : Lines} (line : String)
      (h : Weaves comments documented plain) : Weaves comments (line :: documented) (line :: plain)
  | comment {comments : List DocComment} {documented plain : Lines} (comment : DocComment)
      (h : Weaves comments documented plain) :
      Weaves (comment :: comments) (comment.lines ++ documented) plain

namespace Weaves

variable {comments others : List DocComment} {documented plain documented' plain' : Lines}

theorem append (h : Weaves comments documented plain) (h' : Weaves others documented' plain') :
    Weaves (comments ++ others) (documented ++ documented') (plain ++ plain') := by
  induction h with
  | nil => exact h'
  | code line _ ih => exact .code line ih
  | comment comment _ ih =>
    rw [List.append_assoc]
    exact .comment comment ih

theorem lines (lines : Lines) : Weaves [] lines lines := by
  induction lines with
  | nil => exact .nil
  | cons line _ ih => exact .code line ih

/-- Nested lines have nested comments between them. -/
theorem nest (h : Weaves comments documented plain) :
    Weaves (comments.map .nested) (Code.nest documented) (Code.nest plain) := by
  induction h with
  | nil => exact .nil
  | code line _ ih => exact .code _ ih
  | comment comment _ ih =>
    rw [Code.nest, List.map_append, ← Code.nest, ← comment.lines_nested]
    exact .comment _ ih

theorem braces (h : Weaves comments documented plain) (head : String) :
    Weaves (comments.map .nested) (Code.braces head documented) (Code.braces head plain) := by
  have hclosed := ((Weaves.lines [head ++ " \x7b"]).append h.nest).append (.lines ["\x7d"])
  rwa [List.append_nil] at hclosed

/-- Lists that are made of one list have the comments of its items between their lines. -/
theorem flatMap_of_mapM {ε α β : Type} {parts : List α} {f g : α → Except ε β} {results bare : List β}
    (hf : parts.mapM f = .ok results) (hg : parts.mapM g = .ok bare) {made : α → List DocComment}
    {text : β → Lines}
    (h : ∀ part ∈ parts, ∀ result other, f part = .ok result → g part = .ok other →
      Weaves (made part) (text result) (text other)) :
    Weaves (parts.flatMap made) (results.flatMap text) (bare.flatMap text) := by
  induction parts generalizing results bare with
  | nil =>
    obtain rfl := Except.ok.inj hf
    obtain rfl := Except.ok.inj hg
    exact .nil
  | cons part rest ih =>
    rw [List.mapM_cons] at hf hg
    obtain ⟨result, hresult, hf⟩ := of_bind_eq_ok hf
    obtain ⟨results, hresults, hf⟩ := of_bind_eq_ok hf
    obtain rfl := Except.ok.inj hf
    obtain ⟨other, hother, hg⟩ := of_bind_eq_ok hg
    obtain ⟨others, hothers, hg⟩ := of_bind_eq_ok hg
    obtain rfl := Except.ok.inj hg
    exact (h part List.mem_cons_self result other hresult hother).append
      (ih hresults hothers fun part hpart => h part (List.mem_cons_of_mem _ hpart))

end Weaves

/-- What a comment of the outermost level looks like. -/
theorem DocComment.lines_outermost (docs : List String) (hasNote : Bool) :
    (DocComment.mk 0 docs hasNote).lines =
      docLines docs ++ if hasNote && !docs.isEmpty then ["///"] else [] := by
  have hindent : Code.indent 0 = id := funext fun line => by
    rw [Code.indent, List.replicate_zero, String.ofList_nil, String.empty_append, id]
  rw [lines, hindent, List.map_id, entries, docLines, List.map_append]
  cases hasNote && !docs.isEmpty <;> rfl

/-- Lines with a comment in front of them. -/
theorem Weaves.ahead {docs : List String} {documented plain : Lines} (code : Lines)
    (hdocumented : documented = docLines docs ++ code) (hplain : plain = code) :
    Weaves [⟨0, docs, false⟩] documented plain := by
  have hlines : (DocComment.mk 0 docs false).lines = docLines docs := by
    rw [DocComment.lines_outermost, Bool.false_and, if_neg Bool.false_ne_true, List.append_nil]
  rw [hdocumented, hplain, ← hlines]
  exact .comment _ (.lines code)

namespace TypeItem

def docs : TypeItem → List String
  | .record item => item.docs
  | .enum item => item.docs

/-- The declaration without documentation. -/
def plain : TypeItem → TypeItem
  | .record item => .record { item with docs := [] }
  | .enum item => .enum { item with docs := [] }

theorem weaves (item : TypeItem) : Weaves [⟨0, item.docs, false⟩] item.lines item.plain.lines := by
  cases item with
  | record item =>
    refine .ahead (item.structLines ++ [""] ++
      (if item.hasDecoders then item.decoderLines ++ [""] else []) ++ item.zeroLines) ?_ rfl
    simp only [lines, RecordItem.lines, docs, List.append_assoc]
  | enum item =>
    refine .ahead (item.declarationLines ++ [""] ++ item.decoderLines ++ [""] ++
      item.zeroLines ++ [""] ++ item.argumentLines) ?_ rfl
    simp only [lines, EnumItem.lines, docs, List.append_assoc]

end TypeItem

namespace Method

def plain (method : Method) : Method :=
  { method with docs := [] }

theorem weaves (method : Method) :
    Weaves [⟨0, method.docs, method.onlyOwner⟩] method.lines method.plain.lines := by
  have hcomment : method.commentLines = (DocComment.mk 0 method.docs method.onlyOwner).lines ++
      if method.onlyOwner then [ownerNote] else [] := by
    rw [commentLines, DocComment.lines_outermost]
    cases method.onlyOwner <;> cases method.docs <;> simp
  have hplain : method.plain.commentLines = if method.onlyOwner then [ownerNote] else [] := by
    rw [commentLines, plain]
    cases method.onlyOwner <;> rfl
  rw [lines, lines, hcomment, hplain, List.append_assoc]
  exact .comment _ (.lines _)

end Method

theorem ClientItem.weaves {client : ClientItem} {methods : List Method} {comments : List DocComment}
    (hmethods : Weaves comments (client.methods.flatMap fun method => "" :: method.lines)
      (methods.flatMap fun method => "" :: method.lines)) :
    Weaves (⟨0, client.docs, false⟩ :: comments.map .nested) client.lines
      { client with docs := [], methods }.lines := by
  have hstruct : Weaves [⟨0, client.docs, false⟩] client.structLines
      { client with docs := [], methods }.structLines := by
    refine .ahead (["/// Client for the \x60" ++ client.contract ++ "\x60 contract."] ++
      Code.braces ("pub struct " ++ client.name ++ "<T>")
        ["transport: T,", "contract_address: String,"]) ?_ rfl
    rw [structLines, List.append_assoc]
  have hbody := ((Weaves.lines accessLines).append hmethods).braces
    ("impl<T: NetworkTransport> " ++ client.name ++ "<T>")
  exact (hstruct.append (.lines [""])).append hbody

namespace GenerationOptions

/-- The same options without documentation. -/
def plain (options : GenerationOptions) : GenerationOptions :=
  { options with emitDocs := false }

end GenerationOptions

namespace Contract

variable {contract : Contract} {document : Document} {session : Session} {options : GenerationOptions}

theorem typeItem?_plain {name : String} {docs : List String} {item? : Option TypeItem}
    (h : contract.typeItem? options name docs = .ok item?) :
    contract.typeItem? options.plain name docs = .ok (item?.map .plain) ∧
      ∀ item ∈ item?, item.docs = options.docs docs := by
  rw [typeItem?] at h ⊢
  cases hrecord : contract.catalog.records.get? name with
  | some fields =>
    simp only [hrecord] at h ⊢
    obtain ⟨record, hmade, h⟩ := of_bind_eq_ok h
    obtain ⟨items, hitems, hmade⟩ := of_bind_eq_ok hmade
    obtain rfl := Except.ok.inj hmade
    obtain rfl := Except.ok.inj h
    refine ⟨?_, fun item hitem => ?_⟩
    · rw [RecordItem.ofFields, hitems]
      rfl
    · rw [← Option.mem_some_iff.1 hitem]
      rfl
  | none =>
    cases henum : contract.catalog.enums.get? name with
    | some variants =>
      simp only [hrecord, henum] at h ⊢
      obtain ⟨enum, hmade, h⟩ := of_bind_eq_ok h
      obtain rfl := Except.ok.inj h
      rw [EnumItem.ofVariants] at hmade
      cases hdefault : Catalog.defaultVariant? variants with
      | none =>
        rw [hdefault] at hmade
        cases hmade
      | some variant =>
        rw [hdefault] at hmade
        obtain rfl := Except.ok.inj hmade
        refine ⟨?_, fun item hitem => ?_⟩
        · rw [EnumItem.ofVariants, hdefault]
          rfl
        · rw [← Option.mem_some_iff.1 hitem]
          rfl
    | none =>
      simp only [hrecord, henum] at h ⊢
      obtain rfl := Except.ok.inj h
      exact ⟨rfl, fun _ hitem => absurd hitem (Option.not_mem_none _)⟩

/-- Every named type of the document is declared. -/
theorem Models.exists_typeItem_eq_some (h : contract.Models document session) {entry : String × List String}
    (hentry : entry ∈ contract.typeDocs.entries) {item? : Option TypeItem}
    (hitem : contract.typeItem? options entry.1 entry.2 = .ok item?) : ∃ item, item? = some item := by
  rw [h.typeDocs] at hentry
  obtain ⟨⟨name, definition⟩, hmem, rfl⟩ := List.mem_map.1 hentry
  have hdeclares := h.declares name definition (NameMap.get?_eq_some_iff.2 hmem)
  rw [typeItem?] at hitem
  cases hrecord : contract.catalog.records.get? name with
  | some fields =>
    simp only [hrecord] at hitem
    obtain ⟨record, -, hitem⟩ := of_bind_eq_ok hitem
    exact ⟨_, (Except.ok.inj hitem).symm⟩
  | none =>
    cases henum : contract.catalog.enums.get? name with
    | some variants =>
      simp only [hrecord, henum] at hitem
      obtain ⟨enum, -, hitem⟩ := of_bind_eq_ok hitem
      exact ⟨_, (Except.ok.inj hitem).symm⟩
    | none =>
      rw [h.catalog] at hrecord henum
      cases definition with
      | record => exact absurd hdeclares (NameMap.get?_eq_none_iff.1 hrecord)
      | enum => exact absurd hdeclares (NameMap.get?_eq_none_iff.1 henum)

theorem method_plain {endpoint : Endpoint} {method : Method}
    (h : contract.method options endpoint = .ok method) :
    contract.method options.plain endpoint = .ok method.plain ∧
      method.docs = options.docs endpoint.docs ∧ method.onlyOwner = endpoint.onlyOwner := by
  obtain ⟨body, hbody, h⟩ := of_bind_eq_ok h
  obtain rfl := Except.ok.inj h
  refine ⟨?_, rfl, rfl⟩
  have hplain : Endpoint.methodBody { endpoint with docs := options.plain.docs endpoint.docs } = .ok body :=
    hbody
  rw [method, Method.ofEndpoint, hplain]
  rfl

/-- The comments of a generated file, in order. -/
def docComments (contract : Contract) : List DocComment :=
  contract.typeDocs.entries.map (fun entry => ⟨0, entry.2, false⟩) ++
    ⟨0, contract.docs, false⟩ ::
      contract.endpoints.map fun endpoint => ⟨2, endpoint.docs, endpoint.onlyOwner⟩

def itemLines (item : TypeItem) : Lines :=
  "" :: item.lines

theorem flatMap_filterMap_id (items : List (Option TypeItem)) :
    (items.filterMap id).flatMap itemLines = items.flatMap fun item? => (item?.map itemLines).getD [] := by
  induction items with
  | nil => rfl
  | cons item? rest ih =>
    cases item? with
    | none => simpa using ih
    | some item => simpa using ih

theorem Models.weaves_named (h : contract.Models document session) (hdocs : options.emitDocs = true)
    {named bare : List (Option TypeItem)}
    (hnamed : contract.typeDocs.entries.mapM (fun entry => contract.typeItem? options entry.1 entry.2) =
      .ok named)
    (hbare : contract.typeDocs.entries.mapM
      (fun entry => contract.typeItem? options.plain entry.1 entry.2) = .ok bare) :
    Weaves (contract.typeDocs.entries.map fun entry => ⟨0, entry.2, false⟩)
      ((named.filterMap id).flatMap itemLines) ((bare.filterMap id).flatMap itemLines) := by
  rw [flatMap_filterMap_id, flatMap_filterMap_id, List.map_eq_flatMap]
  refine .flatMap_of_mapM hnamed hbare fun entry hentry item? other? hitem hother => ?_
  obtain ⟨item, rfl⟩ := h.exists_typeItem_eq_some hentry hitem
  obtain ⟨hplain, hitemDocs⟩ := typeItem?_plain hitem
  obtain rfl := Except.ok.inj (hother.symm.trans hplain)
  have hentryDocs : item.docs = entry.2 := by
    rw [hitemDocs item rfl, GenerationOptions.docs, if_pos hdocs]
  have hweaves := item.weaves
  rw [hentryDocs] at hweaves
  exact .code "" hweaves

theorem weaves_methods (hdocs : options.emitDocs = true) {methods bare : List Method}
    (hmethods : contract.endpoints.mapM (contract.method options) = .ok methods)
    (hbare : contract.endpoints.mapM (contract.method options.plain) = .ok bare) :
    Weaves (contract.endpoints.map fun endpoint => ⟨0, endpoint.docs, endpoint.onlyOwner⟩)
      (methods.flatMap fun method => "" :: method.lines) (bare.flatMap fun method => "" :: method.lines) := by
  rw [List.map_eq_flatMap]
  refine .flatMap_of_mapM hmethods hbare fun endpoint _ method other hmethod hother => ?_
  obtain ⟨hplain, hmethodDocs, howner⟩ := method_plain hmethod
  obtain rfl := Except.ok.inj (hother.symm.trans hplain)
  rw [GenerationOptions.docs, if_pos hdocs] at hmethodDocs
  have hweaves := method.weaves
  rw [hmethodDocs, howner] at hweaves
  exact .code "" hweaves

/-- A generated file is the one without documentation, with the comments in their places. -/
theorem Models.weaves_sourceFile (h : contract.Models document session) (hdocs : options.emitDocs = true)
    {file bare : SourceFile} (hfile : contract.sourceFile options = .ok file)
    (hbare : contract.sourceFile options.plain = .ok bare) :
    Weaves contract.docComments file.lines bare.lines := by
  rw [sourceFile] at hfile hbare
  obtain ⟨named, hnamed, hfile⟩ := of_bind_eq_ok hfile
  obtain ⟨composites, hcomposites, hfile⟩ := of_bind_eq_ok hfile
  obtain ⟨methods, hmethods, hfile⟩ := of_bind_eq_ok hfile
  obtain rfl := Except.ok.inj hfile
  obtain ⟨bareNamed, hbareNamed, hbare⟩ := of_bind_eq_ok hbare
  obtain ⟨bareComposites, hbareComposites, hbare⟩ := of_bind_eq_ok hbare
  obtain ⟨bareMethods, hbareMethods, hbare⟩ := of_bind_eq_ok hbare
  obtain rfl := Except.ok.inj hbare
  obtain rfl := Except.ok.inj (hcomposites.symm.trans hbareComposites)
  have hcontract : options.docs contract.docs = contract.docs := if_pos hdocs
  have htypes := (h.weaves_named hdocs hnamed hbareNamed).append (.lines (composites.flatMap itemLines))
  have hclient := @ClientItem.weaves ⟨contract.accessorName, contract.name, contract.docs, methods⟩
    bareMethods _ (weaves_methods hdocs hmethods hbareMethods)
  rw [← List.flatMap_append, ← List.flatMap_append, List.append_nil] at htypes
  rw [List.map_map] at hclient
  rw [SourceFile.lines, SourceFile.lines, hcontract, docComments]
  refine Weaves.append ?_ (.code "" hclient)
  have hbefore (front back : Lines) := ((Weaves.lines front).append htypes).append (.lines back)
  simp only [List.append_nil, List.nil_append] at hbefore
  exact hbefore _ _

end Contract

namespace Document

/-- The comments that the documentation of a document becomes: those of its named types, its own, and
those of the endpoints that are taken. -/
def docComments (document : Document) (taken : List EndpointDecl) : List DocComment :=
  document.types.entries.map (fun entry => ⟨0, entry.2.docs, false⟩) ++
    ⟨0, document.docs, false⟩ :: taken.map fun decl => ⟨2, decl.docs, decl.onlyOwner⟩

theorem docComments_of_ofDocument {document : Document} {policy : EndpointPolicy} {contract : Contract}
    {taken : List EndpointDecl} (h : Contract.ofDocument policy document = .ok contract)
    (hstands : List.Forall₂ Endpoint.StandsFor contract.endpoints taken) :
    contract.docComments = document.docComments taken := by
  have hendpoints : (taken.map fun decl => DocComment.mk 2 decl.docs decl.onlyOwner) =
      contract.endpoints.map fun endpoint => ⟨2, endpoint.docs, endpoint.onlyOwner⟩ :=
    map_eq_of_forall₂ hstands fun endpoint _ decl hstand => by rw [hstand.docs, hstand.onlyOwner]
  obtain ⟨session, progress, -, -, rfl⟩ := Contract.exists_run h
  rw [Contract.docComments, docComments, hendpoints]
  refine congrArg (· ++ _) ?_
  rw [Contract.ofProgress, NameMap.mapValues, List.map_map]
  rfl

end Document

/-- What documentation adds to the source of a document that converts are comments, at the named types,
at the client and at the methods, and nothing else in the source depends on it. A comment, whatever its
entries and its level are, consists of comment lines exactly if the lines that its entries have behind
their first ones start like comment lines by themselves. -/
theorem documentation_is_comments_iff {document : Document} {policy : EndpointPolicy}
    {options : GenerationOptions} {conversion : Conversion} (hdocs : options.emitDocs = true)
    (hconvert : document.convert policy options = .ok conversion) :
    (∀ comment : DocComment, comment.IsCommentOnly ↔
      ∀ entry ∈ comment.docs, ∀ line ∈ DocComment.furtherLines entry, comment.margin <+: line) ∧
    ∃ taken bare documented plain, taken.Sublist document.endpoints ∧
      List.Forall₂ Endpoint.StandsFor conversion.contract.endpoints taken ∧
      document.convert policy options.plain = .ok bare ∧
      conversion.source = Code.render documented ∧ bare.source = Code.render plain ∧
      Weaves (document.docComments taken) documented plain := by
  refine ⟨DocComment.isCommentOnly_iff, ?_⟩
  obtain ⟨hcontract, file, hfile, hsource⟩ := Document.of_convert_eq_ok hconvert
  obtain ⟨session, hmodels⟩ := Contract.exists_models hcontract
  obtain ⟨taken, hsublist, hstands⟩ := Contract.exists_declarations hcontract
  obtain ⟨plain, hplain⟩ := hmodels.exists_sourceFile options.plain
  have hbare : document.convert policy options.plain = .ok ⟨conversion.contract, plain.text⟩ := by
    rw [Document.convert, hcontract]
    change (conversion.contract.sourceFile options.plain >>= _) = _
    rw [hplain]
    rfl
  refine ⟨taken, _, file.lines, plain.lines, hsublist, hstands, hbare, hsource, ?_, ?_⟩
  · rw [SourceFile.text]
  · rw [← Document.docComments_of_ofDocument hcontract hstands]
    exact hmodels.weaves_sourceFile hdocs hfile hplain

/-- A document with a line break in its documentation, which is not marked again behind the break. -/
def notice : Document where
  buildInfo := ⟨none, ⟨"multiversx-sc", "0.43.3"⟩⟩
  docs := ["Pays out.\nfn f() \x7b\x7d"]
  name := "Notice"
  constructor := none
  endpoints := [{ EndpointDecl.query "getSeat" "Seat" with
    docs := ["Where one sits. ", " "], onlyOwner := true }]
  events := []
  hasCallbacks := false
  types := NameMap.ofList [("Seat", .record ["A seat.\n/// Some are taken."] [⟨"row", "u8"⟩])]

/-- The comments at the seat and at its method are comments; the one at the client ends in code. -/
theorem notice_ends_in_code :
    ∃ conversion bare documented plain, notice.convert .strict .standard = .ok conversion ∧
      notice.convert .strict GenerationOptions.standard.plain = .ok bare ∧
      conversion.source = Code.render documented ∧ bare.source = Code.render plain ∧
      Weaves [⟨0, ["A seat.\n/// Some are taken."], false⟩, ⟨0, ["Pays out.\nfn f() \x7b\x7d"], false⟩,
        ⟨2, ["Where one sits. ", " "], true⟩] documented plain ∧
      (DocComment.mk 0 ["A seat.\n/// Some are taken."] false).IsCommentOnly ∧
      ¬ (DocComment.mk 0 ["Pays out.\nfn f() \x7b\x7d"] false).IsCommentOnly ∧
      (DocComment.mk 2 ["Where one sits. ", " "] true).IsCommentOnly := by
  obtain ⟨conversion, hconvert, hlength⟩ := of_map_eq_ok (by decide +kernel :
    (notice.convert .strict .standard).map (·.contract.endpoints.length) = .ok 1)
  obtain ⟨hcomments, taken, bare, documented, plain, hsublist, hstands, hbare, hsource, hplain, hweaves⟩ :=
    documentation_is_comments_iff rfl hconvert
  obtain rfl : taken = notice.endpoints :=
    hsublist.eq_of_length (hstands.length_eq.symm.trans hlength.symm)
  have hmade : notice.docComments notice.endpoints = [⟨0, ["A seat.\n/// Some are taken."], false⟩,
      ⟨0, ["Pays out.\nfn f() \x7b\x7d"], false⟩, ⟨2, ["Where one sits. ", " "], true⟩] := by
    rfl
  rw [hmade] at hweaves
  refine ⟨conversion, bare, documented, plain, hconvert, hbare, hsource, hplain, hweaves, ?_, ?_, ?_⟩
  all_goals
    rw [hcomments]
    decide

end ContractAbi
