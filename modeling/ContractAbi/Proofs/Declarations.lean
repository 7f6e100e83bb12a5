import ContractAbi.Proofs.Resolution
import ContractAbi.Declarations

/-!
# The named types of a document

Declaring the named types keeps the registry sound and only adds to the context. When it succeeds
the session represents the document: it has a declaration for each named type and no others, with
admitted field types that have a byte layout.
-/
namespace ContractAbi

variable {types : NameMap TypeDefinition}

namespace Resolve

/-- The field has a type that generated code can declare and decode. -/
structure AdmitsField (types : NameMap TypeDefinition) (context : Context) (field : Field) : Prop where
  admitted : context.Admits types field.type
  nested : checkNested field.type = .ok ()

theorem AdmitsField.grows {before after : Context} (hg : before.Grows after) {field : Field}
    (h : AdmitsField types before field) : AdmitsField types after field :=
  ⟨hg.admits h.admitted, h.nested⟩

theorem keeps_resolveFields (name : String) (decls : List FieldDecl) :
    Keeps types (fun _ => True) (resolveFields types name decls) fun fields context =>
      fields.map (·.name) = decls.map (·.name) ∧ ∀ field ∈ fields, AdmitsField types context field := by
  induction decls with
  | nil =>
    rw [resolveFields]
    exact .pure fun context _ => ⟨rfl, fun _ h => absurd h List.not_mem_nil⟩
  | cons decl rest ih =>
    rw [resolveFields]
    apply (keeps_resolve decl.type).bind
    intro type
    split
    · exact .throw
    · rename_i hnested
      have hframe := ih.frame fun before after hg (h : before.Admits types type) => hg.admits h
      refine (hframe.mono (fun _ hp => ⟨trivial, hp⟩) fun _ _ hp => hp).bind fun fields => ?_
      refine .pure fun context hp => ⟨by simp [hp.1.1], ?_⟩
      intro field hfield
      rcases List.mem_cons.1 hfield with rfl | hfield
      · exact ⟨hp.2, hnested⟩
      · exact hp.1.2 field hfield

end Resolve

open Resolve (AdmitsField)

namespace Session

/-- The session has a declaration of the given kind under the name. -/
def Declares (session : Session) (name : String) : TypeDefinition → Prop
  | .record _ _ => name ∈ session.records.names
  | .enum _ _ => name ∈ session.enums.names

/-- Each declaration comes from the document. -/
structure Represents (session : Session) (types : NameMap TypeDefinition) : Prop where
  records : ∀ name fields, session.records.get? name = some fields →
    ∃ docs decls, types.get? name = some (.record docs decls) ∧
      fields.map (·.name) = decls.map (·.name) ∧
        ∀ field ∈ fields, AdmitsField types session.context field
  enums : ∀ name variants, session.enums.get? name = some variants →
    ∃ docs decls, types.get? name = some (.enum docs decls) ∧ resolveEnum name decls = .ok variants

/-- How a session goes on: what it has declared and noted remains, and it keeps to the document if
it did before. -/
structure Continues (types : NameMap TypeDefinition) (before after : Session) : Prop where
  sound : after.context.Sound types
  grows : before.context.Grows after.context
  represents : before.Represents types → after.Represents types
  declares : ∀ name definition, before.Declares name definition → after.Declares name definition

theorem Continues.refl {session : Session} (hs : session.context.Sound types) :
    Continues types session session :=
  ⟨hs, .refl _, id, fun _ _ => id⟩

theorem Continues.trans {a b c : Session} (hab : Continues types a b) (hbc : Continues types b c) :
    Continues types a c :=
  ⟨hbc.sound, hab.grows.trans hbc.grows, hbc.represents ∘ hab.represents,
    fun name definition h => hbc.declares name definition (hab.declares name definition h)⟩

theorem represents_start (context : Context) : (start context).Represents types :=
  ⟨fun _ _ h => absurd h (by simp [start, NameMap.get?, EmptyCollection.emptyCollection, NameMap.empty]),
    fun _ _ h => absurd h (by simp [start, NameMap.get?, EmptyCollection.emptyCollection, NameMap.empty])⟩

/-- The session with another context. -/
theorem continues_inContext {session : Session} {context : Context}
    (hs : context.Sound types) (hg : session.context.Grows context) :
    Continues types session { session with context } where
  sound := hs
  grows := hg
  represents h := by
    refine ⟨fun name fields hget => ?_, h.enums⟩
    obtain ⟨docs, decls, htypes, hnames, hfields⟩ := h.records name fields hget
    exact ⟨docs, decls, htypes, hnames, fun field hfield => (hfields field hfield).grows hg⟩
  declares name definition h := by cases definition <;> exact h

theorem continues_putRecord {session : Session} {name : String} {fields : List Field}
    {docs : List String} {decls : List FieldDecl} (hs : session.context.Sound types)
    (htypes : types.get? name = some (.record docs decls))
    (hnames : fields.map (·.name) = decls.map (·.name))
    (hfields : ∀ field ∈ fields, AdmitsField types session.context field) :
    Continues types session { session with records := session.records.put name fields } where
  sound := hs
  grows := .refl _
  represents h := by
    refine ⟨fun other others hget => ?_, h.enums⟩
    rw [NameMap.get?_put] at hget
    split at hget
    · rename_i he
      subst he
      obtain rfl := Option.some.inj hget
      exact ⟨docs, decls, htypes, hnames, hfields⟩
    · exact h.records other others hget
  declares other definition h := by
    cases definition with
    | record _ _ => exact mem_names_putEntry.2 (Or.inr h)
    | enum _ _ => exact h

theorem continues_putEnum {session : Session} {name : String} {variants : List Variant}
    {docs : List String} {decls : List VariantDecl} (hs : session.context.Sound types)
    (htypes : types.get? name = some (.enum docs decls)) (hvariants : resolveEnum name decls = .ok variants) :
    Continues types session { session with enums := session.enums.put name variants } where
  sound := hs
  grows := .refl _
  represents h := by
    refine ⟨h.records, fun other others hget => ?_⟩
    rw [NameMap.get?_put] at hget
    split at hget
    · rename_i he
      subst he
      obtain rfl := Option.some.inj hget
      exact ⟨docs, decls, htypes, hvariants⟩
    · exact h.enums other others hget
  declares other definition h := by
    cases definition with
    | record _ _ => exact h
    | enum _ _ => exact mem_names_putEntry.2 (Or.inr h)

end Session

open Session (Continues)

/-- Declaring one named type. -/
theorem declareType_continues {session : Session} {name : String} {definition : TypeDefinition}
    (hs : session.context.Sound types) (htypes : types.get? name = some definition) :
    match (declareType types name definition).run session with
    | .ok _ after => Continues types session after ∧ after.Declares name definition
    | .error _ after => Continues types session after := by
  cases definition with
  | record docs decls =>
    have hk := @Resolve.keeps_resolveFields types name decls session.context hs trivial
    simp only [declareType, EStateM.run_bind]
    cases hr : (resolveFields types name decls).run session.context with
    | error fault context =>
      simp only [EStateM.run] at hr
      simp only [hr, EStateM.run] at hk
      simp only [EStateM.run, Declare.inContext, hr]
      exact Session.continues_inContext hk.1 hk.2
    | ok fields context =>
      simp only [EStateM.run] at hr
      simp only [hr, EStateM.run] at hk
      simp only [EStateM.run, Declare.inContext, hr]
      obtain ⟨hs', hg, hnames, hfields⟩ := hk
      have hfirst : Continues types session { session with context } :=
        Session.continues_inContext hs' hg
      exact ⟨hfirst.trans (Session.continues_putRecord hs' htypes hnames hfields),
        mem_names_putEntry.2 (Or.inl rfl)⟩
  | enum docs decls =>
    rw [declareType]
    cases hv : resolveEnum name decls with
    | error fault => exact .refl hs
    | ok variants =>
      exact ⟨Session.continues_putEnum hs htypes hv, mem_names_putEntry.2 (Or.inl rfl)⟩

theorem declareTypes_continues {entries : List (String × TypeDefinition)} {session : Session}
    (hs : session.context.Sound types)
    (hentries : ∀ entry ∈ entries, types.get? entry.1 = some entry.2) :
    match (declareTypes types entries).run session with
    | .ok _ after => Continues types session after ∧ ∀ entry ∈ entries, after.Declares entry.1 entry.2
    | .error _ after => Continues types session after := by
  induction entries generalizing session with
  | nil => exact ⟨.refl hs, fun _ h => absurd h List.not_mem_nil⟩
  | cons entry rest ih =>
    obtain ⟨name, definition⟩ := entry
    have hfirst := declareType_continues hs (hentries _ List.mem_cons_self)
    simp only [declareTypes, EStateM.run_bind]
    cases hr : (declareType types name definition).run session with
    | error fault after =>
      simp only [hr] at hfirst ⊢
      exact hfirst
    | ok value after =>
      simp only [hr] at hfirst ⊢
      have hrest := ih hfirst.1.sound fun entry he => hentries entry (List.mem_cons_of_mem _ he)
      cases hr' : (declareTypes types rest).run after with
      | error fault last =>
        simp only [hr'] at hrest ⊢
        exact hfirst.1.trans hrest
      | ok value last =>
        simp only [hr'] at hrest ⊢
        refine ⟨hfirst.1.trans hrest.1, fun entry he => ?_⟩
        rcases List.mem_cons.1 he with rfl | he
        · exact hrest.1.declares _ _ hfirst.2
        · exact hrest.2 entry he

/-- Declaring every named type of a document. -/
theorem declareNamedTypes_continues {session : Session} (hs : session.context.Sound types) :
    match (declareNamedTypes types).run session with
    | .ok _ after => Continues types session after ∧
        ∀ name definition, types.get? name = some definition → after.Declares name definition
    | .error _ after => Continues types session after := by
  have hentries : ∀ entry ∈ types.entries, types.get? entry.1 = some entry.2 :=
    fun entry he => NameMap.get?_eq_some_iff.2 he
  have hall := declareTypes_continues hs hentries
  simp only [declareNamedTypes, EStateM.run_bind]
  cases hr : (declareTypes types types.entries).run session with
  | error fault after =>
    simp only [hr] at hall ⊢
    exact hall
  | ok value after =>
    simp only [hr] at hall ⊢
    cases hz : checkZeros after.catalog after.records.values.flatten with
    | error fault =>
      simp only [EStateM.run_get, hz]
      exact hall.1
    | ok _ =>
      simp only [EStateM.run_get, hz]
      exact ⟨hall.1, fun name definition h => hall.2 _ (NameMap.get?_eq_some_iff.1 h)⟩

/-- Declaring a named type makes the second session of the first one. -/
inductive Session.Takes (types : NameMap TypeDefinition) (before : Session) (name : String) :
    TypeDefinition → Session → Prop
  | record {docs : List String} {decls : List FieldDecl} {fields : List Field} {context : Context}
      (h : (resolveFields types name decls).run before.context = .ok fields context) :
      Takes types before name (.record docs decls)
        { before with records := before.records.put name fields, context }
  | enum {docs : List String} {decls : List VariantDecl} {variants : List Variant}
      (h : resolveEnum name decls = .ok variants) :
      Takes types before name (.enum docs decls)
        { before with enums := before.enums.put name variants }

/-- Declaring a named type fails for its fields or its variants. -/
inductive Session.Refuses (types : NameMap TypeDefinition) (before : Session) (name : String) :
    TypeDefinition → ConversionFault → Session → Prop
  | record {docs : List String} {decls : List FieldDecl} {fault : ConversionFault} {context : Context}
      (h : (resolveFields types name decls).run before.context = .error fault context) :
      Refuses types before name (.record docs decls) fault { before with context }
  | enum {docs : List String} {decls : List VariantDecl} {fault : ConversionFault}
      (h : resolveEnum name decls = .error fault) :
      Refuses types before name (.enum docs decls) fault before

/-- Declaring a named type takes it or refuses it. -/
theorem declareType_cases (types : NameMap TypeDefinition) (name : String)
    (definition : TypeDefinition) (before : Session) :
    match (declareType types name definition).run before with
    | .ok _ after => before.Takes types name definition after
    | .error fault after => before.Refuses types name definition fault after := by
  cases definition with
  | record docs decls =>
    simp only [declareType, EStateM.run_bind]
    cases hr : (resolveFields types name decls).run before.context with
    | error fault context =>
      simp only [EStateM.run] at hr
      simp only [EStateM.run, Declare.inContext, hr]
      exact .record hr
    | ok fields context =>
      simp only [EStateM.run] at hr
      simp only [EStateM.run, Declare.inContext, hr]
      exact .record hr
  | enum docs decls =>
    rw [declareType]
    cases hv : resolveEnum name decls with
    | error fault => exact .enum hv
    | ok variants => exact .enum hv

theorem takes_of_declareType {name : String} {definition : TypeDefinition} {before after : Session}
    (h : (declareType types name definition).run before = .ok () after) :
    before.Takes types name definition after := by
  have hcases := declareType_cases types name definition before
  rwa [h] at hcases

theorem refuses_of_declareType {name : String} {definition : TypeDefinition} {before after : Session}
    {fault : ConversionFault}
    (h : (declareType types name definition).run before = .error fault after) :
    before.Refuses types name definition fault after := by
  have hcases := declareType_cases types name definition before
  rwa [h] at hcases

theorem declareTypes_append (front rest : List (String × TypeDefinition)) :
    declareTypes types (front ++ rest) = declareTypes types front >>= fun _ => declareTypes types rest := by
  induction front with
  | nil => rfl
  | cons entry front ih =>
    obtain ⟨name, definition⟩ := entry
    rw [List.cons_append, declareTypes, ih, declareTypes, bind_assoc]

/-- A fault is that of the first named type that is refused. -/
theorem exists_refused_of_declareTypes {entries : List (String × TypeDefinition)}
    {before after : Session} {fault : ConversionFault}
    (h : (declareTypes types entries).run before = .error fault after) :
    ∃ entry ∈ entries, ∃ middle : Session, middle.Refuses types entry.1 entry.2 fault after := by
  induction entries generalizing before with
  | nil => cases h
  | cons entry rest ih =>
    obtain ⟨name, definition⟩ := entry
    simp only [declareTypes, EStateM.run_bind] at h
    cases hr : (declareType types name definition).run before with
    | error fault' middle =>
      rw [hr] at h
      cases h
      exact ⟨(name, definition), List.mem_cons_self, before, refuses_of_declareType hr⟩
    | ok value middle =>
      rw [hr] at h
      obtain ⟨entry, hentry, hrefused⟩ := ih h
      exact ⟨entry, List.mem_cons_of_mem _ hentry, hrefused⟩

end ContractAbi
