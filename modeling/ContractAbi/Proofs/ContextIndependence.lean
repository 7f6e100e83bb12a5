import ContractAbi.Proofs.DecoderCalls
import ContractAbi.Proofs.Display
import ContractAbi.Proofs.EnumValidation

/-!
# Resolution and what came before it

The context in which an expression is resolved has a say in nothing but the names of composites. So
an expression is resolved in every context or fails in every one with the same fault, and the named
types of a document may be declared in any order.
-/
namespace ContractAbi

namespace Resolve

variable {α β : Type} {types others : NameMap TypeDefinition} {members rest : List ResolvedType}
  {faults : ConversionFault → ConversionFault → Prop}

/-- In whatever contexts they are run, the steps both succeed with results that are the same, or both
fail with faults that are. -/
def Alike (faults : ConversionFault → ConversionFault → Prop) (same : α → α → Prop)
    (left right : Resolve α) : Prop :=
  ∀ context other, match left.run context, right.run other with
    | .ok value _, .ok value' _ => same value value'
    | .error fault _, .error fault' _ => faults fault fault'
    | _, _ => False

theorem Alike.pure {same : α → α → Prop} {value value' : α} (h : same value value') :
    Alike faults same (Pure.pure value) (Pure.pure value') :=
  fun _ _ => h

theorem Alike.throw {same : α → α → Prop} {fault fault' : ConversionFault} (h : faults fault fault') :
    Alike faults same (MonadExcept.throw fault) (MonadExcept.throw fault') :=
  fun _ _ => h

theorem Alike.bind {same : α → α → Prop} {same' : β → β → Prop} {left right : Resolve α}
    {next next' : α → Resolve β} (h : Alike faults same left right)
    (hnext : ∀ value value', same value value' → Alike faults same' (next value) (next' value')) :
    Alike faults same' (left >>= next) (right >>= next') := by
  intro context other
  have hfirst := h context other
  rw [EStateM.run_bind, EStateM.run_bind]
  cases hl : left.run context with
  | error fault after =>
    cases hr : right.run other with
    | error fault' after' => simpa only [hl, hr] using hfirst
    | ok value' after' => simp only [hl, hr] at hfirst
  | ok value after =>
    cases hr : right.run other with
    | error fault' after' => simp only [hl, hr] at hfirst
    | ok value' after' =>
      simp only [hl, hr] at hfirst
      exact hnext value value' hfirst after after'

theorem Alike.mono {faults' : ConversionFault → ConversionFault → Prop} {same : α → α → Prop}
    {left right : Resolve α} (h : Alike faults same left right)
    (hfaults : ∀ fault fault', faults fault fault' → faults' fault fault') :
    Alike faults' same left right := by
  intro context other
  have hrun := h context other
  cases hl : left.run context <;> cases hr : right.run other <;> simp only [hl, hr] at hrun ⊢
  · exact hrun
  · exact hfaults _ _ hrun

/-- The types differ at most in the names of composites. -/
def SameShape (left right : ResolvedType) : Prop :=
  left.shape = right.shape

/-- A composite takes a name from the context, and its shape does not show it. -/
theorem alike_composite {build build' : String → ResolvedType}
    (h : ∀ name name', SameShape (build name) (build' name')) :
    Alike faults SameShape (do return build (← registerComposite members))
      (do return build' (← registerComposite rest)) :=
  fun _ _ => h _ _

theorem alike_tupleOf (h : ResolvedType.shapes members = ResolvedType.shapes rest) :
    Alike faults SameShape (tupleOf members) (tupleOf rest) :=
  alike_composite fun _ _ => congrArg Shape.tuple h

theorem alike_multiOf (h : ResolvedType.shapes members = ResolvedType.shapes rest) :
    Alike faults SameShape (multiOf members) (multiOf rest) := by
  match members, rest, h with
  | [], [], _ => exact alike_composite fun _ _ => rfl
  | [_], [_], h => exact .pure (congrArg Shape.list (List.cons.inj h).1)
  | [_], _ :: _ :: _, h | _ :: _ :: _, [_], h => simp [ResolvedType.shapes] at h
  | _ :: _ :: _, _ :: _ :: _, h => exact alike_composite fun _ _ => congrArg Shape.multi h

theorem alike_variadicOf (h : ResolvedType.shapes members = ResolvedType.shapes rest) :
    Alike faults SameShape (variadicOf members) (variadicOf rest) := by
  match members, rest, h with
  | [], [], _ => exact alike_composite fun _ _ => rfl
  | [_], [_], h => exact .pure (congrArg Shape.variadic (List.cons.inj h).1)
  | [_], _ :: _ :: _, h | _ :: _ :: _, [_], h => simp [ResolvedType.shapes] at h
  | _ :: _ :: _, _ :: _ :: _, h => exact alike_composite fun _ _ => congrArg Shape.variadicMulti h

theorem alike_resolveTrees {trees : List TypeExpr}
    (h : ∀ tree ∈ trees, Alike faults SameShape (resolveTree types tree) (resolveTree others tree)) :
    Alike faults (fun left right => ResolvedType.shapes left = ResolvedType.shapes right)
      (resolveTrees types trees) (resolveTrees others trees) := by
  induction trees with
  | nil => exact .pure rfl
  | cons tree rest ih =>
    rw [resolveTrees, resolveTrees]
    refine (h tree List.mem_cons_self).bind fun type type' hfirst => ?_
    refine (ih fun t ht => h t (List.mem_cons_of_mem _ ht)).bind fun tail tail' hrest => ?_
    exact .pure (List.cons_eq_cons.2 ⟨hfirst, hrest⟩)

/-- What a tree means depends on the named types, and not on the context. -/
theorem alike_resolveTree (hget : ∀ name, types.get? name = others.get? name) (tree : TypeExpr) :
    Alike Eq SameShape (resolveTree types tree) (resolveTree others tree) := by
  induction tree using TypeExpr.memberInduction with
  | primitive kind => exact fun _ _ => rfl
  | named name =>
    rw [resolveTree, resolveTree, resolveName, resolveName, hget name]
    split
    · exact .pure rfl
    · exact .pure rfl
    · exact .throw rfl
  | list element ih => exact ih.bind fun _ _ h => .pure (congrArg Shape.list h)
  | variadic element ih => exact ih.bind fun _ _ h => .pure (congrArg Shape.variadic h)
  | variadicMulti members ih => exact (alike_resolveTrees ih).bind fun _ _ h => alike_variadicOf h
  | multi members ih => exact (alike_resolveTrees ih).bind fun _ _ h => alike_multiOf h
  | tuple members ih => exact (alike_resolveTrees ih).bind fun _ _ h => alike_tupleOf h
  | unrecognized fault => exact .throw rfl

theorem alike_resolve (hget : ∀ name, types.get? name = others.get? name) (expression : String) :
    Alike Eq SameShape (resolve types expression) (resolve others expression) :=
  alike_resolveTree hget _

end Resolve

/-- A field without the names of the composites in its type. -/
def Field.erased (field : Field) : String × Shape :=
  (field.name, field.type.shape)

open Resolve (SameShape)

/-- Whether a type has a byte layout shows in its shape. -/
theorem checkNested_of_sameShape {left right : ResolvedType} (h : SameShape left right)
    (hcheck : checkNested left = .ok ()) : checkNested right = .ok () := by
  induction left using ResolvedType.memberInduction generalizing right with
  | primitive | record | enum => cases right <;> first | rfl | simp [SameShape, ResolvedType.shape] at h
  | list element ih =>
    cases right with
    | list element' =>
      have helement : SameShape element element' := Shape.list.inj h
      obtain ⟨hlist, hnested⟩ := checkNested_list_iff.1 hcheck
      refine checkNested_list_iff.2 ⟨fun inner he => ?_, ih helement hnested⟩
      cases element <;> simp_all [SameShape, ResolvedType.shape]
    | _ => simp [SameShape, ResolvedType.shape] at h
  | variadic | variadicMulti | multi => cases hcheck
  | tuple name members ih =>
    cases right with
    | tuple name' members' =>
      have hshapes := Shape.tuple.inj h
      rw [ResolvedType.shapes_eq_map, ResolvedType.shapes_eq_map] at hshapes
      refine checkNestedAll_iff.2 fun m' hm' => ?_
      obtain ⟨m, hm, hsame⟩ := List.mem_map.1 (hshapes ▸ List.mem_map_of_mem hm')
      exact ih m hm hsame (checkNestedAll_iff.1 hcheck m hm)
    | _ => simp [SameShape, ResolvedType.shape] at h

theorem Resolve.alike_resolveFields {types others : NameMap TypeDefinition}
    (hget : ∀ name, types.get? name = others.get? name) (name : String) (decls : List FieldDecl) :
    Alike (fun _ _ => True) (fun left right => left.map Field.erased = right.map Field.erased)
      (resolveFields types name decls) (resolveFields others name decls) := by
  induction decls with
  | nil => exact .pure rfl
  | cons decl rest ih =>
    rw [resolveFields, resolveFields]
    refine ((alike_resolve hget decl.type).mono fun _ _ _ => trivial).bind fun type type' hsame => ?_
    -- the first field is refused for both types or for neither
    split
    · rename_i hrefused
      split
      · exact .throw trivial
      · rename_i hnested
        rw [checkNested_of_sameShape (Eq.symm hsame) hnested] at hrefused
        cases hrefused
    · rename_i hnested
      rw [checkNested_of_sameShape hsame hnested]
      refine ih.bind fun fields fields' hfields => .pure ?_
      exact List.cons_eq_cons.2 ⟨Prod.ext rfl hsame, hfields⟩

variable {types others : NameMap TypeDefinition} {name : String} {decls : List FieldDecl}
  {erased : List (String × Shape)}

/-- The declared fields are resolved in every context, to fields that differ in nothing but the names
of composites. -/
def FieldsMean (types : NameMap TypeDefinition) (name : String) (decls : List FieldDecl)
    (erased : List (String × Shape)) : Prop :=
  ∀ context, ∃ fields after,
    (resolveFields types name decls).run context = .ok fields after ∧ fields.map Field.erased = erased

/-- Fields that are resolved in one context are resolved in every other, also by a document that has
its named types in another order. -/
theorem fieldsMean_of_run {context after : Context} {fields : List Field}
    (hget : ∀ name, types.get? name = others.get? name)
    (h : (resolveFields types name decls).run context = .ok fields after) :
    FieldsMean others name decls (fields.map Field.erased) := by
  intro other
  have hrun := Resolve.alike_resolveFields hget name decls context other
  rw [h] at hrun
  cases hr : (resolveFields others name decls).run other with
  | error fault last => simp only [hr] at hrun
  | ok fields' last =>
    simp only [hr] at hrun
    exact ⟨fields', last, rfl, hrun.symm⟩

theorem FieldsMean.congr (hget : ∀ name, types.get? name = others.get? name) :
    FieldsMean types name decls erased ↔ FieldsMean others name decls erased := by
  have hmean : ∀ {first second : NameMap TypeDefinition},
      (∀ name, first.get? name = second.get? name) → FieldsMean first name decls erased →
        FieldsMean second name decls erased := by
    intro first second hget h
    obtain ⟨fields, after, hrun, rfl⟩ := h .empty
    exact fieldsMean_of_run hget hrun
  exact ⟨hmean hget, hmean fun name => (hget name).symm⟩

theorem FieldsMean.of_run (h : FieldsMean types name decls erased) {context after : Context}
    {fields : List Field} (hrun : (resolveFields types name decls).run context = .ok fields after) :
    fields.map Field.erased = erased := by
  obtain ⟨others, last, hrun', rfl⟩ := h context
  rw [hrun] at hrun'
  cases hrun'
  rfl

/-- The definition can be declared. -/
def Declarable (types : NameMap TypeDefinition) (name : String) : TypeDefinition → Prop
  | .record _ decls => ∃ erased, FieldsMean types name decls erased
  | .enum _ decls => IsEnum decls

theorem Declarable.congr (hget : ∀ name, types.get? name = others.get? name)
    {definition : TypeDefinition} :
    Declarable types name definition ↔ Declarable others name definition := by
  cases definition with
  | record docs decls => exact exists_congr fun _ => FieldsMean.congr hget
  | enum docs decls => exact Iff.rfl

namespace Session

variable {before after session : Session} {definition : TypeDefinition} {fault : ConversionFault}

theorem Takes.declarable (h : before.Takes types name definition after) :
    Declarable types name definition := by
  cases h with
  | record hrun => exact ⟨_, fieldsMean_of_run (fun _ => rfl) hrun⟩
  | enum hresolve => exact (resolveEnum_eq_ok_iff.1 hresolve).1

theorem Refuses.not_declarable (h : before.Refuses types name definition fault after) :
    ¬ Declarable types name definition := by
  intro hd
  cases h with
  | record hrun =>
    obtain ⟨erased, hmean⟩ := hd
    obtain ⟨fields, last, hrun', -⟩ := hmean before.context
    cases hrun.symm.trans hrun'
  | enum hresolve => cases hresolve.symm.trans (IsEnum.resolveEnum_eq hd)

/-- Whether a type can be declared does not depend on the session. -/
theorem exists_takes_iff (before : Session) :
    (∃ after, (declareType types name definition).run before = .ok () after) ↔
      Declarable types name definition := by
  have hcases := declareType_cases types name definition before
  cases hr : (declareType types name definition).run before with
  | error fault after =>
    rw [hr] at hcases
    refine iff_of_false ?_ hcases.not_declarable
    rintro ⟨_, h⟩
    cases h
  | ok value after =>
    rw [hr] at hcases
    exact iff_of_true ⟨after, rfl⟩ hcases.declarable

theorem exists_declareTypes_iff (before : Session) {entries : List (String × TypeDefinition)} :
    (∃ after, (declareTypes types entries).run before = .ok () after) ↔
      ∀ entry ∈ entries, Declarable types entry.1 entry.2 := by
  induction entries generalizing before with
  | nil => exact iff_of_true ⟨before, rfl⟩ fun _ h => absurd h List.not_mem_nil
  | cons entry rest ih =>
    obtain ⟨name, definition⟩ := entry
    rw [List.forall_mem_cons, ← exists_takes_iff before]
    simp only [declareTypes, EStateM.run_bind]
    cases hr : (declareType types name definition).run before with
    | error fault middle =>
      refine iff_of_false ?_ ?_
      · rintro ⟨_, h⟩
        cases h
      · rintro ⟨⟨_, h⟩, -⟩
        cases h
    | ok value middle => exact (ih middle).trans ⟨fun h => ⟨⟨middle, rfl⟩, h⟩, And.right⟩

/-- What is declared in the session comes from the named types. -/
structure Means (session : Session) (types : NameMap TypeDefinition) : Prop where
  records : ∀ name fields, session.records.get? name = some fields →
    ∃ docs decls, types.get? name = some (.record docs decls) ∧
      FieldsMean types name decls (fields.map Field.erased)
  enums : ∀ name variants, session.enums.get? name = some variants →
    ∃ docs decls, types.get? name = some (.enum docs decls) ∧ resolveEnum name decls = .ok variants

theorem means_start (context : Context) : (start context).Means types where
  records _ _ h := nomatch h
  enums _ _ h := nomatch h

theorem Takes.means (h : before.Takes types name definition after)
    (hget : types.get? name = some definition) (hmeans : before.Means types) : after.Means types := by
  cases h with
  | record hrun =>
    refine ⟨fun other fields hfind => ?_, hmeans.enums⟩
    rw [NameMap.get?_put] at hfind
    split at hfind
    · rename_i he
      obtain rfl := Option.some.inj hfind
      exact he ▸ ⟨_, _, hget, fieldsMean_of_run (fun _ => rfl) hrun⟩
    · exact hmeans.records other fields hfind
  | enum hresolve =>
    refine ⟨hmeans.records, fun other variants hfind => ?_⟩
    rw [NameMap.get?_put] at hfind
    split at hfind
    · rename_i he
      obtain rfl := Option.some.inj hfind
      exact he ▸ ⟨_, _, hget, hresolve⟩
    · exact hmeans.enums other variants hfind

theorem Takes.declares (h : before.Takes types name definition after) :
    after.Declares name definition ∧
      ∀ other definition, before.Declares other definition → after.Declares other definition := by
  cases h with
  | record hrun =>
    refine ⟨mem_names_putEntry.2 (.inl rfl), fun other definition hother => ?_⟩
    cases definition with
    | record => exact mem_names_putEntry.2 (.inr hother)
    | enum => exact hother
  | enum hresolve =>
    refine ⟨mem_names_putEntry.2 (.inl rfl), fun other definition hother => ?_⟩
    cases definition with
    | record => exact hother
    | enum => exact mem_names_putEntry.2 (.inr hother)

/-- A run of declarations declares each of them, and nothing that is not among the named types. -/
theorem means_of_declareTypes {entries : List (String × TypeDefinition)}
    (h : (declareTypes types entries).run before = .ok () after)
    (hget : ∀ entry ∈ entries, types.get? entry.1 = some entry.2) (hmeans : before.Means types) :
    after.Means types ∧ (∀ entry ∈ entries, after.Declares entry.1 entry.2) ∧
      ∀ other definition, before.Declares other definition → after.Declares other definition := by
  induction entries generalizing before with
  | nil =>
    cases h
    exact ⟨hmeans, fun _ h => absurd h List.not_mem_nil, fun _ _ => id⟩
  | cons entry rest ih =>
    obtain ⟨name, definition⟩ := entry
    obtain ⟨_, middle, hr, h⟩ := of_run_bind_eq_ok h
    have htakes := takes_of_declareType hr
    obtain ⟨hfirst, hkept⟩ := htakes.declares
    obtain ⟨hlast, hrest, hkept'⟩ := ih h (fun e he => hget e (List.mem_cons_of_mem _ he))
      (htakes.means (hget _ List.mem_cons_self) hmeans)
    refine ⟨hlast, fun e he => ?_, fun other d hd => hkept' other d (hkept other d hd)⟩
    rcases List.mem_cons.1 he with rfl | he
    · exact hkept' _ _ hfirst
    · exact hrest e he

/-- The session declares the named types, all of them and nothing else. -/
structure Resolved (session : Session) (types : NameMap TypeDefinition) : Prop where
  records : ∀ name erased, (session.records.get? name).map (List.map Field.erased) = some erased ↔
    ∃ docs decls, types.get? name = some (.record docs decls) ∧ FieldsMean types name decls erased
  enums : ∀ name variants, session.enums.get? name = some variants ↔
    ∃ docs decls, types.get? name = some (.enum docs decls) ∧ resolveEnum name decls = .ok variants

theorem Means.resolved (h : session.Means types)
    (hall : ∀ name definition, types.get? name = some definition → session.Declares name definition) :
    session.Resolved types := by
  refine ⟨fun name erased => ⟨fun hfind => ?_, ?_⟩, fun name variants => ⟨h.enums name variants, ?_⟩⟩
  · obtain ⟨fields, hfields, rfl⟩ := Option.map_eq_some_iff.1 hfind
    exact h.records name fields hfields
  · rintro ⟨docs, decls, hget, hmean⟩
    have hdeclared : name ∈ session.records.names := hall name _ hget
    cases hfind : session.records.get? name with
    | none => exact absurd hdeclared (NameMap.get?_eq_none_iff.1 hfind)
    | some fields =>
      obtain ⟨docs', decls', hget', hmean'⟩ := h.records name fields hfind
      cases hget.symm.trans hget'
      obtain ⟨others, last, hrun, rfl⟩ := hmean .empty
      exact congrArg some (hmean'.of_run hrun).symm
  · rintro ⟨docs, decls, hget, hresolve⟩
    have hdeclared : name ∈ session.enums.names := hall name _ hget
    cases hfind : session.enums.get? name with
    | none => exact absurd hdeclared (NameMap.get?_eq_none_iff.1 hfind)
    | some others =>
      obtain ⟨docs', decls', hget', hresolve'⟩ := h.enums name others hfind
      cases hget.symm.trans hget'
      exact congrArg some (Except.ok.inj (hresolve'.symm.trans hresolve))

theorem resolved_of_declareTypes {context : Context}
    (h : (declareTypes types types.entries).run (start context) = .ok () after) :
    after.Resolved types := by
  obtain ⟨hmeans, hall, -⟩ := means_of_declareTypes h
    (fun entry hentry => NameMap.get?_eq_some_iff.2 hentry) (means_start context)
  exact hmeans.resolved fun name definition hget => hall _ (NameMap.get?_eq_some_iff.1 hget)

end Session

theorem checkZeros_eq_ok_iff {catalog : Catalog} {fields : List Field} :
    checkZeros catalog fields = .ok () ↔
      ∀ field ∈ fields, ∃ text, field.type.zeroText catalog = .ok text := by
  induction fields with
  | nil => exact iff_of_true rfl fun _ h => absurd h List.not_mem_nil
  | cons field rest ih =>
    rw [List.forall_mem_cons, ← ih, checkZeros]
    cases hzero : field.type.zeroText catalog with
    | error fault =>
      refine iff_of_false (fun h => by cases h) ?_
      rintro ⟨⟨_, h⟩, -⟩
      cases h
    | ok text => exact ⟨fun h => ⟨⟨text, rfl⟩, h⟩, And.right⟩

theorem mem_flatten_values_iff {records : NameMap (List Field)} {field : Field} :
    field ∈ records.values.flatten ↔ ∃ name fields, records.get? name = some fields ∧ field ∈ fields := by
  simp only [NameMap.values, List.mem_flatten, List.mem_map, NameMap.get?_eq_some_iff]
  constructor
  · rintro ⟨_, ⟨⟨name, fields⟩, hentry, rfl⟩, hfield⟩
    exact ⟨name, fields, hentry, hfield⟩
  · rintro ⟨name, fields, hentry, hfield⟩
    exact ⟨fields, ⟨(name, fields), hentry, rfl⟩, hfield⟩

/-- An enum that the type of a field refers to is one of the named types. -/
theorem FieldsMean.declares_enum (h : FieldsMean types name decls erased) {field enum : String}
    (hmem : (field, Shape.enum enum) ∈ erased) :
    ∃ docs variants, types.get? enum = some (.enum docs variants) := by
  obtain ⟨fields, after, hrun, rfl⟩ := h .empty
  have hkeeps := Resolve.keeps_resolveFields name decls .empty (Context.sound_reserving types []) trivial
  simp only [hrun] at hkeeps
  obtain ⟨⟨_, type⟩, hfield, heq⟩ := List.mem_map.1 hmem
  have hgrounded := (hkeeps.2.2.2 _ hfield).admitted.grounded
  have hshape : type.shape = .enum enum := (Prod.mk.inj heq).2
  cases type with
  | enum other =>
    obtain rfl := Shape.enum.inj hshape
    exact hgrounded.2
  | _ => simp [ResolvedType.shape] at hshape

namespace Session

/-- Once every named type is declared, all fields have zero values. -/
theorem Resolved.checkZeros {session : Session} (h : session.Resolved types)
    (hall : ∀ name definition, types.get? name = some definition → Declarable types name definition) :
    checkZeros session.catalog session.records.values.flatten = .ok () := by
  refine checkZeros_eq_ok_iff.2 fun ⟨_, type⟩ hfield => ?_
  cases type with
  | enum other =>
    obtain ⟨name, fields, hget, hmem⟩ := mem_flatten_values_iff.1 hfield
    obtain ⟨_, decls, -, hmean⟩ := (h.records name _).1 (congrArg (Option.map _) hget)
    obtain ⟨docs, variants, hget'⟩ := hmean.declares_enum (List.mem_map_of_mem hmem)
    have henum : IsEnum variants := hall other _ hget'
    have hvariants := (h.enums other _).2 ⟨docs, variants, hget', henum.resolveEnum_eq⟩
    obtain ⟨variant, hdefault⟩ :=
      Catalog.exists_defaultVariant fun hnil => henum.nonempty (List.map_eq_nil_iff.1 hnil)
    have hfind : session.catalog.enums.get? other = some (variants.map VariantDecl.variant) := hvariants
    rw [ResolvedType.zeroText, hfind, Option.getD_some, hdefault]
    exact ⟨_, rfl⟩
  | _ => exact ⟨_, rfl⟩

/-- The check of the zero values never fails. -/
theorem run_declareNamedTypes (context : Context) :
    (declareNamedTypes types).run (start context) =
      (declareTypes types types.entries).run (start context) := by
  simp only [declareNamedTypes, EStateM.run_bind]
  cases h : (declareTypes types types.entries).run (start context) with
  | error fault after => rfl
  | ok value after =>
    have hall : ∀ name definition, types.get? name = some definition →
        Declarable types name definition := fun name definition hget =>
      (exists_declareTypes_iff _).1 ⟨after, h⟩ _ (NameMap.get?_eq_some_iff.1 hget)
    simp only [EStateM.run_get, (resolved_of_declareTypes h).checkZeros hall]
    rfl

/-- The named types are declared just when each of them can be. -/
theorem exists_declareNamedTypes_iff (context : Context) :
    (∃ after, (declareNamedTypes types).run (start context) = .ok () after) ↔
      ∀ name definition, types.get? name = some definition → Declarable types name definition := by
  rw [run_declareNamedTypes, exists_declareTypes_iff]
  exact ⟨fun h name definition hget => h _ (NameMap.get?_eq_some_iff.1 hget),
    fun h entry hentry => h _ _ (NameMap.get?_eq_some_iff.2 hentry)⟩

theorem resolved_of_declareNamedTypes {context : Context} {after : Session}
    (h : (declareNamedTypes types).run (start context) = .ok () after) : after.Resolved types :=
  resolved_of_declareTypes ((run_declareNamedTypes context).symm.trans h)

end Session

/-- The catalogs have the same records and enums, with the same fields and variants in the same order;
types of fields may differ in the names of composites. -/
structure Catalog.SameDeclarations (left right : Catalog) : Prop where
  records : ∀ name, (left.records.get? name).map (List.map Field.erased) =
    (right.records.get? name).map (List.map Field.erased)
  enums : ∀ name, left.enums.get? name = right.enums.get? name

theorem Session.Resolved.sameDeclarations {left right : Session} (hl : left.Resolved types)
    (hr : right.Resolved others) (hget : ∀ name, types.get? name = others.get? name) :
    left.catalog.SameDeclarations right.catalog := by
  refine ⟨fun name => Option.ext fun erased => ?_, fun name => Option.ext fun variants => ?_⟩
  · refine (hl.records name erased).trans (Iff.trans ?_ (hr.records name erased).symm)
    simp only [hget, FieldsMean.congr hget]
  · refine (hl.enums name variants).trans (Iff.trans ?_ (hr.enums name variants).symm)
    simp only [hget]

theorem get?_eq_of_perm (h : types.entries.Perm others.entries) (name : String) :
    types.get? name = others.get? name := by
  refine Option.ext fun definition => ?_
  rw [NameMap.get?_eq_some_iff, NameMap.get?_eq_some_iff]
  exact h.mem_iff

/-- Named types that are declared in one order and context are declared in every other. -/
theorem exists_declareNamedTypes_of_perm {left : Session} {context : Context}
    (hperm : types.entries.Perm others.entries)
    (h : (declareNamedTypes types).run (.start context) = .ok () left) (other : Context) :
    ∃ right, (declareNamedTypes others).run (.start other) = .ok () right ∧
      left.catalog.SameDeclarations right.catalog := by
  have hget := get?_eq_of_perm hperm
  have hall := (Session.exists_declareNamedTypes_iff context).1 ⟨left, h⟩
  obtain ⟨right, hr⟩ := (Session.exists_declareNamedTypes_iff other).2
    fun name definition hname => (Declarable.congr hget).1 (hall name definition (hget name ▸ hname))
  exact ⟨right, hr, (Session.resolved_of_declareNamedTypes h).sameDeclarations
    (Session.resolved_of_declareNamedTypes hr) hget⟩

/-- What was resolved before an expression, or declared before a named type, changes nothing but the
names of composites. -/
theorem resolution_ignores_what_came_before (document : Document) :
    (∀ expression, Resolve.Alike Eq SameShape (resolve document.types expression)
      (resolve document.types expression)) ∧
    ∀ reordered : NameMap TypeDefinition, document.types.entries.Perm reordered.entries →
      ∀ context other, match (declareNamedTypes document.types).run (.start context),
          (declareNamedTypes reordered).run (.start other) with
        | .ok _ left, .ok _ right => left.catalog.SameDeclarations right.catalog
        | .error _ _, .error _ _ => True
        | _, _ => False := by
  refine ⟨Resolve.alike_resolve fun _ => rfl, fun reordered hperm context other => ?_⟩
  cases hl : (declareNamedTypes document.types).run (.start context) with
  | ok value left =>
    obtain ⟨right, hr, hsame⟩ := exists_declareNamedTypes_of_perm hperm hl other
    simpa only [hr] using hsame
  | error fault left =>
    cases hr : (declareNamedTypes reordered).run (.start other) with
    | ok value right =>
      obtain ⟨left', hl', -⟩ := exists_declareNamedTypes_of_perm hperm.symm hr context
      cases hl.symm.trans hl'
    | error fault' right => trivial

/-- A document in which a struct has tuples of a struct that is declared after it. -/
def warehouse : Document where
  buildInfo := ⟨none, ⟨"multiversx-sc", "0.43.3"⟩⟩
  docs := []
  name := "Warehouse"
  constructor := none
  endpoints := []
  events := []
  hasCallbacks := false
  types := NameMap.ofList
    [("Shelf", .record [] [⟨"boxes", "List<tuple<u8,Box>>"⟩]),
      ("Box", .record [] [⟨"size", "tuple<u16,u16>"⟩])]

/-- The types in the other order, in which the tuples change their names. -/
def warehouseReversed : NameMap TypeDefinition :=
  NameMap.ofList warehouse.types.entries.reverse

theorem warehouse_is_declared_in_both_orders :
    ∃ left right, (declareNamedTypes warehouse.types).run (.start .empty) = .ok () left ∧
      (declareNamedTypes warehouseReversed).run (.start .empty) = .ok () right ∧
      left.catalog.SameDeclarations right.catalog ∧
      left.catalog.composites.names = right.catalog.composites.names ∧
      left.catalog.composites ≠ right.catalog.composites := by
  have hreversed : warehouse.types.entries.Perm warehouseReversed.entries :=
    (List.reverse_perm warehouse.types.entries).symm
  have hsame := (resolution_ignores_what_came_before warehouse).2 warehouseReversed hreversed
    .empty .empty
  have hnames : (match (declareNamedTypes warehouse.types).run (.start .empty),
      (declareNamedTypes warehouseReversed).run (.start .empty) with
    | .ok _ left, .ok _ right => left.catalog.composites.names == right.catalog.composites.names &&
        left.catalog.composites != right.catalog.composites
    | _, _ => false) = true := by decide +kernel
  cases hl : (declareNamedTypes warehouse.types).run (.start .empty) with
  | error fault left => simp [hl] at hnames
  | ok value left =>
    cases hr : (declareNamedTypes warehouseReversed).run (.start .empty) with
    | error fault right => simp [hl, hr] at hnames
    | ok value' right =>
      simp only [hl, hr] at hsame
      simp only [hl, hr, Bool.and_eq_true, beq_iff_eq, bne_iff_ne] at hnames
      exact ⟨left, right, rfl, rfl, hsame, hnames⟩

end ContractAbi
