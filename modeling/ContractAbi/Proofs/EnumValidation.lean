import ContractAbi.Proofs.Results
import ContractAbi.Declarations

/-!
# Which enums are accepted

An enum is accepted if it has a variant, all its discriminants fit in one byte and no two of them are
equal. The variants are checked in their order, so a refused enum is refused for the first variant
that breaks a rule which those before it keep.
-/
namespace ContractAbi

namespace VariantDecl

/-- The variant that a declaration stands for. -/
def variant (decl : VariantDecl) : Variant :=
  ⟨decl.name, UInt8.ofNat decl.discriminant⟩

end VariantDecl

/-- The discriminants fit in one byte and differ from each other. -/
structure DistinctBytes (decls : List VariantDecl) : Prop where
  small : ∀ decl ∈ decls, decl.discriminant < 256
  distinct : (decls.map (·.discriminant)).Nodup

/-- The variants make an enum. -/
structure IsEnum (decls : List VariantDecl) : Prop extends DistinctBytes decls where
  nonempty : decls ≠ []

/-- What is wrong with some variants: that there are none, or the first of them that may not follow
those before it. -/
inductive Violates : List VariantDecl → EnumFault → Prop
  | noVariants : Violates [] .noVariants
  | tooLarge {before after : List VariantDecl} {decl : VariantDecl} (hbefore : DistinctBytes before)
      (hlarge : 256 ≤ decl.discriminant) :
      Violates (before ++ decl :: after) (.tooLarge decl.discriminant decl.name)
  | repeated {before after : List VariantDecl} {decl : VariantDecl} (hbefore : DistinctBytes before)
      (hsmall : decl.discriminant < 256) (hmem : decl.discriminant ∈ before.map (·.discriminant)) :
      Violates (before ++ decl :: after) (.repeated (UInt8.ofNat decl.discriminant))

theorem ofNat_inj_of_lt {a b : Nat} (ha : a < 256) (hb : b < 256) :
    UInt8.ofNat a = UInt8.ofNat b ↔ a = b := by
  refine ⟨fun h => ?_, congrArg UInt8.ofNat⟩
  have hvalue := congrArg UInt8.toNat h
  rwa [UInt8.toNat_ofNat_of_lt' ha, UInt8.toNat_ofNat_of_lt' hb] at hvalue

variable {name : String} {before after decls : List VariantDecl} {decl : VariantDecl} {seen : List UInt8}

namespace DistinctBytes

theorem nil : DistinctBytes [] :=
  ⟨fun _ h => absurd h List.not_mem_nil, .nil⟩

theorem concat_iff : DistinctBytes (before ++ [decl]) ↔
    DistinctBytes before ∧ decl.discriminant < 256 ∧
      decl.discriminant ∉ before.map (·.discriminant) := by
  constructor
  · rintro ⟨hsmall, hdistinct⟩
    rw [List.map_append, List.nodup_append'] at hdistinct
    refine ⟨⟨fun other hother => hsmall other (List.mem_append_left _ hother), hdistinct.1⟩,
      hsmall decl (List.mem_append_right _ List.mem_cons_self), ?_⟩
    exact fun hmem => hdistinct.2.2 hmem List.mem_cons_self
  · rintro ⟨hbefore, hsmall, hnew⟩
    refine ⟨fun other hother => ?_, ?_⟩
    · rcases List.mem_append.1 hother with hother | hother
      · exact hbefore.small other hother
      · exact List.mem_singleton.1 hother ▸ hsmall
    · rw [List.map_append, List.map_singleton]
      exact List.nodup_append'.2 ⟨hbefore.distinct, List.nodup_singleton _,
        List.disjoint_singleton.2 hnew⟩

theorem of_append (h : DistinctBytes (before ++ after)) : DistinctBytes before :=
  ⟨fun decl hdecl => h.small decl (List.mem_append_left _ hdecl),
    (List.nodup_append'.1 (List.map_append ▸ h.distinct)).1⟩

end DistinctBytes

theorem Violates.append {fault : EnumFault} (h : Violates decls fault) (hne : decls ≠ [])
    (after : List VariantDecl) : Violates (decls ++ after) fault := by
  cases h with
  | noVariants => exact absurd rfl hne
  | tooLarge hbefore hlarge =>
    rw [List.append_assoc]
    exact .tooLarge hbefore hlarge
  | repeated hbefore hsmall hmem =>
    rw [List.append_assoc]
    exact .repeated hbefore hsmall hmem

/-- Nothing is wrong with the variants before the first one that may not follow them. -/
theorem distinctBytes_or_violates (decls : List VariantDecl) :
    DistinctBytes decls ∨ decls ≠ [] ∧ ∃ fault, Violates decls fault := by
  induction decls using List.reverseRecOn with
  | nil => exact .inl .nil
  | append_singleton before decl ih =>
    have hne : before ++ [decl] ≠ [] := List.append_ne_nil_of_right_ne_nil _ (List.cons_ne_nil _ _)
    rcases ih with hbefore | ⟨hbefore, fault, hfault⟩
    · by_cases hsmall : decl.discriminant < 256
      · by_cases hmem : decl.discriminant ∈ before.map (·.discriminant)
        · exact .inr ⟨hne, _, .repeated hbefore hsmall hmem⟩
        · exact .inl (DistinctBytes.concat_iff.2 ⟨hbefore, hsmall, hmem⟩)
      · exact .inr ⟨hne, _, .tooLarge hbefore (Nat.not_lt.1 hsmall)⟩
    · exact .inr ⟨hne, fault, hfault.append hbefore [decl]⟩

/-- The discriminants of these variants have been seen. -/
def Seen (seen : List UInt8) (before : List VariantDecl) : Prop :=
  ∀ discriminant < 256,
    UInt8.ofNat discriminant ∈ seen ↔ discriminant ∈ before.map (·.discriminant)

theorem Seen.nil : Seen [] [] :=
  fun _ _ => iff_of_false List.not_mem_nil List.not_mem_nil

theorem Seen.concat (h : Seen seen before) (hsmall : decl.discriminant < 256) :
    Seen (UInt8.ofNat decl.discriminant :: seen) (before ++ [decl]) := by
  intro discriminant hlt
  rw [List.mem_cons, h discriminant hlt, ofNat_inj_of_lt hlt hsmall, List.map_append, List.mem_append,
    List.map_singleton, List.mem_singleton, or_comm]

/-- Variants that may follow those that were seen are resolved, and the next one is checked. -/
theorem resolveVariants_append {front : List VariantDecl} (name : String) (hseen : Seen seen before)
    (h : DistinctBytes (before ++ front)) (rest : List VariantDecl) :
    ∃ others, Seen others (before ++ front) ∧ resolveVariants name seen (front ++ rest) =
      (resolveVariants name others rest).map (front.map VariantDecl.variant ++ ·) := by
  induction front generalizing before seen with
  | nil =>
    refine ⟨seen, (List.append_nil before).symm ▸ hseen, ?_⟩
    rw [List.nil_append]
    cases resolveVariants name seen rest <;> rfl
  | cons decl front ih =>
    rw [List.append_cons] at h
    obtain ⟨-, hsmall, hnew⟩ := DistinctBytes.concat_iff.1 h.of_append
    have hunseen : ¬ seen.contains (UInt8.ofNat decl.discriminant) = true := fun hmem =>
      hnew ((hseen _ hsmall).1 (List.contains_iff_mem.1 hmem))
    obtain ⟨others, hothers, hresolve⟩ := ih (hseen.concat hsmall) h
    refine ⟨others, List.append_cons before decl front ▸ hothers, ?_⟩
    rw [List.cons_append, resolveVariants, if_pos hsmall]
    simp only [if_neg hunseen, hresolve]
    cases resolveVariants name others rest <;> rfl

theorem IsEnum.resolveEnum_eq (h : IsEnum decls) :
    resolveEnum name decls = .ok (decls.map VariantDecl.variant) := by
  have hempty : ¬ decls.isEmpty = true := fun hnil => h.nonempty (List.isEmpty_iff.1 hnil)
  obtain ⟨others, -, hresolve⟩ := resolveVariants_append name Seen.nil h.toDistinctBytes []
  rw [List.append_nil] at hresolve
  rw [resolveEnum, if_neg hempty, hresolve, resolveVariants]
  exact congrArg Except.ok (List.append_nil _)

theorem Violates.resolveEnum_eq {fault : EnumFault} (h : Violates decls fault) :
    resolveEnum name decls = .error (.invalidEnum name fault) := by
  cases h with
  | noVariants => rfl
  | tooLarge hbefore hlarge =>
    obtain ⟨others, -, hresolve⟩ := resolveVariants_append name Seen.nil hbefore _
    rw [resolveEnum, if_neg (by simp), hresolve, resolveVariants, if_neg (Nat.not_lt.2 hlarge)]
    rfl
  | repeated hbefore hsmall hmem =>
    obtain ⟨others, hothers, hresolve⟩ := resolveVariants_append name Seen.nil hbefore _
    have hseen := List.contains_iff_mem.2 ((hothers _ hsmall).2 hmem)
    rw [resolveEnum, if_neg (by simp), hresolve, resolveVariants, if_pos hsmall]
    simp only [if_pos hseen]
    rfl

theorem Violates.unique {fault other : EnumFault} (h : Violates decls fault)
    (hother : Violates decls other) : fault = other := by
  have hfirst : resolveEnum "" decls = .error (.invalidEnum "" fault) := h.resolveEnum_eq
  have hsecond : resolveEnum "" decls = .error (.invalidEnum "" other) := hother.resolveEnum_eq
  exact (ConversionFault.invalidEnum.inj (Except.error.inj (hfirst.symm.trans hsecond))).2

theorem Violates.not_isEnum {fault : EnumFault} (h : Violates decls fault) : ¬ IsEnum decls := by
  intro henum
  have hrefused : resolveEnum "" decls = .error (.invalidEnum "" fault) := h.resolveEnum_eq
  cases hrefused.symm.trans henum.resolveEnum_eq

theorem isEnum_or_violates (decls : List VariantDecl) :
    IsEnum decls ∨ ∃ fault, Violates decls fault := by
  rcases distinctBytes_or_violates decls with h | ⟨-, hfault⟩
  · by_cases hnil : decls = []
    · exact .inr ⟨.noVariants, hnil ▸ Violates.noVariants⟩
    · exact .inl ⟨h, hnil⟩
  · exact .inr hfault

/-- An enum is accepted with its variants in their order, or refused for what is wrong first. -/
theorem resolveEnum_eq_ok_iff {variants : List Variant} :
    resolveEnum name decls = .ok variants ↔ IsEnum decls ∧ variants = decls.map VariantDecl.variant := by
  constructor
  · intro h
    rcases isEnum_or_violates decls with henum | ⟨fault, hfault⟩
    · rw [henum.resolveEnum_eq] at h
      exact ⟨henum, (Except.ok.inj h).symm⟩
    · rw [hfault.resolveEnum_eq] at h
      cases h
  · rintro ⟨henum, rfl⟩
    exact henum.resolveEnum_eq

theorem resolveEnum_eq_error_iff {fault : ConversionFault} :
    resolveEnum name decls = .error fault ↔
      ∃ cause, Violates decls cause ∧ fault = .invalidEnum name cause := by
  constructor
  · intro h
    rcases isEnum_or_violates decls with henum | ⟨cause, hcause⟩
    · rw [henum.resolveEnum_eq] at h
      cases h
    · rw [hcause.resolveEnum_eq] at h
      exact ⟨cause, hcause, (Except.error.inj h).symm⟩
  · rintro ⟨cause, hcause, rfl⟩
    exact hcause.resolveEnum_eq

end ContractAbi
