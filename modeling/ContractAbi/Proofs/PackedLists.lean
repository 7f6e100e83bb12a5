import ContractAbi.Proofs.NestedReads

/-!
# Packed lists

The items of a packed list are read from its slot one after the other, each from bytes of its own,
until nothing is left or no further item can be read. There is one way of taking a slot apart like
this, and the list is what it gives.
-/
namespace ContractAbi.Wire

variable {α : Type} {item : Reader α} {slot bytes rest last : Bytes}
  {pieces others : List (Bytes × α)}

/-- Items are read one after the other, each from the piece beside it, and `rest` is left. -/
inductive ReadsInTurn (item : Reader α) : Bytes → List (Bytes × α) → Bytes → Prop
  | nil (rest : Bytes) : ReadsInTurn item rest [] rest
  | cons {piece following rest : Bytes} {value : α} {others : List (Bytes × α)}
      (hread : item (piece ++ following) = .ok (value, following))
      (hothers : ReadsInTurn item following others rest) :
      ReadsInTurn item (piece ++ following) ((piece, value) :: others) rest

/-- No further item is read: nothing is left, or no item is there, or one that takes no byte. -/
def EndsAt (item : Reader α) (rest : Bytes) : Prop :=
  rest = [] ∨ (∃ fault, item rest = .error fault) ∨ ∃ value, item rest = .ok (value, rest)

/-- The slot falls into pieces that hold an item each, and a rest at which the list ends. -/
structure Decomposes (item : Reader α) (slot : Bytes) (pieces : List (Bytes × α)) (rest : Bytes) :
    Prop where
  slot_eq : slot = (pieces.map (·.1)).flatten ++ rest
  inTurn : ReadsInTurn item slot pieces rest
  nonempty : ∀ entry ∈ pieces, entry.1 ≠ []
  ends : EndsAt item rest

theorem ReadsInTurn.bytes_eq (h : ReadsInTurn item bytes pieces rest) :
    bytes = (pieces.map (·.1)).flatten ++ rest := by
  induction h with
  | nil rest => rfl
  | cons _ _ ih => rw [List.map_cons, List.flatten_cons, List.append_assoc, ← ih]

theorem ReadsInTurn.decomposes (h : ReadsInTurn item slot pieces rest)
    (hnonempty : ∀ entry ∈ pieces, entry.1 ≠ []) (hends : EndsAt item rest) :
    Decomposes item slot pieces rest :=
  ⟨h.bytes_eq, h, hnonempty, hends⟩

/-- Where the list ends no item is read from a piece of its own. -/
theorem EndsAt.piece_eq_nil {piece following : Bytes} {value : α} (h : EndsAt item (piece ++ following))
    (hread : item (piece ++ following) = .ok (value, following)) : piece = [] := by
  rcases h with hnil | ⟨fault, hfault⟩ | ⟨other, hother⟩
  · exact (List.append_eq_nil_iff.1 hnil).1
  · rw [hfault] at hread
    cases hread
  · rw [hother] at hread
    have hsame : piece ++ following = following := (Prod.mk.inj (Except.ok.inj hread)).2
    exact List.append_left_eq_self.1 hsame

/-- What is read at the front of a slot settles the first piece, and what is left the others. -/
theorem ReadsInTurn.unique (h : ReadsInTurn item slot pieces rest)
    (h' : ReadsInTurn item slot others last) (hpieces : ∀ entry ∈ pieces, entry.1 ≠ [])
    (hothers : ∀ entry ∈ others, entry.1 ≠ []) (hrest : EndsAt item rest)
    (hlast : EndsAt item last) : pieces = others ∧ rest = last := by
  induction h generalizing others with
  | nil rest =>
    cases h' with
    | nil => exact ⟨rfl, rfl⟩
    | cons hread _ => exact absurd (hrest.piece_eq_nil hread) (hothers _ List.mem_cons_self)
  | @cons piece following rest value tail hread htail ih =>
    generalize hslot : piece ++ following = slot at h' hread
    cases h' with
    | nil =>
      subst hslot
      exact absurd (hlast.piece_eq_nil hread) (hpieces _ List.mem_cons_self)
    | @cons piece' following' _ value' tail' hread' htail' =>
      rw [hread'] at hread
      obtain ⟨rfl, rfl⟩ := Prod.mk.inj (Except.ok.inj hread)
      obtain rfl := List.append_cancel_right hslot
      obtain ⟨rfl, rfl⟩ := ih htail' (fun entry hentry => hpieces entry (List.mem_cons_of_mem _ hentry))
        (fun entry hentry => hothers entry (List.mem_cons_of_mem _ hentry)) hrest
      exact ⟨rfl, rfl⟩

theorem Decomposes.unique (h : Decomposes item slot pieces rest)
    (h' : Decomposes item slot others last) : pieces = others ∧ rest = last :=
  h.inTurn.unique h'.inTurn h.nonempty h'.nonempty h.ends h'.ends

theorem exists_decomposes (hlocal : Local item) (slot : Bytes) :
    ∃ pieces rest, Decomposes item slot pieces rest ∧ packed item slot = pieces.map (·.2) := by
  fun_induction packed item slot with
  | case1 slot fault hfault =>
    exact ⟨[], slot, (ReadsInTurn.nil slot).decomposes (by simp) (.inr (.inl ⟨fault, hfault⟩)), rfl⟩
  | case2 slot value following hread hlt ih =>
    obtain ⟨piece, rfl, -⟩ := hlocal slot value following hread
    obtain ⟨pieces, rest, hpieces, hvalues⟩ := ih
    have hpiece : piece ≠ [] := by
      rintro rfl
      exact absurd hlt (Nat.lt_irrefl _)
    refine ⟨(piece, value) :: pieces, rest, ?_, by rw [hvalues, List.map_cons]⟩
    refine (ReadsInTurn.cons hread hpieces.inTurn).decomposes (fun entry hentry => ?_) hpieces.ends
    rcases List.mem_cons.1 hentry with rfl | hentry
    · exact hpiece
    · exact hpieces.nonempty entry hentry
  | case3 slot value following hread hge =>
    obtain ⟨piece, rfl, -⟩ := hlocal slot value following hread
    have hpiece : piece = [] := by
      rw [List.length_append] at hge
      exact List.eq_nil_of_length_eq_zero (by omega)
    subst hpiece
    exact ⟨[], following, (ReadsInTurn.nil following).decomposes (by simp) (.inr (.inr ⟨value, hread⟩)),
      rfl⟩

theorem Decomposes.packed_eq (hlocal : Local item) (h : Decomposes item slot pieces rest) :
    packed item slot = pieces.map (·.2) := by
  obtain ⟨found, left, hfound, hvalues⟩ := exists_decomposes hlocal slot
  rw [hvalues, (hfound.unique h).1]

/-- Pieces that each hold an item by themselves are read in turn before any other bytes. -/
theorem readsInTurn_of_complete (hlocal : Local item)
    (h : ∀ entry ∈ pieces, item entry.1 = .ok (entry.2, [])) (rest : Bytes) :
    ReadsInTurn item ((pieces.map (·.1)).flatten ++ rest) pieces rest := by
  induction pieces with
  | nil => exact .nil rest
  | cons entry others ih =>
    obtain ⟨piece, value⟩ := entry
    obtain ⟨taken, htaken, hread⟩ := hlocal piece value [] (h (piece, value) List.mem_cons_self)
    rw [List.append_nil] at htaken
    subst htaken
    rw [List.map_cons, List.flatten_cons, List.append_assoc]
    exact .cons (hread _) (ih fun entry hentry => h entry (List.mem_cons_of_mem _ hentry))

/-- The items of a counted list are read in turn. -/
theorem exists_readsInTurn (hlocal : Local item) {count : Nat} {values : List α}
    (h : readTimes item count bytes = .ok (values, rest)) :
    ∃ pieces, ReadsInTurn item bytes pieces rest ∧ pieces.map (·.2) = values := by
  induction count generalizing bytes values with
  | zero =>
    obtain ⟨rfl, rfl⟩ := Prod.mk.inj (Except.ok.inj h)
    exact ⟨[], .nil _, rfl⟩
  | succ count ih =>
    obtain ⟨value, following, hitem, h⟩ := Reader.exists_of_bind h
    obtain ⟨tail, left, htimes, h⟩ := Reader.exists_of_bind h
    obtain ⟨rfl, rfl⟩ := Prod.mk.inj (Except.ok.inj h)
    obtain ⟨piece, rfl, -⟩ := hlocal bytes value following hitem
    obtain ⟨pieces, hpieces, rfl⟩ := ih htimes
    exact ⟨(piece, value) :: pieces, .cons hitem hpieces, rfl⟩

/-- Behind its four bytes of count, a counted list has as many items as they say. -/
theorem readTimes_of_readList {count body : Bytes} {values : List α} (hcount : count.length = 4)
    (h : readList item (count ++ body) = .ok (values, rest)) :
    readTimes item (naturalOf count) body = .ok (values, rest) := by
  have hword : readWord .u32 (count ++ body) = .ok (naturalOf count, body) := by
    have htake : take Word.u32.width (count ++ body) = .ok (count, body) := take_append hcount
    rw [readWord, Reader.bind_apply, htake]
    rfl
  rwa [readList, Reader.bind_apply, hword] at h

/-- A slot has one decomposition, and the packed list is made of its items. So complete items before
bytes that hold none are all of the list, and the items of a counted list that fills its bytes are
those of the packed list behind the count. -/
theorem packed_list_is_the_decomposition (spec : NestedSpec) :
    (∀ slot, ∃ pieces rest, Decomposes spec.read slot pieces rest ∧
      packed spec.read slot = pieces.map (·.2) ∧
      ∀ others last, Decomposes spec.read slot others last → others = pieces ∧ last = rest) ∧
    (∀ (pieces : List (Bytes × Datum)) (garbage : Bytes) (fault : Fault),
      (∀ entry ∈ pieces, entry.1 ≠ [] ∧ spec.read entry.1 = .ok (entry.2, [])) →
      spec.read garbage = .error fault →
      packed spec.read ((pieces.map (·.1)).flatten ++ garbage) = pieces.map (·.2)) ∧
    ∀ (count body : Bytes) (values : List Datum), count.length = 4 →
      readList spec.read (count ++ body) = .ok (values, []) →
      ∃ pieces, ReadsInTurn spec.read body pieces [] ∧ pieces.map (·.2) = values ∧
        ((∀ entry ∈ pieces, entry.1 ≠ []) → packed spec.read body = values) := by
  have hlocal : Local spec.read := spec.local_read
  refine ⟨fun slot => ?_, fun pieces garbage fault hpieces hgarbage => ?_,
    fun count body values hcount hlist => ?_⟩
  · obtain ⟨pieces, rest, h, hvalues⟩ := exists_decomposes hlocal slot
    exact ⟨pieces, rest, h, hvalues, fun others last hother => hother.unique h⟩
  · have hturn := readsInTurn_of_complete hlocal (fun entry hentry => (hpieces entry hentry).2) garbage
    have hends : EndsAt spec.read garbage := .inr (.inl ⟨fault, hgarbage⟩)
    exact (hturn.decomposes (fun entry hentry => (hpieces entry hentry).1) hends).packed_eq hlocal
  · obtain ⟨pieces, hturn, rfl⟩ := exists_readsInTurn hlocal (readTimes_of_readList hcount hlist)
    exact ⟨pieces, hturn, rfl, fun hnonempty =>
      (hturn.decomposes hnonempty (.inl rfl)).packed_eq hlocal⟩

/-- A stake is an amount and an epoch. -/
def stakeSpec : NestedSpec :=
  .record [.scalar .natural, .scalar (.word .u8)]

/-- Two stakes and the bytes they are written in. -/
def stakePieces : List (Bytes × Datum) :=
  [([0, 0, 0, 1, 5, 7], .items [.scalar (.integer 5), .scalar (.unsigned 7)]),
    ([0, 0, 0, 0, 9], .items [.scalar (.integer 0), .scalar (.unsigned 9)])]

/-- A third stake that lacks its epoch is passed over, and without the count in front the same stakes
are read. -/
theorem packed_stakes_are_the_decomposition :
    (∀ entry ∈ stakePieces, entry.1 ≠ [] ∧ stakeSpec.read entry.1 = .ok (entry.2, [])) ∧
    packed stakeSpec.read ((stakePieces.map (·.1)).flatten ++ [0, 0, 0, 1, 5]) =
      stakePieces.map (·.2) ∧
    ∃ pieces, ReadsInTurn stakeSpec.read [0, 0, 0, 1, 5, 7, 0, 0, 0, 0, 9] pieces [] ∧
      pieces.map (·.2) = stakePieces.map (·.2) := by
  obtain ⟨-, hcomplete, hcounted⟩ := packed_list_is_the_decomposition stakeSpec
  have hpieces : ∀ entry ∈ stakePieces,
      entry.1 ≠ [] ∧ stakeSpec.read entry.1 = .ok (entry.2, []) := by
    intro entry hentry
    rcases List.mem_pair.1 hentry with rfl | rfl
    · exact ⟨List.cons_ne_nil _ _, by cbv⟩
    · exact ⟨List.cons_ne_nil _ _, by cbv⟩
  have hgarbage : stakeSpec.read [0, 0, 0, 1, 5] = .error (.insufficientData 1 0) := by cbv
  have hlist : readList stakeSpec.read ([0, 0, 0, 2] ++ [0, 0, 0, 1, 5, 7, 0, 0, 0, 0, 9]) =
      .ok (stakePieces.map (·.2), []) := by cbv
  obtain ⟨pieces, hturn, hvalues, -⟩ := hcounted [0, 0, 0, 2] _ _ rfl hlist
  exact ⟨hpieces, hcomplete stakePieces [0, 0, 0, 1, 5] _ hpieces hgarbage, pieces, hturn, hvalues⟩

end ContractAbi.Wire
