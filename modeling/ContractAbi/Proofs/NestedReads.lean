import ContractAbi.Proofs.Scalars
import ContractAbi.Wire.Cursor

/-!
# Reads on a cursor

A reader takes bytes from the front and decides on them alone. Reading on a cursor is reading from
the bytes that are left: a read that succeeds moves the cursor over what the reader takes, and one
that fails leaves it where it was, however far its steps had come.
-/
namespace ContractAbi.Wire

variable {α β : Type}

/-- What the reader takes decides what it reads, whatever lies behind it. -/
def Local (reader : Reader α) : Prop :=
  ∀ bytes value rest, reader bytes = .ok (value, rest) →
    ∃ taken, bytes = taken ++ rest ∧ ∀ others, reader (taken ++ others) = .ok (value, others)

theorem Local.lift {result : Except Fault α} : Local (liftM result : Reader α) := by
  intro bytes value rest h
  cases result with
  | error fault => cases h
  | ok other =>
    obtain ⟨rfl, rfl⟩ := Prod.mk.inj (Except.ok.inj h)
    exact ⟨[], rfl, fun _ => rfl⟩

theorem Local.pure {value : α} : Local (Pure.pure value : Reader α) := by
  intro bytes result rest h
  obtain ⟨rfl, rfl⟩ := Prod.mk.inj (Except.ok.inj h)
  exact ⟨[], rfl, fun _ => rfl⟩

theorem Local.bind {first : Reader α} {next : α → Reader β} (hfirst : Local first)
    (hnext : ∀ value, Local (next value)) : Local (first >>= next) := by
  intro bytes result rest h
  obtain ⟨value, middle, hf, hlast⟩ := Reader.exists_of_bind h
  obtain ⟨front, rfl, hfront⟩ := hfirst bytes value middle hf
  obtain ⟨back, rfl, hback⟩ := hnext value middle result rest hlast
  refine ⟨front ++ back, (List.append_assoc _ _ _).symm, fun others => ?_⟩
  rw [Reader.bind_apply, List.append_assoc, hfront]
  exact hback others

theorem local_take (needed : Nat) : Local (take needed) := by
  intro bytes value rest h
  obtain ⟨hlength, rfl⟩ := take_ok h
  exact ⟨value, rfl, fun _ => take_append hlength⟩

theorem local_readWord (word : Word) : Local (readWord word) :=
  (local_take _).bind fun _ => .pure

theorem local_readByte : Local readByte :=
  (local_readWord _).bind fun _ => .pure

theorem local_readPayload : Local readPayload :=
  (local_readWord _).bind local_take

theorem Codec.local_read (codec : Codec) : Local codec.read := by
  cases codec with
  | bool => exact local_readByte.bind fun _ => .lift
  | word size => exact (local_readWord size).bind fun _ => .pure
  | natural => exact local_readPayload.bind fun _ => .pure
  | integer => exact local_readPayload.bind fun _ => .pure
  | text => exact local_readPayload.bind fun _ => Local.lift.bind fun _ => .pure
  | bytes => exact local_readPayload.bind fun _ => .pure
  | address => exact (local_take _).bind fun _ => .pure

theorem local_readTimes {item : Reader α} (hitem : Local item) (count : Nat) :
    Local (readTimes item count) := by
  induction count with
  | zero => exact .pure
  | succ count ih => exact hitem.bind fun _ => ih.bind fun _ => .pure

theorem local_readList {item : Reader α} (hitem : Local item) : Local (readList item) :=
  (local_readWord _).bind fun _ => local_readTimes hitem _

mutual

theorem NestedSpec.local_read : (spec : NestedSpec) → Local spec.read
  | .scalar codec => by
    rw [read]
    exact codec.local_read.bind fun _ => .pure
  | .nothing => by
    rw [read]
    exact .pure
  | .list item => by
    rw [read]
    exact (local_readList item.local_read).bind fun _ => .pure
  | .record members => by
    rw [read]
    exact (local_readMembers members).bind fun _ => .pure

theorem NestedSpec.local_readMembers : (members : List NestedSpec) → Local (readMembers members)
  | [] => by
    rw [readMembers]
    exact .pure
  | member :: rest => by
    rw [readMembers]
    exact member.local_read.bind fun _ => (local_readMembers rest).bind fun _ => .pure

end

namespace Cursor

/-- The cursor stands in its bytes or at their end. -/
def Stands (cursor : Cursor) : Prop :=
  cursor.offset ≤ cursor.data.length

theorem stands_start (data : Bytes) : (start data).Stands :=
  Nat.zero_le _

theorem length_rest (cursor : Cursor) : cursor.rest.length = cursor.remaining :=
  List.length_drop

end Cursor

namespace Scan

/-- The scan reads what the reader reads from the bytes that are left, and moves the cursor over what
the reader takes. If the reader fails so does the scan, and the cursor may stand anywhere. -/
def Mirrors (scan : Scan α) (reader : Reader α) : Prop :=
  ∀ cursor : Cursor, cursor.Stands →
    match reader cursor.rest with
    | .ok (value, rest) => ∃ after, scan cursor = .ok value after ∧
        after.data = cursor.data ∧ after.Stands ∧ after.rest = rest
    | .error fault => ∃ after, scan cursor = .error fault after ∧ after.data = cursor.data

/-- If the scan fails the cursor is where it was. -/
def Restores (scan : Scan α) : Prop :=
  ∀ cursor : Cursor, cursor.Stands → ∀ fault after, scan cursor = .error fault after → after = cursor

theorem bind_apply (first : Scan α) (next : α → Scan β) (cursor : Cursor) :
    (first >>= next) cursor =
      match first cursor with
      | .ok value after => next value after
      | .error fault after => .error fault after := by
  simp only [bind, EStateM.bind]
  cases first cursor <;> rfl

theorem Mirrors.check (result : Except Fault α) : Mirrors (check result) (liftM result) := by
  intro cursor hstands
  cases result with
  | ok value => exact ⟨cursor, rfl, rfl, hstands, rfl⟩
  | error fault => exact ⟨cursor, rfl, rfl⟩

theorem Mirrors.pure (value : α) : Mirrors (Pure.pure value) (Pure.pure value) :=
  Mirrors.check (.ok value)

theorem Mirrors.bind {first : Scan α} {reader : Reader α} {next : α → Scan β}
    {continued : α → Reader β} (hfirst : Mirrors first reader)
    (hnext : ∀ value, Mirrors (next value) (continued value)) :
    Mirrors (first >>= next) (reader >>= continued) := by
  intro cursor hstands
  have hf := hfirst cursor hstands
  rw [Reader.bind_apply, bind_apply]
  cases hr : reader cursor.rest with
  | error fault =>
    simp only [hr] at hf ⊢
    obtain ⟨after, hscan, hdata⟩ := hf
    exact ⟨after, by rw [hscan], hdata⟩
  | ok pair =>
    obtain ⟨value, middle⟩ := pair
    simp only [hr] at hf ⊢
    obtain ⟨between, hscan, hdata, hbetween, rfl⟩ := hf
    have hn := hnext value between hbetween
    cases hc : continued value between.rest with
    | error fault =>
      simp only [hc, hscan] at hn ⊢
      obtain ⟨after, hafter, hsame⟩ := hn
      exact ⟨after, hafter, hsame.trans hdata⟩
    | ok pair =>
      simp only [hc, hscan] at hn ⊢
      obtain ⟨after, hafter, hsame, hlast⟩ := hn
      exact ⟨after, hafter, hsame.trans hdata, hlast⟩

theorem Mirrors.atomic {scan : Scan α} {reader : Reader α} (h : Mirrors scan reader) :
    Mirrors (Scan.atomic scan) reader := by
  intro cursor hstands
  have hf := h cursor hstands
  rw [Scan.atomic]
  cases hr : reader cursor.rest with
  | error fault =>
    simp only [hr] at hf ⊢
    obtain ⟨after, hscan, hdata⟩ := hf
    exact ⟨{ after with offset := cursor.offset }, by rw [hscan], hdata⟩
  | ok pair =>
    simp only [hr] at hf ⊢
    obtain ⟨after, hscan, hafter⟩ := hf
    exact ⟨after, by rw [hscan], hafter⟩

theorem mirrors_take (needed : Nat) : Mirrors (take needed) (Wire.take needed) := by
  intro cursor hstands
  have hlength : cursor.rest.length = cursor.remaining := cursor.length_rest
  rw [Wire.take, take, hlength]
  by_cases h : cursor.remaining < needed
  · simp only [if_pos h]
    exact ⟨cursor, rfl, rfl⟩
  · simp only [if_neg h]
    refine ⟨_, rfl, rfl, ?_, ?_⟩
    · simp only [Cursor.Stands, Cursor.remaining] at hstands h ⊢
      omega
    · simp only [Cursor.rest, List.drop_drop]

theorem mirrors_word (size : Word) : Mirrors (word size) (readWord size) :=
  (mirrors_take _).bind fun _ => .pure _

theorem mirrors_byte : Mirrors byte readByte :=
  (mirrors_word _).bind fun _ => .pure _

theorem mirrors_payload : Mirrors payload readPayload :=
  (mirrors_word _).bind mirrors_take

theorem Mirrors.times {item : Scan α} {reader : Reader α} (h : Mirrors item reader) (count : Nat) :
    Mirrors (times item count) (readTimes reader count) := by
  induction count with
  | zero => exact .pure _
  | succ count ih => exact h.bind fun _ => ih.bind fun _ => .pure _

theorem Mirrors.list {item : Scan α} {reader : Reader α} (h : Mirrors item reader) :
    Mirrors (list item) (readList reader) :=
  ((mirrors_word _).bind fun count => h.times count).atomic

theorem Restores.pure (value : α) : Restores (Pure.pure value : Scan α) :=
  fun _ _ _ _ h => by cases h

theorem restores_take (needed : Nat) : Restores (take needed) := by
  intro cursor _ fault after h
  rw [take] at h
  split at h
  · exact (EStateM.Result.error.inj h).2.symm
  · cases h

/-- What is made of a value does not move the cursor. -/
theorem Restores.map {scan : Scan α} (h : Restores scan) (f : α → β) :
    Restores (do return f (← scan)) := by
  intro cursor hstands fault after hrun
  rw [bind_apply] at hrun
  cases hs : scan cursor with
  | ok value middle =>
    rw [hs] at hrun
    cases hrun
  | error cause middle =>
    rw [hs] at hrun
    obtain ⟨rfl, rfl⟩ := EStateM.Result.error.inj hrun
    exact h cursor hstands _ _ hs

/-- Only the offset has to be put back, for no step changes the bytes. -/
theorem Mirrors.restores {scan : Scan α} {reader : Reader α} (h : Mirrors scan reader) :
    Restores (Scan.atomic scan) := by
  intro cursor hstands fault after hrun
  have hf := h cursor hstands
  rw [Scan.atomic] at hrun
  cases hr : reader cursor.rest with
  | ok pair =>
    simp only [hr] at hf
    obtain ⟨middle, hscan, -⟩ := hf
    rw [hscan] at hrun
    cases hrun
  | error cause =>
    simp only [hr] at hf
    obtain ⟨middle, hscan, hdata⟩ := hf
    rw [hscan] at hrun
    rw [← (EStateM.Result.error.inj hrun).2, hdata]

end Scan

open Scan (Mirrors Restores)

theorem Codec.mirrors_scan (codec : Codec) : Mirrors codec.scan codec.read := by
  cases codec with
  | bool => exact (Scan.mirrors_byte.bind fun _ => .check _).atomic
  | word size => exact (Scan.mirrors_word size).bind fun _ => .pure _
  | natural => exact (Scan.mirrors_payload.bind fun _ => .pure _).atomic
  | integer => exact (Scan.mirrors_payload.bind fun _ => .pure _).atomic
  | text =>
    exact (Scan.mirrors_payload.atomic.bind fun _ => (Mirrors.check _).bind fun _ => .pure _).atomic
  | bytes => exact Scan.mirrors_payload.atomic.bind fun _ => .pure _
  | address => exact (Scan.mirrors_take _).bind fun _ => .pure _

theorem Codec.restores_scan (codec : Codec) : Restores codec.scan := by
  cases codec with
  | bool => exact Mirrors.restores (Scan.mirrors_byte.bind fun _ => .check _)
  | word size => exact ((Scan.restores_take _).map _).map _
  | natural => exact Mirrors.restores (Scan.mirrors_payload.bind fun _ => .pure _)
  | integer => exact Mirrors.restores (Scan.mirrors_payload.bind fun _ => .pure _)
  | text =>
    exact Mirrors.restores
      (Scan.mirrors_payload.atomic.bind fun _ => (Mirrors.check _).bind fun _ => .pure _)
  | bytes => exact Scan.mirrors_payload.restores.map _
  | address => exact (Scan.restores_take _).map _

mutual

theorem NestedSpec.mirrors_scan : (spec : NestedSpec) → Mirrors spec.scan spec.read
  | .scalar codec => by
    rw [scan, read]
    exact codec.mirrors_scan.bind fun _ => .pure _
  | .nothing => by
    rw [scan, read]
    exact .pure _
  | .list item => by
    rw [scan, read]
    exact item.mirrors_scan.list.bind fun _ => .pure _
  | .record members => by
    rw [scan, read]
    exact ((mirrors_scanMembers members).bind fun _ => .pure _).atomic

theorem NestedSpec.mirrors_scanMembers : (members : List NestedSpec) →
    Mirrors (scanMembers members) (readMembers members)
  | [] => by
    rw [scanMembers, readMembers]
    exact .pure _
  | member :: rest => by
    rw [scanMembers, readMembers]
    exact member.mirrors_scan.bind fun _ => (mirrors_scanMembers rest).bind fun _ => .pure _

end

theorem NestedSpec.restores_scan (spec : NestedSpec) : Restores spec.scan := by
  cases spec with
  | scalar codec =>
    rw [scan]
    exact codec.restores_scan.map _
  | nothing =>
    rw [scan]
    exact .pure _
  | list item =>
    rw [scan]
    exact (Mirrors.restores ((Scan.mirrors_word _).bind fun _ => item.mirrors_scan.times _)).map _
  | record members =>
    rw [scan]
    exact Mirrors.restores ((mirrors_scanMembers members).bind fun _ => .pure _)

variable {spec : NestedSpec} {cursor : Cursor} {taken later : Bytes} {value : Datum}

theorem Cursor.eq_of_rest {after : Cursor} (hstands : after.Stands) (hdata : after.data = cursor.data)
    (hbefore : cursor.Stands) (hrest : cursor.rest = taken ++ after.rest) :
    after = { cursor with offset := cursor.offset + taken.length } := by
  have hlength := congrArg List.length hrest
  rw [List.length_append, length_rest, length_rest, remaining, remaining, hdata] at hlength
  rw [Stands, hdata] at hstands
  rw [Stands] at hbefore
  have hoffset : after.offset = cursor.offset + taken.length := by omega
  rw [← hdata, ← hoffset]

/-- What a read comes to that takes so many bytes if it succeeds and none if it fails. -/
def Cursor.outcome (cursor : Cursor) (taken : Nat) : Except Fault α → EStateM.Result Fault Cursor α
  | .ok value => .ok value { cursor with offset := cursor.offset + taken }
  | .error fault => .error fault cursor

/-- A scan comes to what its reader makes of the bytes in front of which the cursor stands. -/
theorem Scan.Mirrors.scan_eq {scan : Scan α} {reader : Reader α} {result : Except Fault α}
    (hmirrors : Mirrors scan reader) (hrestores : Restores scan)
    (hread : reader (taken ++ later) = result.map (·, later)) (hstands : cursor.Stands)
    (hrest : cursor.rest = taken ++ later) : scan cursor = cursor.outcome taken.length result := by
  have hscan := hmirrors cursor hstands
  rw [hrest, hread] at hscan
  cases result with
  | ok value =>
    obtain ⟨after, hafter, hdata, hlast, rfl⟩ := hscan
    rw [hafter, Cursor.eq_of_rest hlast hdata hstands hrest]
    rfl
  | error fault =>
    obtain ⟨after, hafter, -⟩ := hscan
    rw [hrestores cursor hstands fault after hafter] at hafter
    exact hafter

/-- Wherever the cursor stands before bytes that are read, it moves over them. -/
theorem NestedSpec.scan_of_read (hread : ∀ others, spec.read (taken ++ others) = .ok (value, others))
    (hstands : cursor.Stands) (hrest : cursor.rest = taken ++ later) :
    spec.scan cursor = .ok value { cursor with offset := cursor.offset + taken.length } := by
  have hok : spec.read (taken ++ later) = (Except.ok value).map (·, later) := hread later
  exact spec.mirrors_scan.scan_eq spec.restores_scan hok hstands hrest

theorem NestedSpec.scan_cases (spec : NestedSpec) (hstands : cursor.Stands) :
    (∃ fault, spec.scan cursor = .error fault cursor) ∨
      ∃ value taken later, cursor.rest = taken ++ later ∧
        ∀ others, spec.read (taken ++ others) = .ok (value, others) := by
  have hmirrors := spec.mirrors_scan cursor hstands
  cases hread : spec.read cursor.rest with
  | error fault =>
    simp only [hread] at hmirrors
    obtain ⟨after, hscan, -⟩ := hmirrors
    rw [spec.restores_scan cursor hstands fault after hscan] at hscan
    exact .inl ⟨fault, hscan⟩
  | ok pair =>
    obtain ⟨value, rest⟩ := pair
    obtain ⟨taken, hrest, hlocal⟩ := spec.local_read cursor.rest value rest hread
    exact .inr ⟨value, taken, rest, hrest, hlocal⟩

/-- What a read of a sequence over some bytes leaves behind. -/
structure Attempt.Sound (attempt : Attempt) (data : Bytes) : Prop where
  data_eq : attempt.after.data = data
  stands : attempt.after.offset ≤ data.length
  /-- A failed read leaves the cursor where it was. -/
  failed : ∀ fault, attempt.result = .error fault → attempt.after = attempt.before
  /-- The bytes that were taken are read alike behind any bytes and before any. -/
  read : ∀ value, attempt.result = .ok value → ∃ front taken back, data = front ++ taken ++ back ∧
    attempt.before.offset = front.length ∧ attempt.after.offset = front.length + taken.length ∧
      ∀ earlier later : Bytes, attempt.spec.scan ⟨earlier ++ taken ++ later, earlier.length⟩ =
        .ok value ⟨earlier ++ taken ++ later, earlier.length + taken.length⟩

namespace Cursor

theorem attempt_of_error {fault : Fault} {after : Cursor} (h : spec.scan cursor = .error fault after) :
    cursor.attempt spec = ⟨spec, cursor, .error fault, after⟩ := by
  rw [attempt, h]

theorem attempt_of_ok {after : Cursor} (h : spec.scan cursor = .ok value after) :
    cursor.attempt spec = ⟨spec, cursor, .ok value, after⟩ := by
  rw [attempt, h]

theorem sound_attempt (hstands : cursor.Stands) : (cursor.attempt spec).Sound cursor.data := by
  rcases spec.scan_cases hstands with ⟨fault, hscan⟩ | ⟨value, taken, later, hrest, hread⟩
  · rw [attempt_of_error hscan]
    exact ⟨rfl, hstands, fun _ _ => rfl, fun _ h => by cases h⟩
  · have hsplit : cursor.data = cursor.data.take cursor.offset ++ taken ++ later := by
      rw [List.append_assoc, ← hrest, rest, List.take_append_drop]
    have hfront : (cursor.data.take cursor.offset).length = cursor.offset :=
      List.length_take_of_le hstands
    have hlength := congrArg List.length hsplit
    rw [List.length_append, List.length_append, hfront] at hlength
    rw [attempt_of_ok (NestedSpec.scan_of_read hread hstands hrest)]
    refine ⟨rfl, by simp only; omega, fun _ h => by (cases h), fun other hother => ?_⟩
    obtain rfl := Except.ok.inj hother
    refine ⟨_, taken, later, hsplit, hfront.symm, by rw [hfront], fun earlier later => ?_⟩
    refine NestedSpec.scan_of_read hread ?_ (?_ : _ = taken ++ later)
    · simp only [Stands, List.length_append]
      omega
    · simp only [rest, List.append_assoc, List.drop_left]

theorem stands_attempt (hstands : cursor.Stands) : (cursor.attempt spec).after.Stands := by
  have hsound : (cursor.attempt spec).Sound cursor.data := sound_attempt hstands
  rw [Stands, hsound.data_eq]
  exact hsound.stands

theorem sound_of_mem_attempts (hstands : cursor.Stands) {specs : List NestedSpec} :
    ∀ attempt ∈ cursor.attempts specs, attempt.Sound cursor.data := by
  induction specs generalizing cursor with
  | nil => exact fun _ h => absurd h List.not_mem_nil
  | cons spec rest ih =>
    have hfirst : (cursor.attempt spec).Sound cursor.data := sound_attempt hstands
    intro attempt hattempt
    rcases List.mem_cons.1 hattempt with rfl | hattempt
    · exact hfirst
    · rw [← hfirst.data_eq]
      exact ih (stands_attempt hstands) attempt hattempt

@[simp] theorem spec_attempt (cursor : Cursor) (spec : NestedSpec) : (cursor.attempt spec).spec = spec := by
  rw [attempt]
  split <;> rfl

@[simp] theorem before_attempt (cursor : Cursor) (spec : NestedSpec) :
    (cursor.attempt spec).before = cursor := by
  rw [attempt]
  split <;> rfl

/-- A read that fails is as if it had not been tried. -/
theorem attempts_filter (hstands : cursor.Stands) {specs : List NestedSpec} {keep : Attempt → Bool}
    (hkeep : ∀ attempt ∈ cursor.attempts specs, attempt.succeeded = true → keep attempt = true) :
    cursor.attempts (((cursor.attempts specs).filter keep).map (·.spec)) =
      (cursor.attempts specs).filter keep := by
  induction specs generalizing cursor with
  | nil => rfl
  | cons spec rest ih =>
    have hrest : ∀ attempt ∈ (cursor.attempt spec).after.attempts rest,
        attempt.succeeded = true → keep attempt = true :=
      fun attempt hattempt => hkeep attempt (List.mem_cons_of_mem _ hattempt)
    rw [attempts]
    by_cases hfirst : keep (cursor.attempt spec) = true
    · rw [List.filter_cons_of_pos hfirst, List.map_cons, spec_attempt, attempts,
        ih (stands_attempt hstands) hrest]
    · rw [List.filter_cons_of_neg hfirst]
      cases hresult : (cursor.attempt spec).result with
      | ok value =>
        refine absurd (hkeep _ List.mem_cons_self ?_) hfirst
        rw [Attempt.succeeded, hresult]
        rfl
      | error fault =>
        have hsame := (sound_attempt hstands).failed fault hresult
        rw [before_attempt] at hsame
        rw [hsame] at hrest ⊢
        exact ih hstands hrest

/-- Whatever is read one after the other on a cursor, each read moves it over bytes of its own or
leaves it where it was, and leaving out reads that fail changes no other. -/
theorem reads_are_atomic_and_local (data : Bytes) (specs : List NestedSpec) :
    (∀ attempt ∈ (start data).attempts specs, attempt.Sound data) ∧
      ∀ keep : Attempt → Bool,
        (∀ attempt ∈ (start data).attempts specs, attempt.succeeded = true → keep attempt = true) →
        (start data).attempts ((((start data).attempts specs).filter keep).map (·.spec)) =
          ((start data).attempts specs).filter keep :=
  ⟨sound_of_mem_attempts (stands_start data), fun _ hkeep => attempts_filter (stands_start data) hkeep⟩

/-- A payload of two bytes that are no text, and one byte behind it. -/
def brokenText : Bytes := [0, 0, 0, 2, 0xC3, 0x28, 1]

/-- A text that is none, a list with an item that is no boolean and a record without its last member,
and two reads of what is there. -/
def brokenTextReads : List NestedSpec :=
  [.scalar .text, .list (.scalar .bool), .record [.scalar (.word .u32), .scalar .bytes],
    .scalar .bytes, .scalar .bool]

theorem brokenText_reads_alike_without_failures :
    ((start brokenText).attempts brokenTextReads).map
        (fun attempt => (attempt.succeeded, attempt.after.offset)) =
      [(false, 0), (false, 0), (false, 0), (true, 6), (true, 7)] ∧
    (∀ attempt ∈ (start brokenText).attempts brokenTextReads, attempt.Sound brokenText) ∧
    (start brokenText).attempts [.scalar .bytes, .scalar .bool] =
      ((start brokenText).attempts brokenTextReads).filter Attempt.succeeded := by
  obtain ⟨hsound, hfilter⟩ := reads_are_atomic_and_local brokenText brokenTextReads
  exact ⟨by decide +kernel, hsound, hfilter Attempt.succeeded fun _ _ h => h⟩

end Cursor
end ContractAbi.Wire
