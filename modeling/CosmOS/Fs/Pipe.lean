import Mathlib

/-!
# Fs.Pipe — the two interfaces of a pipe

`read_at_result` and `write_at_result` work on user memory, `read_bytes_at` and `write_bytes_at` on a buffer of the
kernel.  The ring buffer is the list of its bytes.  A call runs alone, and `fuel` bounds the turns of its loop: a
call that sleeps until another task moves, or loops for ever, has no result for any `fuel`.
-/

namespace CosmOS.Fs

open List

def ringBufferSize : ℕ := 1024

abbrev Bytes := List UInt8

inductive Errno where
  | EINTR
  deriving DecidableEq

/-- The bytes in the buffer, whether the ends are open, and `has_unmasked_pending_signal` of the caller. -/
structure Pipe where
  bytes : Bytes
  readEnd : Bool
  writeEnd : Bool
  signal : Bool
  deriving DecidableEq

def Pipe.availableWrite (p : Pipe) : ℕ := ringBufferSize - p.bytes.length

/-- The `for` loop of `read_at_result` over the bytes of the buffer, and whether it returns. -/
def copyToUser (want : ℕ) (buf : Bytes) : Bytes → Bool × Bytes × Bytes
  | [] => (false, buf, [])
  | byte :: bytes =>
    if buf.length < want then
      if buf.length + 1 = want then (true, buf ++ [byte], bytes)
      else copyToUser want (buf ++ [byte]) bytes
    else (true, buf, byte :: bytes)

/-- The `for` loop of `read_bytes_at`, which asks before each byte. -/
def copyToSlice (want : ℕ) (buf : Bytes) : Bytes → Bool × Bytes × Bytes
  | [] => (false, buf, [])
  | byte :: bytes =>
    if buf.length = want then (true, buf, byte :: bytes) else copyToSlice want (buf ++ [byte]) bytes

/-- The outer loop of a read.  Without a signal nothing ends its wait. -/
def readLoop (copy : Bytes → Bytes → Bool × Bytes × Bytes) :
    ℕ → Bytes → Pipe → Option (Except Errno (Bytes) × Pipe)
  | 0, _, _ => none
  | fuel + 1, buf, p =>
    if p.bytes = [] then
      if buf ≠ [] ∨ p.writeEnd = false then some (.ok buf, p)
      else if p.signal then some (.error .EINTR, p) else none
    else match copy buf p.bytes with
      | (true, buf, bytes) => some (.ok buf, { p with bytes })
      | (false, buf, bytes) => readLoop copy fuel buf { p with bytes }

def readAtResult (want : ℕ) (p : Pipe) (fuel : ℕ) := readLoop (copyToUser want) fuel [] p

def readBytesAt (want : ℕ) (p : Pipe) (fuel : ℕ) := readLoop (copyToSlice want) fuel [] p

/-- The `for` loop of `write_at_result`, on the data that is left. -/
def copyFromUser : ℕ → Bytes → Bytes → Bool × Bytes × Bytes
  | 0, data, bytes => (false, data, bytes)
  | _ + 1, [], bytes => (true, [], bytes)
  | n + 1, byte :: data, bytes =>
    if data = [] then (true, [], bytes ++ [byte]) else copyFromUser n data (bytes ++ [byte])

/-- The `for` loop of `write_bytes_at`. -/
def copyFromSlice : ℕ → Bytes → Bytes → Bool × Bytes × Bytes
  | 0, data, bytes => (false, data, bytes)
  | _ + 1, [], bytes => (true, [], bytes)
  | n + 1, byte :: data, bytes => copyFromSlice n data (bytes ++ [byte])

/-- The outer loop of a write of `want` bytes.  A closed read end ends the wait, but only `write_at_result` asks for
it before it writes. -/
def writeLoop (asksClosed : Bool) (copy : ℕ → Bytes → Bytes → Bool × Bytes × Bytes)
    (want : ℕ) : ℕ → Bytes → Pipe → Option (Except Errno ℕ × Pipe)
  | 0, _, _ => none
  | fuel + 1, data, p =>
    if asksClosed && !p.readEnd then some (.ok (want - data.length), p)
    else if p.availableWrite = 0 then
      if p.signal then
        some (if data.length < want then .ok (want - data.length) else .error .EINTR, p)
      else if p.readEnd then none
      else writeLoop asksClosed copy want fuel data p
    else match copy p.availableWrite data p.bytes with
      | (true, data, bytes) => some (.ok (want - data.length), { p with bytes })
      | (false, data, bytes) => writeLoop asksClosed copy want fuel data { p with bytes }

def writeAtResult (data : Bytes) (p : Pipe) (fuel : ℕ) :=
  writeLoop true copyFromUser data.length fuel data p

def writeBytesAt (data : Bytes) (p : Pipe) (fuel : ℕ) :=
  writeLoop false copyFromSlice data.length fuel data p

section

variable {want fuel : ℕ} {buf data : Bytes} {p : Pipe}

/-- The reads copy the same bytes.  Only if there are no more, one can ask for them once more. -/
theorem copyTo_sim (bytes : Bytes) (hbuf : buf.length ≤ want) :
    (∃ out, copyToUser want buf bytes = (true, out) ∧ copyToSlice want buf bytes = (true, out)) ∨
      ∃ b, copyToUser want buf bytes = (b, buf ++ bytes, []) ∧
        copyToSlice want buf bytes = (false, buf ++ bytes, []) := by
  induction bytes generalizing buf with
  | nil => exact .inr ⟨false, by simp [copyToUser], by simp [copyToSlice]⟩
  | cons byte bytes ih =>
    rw [copyToUser, copyToSlice]
    rcases hbuf.lt_or_eq with hlt | heq
    · rw [if_pos hlt, if_neg hlt.ne]
      split
      next hlast =>
        cases bytes with
        | nil => exact .inr ⟨true, rfl, by simp [copyToSlice]⟩
        | cons => exact .inl ⟨_, rfl, by simp [copyToSlice, hlast]⟩
      next hmore =>
        have hroom : (buf ++ [byte]).length ≤ want := by simp; omega
        simpa using ih hroom
    · exact .inl ⟨_, if_neg heq.not_lt, if_pos heq⟩

/-- The loop of `write_at_result` returns if it runs out of data, also when the last byte fits just so. -/
theorem copyFromUser_eq (n : ℕ) (data bytes : Bytes) : copyFromUser n data bytes =
    (decide (data.length < n ∨ data ≠ [] ∧ data.length = n), data.drop n, bytes ++ data.take n) := by
  induction n generalizing data bytes with
  | zero => simp [copyFromUser]
  | succ n ih =>
    cases data with
    | nil => simp [copyFromUser]
    | cons byte data =>
      rw [copyFromUser]
      split
      next hlast =>
        subst hlast
        simp [Nat.pos_iff_ne_zero, eq_comm, em']
      next hmore =>
        rw [ih]
        simp [hmore]

/-- The loop of `write_bytes_at` returns only if there is room left. -/
theorem copyFromSlice_eq (n : ℕ) (data bytes : Bytes) : copyFromSlice n data bytes =
    (decide (data.length < n), data.drop n, bytes ++ data.take n) := by
  induction n generalizing data bytes with
  | zero => simp [copyFromSlice]
  | succ n ih =>
    cases data with
    | nil => simp [copyFromSlice]
    | cons byte data =>
      rw [copyFromSlice, ih]
      simp

theorem readLoop_sim {out : Except Errno Bytes × Pipe} (hbuf : buf.length ≤ want)
    (h : readLoop (copyToUser want) fuel buf p = some out) :
    readLoop (copyToSlice want) (fuel + 1) buf p = some out := by
  cases fuel with
  | zero => cases h
  | succ fuel =>
    rw [readLoop] at h ⊢
    split
    next hempty => rwa [if_pos hempty] at h
    next hmore =>
      rw [if_neg hmore] at h
      rcases copyTo_sim p.bytes hbuf with ⟨_, huser, hslice⟩ | ⟨b, huser, hslice⟩ <;>
        rw [huser] at h <;> rw [hslice]
      · exact h
      · -- the next turn finds the buffer empty
        cases b with
        | true => simpa [readLoop, hmore] using h
        | false =>
          cases fuel with
          | zero => cases h
          | succ fuel => exact h

/-- A turn that writes as much as there is room for leaves a full buffer. -/
theorem availableWrite_filled (h : p.availableWrite ≤ data.length) :
    Pipe.availableWrite { p with bytes := p.bytes ++ data.take p.availableWrite } = 0 := by
  rw [Pipe.availableWrite, length_append, length_take, min_eq_left h]
  unfold Pipe.availableWrite
  omega

/-- On a full buffer with an open read end both writes do the same. -/
theorem writeLoop_sim_full {out : Except Errno ℕ × Pipe} (hopen : p.readEnd = true)
    (hfull : p.availableWrite = 0) (h : writeLoop true copyFromUser want fuel data p = some out) :
    writeLoop false copyFromSlice want (fuel + 1) data p = some out := by
  cases fuel with
  | zero => cases h
  | succ fuel =>
    rw [writeLoop, if_neg (by simp [hopen]), if_pos hfull, if_pos hopen] at h
    rwa [writeLoop, if_neg (by simp), if_pos hfull, if_pos hopen]

theorem writeLoop_sim {out : Except Errno ℕ × Pipe} (hopen : p.readEnd = true) (hdata : data.length ≤ want)
    (hfit : p.signal = true ∨ data = [] ∨ data.length ≠ p.availableWrite)
    (h : writeLoop true copyFromUser want fuel data p = some out) :
    writeLoop false copyFromSlice want (fuel + 1) data p = some out := by
  cases fuel with
  | zero => cases h
  | succ fuel =>
    rw [writeLoop, if_neg (by simp [hopen])] at h
    rw [writeLoop, if_neg (by simp)]
    split
    next hfull =>
      rw [if_pos hfull, if_pos hopen] at h
      exact h
    next hroom =>
      rw [if_neg hroom, copyFromUser_eq] at h
      rw [copyFromSlice_eq]
      rcases lt_trichotomy data.length p.availableWrite with hlt | heq | hgt
      · rw [decide_eq_true (.inl hlt)] at h
        rwa [decide_eq_true hlt]
      · -- the data just fills the buffer: the next turn finds it full and returns for the signal
        have hsome : data ≠ [] := by
          rintro rfl
          exact hroom heq.symm
        have hsignal : p.signal = true := hfit.resolve_right (not_or.mpr ⟨hsome, not_not.mpr heq⟩)
        have hnone : (data.drop p.availableWrite).length = 0 := by rw [length_drop]; omega
        have hwant : 0 < want := (length_pos_iff.mpr hsome).trans_le hdata
        rw [decide_eq_true (.inr ⟨hsome, heq⟩)] at h
        rw [decide_eq_false heq.not_lt]
        dsimp only at h ⊢
        rwa [writeLoop, if_neg (by simp), if_pos (availableWrite_filled heq.ge), if_pos hsignal,
          if_pos (by rw [hnone]; exact hwant)]
      · -- more data than room: both go round with the buffer full
        rw [decide_eq_false (by omega)] at h
        rw [decide_eq_false hgt.not_gt]
        exact @writeLoop_sim_full _ _ _ { p with bytes := _ } _ hopen (availableWrite_filled hgt.le) h

/-- `write_bytes_at` does not return from a full buffer without a signal: it sleeps, or it loops for ever if the read
end is closed. -/
theorem writeLoop_full (hfull : p.availableWrite = 0) (hsignal : p.signal = false) :
    writeLoop false copyFromSlice want fuel data p = none := by
  induction fuel with
  | zero => rfl
  | succ fuel ih =>
    rw [writeLoop, if_neg (by simp), if_pos hfull, if_neg (by simp [hsignal])]
    split
    · rfl
    · exact ih

/-- A write takes no byte out of the buffer. -/
theorem writeLoop_grows {r : Except Errno ℕ} {p' : Pipe}
    (h : writeLoop false copyFromSlice want fuel data p = some (r, p')) :
    p.bytes.length ≤ p'.bytes.length := by
  induction fuel generalizing data p with
  | zero => cases h
  | succ fuel ih =>
    rw [writeLoop, if_neg (by simp)] at h
    split at h
    · split at h
      · cases h
        exact le_rfl
      · split at h
        · cases h
        · exact ih h
    · rw [copyFromSlice_eq] at h
      have hmore : p.bytes.length ≤ (p.bytes ++ data.take p.availableWrite).length := by simp
      rcases lt_or_ge data.length p.availableWrite with hlt | hge
      · rw [decide_eq_true hlt] at h
        cases h
        exact hmore
      · rw [decide_eq_false hge.not_gt] at h
        exact hmore.trans (ih h)

/-- With a read end closed `write_bytes_at` does not return what `write_at_result` returns, except for no
data and room for it. -/
theorem writeBytesAt_closed (hclosed : p.readEnd = false) (h : writeBytesAt data p fuel = some (.ok 0, p)) :
    data = [] ∧ p.availableWrite ≠ 0 := by
  cases fuel with
  | zero => cases h
  | succ fuel =>
    rw [writeBytesAt, writeLoop, if_neg (by simp)] at h
    split at h
    next hfull =>
      rw [if_neg (lt_irrefl _), hclosed] at h
      split at h
      · cases h
      next hsignal => cases (writeLoop_full hfull (Bool.of_not_eq_true hsignal)).symm.trans h
    next hroom =>
      refine ⟨?_, hroom⟩
      by_contra hsome
      have hwritten : 0 < (data.take p.availableWrite).length := by
        rw [length_take]
        exact lt_min (Nat.pos_of_ne_zero hroom) (length_pos_iff.mpr hsome)
      have hmore : p.bytes.length < (p.bytes ++ data.take p.availableWrite).length := by
        rw [length_append]
        omega
      rw [copyFromSlice_eq] at h
      rcases lt_or_ge data.length p.availableWrite with hlt | hge
      · rw [decide_eq_true hlt] at h
        have hsame := congrArg (fun p => p.bytes.length) (Prod.mk.inj (Option.some.inj h)).2
        exact hmore.ne' hsame
      · rw [decide_eq_false hge.not_gt] at h
        exact (writeLoop_grows h).not_gt hmore

/-- `read_bytes_at` returns what `read_at_result` returns, and leaves the same pipe. -/
def ReadsAgree (p : Pipe) (want : ℕ) : Prop :=
  ∀ out, (∃ fuel, readAtResult want p fuel = some out) → ∃ fuel, readBytesAt want p fuel = some out

/-- `write_bytes_at` returns what `write_at_result` returns, and leaves the same pipe. -/
def WritesAgree (p : Pipe) (data : Bytes) : Prop :=
  ∀ out, (∃ fuel, writeAtResult data p fuel = some out) → ∃ fuel, writeBytesAt data p fuel = some out

theorem writesAgree_of_open (hopen : p.readEnd = true) :
    WritesAgree p data ↔ p.signal = true ∨ data = [] ∨ data.length ≠ p.availableWrite := by
  constructor
  · intro hagree
    by_contra hexact
    simp only [not_or, not_not, Bool.not_eq_true] at hexact
    obtain ⟨hsignal, hsome, hfill⟩ := hexact
    have hroom : p.availableWrite ≠ 0 := fun hnone => hsome (length_eq_zero_iff.mp (hfill.trans hnone))
    -- `write_at_result` returns after the last byte
    have huser := hagree _ ⟨1, by
      rw [writeAtResult, writeLoop, if_neg (by simp [hopen]), if_neg hroom, copyFromUser_eq,
        decide_eq_true (.inr ⟨hsome, hfill⟩)]⟩
    obtain ⟨fuel, hslice⟩ := huser
    cases fuel with
    | zero => cases hslice
    | succ fuel =>
      rw [writeBytesAt, writeLoop, if_neg (by simp), if_neg hroom, copyFromSlice_eq,
        decide_eq_false hfill.not_lt] at hslice
      dsimp only at hslice
      rw [writeLoop_full (availableWrite_filled hfill.ge) hsignal] at hslice
      cases hslice
  · rintro hfit out ⟨fuel, h⟩
    exact ⟨fuel + 1, writeLoop_sim hopen le_rfl hfit h⟩

theorem writesAgree_of_closed (hclosed : p.readEnd = false) :
    WritesAgree p data ↔ data = [] ∧ p.availableWrite ≠ 0 := by
  have huser : ∀ fuel, writeAtResult data p (fuel + 1) = some (.ok 0, p) := by
    intro fuel
    rw [writeAtResult, writeLoop, if_pos (by simp [hclosed]), Nat.sub_self]
  constructor
  · intro hagree
    obtain ⟨fuel, hslice⟩ := hagree _ ⟨1, huser 0⟩
    exact writeBytesAt_closed hclosed hslice
  · rintro ⟨rfl, hroom⟩ out ⟨fuel, h⟩
    cases fuel with
    | zero => cases h
    | succ fuel =>
      rw [huser] at h
      refine ⟨1, ?_⟩
      rw [writeBytesAt, writeLoop, if_neg (by simp), if_neg hroom, copyFromSlice_eq,
        decide_eq_true (show ([] : Bytes).length < _ from Nat.pos_of_ne_zero hroom), ← h]
      simp

end

/-- The reads always agree.  The writes agree exactly in these cases: a read end is open, and a signal is
pending or there is no data or it does not just fill the buffer; or the read ends are closed, and there is
no data and room in the buffer. -/
theorem interfaces_agree (p : Pipe) :
    (∀ want, ReadsAgree p want) ∧
    ∀ data, WritesAgree p data ↔
      p.readEnd = true ∧ (p.signal = true ∨ data = [] ∨ data.length ≠ p.availableWrite) ∨
      p.readEnd = false ∧ data = [] ∧ p.availableWrite ≠ 0 := by
  refine ⟨fun want out => ?_, fun data => ?_⟩
  · rintro ⟨fuel, h⟩
    exact ⟨fuel + 1, readLoop_sim (Nat.zero_le _) h⟩
  · cases hend : p.readEnd with
    | true => simp [writesAgree_of_open hend]
    | false => simp [writesAgree_of_closed hend]

/-- Two of three bytes are read, and one is written. -/
theorem interfaces_agree_two :
    (∃ fuel, readBytesAt 2 ⟨[1, 2, 3], true, true, false⟩ fuel =
      some (.ok [1, 2], ⟨[3], true, true, false⟩)) ∧
    ∃ fuel, writeBytesAt [4] ⟨[1], true, true, false⟩ fuel =
      some (.ok 1, ⟨[1, 4], true, true, false⟩) :=
  ⟨(interfaces_agree _).1 _ _ ⟨1, rfl⟩,
    ((interfaces_agree _).2 _).mpr (.inl ⟨rfl, .inr (.inr (by decide))⟩) _ ⟨1, rfl⟩⟩

/-- Without a read end `write_at_result` adds nothing, but `write_bytes_at` adds the byte.  With or without one,
`write_bytes_at` does not return after the byte that fills the buffer. -/
theorem interfaces_differ :
    (writeAtResult [7] ⟨[], false, true, false⟩ 1 = some (.ok 0, ⟨[], false, true, false⟩) ∧
      writeBytesAt [7] ⟨[], false, true, false⟩ 1 = some (.ok 1, ⟨[7], false, true, false⟩)) ∧
    ∃ bytes, ∀ readEnd, (writeAtResult [7] ⟨bytes, readEnd, true, false⟩ 1).isSome ∧
      ∀ fuel, writeBytesAt [7] ⟨bytes, readEnd, true, false⟩ fuel = none := by
  obtain ⟨bytes, hlen⟩ : ∃ bytes : Bytes, bytes.length = 1023 := ⟨replicate 1023 0, length_replicate⟩
  refine ⟨⟨rfl, rfl⟩, bytes, fun readEnd => ?_⟩
  have hone : Pipe.availableWrite ⟨bytes, readEnd, true, false⟩ = 1 := by
    rw [Pipe.availableWrite, hlen, ringBufferSize]
  constructor
  · cases readEnd <;> simp [writeAtResult, writeLoop, hone, copyFromUser]
  · rintro (_ | fuel)
    · rfl
    · rw [writeBytesAt, writeLoop, if_neg (by simp), hone, if_neg one_ne_zero]
      exact writeLoop_full (by simp [Pipe.availableWrite, hlen, ringBufferSize]) rfl

end CosmOS.Fs
