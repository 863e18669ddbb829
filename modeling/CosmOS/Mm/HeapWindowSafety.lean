import CosmOS.Mm.HeapWindow

/-!
# The heap window under concurrent growing and reclaiming

The top of the window is compared by value only, and it goes up and down.  It is safe because a range that
some call holds stays below the top for as long as it is held: every store that lowers the top lowers it
to the start of a range that ends there and that the storing call itself holds.

* `held s x`: the number of times a byte of the window is held, by calls and by the heap.
* `Inv`: every byte is held at most once, and not at all from the top on; every mapped page is held; and
  the byte counter is the sum of what is held, with what a reclaim has given up and not yet subtracted.
* one lemma for each section: `Inv.of_held` for those that move bytes between holders, `Inv.leave` for
  those that give up a range.
-/

namespace CosmOS.Mm.HeapWindow

open ReclaimingHeap List Option State HeapSystem

/-! ## What a call holds -/

namespace Call

open Call

def start : Call → ℕ
  | .reserved offset _ | .rollingBack offset _ | .adding offset _ => kernelHeapBase + offset
  | .unmapping start .. | .retracting start .. => start
  | .looking _ | .subtracting .. | .checking _ => kernelHeapBase

def bytes : Call → ℕ
  | .reserved _ bytes | .rollingBack _ bytes | .adding _ bytes => bytes
  | .unmapping _ bytes .. | .retracting _ bytes .. => bytes
  | .looking _ | .subtracting .. | .checking _ => 0

/-- The bytes that a reclaim has given up and not yet subtracted. -/
def pending : Call → ℕ
  | .subtracting bytes _ => bytes
  | _ => 0

def Covers (c : Call) (x : ℕ) : Prop := c.start ≤ x ∧ x < c.start + c.bytes

instance (c : Call) (x : ℕ) : Decidable (c.Covers x) := inferInstanceAs (Decidable (_ ∧ _))

/-- The call may have mapped the byte, or has not unmapped it yet. -/
def Maps : Call → ℕ → Prop
  | .adding offset bytes, x => kernelHeapBase + offset ≤ x ∧ x < kernelHeapBase + offset + bytes
  | .unmapping start bytes _ _ done, x => start + done * pageSize ≤ x ∧ x < start + bytes
  | _, _ => False

/-- The range of a call is made of pages, and ends at the snapshot of a reclaim. -/
def Shaped : Call → Prop
  | .reserved offset bytes | .rollingBack offset bytes | .adding offset bytes =>
    pageSize ∣ offset ∧ pageSize ∣ bytes
  | .unmapping start bytes virtualBytes _ _ | .retracting start bytes virtualBytes _ =>
    kernelHeapBase ≤ start ∧ pageSize ∣ start ∧ pageSize ∣ bytes ∧
      start + bytes = kernelHeapBase + virtualBytes
  | .looking _ | .subtracting .. | .checking _ => True

theorem Maps.covers {c : Call} {x : ℕ} (h : c.Maps x) : c.Covers x := by
  cases c with
  | adding offset bytes => exact h
  | unmapping start bytes virtualBytes reclaimed done =>
    obtain ⟨hlow, hhigh⟩ := h
    exact ⟨(Nat.le_add_right _ _).trans hlow, hhigh⟩
  | reserved | rollingBack | looking | retracting | subtracting | checking => exact h.elim

theorem Shaped.base_le {c : Call} (h : c.Shaped) : kernelHeapBase ≤ c.start := by
  cases c with
  | reserved | rollingBack | adding => exact Nat.le_add_right _ _
  | unmapping | retracting => exact h.1
  | looking | subtracting | checking => exact le_rfl

end Call

/-! ## The bytes of the window -/

def InWindow (x : ℕ) : Prop := kernelHeapBase ≤ x ∧ x < kernelHeapBase + maxKernelHeapSize

instance (x : ℕ) : Decidable (InWindow x) := inferInstanceAs (Decidable (_ ∧ _))

variable (calls : List Call)

def heldByCalls (x : ℕ) : ℕ := calls.countP fun c => c.Covers x

def heldByHeap (owned : ℕ → Bool) (x : ℕ) : ℕ := if InWindow x ∧ owned x = true then 1 else 0

def held (s : State) (x : ℕ) : ℕ := heldByCalls s.calls x + heldByHeap s.system.owned x

/-- The number of bytes of the window that are in the heap. -/
def inHeap (owned : ℕ → Bool) : ℕ :=
  ((Finset.range maxKernelHeapSize).filter fun i => owned (kernelHeapBase + i) = true).card

/-- The length of all ranges that calls hold. -/
def callBytes : ℕ := (calls.map Call.bytes).sum

def callPending : ℕ := (calls.map Call.pending).sum

variable {s s' : State} {c c' : Call} {calls cs : List Call} {x : ℕ}

@[simp] theorem heldByCalls_cons (c : Call) (calls : List Call) (x : ℕ) :
    heldByCalls (c :: calls) x = heldByCalls calls x + if c.Covers x then 1 else 0 := by
  simp [heldByCalls, countP_cons]

@[simp] theorem callBytes_cons (c : Call) (calls : List Call) :
    callBytes (c :: calls) = c.bytes + callBytes calls := by
  simp [callBytes]

@[simp] theorem callPending_cons (c : Call) (calls : List Call) :
    callPending (c :: calls) = c.pending + callPending calls := by
  simp [callPending]

theorem heldByCalls_erase (hc : c ∈ calls) (x : ℕ) :
    heldByCalls calls x = heldByCalls (calls.erase c) x + if c.Covers x then 1 else 0 := by
  rw [← heldByCalls_cons]
  exact (perm_cons_erase hc).countP_eq _

theorem callBytes_erase (hc : c ∈ calls) : callBytes calls = c.bytes + callBytes (calls.erase c) :=
  ((perm_cons_erase hc).map Call.bytes).sum_nat

theorem callPending_erase (hc : c ∈ calls) :
    callPending calls = c.pending + callPending (calls.erase c) :=
  ((perm_cons_erase hc).map Call.pending).sum_nat

theorem heldByCalls_pos (hc : c ∈ calls) (hx : c.Covers x) : 0 < heldByCalls calls x :=
  countP_pos_iff.mpr ⟨c, hc, decide_eq_true hx⟩

section Move

variable {owned owned' : ℕ → Bool} (hfree : ∀ x, c.Covers x → InWindow x ∧ owned x = false)
  (howned : ∀ x, owned' x = true ↔ owned x = true ∨ c.Covers x)
include hfree howned

/-- The range of a call, not in the heap before, is added to it. -/
theorem inHeap_add (hlow : kernelHeapBase ≤ c.start) : inHeap owned' = inHeap owned + c.bytes := by
  have hrange : ∀ i, c.Covers (kernelHeapBase + i) ↔
      i ∈ Finset.Ico (c.start - kernelHeapBase) (c.start - kernelHeapBase + c.bytes) := by
    intro i
    rw [Finset.mem_Ico]
    unfold Call.Covers
    omega
  have hunion : (Finset.range maxKernelHeapSize).filter (fun i => owned' (kernelHeapBase + i) =
      true) = (Finset.range maxKernelHeapSize).filter (fun i => owned (kernelHeapBase + i) = true) ∪
        Finset.Ico (c.start - kernelHeapBase) (c.start - kernelHeapBase + c.bytes) := by
    ext i
    simp only [Finset.mem_filter, Finset.mem_union, Finset.mem_range, howned, ← hrange]
    constructor
    · rintro ⟨hi, hown | hcovers⟩
      · exact .inl ⟨hi, hown⟩
      · exact .inr hcovers
    · rintro (⟨hi, hown⟩ | hcovers)
      · exact ⟨hi, .inl hown⟩
      · have hlast := (hfree _ hcovers).1.2
        exact ⟨by omega, .inr hcovers⟩
  have hdisj : Disjoint
      ((Finset.range maxKernelHeapSize).filter fun i => owned (kernelHeapBase + i) = true)
      (Finset.Ico (c.start - kernelHeapBase) (c.start - kernelHeapBase + c.bytes)) := by
    rw [Finset.disjoint_left]
    intro i hi hcovers
    have hx := (hfree _ ((hrange i).mpr hcovers)).2
    rw [(Finset.mem_filter.mp hi).2] at hx
    cases hx
  unfold inHeap
  rw [hunion, Finset.card_union_of_disjoint hdisj, Nat.card_Ico, Nat.add_sub_cancel_left]

theorem heldByHeap_add (x : ℕ) :
    heldByHeap owned' x = heldByHeap owned x + if c.Covers x then 1 else 0 := by
  unfold heldByHeap
  simp only [howned]
  by_cases hx : c.Covers x
  · obtain ⟨hin, hno⟩ := hfree x hx
    rw [if_pos ⟨hin, .inr hx⟩, if_pos hx, if_neg (by simp [hno])]
  · rw [if_neg hx]
    simp only [or_iff_left hx, add_zero]

end Move

theorem owned_of_heldByHeap {owned : ℕ → Bool} (h : heldByHeap owned x = 1) :
    InWindow x ∧ owned x = true := by
  unfold heldByHeap at h
  split at h
  · assumption
  · cases h

structure Inv (s : State) : Prop where
  system : s.system.Inv
  limit : s.virtualBytes ≤ maxKernelHeapSize
  pages : pageSize ∣ s.virtualBytes
  once : ∀ x, held s x ≤ 1
  top : ∀ x, kernelHeapBase + s.virtualBytes ≤ x → held s x = 0
  shaped : ∀ c ∈ s.calls, c.Shaped
  backed : ∀ p, s.mapped p = true →
    heldByHeap s.system.owned (p * pageSize) = 1 ∨ ∃ c ∈ s.calls, c.Maps (p * pageSize)
  count : s.heapBytes = s.bootstrapBytes + inHeap s.system.owned + callBytes s.calls +
    callPending s.calls

/-- What a call holds is below the top. -/
theorem Inv.lt_top (h : Inv s) (hc : c ∈ s.calls) (hx : c.Covers x) :
    x < kernelHeapBase + s.virtualBytes := by
  by_contra hge
  have hzero := h.top x (Nat.le_of_not_lt hge)
  have hpos : 0 < held s x := (heldByCalls_pos hc hx).trans_le (Nat.le_add_right _ _)
  omega

/-- What a call holds is not in the heap. -/
theorem Inv.not_owned (h : Inv s) (hc : c ∈ s.calls) (hx : c.Covers x) :
    s.system.owned x = false := by
  have hlt := h.lt_top hc hx
  have hlow := (h.shaped c hc).base_le.trans hx.1
  have hin : InWindow x := ⟨hlow, by have := h.limit; omega⟩
  by_contra howned
  have hheap : heldByHeap s.system.owned x = 1 := if_pos ⟨hin, by simpa using howned⟩
  have hcalls := heldByCalls_pos hc hx
  have honce := h.once x
  unfold held at honce
  omega

/-! ## Steps that keep what is held -/

/-- A step that moves bytes between the calls and the heap, and keeps the holders of each byte. -/
theorem Inv.of_held (h : Inv s) (hsystem : s'.system.Inv)
    (hvirtual : s'.virtualBytes = s.virtualBytes) (hheap : s'.heapBytes = s.heapBytes)
    (hboot : s'.bootstrapBytes = s.bootstrapBytes) (hheld : ∀ x, held s' x = held s x)
    (hshaped : ∀ c ∈ s'.calls, c.Shaped)
    (hbacked : ∀ p, s'.mapped p = true → heldByHeap s'.system.owned (p * pageSize) = 1 ∨
      ∃ c ∈ s'.calls, c.Maps (p * pageSize))
    (hbytes : inHeap s'.system.owned + callBytes s'.calls + callPending s'.calls =
      inHeap s.system.owned + callBytes s.calls + callPending s.calls) : Inv s' := by
  refine ⟨hsystem, hvirtual ▸ h.limit, hvirtual ▸ h.pages, ?_, ?_, hshaped, hbacked, ?_⟩
  · intro x
    rw [hheld]
    exact h.once x
  · intro x hx
    rw [hheld]
    exact h.top x (hvirtual ▸ hx)
  · have hcount := h.count
    omega

theorem Inv.swap (h : Inv s) (hc : c ∈ s.calls) (hsystem : s'.system = s.system)
    (hvirtual : s'.virtualBytes = s.virtualBytes) (hheap : s'.heapBytes = s.heapBytes)
    (hboot : s'.bootstrapBytes = s.bootstrapBytes) (hcalls : s'.calls = c' :: s.calls.erase c)
    (hcovers : ∀ x, c'.Covers x ↔ c.Covers x) (hbytes : c'.bytes + c'.pending = c.bytes + c.pending)
    (hshaped : c'.Shaped)
    (hbacked : ∀ p, s'.mapped p = true → heldByHeap s.system.owned (p * pageSize) = 1 ∨
      ∃ c ∈ s'.calls, c.Maps (p * pageSize)) : Inv s' := by
  refine h.of_held (hsystem ▸ h.system) hvirtual hheap hboot ?_ ?_ (hsystem ▸ hbacked) ?_
  · intro x
    unfold held
    rw [hcalls, hsystem, heldByCalls_cons, heldByCalls_erase hc]
    simp only [hcovers x]
  · intro d hd
    rw [hcalls] at hd
    rcases mem_cons.mp hd with rfl | hd
    · exact hshaped
    · exact h.shaped d (mem_of_mem_erase hd)
  · rw [hsystem, hcalls, callBytes_cons, callPending_cons, callBytes_erase hc, callPending_erase hc]
    omega

/-- The mapped pages that other calls and the heap account for stay accounted for. -/
theorem backed_erase {p : ℕ} {l : List Call} (hnot : ¬ c.Maps (p * pageSize))
    (h : ∃ d ∈ s.calls, d.Maps (p * pageSize)) :
    ∃ d ∈ l ++ s.calls.erase c, d.Maps (p * pageSize) := by
  obtain ⟨d, hd, hmaps⟩ := h
  refine ⟨d, mem_append_right l ((mem_erase_of_ne ?_).mpr hd), hmaps⟩
  rintro rfl
  exact hnot hmaps

theorem div_mul_le_iff {a i p : ℕ} (ha : pageSize ∣ a) :
    a / pageSize + i ≤ p ↔ a + i * pageSize ≤ p * pageSize := by
  obtain ⟨q, rfl⟩ := ha
  have hpos : 0 < pageSize := by decide
  rw [Nat.mul_div_cancel_left _ hpos, mul_comm pageSize q, ← add_mul]
  exact (Nat.mul_le_mul_right_iff hpos).symm

theorem base_dvd : pageSize ∣ kernelHeapBase := by decide

variable {bytes reclaimed value start virtualBytes aligned : ℕ}

/-- `map_heap_pages` of a reserved range: no page of it is mapped yet. -/
theorem Inv.map (h : Inv s) {offset frames : ℕ} (hc : .reserved offset bytes ∈ s.calls)
    (hn : s.step (.reserved offset bytes) frames = some s') : Inv s' := by
  obtain ⟨hoffset, hbytes⟩ : pageSize ∣ offset ∧ pageSize ∣ bytes := h.shaped _ hc
  unfold step mapHeapPages at hn
  dsimp only at hn
  split at hn
  next hfail =>
    cases hn
    refine h.swap hc rfl rfl rfl rfl rfl (fun x => Iff.rfl) rfl ⟨hoffset, hbytes⟩ ?_
    exact fun p hp => (h.backed p hp).imp_right (backed_erase (l := [_]) not_false)
  next s₁ hok =>
    split at hok
    · cases hok
    cases hok
    cases hn
    refine h.swap hc rfl rfl rfl rfl rfl (fun x => Iff.rfl) rfl ⟨hoffset, hbytes⟩ ?_
    intro p hp
    have hstart : pageSize ∣ kernelHeapBase + offset := Nat.dvd_add base_dvd hoffset
    have hp : s.mapped p = true ∨ ((kernelHeapBase + offset) / pageSize ≤ p ∧
        p < (kernelHeapBase + offset) / pageSize + bytes / pageSize) := by
      simpa [State.replace] using hp
    rcases hp with hp | ⟨hlow, hhigh⟩
    · exact (h.backed p hp).imp_right (backed_erase (l := [_]) not_false)
    · right
      refine ⟨.adding offset bytes, .head _, ?_, ?_⟩
      · have := (div_mul_le_iff (i := 0) hstart).mp hlow
        omega
      · rwa [← not_le, div_mul_le_iff hstart, not_le, Nat.div_mul_cancel hbytes] at hhigh

theorem Inv.unmap (h : Inv s) {done frames : ℕ}
    (hc : .unmapping start bytes virtualBytes reclaimed done ∈ s.calls)
    (hn : s.step (.unmapping start bytes virtualBytes reclaimed done) frames = some s') :
    Inv s' := by
  have hshaped : kernelHeapBase ≤ start ∧ pageSize ∣ start ∧ pageSize ∣ bytes ∧
    start + bytes = kernelHeapBase + virtualBytes := h.shaped _ hc
  have hbytes := Nat.div_mul_cancel hshaped.2.2.1
  unfold step at hn
  dsimp only at hn
  split at hn
  next hmore =>
    cases hn
    refine h.swap hc rfl rfl rfl rfl rfl (fun x => Iff.rfl) rfl hshaped ?_
    intro p hp
    have hp : s.mapped p = true ∧ (p < start / pageSize + done ∨
        start / pageSize + min (done + kernelHeapUnmapBatchPages) (bytes / pageSize) ≤ p) := by
      simpa [State.replace, State.unmapBatch] using hp
    refine (h.backed p hp.1).imp_right fun ⟨d, hd, hmaps⟩ => ?_
    by_cases hsame : d = .unmapping start bytes virtualBytes reclaimed done
    · -- a page of the block that is still mapped is behind the batch
      subst hsame
      have hafter := hp.2.resolve_left (not_lt.mpr ((div_mul_le_iff hshaped.2.1).mpr hmaps.1))
      exact ⟨_, .head _, (div_mul_le_iff hshaped.2.1).mp hafter, hmaps.2⟩
    · exact ⟨d, .tail _ ((mem_erase_of_ne hsame).mpr hd), hmaps⟩
  next hdone =>
    cases hn
    refine h.swap hc rfl rfl rfl rfl rfl (fun x => Iff.rfl) rfl hshaped ?_
    intro p hp
    refine (h.backed p hp).imp_right (backed_erase (l := [_]) ?_)
    rintro ⟨hlow, hhigh⟩
    have := Nat.mul_le_mul_right pageSize (Nat.le_of_not_lt hdone)
    omega

/-! ## Steps that move the top -/

theorem checkedAdd_eq {a b : ℕ} (h : checkedAdd a b = some value) : value = a + b := by
  unfold checkedAdd at h
  split at h
  · exact (some.inj h).symm
  · cases h

/-- The mask of a multiple of the page size clears the offset in the page, also where the request is not
a power of two. -/
theorem alignUp_dvd_page {align : ℕ} (halign : pageSize ∣ align)
    (h : alignUp value align = some aligned) : pageSize ∣ aligned := by
  unfold alignUp at h
  split at h
  · cases h
  obtain ⟨sum, hsum, rfl⟩ := map_eq_some_iff.mp h
  have hmask : (usizeMax - (align - 1)) % 2 ^ 12 = 0 := by
    unfold usizeMax pageSize at *
    omega
  apply Nat.dvd_of_mod_eq_zero
  calc (sum &&& (usizeMax - (align - 1))) % 2 ^ 12
      = (sum % 2 ^ 12) &&& ((usizeMax - (align - 1)) % 2 ^ 12) := Nat.and_mod_two_pow
    _ = 0 := by rw [hmask, Nat.and_zero]

variable {used required new : ℕ}

theorem newUsed_eq_some (h : newUsed used required = some new) :
    ∃ required' aligned, alignUpToPage required = some required' ∧
      alignUp used required' = some aligned ∧ new ≤ maxKernelHeapSize ∧
      new = max (aligned + required') (used + max kernelHeapGrowSize required') := by
  unfold newUsed at h
  obtain ⟨required', hrequired, h⟩ := bind_eq_some_iff.mp h
  obtain ⟨aligned, haligned, h⟩ := bind_eq_some_iff.mp h
  obtain ⟨blockEnd, hblockEnd, h⟩ := bind_eq_some_iff.mp h
  obtain ⟨growEnd, hgrowEnd, h⟩ := bind_eq_some_iff.mp h
  rw [checkedAdd_eq hblockEnd, checkedAdd_eq hgrowEnd] at h
  split at h
  · cases h
  · exact ⟨required', aligned, hrequired, haligned, some.inj h ▸ Nat.le_of_not_lt ‹_›,
      (some.inj h).symm⟩

/-- A request is granted with whole pages, from the top on. -/
theorem newUsed_spec (hpages : pageSize ∣ used) (h : newUsed used required = some new) :
    used < new ∧ new ≤ maxKernelHeapSize ∧ pageSize ∣ new := by
  obtain ⟨required', aligned, hrequired, haligned, hmax, hnew⟩ := newUsed_eq_some h
  have hgrow : pageSize ∣ kernelHeapGrowSize := dvd_mul_left _ _
  have hrequired : pageSize ∣ required' := by
    obtain ⟨sum, -, rfl⟩ := map_eq_some_iff.mp hrequired
    exact dvd_mul_left _ _
  have haligned : pageSize ∣ aligned := alignUp_dvd_page hrequired haligned
  have hpos : 0 < kernelHeapGrowSize := by decide
  refine ⟨by omega, hmax, ?_⟩
  rw [hnew]
  exact max_rec' (pageSize ∣ ·) (Nat.dvd_add haligned hrequired)
    (Nat.dvd_add hpages (max_rec' (pageSize ∣ ·) hgrow hrequired))

/-- `grow_virtual` reserves the bytes from the top on, that nothing holds. -/
theorem Inv.growVirtual (h : Inv s) (required : ℕ) : Inv (s.growVirtual required) := by
  unfold State.growVirtual
  split
  · exact h
  rename_i used hused
  obtain ⟨hlt, hmax, hpages⟩ := newUsed_spec h.pages hused
  have hrest : ∀ x, ¬ (Call.reserved s.virtualBytes (used - s.virtualBytes)).Covers x →
      heldByCalls (.reserved s.virtualBytes (used - s.virtualBytes) :: s.calls) x =
        heldByCalls s.calls x := by
    intro x hx
    rw [heldByCalls_cons, if_neg hx, add_zero]
  refine ⟨h.system, hmax, hpages, ?_, ?_, ?_, ?_, ?_⟩
  · intro x
    by_cases hx : (Call.reserved s.virtualBytes (used - s.virtualBytes)).Covers x
    · have hzero := h.top x hx.1
      unfold held at hzero ⊢
      dsimp only
      rw [heldByCalls_cons, if_pos hx]
      omega
    · have honce := h.once x
      unfold held at honce ⊢
      rwa [hrest x hx]
  · intro x hx
    have hx : kernelHeapBase + used ≤ x := hx
    have hout : ¬ (Call.reserved s.virtualBytes (used - s.virtualBytes)).Covers x := by
      rintro ⟨-, hhigh⟩
      have hhigh : x < kernelHeapBase + s.virtualBytes + (used - s.virtualBytes) := hhigh
      omega
    have hzero := h.top x (by omega)
    unfold held at hzero ⊢
    rwa [hrest x hout]
  · intro c hc
    rcases mem_cons.mp hc with rfl | hc
    · exact ⟨h.pages, Nat.dvd_sub hpages h.pages⟩
    · exact h.shaped c hc
  · intro p hp
    refine (h.backed p hp).imp_right fun ⟨c, hc, hmaps⟩ => ?_
    exact ⟨c, .tail _ hc, hmaps⟩
  · have hcount := h.count
    have hbytes : (Call.reserved s.virtualBytes (used - s.virtualBytes)).bytes =
      used - s.virtualBytes := rfl
    have hpending : (Call.reserved s.virtualBytes (used - s.virtualBytes)).pending = 0 := rfl
    dsimp only
    rw [callBytes_cons, callPending_cons]
    omega

/-- A call gives up its range, with no page of it mapped.  If the top moves, then from the end of the range
to its start. -/
theorem Inv.leave (h : Inv s) (hc : c ∈ s.calls) (hsystem : s'.system = s.system)
    (hmapped : s'.mapped = s.mapped) (hboot : s'.bootstrapBytes = s.bootstrapBytes)
    (hcalls : s'.calls = cs ++ s.calls.erase c) (hidle : ∀ d ∈ cs, d.bytes = 0 ∧ d.Shaped)
    (hunmapped : ∀ x, ¬ c.Maps x) (hpages : pageSize ∣ s'.virtualBytes)
    (htop : s'.virtualBytes = s.virtualBytes ∨ kernelHeapBase + s'.virtualBytes = c.start ∧
      c.start + c.bytes = kernelHeapBase + s.virtualBytes)
    (hheap : s'.heapBytes + (c.bytes + c.pending) = s.heapBytes + callPending cs) : Inv s' := by
  have hcount : ∀ x, heldByCalls s'.calls x = heldByCalls (s.calls.erase c) x := by
    intro x
    have hzero : heldByCalls cs x = 0 := by
      apply countP_eq_zero.mpr
      intro d hd hx
      have hx : d.Covers x := of_decide_eq_true hx
      have hbytes := (hidle d hd).1
      obtain ⟨hlow, hhigh⟩ := hx
      omega
    rw [hcalls, heldByCalls, countP_append]
    exact (congrArg (· + _) hzero).trans (zero_add _)
  have hheld : ∀ x, held s x = held s' x + if c.Covers x then 1 else 0 := by
    intro x
    unfold held
    rw [hcount, hsystem, heldByCalls_erase hc]
    omega
  refine ⟨hsystem ▸ h.system, ?_, hpages, ?_, ?_, ?_, ?_, ?_⟩
  · have hlimit := h.limit
    omega
  · intro x
    have honce := h.once x
    rw [hheld] at honce
    omega
  · intro x hx
    have hheldx := hheld x
    by_cases hold : kernelHeapBase + s.virtualBytes ≤ x
    · have hzero := h.top x hold
      omega
    -- between the new top and the old one only the call itself holds anything
    have honce := h.once x
    have hcovers : c.Covers x := by
      constructor <;> omega
    rw [if_pos hcovers] at hheldx
    omega
  · intro d hd
    rw [hcalls] at hd
    rcases mem_append.mp hd with hd | hd
    · exact (hidle d hd).2
    · exact h.shaped d (mem_of_mem_erase hd)
  · intro p hp
    rw [hmapped] at hp
    rw [hsystem, hcalls]
    exact (h.backed p hp).imp_right (backed_erase (hunmapped _))
  · have hbytes : callBytes cs = 0 := by
      apply sum_eq_zero
      intro n hn
      obtain ⟨d, hd, rfl⟩ := mem_map.mp hn
      exact (hidle d hd).1
    have hsum := h.count
    rw [callBytes_erase hc, callPending_erase hc] at hsum
    rw [hsystem, hcalls, callBytes, callPending, map_append, map_append, sum_append, sum_append]
    unfold callBytes callPending at *
    omega

theorem Inv.bytes_le (h : Inv s) (hc : c ∈ s.calls) : c.bytes + c.pending ≤ s.heapBytes := by
  have hcount := h.count
  rw [callBytes_erase hc, callPending_erase hc] at hcount
  omega

variable {offset : ℕ}

theorem Inv.rollBack (h : Inv s) (hc : .rollingBack offset bytes ∈ s.calls) :
    Inv ((s.rollbackVirtualHeapReservation offset bytes).replace (.rollingBack offset bytes) []) := by
  have hshaped : pageSize ∣ offset ∧ pageSize ∣ bytes := h.shaped _ hc
  have hle : bytes + 0 ≤ s.heapBytes := h.bytes_le hc
  refine h.leave hc rfl rfl rfl rfl nofun (fun _ => not_false) ?_ ?_ ?_
  · change pageSize ∣ if s.virtualBytes = offset + bytes then offset else s.virtualBytes
    split
    · exact hshaped.1
    · exact h.pages
  · change (if s.virtualBytes = offset + bytes then offset else s.virtualBytes) = s.virtualBytes ∨
      kernelHeapBase + (if s.virtualBytes = offset + bytes then offset else s.virtualBytes) =
        kernelHeapBase + offset ∧ kernelHeapBase + offset + bytes = kernelHeapBase + s.virtualBytes
    split <;> omega
  · change s.heapBytes - bytes + (bytes + 0) = s.heapBytes + 0
    omega

theorem Inv.retract (h : Inv s) (hc : .retracting start bytes virtualBytes reclaimed ∈ s.calls) :
    Inv ((s.retract bytes virtualBytes).replace (.retracting start bytes virtualBytes reclaimed)
      [.subtracting bytes reclaimed]) := by
  obtain ⟨hbase, hstart, hbytes, hend⟩ : kernelHeapBase ≤ start ∧ pageSize ∣ start ∧
    pageSize ∣ bytes ∧ start + bytes = kernelHeapBase + virtualBytes := h.shaped _ hc
  refine h.leave hc rfl rfl rfl rfl ?_ (fun _ => not_false) ?_ ?_ ?_
  · intro d hd
    rw [mem_singleton.mp hd]
    exact ⟨rfl, trivial⟩
  · change pageSize ∣ if s.virtualBytes = virtualBytes then virtualBytes - bytes else s.virtualBytes
    split
    next hsame =>
      exact Nat.dvd_sub (hsame ▸ h.pages) hbytes
    · exact h.pages
  · change (if s.virtualBytes = virtualBytes then virtualBytes - bytes else s.virtualBytes) =
      s.virtualBytes ∨ kernelHeapBase + (if s.virtualBytes = virtualBytes then virtualBytes - bytes
      else s.virtualBytes) = start ∧ start + bytes = kernelHeapBase + s.virtualBytes
    split <;> omega
  · rfl

theorem Inv.subtract (h : Inv s) (hc : .subtracting bytes reclaimed ∈ s.calls) :
    Inv (replace { s with heapBytes := s.heapBytes - bytes } (.subtracting bytes reclaimed)
      [.checking reclaimed]) := by
  have hle : 0 + bytes ≤ s.heapBytes := h.bytes_le hc
  refine h.leave hc rfl rfl rfl rfl ?_ (fun _ => not_false) h.pages (.inl rfl) ?_
  · intro d hd
    rw [mem_singleton.mp hd]
    exact ⟨rfl, trivial⟩
  · change s.heapBytes - bytes + (0 + bytes) = s.heapBytes + 0
    omega

/-- A reclaim that holds nothing goes on with holding nothing, or ends. -/
theorem Inv.idle (h : Inv s) (hc : c ∈ s.calls) (hbytes : c.bytes = 0)
    (hpending : c.pending = 0) (hunmapped : ∀ x, ¬ c.Maps x)
    (hidle : ∀ d ∈ cs, d.bytes = 0 ∧ d.Shaped) (hcs : callPending cs = 0) : Inv (s.replace c cs) := by
  refine h.leave hc rfl rfl rfl rfl hidle hunmapped h.pages (.inl rfl) ?_
  change s.heapBytes + _ = s.heapBytes + _
  omega

/-! ## Steps that move bytes into the heap and out of it -/

/-- The bytes that a call holds are in the window. -/
theorem Inv.inWindow (h : Inv s) (hc : c ∈ s.calls) (hx : c.Covers x) : InWindow x := by
  have hlt := h.lt_top hc hx
  have hlimit := h.limit
  exact ⟨(h.shaped c hc).base_le.trans hx.1, by omega⟩

theorem ReclaimingHeap.alignUp_of_dvd (h : pageSize ∣ value) :
    ReclaimingHeap.alignUp value = value := by
  obtain ⟨q, rfl⟩ := h
  unfold ReclaimingHeap.alignUp minBuddyBlockSize pageSize
  omega

theorem ReclaimingHeap.alignDown_of_dvd (h : pageSize ∣ value) :
    alignDown value = value := by
  obtain ⟨q, rfl⟩ := h
  unfold alignDown minBuddyBlockSize pageSize
  omega

theorem addToHeap_spec (hsystem : s.system.Inv) (hoffset : pageSize ∣ offset)
    (hbytes : pageSize ∣ bytes)
    (hfree : ∀ x, (Call.adding offset bytes).Covers x → s.system.owned x = false)
    (hn : s.addToHeap offset bytes = some s') :
    ∃ system, s' = { s with system := system } ∧ system.Inv ∧ ∀ x, system.owned x = true ↔
      s.system.owned x = true ∨ (Call.adding offset bytes).Covers x := by
  have hstart : pageSize ∣ kernelHeapBase + offset := Nat.dvd_add base_dvd hoffset
  have hunowned : s.system.Unowned (kernelHeapBase + offset) (kernelHeapBase + offset + bytes) := by
    intro i hi
    have hlast : kernelHeapBase + offset + i < kernelHeapBase + offset + bytes := by omega
    exact hfree _ ⟨Nat.le_add_right _ _, hlast⟩
  unfold State.addToHeap at hn
  dsimp only at hn
  split at hn
  · cases hn
  rename_i heap heq
  cases hn
  have hadd : s.system.addToHeap (kernelHeapBase + offset) (kernelHeapBase + offset + bytes) =
      some { s.system with
        heap := heap
        owned := fun x => s.system.owned x || (decide (kernelHeapBase + offset ≤ x) &&
          decide (x < kernelHeapBase + offset + bytes)) } := by
    unfold HeapSystem.addToHeap
    rw [ReclaimingHeap.alignUp_of_dvd hstart,
      ReclaimingHeap.alignDown_of_dvd (Nat.dvd_add hstart hbytes), if_pos hunowned, heq]
  refine ⟨_, rfl, hsystem.addToHeap hadd, ?_⟩
  intro x
  simp [Call.Covers, Call.start, Call.bytes]

theorem Inv.add (h : Inv s) (hc : .adding offset bytes ∈ s.calls)
    (hn : s.addToHeap offset bytes = some s') : Inv (s'.replace (.adding offset bytes) []) := by
  obtain ⟨hoffset, hbytes⟩ : pageSize ∣ offset ∧ pageSize ∣ bytes := h.shaped _ hc
  have hfree : ∀ x, (Call.adding offset bytes).Covers x → InWindow x ∧ s.system.owned x = false := by
    intro x hx
    exact ⟨h.inWindow hc hx, h.not_owned hc hx⟩
  obtain ⟨system, rfl, hsystem, howned⟩ := addToHeap_spec h.system hoffset hbytes
    (fun x hx => (hfree x hx).2) hn
  refine h.of_held hsystem rfl rfl rfl ?_ ?_ ?_ ?_
  · intro x
    change heldByCalls (s.calls.erase _) x + heldByHeap system.owned x =
      heldByCalls s.calls x + heldByHeap s.system.owned x
    rw [heldByCalls_erase hc, heldByHeap_add hfree howned]
    omega
  · intro d hd
    exact h.shaped d (mem_of_mem_erase hd)
  · intro p hp
    rcases h.backed p hp with hheap | ⟨d, hd, hmaps⟩
    · obtain ⟨hin, hown⟩ := owned_of_heldByHeap hheap
      exact .inl (if_pos ⟨hin, (howned _).mpr (.inl hown)⟩)
    by_cases hsame : d = .adding offset bytes
    · -- the pages that the call has mapped
      subst hsame
      exact .inl (if_pos ⟨h.inWindow hd hmaps, (howned _).mpr (.inr hmaps)⟩)
    · exact .inr ⟨d, (mem_erase_of_ne hsame).mpr hd, hmaps⟩
  · have hin := inHeap_add hfree howned (Nat.le_add_right _ _)
    change inHeap system.owned + callBytes (s.calls.erase _) + callPending (s.calls.erase _) = _
    rw [callBytes_erase hc, callPending_erase hc, hin]
    change _ + bytes + _ + _ = _ + (bytes + _) + (0 + _)
    omega

/-- Where nothing is popped, the heap keeps its bytes. -/
theorem popTail_none (hsystem : s.system.Inv) (hn : s.popTail = some (none, s')) :
    ∃ system, s' = { s with system := system } ∧ system.Inv ∧ system.owned = s.system.owned := by
  unfold popTail at hn
  split at hn
  · cases hn
    exact ⟨_, rfl, hsystem, rfl⟩
  split at hn
  · cases hn
  next heap heq =>
    cases hn
    have hrelease : s.system.release pageSize kernelHeapBase (kernelHeapBase + s.virtualBytes) =
        some { s.system with heap := heap } := by
      unfold release
      rw [heq]
    exact ⟨_, rfl, hsystem.release hrelease, rfl⟩
  · cases hn

/-- The block that is popped is made of pages, ends at the top, and leaves the heap. -/
theorem popTail_some (hsystem : s.system.Inv)
    (hlimit : s.virtualBytes ≤ maxKernelHeapSize) (hn : s.popTail = some (some (start, bytes), s')) :
    ∃ system, s' = { s with system := system } ∧ system.Inv ∧
      kernelHeapBase ≤ start ∧ pageSize ∣ start ∧ pageSize ∣ bytes ∧
      start + bytes = kernelHeapBase + s.virtualBytes ∧
      (∀ x, start ≤ x ∧ x < start + bytes → s.system.owned x = true) ∧
      ∀ x, system.owned x = true ↔ s.system.owned x = true ∧ ¬ (start ≤ x ∧ x < start + bytes) := by
  unfold popTail at hn
  split at hn
  · cases hn
  split at hn
  · cases hn
  · cases hn
  rename_i start' bytes' heap heq
  cases hn
  obtain ⟨l, hl⟩ := hsystem.holds
  have hclass : Buddy.trailingZeros 64 (nextPowerOfTwo pageSize) = 12 := by decide
  have hrelease := releaseFrom_holds 12 kernelHeapBase (kernelHeapBase + s.virtualBytes)
    (heapOrderCount - 12) (by decide) hl rfl
  rw [releaseOneTailFreeBlock, hclass] at heq
  rcases hrelease with hnone | ⟨p, k, h', l', hsome, -, -, hk, htail, howned⟩
  · rw [hnone] at heq
    cases heq
  rw [hsome] at heq
  cases heq
  simp only [isTail, Bool.and_eq_true, decide_eq_true_eq, beq_iff_eq] at htail
  obtain ⟨⟨hbase, hend⟩, hpage⟩ := htail
  have hmax : kernelHeapBase + maxKernelHeapSize < usizeMax := by decide
  have hrelease : s.system.release pageSize kernelHeapBase (kernelHeapBase + s.virtualBytes) =
      some { s.system with
        heap := heap
        owned := fun x => s.system.owned x &&
          !(decide (start ≤ x) && decide (x < start + 2 ^ k)) } := by
    unfold release
    rw [releaseOneTailFreeBlock, hclass, hsome]
  refine ⟨_, rfl, hsystem.release hrelease, hbase, Nat.dvd_of_mod_eq_zero hpage,
    Nat.pow_dvd_pow 2 hk, by omega, fun x hx => howned x hx, fun x => ?_⟩
  simp only [Bool.and_eq_true, Bool.not_eq_true', Bool.and_eq_false_iff, decide_eq_false_iff_not,
    not_and_or]

theorem Inv.pop (h : Inv s) (hc : .looking reclaimed ∈ s.calls)
    (hn : s.popTail = some (some (start, bytes), s')) :
    Inv (s'.replace (.looking reclaimed) [.unmapping start bytes s.virtualBytes reclaimed 0]) := by
  obtain ⟨system, rfl, hsystem, hbase, hstart, hbytes, hend, howned, hleft⟩ :=
    popTail_some h.system h.limit hn
  have hlimit := h.limit
  -- seen from the state after the step, the range is added to the heap
  have hfree : ∀ x, (Call.unmapping start bytes s.virtualBytes reclaimed 0).Covers x →
      InWindow x ∧ system.owned x = false := by
    intro x hx
    obtain ⟨hlow, hhigh⟩ : start ≤ x ∧ x < start + bytes := hx
    refine ⟨⟨hbase.trans hlow, by omega⟩, ?_⟩
    rw [← Bool.not_eq_true, hleft]
    exact fun hx => hx.2 ⟨hlow, hhigh⟩
  have hadd : ∀ x, s.system.owned x = true ↔ system.owned x = true ∨
      (Call.unmapping start bytes s.virtualBytes reclaimed 0).Covers x := by
    intro x
    rw [hleft]
    constructor
    · intro hx
      by_cases hrange : start ≤ x ∧ x < start + bytes
      · exact .inr hrange
      · exact .inl ⟨hx, hrange⟩
    · rintro (hx | hx)
      · exact hx.1
      · exact howned x hx
  have hnone : ∀ x, ¬ (Call.looking reclaimed).Covers x := by
    rintro x ⟨hlow, hhigh⟩
    exact absurd hhigh (not_lt.mpr hlow)
  refine h.of_held hsystem rfl rfl rfl ?_ ?_ ?_ ?_
  · intro x
    change heldByCalls (_ :: s.calls.erase _) x + heldByHeap system.owned x =
      heldByCalls s.calls x + heldByHeap s.system.owned x
    rw [heldByCalls_erase hc, heldByCalls_cons, heldByHeap_add hfree hadd, if_neg (hnone x)]
    omega
  · intro d hd
    rcases mem_cons.mp hd with rfl | hd
    · exact ⟨hbase, hstart, hbytes, hend⟩
    · exact h.shaped d (mem_of_mem_erase hd)
  · intro p hp
    rcases h.backed p hp with hheap | hmaps
    · obtain ⟨hin, hown⟩ := owned_of_heldByHeap hheap
      rcases (hadd _).mp hown with hown | hrange
      · exact .inl (if_pos ⟨hin, hown⟩)
      · obtain ⟨hlow, hhigh⟩ : start ≤ p * pageSize ∧ p * pageSize < start + bytes := hrange
        exact .inr ⟨_, .head _, by omega, hhigh⟩
    · exact .inr (backed_erase (l := [_]) not_false hmaps)
  · have hin := inHeap_add hfree hadd hbase
    change inHeap system.owned + callBytes (_ :: s.calls.erase _) +
      callPending (_ :: s.calls.erase _) = _
    rw [callBytes_erase hc, callPending_erase hc, hin, callBytes_cons, callPending_cons]
    change _ + (bytes + _) + (0 + _) = _ + bytes + (0 + _) + (0 + _)
    omega

theorem Inv.of_owned (h : Inv s) {system : HeapSystem} (hsystem : system.Inv)
    (howned : system.owned = s.system.owned) : Inv { s with system := system } := by
  refine h.of_held hsystem rfl rfl rfl ?_ h.shaped ?_ ?_
  · intro x
    unfold held
    rw [howned]
  · rw [howned]
    exact h.backed
  · rw [howned]

end CosmOS.Mm.HeapWindow
