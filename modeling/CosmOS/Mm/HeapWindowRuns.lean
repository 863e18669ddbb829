import CosmOS.Mm.HeapWindowSafety

/-!
# Runs of the heap window

* `heap_window_safe`: the parts of the invariant, in terms of ranges.
* `heap_bytes_lag`: between the last two steps of a reclaim the counter is larger than the sum of what is
  reserved, in the heap or being unmapped.
-/

namespace CosmOS.Mm.HeapWindow

variable {s s' : State} {c : Call}

theorem Inv.step (h : Inv s) {frames : ℕ} (hc : c ∈ s.calls) (hn : s.step c frames = some s') :
    Inv s' := by
  cases c with
  | reserved offset bytes => exact h.map hc hn
  | rollingBack offset bytes =>
    cases hn
    exact h.rollBack hc
  | adding offset bytes =>
    obtain ⟨s₁, hadd, rfl⟩ := Option.map_eq_some_iff.mp hn
    exact h.add hc hadd
  | looking reclaimed =>
    have hend : ∀ {s : State}, Inv s → Call.looking reclaimed ∈ s.calls →
        Inv (s.replace (.looking reclaimed) []) :=
      fun h hc => h.idle hc rfl rfl (fun _ => not_false) nofun rfl
    unfold State.step at hn
    dsimp only at hn
    split at hn
    · cases hn
      exact hend h hc
    split at hn
    · cases hn
    next s₁ hpop =>
      cases hn
      obtain ⟨system, rfl, hsystem, howned⟩ := popTail_none h.system hpop
      exact hend (h.of_owned hsystem howned) hc
    next start bytes s₁ hpop =>
      cases hn
      exact h.pop hc hpop
  | unmapping start bytes virtualBytes reclaimed done => exact h.unmap hc hn
  | retracting start bytes virtualBytes reclaimed =>
    cases hn
    exact h.retract hc
  | subtracting bytes reclaimed =>
    cases hn
    exact h.subtract hc
  | checking reclaimed =>
    unfold State.step at hn
    dsimp only at hn
    split at hn
    · cases hn
      exact h.idle hc rfl rfl (fun _ => not_false) nofun rfl
    cases hn
    refine h.idle hc rfl rfl (fun _ => not_false) ?_ rfl
    intro d hd
    rw [List.mem_singleton.mp hd]
    exact ⟨rfl, trivial⟩

/-- A reclaim that has begun holds nothing. -/
theorem Inv.reclaim (h : Inv s) : Inv { s with calls := .looking 0 :: s.calls } := by
  refine h.of_held h.system rfl rfl rfl ?_ ?_ ?_ ?_
  · intro x
    have hnone : ¬ (Call.looking 0).Covers x := by
      rintro ⟨hlow, hhigh⟩
      exact absurd hhigh (not_lt.mpr hlow)
    unfold held
    rw [heldByCalls_cons, if_neg hnone, add_zero]
  · intro d hd
    rcases List.mem_cons.mp hd with rfl | hd
    · trivial
    · exact h.shaped d hd
  · intro p hp
    refine (h.backed p hp).imp_right fun ⟨d, hd, hmaps⟩ => ?_
    exact ⟨d, .tail _ hd, hmaps⟩
  · dsimp only
    rw [callBytes_cons, callPending_cons]
    change _ + (0 + _) + (0 + _) = _
    omega

variable {system system' : HeapSystem}

/-- Allocations, deallocations and stores keep the bytes of the heap. -/
theorem owned_of_alloc {size alignOrder : ℕ}
    (hn : system.alloc size alignOrder = some system') : system'.owned = system.owned := by
  rcases Option.ite_none_right_eq_some.mp hn with ⟨_, hn⟩
  split at hn
  · cases hn
  · cases hn
    rfl
  · cases hn
    rfl

theorem owned_of_dealloc {b : Block}
    (hn : system.next (.dealloc b) = some system') : system'.owned = system.owned := by
  rw [HeapSystem.next] at hn
  split at hn
  · unfold HeapSystem.dealloc at hn
    split at hn
    · cases hn
    · cases hn
      rfl
  · cases hn

theorem Inv.next {l : Label} (h : Inv s) (hn : HeapWindow.next s l = some s') : Inv s' := by
  cases l with
  | growVirtual required =>
    rw [← Option.some.inj hn]
    exact h.growVirtual required
  | reclaim =>
    cases hn
    exact h.reclaim
  | step c frames =>
    rw [HeapWindow.next] at hn
    split at hn
    next hc =>
      exact h.step hc hn
    · cases hn
  | heap l =>
    cases l with
    | alloc size alignOrder =>
      obtain ⟨system, hsystem, rfl⟩ := Option.map_eq_some_iff.mp hn
      exact h.of_owned (h.system.next hsystem) (owned_of_alloc hsystem)
    | dealloc b =>
      obtain ⟨system, hsystem, rfl⟩ := Option.map_eq_some_iff.mp hn
      exact h.of_owned (h.system.next hsystem) (owned_of_dealloc hsystem)
    | store addr first second =>
      obtain ⟨system, hsystem, rfl⟩ := Option.map_eq_some_iff.mp hn
      refine h.of_owned (h.system.next hsystem) ?_
      rw [HeapSystem.next] at hsystem
      split at hsystem <;> cases hsystem
      rfl
    | addToHeap | release => cases hn

theorem inv_of_init (h : Init s) : Inv s := by
  obtain ⟨hsystem, howned, hvirtual, hheap, hmapped, hcalls⟩ := h
  have hheld : ∀ x, held s x = 0 := by
    intro x
    have hout : ¬ (InWindow x ∧ s.system.owned x = true) := by
      rintro ⟨⟨hlow, hhigh⟩, hown⟩
      rw [howned x hlow hhigh] at hown
      cases hown
    unfold held heldByHeap
    rw [hcalls, if_neg hout]
    rfl
  refine ⟨HeapSystem.inv_of_reachable hsystem, ?_, ?_, ?_, ?_, ?_, ?_, ?_⟩
  · rw [hvirtual]
    exact Nat.zero_le _
  · rw [hvirtual]
    exact dvd_zero _
  · intro x
    rw [hheld]
    exact Nat.zero_le _
  · intro x _
    exact hheld x
  · rw [hcalls]
    exact fun c hc => nomatch hc
  · intro p hp
    rw [hmapped] at hp
    cases hp
  · have hnone : inHeap s.system.owned = 0 := by
      apply Finset.card_eq_zero.mpr
      apply Finset.filter_eq_empty_iff.mpr
      intro i hi
      have hi := Finset.mem_range.mp hi
      rw [howned (kernelHeapBase + i) (Nat.le_add_right _ _) (by omega)]
      exact Bool.false_ne_true
    rw [hheap, hnone, hcalls]
    rfl

theorem inv_of_reachable (h : machine.Reachable s) : Inv s := by
  apply h.invariant
  · intro s₀ hinit
    exact inv_of_init hinit
  · intro s₀ l s₁ hinv _ hn
    exact hinv.next hn

/-- The ranges of two calls are disjoint. -/
theorem Inv.disjoint (h : Inv s) : s.calls.Pairwise fun c d => ∀ x, c.Covers x → ¬ d.Covers x := by
  rw [List.pairwise_iff_forall_sublist]
  intro c d hsub x hc hd
  have hle : heldByCalls [c, d] x ≤ heldByCalls s.calls x := hsub.countP_le
  have htwo : heldByCalls [c, d] x = 2 := by
    rw [heldByCalls_cons, heldByCalls_cons, if_pos hc, if_pos hd]
    rfl
  have honce := h.once x
  unfold held at honce
  omega

/-- No page of a range is mapped whose holder has not begun to map it. -/
theorem Inv.not_mapped (h : Inv s) {p : ℕ} (hc : c ∈ s.calls) (hcovers : c.Covers (p * pageSize))
    (hmaps : ¬ c.Maps (p * pageSize)) : s.mapped p = false := by
  by_contra hmapped
  rcases h.backed p (by simpa using hmapped) with hheap | hother
  · have hno := h.not_owned hc hcovers
    rw [(owned_of_heldByHeap hheap).2] at hno
    cases hno
  · obtain ⟨d, hd, hmaps⟩ := backed_erase (l := []) hmaps hother
    have honce := h.once (p * pageSize)
    have hpos : 0 < heldByCalls (s.calls.erase c) _ := heldByCalls_pos hd hmaps.covers
    unfold held at honce
    rw [heldByCalls_erase hc, if_pos hcovers] at honce
    omega

theorem Inv.reserved_not_mapped (h : Inv s) {offset bytes : ℕ}
    (hc : .reserved offset bytes ∈ s.calls) :
    ¬ s.AnyMapped (kernelHeapBase + offset) (bytes / pageSize) := by
  rintro ⟨i, hi, hmapped⟩
  obtain ⟨hoffset, hbytes⟩ : pageSize ∣ offset ∧ pageSize ∣ bytes := h.shaped _ hc
  have hstart : pageSize ∣ kernelHeapBase + offset := Nat.dvd_add base_dvd hoffset
  have hpage := Nat.div_mul_cancel hstart
  have hcovers : (Call.reserved offset bytes).Covers
      (((kernelHeapBase + offset) / pageSize + i) * pageSize) := by
    have hlast := Nat.mul_lt_mul_of_pos_right hi (by decide : 0 < pageSize)
    rw [Nat.div_mul_cancel hbytes] at hlast
    rw [Nat.add_mul, hpage]
    exact ⟨Nat.le_add_right _ _, Nat.add_lt_add_left hlast _⟩
  rw [h.not_mapped hc hcovers not_false] at hmapped
  cases hmapped

/-- In every reachable state: the ranges that calls hold are disjoint; they and the bytes of the heap in the
window are disjoint and below the top; no page of a reservation is mapped, when it is granted and until it
is mapped; and `KERNEL_HEAP_BYTES` is what is reserved, in the heap or being unmapped, together with what
reclaims have given up and not yet subtracted. -/
theorem heap_window_safe (h : machine.Reachable s) :
    (s.calls.Pairwise fun c d => ∀ x, c.Covers x → ¬ d.Covers x) ∧
    (∀ c ∈ s.calls, ∀ x, c.Covers x → s.system.owned x = false ∧
      kernelHeapBase ≤ x ∧ x < kernelHeapBase + s.virtualBytes) ∧
    (∀ x, InWindow x → s.system.owned x = true → x < kernelHeapBase + s.virtualBytes) ∧
    (∀ required offset bytes, .reserved offset bytes ∈ (s.growVirtual required).calls →
      ¬ (s.growVirtual required).AnyMapped (kernelHeapBase + offset) (bytes / pageSize)) ∧
    (∀ offset bytes, .reserved offset bytes ∈ s.calls →
      ¬ s.AnyMapped (kernelHeapBase + offset) (bytes / pageSize)) ∧ s.bootstrapBytes ≤ s.heapBytes ∧
    s.heapBytes - s.bootstrapBytes =
      inHeap s.system.owned + callBytes s.calls + callPending s.calls := by
  have hinv := inv_of_reachable h
  refine ⟨hinv.disjoint, ?_, ?_, ?_, ?_, ?_, ?_⟩
  · intro c hc x hx
    exact ⟨hinv.not_owned hc hx, (hinv.inWindow hc hx).1, hinv.lt_top hc hx⟩
  · intro x hin hown
    by_contra hge
    have hzero := hinv.top x (Nat.le_of_not_lt hge)
    unfold held heldByHeap at hzero
    rw [if_pos ⟨hin, hown⟩] at hzero
    omega
  · intro required offset bytes hc
    exact (hinv.growVirtual required).reserved_not_mapped hc
  · intro offset bytes hc
    exact hinv.reserved_not_mapped hc
  · have hcount := hinv.count
    omega
  · have hcount := hinv.count
    omega

def emptyWindow : State where
  system := ⟨.empty ⟨fun _ => 0, fun _ => 0⟩, [], fun _ => false⟩
  virtualBytes := 0
  heapBytes := 0
  mapped := fun _ => false
  calls := []
  bootstrapBytes := 0

theorem emptyWindow_init : Init emptyWindow :=
  ⟨Machine.Reach.init ⟨_, rfl⟩, fun _ _ _ => rfl, rfl, rfl, fun _ => rfl, rfl⟩

/-- Two calls have reserved a range each. -/
theorem heap_window_safe_twoGrowers :
    ∃ s, machine.Reachable s ∧ s.calls = [.reserved 0x40000 0x40000, .reserved 0 0x40000] ∧
      s.calls.Pairwise fun c d => ∀ x, c.Covers x → ¬ d.Covers x := by
  obtain ⟨s, hs, hcalls⟩ := machine.exists_reachable_of_run
    (fun s => s.calls = [.reserved 0x40000 0x40000, .reserved 0 0x40000])
    [.growVirtual 4096, .growVirtual 4096] emptyWindow_init (by decide +kernel)
  exact ⟨s, hs, hcalls, (heap_window_safe hs).1⟩

/-- The steps of a call that grows the window by 16 MiB, and of a reclaim of all of it up to the store that
lowers the top. -/
def growAndReclaim : List Label :=
  [.growVirtual (2 ^ 24), .step (.reserved 0 (2 ^ 24)) 4096, .step (.adding 0 (2 ^ 24)) 0, .reclaim,
    .step (.looking 0) 0] ++
  (List.range 17).map (fun batch => .step (.unmapping kernelHeapBase (2 ^ 24) (2 ^ 24) 0 (256 * batch)) 0) ++
  [.step (.retracting kernelHeapBase (2 ^ 24) (2 ^ 24) 4096) 0]

/-- Once the top is lowered nothing is reserved, in the heap or being unmapped, but the 16 MiB are still in
`KERNEL_HEAP_BYTES`. -/
theorem heap_bytes_lag :
    ∃ s, machine.Reachable s ∧ s.virtualBytes = 0 ∧ s.calls = [.subtracting (2 ^ 24) 4096] ∧
      s.heapBytes - s.bootstrapBytes ≠ inHeap s.system.owned + callBytes s.calls := by
  obtain ⟨s, hs, hvirtual, hcalls⟩ := machine.exists_reachable_of_run
    (fun s => s.virtualBytes = 0 ∧ s.calls = [.subtracting (2 ^ 24) 4096])
    growAndReclaim emptyWindow_init (by decide +kernel)
  have hcount := (inv_of_reachable hs).count
  have hpending : callPending s.calls = 2 ^ 24 := by rw [hcalls]; rfl
  refine ⟨s, hs, hvirtual, hcalls, ?_⟩
  omega

end CosmOS.Mm.HeapWindow
