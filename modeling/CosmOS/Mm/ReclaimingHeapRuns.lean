import CosmOS.Mm.ReclaimingHeapSafety

/-!
# Runs of the kernel heap

* `Inv`: the blocks on the lists and the live blocks tile the bytes that the heap owns, and the counters
  are their sizes.
* `reclaiming_heap_consistent`: what holds in every reachable state, also after the index has overflowed.
-/

namespace CosmOS.Mm.HeapSystem

open ReclaimingHeap Buddy List

variable {s s' : HeapSystem} {l : ℕ → List ℕ} {b : Block} {k p : ℕ}

/-- Free and live blocks tile the bytes of the heap, and the counters count them. -/
structure Inv (s : HeapSystem) : Prop where
  holds : ∃ l, Holds s.heap l s.live (fun x => s.owned x = true) s.heap.total
  allocated : s.heap.allocated = total s.live
  live : ∀ b ∈ s.live, minBuddyOrder ≤ b.order ∧ b.order < heapOrderCount ∧ b.Aligned

theorem Inv.init (memory : Cells ℕ) : Inv ⟨.empty memory, [], fun _ => false⟩ where
  holds := by
    refine ⟨fun _ => [], ⟨⟨fun _ _ => ⟨rfl, nodup_nil⟩, ?_⟩, ?_, ?_, ?_, ?_⟩, ⟨?_, ?_⟩, ?_⟩
    · exact nofun
    · exact nofun
    · exact ProbeTable.placed_empty
    · rintro p k ⟨slot, -, hslot⟩
      cases hslot
    · exact nofun
    · exact fun x => ⟨nofun, fun _ => rfl⟩
    · have hnil : onOrders heapOrderCount (fun _ => []) ++ [] = [] := by decide
      rw [hnil]
      rfl
    · nofun
  allocated := rfl
  live := fun b hb => nomatch hb

theorem Inv.addToHeap (h : Inv s) {start stop : ℕ} (hn : s.addToHeap start stop = some s') :
    Inv s' := by
  rcases Option.ite_none_right_eq_some.mp hn with ⟨hfree, hn⟩
  split at hn
  · cases hn
  rename_i heap heq
  cases hn
  obtain ⟨l, hl⟩ := h.holds
  have hfree : ∀ x, alignUp start ≤ x → x < alignDown stop → ¬ s.owned x = true := by
    intro x hlow hhigh
    have hx := hfree (x - alignUp start) (by omega)
    rw [Nat.add_sub_cancel' hlow] at hx
    rw [hx]
    exact Bool.false_ne_true
  obtain ⟨l', hl', halloc⟩ := addToHeap_holds hl rfl hfree heq
  refine ⟨⟨l', hl'.of_iff fun x => ?_⟩, halloc.trans h.allocated, h.live⟩
  simp

theorem roundedSize_eq {size alignOrder : ℕ} (hsize : size < 2 ^ 63) (halign : alignOrder < 63) :
    ∃ k, roundedSize size (2 ^ alignOrder) = 2 ^ k ∧ minBuddyOrder ≤ k ∧ k < 64 := by
  obtain ⟨i, hi, hi64⟩ : ∃ i, nextPowerOfTwo size = 2 ^ i ∧ i < 64 := by
    unfold nextPowerOfTwo
    split
    · exact ⟨0, rfl, by decide⟩
    · refine ⟨_, rfl, ?_⟩
      have hlog : (size - 1).log2 < 63 := (Nat.log2_lt (by omega)).mpr (by omega)
      omega
  have hmax : ∀ i j : ℕ, max (2 ^ i) (2 ^ j) = 2 ^ max i j := by
    intro i j
    rcases Nat.le_total i j with hle | hle
    · rw [Nat.max_eq_right hle, Nat.max_eq_right (Nat.pow_le_pow_right (by decide) hle)]
    · rw [Nat.max_eq_left hle, Nat.max_eq_left (Nat.pow_le_pow_right (by decide) hle)]
  have hmin : minBuddyBlockSize = 2 ^ minBuddyOrder := rfl
  refine ⟨max i (max alignOrder minBuddyOrder), ?_, by omega, ?_⟩
  · rw [roundedSize, hi, hmin, hmax, hmax]
  · have : minBuddyOrder < 64 := by decide
    omega

theorem Inv.alloc (h : Inv s) {size alignOrder : ℕ} (hn : s.alloc size alignOrder = some s') :
    Inv s' := by
  rcases Option.ite_none_right_eq_some.mp hn with ⟨hbound, hn⟩
  obtain ⟨k, hk, hmin, hk64⟩ := roundedSize_eq hbound.1 hbound.2
  rw [hk, trailingZeros_two_pow, min_eq_left hk64.le] at hn
  obtain ⟨l, hl⟩ := h.holds
  rcases allocRounded_holds hk64 hmin hl with heq | ⟨p, heap, l', heq, hl', hcount, hp, htotal, halloc⟩
  · rw [heq] at hn
    cases hn
    exact h
  · rw [heq] at hn
    cases hn
    refine ⟨⟨l', ?_⟩, ?_, ?_⟩
    · dsimp only
      rwa [htotal]
    · dsimp only
      rw [halloc, h.allocated, add_comm]
      rfl
    · intro b hb
      rcases mem_cons.mp hb with rfl | hb
      · exact ⟨hmin, hcount, hp⟩
      · exact h.live b hb

theorem Inv.dealloc_ok (h : Inv s) (hb : b ∈ s.live) : ∃ s', s.dealloc b = .ok s' ∧ Inv s' := by
  obtain ⟨l, hl⟩ := h.holds
  obtain ⟨hmin, hk, hp⟩ := h.live b hb
  have hperm := perm_cons_erase hb
  obtain ⟨heap, l', heq, hl', htotal, halloc⟩ :=
    deallocRounded_holds hk hmin hp (hl.of_parts (hl.parts.perm hperm.symm)) le_rfl
  have hsize := total_perm hperm
  rw [total_cons, ← h.allocated] at hsize
  have hpow : b.size = 2 ^ b.order := rfl
  refine ⟨{ s with heap := heap, live := s.live.erase b }, ?_, ⟨l', ?_⟩, ?_, ?_⟩
  · unfold HeapSystem.dealloc
    rw [hpow, heq]
  · dsimp only
    rwa [htotal]
  · dsimp only
    omega
  · exact fun b' hb' => h.live b' (mem_of_mem_erase hb')

theorem Inv.release (h : Inv s) {minSize rangeStart rangeEnd : ℕ}
    (hn : s.release minSize rangeStart rangeEnd = some s') : Inv s' := by
  obtain ⟨l, hl⟩ := h.holds
  unfold HeapSystem.release releaseOneTailFreeBlock at hn
  dsimp only at hn
  generalize trailingZeros 64 (nextPowerOfTwo minSize) = minClass at hn
  by_cases hclass : minClass ≤ heapOrderCount
  · rcases releaseFrom_holds minClass rangeStart rangeEnd (heapOrderCount - minClass) (by omega) hl rfl
      with heq | ⟨p, k, heap, l', heq, hl', halloc, -⟩
    · rw [heq] at hn
      cases hn
      exact h
    · rw [heq] at hn
      cases hn
      refine ⟨⟨l', hl'.of_iff fun x => ?_⟩, halloc.trans h.allocated, h.live⟩
      simp only [Bool.and_eq_true, Bool.not_eq_true', Bool.and_eq_false_iff, decide_eq_false_iff_not,
        Block.Covers, Block.size, not_and_or]
  · have hzero : heapOrderCount - minClass = 0 := by omega
    rw [hzero] at hn
    cases hn
    exact h

theorem Inv.store (h : Inv s) (hb : b ∈ s.live) (hp : b.Covers p) (first second : ℕ) :
    Inv { s with heap := { s.heap with
      memory := (s.heap.memory.setNext p first).setPrev p second } } := by
  obtain ⟨l, hl⟩ := h.holds
  -- the address is in no free block, so no link is written
  have hfree : ∀ k < heapOrderCount, p ∉ l k := by
    intro k hk hmem
    have hfront := hl.parts.perm (perm_cons_erase hb).symm
    exact hfront.hand_disjoint hk hmem p hp (Block.covers_base ⟨p, k⟩)
  refine ⟨⟨l, ⟨?_, hl.lists.aligned, hl.lists.placed, hl.lists.sound, hl.lists.complete⟩,
    hl.parts, hl.positive⟩, h.allocated, h.live⟩
  apply hl.lists.linked.congr
  intro k hk x hx
  have hne : x ≠ p := by
    rintro rfl
    exact hfree k hk hx
  simp [Cells.setNext_next, Cells.setPrev_prev, hne]

theorem Inv.next {label : Label} (h : Inv s) (hn : s.next label = some s') : Inv s' := by
  cases label with rw [HeapSystem.next] at hn
  | addToHeap start stop => exact h.addToHeap hn
  | alloc size alignOrder => exact h.alloc hn
  | dealloc b =>
    split at hn
    next hb =>
      obtain ⟨s₁, heq, hinv⟩ := h.dealloc_ok hb
      rw [heq] at hn
      cases hn
      exact hinv
    · cases hn
  | release minSize rangeStart rangeEnd => exact h.release hn
  | store addr first second =>
    split at hn
    next hany =>
      obtain ⟨b, hb, hp⟩ := any_eq_true.mp hany
      cases hn
      exact h.store hb (of_decide_eq_true hp) first second
    · cases hn

theorem inv_of_reachable (h : machine.Reachable s) : Inv s := by
  apply h.invariant
  · rintro s₀ ⟨memory, rfl⟩
    exact Inv.init memory
  · intro s₀ label s₁ hinv _ hn
    exact hinv.next hn

/-- In every reachable state, with the index intact or overflowed: free blocks are aligned to their size
and linked in both directions; free and live blocks are disjoint and tile the bytes added and not
released; the counters are the sums of their sizes; `remove_free_block` answers whether the block is on
the list, and takes out exactly that block; and the deallocation of a live block returns. -/
theorem reclaiming_heap_consistent (h : machine.Reachable s) : ∃ l : ℕ → List ℕ,
      s.heap.memory.Lists 0 heapOrderCount s.heap.freeList l ∧
      (∀ k < heapOrderCount, ∀ p ∈ l k, minBuddyOrder ≤ k ∧ 2 ^ k ∣ p) ∧
      (onOrders heapOrderCount l ++ s.live).Pairwise Block.Disjoint ∧
      (∀ x, s.owned x = true → cover (onOrders heapOrderCount l ++ s.live) x = 1) ∧
      (∀ x, s.owned x = false → cover (onOrders heapOrderCount l ++ s.live) x = 0) ∧
      s.heap.total = total (onOrders heapOrderCount l ++ s.live) ∧ s.heap.allocated = total s.live ∧
      (∀ k < heapOrderCount, ∀ p, ∃ heap,
        s.heap.removeFreeBlock k p = .ok (decide (p ∈ l k), heap) ∧
        heap.memory.Lists 0 heapOrderCount heap.freeList (Function.update l k ((l k).erase p))) ∧
      (∀ b ∈ s.live, ∃ heap, s.heap.deallocRounded b.base b.size = .ok heap) := by
  have hinv := inv_of_reachable h
  obtain ⟨l, hl⟩ := hinv.holds
  refine ⟨l, hl.lists.linked, hl.lists.aligned, hl.parts.tiles.pairwise,
    fun x hx => (hl.parts.tiles x).1 hx, fun x hx => (hl.parts.tiles x).2 (by simp [hx]),
    hl.parts.size.symm, hinv.allocated, ?_, ?_⟩
  · intro k hk p
    refine ⟨_, removeFreeBlock_eq hl.lists hk (hl.parts.length_le hk), ?_⟩
    split
    next hmem =>
      exact (hl.lists.dropBlock hk hmem).linked
    next hmem =>
      rw [erase_of_not_mem hmem, Function.update_eq_self]
      exact hl.lists.linked
  · intro b hb
    obtain ⟨s', hok, -⟩ := hinv.dealloc_ok hb
    unfold HeapSystem.dealloc at hok
    split at hok
    · cases hok
    next heap heq =>
      exact ⟨heap, heq⟩

/-- A heap of 64 bytes with one allocation in it. -/
theorem reclaiming_heap_consistent_small : ∃ s, machine.Reachable s ∧ s.live = [⟨0x1000, 4⟩] ∧
      ∃ heap, s.heap.deallocRounded 0x1000 16 = .ok heap := by
  have hinit : machine.Init ⟨.empty ⟨fun _ => 0, fun _ => 0⟩, [], fun _ => false⟩ := ⟨_, rfl⟩
  obtain ⟨s, hs, hlive⟩ := machine.exists_reachable_of_run
    (fun s => s.live = [⟨0x1000, 4⟩]) [.addToHeap 0x1000 0x1040, .alloc 10 3] hinit
    (by decide)
  obtain ⟨l, -, -, -, -, -, -, -, -, hdealloc⟩ := reclaiming_heap_consistent hs
  exact ⟨s, hs, hlive, hdealloc ⟨0x1000, 4⟩ (hlive ▸ .head _)⟩

end CosmOS.Mm.HeapSystem
