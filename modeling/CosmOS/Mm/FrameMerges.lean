import CosmOS.Mm.FrameRuns

/-!
# Merges across a boundary between regions

`dealloc_order` merges a block with its buddy when each of the two is in some managed region, but takes
back a block only when it is in one region.  Two regions that meet at a page are merged across it when
the blocks on both sides, of the order the page is aligned to, are inside them (`MergesAcross`).

* `isManagedRange_of_apart`: without such a boundary every aligned block of managed pages is in one
  region.
* `exists_drained`, `Pages.next`, `Pages.covered`: with such a boundary, the run that allocates every
  page and then gives back the pages around the boundary leaves them in one free block.
* `outstanding_block_can_be_freed`: every block can be given back in every run exactly where no merge
  crosses a boundary.
-/

namespace CosmOS.Mm.BuddyFrameAllocator

open Buddy

variable {a : BuddyFrameAllocator} {l : ℕ → List ℕ} {bs : List Block} {S : ℕ → Prop}
  {n j k p x : ℕ}

/-! ## An allocation that succeeds -/

theorem sourceOrder_le (rounds : ℕ) (hkj : k ≤ j) (hj : j < k + rounds)
    (hsome : (a.freeList j).isSome) :
    a.sourceOrder rounds k ≤ j ∧ (a.freeList (a.sourceOrder rounds k)).isSome := by
  induction rounds generalizing k with
  | zero => omega
  | succ rounds ih =>
    rw [sourceOrder]
    split
    next hnone =>
      have hne : k ≠ j := by
        rintro rfl
        rw [Option.isNone_iff_eq_none] at hnone
        rw [hnone] at hsome
        cases hsome
      exact ih (by omega) (by omega)
    next hnone =>
      exact ⟨hkj, by simpa [Option.isSome_iff_ne_none] using hnone⟩

/-- An allocation succeeds when a list of its order or of a higher one has a block. -/
theorem exists_allocOrder (h : Lists a l) (hkj : k ≤ j) (hj : j < maxOrder) (hp : p ∈ l j) :
    ∃ q a', a.allocOrder k = some (q, a') := by
  have hsome : (a.freeList j).isSome := by
    rw [h.heads j hj, List.isSome_head?]
    exact List.ne_nil_of_mem hp
  obtain ⟨hle, hfirst⟩ := sourceOrder_le (maxOrder - k) hkj (by omega) hsome
  unfold allocOrder
  rw [if_neg (by omega)]
  dsimp only
  generalize a.sourceOrder (maxOrder - k) k = source at hle hfirst
  rw [if_neg (by omega), popBlock_eq h (by omega), ← h.heads source (by omega)]
  obtain ⟨q, hq⟩ := Option.isSome_iff_exists.mp hfirst
  rw [hq]
  exact ⟨_, _, rfl⟩

/-! ## Regions that a merge crosses -/

/-- The regions meet at a page where the last block of the one and the first block of the other, of the
order that the page is aligned to, are buddies. -/
def MergesAcross (r r' : PpnRegion) : Prop :=
  r.stop = r'.start ∧ ∃ k < maxOrder - 1, 2 ^ k ∣ r.stop ∧ ¬ 2 ^ (k + 1) ∣ r.stop ∧
    r.start + 2 ^ k ≤ r.stop ∧ r.stop + 2 ^ k ≤ r'.stop

instance (r r' : PpnRegion) : Decidable (MergesAcross r r') := inferInstanceAs (Decidable (_ ∧ _))

/-- No merge crosses from one region into another. -/
def Apart (regions : List PpnRegion) : Prop := ∀ r ∈ regions, ∀ r' ∈ regions, ¬ MergesAcross r r'

instance (regions : List PpnRegion) : Decidable (Apart regions) :=
  inferInstanceAs (Decidable (∀ r ∈ regions, ∀ r' ∈ regions, _))

/-- A page is in one region. -/
theorem eq_of_contains (hdisj : FrameSystem.DisjointRegions a.regions) {r r' : PpnRegion}
    (hr : r ∈ a.regions) (hr' : r' ∈ a.regions) (hx : r.Contains x) (hx' : r'.Contains x) : r = r' := by
  by_contra hne
  have hsymm : Std.Symm fun r r' : PpnRegion => ∀ ppn, r.Contains ppn → ¬ r'.Contains ppn :=
    ⟨fun _ _ hrr x hx hx' => hrr x hx' hx⟩
  exact hdisj.forall hr hr' hne x hx hx'

/-- Where no merge crosses a boundary, an aligned block of managed pages is in one region.  The induction
is on the order: if the halves are in two regions, these meet in the middle of the block. -/
theorem isManagedRange_of_apart (h : Regions a) (hdisj : FrameSystem.DisjointRegions a.regions)
    (hapart : Apart a.regions) (hk : k < maxOrder) (hp : 2 ^ k ∣ p)
    (hpages : ∀ x, p ≤ x → x < p + 2 ^ k → a.Managed x) : a.isManagedRange p (2 ^ k) = true := by
  rw [isManagedRange_iff h]
  induction k generalizing p with
  | zero =>
    obtain ⟨r, hr, hlow, hhigh⟩ := hpages p le_rfl (by simp)
    exact ⟨r, hr, hlow, hhigh⟩
  | succ k ih =>
    have hpos := Nat.two_pow_pos k
    have hdouble : 2 ^ (k + 1) = 2 ^ k + 2 ^ k := by rw [pow_succ]; omega
    have hp' : 2 ^ k ∣ p := dvd_trans (pow_dvd_pow 2 k.le_succ) hp
    rw [hdouble] at hpages ⊢
    obtain ⟨r, hr, hlow, hhigh⟩ := ih (by omega) hp' fun x hx hx' => hpages x hx (by omega)
    obtain ⟨r', hr', hlow', hhigh'⟩ := ih (p := p + 2 ^ k) (by omega) (hp'.add (dvd_refl _))
      fun x hx hx' => hpages x (by omega) (by omega)
    by_cases hmid : r.stop = p + 2 ^ k ∧ r'.start = p + 2 ^ k
    · refine absurd ⟨hmid.1.trans hmid.2.symm, k, by omega, ?_, ?_, ?_, ?_⟩ (hapart r hr r' hr')
      · exact hmid.1 ▸ hp'.add (dvd_refl _)
      · rw [hmid.1, (Nat.dvd_add_right hp)]
        exact fun hdvd => absurd (Nat.le_of_dvd hpos hdvd) (by omega)
      · omega
      · omega
    · -- otherwise they share a page next to the middle
      have heq : r = r' := by
        by_cases hstop : r.stop = p + 2 ^ k
        · have hstart : r'.start < p + 2 ^ k := by omega
          exact eq_of_contains hdisj hr hr' (x := p + 2 ^ k - 1) ⟨by omega, by omega⟩
            ⟨by omega, by omega⟩
        · exact eq_of_contains hdisj hr hr' (x := p + 2 ^ k) ⟨by omega, by omega⟩ ⟨by omega, by omega⟩
      subst heq
      exact ⟨r, hr, hlow, by omega⟩

end CosmOS.Mm.BuddyFrameAllocator

namespace CosmOS.Mm.FrameSystem

open BuddyFrameAllocator Buddy List

variable {s s' s₀ : FrameSystem} {regions : List PpnRegion} {l : ℕ → List ℕ} {b : Block} {q m n j k c x : ℕ}

/-! ## Allocating every page -/

/-- Single pages are allocated until none is free. -/
theorem exists_drained (hinv : Inv regions s) (hsingle : ∀ b ∈ s.outstanding, b.order = 0) :
    ∃ s', machine.Path Machine.anyStep s s' ∧ Inv regions s' ∧ s'.allocator.freePages = 0 ∧
      ∀ b ∈ s'.outstanding, b.order = 0 := by
  generalize hn : s.allocator.freePages = n
  induction n generalizing s with
  | zero => exact ⟨s, .refl, hinv, hn, hsingle⟩
  | succ n ih =>
    obtain ⟨l, hl⟩ := hinv.holds
    have hfree := hinv.free hl
    obtain ⟨b, hb⟩ : ∃ b, b ∈ onOrders maxOrder l := by
      apply exists_mem_of_ne_nil
      intro hnil
      rw [hnil, hn] at hfree
      cases hfree
    obtain ⟨hj, hp⟩ := mem_onOrders.mp hb
    obtain ⟨q, a, halloc⟩ := exists_allocOrder hl.lists (Nat.zero_le _) hj hp
    obtain ⟨-, -, -, -, -, hless, -⟩ := allocOrder_holds hl halloc
    have hstep : (s.allocOrder 0).2 = ⟨a, ⟨q, 0⟩ :: s.outstanding⟩ := by
      unfold FrameSystem.allocOrder
      rw [halloc]
    have hinv' := hinv.allocOrder 0
    rw [hstep] at hinv'
    obtain ⟨s', hpath, hs'⟩ := ih hinv'
      (by
        intro b hb
        rcases mem_cons.mp hb with rfl | hb
        · rfl
        · exact hsingle b hb)
      (by
        dsimp only
        rw [hless, hn]
        rfl)
    exact ⟨s', .head ⟨.allocOrder 0, trivial, congrArg some hstep⟩ hpath, hs'⟩

/-! ## Giving back the pages of a range -/

/-- Every page is allocated on its own, but for the `m` pages from `q` on, and all merges are made. -/
structure Pages (regions : List PpnRegion) (s : FrameSystem) (q m : ℕ) : Prop where
  inv : Inv regions s
  holds : ∃ l, Holds s.allocator l s.outstanding s.allocator.Managed
    (s.allocator.freePages + s.allocator.allocatedPages) ∧ Merged s.allocator l
  single : ∀ b ∈ s.outstanding, b.order = 0
  outstanding : ∀ x, s.allocator.Managed x → (⟨x, 0⟩ ∈ s.outstanding ↔ ¬ (q ≤ x ∧ x < q + m))

theorem eq_single (hb : b.order = 0) (hx : b.Covers x) : b = ⟨x, 0⟩ := by
  obtain ⟨base, order⟩ := b
  obtain rfl : order = 0 := hb
  exact congrArg (Block.mk · 0) (Nat.le_antisymm hx.1 (Nat.le_of_lt_succ hx.2))

theorem Pages.drained (hinv : Inv regions s) (hfree : s.allocator.freePages = 0)
    (hsingle : ∀ b ∈ s.outstanding, b.order = 0) : Pages regions s q 0 := by
  obtain ⟨l, hl⟩ := hinv.holds
  have hnil : onOrders maxOrder l = [] := by
    have hle := length_le_total (onOrders maxOrder l)
    rw [← hinv.free hl, hfree] at hle
    exact eq_nil_of_length_eq_zero (Nat.le_zero.mp hle)
  refine ⟨hinv, ⟨l, hl, ?_⟩, hsingle, ?_⟩
  · intro k hk p hp
    have hmem : Block.mk p k ∈ onOrders maxOrder l := mem_onOrders.mpr ⟨Nat.lt_of_succ_lt hk, hp⟩
    rw [hnil] at hmem
    cases hmem
  · intro x hx
    have hcover := (hl.parts.tiles x).1 hx
    rw [hnil, nil_append] at hcover
    obtain ⟨b, hb, hxb⟩ := countP_pos_iff.mp (hcover.symm ▸ Nat.one_pos)
    have hbx := eq_single (hsingle b hb) (of_decide_eq_true hxb)
    exact iff_of_true (hbx ▸ hb) (by omega)

/-- One page more is given back. -/
theorem Pages.next (h : Pages regions s q m) (hm : s.allocator.Managed (q + m)) :
    ∃ s', machine.Path Machine.anyStep s s' ∧ Pages regions s' q (m + 1) := by
  obtain ⟨l, hl, hmerged⟩ := h.holds
  have hb : ⟨q + m, 0⟩ ∈ s.outstanding := (h.outstanding _ hm).mpr (by omega)
  have hmanaged : s.allocator.isManagedRange (q + m) (2 ^ 0) = true := by
    obtain ⟨r, hr, hlow, hhigh⟩ := hm
    exact (isManagedRange_iff hl.regions _).mpr ⟨r, hr, hlow, hhigh⟩
  obtain ⟨a, l', hok, hregions, hl', -, hmerged'⟩ := h.inv.deallocOrder_holds hl hb hmanaged
  refine ⟨_, .single ⟨.deallocOrder ⟨q + m, 0⟩, trivial, ?_⟩, h.inv.deallocOrder hb hok,
    ⟨l', hl', hmerged' hmerged⟩, ?_, ?_⟩
  · change s.next (.deallocOrder ⟨q + m, 0⟩) = _
    rw [FrameSystem.next, if_pos hb, hok]
    rfl
  · exact fun b hb => h.single b (mem_of_mem_erase hb)
  · intro x hx
    rw [managed_congr hregions] at hx
    have hold := h.outstanding x hx
    by_cases hxm : x = q + m
    · -- the page was outstanding once
      subst hxm
      refine iff_of_false ?_ (by omega)
      have htiles := (hl.parts.perm (perm_cons_erase hb).symm).tiles.perm perm_middle.symm
      intro hagain
      exact htiles.head_disjoint (mem_append_right _ hagain) _ (Block.covers_base _)
        (Block.covers_base _)
    · rw [mem_erase_of_ne (by simpa using hxm), hold]
      omega

/-- The pages of a managed range are given back one after the other. -/
theorem Pages.range (h : Pages regions s q 0) (n : ℕ)
    (hm : ∀ x, q ≤ x → x < q + n → s.allocator.Managed x) :
    ∃ s', machine.Path Machine.anyStep s s' ∧ Pages regions s' q n := by
  induction n with
  | zero => exact ⟨s, .refl, h⟩
  | succ n ih =>
    obtain ⟨s₁, hpath, hs₁⟩ := ih fun x hlow hhigh => hm x hlow (by omega)
    have hnext : s₁.allocator.Managed (q + n) := by
      rw [managed_congr (hs₁.inv.managed.trans h.inv.managed.symm)]
      exact hm _ (by omega) (by omega)
    obtain ⟨s', hstep, hs'⟩ := hs₁.next hnext
    exact ⟨s', hpath.trans hstep, hs'⟩

/-- The page is in a free block. -/
theorem Pages.free (h : Pages regions s q m) (hl : Holds s.allocator l s.outstanding
      s.allocator.Managed (s.allocator.freePages + s.allocator.allocatedPages))
    (hm : s.allocator.Managed x) (hlow : q ≤ x) (hhigh : x < q + m) :
    ∃ b ∈ onOrders maxOrder l, b.Covers x := by
  have hcover := (hl.parts.tiles x).1 hm
  obtain ⟨b, hb, hxb⟩ := countP_pos_iff.mp (hcover.symm ▸ Nat.one_pos)
  have hxb := of_decide_eq_true hxb
  rcases mem_append.mp hb with hb | hb
  · exact ⟨b, hb, hxb⟩
  · have hbx := eq_single (h.single b hb) hxb
    exact absurd ⟨hlow, hhigh⟩ ((h.outstanding x hm).mp (hbx ▸ hb))

/-- A larger aligned block that meets an aligned block contains it. -/
theorem cover_double {i d : ℕ} (hi : j + 1 ≤ i) (hd : 2 ^ i ∣ d) (hc : 2 ^ (j + 1) ∣ c)
    (hlow : d < c + 2 ^ (j + 1)) (hhigh : c < d + 2 ^ i) : d ≤ c ∧ c + 2 ^ (j + 1) ≤ d + 2 ^ i := by
  have hpow : 2 ^ (j + 1) ∣ 2 ^ i := pow_dvd_pow 2 hi
  constructor
  · exact Nat.le_of_lt_add_of_dvd hlow (hpow.trans hd) hc
  · exact Nat.le_of_lt_add_of_dvd (by omega) (hc.add (dvd_refl _)) ((hpow.trans hd).add hpow)

/-- Every aligned block of the range is inside one free block.  The induction is on the order of the
block: were its halves two free blocks, they would be merged. -/
theorem Pages.covered (h : Pages regions s q m) (hl : Holds s.allocator l s.outstanding
      s.allocator.Managed (s.allocator.freePages + s.allocator.allocatedPages))
    (hmerged : Merged s.allocator l) (hj : j < maxOrder)
    (hhalves : ∀ i < j, ∀ c, 2 ^ i ∣ c → q ≤ c → c + 2 ^ i ≤ q + m →
      s.allocator.isManagedRange c (2 ^ i) = true)
    (hpages : ∀ x, q ≤ x → x < q + m → s.allocator.Managed x)
    (hc : 2 ^ j ∣ c) (hlow : q ≤ c) (hhigh : c + 2 ^ j ≤ q + m) :
    ∃ i d, i < maxOrder ∧ d ∈ l i ∧ d ≤ c ∧ c + 2 ^ j ≤ d + 2 ^ i := by
  induction j generalizing c with
  | zero =>
    have hlt : c < q + m := by simpa using hhigh
    obtain ⟨b, hb, hcb⟩ := h.free hl (hpages c hlow hlt) hlow hlt
    obtain ⟨hi, hd⟩ := mem_onOrders.mp hb
    exact ⟨b.order, b.base, hi, hd, hcb.1, hcb.2⟩
  | succ j ih =>
    have hpos := Nat.two_pow_pos j
    have hdouble : 2 ^ (j + 1) = 2 ^ j + 2 ^ j := by rw [pow_succ]; omega
    have hc' : 2 ^ j ∣ c := (pow_dvd_pow 2 j.le_succ).trans hc
    have hc'' : 2 ^ j ∣ c + 2 ^ j := hc'.add (dvd_refl _)
    have hrange : ∀ i < j, ∀ c, 2 ^ i ∣ c → q ≤ c → c + 2 ^ i ≤ q + m →
        s.allocator.isManagedRange c (2 ^ i) = true := fun i hi => hhalves i (by omega)
    obtain ⟨i, d, hi, hd, hdc, hcd⟩ := ih (by omega) hrange hc' hlow (by omega)
    obtain ⟨i', d', hi', hd', hdc', hcd'⟩ := ih (by omega) hrange hc'' (by omega) (by omega)
    by_cases hbig : j + 1 ≤ i
    · obtain ⟨hle, hge⟩ := cover_double hbig (hl.lists.aligned i hi d hd) hc (by omega) (by omega)
      exact ⟨i, d, hi, hd, hle, hge⟩
    by_cases hbig' : j + 1 ≤ i'
    · obtain ⟨hle, hge⟩ := cover_double hbig' (hl.lists.aligned i' hi' d' hd') hc (by omega) (by omega)
      exact ⟨i', d', hi', hd', hle, hge⟩
    -- otherwise the two halves are free blocks
    have hpow : 2 ^ i ≤ 2 ^ j := Nat.pow_le_pow_right (by omega) (by omega)
    have hpow' : 2 ^ i' ≤ 2 ^ j := Nat.pow_le_pow_right (by omega) (by omega)
    obtain rfl : d = c := by omega
    obtain rfl : d' = d + 2 ^ j := by omega
    obtain rfl : i = j := Nat.pow_right_injective le_rfl (show 2 ^ i = 2 ^ j by omega)
    obtain rfl : i' = i := Nat.pow_right_injective le_rfl (show 2 ^ i' = 2 ^ i by omega)
    have hbuddy : buddy d i' = d + 2 ^ i' := buddy_of_dvd hc
    have hself := hhalves i' (by omega) d hc' hlow (by omega)
    have hother := hhalves i' (by omega) (d + 2 ^ i') hc'' (by omega) (by omega)
    exact absurd (hbuddy ▸ hd') (hmerged i' hj d hd hself (hbuddy ▸ hother))

/-- The next block that is as large as the range is the range itself: no other page is free. -/
theorem Pages.allocOrder_eq (h : Pages regions s q (2 ^ k)) {p : ℕ} {a : BuddyFrameAllocator}
    (halloc : s.allocator.allocOrder k = some (p, a)) : p = q := by
  obtain ⟨l, hl, -⟩ := h.holds
  obtain ⟨l', hl', -⟩ := allocOrder_holds hl halloc
  have hfree : ∀ x, p ≤ x → x < p + 2 ^ k → q ≤ x ∧ x < q + 2 ^ k := by
    intro x hlow hhigh
    have hx : (Block.mk p k).Covers x := ⟨hlow, hhigh⟩
    by_contra hout
    have hmem := (h.outstanding x (hl'.parts.hand_mem hx)).mpr hout
    have htiles := hl'.parts.tiles.perm perm_middle.symm
    exact htiles.head_disjoint (mem_append_right _ hmem) x hx (Block.covers_base ⟨x, 0⟩)
  have hpos := Nat.two_pow_pos k
  have hfirst := hfree p le_rfl (by omega)
  have hlast := hfree (p + 2 ^ k - 1) (by omega) (by omega)
  omega

/-! ## Main result -/

/-- Every aligned part of the two halves around the boundary is in one region. -/
theorem isManagedRange_across {a : BuddyFrameAllocator} (h : Regions a) {r r' : PpnRegion}
    (hr : r ∈ a.regions) (hr' : r' ∈ a.regions) (hlow : r.start ≤ q) (hstop : r.stop = q + 2 ^ k)
    (hstart : r'.start = q + 2 ^ k) (hhigh : q + 2 ^ (k + 1) ≤ r'.stop) (hq : 2 ^ (k + 1) ∣ q) :
    ∀ i < k + 1, ∀ c, 2 ^ i ∣ c → q ≤ c → c + 2 ^ i ≤ q + 2 ^ (k + 1) →
      a.isManagedRange c (2 ^ i) = true := by
  intro i hi c hc hqc hcq
  rw [isManagedRange_iff h]
  by_cases hside : c < q + 2 ^ k
  · refine ⟨r, hr, hlow.trans hqc, hstop ▸ ?_⟩
    have hmid : 2 ^ i ∣ q + 2 ^ k :=
      ((pow_dvd_pow 2 hi.le).trans hq).add (pow_dvd_pow 2 (Nat.le_of_lt_succ hi))
    exact Nat.le_of_lt_add_of_dvd (by omega) (hc.add (dvd_refl _)) hmid
  · exact ⟨r', hr', by omega, hcq.trans hhigh⟩

/-- A boundary that a merge crosses lets a block be handed out that cannot be given back. -/
theorem exists_stuck (hinv : Inv regions s₀) (hnone : s₀.outstanding = []) {r r' : PpnRegion}
    (hr : r ∈ regions) (hr' : r' ∈ regions) (hacross : MergesAcross r r') :
    ∃ s, machine.Path Machine.anyStep s₀ s ∧ ∃ b ∈ s.outstanding,
      s.deallocOrder b = .error .notAllocated := by
  obtain ⟨hmeet, k, hk, hdvd, hndvd, hfits, hfits'⟩ := hacross
  obtain ⟨hq, hstop⟩ := buddy_of_not_dvd hdvd hndvd
  generalize buddy r.stop k = q at hq hstop
  have hpos := Nat.two_pow_pos k
  have hdouble : 2 ^ (k + 1) = 2 ^ k + 2 ^ k := by rw [pow_succ]; omega
  -- all pages are allocated, then those around the boundary given back
  obtain ⟨s₁, hpath₁, hinv₁, hfree, hsingle⟩ := exists_drained hinv (by simp [hnone])
  have hdrained : Pages regions s₁ q 0 := Pages.drained hinv₁ hfree hsingle
  have hpages : ∀ a : BuddyFrameAllocator, a.regions = regions →
      ∀ x, q ≤ x → x < q + 2 ^ (k + 1) → a.Managed x := by
    rintro a rfl x hlow hhigh
    by_cases hside : x < q + 2 ^ k
    · exact ⟨r, hr, by omega, by omega⟩
    · exact ⟨r', hr', by omega, by omega⟩
  obtain ⟨s₂, hpath₂, hback⟩ := hdrained.range (2 ^ (k + 1)) (hpages _ hinv₁.managed)
  obtain ⟨l, hl, hmerged⟩ := hback.holds
  have hregions := hback.inv.managed
  have hparts := isManagedRange_across hl.regions (hregions ▸ hr) (hregions ▸ hr') (by omega) hstop
    (by omega) (by omega) hq
  -- they are in one free block, so the whole range can be allocated
  obtain ⟨i, d, hi, hd, hlow, hhigh⟩ := hback.covered hl hmerged (j := k + 1) (by omega) hparts
    (hpages _ hregions) hq le_rfl le_rfl
  have hki : k + 1 ≤ i := (Nat.pow_le_pow_iff_right Nat.one_lt_two).mp (by omega)
  obtain ⟨p, a, halloc⟩ := exists_allocOrder hl.lists hki hi hd
  obtain rfl := hback.allocOrder_eq halloc
  have hstep : (s₂.allocOrder (k + 1)).2 = ⟨a, ⟨p, k + 1⟩ :: s₂.outstanding⟩ := by
    unfold FrameSystem.allocOrder
    rw [halloc]
  refine ⟨_, (hpath₁.trans hpath₂).tail ⟨.allocOrder (k + 1), trivial, congrArg some hstep⟩,
    ⟨p, k + 1⟩, .head _, ?_⟩
  have hinv₃ := hback.inv.allocOrder (k + 1)
  rw [hstep] at hinv₃
  have hout : a.isManagedRange p (2 ^ (k + 1)) = false := by
    obtain ⟨l₃, hl₃⟩ := hinv₃.holds
    rw [Bool.eq_false_iff, ne_eq, isManagedRange_iff hl₃.regions]
    rintro ⟨r'', hr'', hfirst, hlast⟩
    have hregions₃ : a.regions = regions := hinv₃.managed
    obtain rfl : r = r'' := eq_of_contains (a := a) (x := p) (hregions₃ ▸ hinv₃.disjoint)
      (hregions₃ ▸ hr) hr'' ⟨by omega, by omega⟩ ⟨hfirst, by omega⟩
    omega
  unfold FrameSystem.deallocOrder
  rw [deallocOrder_error hout]

/-- Every outstanding block can be given back in every state of every run, and every block on a list is
in one region, exactly where no merge crosses a boundary between two regions. -/
theorem outstanding_block_can_be_freed (hinit : machine.Init s₀) :
    (∀ s, machine.Path Machine.anyStep s₀ s →
      (∀ b ∈ s.outstanding, ∃ s', s.deallocOrder b = .ok s') ∧ ∃ l, s.allocator.Lists l ∧
        ∀ k < maxOrder, ∀ p ∈ l k, s.allocator.isManagedRange p (2 ^ k) = true) ↔
      Apart s₀.allocator.regions := by
  have hinv₀ := Inv.init hinit
  constructor
  · intro hall r hr r' hr' hacross
    obtain ⟨-, -, -, -, -, -, -, hnone⟩ := hinit
    obtain ⟨s, hpath, b, hb, herror⟩ := exists_stuck hinv₀ hnone hr hr' hacross
    obtain ⟨s', hok⟩ := (hall s hpath).1 b hb
    rw [herror] at hok
    cases hok
  · intro hapart s hpath
    have hinv := hinv₀.path hpath
    obtain ⟨l, hl⟩ := hinv.holds
    have hrange : ∀ b ∈ onOrders maxOrder l ++ s.outstanding, b.order < maxOrder → b.Aligned →
        s.allocator.isManagedRange b.base (2 ^ b.order) = true := by
      intro b hb hk haligned
      refine isManagedRange_of_apart hl.regions ?_ ?_ hk haligned fun x hlow hhigh => ?_
      · exact hinv.managed ▸ hinv.disjoint
      · exact hinv.managed ▸ hapart
      · exact hl.parts.tiles.mem hb ⟨hlow, hhigh⟩
    refine ⟨?_, l, hl.lists, ?_⟩
    · intro b hb
      obtain ⟨hk, haligned⟩ := hinv.outstanding b hb
      obtain ⟨s', hok, -⟩ := hinv.deallocOrder_ok hb (hrange b (mem_append_right _ hb) hk haligned)
      exact ⟨s', hok⟩
    · intro k hk p hp
      exact hrange ⟨p, k⟩ (mem_append_left _ (mem_onOrders.mpr ⟨hk, hp⟩)) hk
        (hl.lists.aligned k hk p hp)

theorem secondPage_le : 0x80201000 ≤ usizeMax := by decide

theorem thirdPage_le : 0x80202000 ≤ usizeMax := by decide

theorem ramEnd_le : 0x80203000 ≤ usizeMax := by decide

/-- Three pages of RAM, which the firmware describes as a region of two pages and one of a page. -/
def threePages : FrameSystem :=
  boot [⟨0x80200000, 0x80202000, thirdPage_le⟩, ⟨0x80202000, 0x80203000, ramEnd_le⟩]

theorem disjointRegions_pair {r r' : PpnRegion} (h : r.stop ≤ r'.start) : DisjointRegions [r, r'] := by
  refine pairwise_pair.mpr ?_
  rintro x ⟨-, hlt⟩ ⟨hge, -⟩
  omega

theorem init_threePages : machine.Init threePages := by
  refine ⟨_, _, _, _, _, rfl, ?_, rfl⟩
  have hregions : threePages.allocator.regions = [⟨0x80200, 0x80202⟩, ⟨0x80202, 0x80203⟩] := by decide
  exact hregions ▸ disjointRegions_pair le_rfl

/-- All pages are allocated and given back.  The first two are merged again, up to the boundary, and the
block of the two can be given back. -/
theorem outstanding_block_can_be_freed_threePages :
    ∃ s, machine.Path Machine.anyStep threePages s ∧ ⟨0x80200, 1⟩ ∈ s.outstanding ∧
      ∃ s', s.deallocOrder ⟨0x80200, 1⟩ = .ok s' := by
  have hrun : (machine.run threePages [.allocOrder 0, .allocOrder 0, .allocOrder 0,
      .deallocOrder ⟨0x80200, 0⟩, .deallocOrder ⟨0x80201, 0⟩, .deallocOrder ⟨0x80202, 0⟩,
      .allocOrder 1]).any (fun s => decide (⟨0x80200, 1⟩ ∈ s.outstanding)) = true := by decide
  obtain ⟨s, hs, hmem⟩ := (Option.any_eq_true _ _).mp hrun
  have hpath := Machine.path_of_run hs
  have hapart : Apart threePages.allocator.regions := by decide
  have hmem := of_decide_eq_true hmem
  exact ⟨s, hpath, hmem,
    ((outstanding_block_can_be_freed init_threePages).mpr hapart s hpath).1 _ hmem⟩

def adjacentPages : FrameSystem :=
  boot [⟨0x80200000, 0x80201000, secondPage_le⟩, ⟨0x80201000, 0x80202000, thirdPage_le⟩]

theorem init_adjacentPages : machine.Init adjacentPages := by
  refine ⟨_, _, _, _, _, rfl, ?_, rfl⟩
  have hregions : adjacentPages.allocator.regions = [⟨0x80200, 0x80201⟩, ⟨0x80201, 0x80202⟩] := by
    decide
  exact hregions ▸ disjointRegions_pair le_rfl

/-- A page is freed and merged with the free page of the adjacent region.  The next allocation of two
pages gets the merged block, and freeing that block ends in the panic. -/
theorem merged_block_cannot_be_freed : ∃ s, machine.Reachable s ∧ ⟨0x80200, 1⟩ ∈ s.outstanding ∧
      s.deallocOrder ⟨0x80200, 1⟩ = .error .notAllocated := by
  obtain ⟨s, hs, hmem, hrange⟩ := machine.exists_reachable_of_run
    (fun s => ⟨0x80200, 1⟩ ∈ s.outstanding ∧ s.allocator.isManagedRange 0x80200 2 = false)
    [.allocOrder 0, .deallocOrder ⟨0x80201, 0⟩, .allocOrder 1] init_adjacentPages
    (by decide)
  refine ⟨s, hs, hmem, ?_⟩
  unfold FrameSystem.deallocOrder
  rw [deallocOrder_error hrange]

end CosmOS.Mm.FrameSystem
