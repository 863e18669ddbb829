import CosmOS.Mm.FrameAllocatorSafety

/-!
# Runs of the frame allocator

* `addRangeLoop_holds`, `addRanges_holds`, `initFromBootinfo_holds`: `init_from_bootinfo` puts every
  managed page in one block.
* `frame_allocator_consistent`: in every reachable state the lists, links, bits and counters agree, and
  free and outstanding blocks tile the managed pages.
-/

namespace CosmOS.Mm.BuddyFrameAllocator

open FreeBlockBitmap Buddy

variable {a a' : BuddyFrameAllocator} {l l' : ℕ → List ℕ} {bs bs' : List Block} {S S' : ℕ → Prop}
  {b : Block} {n j k p x start stop : ℕ}

/-! ## Adding ranges -/

theorem fitOrder_spec (hlt : start < stop) (k : ℕ) :
    fitOrder start stop k ≤ k ∧ start + 2 ^ fitOrder start stop k ≤ stop := by
  induction k with
  | zero => exact ⟨le_refl 0, hlt⟩
  | succ k ih =>
    rw [fitOrder]
    split
    · exact ⟨ih.1.trans k.le_succ, ih.2⟩
    next hfit =>
      exact ⟨le_rfl, Nat.le_of_not_gt hfit⟩

/-- Each block of `add_range` is aligned and inside the range. -/
theorem rangeOrder_spec (hlt : start < stop) :
    rangeOrder start stop < maxOrder ∧ 2 ^ rangeOrder start stop ∣ start ∧
      start + 2 ^ rangeOrder start stop ≤ stop := by
  unfold rangeOrder
  dsimp only
  generalize hlow : (if start = 0 then maxOrder - 1 else min (trailingZeros 64 start) (maxOrder - 1)) =
    low
  obtain ⟨hle, hfit⟩ := fitOrder_spec hlt (min (min (floorLog2 (stop - start)) low) (maxOrder - 1))
  refine ⟨?_, ?_, hfit⟩
  · have hmax : maxOrder - 1 < maxOrder := by decide
    omega
  by_cases hzero : start = 0
  · rw [hzero]
    exact dvd_zero _
  · rw [if_neg hzero] at hlow
    exact dvd_trans (pow_dvd_pow 2 (by omega)) (trailingZeros_dvd 64 start)

theorem Holds.of_iff (h : Holds a l bs S n) (hS : ∀ x, S' x ↔ S x) : Holds a l bs S' n :=
  ⟨h.lists, h.regions, h.parts.of_iff hS, fun x hx => h.managed x ((hS x).mp hx)⟩

/-- A block of managed pages that are in no block yet. -/
theorem Holds.add (h : Holds a l bs S n) (hb : ∀ x, b.Covers x → a.Managed x ∧ ¬ S x) :
    Holds a l (b :: bs) (fun x => S x ∨ b.Covers x) (n + b.size) where
  __ := h
  parts := h.parts.add fun x hx => (hb x hx).2
  managed := by
    rintro x (hx | hx)
    · exact h.managed x hx
    · exact (hb x hx).1

theorem addRangeLoop_regions (rounds : ℕ) (a : BuddyFrameAllocator) (start stop : ℕ) :
    (addRangeLoop rounds a start stop).regions = a.regions := by
  induction rounds generalizing a start with
  | zero => rfl
  | succ rounds ih =>
    rw [addRangeLoop]
    split
    · exact (ih _ _).trans pushBlock_regions
    · rfl

variable (regions : List PpnRegion)

theorem addRanges_regions (a : BuddyFrameAllocator) :
    (regions.foldl (fun a region => a.addRange region.start region.stop) a).regions = a.regions := by
  induction regions generalizing a with
  | nil => rfl
  | cons r regions ih => exact (ih _).trans (addRangeLoop_regions _ _ _ _)

/-- The pages of the range are put in blocks, and no other page is. -/
theorem addRangeLoop_holds (rounds : ℕ) (hrounds : stop - start ≤ rounds)
    (hpages : ∀ x, start ≤ x → x < stop → a.Managed x ∧ ¬ S x) (h : Holds a l [] S a.freePages)
    (ha' : addRangeLoop rounds a start stop = a') :
    ∃ l', Holds a' l' [] (fun x => S x ∨ start ≤ x ∧ x < stop) a'.freePages ∧
      a'.allocatedPages = a.allocatedPages := by
  induction rounds generalizing a l S start with
  | zero =>
    subst ha'
    exact ⟨l, h.of_iff fun x => or_iff_left (by omega), rfl⟩
  | succ rounds ih =>
    rw [addRangeLoop] at ha'
    split at ha'
    next hlt =>
      obtain ⟨hk, hdvd, hfit⟩ := rangeOrder_spec hlt
      generalize rangeOrder start stop = order at hk hdvd hfit ha'
      dsimp only at ha'
      rw [pushBlock_freePages] at ha'
      have hend : start + 2 ^ order ≤ stop := by omega
      have hadd := h.add (b := ⟨start, order⟩) fun x hx => hpages x hx.1 (hx.2.trans_le hend)
      have hround := (hadd.push hk hdvd).counters (a.freePages + 2 ^ order)
        (a.pushBlock order start).allocatedPages
      -- the rest of the range is still in no block
      have hrest : ∀ x, start + 2 ^ order ≤ x → x < stop →
          BuddyFrameAllocator.Managed { a.pushBlock order start with
            freePages := a.freePages + 2 ^ order } x ∧
            ¬ (S x ∨ start ≤ x ∧ x < start + 2 ^ order) := by
        intro x hlow hhigh
        obtain ⟨hm, hS⟩ := hpages x (by omega) hhigh
        refine ⟨?_, by rintro (hx | hx); exacts [hS hx, by omega]⟩
        unfold Managed
        rwa [pushBlock_regions]
      obtain ⟨l', hl', halloc'⟩ := ih (by omega) hrest hround ha'
      refine ⟨l', hl'.of_iff fun x => ?_, halloc'.trans pushBlock_allocatedPages⟩
      rw [or_assoc]
      exact or_congr_right (by omega)
    · subst ha'
      exact ⟨l, h.of_iff fun x => or_iff_left (by omega), rfl⟩

def InRegions (x : ℕ) : Prop := ∃ r ∈ regions, r.Contains x

theorem addRanges_holds (hdisj : FrameSystem.DisjointRegions regions)
    (hpages : ∀ x, InRegions regions x → a.Managed x ∧ ¬ S x) (h : Holds a l [] S a.freePages)
    (ha' : regions.foldl (fun a region => a.addRange region.start region.stop) a = a') :
    ∃ l', Holds a' l' [] (fun x => S x ∨ InRegions regions x) a'.freePages ∧
      a'.allocatedPages = a.allocatedPages := by
  induction regions generalizing a l S with
  | nil =>
    subst ha'
    refine ⟨l, h.of_iff fun x => or_iff_left ?_, rfl⟩
    rintro ⟨r, hr, -⟩
    cases hr
  | cons r regions ih =>
    obtain ⟨hr, hrest⟩ := List.pairwise_cons.mp hdisj
    obtain ⟨l₁, hround, halloc⟩ := addRangeLoop_holds _ le_rfl
      (fun x hlow hhigh => hpages x ⟨r, .head _, hlow, hhigh⟩) h rfl
    have hpages' : ∀ x, InRegions regions x → (a.addRange r.start r.stop).Managed x ∧
        ¬ (S x ∨ r.start ≤ x ∧ x < r.stop) := by
      rintro x ⟨r', hr', hx⟩
      obtain ⟨hm, hS⟩ := hpages x ⟨r', .tail r hr', hx⟩
      constructor
      · unfold Managed addRange
        rwa [addRangeLoop_regions]
      · rintro (hx' | hx')
        · exact hS hx'
        · exact hr r' hr' x hx' hx
    obtain ⟨l', hl', halloc'⟩ := ih hrest hpages' hround ha'
    refine ⟨l', hl'.of_iff fun x => ?_, halloc'.trans halloc⟩
    rw [or_assoc]
    apply or_congr_right
    simp [InRegions, PpnRegion.Contains]

/-! ## The regions of `init_from_bootinfo` -/

/-- An allocator that only knows its regions. -/
structure Bare (a : BuddyFrameAllocator) : Prop where
  lists : ∀ k, a.freeList k = none
  freePages : a.freePages = 0
  allocatedPages : a.allocatedPages = 0
  regions : ∀ r ∈ a.regions, r.start < r.stop ∧ r.stop ≤ 2 ^ 52 ∧ a.start ≤ r.start ∧ r.stop ≤ a.stop

theorem Bare.addManagedRange (h : Bare a) (hstop : stop ≤ 2 ^ 52) :
    Bare (a.addManagedRange start stop) := by
  unfold BuddyFrameAllocator.addManagedRange
  split
  · exact h
  rename_i hcond
  simp only [Bool.or_eq_true, decide_eq_true_eq, not_or, not_le] at hcond
  refine ⟨h.lists, h.freePages, h.allocatedPages, ?_⟩
  intro r hr
  rcases List.mem_append.mp hr with hr | hr
  · obtain ⟨hlt, hle, hlow, hhigh⟩ := h.regions r hr
    exact ⟨hlt, hle, (min_le_left _ _).trans hlow, hhigh.trans (le_max_left _ _)⟩
  · obtain rfl := List.mem_singleton.mp hr
    exact ⟨hcond.1, hstop, min_le_right _ _, le_max_right _ _⟩

theorem Bare.addUsableRegion (h : Bare a) (region : PhysMemoryRegion) (kernelStart kernelEnd : ℕ) :
    Bare (a.addUsableRegion region kernelStart kernelEnd) := by
  have hstop : physAddrFloorPpn region.stop ≤ 2 ^ 52 := by
    have hle := region.stop_le
    unfold physAddrFloorPpn pageSize
    unfold usizeMax at hle
    omega
  unfold BuddyFrameAllocator.addUsableRegion
  dsimp only
  split
  · exact h
  · split
    · exact (h.addManagedRange ((min_le_left _ _).trans hstop)).addManagedRange hstop
    · exact h.addManagedRange hstop

theorem bare_manage (pages : Cells ℕ) (info : BootInfo) (kernelStart kernelEnd : ℕ) :
    Bare (manage pages info kernelStart kernelEnd) := by
  apply List.foldlRecOn info.forEachUsableMemoryRegion
  · exact ⟨fun _ => rfl, rfl, rfl, nofun⟩
  · intro a h region _
    exact h.addUsableRegion region kernelStart kernelEnd

/-- With an empty bitmap and empty lists, no page is in a block. -/
theorem Bare.holds_reset (h : Bare a) (maxPages : ℕ) :
    Holds { a with freeBitmap := FreeBlockBitmap.reset maxPages a.start a.stop } (fun _ => []) []
      (fun _ => False) a.freePages where
  lists := {
    heads := fun k _ => h.lists k
    linked := ⟨fun k _ => ⟨by simp [headWords, h.lists k, Cells.Chain], List.nodup_nil⟩, nofun⟩
    aligned := nofun
    spanned := nofun
    bits := fun _ _ _ _ _ => by simp [isSet_reset] }
  regions := {
    bounded := fun r hr => ⟨(h.regions r hr).1, (h.regions r hr).2.1⟩
    spanned := by
      rintro - x ⟨r, hr, hlow, hhigh⟩
      obtain ⟨-, -, hstart, hstop⟩ := h.regions r hr
      refine ⟨hstart.trans hlow, ?_⟩
      have hspan : x < a.start + (a.stop - a.start) := by omega
      exact hspan }
  parts := {
    tiles := by
      have hnil : onOrders maxOrder (fun _ => []) ++ [] = [] := by decide
      exact fun x => ⟨False.elim, fun _ => rfl⟩
    size := h.freePages.symm }
  managed := fun _ => False.elim

/-- `init_from_bootinfo` puts every managed page in one block of a list. -/
theorem initFromBootinfo_holds (maxPages : ℕ) (pages : Cells ℕ) (info : BootInfo)
    (kernelStart kernelEnd : ℕ) (ha : initFromBootinfo maxPages pages info kernelStart kernelEnd = a)
    (hdisj : FrameSystem.DisjointRegions a.regions) :
    ∃ l, Holds a l [] a.Managed a.freePages ∧ a.allocatedPages = 0 := by
  have hbare := bare_manage pages info kernelStart kernelEnd
  unfold initFromBootinfo at ha
  generalize manage pages info kernelStart kernelEnd = bare at hbare ha
  have hregions : a.regions = bare.regions := by
    rw [← ha]
    exact addRanges_regions _ _
  rw [hregions] at hdisj
  have hstart := hbare.holds_reset maxPages
  have hpages : ∀ x, InRegions bare.regions x → BuddyFrameAllocator.Managed { bare with
      freeBitmap := FreeBlockBitmap.reset maxPages bare.start bare.stop } x ∧ ¬ False :=
    fun x hx => ⟨hx, not_false⟩
  obtain ⟨l, hl, halloc⟩ := addRanges_holds bare.regions hdisj hpages hstart ha
  refine ⟨l, hl.of_iff fun x => ?_, halloc.trans hbare.allocatedPages⟩
  unfold Managed
  rw [hregions, false_or]
  rfl

theorem Holds.store (h : Holds a l bs S n) (hb : b ∈ bs) (hp : b.Covers p) (first second : ℕ) :
    Holds { a with pages := (a.pages.setNext p first).setPrev p second } l bs S n := by
  -- the page is in no block of a list, so no link is written
  have hfree : ∀ k < maxOrder, p ∉ l k := by
    intro k hk hmem
    have hfront := h.parts.perm (List.perm_cons_erase hb).symm
    exact hfront.hand_disjoint hk hmem p hp (Block.covers_base ⟨p, k⟩)
  refine { h with lists := { h.lists with linked := ?_ }, regions := { h.regions with } }
  apply h.lists.linked.congr
  intro k hk x hx
  have hne : x ≠ p := by
    rintro rfl
    exact hfree k hk hx
  simp [Cells.setNext_next, Cells.setPrev_prev, hne]

end CosmOS.Mm.BuddyFrameAllocator

namespace CosmOS.Mm.FrameSystem

open BuddyFrameAllocator Buddy List

variable {s s' : FrameSystem} {l : ℕ → List ℕ} {b : Block}

/-- Free and outstanding blocks tile the pages of the regions, and the counters count them. -/
structure Inv (regions : List PpnRegion) (s : FrameSystem) : Prop where
  holds : ∃ l, Holds s.allocator l s.outstanding s.allocator.Managed
    (s.allocator.freePages + s.allocator.allocatedPages)
  allocated : s.allocator.allocatedPages = total s.outstanding
  outstanding : ∀ b ∈ s.outstanding, b.order < maxOrder ∧ b.Aligned
  managed : s.allocator.regions = regions
  disjoint : DisjointRegions regions

variable {regions : List PpnRegion}

theorem Inv.free (h : Inv regions s) (hl : Holds s.allocator l s.outstanding s.allocator.Managed
    (s.allocator.freePages + s.allocator.allocatedPages)) :
    s.allocator.freePages = total (onOrders maxOrder l) := by
  have hsize := hl.parts.size
  rw [total_append, ← h.allocated] at hsize
  omega

theorem managed_congr {a a' : BuddyFrameAllocator} (h : a'.regions = a.regions) :
    a'.Managed = a.Managed := by
  unfold Managed
  rw [h]

theorem Inv.init (h : Init s) : Inv s.allocator.regions s := by
  obtain ⟨maxPages, pages, info, kernelStart, kernelEnd, halloc, hdisj, hout⟩ := h
  obtain ⟨l, hl, hzero⟩ := initFromBootinfo_holds maxPages pages info kernelStart kernelEnd
    halloc.symm hdisj
  refine ⟨⟨l, ?_⟩, ?_, ?_, rfl, hdisj⟩
  · rwa [hzero, hout]
  · rw [hzero, hout]
    rfl
  · rw [hout]
    exact fun b hb => nomatch hb

theorem Inv.allocOrder (h : Inv regions s) (k : ℕ) : Inv regions (s.allocOrder k).2 := by
  unfold FrameSystem.allocOrder
  split
  · exact h
  rename_i p a halloc
  obtain ⟨l, hl⟩ := h.holds
  obtain ⟨l', hl', hk, hp, hregions, hfree', halloc'⟩ := allocOrder_holds hl halloc
  have hsize := hl'.parts.size
  rw [total_append, total_cons] at hsize
  have hblock : Block.size ⟨p, k⟩ = 2 ^ k := rfl
  refine ⟨⟨l', ?_⟩, ?_, ?_, hregions.trans h.managed, h.disjoint⟩
  · dsimp only
    rw [managed_congr hregions]
    have hcount : a.freePages + a.allocatedPages =
        s.allocator.freePages + s.allocator.allocatedPages := by
      rw [h.allocated] at hsize
      omega
    rwa [hcount]
  · dsimp only
    rw [halloc', total_cons, h.allocated, hblock, add_comm]
  · intro b hb
    rcases mem_cons.mp hb with rfl | hb
    · exact ⟨hk, hp⟩
    · exact h.outstanding b hb

/-- The deallocation of an outstanding block that is in one managed region. -/
theorem Inv.deallocOrder_holds (h : Inv regions s) (hl : Holds s.allocator l s.outstanding
      s.allocator.Managed (s.allocator.freePages + s.allocator.allocatedPages))
    (hb : b ∈ s.outstanding) (hmanaged : s.allocator.isManagedRange b.base (2 ^ b.order) = true) :
    ∃ a l', s.deallocOrder b = .ok ⟨a, s.outstanding.erase b⟩ ∧ a.regions = s.allocator.regions ∧
      Holds a l' (s.outstanding.erase b) a.Managed (a.freePages + a.allocatedPages) ∧
      a.allocatedPages = total (s.outstanding.erase b) ∧ (Merged s.allocator l → Merged a l') := by
  have hfree := h.free hl
  obtain ⟨hk, hp⟩ := h.outstanding b hb
  have hperm := perm_cons_erase hb
  obtain ⟨a, l', hok, hl', hregions, hfree', halloc', hmerged⟩ :=
    BuddyFrameAllocator.deallocOrder_holds hk hp hmanaged (hl.of_parts (hl.parts.perm hperm.symm))
      hfree.ge
  have htotal := total_perm hperm
  have hsize : b.size = 2 ^ b.order := rfl
  rw [total_cons, ← h.allocated] at htotal
  refine ⟨a, l', ?_, hregions, ?_, by omega, hmerged⟩
  · unfold FrameSystem.deallocOrder
    rw [hok]
  · rw [managed_congr hregions]
    have hcount : a.freePages + a.allocatedPages =
        s.allocator.freePages + s.allocator.allocatedPages := by
      omega
    rwa [hcount]

theorem Inv.deallocOrder_ok (h : Inv regions s) (hb : b ∈ s.outstanding)
    (hmanaged : s.allocator.isManagedRange b.base (2 ^ b.order) = true) :
    ∃ s', s.deallocOrder b = .ok s' ∧ Inv regions s' := by
  obtain ⟨l, hl⟩ := h.holds
  obtain ⟨a, l', hok, hregions, hl', halloc, -⟩ := h.deallocOrder_holds hl hb hmanaged
  exact ⟨_, hok, ⟨l', hl'⟩, halloc, fun b' hb' => h.outstanding b' (mem_of_mem_erase hb'),
    hregions.trans h.managed, h.disjoint⟩

theorem Inv.deallocOrder (h : Inv regions s) (hb : b ∈ s.outstanding) (hok : s.deallocOrder b = .ok s') :
    Inv regions s' := by
  by_cases hmanaged : s.allocator.isManagedRange b.base (2 ^ b.order) = true
  · obtain ⟨s'', hok', hinv⟩ := h.deallocOrder_ok hb hmanaged
    rw [hok] at hok'
    cases hok'
    exact hinv
  · unfold FrameSystem.deallocOrder at hok
    rw [deallocOrder_error (by simpa using hmanaged)] at hok
    cases hok

theorem Inv.frameAllocContiguous (h : Inv regions s) {pages alignPages : ℕ} {r : Option ℕ}
    (hok : s.frameAllocContiguous pages alignPages = .ok (r, s')) : Inv regions s' := by
  unfold FrameSystem.frameAllocContiguous at hok
  split at hok
  · cases hok
    exact h
  dsimp only at hok
  have halloc := h.allocOrder (trailingZeros 64 pages)
  unfold FrameSystem.allocOrder at hok halloc
  cases hres : s.allocator.allocOrder (trailingZeros 64 pages) with
  | none =>
    rw [hres] at hok
    cases hok
    exact h
  | some res =>
    rw [hres] at hok halloc
    dsimp only at hok halloc
    split at hok
    · -- the block is given back at once
      split at hok
      · cases hok
      next s₁ hback =>
        cases hok
        exact halloc.deallocOrder (.head _) hback
    · cases hok
      exact halloc

theorem Inv.next {label : Label} (h : Inv regions s) (hn : s.next label = some s') :
    Inv regions s' := by
  cases label with rw [FrameSystem.next] at hn
  | allocOrder k =>
    cases hn
    exact h.allocOrder k
  | deallocOrder b =>
    split at hn
    next hb =>
      cases hres : s.deallocOrder b with rw [hres] at hn
      | error fault =>
        cases hn
      | ok s₁ =>
        cases hn
        exact h.deallocOrder hb hres
    · cases hn
  | frameAllocContiguous pages alignPages =>
    cases hres : s.frameAllocContiguous pages alignPages with rw [hres] at hn
    | error fault =>
      cases hn
    | ok res =>
      cases hn
      exact h.frameAllocContiguous hres
  | store p first second =>
    split at hn
    next hany =>
      obtain ⟨b, hb, hp⟩ := any_eq_true.mp hany
      cases hn
      obtain ⟨l, hl⟩ := h.holds
      exact { h with holds := ⟨l, hl.store hb (of_decide_eq_true hp) first second⟩ }
    · cases hn

/-- A run keeps the managed regions of its first state. -/
theorem Inv.path (h : Inv regions s) (hpath : machine.Path Machine.anyStep s s') : Inv regions s' :=
  hpath.invariant (fun _ _ _ hinv _ hn => hinv.next hn) h

/-! ## Main results -/

/-- In every reachable state the lists are linked in both directions and aligned; free and outstanding
blocks are disjoint, every managed page is in exactly one of them and no other page in any; the counters
are the totals; and the bits are those of the free blocks. -/
theorem frame_allocator_consistent (h : machine.Reachable s) : ∃ l : ℕ → List ℕ,
      (∀ k < maxOrder, s.allocator.freeList k = (l k).head? ∧
        s.allocator.pages.IsList invalidPpn ((l k).head?.getD invalidPpn) (l k)) ∧
      (∀ k < maxOrder, ∀ p ∈ l k, 2 ^ k ∣ p) ∧
      (onOrders maxOrder l ++ s.outstanding).Pairwise Block.Disjoint ∧
      (∀ x, s.allocator.Managed x → cover (onOrders maxOrder l ++ s.outstanding) x = 1) ∧
      (∀ x, ¬ s.allocator.Managed x → cover (onOrders maxOrder l ++ s.outstanding) x = 0) ∧
      s.allocator.freePages = total (onOrders maxOrder l) ∧
      s.allocator.allocatedPages = total s.outstanding ∧
      (s.allocator.freeBitmap.enabled = true → ∀ k < maxOrder, ∀ p, 2 ^ k ∣ p →
        (s.allocator.freeBitmap.isSet k p = true ↔ p ∈ l k)) := by
  obtain ⟨s₀, hinit, hpath⟩ := h
  have hinv := (Inv.init hinit).path hpath
  obtain ⟨l, hl⟩ := hinv.holds
  refine ⟨l, ?_, hl.lists.aligned, hl.parts.tiles.pairwise, fun x hx => (hl.parts.tiles x).1 hx,
    fun x hx => (hl.parts.tiles x).2 hx, hinv.free hl, hinv.allocated, hl.lists.bits⟩
  intro k hk
  exact ⟨hl.lists.heads k hk, hl.lists.isList hk⟩

/-- A machine with the given RAM, no reserved range and no kernel image in it. -/
def boot (memoryRegions : List PhysMemoryRegion) : FrameSystem :=
  ⟨.initFromBootinfo maxBitmapPages ⟨fun _ => 0, fun _ => 0⟩ ⟨memoryRegions, []⟩ 0 0, []⟩

def twoPages : FrameSystem := boot [⟨0x80200000, 0x80202000, by decide⟩]

theorem init_twoPages : machine.Init twoPages := by
  refine ⟨_, _, _, _, _, rfl, ?_, rfl⟩
  have hregions : twoPages.allocator.regions = [⟨0x80200, 0x80202⟩] := by decide
  exact pairwise_singleton _ _

theorem frame_allocator_consistent_twoPages :
    ∃ s, machine.Reachable s ∧ s.outstanding = [⟨0x80200, 0⟩] ∧
      ∃ l : ℕ → List ℕ, s.allocator.freePages = total (onOrders maxOrder l) := by
  obtain ⟨s, hs, hout⟩ := machine.exists_reachable_of_run
    (fun s => s.outstanding = [⟨0x80200, 0⟩]) [.allocOrder 0] init_twoPages
    (by decide)
  obtain ⟨l, -, -, -, -, -, hfree, -⟩ := frame_allocator_consistent hs
  exact ⟨s, hs, hout, l, hfree⟩

end CosmOS.Mm.FrameSystem
