import CosmOS.Mm.FrameLists

/-!
# The frame allocator keeps its pages

`Holds a l bs S n`: the lists of `a` are those of `l`, and with the blocks `bs` outside they tile the
pages `S`, `n` of them (`Buddy.Parts`).  The loops of the allocator keep it with the block that is being
split or merged in hand.

* `allocOrder_holds`, `deallocOrder_holds`: the two operations.
* `Merged`: no two free buddies that `dealloc_order` would merge.  Deallocations keep it.
-/

namespace CosmOS.Mm.BuddyFrameAllocator

open FreeBlockBitmap Buddy

/-- What `init_from_bootinfo` makes sure of for the managed regions. -/
structure Regions (a : BuddyFrameAllocator) : Prop where
  bounded : ∀ r ∈ a.regions, r.start < r.stop ∧ r.stop ≤ 2 ^ 52
  spanned : a.freeBitmap.enabled = true → ∀ ppn, a.Managed ppn → a.freeBitmap.Spans ppn

variable {a a' : BuddyFrameAllocator} {l l' : ℕ → List ℕ} {bs bs' : List Block} {S : ℕ → Prop}
  {b : Block} {n j k p x : ℕ}

theorem Regions.lt (h : Regions a) (hx : a.Managed x) : x < 2 ^ 52 := by
  obtain ⟨r, hr, -, hlt⟩ := hx
  exact hlt.trans_le (h.bounded r hr).2

theorem Regions.ne_invalid (h : Regions a) (hx : a.Managed x) : x ≠ invalidPpn := by
  have hlt := h.lt hx
  intro heq
  subst heq
  exact absurd hlt (by decide)

theorem Regions.congr (h : Regions a) (hregions : a'.regions = a.regions)
    (henabled : a'.freeBitmap.enabled = a.freeBitmap.enabled)
    (hspans : a'.freeBitmap.Spans = a.freeBitmap.Spans) : Regions a' where
  bounded := by
    rw [hregions]
    exact h.bounded
  spanned := by
    intro he ppn hm
    rw [hspans]
    refine h.spanned (henabled ▸ he) ppn ?_
    unfold Managed at hm ⊢
    rwa [hregions] at hm

/-- The blocks on the lists and the blocks `bs` tile the pages `S`, which are managed. -/
structure Holds (a : BuddyFrameAllocator) (l : ℕ → List ℕ) (bs : List Block) (S : ℕ → Prop)
    (n : ℕ) : Prop where
  lists : Lists a l
  regions : Regions a
  parts : Parts maxOrder l bs S n
  managed : ∀ x, S x → a.Managed x

/-- The regions and the counters, which the lists do not touch. -/
structure Kept (a a' : BuddyFrameAllocator) : Prop where
  regions : a'.regions = a.regions
  freePages : a'.freePages = a.freePages
  allocatedPages : a'.allocatedPages = a.allocatedPages

theorem Kept.refl (a : BuddyFrameAllocator) : Kept a a := ⟨rfl, rfl, rfl⟩

theorem Kept.trans {a'' : BuddyFrameAllocator} (h : Kept a a') (h' : Kept a' a'') : Kept a a'' :=
  ⟨h'.regions.trans h.regions, h'.freePages.trans h.freePages,
    h'.allocatedPages.trans h.allocatedPages⟩

theorem kept_pushBlock (a : BuddyFrameAllocator) (k p : ℕ) : Kept a (a.pushBlock k p) :=
  ⟨pushBlock_regions, pushBlock_freePages, pushBlock_allocatedPages⟩

theorem kept_dropBlock (a : BuddyFrameAllocator) (k p : ℕ) : Kept a (a.dropBlock k p) :=
  ⟨dropBlock_regions, dropBlock_freePages, dropBlock_allocatedPages⟩

/-! ## Steps of the loops -/

theorem Holds.of_parts (h : Holds a l bs S n) (hparts : Parts maxOrder l bs' S n) :
    Holds a l bs' S n :=
  { h with parts := hparts }

theorem Holds.counters (h : Holds a l bs S n) (free allocated : ℕ) :
    Holds { a with freePages := free, allocatedPages := allocated } l bs S n where
  lists := { h.lists with }
  regions := { h.regions with }
  __ := h

theorem Holds.push (h : Holds a l (⟨p, k⟩ :: bs) S n) (hk : k < maxOrder) (hp : 2 ^ k ∣ p) :
    Holds (a.pushBlock k p) (Function.update l k (p :: l k)) bs S n := by
  have hmanaged : a.Managed p := h.managed p (h.parts.hand_mem (Block.covers_base ⟨p, k⟩))
  refine ⟨?_, ?_, h.parts.push hk, ?_⟩
  · apply h.lists.pushBlock hk hp (h.regions.ne_invalid hmanaged)
    · exact fun he => h.regions.spanned he p hmanaged
    · exact fun j hj => h.parts.hand_fresh hj
  · apply h.regions.congr pushBlock_regions
    · rw [pushBlock_freeBitmap, set_enabled]
    · funext x
      simp [pushBlock_freeBitmap, Spans]
  · intro x hx
    unfold Managed
    rw [pushBlock_regions]
    exact h.managed x hx

theorem Holds.drop (h : Holds a l bs S n) (hk : k < maxOrder) (hp : p ∈ l k) :
    Holds (a.dropBlock k p) (Function.update l k ((l k).erase p)) (⟨p, k⟩ :: bs) S n := by
  refine ⟨h.lists.dropBlock hk hp, ?_, h.parts.drop hk hp, ?_⟩
  · apply h.regions.congr dropBlock_regions
    · rw [dropBlock_freeBitmap, clear_enabled]
    · funext x
      simp [dropBlock_freeBitmap, Spans]
  · intro x hx
    unfold Managed
    rw [dropBlock_regions]
    exact h.managed x hx

/-! ## Allocation -/

theorem splitBlock_holds (order levels : ℕ) (hk : order + levels < maxOrder)
    (hp : 2 ^ (order + levels) ∣ p) (h : Holds a l (⟨p, order + levels⟩ :: bs) S n) :
    ∃ l', Holds (splitBlock p order levels a) l' (⟨p, order⟩ :: bs) S n ∧
      Kept a (splitBlock p order levels a) := by
  induction levels generalizing a l with
  | zero => exact ⟨l, h, Kept.refl a⟩
  | succ levels ih =>
    have hdvd : 2 ^ (order + levels) ∣ p := dvd_trans (pow_dvd_pow 2 (by omega)) hp
    have hupper : 2 ^ (order + levels) ∣ p + 2 ^ (order + levels) := Nat.dvd_add hdvd (dvd_refl _)
    -- the upper half goes on its list, the lower half stays in hand
    have hsplit : Parts maxOrder l (⟨p, order + levels⟩ ::
        ⟨p + 2 ^ (order + levels), order + levels⟩ :: bs) S n := Parts.split h.parts
    have hpush := (h.of_parts (hsplit.perm (List.Perm.swap _ _ bs))).push (by omega) hupper
    obtain ⟨l', hl', hkept⟩ := ih (by omega) hdvd hpush
    exact ⟨l', hl', (kept_pushBlock a _ _).trans hkept⟩

theorem sourceOrder_spec (a : BuddyFrameAllocator) (rounds order : ℕ) :
    order ≤ a.sourceOrder rounds order ∧ a.sourceOrder rounds order ≤ order + rounds := by
  induction rounds generalizing order with
  | zero => exact ⟨le_refl order, le_refl order⟩
  | succ rounds ih =>
    rw [sourceOrder]
    split
    · obtain ⟨hle, hge⟩ := ih (order + 1)
      exact ⟨by omega, by omega⟩
    · exact ⟨le_refl order, by omega⟩

/-- A successful allocation brings an aligned block of its order to hand. -/
theorem allocOrder_holds (h : Holds a l bs S n) (halloc : a.allocOrder k = some (p, a')) :
    ∃ l', Holds a' l' (⟨p, k⟩ :: bs) S n ∧ k < maxOrder ∧ 2 ^ k ∣ p ∧ a'.regions = a.regions ∧
      a'.freePages = a.freePages - 2 ^ k ∧ a'.allocatedPages = a.allocatedPages + 2 ^ k := by
  unfold allocOrder at halloc
  split at halloc
  · cases halloc
  rename_i hk
  have hk : k < maxOrder := Nat.lt_of_not_ge hk
  dsimp only at halloc
  obtain ⟨hle, hge⟩ := sourceOrder_spec a (maxOrder - k) k
  generalize a.sourceOrder (maxOrder - k) k = source at halloc hle hge
  split at halloc
  · cases halloc
  have hsource : source < maxOrder := by omega
  rw [popBlock_eq h.lists hsource] at halloc
  cases hl : (l source).head? with rw [hl] at halloc
  | none =>
    cases halloc
  | some q =>
    simp only [Option.map_some, Option.some.injEq, Prod.mk.injEq] at halloc
    obtain ⟨rfl, rfl⟩ := halloc
    have hmem := List.mem_of_head? hl
    have hdvd : 2 ^ source ∣ q := h.lists.aligned source hsource q hmem
    obtain ⟨levels, rfl⟩ := Nat.exists_eq_add_of_le hle
    obtain ⟨l', hl', hkept⟩ := splitBlock_holds k levels hsource hdvd (h.drop hsource hmem)
    have hkept := (kept_dropBlock a _ _).trans hkept
    rw [Nat.add_sub_cancel_left]
    refine ⟨l', hl'.counters _ _, hk, dvd_trans (pow_dvd_pow 2 hle) hdvd, hkept.regions, ?_, ?_⟩
    · rw [hkept.freePages]
    · rw [hkept.allocatedPages]

/-! ## Deallocation -/

theorem isManagedRange_congr (h : a'.regions = a.regions) : a'.isManagedRange = a.isManagedRange := by
  unfold isManagedRange
  rw [h]

/-- Of two free buddies, one is not in a single region. -/
def Merged (a : BuddyFrameAllocator) (l : ℕ → List ℕ) : Prop :=
  ∀ k, k + 1 < maxOrder → ∀ p ∈ l k, a.isManagedRange p (2 ^ k) = true →
    a.isManagedRange (buddy p k) (2 ^ k) = true → buddy p k ∉ l k

/-- A block that is not to be merged any more can be added. -/
theorem Merged.push (h : Merged a l) (hstop : k + 1 < maxOrder →
      a.isManagedRange (buddy p k) (2 ^ k) = true → buddy p k ∉ l k) :
    Merged a (Function.update l k (p :: l k)) := by
  intro j hj q hq hmanaged hbuddy hmem
  by_cases hjk : j = k
  · subst hjk
    rw [Function.update_self] at hq hmem
    rcases List.mem_cons.mp hq with rfl | hq <;> rcases List.mem_cons.mp hmem with hself | hmem
    · exact absurd hself (buddy_ne _ _)
    · exact hstop hj hbuddy hmem
    · rw [← hself, buddy_buddy] at hstop
      exact hstop hj hmanaged hq
    · exact h j hj q hq hmanaged hbuddy hmem
  · rw [Function.update_of_ne hjk] at hq hmem
    exact h j hj q hq hmanaged hbuddy hmem

theorem Merged.mono (h : Merged a l) (hregions : a'.regions = a.regions) (hsub : ∀ k, l' k ⊆ l k) :
    Merged a' l' := by
  intro k hk p hp hmanaged hbuddy hmem
  rw [isManagedRange_congr hregions] at hmanaged hbuddy
  exact h k hk p (hsub k hp) hmanaged hbuddy (hsub k hmem)

/-- The merge loop ends with an aligned block in hand, which is not to be merged any more. -/
theorem mergeBlock_holds (rounds : ℕ) (hk : k + rounds + 1 = maxOrder) (hp : 2 ^ k ∣ p)
    (h : Holds a l (⟨p, k⟩ :: bs) S n) (hfuel : total (onOrders maxOrder l) ≤ a.freePages) :
    ∃ a' p' k' l', mergeBlock rounds a p k = .ok (a', p', k') ∧
      Holds a' l' (⟨p', k'⟩ :: bs) S n ∧ k' < maxOrder ∧ 2 ^ k' ∣ p' ∧ Kept a a' ∧
      (∀ j, l' j ⊆ l j) ∧ (k' + 1 < maxOrder → a'.isManagedRange (buddy p' k') (2 ^ k') = true →
        buddy p' k' ∉ l' k') := by
  induction rounds generalizing a l p k with
  | zero => exact ⟨a, p, k, l, rfl, h, by omega, hp, Kept.refl a, fun _ => List.Subset.refl _, fun hlt => by omega⟩
  | succ rounds ih =>
    have hlt : k < maxOrder := by omega
    have hlength := (length_le_total_onOrders hlt l).trans hfuel
    rw [mergeBlock]
    split
    next hout =>
      refine ⟨a, p, k, l, rfl, h, hlt, hp, Kept.refl a, fun _ => List.Subset.refl _, fun _ hin => ?_⟩
      rw [hin] at hout
      cases hout
    rw [removeBlock_eq h.lists hlt (buddy_aligned hp) hlength]
    by_cases hmem : buddy p k ∈ l k
    · simp only [decide_eq_true hmem, if_pos hmem]
      have hdrop := h.drop hlt hmem
      have hmerge := hdrop.of_parts (hdrop.parts.merge hp)
      have htotal := total_perm (onOrders_erase hlt hmem)
      rw [total_cons] at htotal
      have hfuel' : total (onOrders maxOrder (Function.update l k ((l k).erase (buddy p k)))) ≤
          (a.dropBlock k (buddy p k)).freePages := by
        rw [dropBlock_freePages]
        omega
      obtain ⟨a', p', k', l', hok, hl', hk', hp', hkept, hsub, hstop⟩ :=
        ih (by omega) (min_buddy_aligned hp) hmerge hfuel'
      refine ⟨a', p', k', l', hok, hl', hk', hp', (kept_dropBlock a _ _).trans hkept, fun j => ?_, hstop⟩
      by_cases hjk : j = k
      · subst hjk
        have hsub := hsub j
        rw [Function.update_self] at hsub
        exact List.Subset.trans hsub List.erase_subset
      · have hsub := hsub j
        rwa [Function.update_of_ne hjk] at hsub
    · simp only [decide_eq_false hmem, if_neg hmem]
      exact ⟨a, p, k, l, rfl, h, hlt, hp, Kept.refl a, fun _ => List.Subset.refl _, fun _ _ => hmem⟩

/-- A block that passes the test of `dealloc_order` goes back, merged with its free buddies. -/
theorem deallocOrder_holds (hk : k < maxOrder) (hp : 2 ^ k ∣ p)
    (hmanaged : a.isManagedRange p (2 ^ k) = true) (h : Holds a l (⟨p, k⟩ :: bs) S n)
    (hfuel : total (onOrders maxOrder l) ≤ a.freePages) :
    ∃ a' l', a.deallocOrder p k = .ok a' ∧ Holds a' l' bs S n ∧ a'.regions = a.regions ∧
      a'.freePages = a.freePages + 2 ^ k ∧ a'.allocatedPages = a.allocatedPages - 2 ^ k ∧
      (Merged a l → Merged a' l') := by
  have hrounds : k + (maxOrder - 1 - k) + 1 = maxOrder := by
    omega
  obtain ⟨a', p', k', l', hok, hl', hk', hp', hkept, hsub, hstop⟩ :=
    mergeBlock_holds (maxOrder - 1 - k) hrounds hp h hfuel
  have hregions := (hkept.trans (kept_pushBlock a' k' p')).regions
  refine ⟨_, _, ?_, (hl'.push hk' hp').counters (a.freePages + 2 ^ k) (a.allocatedPages - 2 ^ k),
    hregions, rfl, rfl, fun hmerged => ?_⟩
  rotate_left
  · exact ((hmerged.mono hkept.regions hsub).push hstop).mono
      (kept_pushBlock a' k' p').regions fun _ => List.Subset.refl _
  unfold deallocOrder
  rw [if_neg (Nat.not_le.mpr hk), hmanaged, Nat.mod_eq_zero_of_dvd hp, hok]
  simp [hkept.freePages, hkept.allocatedPages]

/-- What does not pass the test ends in the panic. -/
theorem deallocOrder_error (h : a.isManagedRange p (2 ^ k) = false) :
    a.deallocOrder p k = .error .notAllocated := by
  unfold deallocOrder
  rw [h]
  split <;> simp

/-! ## The managed ranges -/

theorem isManagedRange_iff (h : Regions a) (m : ℕ) :
    a.isManagedRange p m = true ↔ ∃ r ∈ a.regions, r.start ≤ p ∧ p + m ≤ r.stop := by
  unfold isManagedRange
  rw [List.any_eq_true]
  constructor
  · rintro ⟨r, hr, hin⟩
    have hstop := (h.bounded r hr).2
    simp only [Bool.and_eq_true, decide_eq_true_eq] at hin
    obtain ⟨hlow, hhigh⟩ := hin
    unfold usizeMax at hhigh
    exact ⟨r, hr, hlow, by omega⟩
  · rintro ⟨r, hr, hlow, hhigh⟩
    refine ⟨r, hr, ?_⟩
    simp only [Bool.and_eq_true, decide_eq_true_eq]
    exact ⟨hlow, (Nat.min_le_left _ _).trans hhigh⟩

end CosmOS.Mm.BuddyFrameAllocator
