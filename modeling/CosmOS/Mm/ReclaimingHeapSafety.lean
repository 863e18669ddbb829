import CosmOS.Mm.ReclaimingHeap

/-!
# The free blocks of the kernel heap

`Lists h l`: the lists of the heap run through the blocks `l`, every entry of the index is a block of its
list, and as long as no insertion into the index has failed every block has its entry.  The flag that
remembers a failed insertion is never cleared, so that `remove_free_block` finds a block exactly when it
is on the list, with and without the index (`removeFreeBlock_eq`).

`Holds h l bs S n`: with the blocks `bs` outside, the lists tile the bytes `S` (`Buddy.Parts`).
-/

namespace CosmOS.Mm.ReclaimingHeap

open Buddy FreeBlockIndex Function List ProbeTable Block

/-- The lists, the links and the index of the heap stand for the blocks `l`. -/
structure Lists (h : ReclaimingHeap) (l : ℕ → List ℕ) : Prop where
  linked : h.memory.Lists 0 heapOrderCount h.freeList l
  aligned : ∀ k < heapOrderCount, ∀ p ∈ l k, minBuddyOrder ≤ k ∧ 2 ^ k ∣ p
  placed : ProbeTable.Placed hashEntry freeIndexCapacity h.freeIndex
  sound : ∀ p k, h.freeIndex.Has freeIndexCapacity (p, k) → p ∈ l k
  complete : h.freeIndexOverflow = false → ∀ k < heapOrderCount, ∀ p ∈ l k,
    h.freeIndex.Has freeIndexCapacity (p, k)

variable {h h' : ReclaimingHeap} {l l' : ℕ → List ℕ} {bs bs' : List Block} {S S' : ℕ → Prop}
  {b : Block} {n j k p q : ℕ}

theorem capacity_pos : 0 < freeIndexCapacity := by decide

/-! ## Pushing -/

theorem Lists.pushFreeBlock (hl : Lists h l) (hk : k < heapOrderCount) (hmin : minBuddyOrder ≤ k)
    (hp : 2 ^ k ∣ p) (hne : p ≠ 0) (hfresh : ∀ j < heapOrderCount, p ∉ l j) :
    Lists (h.pushFreeBlock k p) (update l k (p :: l k)) := by
  have hmem : ∀ q j, q ∈ update l k (p :: l k) j ↔ (q, j) = (p, k) ∨ q ∈ l j := by
    intro q j
    rcases eq_or_ne j k with rfl | hjk
    · simp
    · rw [update_of_ne hjk]
      simp [hjk]
  obtain ⟨hplaced, hok, hfail⟩ := insert_spec capacity_pos hl.placed (p, k)
  refine ⟨hl.linked.push hk hne hfresh, ?_, hplaced, ?_, ?_⟩
  · intro j hj q hq
    rcases (hmem q j).mp hq with heq | hq
    · cases heq
      exact ⟨hmin, hp⟩
    · exact hl.aligned j hj q hq
  · intro q j hhas
    rw [hmem]
    cases hins : (insert hashEntry freeIndexCapacity h.freeIndex (p, k)).1 with
    | true => exact ((hok hins (q, j)).mp hhas).imp_right (hl.sound q j)
    | false =>
      obtain ⟨hsame, -⟩ := hfail hins
      have hhas : h.freeIndex.Has freeIndexCapacity (q, j) := hsame ▸ hhas
      exact .inr (hl.sound q j hhas)
  · intro hover j hj q hq
    have hflag : (if !(insert hashEntry freeIndexCapacity h.freeIndex (p, k)).1 then true
        else h.freeIndexOverflow) = false := hover
    cases hins : (insert hashEntry freeIndexCapacity h.freeIndex (p, k)).1 with rw [hins] at hflag
    | false =>
      cases hflag
    | true =>
      apply (hok hins (q, j)).mpr
      exact ((hmem q j).mp hq).imp_right (hl.complete hflag j hj q)

/-! ## Taking a block out -/

/-- A block leaves its list and the index. -/
def dropBlock (h : ReclaimingHeap) (k p : ℕ) : ReclaimingHeap :=
  { h with freeIndex := (h.freeIndex.remove p k).2 }.listRemove k p

section

variable (hl : Lists h l) (hk : k < heapOrderCount)

include hl hk

theorem Lists.dropBlock (hp : p ∈ l k) : Lists (h.dropBlock k p) (update l k ((l k).erase p)) := by
  have hnodup := (hl.linked.linked k hk).nodup
  have hmem : ∀ q j, q ∈ update l k ((l k).erase p) j ↔ (q, j) ≠ (p, k) ∧ q ∈ l j := by
    intro q j
    rcases eq_or_ne j k with rfl | hjk
    · rw [update_self, hnodup.mem_erase_iff]
      simp
    · rw [update_of_ne hjk]
      simp [hjk]
  obtain ⟨hplaced, -, hhas⟩ := remove_spec capacity_pos hl.placed (p, k)
  refine ⟨hl.linked.unlink hk hp, ?_, hplaced, ?_, ?_⟩
  · intro j hj q hq
    exact hl.aligned j hj q ((hmem q j).mp hq).2
  · intro q j hq
    obtain ⟨hne, hq⟩ := (hhas (q, j)).mp hq
    exact (hmem q j).mpr ⟨hne, hl.sound q j hq⟩
  · intro hover j hj q hq
    obtain ⟨hne, hq⟩ := (hmem q j).mp hq
    exact (hhas (q, j)).mpr ⟨hne, hl.complete hover j hj q hq⟩

theorem popFreeBlock_eq : h.popFreeBlock k = (l k).head?.map fun p => (p, h.dropBlock k p) := by
  have hhead := (hl.linked.linked k hk).chain.head_eq
  unfold popFreeBlock
  cases hlk : l k with
  | nil =>
    have hhead : h.freeList k = 0 := by rw [hhead, hlk]; rfl
    rw [if_pos hhead]
    rfl
  | cons p t =>
    have hhead : h.freeList k = p := by rw [hhead, hlk]; rfl
    have hmem : p ∈ l k := hlk ▸ .head _
    have hne : p ≠ 0 := (hl.linked.linked k hk).chain.ne_nil hmem
    rw [hhead, if_neg hne]
    rfl

/-- With and without the index, `remove_free_block` finds a block exactly when it is on the list. -/
theorem removeFreeBlock_eq (hfuel : (l k).length ≤ h.total) :
    h.removeFreeBlock k p = .ok (decide (p ∈ l k), if p ∈ l k then h.dropBlock k p else h) := by
  obtain ⟨-, hremoved, -⟩ := remove_spec capacity_pos hl.placed (p, k)
  have hsame : (h.freeIndex.remove p k).1 = false → (h.freeIndex.remove p k).2 = h.freeIndex := by
    unfold FreeBlockIndex.remove ProbeTable.remove
    split
    · exact fun _ => rfl
    · nofun
  have hlocate := (hl.linked.linked k hk).locate_eq (a := p) (Nat.lt_succ_of_le hfuel)
  unfold removeFreeBlock
  dsimp only
  split
  next hr =>
    have hmem : p ∈ l k := hl.sound p k (hremoved.mp hr)
    rw [decide_eq_true hmem, if_pos hmem]
    rfl
  next hr =>
    have hnot : ¬ h.freeIndex.Has freeIndexCapacity (p, k) := fun hhas => hr (hremoved.mpr hhas)
    split
    · rw [hlocate]
      by_cases hmem : p ∈ l k
      · -- the block is on the list without an entry
        have hdrop : h.dropBlock k p = h.listRemove k p := by
          unfold ReclaimingHeap.dropBlock
          rw [hsame (by simpa using hr)]
        simp only [if_pos hmem, decide_eq_true hmem, hdrop]
      · simp only [if_neg hmem, decide_eq_false hmem]
    next hover =>
      have hmem : p ∉ l k := fun hmem => hnot (hl.complete (by simpa using hover) k hk p hmem)
      rw [if_neg hmem, decide_eq_false hmem]

end

/-! ## Steps of the loops -/

@[simp] theorem dropBlock_total : (h.dropBlock k p).total = h.total := rfl

/-- The blocks on the lists and the blocks `bs` tile the bytes `S`. -/
structure Holds (h : ReclaimingHeap) (l : ℕ → List ℕ) (bs : List Block) (S : ℕ → Prop) (n : ℕ) :
    Prop where
  lists : Lists h l
  parts : Parts heapOrderCount l bs S n
  positive : ∀ x, S x → x ≠ 0

theorem Holds.of_parts (hh : Holds h l bs S n) (hparts : Parts heapOrderCount l bs' S n) :
    Holds h l bs' S n :=
  ⟨hh.lists, hparts, hh.positive⟩

theorem Holds.counters (hh : Holds h l bs S n) (allocated total : ℕ) :
    Holds { h with allocated := allocated, total := total } l bs S n :=
  ⟨⟨hh.lists.linked, hh.lists.aligned, hh.lists.placed, hh.lists.sound, hh.lists.complete⟩,
    hh.parts, hh.positive⟩

theorem Holds.push (hh : Holds h l (⟨p, k⟩ :: bs) S n) (hk : k < heapOrderCount)
    (hmin : minBuddyOrder ≤ k) (hp : 2 ^ k ∣ p) :
    Holds (h.pushFreeBlock k p) (update l k (p :: l k)) bs S n := by
  have hne : p ≠ 0 := hh.positive p (hh.parts.hand_mem (covers_base ⟨p, k⟩))
  exact ⟨hh.lists.pushFreeBlock hk hmin hp hne fun j hj => hh.parts.hand_fresh hj,
    hh.parts.push hk, hh.positive⟩

theorem Holds.drop (hh : Holds h l bs S n) (hk : k < heapOrderCount) (hp : p ∈ l k) :
    Holds (h.dropBlock k p) (update l k ((l k).erase p)) (⟨p, k⟩ :: bs) S n :=
  ⟨hh.lists.dropBlock hk hp, hh.parts.drop hk hp, hh.positive⟩

/-- The counters, which the lists do not touch. -/
structure Kept (h h' : ReclaimingHeap) : Prop where
  total : h'.total = h.total
  allocated : h'.allocated = h.allocated

/-! ## Allocation -/

/-- One block of each order on the way is split; the last round leaves a block of the order asked for. -/
theorem splitDown_holds (order levels : ℕ) (hk : order + levels < heapOrderCount)
    (hmin : minBuddyOrder ≤ order) (hne : l (order + levels) ≠ []) (hh : Holds h l bs S n) :
    ∃ h' l', splitDown order levels h = (true, h') ∧ Holds h' l' bs S n ∧ l' order ≠ [] ∧
      Kept h h' := by
  induction levels generalizing h l with
  | zero => exact ⟨h, l, rfl, hh, hne, rfl, rfl⟩
  | succ levels ih =>
    rw [← add_assoc] at hk hne
    obtain ⟨p, t, hl⟩ := exists_cons_of_ne_nil hne
    have hmem : p ∈ l (order + levels + 1) := hl ▸ .head _
    have hdvd := (hh.lists.aligned _ hk p hmem).2
    have hdvd' : 2 ^ (order + levels) ∣ p := dvd_trans (pow_dvd_pow 2 (by omega)) hdvd
    have hpop := popFreeBlock_eq hh.lists hk
    rw [hl] at hpop
    have hdrop := hh.drop hk hmem
    have hsplit : Parts heapOrderCount _ (⟨p, order + levels⟩ ::
        ⟨p + 2 ^ (order + levels), order + levels⟩ :: bs) S n := Parts.split hdrop.parts
    have hlt : order + levels < heapOrderCount := by omega
    have hmin' : minBuddyOrder ≤ order + levels := by omega
    -- the upper half is pushed first, then the lower half
    have hupper := (hdrop.of_parts (hsplit.perm (Perm.swap _ _ bs))).push hlt hmin'
      (Nat.dvd_add hdvd' (dvd_refl _))
    have hlower := hupper.push hlt hmin' hdvd'
    obtain ⟨h', l', heq, hh', hne', hkept⟩ := ih hlt (by simp) hlower
    refine ⟨h', l', ?_, hh', hne', hkept.total, hkept.allocated⟩
    rwa [splitDown, hpop]

theorem sourceClass_spec (hl : Lists h l) (rounds order : ℕ)
    (hbound : order + rounds = heapOrderCount) :
    order ≤ h.sourceClass rounds order ∧ (h.sourceClass rounds order < heapOrderCount →
      l (h.sourceClass rounds order) ≠ []) := by
  induction rounds generalizing order with
  | zero => exact ⟨le_refl order, fun hlt => by rw [sourceClass] at hlt; omega⟩
  | succ rounds ih =>
    rw [sourceClass]
    split
    · obtain ⟨hle, hne⟩ := ih (order + 1) (by omega)
      exact ⟨by omega, hne⟩
    next hhead =>
      refine ⟨le_refl order, fun hlt hnil => hhead ?_⟩
      rw [(hl.linked.linked order hlt).chain.head_eq, hnil]
      rfl

/-- An allocation returns, and a block it returns is aligned to its size. -/
theorem allocRounded_holds (hk : k < 64) (hmin : minBuddyOrder ≤ k) (hh : Holds h l bs S n) :
    h.allocRounded (2 ^ k) = .ok (none, h) ∨
      ∃ p h' l', h.allocRounded (2 ^ k) = .ok (some p, h') ∧ Holds h' l' (⟨p, k⟩ :: bs) S n ∧
        k < heapOrderCount ∧ 2 ^ k ∣ p ∧ h'.total = h.total ∧ h'.allocated = h.allocated + 2 ^ k := by
  unfold allocRounded
  rw [trailingZeros_two_pow, min_eq_left hk.le]
  dsimp only
  by_cases hcount : k < heapOrderCount
  · obtain ⟨hle, hne⟩ := sourceClass_spec hh.lists (heapOrderCount - k) k (by omega)
    generalize h.sourceClass (heapOrderCount - k) k = source at hle hne
    split
    · exact .inl rfl
    rename_i hsource
    have hsource : source < heapOrderCount := lt_of_not_ge hsource
    obtain ⟨levels, rfl⟩ := Nat.exists_eq_add_of_le hle
    obtain ⟨h₁, l₁, heq, hh₁, hne₁, hkept⟩ :=
      splitDown_holds k levels hsource hmin (hne hsource) hh
    obtain ⟨p, t, hl⟩ := exists_cons_of_ne_nil hne₁
    have hmem : p ∈ l₁ k := hl ▸ .head _
    have hpop := popFreeBlock_eq hh₁.lists hcount
    rw [hl] at hpop
    rw [Nat.add_sub_cancel_left, heq]
    dsimp only
    rw [hpop]
    right
    exact ⟨p, _, _, rfl, (hh₁.drop hcount hmem).counters _ _, hcount, (hh₁.lists.aligned k hcount p
      hmem).2, hkept.total, congrArg (· + 2 ^ k) hkept.allocated⟩
  · have hzero : heapOrderCount - k = 0 := by omega
    rw [hzero, sourceClass, if_pos (by omega)]
    exact .inl rfl

/-! ## Deallocation -/

theorem buddy_ne (hp : 2 ^ k ∣ p) : p ≠ buddy p k := by
  by_cases hd : 2 ^ (k + 1) ∣ p
  · rw [buddy_of_dvd hd]
    omega
  · have := (buddy_of_not_dvd hp hd).2
    omega

/-- The coalescing loop returns: the block that was pushed last is still on its list. -/
theorem coalesce_holds (rounds : ℕ) (hk : k + rounds < heapOrderCount) (hmin : minBuddyOrder ≤ k)
    (hp : p ∈ l k) (hh : Holds h l bs S n) (hn : n ≤ h.total) :
    ∃ h' l', coalesce rounds h p k = .ok h' ∧ Holds h' l' bs S n ∧ Kept h h' := by
  induction rounds generalizing h l p k with
  | zero => exact ⟨h, l, rfl, hh, rfl, rfl⟩
  | succ rounds ih =>
    have hlt : k < heapOrderCount := by omega
    have hdvd := (hh.lists.aligned k hlt p hp).2
    have hlength : (l k).length ≤ h.total := (hh.parts.length_le hlt).trans hn
    rw [coalesce, removeFreeBlock_eq hh.lists hlt hlength]
    by_cases hbuddy : buddy p k ∈ l k
    · simp only [decide_eq_true hbuddy, if_pos hbuddy]
      -- the buddy is out, the block itself is next
      have hdrop := hh.drop hlt hbuddy
      have hp' : p ∈ update l k ((l k).erase (buddy p k)) k := by
        rw [update_self]
        exact (mem_erase_of_ne (buddy_ne hdvd)).mpr hp
      rw [removeFreeBlock_eq hdrop.lists hlt ((hdrop.parts.length_le hlt).trans hn)]
      simp only [decide_eq_true hp', if_pos hp']
      have hboth := hdrop.drop hlt hp'
      have hmerge := hboth.of_parts
        ((hboth.parts.perm (Perm.swap ⟨p, k⟩ ⟨buddy p k, k⟩ bs)).merge hdvd)
      have hpush := hmerge.push (by omega) (by omega) (min_buddy_aligned hdvd)
      obtain ⟨h', l', heq, hh', hkept⟩ := ih (k := k + 1) (by omega) (by omega)
        (by rw [update_self]; exact .head _) hpush hn
      exact ⟨h', l', heq, hh', hkept.total, hkept.allocated⟩
    · simp only [decide_eq_false hbuddy, if_neg hbuddy]
      exact ⟨h, l, rfl, hh, rfl, rfl⟩

/-- The deallocation of a block in hand returns. -/
theorem deallocRounded_holds (hk : k < heapOrderCount) (hmin : minBuddyOrder ≤ k) (hp : 2 ^ k ∣ p)
    (hh : Holds h l (⟨p, k⟩ :: bs) S n) (hn : n ≤ h.total) :
    ∃ h' l', h.deallocRounded p (2 ^ k) = .ok h' ∧ Holds h' l' bs S n ∧ h'.total = h.total ∧
      h'.allocated = h.allocated - 2 ^ k := by
  have hpush := hh.push hk hmin hp
  have hrounds : k + (heapOrderCount - 1 - k) < heapOrderCount := by
    omega
  have hmem : p ∈ update l k (p :: l k) k := by simp
  obtain ⟨h', l', heq, hh', hkept⟩ := coalesce_holds _ hrounds hmin hmem hpush hn
  have hwidth : k ≤ 64 := by
    unfold heapOrderCount at hk
    omega
  refine ⟨_, l', ?_, hh'.counters (h'.allocated - 2 ^ k) h'.total, hkept.total, ?_⟩
  · unfold deallocRounded
    rw [trailingZeros_two_pow, min_eq_left hwidth]
    rw [if_neg (not_le.mpr hk), heq]
  · exact congrArg (· - 2 ^ k) hkept.allocated

/-! ## Adding memory -/

theorem Holds.of_iff (hh : Holds h l bs S n) (hS : ∀ x, S' x ↔ S x) : Holds h l bs S' n :=
  ⟨hh.lists, hh.parts.of_iff hS, fun x hx => hh.positive x ((hS x).mp hx)⟩

theorem blockSize_spec {current stop : ℕ} (hlt : current < stop)
    (hsize : minBuddyBlockSize ≤ min (lowbit current) (prevPowerOfTwo (stop - current)))
    (hcount : trailingZeros 64 (min (lowbit current) (prevPowerOfTwo (stop - current))) <
      heapOrderCount) :
    ∃ order, minBuddyOrder ≤ order ∧ order < heapOrderCount ∧ 2 ^ order ∣ current ∧
      min (lowbit current) (prevPowerOfTwo (stop - current)) = 2 ^ order ∧ current ≠ 0 ∧
      current + 2 ^ order ≤ stop := by
  have hne : current ≠ 0 := by
    rintro rfl
    simp [lowbit, minBuddyBlockSize] at hsize
  obtain ⟨order, hle, horder⟩ : ∃ order, order ≤ trailingZeros 64 current ∧
      min (lowbit current) (prevPowerOfTwo (stop - current)) = 2 ^ order := by
    rw [lowbit, if_neg hne]
    rcases le_total (trailingZeros 64 current) (stop - current).log2 with hle | hle
    · exact ⟨_, le_rfl, Nat.min_eq_left (Nat.pow_le_pow_right (by decide) hle)⟩
    · exact ⟨_, hle, Nat.min_eq_right (Nat.pow_le_pow_right (by decide) hle)⟩
  have hfit : 2 ^ order ≤ stop - current := by
    rw [← horder]
    exact (min_le_right _ _).trans (Nat.log2_self_le (by omega))
  rw [horder] at hsize hcount
  rw [trailingZeros_two_pow] at hcount
  refine ⟨order, ?_, ?_, dvd_trans (pow_dvd_pow 2 hle) (trailingZeros_dvd 64 current), horder, hne,
    by omega⟩
  · exact (Nat.pow_le_pow_iff_right (a := 2) (by decide)).mp hsize
  · unfold heapOrderCount at *
    omega

theorem Holds.add (hh : Holds h l bs S n) (hb : ∀ x, b.Covers x → ¬ S x ∧ x ≠ 0) :
    Holds h l (b :: bs) (fun x => S x ∨ b.Covers x) (n + b.size) where
  lists := hh.lists
  parts := hh.parts.add fun x hx => (hb x hx).1
  positive := by
    rintro x (hx | hx)
    · exact hh.positive x hx
    · exact (hb x hx).2

/-- The loop of `add_to_heap` puts the bytes of the range on the lists. -/
theorem addBlocks_holds (rounds : ℕ) {current stop total total' : ℕ}
    (hrounds : stop - current ≤ rounds) (hdvd : minBuddyBlockSize ∣ current)
    (hstop : minBuddyBlockSize ∣ stop) (hfree : ∀ x, current ≤ x → x < stop → ¬ S x)
    (hh : Holds h l bs S n) (heq : addBlocks rounds h current stop total = .ok (h', total')) :
    ∃ l' m, Holds h' l' bs (fun x => S x ∨ current ≤ x ∧ x < stop) (n + m) ∧ total' = total + m ∧
      h'.total = h.total ∧ h'.allocated = h.allocated := by
  induction rounds generalizing h l S n current total with
  | zero =>
    cases heq
    exact ⟨l, 0, hh.of_iff fun x => or_iff_left (by omega), rfl, rfl, rfl⟩
  | succ rounds ih =>
    rw [addBlocks] at heq
    split at heq
    next hfit =>
      have hlt : current < stop := by
        unfold minBuddyBlockSize at hfit
        omega
      dsimp only at heq
      split at heq
      · cases heq
      rename_i hsize
      split at heq
      · cases heq
      rename_i hcount
      obtain ⟨order, hmin, hk, hp, horder, hne, hle⟩ :=
        blockSize_spec hlt (Nat.le_of_not_lt hsize) (Nat.lt_of_not_ge hcount)
      rw [horder, trailingZeros_two_pow, min_eq_left (by unfold heapOrderCount at hk; omega)] at heq
      have hblock : ∀ x, (Block.mk current order).Covers x → ¬ S x ∧ x ≠ 0 := by
        rintro x ⟨hlow, hhigh⟩
        have hlow : current ≤ x := hlow
        have hhigh : x < current + 2 ^ order := hhigh
        exact ⟨hfree x hlow (by omega), by omega⟩
      have hpush := (hh.add hblock).push hk hmin hp
      have hrest : ∀ x, current + 2 ^ order ≤ x → x < stop →
          ¬ (S x ∨ (Block.mk current order).Covers x) := by
        rintro x hlow hhigh (hx | ⟨-, hx⟩)
        · exact hfree x (by omega) hhigh hx
        · exact absurd hlow (not_le.mpr hx)
      have hdvd' : minBuddyBlockSize ∣ current + 2 ^ order := Nat.dvd_add hdvd (pow_dvd_pow 2 hmin)
      obtain ⟨l', m, hh', htotal, hsame⟩ := ih (by omega) hdvd' hrest hpush heq
      refine ⟨l', 2 ^ order + m, ?_, by rw [htotal, add_assoc], hsame⟩
      rw [← add_assoc]
      refine hh'.of_iff fun x => ?_
      rw [or_assoc]
      apply or_congr_right
      simp only [Block.Covers, size]
      omega
    next hfit =>
      cases heq
      -- both ends are multiples of the block size, so nothing is left over
      unfold minBuddyBlockSize at *
      exact ⟨l, 0, hh.of_iff fun x => or_iff_left (by omega), rfl, rfl, rfl⟩

theorem addToHeap_holds {start stop : ℕ} (hh : Holds h l bs S n) (hn : h.total = n)
    (hfree : ∀ x, alignUp start ≤ x → x < alignDown stop → ¬ S x)
    (heq : h.addToHeap start stop = .ok h') :
    ∃ l', Holds h' l' bs (fun x => S x ∨ alignUp start ≤ x ∧ x < alignDown stop) h'.total ∧
      h'.allocated = h.allocated := by
  unfold addToHeap at heq
  split at heq
  · cases heq
  dsimp only at heq
  split at heq
  · cases heq
  split at heq
  · cases heq
  rename_i h₁ total hblocks
  cases heq
  obtain ⟨l', m, hh', htotal, hkept, halloc⟩ := addBlocks_holds _ le_rfl (dvd_mul_left _ _)
    (dvd_mul_left _ _) hfree hh hblocks
  refine ⟨l', ?_, halloc⟩
  have hsize : h₁.total + total = n + m := by omega
  rw [hsize]
  exact hh'.counters _ _

/-! ## Releasing -/

/-- A block that is released was on a list, and its bytes leave the heap. -/
theorem releaseFrom_holds (minClass rangeStart rangeEnd rounds : ℕ)
    (hbound : minClass + rounds ≤ heapOrderCount) (hh : Holds h l bs S n) (hn : h.total = n) :
    releaseFrom minClass rangeStart rangeEnd rounds h = .ok (none, h) ∨
    ∃ p k h' l', releaseFrom minClass rangeStart rangeEnd rounds h = .ok (some (p, 2 ^ k), h') ∧
      Holds h' l' bs (fun x => S x ∧ ¬ (Block.mk p k).Covers x) h'.total ∧
      h'.allocated = h.allocated ∧ minClass ≤ k ∧
      isTail rangeStart rangeEnd (2 ^ k) p = true ∧ ∀ x, (Block.mk p k).Covers x → S x := by
  induction rounds with
  | zero => exact .inl rfl
  | succ rounds ih =>
    have hk : minClass + rounds < heapOrderCount := by omega
    have hlength : (l (minClass + rounds)).length ≤ h.total := by
      rw [hn]
      exact hh.parts.length_le hk
    rw [releaseFrom, (hh.lists.linked.linked _ hk).chain.nodes_eq (Nat.lt_succ_of_le hlength)]
    dsimp only
    split
    · exact ih (by omega)
    rename_i block hfind
    have hmem : block ∈ l (minClass + rounds) := mem_of_find?_eq_some hfind
    rw [removeFreeBlock_eq hh.lists hk hlength]
    simp only [decide_eq_true hmem, if_pos hmem]
    have hdrop := hh.drop hk hmem
    have hrelease : Holds (h.dropBlock (minClass + rounds) block) _ bs (fun x => S x ∧ ¬ (Block.mk
        block (minClass + rounds)).Covers x) (n - 2 ^ (minClass + rounds)) :=
      ⟨hdrop.lists, hdrop.parts.release, fun x hx => hh.positive x hx.1⟩
    right
    refine ⟨block, minClass + rounds, _,
      update l (minClass + rounds) ((l (minClass + rounds)).erase block), rfl, ?_, rfl,
      Nat.le_add_right _ _, find?_some hfind, fun x =>
        hh.parts.tiles.mem (mem_append_left _ (mem_onOrders.mpr ⟨hk, hmem⟩))⟩
    rw [dropBlock_total, hn]
    exact hrelease.counters _ _

end CosmOS.Mm.ReclaimingHeap
