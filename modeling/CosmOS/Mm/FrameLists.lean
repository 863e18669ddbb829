import CosmOS.Mm.FrameAllocator

/-!
# The free lists of the frame allocator

`Lists a l` says that the list of each order of `a` runs through the blocks `l order`, in both
directions, and that the bitmap, if it is in use, has the bits of these blocks.  `push_block` puts a
block in front of its list; `pop_block` and `remove_block` take a block out, whichever way they find it.
-/

namespace CosmOS.Mm.BuddyFrameAllocator

open FreeBlockBitmap
open Function (update update_of_ne update_self)

def headWords (a : BuddyFrameAllocator) (k : ℕ) : ℕ := (a.freeList k).getD invalidPpn

/-- The allocator's lists, links and bits stand for the blocks `l`. -/
structure Lists (a : BuddyFrameAllocator) (l : ℕ → List ℕ) : Prop where
  heads : ∀ k < maxOrder, a.freeList k = (l k).head?
  linked : a.pages.Lists invalidPpn maxOrder a.headWords l
  aligned : ∀ k < maxOrder, ∀ p ∈ l k, 2 ^ k ∣ p
  spanned : a.freeBitmap.enabled = true → ∀ k < maxOrder, ∀ p ∈ l k, a.freeBitmap.Spans p
  bits : a.freeBitmap.enabled = true → ∀ k < maxOrder, ∀ p, 2 ^ k ∣ p →
    (a.freeBitmap.isSet k p = true ↔ p ∈ l k)

variable {a : BuddyFrameAllocator} {l : ℕ → List ℕ} {j k p q : ℕ}

theorem Lists.isList (h : Lists a l) (hk : k < maxOrder) :
    a.pages.IsList invalidPpn ((l k).head?.getD invalidPpn) (l k) := by
  have hlist := h.linked.linked k hk
  rwa [headWords, h.heads k hk] at hlist

theorem Lists.ne_invalid (h : Lists a l) (hk : k < maxOrder) (hp : p ∈ l k) : p ≠ invalidPpn :=
  (h.isList hk).chain.ne_nil hp

/-- What an update of one list and one bit has to keep. -/
theorem Lists.update {a' : BuddyFrameAllocator} (h : Lists a l) {lk : List ℕ}
    (hheads : a'.freeList = update a.freeList k lk.head?)
    (hlinked : a'.pages.Lists invalidPpn maxOrder
      (update a.headWords k (lk.head?.getD invalidPpn)) (update l k lk))
    (hmem : ∀ p ∈ lk, 2 ^ k ∣ p ∧ (a.freeBitmap.enabled = true → a.freeBitmap.Spans p))
    (henabled : a'.freeBitmap.enabled = a.freeBitmap.enabled)
    (hspans : a'.freeBitmap.Spans = a.freeBitmap.Spans)
    (hbits : a.freeBitmap.enabled = true → ∀ j < maxOrder, ∀ p, 2 ^ j ∣ p →
      (a'.freeBitmap.isSet j p = true ↔ p ∈ update l k lk j)) :
    Lists a' (update l k lk) where
  heads := by
    intro j hj
    rw [hheads]
    rcases eq_or_ne j k with rfl | hjk
    · rw [update_self, update_self]
    · rw [update_of_ne hjk, update_of_ne hjk]
      exact h.heads j hj
  linked := by
    have hwords : a'.headWords = Function.update a.headWords k (lk.head?.getD invalidPpn) := by
      funext j
      unfold headWords
      rw [hheads]
      exact Function.apply_update (fun _ o => o.getD invalidPpn) a.freeList k _ j
    rwa [hwords]
  aligned := by
    intro j hj p hp
    rcases eq_or_ne j k with rfl | hjk
    · rw [update_self] at hp
      exact (hmem p hp).1
    · rw [update_of_ne hjk] at hp
      exact h.aligned j hj p hp
  spanned := by
    intro he j hj p hp
    rw [henabled] at he
    rw [hspans]
    rcases eq_or_ne j k with rfl | hjk
    · rw [update_self] at hp
      exact (hmem p hp).2 he
    · rw [update_of_ne hjk] at hp
      exact h.spanned he j hj p hp
  bits := by
    intro he
    exact hbits (henabled ▸ he)

/-! ## Fields that the lists do not touch -/

@[simp] theorem pushBlock_regions : (a.pushBlock k p).regions = a.regions := by
  unfold pushBlock; dsimp only; split <;> rfl

@[simp] theorem pushBlock_freePages : (a.pushBlock k p).freePages = a.freePages := by
  unfold pushBlock; dsimp only; split <;> rfl

@[simp] theorem pushBlock_allocatedPages : (a.pushBlock k p).allocatedPages = a.allocatedPages := by
  unfold pushBlock; dsimp only; split <;> rfl

theorem pushBlock_freeBitmap : (a.pushBlock k p).freeBitmap = a.freeBitmap.set k p := by
  unfold pushBlock; dsimp only; split <;> rfl

/-! ## Pushing -/

theorem pushBlock_eq (hhead : a.freeList k ≠ some invalidPpn) :
    a.pushBlock k p = { a with
      pages := a.pages.push invalidPpn (a.headWords k) p
      freeList := update a.freeList k (some p)
      freeBitmap := a.freeBitmap.set k p } := by
  unfold pushBlock setHead setPrevious setNext Cells.push headWords
  dsimp only
  cases hf : a.freeList k with
  | none => simp
  | some head =>
    have hne : head ≠ invalidPpn := fun h => hhead (hf.trans (congrArg some h))
    simp [hne]

/-- A block that is on no list goes to the front of its list. -/
theorem Lists.pushBlock (h : Lists a l) (hk : k < maxOrder) (hp : 2 ^ k ∣ p) (hne : p ≠ invalidPpn)
    (hspan : a.freeBitmap.enabled = true → a.freeBitmap.Spans p)
    (hfresh : ∀ j < maxOrder, p ∉ l j) :
    Lists (a.pushBlock k p) (Function.update l k (p :: l k)) := by
  have hhead : a.freeList k ≠ some invalidPpn := by
    rw [h.heads k hk]
    intro hh
    exact h.ne_invalid hk (List.mem_of_head? hh) rfl
  rw [pushBlock_eq hhead]
  apply h.update
  · rfl
  · exact h.linked.push hk hne hfresh
  · intro q hq
    rcases List.mem_cons.mp hq with rfl | hq
    · exact ⟨hp, hspan⟩
    · exact ⟨h.aligned k hk q hq, fun he => h.spanned he k hk q hq⟩
  · exact set_enabled
  · funext x
    simp [Spans]
  · intro he j hj q hq
    by_cases hsq : a.freeBitmap.Spans q
    · rw [isSet_set he hk hj hp hq (hspan he) hsq, Bool.or_eq_true, h.bits he j hj q hq]
      rcases eq_or_ne j k with rfl | hjk
      · simp
      · rw [update_of_ne hjk]
        simp [hjk]
    · have hset : (a.freeBitmap.set k p).isSet j q = false :=
        isSet_of_not_spans (by simpa [Spans] using hsq)
      rw [hset]
      refine ⟨nofun, fun hq' => absurd ?_ hsq⟩
      rcases eq_or_ne j k with rfl | hjk
      · rw [update_self] at hq'
        rcases List.mem_cons.mp hq' with rfl | hq'
        · exact hspan he
        · exact h.spanned he j hj q hq'
      · rw [update_of_ne hjk] at hq'
        exact h.spanned he j hj q hq'

/-! ## Taking a block out -/

/-- A block leaves its list and its bit is cleared. -/
def dropBlock (a : BuddyFrameAllocator) (k p : ℕ) : BuddyFrameAllocator :=
  let a := a.unlinkBlock k p (a.previous p)
  { a with freeBitmap := a.freeBitmap.clear k p }

theorem dropBlock_eq (head : ℕ) :
    a.dropBlock k p = { a with
      pages := (a.pages.unlink invalidPpn head p).1
      freeList := if a.pages.prev p = invalidPpn then update a.freeList k (a.next p)
        else a.freeList
      freeBitmap := a.freeBitmap.clear k p } := by
  unfold dropBlock unlinkBlock previous next setHead setPrevious setNext Cells.unlink
  by_cases hp : a.pages.prev p = invalidPpn <;> by_cases hn : a.pages.next p = invalidPpn <;>
    simp [hp, hn]

theorem decode_head {lk : List ℕ} (h : invalidPpn ∉ lk) :
    (if lk.head?.getD invalidPpn = invalidPpn then none else some (lk.head?.getD invalidPpn)) =
      lk.head? := by
  cases lk with
  | nil => rfl
  | cons q lk =>
    have hq : q ≠ invalidPpn := fun heq => h (heq ▸ .head _)
    simp [hq]

theorem Lists.drop_head (h : Lists a l) (hk : k < maxOrder) (hp : p ∈ l k) :
    (if a.pages.prev p = invalidPpn then Function.update a.freeList k (a.next p) else a.freeList) =
      Function.update a.freeList k ((l k).erase p).head? := by
  have hlist := h.isList hk
  have hhead := (hlist.unlink hp).chain.head_eq
  have herase := decode_head (hlist.unlink hp).nil_notMem
  rw [Cells.unlink_head] at hhead
  split
  next hprev =>
    rw [if_pos hprev] at hhead
    rw [← hhead] at herase
    rw [← herase]
    rfl
  next hprev =>
    rw [if_neg hprev] at hhead
    rw [← hhead, decode_head hlist.nil_notMem, ← h.heads k hk] at herase
    rw [← herase, Function.update_eq_self]

@[simp] theorem dropBlock_regions : (a.dropBlock k p).regions = a.regions := by
  rw [dropBlock_eq 0]

@[simp] theorem dropBlock_freePages : (a.dropBlock k p).freePages = a.freePages := by
  rw [dropBlock_eq 0]

@[simp] theorem dropBlock_allocatedPages : (a.dropBlock k p).allocatedPages = a.allocatedPages := by
  rw [dropBlock_eq 0]

theorem dropBlock_freeBitmap : (a.dropBlock k p).freeBitmap = a.freeBitmap.clear k p := by
  rw [dropBlock_eq 0]

theorem Lists.dropBlock (h : Lists a l) (hk : k < maxOrder) (hp : p ∈ l k) :
    Lists (a.dropBlock k p) (Function.update l k ((l k).erase p)) := by
  have hlist := h.linked.linked k hk
  have hunlink := h.linked.unlink hk hp
  rw [(hlist.unlink hp).chain.head_eq] at hunlink
  rw [dropBlock_eq (a.headWords k)]
  apply h.update
  · exact h.drop_head hk hp
  · exact hunlink
  · intro q hq
    have hq := List.mem_of_mem_erase hq
    exact ⟨h.aligned k hk q hq, fun he => h.spanned he k hk q hq⟩
  · exact clear_enabled
  · funext x
    simp [Spans]
  · intro he j hj q hq
    have hmem : q ∈ Function.update l k ((l k).erase p) j ↔ ¬ (j = k ∧ q = p) ∧ q ∈ l j := by
      rcases eq_or_ne j k with rfl | hjk
      · rw [update_self, hlist.nodup.mem_erase_iff]
        simp
      · rw [update_of_ne hjk]
        simp [hjk]
    by_cases hsq : a.freeBitmap.Spans q
    · rw [isSet_clear he hk hj (h.aligned k hk p hp) hq (h.spanned he k hk p hp) hsq, hmem,
        ← h.bits he j hj q hq, Bool.and_eq_true, Bool.not_eq_true', decide_eq_false_iff_not]
    · have hclear : (a.freeBitmap.clear k p).isSet j q = false :=
        isSet_of_not_spans (by simpa [Spans] using hsq)
      rw [hclear, hmem]
      exact ⟨nofun, fun hq' => absurd (h.spanned he j hj q hq'.2) hsq⟩

/-- `pop_block` takes the first block of a list out. -/
theorem popBlock_eq (h : Lists a l) (hk : k < maxOrder) :
    a.popBlock k = (l k).head?.map fun p => (p, a.dropBlock k p) := by
  unfold popBlock
  rw [h.heads k hk]
  cases hl : l k with
  | nil => rfl
  | cons p t =>
    -- the first block has nothing in front of it
    have hprev : a.previous p = none := by
      have hchain := (h.isList hk).chain
      rw [hl] at hchain
      exact if_pos hchain.2.2.1
    simp only [List.head?_cons, Option.map_some]
    unfold BuddyFrameAllocator.dropBlock
    rw [hprev]
    rfl

theorem clear_of_disabled {b : FreeBlockBitmap} (h : b.enabled = false) : b.clear k p = b := by
  have hpos : b.position k p = none := by
    unfold position
    rw [if_pos (by simp [h])]
  unfold clear
  rw [hpos]

/-- Whichever way `remove_block` looks for the block, it finds it exactly when it is on the list. -/
theorem removeBlock_eq (h : Lists a l) (hk : k < maxOrder) (hp : 2 ^ k ∣ p)
    (hfuel : (l k).length ≤ a.freePages) :
    a.removeBlock k p = .ok (decide (p ∈ l k), if p ∈ l k then a.dropBlock k p else a) := by
  unfold removeBlock
  split
  next he =>
    have hbits := h.bits he k hk p hp
    by_cases hmem : p ∈ l k
    · rw [hbits.mpr hmem, if_pos hmem, decide_eq_true hmem]
      rfl
    have hclear : a.freeBitmap.isSet k p = false := by
      rwa [← Bool.not_eq_true, hbits]
    rw [hclear, if_neg hmem, decide_eq_false hmem]
    rfl
  next he =>
    have hlocate := (h.linked.linked k hk).locate_eq (a := p) (Nat.lt_succ_of_le hfuel)
    unfold headWords at hlocate
    rw [hlocate]
    by_cases hmem : p ∈ l k
    · have hdrop : a.dropBlock k p = a.unlinkBlock k p (a.previous p) := by
        unfold BuddyFrameAllocator.dropBlock
        dsimp only
        rw [clear_of_disabled]
        have hbitmap : (a.unlinkBlock k p (a.previous p)).freeBitmap = a.freeBitmap := by
          unfold unlinkBlock
          dsimp only
          split <;> split <;> rfl
        rw [hbitmap]
        simpa using he
      simp only [if_pos hmem, decide_eq_true hmem, hdrop]
      rfl
    · simp only [if_neg hmem, decide_eq_false hmem]

end CosmOS.Mm.BuddyFrameAllocator
