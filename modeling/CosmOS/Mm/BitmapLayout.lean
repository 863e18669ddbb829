import CosmOS.Mm.FrameAllocator

/-!
# The storage of the bitmap (os/src/mm/frame_allocator.rs)

`reset` rounds the bits of every order up to whole words, and `MAX_BITMAP_WORDS` leaves room for fewer
words than the 32 roundings may take: the layout fits exactly for spans up to 512 pages below the largest
span for which the bitmap is enabled.
-/

namespace CosmOS.Mm

open FreeBlockBitmap

def maxBitmapWords : ℕ := (2 * maxBitmapPages + maxOrder + 63) / 64

variable {m n order ppn j p base stop : ℕ}

theorem bitmapWords_mono (h : m ≤ n) (order : ℕ) : bitmapWords m order ≤ bitmapWords n order := by
  have hblocks : (m + 2 ^ order - 1) / 2 ^ order ≤ (n + 2 ^ order - 1) / 2 ^ order :=
    Nat.div_le_div_right (by omega)
  unfold bitmapWords
  dsimp only
  omega

theorem bitmapOffset_mono (h : m ≤ n) (order : ℕ) : bitmapOffset m order ≤ bitmapOffset n order := by
  induction order with
  | zero => exact le_rfl
  | succ order ih => exact Nat.add_le_add ih (bitmapWords_mono h order)

namespace FreeBlockBitmap

variable {b : FreeBlockBitmap} {r : ℕ × BitVec 64}

theorem spans_of_position (h : b.position order ppn = some r) :
    b.enabled = true ∧ order < maxOrder ∧ b.Spans ppn := by
  have hspans : b.Spans ppn := by
    by_contra hout
    rw [position_none hout] at h
    cases h
  unfold position at h
  split at h
  · cases h
  next hguard =>
    simp only [Bool.or_eq_true, Bool.not_eq_eq_eq_not, Bool.not_true, decide_eq_true_eq,
      not_or, Bool.not_eq_false, not_le] at hguard
    exact ⟨hguard.1.1, hguard.1.2, hspans⟩

/-- One word and one mask belong to one block. -/
theorem position_inj (hp : 2 ^ order ∣ ppn) (hq : 2 ^ j ∣ p)
    (h : b.position order ppn = some r) (h' : b.position j p = some r) : j = order ∧ p = ppn := by
  obtain ⟨he, hk, hspan⟩ := spans_of_position h
  obtain ⟨-, hj, hspan'⟩ := spans_of_position h'
  rw [position_eq he hk hspan] at h
  rw [position_eq he hj hspan', ← h] at h'
  obtain ⟨hword, hmask⟩ := Prod.mk.inj (Option.some.inj h')
  -- the masks are powers of two, so that their exponents are the same
  have hbit : (b.slot j p).2 = (b.slot order ppn).2 := by
    have hnat := congrArg BitVec.toNat hmask
    rw [← BitVec.twoPow_eq, ← BitVec.twoPow_eq, BitVec.toNat_twoPow_of_lt (b.slot_lt j p),
      BitVec.toNat_twoPow_of_lt (b.slot_lt order ppn)] at hnat
    exact Nat.pow_right_injective le_rfl hnat
  exact slot_inj hq hp hspan' hspan (Prod.ext hword hbit)

end FreeBlockBitmap

/-- The words of the orders follow each other and end inside of the array, and every aligned block of the
span has a bit of its own there. -/
def LayoutFits (base stop : ℕ) : Prop :=
  let b := FreeBlockBitmap.reset maxBitmapPages base stop
  b.offsets 0 = 0 ∧
  (∀ order < maxOrder, b.offsets order + b.words order ≤ maxBitmapWords ∧
    (order + 1 < maxOrder → b.offsets (order + 1) = b.offsets order + b.words order)) ∧
  ∀ order < maxOrder, ∀ ppn, base ≤ ppn → ppn < stop → 2 ^ order ∣ ppn →
    ∃ word mask, b.position order ppn = some (word, mask) ∧ word < maxBitmapWords ∧
      ∀ j p, 2 ^ j ∣ p → b.position j p = some (word, mask) → j = order ∧ p = ppn

/-- The words of all orders fit up to 512 pages below the largest span. -/
theorem bitmapOffset_le_iff (n : ℕ) :
    bitmapOffset n maxOrder ≤ maxBitmapWords ↔ n ≤ maxBitmapPages - 512 := by
  constructor
  · intro hfit
    by_contra hlarge
    have hfirst : bitmapOffset (maxBitmapPages - 511) maxOrder ≤ maxBitmapWords :=
      (bitmapOffset_mono (by omega) maxOrder).trans hfit
    exact absurd hfirst (by decide)
  · intro hle
    exact (bitmapOffset_mono hle maxOrder).trans (by decide)

theorem LayoutFits.of_le (hlt : base < stop) (hfit : stop - base ≤ maxBitmapPages - 512) :
    LayoutFits base stop := by
  unfold LayoutFits
  intro b
  have hin : base < stop ∧ stop - base ≤ maxBitmapPages := ⟨hlt, hfit.trans (Nat.sub_le ..)⟩
  have he : b.enabled = true := decide_eq_true hin
  have hoffsets : ∀ order, b.offsets order = bitmapOffset (stop - base) order := fun _ => if_pos hin
  have hwords : ∀ order, b.words order = bitmapWords (stop - base) order := fun _ => if_pos hin
  have hend : ∀ order < maxOrder, bitmapOffset (stop - base) order +
      bitmapWords (stop - base) order ≤ maxBitmapWords :=
    fun order ho => (bitmapOffset_le _ ho).trans ((bitmapOffset_le_iff _).mpr hfit)
  refine ⟨hoffsets 0, ?_, ?_⟩
  · intro order ho
    rw [hoffsets, hoffsets, hwords]
    exact ⟨hend order ho, fun _ => rfl⟩
  · intro order ho ppn hlow hhigh haligned
    have hrel : ppn - base < stop - base := by omega
    have hspan : b.Spans ppn := ⟨hlow, by change ppn < base + (stop - base); omega⟩
    have hpos := position_eq he ho hspan
    refine ⟨_, _, hpos, ?_, ?_⟩
    · exact (Nat.add_lt_add_left (block_lt hrel order) _).trans_le (hend order ho)
    · intro j p hp hj
      exact position_inj haligned hp hpos hj

/-- Of the spans that enable the bitmap, exactly those up to 512 pages below the largest one have a
layout that fits. -/
theorem bitmap_layout_fits (hlt : base < stop) (hspan : stop - base ≤ maxBitmapPages) :
    LayoutFits base stop ↔ stop - base ≤ maxBitmapPages - 512 := by
  refine ⟨fun h => (bitmapOffset_le_iff _).mp ?_, LayoutFits.of_le hlt⟩
  -- the last order ends where all the words end
  have htop := (h.2.1 31 (by decide)).1
  change ite _ _ _ + ite _ _ _ ≤ _ at htop
  rw [if_pos ⟨hlt, hspan⟩, if_pos ⟨hlt, hspan⟩] at htop
  exact htop

/-- The memory of the board with 4 GiB: its layout fits, and a block of 2 MiB has its bit. -/
theorem bitmap_layout_fits_qemu :
    LayoutFits 0x80600 0x180000 ∧
    ∃ word mask, (FreeBlockBitmap.reset maxBitmapPages 0x80600 0x180000).position 9 0x100000 =
      some (word, mask) ∧ word < maxBitmapWords := by
  have h : LayoutFits 0x80600 0x180000 :=
    (@bitmap_layout_fits 0x80600 0x180000 (by decide) (by decide)).mpr (by decide)
  obtain ⟨word, mask, hpos, hword, -⟩ :=
    h.2.2 9 (by decide) 0x100000 (by decide) (by decide) (by decide)
  exact ⟨h, word, mask, hpos, hword⟩

/-- At the largest span that enables the bitmap, the words of the top order stand behind the array. -/
theorem bitmap_layout_overflows :
    let b := FreeBlockBitmap.reset maxBitmapPages 0 maxBitmapPages
    b.enabled = true ∧ maxBitmapWords < b.offsets 31 + b.words 31 ∧
      b.position 31 0 = some (49167, 1#64) ∧ maxBitmapWords ≤ 49167 := by
  decide

end CosmOS.Mm
