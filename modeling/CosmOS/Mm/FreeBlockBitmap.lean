import Mathlib

/-!
# The bitmap of free blocks (os/src/mm/frame_allocator.rs)

One bit for each aligned block of each order, in 64-bit words.  The words of an order stand behind the
words of the orders below.  The bitmap covers the pages from `base` on, and `base` need not be aligned,
so that two addresses inside one block may have different bits; `position_inj` is about aligned ones.

The array of words is total here: it is taken to be large enough.
-/

namespace CosmOS.Mm

open Function

def maxOrder : ℕ := 32

/-- The words of one order for a span of pages. -/
def bitmapWords (spanPages order : ℕ) : ℕ :=
  let blockSize := 2 ^ order
  let blockCount := (spanPages + blockSize - 1) / blockSize
  (blockCount + 63) / 64

def bitmapOffset (spanPages : ℕ) : ℕ → ℕ
  | 0 => 0
  | order + 1 => bitmapOffset spanPages order + bitmapWords spanPages order

structure FreeBlockBitmap where
  bits : ℕ → BitVec 64
  offsets : ℕ → ℕ
  words : ℕ → ℕ
  base : ℕ
  spanPages : ℕ
  enabled : Bool
  /-- the layout that `reset` gives an enabled bitmap -/
  layout : enabled = true → ∀ order < maxOrder,
    offsets order = bitmapOffset spanPages order ∧ words order = bitmapWords spanPages order

namespace FreeBlockBitmap

def empty : FreeBlockBitmap where
  bits := fun _ => 0
  offsets := fun _ => 0
  words := fun _ => 0
  base := 0
  spanPages := 0
  enabled := false
  layout := nofun

/-- `maxPages` is the largest span that the arrays are made for. -/
def reset (maxPages base stop : ℕ) : FreeBlockBitmap where
  bits := fun _ => 0
  offsets := fun order => if base < stop ∧ stop - base ≤ maxPages then
    bitmapOffset (stop - base) order else 0
  words := fun order => if base < stop ∧ stop - base ≤ maxPages then
    bitmapWords (stop - base) order else 0
  base := base
  spanPages := stop - base
  enabled := base < stop ∧ stop - base ≤ maxPages
  layout := by
    intro h order _
    rw [if_pos (of_decide_eq_true h), if_pos (of_decide_eq_true h)]
    exact ⟨rfl, rfl⟩

variable (b : FreeBlockBitmap)

/-- The word and the mask of a block. -/
def position (order ppn : ℕ) : Option (ℕ × BitVec 64) :=
  if !b.enabled || order ≥ maxOrder || ppn < b.base then none
  else
    let relative := ppn - b.base
    if relative ≥ b.spanPages then none
    else
      let block := relative >>> order
      let word := block >>> 6
      if word ≥ b.words order then none
      else some (b.offsets order + word, 1#64 <<< (block &&& 63))

def isSet (order ppn : ℕ) : Bool :=
  match b.position order ppn with
  | some (word, mask) => b.bits word &&& mask != 0
  | none => false

def set (order ppn : ℕ) : FreeBlockBitmap :=
  match b.position order ppn with
  | some (word, mask) => { b with bits := update b.bits word (b.bits word ||| mask) }
  | none => b

def clear (order ppn : ℕ) : FreeBlockBitmap :=
  match b.position order ppn with
  | some (word, mask) => { b with bits := update b.bits word (b.bits word &&& ~~~mask) }
  | none => b

variable {b : FreeBlockBitmap} {order ppn j p k q : ℕ}

@[simp] theorem set_enabled : (b.set order ppn).enabled = b.enabled := by
  unfold set; split <;> rfl

@[simp] theorem set_base : (b.set order ppn).base = b.base := by
  unfold set; split <;> rfl

@[simp] theorem set_spanPages : (b.set order ppn).spanPages = b.spanPages := by
  unfold set; split <;> rfl

@[simp] theorem clear_enabled : (b.clear order ppn).enabled = b.enabled := by
  unfold clear; split <;> rfl

@[simp] theorem clear_base : (b.clear order ppn).base = b.base := by
  unfold clear; split <;> rfl

@[simp] theorem clear_spanPages : (b.clear order ppn).spanPages = b.spanPages := by
  unfold clear; split <;> rfl

/-! ## Positions -/

/-- The pages that the bitmap is about. -/
def Spans (b : FreeBlockBitmap) (ppn : ℕ) : Prop := b.base ≤ ppn ∧ ppn < b.base + b.spanPages

theorem block_lt (hspan : ppn < q) (order : ℕ) : ppn / 2 ^ order / 64 < bitmapWords q order := by
  have hpos : 0 < 2 ^ order := Nat.two_pow_pos order
  have hblock : ppn / 2 ^ order < (q + 2 ^ order - 1) / 2 ^ order := by
    rw [Nat.div_lt_iff_lt_mul hpos]
    have hq := Nat.lt_div_mul_add hpos (a := q + 2 ^ order - 1)
    omega
  unfold bitmapWords
  dsimp only
  omega

/-- The word and the bit of a block. -/
def slot (b : FreeBlockBitmap) (order ppn : ℕ) : ℕ × ℕ :=
  (bitmapOffset b.spanPages order + (ppn - b.base) / 2 ^ order / 64,
    (ppn - b.base) / 2 ^ order % 64)

theorem slot_lt (b : FreeBlockBitmap) (order ppn : ℕ) : (b.slot order ppn).2 < 64 :=
  Nat.mod_lt _ (by decide)

theorem position_eq (he : b.enabled = true) (hk : order < maxOrder) (hp : b.Spans ppn) :
    b.position order ppn = some ((b.slot order ppn).1, 1#64 <<< (b.slot order ppn).2) := by
  obtain ⟨hlow, hhigh⟩ := hp
  obtain ⟨hoff, hwords⟩ := b.layout he order hk
  have hrel : ppn - b.base < b.spanPages := by omega
  have hand : ∀ n : ℕ, n &&& 63 = n % 64 := fun n => Nat.and_two_pow_sub_one_eq_mod n 6
  have hword := block_lt hrel order
  unfold position
  rw [if_neg (by simp [he]; omega)]
  dsimp only
  rw [if_neg (by omega), Nat.shiftRight_eq_div_pow, Nat.shiftRight_eq_div_pow, hand, hoff, hwords,
    if_neg (by simpa using hword)]
  rfl

theorem position_none (hp : ¬ b.Spans ppn) : b.position order ppn = none := by
  unfold position
  split
  · rfl
  rename_i h
  simp only [Bool.or_eq_true, decide_eq_true_eq, not_or, not_lt] at h
  rw [if_pos]
  by_contra hrel
  exact hp ⟨h.2, by omega⟩

theorem bitmapOffset_le (span : ℕ) (h : j < k) :
    bitmapOffset span j + bitmapWords span j ≤ bitmapOffset span k := by
  induction k with
  | zero => exact absurd h (Nat.not_lt_zero j)
  | succ k ih =>
    rcases Nat.lt_succ_iff_lt_or_eq.mp h with hlt | rfl
    · exact (ih hlt).trans (Nat.le_add_right _ _)
    · exact le_rfl

/-- Aligned pages in one block of the numbering from `base` are the same page. -/
theorem eq_of_block_eq {base : ℕ} (hp : 2 ^ k ∣ p) (hq : 2 ^ k ∣ q) (hbp : base ≤ p) (hbq : base ≤ q)
    (h : (p - base) / 2 ^ k = (q - base) / 2 ^ k) : p = q := by
  obtain ⟨m, rfl⟩ := hp
  obtain ⟨n, rfl⟩ := hq
  have hpos : 0 < 2 ^ k := Nat.two_pow_pos k
  have hm := Nat.div_add_mod (2 ^ k * m - base) (2 ^ k)
  have hn := Nat.div_add_mod (2 ^ k * n - base) (2 ^ k)
  rw [h] at hm
  -- both pages are in the same block, and one block holds one multiple of its size
  have hmn : 2 ^ k * m < 2 ^ k * (n + 1) := by
    rw [Nat.mul_add]
    omega
  have hnm : 2 ^ k * n < 2 ^ k * (m + 1) := by
    rw [Nat.mul_add, Nat.mul_one]
    omega
  have h₁ := Nat.lt_of_mul_lt_mul_left hmn
  have h₂ := Nat.lt_of_mul_lt_mul_left hnm
  have heq : m = n := by omega
  rw [heq]

/-- Different aligned blocks have different bits. -/
theorem slot_inj (hp : 2 ^ j ∣ p) (hq : 2 ^ k ∣ q) (hbp : b.Spans p) (hbq : b.Spans q)
    (h : b.slot j p = b.slot k q) : j = k ∧ p = q := by
  obtain ⟨hword, hbit⟩ := Prod.mk.inj h
  have hspanp : p - b.base < b.spanPages := by obtain ⟨h₁, h₂⟩ := hbp; omega
  have hspanq : q - b.base < b.spanPages := by obtain ⟨h₁, h₂⟩ := hbq; omega
  have hwp := block_lt hspanp j
  have hwq := block_lt hspanq k
  -- the words of two orders do not meet
  have hjk : j = k := by
    rcases Nat.lt_trichotomy j k with hlt | heq | hgt
    · have hle := (Nat.add_lt_add_left hwp _).trans_le (bitmapOffset_le b.spanPages hlt)
      exact absurd (hword ▸ hle) (Nat.not_lt.mpr (Nat.le_add_right _ _))
    · exact heq
    · have hle := (Nat.add_lt_add_left hwq _).trans_le (bitmapOffset_le b.spanPages hgt)
      exact absurd (hword.symm ▸ hle) (Nat.not_lt.mpr (Nat.le_add_right _ _))
  subst hjk
  refine ⟨rfl, eq_of_block_eq hp hq hbp.1 hbq.1 ?_⟩
  omega

/-! ## Bits -/

theorem and_one_shiftLeft (w : BitVec 64) {i : ℕ} (hi : i < 64) :
    (w &&& 1#64 <<< i != 0) = w.getLsbD i := by
  rw [← BitVec.twoPow_eq, BitVec.and_twoPow]
  have hne : BitVec.twoPow 64 i ≠ 0#64 := by
    intro h0
    have hbit := congrArg (fun w : BitVec 64 => w.getLsbD i) h0
    simp [hi] at hbit
  cases w.getLsbD i <;> simp [hne]

theorem isSet_eq (he : b.enabled = true) (hk : order < maxOrder) (hp : b.Spans ppn) :
    b.isSet order ppn = (b.bits (b.slot order ppn).1).getLsbD (b.slot order ppn).2 := by
  unfold isSet
  rw [position_eq he hk hp]
  exact and_one_shiftLeft _ (b.slot_lt order ppn)

theorem isSet_of_not_spans (hp : ¬ b.Spans ppn) : b.isSet order ppn = false := by
  unfold isSet
  rw [position_none hp]

section Change

variable (he : b.enabled = true) (hj : j < maxOrder) (hk : k < maxOrder) (hp : 2 ^ j ∣ p)
  (hq : 2 ^ k ∣ q) (hbp : b.Spans p) (hbq : b.Spans q)

include he hk hp hq hbp hbq

/-- A new word for a block that has the other bits of the old one. -/
theorem isSet_update {w : BitVec 64}
    (hw : ∀ i < 64, i ≠ (b.slot j p).2 → w.getLsbD i = (b.bits (b.slot j p).1).getLsbD i) :
    { b with bits := update b.bits (b.slot j p).1 w }.isSet k q =
      if k = j ∧ q = p then w.getLsbD (b.slot j p).2 else b.isSet k q := by
  refine (isSet_eq (by exact he) hk (by exact hbq)).trans ?_
  change (update b.bits (b.slot j p).1 w (b.slot k q).1).getLsbD (b.slot k q).2 = _
  rw [isSet_eq he hk hbq]
  by_cases hsame : b.slot k q = b.slot j p
  · obtain ⟨rfl, rfl⟩ := slot_inj hq hp hbq hbp hsame
    rw [update_self, if_pos ⟨rfl, rfl⟩]
  have hne : ¬ (k = j ∧ q = p) := by
    rintro ⟨rfl, rfl⟩
    exact hsame rfl
  rw [if_neg hne]
  by_cases hword : (b.slot k q).1 = (b.slot j p).1
  · rw [hword, update_self, hw _ (b.slot_lt k q) fun hbit => hsame (Prod.ext hword hbit)]
  · rw [update_of_ne hword]

include hj

theorem isSet_set : (b.set j p).isSet k q = (decide (k = j ∧ q = p) || b.isSet k q) := by
  have hlt := b.slot_lt j p
  unfold set
  rw [position_eq he hj hbp]
  dsimp only
  rw [← BitVec.twoPow_eq, isSet_update he hk hp hq hbp hbq fun i _ hi => by simp [Ne.symm hi]]
  split
  next hsame => simp [hsame, hlt]
  next hne => rw [decide_eq_false hne, Bool.false_or]

theorem isSet_clear : (b.clear j p).isSet k q = (!decide (k = j ∧ q = p) && b.isSet k q) := by
  unfold clear
  rw [position_eq he hj hbp]
  dsimp only
  rw [← BitVec.twoPow_eq, isSet_update he hk hp hq hbp hbq fun i hlt hi => by simp [hlt, hi]]
  split
  next hsame => simp [hsame]
  next hne => rw [decide_eq_false hne, Bool.not_false, Bool.true_and]

end Change

theorem isSet_reset (maxPages base stop order ppn : ℕ) :
    (reset maxPages base stop).isSet order ppn = false := by
  unfold isSet
  split
  · simp [reset]
  · rfl

end FreeBlockBitmap

end CosmOS.Mm
