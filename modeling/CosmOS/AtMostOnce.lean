import Mathlib

/-!
# AtMostOnce — one copy of a thing among many containers

For a family of containers, `f i` copies of a thing are in container `i`.  A general layer for
structures in which a thing moves from hand to hand and must never be in two of them.  It names
nothing of any program.
-/

/-- There is at most one copy, in at most one container. -/
structure AtMostOnce {ι : Type*} (f : ι → ℕ) : Prop where
  le_one : ∀ i, f i ≤ 1
  unique : ∀ i j, f i ≠ 0 → f j ≠ 0 → i = j

namespace AtMostOnce

variable {ι : Type*} {f f' : ι → ℕ} {i j : ι}

theorem of_zero (h : ∀ i, f i = 0) : AtMostOnce f where
  le_one := fun i => by simp [h i]
  unique := fun i _ hi => absurd (h i) hi

/-- Two different containers hold at most one copy together. -/
theorem add_le_one (h : AtMostOnce f) (hij : i ≠ j) : f i + f j ≤ 1 := by
  have hi := h.le_one i
  have hj := h.le_one j
  by_contra hlt
  exact hij (h.unique i j (by omega) (by omega))

/-- A thing that is in `i` is in no other container. -/
theorem eq_zero (h : AtMostOnce f) (hi : f i ≠ 0) (hij : i ≠ j) : f j = 0 := by
  by_contra hj
  exact hij (h.unique i j hi hj)

section

variable (h : AtMostOnce f) (hoff : ∀ k, k ≠ i → k ≠ j → f' k = f k)

include h hoff

/-- A new content for two containers: at most one copy between the two, and one only if no other
container has it. -/
theorem replace (hle : f' i + f' j ≤ 1) (hij : i ≠ j)
    (hzero : f' i + f' j ≠ 0 → ∀ k, k ≠ i → k ≠ j → f k = 0) : AtMostOnce f' := by
  have hother : ∀ k, k ≠ i → k ≠ j → f' k ≠ 0 → f' i + f' j = 0 := by
    intro k hki hkj hk
    rw [hoff k hki hkj] at hk
    by_contra hsum
    exact hk (hzero hsum k hki hkj)
  refine ⟨fun k => ?_, fun k l hk hl => ?_⟩
  · rcases eq_or_ne k i with rfl | hki
    · omega
    rcases eq_or_ne k j with rfl | hkj
    · omega
    · rw [hoff k hki hkj]
      exact h.le_one k
  · by_cases hki : k = i ∨ k = j
    · by_cases hli : l = i ∨ l = j
      · rcases hki with rfl | rfl <;> rcases hli with rfl | rfl <;> first | rfl | omega
      · rw [not_or] at hli
        have hsum := hother l hli.1 hli.2 hl
        rcases hki with rfl | rfl <;> omega
    · rw [not_or] at hki
      by_cases hli : l = i ∨ l = j
      · have hsum := hother k hki.1 hki.2 hk
        rcases hli with rfl | rfl <;> omega
      · rw [not_or] at hli
        rw [hoff k hki.1 hki.2] at hk
        rw [hoff l hli.1 hli.2] at hl
        exact h.unique k l hk hl

/-- Moving between two containers, without making copies, keeps the thing in one place. -/
theorem trade (hij : i ≠ j) (hle : f' i + f' j ≤ f i + f j) : AtMostOnce f' := by
  refine h.replace hoff (Nat.le_trans hle (h.add_le_one hij)) hij fun hsum k hki hkj => ?_
  -- One of the two held the copy before, so the others did not.
  by_contra hk
  have hi := h.eq_zero hk hki
  have hj := h.eq_zero hk hkj
  omega

end

end AtMostOnce
