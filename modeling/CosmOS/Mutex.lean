import Mathlib

/-!
# Mutex — who holds which lock

A lock table `lock : κ → Option α` says who holds each lock, the positions of the agents say which
lock each of them holds (`held : α → Option κ`, at most one of a kind).  `Agrees` is the invariant
that the two views are the same; taking and dropping a lock keep it.
-/

namespace Mutex

open Function

variable {κ α : Type*} {lock : κ → Option α} {held : α → Option κ} {k : κ} {a : α}

/-- The lock table and the positions of the agents agree. -/
def Agrees (lock : κ → Option α) (held : α → Option κ) : Prop :=
  ∀ k a, lock k = some a ↔ held a = some k

theorem Agrees.none (hlock : ∀ k, lock k = none) (hheld : ∀ a, held a = none) :
    Agrees lock held := by
  intro k a
  rw [hlock k, hheld a]
  simp

variable [DecidableEq κ] [DecidableEq α]

theorem Agrees.take (h : Agrees lock held) (hlock : lock k = Option.none)
    (hheld : held a = Option.none) : Agrees (update lock k (some a)) (update held a (some k)) := by
  intro k' a'
  have hk := h k' a'
  by_cases hkk : k' = k <;> by_cases haa : a' = a
  · subst hkk haa
    simp
  · subst hkk
    simp only [update_self, update_of_ne haa]
    rw [← hk, hlock]
    simp [Ne.symm haa]
  · subst haa
    simp only [update_self, update_of_ne hkk]
    rw [hk, hheld]
    simp [Ne.symm hkk]
  · simp only [update_of_ne hkk, update_of_ne haa]
    exact hk

theorem Agrees.drop (h : Agrees lock held) (hheld : held a = some k) :
    Agrees (update lock k Option.none) (update held a Option.none) := by
  have hlock : lock k = some a := (h k a).mpr hheld
  intro k' a'
  have hk := h k' a'
  by_cases hkk : k' = k <;> by_cases haa : a' = a
  · subst hkk haa
    simp
  · subst hkk
    simp only [update_self, update_of_ne haa]
    rw [← hk, hlock]
    simp [Ne.symm haa]
  · subst haa
    simp only [update_self, update_of_ne hkk]
    rw [hk, hheld]
    simp [Ne.symm hkk]
  · simp only [update_of_ne hkk, update_of_ne haa]
    exact hk

end Mutex
