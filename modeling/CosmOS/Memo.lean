import Mathlib

/-!
# Memo — tables of remembered answers

A general layer: a table holds answers to questions, some of them or none, and the answers have a truth
that changes independently of the table.

* `Agrees m truth k`: what the table has at `k` is the truth.
* `Sub m' m`: the table has only lost answers.
* `Stores m m' k v`: the answer `v` at `k` was stored, and others may have been lost.
-/

universe u v

namespace Memo

variable {κ : Type u} {β : Type v}

/-- What the table has at `k` is the truth. -/
def Agrees (m : κ → Option β) (truth : κ → β) (k : κ) : Prop := ∀ v, m k = some v → v = truth k

/-- `m'` has no answer that `m` does not have. -/
def Sub (m' m : κ → Option β) : Prop := ∀ k v, m' k = some v → m k = some v

/-- `v` was stored at `k`; answers may have been lost. -/
def Stores (m m' : κ → Option β) (k : κ) (v : β) : Prop :=
  ∀ k' w, m' k' = some w → (k' = k ∧ w = v) ∨ (k' ≠ k ∧ m k' = some w)

variable {m m' m'' : κ → Option β} {truth truth' : κ → β} {k k' : κ} {v : β}

theorem Sub.refl (m : κ → Option β) : Sub m m := fun _ _ h => h

theorem Sub.trans (h : Sub m'' m') (h' : Sub m' m) : Sub m'' m :=
  fun k v hv => h' k v (h k v hv)

theorem agrees_of_none (h : m k = none) : Agrees m truth k := by
  intro v hv
  rw [h] at hv
  simp at hv

theorem Stores.agrees (h : Stores m m' k v) (hv : v = truth k) : Agrees m' truth k := by
  intro w hw
  rcases h k w hw with ⟨-, rfl⟩ | ⟨hne, -⟩
  · exact hv
  · exact absurd rfl hne

theorem Stores.agrees_of_ne (h : Stores m m' k v) (hne : k' ≠ k) (ha : Agrees m truth k') :
    Agrees m' truth k' := by
  intro w hw
  rcases h k' w hw with ⟨rfl, -⟩ | ⟨-, hw⟩
  · exact absurd rfl hne
  · exact ha w hw

end Memo
