import Mathlib

/-!
# Exclusive — flags that one agent at a time may set

A flag of a thing is set by the agent that takes the thing and cleared by the same agent later.
`own a` lists the things an agent has taken.  A general layer for programs that mark an object busy
and go on without its lock; it names nothing of any program.
-/

/-- Nothing is taken twice, and what is taken is flagged. -/
structure Exclusive {α τ : Type*} (own : τ → List α) (flag : α → Bool) : Prop where
  nodup : ∀ t, (own t).Nodup
  unique : ∀ t u a, a ∈ own t → a ∈ own u → t = u
  flagged : ∀ t a, a ∈ own t → flag a = true

namespace Exclusive

variable {α τ : Type*} {own own' : τ → List α} {flag flag' : α → Bool} {t u : τ} {a : α}

theorem of_nil (h : ∀ t, own t = []) : Exclusive own flag where
  nodup := fun t => by simp [h t]
  unique := fun t _ _ ha => by simp [h t] at ha
  flagged := fun t _ ha => by simp [h t] at ha

section

variable (h : Exclusive own flag)
include h

theorem not_mem (hfree : flag a = false) : a ∉ own t := by
  intro ha
  rw [h.flagged t a ha] at hfree
  cases hfree

/-- What one agent has taken, no other agent has. -/
theorem not_mem_of_ne (ha : a ∈ own t) (hne : u ≠ t) : a ∉ own u :=
  fun hu => hne (h.unique u t a hu ha)

/-- Nobody takes or leaves anything, and no flag of a taken thing falls. -/
theorem keep (hother : ∀ u, u ≠ t → own' u = own u)
    (hself : (own' t).Perm (own t)) (hflag : ∀ u a, a ∈ own u → flag' a = flag a) :
    Exclusive own' flag' := by
  have hperm : ∀ u, (own' u).Perm (own u) := by
    intro u
    by_cases hu : u = t
    · exact hu ▸ hself
    · rw [hother u hu]
  refine ⟨fun u => (hperm u).nodup_iff.mpr (h.nodup u), fun u v b hu hv => ?_, fun u b hb => ?_⟩
  · exact h.unique u v b ((hperm u).mem_iff.mp hu) ((hperm v).mem_iff.mp hv)
  · have hb' := (hperm u).mem_iff.mp hb
    rw [hflag u b hb']
    exact h.flagged u b hb'

/-- An agent takes a thing that is free. -/
theorem take (hfree : flag a = false)
    (hother : ∀ u, u ≠ t → own' u = own u) (hself : (own' t).Perm (a :: own t))
    (hset : flag' a = true) (hflag : ∀ b, b ≠ a → flag' b = flag b) : Exclusive own' flag' := by
  have hnot : ∀ u, a ∉ own u := fun u => h.not_mem hfree
  have hmem : ∀ u b, b ∈ own' u → (b = a ∧ u = t) ∨ b ∈ own u := by
    intro u b hb
    rcases eq_or_ne u t with rfl | hu
    · rcases List.mem_cons.mp (hself.mem_iff.mp hb) with rfl | hb
      · exact .inl ⟨rfl, rfl⟩
      · exact .inr hb
    · rw [hother u hu] at hb
      exact .inr hb
  refine ⟨fun u => ?_, fun u v b hu hv => ?_, fun u b hb => ?_⟩
  · rcases eq_or_ne u t with rfl | hu
    · exact hself.nodup_iff.mpr (List.nodup_cons.mpr ⟨hnot u, h.nodup u⟩)
    · rw [hother u hu]
      exact h.nodup u
  · rcases hmem u b hu with ⟨rfl, rfl⟩ | hu <;> rcases hmem v b hv with ⟨hb, rfl⟩ | hv
    · rfl
    · exact absurd hv (hnot v)
    · exact absurd (hb ▸ hu) (hnot u)
    · exact h.unique u v b hu hv
  · by_cases hba : b = a
    · exact hba ▸ hset
    · rw [hflag b hba]
      exact h.flagged u b ((hmem u b hb).resolve_left fun hb => hba hb.1)

/-- An agent leaves a thing it has taken; its flag no longer matters. -/
theorem leave (hother : ∀ u, u ≠ t → own' u = own u)
    (hself : (own t).Perm (a :: own' t)) (hflag : ∀ b, b ≠ a → flag' b = flag b) :
    Exclusive own' flag' := by
  have hnodup : (a :: own' t).Nodup := hself.nodup_iff.mp (h.nodup t)
  have hown : a ∈ own t := hself.mem_iff.mpr (.head _)
  have hmem : ∀ u b, b ∈ own' u → b ∈ own u ∧ b ≠ a := by
    intro u b hb
    rcases eq_or_ne u t with rfl | hu
    · refine ⟨hself.mem_iff.mpr (.tail a hb), ?_⟩
      rintro rfl
      exact (List.nodup_cons.mp hnodup).1 hb
    · rw [hother u hu] at hb
      refine ⟨hb, ?_⟩
      rintro rfl
      exact h.not_mem_of_ne hown hu hb
  refine ⟨fun u => ?_, fun u v b hu hv => ?_, fun u b hb => ?_⟩
  · rcases eq_or_ne u t with rfl | hu
    · exact (List.nodup_cons.mp hnodup).2
    · rw [hother u hu]
      exact h.nodup u
  · exact h.unique u v b (hmem u b hu).1 (hmem v b hv).1
  · rw [hflag b (hmem u b hb).2]
    exact h.flagged u b (hmem u b hb).1

end

end Exclusive
