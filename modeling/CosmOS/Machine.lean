import Mathlib

/-!
# Machine — labelled machines and guarded runs

A general layer for step models of concurrent programs.  It names nothing of any program.

* `Machine σ ℓ`: initial states and, for every label, a partial step function.  A label says
  which agent moves and carries whatever the agent reads from its environment.
* `Step ok`, `Path ok`, `Reach ok`: the runs all of whose steps meet the condition `ok` in the
  state they are taken from.  `Reachable` is the case without a condition.
* `Reach.invariant`, `Path.invariant`: the induction rules every safety proof goes through.
* `run`, `runWhile`: execution of a list of labels, so that a concrete run is a computation and
  `reachable_of_run`, `reach_of_runWhile` turn its result into a reachable state.
-/

universe u v

/-- A machine: a predicate for its initial states, and for every label a partial step. -/
structure Machine (σ : Type u) (ℓ : Type v) where
  Init : σ → Prop
  next : σ → ℓ → Option σ

namespace Machine

open Option

variable {σ : Type u} {ℓ : Type v} (M : Machine σ ℓ) (ok : σ → ℓ → Prop)

/-- One step whose label meets `ok` in the state it is taken from. -/
def Step (s s' : σ) : Prop :=
  ∃ l, ok s l ∧ M.next s l = some s'

/-- Finitely many steps, each meeting `ok`. -/
def Path : σ → σ → Prop :=
  Relation.ReflTransGen (M.Step ok)

/-- The states reached from an initial one by steps that all meet `ok`. -/
def Reach (s : σ) : Prop :=
  ∃ s₀, M.Init s₀ ∧ M.Path ok s₀ s

/-- The condition every step meets. -/
def anyStep : σ → ℓ → Prop := fun _ _ => True

/-- The states reached by arbitrary runs. -/
def Reachable (s : σ) : Prop := M.Reach anyStep s

variable {M} {ok ok' : σ → ℓ → Prop} {P : σ → Prop} {s s' s₀ : σ} {l : ℓ}

/-! ## Induction rules -/

section

variable (hok : ∀ s l, ok s l → ok' s l)

include hok

theorem Step.mono (h : M.Step ok s s') : M.Step ok' s s' := by
  obtain ⟨l, hl, hn⟩ := h
  exact ⟨l, hok s l hl, hn⟩

theorem Path.mono (h : M.Path ok s s') : M.Path ok' s s' :=
  Relation.ReflTransGen.mono (fun _ _ => Step.mono hok) _ _ h

theorem Reach.mono (h : M.Reach ok s) : M.Reach ok' s := by
  obtain ⟨s₀, hinit, hpath⟩ := h
  exact ⟨s₀, hinit, hpath.mono hok⟩

end

theorem Reach.init (h : M.Init s) : M.Reach ok s :=
  ⟨s, h, Relation.ReflTransGen.refl⟩

theorem Reach.trans (h : M.Reach ok s) (hp : M.Path ok s s') : M.Reach ok s' := by
  obtain ⟨s₀, hinit, hpath⟩ := h
  exact ⟨s₀, hinit, Relation.ReflTransGen.trans hpath hp⟩

theorem Reach.next (h : M.Reach ok s) (hl : ok s l) (hn : M.next s l = some s') : M.Reach ok s' :=
  h.trans (Relation.ReflTransGen.single ⟨l, hl, hn⟩)

/-- What every step keeps, a whole run keeps. -/
theorem Path.invariant (hstep : ∀ s l s', P s → ok s l → M.next s l = some s' → P s')
    (hs : P s) (h : M.Path ok s s') : P s' := by
  induction h with
  | refl => exact hs
  | tail _ hlast ih =>
    obtain ⟨l, hl, hn⟩ := hlast
    exact hstep _ l _ ih hl hn

/-- A predicate that holds initially and is kept by every step holds in every reached state. -/
theorem Reach.invariant (hinit : ∀ s, M.Init s → P s)
    (hstep : ∀ s l s', P s → ok s l → M.next s l = some s' → P s') (h : M.Reach ok s) : P s := by
  obtain ⟨s₀, h₀, hpath⟩ := h
  exact hpath.invariant hstep (hinit s₀ h₀)

/-- A condition that follows from the one of the run in the states of the run. -/
theorem Reach.imp (hok : ∀ s l, M.Reach ok s → ok s l → ok' s l) (h : M.Reach ok s) :
    M.Reach ok' s := by
  obtain ⟨s₀, hinit, hpath⟩ := h
  induction hpath with
  | refl => exact Reach.init hinit
  | tail hpath hlast ih =>
    obtain ⟨l, hl, hn⟩ := hlast
    exact ih.next (hok _ l ⟨s₀, hinit, hpath⟩ hl) hn

/-! ## Executable runs -/

/-- Execute the labels in order; `none` when one of them is not enabled. -/
def run (M : Machine σ ℓ) : σ → List ℓ → Option σ
  | s, [] => some s
  | s, l :: ls => (M.next s l).bind fun s' => M.run s' ls

/-- Execute the labels in order, stopping with `none` at one that does not meet `ok`. -/
def runWhile (M : Machine σ ℓ) (ok : σ → ℓ → Prop) [∀ s l, Decidable (ok s l)] :
    σ → List ℓ → Option σ
  | s, [] => some s
  | s, l :: ls => if ok s l then (M.next s l).bind fun s' => M.runWhile ok s' ls else none

variable {ls : List ℓ}

theorem path_of_runWhile [∀ s l, Decidable (ok s l)] (h : M.runWhile ok s ls = some s') : M.Path ok s s' := by
  induction ls generalizing s with
  | nil =>
    obtain rfl : s = s' := some.inj h
    exact Relation.ReflTransGen.refl
  | cons l ls ih =>
    rw [runWhile] at h
    split at h
    next hl =>
      obtain ⟨s₁, hn, hrest⟩ := bind_eq_some_iff.mp h
      exact Relation.ReflTransGen.head ⟨l, hl, hn⟩ (ih hrest)
    · exact absurd h (some_ne_none s').symm

theorem path_of_run (h : M.run s ls = some s') : M.Path anyStep s s' := by
  induction ls generalizing s with
  | nil =>
    obtain rfl : s = s' := some.inj h
    exact Relation.ReflTransGen.refl
  | cons l ls ih =>
    obtain ⟨s₁, hn, hrest⟩ := bind_eq_some_iff.mp h
    exact Relation.ReflTransGen.head ⟨l, trivial, hn⟩ (ih hrest)

theorem reachable_of_run (hinit : M.Init s₀) (h : M.run s₀ ls = some s) : M.Reachable s :=
  ⟨s₀, hinit, path_of_run h⟩

theorem reach_of_runWhile [∀ s l, Decidable (ok s l)] (hinit : M.Init s₀)
    (h : M.runWhile ok s₀ ls = some s) : M.Reach ok s :=
  ⟨s₀, hinit, path_of_runWhile h⟩

/-- A test that the result of a concrete run passes holds in some reachable state. -/
theorem exists_reachable_of_run (M : Machine σ ℓ) (P : σ → Prop) [DecidablePred P] (ls : List ℓ)
    (hinit : M.Init s₀) (h : (M.run s₀ ls).any (fun s => decide (P s)) = true) :
    ∃ s, M.Reachable s ∧ P s := by
  obtain ⟨s, hrun, hs⟩ := (any_eq_true _ _).mp h
  exact ⟨s, reachable_of_run hinit hrun, of_decide_eq_true hs⟩

/-- The same for a run whose steps are checked against `ok` on the way. -/
theorem exists_reach_of_runWhile (M : Machine σ ℓ) (ok : σ → ℓ → Prop)
    [∀ s l, Decidable (ok s l)] (P : σ → Prop) [DecidablePred P] (ls : List ℓ) (hinit : M.Init s₀)
    (h : (M.runWhile ok s₀ ls).any (fun s => decide (P s)) = true) : ∃ s, M.Reach ok s ∧ P s := by
  obtain ⟨s, hrun, hs⟩ := (any_eq_true _ _).mp h
  exact ⟨s, reach_of_runWhile hinit hrun, of_decide_eq_true hs⟩

end Machine
