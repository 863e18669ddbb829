import CosmOS.Signal.Steps

/-!
# Signal.Hint — a clear hint means that there is nothing to do

`execve` marks a sibling `Zombie` and takes it out of the task table once it is off its CPU, but a
dispatch, a `prepare_to_wait` or a block that was under way stores another status over the mark.  The
sibling then runs on without being in the table, and no sender to the process finds it
(`hint_misses_signal`).  In runs in which no such section meets a `Zombie` the hint is sound
(`hint_sound`).
-/

namespace CosmOS.Signal

theorem boot_inv : Inv boot := by
  have hexit : ∀ t, (boot.tasks t).exitCode = false := by
    intro t
    rcases eq_or_ne t 0 with rfl | ht
    · rfl
    · simp [boot, ht]
  have hpc : ∀ t, (boot.tasks t).pc = if t = 0 then .free else .unborn := by
    intro t
    rcases eq_or_ne t 0 with rfl | ht
    · rfl
    · simp [boot, ht]
  constructor
  · intro t hneeded
    refine absurd hneeded ?_
    rcases eq_or_ne t 0 with rfl | ht
    · decide
    · simp [boot, ht, Task.needed, signalWorkNeeded, State.procOf]
  · intro t hmem
    rcases eq_or_ne t 0 with rfl | ht
    · exact absurd (by decide) hmem
    · exact .inl (by rw [hpc, if_neg ht]; trivial)
  · intro pid t hmem
    have ht : t = 0 := by
      by_cases hpid : pid = 0
      · simpa [boot, hpid] using hmem
      · simp [boot, hpid] at hmem
    rw [hpc, if_pos ht]
    rintro ⟨⟩
  · intro t h
    rw [hexit] at h
    cases h
  · intro t pending mask restore h
    rw [hpc] at h
    split at h <;> cases h
  · intro t pc h
    rw [hpc] at h
    split at h <;> cases h

variable {s : State}

theorem inv_of_reach (h : machine.Reach Careful s) : Inv s := by
  refine h.invariant ?_ ?_
  · rintro s rfl
    exact boot_inv
  · intro s l s' hinv hl hnext
    exact (next_effect hinv hl hnext).inv hinv

/-- `t` takes one of the two tests on the way to user mode and finds the hint clear. -/
def PassesTest (s : State) (t : TaskId) : Prop :=
  ((next s (.testFatal t)).isSome ∨ (next s (.testSignals t)).isSome) ∧
    (s.tasks t).signalWorkPending = false

instance (s : State) (t : TaskId) : Decidable (PassesTest s t) := inferInstanceAs (Decidable (_ ∧ _))

theorem PassesTest.at {t : TaskId} (h : PassesTest s t) : s.At t .free := by
  by_contra hat
  rcases h.1 with htest | htest
  · simp [next, testHint, hat] at htest
  · simp [next, testHint, hat] at htest

theorem not_needed_iff {task : Task} {p : Process} :
    task.needed p = false ↔ deliverable task p = ∅ ∧ task.signalMaskBackup = none := by
  simp [Task.needed, signalWorkNeeded, deliverable, and_comm]

/-- In a run in which no dispatch, `prepare_to_wait` or block meets a `Zombie`, a task that passes a test
with its hint clear, while no sender is about to set it, has no signal to deliver and no mask to put
back. -/
theorem hint_sound {s : State} (h : machine.Reach Careful s) {t : TaskId} (hpass : PassesTest s t)
    (hsender : ¬ s.Owed t) :
    deliverable (s.tasks t) (s.procOf t) = ∅ ∧ (s.tasks t).signalMaskBackup = none := by
  have hat := hpass.at
  rw [← not_needed_iff, ← Bool.not_eq_true]
  intro hneeded
  rcases (inv_of_reach h).hint t hneeded with hset | howed | hout
  · rw [hpass.2] at hset
    cases hset
  · exact hsender howed
  · -- A task on a hart is not gone.
    have hoff := (hout.gone (live_of_at hat live_free)).2
    rw [hat.1] at hoff
    cases hoff

/-- A signal is sent, its sender leaves, and the task consumes the signal. -/
def consumingRun : List Label :=
  [.sendProcess 0 0 {sigusr1}, .mark 0, .mark 0, .testSignals 0, .step 0]

theorem hint_sound_consumed : ∃ s, machine.Reach Careful s ∧ PassesTest s 0 ∧
    deliverable (s.tasks 0) (s.procOf 0) = ∅ ∧ (s.tasks 0).signalMaskBackup = none := by
  obtain ⟨s, hrun, hpass⟩ := (Option.any_eq_true (fun s => decide (PassesTest s 0))
    (machine.runWhile Careful boot consumingRun)).mp (by decide)
  have hpass := of_decide_eq_true hpass
  have hreach : machine.Reach Careful s := Machine.reach_of_runWhile rfl hrun
  refine ⟨s, hreach, hpass, hint_sound hreach hpass ?_⟩
  rintro ⟨c, hc⟩
  cases hrun
  rcases c with _ | c <;> cases hc

/-- `execve` of task 0 marks task 1 between its pick and its dispatch.  The dispatch stores `Running`; the
task is switched out once, which lets `execve` take it from the table, and runs on. -/
def strayRun : List Label :=
  [.create 1 0 ∅, .attachRead 1, .attach 1, .addTask 1, .pick 1,
   .execve 0, .step 0, .step 0, .step 0, .step 0,
   .dispatch 1, .suspend 1, .release 1,
   .step 0, .step 0, .pick 1, .dispatch 1,
   .sendProcess 0 0 {sigusr1}, .mark 0, .mark 0]

/-- A task passes the test although a signal is pending for its process and no sender is under way. -/
theorem hint_misses_signal : ∃ s t, machine.Reachable s ∧ PassesTest s t ∧ ¬ s.Owed t ∧
    deliverable (s.tasks t) (s.procOf t) ≠ ∅ := by
  obtain ⟨s, hrun, hp⟩ := (Option.any_eq_true
    (fun s => decide (PassesTest s 1 ∧ deliverable (s.tasks 1) (s.procOf 1) ≠ ∅))
    (machine.run boot strayRun)).mp (by decide)
  obtain ⟨hpass, hpending⟩ := of_decide_eq_true hp
  refine ⟨s, 1, Machine.reachable_of_run rfl hrun, hpass, ?_, hpending⟩
  rintro ⟨c, hc⟩
  cases hrun
  rcases c with _ | c <;> cases hc

end CosmOS.Signal
