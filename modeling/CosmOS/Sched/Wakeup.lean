import CosmOS.Sched.SingleOwner

/-!
# No lost wakeup

A task that published itself as `Interruptible` and was woken after that publication does not stay
blocked: once no operation on it is in progress it is `Running`, or `Runnable` and in exactly one
runqueue, `current` slot or pending-release slot (`no_lost_wakeup`).  `WakeInv` says that a woken
task does not sleep, the ownership invariant where a task that is awake can be.
-/

namespace CosmOS.Sched

variable {maxHarts : ℕ}

section Settled

variable {s : State maxHarts} {call : Call maxHarts} {t : Tid}

/-! ## Settled tasks -/

/-- The three places that can hold a runnable task. -/
inductive Place (maxHarts : ℕ)
  | rq (h : Hart maxHarts)
  | current (h : Hart maxHarts)
  | pending (h : Hart maxHarts)
deriving DecidableEq

def State.HeldIn (s : State maxHarts) (t : Tid) : Place maxHarts → Prop
  | .rq h => (s.rqs h).linkCount t ≠ 0
  | .current h => s.current h = some t
  | .pending h => s.pending h = some t

/-- The hart is between two critical sections of an operation on the task. -/
def HartPc.busyWith : HartPc → Tid → Bool
  | .popped t, u | .stolen t _, u | .stolenMin t _ _, u | .picked t, u | .suspending t _ _, u
  | .blocking t _, u | .restoring t, u | .boosting t, u | .deferring t, u | .releasing t, u
  | .requeueing t, u | .requeueLinking t, u | .exiting t, u => u = t
  | .idle, _ | .stealing _, _ | .running _, _ | .prepared _, _ | .switching _, _
  | .exited, _ => false

open HartPc

/-- No operation on the task is in progress. -/
structure Settled (s : State maxHarts) (t : Tid) : Prop where
  calls : ∀ c call, s.calls c = some call → call.task ≠ t
  harts : ∀ h, (s.pc h).busyWith t = false

theorem Call.task_of_requeues (hr : call.requeues t = true) : call.task = t := by
  cases call <;> simp_all [Call.requeues, Call.task]

theorem Call.task_of_limbo (hl : call.limbo t = true) : call.task = t := by
  unfold Call.limbo at hl
  split at hl
  · exact (of_decide_eq_true hl).symm
  · contradiction

variable {pc : HartPc} {x : Owner maxHarts}

theorem HartPc.busyWith_of_requeues (hr : pc.requeues t = true) : pc.busyWith t = true := by
  cases pc <;> simp_all [requeues, busyWith]

/-- A hart that is not busy with the task in its hands has it in a slot. -/
theorem HartPc.slot_of_hold (hb : pc.busyWith t = false) (hh : pc.hold t ≠ .no) :
    pc.currentTask = some t ∨ pc.pendingTask = some t := by
  cases pc <;>
    simp_all [hold, busyWith, currentTask, pendingTask]

/-- A settled runnable task that was admitted is in a runqueue or in the hands of a hart. -/
theorem Settled.owner (hs : Settled s t) (hx : Owned s t x)
    (hadm : s.admitted t = true) (hrun : (s.tasks t).status = .runnable) :
    (∃ h, x = .rq h) ∨ ∃ h, x.hold h ≠ .no := by
  cases x with
  | nobody =>
    rcases hx.requeued rfl hadm hrun with ⟨h, hr⟩ | ⟨c, call, hc, hr⟩
    · exact absurd (busyWith_of_requeues hr) (by rw [hs.harts h]; decide)
    · exact absurd (Call.task_of_requeues hr) (hs.calls c call hc)
  | rq h => exact .inl ⟨h, rfl⟩
  | popped h | cpu h => exact .inr ⟨h, by simp [Owner.hold]⟩
  | limbo c =>
    have hc := hx.limbo c
    simp only [Owner.inLimbo] at hc
    rcases (Option.any_eq_true _ _).mp hc with ⟨call, hcall, hl⟩
    exact absurd (Call.task_of_limbo hl) (hs.calls c call hcall)

/-- The places that hold a task agree with its owner. -/
theorem Inv.owner_of_heldIn (hi : Inv s) (hx : Owned s t x)
    {p : Place maxHarts} (hp : s.HeldIn t p) :
    match p with
    | .rq h => x = .rq h
    | .current h => x = .cpu h ∧ (s.pc h).currentTask = some t
    | .pending h => x = .cpu h ∧ (s.pc h).pendingTask = some t := by
  cases p with
  | rq h =>
    have hlink : (s.rqs h).linkCount t ≠ 0 := hp
    rw [hx.link h] at hlink
    by_contra hne
    exact hlink (if_neg hne)
  | current h =>
    have hcur : s.current h = some t := hp
    refine ⟨Owner.hold_cpu ((hx.hold h).symm.trans (hi.onCpu_of_current hcur)), ?_⟩
    exact (hi.current h).symm.trans hcur
  | pending h =>
    have hpend : (s.pc h).pendingTask = some t := (hi.pending h).symm.trans hp
    refine ⟨Owner.hold_cpu ((hx.hold h).symm.trans ?_), hpend⟩
    cases hpc : s.pc h <;> simp_all [pendingTask, hold]

/-- No hart has two slots filled. -/
theorem HartPc.not_both_slots (hc : pc.currentTask = some t) : pc.pendingTask ≠ some t := by
  cases pc <;> simp_all [currentTask, pendingTask]

/-- A task is in at most one place. -/
theorem Inv.heldIn_unique (hi : Inv s) {p q : Place maxHarts} (hp : s.HeldIn t p)
    (hq : s.HeldIn t q) : q = p := by
  rcases hi.owned t with ⟨x, hx⟩
  have hxp := hi.owner_of_heldIn hx hp
  have hxq := hi.owner_of_heldIn hx hq
  cases p with
  | rq h =>
    have hx₁ : x = .rq h := hxp
    subst hx₁
    cases q with
    | rq h' =>
      have heq : h = h' := by simpa using hxq
      rw [heq]
    | current h' | pending h' => exact absurd hxq.1 (by simp)
  | current h =>
    obtain ⟨hx₁, hcur⟩ := hxp
    subst hx₁
    cases q with
    | rq h' => simp at hxq
    | current h' =>
      have heq : h = h' := by simpa using hxq.1
      rw [heq]
    | pending h' =>
      have heq : h = h' := by simpa using hxq.1
      subst heq
      exact absurd hxq.2 (not_both_slots hcur)
  | pending h =>
    obtain ⟨hx₁, hpend⟩ := hxp
    subst hx₁
    cases q with
    | rq h' => simp at hxq
    | current h' =>
      have heq : h = h' := by simpa using hxq.1
      subst heq
      exact absurd hpend (not_both_slots hxq.2)
    | pending h' =>
      have heq : h = h' := by simpa using hxq.1
      rw [heq]

/-- **No lost wakeup.** If a wakeup of `t` that started after its latest publication has returned,
and no operation on `t` is in progress, then `t` is running, or runnable and held by exactly one
runqueue, `current` slot or pending-release slot. -/
theorem no_lost_wakeup (h : (machine maxHarts).Reachable s) (hs : Settled s t)
    (hpub : 0 < s.published t) (hwoken : s.woken t = s.published t) :
    (s.tasks t).status = .running ∨ ((s.tasks t).status = .runnable ∧ ∃! p, s.HeldIn t p) := by
  obtain ⟨hi, hw⟩ := inv_of_reachable h
  have hawake : (s.tasks t).status.isSleeping ≠ true := by
    intro hsleep
    exact absurd (hw.asleep t hsleep) (by rw [hwoken]; exact lt_irrefl _)
  cases hstatus : (s.tasks t).status with
  | running => exact .inl rfl
  | interruptible | uninterruptible => exact absurd rfl (hstatus ▸ hawake)
  | zombie => exact absurd hstatus (hw.alive t)
  | runnable =>
    refine .inr ⟨rfl, ?_⟩
    rcases hi.owned t with ⟨x, hx⟩
    have hplace : ∃ p, s.HeldIn t p := by
      rcases hs.owner hx (hw.admitted t hpub) hstatus with ⟨h, rfl⟩ | ⟨h, hh⟩
      · refine ⟨.rq h, ?_⟩
        change (s.rqs h).linkCount t ≠ 0
        rw [hx.link h]
        simp [Owner.links]
      · rcases HartPc.slot_of_hold (hs.harts h) (hx.hold h ▸ hh) with hcur | hpend
        · exact ⟨.current h, (hi.current h).trans hcur⟩
        · exact ⟨.pending h, (hi.pending h).trans hpend⟩
    rcases hplace with ⟨p, hp⟩
    exact ⟨p, hp, fun q hq => hi.heldIn_unique hp hq⟩

end Settled

local instance twoHarts : NeZero 2 := ⟨two_ne_zero⟩

/-- Hart 0 blocks task 0 while hart 1 wakes it: the wake arrives after `take_current_task` and
the status commit, spins until the switch is over, and links the task on hart 1. -/
def wokenWhileBlocking : List (Label 2) :=
  addFirstTask 0 ++ [.sched 0, .sched 0, .sched 0, .publish 0, .block 0 false, .sched 0, .wake 1 0 1,
    .call 1, .call 1, .sched 0, .sched 0, .sched 0, .call 1, .callLink 1 1 none]

theorem no_lost_wakeup_blocking : ∃ s, (machine 2).Reachable s ∧
    (Settled s 0 ∧ 0 < s.published 0 ∧ s.woken 0 = s.published 0) ∧
    ((s.tasks 0).status = .running ∨ ((s.tasks 0).status = .runnable ∧ ∃! p, s.HeldIn 0 p)) := by
  have htest : ((machine 2).run (State.boot 0) wokenWhileBlocking).any (fun s =>
      decide ((∀ h, (s.pc h).busyWith 0 = false) ∧ s.calls 0 = none ∧ s.calls 1 = none ∧
        0 < s.published 0 ∧ s.woken 0 = s.published 0)) = true := by
    decide
  rcases (Option.any_eq_true _ _).mp htest with ⟨s, hrun, hs⟩
  obtain ⟨hharts, hcall₀, hcall₁, hpub, hwoken⟩ := of_decide_eq_true hs
  -- The run uses the call names 0 and 1 only.
  have hcalls : ∀ c, s.calls c = none := by
    rintro (_ | _ | c)
    · exact hcall₀
    · exact hcall₁
    · have hother : ((machine 2).run (State.boot 0) wokenWhileBlocking).any (fun s =>
          decide (s.calls (c + 2) = none)) = true := by
        rfl
      rw [hrun] at hother
      exact of_decide_eq_true hother
  have hsettled : Settled s 0 := by
    refine ⟨?_, hharts⟩
    intro c call hc
    rw [hcalls c] at hc
    contradiction
  have hreach := Machine.reachable_of_run (State.boot_isInitial 0) hrun
  exact ⟨s, hreach, ⟨hsettled, hpub, hwoken⟩, no_lost_wakeup hreach hsettled hpub hwoken⟩

end CosmOS.Sched
