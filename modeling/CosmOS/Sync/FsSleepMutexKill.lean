import CosmOS.Sync.FsSleepMutexSafety

/-!
# Sync.FsSleepMutexKill — threads that are killed with a mutex

`exit_group` and `execve` of one thread remove the other threads of the process: they are marked `Zombie`,
taken out of the wait queue and out of the runqueue, and never scheduled again.  Neither looks at the mutexes
of the filesystem.  A waiter that finds a fatal signal exits by itself, with whatever it holds.

* `kill` is the section that marks the task, taken for a task that sleeps or is in a runqueue.  A task on a
  hart runs on to its next scheduling transition; for it the step is taken there.
* `Zombie` is like `running` for `wakeup_task` and for the test of a waiter, so no status is added.
* A task that holds a mutex may sleep, as it does for block I/O; that is a task at `held` that is not run.

`killed_without_mutex`: if every task that is killed holds no mutex and is in no call, or only sleeps for a
mutex that was not handed to it, then the owner of a mutex is alive, and so is the task that a mutex is handed
to.  `killed_with_mutex` is what happens otherwise.

A dead waiter stays in the queue until it is removed, and an `unlock` that takes it out goes on to the next
one.  So the argument is about the mutex as it would be without the dead tasks (`buried`): each step of a
task that is alive is a step of that mutex, or shows nothing there.
-/

namespace CosmOS.FsSleepMutex.Kill

open Function

abbrev Key := ℕ

structure State where
  mutex : Key → FsSleepMutex.State
  killed : TaskId → Bool

def State.kill (s : State) (t : TaskId) : State where
  mutex k := (s.mutex k).setStatus t .running
  killed := update s.killed t true

inductive Label where
  | call (k : Key) (l : FsSleepMutex.Label)
  | kill (t : TaskId)
  /-- `remove_waiter` of the killer, on the queue that the handle of the task names. -/
  | removeWaiter (k : Key) (t : TaskId)

/-- The step is the exit of `fs_sleep_mutex_wait`, on a fatal signal. -/
def exits (m : FsSleepMutex.State) : FsSleepMutex.Label → Bool
  | .run t fatal => m.pc t = .waitTest && m.locked && fatal
  | _ => false

def next (s : State) : Label → Option State
  | .call k l =>
    if s.killed l.mover then none
    else (FsSleepMutex.next (s.mutex k) l).map fun m =>
      let s' := { s with mutex := update s.mutex k m }
      if exits (s.mutex k) l then s'.kill l.mover else s'
  | .kill t => some (s.kill t)
  | .removeWaiter k t =>
    if s.killed t then some { s with mutex := update s.mutex k ((s.mutex k).unlink t) } else none

def machine : Machine State Label where
  Init s := s = ⟨fun _ => boot, fun _ => false⟩
  next := next

/-- The task is in no call and has no mutex, or it sleeps and no `unlock` has settled on it. -/
def Spared (m : FsSleepMutex.State) (t : TaskId) : Prop :=
  m.pc t = .idle ∨
    m.pc t = .asleep ∧ m.handoff ≠ some t ∧ ∀ u, m.pc u ≠ .unlockRelease (some t)

/-- A task that is killed has no mutex and is to get none; a task that exits in a call has no other mutex;
and an `unlock` that found no state stores alone. -/
def KillsIdle (s : State) : Label → Prop
  | .call k l => StoresAlone (s.mutex k) l ∧
      (exits (s.mutex k) l = true → ∀ k', k' ≠ k → (s.mutex k').pc l.mover = .idle)
  | .kill t => ∀ k, Spared (s.mutex k) t
  | .removeWaiter _ _ => True

/-! ## The mutex without the dead -/

/-- An `unlock` that has a dead task in its hands goes on to the next one. -/
def buriedPc (dead : TaskId → Bool) : Pc → Pc
  | .unlockCheck w => if dead w then .unlockPop else .unlockCheck w
  | k => k

/-- The mutex as it would be without the dead tasks. -/
def buried (dead : TaskId → Bool) (m : FsSleepMutex.State) : FsSleepMutex.State :=
  { m with
    queue := m.queue.filter (!dead ·)
    status := fun t => if dead t then .running else m.status t
    pc := fun t => if dead t then .idle else buriedPc dead (m.pc t) }

variable {s s' : State} {l : Label} {dead : TaskId → Bool} {m m₁ : FsSleepMutex.State} {t u w : TaskId}
  {k : Key} {pc pc' : Pc} {x : TaskStatus}

/-- Burying shows in no class of positions that has both steps of an `unlock` or neither. -/
theorem map_buriedPc (f : Pc → Bool) (hf : ∀ w, f (.unlockCheck w) = f .unlockPop) :
    f (buriedPc dead pc) = f pc := by
  cases pc with
  | unlockCheck w =>
    dsimp only [buriedPc]
    split
    · exact (hf w).symm
    · rfl
  | _ => rfl

theorem eq_of_buriedPc (h : buriedPc dead pc = pc') (hpop : pc' ≠ .unlockPop) : pc = pc' := by
  cases pc with
  | unlockCheck w =>
    dsimp only [buriedPc] at h
    split at h
    · exact absurd h.symm hpop
    · exact h
  | _ => exact h

theorem buried_pc (ht : dead t = false) : (buried dead m).pc t = buriedPc dead (m.pc t) := by
  simp [buried, ht]

theorem buried_goto (ht : dead t = false) :
    buried dead (m.goto t pc) = (buried dead m).goto t (buriedPc dead pc) := by
  unfold buried FsSleepMutex.State.goto
  congr 1
  funext u
  by_cases hu : u = t
  · simp [hu, ht]
  · simp [hu]

theorem buried_setStatus (ht : dead t = false) :
    buried dead (m.setStatus t x) = (buried dead m).setStatus t x := by
  unfold buried FsSleepMutex.State.setStatus
  congr 1
  funext u
  by_cases hu : u = t
  · simp [hu, ht]
  · simp [hu]

theorem buried_unlink : buried dead (m.unlink w) = (buried dead m).unlink w := by
  unfold buried FsSleepMutex.State.unlink
  congr 1
  exact List.filter_comm ..

/-- The dead are out of the queue already. -/
theorem buried_unlink_dead (hw : dead w = true) : buried dead (m.unlink w) = buried dead m := by
  unfold buried FsSleepMutex.State.unlink
  congr 1
  rw [List.filter_filter]
  refine List.filter_congr fun u _ => ?_
  by_cases hu : u = w
  · simp [hu, hw]
  · simp [hu]

/-- A wakeup of the dead shows nowhere. -/
theorem buried_wakeup : buried dead (m.wakeup w) = (buried dead m).wakeup w := by
  unfold buried FsSleepMutex.State.wakeup FsSleepMutex.State.setStatus
  congr 1
  funext u
  by_cases hu : u = w
  · cases hw : dead w <;> simp [hu, hw]
  · simp [hu]

/-- A step of a task that is alive is a step of the mutex without the dead, or shows nothing there: an
`unlock` takes a dead task out of the queue, or finds that it does not wait. -/
theorem buried_does (ht : dead t = false) (hdead : ∀ w, dead w = true → m.status w ≠ .interruptible)
    (h : Does m t pc pc' m₁) :
    Does (buried dead m) t (buriedPc dead pc) (buriedPc dead pc') (buried dead m₁) ∨
      buriedPc dead pc' = buriedPc dead pc ∧ buried dead m₁ = buried dead m := by
  have halive : (buried dead m).status t = m.status t := by simp [buried, ht]
  cases h with
  | pop w rest hqueue =>
    cases hw : dead w with
    | false =>
      left
      have hpc : buriedPc dead (.unlockCheck w) = .unlockCheck w := by simp [buriedPc, hw]
      rw [hpc]
      exact .pop w (rest.filter (!dead ·)) (by simp [buried, hqueue, hw])
    | true =>
      right
      simp [buriedPc, buried, hqueue, hw]
  | waits w hst =>
    have hw : dead w = false := by
      rw [← Bool.not_eq_true]
      exact fun hw => hdead w hw hst
    left
    have hpc : buriedPc dead (.unlockCheck w) = .unlockCheck w := by simp [buriedPc, hw]
    rw [hpc]
    exact .waits w (by simp [buried, hw, hst])
  | gone w hst =>
    cases hw : dead w with
    | false =>
      left
      have hpc : buriedPc dead (.unlockCheck w) = .unlockCheck w := by simp [buriedPc, hw]
      rw [hpc]
      exact .gone w (by simp [buried, hw, hst])
    | true => exact .inr ⟨by simp [buriedPc, hw], rfl⟩
  | popNone hqueue => exact .inl (.popNone (by simp [buried, hqueue]))
  | prepare =>
    left
    have hst := buried_setStatus (m := m) (x := .interruptible) ht
    have heq : buried dead { m.setStatus t .interruptible with queue := m.queue ++ [t] } =
        { (buried dead m).setStatus t .interruptible with queue := (buried dead m).queue ++ [t] } := by
      rw [← hst]
      simp [buried, FsSleepMutex.State.setStatus, ht]
    rw [heq]
    exact .prepare
  | stays => exact .inl (buried_setStatus (m := m) ht ▸ .stays)
  | wakes => exact .inl (buried_setStatus (m := m) ht ▸ .wakes)
  | sleeps hst => exact .inl (buried_setStatus (m := m) ht ▸ .sleeps (by rwa [halive]))
  | cancelTask =>
    left
    have heq : buried dead (m.cancelTask t).dropInner = ((buried dead m).cancelTask t).dropInner := by
      have hst := buried_setStatus (m := m)
        (x := if m.status t = .interruptible then .running else m.status t) ht
      unfold FsSleepMutex.State.cancelTask
      rw [halive, ← hst]
      rfl
    rw [heq]
    exact .cancelTask
  | cancel => exact .inl (buried_unlink (m := m) ▸ .cancel)
  | finish => exact .inl (buried_unlink (m := m) ▸ .finish)
  | signalUnlink w => exact .inl (buried_unlink (m := m) ▸ .signalUnlink w)
  | wake w => exact .inl (buried_wakeup (m := m) ▸ .wake w)
  | signalWake w => exact .inl (buried_wakeup (m := m) ▸ .signalWake w)
  | tryFound hp => exact .inl (.tryFound hp)
  | waitFound hp => exact .inl (.waitFound hp)
  | unlockFound hp => exact .inl (.unlockFound hp)
  | atomic hl => exact .inl (.atomic hl)
  | tryEnter c hi => exact .inl (.tryEnter c hi)
  | waitEnter hi => exact .inl (.waitEnter hi)
  | unlockEnter hi => exact .inl (.unlockEnter hi)
  | tryTakes c hg => exact .inl (.tryTakes c hg)
  | waitTakes hg => exact .inl (.waitTakes hg)
  | retryTakes hg => exact .inl (.retryTakes hg)
  | tryFails hg => exact .inl (.tryFails hg)
  | waitFails hg => exact .inl (.waitFails hg)
  | retryFails hg => exact .inl (.retryFails hg)
  | _ => exact .inl (by constructor)

/-- One more task is buried. -/
theorem buried_kill : buried (update dead t true) (m.setStatus t .running) =
    buried (· == t) (buried dead m) := by
  have hdead : ∀ u, update dead t true u = (dead u || u == t) := by
    intro u
    by_cases hu : u = t
    · simp [hu]
    · simp [hu]
  unfold buried FsSleepMutex.State.setStatus
  simp only [hdead]
  congr 1
  · rw [List.filter_filter]
    refine List.filter_congr fun u _ => ?_
    cases dead u <;> simp
  · funext u
    by_cases hu : u = t
    · simp [hu]
    · cases dead u <;> simp [hu]
  · funext u
    cases hu : dead u
    · by_cases hut : u = t
      · simp [hut]
      · cases hpc : m.pc u with
        | unlockCheck w =>
          rcases eq_or_ne w t with rfl | hwt <;> cases hw : dead w <;> simp [buriedPc, *]
        | _ => simp [buriedPc, hut]
    · by_cases hut : u = t <;> simp [buriedPc, hut]

/-! ## Burying a task that nobody counts on -/

section

variable (h : Inv m) (hspared : Spared m t)

include hspared

theorem spared_self (f : Pc → Bool) (hidle : f .idle = false) (hasleep : f .asleep = false) :
    f (m.pc t) = false := by
  rcases hspared with hpc | ⟨hpc, -⟩ <;> rw [hpc] <;> assumption

/-- Positions that an idle task and a sleeper are not at are as before. -/
theorem map_buried_pc (f : Pc → Bool) (hf : ∀ w, f (.unlockCheck w) = f .unlockPop) (hidle : f .idle = false)
    (hasleep : f .asleep = false) (u : TaskId) : f ((buried (· == t) m).pc u) = f (m.pc u) := by
  by_cases hu : u = t
  · rw [hu, spared_self hspared f hidle hasleep]
    simp [buried, hidle]
  · rw [buried_pc (by simpa using hu), map_buriedPc f hf]

include h

/-- No `unlock` hands the mutex to the task. -/
theorem spared_not_released (hu : m.pc u = .unlockRelease (some w)) : w ≠ t := by
  rintro rfl
  rcases hspared with hpc | ⟨-, -, hnot⟩
  · have hret := h.queue.popped u w (.inr hu)
    rw [hpc] at hret
    cases hret
  · exact hnot u hu

theorem spared_not_heir (hl : m.locked = false) (hr : m.handoff = some w) : w ≠ t := by
  rintro rfl
  rcases hspared with hpc | ⟨-, hnot, -⟩
  · rcases h.free.heir hl w hr with heq | ⟨hret, -⟩
    · cases hpc.symm.trans heq
    · rw [hpc] at hret
      cases hret
  · exact hnot hr

theorem ownerInv_buried : OwnerInv (buried (· == t) m) := by
  have hsame := map_buried_pc hspared Pc.owns (fun _ => rfl) rfl rfl
  refine ⟨fun u v hu hv => ?_, fun u hu => ?_, fun hl => ?_⟩
  · rw [hsame] at hu hv
    exact h.owner.unique u v hu hv
  · rw [hsame] at hu
    exact h.owner.locked u hu
  · obtain ⟨u, hu⟩ := h.owner.owned hl
    exact ⟨u, (hsame u).trans hu⟩

/-- Taking a killed task out keeps the queue consistent. -/
theorem queueInv_buried : QueueInv (buried (· == t) m) := by
  have hpc : ∀ u, u ≠ t → (buried (· == t) m).pc u = buriedPc (· == t) (m.pc u) :=
    fun u hu => buried_pc (by simpa using hu)
  have hself : (buried (· == t) m).pc t = .idle := by simp [buried]
  have hstatus : ∀ u, u ≠ t → (buried (· == t) m).status u = m.status u :=
    fun u hu => by simp [buried, hu]
  have hne : ∀ (f : Pc → Bool), f .idle = false → ∀ u, f ((buried (· == t) m).pc u) = true → u ≠ t := by
    rintro f hf u hu rfl
    rw [hself, hf] at hu
    cases hu
  have hmem : ∀ u, u ∈ (buried (· == t) m).queue ↔ u ∈ m.queue ∧ u ≠ t := by simp [buried]
  refine ⟨fun u => ?_, fun ha => ?_, fun u hu => ?_, fun u hu => ?_, fun u hu hst => ?_, fun u w hu => ?_,
    fun u hu => ?_⟩
  · rw [map_buried_pc hspared Pc.hasInner (fun _ => rfl) rfl rfl]
    exact h.queue.inner u
  · obtain ⟨hqueue, hhandoff, huses⟩ := h.queue.absent ha
    refine ⟨by simp [buried, hqueue], hhandoff, fun u => ?_⟩
    by_cases hu : u = t
    · rw [hu, hself]
      rfl
    · rw [hpc u hu, map_buriedPc Pc.usesState fun _ => rfl]
      exact huses u
  · obtain ⟨hu, hut⟩ := (hmem u).mp hu
    rw [hpc u hut, map_buriedPc Pc.linked fun _ => rfl]
    exact h.queue.queued u hu
  · have hut := hne Pc.prepared rfl u hu
    rw [hpc u hut, map_buriedPc Pc.prepared fun _ => rfl] at hu
    rw [hstatus u hut]
    exact h.queue.asleep u hu
  · have hut := hne Pc.waits rfl u hu
    rw [hpc u hut, map_buriedPc Pc.waits fun _ => rfl] at hu
    rw [hstatus u hut] at hst
    rcases h.queue.covered u hu hst with hq | ⟨v, hv⟩
    · exact .inl ((hmem u).mpr ⟨hq, hut⟩)
    · -- whoever wakes the task still has it in its hands
      have hvt : v ≠ t := by
        rintro rfl
        rcases hspared with heq | ⟨heq, -⟩ <;> rw [heq] at hv <;> exact hv
      refine .inr ⟨v, ?_⟩
      rw [hpc v hvt]
      cases hvpc : m.pc v with
      | unlockCheck w =>
        rw [hvpc] at hv
        obtain rfl : w = u := hv
        simp [buriedPc, hut, Pc.wakes]
      | _ => rwa [hvpc] at hv
  · have hut : u ≠ t := by
      rintro rfl
      rw [hself] at hu
      rcases hu with hu | hu <;> cases hu
    rw [hpc u hut] at hu
    have hwt : w ≠ t := by
      rcases hu with hu | hu
      · have heq := eq_of_buriedPc hu nofun
        rw [heq] at hu
        rintro rfl
        simp [buriedPc] at hu
      · exact spared_not_released h hspared (eq_of_buriedPc hu nofun)
    rw [hpc w hwt, map_buriedPc Pc.returns fun _ => rfl]
    exact h.queue.popped u w (hu.imp (eq_of_buriedPc · nofun) (eq_of_buriedPc · nofun))
  · have hut : u ≠ t := by
      rintro rfl
      cases hself.symm.trans hu
    rw [hpc u hut] at hu
    simp [buried, h.queue.empty u (eq_of_buriedPc hu nofun)]

theorem freeInv_buried : FreeInv (buried (· == t) m) := by
  have hpc : ∀ u, u ≠ t → (buried (· == t) m).pc u = buriedPc (· == t) (m.pc u) :=
    fun u hu => buried_pc (by simpa using hu)
  constructor
  · intro hl r hr
    have hrt := spared_not_heir h hspared hl hr
    unfold Heir
    rw [hpc r hrt, map_buriedPc Pc.returns fun _ => rfl]
    rcases h.free.heir hl r hr with heq | ⟨hret, hwoken⟩
    · exact .inl (by rw [heq]; rfl)
    · refine .inr ⟨hret, fun hpr => ?_⟩
      rcases hwoken (hpr.imp (eq_of_buriedPc · nofun) (eq_of_buriedPc · nofun)) with hst | ⟨u, hu⟩
      · exact .inl (by simpa [buried, hrt] using hst)
      · have hut : u ≠ t := by
          rintro rfl
          rcases hspared with heq | ⟨heq, -⟩ <;> cases heq.symm.trans hu
        exact .inr ⟨u, by rw [hpc u hut, hu]; rfl⟩
  · intro hl hh u hu
    rw [map_buried_pc hspared Pc.hasInner (fun _ => rfl) rfl rfl]
    exact h.free.none hl hh u (List.mem_filter.mp hu).1

theorem inv_buried : Inv (buried (· == t) m) :=
  ⟨ownerInv_buried h hspared, queueInv_buried h hspared, freeInv_buried h hspared⟩

end

/-! ## Runs -/

/-- The mutexes are in order without the dead, who own none. -/
structure KillInv (s : State) : Prop where
  mutex : ∀ k, Inv (buried s.killed (s.mutex k))
  status : ∀ t, s.killed t = true → ∀ k, (s.mutex k).status t ≠ .interruptible
  owns : ∀ t, s.killed t = true → ∀ k, ((s.mutex k).pc t).owns = false

theorem KillInv.kill (h : KillInv s) (hspared : ∀ k, Spared (s.mutex k) t) : KillInv (s.kill t) := by
  refine ⟨fun k => ?_, fun u hu k => ?_, fun u hu k => ?_⟩
  · have hburied : Spared (buried s.killed (s.mutex k)) t := by
      cases ht : s.killed t with
      | true => exact .inl (by simp [buried, ht])
      | false =>
        refine (hspared k).imp (fun hpc => ?_) fun ⟨hpc, hnot, hreleased⟩ => ⟨?_, hnot, fun u hu => ?_⟩
        · rw [buried_pc ht, hpc]
          rfl
        · rw [buried_pc ht, hpc]
          rfl
        · cases hu' : s.killed u with
          | true => simp [buried, hu'] at hu
          | false =>
            rw [buried_pc hu'] at hu
            exact hreleased u (eq_of_buriedPc hu nofun)
    exact buried_kill ▸ inv_buried (h.mutex k) hburied
  · by_cases hut : u = t
    · simp [State.kill, FsSleepMutex.State.setStatus, hut]
    · have hkilled : s.killed u = true := by simpa [State.kill, hut] using hu
      simpa [State.kill, FsSleepMutex.State.setStatus, update_of_ne hut] using h.status u hkilled k
  · by_cases hut : u = t
    · rw [hut]
      exact spared_self (hspared k) Pc.owns rfl rfl
    · exact h.owns u (by simpa [State.kill, hut] using hu) k

theorem KillInv.call {l : FsSleepMutex.Label} (h : KillInv s) (halive : s.killed l.mover = false)
    (hc : StoresAlone (s.mutex k) l) (hn : FsSleepMutex.next (s.mutex k) l = some m) :
    KillInv { s with mutex := update s.mutex k m } := by
  obtain ⟨pc, m₁, hd, rfl⟩ := next_does hn
  have hne : ∀ u, s.killed u = true → u ≠ l.mover := by
    rintro u hu rfl
    cases halive.symm.trans hu
  refine ⟨fun k' => ?_, fun u hu k' => ?_, fun u hu k' => ?_⟩ <;> dsimp only <;> by_cases hk : k' = k
  · rw [hk, update_self, buried_goto halive]
    have hinv := h.mutex k
    have hpc := buried_pc (m := s.mutex k) halive
    rcases buried_does halive (fun w hw => h.status w hw k) hd with hd' | ⟨hpc', hsame⟩
    · rw [← hpc] at hd'
      refine hinv.step hd' fun hstore => ?_
      exact hc.absent hn (eq_of_buriedPc (hpc.symm.trans hstore) nofun)
    · rw [hpc', hsame, ← hpc]
      have hstutter : (buried s.killed (s.mutex k)).goto l.mover
          ((buried s.killed (s.mutex k)).pc l.mover) = buried s.killed (s.mutex k) := by
        unfold FsSleepMutex.State.goto
        rw [update_eq_self]
      rwa [hstutter]
  · rw [update_of_ne hk]
    exact h.mutex k'
  · rw [hk, update_self]
    rcases hd.status (hne u hu) with hst | ⟨hst, -⟩
    · exact fun hint => h.status u hu k (hst.symm.trans hint)
    · exact absurd hst (h.status u hu k)
  · rw [update_of_ne hk]
    exact h.status u hu k'
  · rw [hk, update_self, next_pc hn (hne u hu)]
    exact h.owns u hu k
  · rw [update_of_ne hk]
    exact h.owns u hu k'

/-- The task that exits is left with no position in the mutex. -/
theorem exits_idle {l : FsSleepMutex.Label} (hexits : exits m l = true)
    (hn : FsSleepMutex.next m l = some m₁) : m₁.pc l.mover = .idle := by
  cases l with
  | run t fatal =>
    simp only [exits, Bool.and_eq_true, decide_eq_true_eq] at hexits
    obtain ⟨⟨hpc, hl⟩, hfatal⟩ := hexits
    simp only [FsSleepMutex.next, FsSleepMutex.State.step, hpc, hl, hfatal] at hn
    cases hn
    exact update_self ..
  | lock | unlock | signal => cases hexits

theorem KillInv.next (h : KillInv s) (hc : KillsIdle s l) (hn : next s l = some s') : KillInv s' := by
  cases l with unfold Kill.next at hn
  | call k l =>
    dsimp only at hn
    split at hn
    · cases hn
    rename_i halive
    obtain ⟨m, hm, rfl⟩ := Option.map_eq_some_iff.mp hn
    have hcall := h.call ((Bool.not_eq_true _).mp halive) hc.1 hm
    split
    next hexits =>
      refine hcall.kill fun k' => .inl ?_
      by_cases hk : k' = k
      · dsimp only
        rw [hk, update_self]
        exact exits_idle hexits hm
      · dsimp only
        rw [update_of_ne hk]
        exact hc.2 hexits k' hk
    · exact hcall
  | kill t =>
    cases hn
    exact h.kill hc
  | removeWaiter k t =>
    dsimp only at hn
    split at hn <;> cases hn
    rename_i hkilled
    refine ⟨fun k' => ?_, fun u hu k' => ?_, fun u hu k' => ?_⟩ <;> dsimp only <;> by_cases hk : k' = k
    · rw [hk, update_self, buried_unlink_dead hkilled]
      exact h.mutex k
    · rw [update_of_ne hk]
      exact h.mutex k'
    · rw [hk, update_self]
      exact h.status u hu k
    · rw [update_of_ne hk]
      exact h.status u hu k'
    · rw [hk, update_self]
      exact h.owns u hu k
    · rw [update_of_ne hk]
      exact h.owns u hu k'

theorem KillInv.of_reach (h : machine.Reach KillsIdle s) : KillInv s := by
  apply h.invariant
  · rintro s rfl
    exact ⟨fun _ => Inv.boot, nofun, nofun⟩
  · intro s l s' hinv hc hn
    exact hinv.next hc hn

def calls (k : Key) (ls : List FsSleepMutex.Label) : List Label := ls.map (.call k)

end CosmOS.FsSleepMutex.Kill
