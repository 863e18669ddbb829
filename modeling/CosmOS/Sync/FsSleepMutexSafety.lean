import CosmOS.Sync.FsSleepMutex

/-!
# Sync.FsSleepMutexSafety — one owner, and no sleeper on a free mutex

* `sleep_mutex_safe`: at most one task has the mutex, and when no call is in progress but blocked ones, a
  blocked task waits for a task that has the mutex.  The condition is that the plain store of an `unlock`
  that found no state finds none in the table either.
* `sleeper_on_free_mutex`: without it a task registers and goes to sleep between the two steps of that
  `unlock`, which then frees the mutex and wakes nobody.

The argument for the second part: a mutex that is free was left to somebody.  Whoever is named in `handoff`
is awake or about to be woken and has its next try before its next sleep, and if nobody is named then nobody
is in the queue but a task that still has `inner` and tries once more.
-/

namespace CosmOS.FsSleepMutex

open Function List Option State

variable {s s₁ s' : State} {t u w : TaskId} {k₀ k : Pc} {l : Label}

/-! ## Positions -/

def Pc.hasInner : Pc → Bool
  | .tryStateLocked _ | .waitTry | .waitPrepare | .waitRetry | .waitCancel | .waitCancelTask | .unlockPop |
    .unlockCheck _ | .unlockRelease _ => true
  | _ => false

/-- The task works with a state that it found in the table. -/
def Pc.usesState : Pc → Bool
  | .idle | .tryLookup | .tryAtomic | .waitLookup | .waitInsert | .held | .unlockLookup | .unlockStore |
    .signalUnlink _ | .signalWake _ => false
  | _ => true

/-- The task may be in the queue. -/
def Pc.linked : Pc → Bool
  | .waitRetry | .waitCancel | .block | .asleep | .finishWait => true
  | _ => false

/-- The task is past `prepare_to_wait` and has not gone on running. -/
def Pc.prepared : Pc → Bool
  | .waitRetry | .waitCancel | .waitCancelTask | .block | .asleep => true
  | _ => false

/-- The task sleeps, or is on its way to. -/
def Pc.waits : Pc → Bool
  | .waitRetry | .block | .asleep => true
  | _ => false

/-- The task has its next try before its next sleep, once it is awake. -/
def Pc.returns : Pc → Bool
  | .block | .asleep | .finishWait | .tryState .wait => true
  | _ => false

/-- The task has taken `w` out of the queue and will wake it. -/
def Pc.wakes (w : TaskId) : Pc → Prop
  | .unlockCheck w' | .unlockRelease (some w') | .unlockWake w' | .signalWake w' => w' = w
  | _ => False

/-- What a step of the task `t` does when it goes from `k₀` to `k`: the state after it, but for the
position of `t`. -/
inductive Does (s : State) (t : TaskId) : Pc → Pc → State → Prop where
  | lock : Does s t .idle .tryLookup s
  | unlock : Does s t .held .unlockLookup s
  | signal (w : TaskId) : Does s t .idle (.signalUnlink w) s
  | tryFound (h : s.present = true) : Does s t .tryLookup (.tryState .tryLock) s
  | tryMissing : Does s t .tryLookup .tryAtomic s
  | atomic (h : s.locked = false) : Does s t .tryAtomic .held { s with locked := true }
  | atomicFails : Does s t .tryAtomic .waitLookup s
  | tryEnter (c : TryCaller) (h : s.inner = none) :
      Does s t (.tryState c) (.tryStateLocked c) (s.enterInner t)
  | tryTakes (c : TryCaller) (h : s.grants t = true) :
      Does s t (.tryStateLocked c) .held s.take.dropInner
  | tryFails (h : s.grants t ≠ true) : Does s t (.tryStateLocked .tryLock) .waitLookup s.dropInner
  | waitFails (h : s.grants t ≠ true) : Does s t (.tryStateLocked .wait) .waitTest s.dropInner
  | waitFound (h : s.present = true) : Does s t .waitLookup .waitEnter s
  | waitMissing : Does s t .waitLookup .waitInsert s
  | insert : Does s t .waitInsert .waitEnter { s with present := true }
  | waitEnter (h : s.inner = none) : Does s t .waitEnter .waitTry (s.enterInner t)
  | waitTakes (h : s.grants t = true) : Does s t .waitTry .held s.take.dropInner
  | prepares : Does s t .waitTry .waitPrepare s
  | prepare :
      Does s t .waitPrepare .waitRetry { s.setStatus t .interruptible with queue := s.queue ++ [t] }
  | retryTakes (h : s.grants t = true) : Does s t .waitRetry .waitCancel s.take
  | retryFails (h : s.grants t ≠ true) : Does s t .waitRetry .block s.dropInner
  | cancel : Does s t .waitCancel .waitCancelTask (s.unlink t)
  | cancelTask : Does s t .waitCancelTask .held (s.cancelTask t).dropInner
  | stays : Does s t .block .finishWait (s.setStatus t .running)
  | sleeps (h : s.status t ≠ .runnable) : Does s t .block .asleep (s.setStatus t .interruptible)
  | wakes : Does s t .asleep .finishWait (s.setStatus t .running)
  | finish : Does s t .finishWait (.tryState .wait) (s.unlink t)
  | exits : Does s t .waitTest .idle s
  | again : Does s t .waitTest .tryLookup s
  | unlockFound (h : s.present = true) : Does s t .unlockLookup .unlockEnter s
  | unlockMissing : Does s t .unlockLookup .unlockStore s
  | store : Does s t .unlockStore .idle { s with locked := false }
  | unlockEnter (h : s.inner = none) : Does s t .unlockEnter .unlockPop (s.enterInner t)
  | popNone (h : s.queue = []) : Does s t .unlockPop (.unlockRelease none) s
  | pop (w : TaskId) (rest : List TaskId) (h : s.queue = w :: rest) :
      Does s t .unlockPop (.unlockCheck w) { s with queue := rest }
  | waits (w : TaskId) (h : s.status w = .interruptible) :
      Does s t (.unlockCheck w) (.unlockRelease (some w)) s
  | gone (w : TaskId) (h : s.status w ≠ .interruptible) : Does s t (.unlockCheck w) .unlockPop s
  | release : Does s t (.unlockRelease none) .idle { s with handoff := none, locked := false }.dropInner
  | handOff (w : TaskId) : Does s t (.unlockRelease (some w)) (.unlockWake w)
      { s with handoff := some w, locked := false }.dropInner
  | wake (w : TaskId) : Does s t (.unlockWake w) .idle (s.wakeup w)
  | signalUnlink (w : TaskId) : Does s t (.signalUnlink w) (.signalWake w) (s.unlink w)
  | signalWake (w : TaskId) : Does s t (.signalWake w) .idle (s.wakeup w)

theorem step_does {fatal : Bool} (hn : s.step t fatal = some s') :
    ∃ k s₁, Does s t (s.pc t) k s₁ ∧ s' = s₁.goto t k := by
  unfold step at hn
  cases hpc : s.pc t with
  | idle | held => simp [hpc] at hn
  | tryLookup | waitLookup | unlockLookup =>
    simp only [hpc] at hn
    cases hn
    split
    · exact ⟨_, _, by constructor; assumption, rfl⟩
    · exact ⟨_, _, by constructor, rfl⟩
  | tryAtomic =>
    simp only [hpc] at hn
    split at hn <;> cases hn
    · exact ⟨_, _, .atomicFails, rfl⟩
    next hfree =>
      exact ⟨_, _, .atomic (Bool.not_eq_true _ ▸ hfree), rfl⟩
  | tryStateLocked c =>
    simp only [hpc] at hn
    split at hn <;> cases hn
    · exact ⟨_, _, .tryTakes c ‹_›, rfl⟩
    · cases c with
      | tryLock => exact ⟨_, _, .tryFails ‹_›, rfl⟩
      | wait => exact ⟨_, _, .waitFails ‹_›, rfl⟩
  | tryState | waitEnter | unlockEnter | waitRetry | asleep | waitTry | unlockPop | block =>
    simp only [hpc] at hn
    split at hn <;> cases hn
    all_goals exact ⟨_, _, by constructor <;> assumption, rfl⟩
  | waitTest =>
    simp only [hpc] at hn
    cases hn
    split
    · exact ⟨_, _, .exits, rfl⟩
    · exact ⟨_, _, .again, rfl⟩
  | unlockCheck w =>
    simp only [hpc] at hn
    cases hn
    split
    · exact ⟨_, _, .waits w ‹_›, rfl⟩
    · exact ⟨_, _, .gone w ‹_›, rfl⟩
  | unlockRelease w =>
    simp only [hpc] at hn
    cases hn
    cases w with
    | none => exact ⟨_, _, .release, rfl⟩
    | some w => exact ⟨_, _, .handOff w, rfl⟩
  | waitInsert | waitPrepare | waitCancel | waitCancelTask | finishWait | unlockStore | unlockWake
  | signalUnlink | signalWake =>
    simp only [hpc] at hn
    cases hn
    exact ⟨_, _, by constructor, rfl⟩

def Label.mover : Label → TaskId
  | .lock t | .unlock t | .signal t _ | .run t _ => t

theorem next_does (hn : next s l = some s') :
    ∃ k s₁, Does s l.mover (s.pc l.mover) k s₁ ∧ s' = s₁.goto l.mover k := by
  have hbegin : ∀ {t k k'}, s.begin t k k' = some s' → Does s t k k' s →
      ∃ k s₁, Does s t (s.pc t) k s₁ ∧ s' = s₁.goto t k := by
    intro t k k' hn hd
    unfold begin at hn
    split at hn <;> cases hn
    rename_i hpc
    exact ⟨_, _, hpc ▸ hd, rfl⟩
  cases l with
  | lock t => exact hbegin hn .lock
  | unlock t => exact hbegin hn .unlock
  | signal t w => exact hbegin hn (.signal w)
  | run t fatal => exact step_does hn

theorem locked_of_grants (h : s.grants t = true) : s.locked = false := by
  unfold grants at h
  cases hl : s.locked with
  | false => rfl
  | true => simp [hl] at h

theorem grants_of_free (hl : s.locked = false) (hh : s.handoff = none ∨ s.handoff = some t) :
    s.grants t = true := by
  unfold grants
  rcases hh with hh | hh <;> simp [hl, hh]

theorem wakeup_status (u : TaskId) :
    (s.wakeup w).status u = s.status u ∧ (u = w → s.status u ≠ .interruptible) ∨
    s.status u = .interruptible ∧ (s.wakeup w).status u = .runnable := by
  dsimp only [wakeup, setStatus]
  rcases eq_or_ne u w with rfl | hu
  · rw [update_self]
    split
    · exact .inr ⟨‹_›, rfl⟩
    · exact .inl ⟨rfl, fun _ => ‹_›⟩
  · rw [update_of_ne hu]
    exact .inl ⟨rfl, fun heq => absurd heq hu⟩

theorem interruptible_of {x : TaskStatus} (h : x ≠ .running) (h' : x ≠ .runnable) : x = .interruptible := by
  cases x with
  | interruptible => rfl
  | running => exact absurd rfl h
  | runnable => exact absurd rfl h'

theorem returns_of_linked (hlinked : k.linked = true) (hinner : k.hasInner ≠ true) : k.returns = true := by
  cases k with
  | waitRetry | waitCancel => exact absurd rfl hinner
  | block | asleep | finishWait => rfl
  | _ => cases hlinked

theorem forall_update {P : TaskId → Pc → Prop} {pc : TaskId → Pc} {k : Pc} (hk : P t k)
    (h : ∀ u, u ≠ t → P u (pc u)) (u : TaskId) : P u (update pc t k u) :=
  (forall_update_iff pc P).mpr ⟨hk, h⟩ u

section

variable (h : Does s t k₀ k s₁)

include h

theorem Does.pc : s₁.pc = s.pc := by cases h <;> rfl

theorem Does.goto_pc : (s₁.goto t k).pc = update s.pc t k := by
  unfold goto
  rw [h.pc]

/-- The flag and the owner stay, the task takes the free mutex, or the owner frees it. -/
theorem Does.owner : (s₁.locked = s.locked ∧ k.owns = k₀.owns) ∨
    (s.locked = false ∧ s₁.locked = true ∧ k.owns = true) ∨
      (k₀.owns = true ∧ s₁.locked = false ∧ k.owns = false) := by
  cases h with
  | atomic hfree => exact .inr (.inl ⟨hfree, rfl, rfl⟩)
  | tryTakes _ hgrants | waitTakes hgrants | retryTakes hgrants =>
    exact .inr (.inl ⟨locked_of_grants hgrants, rfl, rfl⟩)
  | store | release | handOff => exact .inr (.inr ⟨rfl, rfl, rfl⟩)
  | _ => exact .inl ⟨rfl, rfl⟩

/-- `inner` stays, the task enters, or the task drops it. -/
theorem Does.inner : (s₁.inner = s.inner ∧ k.hasInner = k₀.hasInner) ∨
    (s.inner = none ∧ s₁.inner = some t ∧ k.hasInner = true) ∨
      (k₀.hasInner = true ∧ s₁.inner = none ∧ k.hasInner = false) := by
  cases h with
  | tryEnter _ hfree | waitEnter hfree | unlockEnter hfree => exact .inr (.inl ⟨hfree, rfl, rfl⟩)
  | tryTakes | tryFails | waitFails | waitTakes | retryFails | cancelTask | release | handOff =>
    exact .inr (.inr ⟨rfl, rfl, rfl⟩)
  | _ => exact .inl ⟨rfl, rfl⟩

/-- As long as the table has no state, no task gets to where it would use one. -/
theorem Does.absent (ha : s₁.present = false) : s.present = false ∧ (k₀.usesState = true ∨
      (∀ u ∈ s₁.queue, u ∈ s.queue) ∧ s₁.handoff = s.handoff ∧ k.usesState = false) := by
  cases h with
  | tryFound hfound | waitFound hfound | unlockFound hfound => cases hfound.symm.trans ha
  | insert => cases ha
  | signalUnlink w => exact ⟨ha, .inr ⟨fun u hu => (mem_filter.mp hu).1, rfl, rfl⟩⟩
  | lock | unlock | signal | tryMissing | atomic | atomicFails | waitMissing | unlockMissing | store
  | signalWake => exact ⟨ha, .inr ⟨fun _ => id, rfl, rfl⟩⟩
  | _ => exact ⟨ha, .inl rfl⟩

/-- Only the task itself enters the queue, and it leaves it in time. -/
theorem Does.queue : (∀ u ∈ s₁.queue, u ≠ t → u ∈ s.queue) ∧
      (t ∈ s₁.queue → k.linked = true ∨ k₀.linked = false ∧ t ∈ s.queue) := by
  cases h with
  | prepare =>
    refine ⟨fun u hu hne => ?_, fun _ => .inl rfl⟩
    exact (mem_append.mp hu).resolve_right fun ht => hne (mem_singleton.mp ht)
  | cancel | finish =>
    refine ⟨fun u hu _ => (mem_filter.mp hu).1, fun ht => ?_⟩
    simp [unlink] at ht
  | signalUnlink w =>
    exact ⟨fun u hu _ => (mem_filter.mp hu).1, fun ht => .inr ⟨rfl, (mem_filter.mp ht).1⟩⟩
  | pop w rest hqueue =>
    exact ⟨fun u hu _ => hqueue ▸ .tail w hu, fun ht => .inr ⟨rfl, hqueue ▸ .tail w ht⟩⟩
  | retryTakes | retryFails | stays | sleeps | wakes => exact ⟨fun _ hu _ => hu, fun _ => .inl rfl⟩
  | _ => exact ⟨fun _ hu _ => hu, fun ht => .inr ⟨rfl, ht⟩⟩

/-- To other tasks a step is at most a wakeup. -/
theorem Does.status (hu : u ≠ t) :
    s₁.status u = s.status u ∨ s.status u = .interruptible ∧ s₁.status u = .runnable := by
  cases h with
  | prepare | cancelTask | stays | sleeps | wakes => exact .inl (update_of_ne hu ..)
  | wake w | signalWake w => exact (wakeup_status u).imp_left And.left
  | _ => exact .inl rfl

theorem Does.prepared (hk : k.prepared = true) :
    s₁.status t ≠ .running ∨ k₀.prepared = true ∧ s₁.status t = s.status t := by
  cases h with
  | prepare | sleeps =>
    left
    dsimp only [setStatus]
    rw [update_self]
    nofun
  | retryTakes | retryFails | cancel => exact .inr ⟨rfl, rfl⟩
  | _ => cases hk

/-- Whoever leaves the queue has somebody who will wake it, and nobody forgets to. -/
theorem Does.wakes_of (hst : s₁.status u = .interruptible) :
    (u ≠ t → u ∈ s.queue → u ∈ s₁.queue ∨ k.wakes u) ∧ (k₀.wakes u → k.wakes u) := by
  cases h with
  | prepare => exact ⟨fun _ hu => .inl (mem_append_left _ hu), False.elim⟩
  | cancel | finish =>
    exact ⟨fun hne hu => .inl (mem_filter.mpr ⟨hu, by simpa using hne⟩), False.elim⟩
  | pop w rest hqueue =>
    refine ⟨fun _ hu => ?_, False.elim⟩
    rw [hqueue] at hu
    exact (mem_cons.mp hu).symm.imp_right Eq.symm
  | waits w | handOff w => exact ⟨fun _ => .inl, id⟩
  | gone w hgone => exact ⟨fun _ => .inl, fun heq => absurd hst (heq ▸ hgone)⟩
  | wake w | signalWake w =>
    refine ⟨fun _ => .inl, fun heq => ?_⟩
    rcases wakeup_status u with ⟨hsame, hne⟩ | ⟨-, hrun⟩
    · exact absurd (hsame.symm.trans hst) (hne (Eq.symm heq))
    · cases hst.symm.trans hrun
  | signalUnlink w =>
    refine ⟨fun _ hu => ?_, False.elim⟩
    by_cases heq : u = w
    · exact .inr heq.symm
    · exact .inl (mem_filter.mpr ⟨hu, by simpa using heq⟩)
  | _ => exact ⟨fun _ => .inl, False.elim⟩

theorem Does.waits_self (hk : k.waits = true) :
    t ∈ s₁.queue ∨ k₀.waits = true ∧ k₀.prepared = true ∧ s₁.queue = s.queue ∧
      (s₁.status t = .interruptible → s.status t ≠ .runnable) := by
  cases h with
  | prepare => exact .inl (mem_append_right _ (.head _))
  | retryFails => exact .inr ⟨rfl, rfl, rfl, fun hst hrun => by cases hst.symm.trans hrun⟩
  | sleeps hnot => exact .inr ⟨rfl, rfl, rfl, fun _ => hnot⟩
  | _ => cases hk

/-- The task that `unlock` has in its hands was in the queue. -/
theorem Does.popped (hk : k = .unlockCheck w ∨ k = .unlockRelease (some w)) :
    k₀ = .unlockCheck w ∨ w ∈ s.queue ∧ k₀.hasInner = true ∧ k₀.linked = false := by
  cases h with
  | pop w' rest hqueue =>
    rcases hk with hk | hk <;> cases hk
    exact .inr ⟨hqueue ▸ .head _, rfl, rfl⟩
  | waits w' =>
    rcases hk with hk | hk <;> cases hk
    exact .inl rfl
  | _ => rcases hk with hk | hk <;> cases hk

theorem Does.returns (hk : k₀.returns = true) : k.returns = true ∨ s.inner = none := by
  cases h with
  | tryEnter _ hfree => exact .inr hfree
  | stays | sleeps | wakes | finish => exact .inl rfl
  | _ => cases hk

theorem Does.queue_nil (hq : s.queue = []) : s₁.queue = [] ∨ k₀.hasInner = true := by
  cases h with
  | prepare | pop => exact .inr rfl
  | cancel | finish | signalUnlink => exact .inl (by simp [unlink, hq])
  | _ => exact .inl hq

theorem Does.release_none (hk : k = .unlockRelease none) : s₁.queue = [] := by
  cases h with
  | popNone hq => exact hq
  | _ => cases hk

/-- What a step does to a mutex that is free after it: it leaves the mutex alone, or frees it. -/
theorem Does.free (hl : s₁.locked = false) :
    (s.locked = false ∧ s₁.handoff = s.handoff) ∨ k₀ = .unlockStore ∧ s₁.handoff = s.handoff ∧
      s₁.queue = s.queue ∨ ∃ w, k₀ = .unlockRelease w ∧ s₁.handoff = w ∧ s₁.queue = s.queue ∧
        ∀ r, w = some r → k = .unlockWake r := by
  cases h with
  | atomic | tryTakes | waitTakes | retryTakes => cases hl
  | store => exact .inr (.inl ⟨rfl, rfl, rfl⟩)
  | release => exact .inr (.inr ⟨_, rfl, rfl, rfl, nofun⟩)
  | handOff w =>
    refine .inr (.inr ⟨_, rfl, rfl, rfl, fun r hr => ?_⟩)
    rw [some.inj hr]
  | _ => exact .inl ⟨hl, rfl⟩

/-- The heir itself moves on, or goes to sleep without having been woken. -/
theorem Does.heir_self (hl : s.locked = false) (hh : s.handoff = some t)
    (hk : k₀ = .tryStateLocked .wait ∨ k₀.returns = true) :
    k = .tryStateLocked .wait ∨ k.returns = true ∧
      (k = .block ∨ k = .asleep → k₀ = .block ∧ s.status t ≠ .runnable) ∨ s₁.locked = true := by
  have hgrants := grants_of_free hl (.inr hh)
  cases h with
  | tryEnter c =>
    cases c with
    | tryLock => rcases hk with hk | hk <;> cases hk
    | wait => exact .inl rfl
  | tryTakes => exact .inr (.inr rfl)
  | waitFails hnot => exact absurd hgrants hnot
  | stays | wakes | finish => exact .inr (.inl ⟨rfl, by rintro (hk | hk) <;> cases hk⟩)
  | sleeps hnot => exact .inr (.inl ⟨rfl, fun _ => ⟨rfl, hnot⟩⟩)
  | _ => rcases hk with hk | hk <;> cases hk

theorem Does.wakes_heir (hk : k₀ = .unlockWake u) (hst : s.status u ≠ .running) :
    s₁.status u = .runnable := by
  cases h with
  | wake w =>
    cases hk
    rcases wakeup_status u with ⟨hsame, hne⟩ | ⟨-, hrun⟩
    · rw [hsame]
      by_contra hnot
      exact hne rfl (interruptible_of hst hnot)
    · exact hrun
  | _ => cases hk

/-- A task in the queue of a free mutex keeps `inner`, or leaves the queue. -/
theorem Does.none_self (hl : s.locked = false) (hh : s.handoff = none)
    (ht : t ∈ s₁.queue) : k.hasInner = true ∨ t ∈ s.queue ∧ (k₀.linked = false ∨ k₀.hasInner = false) := by
  have hgrants := grants_of_free (t := t) hl (.inl hh)
  cases h with
  | prepare | retryTakes => exact .inl rfl
  | retryFails hnot => exact absurd hgrants hnot
  | cancel | finish => simp [unlink] at ht
  | signalUnlink w => exact .inr ⟨(mem_filter.mp ht).1, .inl rfl⟩
  | pop w rest hqueue => exact .inr ⟨hqueue ▸ .tail w ht, .inl rfl⟩
  | stays | sleeps | wakes => exact .inr ⟨ht, .inr rfl⟩
  | _ => exact .inr ⟨ht, .inl rfl⟩

end

/-! ## The owner -/

/-- The flag is set as long as a task has the mutex, and by no more than one. -/
structure OwnerInv (s : State) : Prop where
  unique : ∀ t u, (s.pc t).owns = true → (s.pc u).owns = true → t = u
  locked : ∀ t, (s.pc t).owns = true → s.locked = true
  owned : s.locked = true → ∃ t, (s.pc t).owns = true

theorem OwnerInv.step (h : OwnerInv s) (hd : Does s t (s.pc t) k s₁) : OwnerInv (s₁.goto t k) := by
  have hother : ∀ u, u ≠ t → ((s₁.goto t k).pc u).owns = (s.pc u).owns := by
    intro u hu
    rw [hd.goto_pc, update_of_ne hu]
  have hself : ((s₁.goto t k).pc t).owns = k.owns := by rw [hd.goto_pc, update_self]
  rcases hd.owner with ⟨hl, hk⟩ | ⟨hfree, hl, hk⟩ | ⟨ht, hl, hk⟩
  · have hsame : ∀ u, ((s₁.goto t k).pc u).owns = (s.pc u).owns := by
      intro u
      by_cases hu : u = t
      · rw [hu, hself, hk]
      · exact hother u hu
    refine ⟨fun t u ht hu => h.unique t u (hsame t ▸ ht) (hsame u ▸ hu),
      fun u hu => hl.trans (h.locked u (hsame u ▸ hu)), fun hlocked => ?_⟩
    obtain ⟨u, hu⟩ := h.owned (hl.symm.trans hlocked)
    exact ⟨u, (hsame u).trans hu⟩
  · have honly : ∀ u, ((s₁.goto t k).pc u).owns = true → u = t := by
      intro u hu
      by_contra hne
      rw [hother u hne] at hu
      cases (h.locked u hu).symm.trans hfree
    exact ⟨fun u v hu hv => (honly u hu).trans (honly v hv).symm, fun _ _ => hl, fun _ => ⟨t, hself.trans hk⟩⟩
  · have hnone : ∀ u, ((s₁.goto t k).pc u).owns ≠ true := by
      intro u hu
      by_cases hut : u = t
      · rw [hut, hself, hk] at hu
        cases hu
      · exact hut (h.unique u t (hother u hut ▸ hu) ht)
    exact ⟨fun u _ hu => absurd hu (hnone u), fun u hu => absurd hu (hnone u),
      fun hlocked => absurd (hl.symm.trans hlocked) Bool.false_ne_true⟩

/-! ## The queue -/

/-- What the tasks and the state of the mutex say of each other. -/
structure QueueInv (s : State) : Prop where
  inner : ∀ t, s.inner = some t ↔ (s.pc t).hasInner = true
  absent : s.present = false → s.queue = [] ∧ s.handoff = none ∧ ∀ t, (s.pc t).usesState = false
  queued : ∀ t ∈ s.queue, (s.pc t).linked = true
  asleep : ∀ t, (s.pc t).prepared = true → s.status t ≠ .running
  covered : ∀ t, (s.pc t).waits = true → s.status t = .interruptible →
    t ∈ s.queue ∨ ∃ u, (s.pc u).wakes t
  popped : ∀ u w, s.pc u = .unlockCheck w ∨ s.pc u = .unlockRelease (some w) → (s.pc w).returns = true
  empty : ∀ u, s.pc u = .unlockRelease none → s.queue = []

/-- The task `r` will try for the mutex. -/
def Heir (s : State) (r : TaskId) : Prop :=
  s.pc r = .tryStateLocked .wait ∨ (s.pc r).returns = true ∧
    (s.pc r = .block ∨ s.pc r = .asleep → s.status r = .runnable ∨ ∃ u, s.pc u = .unlockWake r)

/-- A free mutex was left to somebody, or nobody waits for it. -/
structure FreeInv (s : State) : Prop where
  heir : s.locked = false → ∀ r, s.handoff = some r → Heir s r
  none : s.locked = false → s.handoff = none → ∀ t ∈ s.queue, (s.pc t).hasInner = true

/-- Whoever has `inner` is alone with it. -/
theorem QueueInv.inner_unique (h : QueueInv s) (ht : (s.pc t).hasInner = true)
    (hu : (s.pc u).hasInner = true) : t = u :=
  some.inj (((h.inner t).mpr ht).symm.trans ((h.inner u).mpr hu))

section

variable (h : QueueInv s) (hd : Does s t (s.pc t) k s₁)

include h hd

theorem inner_step : ∀ u, s₁.inner = some u ↔ (update s.pc t k u).hasInner = true := by
  rcases hd.inner with ⟨hi, hk⟩ | ⟨hfree, hi, hk⟩ | ⟨ht, hi, hk⟩ <;>
    refine forall_update (P := fun u k => s₁.inner = some u ↔ k.hasInner = true) ?_ fun u hu => ?_
  · rw [hi, hk]
    exact h.inner t
  · rw [hi]
    exact h.inner u
  · exact ⟨fun _ => hk, fun _ => hi⟩
  · rw [hi, ← h.inner u, hfree]
    exact ⟨fun heq => absurd (some.inj heq).symm hu, nofun⟩
  · rw [hi, hk]
    exact ⟨nofun, nofun⟩
  · rw [hi, ← h.inner u, (h.inner t).mpr ht]
    exact ⟨nofun, fun heq => absurd (some.inj heq).symm hu⟩

theorem absent_step (ha : s₁.present = false) :
    s₁.queue = [] ∧ s₁.handoff = none ∧ ∀ u, (update s.pc t k u).usesState = false := by
  obtain ⟨ha, hcase⟩ := hd.absent ha
  obtain ⟨hqueue, hhandoff, huses⟩ := h.absent ha
  rcases hcase with hk₀ | ⟨hq, hh, hk⟩
  · cases (huses t).symm.trans hk₀
  · refine ⟨eq_nil_iff_forall_not_mem.mpr fun u hu => ?_, hh.trans hhandoff, ?_⟩
    · exact absurd (hqueue ▸ hq u hu) not_mem_nil
    · exact forall_update (P := fun _ k => k.usesState = false) hk fun u _ => huses u

theorem queued_step : ∀ u ∈ s₁.queue, (update s.pc t k u).linked = true := by
  obtain ⟨hq, hself⟩ := hd.queue
  refine forall_update (P := fun u k => u ∈ s₁.queue → k.linked = true) (fun ht => ?_) fun u hu hmem => ?_
  · refine (hself ht).resolve_right fun ⟨hk₀, hmem⟩ => ?_
    cases hk₀.symm.trans (h.queued t hmem)
  · exact h.queued u (hq u hmem hu)

theorem asleep_step : ∀ u, (update s.pc t k u).prepared = true → s₁.status u ≠ .running := by
  refine forall_update (P := fun u k => k.prepared = true → s₁.status u ≠ .running) (fun hk => ?_)
    fun u hu hprep => ?_
  · rcases hd.prepared hk with hst | ⟨hk₀, hst⟩
    · exact hst
    · rw [hst]
      exact h.asleep t hk₀
  · rcases hd.status hu with hst | ⟨-, hst⟩ <;> rw [hst]
    · exact h.asleep u hprep
    · nofun

theorem covered_step : ∀ u, (update s.pc t k u).waits = true → s₁.status u = .interruptible →
      u ∈ s₁.queue ∨ ∃ v, (update s.pc t k v).wakes u := by
  have hwakes : ∀ u, s₁.status u = .interruptible → (∃ v, (s.pc v).wakes u) →
      ∃ v, (update s.pc t k v).wakes u := by
    rintro u hst ⟨v, hv⟩
    refine ⟨v, ?_⟩
    rcases eq_or_ne v t with rfl | hvt
    · rw [update_self]
      exact (hd.wakes_of hst).2 hv
    · rwa [update_of_ne hvt]
  refine forall_update (P := fun u k' => k'.waits = true → s₁.status u = .interruptible →
    u ∈ s₁.queue ∨ ∃ v, (update s.pc t k v).wakes u) ?_ ?_
  · intro hk hst
    rcases hd.waits_self hk with hmem | ⟨hwaits, hprep, hq, hnot⟩
    · exact .inl hmem
    · have hst' := interruptible_of (h.asleep t hprep) (hnot hst)
      exact (h.covered t hwaits hst').imp (hq ▸ id) (hwakes t hst)
  · intro u hu hwaits hst
    have hst' : s.status u = .interruptible := by
      rcases hd.status hu with hsame | ⟨hint, -⟩
      · exact hsame.symm.trans hst
      · exact hint
    rcases h.covered u hwaits hst' with hmem | hv
    · refine ((hd.wakes_of hst).1 hu hmem).imp_right fun hk => ⟨t, ?_⟩
      rwa [update_self]
    · exact .inr (hwakes u hst hv)

/-- A task that `unlock` took out of the queue cannot try before `unlock` drops `inner`. -/
theorem popped_step (u w : TaskId) :
    update s.pc t k u = .unlockCheck w ∨ update s.pc t k u = .unlockRelease (some w) →
      (update s.pc t k w).returns = true := by
  refine forall_update (P := fun _ k' => k' = .unlockCheck w ∨ k' = .unlockRelease (some w) →
    (update s.pc t k w).returns = true) ?_ ?_ u
  · intro hk
    have hret : (s.pc w).returns = true ∧ w ≠ t := by
      rcases hd.popped hk with hpc | ⟨hmem, hin, hout⟩
      · have hret := h.popped t w (.inl hpc)
        refine ⟨hret, ?_⟩
        rintro rfl
        rw [hpc] at hret
        cases hret
      · have hlinked := h.queued w hmem
        have hne : w ≠ t := by
          rintro rfl
          cases hout.symm.trans hlinked
        -- a task in the queue that still has `inner` is not `t`
        exact ⟨returns_of_linked hlinked fun hw => hne (h.inner_unique hw hin), hne⟩
    rw [update_of_ne hret.2]
    exact hret.1
  · intro u _ hu
    have hw := h.popped u w hu
    rcases eq_or_ne w t with rfl | hwt
    · rw [update_self]
      refine (hd.returns hw).resolve_right fun hfree =>
        absurd (hfree.symm.trans ((h.inner u).mpr ?_)) (by rintro ⟨⟩)
      rcases hu with hu | hu <;> rw [hu] <;> rfl
    · rwa [update_of_ne hwt]

theorem empty_step : ∀ u, update s.pc t k u = .unlockRelease none → s₁.queue = [] := by
  refine forall_update (P := fun _ k => k = .unlockRelease none → s₁.queue = []) hd.release_none ?_
  intro u hu heq
  -- `unlock` has `inner`, and so has a task that registers
  refine (hd.queue_nil (h.empty u heq)).resolve_right fun ht => hu (h.inner_unique ?_ ht)
  rw [heq]
  rfl

theorem QueueInv.step : QueueInv (s₁.goto t k) := by
  refine ⟨?_, ?_, ?_, ?_, ?_, ?_, ?_⟩ <;> rw [hd.goto_pc]
  · exact (inner_step h hd :)
  · exact (absent_step h hd :)
  · exact (queued_step h hd :)
  · exact (asleep_step h hd :)
  · exact (covered_step h hd :)
  · exact (popped_step h hd :)
  · exact (empty_step h hd :)

end

/-! ## The free mutex -/

/-- The plain store of an `unlock` that found no state finds none in the table either. -/
def StoresAlone (s : State) : Label → Prop
  | .run t _ => s.pc t = .unlockStore → s.present = false
  | _ => True

instance (s : State) : (l : Label) → Decidable (StoresAlone s l)
  | .run t _ => inferInstanceAs (Decidable (s.pc t = .unlockStore → s.present = false))
  | .lock _ | .unlock _ | .signal _ _ => isTrue trivial

theorem StoresAlone.absent (hc : StoresAlone s l) (hn : next s l = some s')
    (hpc : s.pc l.mover = .unlockStore) : s.present = false := by
  have hbegin : ∀ {t k k'}, s.begin t k k' = some s' → s.pc t = k := by
    intro t k k' hn
    unfold begin at hn
    split at hn
    · assumption
    · cases hn
  cases l with
  | lock t | unlock t | signal t w => cases (hbegin hn).symm.trans hpc
  | run t fatal => exact hc hpc

section

variable (h : QueueInv s) (hf : FreeInv s) (hd : Does s t (s.pc t) k s₁)
  (hc : s.pc t = .unlockStore → s.present = false) (hl : s₁.locked = false)

include h hf hd hc hl

theorem heir_step : ∀ r, s₁.handoff = some r → Heir (s₁.goto t k) r := by
  intro r hr
  unfold Heir
  rw [hd.goto_pc]
  rcases hd.free hl with ⟨hfree, hh⟩ | ⟨hpc, hh, -⟩ | ⟨w, hpc, hh, -, hk⟩
  · have hr : s.handoff = some r := hh.symm.trans hr
    have hheir := hf.heir hfree r hr
    rcases eq_or_ne r t with rfl | hrt
    · rw [update_self]
      rcases hd.heir_self hfree hr (hheir.imp_right And.left) with hk | ⟨hret, hsleep⟩ | hlocked
      · exact .inl hk
      · refine .inr ⟨hret, fun hk => ?_⟩
        obtain ⟨hpc, hnot⟩ := hsleep hk
        rcases hheir with heq | ⟨-, hwoken⟩
        · cases hpc.symm.trans heq
        obtain ⟨u, hu⟩ := (hwoken (.inl hpc)).resolve_left hnot
        have hne : u ≠ r := by
          rintro rfl
          cases hpc.symm.trans hu
        exact .inr ⟨u, by rwa [update_of_ne hne]⟩
      · cases hl.symm.trans hlocked
    · rw [update_of_ne hrt]
      refine hheir.imp_right fun ⟨hret, hwoken⟩ => ⟨hret, fun hpr => ?_⟩
      rcases hwoken hpr with hst | ⟨u, hu⟩
      · left
        rcases hd.status hrt with hsame | ⟨hint, -⟩
        · exact hsame.trans hst
        · cases hst.symm.trans hint
      · rcases eq_or_ne u t with rfl | hut
        · refine .inl (hd.wakes_heir hu (h.asleep r ?_))
          rcases hpr with hpr | hpr <;> rw [hpr] <;> rfl
        · exact .inr ⟨u, by rwa [update_of_ne hut]⟩
  · -- there is no state, so nobody is named
    have hnone := (h.absent (hc hpc)).2.1
    cases (hh.symm.trans hr).symm.trans hnone
  · obtain rfl : w = some r := hh.symm.trans hr
    have hret := h.popped t r (.inr hpc)
    have hrt : r ≠ t := by
      rintro rfl
      rw [hpc] at hret
      cases hret
    refine .inr ⟨by rwa [update_of_ne hrt], fun _ => .inr ⟨t, ?_⟩⟩
    rw [update_self, hk r rfl]

theorem none_step (hh : s₁.handoff = none) :
    ∀ u ∈ s₁.queue, (update s.pc t k u).hasInner = true := by
  have hnil : s.queue = [] → s₁.queue = s.queue → ∀ u ∈ s₁.queue, (update s.pc t k u).hasInner = true := by
    intro hnil hq u hu
    rw [hq, hnil] at hu
    cases hu
  rcases hd.free hl with ⟨hfree, hsame⟩ | ⟨hpc, -, hq⟩ | ⟨w, hpc, hw, hq, -⟩
  · have hh : s.handoff = none := hsame.symm.trans hh
    refine forall_update (P := fun u k => u ∈ s₁.queue → k.hasInner = true) (fun ht => ?_) fun u hu hmem => ?_
    · refine (hd.none_self hfree hh ht).resolve_right fun ⟨hmem, hk₀⟩ => ?_
      rcases hk₀ with hk₀ | hk₀
      · cases hk₀.symm.trans (h.queued t hmem)
      · cases hk₀.symm.trans (hf.none hfree hh t hmem)
    · exact hf.none hfree hh u (hd.queue.1 u hmem hu)
  · exact hnil (h.absent (hc hpc)).1 hq
  · obtain rfl : w = none := hw.symm.trans hh
    exact hnil (h.empty t hpc) hq

end

structure Inv (s : State) : Prop where
  owner : OwnerInv s
  queue : QueueInv s
  free : FreeInv s

theorem Inv.boot : Inv boot where
  owner := ⟨nofun, nofun, nofun⟩
  queue := by
    refine ⟨fun t => ⟨nofun, nofun⟩, fun _ => ⟨rfl, rfl, fun _ => rfl⟩, ?_, nofun, nofun, ?_, fun _ _ => rfl⟩
    · intro t ht
      cases ht
    · rintro u w (hu | hu) <;> cases hu
  free := by
    constructor
    · intro _ r hr
      cases hr
    · intro _ _ t ht
      cases ht

theorem Inv.step (h : Inv s) (hd : Does s t (s.pc t) k s₁)
    (hstore : s.pc t = .unlockStore → s.present = false) : Inv (s₁.goto t k) := by
  refine ⟨h.owner.step hd, h.queue.step hd, heir_step h.queue h.free hd hstore, ?_⟩
  rw [hd.goto_pc]
  exact (none_step h.queue h.free hd hstore :)

theorem Inv.next (h : Inv s) (hc : StoresAlone s l) (hn : next s l = some s') : Inv s' := by
  obtain ⟨k, s₁, hd, rfl⟩ := next_does hn
  exact h.step hd (hc.absent hn)

theorem Inv.of_reach (h : machine.Reach StoresAlone s) : Inv s := by
  apply h.invariant
  · rintro s rfl
    exact Inv.boot
  · intro s l s' hinv hc hn
    exact hinv.next hc hn

/-- One task at a time has the mutex; and if nobody is in a call but blocked tasks, they wait for a task that
has the mutex. -/
theorem sleep_mutex_safe (h : machine.Reach StoresAlone s) :
    (∀ t u, (s.pc t).owns = true → (s.pc u).owns = true → t = u) ∧
      (Quiet s → ∀ t, Blocked s t → ∃ u, s.pc u = .held) := by
  obtain ⟨howner, hqueue, hfree⟩ := Inv.of_reach h
  refine ⟨howner.unique, fun hquiet t ⟨hpc, hst⟩ => ?_⟩
  -- nobody is about to wake anybody
  have hnowakes : ∀ u w, ¬ (s.pc u).wakes w := by
    intro u w
    rcases hquiet u with hu | hu | ⟨hu, -⟩ <;> rw [hu] <;> exact id
  have hint : s.status t = .interruptible := interruptible_of (hqueue.asleep t (by rw [hpc]; rfl)) hst
  have hmem : t ∈ s.queue := by
    refine (hqueue.covered t (by rw [hpc]; rfl) hint).resolve_right ?_
    rintro ⟨u, hu⟩
    exact hnowakes u t hu
  have hlocked : s.locked = true := by
    by_contra hne
    have hl : s.locked = false := Bool.not_eq_true _ ▸ hne
    cases hh : s.handoff with
    | none => exact absurd (hfree.none hl hh t hmem) (by rw [hpc]; nofun)
    | some r =>
      rcases hfree.heir hl r hh with hr | ⟨hret, hwoken⟩
      · rcases hquiet r with hu | hu | ⟨hu, -⟩ <;> rw [hu] at hr <;> cases hr
      rcases hquiet r with hu | hu | ⟨hu, hne⟩
      · rw [hu] at hret
        cases hret
      · rw [hu] at hret
        cases hret
      · obtain ⟨v, hv⟩ := (hwoken (.inr hu)).resolve_left hne
        exact hnowakes v r (by rw [hv]; rfl)
  obtain ⟨u, hu⟩ := howner.owned hlocked
  refine ⟨u, ?_⟩
  rcases hquiet u with hpu | hpu | ⟨hpu, -⟩
  · rw [hpu] at hu
    cases hu
  · exact hpu
  · rw [hpu] at hu
    cases hu

theorem next_pc (hn : next s l = some s') (hu : u ≠ l.mover) : s'.pc u = s.pc u := by
  obtain ⟨k, s₁, hd, rfl⟩ := next_does hn
  rw [hd.goto_pc, update_of_ne hu]

theorem run_pc {ls : List Label} (h : machine.run s ls = some s') (hu : ∀ l ∈ ls, u ≠ l.mover) :
    s'.pc u = s.pc u := by
  induction ls generalizing s with
  | nil =>
    obtain rfl : s = s' := some.inj h
    rfl
  | cons l ls ih =>
    obtain ⟨s₁, hn, hrest⟩ := bind_eq_some_iff.mp h
    exact (ih hrest fun l hl => hu l (.tail _ hl)).trans (next_pc hn (hu l (.head _)))

def steps (t : TaskId) (n : ℕ) : List Label := List.replicate n (.run t false)

/-- A task takes the mutex, another one goes to sleep for it. -/
def contended : List Label := .lock 0 :: steps 0 2 ++ .lock 1 :: steps 1 9

theorem sleep_mutex_safe_contended : ∃ s, machine.Reach StoresAlone s ∧ s.pc 0 = .held ∧ Blocked s 1 ∧
    (∀ t u, (s.pc t).owns = true → (s.pc u).owns = true → t = u) ∧
      (Quiet s → ∀ t, Blocked s t → ∃ u, s.pc u = .held) := by
  obtain ⟨s, hs, hheld, hblocked⟩ := machine.exists_reach_of_runWhile StoresAlone
    (fun s : State => s.pc 0 = .held ∧ Blocked s 1) contended rfl (by decide)
  exact ⟨s, hs, hheld, hblocked, sleep_mutex_safe hs⟩

/-- The owner looks for a state, the other task creates one and goes to sleep, the owner stores. -/
def storeAfterSleep : List Label :=
  .lock 0 :: steps 0 2 ++ .unlock 0 :: steps 0 1 ++ .lock 1 :: steps 1 9 ++ steps 0 1

/-- A task is blocked, nobody is in a call, and nobody has the mutex. -/
theorem sleeper_on_free_mutex :
    ∃ s, machine.Reachable s ∧ Quiet s ∧ Blocked s 1 ∧ s.locked = false ∧ ∀ u, s.pc u ≠ .held := by
  have hrun : (machine.run boot storeAfterSleep).any
      (fun s : State => s.pc 0 = .idle ∧ Blocked s 1 ∧ s.locked = false) = true := by decide
  obtain ⟨s, hrun, hp⟩ := (any_eq_true _ _).mp hrun
  obtain ⟨h0, h1, hlocked⟩ := of_decide_eq_true hp
  have hother : ∀ u, u ≠ 0 → u ≠ 1 → s.pc u = .idle := by
    intro u hu0 hu1
    refine run_pc hrun fun l hl => ?_
    have hmover : l.mover = 0 ∨ l.mover = 1 := by
      revert l
      decide
    rcases hmover with hm | hm <;> rw [hm] <;> assumption
  refine ⟨s, machine.reachable_of_run rfl hrun, ?_, h1, hlocked, ?_⟩
  · intro u
    by_cases hu0 : u = 0
    · exact .inl (hu0 ▸ h0)
    · by_cases hu1 : u = 1
      · exact .inr (.inr (hu1 ▸ h1))
      · exact .inl (hother u hu0 hu1)
  · intro u
    by_cases hu0 : u = 0
    · rw [hu0, h0]
      nofun
    by_cases hu1 : u = 1
    · rw [hu1, h1.1]
      nofun
    · rw [hother u hu0 hu1]
      nofun

end CosmOS.FsSleepMutex
