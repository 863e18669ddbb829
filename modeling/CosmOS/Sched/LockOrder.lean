import CosmOS.Mutex
import CosmOS.Sched.LockSteps

/-!
# Lock order

* `deadlock_reachable`: a late second waker holds the runqueue of a hart and waits for the task
  that the timer tick of the same hart has locked.
* `no_deadlock`: it takes such a request.  If no foreign path that holds the runqueue of a hart
  asks for a task this hart runs or is about to run, no such state is reached.

The argument is about one runqueue: while somebody holds it, its hart cannot commit itself to
another task, because every way to a task goes through a section on the hart's own runqueue.
-/

namespace CosmOS.Sched

open Function Option

variable {maxHarts : ℕ}

/-- The runqueue lock that goes with a position. -/
def LockPc.rq (a : Agent maxHarts) : LockPc maxHarts → Option (Hart maxHarts)
  | .heldRq _ r | .wantsTask _ r _ | .heldBoth _ r _ => some r
  | .tickBoth _ =>
    match a with
    | .tick h => some h
    | _ => none
  | _ => none

def LockPc.task : LockPc maxHarts → Option Tid
  | .heldBoth _ _ t | .tickHeld t | .tickWantsRq t | .tickBoth t => some t
  | _ => none

def LockPc.sect : LockPc maxHarts → Option (Label maxHarts × Hart maxHarts)
  | .heldRq l r | .wantsTask l r _ | .heldBoth l r _ => some (l, r)
  | _ => none

/-- The task a timer tick is about. -/
def LockPc.ticking : LockPc maxHarts → Option Tid
  | .tickWants t | .tickHeld t | .tickWantsRq t | .tickBoth t => some t
  | _ => none

structure LockInv (s : LockState maxHarts) : Prop where
  current : CurrentOk s.sched
  rq : Mutex.Agrees s.rqLock fun a => (s.pc a).rq a
  task : Mutex.Agrees s.taskLock fun a => (s.pc a).task
  sect : ∀ a l r, (s.pc a).sect = some (l, r) →
    l.agent = a ∧ ∀ h, a = .hart h → rqOf s.sched l = some r
  ticking : ∀ a t, (s.pc a).ticking = some t → ∃ h, a = .tick h ∧ s.sched.current h = some t
  /-- Whoever holds the runqueue of a hart and waits for a task, the hart is not committed to
  it. -/
  away : ∀ a l r t, s.pc a = .wantsTask l r t → a ≠ .hart r → (s.sched.pc r).commits t = false

/-- No foreign path that holds the runqueue of a hart asks for a task this hart runs or is about
to run. -/
def RequestsAway (s : LockState maxHarts) : LockLabel maxHarts → Prop
  | .request a t =>
    match s.pc a with
    | .heldRq _ r => a = .hart r ∨ (s.sched.pc r).commits t = false
    | _ => True
  | _ => True

instance (s : LockState maxHarts) (l : LockLabel maxHarts) : Decidable (RequestsAway s l) := by
  unfold RequestsAway
  cases l <;> dsimp only
  case request a t => cases s.pc a <;> infer_instance
  all_goals infer_instance

theorem LockInv.not_deadlock {s : LockState maxHarts} (hi : LockInv s) : ¬ Deadlock s := by
  rintro ⟨a, b, r, t, hrq, hwait, htask, rfl, u, hb⟩
  -- The tick of `r` holds `t`, so `t` is current on `r`.
  have hbt : u = t := by
    have hheld := (hi.task t (.tick r)).mp htask
    simpa [hb, LockPc.task] using hheld
  subst hbt
  rcases hi.ticking (.tick r) u (hb ▸ rfl) with ⟨h, hh, hcur⟩
  obtain rfl : r = h := by simpa using hh
  have hpc : (s.sched.pc r).currentTask = some u := (hi.current r).symm.trans hcur
  -- The waiter holds the runqueue of `r`; it is neither the tick nor the scheduler of `r`.
  have hheld := (hi.rq r a).mp hrq
  rcases hwait with ⟨l, r', ha⟩ | ha
  · obtain rfl : r' = r := by simpa [ha, LockPc.rq] using hheld
    rcases eq_or_ne a (.hart r') with rfl | har
    · obtain ⟨hagent, hrqOf⟩ := hi.sect _ l r' (by rw [ha]; rfl)
      rw [currentTask_of_rqOf hagent (hrqOf r' rfl)] at hpc
      contradiction
    · have haway := hi.away a l r' u ha har
      rw [HartPc.commits_of_currentTask hpc] at haway
      contradiction
  · simp [ha, LockPc.rq] at hheld

section Steps

variable {s s' : LockState maxHarts} {a : Agent maxHarts} {pc' : LockPc maxHarts}

/-- The locks held after one agent has moved. -/
theorem held_update {β : Type*} (f : Agent maxHarts → LockPc maxHarts → Option β)
    (hpc : s'.pc = update s.pc a pc') :
    (fun b => f b (s'.pc b)) = update (fun b => f b (s.pc b)) a (f a pc') := by
  funext b
  rw [hpc]
  exact apply_update f s.pc a pc' b

theorem held_same {β : Type*} (f : Agent maxHarts → LockPc maxHarts → Option β)
    (hpc : s'.pc = update s.pc a pc') (hf : f a pc' = f a (s.pc a)) :
    (fun b => f b (s'.pc b)) = fun b => f b (s.pc b) := by
  rw [held_update f hpc, hf]
  exact update_eq_self _ _

theorem LockInv.move (hi : LockInv s) (hsched : s'.sched = s.sched) (hpc : s'.pc = update s.pc a pc')
    (hrq : Mutex.Agrees s'.rqLock fun b => (s'.pc b).rq b)
    (htask : Mutex.Agrees s'.taskLock fun b => (s'.pc b).task)
    (hsect : ∀ l r, pc'.sect = some (l, r) →
      l.agent = a ∧ ∀ h, a = .hart h → rqOf s.sched l = some r)
    (hticking : ∀ t, pc'.ticking = some t → ∃ h, a = .tick h ∧ s.sched.current h = some t)
    (haway : ∀ l r t, pc' = .wantsTask l r t → a ≠ .hart r → (s.sched.pc r).commits t = false) :
    LockInv s' := by
  refine ⟨hsched ▸ hi.current, hrq, htask, ?_, ?_, ?_⟩
  · intro b l r hb
    rw [hsched]
    rw [hpc] at hb
    rcases eq_or_ne b a with rfl | hba
    · rw [update_self] at hb
      exact hsect l r hb
    · rw [update_of_ne hba] at hb
      exact hi.sect b l r hb
  · intro b t hb
    rw [hsched]
    rw [hpc] at hb
    rcases eq_or_ne b a with rfl | hba
    · rw [update_self] at hb
      exact hticking t hb
    · rw [update_of_ne hba] at hb
      exact hi.ticking b t hb
  · intro b l r t hb hne
    rw [hsched]
    rw [hpc] at hb
    rcases eq_or_ne b a with rfl | hba
    · rw [update_self] at hb
      exact haway l r t hb hne
    · rw [update_of_ne hba] at hb
      exact hi.away b l r t hb hne

variable {l : Label maxHarts}

section

variable (hi : LockInv s)
include hi

theorem LockInv.rq_same (hpc : pc'.rq a = (s.pc a).rq a) :
    Mutex.Agrees s.rqLock fun b => ((s.goto a pc').pc b).rq b := by
  rw [held_same (fun b pc => pc.rq b) rfl hpc]
  exact hi.rq

theorem LockInv.task_same (hpc : pc'.task = (s.pc a).task) :
    Mutex.Agrees s.taskLock fun b => ((s.goto a pc').pc b).task := by
  rw [held_same (fun _ pc => pc.task) rfl hpc]
  exact hi.task

/-- A section changes the data; its agent holds no lock afterwards. -/
theorem LockInv.data (hn : next s.sched l = some s'.sched)
    (hpc : ∀ b, b ≠ l.agent → s'.pc b = s.pc b) (hfree : s'.pc l.agent = .free)
    (hrq : Mutex.Agrees s'.rqLock fun b => (s'.pc b).rq b)
    (htask : Mutex.Agrees s'.taskLock fun b => (s'.pc b).task)
    (htick : ∀ h, l.agent = .hart h → (s.pc (.tick h)).ticking = none)
    (hown : ∀ h, l = .sched h → rqOf s.sched l = some h → s.rqLock h = some (.hart h)) :
    LockInv s' := by
  refine ⟨hi.current.next hn, hrq, htask, ?_, ?_, ?_⟩
  · intro b l' r hb
    have hbl : b ≠ l.agent := by
      rintro rfl
      rw [hfree] at hb
      contradiction
    rw [hpc b hbl] at hb
    obtain ⟨hagent, hrqOf⟩ := hi.sect b l' r hb
    refine ⟨hagent, ?_⟩
    rintro h rfl
    rw [rqOf_congr hagent (next_frame (Ne.symm hbl) hn).1]
    exact hrqOf h rfl
  · intro b t hb
    have hbl : b ≠ l.agent := by
      rintro rfl
      rw [hfree] at hb
      contradiction
    rw [hpc b hbl] at hb
    rcases hi.ticking b t hb with ⟨h, rfl, hcur⟩
    refine ⟨h, rfl, ?_⟩
    have hl : l.agent ≠ .hart h := by
      intro hl
      rw [htick h hl] at hb
      contradiction
    rw [(next_frame hl hn).2, hcur]
  · intro b l' r t hb hne
    have hbl : b ≠ l.agent := by
      rintro rfl
      rw [hfree] at hb
      contradiction
    rw [hpc b hbl] at hb
    by_contra hc
    rw [Bool.not_eq_false] at hc
    rcases next_commits hn hc with hc' | ⟨hl, hr⟩
    · rw [hi.away b l' r t hb hne] at hc'
      contradiction
    · -- Committing to `t` takes the runqueue lock that `b` holds.
      have hb' : s.rqLock r = some b := (hi.rq r b).mpr (by simp [hb, LockPc.rq])
      rw [hown r hl hr] at hb'
      exact hne (some.inj hb').symm

theorem LockInv.begin (hn : lockNext s (.begin l) = some s') : LockInv s' := by
  simp only [lockNext] at hn
  split at hn
  next r hr =>
    rcases ite_none_right_eq_some.mp hn with ⟨hguard, hn⟩
    obtain ⟨hfree, -, hlock⟩ := hguard
    cases hn
    refine hi.move rfl rfl ?_ (hi.task_same (hfree ▸ rfl)) ?_ (by simp [LockPc.ticking]) (by simp)
    · rw [held_update (fun b pc => pc.rq b) rfl]
      exact hi.rq.take hlock (hfree ▸ rfl)
    · intro l' r' hs
      obtain ⟨rfl, rfl⟩ := Prod.mk.inj (some.inj hs)
      exact ⟨rfl, fun _ _ => hr⟩
  · contradiction

theorem LockInv.request {t : Tid} (hok : RequestsAway s (.request a t))
    (hn : lockNext s (.request a t) = some s') : LockInv s' := by
  simp only [lockNext] at hn
  split at hn
  next l r hpc =>
    rcases ite_none_right_eq_some.mp hn with ⟨_, ⟨⟩⟩
    refine hi.move rfl rfl (hi.rq_same (hpc ▸ rfl)) (hi.task_same (hpc ▸ rfl)) ?_
      (by simp [LockPc.ticking]) ?_
    · intro l' r' hs
      exact hi.sect a l' r' (hpc ▸ hs)
    · intro l' r' t' heq hne
      obtain ⟨rfl, rfl, rfl⟩ := LockPc.wantsTask.inj heq
      simp only [RequestsAway, hpc] at hok
      exact hok.resolve_left hne
  · contradiction

theorem LockInv.acquire (hn : lockNext s (.acquire a) = some s') : LockInv s' := by
  simp only [lockNext] at hn
  split at hn
  next l r t hpc =>
    split at hn
    next hlock =>
      cases hn
      refine hi.move rfl rfl (hi.rq_same (hpc ▸ rfl)) ?_ ?_ (by simp [LockPc.ticking]) (by simp)
      · rw [held_update (fun _ pc => pc.task) rfl]
        exact hi.task.take hlock (hpc ▸ rfl)
      · intro l' r' hs
        exact hi.sect a l' r' (hpc ▸ hs)
    · contradiction
  · contradiction

theorem LockInv.release (hn : lockNext s (.release a) = some s') : LockInv s' := by
  simp only [lockNext] at hn
  split at hn
  next l r t hpc =>
    cases hn
    refine hi.move rfl rfl (hi.rq_same (hpc ▸ rfl)) ?_ ?_ (by simp [LockPc.ticking]) (by simp)
    · rw [held_update (fun _ pc => pc.task) rfl]
      exact hi.task.drop (hpc ▸ rfl)
    · intro l' r' hs
      exact hi.sect a l' r' (hpc ▸ hs)
  · contradiction

/-- What `LockInv.data` asks of an agent that is in a section on a runqueue. -/
theorem LockInv.of_sect {r : Hart maxHarts} (hs : (s.pc a).sect = some (l, r))
    (hlock : s.rqLock r = some a) : (∀ h, l.agent = .hart h → (s.pc (.tick h)).ticking = none) ∧
      ∀ h, l = .sched h → rqOf s.sched l = some h → s.rqLock h = some (.hart h) := by
  obtain ⟨hagent, hrqOf⟩ := hi.sect a l r hs
  constructor
  · intro h hl
    cases htick : (s.pc (.tick h)).ticking with
    | none => rfl
    | some t =>
      -- A hart in such a section runs no task, so it has nothing to tick for.
      rcases hi.ticking _ t htick with ⟨h', hh, hcur⟩
      obtain rfl : h = h' := by simpa using hh
      rw [hi.current h, currentTask_of_rqOf hl (hrqOf h (hagent ▸ hl))] at hcur
      contradiction
  · rintro h rfl hr
    have hah : a = .hart h := hagent.symm
    have heq := hrqOf h hah
    rw [hr] at heq
    obtain rfl : h = r := some.inj heq
    rw [hlock, hah]

theorem LockInv.commit (hn : lockNext s (.commit a) = some s') : LockInv s' := by
  simp only [lockNext] at hn
  split at hn
  next l r hpc =>
    split at hn
    · contradiction
    rcases map_eq_some_iff.mp hn with ⟨sched, hnext, rfl⟩
    have hagent := (hi.sect a l r (hpc ▸ rfl)).1
    have hlock : s.rqLock r = some a := (hi.rq r a).mpr (by simp [hpc, LockPc.rq])
    obtain ⟨htick, hown⟩ := hi.of_sect (by rw [hpc]; rfl) hlock
    subst hagent
    refine hi.data hnext (fun b hb => update_of_ne hb _ _) (update_self _ _ _) ?_
      (hi.task_same (hpc ▸ rfl)) htick hown
    · rw [held_update (fun b pc => pc.rq b) rfl]
      exact hi.rq.drop (hpc ▸ rfl)
  next l r t hpc =>
    split at hn
    · rcases map_eq_some_iff.mp hn with ⟨sched, hnext, rfl⟩
      have hagent := (hi.sect a l r (hpc ▸ rfl)).1
      have hlock : s.rqLock r = some a := (hi.rq r a).mpr (by simp [hpc, LockPc.rq])
      obtain ⟨htick, hown⟩ := hi.of_sect (by rw [hpc]; rfl) hlock
      subst hagent
      refine hi.data hnext (fun b hb => update_of_ne hb _ _) (update_self _ _ _) ?_ ?_ htick hown
      · rw [held_update (fun b pc => pc.rq b) rfl]
        exact hi.rq.drop (by rw [hpc]; rfl)
      · rw [held_update (fun _ pc => pc.task) rfl]
        exact hi.task.drop (by rw [hpc]; rfl)
    · contradiction
  · contradiction

theorem LockInv.plain (hn : lockNext s (.plain l) = some s') : LockInv s' := by
  simp only [lockNext] at hn
  split at hn
  · contradiction
  rename_i hrqOf
  rcases ite_none_right_eq_some.mp hn with ⟨hguard, hn⟩
  obtain ⟨hfree, hint, -⟩ := hguard
  rcases map_eq_some_iff.mp hn with ⟨sched, hnext, rfl⟩
  refine hi.data hnext (fun _ _ => rfl) hfree hi.rq hi.task ?_ ?_
  · intro h hl
    rw [hl] at hint
    have htick : s.pc (.tick h) = .free := by simpa [LockState.interrupted] using hint
    rw [htick]
    rfl
  · intro h _ hr
    rw [hrqOf] at hr
    contradiction

theorem LockInv.tick {h : Hart maxHarts} (hn : lockNext s (.tick h) = some s') : LockInv s' := by
  simp only [lockNext] at hn
  split at hn
  next t hcur =>
    rcases ite_none_right_eq_some.mp hn with ⟨hfree, ⟨⟩⟩
    refine hi.move rfl rfl (hi.rq_same (hfree ▸ rfl)) (hi.task_same (hfree ▸ rfl)) (by simp [LockPc.sect])
      ?_ (by simp)
    · intro u hu
      cases hu
      exact ⟨h, rfl, hcur⟩
  · contradiction

/-- The timer tick, which takes the task lock before the runqueue lock. -/
theorem LockInv.tickStep {h : Hart maxHarts} {sliceLeft : Bool}
    (hn : s.tickStep h sliceLeft = some s') : LockInv s' := by
  -- Every position but the last is about the task the tick started with.
  have hticking : ∀ {t}, (s.pc (.tick h)).ticking = some t → ∀ u, some t = some u →
      ∃ h', Agent.tick h = .tick h' ∧ s.sched.current h' = some u := by
    rintro t ht u hu
    exact hi.ticking _ u (ht.trans hu)
  unfold LockState.tickStep at hn
  split at hn
  next t hpc =>
    split at hn
    next hlock =>
      cases hn
      refine hi.move rfl rfl (hi.rq_same (hpc ▸ rfl)) ?_ (by simp [LockPc.sect]) (hticking (hpc ▸ rfl))
        (by simp)
      · rw [held_update (fun _ pc => pc.task) rfl]
        exact hi.task.take hlock (hpc ▸ rfl)
    · contradiction
  next t hpc =>
    have hdone : LockInv ((s.setTaskLock t none).goto (.tick h) .free) := by
      refine hi.move rfl rfl (hi.rq_same (hpc ▸ rfl)) ?_ (by simp [LockPc.sect]) (by simp [LockPc.ticking])
        (by simp)
      · rw [held_update (fun _ pc => pc.task) rfl]
        exact hi.task.drop (hpc ▸ rfl)
    have hask : LockInv (s.goto (.tick h) (.tickWantsRq t)) := by
      refine hi.move rfl rfl (hi.rq_same (hpc ▸ rfl)) (hi.task_same (hpc ▸ rfl)) (by simp [LockPc.sect])
        (hticking (hpc ▸ rfl)) (by simp)
    simp only at hn
    split at hn
    · exact some.inj hn ▸ hdone
    split at hn
    · exact some.inj hn ▸ hask
    · exact some.inj hn ▸ hask
    · rw [← some.inj hn]
      split
      · exact hdone
      · exact hask
    · exact some.inj hn ▸ hdone
  next t hpc =>
    split at hn
    next hlock =>
      cases hn
      refine hi.move rfl rfl ?_ (hi.task_same (hpc ▸ rfl)) (by simp [LockPc.sect]) (hticking (hpc ▸ rfl))
        (by simp)
      · rw [held_update (fun b pc => pc.rq b) rfl]
        exact hi.rq.take hlock (hpc ▸ rfl)
    · contradiction
  next t hpc =>
    cases hn
    refine hi.move rfl rfl ?_ ?_ (by simp [LockPc.sect]) (by simp [LockPc.ticking]) (by simp)
    · rw [held_update (fun b pc => pc.rq b) rfl]
      exact hi.rq.drop (hpc ▸ rfl)
    · rw [held_update (fun _ pc => pc.task) rfl]
      exact hi.task.drop (hpc ▸ rfl)
  · contradiction

theorem LockInv.next {l : LockLabel maxHarts} (hok : RequestsAway s l)
    (hn : lockNext s l = some s') : LockInv s' := by
  cases l with
  | begin l => exact hi.begin hn
  | request a t => exact hi.request hok hn
  | acquire a => exact hi.acquire hn
  | release a => exact hi.release hn
  | commit a => exact hi.commit hn
  | plain l => exact hi.plain hn
  | tick h => exact hi.tick hn
  | tickStep h sliceLeft => exact hi.tickStep hn

end

theorem LockInv.init (h₀ : s.IsInitial) : LockInv s := by
  have hpc := h₀.pc
  refine ⟨?_, ?_, ?_, ?_, ?_, ?_⟩
  · intro h
    rw [h₀.sched.current h, h₀.sched.pc h]
    rfl
  · exact Mutex.Agrees.none h₀.rqLock fun b => by rw [hpc b]; rfl
  · exact Mutex.Agrees.none h₀.taskLock fun b => by rw [hpc b]; rfl
  · intro b l r hb
    rw [hpc b] at hb
    contradiction
  · intro b t hb
    rw [hpc b] at hb
    contradiction
  · intro b l r t hb
    rw [hpc b] at hb
    contradiction

/-- **No lock-order deadlock.** In every run in which no foreign path that holds the runqueue of a
hart asks for a task this hart runs or is about to run, no state is reached in which a runqueue
lock and a task lock are waited for in a circle. -/
theorem no_deadlock (h : (lockMachine maxHarts).Reach RequestsAway s) : ¬ Deadlock s := by
  refine LockInv.not_deadlock (h.invariant (fun _ h₀ => LockInv.init h₀) ?_)
  intro s l s' hi hok hn
  exact hi.next hok hn

end Steps

def LockState.boot (lastCpu : Hart maxHarts) : LockState maxHarts where
  sched := State.boot lastCpu
  pc := fun _ => .free
  rqLock := fun _ => none
  taskLock := fun _ => none

theorem LockState.boot_isInitial (lastCpu : Hart maxHarts) : (LockState.boot lastCpu).IsInitial :=
  ⟨State.boot_isInitial lastCpu, fun _ => rfl, fun _ => rfl, fun _ => rfl⟩

/-- A section on a runqueue that locks one task and changes its data with the task locked. -/
def linkSection (l : Label maxHarts) (t : Tid) : List (LockLabel maxHarts) :=
  [.begin l, .request l.agent t, .acquire l.agent, .commit l.agent]

/-- `dequeue_task` of the fair task `t`, and its dispatch. -/
def dispatchSection (h : Hart maxHarts) (t : Tid) : List (LockLabel maxHarts) :=
  [.begin (.sched h), .request (.hart h) t, .acquire (.hart h), .release (.hart h),
    .commit (.hart h), .plain (.sched h), .plain (.sched h)]

/-- Task 0 runs on hart 0, sleeps, and two wakers see it asleep; the first one links it on hart 0,
which runs it again.  The timer tick of hart 0 locks the task. -/
def secondWakerLate : List (LockLabel 2) :=
  [.plain (.enqueue 0 0), .plain (.call 0)] ++ linkSection (.callLink 0 0 none) 0 ++
    dispatchSection 0 0 ++ [.plain (.publish 0), .plain (.block 0 false), .plain (.sched 0),
      .plain (.sched 0), .plain (.sched 0), .plain (.sched 0), .plain (.wake 1 0 1),
      .plain (.wake 2 0 1), .plain (.call 1), .plain (.call 2)] ++
    linkSection (.callLink 1 0 none) 0 ++ dispatchSection 0 0 ++
    [.tick 0, .tickStep 0 false, .tickStep 0 false]

/-- The second waker chose hart 1: it waits for the task with another runqueue in its hands. -/
theorem no_deadlock_otherHart : ∃ s, (lockMachine 2).Reach RequestsAway s ∧
    (s.pc (.tick 0) = .tickWantsRq 0 ∧ s.rqLock 1 = some (.call 2) ∧
      s.pc (.call 2) = .wantsTask (.callLink 2 1 none) 1 0) ∧ ¬ Deadlock s := by
  obtain ⟨s, hs, hp⟩ := (lockMachine 2).exists_reach_of_runWhile RequestsAway
    (fun s => s.pc (.tick 0) = .tickWantsRq 0 ∧ s.rqLock 1 = some (.call 2) ∧
      s.pc (.call 2) = .wantsTask (.callLink 2 1 none) 1 0)
    (secondWakerLate ++ [.begin (.callLink 2 1 none), .request (.call 2) 0])
    (LockState.boot_isInitial 0) (by decide)
  exact ⟨s, hs, hp, no_deadlock hs⟩

/-- The second waker chose hart 0: it holds the runqueue the tick waits for, and waits for the
task the tick holds. -/
theorem deadlock_reachable : ∃ s, (lockMachine 2).Reachable s ∧ Deadlock s := by
  obtain ⟨s, hs, hrq, hwaker, htask, htick⟩ := (lockMachine 2).exists_reachable_of_run
    (fun s => s.rqLock 0 = some (.call 2) ∧
      s.pc (.call 2) = .wantsTask (.callLink 2 0 none) 0 0 ∧ s.taskLock 0 = some (.tick 0) ∧
      s.pc (.tick 0) = .tickWantsRq 0)
    (secondWakerLate ++ [.begin (.callLink 2 0 none), .request (.call 2) 0])
    (LockState.boot_isInitial 0) (by decide)
  exact ⟨s, hs, .call 2, .tick 0, 0, 0, hrq, .inl ⟨_, _, hwaker⟩, htask, rfl, 0, htick⟩

end CosmOS.Sched
