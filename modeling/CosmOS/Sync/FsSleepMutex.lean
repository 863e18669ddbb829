import CosmOS.Machine

/-!
# Sync.FsSleepMutex — the sleepable mutex of the filesystem crate

`SleepMutex` of the filesystem crate with the hooks of `fs_sleep_mutex.rs`, for one mutex and any number of
tasks.  Every operation on the flag `locked`, every section under the lock of `FS_MUTEX_STATES`, under the
lock of the wait queue and under the lock of a task is one step.  `inner` is a lock of its own: its holder
takes several steps, and drops it with the last of them.

* `present` says whether the table has a state for the key; a state is never removed from the table.
* A task sleeps in the queue of this mutex only, so `current_wq_handle` is left out: a task that is
  interruptible waits here.
* `wakeup_task` is one step, which makes an interruptible task runnable.  What the scheduler does then is
  the subject of `CosmOS.Sched`.
* A signal may wake a sleeper: it unlinks the task and wakes it in two sections.  With a fatal signal the
  sleeper exits if it finds the mutex locked.
-/

namespace CosmOS.FsSleepMutex

abbrev TaskId := ℕ

inductive TaskStatus where
  | running
  | interruptible
  | runnable
deriving DecidableEq

/-- Who called `try_lock_state`: `fs_sleep_mutex_try_lock`, or `fs_sleep_mutex_wait` after the sleep. -/
inductive TryCaller where
  | tryLock
  | wait
deriving DecidableEq

inductive Pc where
  /-- In no call, without the mutex. -/
  | idle
  -- fs_sleep_mutex_try_lock
  | tryLookup
  | tryAtomic
  | tryState (c : TryCaller)
  | tryStateLocked (c : TryCaller)
  -- fs_sleep_mutex_wait
  | waitLookup
  | waitInsert
  | waitEnter
  | waitTry
  | waitPrepare
  | waitRetry
  | waitCancel
  | waitCancelTask
  | block
  | asleep
  | finishWait
  | waitTest
  /-- In no call, with the mutex. -/
  | held
  -- fs_sleep_mutex_unlock
  | unlockLookup
  | unlockStore
  | unlockEnter
  | unlockPop
  | unlockCheck (w : TaskId)
  | unlockRelease (w : Option TaskId)
  | unlockWake (w : TaskId)
  -- wake_waiter_by_ptr, for a signal
  | signalUnlink (w : TaskId)
  | signalWake (w : TaskId)
deriving DecidableEq

/-- `try_lock_state` returns false. -/
def TryCaller.failed : TryCaller → Pc
  | .tryLock => .waitLookup
  | .wait => .waitTest

structure State where
  locked : Bool
  present : Bool
  inner : Option TaskId
  handoff : Option TaskId
  queue : List TaskId
  status : TaskId → TaskStatus
  pc : TaskId → Pc

namespace State

variable (s : State) (t : TaskId)

def goto (k : Pc) : State := { s with pc := Function.update s.pc t k }

def setStatus (x : TaskStatus) : State :=
  { s with status := Function.update s.status t x }

/-- `try_lock_state_locked` succeeds for the task `t`. -/
def grants : Bool := !s.locked && (s.handoff.all fun target => target == t)

/-- What the success leaves behind. -/
def take : State := { s with locked := true, handoff := none }

def enterInner : State := { s with inner := some t }

def dropInner : State := { s with inner := none }

def unlink : State := { s with queue := s.queue.filter (· ≠ t) }

def wakeup : State :=
  s.setStatus t (if s.status t = .interruptible then .runnable else s.status t)

def cancelTask : State :=
  s.setStatus t (if s.status t = .interruptible then .running else s.status t)

/-- One step of the task `t`; `fatal` says whether it has a fatal signal. -/
def step (fatal : Bool) : Option State :=
  match s.pc t with
  | .idle => none
  | .tryLookup => some (s.goto t (if s.present then .tryState .tryLock else .tryAtomic))
  | .tryAtomic => some (if s.locked then s.goto t .waitLookup else { s with locked := true }.goto t .held)
  | .tryState c => if s.inner = none then some ((s.enterInner t).goto t (.tryStateLocked c)) else none
  | .tryStateLocked c =>
    some (if s.grants t then s.take.dropInner.goto t .held else s.dropInner.goto t c.failed)
  | .waitLookup => some (s.goto t (if s.present then .waitEnter else .waitInsert))
  | .waitInsert => some ({ s with present := true }.goto t .waitEnter)
  | .waitEnter => if s.inner = none then some ((s.enterInner t).goto t .waitTry) else none
  | .waitTry => some (if s.grants t then s.take.dropInner.goto t .held else s.goto t .waitPrepare)
  | .waitPrepare =>
    some ({ s.setStatus t .interruptible with queue := s.queue ++ [t] }.goto t .waitRetry)
  | .waitRetry => some (if s.grants t then s.take.goto t .waitCancel else s.dropInner.goto t .block)
  | .waitCancel => some ((s.unlink t).goto t .waitCancelTask)
  | .waitCancelTask => some ((s.cancelTask t).dropInner.goto t .held)
  | .block =>
    some (if s.status t = .runnable then (s.setStatus t .running).goto t .finishWait
      else (s.setStatus t .interruptible).goto t .asleep)
  -- the scheduler picks a task that is runnable
  | .asleep =>
    if s.status t = .runnable then some ((s.setStatus t .running).goto t .finishWait) else none
  | .finishWait => some ((s.unlink t).goto t (.tryState .wait))
  | .waitTest => some (s.goto t (if s.locked && fatal then .idle else .tryLookup))
  | .held => none
  | .unlockLookup => some (s.goto t (if s.present then .unlockEnter else .unlockStore))
  | .unlockStore => some ({ s with locked := false }.goto t .idle)
  | .unlockEnter => if s.inner = none then some ((s.enterInner t).goto t .unlockPop) else none
  -- take_one_waiter
  | .unlockPop =>
    match s.queue with
    | [] => some (s.goto t (.unlockRelease none))
    | w :: rest => some ({ s with queue := rest }.goto t (.unlockCheck w))
  | .unlockCheck w =>
    some (s.goto t (if s.status w = .interruptible then .unlockRelease (some w) else .unlockPop))
  | .unlockRelease w =>
    some ({ s with handoff := w, locked := false }.dropInner.goto t
      (match w with
        | some w => .unlockWake w
        | none => .idle))
  | .unlockWake w => some ((s.wakeup w).goto t .idle)
  | .signalUnlink w => some ((s.unlink w).goto t (.signalWake w))
  | .signalWake w => some ((s.wakeup w).goto t .idle)

end State

inductive Label where
  | lock (t : TaskId)
  | unlock (t : TaskId)
  /-- The task `t` sends a signal to the task `w`. -/
  | signal (t w : TaskId)
  | run (t : TaskId) (fatal : Bool)

variable (s : State)

def State.begin (t : TaskId) (k k' : Pc) : Option State :=
  if s.pc t = k then some (s.goto t k') else none

def next : Label → Option State
  | .lock t => s.begin t .idle .tryLookup
  | .unlock t => s.begin t .held .unlockLookup
  | .signal t w => s.begin t .idle (.signalUnlink w)
  | .run t fatal => s.step t fatal

def boot : State where
  locked := false
  present := false
  inner := none
  handoff := none
  queue := []
  status := fun _ => .running
  pc := fun _ => .idle

def machine : Machine State Label where
  Init s := s = boot
  next := next

/-! ## Ownership and waiting -/

/-- The task has the flag: from the exchange that set it to the store that clears it. -/
def Pc.owns : Pc → Bool
  | .waitCancel | .waitCancelTask | .held | .unlockLookup | .unlockStore | .unlockEnter | .unlockPop |
    .unlockCheck _ | .unlockRelease _ => true
  | _ => false

def Blocked (t : TaskId) : Prop := s.pc t = .asleep ∧ s.status t ≠ .runnable

/-- No call is in progress other than blocked calls of `lock`. -/
def Quiet : Prop := ∀ t, s.pc t = .idle ∨ s.pc t = .held ∨ Blocked s t

instance (t : TaskId) : Decidable (Blocked s t) := inferInstanceAs (Decidable (_ ∧ _))

end CosmOS.FsSleepMutex
