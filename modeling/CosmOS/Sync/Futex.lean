import CosmOS.Sync.WaitSlots

/-!
# Sync.Futex — futex waits, wakes, requeues, timers and signals (os/src/sync/futex.rs)

`futex_wait_addr`, `futex_wake_addr`, `futex_requeue_addr`, `futex_cmp_requeue_addr` and
`handle_futex_wait_timeout`, with the wait queues of `task/wait_queue.rs` below them.  Each
lock-protected section is one atomic step, and so is each read of the futex word; between two steps
of a call any other call may run.

* A wait is the call its thread is in.  Wakes, requeues and the wakeups by signals and timers are
  operations without identity: the state has them as a list of which any element may move.
* The wait queues are one list of waiters in the order of their arrival, each with the queue it
  stands in.  The queue table is the list of its entries.
* A thread carries what its wakers read: asleep (published as a sleeper and not woken), the queue
  `current_wq_handle` points to, and whether an unmasked signal is pending.
* The slots of the timed waits are the registry `futex` of `CosmOS.Sync.WaitSlots`; the pointer of a
  task is its number.
* `FutexTimeoutDiag` and the logs, which decide nothing, are left out.

`returned`, `requeued`, `owed`, `succeeded` and `failed` are history: a wake operation owes a wait its
success from the section on in which it counts the waiter.
-/

namespace CosmOS.Futex

open Function

abbrev Tid := ℕ

abbrev QueueId := ℕ

def maxCachedFutexKeys : ℕ := 1024

structure FutexKey where
  address : ℕ
  privateMm : Option ℕ
deriving DecidableEq, Repr

/-! ## The registry of timed waits -/

open WaitSlots (WaitState Handle Slots)

abbrev FutexWaitState := WaitState

abbrev FutexWaitHandle := Handle

/-- The registry is the member `futex` of the registries of wait slots. -/
abbrev FutexWaitRegistry := Slots

namespace FutexWaitRegistry

variable (r : FutexWaitRegistry) (h : FutexWaitHandle) (t : Tid)

@[irreducible] def alloc : Option (FutexWaitHandle × FutexWaitRegistry) :=
  (Slots.alloc .futex r ⟨t, 0, 0⟩).map fun x => (x.1.handle, x.2)

def keyValid : Bool := Slots.keyValid .futex r h

def cleanup : FutexWaitRegistry := Slots.cleanup .futex r h

/-- `futex_wait_state`; `none` is `Canceled`. -/
def waitState : Option FutexWaitState :=
  if r.keyValid h then
    match (r.slots h.slotIdx).state with
    | .ready => some .ready
    | .timedOut => some .timedOut
    | .active | .free => none
  else none

def shouldSkip : Bool :=
  !r.keyValid h || (r.slots h.slotIdx).state != .active

def markReady : FutexWaitRegistry := Slots.markReady .futex r (.task t)

/-- The section of `handle_futex_wait_timeout`: whether it times the wait out. -/
def timesOut : Bool :=
  r.keyValid h && (r.slots h.slotIdx).owner.task == t && (r.slots h.slotIdx).state == .active

def handleTimeout : FutexWaitRegistry := Slots.handleTimeout .futex r h t

end FutexWaitRegistry

/-! ## Waits and operations -/

inductive SleepPc where
  | prepare
  | skipWord
  | skipHandle
  | skipSignal
  | cancelQueue
  | cancelTask
  | blocked
  | finishQueue
  | finishTask
deriving DecidableEq, Repr

inductive WaitPc where
  | idle
  | read
  | deadline
  | queue
  | register (q : QueueId)
  | arm (q : QueueId) (h : FutexWaitHandle)
  | sleep (q : QueueId) (h : Option FutexWaitHandle) (k : SleepPc)
  | state (h : FutexWaitHandle)
  | cleanup (h : FutexWaitHandle) (wakeState : Option FutexWaitState)
  | signal
deriving DecidableEq

/-- Where a wait goes on behind the sleep. -/
def afterSleep : Option FutexWaitHandle → WaitPc
  | some h => .state h
  | none => .signal

inductive Ret where
  | ok
  | eagain
  | etimedout
  | eintr
  | efault
deriving DecidableEq, Repr

structure Thread where
  key : FutexKey
  expected : ℤ
  deadline : Option ℕ
  pc : WaitPc
  asleep : Bool
  /-- the queue `current_wq_handle` points to -/
  handle : Option QueueId
  pending : Bool
deriving DecidableEq

structure Timer where
  expire : ℕ
  task : Tid
  tag : FutexWaitHandle
deriving DecidableEq

/-- Where an operation other than a wait stands. -/
inductive Op where
  /-- `futex_wake_key`: the queue is to be looked up -/
  | wake (key : FutexKey) (maxCount : ℕ)
  /-- `wake_up_to_with`: at the head of the loop -/
  | pop (q : QueueId) (limit count : ℕ)
  | check (q : QueueId) (limit count : ℕ) (t : Tid)
  | onWake (q : QueueId) (limit count : ℕ) (t : Tid)
  | wakeup (q : QueueId) (limit count : ℕ) (t : Tid)
  /-- `futex_requeue_addr`: the source queue is to be looked up, then the destination -/
  | requeue (src dst : FutexKey) (wakeCount requeueCount : ℕ)
  | requeueTo (src : QueueId) (dst : FutexKey) (wakeCount requeueCount : ℕ)
  | collect (src dst : QueueId) (wakeCount requeueCount : ℕ)
  | onWakeList (todo : List Tid) (moved : ℕ)
  | wakeupList (t : Tid) (todo : List Tid) (moved : ℕ)
  /-- a signal or a timer wakes the thread, by its handle if it has one -/
  | kick (t : Tid) (signal : Bool)
  | shouldWake (t : Tid)
  /-- `wake_waiter_by_ptr` of the queue -/
  | wakeWaiter (q : QueueId) (t : Tid)
  | remove (q : QueueId) (t : Tid)
  | rouse (t : Tid)
deriving DecidableEq

structure State where
  clock : ℕ
  /-- the futex word of a key, unless it cannot be read -/
  word : FutexKey → Option ℤ
  /-- `FUTEX_QUEUES` -/
  table : List (FutexKey × QueueId)
  /-- how many queues were made -/
  made : ℕ
  waiters : List (QueueId × Tid)
  registry : FutexWaitRegistry
  timers : List Timer
  threads : Tid → Thread
  ops : List Op
  /-- the total of the counts that the operations returned -/
  returned : ℕ
  /-- how many of them were moved to another queue and not woken -/
  requeued : ℕ
  /-- the threads whose current wait a wake operation has counted -/
  owed : List Tid
  succeeded : ℕ
  failed : ℕ

namespace State

variable (s : State) (t : Tid)

def setThread (x : Thread) : State := { s with threads := update s.threads t x }

def goto (pc : WaitPc) : State := s.setThread t { s.threads t with pc := pc }

def ret (r : Ret) : State :=
  let s' := s.goto t .idle
  if t ∈ s.owed then
    if r = .ok then { s' with owed := s.owed.filter (· ≠ t), succeeded := s.succeeded + 1 }
    else { s' with owed := s.owed.filter (· ≠ t), failed := s.failed + 1 }
  else s'

/-! ### Wait queues -/

variable (q : QueueId)

def queue : List Tid := (s.waiters.filter (·.1 = q)).map Prod.snd

def removeWaiter (t : Tid) : State :=
  { s with waiters := s.waiters.filter (· ≠ (q, t)) }

def waitsOn (t : Tid) : Bool :=
  (s.threads t).asleep && (s.threads t).handle == some q

def wakeupTask : State :=
  if (s.threads t).asleep then s.setThread t { s.threads t with asleep := false, handle := none } else s

def prepareToWait : State :=
  { s.setThread t { s.threads t with asleep := true, handle := some q } with
    waiters := s.waiters ++ [(q, t)] }

def futexQueueByKey (key : FutexKey) : QueueId × State :=
  match s.table.lookup key with
  | some q => (q, s)
  | none =>
    let table :=
      if s.table.length ≥ maxCachedFutexKeys then s.table.filter fun e => !(s.queue e.2).isEmpty
      else s.table
    (s.made, { s with table := (key, s.made) :: table, made := s.made + 1 })

/-! ### `futex_wait_addr` -/

def sleepStep (h : Option FutexWaitHandle) : SleepPc → Option State
  | .prepare => some ((s.prepareToWait t q).goto t (.sleep q h .skipWord))
  | .skipWord =>
    some (s.goto t (.sleep q h
      (if s.word (s.threads t).key = some (s.threads t).expected then .skipHandle else .cancelQueue)))
  | .skipHandle =>
    some (s.goto t (.sleep q h (if h.any s.registry.shouldSkip then .cancelQueue else .skipSignal)))
  | .skipSignal =>
    some (s.goto t (.sleep q h (if (s.threads t).pending then .cancelQueue else .blocked)))
  | .cancelQueue => some ((s.removeWaiter q t).goto t (.sleep q h .cancelTask))
  | .cancelTask => some ((s.wakeupTask t).goto t (afterSleep h))
  | .blocked => if (s.threads t).asleep then none else some (s.goto t (.sleep q h .finishQueue))
  | .finishQueue => some ((s.removeWaiter q t).goto t (.sleep q h .finishTask))
  | .finishTask =>
    let handle := if (s.threads t).handle = some q then none else (s.threads t).handle
    some ((s.setThread t { s.threads t with handle := handle }).goto t (afterSleep h))

def futexWaitAddr : WaitPc → Option State
  | .idle => none
  | .read =>
    match s.word (s.threads t).key with
    | none => some (s.ret t .efault)
    | some current =>
      if current ≠ (s.threads t).expected then some (s.ret t .eagain) else some (s.goto t .deadline)
  | .deadline =>
    if (s.threads t).deadline.any (· ≤ s.clock) then some (s.ret t .etimedout)
    else some (s.goto t .queue)
  | .queue =>
    let (q, s') := s.futexQueueByKey (s.threads t).key
    some (s'.goto t (if (s.threads t).deadline.isSome then .register q else .sleep q none .prepare))
  | .register q =>
    match s.registry.alloc t with
    | none => some (s.ret t .eagain)
    | some (h, registry) => some ({ s with registry := registry }.goto t (.arm q h))
  | .arm q h =>
    let timer : Timer := ⟨(s.threads t).deadline.getD 0, t, h⟩
    some ({ s with timers := timer :: s.timers }.goto t (.sleep q (some h) .prepare))
  | .sleep q h k => s.sleepStep t q h k
  | .state h => some (s.goto t (.cleanup h (s.registry.waitState h)))
  | .cleanup h wakeState =>
    let s' := { s with registry := s.registry.cleanup h }
    match wakeState with
    | some .ready => some (s'.ret t .ok)
    | some .timedOut => some (s'.ret t .etimedout)
    | _ => some (s'.goto t .signal)
  | .signal => some (s.ret t (if (s.threads t).pending then .eintr else .ok))

/-! ### Wakes and requeues -/

/-- An operation moves on; with no position left it is over. -/
def replace (c : Op) (cs : List Op) : State := { s with ops := cs ++ s.ops.erase c }

def finish (c : Op) (count : ℕ) : State := { s.replace c [] with returned := s.returned + count }

def markReady : State := { s with registry := s.registry.markReady t }

end State

/-- The first loop of `collect_wake_and_requeue`: the wake list and what is left of the queue. -/
def collectWake (waits : Tid → Bool) : ℕ → List Tid → List Tid × List Tid
  | 0, l => ([], l)
  | _ + 1, [] => ([], [])
  | n + 1, t :: l =>
    if waits t then
      let (woken, rest) := collectWake waits n l
      (t :: woken, rest)
    else collectWake waits (n + 1) l

/-- The second loop.  A waiter that is moved no longer waits on this queue. -/
def collectRequeue (waits : Tid → Bool) : ℕ → List Tid → List Tid × List Tid
  | 0, l => ([], l)
  | _ + 1, [] => ([], [])
  | n + 1, t :: l =>
    if waits t then
      let (moved, rest) := collectRequeue (fun u => waits u && u != t) n l
      (t :: moved, rest)
    else collectRequeue waits (n + 1) l

namespace State

variable (s : State)

/-- `collect_wake_and_requeue`, under both queue locks: the wake list and the number of moved
waiters. -/
def collectWakeAndRequeue (src dst : QueueId) (wakeCount requeueCount : ℕ) : List Tid × ℕ × State :=
  let (woken, left) := collectWake (s.waitsOn src) wakeCount (s.queue src)
  let (moved, rest) := collectRequeue (s.waitsOn src) requeueCount left
  (woken, moved.length,
    { s with
      waiters := s.waiters.filter (·.1 ≠ src) ++ rest.map (src, ·) ++ moved.map (dst, ·)
      threads := fun t =>
        if t ∈ moved then { s.threads t with handle := some dst } else s.threads t })

def opStep (c : Op) : State :=
  match c with
  | .wake key maxCount =>
    match s.table.lookup key with
    | none => s.finish c 0
    | some q => s.replace c [.pop q maxCount 0]
  | .pop q limit count =>
    if count < limit then
      match s.queue q with
      | [] => s.finish c count
      | t :: _ => { s with waiters := s.waiters.erase (q, t) }.replace c [.check q limit count t]
    else s.finish c count
  | .check q limit count t =>
    if s.waitsOn q t then { s with owed := t :: s.owed }.replace c [.onWake q limit count t]
    else s.replace c [.pop q limit count]
  | .onWake q limit count t => (s.markReady t).replace c [.wakeup q limit count t]
  | .wakeup q limit count t => (s.wakeupTask t).replace c [.pop q limit (count + 1)]
  | .requeue src dst wakeCount requeueCount =>
    let (q, s') := s.futexQueueByKey src
    s'.replace c [.requeueTo q dst wakeCount requeueCount]
  | .requeueTo src dst wakeCount requeueCount =>
    let (q, s') := s.futexQueueByKey dst
    s'.replace c [if src = q then .pop src wakeCount 0 else .collect src q wakeCount requeueCount]
  | .collect src dst wakeCount requeueCount =>
    let (woken, moved, s') := s.collectWakeAndRequeue src dst wakeCount requeueCount
    { s' with owed := woken ++ s.owed, requeued := s.requeued + moved }.replace c
      [.onWakeList woken (woken.length + moved)]
  | .onWakeList [] moved => s.finish c moved
  | .onWakeList (t :: todo) moved => (s.markReady t).replace c [.wakeupList t todo moved]
  | .wakeupList t todo moved => (s.wakeupTask t).replace c [.onWakeList todo moved]
  | .kick t signal =>
    match (s.threads t).handle with
    | some q => s.replace c [.wakeWaiter q t]
    | none => s.replace c [if signal then .shouldWake t else .rouse t]
  | .shouldWake t => s.replace c (if (s.threads t).asleep then [.rouse t] else [])
  | .wakeWaiter q t =>
    match (s.threads t).handle with
    | some q' => s.replace c [if q' ≠ q then .wakeWaiter q' t else .remove q t]
    | none => s.replace c [.remove q t]
  | .remove q t => (s.removeWaiter q t).replace c [.rouse t]
  | .rouse t => (s.wakeupTask t).replace c []

end State

/-! ## The system -/

inductive Label where
  | tick
  /-- a user store to the word, or a change of its mapping -/
  | store (key : FutexKey) (value : Option ℤ)
  | wait (t : Tid) (key : FutexKey) (expected : ℤ) (deadline : Option ℕ)
  | run (t : Tid)
  | wake (key : FutexKey) (maxCount : ℕ)
  | requeue (src dst : FutexKey) (wakeCount requeueCount : ℕ)
  | cmpRequeue (src dst : FutexKey) (wakeCount requeueCount : ℕ) (expected : ℤ)
  | op (c : Op)
  | signal (t : Tid)
  /-- a thread outside of a wait handles its signals -/
  | handleSignals (t : Tid)
  | expire (x : Timer)

def next (s : State) : Label → Option State
  | .tick => some { s with clock := s.clock + 1 }
  | .store key value => some { s with word := update s.word key value }
  | .wait t key expected deadline =>
    if (s.threads t).pc = .idle then
      some (s.setThread t { s.threads t with
        key := key, expected := expected, deadline := deadline, pc := .read })
    else none
  | .run t => s.futexWaitAddr t (s.threads t).pc
  | .wake key maxCount => some { s with ops := .wake key maxCount :: s.ops }
  | .requeue src dst wakeCount requeueCount =>
    some { s with ops := .requeue src dst wakeCount requeueCount :: s.ops }
  | .cmpRequeue src dst wakeCount requeueCount expected =>
    if s.word src = some expected then
      some { s with ops := .requeue src dst wakeCount requeueCount :: s.ops }
    else some s
  | .op c => if c ∈ s.ops then some (s.opStep c) else none
  | .signal t =>
    some { s.setThread t { s.threads t with pending := true } with ops := .kick t true :: s.ops }
  | .handleSignals t =>
    if (s.threads t).pc = .idle then some (s.setThread t { s.threads t with pending := false })
    else none
  | .expire x =>
    if x ∈ s.timers ∧ x.expire ≤ s.clock then
      let s' := { s with timers := s.timers.erase x }
      if s.registry.timesOut x.tag x.task then
        some { s' with
          registry := s.registry.handleTimeout x.tag x.task, ops := .kick x.task false :: s.ops }
      else some s'
    else none

def Thread.fresh : Thread := ⟨⟨0, none⟩, 0, none, .idle, false, none, false⟩

/-- No call is in progress and no queue has been made; the words are arbitrary. -/
def boot (word : FutexKey → Option ℤ) : State :=
  { clock := 0, word := word, table := [], made := 0, waiters := [], registry := .new, timers := [],
    threads := fun _ => .fresh, ops := [], returned := 0, requeued := 0, owed := [], succeeded := 0,
    failed := 0 }

def machine : Machine State Label where
  Init s := ∃ word, s = boot word
  next := next

end CosmOS.Futex
