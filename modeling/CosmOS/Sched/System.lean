import CosmOS.Machine
import CosmOS.Sched.RunQueue

/-!
# The scheduler as a machine

Every lock-protected critical section of the scheduler is one step: `sched/runqueue.rs`,
`sched/processor.rs`, `sched/api.rs`, the wait-queue entry points that publish a sleeping task,
and the four attribute system calls of `syscall/sched.rs`.

* A hart runs one piece of scheduler code at a time; `HartPc` says between which two critical
  sections it stands and which task it has in its hands.  The task itself runs at `running`.
* Wakers, callers of `enqueue_task_on` and attribute changes are `Call`s.  Any number of them is
  in progress at any time, on any hart and in any interrupt context, so they are not tied to the
  position of a hart.
* Answers that depend on loads read in earlier critical sections (`select_target_hart`,
  `running_cfs_vruntime_snapshot`, the task table of a process) come with the label: any hart,
  any hint, any candidate list.

History variables: `admitted` (linked at least once), `published` (how often a task published
itself as `Interruptible`) and `woken` (the latest publication a returned `wakeup_task` started
after).  No step reads them.

Scope limits: `resched_reason` only triggers `suspend`, which may happen at any time here; time
slices and clocks are left out and runtime is charged in arbitrary amounts.
-/

namespace CosmOS.Sched

open Function

abbrev CallId := ℕ

/-! ## Positions -/

inductive HartPc
  /-- `run_tasks`, before `dequeue_task`. -/
  | idle
  /-- `dequeue_task` has popped `t` and not locked it yet. -/
  | popped (t : Tid)
  /-- `steal_cfs_task`, before it looks at `source`. -/
  | stealing (source : ℕ)
  /-- `steal_cfs_task` has unlinked `t` from `source`. -/
  | stolen (t : Tid) (source : ℕ)
  /-- As before, with `target_min` read. -/
  | stolenMin (t : Tid) (source targetMin : ℕ)
  /-- `pick_next_task` returned `t`; the dispatch section is next. -/
  | picked (t : Tid)
  | running (t : Tid)
  /-- `t` runs and has published itself as `Interruptible`. -/
  | prepared (t : Tid)
  /-- `suspend_current_and_run_next_inner` after `take_current_task`. -/
  | suspending (t : Tid) (yieldPenalty : Bool) (rtHead : Option Bool)
  /-- `block_current_and_run_next` after `take_current_task`. -/
  | blocking (t : Tid) (nanosleep : Bool)
  /-- The block was cancelled; `restore_current_task` is next. -/
  | restoring (t : Tid)
  /-- A sleeping RT task is about to boost the fair tasks of its process. -/
  | boosting (t : Tid)
  /-- `defer_task_release_after_switch` is next. -/
  | deferring (t : Tid)
  /-- `schedule`: `t` is in the pending-release slot. -/
  | switching (t : Tid)
  /-- `finish_pending_task_release` has taken `t` from the slot. -/
  | releasing (t : Tid)
  /-- `add_task` of a released task, before its first and its second section. -/
  | requeueing (t : Tid)
  | requeueLinking (t : Tid)
  /-- The exit path has taken `t` from the processor. -/
  | exiting (t : Tid)
  /-- The exit path of a task that is dead to the scheduler. -/
  | exited
deriving Repr, DecidableEq

/-- An attribute change, after the arguments have been validated. -/
inductive AttrChange (maxHarts : ℕ)
  | setscheduler (policy : SchedPolicy) (prio : RtPrio)
  | schedAttr (policy : SchedPolicy) (prio : RtPrio) (weight : ℕ)
  | setpriority (weight : ℕ)
  | setaffinity (mask : Finset (Hart maxHarts))
deriving DecidableEq

structure Snapshot (maxHarts : ℕ) where
  wasOnRq : Bool
  wasOnCpu : Bool
  lastCpu : Hart maxHarts
  oldPolicy : SchedPolicy
  oldPriority : RtPrio
deriving DecidableEq

/-- Where a call of `wakeup_task`, `enqueue_task_on` or an attribute change stands. -/
inductive Call (maxHarts : ℕ)
  /-- `wakeup_task` on `hart`, before its first section; `epoch` is a history variable. -/
  | wake (t : Tid) (hart : Hart maxHarts) (epoch : ℕ)
  | resolve (t : Tid) (hart lastCpu : Hart maxHarts) (epoch : ℕ)
  /-- Spinning until `on_cpu` is clear. -/
  | waitSwitch (t : Tid) (epoch : ℕ)
  /-- The wait would never end on this hart. -/
  | panicked (t : Tid)
  /-- `task_is_current_on_any_hart`, before it looks at hart `source`. -/
  | repairScan (t : Tid) (source : ℕ) (epoch : ℕ)
  | linkWoken (t : Tid) (epoch : ℕ)
  /-- `enqueue_task_on`, before its first and its second section. -/
  | enqueue (t : Tid)
  | link (t : Tid)
  | attr (t : Tid) (change : AttrChange maxHarts)
  /-- `remove_task`, before it looks at runqueue `source`. -/
  | attrScan (t : Tid) (change : AttrChange maxHarts) (snap : Snapshot maxHarts) (source : ℕ)
  /-- The last section of `remove_task`. -/
  | attrFinal (t : Tid) (change : AttrChange maxHarts) (snap : Snapshot maxHarts) (found : Bool)
  | attrUpdate (t : Tid) (change : AttrChange maxHarts) (snap : Snapshot maxHarts)
  /-- The extra section that moves a running task to the head of its RT level. -/
  | attrHead (t : Tid)
deriving DecidableEq

def Call.task {maxHarts : ℕ} : Call maxHarts → Tid
  | .wake t _ _ | .resolve t _ _ _ | .waitSwitch t _ | .panicked t | .repairScan t _ _
  | .linkWoken t _ | .enqueue t | .link t | .attr t _ | .attrScan t _ _ _ | .attrFinal t _ _ _
  | .attrUpdate t _ _ | .attrHead t => t

structure State (maxHarts : ℕ) where
  tasks : Tid → Task maxHarts
  rqs : Hart maxHarts → RunQueue
  current : Hart maxHarts → Option Tid
  pending : Hart maxHarts → Option Tid
  pc : Hart maxHarts → HartPc
  calls : CallId → Option (Call maxHarts)
  admitted : Tid → Bool
  published : Tid → ℕ
  woken : Tid → ℕ

variable {maxHarts : ℕ}

namespace State

variable (s : State maxHarts) (t : Tid)

def setTask (task : Task maxHarts) : State maxHarts :=
  { s with tasks := update s.tasks t task }

variable (h : Hart maxHarts)

def goto (pc : HartPc) : State maxHarts :=
  { s with pc := update s.pc h pc }

def setRq (rq : RunQueue)
    (tasks : Tid → Task maxHarts) : State maxHarts :=
  { s with rqs := update s.rqs h rq, tasks := tasks }

def setCurrent (t : Option Tid) : State maxHarts :=
  { s with current := update s.current h t }

def setPending (t : Option Tid) : State maxHarts :=
  { s with pending := update s.pending h t }

variable (c : CallId)

def become (call : Call maxHarts) : State maxHarts :=
  { s with calls := update s.calls c (some call) }

def ret : State maxHarts :=
  { s with calls := update s.calls c none }

@[simp]
theorem setTask_tasks_self (task : Task maxHarts) : (s.setTask t task).tasks t = task :=
  update_self _ _ _

@[simp]
theorem become_calls_self (call : Call maxHarts) : (s.become c call).calls c = some call :=
  update_self _ _ _

theorem become_calls_of_ne {c c' : CallId} (hne : c' ≠ c) (s : State maxHarts)
    (call : Call maxHarts) : (s.become c call).calls c' = s.calls c' :=
  update_of_ne hne _ _

/-- Call `c`, a `wakeup_task` of `t` started at publication `epoch`, returns. -/
def retWake (t : Tid) (epoch : ℕ) : State maxHarts :=
  { s.ret c with woken := update s.woken t (max (s.woken t) epoch) }

/-! ## Linking -/

/-- The body of `enqueue_task_on`'s second section and of `enqueue_wakeup_task`, once nobody else
owns the task; `none` is the `unreachable!` of an idle-policy task. -/
def linkTask (target : Hart maxHarts) (hint : Option ℕ) :
    Option (State maxHarts) :=
  let task := { s.tasks t with status := .runnable, lastCpu := target, onRq := true }
  ((s.rqs target).enqueueLocked t task hint).map fun r =>
    { s.setRq target r.1 (update s.tasks t r.2) with
      admitted := update s.admitted t true }

def alreadyOwned : Prop :=
  (s.tasks t).onRq = true ∨ (s.tasks t).onCpu = true ∨ (s.tasks t).status = .zombie

instance : Decidable (s.alreadyOwned t) := by
  unfold alreadyOwned
  infer_instance

def markTaskWoken : State maxHarts :=
  s.setTask t { s.tasks t with status := .runnable }

end State

def TaskStatus.isSleeping : TaskStatus → Bool
  | .interruptible | .uninterruptible => true
  | _ => false

/-! ## Harts -/

variable (s : State maxHarts)

/-- The next critical section of the scheduler code of hart `h`. -/
def hartStep (h : Hart maxHarts) : Option (State maxHarts) :=
  match s.pc h with
  | .idle =>
    match (s.rqs h).dequeue s.tasks with
    | some (t, rq, tasks) => some ((s.setRq h rq tasks).goto h (.popped t))
    | none => some (s.goto h (.stealing 0))
  | .popped t =>
    let task := s.tasks t
    if task.status = .runnable then
      some ((s.setTask t { task with onRq := false, onCpu := true, lastCpu := h }).goto h
        (.picked t))
    else some ((s.setTask t { task with onRq := false }).goto h .idle)
  | .stealing source =>
    if hs : source < maxHarts then
      if source = h.val then some (s.goto h (.stealing (source + 1)))
      else
        match (s.rqs ⟨source, hs⟩).stealFrom s.tasks h with
        | some (t, rq, tasks) =>
          some ((s.setRq ⟨source, hs⟩ rq tasks).goto h (.stolen t source))
        | none => some (s.goto h (.stealing (source + 1)))
    else some (s.goto h .idle)
  | .stolen t source => some (s.goto h (.stolenMin t source (s.rqs h).minVruntimeNs))
  | .stolenMin t source targetMin =>
    let task := s.tasks t
    if task.status = .runnable then
      some ((s.setTask t { task with
        onRq := false
        onCpu := true
        lastCpu := h
        vruntimeNs := max task.vruntimeNs targetMin }).goto h (.picked t))
    else some ((s.setTask t { task with onRq := false }).goto h (.stealing (source + 1)))
  | .picked t =>
    -- The dispatch section of `run_tasks`: processor lock, task lock inside.
    some (((s.setTask t { s.tasks t with
      status := .running
      lastCpu := h
      onCpu := true
      onRq := false }).setCurrent h (some t)).goto h (.running t))
  | .suspending t yieldPenalty rtHead =>
    let task := s.tasks t
    let task' :=
      if task.status = .zombie then { task with onRq := false }
      else { task with
        onRq := false
        status := .runnable
        rtEnqueueHead := if task.policy.isRt then rtHead.getD task.rtEnqueueHead
          else task.rtEnqueueHead
        vruntimeNs := if yieldPenalty ∧ task.policy = .other then
            satAdd task.vruntimeNs cfsYieldPenaltyNs
          else task.vruntimeNs }
    some ((s.setTask t task').goto h (.deferring t))
  | .blocking t nanosleep =>
    let task := s.tasks t
    if task.status = .runnable then
      -- A waker came first: the block is cancelled.
      some ((s.setTask t { task with status := .running, onCpu := true, onRq := false }).goto h
        (.restoring t))
    else
      let s' := s.setTask t { task with onRq := false, status := .interruptible }
      some ({ s' with
        published := update s.published t
          (if task.status.isSleeping then s.published t else s.published t + 1) }.goto h
        (if task.policy.isRt && nanosleep then .boosting t else .deferring t))
  | .restoring t => some ((s.setCurrent h (some t)).goto h (.running t))
  | .deferring t => some ((s.setPending h (some t)).goto h (.switching t))
  | .switching _ =>
    match s.pending h with
    | some t => some ((s.setPending h none).goto h (.releasing t))
    | none => some (s.goto h .idle)
  | .releasing t =>
    let task := s.tasks t
    some ((s.setTask t { task with onCpu := false, onRq := false }).goto h
      (if task.status = .runnable then .requeueing t else .idle))
  | .requeueing t =>
    some (s.goto h (if s.alreadyOwned t then .idle else .requeueLinking t))
  | .running _ | .prepared _ | .boosting _ | .requeueLinking _ | .exiting _ | .exited => none

/-! ## Calls -/

variable (change : AttrChange maxHarts) (snap : Snapshot maxHarts)

def AttrChange.update (task : Task maxHarts) : Task maxHarts :=
  let setPolicy (policy : SchedPolicy) (prio : RtPrio) (task : Task maxHarts) :=
    let atHead := snap.oldPolicy.isRt && policy.isRt && prio < snap.oldPriority
    match policy with
    | .rr | .fifo =>
      { task with
        policy := policy, rtPriority := prio, cfsRqKey := none, rtEnqueueHead := atHead }
    | .other =>
      { task with
        policy := .other, rtPriority := prio, cfsInitialized := false, rtEnqueueHead := false }
    | .idle => task
  match change with
  | .setscheduler policy prio => setPolicy policy (if policy.isRt then prio else ⟨0, rtQueueLevels_pos⟩) task
  | .schedAttr policy prio weight =>
    { setPolicy policy (if policy.isRt then prio else ⟨0, rtQueueLevels_pos⟩) task with weight := weight }
  | .setpriority weight => { task with weight := weight }
  | .setaffinity mask =>
    { task with
      cpuAffinityMask := mask
      lastCpu := if hm : snap.lastCpu ∉ mask ∧ snap.wasOnCpu = false ∧ mask.Nonempty then
          mask.min' hm.2.2
        else task.lastCpu }

/-- `enqueue_at_head`: an RT task moves to a lower RT priority. -/
def AttrChange.atHead : Bool :=
  match change with
  | .setscheduler policy prio | .schedAttr policy prio _ =>
    snap.oldPolicy.isRt && policy.isRt && prio < snap.oldPriority
  | _ => false

/-- `sys_sched_setscheduler` returns at once for a queued task that already has the attributes. -/
def AttrChange.isNoop : Bool :=
  match change with
  | .setscheduler policy prio =>
    snap.wasOnRq && snap.oldPolicy = policy &&
      snap.oldPriority = if policy.isRt then prio else ⟨0, rtQueueLevels_pos⟩
  | _ => false

variable (c : CallId)

def wakeStep (t : Tid) (hart : Hart maxHarts) (epoch : ℕ) :
    State maxHarts :=
  let task := s.tasks t
  match task.status with
  | .interruptible | .uninterruptible =>
    if task.onRq then (s.markTaskWoken t).retWake c t epoch
    else if task.onCpu then s.become c (.resolve t hart task.lastCpu epoch)
    else s.become c (.linkWoken t epoch)
  | .runnable =>
    if task.onRq || task.onCpu then s.retWake c t epoch
    else s.become c (.repairScan t 0 epoch)
  | .running | .zombie => s.retWake c t epoch

/-- `resolve_on_cpu_wake`: the processor lock of `last_cpu`, the task lock inside. -/
def resolveStep (t : Tid) (hart lastCpu : Hart maxHarts)
    (epoch : ℕ) : State maxHarts :=
  let task := s.tasks t
  if task.status.isSleeping = false then s.retWake c t epoch
  else if task.onRq then (s.markTaskWoken t).retWake c t epoch
  else if s.current lastCpu = some t then (s.markTaskWoken t).retWake c t epoch
  else if task.onCpu then
    if lastCpu = hart then s.become c (.panicked t) else s.become c (.waitSwitch t epoch)
  else s.become c (.linkWoken t epoch)

/-- The next critical section of call `c`, where it needs no answer from elsewhere. -/
def callStep : Option (State maxHarts) :=
  match s.calls c with
  | some (.wake t hart epoch) => some (wakeStep s c t hart epoch)
  | some (.resolve t hart lastCpu epoch) => some (resolveStep s c t hart lastCpu epoch)
  | some (.waitSwitch t epoch) =>
    if (s.tasks t).onCpu then none else some (s.become c (.linkWoken t epoch))
  | some (.repairScan t source epoch) =>
    if hs : source < maxHarts then
      if s.current ⟨source, hs⟩ = some t then some (s.retWake c t epoch)
      else some (s.become c (.repairScan t (source + 1) epoch))
    else some (s.become c (.linkWoken t epoch))
  | some (.enqueue t) => some (if s.alreadyOwned t then s.ret c else s.become c (.link t))
  | some (.attr t change) =>
    let task := s.tasks t
    let snap : Snapshot maxHarts :=
      ⟨task.onRq, task.onCpu, task.lastCpu, task.policy, task.rtPriority⟩
    some (if change.isNoop snap then s.ret c
      else s.become c (if task.onRq then .attrScan t change snap 0
        else .attrUpdate t change snap))
  | some (.attrScan t change snap source) =>
    if hs : source < maxHarts then
      match (s.rqs ⟨source, hs⟩).removeTask s.tasks t with
      | some (rq, tasks) =>
        some ((s.setRq ⟨source, hs⟩ rq tasks).become c (.attrFinal t change snap true))
      | none => some (s.become c (.attrScan t change snap (source + 1)))
    else some (s.become c (.attrFinal t change snap false))
  | some (.attrFinal t change snap _) =>
    some ((s.setTask t { s.tasks t with onRq := false, cfsRqKey := none }).become c
      (.attrUpdate t change snap))
  | some (.attrUpdate t change snap) =>
    let s' := s.setTask t (change.update snap (s.tasks t))
    some (if snap.wasOnRq then s'.become c (.enqueue t)
      else if snap.wasOnCpu && change.atHead snap then s'.become c (.attrHead t)
      else s'.ret c)
  | some (.attrHead t) =>
    some ((s.setTask t { s.tasks t with rtEnqueueHead := true }).ret c)
  | some (.linkWoken ..) | some (.link _) | some (.panicked _) | none => none

/-- The section of call `c` that takes a runqueue lock and the task lock inside, with the target
hart and the hint it was given. -/
def callLink (target : Hart maxHarts) (hint : Option ℕ) :
    Option (State maxHarts) :=
  match s.calls c with
  | some (.linkWoken t epoch) =>
    let task := s.tasks t
    match task.status with
    | .running | .zombie => some (s.retWake c t epoch)
    | .runnable =>
      if task.onRq || task.onCpu then some (s.retWake c t epoch)
      else (s.linkTask t target hint).map fun s' => s'.retWake c t epoch
    | .interruptible | .uninterruptible =>
      if task.onRq || task.onCpu then some ((s.markTaskWoken t).retWake c t epoch)
      else (s.linkTask t target hint).map fun s' => s'.retWake c t epoch
  | some (.link t) =>
    if s.alreadyOwned t then some (s.ret c)
    else (s.linkTask t target hint).map fun s' => s'.ret c
  | _ => none

inductive Label (maxHarts : ℕ)
  | sched (h : Hart maxHarts)
  /-- The linking section of a requeueing hart. -/
  | requeue (h target : Hart maxHarts) (hint : Option ℕ)
  | boost (h : Hart maxHarts) (candidates : List Tid)
  | charge (h : Hart maxHarts) (delta : ℕ)
  /-- `take_current_task` of a suspending task. -/
  | suspend (h : Hart maxHarts) (yieldPenalty : Bool) (rtHead : Option Bool)
  /-- The running task publishes itself as `Interruptible` (`prepare_to_wait`). -/
  | publish (h : Hart maxHarts)
  | cancel (h : Hart maxHarts)
  /-- `take_current_task` of a blocking task. -/
  | block (h : Hart maxHarts) (nanosleep : Bool)
  | wake (c : CallId) (t : Tid) (h : Hart maxHarts)
  | enqueue (c : CallId) (t : Tid)
  | call (c : CallId)
  | callLink (c : CallId) (target : Hart maxHarts) (hint : Option ℕ)
  | setAttr (c : CallId) (t : Tid) (change : AttrChange maxHarts)
deriving DecidableEq

def State.start (call : Call maxHarts) :
    Option (State maxHarts) :=
  match s.calls c with
  | some _ => none
  | none => some (s.become c call)

def next : Label maxHarts → Option (State maxHarts)
  | .sched h => hartStep s h
  | .requeue h target hint =>
    match s.pc h with
    | .requeueLinking t =>
      if s.alreadyOwned t then some (s.goto h .idle)
      else (s.linkTask t target hint).map fun s' => s'.goto h .idle
    | _ => none
  | .boost h candidates =>
    match s.pc h with
    | .boosting t =>
      let r := (s.rqs h).boostProcessCfsTasks s.tasks candidates
      some ((s.setRq h r.1 r.2).goto h (.deferring t))
    | _ => none
  | .charge h delta =>
    match s.current h with
    | some t =>
      let task := s.tasks t
      if task.onCpu = true ∧ task.status = .running ∧ task.policy = .other then
        some (s.setTask t { task with vruntimeNs := satAdd task.vruntimeNs delta })
      else none
    | none => none
  | .suspend h yieldPenalty rtHead =>
    match s.pc h with
    | .running t => some ((s.setCurrent h none).goto h (.suspending t yieldPenalty rtHead))
    | _ => none
  | .publish h =>
    match s.pc h with
    | .running t =>
      let s' := s.setTask t { s.tasks t with status := .interruptible }
      some ({ s' with published := update s.published t (s.published t + 1) }.goto h
        (.prepared t))
    | _ => none
  | .cancel h =>
    match s.pc h with
    | .prepared t =>
      let task := s.tasks t
      some ((s.setTask t (if task.status = .interruptible then
          { task with status := .running, onCpu := true, onRq := false }
        else task)).goto h (.running t))
    | _ => none
  | .block h nanosleep =>
    match s.pc h with
    | .running t | .prepared t => some ((s.setCurrent h none).goto h (.blocking t nanosleep))
    | _ => none
  | .wake c t h => s.start c (.wake t h (s.published t))
  | .enqueue c t => s.start c (.enqueue t)
  | .call c => callStep s c
  | .callLink c target hint => callLink s c target hint
  | .setAttr c t change => s.start c (.attr t change)

/-- A task as `TaskControlBlock::new` leaves it: runnable, and owned by nobody. -/
def Task.IsNew (task : Task maxHarts) : Prop :=
  task.status = .runnable ∧ task.onCpu = false ∧ task.onRq = false ∧ task.cfsRqKey = none

/-- Boot: every hart idle, every queue empty, no call in progress, every task new. -/
structure State.IsInitial (s : State maxHarts) : Prop where
  tasks : ∀ t, (s.tasks t).IsNew
  rqs : ∀ h, s.rqs h = RunQueue.new
  current : ∀ h, s.current h = none
  pending : ∀ h, s.pending h = none
  pc : ∀ h, s.pc h = .idle
  calls : ∀ c, s.calls c = none
  admitted : ∀ t, s.admitted t = false
  published : ∀ t, s.published t = 0
  woken : ∀ t, s.woken t = 0

def attrMachine (maxHarts : ℕ) : Machine (State maxHarts) (Label maxHarts) where
  Init := State.IsInitial
  next := next

def machine (maxHarts : ℕ) : Machine (State maxHarts) (Label maxHarts) where
  Init := State.IsInitial
  next := fun s l =>
    match l with
    | .setAttr .. => none
    | l => next s l

end CosmOS.Sched
