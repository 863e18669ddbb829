import CosmOS.Machine

/-!
# Signal.System — pending signals, masks and the signal-work hint

Each task has a flag that says whether its way back to user mode must look at signals
(`signal_work_pending`).  The flag is read without a lock.  This is the machine of everything that
touches it: senders, mask changes, the two checks on return to user mode, delivery, `sigtimedwait`,
`poll`, `attach_task` and `execve`.

* A section under a process lock or a task lock is one step.  A sender is the exception: the flag is
  set inside its section, and a reader without a lock may come between.  So a sender sets the bit in
  one step, each flag in another, and keeps its lock until the last one.
* `execve` takes the sibling threads down, so the part of the scheduler that decides whether a sibling
  runs again is here too: its status, and where the scheduler has it.
* What system calls read from user memory comes with the label.

Left out: `siginfo` records, signal frames on the user stack, restarting of system calls.
-/

namespace CosmOS.Signal

open Function

abbrev Pid := ℕ

abbrev TaskId := ℕ

abbrev SenderId := ℕ

/-! ## Signal sets -/

/-- A signal; number `n` of the source is `n - 1` here, as in the bits of `SignalBit`. -/
abbrev Signum := Fin 64

abbrev SignalBit := Finset Signum

def sigint : Signum := 1
def sigkill : Signum := 8
def sigusr1 : Signum := 9
def sigstop : Signum := 18

def unblockable : SignalBit := {sigkill, sigstop}

def SignalBit.withoutUnblockable (mask : SignalBit) : SignalBit := mask \ unblockable

/-- `check_error` of a single signal: its number and the text that is logged. -/
def checkError (sig : Signum) : Option (ℕ × String) :=
  match sig.val + 1 with
  | 9 => some (9, "Killed, SIGKILL=9")
  | 2 => some (2, "Killed, SIGINT=2")
  | 4 => some (4, "Illegal Instruction, SIGILL=4")
  | 6 => some (6, "Aborted, SIGABRT=6")
  | 7 => some (7, "Bus Error, SIGBUS=7")
  | 8 => some (8, "Erroneous Arithmetic Operation, SIGFPE=8")
  | 11 => some (11, "Segmentation Fault, SIGSEGV=11")
  | 13 => some (13, "Broken pipe, SIGPIPE=13")
  | 15 => some (15, "Terminated, SIGTERM=15")
  | _ => none

/-- The signals of a set in the order in which `first_pending_signum` finds them. -/
def SignalBit.toList (set : SignalBit) : List Signum := (List.finRange 64).filter (· ∈ set)

inductive Handler where
  | dfl
  | ign
  | user
deriving DecidableEq

/-- `SignalAction`: handler, `sa_mask` and `SA_NODEFER`. -/
structure SignalAction where
  handler : Handler
  saMask : SignalBit
  nodefer : Bool
deriving DecidableEq

def SignalAction.default : SignalAction := ⟨.dfl, ∅, false⟩

def signalWorkNeeded (threadPending processPending signalMask : SignalBit) (restoreMask : Bool) : Bool :=
  restoreMask || !decide ((threadPending ∪ processPending) \ signalMask.withoutUnblockable = ∅)

inductive TaskStatus where
  | runnable
  | running
  | interruptible
  | zombie
deriving DecidableEq

inductive Place where
  | unlinked
  | queued
  /-- Taken from the runqueue, the dispatch section is next. -/
  | picked
  | onHart
  /-- Taken from the hart, the switch is not over. -/
  | parking
  | asleep
  /-- Dropped by the scheduler. -/
  | dead
deriving DecidableEq

def Place.onCpu : Place → Bool
  | .picked | .onHart | .parking => true
  | _ => false

/-- Where `exec` stands, with the siblings still to be visited, those that were on a CPU and those to be
removed from the table. -/
inductive ExecPc where
  | snapshot
  | visiting (rest running active : List TaskId)
  | unlinking (sibling : TaskId) (rest running active : List TaskId)
  | waiting (running active : List TaskId)
  | removing (active : List TaskId)
  | clearProcess
  | clearTask
  | refresh
deriving DecidableEq

inductive Pc where
  | unborn
  /-- The task exists and has its mask; `attach_task` is next. -/
  | created
  /-- `attach_task` has read the pending signals, the mask and whether one is saved. -/
  | attaching (pending mask : SignalBit) (restore : Bool)
  /-- In the kernel or in user mode, in none of the sequences below. -/
  | free
  /-- The hint was set; the locked part of `check_fatal_signals_of_current`. -/
  | fatalCheck
  /-- The locked part of `check_signals_of_current`. -/
  | signalCheck
  /-- The locked part of `has_unmasked_pending_signal` of `poll`. -/
  | pollCheck
  /-- `handle_signals` before its first, its second and its third section. -/
  | saveMask (sig : Signum) (action : SignalAction)
  | applyMask (sig : Signum) (action : SignalAction)
  | refreshHint
  /-- `restore_temp_signal_mask` has stored the mask and not set the hint yet. -/
  | unmarked
  | exec (pc : ExecPc)
  | exited
deriving DecidableEq

structure Task where
  pid : Pid
  pendingSignals : SignalBit
  signalMask : SignalBit
  signalMaskBackup : Option SignalBit
  signalWorkPending : Bool
  status : TaskStatus
  exitCode : Bool
  place : Place
  pc : Pc
  /-- A sender is in its section under the task lock. -/
  locked : Bool

structure Process where
  pendingSignals : SignalBit
  signalActions : Signum → SignalAction
  tasks : List TaskId
  /-- A sender is in its section under the process lock. -/
  locked : Bool

/-- A sender that has set a bit and has flags left to set. -/
inductive Sender where
  | idle
  | toProcess (pid : Pid) (rest : List TaskId)
  | toTask (t : TaskId)
deriving DecidableEq

structure State where
  tasks : TaskId → Task
  procs : Pid → Process
  senders : SenderId → Sender

namespace State

variable (s : State)

def setTask (t : TaskId) (task : Task) : State :=
  { s with tasks := update s.tasks t task }

def setProc (pid : Pid) (p : Process) : State :=
  { s with procs := update s.procs pid p }

def setSender (c : SenderId) (sender : Sender) : State :=
  { s with senders := update s.senders c sender }

def procOf (t : TaskId) : Process := s.procs (s.tasks t).pid

end State

variable (task : Task) (p : Process)

def Task.needed : Bool :=
  signalWorkNeeded task.pendingSignals p.pendingSignals task.signalMask task.signalMaskBackup.isSome

/-- `set_signal_work_pending(signal_work_needed(..))`. -/
def Task.refresh : Task := { task with signalWorkPending := task.needed p }

/-! ## The locked parts -/

/-- The signals that a check looks at. -/
def deliverable : SignalBit :=
  (task.pendingSignals ∪ p.pendingSignals) \ task.signalMask.withoutUnblockable

/-- `check_fatal_signals_of_current`, locked part.  If a fatal signal is found the hint stays. -/
def checkFatal : Option (ℕ × String) × Task :=
  match (deliverable task p).toList.findSome? fun sig =>
    if (p.signalActions sig).handler = .dfl then checkError sig else none with
  | some error => (some error, task)
  | none => (none, task.refresh p)

/-- A signal is consumed where it was found pending. -/
def consume (fromThread : Bool) (sig : Signum) (task : Task) (p : Process) : Task × Process :=
  if fromThread then ({ task with pendingSignals := task.pendingSignals.erase sig }, p)
  else (task, { p with pendingSignals := p.pendingSignals.erase sig })

/-- `check_signals_of_current`, locked part, from the signals still to be looked at. -/
def checkSignals (threadPending : SignalBit) : List Signum → Task → Process →
    Task × Process × Option (Signum × SignalAction)
  | [], task, p =>
    let task := match task.signalMaskBackup with
      | some old => { task with signalMask := old, signalMaskBackup := none }
      | none => task
    (task.refresh p, p, none)
  | sig :: rest, task, p =>
    let action := p.signalActions sig
    let (task', p') := consume (sig ∈ threadPending) sig task p
    match action.handler with
    | .ign => checkSignals threadPending rest task' p'
    | .dfl =>
      if (checkError sig).isSome then checkSignals threadPending rest task p
      else checkSignals threadPending rest task' p'
    | .user => (task'.refresh p', p', some (sig, action))

/-- `has_unmasked_pending_signal` of `poll`, locked part. -/
def pollSignals (threadPending : SignalBit) : List Signum → Task → Process → Task × Process × Bool
  | [], task, p => (task.refresh p, p, false)
  | sig :: rest, task, p =>
    let (task', p') := consume (sig ∈ threadPending) sig task p
    match (p.signalActions sig).handler with
    | .ign => pollSignals threadPending rest task' p'
    | .dfl =>
      if (checkError sig).isSome then (task, p, true) else pollSignals threadPending rest task' p'
    | .user => (task, p, true)

def takePending (set : SignalBit) (task : Task) (p : Process) : Task × Process × Option Signum :=
  match ((task.pendingSignals ∩ set) ∪ (p.pendingSignals ∩ set)).toList with
  | [] => (task.refresh p, p, none)
  | sig :: _ =>
    let (task', p') := consume (sig ∈ task.pendingSignals) sig task p
    (task'.refresh p', p', some sig)

/-- `mask.insert`, `mask.remove` and the assignment of `sigprocmask`. -/
inductive How where
  | block
  | unblock
  | setmask
deriving DecidableEq

def How.apply (how : How) (mask set : SignalBit) : SignalBit :=
  match how with
  | .block => mask ∪ set
  | .unblock => mask \ set
  | .setmask => set

/-! ## Labels -/

inductive Label where
  /-- A task is created in a process, with the mask of its creator. -/
  | create (t : TaskId) (pid : Pid) (mask : SignalBit)
  /-- The two sections of `attach_task`, and `add_task`. -/
  | attachRead (t : TaskId)
  | attach (t : TaskId)
  | addTask (t : TaskId)
  | pick (t : TaskId)
  | dispatch (t : TaskId)
  | suspend (t : TaskId)
  | publish (t : TaskId)
  | block (t : TaskId)
  | release (t : TaskId)
  | wake (t : TaskId)
  | testFatal (t : TaskId)
  | testSignals (t : TaskId)
  | testPoll (t : TaskId)
  | step (t : TaskId)
  | frameFault (t : TaskId)
  | sigprocmask (t : TaskId) (how : How) (set : SignalBit)
  | sigsuspend (t : TaskId) (mask : SignalBit)
  | sigreturn (t : TaskId) (mask : SignalBit)
  | applyTempMask (t : TaskId) (mask : SignalBit)
  | restoreTempMask (t : TaskId) (old : SignalBit)
  | sigtimedwait (t : TaskId) (set : SignalBit)
  | sigaction (t : TaskId) (sig : Signum) (action : SignalAction)
  | execve (t : TaskId)
  | exit (t : TaskId)
  | reap (t : TaskId)
  | sendProcess (c : SenderId) (pid : Pid) (signal : SignalBit)
  | sendTask (c : SenderId) (t : TaskId) (signal : SignalBit)
  /-- A sender sets its next flag, or leaves its section. -/
  | mark (c : SenderId)

namespace State

variable (s : State) (t : TaskId)

def At (pc : Pc) : Prop := (s.tasks t).place = .onHart ∧ (s.tasks t).pc = pc

instance (pc : Pc) : Decidable (s.At t pc) := inferInstanceAs (Decidable (_ ∧ _))

def TaskFree : Prop := (s.tasks t).locked = false

instance : Decidable (s.TaskFree t) := inferInstanceAs (Decidable (_ = _))

def BothFree : Prop := (s.tasks t).locked = false ∧ (s.procOf t).locked = false

instance : Decidable (s.BothFree t) := inferInstanceAs (Decidable (_ ∧ _))

/-- The result of a section under both locks of a task, which then stands at `pc`. -/
def setBoth (task : Task) (p : Process) (pc : Pc) : State :=
  (s.setTask t { task with pc }).setProc (s.tasks t).pid p

end State

/-! ## Sections -/

variable (s : State) (t : TaskId)

def execStep (pc : ExecPc) : Option State :=
  let task := s.tasks t
  let p := s.procOf t
  let goto (pc : ExecPc) : State := s.setTask t { task with pc := .exec pc }
  match pc with
  | .snapshot =>
    if p.locked then none else some (goto (.visiting (p.tasks.filter (· ≠ t)) [] []))
  | .visiting [] running active => some (goto (.waiting running active))
  | .visiting (sibling :: rest) running active =>
    let other := s.tasks sibling
    if other.locked ∨ sibling = t then none
    else if other.exitCode then some (goto (.visiting rest running active))
    else some ((s.setTask t { task with pc := .exec (.unlinking sibling rest
        (if other.place.onCpu then sibling :: running else running) (sibling :: active)) }).setTask
      sibling { other with exitCode := true, status := .zombie })
  | .unlinking sibling rest running active =>
    -- `remove_task`
    let other := s.tasks sibling
    if sibling = t then none
    else some ((s.setTask t { task with pc := .exec (.visiting rest running active) }).setTask sibling
      { other with place := if other.place = .queued then .dead else other.place })
  | .waiting running active =>
    if running.any fun u => (s.tasks u).place.onCpu then none else some (goto (.removing active))
  | .removing active =>
    if p.locked then none
    else some ((s.setTask t { task with pc := .exec .clearProcess }).setProc task.pid
      { p with tasks := p.tasks.filter (· ∉ active) })
  | .clearProcess =>
    if p.locked then none
    else some ((s.setTask t { task with pc := .exec .clearTask }).setProc task.pid
      { p with
        pendingSignals := ∅
        signalActions := fun sig =>
          if (p.signalActions sig).handler = .ign then p.signalActions sig else .default })
  | .clearTask =>
    if task.locked then none
    else some (s.setTask t { task with
      pendingSignals := ∅
      signalMaskBackup := none
      pc := .exec .refresh })
  | .refresh => if s.BothFree t then some (s.setTask t { task.refresh p with pc := .free }) else none

/-- The next section of the sequence in which a running task stands. -/
def taskStep : Option State :=
  let task := s.tasks t
  let p := s.procOf t
  match task.pc with
  | .fatalCheck =>
    if s.BothFree t then
      match checkFatal task p with
      | (some _, task) => some (s.setTask t { task with status := .zombie, exitCode := true, pc := .exited })
      | (none, task) => some (s.setTask t { task with pc := .free })
    else none
  | .signalCheck =>
    if s.BothFree t then
      match checkSignals task.pendingSignals (deliverable task p).toList task p with
      | (task, p, some (sig, action)) => some (s.setBoth t task p (.saveMask sig action))
      | (task, p, none) => some (s.setBoth t task p .free)
    else none
  | .pollCheck =>
    if s.BothFree t then
      match pollSignals task.pendingSignals (deliverable task p).toList task p with
      | (task, p, _) => some (s.setBoth t task p .free)
    else none
  | .saveMask sig action =>
    if s.TaskFree t then
      some (s.setTask t { task with signalMaskBackup := none, pc := .applyMask sig action })
    else none
  | .applyMask sig action =>
    if s.TaskFree t then
      some (s.setTask t { task with
        signalMask := (if action.nodefer then task.signalMask else insert sig task.signalMask) ∪
          action.saMask
        pc := .refreshHint })
    else none
  | .refreshHint => if s.BothFree t then some (s.setTask t { task.refresh p with pc := .free }) else none
  | .unmarked => some (s.setTask t { task with signalWorkPending := true, pc := .free })
  | .exec pc => execStep s t pc
  | _ => none

/-- A change of the task's own mask, with the hint set in the same section. -/
def maskStep (mask : SignalBit) (backup : Option SignalBit) : Option State :=
  if s.At t .free ∧ s.TaskFree t then
    some (s.setTask t { s.tasks t with
      signalMask := mask
      signalMaskBackup := backup
      signalWorkPending := true })
  else none

def testHint (locked : Pc) : Option State :=
  if s.At t .free then
    if (s.tasks t).signalWorkPending then some (s.setTask t { s.tasks t with pc := locked }) else some s
  else none

/-- The scheduler's sections, as far as they decide whether a task runs. -/
def schedStep : Label → Option State
  | .addTask t =>
    let task := s.tasks t
    if task.pc = .free ∧ task.place = .unlinked ∧ task.status ≠ .zombie then
      some (s.setTask t { task with status := .runnable, place := .queued })
    else none
  | .pick t =>
    let task := s.tasks t
    if task.place = .queued then
      some (s.setTask t { task with place := if task.status = .runnable then .picked else .dead })
    else none
  | .dispatch t =>
    let task := s.tasks t
    if task.place = .picked then some (s.setTask t { task with place := .onHart, status := .running })
    else none
  | .suspend t =>
    let task := s.tasks t
    if task.place = .onHart then
      some (s.setTask t { task with
        place := .parking
        status := if task.status = .zombie then .zombie else .runnable })
    else none
  | .publish t =>
    let task := s.tasks t
    if task.place = .onHart ∧ task.pc ≠ .exited then
      some (s.setTask t { task with status := .interruptible })
    else none
  | .block t =>
    let task := s.tasks t
    if task.place = .onHart ∧ task.pc ≠ .exited then
      if task.status = .runnable then some (s.setTask t { task with status := .running })
      else some (s.setTask t { task with place := .parking, status := .interruptible })
    else none
  | .release t =>
    let task := s.tasks t
    if task.place = .parking then
      some (s.setTask t { task with
        place := match task.status with
          | .runnable => .queued
          | .interruptible => .asleep
          | .running | .zombie => .dead })
    else none
  | .wake t =>
    let task := s.tasks t
    if task.status = .interruptible then
      some (s.setTask t { task with
        status := .runnable
        place := if task.place = .asleep then .queued else task.place })
    else none
  | _ => none

def next : Label → Option State
  | .create t pid mask =>
    if (s.tasks t).pc = .unborn then
      some (s.setTask t ⟨pid, ∅, mask, none, false, .runnable, false, .unlinked, .created, false⟩)
    else none
  | .attachRead t =>
    let task := s.tasks t
    if task.pc = .created then
      some (s.setTask t { task with
        pc := .attaching task.pendingSignals task.signalMask task.signalMaskBackup.isSome })
    else none
  | .attach t =>
    let task := s.tasks t
    let p := s.procOf t
    match task.pc with
    | .attaching pending mask restore =>
      if p.locked then none
      else
        let needed := signalWorkNeeded pending p.pendingSignals mask restore
        some ((s.setTask t { task with
          signalWorkPending := needed || task.signalWorkPending
          pc := .free }).setProc task.pid { p with tasks := t :: p.tasks })
    | _ => none
  | .testFatal t => testHint s t .fatalCheck
  | .testSignals t => testHint s t .signalCheck
  | .testPoll t => testHint s t .pollCheck
  | .step t => if (s.tasks t).place = .onHart then taskStep s t else none
  | .frameFault t =>
    match (s.tasks t).pc with
    | .applyMask .. =>
      if (s.tasks t).place = .onHart ∧ s.TaskFree t then
        some (s.setTask t { s.tasks t with status := .zombie, exitCode := true, pc := .exited })
      else none
    | _ => none
  | .sigprocmask t how set =>
    maskStep s t (how.apply (s.tasks t).signalMask set) (s.tasks t).signalMaskBackup
  | .sigsuspend t mask => maskStep s t mask (some (s.tasks t).signalMask)
  | .sigreturn t mask => maskStep s t mask.withoutUnblockable none
  | .applyTempMask t mask => maskStep s t mask.withoutUnblockable (s.tasks t).signalMaskBackup
  | .restoreTempMask t old =>
    -- The hint is set behind the section.
    if s.At t .free ∧ s.TaskFree t then
      some (s.setTask t { s.tasks t with signalMask := old, pc := .unmarked })
    else none
  | .sigtimedwait t set =>
    if s.At t .free ∧ s.BothFree t then
      match takePending set (s.tasks t) (s.procOf t) with
      | (task, p, _) => some (s.setBoth t task p .free)
    else none
  | .sigaction t sig action =>
    if s.At t .free ∧ (s.procOf t).locked = false then
      some (s.setProc (s.tasks t).pid { s.procOf t with
        signalActions := update (s.procOf t).signalActions sig action })
    else none
  | .execve t =>
    if s.At t .free then some (s.setTask t { s.tasks t with pc := .exec .snapshot }) else none
  | .exit t =>
    if s.At t .free ∧ s.TaskFree t then
      some (s.setTask t { s.tasks t with status := .zombie, exitCode := true, pc := .exited })
    else none
  | .reap t =>
    if s.At t .exited ∧ (s.procOf t).locked = false then
      some (s.setProc (s.tasks t).pid { s.procOf t with tasks := (s.procOf t).tasks.filter (· ≠ t) })
    else none
  | .sendProcess c pid signal =>
    let p := s.procs pid
    if s.senders c = .idle ∧ p.locked = false then
      some ((s.setProc pid { p with pendingSignals := p.pendingSignals ∪ signal, locked := true }).setSender
        c (.toProcess pid p.tasks))
    else none
  | .sendTask c t signal =>
    let task := s.tasks t
    match task.pc with
    -- A task that is not attached cannot be found.
    | .unborn | .created | .attaching .. => none
    | _ =>
      if s.senders c = .idle ∧ s.TaskFree t then
        some ((s.setTask t { task with
          pendingSignals := task.pendingSignals ∪ signal, locked := true }).setSender c (.toTask t))
      else none
  | .mark c =>
    match s.senders c with
    | .idle => none
    | .toProcess pid [] => some ((s.setProc pid { s.procs pid with locked := false }).setSender c .idle)
    | .toProcess pid (t :: rest) =>
      some ((s.setTask t { s.tasks t with signalWorkPending := true }).setSender c (.toProcess pid rest))
    | .toTask t =>
      some ((s.setTask t { s.tasks t with signalWorkPending := true, locked := false }).setSender c .idle)
  | l => schedStep s l

def boot : State where
  tasks := update (fun _ => ⟨0, ∅, ∅, none, false, .runnable, false, .unlinked, .unborn, false⟩) 0
    ⟨0, ∅, ∅, none, false, .running, false, .onHart, .free, false⟩
  procs := fun pid => ⟨∅, fun _ => .default, if pid = 0 then [0] else [], false⟩
  senders := fun _ => .idle

def machine : Machine State Label where
  Init s := s = boot
  next := next

end CosmOS.Signal
