import CosmOS.Machine

/-!
# Proc.System — the process tree, `wait4` and the exit path, section by section

`ProcessControlBlock::clone_process`, `exit_current_and_run_next_inner`,
`notify_parent_child_exit`, `reap_zombie_child_from_parent`, `sys_wait4` and the vfork wait of
`sys_clone_request`, over any number of processes and threads.  Each lock-protected section is
one atomic step of the thread that runs it, and between two sections every other thread may move.

* A process is its control block: the fields of `inner` that these paths read or write, the wait
  queue `wait_exit_queue`, the atomic `vfork_released`, and its entry in the pid table.  Control
  blocks are never reused, so a `Pid` names one.
* A thread carries what its wakers read (asleep or not, the queue its handle points to, whether
  it masks the signal) and the section it executes next.  Asleep means published
  as a sleeper and not woken; that a wakeup is not lost between the two is the scheduler's part.
* What the paths do not decide themselves comes with the label: a pending signal, a failing
  allocation, the fresh process or thread number.  Process groups do not change, and the death
  of the init process, which shuts the machine down, is not a step.
-/

namespace CosmOS.Proc

open Function

abbrev Pid := ℕ

abbrev ThreadId := ℕ

/-- `INITPROC`, the process with pid `IDLE_PID`. -/
def initproc : Pid := 1

/-- `clone_exit_signal`, as far as the exit path tells its values apart. -/
inductive ExitSignal where
  | none
  | sigchld
  | other
deriving DecidableEq, Repr

structure Process where
  created : Bool
  /-- Entered into the pid table by its creator. -/
  published : Bool
  /-- Taken out of the pid table by a reaper. -/
  reaped : Bool
  zombie : Bool
  parent : Option Pid
  children : List Pid
  pgid : ℕ
  exitSignal : ExitSignal
  vforkReleased : Bool
  /-- The action for SIGCHLD is SIG_IGN or carries SA_NOCLDWAIT. -/
  sigchldIgnored : Bool
  tasks : List ThreadId
  waitExitQueue : List ThreadId
deriving DecidableEq, Repr

/-- The arguments of one `wait4` and the process group it read on entry. -/
structure Wait where
  pid : ℤ
  currentPgid : ℕ
  nohang : Bool
deriving DecidableEq, Repr

/-- `wait_child_matches`.  The number of a process group is a `u32`, to which a negative pid is cut. -/
def Wait.matchesChild (w : Wait) (child : Pid) (childPgid : ℕ) : Bool :=
  if w.pid = -1 then true
  else if w.pid = 0 then childPgid == w.currentPgid
  else if 0 < w.pid then decide ((child : ℤ) = w.pid)
  else decide ((childPgid : ℤ) = -w.pid % 2 ^ 32)

/-- A pass over a snapshot of the children: those still to be locked, whether one examined so
far matches, and the first zombie among the matching ones. -/
structure Scan where
  todo : List Pid
  hasTarget : Bool
  zombie : Option Pid
deriving DecidableEq, Repr

def Scan.start (children : List Pid) : Scan := ⟨children, false, none⟩

/-- Examine one child of the snapshot under its lock. -/
def Scan.examine (sc : Scan) (w : Wait) (c : Pid) (p : Process) (rest : List Pid) : Scan :=
  if w.matchesChild c p.pgid then
    ⟨rest, true, sc.zombie.or (if p.zombie then some c else none)⟩
  else { sc with todo := rest }

/-- What a thread sleeps for on a `wait_exit_queue`: a child of its own process, on the queue of
that process, or the release by its vfork child, on the queue of the child. -/
inductive Sleeper where
  | child (w : Wait)
  | vfork (c : Pid)
deriving DecidableEq, Repr

inductive WaitPc where
  | list
  | scan (sc : Scan)
  | claim (c : Pid)
  | revalidate (c : Pid)
  | restore (c : Pid)
  | account (c : Pid)
  | remove (c : Pid)
deriving DecidableEq, Repr

inductive SleepPc where
  | prepare
  | skip
  | skipScan (sc : Scan)
  | cancelQueue
  | cancelTask
  | blocked
  | finishQueue
  | finishTask
deriving DecidableEq, Repr

inductive WakePc where
  | pop
  | check (t : ThreadId)
  | wake (t : ThreadId)
deriving DecidableEq, Repr

inductive KickPc where
  | next (todo : List ThreadId)
  | status (t : ThreadId) (todo : List ThreadId)
  | remove (t : ThreadId) (q : Pid) (todo : List ThreadId)
  | wake (t : ThreadId) (todo : List ThreadId)
deriving DecidableEq, Repr

/-- Positions of `notify_parent_child_exit` and, behind it, of `reap_zombie_child_from_parent`.
The flag is the answer of `child_exit_autoreap`. -/
inductive NotifyPc where
  | autoreap
  | signal (autoreap : Bool)
  | kick (autoreap : Bool) (k : KickPc)
  | wakeOne (autoreap : Bool) (k : WakePc)
  | reapClaim
  | reapCheck
  | reapRestore
  | reapAccount
  | reapRemove
deriving DecidableEq, Repr

/-- Positions of `clone_process` after the section that creates the child, and of the vfork wait
around the sleep. -/
inductive ClonePc where
  | push (child target : Pid) (vfork : Bool)
  | finish (child : Pid) (target : Pid) (vfork : Bool)
  | addTask (child : Pid) (vfork : Bool)
  | vforkCheck (child : Pid)
deriving DecidableEq, Repr

/-- Positions of the process exit.  The notification runs for each zombie handed to init, with
the ones still to be announced, and at the very end for the process itself. -/
inductive ExitPc where
  | mark
  | reparent (todo done zombies : List Pid)
  | notifyInit (child : Pid) (k : NotifyPc) (todo : List Pid)
  | snapshot
  | kill (todo : List ThreadId)
  | unqueue (t : ThreadId) (q : Pid) (todo : List ThreadId)
  | join
  | recycle
  | notifyParent (parent : Pid) (k : NotifyPc)
deriving DecidableEq, Repr

inductive ThreadPc where
  | unborn
  | user
  | paused
  | dead
  | wait (w : Wait) (k : WaitPc)
  | sleep (what : Sleeper) (k : SleepPc)
  | clone (k : ClonePc)
  /-- `release_vfork_parent`, on the way to exit or to the new image of an `execve`. -/
  | release (exiting : Bool)
  | wakeAll (exiting : Bool) (k : WakePc)
  | exit (k : ExitPc)
  | signal (k : KickPc)
deriving DecidableEq, Repr

structure Thread where
  proc : Pid
  leader : Bool
  masked : Bool
  asleep : Bool
  /-- The process whose wait queue `current_wq_handle` points to. -/
  handle : Option Pid
  /-- Marked by the exit of its process. -/
  killed : Bool
  pc : ThreadPc
deriving DecidableEq, Repr

structure State where
  procs : Pid → Process
  threads : ThreadId → Thread

namespace State

variable (s : State)

def setProc (p : Pid) (x : Process) : State := { s with procs := update s.procs p x }

variable (t : ThreadId)

def setThread (x : Thread) : State :=
  { s with threads := update s.threads t x }

def goto (pc : ThreadPc) : State := s.setThread t { s.threads t with pc := pc }

def setQueue (q : Pid) (l : List ThreadId) : State :=
  s.setProc q { s.procs q with waitExitQueue := l }

def setChildren (p : Pid) (l : List Pid) : State := s.setProc p { s.procs p with children := l }

def unqueue (q : Pid) (t : ThreadId) : State :=
  s.setQueue q ((s.procs q).waitExitQueue.filter (· ≠ t))

/-- `wakeup_task`, as far as the sleeper is concerned. -/
def wakeupTask : State :=
  s.setThread t { s.threads t with asleep := false, handle := none }

def isCurrentWaiter (q : Pid) (t : ThreadId) : Bool :=
  (s.threads t).asleep && (s.threads t).handle == some q

/-- The push of a child back or onto a list that must not hold it twice. -/
def pushAbsent (p c : Pid) : State :=
  if c ∈ (s.procs p).children then s else s.setChildren p ((s.procs p).children ++ [c])

/-- `remove_from_pid2process`, the last step of every reaper. -/
def unpublish (c : Pid) : State := s.setProc c { s.procs c with reaped := true }

end State

/-! ## Wait queues and signals -/

/-- How a section of `wake_up_to` ends: at another position, with a waiter woken, or with the
queue found empty. -/
inductive WakeOut where
  | goto (k : WakePc)
  | woke
  | empty
deriving DecidableEq, Repr

variable (s : State)

def wakeUpTo (q : Pid) : WakePc → State × WakeOut
  | .pop =>
    match (s.procs q).waitExitQueue with
    | [] => (s, .empty)
    | t :: rest => (s.setQueue q rest, .goto (.check t))
  | .check t => (s, .goto (if s.isCurrentWaiter q t then .wake t else .pop))
  | .wake t => (s.wakeupTask t, .woke)

/-- One section of `wake_signal_waiters`; `none` when every thread has been seen. -/
def wakeSignalWaiters : KickPc → State × Option KickPc
  | .next [] => (s, none)
  | .next (t :: todo) =>
    if (s.threads t).masked then (s, some (.next todo))
    else
      match (s.threads t).handle with
      | some q => (s, some (.remove t q todo))
      | none => (s, some (.status t todo))
  -- The status is read under the lock of the thread, taken anew.
  | .status t todo => (s, some (if (s.threads t).asleep then .wake t todo else .next todo))
  | .remove t q todo => (s.unqueue q t, some (.wake t todo))
  | .wake t todo => (s.wakeupTask t, some (.next todo))

/-! ## Notification and automatic reaping -/

/-- How a section of the notification ends: at another position or with the call returned. -/
inductive NotifyOut where
  | goto (k : NotifyPc)
  | done
deriving DecidableEq, Repr

/-- One section of `notify_parent_child_exit(parent, child.clone_exit_signal)` followed, when it
answers true, by `reap_zombie_child_from_parent(parent, child)`. -/
def notifyParentChildExit (parent child : Pid) : NotifyPc → State × NotifyOut
  | .autoreap =>
    let sig := (s.procs child).exitSignal
    let autoreap := sig == .sigchld && (s.procs parent).sigchldIgnored
    (s, .goto (if sig = .none then .wakeOne autoreap .pop else .signal autoreap))
  | .signal r => (s, .goto (.kick r (.next (s.procs parent).tasks)))
  | .kick r k =>
    match wakeSignalWaiters s k with
    | (s', some k') => (s', .goto (.kick r k'))
    | (s', none) => (s', .goto (.wakeOne r .pop))
  | .wakeOne r k =>
    match wakeUpTo s parent k with
    | (s', .goto k') => (s', .goto (.wakeOne r k'))
    -- One waiter is enough, and so is none.
    | (s', _) => (s', if r then .goto .reapClaim else .done)
  | .reapClaim =>
    if child ∈ (s.procs parent).children then
      (s.setChildren parent ((s.procs parent).children.erase child), .goto .reapCheck)
    else (s, .done)
  | .reapCheck => (s, .goto (if (s.procs child).zombie then .reapAccount else .reapRestore))
  | .reapRestore => (s.pushAbsent parent child, .done)
  | .reapAccount => (s, .goto .reapRemove)
  | .reapRemove => (s.unpublish child, .done)

/-! ## Labels -/

/-- What a thread does next, where it has a choice. -/
inductive Act where
  | go
  /-- The same, with an interrupting or fatal signal pending, a failing allocation, or a weak
  pointer whose process is gone. -/
  | alt
  | wait4 (pid : ℤ) (nohang : Bool)
  | clone (child : Pid) (parentFlag vfork upgraded : Bool) (sig : ExitSignal)
  /-- `add_task` of a new thread with this number. -/
  | start (t : ThreadId)
  | execve
  | exit
  | exitThread
  | pause
  | sigaction (ignored : Bool)
  | sigmask (masked : Bool)
  | kill (target : Pid)
deriving DecidableEq, Repr

structure Label where
  thread : ThreadId
  act : Act
deriving DecidableEq, Repr

/-! ## System calls from user mode -/

def Thread.new (p : Pid) (leader : Bool) : Thread :=
  { proc := p, leader := leader, masked := false, asleep := false, handle := none,
    killed := false, pc := .user }

/-- The child's control block, as the section of `clone_process` under the lock of the calling
process builds it. -/
def Process.new (parent : Pid) (pgid : ℕ) (sig : ExitSignal) (vfork : Bool) : Process :=
  { created := true, published := false, reaped := false, zombie := false,
    parent := some parent, children := [], pgid := pgid, exitSignal := sig,
    vforkReleased := !vfork, sigchldIgnored := false, tasks := [], waitExitQueue := [] }

/-- The parent that CLONE_PARENT selects.  The weak pointer can be upgraded at least until its
process is reaped. -/
def cloneParentTarget (p : Pid) (parentFlag upgraded : Bool) : Option Pid :=
  if parentFlag && upgraded then (s.procs p).parent else none

variable (t : ThreadId)

def cloneProcess (child : Pid) (parentFlag vfork upgraded : Bool)
    (sig : ExitSignal) : Option State :=
  let p := (s.threads t).proc
  if (s.procs child).created then none
  else if parentFlag && !upgraded
      && (s.procs p).parent.any (fun g => !(s.procs g).reaped) then none
  else
    let target := cloneParentTarget s p parentFlag upgraded
    let s₁ := s.setProc child (Process.new (target.getD p) (s.procs p).pgid sig vfork)
    if parentFlag then
      match target with
      | some g => some (s₁.goto t (.clone (.push child g vfork)))
      | none => some (s₁.goto t (.clone (.finish child p vfork)))
    else
      some ((s₁.setChildren p ((s.procs p).children ++ [child])).goto t
        (.clone (.finish child p vfork)))

def userStep : Act → Option State
  | .wait4 pid nohang =>
    let p := (s.threads t).proc
    some (s.goto t (.wait ⟨pid, (s.procs p).pgid, nohang⟩ .list))
  | .clone child parentFlag vfork upgraded sig =>
    cloneProcess s t child parentFlag vfork upgraded sig
  | .start t' =>
    -- A thread-creating clone: `attach_task` and `add_task`.
    let p := (s.threads t).proc
    if (s.threads t').pc = .unborn then
      some ((s.setProc p { s.procs p with tasks := (s.procs p).tasks ++ [t'] }).setThread t'
        (Thread.new p false))
    else none
  | .execve => some (s.goto t (.release false))
  | .exit => if (s.threads t).proc = initproc then none else some (s.goto t (.release true))
  | .exitThread => if (s.threads t).leader then none else some (s.goto t .dead)
  | .pause => some (s.setThread t { s.threads t with asleep := true, pc := .paused })
  | .sigaction ignored =>
    let p := (s.threads t).proc
    some (s.setProc p { s.procs p with sigchldIgnored := ignored })
  | .sigmask masked => some (s.setThread t { s.threads t with masked := masked })
  | .kill target => some (s.goto t (.signal (.next (s.procs target).tasks)))
  | .go => none
  | .alt => none

/-! ## The sections of each call -/

def waitStep (w : Wait) (a : Act) : WaitPc → Option State
  | .list => some (s.goto t (.wait w (.scan (.start (s.procs (s.threads t).proc).children))))
  | .scan ⟨c :: rest, h, z⟩ =>
    some (s.goto t (.wait w (.scan (Scan.examine ⟨c :: rest, h, z⟩ w c (s.procs c) rest))))
  | .scan ⟨[], false, _⟩ => some (s.goto t .user)
  | .scan ⟨[], true, some c⟩ => some (s.goto t (.wait w (.claim c)))
  | .scan ⟨[], true, none⟩ =>
    -- With WNOHANG, or with an interrupting signal pending, the call returns.
    if w.nohang || a == .alt then some (s.goto t .user)
    else some (s.goto t (.sleep (.child w) .prepare))
  | .claim c =>
    let p := (s.threads t).proc
    if c ∈ (s.procs p).children then
      some ((s.setChildren p ((s.procs p).children.erase c)).goto t (.wait w (.revalidate c)))
    else some (s.goto t (.wait w .list))
  | .revalidate c =>
    if (s.procs c).zombie && w.matchesChild c (s.procs c).pgid then
      some (s.goto t (.wait w (.account c)))
    else some (s.goto t (.wait w (.restore c)))
  | .restore c => some ((s.pushAbsent (s.threads t).proc c).goto t (.wait w .list))
  | .account c => some (s.goto t (.wait w (.remove c)))
  -- The status is written to user memory behind this: the call returns it or EFAULT.
  | .remove c => some ((s.unpublish c).goto t .user)

def Sleeper.queue (p : Pid) : Sleeper → Pid
  | .child _ => p
  | .vfork c => c

variable (a : Act)

/-- Where a sleeper goes on: `wait4` scans again, the vfork wait looks for a fatal signal and
tests the flag again. -/
def Sleeper.after : Sleeper → ThreadPc
  | .child w => .wait w .list
  | .vfork c => if a == .alt then .user else .clone (.vforkCheck c)

def sleepStep (what : Sleeper) (a : Act) : SleepPc → Option State
  | .prepare =>
    let q := what.queue (s.threads t).proc
    some ((s.setQueue q ((s.procs q).waitExitQueue ++ [t])).setThread t
      { s.threads t with asleep := true, handle := some q, pc := .sleep what .skip })
  | .skip =>
    match what with
    | .child _ =>
      some (s.goto t (.sleep what (.skipScan (.start (s.procs (s.threads t).proc).children))))
    | .vfork c =>
      some (s.goto t (.sleep what (if (s.procs c).vforkReleased then .cancelQueue
        else .blocked)))
  | .skipScan sc =>
    match what, sc.todo with
    | .child w, c :: rest =>
      some (s.goto t (.sleep what (.skipScan (sc.examine w c (s.procs c) rest))))
    | .child _, [] =>
      some (s.goto t (.sleep what (if !sc.hasTarget || sc.zombie.isSome then .cancelQueue
        else .blocked)))
    -- The vfork wait looks at a flag only.
    | .vfork _, _ => none
  | .cancelQueue =>
    some ((s.unqueue (what.queue (s.threads t).proc) t).goto t (.sleep what .cancelTask))
  | .cancelTask =>
    if (s.threads t).asleep then
      some (s.setThread t
        { s.threads t with asleep := false, handle := none, pc := what.after a })
    else some (s.goto t (what.after a))
  | .blocked =>
    if (s.threads t).killed then some (s.goto t .dead)
    else if (s.threads t).asleep then none
    else some (s.goto t (.sleep what .finishQueue))
  | .finishQueue =>
    some ((s.unqueue (what.queue (s.threads t).proc) t).goto t (.sleep what .finishTask))
  | .finishTask =>
    if (s.threads t).handle = some (what.queue (s.threads t).proc) then
      some (s.setThread t { s.threads t with handle := none, pc := what.after a })
    else some (s.goto t (what.after a))

/-- `clone_process` after its first section, and the loop of the vfork wait. -/
def cloneStep : ClonePc → Option State
  | .push child target vfork =>
    some ((s.setChildren target ((s.procs target).children ++ [child])).goto t
      (.clone (.finish child target vfork)))
  | .finish child target vfork =>
    if a == .alt then
      -- A later allocation or user write failed: the child is taken off the list again.
      some ((s.setChildren target ((s.procs target).children.filter (· ≠ child))).goto t .user)
    else
      some ((s.setProc child { s.procs child with published := true }).goto t
        (.clone (.addTask child vfork)))
  | .addTask child vfork =>
    match a with
    | .start t' =>
      if (s.threads t').pc = .unborn then
        some (((s.setProc child { s.procs child with tasks := (s.procs child).tasks ++ [t'] }).setThread t'
          (Thread.new child true)).goto t
            (if vfork then .clone (.vforkCheck child) else .user))
      else none
    | _ => none
  | .vforkCheck child =>
    if (s.procs child).vforkReleased then some (s.goto t .user)
    else some (s.goto t (.sleep (.vfork child) .prepare))

variable (exiting : Bool)

def afterRelease : ThreadPc := if exiting then .exit .mark else .user

def releaseStep : Option State :=
  let p := (s.threads t).proc
  if (s.procs p).vforkReleased then some (s.goto t (afterRelease exiting))
  else some ((s.setProc p { s.procs p with vforkReleased := true }).goto t
    (.wakeAll exiting .pop))

def wakeAllStep (k : WakePc) : Option State :=
  match wakeUpTo s (s.threads t).proc k with
  | (s', .goto k') => some (s'.goto t (.wakeAll exiting k'))
  | (s', .woke) => some (s'.goto t (.wakeAll exiting .pop))
  | (s', .empty) => some (s'.goto t (afterRelease exiting))

/-- The next of the zombies handed to init, or the teardown of the threads. -/
def ExitPc.announce : List Pid → ExitPc
  | [] => .snapshot
  | c :: todo => .notifyInit c .autoreap todo

/-- `exit_current_and_run_next_inner` for a whole process, from the lock of its control block
on. -/
def exitStep : ExitPc → Option State
  | .mark =>
    let p := (s.threads t).proc
    if (s.procs p).zombie then some (s.goto t .dead)
    else
      some ((s.setProc p { s.procs p with zombie := true, children := [] }).goto t
        (.exit (.reparent (s.procs p).children [] [])))
  | .reparent (c :: todo) done zombies =>
    let zombies' := if (s.procs c).zombie then zombies ++ [c] else zombies
    some ((s.setProc c { s.procs c with parent := some initproc }).goto t
      (.exit (.reparent todo (done ++ [c]) zombies')))
  | .reparent [] done zombies =>
    some ((s.setChildren initproc ((s.procs initproc).children ++ done)).goto t
      (.exit (.announce zombies)))
  | .notifyInit c k todo =>
    match notifyParentChildExit s initproc c k with
    | (s', .goto k') => some (s'.goto t (.exit (.notifyInit c k' todo)))
    | (s', .done) => some (s'.goto t (.exit (.announce todo)))
  | .snapshot => some (s.goto t (.exit (.kill (s.procs (s.threads t).proc).tasks)))
  | .kill [] => some (s.goto t (.exit .join))
  | .kill (u :: todo) =>
    let s' := s.setThread u { s.threads u with killed := true, asleep := false, handle := none }
    match (s.threads u).handle with
    | some q => some (s'.goto t (.exit (.unqueue u q todo)))
    | none => some (s'.goto t (.exit (.kill todo)))
  | .unqueue u q todo => some ((s.unqueue q u).goto t (.exit (.kill todo)))
  | .join =>
    -- The loop spins while a sibling is still on a CPU.
    if (s.procs (s.threads t).proc).tasks.all fun u => u == t || (s.threads u).pc == .dead then
      some (s.goto t (.exit .recycle))
    else some s
  | .recycle =>
    let p := (s.threads t).proc
    let s' := s.setProc p { s.procs p with tasks := [] }
    match (s.procs p).parent with
    | none => some (s'.goto t .dead)
    | some g =>
      if a == .alt then
        if (s.procs g).reaped then some (s'.goto t .dead) else none
      else some (s'.goto t (.exit (.notifyParent g .autoreap)))
  | .notifyParent g k =>
    match notifyParentChildExit s g (s.threads t).proc k with
    | (s', .goto k') => some (s'.goto t (.exit (.notifyParent g k')))
    | (s', .done) => some (s'.goto t .dead)

/-- System calls start in user mode; the other labels continue one. -/
def Act.isCall : Act → Bool
  | .go => false
  | .alt => false
  | .start _ => false
  | _ => true

def kernelStep : ThreadPc → Option State
  | .wait w k => waitStep s t w a k
  | .sleep what k => sleepStep s t what a k
  | .clone k => cloneStep s t a k
  | .release exiting => releaseStep s t exiting
  | .wakeAll exiting k => wakeAllStep s t exiting k
  | .exit k => exitStep s t a k
  | .signal k =>
    match wakeSignalWaiters s k with
    | (s', some k') => some (s'.goto t (.signal k'))
    | (s', none) => some (s'.goto t .user)
  | .paused =>
    if (s.threads t).killed then some (s.goto t .dead)
    else if (s.threads t).asleep then none
    else some (s.goto t .user)
  | .unborn => none
  | .user => none
  | .dead => none

def next (l : Label) : Option State :=
  let x := s.threads l.thread
  if x.pc = .user then
    -- A marked thread does not get back to user code.
    if x.killed then some (s.goto l.thread .dead) else userStep s l.thread l.act
  else if l.act.isCall then none
  else kernelStep s l.thread l.act x.pc

def Process.unused : Process :=
  { created := false, published := false, reaped := false, zombie := false, parent := none,
    children := [], pgid := 0, exitSignal := .none, vforkReleased := true,
    sigchldIgnored := false, tasks := [], waitExitQueue := [] }

/-- The system before init's first system call: one process with one thread. -/
def boot : State where
  procs := update (fun _ => Process.unused) initproc
    { Process.unused with created := true, published := true, tasks := [0] }
  threads := update (fun _ => { Thread.new initproc false with pc := .unborn }) 0
    (Thread.new initproc true)

def machine : Machine State Label where
  Init := fun s => s = boot
  next := next

end CosmOS.Proc
