import CosmOS.Machine
import CosmOS.Mm.Vma

/-!
# Task.UserRes — the resources of a thread

`TaskUserRes` (`task/id.rs`): the thread number, the kernel-made user stack and the trap context of a
task, how they are made when a task is created and how they go when it is dropped.  A step is one
section under a process lock:

* creation is `alloc_tid`, then the section that maps the stack and the trap context;
* a drop is `dealloc_tid`, then the section that removes the two areas, found by their addresses;
* `fork` copies all areas, and the child's only task is created without mapping anything;
* `mmap` and `munmap` are the user's, at any address below the end of user space.

A process remembers for each page which task's resource it was mapped for.  No step reads that: it is
there to say what a drop should remove.
-/

namespace CosmOS.Task

open Mm Function

abbrev Pid := ℕ

/-- Resources, numbered in the order of their creation. -/
abbrev ResId := ℕ

/-! ## Thread numbers -/

/-- `RecycleAllocator`.  The last number given back is the head of `recycled`. -/
structure RecycleAllocator where
  current : ℕ
  recycled : List ℕ
deriving DecidableEq

namespace RecycleAllocator

def new : RecycleAllocator := ⟨0, []⟩

def alloc (a : RecycleAllocator) : ℕ × RecycleAllocator :=
  match a.recycled with
  | id :: rest => (id, { a with recycled := rest })
  | [] => (a.current, { a with current := a.current + 1 })

def dealloc (a : RecycleAllocator) (id : ℕ) : RecycleAllocator :=
  { a with recycled := id :: a.recycled }

end RecycleAllocator

/-! ## Addresses -/

/-- The constants of `config.rs` and of the board, in pages. -/
structure Layout where
  trapContextBase : ℕ
  userStackBase : ℕ
  userStackPages : ℕ
  userSpaceEnd : ℕ

/-- The board `riscv/qemu_virt` with Sv39 paging. -/
def Layout.riscv : Layout where
  trapContextBase := 2 ^ 26 - 2
  userStackBase := 0x8000
  userStackPages := 2048
  userSpaceEnd := 2 ^ 26

variable (L : Layout)

def trapCxBottomFromTid (tid : ℕ) : ℕ := L.trapContextBase - tid

def ustackBottomFromTid (ustackBase tid : ℕ) : ℕ :=
  ustackBase + tid * (1 + L.userStackPages)

/-- `Vma::new_trap_context`.  The page is not accessible from user mode. -/
def newTrapContext (start stop tid : ℕ) : Vma :=
  ⟨start, stop, ⟨⟨true, true, false, false⟩, .trapContext tid, none, false⟩⟩

def newUserStack (start stop tid : ℕ) : Vma :=
  ⟨start, stop, ⟨⟨true, true, false, true⟩, .userStack tid, none, false⟩⟩

inductive TaskUserResAlloc where
  | none
  | full
  | trapOnly
deriving DecidableEq

structure TaskUserRes where
  pid : Pid
  tid : ℕ
  ustackBase : ℕ
deriving DecidableEq

/-- How far a resource is.  It holds its thread number up to `dropping`, where it has given it back
and has its areas still to remove. -/
inductive Stage where
  | allocating (mode : TaskUserResAlloc)
  | live
  | failed
  | dropping
deriving DecidableEq

inductive Phase where
  | unborn
  | held (res : TaskUserRes) (stage : Stage)
  | gone
deriving DecidableEq

/-- The part of `ProcessControlBlockInner` that is involved, and for each page the task it was mapped
for. -/
structure Process where
  tids : RecycleAllocator
  vmas : Vmas
  madeFor : ℕ → Option ResId

structure State where
  procs : Pid → Option Process
  phase : ResId → Phase
  born : ℕ

namespace Process

/-- The areas after an edit.  A page that is not mapped any more was mapped for nobody. -/
def setVmas (p : Process) (vmas : Vmas) : Process where
  tids := p.tids
  vmas := vmas
  madeFor := fun vpn => if (vmas.infoAt vpn).isSome then p.madeFor vpn else none

/-- An area was added for the resource `r`. -/
def addVma (p : Process) (r : ResId) (vma : Vma) (vmas : Vmas) : Process where
  tids := p.tids
  vmas := vmas
  madeFor := fun vpn => if vma.Contains vpn then some r else p.madeFor vpn

variable (L : Layout)

/-- `alloc_trap_cx`, and the second half of `alloc_user_res`. -/
def allocTrapCx (p : Process) (r : ResId) (res : TaskUserRes) (frames : Bool) :
    Process × Option MmError :=
  let bottom := trapCxBottomFromTid L res.tid
  let vma := newTrapContext bottom (bottom + 1) res.tid
  match Vmas.insertVma L.userSpaceEnd p.vmas vma frames with
  | .ok vmas => (p.addVma r vma vmas, none)
  | .error e => (p, some e)

/-- `alloc_user_res`.  The stack of the first thread is mapped at once. -/
def allocUserRes (p : Process) (r : ResId) (res : TaskUserRes)
    (stackFrames trapFrames : Bool) : Process × Option MmError :=
  let bottom := ustackBottomFromTid L res.ustackBase res.tid
  let vma := newUserStack bottom (bottom + L.userStackPages) res.tid
  match
    if res.tid = 0 then Vmas.insertVmaEager p.vmas vma stackFrames
    else Vmas.insertVma L.userSpaceEnd p.vmas vma stackFrames
  with
  | .ok vmas => allocTrapCx L (p.addVma r vma vmas) r res trapFrames
  | .error e => (p, some e)

/-- What `TaskUserRes::new` does behind `alloc_tid`. -/
def allocFor (p : Process) (r : ResId) (res : TaskUserRes) (mode : TaskUserResAlloc)
    (stackFrames trapFrames : Bool) : Process × Option MmError :=
  match mode with
  | .none => (p, none)
  | .full => p.allocUserRes L r res stackFrames trapFrames
  | .trapOnly => p.allocTrapCx L r res trapFrames

def deallocUserRes (p : Process) (res : TaskUserRes) : Process :=
  p.setVmas ((p.vmas.remove (ustackBottomFromTid L res.ustackBase res.tid)).remove
    (trapCxBottomFromTid L res.tid))

/-- The child's process of `clone_process`.  The areas of the first thread are there for the child's
only task `r`. -/
def forked (p : Process) (r : ResId) : Process where
  tids := RecycleAllocator.new.alloc.2
  vmas := p.vmas
  madeFor := fun vpn =>
    match p.vmas.infoAt vpn with
    | some info => if info.kind = .trapContext 0 ∨ info.kind = .userStack 0 then some r else none
    | none => none

end Process

/-! ## Sections -/

inductive Label where
  /-- A live task creates another task of its process. -/
  | create (creator : ResId) (mode : TaskUserResAlloc)
  /-- Behind `alloc_tid`.  The arguments say whether the frames can be had. -/
  | map (r : ResId) (stackFrames trapFrames : Bool)
  /-- The task exits, or its creation has failed: `dealloc_tid`. -/
  | drop (r : ResId)
  | unmap (r : ResId)
  | fork (parent : ResId) (child : Pid)
  | mmap (pid : Pid) (request : MmapRequest) (startVpn endVpn : ℕ) (frames : Bool)
  | munmap (pid : Pid) (startVpn endVpn : ℕ)

namespace State

variable (s : State)

def setProc (pid : Pid) (p : Process) : State :=
  { s with procs := update s.procs pid (some p) }

def setPhase (r : ResId) (phase : Phase) : State :=
  { s with phase := update s.phase r phase }

def bear (res : TaskUserRes) (stage : Stage) : State :=
  { s with phase := update s.phase s.born (.held res stage), born := s.born + 1 }

end State

/-- One section.  `create_task` maps something; only `clone_process` creates a task with mode
`None`, and its process has no other task then, so the thread number is taken with the copy. -/
def next (s : State) : Label → Option State
  | .create creator mode =>
    match s.phase creator with
    | .held res .live =>
      match s.procs res.pid with
      | some p =>
        if mode = .none then none
        else
          let (tid, tids) := p.tids.alloc
          some ((s.setProc res.pid { p with tids }).bear ⟨res.pid, tid, res.ustackBase⟩
            (.allocating mode))
      | none => none
    | _ => none
  | .map r stackFrames trapFrames =>
    match s.phase r with
    | .held res (.allocating mode) =>
      match s.procs res.pid with
      | some p =>
        match p.allocFor L r res mode stackFrames trapFrames with
        | (p, none) => some ((s.setProc res.pid p).setPhase r (.held res .live))
        | (p, some _) => some ((s.setProc res.pid p).setPhase r (.held res .failed))
      | none => none
    | _ => none
  | .drop r =>
    match s.phase r with
    | .held res .live | .held res .failed =>
      match s.procs res.pid with
      | some p =>
        some ((s.setProc res.pid { p with tids := p.tids.dealloc res.tid }).setPhase r
          (.held res .dropping))
      | none => none
    | _ => none
  | .unmap r =>
    match s.phase r with
    | .held res .dropping =>
      match s.procs res.pid with
      | some p => some ((s.setProc res.pid (p.deallocUserRes L res)).setPhase r .gone)
      | none => none
    | _ => none
  | .fork parent child =>
    match s.phase parent with
    | .held res .live =>
      match s.procs res.pid, s.procs child with
      | some p, none => some ((s.setProc child (p.forked s.born)).bear
          ⟨child, RecycleAllocator.new.alloc.1, res.ustackBase⟩ .live)
      | _, _ => none
    | _ => none
  | .mmap pid request startVpn endVpn frames =>
    match s.procs pid with
    | some p =>
      if endVpn ≤ L.userSpaceEnd then
        match p.vmas.mmap L.userSpaceEnd request startVpn endVpn frames with
        | .ok vmas => some (s.setProc pid (p.setVmas vmas))
        | .error _ => some s
      else none
    | none => none
  | .munmap pid startVpn endVpn =>
    match s.procs pid with
    | some p =>
      match p.vmas.munmap startVpn endVpn with
      | some vmas => some (s.setProc pid (p.setVmas vmas))
      | none => some s
    | none => none

/-- The areas of a program that has been loaded.  None of them is a thread's. -/
structure Image where
  vmas : Vmas
  noThreads : ∀ vma ∈ vmas.areas, ∀ tid, vma.attr.kind ≠ .trapContext tid ∧ vma.attr.kind ≠ .userStack tid

/-- The first process before its first task has its areas. -/
def Image.process (image : Image) : Process :=
  ⟨RecycleAllocator.new.alloc.2, image.vmas, fun _ => none⟩

def Layout.firstRes : TaskUserRes := ⟨0, RecycleAllocator.new.alloc.1, L.userStackBase⟩

def boot (p : Process) : State where
  procs := update (fun _ => none) 0 (some p)
  phase := update (fun _ => .unborn) 0 (.held L.firstRes .live)
  born := 1

/-- The threads of all processes, from the start of a program. -/
def machine (image : Image) : Machine State Label where
  Init s := ∃ p, image.process.allocUserRes L 0 L.firstRes true true = (p, none) ∧ s = boot L p
  next := next L

end CosmOS.Task
