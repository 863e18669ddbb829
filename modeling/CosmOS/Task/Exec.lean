import CosmOS.Signal.System
import CosmOS.Task.Threads

/-!
# Task.Exec — replacing the image of a process

`ProcessControlBlock::exec` (`task/process.rs`) and `terminate_other_threads_for_exec`
(`task/mod.rs`), as one call that nothing interrupts.  The new image is loaded first, and up to there
an error changes nothing.  Then the siblings are taken down and the address space, the break, the
descriptors, the signal state and the attachments are replaced.  Only behind that are the stack and
the trap context of the caller mapped, and their errors are returned as well: the old program is gone
by then (`exec_fails_late`).  A call leaves the process as it was on every error exactly if it is refused
before that point or has room and frames for the two areas (`failed_exec_changes_nothing`).

How the loading of the image ends, and whether frames can be had, is an argument.  Left out:
`siginfo` records.
-/

namespace CosmOS.Task.Exec

open Mm Signal

inductive Errno where
  | esrch | einval | eagain | enomem | eacces | efault | enxio | enoexec | enoent | eisdir
deriving DecidableEq

def mmErrorToErrno : MmError → Errno
  | .outOfMemory => .enomem
  | .conflict => .eacces
  | .permissionDenied => .efault

structure FdEntry where
  desc : ℕ
  cloexec : Bool
deriving DecidableEq

structure ProcessVmLayout where
  (startBrk brk mmapBase mmapHint startStack : ℕ)

structure TrapContext where
  entry : ℕ
  reg : List ℕ
deriving DecidableEq

/-- `app_init_context` with both argument registers set to zero: only `sp` is not zero. -/
def TrapContext.appInitContext (entry sp : ℕ) : TrapContext :=
  ⟨entry, (List.replicate 32 0).set 2 sp⟩

/-- A task.  Its trap context lies in the address space, and goes with it. -/
structure Thread where
  res : Option TaskUserRes
  exitCode : Option Int
  onCpu : Bool
  trapCx : Option TrapContext
  pendingSignals : SignalBit
  signalMaskBackup : Option SignalBit
deriving DecidableEq

/-- `ProcessControlBlock`, as seen by the calling task.  `siblings` are its other tasks. -/
structure ProcessControlBlock where
  execInProgress : Bool
  space : Process
  vmLayout : ProcessVmLayout
  fdTable : List (Option FdEntry)
  signalActions : List SignalAction
  pendingSignals : SignalBit
  /-- By `shmid`. -/
  shmAttachments : List ℕ
  current : Option Thread
  siblings : List Thread

/-- What `load_process_image` returns.  Its stack is always at `USER_STACK_BASE`. -/
structure LoadedImage where
  vmas : Vmas
  (startBrk mmapBase startStack finalEntry : ℕ)

/-- What decides how a call ends. -/
structure Call where
  image : Except Errno LoadedImage
  stackFrames : Bool
  trapFrames : Bool
  userSp : ℕ

variable (L : Layout)

def dropRes (p : Process) (res : TaskUserRes) : Process :=
  Process.deallocUserRes L { p with tids := p.tids.dealloc res.tid } res

/-- `terminate_other_threads_for_exec`.  Tasks on another CPU are waited for, so they are dropped
last.  A task without resources is marked but stays in its slot. -/
def terminateOtherThreadsForExec (p : Process) (siblings : List Thread) :
    Process × List Thread :=
  let alive := siblings.filter (·.exitCode.isNone)
  let recycled := (alive.filter (!·.onCpu) ++ alive.filter (·.onCpu)).filterMap (·.res)
  (recycled.foldl (dropRes L) p, siblings.filterMap fun task =>
    if task.exitCode.isSome then some task
    else if task.res.isSome then none else some { task with exitCode := some 0 })

variable (p : ProcessControlBlock)

/-- The section that substitutes the address space, and the tear-down of the old one. -/
def substitute (image : LoadedImage) : ProcessControlBlock :=
  let (space, siblings) := terminateOtherThreadsForExec L p.space p.siblings
  { p with
    space := { space with vmas := image.vmas, madeFor := fun _ => none }
    vmLayout := ⟨image.startBrk, image.startBrk, image.mmapBase, image.mmapBase, image.startStack⟩
    fdTable := p.fdTable.map fun entry => entry.filter (!·.cloexec)
    signalActions := p.signalActions.map fun action =>
      if action.handler = .ign then action else .default
    pendingSignals := ∅
    shmAttachments := []
    siblings := siblings }

/-- The checks of `exec` and the loading of the image. -/
def prepare (call : Call) :
    Except Errno (Thread × TaskUserRes × LoadedImage) :=
  match p.current with
  | none => .error .esrch
  | some task =>
    match task.res with
    | none => .error .esrch
    | some res =>
      if res.tid ≠ 0 then .error .einval
      else if p.execInProgress then .error .eagain
      else call.image.map fun image => (task, { res with ustackBase := L.userStackBase }, image)

/-- `ProcessControlBlock::exec`: the error, and the process afterwards. -/
def exec (call : Call) : Option Errno × ProcessControlBlock :=
  match prepare L p call with
  | .error e => (some e, p)
  | .ok (task, res, image) =>
    -- There is no way back from here, but two more errors.
    let p := substitute L p image
    match p.space.allocUserRes L 0 res call.stackFrames call.trapFrames with
    | (space, some e) => (some (mmErrorToErrno e),
        { p with space, current := some { task with res := some res, trapCx := none } })
    | (space, none) => (none, { p with
        space
        current := some { task with
          res := some res
          trapCx := some (.appInitContext image.finalEntry call.userSp)
          pendingSignals := ∅
          signalMaskBackup := none } })

/-! ## Calls that fail -/

/-- The call ends before anything is replaced: the image does not load, another `execve` is on its way,
or the caller is not the leader of its process. -/
def Refused (p : ProcessControlBlock) (call : Call) : Prop :=
  (∃ e, call.image = .error e) ∨ p.execInProgress = true ∨
    ∀ task, p.current = some task → ∀ res, task.res = some res → res.tid ≠ 0

/-- The stack and the trap context of the first thread fit into the new image, and there are frames
for them. -/
structure Roomy (L : Layout) (call : Call) : Prop where
  frames : call.stackFrames = true ∧ call.trapFrames = true
  room : ∀ image, call.image = .ok image →
    image.vmas.Free (L.stackVma 0).start (L.stackVma 0).stop ∧
    image.vmas.Free (L.trapVma 0).start (L.trapVma 0).stop

variable {L : Layout} {p : ProcessControlBlock} {call : Call}

/-- Where there is room, mapping the areas of the first thread does not fail. -/
theorem allocUserRes_of_room {p : Process} {r : ResId} {pid : Pid} (hfit : L.Fits 1)
    (hstack : p.vmas.Free (L.stackVma 0).start (L.stackVma 0).stop)
    (htrap : p.vmas.Free (L.trapVma 0).start (L.trapVma 0).stop) :
    (p.allocUserRes L r ⟨pid, 0, L.userStackBase⟩ true true).2 = none := by
  have hput := (Vmas.insertVmaEager_of_free true hfit.stack_start_lt hstack).resolve_right nofun
  -- The stack lies below the trap context, so the page of the latter is still free.
  have hroom : (p.vmas.put (L.stackVma 0)).Free (L.trapVma 0).start (L.trapVma 0).stop := by
    intro vma hvma
    rcases (AreaMap.mem_put _ hstack).mp hvma with ⟨rfl, -⟩ | hold
    · exact .inl (hfit.stack_le_trap hfit.threads hfit.threads)
    · exact htrap vma hold
  have hmap := (Vmas.insertVma_of_free L.userSpaceEnd true Layout.trap_start_lt hroom
    nofun).resolve_right nofun
  rw [Layout.stackVma] at hput hmap
  rw [Layout.trapVma] at hmap
  simp only [Process.allocUserRes, if_pos, hput, Process.allocTrapCx, Process.addVma, hmap]

/-- If mapping the areas of the first thread does not fail, there was room, and there were frames. -/
theorem room_of_allocUserRes {p : Process} {r : ResId} {pid : Pid} {stackFrames trapFrames : Bool}
    (h : (p.allocUserRes L r ⟨pid, 0, L.userStackBase⟩ stackFrames trapFrames).2 = none) :
    (stackFrames = true ∧ trapFrames = true) ∧
      p.vmas.Free (L.stackVma 0).start (L.stackVma 0).stop ∧
      p.vmas.Free (L.trapVma 0).start (L.trapVma 0).stop := by
  simp only [Process.allocUserRes, if_pos] at h
  split at h
  next vmas hput =>
    have hstack := Vmas.insertVmaEager_ok hput
    simp only [Process.allocTrapCx, Process.addVma] at h
    split at h
    next vmas' hmap =>
      have htrap := Vmas.insertVma_ok hmap
      refine ⟨⟨?_, ?_⟩, hstack.free, fun vma hvma => htrap.free vma (hstack.mem_iff.mpr (.inr hvma))⟩
      · cases stackFrames with
        | true => rfl
        | false => unfold Vmas.insertVmaEager at hput; split at hput <;> cases hput
      · cases trapFrames with
        | true => rfl
        | false => unfold Vmas.insertVma at hmap; split at hmap; cases hmap; split at hmap <;> cases hmap
    · cases h
  · cases h

/-- What `prepare` hands on: the image that was loaded and the resources of a leader. -/
theorem prepare_ok {task : Thread} {res : TaskUserRes} {image : LoadedImage}
    (h : prepare L p call = .ok (task, res, image)) : p.current = some task ∧
      call.image = .ok image ∧ res = ⟨res.pid, 0, L.userStackBase⟩ := by
  unfold prepare at h
  split at h
  · cases h
  next hcurrent =>
  split at h
  · cases h
  split at h
  · cases h
  next htid =>
  split at h
  · cases h
  cases himage : call.image with rw [himage] at h
  | error e => cases h
  | ok image =>
    cases h
    rw [not_not.mp htid]
    exact ⟨hcurrent, rfl, rfl⟩

theorem prepare_error_iff : (∃ e, prepare L p call = .error e) ↔ Refused p call := by
  unfold prepare Refused
  cases hcurrent : p.current with
  | none => simp
  | some task =>
    cases hres : task.res with
    | none => simp [hres]
    | some res =>
      by_cases htid : res.tid = 0 <;> cases p.execInProgress <;> cases himage : call.image <;>
        simp [hres, htid, Except.map]

/-- A late error takes the trap context of the caller with it. -/
theorem exec_late {task : Thread} {res : TaskUserRes} {image : LoadedImage} {e : MmError}
    (hprep : prepare L p call = .ok (task, res, image))
    (halloc : ((substitute L p image).space.allocUserRes L 0 res call.stackFrames
      call.trapFrames).2 = some e) :
    (exec L p call).1 = some (mmErrorToErrno e) ∧
      (exec L p call).2.current = some { task with res := some res, trapCx := none } := by
  simp only [exec, hprep]
  split
  next heq =>
    rw [heq] at halloc
    cases halloc
    exact ⟨rfl, rfl⟩
  next heq =>
    rw [heq] at halloc
    cases halloc

/-- For a caller with a trap context, every error of `execve` leaves the process as it was, exactly if
the call is refused early or the areas of the caller fit into the new image. -/
theorem failed_exec_changes_nothing (hfit : L.Fits 1)
    (hcaller : ∀ task, p.current = some task → task.trapCx ≠ none) :
    (∀ e, (exec L p call).1 = some e → (exec L p call).2 = p) ↔ Refused p call ∨ Roomy L call := by
  cases hprep : prepare L p call with
  | error e => exact iff_of_true (fun _ _ => by simp only [exec, hprep]) (.inl (prepare_error_iff.mp ⟨e, hprep⟩))
  | ok loaded =>
    obtain ⟨task, res, image⟩ := loaded
    obtain ⟨hcurrent, himage, hres⟩ := prepare_ok hprep
    have haccepted : ¬ Refused p call := by
      intro hrefused
      obtain ⟨e, he⟩ := prepare_error_iff.mpr hrefused
      cases hprep.symm.trans he
    rw [or_iff_right haccepted]
    constructor
    · intro hclean
      cases halloc : ((substitute L p image).space.allocUserRes L 0 res call.stackFrames
          call.trapFrames).2 with
      | none =>
        rw [hres] at halloc
        obtain ⟨hframes, hstack, htrap⟩ := room_of_allocUserRes halloc
        refine ⟨hframes, fun other hother => ?_⟩
        cases himage.symm.trans hother
        exact ⟨hstack, htrap⟩
      | some e =>
        obtain ⟨herr, hlost⟩ := exec_late hprep halloc
        rw [hclean _ herr, hcurrent] at hlost
        exact absurd (congrArg Thread.trapCx (Option.some.inj hlost)) (hcaller task hcurrent)
    · -- Behind the point of no return there is no error left.
      intro hroomy e herr
      obtain ⟨hstack, htrap⟩ := hroomy.room image himage
      have halloc : ((substitute L p image).space.allocUserRes L 0 res true true).2 = none := by
        rw [hres]
        exact allocUserRes_of_room hfit hstack htrap
      simp only [exec, hprep, hroomy.frames] at herr
      split at herr
      next heq =>
        rw [heq] at halloc
        cases halloc
      next => cases herr

/-- A program with two threads, and a call whose image has no room for anything. -/
def program : ProcessControlBlock where
  execInProgress := false
  space := ⟨⟨2, []⟩, .put .empty (newUserStack 8 9 0), fun _ => none⟩
  vmLayout := ⟨1, 2, 3, 4, 5⟩
  fdTable := [some ⟨0, true⟩]
  signalActions := [⟨.user, ∅, false⟩]
  pendingSignals := {sigusr1}
  shmAttachments := [0]
  current := some ⟨some ⟨0, 0, 8⟩, none, true, some ⟨0, []⟩, ∅, none⟩
  siblings := [⟨some ⟨0, 1, 8⟩, none, false, none, ∅, none⟩]

def noFrames : Call := ⟨.ok ⟨.empty, 0, 0, 0, 0⟩, false, false, 0⟩

/-- Without frames for its stack a program is told that `execve` failed, and has lost everything. -/
theorem exec_fails_late : ∃ p, exec .riscv program noFrames = (some .enomem, p) ∧
    p.space.vmas.areas ≠ program.space.vmas.areas ∧ p.vmLayout.brk ≠ program.vmLayout.brk ∧
    p.fdTable ≠ program.fdTable ∧ p.signalActions ≠ program.signalActions ∧
    p.pendingSignals ≠ program.pendingSignals ∧ p.shmAttachments ≠ program.shmAttachments ∧
    p.current.bind (·.trapCx) ≠ program.current.bind (·.trapCx) ∧ p.siblings ≠ program.siblings :=
  ⟨_, rfl, by decide⟩

/-- A second `execve` is turned away; a call without frames would not leave the program as it is. -/
theorem failed_exec_changes_nothing_busy :
    (exec .riscv { program with execInProgress := true } noFrames).2 =
      { program with execInProgress := true } ∧
    ¬ (Refused program noFrames ∨ Roomy .riscv noFrames) := by
  have hfit : Layout.riscv.Fits 1 := ⟨by decide, by decide, by decide, by decide⟩
  constructor
  · refine (@failed_exec_changes_nothing _ _ noFrames hfit ?_).mpr (.inl (.inr (.inl rfl))) .eagain rfl
    rintro task ⟨⟩
    exact nofun
  · rw [← failed_exec_changes_nothing hfit (p := program) (by rintro task ⟨⟩; exact nofun)]
    intro hclean
    have hsame := congrArg (·.siblings) (hclean .enomem rfl)
    exact absurd hsame (by decide)

end CosmOS.Task.Exec
