import CosmOS.Machine

/-!
# Cred.System — user and group ids under concurrent system calls

The six calls that change the ids of a process, `clone_process` and `execve`, over any number of
processes and threads.  A section under the lock of a control block is one step.

* `sys_setreuid`, `sys_setresuid`, `sys_setgid`, `sys_setregid` and `sys_setresgid` check and
  store in one section.
* `sys_setuid` reads the three user ids in three sections, checks what it read, and stores in a
  fourth (`setuid_cred`).
* `clone_process` copies the credentials in the section that builds the child; `execve` leaves
  them alone.

Capabilities, supplementary groups, session and process group are left out: no id depends on
them.  `creator` is a history variable.
-/

namespace CosmOS.Cred

open Function

abbrev Pid := ℕ

abbrev ThreadId := ℕ

def uidNoChange : UInt32 := 0xFFFFFFFF

inductive Errno where
  | eperm
deriving DecidableEq, Repr

/-- The real, the effective and the saved id, of a user or of a group. -/
structure Ids where
  real : UInt32
  effective : UInt32
  saved : UInt32
deriving DecidableEq, Repr

structure Credentials where
  uids : Ids
  gids : Ids
deriving DecidableEq, Repr

def Credentials.root : Credentials := ⟨⟨0, 0, 0⟩, ⟨0, 0, 0⟩⟩

/-! ## The checks and the stores -/

variable (old : Ids)

/-- The check that the user and the group calls share. -/
def Ids.changeAllowed (new : UInt32) : Bool :=
  new == old.real || new == old.effective || new == old.saved

def unprivilegedUidChangeAllowed (new : UInt32) : Bool := old.changeAllowed new

def unprivilegedGidChangeAllowed (new : UInt32) : Bool := old.changeAllowed new

variable (allowed : Ids → UInt32 → Bool)

/-- An argument passes the check, or asks for no change. -/
def Ids.argAllowed (allowed : Ids → UInt32 → Bool) (old : Ids) (new : UInt32) : Bool :=
  new == uidNoChange || allowed old new

/-- The value an argument asks for. -/
def orElse (new old : UInt32) : UInt32 := if new = uidNoChange then old else new

def Ids.setRe (privileged : Bool) (old : Ids) (r e : UInt32) :
    Except Errno Ids :=
  if !privileged && !(old.argAllowed allowed r && old.argAllowed allowed e) then .error .eperm
  else
    let new : Ids := ⟨orElse r old.real, orElse e old.effective, old.saved⟩
    .ok (if r ≠ uidNoChange ∨ (e ≠ uidNoChange ∧ new.effective ≠ old.real) then
        { new with saved := new.effective }
      else new)

def Ids.setRes (privileged : Bool) (old : Ids)
    (r e v : UInt32) : Except Errno Ids :=
  if !privileged && !([r, e, v].all (old.argAllowed allowed)) then .error .eperm
  else .ok ⟨orElse r old.real, orElse e old.effective, orElse v old.saved⟩

variable (cred : Credentials)

/-- The effective user id decides about both kinds of ids. -/
def Credentials.privileged : Bool := cred.uids.effective == 0

def sysSetreuid (ruid euid : UInt32) : Except Errno Credentials :=
  (cred.uids.setRe unprivilegedUidChangeAllowed cred.privileged ruid euid).map
    fun ids => { cred with uids := ids }

def sysSetresuid (ruid euid suid : UInt32) : Except Errno Credentials :=
  (cred.uids.setRes unprivilegedUidChangeAllowed cred.privileged ruid euid suid).map
    fun ids => { cred with uids := ids }

def sysSetgid (gid : UInt32) : Except Errno Credentials :=
  if !cred.privileged && !unprivilegedGidChangeAllowed cred.gids gid then .error .eperm
  else .ok { cred with gids := ⟨gid, gid, gid⟩ }

def sysSetregid (rgid egid : UInt32) : Except Errno Credentials :=
  (cred.gids.setRe unprivilegedGidChangeAllowed cred.privileged rgid egid).map
    fun ids => { cred with gids := ids }

def sysSetresgid (rgid egid sgid : UInt32) : Except Errno Credentials :=
  (cred.gids.setRes unprivilegedGidChangeAllowed cred.privileged rgid egid sgid).map
    fun ids => { cred with gids := ids }

/-- The test of `sys_setuid`, on the ids it has read. -/
def setuidAllowed (read : Ids) (uid : UInt32) : Bool :=
  read.effective == 0 || unprivilegedUidChangeAllowed read uid

def setuidCred (uid : UInt32) : Credentials :=
  { cred with uids := ⟨uid, uid, uid⟩ }

/-! ## Processes and threads -/

structure Process where
  created : Bool
  cred : Credentials
  /-- The process whose thread called `clone_process`. -/
  creator : Option Pid
deriving DecidableEq, Repr

/-- Positions of `sys_setuid` between its sections. -/
inductive Pc where
  | unborn
  | user
  | readEuid (uid ruid : UInt32)
  | readSuid (uid ruid euid : UInt32)
  | store (uid : UInt32) (read : Ids)
deriving DecidableEq, Repr

structure Thread where
  proc : Pid
  pc : Pc
  ret : Except Errno Unit

structure State where
  procs : Pid → Process
  threads : ThreadId → Thread

namespace State

variable (s : State)

def setCred (p : Pid) (cred : Credentials) : State :=
  { s with procs := update s.procs p { s.procs p with cred := cred } }

variable (t : ThreadId)

def goto (pc : Pc) : State :=
  { s with threads := update s.threads t { s.threads t with pc := pc } }

def ret (r : Except Errno Unit) : State :=
  { s with threads := update s.threads t { s.threads t with pc := .user, ret := r } }

def spawn (p : Pid) : State :=
  { s with threads := update s.threads t ⟨p, .user, .ok ()⟩ }

/-- The end of a call that checks and stores in one section. -/
def finish (r : Except Errno Credentials) : State :=
  match r with
  | .ok cred => (s.setCred (s.threads t).proc cred).ret t (.ok ())
  | .error e => s.ret t (.error e)

end State

inductive Act where
  | go
  | setuid (uid : UInt32)
  | setreuid (ruid euid : UInt32)
  | setresuid (ruid euid suid : UInt32)
  | setgid (gid : UInt32)
  | setregid (rgid egid : UInt32)
  | setresgid (rgid egid sgid : UInt32)
  /-- `clone_process`: a new process with one thread. -/
  | fork (child : Pid) (t : ThreadId)
  | start (t : ThreadId)
  | execve
deriving DecidableEq, Repr

structure Label where
  thread : ThreadId
  act : Act
deriving DecidableEq, Repr

variable (s : State)

def userStep (t : ThreadId) (a : Act) : Option State :=
  let p := (s.threads t).proc
  let cred := (s.procs p).cred
  match a with
  | .go => none
  | .setuid uid => some (s.goto t (.readEuid uid cred.uids.real))
  | .setreuid r e => some (s.finish t (sysSetreuid cred r e))
  | .setresuid r e v => some (s.finish t (sysSetresuid cred r e v))
  | .setgid g => some (s.finish t (sysSetgid cred g))
  | .setregid r e => some (s.finish t (sysSetregid cred r e))
  | .setresgid r e v => some (s.finish t (sysSetresgid cred r e v))
  | .fork child t' =>
    if (s.procs child).created = false ∧ (s.threads t').pc = .unborn then
      some ({ s with procs := update s.procs child ⟨true, cred, some p⟩ }.spawn t'
        child)
    else none
  | .start t' => if (s.threads t').pc = .unborn then some (s.spawn t' p) else none
  | .execve => some (s.ret t (.ok ()))

def setuidStep (t : ThreadId) : Pc → Option State
  | .unborn => none
  | .user => none
  | .readEuid uid ruid =>
    some (s.goto t (.readSuid uid ruid (s.procs (s.threads t).proc).cred.uids.effective))
  | .readSuid uid ruid euid =>
    let read : Ids := ⟨ruid, euid, (s.procs (s.threads t).proc).cred.uids.saved⟩
    if setuidAllowed read uid then some (s.goto t (.store uid read))
    else some (s.ret t (.error .eperm))
  | .store uid _ =>
    let p := (s.threads t).proc
    some ((s.setCred p (setuidCred (s.procs p).cred uid)).ret t (.ok ()))

def next (l : Label) : Option State :=
  let pc := (s.threads l.thread).pc
  if pc = .user then userStep s l.thread l.act
  else if l.act = .go then setuidStep s l.thread pc
  else none

def boot : State where
  procs := update (fun _ => ⟨false, .root, none⟩) 1 ⟨true, .root, none⟩
  threads := update (fun _ => ⟨1, .unborn, .ok ()⟩) 0 ⟨1, .user, .ok ()⟩

def machine : Machine State Label where
  Init := fun s => s = boot
  next := next

end CosmOS.Cred
