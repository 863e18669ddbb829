import CosmOS.Machine
import CosmOS.Vfs.DiskSpec

/-!
# Vfs.Namespace — virtual directories over file systems

The VFS operations one after the other, through handles on directories of several file systems and on
`VirtualDirNode`s.

* A handle is the `fs_id` and the number of a node.  Virtual directories have `u64::MAX` for `fs_id` and are
  numbered as they are made; the overlay of one is a node that was there before it.
* A lookup in a virtual directory first asks its mounts and then its overlay (`nodeFind`).  Changes go to
  the overlay: `bottom` is the directory where they end.
* The dentry cache has the number of the handle that was used, and the name as it was spelled.

Any number of ext4 and FAT32 instances.  Mounts do not change, but for a directory that is made in a virtual
directory without an overlay.
-/

namespace CosmOS.Vfs.Namespace

/-- `u64::MAX`, the `fs_id` of virtual directories. -/
def virtFsId : FsId := 2 ^ 64 - 1

/-- `fs_id` and `ino` of a node. -/
abbrev Handle := FsId × Ino

structure VirtDir where
  overlay : Option Handle
  /-- The mounts at a name, the newest first. -/
  mounts : Name → List Handle

def VirtDir.new : VirtDir := ⟨none, fun _ => []⟩

structure State where
  disks : FsId → Disk
  /-- The newest first; the oldest has the number 1. -/
  virts : List VirtDir
  cache : DentryCache Handle

/-! ## Nodes -/

/-- `find` of a directory of a file system. -/
def diskFind (disks : FsId → Disk) (h : Handle) (n : Name) : Option Handle :=
  ((disks h.1).find h.2 n).map fun i => (h.1, i)

def nodeFind (disks : FsId → Disk) : List VirtDir → Handle → Name → Option Handle
  | [], h, n => if h.1 = virtFsId then none else diskFind disks h n
  | v :: vs, h, n =>
    if h.1 ≠ virtFsId then diskFind disks h n
    else if h.2 ≠ vs.length + 1 then nodeFind disks vs h n
    else
      match (v.mounts n).head? with
      | some m => some m
      | none => v.overlay.bind fun o => nodeFind disks vs o n

/-- Where a change ends. -/
inductive Bottom where
  | disk (h : Handle)
  /-- A virtual directory without an overlay. -/
  | bare (i : Ino)
  | missing
  deriving DecidableEq

def bottom : List VirtDir → Handle → Bottom
  | [], h => if h.1 = virtFsId then .missing else .disk h
  | v :: vs, h =>
    if h.1 ≠ virtFsId then .disk h
    else if h.2 ≠ vs.length + 1 then bottom vs h
    else
      match v.overlay with
      | some o => bottom vs o
      | none => .bare h.2

def mount? : List VirtDir → Handle → Name → Option Handle
  | [], _, _ => none
  | v :: vs, h, n =>
    if h.1 ≠ virtFsId then none
    else if h.2 ≠ vs.length + 1 then mount? vs h n
    else
      match (v.mounts n).head? with
      | some m => some m
      | none => v.overlay.bind fun o => mount? vs o n

/-- A virtual directory and those that were there before it. -/
def virt? : List VirtDir → Ino → Option (VirtDir × List VirtDir)
  | [], _ => none
  | v :: vs, i => if i = vs.length + 1 then some (v, vs) else virt? vs i

/-- The directories in which `VfsNode::rename_child` ends: both overlays are followed together. -/
def renameDirs : List VirtDir → Handle → Name → List VirtDir → Handle → Name →
    Except FsErrno (Handle × Handle)
  | [], h, _, _, h', _ =>
    if h.1 = virtFsId then .error .EPERM
    else if h'.1 = virtFsId then .error .EXDEV
    else .ok (h, h')
  | v :: vs, h, n, vs', h', n' =>
    if h.1 ≠ virtFsId then
      if h'.1 = virtFsId then .error .EXDEV else .ok (h, h')
    else if h.2 ≠ vs.length + 1 then renameDirs vs h n vs' h' n'
    else if (v.mounts n).head?.isSome then .error .EBUSY
    else
      match v.overlay with
      | none => .error .EPERM
      | some o =>
        if h'.1 ≠ virtFsId then renameDirs vs o n vs' h' n'
        else
          match virt? vs' h'.2 with
          | none => .error .EPERM
          | some (w, ws) =>
            if (w.mounts n').head?.isSome then .error .EBUSY
            else
              match w.overlay with
              | none => .error .EPERM
              | some o' => renameDirs vs o n ws o' n'

/-- `VirtualDirNode::bind` in the directory with the number `i`. -/
def bind (i : Ino) (n : Name) (m : Handle) : List VirtDir → List VirtDir
  | [] => []
  | v :: vs =>
    if i = vs.length + 1 then { v with mounts := Function.update v.mounts n (m :: v.mounts n) } :: vs
    else v :: bind i n m vs

/-! ## Operations of `Inode` -/

def key (h : Handle) (n : Name) : DentryKey := ⟨h.1, h.2, n⟩

variable (s : State)

/-- What a lookup of the key is to find. -/
def State.truth (k : DentryKey) : Option Handle :=
  nodeFind s.disks s.virts (k.fsId, k.parentIno) k.name

def find (h : Handle) (n : Name) : Option Handle × State :=
  let r := s.cache.find (key h n) (s.truth (key h n))
  (r.1, { s with cache := r.2 })

def State.call (fs : FsId) (fail : Bool) (r : Request) : Option FsErrno × State :=
  (((s.disks fs).apply fail r).1, { s with disks := Function.update s.disks fs ((s.disks fs).apply fail r).2 })

/-- `create_result`, `mkdir_result` and `symlink`. -/
def create (ft : FileType) (h : Handle) (n : Name) (sfn : Option Name) (new : Option Ino)
    (fail : Bool) : Option FsErrno × State :=
  match bottom s.virts h with
  | .disk b =>
    match s.call b.1 fail (.create ft b.2 n sfn new) with
    | (none, s') =>
      (none, { s' with cache := s'.cache.insertDentry (key h n) (new.map fun i => (b.1, i)) })
    | (some err, s') => (some err, s')
  | .bare i =>
    if ft = .directory then
      let child : Handle := (virtFsId, s.virts.length + 1)
      (none,
        { s with
          virts := .new :: bind i n child s.virts
          cache := (s.cache.removeDentry (key (virtFsId, i) n)).insertDentry (key h n) (some child) })
    else (some (if ft = .regular then .EROFS else .EPERM), s)
  | .missing => (some .ENOENT, s)

/-- `Inode::link`: the dentry cache is not told. -/
def link (h : Handle) (n n' : Name) (fail : Bool) : Option FsErrno × State :=
  match bottom s.virts h with
  | .disk b => s.call b.1 fail (.link b.2 n n')
  | _ => (some .EPERM, s)

def nodeRemove (dir : Bool) (h : Handle) (n : Name) (fail : Bool) : Option FsErrno × State :=
  if (mount? s.virts h n).isSome then (some .EBUSY, s)
  else
    match bottom s.virts h with
    | .disk b => s.call b.1 fail (if dir then .rmdir b.2 n else .unlink b.2 n)
    | _ => (some .EPERM, s)

def remove (dir : Bool) (h : Handle) (n : Name) (fail : Bool) : Option FsErrno × State :=
  match nodeRemove (find s h n).2 dir h n fail with
  | (none, s') => (none, { s' with cache := s'.cache.insertDentry (key h n) none })
  | (some .ENOENT, s') => (some .ENOENT, { s' with cache := s'.cache.insertDentry (key h n) none })
  | (some err, s') => (some err, s')

def nodeRename (h : Handle) (n : Name) (h' : Handle) (n' : Name) (fail : Bool) :
    Option FsErrno × State :=
  match renameDirs s.virts h n s.virts h' n' with
  | .error err => (some err, s)
  | .ok (b, b') =>
    if (s.disks b.1).kind = .ext4 ∧ b.1 ≠ b'.1 then (some .EXDEV, s)
    else s.call b.1 fail (.rename b.2 n b'.2 n')

def rename (h : Handle) (n : Name) (h' : Handle) (n' : Name) (fail : Bool) :
    Option FsErrno × State :=
  let (oldChild, s) := find s h n
  let (_, s) := find s h' n'
  match nodeRename s h n h' n' fail with
  | (some err, s) => (some err, s)
  | (none, s) =>
    let c := s.cache.insertDentry (key h n) none
    let c := c.removeDentry (key h' n')
    (none, { s with
      cache := match oldChild with
        | some child => c.insertDentry (key h' n') (some child)
        | none => c })

inductive Op where
  | find (h : Handle) (n : Name)
  | create (ft : FileType) (h : Handle) (n : Name) (sfn : Option Name) (new : Option Ino) (fail : Bool)
  | link (h : Handle) (n n' : Name) (fail : Bool)
  | remove (dir : Bool) (h : Handle) (n : Name) (fail : Bool)
  | rename (h : Handle) (n : Name) (h' : Handle) (n' : Name) (fail : Bool)

def exec : Op → State
  | .find h n => (find s h n).2
  | .create ft h n sfn new fail => (create s ft h n sfn new fail).2
  | .link h n n' fail => (link s h n n' fail).2
  | .remove dir h n fail => (remove s dir h n fail).2
  | .rename h n h' n' fail => (rename s h n h' n' fail).2

/-- Operations one after the other, from any directories and any mounts. -/
def machine : Machine State Op where
  Init s := (∀ fs, (s.disks fs).Wf) ∧ s.cache = .new
  next s op := some (exec s op)

end CosmOS.Vfs.Namespace
