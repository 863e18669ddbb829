import CosmOS.PageCache.Mapping
import CosmOS.Vfs.Disk

/-!
# Vfs.OpenFiles — open files over reused inode numbers

The VFS and the page cache on an on-disk file system, one call after the other: names, in-memory `Inode`s,
handles and page mappings.  The file system gives a new file any number that has no links.

* An `Inode` lives while a handle, a dentry or the inode cache holds it (`alive`).  It holds its page
  mapping; the registry of mappings and the way from a mapping to its inode are weak.
* Three tables are keyed by the inode number alone: the contents on the disk, the inode cache and the
  registry of mappings.
* `gen` counts the files that a number has had.  The source has no such counter: here it only names the
  files, and no function reads it but to label what it makes.

The pages of a mapping are those of `PageCache.Mapping`, with the contents of the number behind them.  A
call on a mapping whose inode is gone panics at its first use of the file; here it does not return.  The
reclaiming of the inode cache and of pages are steps of their own, and the CLOCK bits of the inode cache are
left out, as are attributes: only bytes matter here.
-/

namespace CosmOS.Vfs.OpenFiles

open Function

open PageCache (File Mapping Frames noBytes)

abbrev InodeId := ℕ

abbrev MappingId := ℕ

abbrev Fd := ℕ

/-- A file: its number, and which of the files that have had the number it is. -/
abbrev FileId := Ino × ℕ

structure Inode where
  ino : Ino
  /-- The type that the node had when the inode was made. -/
  isDir : Bool
  mapping : Option MappingId
  /-- The generation of the number when the inode was made. -/
  gen : ℕ

def Inode.file (inode : Inode) : FileId := (inode.ino, inode.gen)

structure PageMapping where
  cache : Mapping
  /-- The inode whose number the pages are read from and written to; a weak reference. -/
  inode : InodeId
  file : FileId

structure State where
  disk : Disk
  contents : Ino → File
  /-- How many files the number has had. -/
  gen : Ino → ℕ
  inodes : InodeId → Inode
  nextInode : InodeId
  inodeCache : Ino → Option InodeId
  dentries : DentryCache InodeId
  handles : BTreeMap Fd InodeId
  mappings : MappingId → PageMapping
  nextMapping : MappingId
  /-- `mappings` of the page cache manager; weak references. -/
  registry : Ino → Option MappingId

/-- The `fs_id` of the file system is not zero. -/
def key (d : Ino) (n : Name) : DentryKey := ⟨1, d, n⟩

namespace State

/-! ## References -/

variable (s : State) (o : InodeId)

def held : Bool :=
  s.handles.values.contains o || s.dentries.table.values.any fun e => e.child = some o

def alive : Bool :=
  s.held o || s.inodeCache (s.inodes o).ino = some o

variable (m : MappingId)

/-- The mapping has a strong reference. -/
def attached : Bool :=
  (List.range s.nextInode).any fun o => s.alive o && (s.inodes o).mapping = some m

variable (i : Ino)

/-- The registered mapping, if it can be upgraded. -/
def registered : Option MappingId := (s.registry i).filter s.attached

/-! ## Inodes and names -/

def getOrCreateInode : InodeId × State :=
  match s.inodeCache i with
  | some o => (o, s)
  | none =>
    (s.nextInode,
      { s with
        inodes := update s.inodes s.nextInode ⟨i, s.disk.isDir i, none, s.gen i⟩
        nextInode := s.nextInode + 1
        inodeCache := update s.inodeCache i (some s.nextInode) })

def removeCachedInode : State :=
  { s with inodeCache := update s.inodeCache i none }

variable (d : Ino) (n : Name)

def insertDentry (child : Option InodeId) : State :=
  { s with dentries := s.dentries.put (key d n) child }

def removeDentry : State :=
  { s with dentries := s.dentries.remove (key d n) }

/-- The directories after a request.  What has lost its last link is truncated. -/
def setDisk (disk : Disk) : State :=
  { s with
    disk := disk
    contents := fun i =>
      if s.disk.links i ≠ 0 ∧ disk.links i = 0 then SparseFile.empty else s.contents i }

def find : Option InodeId × State :=
  match s.dentries.lookup (key d n) with
  | (.positive o, c) => (some o, { s with dentries := c })
  | (.negative, c) => (none, { s with dentries := c })
  | (.miss, c) =>
    match s.disk.find d n with
    | some i =>
      let wrapped := { s with dentries := c }.getOrCreateInode i
      (some wrapped.1, wrapped.2.insertDentry d n (some wrapped.1))
    | none => (none, { s with dentries := c }.insertDentry d n none)

def newFile (disk : Disk) : State :=
  { s with
    disk := disk
    contents := update s.contents i SparseFile.empty
    gen := update s.gen i (s.gen i + 1) }

/-- `create_result` and a handle on the new file. -/
def create (fd : Fd) (d : Ino) (n : Name) (sfn : Option Name) (new : Ino) : State :=
  match s.disk.apply false (.create .regular d n sfn (some new)) with
  | (some _, _) => s
  | (none, disk) =>
    let wrapped := ((s.newFile new disk).removeCachedInode new).getOrCreateInode new
    let s' := wrapped.2.insertDentry d n (some wrapped.1)
    { s' with handles := s'.handles.insert fd wrapped.1 }

def openFile (fd : Fd) (d : Ino) (n : Name) : State :=
  match s.find d n with
  | (some o, s') => { s' with handles := s'.handles.insert fd o }
  | (none, s') => s'

def discardInode : State :=
  match (s.inodes o).mapping with
  | none => s
  | some m =>
    { s with
      inodes := update s.inodes o { s.inodes o with mapping := none }
      mappings := update s.mappings m
        { s.mappings m with
          cache := { (s.mappings m).cache with pages := fun _ => none, dirtyPages := [] } }
      registry := update s.registry (s.inodes o).ino none }

def unlink (fail : Bool) : Bool × State :=
  let (child, s) := s.find d n
  let childToDrop := child.filter fun o => s.disk.links (s.inodes o).ino ≤ 1
  match s.disk.apply fail (.unlink d n) with
  | (some err, _) => (false, if err = .ENOENT then s.insertDentry d n none else s)
  | (none, disk) =>
    let s' := (s.setDisk disk).insertDentry d n none
    (true,
      match childToDrop with
      | some o => s'.removeCachedInode (s.inodes o).ino
      | none => s')

def unlinkChild (fail : Bool) : State :=
  match s.find d n with
  | (none, s) => s
  | (some o, s) =>
    if (s.inodes o).isDir then s
    else
      let discardAfterUnlink := s.disk.links (s.inodes o).ino ≤ 1
      match s.unlink d n fail with
      | (true, s) => if discardAfterUnlink then s.discardInode o else s
      | (false, s) => s

def renameChild (d' : Ino) (n' : Name) (fail : Bool) : State :=
  let (oldChild, s) := s.find d n
  let (target, s) := s.find d' n'
  let replacedChild := target.filter fun o =>
    oldChild.map (fun o' => (s.inodes o').ino) ≠ some (s.inodes o).ino ∧
      ((s.inodes o).isDir ∨ s.disk.links (s.inodes o).ino ≤ 1)
  match s.disk.apply fail (.rename d n d' n') with
  | (some _, _) => s
  | (none, disk) =>
    let s' := ((s.setDisk disk).insertDentry d n none).removeDentry d' n'
    let s' := match oldChild with
      | some o => s'.insertDentry d' n' (some o)
      | none => s'
    match replacedChild with
    | some o => s'.removeCachedInode (s.inodes o).ino
    | none => s'

/-- `rename_at` between names that differ. -/
def renameAt (d' : Ino) (n' : Name) (fail : Bool) : State :=
  match s.find d n with
  | (none, s) => s
  | (some old, s) =>
    match s.find d' n' with
    | (none, s) => s.renameChild d n d' n' fail
    | (some new, s) =>
      if (s.inodes old).ino = (s.inodes new).ino then s
      else if (s.inodes old).isDir ≠ (s.inodes new).isDir then s
      -- `ls` of a directory gives `.` and `..`
      else if (s.inodes new).isDir then s
      else s.renameChild d n d' n' fail

/-! ## Pages -/

/-- The registration of a mapping in `get_or_create_mapping`. -/
def registerMapping : MappingId × State :=
  let i := (s.inodes o).ino
  match s.registered i with
  | some m => (m, s)
  | none =>
    (s.nextMapping,
      { s with
        mappings := update s.mappings s.nextMapping
          ⟨.new (s.contents i), o, (s.inodes o).file⟩
        nextMapping := s.nextMapping + 1
        registry := update s.registry i (some s.nextMapping) })

/-- The end of `get_or_create_mapping`: the inode gets the mapping, and a mapping without an inode the inode. -/
def adoptMapping : State :=
  let currentSize := (s.contents (s.inodes o).ino).len
  let p := s.mappings m
  { s with
    inodes := update s.inodes o { s.inodes o with mapping := some m }
    mappings := update s.mappings m
      { p with
        cache := { p.cache with size := max p.cache.size currentSize }
        inode := if s.alive p.inode then p.inode else o } }

def mappingForInode : MappingId × State :=
  match (s.inodes o).mapping with
  | some m => (m, s)
  | none => ((s.registerMapping o).1, (s.registerMapping o).2.adoptMapping o (s.registerMapping o).1)

/-- An operation of the page cache on a mapping. -/
def onMapping (fuel : ℕ) (frames : Frames) (op : PageCache.Op) :
    Option (State × Slice UInt8) :=
  let p := s.mappings m
  let i := (s.inodes p.inode).ino
  if s.alive p.inode then
    (Mapping.exec { p.cache with backing := s.contents i } fuel frames op).map fun result =>
      ({ s with
        mappings := update s.mappings m { p with cache := result.1 }
        contents := update s.contents i result.1.backing }, result.2)
  else none

def syncInode (fuel : ℕ) (frames : Frames) : Option (State × Slice UInt8) :=
  match s.registered i with
  | some m => s.onMapping m fuel frames .sync
  | none => some ({ s with registry := update s.registry i none }, noBytes)

/-- A call on a handle, with the bytes that it returns.  Directories are not read or written. -/
def access (fd : Fd) (fuel : ℕ) (frames : Frames) (op : PageCache.Op) :
    Option (State × Slice UInt8) :=
  match s.handles.get? fd with
  | none => none
  | some o =>
    if (s.inodes o).isDir then some (s, noBytes)
    else
      match op with
      | .sync => s.syncInode (s.inodes o).ino fuel frames
      | .reclaim _ => none
      | op => (s.mappingForInode o).2.onMapping (s.mappingForInode o).1 fuel frames op

/-- `page_cache_retained`: the mapping of the inode has dirty pages. -/
def retained : Bool :=
  (s.inodes o).mapping.any fun m =>
    (s.mappings m).inode = o && !(s.mappings m).cache.dirtyPages.isEmpty

def reclaimOneInode : State :=
  match s.inodeCache i with
  | some o => if s.held o || s.retained o then s else s.removeCachedInode i
  | none => s

end State

inductive Label where
  | create (fd : Fd) (d : Ino) (n : Name) (sfn : Option Name) (new : Ino)
  | openFile (fd : Fd) (d : Ino) (n : Name)
  | close (fd : Fd)
  | unlink (d : Ino) (n : Name) (fail : Bool)
  | rename (d : Ino) (n : Name) (d' : Ino) (n' : Name) (fail : Bool)
  /-- Read, write, truncate, fallocate, readahead or sync through a handle. -/
  | access (fd : Fd) (fuel : ℕ) (frames : Frames) (op : PageCache.Op)
  /-- The turn of a number in `sync_all`. -/
  | sync (i : Ino) (fuel : ℕ) (frames : Frames)
  | reclaimPage (m : MappingId) (page : ℕ) (fuel : ℕ) (frames : Frames)
  | reclaimInode (i : Ino)

/-- One call.  Numbers start at 1, and a new handle gets a descriptor that is not in use. -/
def next (s : State) : Label → Option State
  | .create fd d n sfn new =>
    if new = 0 ∨ (s.handles.get? fd).isSome then none else some (s.create fd d n sfn new)
  | .openFile fd d n => if (s.handles.get? fd).isSome then none else some (s.openFile fd d n)
  | .close fd => some { s with handles := s.handles.erase fd }
  | .unlink d n fail => some (s.unlinkChild d n fail)
  | .rename d n d' n' fail => some (s.renameAt d n d' n' fail)
  | .access fd fuel frames op => (s.access fd fuel frames op).map Prod.fst
  | .sync i fuel frames => (s.syncInode i fuel frames).map Prod.fst
  | .reclaimPage m page fuel frames =>
    if s.attached m then (s.onMapping m fuel frames (.reclaim page)).map Prod.fst else none
  | .reclaimInode i => some (s.reclaimOneInode i)

/-- Any directories and contents; nothing is in memory yet. -/
def boot (disk : Disk) (contents : Ino → File) : State where
  disk := disk
  contents := contents
  gen := fun _ => 0
  inodes := fun _ => ⟨0, false, none, 0⟩
  nextInode := 0
  inodeCache := fun _ => none
  dentries := .new
  handles := .empty
  mappings := fun _ => ⟨.new .empty, 0, (0, 0)⟩
  nextMapping := 0
  registry := fun _ => none

def machine : Machine State Label where
  Init s := ∃ disk contents, s = boot disk contents
  next := next

end CosmOS.Vfs.OpenFiles
