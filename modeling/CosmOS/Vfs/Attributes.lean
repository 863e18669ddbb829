import Mathlib.Tactic.DeriveTraversable
import CosmOS.Machine

/-!
# Vfs.Attributes — what the calls of a backend do to attributes

The methods of `VfsNode` that change what `stat_attrs` answers, for the two file systems that `Inode`
wraps.  `Ext4` has the calls of the ext4_rs library that `Ext4Inode` makes, and `Fat32` the parts of
`FatInode` below its fields; both come with what they may change.  `Backend` is what the cache of
attributes sees of either: `touches` are the inodes that a call names or finds by a name, and a call
changes the attributes of no other inode (`Ext4.call_only`, `Fat32.call_only`).
-/

namespace CosmOS.Vfs.StatCache

structure InodeTime where
  (sec nsec : ℕ)
  deriving DecidableEq

structure VfsAttrs where
  mode : Option ℕ
  (nlink size : ℕ)
  (uid gid : Option ℕ)
  (atime mtime ctime : Option InodeTime)
  deriving DecidableEq

/-- The operations of `Inode`, over the inodes that they are given. -/
inductive Op (α : Type) where
  | create (dir : α) (name : String)
  | mkdir (dir : α) (name : String)
  | symlink (dir : α) (name target : String)
  | link (dir : α) (oldName newName : String)
  | linkInode (dir child : α) (newName : String)
  | unlink (dir : α) (name : String)
  | rmdir (dir : α) (name : String)
  | renameChild (dir : α) (oldName : String) (newParent : α) (newName : String)
  | clear (i : α)
  | truncate (i : α) (newSize : ℕ)
  | fallocate (i : α)
  | writeAt (i : α) (offset : ℕ) (buf : List UInt8)
  | writeAtResult (i : α) (offset : ℕ) (buf : List UInt8)
  | setMode (i : α) (mode : ℕ)
  | setOwner (i : α) (uid gid : ℕ)
  | setTimes (i : α) (atime mtime ctime : Option InodeTime)
  deriving Functor

/-- A `VfsNode`: the inode that it stands for and the type it was made with. -/
structure Node where
  key : ℕ
  isDir : Bool
  deriving DecidableEq

inductive Result where
  | err
  | ok
  | created (child : Node)
  | written (n : ℕ)
  deriving DecidableEq

/-- A file system, as far as attributes are concerned. -/
structure Backend (D : Type) where
  attrs : D → ℕ → VfsAttrs
  call : D → Op Node → D × Result
  touches : D → Op Node → List ℕ
  frame : ∀ d op i, i ∉ touches d op → attrs (call d op).1 i = attrs d i

/-! ## ext4 -/

def decodeExt4Time (secLo extra : ℕ) : InodeTime := ⟨secLo + extra % 4 * 2 ^ 32, extra / 4⟩

def encodeExt4Time (ts : InodeTime) : ℕ × ℕ :=
  (ts.sec % 2 ^ 32, ts.nsec % 2 ^ 30 * 4 + ts.sec / 2 ^ 32 % 4)

/-- The fields of an inode on disk that are attributes. -/
structure Ext4Record where
  (mode linksCount size uid gid : ℕ)
  (atime mtime ctime : ℕ × ℕ)
  deriving DecidableEq

namespace Ext4Record

variable (r : Ext4Record)

def isDir : Bool := r.mode / 0x1000 % 16 = 4

def statAttrs : VfsAttrs where
  mode := some r.mode
  nlink := r.linksCount
  size := r.size
  uid := some r.uid
  gid := some r.gid
  atime := some (decodeExt4Time r.atime.1 r.atime.2)
  mtime := some (decodeExt4Time r.mtime.1 r.mtime.2)
  ctime := some (decodeExt4Time r.ctime.1 r.ctime.2)

end Ext4Record

/-- A copy of an inode, which `write_back_inode` stores. -/
structure InodeRef where
  inodeNum : ℕ
  inode : Ext4Record

/-- The calls of ext4_rs.  One that is given a reference answers the record it leaves in it; one that
fails may have changed the disk. -/
structure Ext4Calls (D : Type) where
  inode : D → ℕ → Ext4Record
  writeBackInode : D → InodeRef → D
  dirLookup : D → ℕ → String → Option ℕ
  dirHasEntry : D → ℕ → Bool
  /-- the number that `create` would give to a new inode -/
  freshInode : D → ℕ
  blockSize : ℕ
  create : D → ℕ → String → ℕ → D × Option ℕ
  link : D → InodeRef → InodeRef → String → D × Option (Ext4Record × Ext4Record)
  dirRemoveEntry : D → InodeRef → String → D × Option Ext4Record
  truncateInode : D → InodeRef → ℕ → D × Option Ext4Record
  unlink : D → InodeRef → InodeRef → String → D × Bool
  dirRemove : D → ℕ → String → D × Bool
  renameEntry : D → ℕ → String → ℕ → String → D × Bool
  writeAt : D → ℕ → ℕ → List UInt8 → D × Option ℕ
  /-- the plan of an aligned write and the writes to the device; the inner `none` is no plan -/
  prepareAlignedWriteAt : D → ℕ → ℕ → List UInt8 → D × Option (Option ℕ)
  extentRemoveSpace : D → InodeRef → ℕ → D × Option Ext4Record

/-- No inode but those of the list has changed. -/
def Ext4Calls.Only {D : Type} (E : Ext4Calls D) (d d' : D) (keys : List ℕ) : Prop :=
  ∀ i, i ∉ keys → E.inode d' i = E.inode d i

namespace Ext4Calls.Only

variable {D : Type} {E : Ext4Calls D} {d d₁ d₂ : D} {keys l : List ℕ}

theorem refl : E.Only d d keys := fun _ _ => rfl

theorem trans (h : E.Only d d₁ keys) (h' : E.Only d₁ d₂ keys) : E.Only d d₂ keys :=
  fun i hi => (h' i hi).trans (h i hi)

theorem mono (h : E.Only d d₁ keys) (hsub : keys ⊆ l) : E.Only d d₁ l :=
  fun i hi => h i fun hmem => hi (hsub hmem)

end Ext4Calls.Only

/-- The calls of ext4_rs change the inodes that they are given, the one they make, and those that the
names they are given stand for. -/
structure Ext4 (D : Type) extends Ext4Calls D where
  writeBackInode_inode : ∀ d r, inode (writeBackInode d r) = Function.update (inode d) r.inodeNum r.inode
  create_fresh : ∀ d p name mode c, (create d p name mode).2 = some c → c = freshInode d
  create_only : ∀ d p name mode, toExt4Calls.Only d (create d p name mode).1 [p, freshInode d]
  link_only : ∀ d p c name, toExt4Calls.Only d (link d p c name).1 [p.inodeNum, c.inodeNum]
  dirRemoveEntry_only : ∀ d p name, toExt4Calls.Only d (dirRemoveEntry d p name).1 [p.inodeNum]
  truncateInode_only : ∀ d c n, toExt4Calls.Only d (truncateInode d c n).1 [c.inodeNum]
  unlink_only : ∀ d p c name, toExt4Calls.Only d (unlink d p c name).1 [p.inodeNum, c.inodeNum]
  dirRemove_only : ∀ d p name, toExt4Calls.Only d (dirRemove d p name).1 (p :: (dirLookup d p name).toList)
  renameEntry_only : ∀ d p old q new, toExt4Calls.Only d (renameEntry d p old q new).1
    (p :: q :: ((dirLookup d p old).toList ++ (dirLookup d q new).toList))
  writeAt_only : ∀ d i offset buf, toExt4Calls.Only d (writeAt d i offset buf).1 [i]
  prepareAlignedWriteAt_only : ∀ d i offset buf,
    toExt4Calls.Only d (prepareAlignedWriteAt d i offset buf).1 [i]
  extentRemoveSpace_only : ∀ d r n, toExt4Calls.Only d (extentRemoveSpace d r n).1 [r.inodeNum]

/-- A record of the list is written back. -/
theorem Ext4Calls.Only.writeBack {D : Type} {E : Ext4 D} {d d₁ : D} {keys : List ℕ}
    (h : E.Only d d₁ keys) (r : InodeRef) (hr : r.inodeNum ∈ keys) :
    E.Only d (E.writeBackInode d₁ r) keys := by
  intro i hi
  rw [E.writeBackInode_inode, Function.update_of_ne (ne_of_mem_of_not_mem hr hi).symm]
  exact h i hi

namespace Ext4

open Ext4Calls

variable {D : Type} (E : Ext4 D) (d : D)

def getInodeRef (i : ℕ) : InodeRef := ⟨i, E.inode d i⟩

def done : Bool → Result
  | true => .ok
  | false => .err

/-- The loop of `truncate_file` that writes zeros.  Each round writes at least one of them. -/
def growLoop (i newSize : ℕ) : ℕ → D → ℕ → D × Bool
  | 0, d, _ => (d, true)
  | rounds + 1, d, cursor =>
    if cursor < newSize then
      let chunkLen := min E.blockSize (newSize - cursor)
      match E.writeAt d i cursor (List.replicate chunkLen 0) with
      | (d, none) => (d, false)
      | (d, some _) => growLoop i newSize rounds d (cursor + chunkLen)
    else (d, true)

/-- The blocks behind the new end are given back. -/
def shrinkBlocks (i oldSize newSize : ℕ) : D × Result :=
  let newBlocks := (newSize + E.blockSize - 1) / E.blockSize
  let oldBlocks := (oldSize + E.blockSize - 1) / E.blockSize
  if oldBlocks > newBlocks then
    match E.extentRemoveSpace d (E.getInodeRef d i) newBlocks with
    | (d, none) => (d, .err)
    | (d, some r) => (E.writeBackInode d ⟨i, { r with size := newSize }⟩, .ok)
  else (E.writeBackInode d ⟨i, { E.inode d i with size := newSize }⟩, .ok)

def truncateFile (n : Node) (newSize : ℕ) : D × Result :=
  if n.isDir then (d, .err)
  else
    let oldSize := (E.inode d n.key).size
    if oldSize = newSize then (d, .ok)
    else if newSize < oldSize then
      let tailOff := newSize % E.blockSize
      if 0 < newSize ∧ tailOff ≠ 0 then
        -- The rest of the last block is cleared first.
        match E.writeAt d n.key newSize (List.replicate (E.blockSize - tailOff) 0) with
        | (d, none) => (d, .err)
        | (d, some _) => E.shrinkBlocks d n.key oldSize newSize
      else E.shrinkBlocks d n.key oldSize newSize
    else
      match E.growLoop n.key newSize (newSize - oldSize) d oldSize with
      | (d, false) => (d, .err)
      | (d, true) => (E.writeBackInode d ⟨n.key, { E.inode d n.key with size := newSize }⟩, .ok)

def linkRefs (parent child : ℕ) (newName : String) : D × Result :=
  match E.link d (E.getInodeRef d parent) (E.getInodeRef d child) newName with
  | (d, none) => (d, .err)
  | (d, some (p, c)) => (E.writeBackInode (E.writeBackInode d ⟨parent, p⟩) ⟨child, c⟩, .ok)

/-- `Ext4Inode::unlink`, with the child that it finds. -/
def unlinkChild (parent child : ℕ) (name : String) : D × Result :=
  let childRef := E.getInodeRef d child
  if childRef.inode.isDir then (d, .err)
  else if childRef.inode.linksCount > 1 then
    match E.dirRemoveEntry d (E.getInodeRef d parent) name with
    | (d, none) => (d, .err)
    | (d, some p) =>
      (E.writeBackInode (E.writeBackInode d ⟨parent, p⟩)
        ⟨child, { childRef.inode with linksCount := childRef.inode.linksCount - 1 }⟩, .ok)
  else if childRef.inode.linksCount = 1 then
    match E.truncateInode d childRef 0 with
    | (d', none) => (d', .err)
    | (d', some c) =>
      let (d', ok) := E.unlink d' (E.getInodeRef d parent) ⟨child, c⟩ name
      (d', done ok)
  else
    let (d, ok) := E.unlink d (E.getInodeRef d parent) childRef name
    (d, done ok)

/-- `rename_child_to`, with the entries that it finds. -/
def renameEntries (dir : ℕ) (oldName : String) (newParent : ℕ) (newName : String) (child : ℕ)
    (target : Option ℕ) : D × Result :=
  let childIsDir := (E.inode d child).isDir
  let refused := target.any fun t => (E.inode d t).isDir != childIsDir || (childIsDir && E.dirHasEntry d t)
  if target = some child then (d, .ok)
  else if refused then (d, .err)
  else
    let (d, ok) := E.renameEntry d dir oldName newParent newName
    (d, done ok)

def setTimes (r : Ext4Record) (atime mtime ctime : Option InodeTime) : Ext4Record :=
  { r with
    atime := (atime.map encodeExt4Time).getD r.atime
    mtime := (mtime.map encodeExt4Time).getD r.mtime
    ctime := (ctime.map encodeExt4Time).getD r.ctime }

def createNode (dir : Node) (name : String) (mode : ℕ) (isDir : Bool) : D × Result :=
  if !dir.isDir then (d, .err)
  else
    match E.create d dir.key name mode with
    | (d, none) => (d, .err)
    | (d, some c) => (d, .created ⟨c, isDir⟩)

def call : Op Node → D × Result
  | .create dir name => E.createNode d dir name 0x8000 false
  | .mkdir dir name => E.createNode d dir name 0x4000 true
  | .symlink dir name target =>
    match E.createNode d dir name (0xa000 + 0o777) false with
    | (d, .created c) =>
      match E.writeAt d c.key 0 target.toUTF8.toList with
      | (d, none) => (d, .err)
      | (d, some _) => (d, .created c)
    | r => r
  | .link dir oldName newName =>
    match E.dirLookup d dir.key oldName with
    | some child => if dir.isDir then E.linkRefs d dir.key child newName else (d, .err)
    | none => (d, .err)
  | .linkInode dir child newName =>
    if !dir.isDir || child.isDir then (d, .err) else E.linkRefs d dir.key child.key newName
  | .unlink dir name =>
    match E.dirLookup d dir.key name with
    | some child => if dir.isDir then E.unlinkChild d dir.key child name else (d, .err)
    | none => (d, .err)
  | .rmdir dir name =>
    match E.dirLookup d dir.key name with
    | some child =>
      if !dir.isDir || !(E.inode d child).isDir then (d, .err)
      else
        let (d, ok) := E.dirRemove d dir.key name
        (d, done ok)
    | none => (d, .err)
  | .renameChild dir oldName newParent newName =>
    match E.dirLookup d dir.key oldName with
    | some child =>
      if !dir.isDir || !newParent.isDir then (d, .err)
      else E.renameEntries d dir.key oldName newParent.key newName child
        (E.dirLookup d newParent.key newName)
    | none => (d, .err)
  | .clear i => ((E.truncateFile d i 0).1, .ok)
  | .truncate i newSize => E.truncateFile d i newSize
  -- The default of the trait.
  | .fallocate _ => (d, .err)
  | .writeAt i offset buf =>
    let (d, n) := E.writeAt d i.key offset buf
    (d, .written (n.getD 0))
  | .writeAtResult i offset buf =>
    match E.prepareAlignedWriteAt d i.key offset buf with
    | (d, none) => (d, .err)
    | (d, some (some n)) => (d, .written n)
    | (d, some none) =>
      match E.writeAt d i.key offset buf with
      | (d, none) => (d, .err)
      | (d, some n) => (d, .written n)
  | .setMode i mode => (E.writeBackInode d ⟨i.key, { E.inode d i.key with mode := mode % 2 ^ 16 }⟩, .ok)
  | .setOwner i uid gid =>
    if uid > 0xffff ∨ gid > 0xffff then (d, .err)
    else (E.writeBackInode d ⟨i.key, { E.inode d i.key with uid := uid, gid := gid }⟩, .ok)
  | .setTimes i atime mtime ctime =>
    (E.writeBackInode d ⟨i.key, setTimes (E.inode d i.key) atime mtime ctime⟩, .ok)

/-- The inodes that a call is given, makes, or finds by the names it is given. -/
def touches : Op Node → List ℕ
  | .create dir _ | .mkdir dir _ | .symlink dir _ _ => [dir.key, E.freshInode d]
  | .link dir name _ | .unlink dir name | .rmdir dir name =>
    dir.key :: (E.dirLookup d dir.key name).toList
  | .linkInode dir child _ => [dir.key, child.key]
  | .renameChild dir oldName newParent newName => dir.key :: newParent.key ::
      ((E.dirLookup d dir.key oldName).toList ++ (E.dirLookup d newParent.key newName).toList)
  | .clear i | .truncate i _ | .fallocate i | .writeAt i _ _ | .writeAtResult i _ _ | .setMode i _
  | .setOwner i _ _ | .setTimes i _ _ _ => [i.key]

/-! ### A call changes no other inode -/

variable {E d} {i : ℕ}

theorem writeBack_only (E : Ext4 D) (d : D) (i : ℕ) (r : Ext4Record) :
    E.Only d (E.writeBackInode d ⟨i, r⟩) [i] :=
  Only.refl.writeBack ⟨i, r⟩ (List.mem_singleton_self i)

/-- Every round of the loop writes to the file only. -/
theorem growLoop_only (newSize rounds cursor : ℕ) :
    E.Only d (E.growLoop i newSize rounds d cursor).1 [i] := by
  induction rounds generalizing d cursor with
  | zero => exact Only.refl
  | succ rounds ih =>
    rw [growLoop]
    split
    · have hwrite := E.writeAt_only d i cursor
        (List.replicate (min E.blockSize (newSize - cursor)) 0)
      dsimp only
      split <;> rename_i heq <;> rw [heq] at hwrite
      · exact hwrite
      · exact hwrite.trans (ih _)
    · exact Only.refl

theorem shrinkBlocks_only (oldSize newSize : ℕ) :
    E.Only d (E.shrinkBlocks d i oldSize newSize).1 [i] := by
  unfold shrinkBlocks
  dsimp only
  split
  · have hfree := E.extentRemoveSpace_only d (E.getInodeRef d i)
      ((newSize + E.blockSize - 1) / E.blockSize)
    split <;> rename_i heq <;> rw [heq] at hfree
    · exact hfree
    · exact hfree.writeBack _ (List.mem_singleton_self i)
  · exact writeBack_only E d i _

theorem truncateFile_only (n : Node) (newSize : ℕ) :
    E.Only d (E.truncateFile d n newSize).1 [n.key] := by
  unfold truncateFile
  dsimp only
  split
  · exact Only.refl
  split
  · exact Only.refl
  split
  · split
    · have hwrite := E.writeAt_only d n.key newSize
        (List.replicate (E.blockSize - newSize % E.blockSize) 0)
      split <;> rename_i heq <;> rw [heq] at hwrite
      · exact hwrite
      · exact hwrite.trans (shrinkBlocks_only _ _)
    · exact shrinkBlocks_only _ _
  · have hgrow := growLoop_only (E := E) (d := d) (i := n.key) newSize
      (newSize - (E.inode d n.key).size) (E.inode d n.key).size
    split <;> rename_i heq <;> rw [heq] at hgrow
    · exact hgrow
    · exact hgrow.trans (writeBack_only E _ n.key _)

theorem linkRefs_only (parent child : ℕ) (newName : String) :
    E.Only d (E.linkRefs d parent child newName).1 [parent, child] := by
  unfold linkRefs
  have hlink := E.link_only d (E.getInodeRef d parent) (E.getInodeRef d child) newName
  split <;> rename_i heq <;> rw [heq] at hlink
  · exact hlink
  · exact (hlink.writeBack ⟨parent, _⟩ (by simp [getInodeRef])).writeBack ⟨child, _⟩
      (by simp [getInodeRef])

theorem unlinkChild_only (parent child : ℕ) (name : String) :
    E.Only d (E.unlinkChild d parent child name).1 [parent, child] := by
  unfold unlinkChild
  dsimp only
  split
  · exact Only.refl
  split
  · have hremove := (E.dirRemoveEntry_only d (E.getInodeRef d parent) name).mono
      (l := [parent, child]) (by simp [getInodeRef])
    split <;> rename_i heq <;> rw [heq] at hremove
    · exact hremove
    · exact (hremove.writeBack ⟨parent, _⟩ (by simp)).writeBack ⟨child, _⟩ (by simp)
  split
  · have htruncate := (E.truncateInode_only d (E.getInodeRef d child) 0).mono
      (l := [parent, child]) (by simp [getInodeRef])
    split <;> rename_i heq <;> rw [heq] at htruncate
    · exact htruncate
    · exact htruncate.trans (E.unlink_only _ (E.getInodeRef d parent) ⟨child, _⟩ name)
  · exact E.unlink_only d (E.getInodeRef d parent) (E.getInodeRef d child) name

theorem createNode_only (dir : Node) (name : String) (mode : ℕ) (isDir : Bool) :
    E.Only d (E.createNode d dir name mode isDir).1 [dir.key, E.freshInode d] ∧
      ∀ c, (E.createNode d dir name mode isDir).2 = .created c → c.key = E.freshInode d := by
  unfold createNode
  split
  · exact ⟨Only.refl, nofun⟩
  · have hcreate := E.create_only d dir.key name mode
    have hfresh := E.create_fresh d dir.key name mode
    split <;> rename_i heq <;> rw [heq] at hcreate hfresh
    · exact ⟨hcreate, nofun⟩
    · refine ⟨hcreate, ?_⟩
      rintro c ⟨⟩
      exact hfresh _ rfl

theorem symlink_only (dir : Node) (name target : String) :
    E.Only d (E.call d (.symlink dir name target)).1 [dir.key, E.freshInode d] := by
  obtain ⟨hcreate, hfresh⟩ := createNode_only (E := E) (d := d) dir name (0xa000 + 0o777) false
  rw [call]
  split
  next d₁ c heq =>
    rw [heq] at hcreate hfresh
    have hwrite : E.Only d₁ _ [dir.key, E.freshInode d] :=
      (E.writeAt_only d₁ c.key 0 target.toUTF8.toList).mono (by simp [hfresh c rfl])
    split <;> rename_i hres <;> rw [hres] at hwrite <;> exact hcreate.trans hwrite
  · exact hcreate

theorem renameEntries_only (dir : ℕ) (oldName : String) (newParent : ℕ) (newName : String)
    (child : ℕ) (target : Option ℕ) :
    E.Only d (E.renameEntries d dir oldName newParent newName child target).1 (dir :: newParent ::
      ((E.dirLookup d dir oldName).toList ++ (E.dirLookup d newParent newName).toList)) := by
  unfold renameEntries
  dsimp only
  split
  · exact Only.refl
  split
  · exact Only.refl
  · exact E.renameEntry_only d dir oldName newParent newName

theorem writeAtResult_only (n : Node) (offset : ℕ) (buf : List UInt8) :
    E.Only d (E.call d (.writeAtResult n offset buf)).1 [n.key] := by
  have hplan := E.prepareAlignedWriteAt_only d n.key offset buf
  rw [call]
  split <;> rename_i heq <;> rw [heq] at hplan
  · exact hplan
  · exact hplan
  · have hwrite := hplan.trans (E.writeAt_only _ n.key offset buf)
    split <;> rename_i hres <;> rw [hres] at hwrite <;> exact hwrite

/-- A call changes the attributes of no inode that it neither names nor finds by a name. -/
theorem call_only (op : Op Node) : E.Only d (E.call d op).1 (E.touches d op) := by
  cases op with
  | create dir name => exact (createNode_only dir name _ _).1
  | mkdir dir name => exact (createNode_only dir name _ _).1
  | symlink dir name target => exact symlink_only dir name target
  | link dir oldName newName =>
    rw [call, touches]
    split
    next child hfind =>
      rw [hfind]
      split
      · exact linkRefs_only dir.key child newName
      · exact Only.refl
    · exact Only.refl
  | linkInode dir child newName =>
    rw [call, touches]
    split
    · exact Only.refl
    · exact linkRefs_only dir.key child.key newName
  | unlink dir name =>
    rw [call, touches]
    split
    next child hfind =>
      rw [hfind]
      split
      · exact unlinkChild_only dir.key child name
      · exact Only.refl
    · exact Only.refl
  | rmdir dir name =>
    rw [call, touches]
    split
    · split
      · exact Only.refl
      · exact E.dirRemove_only d dir.key name
    · exact Only.refl
  | renameChild dir oldName newParent newName =>
    rw [call, touches]
    split
    · split
      · exact Only.refl
      · exact renameEntries_only _ _ _ _ _ _
    · exact Only.refl
  | clear i => exact truncateFile_only i 0
  | truncate i newSize => exact truncateFile_only i newSize
  | fallocate i => exact Only.refl
  | writeAt i offset buf => exact E.writeAt_only d i.key offset buf
  | writeAtResult i offset buf => exact writeAtResult_only i offset buf
  | setMode i mode => exact writeBack_only E d i.key _
  | setOwner i uid gid =>
    rw [call, touches]
    split
    · exact Only.refl
    · exact writeBack_only E d i.key _
  | setTimes i atime mtime ctime => exact writeBack_only E d i.key _

def backend (E : Ext4 D) : Backend D where
  attrs d i := (E.inode d i).statAttrs
  call := E.call
  touches := E.touches
  frame _ op i hi := congrArg Ext4Record.statAttrs (call_only op i hi)

end Ext4

/-! ## FAT32 -/

/-- The fields of `FatInodeInner` that `stat_attrs` reads. -/
structure FatInner where
  isDir : Bool
  size : ℕ
  deriving DecidableEq

/-- The parts of `FatInode` below its fields.  Every node has a size of its own. -/
structure Fat32 (D : Type) where
  inner : D → ℕ → FatInner
  setInner : D → ℕ → FatInner → D
  /-- the node that the next call to make one makes -/
  freshNode : D → ℕ
  /-- the new entry of `create` or `mkdir` -/
  addEntry : D → ℕ → String → Bool → D × Bool
  /-- the clusters and the bytes of a write, and the entry on disk -/
  writeChainAt : D → ℕ → ℕ → List UInt8 → D × ℕ
  setInner_inner : ∀ d i x, inner (setInner d i x) = Function.update (inner d) i x
  addEntry_inner : ∀ d i name isDir j, j ≠ freshNode d →
    inner (addEntry d i name isDir).1 j = inner d j
  writeChainAt_inner : ∀ d i offset buf, inner (writeChainAt d i offset buf).1 = inner d

namespace Fat32

variable {D : Type} (F : Fat32 D) (d : D)

def statAttrs (x : FatInner) : VfsAttrs :=
  ⟨none, 1, x.size, none, none, none, none, none⟩

def addNode (dir : Node) (name : String) (isDir : Bool) : D × Result :=
  if !(F.inner d dir.key).isDir then (d, .err)
  else
    match F.addEntry d dir.key name isDir with
    | (d', true) => (d', .created ⟨F.freshNode d, isDir⟩)
    | (d', false) => (d', .err)

def writeAt (i : ℕ) (offset : ℕ) (buf : List UInt8) : D × Result :=
  let x := F.inner d i
  if x.isDir then (d, .written 0)
  else
    let newEnd := min (offset + buf.length) (2 ^ 64 - 1) % 2 ^ 32
    let d := F.setInner d i { x with size := max x.size newEnd }
    let (d, n) := F.writeChainAt d i offset buf
    (d, .written (if buf = [] then 0 else n))

/-- The methods of `FatInode`, and the defaults of the trait, which fail. -/
def call : Op Node → D × Result
  | .create dir name => F.addNode d dir name false
  | .mkdir dir name => F.addNode d dir name true
  | .clear i =>
    let x := F.inner d i.key
    (if x.isDir then d else F.setInner d i.key { x with size := 0 }, .ok)
  | .writeAt i offset buf | .writeAtResult i offset buf => F.writeAt d i.key offset buf
  | _ => (d, .err)

def touches : Op Node → List ℕ
  | .create _ _ | .mkdir _ _ => [F.freshNode d]
  | .clear i | .writeAt i _ _ | .writeAtResult i _ _ => [i.key]
  | _ => []

variable {F d} {i : ℕ}

theorem addNode_inner (dir : Node) (name : String) (isDir : Bool) (hi : i ≠ F.freshNode d) :
    F.inner (F.addNode d dir name isDir).1 i = F.inner d i := by
  unfold addNode
  split
  · rfl
  · have hadd := F.addEntry_inner d dir.key name isDir i hi
    split <;> rename_i heq <;> rw [heq] at hadd <;> exact hadd

theorem writeAt_inner (j offset : ℕ) (buf : List UInt8) (hi : i ≠ j) :
    F.inner (F.writeAt d j offset buf).1 i = F.inner d i := by
  unfold writeAt
  dsimp only
  split
  · rfl
  · dsimp only
    rw [F.writeChainAt_inner, F.setInner_inner, Function.update_of_ne hi]

theorem call_only (op : Op Node) (hi : i ∉ F.touches d op) :
    F.inner (F.call d op).1 i = F.inner d i := by
  cases op with
  | create dir name | mkdir dir name => exact addNode_inner dir name _ (fun h => hi (List.mem_singleton.mpr h))
  | clear j =>
    rw [call]
    dsimp only
    split
    · rfl
    · rw [F.setInner_inner, Function.update_of_ne (fun h => hi (List.mem_singleton.mpr h))]
  | writeAt j offset buf | writeAtResult j offset buf =>
    exact writeAt_inner j.key offset buf (fun h => hi (List.mem_singleton.mpr h))
  | _ => rfl

def backend (F : Fat32 D) : Backend D where
  attrs d i := statAttrs (F.inner d i)
  call := F.call
  touches := F.touches
  frame _ op _ hi := congrArg statAttrs (call_only op hi)

end Fat32

end CosmOS.Vfs.StatCache
