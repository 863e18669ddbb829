import CosmOS.Machine
import CosmOS.Vfs.DiskSpec

/-!
# Vfs.Concurrent — directory operations of many threads

`Inode::find`, `create`, `mkdir`, `unlink`, `rmdir` and `rename_child` on the directories of one file
system.  Nothing is held between their parts: each call of the file system and each section of the dentry
cache is a step.

* `Stage` is how far an operation has come.  `unlink`, `rmdir` and `rename_child` begin with a `find` of
  their names.
* `ops` are the operations in progress, by thread.

What the operations do to the inode cache and to cached attributes is not part of this model.
-/

namespace CosmOS.Vfs.Concurrent

abbrev ThreadId := ℕ

abbrev Place := Ino × Name

inductive Op where
  | find (p : Place)
  | create (mkdir : Bool) (p : Place)
  | unlink (p : Place)
  | rmdir (p : Place)
  | rename (p p' : Place)
  deriving DecidableEq

namespace Op

def first : Op → Place
  | .find p | .create _ p | .unlink p | .rmdir p | .rename p _ => p

def target : Op → Place
  | .find p | .create _ p | .unlink p | .rmdir p => p
  | .rename _ p' => p'

def places (op : Op) : List Place := [op.first, op.target]

def isFind : Op → Bool
  | .find _ => true
  | _ => false

/-- The call of the file system; a lookup has none of this kind. -/
def request (sfn : Option Name) (new : Option Ino) : Op → Option Request
  | .find _ => none
  | .create mkdir p => some (.create (if mkdir then .directory else .regular) p.1 p.2 sfn new)
  | .unlink p => some (.unlink p.1 p.2)
  | .rmdir p => some (.rmdir p.1 p.2)
  | .rename p p' => some (.rename p.1 p.2 p'.1 p'.2)

end Op

inductive Stage where
  /-- The parts of `find`: the cache, the file system, and the cache again with what was found. -/
  | lookup
  | query
  | store (r : Option Ino)
  /-- `rename_child` looks up its target; it has found `old`. -/
  | lookupTarget (old : Option Ino)
  | queryTarget (old : Option Ino)
  | storeTarget (old r : Option Ino)
  | backend (old : Option Ino)
  /-- The entry of the (first) name. -/
  | publish (child old : Option Ino)
  /-- `rename_child`: the entry of the new name is removed and stored anew. -/
  | dropTarget (old : Option Ino)
  | publishTarget (child : Ino)
  deriving DecidableEq

structure State where
  disk : Disk
  cache : DentryCache Ino
  ops : BTreeMap ThreadId (Op × Stage)

variable (fsId : FsId)

def Place.key (p : Place) : DentryKey := ⟨fsId, p.1, p.2⟩

def Op.begin : Op → Stage
  | .create _ _ => .backend none
  | _ => .lookup

/-- What follows the `find` of the first name. -/
def Op.afterFind (r : Option Ino) : Op → Option Stage
  | .find _ | .create _ _ => none
  | .unlink _ | .rmdir _ => some (.backend r)
  | .rename _ _ => some (.lookupTarget r)

/-- What follows the call of the file system. -/
def Op.afterBackend (new old : Option Ino) (err : Option FsErrno) : Op → Option Stage
  | .find _ => none
  | .create _ _ => if err = none then some (.publish new none) else none
  | .unlink _ | .rmdir _ =>
    if err = none ∨ err = some .ENOENT then some (.publish none none) else none
  | .rename _ _ => if err = none then some (.publish none old) else none

/-- What follows the entry of the first name. -/
def Op.afterPublish (old : Option Ino) : Op → Option Stage
  | .rename _ _ => some (.dropTarget old)
  | _ => none

variable (s : State) (t : ThreadId) (op : Op)

def State.goto : Option Stage → State
  | some st => { s with ops := s.ops.insert t (op, st) }
  | none => { s with ops := s.ops.erase t }

def advance (fail : Bool) (sfn : Option Name)
    (new : Option Ino) : Stage → State
  | .lookup =>
    match s.cache.lookupDentry (Place.key fsId op.first) with
    | (.positive child, c) => { s with cache := c }.goto t op (op.afterFind (some child))
    | (.negative, c) => { s with cache := c }.goto t op (op.afterFind none)
    | (.miss, c) => { s with cache := c }.goto t op (some .query)
  | .query => s.goto t op (some (.store (s.disk.find op.first.1 op.first.2)))
  | .store r => { s with cache := s.cache.insertDentry (Place.key fsId op.first) r }.goto t op (op.afterFind r)
  | .lookupTarget old =>
    match s.cache.lookupDentry (Place.key fsId op.target) with
    | (.miss, c) => { s with cache := c }.goto t op (some (.queryTarget old))
    | (_, c) => { s with cache := c }.goto t op (some (.backend old))
  | .queryTarget old =>
    s.goto t op (some (.storeTarget old (s.disk.find op.target.1 op.target.2)))
  | .storeTarget old r =>
    { s with cache := s.cache.insertDentry (Place.key fsId op.target) r }.goto t op (some (.backend old))
  | .backend old =>
    match op.request sfn new with
    | none => s.goto t op none
    | some r =>
      { s with disk := (s.disk.apply fail r).2 }.goto t op
        (op.afterBackend new old (s.disk.apply fail r).1)
  | .publish child old =>
    { s with cache := s.cache.insertDentry (Place.key fsId op.first) child }.goto t op (op.afterPublish old)
  | .dropTarget old =>
    { s with cache := s.cache.removeDentry (Place.key fsId op.target) }.goto t op (old.map .publishTarget)
  | .publishTarget child =>
    { s with cache := s.cache.insertDentry (Place.key fsId op.target) (some child) }.goto t op none

inductive Label where
  | start (t : ThreadId) (op : Op)
  /-- A step; `fail`, `sfn` and `new` are what the file system does in it. -/
  | step (t : ThreadId) (fail : Bool) (sfn : Option Name) (new : Option Ino)

def next : Label → Option State
  | .start t op =>
    match s.ops.get? t with
    | none => some (s.goto t op (some op.begin))
    | some _ => none
  | .step t fail sfn new =>
    match s.ops.get? t with
    | some (op, st) => some (advance fsId s t op fail sfn new st)
    | none => none

def boot (disk : Disk) : State := ⟨disk, .new, .empty⟩

def machine : Machine State Label where
  Init s := ∃ disk : Disk, disk.Wf ∧ s = boot disk
  next := next fsId

/-! ## When operations do not disturb each other -/

/-- The operations have no place in common, or are both lookups. -/
def Apart (op op' : Op) : Prop := (op.isFind = true ∧ op'.isFind = true) ∨ ∀ p ∈ op.places, p ∉ op'.places

instance (op op' : Op) : Decidable (Apart op op') := inferInstanceAs (Decidable (_ ∨ ∀ p ∈ _, _))

/-- Two names of a rename are not links of one file. -/
def NotLinked (disk : Disk) : Request → Prop
  | .rename d n d' n' => (d, n) = (d', n') ∨ disk.find d n = none ∨ disk.find d' n' ≠ disk.find d n
  | _ => True

instance (disk : Disk) : DecidablePred (NotLinked disk)
  | .rename .. => inferInstanceAs (Decidable (_ ∨ _ ∨ _))
  | .create .. | .link .. | .unlink .. | .rmdir .. => isTrue trivial

/-- No other name to which a changed entry answers is cached, or in use by another operation. -/
def Unaliased (r : Request) : Prop :=
  ∀ e ∈ s.disk.footprint r,
    (∀ k ∈ s.cache.table.keys, k.fsId = fsId → s.disk.Answers e k.parentIno k.name →
      (k.parentIno, k.name) ∈ op.places) ∧
    ∀ o ∈ s.ops.entries, o.1 ≠ t → ∀ p ∈ o.2.1.places, ¬ s.disk.Answers e p.1 p.2

instance (r : Request) :
    Decidable (Unaliased fsId s t op r) :=
  inferInstanceAs (Decidable (∀ e ∈ _, (∀ k ∈ _, _ → _ → _) ∧ ∀ o ∈ _, _ → ∀ p ∈ _, _))

/-- An operation begins when no other one is in progress at its names, unless both are lookups; and when
the file system is called its other names are not known, it adds nothing to a removed directory, and the
names of a rename are not links of one file. -/
def Careful : Label → Prop
  | .start _ op => ∀ o ∈ s.ops.entries, Apart op o.2.1
  | .step t _ sfn new =>
    match s.ops.get? t with
    | some (op, .backend _) =>
      match op.request sfn new with
      | some r => Unaliased fsId s t op r ∧ s.disk.Alive r ∧ s.disk.Answered r ∧ NotLinked s.disk r
      | none => True
    | _ => True

instance : DecidablePred (Careful fsId s)
  | .start _ op => inferInstanceAs (Decidable (∀ o ∈ s.ops.entries, Apart op o.2.1))
  | .step t _ sfn new =>
    match h : s.ops.get? t with
    | some (op, .backend _) =>
      match h' : op.request sfn new with
      | some r => decidable_of_iff
          (Unaliased fsId s t op r ∧ s.disk.Alive r ∧ s.disk.Answered r ∧ NotLinked s.disk r)
          (by simp only [Careful, h, h'])
      | none => isTrue (by simp only [Careful, h, h'])
    | none | some (_, .lookup) | some (_, .query) | some (_, .store _) | some (_, .lookupTarget _)
    | some (_, .queryTarget _) | some (_, .storeTarget _ _) | some (_, .publish _ _)
    | some (_, .dropTarget _) | some (_, .publishTarget _) => isTrue (by simp only [Careful, h])

end CosmOS.Vfs.Concurrent
