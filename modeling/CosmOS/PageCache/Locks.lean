import CosmOS.BTreeMap
import CosmOS.Mutex
import CosmOS.PageCache.Mapping

/-!
# PageCache.Locks — page locks and mapping locks, one at a time

Any number of tasks run the functions of `page_cache.rs` that take the lock of a page and the lock of its
mapping, on any number of pages and mappings.  Taking a lock and dropping one are steps of their own, and a
step runs the code up to the next of them; a call of the backing file is a step too.

* A position is the lock operation that comes next, with what the task needs for the rest of the call.
  `op` is the operation, `advance` what the code does after it.
* `heldPage` and `heldMapping` are the locks that a task has at a position: at most one of each kind.
* The bytes of pages, wait queues and the lock of the cache manager are left out.  A task that sleeps in a
  wait queue is one that is not run.

`write_mapping` and `mark_cached_page_dirty` are here with their last section, in which they call
`mark_page_dirty`; what `try_get_page_with_fault_window` does after its first statement takes one lock at a
time and is left out.
-/

namespace CosmOS.PageCache.Locks

open Function

abbrev TaskId := ℕ

abbrev PageId := ℕ

abbrev MappingId := ℕ

structure MappingData where
  size : ℕ
  pages : BTreeMap ℕ PageId
  dirtyPages : List ℕ

structure Data where
  page : PageId → CachePage
  /-- `owner`; a page that was discarded has none. -/
  owner : PageId → Option MappingId
  mapping : MappingId → MappingData

inductive Pc where
  | idle
  -- the guards that go out of scope, and where the code goes on
  | unlockPage (p : PageId) (k : Pc)
  | unlockMapping (m : MappingId) (k : Pc)
  -- mark_page_dirty, from the lock of its caller on
  | mark (m : MappingId) (p : PageId)
  | markInsert (m : MappingId) (p : PageId)
  -- sync_mapping and collect_writeback_batch; `rest` are the dirty pages from the current position on
  | sync (m : MappingId)
  | collectInode (m : MappingId) (rest : List ℕ)
  | collectLookup (m : MappingId) (i : ℕ) (rest : List ℕ) (batch : List (ℕ × PageId))
  | collectPage (m : MappingId) (p : PageId) (i : ℕ) (rest : List ℕ) (batch : List (ℕ × PageId))
  | batchWrite (m : MappingId) (rest : List ℕ) (batch : List (ℕ × PageId))
  -- flush_page; `k` is where its caller goes on if it succeeds
  | flush (m : MappingId) (p : PageId) (k : Pc)
  | flushInode (m : MappingId) (p : PageId) (k : Pc)
  | flushWait (m : MappingId) (p : PageId) (k : Pc)
  | flushWrite (m : MappingId) (p : PageId) (k : Pc)
  -- finish_page_writeback
  | finish (m : MappingId) (i : ℕ) (p : PageId) (writeOk : Bool) (k : Pc)
  | finishInsert (m : MappingId) (i : ℕ) (p : PageId) (stays : Bool) (k : Pc)
  | finishUnlock (p : PageId) (k : Pc)
  -- truncate_mapping
  | truncInode (m : MappingId) (newSize : ℕ)
  | truncSize (m : MappingId) (newSize : ℕ)
  | truncBacking (m : MappingId) (newSize oldSize : ℕ)
  | truncReadahead (m : MappingId) (newSize oldSize : ℕ)
  | truncPages (m : MappingId) (newSize oldSize : ℕ)
  | truncTail (m : MappingId) (i newSize oldSize : ℕ)
  | truncPage (p : PageId) (i newSize oldSize : ℕ)
  -- reclaim_one
  | reclaim (p : PageId)
  | reclaimOwner (p : PageId)
  | reclaimUpgrade (p : PageId)
  | reclaimIndex (m : MappingId) (p : PageId)
  | reclaimRemove (m : MappingId) (p : PageId) (i : ℕ)
  | reclaimRestore (p : PageId)
  -- cached_uptodate_pages
  | cached (m : MappingId) (first count : ℕ)
  | cachedPage (m : MappingId) (p : PageId) (rest : List PageId)
  -- try_get_page_with_fault_window
  | window (m : MappingId) (i : ℕ)
  | windowPage (m : MappingId) (p : PageId)
  -- discard_inode
  | discard (m : MappingId)
  | discardPage (m : MappingId) (p : PageId) (rest : List PageId)
  | discardClear (m : MappingId)

/-! ## Lock operations -/

inductive LockOp where
  | takePage (p : PageId)
  | takeMapping (m : MappingId)
  | dropPage (p : PageId)
  | dropMapping (m : MappingId)
  | backing
  | nothing
deriving DecidableEq

def Pc.op : Pc → LockOp
  | .unlockPage p _ | .finishUnlock p _ => .dropPage p
  | .unlockMapping m _ | .discardClear m => .dropMapping m
  | .mark _ p | .collectPage _ p _ _ _ | .flush _ p _ | .flushWait _ p _ | .finish _ _ p _ _ |
    .truncPage p _ _ _ | .reclaim p | .reclaimOwner p | .reclaimUpgrade p | .reclaimIndex _ p |
    .reclaimRestore p | .cachedPage _ p _ | .windowPage _ p | .discardPage _ p _ => .takePage p
  | .markInsert m _ | .sync m | .collectInode m _ | .collectLookup m _ _ _ | .flushInode m _ _ |
    .finishInsert m _ _ _ _ | .truncInode m _ | .truncSize m _ | .truncReadahead m _ _ |
    .truncPages m _ _ | .truncTail m _ _ _ | .reclaimRemove m _ _ | .cached m _ _ | .window m _ |
    .discard m => .takeMapping m
  | .batchWrite _ _ _ | .flushWrite _ _ _ | .truncBacking _ _ _ => .backing
  | .idle => .nothing

def Pc.heldPage : Pc → Option PageId
  | .unlockPage p _ | .finishUnlock p _ | .markInsert _ p | .flushInode _ p _ |
    .finishInsert _ _ p _ _ => some p
  | .unlockMapping _ k => k.heldPage
  | _ => none

def Pc.heldMapping : Pc → Option MappingId
  | .unlockMapping m _ | .discardClear m | .cachedPage m _ _ | .windowPage m _ | .discardPage m _ _ =>
    some m
  | .unlockPage _ k => k.heldMapping
  | _ => none

/-! ## The code between two lock operations -/

section Flow

variable (m : MappingId) (rest : List ℕ)

def syncNext : Pc := if rest.isEmpty then .idle else .collectInode m rest

variable (batch : List (ℕ × PageId))

/-- `collect_writeback_batch` stops: the batch, or nothing of the first page. -/
def closeBatch : Pc :=
  if batch.isEmpty then syncNext m (rest.drop 1) else .batchWrite m rest batch

/-- The head of the loop of `collect_writeback_batch`. -/
def collectNext : Pc :=
  match rest.head?, rest.drop batch.length with
  | some first, i :: _ =>
    if maxWritebackBatchPages ≤ batch.length ∨ i ≠ first + batch.length then closeBatch m rest batch
    else .collectLookup m i rest batch
  | _, _ => closeBatch m rest batch

/-- The loop at the end of `flush_writeback_batch`. -/
def finishAll (writeOk : Bool) (k : Pc) : List (ℕ × PageId) → Pc
  | [] => k
  | c :: batch => .finish m c.1 c.2 writeOk (finishAll writeOk k batch)

/-- The loop of `cached_uptodate_pages`, under the mapping lock. -/
def cachedNext : List PageId → Pc
  | [] => .unlockMapping m .idle
  | p :: rest => .cachedPage m p rest

/-- The loop of `discard_inode`, under the mapping lock. -/
def discardNext : List PageId → Pc
  | [] => .discardClear m
  | p :: rest => .discardPage m p rest

/-- The end of `truncate_mapping`: the tail page that it looks at. -/
def truncNext (newSize oldSize : ℕ) : Pc :=
  if newSize < oldSize then
    if 0 < newSize then .truncTail m (filePageIndex (newSize - 1)) newSize oldSize else .idle
  else if 0 < oldSize ∧ pageValidBytesForSize oldSize (filePageIndex (oldSize - 1)) < pageSize then
    .truncTail m (filePageIndex (oldSize - 1)) newSize oldSize
  else .idle

end Flow

namespace Data

variable (d : Data)

def setPage (p : PageId) (q : CachePage) : Data := { d with page := update d.page p q }

variable (m : MappingId)

def setMapping (x : MappingData) : Data :=
  { d with mapping := update d.mapping m x }

/-- The pages with an index in `[first, first + count)`. -/
def range (first count : ℕ) : List PageId :=
  ((d.mapping m).pages.filter fun i _ => first ≤ i && i < first + count).values

/-- What `truncate_mapping` does to the index. -/
def truncatePages (newSize oldSize : ℕ) : Data :=
  let x := d.mapping m
  let firstRemoved := if newSize = 0 then 0 else filePageIndex (newSize - 1) + 1
  d.setMapping m
    (if newSize < oldSize then
      { size := newSize
        pages := x.pages.filter fun i _ => i < firstRemoved
        dirtyPages :=
          if newSize = 0 then []
          else x.dirtyPages.filter fun i => i < firstRemoved || (x.pages.get? i).isNone }
    else { x with size := newSize })

/-- What `truncate_mapping` does to the tail page. -/
def truncateTail (p : PageId) (i newSize oldSize : ℕ) : Data :=
  let q := d.page p
  d.setPage p
    (if newSize < oldSize then PageCache.Mapping.shrinkTail q (pageValidBytesForSize newSize i)
    else if pageValidBytesForSize oldSize i < pageValidBytesForSize newSize i then
      PageCache.Mapping.growTail q (pageValidBytesForSize oldSize i) (pageValidBytesForSize newSize i)
    else q)

/-- The lock operation is done: the code up to the next one.  `ok` is the answer of the backing file. -/
def advance (ok : Bool) : Pc → Data × Pc
  | .idle => (d, .idle)
  | .unlockPage _ k => (d, k)
  | .unlockMapping _ k => (d, k)
  | .mark m p =>
    (d.setPage p (d.page p).markDirty,
      if (d.page p).dirty then .unlockPage p .idle else .markInsert m p)
  | .markInsert m p =>
    let x := d.mapping m
    (d.setMapping m { x with dirtyPages := insertIndex (d.page p).index x.dirtyPages },
      .unlockMapping m (.unlockPage p .idle))
  | .sync m => (d, .unlockMapping m (syncNext m (d.mapping m).dirtyPages))
  | .collectInode m rest => (d, .unlockMapping m (collectNext m rest []))
  | .collectLookup m i rest batch =>
    (d, .unlockMapping m
      (match (d.mapping m).pages.get? i with
        | some p => .collectPage m p i rest batch
        | none => closeBatch m rest batch))
  | .collectPage m p i rest batch =>
    let q := d.page p
    if q.writeback || (q.dirty && q.validBytes = 0) then
      (d, .unlockPage p
        (if batch.isEmpty then .flush m p (syncNext m (rest.drop 1)) else .batchWrite m rest batch))
    else if !q.dirty then (d, .unlockPage p (closeBatch m rest batch))
    else
      (d.setPage p q.beginWriteback, .unlockPage p
        (if q.validBytes ≠ pageSize then .batchWrite m rest (batch ++ [(i, p)])
        else collectNext m rest (batch ++ [(i, p)])))
  | .batchWrite m rest batch =>
    (d, finishAll m ok (if ok then syncNext m (rest.drop (max batch.length 1)) else .idle) batch)
  | .flush m p k =>
    let q := d.page p
    if q.writeback then (d, .unlockPage p (.flushWait m p k))
    else if !q.dirty then (d, .unlockPage p k)
    else (d.setPage p q.beginWriteback, .flushInode m p k)
  | .flushInode m p k => (d, .unlockMapping m (.unlockPage p (.flushWrite m p k)))
  -- the condition of the wait
  | .flushWait m p k => (d, .unlockPage p (.flush m p k))
  | .flushWrite m p k => (d, .finish m (d.page p).index p ok (if ok then k else .idle))
  | .finish m i p writeOk k =>
    let q := d.page p
    if q.dirty then
      (d.setPage p { q with dirty := q.staysDirty writeOk },
        .finishInsert m i p (q.staysDirty writeOk) k)
    else (d, .finishUnlock p k)
  | .finishInsert m i p stays k =>
    let x := d.mapping m
    (d.setMapping m
      { x with dirtyPages := if stays then insertIndex i x.dirtyPages else x.dirtyPages.erase i },
      .unlockMapping m (.finishUnlock p k))
  | .finishUnlock p k =>
    (d.setPage p { d.page p with writeback := false, pinCount := (d.page p).pinCount - 1 }, k)
  | .truncInode m newSize => (d, .unlockMapping m (.truncSize m newSize))
  | .truncSize m newSize =>
    (d, .unlockMapping m
      (if (d.mapping m).size = newSize then .idle else .truncBacking m newSize (d.mapping m).size))
  | .truncBacking m newSize oldSize => (d, if ok then .truncReadahead m newSize oldSize else .idle)
  | .truncReadahead m newSize oldSize => (d, .unlockMapping m (.truncPages m newSize oldSize))
  | .truncPages m newSize oldSize =>
    (d.truncatePages m newSize oldSize, .unlockMapping m (truncNext m newSize oldSize))
  | .truncTail m i newSize oldSize =>
    (d, .unlockMapping m
      (match (d.mapping m).pages.get? i with
        | some p => .truncPage p i newSize oldSize
        | none => .idle))
  | .truncPage p i newSize oldSize => (d.truncateTail p i newSize oldSize, .unlockPage p .idle)
  | .reclaim p =>
    let q := d.page p
    if q.busy then (d, .unlockPage p .idle)
    else if q.refBit then (d.setPage p { q with refBit := false }, .unlockPage p .idle)
    else if q.dirty then (d, .unlockPage p (.reclaimOwner p))
    else (d.setPage p { q with evicting := true }, .unlockPage p (.reclaimUpgrade p))
  | .reclaimOwner p =>
    (d, .unlockPage p
      (match d.owner p with
        | some m => .flush m p .idle
        | none => .idle))
  | .reclaimUpgrade p =>
    (d, .unlockPage p
      (match d.owner p with
        | some m => .reclaimIndex m p
        | none => .idle))
  | .reclaimIndex m p => (d, .unlockPage p (.reclaimRemove m p (d.page p).index))
  | .reclaimRemove m p i =>
    let x := d.mapping m
    if x.pages.get? i = some p then
      (d.setMapping m { x with pages := x.pages.erase i }, .unlockMapping m .idle)
    else (d, .unlockMapping m (.reclaimRestore p))
  | .reclaimRestore p => (d.setPage p { d.page p with evicting := false }, .unlockPage p .idle)
  | .cached m first count => (d, cachedNext m (d.range m first count))
  | .cachedPage m p rest => (d, .unlockPage p (cachedNext m rest))
  -- the guard of the mapping lives to the end of the statement that locks the page
  | .window m i =>
    (d, match (d.mapping m).pages.get? i with
      | some p => .windowPage m p
      | none => .unlockMapping m .idle)
  | .windowPage m p => (d, .unlockPage p (.unlockMapping m .idle))
  | .discard m => (d, discardNext m (d.mapping m).pages.values)
  | .discardPage m p rest =>
    let q := d.page p
    ({ d.setPage p { q with dirty := false, writeback := false, pinCount := q.pinCount - 1 } with
        owner := update d.owner p none },
      .unlockPage p (discardNext m rest))
  | .discardClear m => (d.setMapping m { d.mapping m with pages := .empty, dirtyPages := [] }, .idle)

end Data

structure State where
  data : Data
  pageLock : PageId → Option TaskId
  mappingLock : MappingId → Option TaskId
  pc : TaskId → Pc

inductive Call where
  | markPageDirty (m : MappingId) (p : PageId)
  | syncMapping (m : MappingId)
  | truncateMapping (m : MappingId) (newSize : ℕ)
  | reclaimOne (p : PageId)
  | cachedUptodatePages (m : MappingId) (first count : ℕ)
  | tryGetPageWithFaultWindow (m : MappingId) (i : ℕ)
  | discardInode (m : MappingId)

def Call.start : Call → Pc
  | .markPageDirty m p => .mark m p
  | .syncMapping m => .sync m
  | .truncateMapping m newSize => .truncInode m newSize
  | .reclaimOne p => .reclaim p
  | .cachedUptodatePages m first count => .cached m first count
  | .tryGetPageWithFaultWindow m i => .window m i
  | .discardInode m => .discard m

inductive Label where
  | call (t : TaskId) (c : Call)
  | run (t : TaskId) (ok : Bool)

variable (s : State)

def State.goto (t : TaskId) (k : Pc) : State := { s with pc := update s.pc t k }

/-- The task `t` does its lock operation, if the lock is free. -/
def State.step (t : TaskId) (ok : Bool) : Option State :=
  let after := s.data.advance ok (s.pc t)
  let s' : State := { s with data := after.1 }.goto t after.2
  match (s.pc t).op with
  | .takePage p =>
    if s.pageLock p = none then some { s' with pageLock := update s.pageLock p (some t) }
    else none
  | .takeMapping m =>
    if s.mappingLock m = none then
      some { s' with mappingLock := update s.mappingLock m (some t) }
    else none
  | .dropPage p => some { s' with pageLock := update s.pageLock p none }
  | .dropMapping m => some { s' with mappingLock := update s.mappingLock m none }
  | .backing => some s'
  | .nothing => none

def next : Label → Option State
  | .call t c =>
    match s.pc t with
    | .idle => some (s.goto t c.start)
    | _ => none
  | .run t ok => s.step t ok

def boot (d : Data) : State where
  data := d
  pageLock := fun _ => none
  mappingLock := fun _ => none
  pc := fun _ => .idle

def machine : Machine State Label where
  Init s := ∃ d, s = boot d
  next := next

/-- One task has a page and waits for a mapping, another has the mapping and waits for the page. -/
def Deadlock (s : State) (t u : TaskId) (p : PageId) (m : MappingId) : Prop :=
  s.pageLock p = some t ∧ (s.pc t).op = .takeMapping m ∧
    s.mappingLock m = some u ∧ (s.pc u).op = .takePage p

instance (s : State) (t u : TaskId) (p : PageId) (m : MappingId) : Decidable (Deadlock s t u p m) :=
  inferInstanceAs (Decidable (_ ∧ _ ∧ _ ∧ _))

end CosmOS.PageCache.Locks
