import CosmOS.Machine
import CosmOS.PageCache.Page

/-!
# PageCache.System — the cache of one file under concurrent calls

Any number of threads run `write_mapping`, `read_mapping`, `load_page_range`, file faults,
`sync_mapping` and `reclaim_one` on one mapping.  A section under the page lock or the mapping lock
is one step, a transfer between frame and device is a step of its own, and a loop head is a step
that touches nothing.

* A page object is named by a number, in the order of creation; `pages` is the index of the mapping,
  so an object that was removed from it may still be in the hands of a thread.
* The environment chooses the frames, the length of every device transfer, and the object the
  reclaimer looks at; its watermarks and its queue are left out.
* A thread that has to wait for `LOADING` or `WRITEBACK` steps without effect.
* A failed allocation makes a write or a read panic: the thread has no step then.

`written`, `stamp` and `clock` are history variables: the byte that a write stored last at an
offset, when it did, and how many stores there were.  No step reads them.
-/

namespace CosmOS.PageCache

open Function

abbrev ThreadId := ℕ

abbrev ObjId := ℕ

def readBatchPages : ℕ := 64

def maxWritebackBatchPages : ℕ := 32

/-! ## Calls in progress -/

structure WriteCall where
  offset : ℕ
  buf : Slice UInt8
  oldSize : ℕ
  done : ℕ

namespace WriteCall

variable (w : WriteCall)

def fileOff : ℕ := w.offset + w.done

def pageIdx : ℕ := filePageIndex w.fileOff

def pageOff : ℕ := filePageOffset w.fileOff

def writable : ℕ := min (pageSize - w.pageOff) (w.buf.len - w.done)

/-- The part of `need_load` that does not read the page. -/
def storesPart : Bool :=
  decide (pageStart w.pageIdx < w.oldSize) && (w.pageOff != 0 || decide (w.writable < pageSize))

def src : ℕ → UInt8 := fun x => w.buf.get (w.done + x)

def next : WriteCall := { w with done := w.done + w.writable }

end WriteCall

structure ReadCall where
  offset : ℕ
  stop : ℕ
  done : ℕ
  windowDone : ℕ
  out : ℕ → UInt8

namespace ReadCall

variable (r : ReadCall)

def fileOff : ℕ := r.offset + r.done

def pageIdx : ℕ := filePageIndex r.fileOff

def pageOff : ℕ := filePageOffset r.fileOff

def windowEnd : ℕ :=
  min r.stop (pageStart r.pageIdx + pageSize * readBatchPages)

def windowPages : ℕ :=
  (r.windowEnd - pageStart r.pageIdx + (pageSize - 1)) / pageSize

def openWindow : ReadCall :=
  { r with windowDone := r.done + (r.windowEnd - r.fileOff) }

/-- How many bytes the page gives. -/
def readable (p : CachePage) : ℕ :=
  min (p.validBytes - r.pageOff) (r.stop - r.fileOff)

def copy (p : CachePage) : ReadCall :=
  { r with
    done := r.done + r.readable p
    out := blit r.out r.done (r.readable p) fun x => p.bytes (r.pageOff + x) }

end ReadCall

inductive RangeCaller where
  | read (r : ReadCall)
  | readahead

/-- A call of `load_page_range_inner`: the indices still to visit and the pages marked so far. -/
structure RangeLoad where
  next : ℕ
  stop : ℕ
  candidates : List (ℕ × ObjId)
  caller : RangeCaller

/-- Who called `get_or_create_page` or `ensure_page_uptodate`. -/
inductive Caller where
  | write (w : WriteCall)
  | read (r : ReadCall)
  | fault (pageIdx : ℕ) (dirties : Bool)
  | range (g : RangeLoad)

/-- A page of a writeback batch, with the bytes copied from it and the time of the copy. -/
structure WritebackPage where
  pageIdx : ℕ
  page : ObjId
  validBytes : ℕ
  data : ℕ → UInt8
  time : ℕ

def WritebackPage.block (w : WritebackPage) : Slice UInt8 := ⟨w.validBytes, w.data⟩

/-- A call of `sync_mapping`: the dirty pages from the current position on, and when it began. -/
structure SyncCall where
  dirtyPages : List ℕ
  began : ℕ

inductive FlushCaller where
  | sync (y : SyncCall)
  | reclaim

inductive Pc where
  | idle
  -- write_mapping
  | writeGrow (w : WriteCall)
  | writeHead (w : WriteCall)
  | writeTest (o : ObjId) (w : WriteCall)
  | writeSize (o : ObjId) (w : WriteCall)
  | writeStore (o : ObjId) (mappingSize : ℕ) (w : WriteCall)
  -- get_or_create_page
  | lookup (k : Caller)
  | insert (k : Caller)
  -- ensure_page_uptodate
  | ensure (o : ObjId) (k : Caller)
  | loadSize (o : ObjId) (k : Caller)
  | loadRead (o : ObjId) (validBytes : ℕ) (k : Caller)
  | loadFinish (o : ObjId) (validBytes readSize : ℕ) (k : Caller)
  -- read_mapping
  | readHitLookup (offset len : ℕ)
  | readHit (o : ObjId) (offset len fileSize : ℕ)
  | readSize (offset len : ℕ)
  | readOuter (r : ReadCall)
  | readInner (r : ReadCall)
  | readCopy (o : ObjId) (r : ReadCall)
  -- load_page_range_inner, load_page_run, finish_page_run
  | rangeHead (g : RangeLoad)
  | rangeMark (o : ObjId) (g : RangeLoad)
  | runs (candidates : List (ℕ × ObjId)) (k : RangeCaller)
  | runSize (run rest : List (ℕ × ObjId)) (k : RangeCaller)
  | runRead (run rest : List (ℕ × ObjId)) (fileSize : ℕ) (k : RangeCaller)
  | runFinish (todo rest : List (ℕ × ObjId)) (first fileSize read : ℕ)
      (buffered : Option (Slice UInt8)) (k : RangeCaller)
  -- a file fault, mark_cached_page_dirty
  | faultDirty (o : ObjId) (pageIdx : ℕ)
  | retain (o : ObjId) (pageIdx : ℕ)
  | markDirty (o : ObjId) (pageIdx : ℕ)
  -- sync_mapping
  | collect (y : SyncCall) (batch : List WritebackPage)
  | collectPage (o : ObjId) (pageIdx : ℕ) (y : SyncCall) (batch : List WritebackPage)
  | batchWrite (y : SyncCall) (batch : List WritebackPage)
  | batchFinish (todo : List WritebackPage) (writeOk : Bool) (consumed : ℕ) (y : SyncCall)
  | synced (began : ℕ)
  -- flush_page
  | flush (o : ObjId) (pageIdx : ℕ) (k : FlushCaller)
  | flushWrite (o : ObjId) (pageIdx validBytes time : ℕ) (k : FlushCaller)
  | flushFinish (o : ObjId) (pageIdx time : ℕ) (writeOk : Bool) (k : FlushCaller)
  -- reclaim_one
  | reclaimDecide (o : ObjId)
  | reclaimRemove (o : ObjId)
  | reclaimRestore (o : ObjId)

/-! ## Where a call goes on -/

def Caller.pageIdx : Caller → ℕ
  | .write w => w.pageIdx
  | .read r => r.pageIdx
  | .fault i _ => i
  | .range g => g.next

/-- The call goes on with the page `o`: `ensure_page_uptodate` returns, which a range does not call. -/
def Caller.loaded (o : ObjId) : Caller → Pc
  | .write w => .writeSize o w
  | .read r => .readCopy o r
  | .fault i dirties => if dirties then .faultDirty o i else .retain o i
  | .range g => .rangeMark o g

/-- `get_or_create_page` returns the page `o`. -/
def Caller.gotPage (o : ObjId) : Caller → Pc
  | .write w => .writeTest o w
  | .range g => (Caller.range g).loaded o
  | k => .ensure o k

/-- `get_or_create_page` fails; a write or a read panics. -/
def Caller.outOfMemory : Caller → Option Pc
  | .range g => some (.runs g.candidates g.caller)
  | .fault _ _ => some .idle
  | _ => none

def RangeCaller.loaded : RangeCaller → Pc
  | .read r => .readInner r
  | .readahead => .idle

/-- The call with the first `n` pages behind it. -/
def SyncCall.skip (y : SyncCall) (n : ℕ) : SyncCall := { y with dirtyPages := y.dirtyPages.drop n }

def FlushCaller.flushed (writeOk : Bool) : FlushCaller → Pc
  | .sync y => if writeOk then .collect (y.skip 1) [] else .idle
  | .reclaim => .idle

/-- The pages of the first run of adjacent indices, and the rest. -/
def splitRun {α : Type*} (idx : α → ℕ) : List α → List α × List α
  | [] => ([], [])
  | [c] => ([c], [])
  | c :: d :: cs =>
    if idx d = idx c + 1 then
      (c :: (splitRun idx (d :: cs)).1, (splitRun idx (d :: cs)).2)
    else ([c], d :: cs)

/-! ## The shared state -/

structure State where
  obj : ObjId → CachePage
  made : ℕ
  pages : ℕ → Option ObjId
  size : ℕ
  dirtyPages : List ℕ
  backing : File
  pc : ThreadId → Pc
  written : ℕ → Option UInt8
  stamp : ℕ → ℕ
  clock : ℕ

def boot (f : File) : State where
  obj := fun _ => CachePage.new 0 0
  made := 0
  pages := fun _ => none
  size := f.len
  dirtyPages := []
  backing := f
  pc := fun _ => .idle
  written := fun _ => none
  stamp := fun _ => 0
  clock := 0

namespace State

variable (s : State)

def goto (t : ThreadId) (p : Pc) : State := { s with pc := update s.pc t p }

variable (o : ObjId)

def setObj (p : CachePage) : State := { s with obj := update s.obj o p }

def addPage (i ppn : ℕ) : State :=
  { s with
    obj := update s.obj s.made (CachePage.new i ppn)
    made := s.made + 1
    pages := update s.pages i (some s.made) }

def markPageDirty : State :=
  { s.setObj o (s.obj o).markDirty with
    dirtyPages :=
      if (s.obj o).dirty then s.dirtyPages else insertIndex (s.obj o).index s.dirtyPages }

def finishPageWriteback (writeOk : Bool) : State :=
  { s.setObj o ((s.obj o).finishWriteback writeOk) with
    dirtyPages :=
      if (s.obj o).dirty then
        if (s.obj o).staysDirty writeOk then insertIndex (s.obj o).index s.dirtyPages
        else s.dirtyPages.erase (s.obj o).index
      else s.dirtyPages }

/-- The bytes of a call are recorded as the ones stored last. -/
def record (w : WriteCall) : State :=
  { s with
    written := fun off =>
      if w.fileOff ≤ off ∧ off < w.fileOff + w.writable then some (w.src (off - w.fileOff))
      else s.written off
    stamp := fun off =>
      if w.fileOff ≤ off ∧ off < w.fileOff + w.writable then s.clock + 1 else s.stamp off
    clock := s.clock + 1 }

def storeWrite (mappingSize : ℕ) (w : WriteCall) : State :=
  ((s.setObj o ((s.obj o).store w.pageOff w.writable w.src w.oldSize mappingSize)).markPageDirty o
    ).record w

/-- The device fills the frames of a run with the first `read` bytes from `start` on. -/
def fillRun (run : List (ℕ × ObjId)) (first start read : ℕ) : State :=
  { s with
    obj := fun o =>
      match run.find? fun c => c.2 == o with
      | some c =>
        let pageOffset := (c.1 - first) * pageSize
        (s.obj o).fill (min (read - pageOffset) pageSize) fun x =>
          s.backing.byte (start + pageOffset + x)
      | none => s.obj o }

end State

/-- What the environment decides in a section: the frame the allocator has, if any, and how many
bytes the device moves at most. -/
structure Env where
  frame : Option ℕ
  count : ℕ

/-- `physically_contiguous_page_run`: the frames follow each other as the pages do. -/
def State.contiguous (s : State) : List (ℕ × ObjId) → Bool
  | [] => true
  | [_] => true
  | c :: d :: cs =>
    decide ((s.obj d.2).ppn = (s.obj c.2).ppn + 1) && s.contiguous (d :: cs)

/-- The bytes of a batch: every page but the last is full. -/
def batchData (batch : List WritebackPage) : Slice UInt8 :=
  .row pageSize (batch.map WritebackPage.block)

/-! ## One section of a thread -/

variable (s : State) (t : ThreadId)

def State.writeStep : Pc → Option State
  | .writeGrow w =>
    some ({ s with size := max s.size (w.offset + w.buf.len) }.goto t (.writeHead w))
  | .writeHead w =>
    some (s.goto t (if w.done < w.buf.len then .lookup (.write w) else .idle))
  | .writeTest o w =>
    some (s.goto t
      (if w.storesPart && !(s.obj o).uptodate then .ensure o (.write w) else .writeSize o w))
  | .writeSize o w => some (s.goto t (.writeStore o s.size w))
  | .writeStore o mappingSize w =>
    some ((s.storeWrite o mappingSize w).goto t (.writeHead w.next))
  | _ => none

variable (e : Env)

/-- The sections of `get_or_create_page` and `ensure_page_uptodate`. -/
def State.pageStep : Pc → Option State
  | .lookup k =>
    match s.pages k.pageIdx with
    | some o => some (s.goto t (k.gotPage o))
    | none => some (s.goto t (.insert k))
  | .insert k =>
    match e.frame with
    | none => k.outOfMemory.map (s.goto t)
    | some ppn =>
      match s.pages k.pageIdx with
      | some o => some (s.goto t (k.gotPage o))
      | none => some ((s.addPage k.pageIdx ppn).goto t (k.gotPage s.made))
  | .ensure o k =>
    let p := { s.obj o with refBit := true }
    if p.uptodate then some ((s.setObj o p).goto t (k.loaded o))
    else if p.loading then some (s.setObj o p)
    else some ((s.setObj o p.beginLoad).goto t (.loadSize o k))
  | .loadSize o k =>
    some (s.goto t (.loadRead o (pageValidBytesForSize s.size k.pageIdx) k))
  | .loadRead o validBytes k =>
    let start := pageStart k.pageIdx
    let read := min e.count (s.backing.present start validBytes)
    some ((s.setObj o ((s.obj o).fill read fun x => s.backing.byte (start + x))).goto t
      (.loadFinish o validBytes read k))
  | .loadFinish o validBytes readSize k =>
    some ((s.setObj o ((s.obj o).finishLoad validBytes readSize)).goto t (k.loaded o))
  | _ => none

def State.readStep : Pc → Option State
  | .readHitLookup offset len =>
    if s.size ≤ offset then some (s.goto t .idle)
    else
      match s.pages (filePageIndex offset) with
      | some o => some (s.goto t (.readHit o offset len s.size))
      | none => some (s.goto t (.readSize offset len))
  | .readHit o offset len _ =>
    some ((s.setObj o { s.obj o with refBit := true }).goto t
      (if (s.obj o).uptodate then .idle else .readSize offset len))
  | .readSize offset len =>
    some (s.goto t (if s.size ≤ offset then .idle
      else .readOuter ⟨offset, min s.size (offset + len), 0, 0, fun _ => 0⟩))
  | .readOuter r =>
    some (s.goto t (if r.fileOff < r.stop then
      .rangeHead ⟨r.pageIdx, r.pageIdx + r.windowPages, [], .read r.openWindow⟩ else .idle))
  | .readInner r =>
    some (s.goto t (if r.fileOff < r.stop ∧ r.done < r.windowDone then .lookup (.read r)
      else .readOuter r))
  | .readCopy o r =>
    some (s.goto t (if r.readable (s.obj o) = 0 then .readOuter r
      else .readInner (r.copy (s.obj o))))
  | _ => none

/-- The sections of `load_page_range_inner`, `load_page_run` and `finish_page_run`. -/
def State.rangeStep : Pc → Option State
  | .rangeHead g =>
    some (s.goto t (if g.next < g.stop then .lookup (.range g) else .runs g.candidates g.caller))
  | .rangeMark o g =>
    if (s.obj o).uptodate || (s.obj o).loading then
      some (s.goto t (.rangeHead { g with next := g.next + 1 }))
    else
      some ((s.setObj o (s.obj o).beginLoad).goto t
        (.rangeHead { g with next := g.next + 1, candidates := g.candidates ++ [(g.next, o)] }))
  | .runs candidates k =>
    some (s.goto t (if candidates.isEmpty then k.loaded
      else .runSize (splitRun Prod.fst candidates).1 (splitRun Prod.fst candidates).2 k))
  | .runSize run rest k => some (s.goto t (.runRead run rest s.size k))
  | .runRead run rest fileSize k =>
    let first := (run.head?.map Prod.fst).getD 0
    let last := (run.getLast?.map Prod.fst).getD 0
    let start := pageStart first
    let stop := min fileSize (pageStart last + pageSize)
    let read := min e.count (s.backing.present start (stop - start))
    if stop ≤ start then some (s.goto t (.runFinish run rest first fileSize 0 none k))
    else if s.contiguous run then
      some ((s.fillRun run first start read).goto t
        (.runFinish run rest first fileSize read none k))
    else
      some (s.goto t (.runFinish run rest first fileSize read
        (some ⟨stop - start, fun x => if x < read then s.backing.byte (start + x) else 0⟩) k))
  | .runFinish [] rest _ _ _ _ k => some (s.goto t (.runs rest k))
  | .runFinish (c :: todo) rest first fileSize read buffered k =>
    some ((s.setObj c.2
      ((s.obj c.2).finishRun c.1 fileSize ((c.1 - first) * pageSize) read buffered)).goto t
      (.runFinish todo rest first fileSize read buffered k))
  | _ => none

/-- The sections that map a cache page, and `mark_cached_page_dirty` on a mapped one. -/
def State.faultStep : Pc → Option State
  | .faultDirty o i => some ((s.markPageDirty o).goto t (.retain o i))
  | .retain o _ =>
    some ((s.setObj o { s.obj o with refBit := true, mapCount := (s.obj o).mapCount + 1 }).goto t
      .idle)
  | .markDirty o _ => some ((s.markPageDirty o).goto t .idle)
  | _ => none

/-- The sections of `sync_mapping`: `collect_writeback_batch` and `flush_writeback_batch`. -/
def State.syncStep : Pc → Option State
  | .collect y batch =>
    match y.dirtyPages.head?, y.dirtyPages[batch.length]? with
    | none, _ =>
      some (s.goto t (if batch.isEmpty then .synced y.began else .batchWrite y batch))
    | some _, none => some (s.goto t (.batchWrite y batch))
    | some first, some i =>
      if maxWritebackBatchPages ≤ batch.length ∨ i ≠ first + batch.length then
        some (s.goto t (.batchWrite y batch))
      else
        match s.pages i with
        | some o => some (s.goto t (.collectPage o i y batch))
        | none =>
          some (s.goto t (if batch.isEmpty then .collect (y.skip 1) [] else .batchWrite y batch))
  | .collectPage o i y batch =>
    if (s.obj o).writeback then
      some (s.goto t (if batch.isEmpty then .flush o i (.sync y) else .batchWrite y batch))
    else if !(s.obj o).dirty then
      some (s.goto t (if batch.isEmpty then .collect (y.skip 1) [] else .batchWrite y batch))
    else if (s.obj o).validBytes = 0 then
      some (s.goto t (if batch.isEmpty then .flush o i (.sync y) else .batchWrite y batch))
    else
      let batch' := batch ++ [⟨i, o, (s.obj o).validBytes, (s.obj o).bytes, s.clock⟩]
      some ((s.setObj o (s.obj o).beginWriteback).goto t
        (if (s.obj o).validBytes ≠ pageSize then .batchWrite y batch' else .collect y batch'))
  | .batchWrite y batch =>
    let data := batchData batch
    let n := min e.count data.len
    let first := (batch.head?.map WritebackPage.pageIdx).getD 0
    some ({ s with backing := s.backing.writeAt (pageStart first) n data.get }.goto t
      (.batchFinish batch (decide (n = data.len)) batch.length y))
  | .batchFinish [] writeOk consumed y =>
    some (s.goto t (if writeOk then .collect (y.skip (max consumed 1)) [] else .idle))
  | .batchFinish (w :: todo) writeOk consumed y =>
    some ((s.finishPageWriteback w.page writeOk).goto t (.batchFinish todo writeOk consumed y))
  | .synced _ => some (s.goto t .idle)
  | _ => none

def State.reclaimStep : Pc → Option State
  | .flush o i k =>
    if (s.obj o).writeback then some s
    else if !(s.obj o).dirty then some (s.goto t (k.flushed true))
    else
      some ((s.setObj o (s.obj o).beginWriteback).goto t
        (.flushWrite o i (s.obj o).validBytes s.clock k))
  | .flushWrite o i validBytes time k =>
    let n := min e.count validBytes
    some ({ s with backing := s.backing.writeAt (pageStart i) n (s.obj o).bytes }.goto t
      (.flushFinish o i time (decide (n = validBytes)) k))
  | .flushFinish o _ _ writeOk k =>
    some ((s.finishPageWriteback o writeOk).goto t (k.flushed writeOk))
  | .reclaimDecide o =>
    if (s.obj o).busy then some (s.goto t .idle)
    else if (s.obj o).refBit then
      some ((s.setObj o { s.obj o with refBit := false }).goto t .idle)
    else if (s.obj o).dirty then some (s.goto t (.flush o (s.obj o).index .reclaim))
    else some ((s.setObj o { s.obj o with evicting := true }).goto t (.reclaimRemove o))
  | .reclaimRemove o =>
    if s.pages (s.obj o).index = some o then
      some ({ s with pages := update s.pages (s.obj o).index none }.goto t .idle)
    else some (s.goto t (.reclaimRestore o))
  | .reclaimRestore o =>
    some ((s.setObj o { s.obj o with evicting := false }).goto t .idle)
  | _ => none

def State.threadStep : Option State :=
  (s.writeStep t (s.pc t)).or <| (s.pageStep t e (s.pc t)).or <| (s.readStep t (s.pc t)).or <|
    (s.rangeStep t e (s.pc t)).or <| (s.faultStep t (s.pc t)).or <|
    (s.syncStep t e (s.pc t)).or (s.reclaimStep t e (s.pc t))

/-! ## Labels -/

inductive Label where
  | write (t : ThreadId) (offset : ℕ) (buf : Slice UInt8)
  | read (t : ThreadId) (offset len : ℕ)
  | loadRange (t : ThreadId) (first count : ℕ)
  | fault (t : ThreadId) (pageIdx : ℕ) (dirties : Bool)
  | dirtyMapped (t : ThreadId) (o : ObjId)
  | unmap (o : ObjId)
  | sync (t : ThreadId)
  | reclaim (t : ThreadId) (o : ObjId)
  | run (t : ThreadId) (e : Env)

def readStaysWithinPage (offset len : ℕ) : Bool :=
  decide (filePageIndex offset = filePageIndex (offset + (len - 1)))

def State.begin (p : Pc) : Option State :=
  match s.pc t with
  | .idle => some (s.goto t p)
  | _ => none

def State.next : Label → Option State
  | .write t offset buf =>
    s.begin t (if buf.len = 0 then .idle else .writeGrow ⟨offset, buf, s.size, 0⟩)
  | .read t offset len =>
    s.begin t (if len = 0 then .idle
      else if readStaysWithinPage offset len then .readHitLookup offset len
      else .readSize offset len)
  | .loadRange t first count => s.begin t (.rangeHead ⟨first, first + count, [], .readahead⟩)
  | .fault t pageIdx dirties => s.begin t (.lookup (.fault pageIdx dirties))
  -- the address space that maps the page holds it
  | .dirtyMapped t o =>
    if 0 < (s.obj o).mapCount then s.begin t (.markDirty o (s.obj o).index) else none
  | .unmap o =>
    if 0 < (s.obj o).mapCount then
      some (s.setObj o { s.obj o with mapCount := (s.obj o).mapCount - 1 })
    else none
  | .sync t => s.begin t (.collect ⟨s.dirtyPages, s.clock⟩ [])
  | .reclaim t o => if o < s.made then s.begin t (.reclaimDecide o) else none
  | .run t e => s.threadStep t e

def machine : Machine State Label where
  Init := fun s => ∃ f, s = boot f
  next := State.next

theorem init_boot (f : File) : machine.Init (boot f) := ⟨f, rfl⟩

end CosmOS.PageCache
