import CosmOS.PageCache.System

/-!
# PageCache.Mapping — the cache of one file under one caller

The operations of `page_cache.rs` on one mapping, run one after the other over an ideal backing file:
a write reaches it whole, a read brings what is present.  No other thread holds a page, so a page is
named by its index.

* `Frames` is the frame allocator: the frame that a new page gets.  It always has one.
* A result `none` is a call that does not return: it waits for a loader or a writeback that nobody
  runs, or its loop has used up the fuel.
* `reclaim_one` takes the page it looks at as an argument; the watermarks are left out, and the calls
  of `reclaim_if_needed` at the end of a write are operations of their own.
-/

namespace CosmOS.PageCache

/-- The frame for a new page at an index. -/
abbrev Frames := ℕ → ℕ

/-- `PageMapping`, with the file behind it. -/
structure Mapping where
  pages : ℕ → Option CachePage
  size : ℕ
  dirtyPages : List ℕ
  backing : File

namespace Mapping

def new (f : File) : Mapping where
  pages := fun _ => none
  size := f.len
  dirtyPages := []
  backing := f

variable (m : Mapping) (i : ℕ)

def setPage (p : CachePage) : Mapping :=
  { m with pages := Function.update m.pages i (some p) }

def page : CachePage := (m.pages i).getD (CachePage.new i 0)

/-! ## Pages -/

variable (frames : Frames)

def getOrCreatePage (i : ℕ) : Mapping :=
  match m.pages i with
  | some _ => m
  | none => m.setPage i (CachePage.new i (frames i))

/-- The loader's work in `ensure_page_uptodate`, from the first section to the last. -/
def loadPage (p : CachePage) : CachePage :=
  let validBytes := pageValidBytesForSize m.size i
  let read := m.backing.present (pageStart i) validBytes
  ((p.beginLoad.fill read fun x => m.backing.byte (pageStart i + x)).finishLoad validBytes read)

def ensurePageUptodate : Option Mapping :=
  let p := { m.page i with refBit := true }
  if p.uptodate then some (m.setPage i p)
  else if p.loading then none
  else some (m.setPage i (m.loadPage i p))

def getOrLoadPage (i : ℕ) : Option Mapping :=
  (m.getOrCreatePage frames i).ensurePageUptodate i

def markPageDirty : Mapping :=
  { m.setPage i (m.page i).markDirty with
    dirtyPages := if (m.page i).dirty then m.dirtyPages else insertIndex (m.page i).index m.dirtyPages }

def finishPageWriteback (writeOk : Bool) : Mapping :=
  { m.setPage i ((m.page i).finishWriteback writeOk) with
    dirtyPages :=
      if (m.page i).dirty then
        if (m.page i).staysDirty writeOk then insertIndex i m.dirtyPages else m.dirtyPages.erase i
      else m.dirtyPages }

/-! ## write_mapping -/

def writePage (w : WriteCall) : Option Mapping :=
  let m₁ := m.getOrCreatePage frames w.pageIdx
  let loaded :=
    if w.storesPart && !(m₁.page w.pageIdx).uptodate then m₁.ensurePageUptodate w.pageIdx else some m₁
  loaded.map fun m₂ =>
    (m₂.setPage w.pageIdx
      ((m₂.page w.pageIdx).store w.pageOff w.writable w.src w.oldSize m₂.size)).markPageDirty w.pageIdx

end Mapping

def writeLoop (frames : Frames) : ℕ → Mapping → WriteCall → Option Mapping
  | 0, m, w => if w.done < w.buf.len then none else some m
  | fuel + 1, m, w =>
    if w.done < w.buf.len then
      (m.writePage frames w).bind fun m' => writeLoop frames fuel m' w.next
    else some m

def Mapping.writeMapping (m : Mapping) (fuel : ℕ) (frames : Frames) (offset : ℕ)
    (buf : Slice UInt8) : Option Mapping :=
  if buf.len = 0 then some m
  else
    writeLoop frames fuel { m with size := max m.size (offset + buf.len) } ⟨offset, buf, m.size, 0⟩

/-! ## load_page_range -/

/-- The loop of `load_page_range_inner` that marks pages, with the indices it has marked. -/
def markRange (frames : Frames) : List ℕ → Mapping → List ℕ → Mapping × List ℕ
  | [], m, marked => (m, marked)
  | i :: rest, m, marked =>
    let m := m.getOrCreatePage frames i
    if (m.page i).uptodate || (m.page i).loading then markRange frames rest m marked
    else markRange frames rest (m.setPage i (m.page i).beginLoad) (marked ++ [i])

namespace Mapping

variable (m : Mapping)

def contiguous : List ℕ → Bool
  | [] => true
  | [_] => true
  | i :: j :: rest => decide ((m.page j).ppn = (m.page i).ppn + 1) && contiguous (j :: rest)

variable (run : List ℕ)

/-- The device fills the frames of a run with the first `read` bytes from `start` on. -/
def fillRun (first start read : ℕ) : Mapping :=
  { m with
    pages := fun i =>
      if i ∈ run then
        let pageOffset := (i - first) * pageSize
        some ((m.page i).fill (min (read - pageOffset) pageSize) fun x =>
          m.backing.byte (start + pageOffset + x))
      else m.pages i }

def finishPageRun (first fileSize read : ℕ) (buffered : Option (Slice UInt8)) :
    Mapping :=
  { m with
    pages := fun i =>
      if i ∈ run then
        some ((m.page i).finishRun i fileSize ((i - first) * pageSize) read buffered)
      else m.pages i }

def loadPageRun : Mapping :=
  let first := run.head?.getD 0
  let last := run.getLast?.getD 0
  let start := pageStart first
  let stop := min m.size (pageStart last + pageSize)
  let read := m.backing.present start (stop - start)
  if stop ≤ start then m.finishPageRun run first m.size 0 none
  else if m.contiguous run then
    (m.fillRun run first start read).finishPageRun run first m.size read none
  else
    m.finishPageRun run first m.size read
      (some ⟨stop - start, fun x => if x < read then m.backing.byte (start + x) else 0⟩)

end Mapping

def loadRuns : ℕ → Mapping → List ℕ → Mapping
  | 0, m, _ => m
  | fuel + 1, m, marked =>
    if marked.isEmpty then m
    else loadRuns fuel (m.loadPageRun (splitRun id marked).1) (splitRun id marked).2

def Mapping.loadPageRange (m : Mapping) (frames : Frames) (first count : ℕ) : Mapping :=
  let marked := markRange frames (List.range' first count) m []
  loadRuns marked.2.length marked.1 marked.2

/-! ## read_mapping -/

/-- The inner loop of `read_mapping`, over the pages of a window. -/
def readInner (frames : Frames) : ℕ → Mapping → ReadCall → Option (Mapping × ReadCall)
  | 0, _, _ => none
  | fuel + 1, m, r =>
    if r.fileOff < r.stop ∧ r.done < r.windowDone then
      (m.getOrLoadPage frames r.pageIdx).bind fun m' =>
        if r.readable (m'.page r.pageIdx) = 0 then some (m', r)
        else readInner frames fuel m' (r.copy (m'.page r.pageIdx))
    else some (m, r)

def readOuter (frames : Frames) : ℕ → Mapping → ReadCall → Option (Mapping × ReadCall)
  | 0, _, _ => none
  | fuel + 1, m, r =>
    if r.fileOff < r.stop then
      (readInner frames fuel (m.loadPageRange frames r.pageIdx r.windowPages) r.openWindow).bind
        fun result => readOuter frames fuel result.1 result.2
    else some (m, r)

namespace Mapping

variable (m : Mapping)

def readHit (offset len : ℕ) : Mapping × Option (Slice UInt8) :=
  if m.size ≤ offset then (m, some ⟨0, fun _ => 0⟩)
  else
    match m.pages (filePageIndex offset) with
    | none => (m, none)
    | some p =>
      let m' := m.setPage (filePageIndex offset) { p with refBit := true }
      if p.uptodate then
        (m', some ⟨min (p.validBytes - filePageOffset offset) (min m.size (offset + len) - offset),
          fun x => p.bytes (filePageOffset offset + x)⟩)
      else (m', none)

def readSlow (fuel : ℕ) (frames : Frames) (offset len : ℕ) : Option (Mapping × Slice UInt8) :=
  if m.size ≤ offset then some (m, ⟨0, fun _ => 0⟩)
  else
    (readOuter frames fuel m ⟨offset, min m.size (offset + len), 0, 0, fun _ => 0⟩).map
      fun result => (result.1, ⟨result.2.done, result.2.out⟩)

def readMapping (fuel : ℕ) (frames : Frames) (offset len : ℕ) : Option (Mapping × Slice UInt8) :=
  if len = 0 then some (m, ⟨0, fun _ => 0⟩)
  else if readStaysWithinPage offset len then
    match m.readHit offset len with
    | (m', some bytes) => some (m', bytes)
    | (m', none) => m'.readSlow fuel frames offset len
  else m.readSlow fuel frames offset len

/-! ## truncate_mapping and fallocate_mapping -/

/-- The old tail page gets the bytes that the file has grown by. -/
def growTail (p : CachePage) (oldTailValid newValid : ℕ) : CachePage :=
  { p with
    bytes := blit p.bytes oldTailValid (newValid - oldTailValid) fun _ => 0
    validBytes := max p.validBytes newValid
    uptodate := true }

def growPages (oldSize newSize : ℕ) : Mapping :=
  let tail := filePageIndex (oldSize - 1)
  let oldTailValid := pageValidBytesForSize oldSize tail
  let newValid := pageValidBytesForSize newSize tail
  if 0 < oldSize ∧ oldTailValid < pageSize ∧ oldTailValid < newValid then
    match m.pages tail with
    | some p => m.setPage tail (growTail p oldTailValid newValid)
    | none => m
  else m

def shrinkTail (p : CachePage) (newTailValid : ℕ) : CachePage :=
  { p with
    bytes := blit p.bytes newTailValid (pageSize - newTailValid) fun _ => 0
    validBytes := min p.validBytes newTailValid
    uptodate := true }

def shrinkPages (newSize : ℕ) : Mapping :=
  let tail := filePageIndex (newSize - 1)
  let firstRemoved := if newSize = 0 then 0 else tail + 1
  let m' := { m with
    pages := fun i => if firstRemoved ≤ i then none else m.pages i
    dirtyPages :=
      if newSize = 0 then []
      else m.dirtyPages.filter fun i => !(decide (firstRemoved ≤ i) && (m.pages i).isSome) }
  if 0 < newSize then
    match m'.pages tail with
    | some p => m'.setPage tail (shrinkTail p (pageValidBytesForSize newSize tail))
    | none => m'
  else m'

def truncateMapping (newSize : ℕ) : Mapping :=
  if m.size = newSize then m
  else
    let m' := { m with size := newSize, backing := m.backing.truncate newSize }
    if newSize < m.size then m'.shrinkPages newSize else m'.growPages m.size newSize

/-- `fallocate_mapping` in mode 0. -/
def fallocateMapping (offset len : ℕ) : Mapping :=
  let newSize := offset + len
  let m' := { m with backing := m.backing.extend newSize }
  if newSize ≤ m.size then m' else { m' with size := newSize }.growPages m.size newSize

/-! ## sync_mapping -/

inductive BatchCollectResult where
  | batch (pages : List (ℕ × CachePage))
  | wait (i : ℕ)
  | single (i : ℕ)
  | skip

variable (batch : List (ℕ × CachePage))

/-- What `collect_writeback_batch` returns when it cannot go on. -/
def closeBatch (alone : BatchCollectResult) : BatchCollectResult :=
  if batch.isEmpty then alone else .batch batch

/-- The loop of `collect_writeback_batch`; every collected page is marked `WRITEBACK`. -/
def collectWritebackBatch :
    Mapping → ℕ → List ℕ → List (ℕ × CachePage) → Mapping × BatchCollectResult
  | m, _, [], batch => (m, closeBatch batch .skip)
  | m, expected, i :: rest, batch =>
    if maxWritebackBatchPages ≤ batch.length ∨ i ≠ expected then (m, closeBatch batch .skip)
    else
      match m.pages i with
      | none => (m, closeBatch batch .skip)
      | some p =>
        if p.writeback then (m, closeBatch batch (.wait i))
        else if !p.dirty then (m, closeBatch batch .skip)
        else if p.validBytes = 0 then (m, closeBatch batch (.single i))
        else if p.validBytes ≠ pageSize then
          (m.setPage i p.beginWriteback, .batch (batch ++ [(i, p)]))
        else
          collectWritebackBatch (m.setPage i p.beginWriteback) (expected + 1) rest
            (batch ++ [(i, p)])

def writebackData : Slice UInt8 :=
  .row pageSize (batch.map fun c => ⟨c.2.validBytes, c.2.bytes⟩)

def finishBatch : Mapping → List (ℕ × CachePage) → Mapping
  | m, [] => m
  | m, c :: batch => finishBatch (m.finishPageWriteback c.1 true) batch

def flushWritebackBatch : Mapping :=
  let data := writebackData batch
  finishBatch { m with
    backing := m.backing.writeAt (pageStart ((batch.head?.map Prod.fst).getD 0)) data.len data.get }
    batch

def flushPage (i : ℕ) : Option Mapping :=
  let p := m.page i
  if p.writeback then none
  else if !p.dirty then some m
  else
    let m' := m.setPage i p.beginWriteback
    some ({ m' with
      backing := m.backing.writeAt (pageStart p.index) p.validBytes p.bytes }.finishPageWriteback i true)

end Mapping

def flushDirtyPages : ℕ → Mapping → List ℕ → Option Mapping
  | _, m, [] => some m
  | 0, _, _ :: _ => none
  | fuel + 1, m, i :: rest =>
    match Mapping.collectWritebackBatch m i (i :: rest) [] with
    | (m', .batch batch) =>
      flushDirtyPages fuel (m'.flushWritebackBatch batch) ((i :: rest).drop (max batch.length 1))
    | (m', .wait j) | (m', .single j) =>
      (m'.flushPage j).bind fun m'' => flushDirtyPages fuel m'' rest
    | (m', .skip) => flushDirtyPages fuel m' rest

namespace Mapping

variable (m : Mapping)

def syncMapping (fuel : ℕ) : Option Mapping := flushDirtyPages fuel m m.dirtyPages

/-! ## reclaim_one -/

def reclaimOne (i : ℕ) : Option Mapping :=
  match m.pages i with
  | none => some m
  | some p =>
    if p.busy then some m
    else if p.refBit then some (m.setPage i { p with refBit := false })
    else if p.dirty then m.flushPage i
    else some { m with pages := Function.update m.pages i none }

end Mapping

/-! ## Operations -/

inductive Op where
  | read (offset len : ℕ)
  | write (offset : ℕ) (buf : Slice UInt8)
  | truncate (newSize : ℕ)
  | fallocate (offset len : ℕ)
  | load (first count : ℕ)
  | sync
  | reclaim (i : ℕ)

def noBytes : Slice UInt8 := ⟨0, fun _ => 0⟩

/-- One operation, with the bytes that a read gives. -/
def Mapping.exec (m : Mapping) (fuel : ℕ) (frames : Frames) : Op → Option (Mapping × Slice UInt8)
  | .read offset len => m.readMapping fuel frames offset len
  | .write offset buf => (m.writeMapping fuel frames offset buf).map fun m' => (m', noBytes)
  | .truncate newSize => some (m.truncateMapping newSize, noBytes)
  | .fallocate offset len => some (m.fallocateMapping offset len, noBytes)
  | .load first count => some (m.loadPageRange frames first count, noBytes)
  | .sync => (m.syncMapping fuel).map fun m' => (m', noBytes)
  | .reclaim i => (m.reclaimOne i).map fun m' => (m', noBytes)

/-- What an operation makes of the file, as its caller sees it. -/
def Op.apply (f : File) : Op → File
  | .write offset buf => f.writeAt offset buf.len buf.get
  | .truncate newSize => f.truncate newSize
  | .fallocate offset len => f.extend (offset + len)
  | _ => f

end CosmOS.PageCache
