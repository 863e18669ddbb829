import CosmOS.SparseFile

/-!
# PageCache.Page — a cached file page and the sections under its lock

`CachePage` and what `page_cache.rs` does to one page while it holds the page lock.  The
sequential and the concurrent model of the cache are both made of these functions.

The frame of a page is modelled by its number and its bytes.  The owner link, the wait queue and
the flag `INACTIVE_QUEUED` are left out: which page the reclaimer looks at next is left to the
environment.  Offsets are natural numbers.
-/

namespace CosmOS.PageCache

def pageSize : ℕ := 4096

/-- A file as the page cache sees it below: the byte array of an inode. -/
abbrev File := SparseFile UInt8

/-! ## Offsets and pages -/

variable (offset : ℕ)

def filePageIndex : ℕ := offset / pageSize

def filePageOffset : ℕ := offset % pageSize

def pageStart (pageIdx : ℕ) : ℕ := pageIdx * pageSize

/-- How many bytes of a page lie inside a file of `size` bytes. -/
def pageValidBytesForSize (size pageIdx : ℕ) : ℕ := min (size - pageStart pageIdx) pageSize

theorem filePageOffset_lt : filePageOffset offset < pageSize :=
  Nat.mod_lt _ (by decide)

theorem pageStart_add_filePageOffset :
    pageStart (filePageIndex offset) + filePageOffset offset = offset := by
  unfold pageStart filePageIndex filePageOffset
  rw [Nat.mul_comm]
  exact Nat.div_add_mod offset pageSize

theorem filePageIndex_of_mem {i x : ℕ} (hx : x < pageSize) : filePageIndex (pageStart i + x) = i := by
  simp only [filePageIndex, pageStart, pageSize] at *
  omega

theorem filePageOffset_of_mem {i x : ℕ} (hx : x < pageSize) :
    filePageOffset (pageStart i + x) = x := by
  simp only [filePageOffset, pageStart, pageSize] at *
  omega

/-- An offset inside the file lies below the valid bytes of its page. -/
theorem filePageOffset_lt_valid {offset size : ℕ} (h : offset < size) :
    filePageOffset offset < pageValidBytesForSize size (filePageIndex offset) := by
  simp only [filePageOffset, pageValidBytesForSize, pageStart, filePageIndex, pageSize]
  omega

theorem pageValidBytesForSize_le (size pageIdx : ℕ) :
    pageValidBytesForSize size pageIdx ≤ pageSize :=
  Nat.min_le_right _ _

theorem pageValidBytesForSize_mono {size size' : ℕ} (h : size ≤ size') (pageIdx : ℕ) :
    pageValidBytesForSize size pageIdx ≤ pageValidBytesForSize size' pageIdx := by
  unfold pageValidBytesForSize
  omega

/-! ## The page -/

structure CachePage where
  index : ℕ
  ppn : ℕ
  bytes : ℕ → UInt8
  validBytes : ℕ
  uptodate : Bool
  dirty : Bool
  writeback : Bool
  loading : Bool
  evicting : Bool
  pinCount : ℕ
  mapCount : ℕ
  refBit : Bool
  redirtied : Bool

namespace CachePage

/-- `CachePage::new`, on a frame that `FrameTracker::new` has zeroed. -/
def new (index ppn : ℕ) : CachePage where
  index := index
  ppn := ppn
  bytes := fun _ => 0
  validBytes := 0
  uptodate := false
  dirty := false
  writeback := false
  loading := false
  evicting := false
  pinCount := 0
  mapCount := 0
  refBit := true
  redirtied := false

/-! ## Loading -/

variable (p : CachePage)

/-- The page becomes the loader's, in `ensure_page_uptodate` and in `load_page_range_inner`. -/
def beginLoad : CachePage :=
  { p with loading := true, pinCount := p.pinCount + 1 }

/-- The device stores the first `n` bytes of `src` in the frame. -/
def fill (n : ℕ) (src : ℕ → UInt8) : CachePage :=
  { p with bytes := blit p.bytes 0 n src }

theorem fill_bytes (n : ℕ) (src : ℕ → UInt8) :
    (p.fill n src).bytes = blit p.bytes 0 n src := rfl

/-- Last section of `ensure_page_uptodate`. -/
def finishLoad (validBytes readSize : ℕ) : CachePage :=
  { p with
    validBytes := max validBytes readSize
    loading := false
    uptodate := true
    pinCount := p.pinCount - 1 }

/-- How many bytes of a run end up in its page at `pageOffset`. -/
def runValid (expected pageOffset read : ℕ) (buffered : Option (Slice UInt8)) : ℕ :=
  match buffered with
  | some buffer => min (min (read - pageOffset) expected) (buffer.len - pageOffset)
  | none => min (read - pageOffset) expected

def finishRun (pageIdx fileSize pageOffset read : ℕ)
    (buffered : Option (Slice UInt8)) : CachePage :=
  let expected := pageValidBytesForSize fileSize pageIdx
  let validBytes := runValid expected pageOffset read buffered
  { p with
    bytes :=
      match buffered with
      | some buffer => blit p.bytes 0 validBytes fun x => buffer.get (pageOffset + x)
      | none => p.bytes
    validBytes := validBytes
    loading := false
    uptodate := decide (validBytes = expected)
    pinCount := p.pinCount - 1 }

/-! ## Writing -/

def markDirty : CachePage :=
  if p.dirty then { p with refBit := true, redirtied := p.redirtied || p.writeback }
  else { p with refBit := true, dirty := true, uptodate := true }

section MarkDirty

variable (p : CachePage)

@[simp]
theorem markDirty_index : p.markDirty.index = p.index := by
  unfold markDirty
  split <;> rfl

@[simp]
theorem markDirty_evicting : p.markDirty.evicting = p.evicting := by
  unfold markDirty
  split <;> rfl

@[simp]
theorem markDirty_loading : p.markDirty.loading = p.loading := by
  unfold markDirty
  split <;> rfl

@[simp]
theorem markDirty_writeback : p.markDirty.writeback = p.writeback := by
  unfold markDirty
  split <;> rfl

@[simp]
theorem markDirty_mapCount : p.markDirty.mapCount = p.mapCount := by
  unfold markDirty
  split <;> rfl

@[simp]
theorem markDirty_bytes : p.markDirty.bytes = p.bytes := by
  unfold markDirty
  split <;> rfl

@[simp]
theorem markDirty_validBytes : p.markDirty.validBytes = p.validBytes := by
  unfold markDirty
  split <;> rfl

@[simp]
theorem markDirty_dirty : p.markDirty.dirty = true := by
  unfold markDirty
  split
  · assumption
  · rfl

theorem markDirty_uptodate (h : p.dirty = true → p.uptodate = true) :
    p.markDirty.uptodate = true := by
  unfold markDirty
  split
  · exact h ‹_›
  · rfl

end MarkDirty

/-- How many bytes of the page lay in the file when the write began. -/
def validBefore (oldSize : ℕ) : ℕ :=
  min oldSize (pageStart p.index + pageSize) - pageStart p.index

/-- Last section of an iteration of `write_mapping`, before `mark_page_dirty`. -/
def store (pageOff writable : ℕ) (src : ℕ → UInt8) (oldSize mappingSize : ℕ) :
    CachePage :=
  let validBytes := max p.validBytes (pageValidBytesForSize mappingSize p.index)
  { p with
    bytes := blit p.bytes pageOff writable src
    uptodate := p.uptodate || decide (oldSize ≤ pageStart p.index)
    validBytes := if validBytes < p.validBefore oldSize then p.validBefore oldSize else validBytes }

/-! ## Writing back -/

/-- First section of a writeback, in `flush_page` and in `collect_writeback_batch`. -/
def beginWriteback : CachePage :=
  { p with writeback := true, redirtied := false, pinCount := p.pinCount + 1 }

/-- `finish_page_writeback` leaves the page dirty. -/
def staysDirty (writeOk : Bool) : Bool :=
  !writeOk || decide (0 < p.mapCount) || p.redirtied

def finishWriteback (writeOk : Bool) : CachePage :=
  { p with
    dirty := p.dirty && p.staysDirty writeOk
    writeback := false
    pinCount := p.pinCount - 1 }

/-! ## Reclaim -/

/-- `reclaim_one` does not touch the page. -/
def busy : Bool :=
  decide (0 < p.pinCount) || decide (0 < p.mapCount) || p.loading || p.writeback || p.evicting

end CachePage

/-! ## The set of dirty pages -/

/-- `BTreeSet::insert`, on the ascending list of the members. -/
def insertIndex (i : ℕ) (l : List ℕ) : List ℕ := if i ∈ l then l else l.orderedInsert (· ≤ ·) i

theorem mem_insertIndex {i j : ℕ} {l : List ℕ} : j ∈ insertIndex i l ↔ j = i ∨ j ∈ l := by
  unfold insertIndex
  split
  next hi =>
    exact ⟨.inr, fun h => h.elim (fun h => h ▸ hi) id⟩
  · exact List.mem_orderedInsert _

end CosmOS.PageCache
