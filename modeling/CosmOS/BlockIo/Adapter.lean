import CosmOS.BlockIo.Reads

/-!
# BlockIo.Adapter — the block device that ext4 sees

`Ext4BlockDeviceAdapter` gives ext4 reads and writes at byte positions.  A write is taken apart into a part
of a first block, whole blocks, and a part of a last block.  The parts go through the cache, the whole
blocks straight to the device.  A read goes through the cache, or past it.

`flatWrite` is the write on a flat array.  `writeOffset_spec`, `readOffset_spec` and the others: each
function of the adapter is a read or a write of the flat arrays that the blocks hold (`flatOf`).
-/

namespace CosmOS.BlockIo

open List Function

/-- `ext4_rs::BLOCK_SIZE`, a constant of a submodule. -/
class Ext4 where
  ext4BlockSize : ℕ
  blockSz_dvd : blockSz ∣ ext4BlockSize

export Ext4 (ext4BlockSize)

/-! ## Functions -/

/-- The blocks that cover `len` bytes from `offset` on: the first one and their number. -/
def covering (offset len : ℕ) : ℕ × ℕ :=
  let startBlock := offset / blockSz
  let endBlock := (offset + len + (blockSz - 1)) / blockSz
  (startBlock, endBlock - startBlock)

/-- The bytes asked for, out of those of the covering blocks. -/
def cutOut [Ext4] (offset : ℕ) (aligned : List UInt8) : List UInt8 :=
  let srcStart := offset - offset / blockSz * blockSz
  if srcStart = 0 ∧ aligned.length = ext4BlockSize then aligned
  else (aligned.drop srcStart).take ext4BlockSize

def readBlocks (d : Device) (dev : ℕ) (range : ℕ × ℕ) : List UInt8 :=
  slice (flatOf d dev) (range.1 * blockSz) (range.2 * blockSz)

variable (size dev : ℕ)

section

variable [Ext4]

def readOffset (s : Store) (offset : ℕ) : Option (Store × List UInt8) :=
  (readBlockCacheRanges size dev s [covering offset ext4BlockSize]).map fun (s, bufs) =>
    (s, cutOut offset bufs.flatten)

def readOffsetUncached (dev : ℕ) (s : Store) (offset : ℕ) : List UInt8 :=
  cutOut offset (readBlocks s.device dev (covering offset ext4BlockSize))

/-- The inner loop of `read_offsets`: how many offsets continue a run, and the rest. -/
def takeRun (prev : ℕ) : List ℕ → ℕ × List ℕ
  | [] => (0, [])
  | offset :: rest =>
    if offset = prev + ext4BlockSize then
      let (n, rest) := takeRun offset rest
      (n + 1, rest)
    else (0, offset :: rest)

/-- The runs of contiguous offsets, as first offset and number. -/
def runsOf : ℕ → List ℕ → List (ℕ × ℕ)
  | _, [] => []
  | 0, _ :: _ => []
  | fuel + 1, offset :: rest =>
    let (n, rest) := takeRun offset rest
    (offset, n + 1) :: runsOf fuel rest

def runRange (run : ℕ × ℕ) : ℕ × ℕ := (run.1 / blockSz, run.2 * ext4BlockSize / blockSz)

def readOffsets (s : Store) (offsets : List ℕ) : Option (Store × List UInt8) :=
  (readBlockCacheRanges size dev s ((runsOf offsets.length offsets).map runRange)).map fun (s, bufs) =>
    (s, bufs.flatten)

/-- `read_offsets_uncached`; a run that does not start at a block fails an assertion. -/
def readOffsetsUncached (dev : ℕ) (s : Store) (offsets : List ℕ) : Option (List UInt8) :=
  let runs := runsOf offsets.length offsets
  if runs.all fun run => run.1 % blockSz = 0 then
    some (runs.flatMap fun run => readBlocks s.device dev (runRange run))
  else none

end

def writeOffset (s : Store) (offset : ℕ) (data : Slice UInt8) : Option Store :=
  if data.len = 0 then some s
  else
    let dstStart := offset % blockSz
    let head := if dstStart ≠ 0 then min (blockSz - dstStart) data.len else 0
    let first := if dstStart ≠ 0 then
        s.writeBytes size (toLex (dev, offset / blockSz)) dstStart head data.get
      else some s
    first.bind fun s =>
      let count := (data.len - head) / blockSz
      let s := if count * blockSz ≠ 0 then
          s.overwriteBlockCacheRange ⟨dev, (offset + head) / blockSz, count, fun i => data.get (head + i)⟩
        else s
      let written := head + count * blockSz
      if written < data.len then
        s.writeBytes size (toLex (dev, (offset + written) / blockSz)) 0 (data.len - written)
          fun i => data.get (written + i)
      else some s

def offsetAndLenAreBlockAligned (offset len : ℕ) : Bool := offset % blockSz = 0 && len % blockSz = 0

/-- `write_offsets_many`: aligned writes are kept back until one that is not aligned, or to the end. -/
def writeOffsetsMany (size dev : ℕ) : Store → List BlockWrite → List (ℕ × Slice UInt8) → Option Store
  | s, pending, [] => some (if pending.isEmpty then s else s.overwriteBlockCacheRanges pending)
  | s, pending, (offset, data) :: writes =>
    if data.len = 0 then writeOffsetsMany size dev s pending writes
    else if offsetAndLenAreBlockAligned offset data.len then
      writeOffsetsMany size dev s
        (pending ++ [⟨dev, offset / blockSz, data.len / blockSz, data.get⟩]) writes
    else
      let s := if pending.isEmpty then s else s.overwriteBlockCacheRanges pending
      (writeOffset size dev s offset data).bind fun s => writeOffsetsMany size dev s [] writes

/-! ## Flat arrays -/

variable (c : Device)

/-- A write of `n` bytes at position `off` of a device. -/
def flatWrite (dev off n : ℕ) (src : ℕ → UInt8) : Device := fun key =>
  if (ofLex key).1 = dev then blockAt blockSz (blit (flatOf c dev) off n src) (ofLex key).2 else c key

theorem flatOf_flatWrite (dev off n : ℕ) (src : ℕ → UInt8) (dev' : ℕ) :
    flatOf (flatWrite c dev off n src) dev' =
      if dev' = dev then blit (flatOf c dev) off n src else flatOf c dev' := by
  have hsz : 0 < blockSz := by decide
  refine eq_of_blockAt_eq hsz fun b => ?_
  rw [blockAt_flatOf]
  unfold flatWrite
  split
  next h =>
    have h : dev' = dev := h
    rw [if_pos h]
    rfl
  next h =>
    have h : dev' ≠ dev := h
    rw [if_neg h, blockAt_flatOf]

theorem flatWrite_zero (dev off : ℕ) (src : ℕ → UInt8) : flatWrite c dev off 0 src = c := by
  funext key
  unfold flatWrite
  split
  next h => rw [blit_zero, blockAt_flatOf, ← h]; rfl
  next => rfl

/-- Devices with the same bytes are the same. -/
theorem device_ext {c c' : Device} (h : ∀ dev, flatOf c dev = flatOf c' dev) : c = c' := by
  funext key
  have hblock := blockAt_flatOf c (ofLex key).1 (ofLex key).2
  rw [h, blockAt_flatOf] at hblock
  exact hblock.symm

theorem flatWrite_add (dev off n k : ℕ) (src : ℕ → UInt8) :
    flatWrite (flatWrite c dev off n src) dev (off + n) k (fun i => src (n + i)) =
      flatWrite c dev off (n + k) src := by
  refine device_ext fun dev' => ?_
  simp only [flatOf_flatWrite]
  split
  · rw [if_pos trivial, blit_add]
  · rfl

theorem flatWrite_within (dev b : ℕ) {pos n : ℕ} (h : pos + n ≤ blockSz) (src : ℕ → UInt8) :
    update c (toLex (dev, b)) (blitBlock (c (toLex (dev, b))) pos n src) =
      flatWrite c dev (b * blockSz + pos) n src := by
  funext key
  unfold flatWrite
  split
  next hdev =>
    rw [blockAt_blit_within _ _ h]
    split
    next hb =>
      have hkey : key = toLex (dev, b) := by rw [← hdev, ← hb]; rfl
      rw [hkey, update_self, blockAt_flatOf]
    next hb =>
      rw [blockAt_flatOf, update_of_ne fun hkey => hb (by rw [hkey]; rfl), ← hdev]
      rfl
  next hdev => exact update_of_ne (fun hkey => hdev (by rw [hkey]; rfl)) ..

theorem flatWrite_blocks (w : BlockWrite) :
    w.apply c = flatWrite c w.dev (w.startBlock * blockSz) (w.count * blockSz) w.data := by
  funext key
  unfold flatWrite BlockWrite.apply
  by_cases hdev : (ofLex key).1 = w.dev
  · rw [if_pos hdev, blockAt_blit_blocks]
    have hcovers : w.Covers key ↔ w.startBlock ≤ (ofLex key).2 ∧
        (ofLex key).2 < w.startBlock + w.count := ⟨fun h => h.2, fun h => ⟨hdev, h⟩⟩
    by_cases hin : w.startBlock ≤ (ofLex key).2 ∧ (ofLex key).2 < w.startBlock + w.count
    · rw [if_pos (hcovers.mpr hin), if_pos hin]
      rfl
    · rw [if_neg fun h => hin (hcovers.mp h), if_neg hin, blockAt_flatOf, ← hdev]
      rfl
  · rw [if_neg hdev, if_neg fun h => hdev h.1]

/-! ## Writing -/

section

variable {size dev offset : ℕ} {s : Store}

theorem writePart_spec (hsize : 0 < size) (h : s.Inv) (dev : ℕ) {off n : ℕ}
    (hn : off % blockSz + n ≤ blockSz) (src : ℕ → UInt8) :
    ∃ s', s.writeBytes size (toLex (dev, off / blockSz)) (off % blockSz) n src = some s' ∧ s'.Inv ∧
      s'.content = flatWrite s.content dev off n src := by
  obtain ⟨s', hwrite, hinv, hcontent⟩ :=
    Store.writeBytes_spec hsize h (toLex (dev, off / blockSz)) hn src
  refine ⟨s', hwrite, hinv, ?_⟩
  rw [hcontent, flatWrite_within _ _ _ hn, Nat.div_add_mod']

/-- The three parts of a write are one write of the flat array. -/
theorem writeOffset_spec (hsize : 0 < size) (h : s.Inv) (dev offset : ℕ) (data : Slice UInt8) :
    ∃ s', writeOffset size dev s offset data = some s' ∧ s'.Inv ∧
      s'.content = flatWrite s.content dev offset data.len data.get := by
  unfold writeOffset
  split
  next hlen => exact ⟨s, rfl, h, by rw [hlen, flatWrite_zero]⟩
  next hlen =>
    dsimp only
    generalize hhead : (if offset % blockSz ≠ 0 then min (blockSz - offset % blockSz) data.len else 0) =
      head
    -- The first part ends at the end of its block, or with the data.
    have hfit : offset % blockSz + head ≤ blockSz ∧ head ≤ data.len ∧
        ((offset + head) % blockSz = 0 ∨ head = data.len) := by
      by_cases hzero : offset % blockSz ≠ 0
      · rw [if_pos hzero] at hhead
        simp only [blockSz] at *
        omega
      · rw [if_neg hzero] at hhead
        simp only [blockSz] at *
        omega
    obtain ⟨hblock, hle, halign⟩ := hfit
    obtain ⟨s₁, hfirst, hinv₁, hcontent₁⟩ : ∃ s₁, (if offset % blockSz ≠ 0 then
        s.writeBytes size (toLex (dev, offset / blockSz)) (offset % blockSz) head data.get
        else some s) = some s₁ ∧ s₁.Inv ∧ s₁.content = flatWrite s.content dev offset head data.get := by
      by_cases hzero : offset % blockSz ≠ 0
      · rw [if_pos hzero]
        exact writePart_spec hsize h dev hblock data.get
      · rw [if_neg hzero] at hhead ⊢
        exact ⟨s, rfl, h, by rw [← hhead, flatWrite_zero]⟩
    rw [hfirst, Option.bind_some]
    generalize hcount : (data.len - head) / blockSz = count
    have hmul : count * blockSz ≤ data.len - head := by
      rw [← hcount]
      exact Nat.div_mul_le_self ..
    -- Behind it are whole blocks.
    obtain ⟨s₂, hmid, hinv₂, hcontent₂⟩ : ∃ s₂, (if count * blockSz ≠ 0 then
        s₁.overwriteBlockCacheRange
          ⟨dev, (offset + head) / blockSz, count, fun i => data.get (head + i)⟩ else s₁) = s₂ ∧
        s₂.Inv ∧ s₂.content = flatWrite s.content dev offset (head + count * blockSz) data.get := by
      by_cases hzero : count * blockSz ≠ 0
      · rw [if_pos hzero]
        have halign : (offset + head) % blockSz = 0 := halign.resolve_right (by omega)
        obtain ⟨hinv, hcontent⟩ := Store.overwriteBlockCacheRange_spec hinv₁
          ⟨dev, (offset + head) / blockSz, count, fun i => data.get (head + i)⟩
        rw [flatWrite_blocks, Nat.div_mul_cancel (Nat.dvd_of_mod_eq_zero halign)] at hcontent
        exact ⟨_, rfl, hinv, by rw [hcontent, hcontent₁, flatWrite_add]⟩
      · rw [if_neg hzero]
        rw [Decidable.not_not.mp hzero]
        exact ⟨_, rfl, hinv₁, hcontent₁⟩
    rw [hmid]
    split
    next hrest =>
      have halign' : (offset + (head + count * blockSz)) % blockSz = 0 := by
        rw [← Nat.add_assoc, Nat.add_mul_mod_self_right]
        exact halign.resolve_right (by omega)
      have hlt : data.len - (head + count * blockSz) ≤ blockSz := by
        have hdiv := Nat.div_add_mod (data.len - head) blockSz
        have hmod : (data.len - head) % blockSz < blockSz := Nat.mod_lt _ (by decide)
        rw [hcount, Nat.mul_comm] at hdiv
        omega
      have hpart : (offset + (head + count * blockSz)) % blockSz +
          (data.len - (head + count * blockSz)) ≤ blockSz := by
        omega
      obtain ⟨s₃, hlast, hinv₃, hcontent₃⟩ := writePart_spec hsize hinv₂ dev hpart
        fun i => data.get (head + count * blockSz + i)
      rw [halign'] at hlast
      refine ⟨s₃, hlast, hinv₃, ?_⟩
      rw [hcontent₃, hcontent₂, flatWrite_add, Nat.add_sub_cancel' (by omega)]
    next hrest =>
      refine ⟨s₂, rfl, hinv₂, ?_⟩
      rw [hcontent₂, show head + count * blockSz = data.len by omega]

def flatWrites (dev : ℕ) (c : Device) (writes : List (ℕ × Slice UInt8)) : Device :=
  writes.foldl (fun c w => flatWrite c dev w.1 w.2.len w.2.get) c

/-- The order of the writes is kept when aligned ones are collected. -/
theorem writeOffsetsMany_spec (hsize : 0 < size) (h : s.Inv) (dev : ℕ) (pending : List BlockWrite)
    (writes : List (ℕ × Slice UInt8)) :
    ∃ s', writeOffsetsMany size dev s pending writes = some s' ∧ s'.Inv ∧
      s'.content = flatWrites dev (pending.foldl (fun d w => w.apply d) s.content) writes := by
  -- What is pending is written before the next write that is not aligned.
  have hflush : ∀ {s : Store}, s.Inv → ∀ pending : List BlockWrite,
      Store.Inv (if pending.isEmpty then s else s.overwriteBlockCacheRanges pending) ∧
      Store.content (if pending.isEmpty then s else s.overwriteBlockCacheRanges pending) =
        pending.foldl (fun d w => w.apply d) s.content := by
    intro s h pending
    cases pending with
    | nil => exact ⟨h, rfl⟩
    | cons w pending => exact Store.overwriteBlockCacheRanges_spec h (w :: pending)
  induction writes generalizing s pending with
  | nil => exact ⟨_, rfl, hflush h pending⟩
  | cons write writes ih =>
    obtain ⟨offset, data⟩ := write
    unfold writeOffsetsMany
    split
    next hlen =>
      obtain ⟨s', hs', hinv, hcontent⟩ := ih h pending
      refine ⟨s', hs', hinv, ?_⟩
      rw [hcontent, flatWrites, flatWrites, foldl_cons, hlen, flatWrite_zero]
    next =>
      split
      next halign =>
        obtain ⟨s', hs', hinv, hcontent⟩ :=
          ih h (pending ++ [⟨dev, offset / blockSz, data.len / blockSz, data.get⟩])
        obtain ⟨hoff, hlen⟩ : offset % blockSz = 0 ∧ data.len % blockSz = 0 := by
          simpa [offsetAndLenAreBlockAligned] using halign
        refine ⟨s', hs', hinv, ?_⟩
        rw [hcontent, flatWrites, flatWrites, foldl_cons, foldl_append, foldl_cons,
          foldl_nil, flatWrite_blocks]
        rw [Nat.div_mul_cancel (Nat.dvd_of_mod_eq_zero hoff),
          Nat.div_mul_cancel (Nat.dvd_of_mod_eq_zero hlen)]
      next =>
        obtain ⟨hinv₀, hcontent₀⟩ := hflush h pending
        obtain ⟨s₁, hwrite, hinv₁, hcontent₁⟩ := writeOffset_spec hsize hinv₀ dev offset data
        obtain ⟨s', hs', hinv, hcontent⟩ := ih hinv₁ []
        dsimp only
        refine ⟨s', by rw [hwrite, Option.bind_some, hs'], hinv, ?_⟩
        rw [hcontent, hcontent₁, hcontent₀]
        rfl

/-! ## Reading -/

variable [Ext4]

theorem covering_spec (offset : ℕ) :
    offset / blockSz * blockSz + (offset - offset / blockSz * blockSz) = offset ∧
      offset - offset / blockSz * blockSz + ext4BlockSize ≤
        (covering offset ext4BlockSize).2 * blockSz := by
  simp only [covering, blockSz]
  omega

variable (f : ℕ → UInt8)

/-- The bytes asked for are cut out of the blocks. -/
theorem cutOut_slice (offset : ℕ) :
    cutOut offset (slice f ((covering offset ext4BlockSize).1 * blockSz)
      ((covering offset ext4BlockSize).2 * blockSz)) = slice f offset ext4BlockSize := by
  obtain ⟨hpos, hlen⟩ := covering_spec offset
  have hstart : (covering offset ext4BlockSize).1 = offset / blockSz := rfl
  unfold cutOut
  rw [hstart]
  dsimp only
  split
  next hall =>
    rw [slice_length] at hall
    rw [hall.1, Nat.add_zero] at hpos
    rw [hall.2, hpos]
  next => rw [take_drop_slice hlen, hpos]

theorem readOffset_spec (hsize : 0 < size) (h : s.Inv) (dev offset : ℕ) :
    ∃ s', readOffset size dev s offset = some (s', slice (flatOf s.content dev) offset ext4BlockSize) ∧
      s.Keeps s' := by
  obtain ⟨s', hread, hkeeps⟩ :=
    readBlockCacheRanges_spec dev hsize h [covering offset ext4BlockSize]
  refine ⟨s', ?_, hkeeps⟩
  rw [readOffset, hread, Option.map_some]
  simp only [map_cons, map_nil, flatten_cons, flatten_nil, append_nil, cutOut_slice]

/-- No block of a read at `offset` has a dirty entry. -/
def Store.CleanAt (s : Store) (dev offset : ℕ) : Prop :=
  ∀ i < (covering offset ext4BlockSize).2,
    (s.manager.cached (toLex (dev, (covering offset ext4BlockSize).1 + i))).all (fun p => !p.2) = true

instance (s : Store) (dev offset : ℕ) : Decidable (s.CleanAt dev offset) :=
  inferInstanceAs (Decidable (∀ i < _, _))

/-- There the device has what the blocks hold. -/
theorem Store.CleanAt.slice_eq (hclean : s.CleanAt dev offset) (h : s.Inv) :
    slice (flatOf s.device dev) offset ext4BlockSize = slice (flatOf s.content dev) offset ext4BlockSize := by
  refine slice_congr fun i hi => ?_
  have hblock : (offset + i) / blockSz - offset / blockSz < (covering offset ext4BlockSize).2 ∧
      offset / blockSz + ((offset + i) / blockSz - offset / blockSz) = (offset + i) / blockSz := by
    simp only [covering, blockSz] at hi ⊢
    omega
  have hbit := hclean _ hblock.1
  rw [show (covering offset ext4BlockSize).1 = offset / blockSz from rfl, hblock.2] at hbit
  unfold flatOf
  refine congrFun ?_ _
  cases hcached : s.manager.cached (toLex (dev, (offset + i) / blockSz)) with
  | none => exact (Store.content_of_not_cached hcached).symm
  | some p =>
    obtain ⟨b, dirty⟩ := p
    rw [hcached] at hbit
    have hdirty : dirty = false := by simpa using hbit
    rw [hdirty] at hcached
    rw [Store.content_of_cached hcached]
    exact h.clean _ b hcached

/-! ### Several offsets -/

/-- A run is a stretch of the flat array. -/
theorem takeRun_spec (prev : ℕ) (offsets : List ℕ) :
    slice f (prev + ext4BlockSize) ((takeRun prev offsets).1 * ext4BlockSize) ++
        (takeRun prev offsets).2.flatMap (fun offset => slice f offset ext4BlockSize) =
      offsets.flatMap (fun offset => slice f offset ext4BlockSize) ∧
    (takeRun prev offsets).2 <:+ offsets := by
  induction offsets generalizing prev with
  | nil => exact ⟨by simp [takeRun], suffix_refl _⟩
  | cons offset rest ih =>
    unfold takeRun
    split
    next hnext =>
      obtain ⟨hslice, hsuffix⟩ := ih offset
      refine ⟨?_, hsuffix.trans (suffix_cons _ _)⟩
      rw [flatMap_cons, ← hslice, ← append_assoc, ← slice_add, hnext]
      rw [Nat.add_mul, Nat.one_mul, Nat.add_comm ext4BlockSize]
    next => exact ⟨by simp, suffix_refl _⟩

variable {offsets : List ℕ}

/-- The runs are the offsets, and each starts at one of them. -/
theorem runsOf_spec {fuel : ℕ} (hfuel : offsets.length ≤ fuel) :
    (runsOf fuel offsets).flatMap (fun run => slice f run.1 (run.2 * ext4BlockSize)) =
        offsets.flatMap (fun offset => slice f offset ext4BlockSize) ∧
      ∀ run ∈ runsOf fuel offsets, run.1 ∈ offsets := by
  induction fuel generalizing offsets with
  | zero =>
    rw [length_eq_zero_iff.mp (Nat.le_zero.mp hfuel)]
    exact ⟨rfl, nofun⟩
  | succ fuel ih =>
    cases offsets with
    | nil => exact ⟨rfl, nofun⟩
    | cons offset rest =>
      obtain ⟨hslice, hsuffix⟩ := takeRun_spec f offset rest
      have hlen := hsuffix.length_le
      rw [length_cons] at hfuel
      have hrest : (takeRun offset rest).2.length ≤ fuel := by omega
      obtain ⟨hruns, hstart⟩ := ih hrest
      unfold runsOf
      refine ⟨?_, fun run hrun => ?_⟩
      · rw [flatMap_cons, flatMap_cons, hruns, ← hslice, ← append_assoc, ← slice_add,
          Nat.add_mul, Nat.one_mul, Nat.add_comm ext4BlockSize]
      · rcases mem_cons.mp hrun with rfl | hrun
        · exact .head _
        · exact .tail _ (hsuffix.subset (hstart run hrun))

/-- The request for a run that starts at a block. -/
theorem runRange_slice {run : ℕ × ℕ} (h : run.1 % blockSz = 0) :
    slice f ((runRange run).1 * blockSz) ((runRange run).2 * blockSz) =
      slice f run.1 (run.2 * ext4BlockSize) := by
  have hlen : run.2 * ext4BlockSize / blockSz * blockSz = run.2 * ext4BlockSize := by
    exact Nat.div_mul_cancel (Ext4.blockSz_dvd.trans (Nat.dvd_mul_left ..))
  rw [runRange, Nat.div_mul_cancel (Nat.dvd_of_mod_eq_zero h), hlen]

theorem readOffsets_spec (hsize : 0 < size) (h : s.Inv) (dev : ℕ)
    (halign : ∀ offset ∈ offsets, offset % blockSz = 0) :
    ∃ s', readOffsets size dev s offsets = some (s', offsets.flatMap fun offset =>
        slice (flatOf s.content dev) offset ext4BlockSize) ∧ s.Keeps s' := by
  obtain ⟨hruns, hstart⟩ := runsOf_spec (flatOf s.content dev) (le_refl offsets.length)
  obtain ⟨s', hread, hkeeps⟩ := readBlockCacheRanges_spec dev hsize h
    ((runsOf offsets.length offsets).map runRange)
  refine ⟨s', ?_, hkeeps⟩
  rw [readOffsets, hread, Option.map_some, ← hruns, map_map]
  dsimp only
  congr 2
  refine flatMap_congr fun run hrun => ?_
  exact runRange_slice _ (halign _ (hstart run hrun))

theorem readOffsetsUncached_spec (h : s.Inv) (halign : ∀ offset ∈ offsets, offset % blockSz = 0)
    (hclean : ∀ offset ∈ offsets, s.CleanAt dev offset) : readOffsetsUncached dev s offsets =
      some (offsets.flatMap fun offset => slice (flatOf s.content dev) offset ext4BlockSize) := by
  obtain ⟨hruns, hstart⟩ := runsOf_spec (flatOf s.device dev) (le_refl offsets.length)
  have haligned : ∀ run ∈ runsOf offsets.length offsets, run.1 % blockSz = 0 :=
    fun run hrun => halign _ (hstart run hrun)
  unfold readOffsetsUncached
  rw [if_pos (all_eq_true.mpr fun run hrun => decide_eq_true (haligned run hrun))]
  congr 1
  calc (runsOf offsets.length offsets).flatMap (fun run => readBlocks s.device dev (runRange run))
      = (runsOf offsets.length offsets).flatMap
          (fun run => slice (flatOf s.device dev) run.1 (run.2 * ext4BlockSize)) :=
        flatMap_congr fun run hrun => runRange_slice _ (haligned run hrun)
    _ = offsets.flatMap (fun offset => slice (flatOf s.device dev) offset ext4BlockSize) := hruns
    _ = offsets.flatMap (fun offset => slice (flatOf s.content dev) offset ext4BlockSize) :=
        flatMap_congr fun offset hoffset => (hclean offset hoffset).slice_eq h

end

end CosmOS.BlockIo
