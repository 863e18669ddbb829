import CosmOS.BlockIo.Adapter
import CosmOS.Machine

/-!
# BlockIo.Refinement — cache and adapter are a flat array

A user of the adapter and of the cache, one operation after the other, next to flat arrays on which the
same operations are done.

Reads that go past the cache do not see what is dirty in it (`uncached_read_is_stale`), and fail on
offsets inside a block.  In runs in which they are not used so, every operation returns what it has to
return on the flat arrays, and after `block_cache_sync_all` the devices are the flat arrays
(`adapter_refines_flat`).
-/

namespace CosmOS.BlockIo

abbrev Flat := ℕ → ℕ → UInt8

def Flat.write (f : Flat) (dev off n : ℕ) (src : ℕ → UInt8) : Flat :=
  Function.update f dev (blit (f dev) off n src)

inductive Op where
  | readOffset (dev offset : ℕ)
  | readOffsetUncached (dev offset : ℕ)
  | readOffsets (dev : ℕ) (offsets : List ℕ)
  | readOffsetsUncached (dev : ℕ) (offsets : List ℕ)
  | writeOffset (dev offset : ℕ) (data : Slice UInt8)
  | writeOffsetsMany (dev : ℕ) (writes : List (ℕ × Slice UInt8))
  | overwriteBlockCacheRange (w : BlockWrite)
  | overwriteBlockCacheRanges (writes : List BlockWrite)
  | getBlockCache (key : Key)
  | syncAll

section

variable [Ext4]

/-- The operation on the code, with what it returns. -/
def exec (size : ℕ) (s : Store) : Op → Option (Store × List UInt8)
  | .readOffset dev offset => readOffset size dev s offset
  | .readOffsetUncached dev offset => some (s, readOffsetUncached dev s offset)
  | .readOffsets dev offsets => readOffsets size dev s offsets
  | .readOffsetsUncached dev offsets => (readOffsetsUncached dev s offsets).map fun out => (s, out)
  | .writeOffset dev offset data => (writeOffset size dev s offset data).map fun s => (s, [])
  | .writeOffsetsMany dev writes => (writeOffsetsMany size dev s [] writes).map fun s => (s, [])
  | .overwriteBlockCacheRange w => some (s.overwriteBlockCacheRange w, [])
  | .overwriteBlockCacheRanges writes => some (s.overwriteBlockCacheRanges writes, [])
  | .getBlockCache key => (s.getBlockCache size key).map fun s => (s, [])
  | .syncAll => some (s.syncAll, [])

/-- What the operation returns on the flat arrays. -/
def Op.result (f : Flat) : Op → List UInt8
  | .readOffset dev offset => slice (f dev) offset ext4BlockSize
  | .readOffsetUncached dev offset => slice (f dev) offset ext4BlockSize
  | .readOffsets dev offsets => offsets.flatMap fun offset => slice (f dev) offset ext4BlockSize
  | .readOffsetsUncached dev offsets => offsets.flatMap fun offset => slice (f dev) offset ext4BlockSize
  | _ => []

/-- What the operation does to the flat arrays. -/
def Op.effect (f : Flat) : Op → Flat
  | .writeOffset dev offset data => f.write dev offset data.len data.get
  | .writeOffsetsMany dev writes => writes.foldl (fun f w => f.write dev w.1 w.2.len w.2.get) f
  | .overwriteBlockCacheRange w => f.write w.dev (w.startBlock * blockSz) (w.count * blockSz) w.data
  | .overwriteBlockCacheRanges writes => writes.foldl
      (fun f w => f.write w.dev (w.startBlock * blockSz) (w.count * blockSz) w.data) f
  | _ => f

structure System where
  store : Store
  flat : Flat

def machine (size : ℕ) : Machine System Op where
  Init p := ∃ d, p = ⟨.init d, flatOf d⟩
  next p op := (exec size p.store op).map fun r => ⟨r.1, op.effect p.flat⟩

/-- A read past the cache meets no dirty entry, and a read of several offsets starts at blocks. -/
def Careful (p : System) : Op → Prop
  | .readOffsetUncached dev offset => p.store.CleanAt dev offset
  | .readOffsets _ offsets => ∀ offset ∈ offsets, offset % blockSz = 0
  | .readOffsetsUncached dev offsets =>
    ∀ offset ∈ offsets, offset % blockSz = 0 ∧ p.store.CleanAt dev offset
  | _ => True

instance (p : System) : DecidablePred (Careful p)
  | .readOffsetUncached dev offset => inferInstanceAs (Decidable (p.store.CleanAt dev offset))
  | .readOffsets _ offsets => inferInstanceAs (Decidable (∀ offset ∈ offsets, _))
  | .readOffsetsUncached _ offsets => inferInstanceAs (Decidable (∀ offset ∈ offsets, _ ∧ _))
  | .readOffset .. | .writeOffset .. | .writeOffsetsMany .. | .overwriteBlockCacheRange _
  | .overwriteBlockCacheRanges _ | .getBlockCache _ | .syncAll => isTrue trivial

end

/-! ## The simulation -/

/-- The blocks hold the flat arrays. -/
structure Sim (s : Store) (f : Flat) : Prop where
  inv : s.Inv
  flat : flatOf s.content = f

section

variable {s s' : Store} {f : Flat}

theorem Sim.keeps (h : Sim s f) (hk : s.Keeps s') : Sim s' f := ⟨hk.1, by rw [hk.2, h.flat]⟩

theorem flatOf_write (c : Device) (dev off n : ℕ) (src : ℕ → UInt8) :
    flatOf (flatWrite c dev off n src) = Flat.write (flatOf c) dev off n src := by
  funext dev'
  rw [flatOf_flatWrite, Flat.write]
  split
  next h => rw [h, Function.update_self]
  next h => rw [Function.update_of_ne h]

theorem flatOf_writes (c : Device) (dev : ℕ) (writes : List (ℕ × Slice UInt8)) :
    flatOf (flatWrites dev c writes) =
      writes.foldl (fun f w => Flat.write f dev w.1 w.2.len w.2.get) (flatOf c) := by
  induction writes generalizing c with
  | nil => rfl
  | cons w writes ih => rw [List.foldl_cons, ← flatOf_write]; exact ih _

theorem flatOf_blockWrites (c : Device) (writes : List BlockWrite) :
    flatOf (writes.foldl (fun d w => w.apply d) c) = writes.foldl
      (fun f w => Flat.write f w.dev (w.startBlock * blockSz) (w.count * blockSz) w.data) (flatOf c) := by
  induction writes generalizing c with
  | nil => rfl
  | cons w writes ih => rw [List.foldl_cons, List.foldl_cons, ih, flatWrite_blocks, flatOf_write]

end

section

variable [Ext4]

/-- Each operation returns what it has to return, and the blocks hold the flat arrays after it. -/
theorem exec_spec {size : ℕ} (hsize : 0 < size) {s : Store} {f : Flat} (h : Sim s f) {op : Op}
    (hop : Careful ⟨s, f⟩ op) :
    ∃ s', exec size s op = some (s', op.result f) ∧ Sim s' (op.effect f) := by
  obtain ⟨hinv, rfl⟩ := h
  cases op with
  | readOffset dev offset =>
    obtain ⟨s', hread, hkeeps⟩ := readOffset_spec hsize hinv dev offset
    exact ⟨s', hread, Sim.keeps ⟨hinv, rfl⟩ hkeeps⟩
  | readOffsetUncached dev offset =>
    exact ⟨s, by rw [exec, readOffsetUncached, readBlocks, cutOut_slice, hop.slice_eq hinv]; rfl, hinv, rfl⟩
  | readOffsets dev offsets =>
    obtain ⟨s', hread, hkeeps⟩ := readOffsets_spec hsize hinv dev hop
    exact ⟨s', hread, Sim.keeps ⟨hinv, rfl⟩ hkeeps⟩
  | readOffsetsUncached dev offsets =>
    have hread := readOffsetsUncached_spec hinv (fun o ho => (hop o ho).1) fun o ho => (hop o ho).2
    exact ⟨s, by rw [exec, hread]; rfl, hinv, rfl⟩
  | writeOffset dev offset data =>
    obtain ⟨s', hwrite, hinv', hcontent⟩ := writeOffset_spec hsize hinv dev offset data
    exact ⟨s', by rw [exec, hwrite]; rfl, hinv', by rw [hcontent, flatOf_write]; rfl⟩
  | writeOffsetsMany dev writes =>
    obtain ⟨s', hwrite, hinv', hcontent⟩ := writeOffsetsMany_spec hsize hinv dev [] writes
    exact ⟨s', by rw [exec, hwrite]; rfl, hinv', by rw [hcontent, flatOf_writes]; rfl⟩
  | overwriteBlockCacheRange w =>
    obtain ⟨hinv', hcontent⟩ := Store.overwriteBlockCacheRange_spec hinv w
    exact ⟨_, rfl, hinv', by rw [hcontent, flatWrite_blocks, flatOf_write]; rfl⟩
  | overwriteBlockCacheRanges writes =>
    obtain ⟨hinv', hcontent⟩ := Store.overwriteBlockCacheRanges_spec hinv writes
    exact ⟨_, rfl, hinv', by rw [hcontent, flatOf_blockWrites]; rfl⟩
  | getBlockCache key =>
    obtain ⟨s', hget, hkeeps, _⟩ := Store.getBlockCache_spec hsize hinv key
    exact ⟨s', by rw [exec, hget]; rfl, Sim.keeps ⟨hinv, rfl⟩ hkeeps⟩
  | syncAll => exact ⟨_, rfl, Sim.keeps ⟨hinv, rfl⟩ (Store.syncAll_spec hinv).1⟩

theorem sim_of_reach {size : ℕ} (hsize : 0 < size) {p : System} (h : (machine size).Reach Careful p) :
    Sim p.store p.flat := by
  refine h.invariant (P := fun p => Sim p.store p.flat) ?_ ?_
  · rintro p ⟨d, rfl⟩
    exact ⟨Store.inv_init d, rfl⟩
  intro p op p' hsim hop hnext
  obtain ⟨s', hexec, hsim'⟩ := exec_spec hsize hsim hop
  simp only [machine, hexec, Option.map_some, Option.some.injEq] at hnext
  subst hnext
  exact hsim'

/-- In a run in which uncached reads meet no dirty entry and reads of several offsets start at blocks,
every operation returns, with the bytes of the flat arrays; and `block_cache_sync_all` leaves the flat
arrays on the devices. -/
theorem adapter_refines_flat {size : ℕ} (hsize : 0 < size) {p : System}
    (h : (machine size).Reach Careful p) (op : Op) (hop : Careful p op) :
    ∃ s', exec size p.store op = some (s', op.result p.flat) ∧
      (op = .syncAll → flatOf s'.device = op.effect p.flat) := by
  have hsim := sim_of_reach hsize h
  obtain ⟨s', hexec, _⟩ := exec_spec hsize hsim hop
  refine ⟨s', hexec, ?_⟩
  rintro rfl
  cases hexec
  rw [(Store.syncAll_spec hsim.inv).2, hsim.flat]
  rfl

end

def zeroDevice : Device := fun _ _ => 0

def oneByte : Slice UInt8 := ⟨1, fun _ => 7⟩

instance : Ext4 := ⟨4096, by decide⟩

/-- With a cache of one block, a byte is written inside a block, goes to the device when another block is
loaded, and is read past the cache. -/
theorem adapter_refines_flat_evicting : ∃ p, (machine 1).Reach Careful p ∧
    ∃ s', exec 1 p.store (.readOffsetUncached 0 3) = some (s', slice (p.flat 0) 3 ext4BlockSize) := by
  obtain ⟨p, hreach, hclean⟩ := (machine 1).exists_reach_of_runWhile Careful
    (fun p => Careful p (.readOffsetUncached 0 3))
    [.writeOffset 0 3 oneByte, .getBlockCache (toLex (0, 5))] ⟨zeroDevice, rfl⟩ (by decide)
  obtain ⟨s', hexec, _⟩ := adapter_refines_flat (by decide) hreach (.readOffsetUncached 0 3) hclean
  exact ⟨p, hreach, s', hexec⟩

def blockCacheSize : ℕ := 65536

/-- A byte that is dirty in the cache is not seen by a read past it; and such a read fails on an offset
inside a block. -/
theorem uncached_read_is_stale : ∃ p, (machine blockCacheSize).Reachable p ∧
    (∃ out, readOffsetsUncached 0 p.store [0] = some out ∧
      out ≠ Op.result p.flat (.readOffsetsUncached 0 [0])) ∧
    readOffsetsUncached 0 p.store [1] = none := by
  obtain ⟨p, hreach, hhead, hflat, hnone⟩ := (machine blockCacheSize).exists_reachable_of_run
    (fun p => (readOffsetsUncached 0 p.store [0]).bind List.head? = some 0 ∧
      (Op.result p.flat (.readOffsetsUncached 0 [0])).head? = some 7 ∧
      (readOffsetsUncached 0 p.store [1]).isNone = true)
    [.writeOffset 0 0 oneByte] ⟨zeroDevice, rfl⟩ (by decide +kernel)
  obtain ⟨out, hout, hzero⟩ := Option.bind_eq_some_iff.mp hhead
  refine ⟨p, hreach, ⟨out, hout, fun heq => ?_⟩, Option.isNone_iff_eq_none.mp hnone⟩
  rw [heq, hflat] at hzero
  cases hzero

end CosmOS.BlockIo
