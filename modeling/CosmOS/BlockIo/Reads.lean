import CosmOS.BlockIo.Store

/-!
# BlockIo.Reads — reading ranges of blocks through the cache

`read_block_cache_ranges` serves the cached blocks from the cache, collects runs of blocks that are not
cached, reads all runs from the device and puts their blocks into the cache.

`readBlockCacheRanges_spec`: every buffer holds the bytes of its range, and no block changes.
-/

namespace CosmOS.BlockIo

open BlockCacheManager List

/-- The bytes of a device, one after the other. -/
def flatOf (c : Device) (dev : ℕ) : ℕ → UInt8 :=
  fun x => c (toLex (dev, x / blockSz)) ⟨x % blockSz, Nat.mod_lt _ (by decide)⟩

theorem flatOf_at (c : Device) (dev b : ℕ) {i : ℕ} (hi : i < blockSz) :
    flatOf c dev (b * blockSz + i) = c (toLex (dev, b)) ⟨i, hi⟩ := by
  have hdiv : (b * blockSz + i) / blockSz = b := by
    rw [Nat.add_comm, Nat.add_mul_div_right _ _ (by decide), Nat.div_eq_of_lt hi, Nat.zero_add]
  have hmod : (b * blockSz + i) % blockSz = i := by
    rw [Nat.add_comm, Nat.add_mul_mod_self_right, Nat.mod_eq_of_lt hi]
  simp only [flatOf, hdiv, hmod]

theorem blockAt_flatOf (c : Device) (dev b : ℕ) :
    blockAt blockSz (flatOf c dev) b = c (toLex (dev, b)) :=
  funext fun i => flatOf_at c dev b i.isLt

/-- One range of a read: its buffer, and the runs of blocks that were not cached. -/
structure BlockRead where
  startBlock : ℕ
  count : ℕ
  data : ℕ → UInt8
  misses : List (ℕ × ℕ)

/-- The inner loop: where a run of blocks that are not cached ends. -/
def missEnd (m : BlockCacheManager) (dev startBlock : ℕ) : ℕ → ℕ → ℕ
  | 0, idx => idx
  | n + 1, idx =>
    if (m.map.get? (toLex (dev, startBlock + idx))).isSome then idx
    else missEnd m dev startBlock n (idx + 1)

/-- The outer loop, from block `idx` of the range on. -/
def scanRange (dev : ℕ) : ℕ → ℕ → BlockCacheManager × BlockRead → BlockCacheManager × BlockRead
  | 0, _, acc => acc
  | fuel + 1, idx, (m, r) =>
    if idx < r.count then
      let key : Key := toLex (dev, r.startBlock + idx)
      match m.map.get? key with
      | some e =>
        scanRange dev fuel (idx + 1) (m.edit key .touch,
          { r with data := blit r.data (idx * blockSz) blockSz fun i =>
              if h : i < blockSz then e.cache ⟨i, h⟩ else 0 })
      | none =>
        let stop := missEnd m dev r.startBlock (r.count - (idx + 1)) (idx + 1)
        scanRange dev fuel stop (m, { r with misses := r.misses ++ [(idx, stop)] })
    else (m, r)

def BlockRead.fill (d : Device) (dev : ℕ) (r : BlockRead) : BlockRead :=
  { r with data := r.misses.foldl (fun data run =>
      blit data (run.1 * blockSz) ((run.2 - run.1) * blockSz) fun i =>
        flatOf d dev ((r.startBlock + run.1) * blockSz + i)) r.data }

/-- The blocks of a range that were read from the device, with their bytes. -/
def BlockRead.fetched (dev : ℕ) (r : BlockRead) : List (Key × Block) :=
  r.misses.flatMap fun run =>
    (List.range' run.1 (run.2 - run.1)).map fun idx =>
      (toLex (dev, r.startBlock + idx), blockAt blockSz r.data idx)

def scanRanges (dev : ℕ) : BlockCacheManager → List (ℕ × ℕ) → BlockCacheManager × List BlockRead
  | m, [] => (m, [])
  | m, (startBlock, count) :: ranges =>
    let (m, r) := scanRange dev count 0 (m, ⟨startBlock, count, fun _ => 0, []⟩)
    let (m, rs) := scanRanges dev m ranges
    (m, r :: rs)

/-- `insert_prefetched_block` for all blocks that were read. -/
def insertFetched (size : ℕ) : Store → List (Key × Block) → Option Store
  | s, [] => some s
  | s, (key, data) :: rest => (s.insertPrefetchedBlock size key data).bind fun s => insertFetched size s rest

def readBlockCacheRanges (size dev : ℕ) (s : Store) (ranges : List (ℕ × ℕ)) :
    Option (Store × List (List UInt8)) :=
  let (m, rs) := scanRanges dev s.manager ranges
  let rs := rs.map (BlockRead.fill s.device dev)
  (insertFetched size { s with manager := m } (rs.flatMap (BlockRead.fetched dev))).map fun s =>
    (s, rs.map fun r => slice r.data 0 (r.count * blockSz))

/-! ## Scanning -/

section

variable {dev : ℕ} {m : BlockCacheManager}

theorem missEnd_spec (m : BlockCacheManager) (dev startBlock n idx : ℕ) :
    idx ≤ missEnd m dev startBlock n idx ∧ missEnd m dev startBlock n idx ≤ idx + n ∧
      ∀ j, idx ≤ j → j < missEnd m dev startBlock n idx →
        m.map.get? (toLex (dev, startBlock + j)) = none := by
  induction n generalizing idx with
  | zero => exact ⟨le_rfl, le_rfl, fun j h₁ h₂ => absurd h₂ (not_lt.mpr h₁)⟩
  | succ n ih =>
    unfold missEnd
    split
    next => exact ⟨le_rfl, by omega, fun j h₁ h₂ => absurd h₂ (not_lt.mpr h₁)⟩
    next hnone =>
      obtain ⟨hle, hend, hmiss⟩ := ih (idx + 1)
      refine ⟨by omega, by omega, fun j h₁ h₂ => ?_⟩
      rcases Nat.eq_or_lt_of_le h₁ with rfl | hlt
      · exact Option.not_isSome_iff_eq_none.mp hnone
      · exact hmiss j hlt h₂

structure Scanned (s : Store) (dev idx : ℕ) (m : BlockCacheManager) (r : BlockRead) : Prop where
  wf : m.Wf
  same : ∀ k, m.cached k = s.manager.cached k
  /-- The runs have blocks of the range that are not cached. -/
  runs : ∀ run ∈ r.misses, ∀ j, run.1 ≤ j → j < run.2 →
    j < r.count ∧ s.manager.cached (toLex (dev, r.startBlock + j)) = none
  /-- A block that was passed is in a run, or its bytes are in the buffer. -/
  served : ∀ j < idx, (∃ run ∈ r.misses, run.1 ≤ j ∧ j < run.2) ∨
    ∀ i < blockSz, r.data (j * blockSz + i) = flatOf s.content dev ((r.startBlock + j) * blockSz + i)

variable {s : Store} {r : BlockRead} {idx : ℕ}

theorem Scanned.hit (h : Scanned s dev idx m r) {e : BlockCache}
    (he : m.map.get? (toLex (dev, r.startBlock + idx)) = some e) :
    Scanned s dev (idx + 1) (m.edit (toLex (dev, r.startBlock + idx)) .touch)
      { r with data := blit r.data (idx * blockSz) blockSz fun i =>
          if h : i < blockSz then e.cache ⟨i, h⟩ else 0 } := by
  refine ⟨h.wf.edit _, fun k => ?_, h.runs, fun j hj => ?_⟩
  · rw [← h.same k, cached, get?_edit]
    split
    · rw [Option.map_map]
      rfl
    · rfl
  · rcases Nat.lt_succ_iff_lt_or_eq.mp hj with hj | rfl
    · -- The copy does not reach the blocks before it.
      refine (h.served j hj).imp_right fun hbytes i hi => ?_
      have hle : (j + 1) * blockSz ≤ idx * blockSz := Nat.mul_le_mul_right _ hj
      rw [Nat.add_mul] at hle
      rw [← hbytes i hi]
      dsimp only
      exact blit_of_lt (by omega)
    · refine .inr fun i hi => ?_
      have hcached : s.manager.cached (toLex (dev, r.startBlock + j)) = some e.data := by
        rw [← h.same, cached, he]
        rfl
      rw [flatOf_at _ _ _ hi, Store.content_of_cached hcached]
      dsimp only
      rw [blit_of_mem (by omega) (by omega), Nat.add_sub_cancel_left, dif_pos hi]

theorem Scanned.miss (h : Scanned s dev idx m r) {stop : ℕ} (hstop : stop ≤ r.count)
    (hnone : ∀ j, idx ≤ j → j < stop → m.map.get? (toLex (dev, r.startBlock + j)) = none) :
    Scanned s dev stop m { r with misses := r.misses ++ [(idx, stop)] } := by
  refine ⟨h.wf, h.same, fun run hrun j h₁ h₂ => ?_, fun j hj => ?_⟩
  · rcases mem_append.mp hrun with hrun | hrun
    · exact h.runs run hrun j h₁ h₂
    · rw [mem_singleton.mp hrun] at h₁ h₂
      refine ⟨lt_of_lt_of_le h₂ hstop, ?_⟩
      rw [← h.same, cached, hnone j h₁ h₂]
      rfl
  · by_cases hlt : j < idx
    · refine (h.served j hlt).imp_left ?_
      rintro ⟨run, hrun, hin⟩
      exact ⟨run, mem_append_left _ hrun, hin⟩
    · exact .inl ⟨(idx, stop), mem_append_right _ (mem_singleton_self _), by omega, hj⟩

theorem scanRange_spec {fuel : ℕ} (h : Scanned s dev idx m r) (hfuel : r.count - idx ≤ fuel) :
    ∃ m' r', scanRange dev fuel idx (m, r) = (m', r') ∧ r'.startBlock = r.startBlock ∧
      r'.count = r.count ∧ Scanned s dev r.count m' r' := by
  induction fuel generalizing idx m r with
  | zero => exact ⟨m, r, rfl, rfl, rfl, { h with served := fun j hj => h.served j (by omega) }⟩
  | succ fuel ih =>
    unfold scanRange
    split
    next hidx =>
      dsimp only
      split
      next e he => exact ih (h.hit he) (by dsimp only; omega)
      next hnone =>
        obtain ⟨hle, hend, hmiss⟩ := missEnd_spec m dev r.startBlock (r.count - (idx + 1)) (idx + 1)
        refine ih (h.miss (by omega) fun j h₁ h₂ => ?_) (by dsimp only; omega)
        rcases Nat.eq_or_lt_of_le h₁ with rfl | hlt
        · exact hnone
        · exact hmiss j hlt h₂
    next hidx => exact ⟨m, r, rfl, rfl, rfl, { h with served := fun j hj => h.served j (by omega) }⟩

/-- The buffer of a range has its bytes once the runs are read. -/
theorem Scanned.fill (h : Scanned s dev r.count m r) {x : ℕ} (hx : x < r.count * blockSz) :
    (r.fill s.device dev).data x = flatOf s.content dev (r.startBlock * blockSz + x) := by
  have hsz : 0 < blockSz := by decide
  have hj : x / blockSz < r.count := (Nat.div_lt_iff_lt_mul hsz).mpr hx
  have hmod : x % blockSz < blockSz := Nat.mod_lt _ hsz
  have hx' : x / blockSz * blockSz + x % blockSz = x := Nat.div_add_mod' x blockSz
  refine foldl_blit (g := fun x => flatOf s.content dev (r.startBlock * blockSz + x))
    (fun run hrun i hi => ?_) ?_
  · -- The device has what a block holds that is not cached.
    have hi' : i / blockSz < run.2 - run.1 := (Nat.div_lt_iff_lt_mul hsz).mpr hi
    have hnone := (h.runs run hrun (run.1 + i / blockSz) (Nat.le_add_right _ _)
      (Nat.add_lt_of_lt_sub' hi')).2
    have hpos : (r.startBlock + (run.1 + i / blockSz)) * blockSz + i % blockSz =
        (r.startBlock + run.1) * blockSz + i := by
      rw [← Nat.add_assoc, Nat.add_mul (r.startBlock + run.1), Nat.add_assoc, Nat.div_add_mod']
    have hflat : ∀ c : Device, flatOf c dev ((r.startBlock + run.1) * blockSz + i) =
        c (toLex (dev, r.startBlock + (run.1 + i / blockSz))) ⟨i % blockSz, Nat.mod_lt _ hsz⟩ := by
      intro c
      rw [← hpos, flatOf_at]
    rw [← Nat.add_assoc, ← Nat.add_mul, hflat, hflat, Store.content_of_not_cached hnone]
  · rcases h.served _ hj with ⟨run, hrun, h₁, h₂⟩ | hbytes
    · refine .inl ⟨run, hrun, ?_, ?_⟩
      · exact (Nat.le_div_iff_mul_le hsz).mp h₁
      · rw [← Nat.add_mul]
        refine (Nat.div_lt_iff_lt_mul hsz).mp ?_
        rwa [Nat.add_sub_cancel' (Nat.le_of_lt (Nat.lt_of_le_of_lt h₁ h₂))]
    · refine .inr ?_
      have hb := hbytes _ hmod
      rwa [Nat.add_mul, Nat.add_assoc, hx'] at hb

/-- A block that was read from the device has the bytes that it holds. -/
theorem Scanned.fetched (h : Scanned s dev r.count m r) {p : Key × Block}
    (hp : p ∈ (r.fill s.device dev).fetched dev) : p.2 = s.content p.1 := by
  obtain ⟨run, hrun, hp⟩ := mem_flatMap.mp hp
  obtain ⟨idx, hidx, rfl⟩ := mem_map.mp hp
  have hin := mem_range'_1.mp hidx
  have hlt := (h.runs run hrun idx hin.1 (by omega)).1
  have hle : (idx + 1) * blockSz ≤ r.count * blockSz := Nat.mul_le_mul_right _ hlt
  rw [Nat.add_mul] at hle
  funext i
  have hi := i.isLt
  refine (h.fill (by omega)).trans ?_
  rw [← Nat.add_assoc, ← Nat.add_mul, flatOf_at _ _ _ hi]
  rfl

theorem scanRanges_spec (dev : ℕ) (ranges : List (ℕ × ℕ)) (hwf : m.Wf)
    (hsame : ∀ k, m.cached k = s.manager.cached k) :
    (scanRanges dev m ranges).1.Wf ∧
    (∀ k, (scanRanges dev m ranges).1.cached k = s.manager.cached k) ∧
    (scanRanges dev m ranges).2.map (fun r => (r.startBlock, r.count)) = ranges ∧
    ∀ r ∈ (scanRanges dev m ranges).2, ∃ m', Scanned s dev r.count m' r := by
  induction ranges generalizing m with
  | nil => exact ⟨hwf, hsame, rfl, nofun⟩
  | cons range ranges ih =>
    obtain ⟨startBlock, count⟩ := range
    have hstart : Scanned s dev 0 m ⟨startBlock, count, fun _ => 0, []⟩ := ⟨hwf, hsame, nofun, nofun⟩
    have hfuel : count - 0 ≤ count := Nat.sub_le ..
    obtain ⟨m', r', hscan, hblock, hcount, hr⟩ := scanRange_spec hstart hfuel
    obtain ⟨hwf', hsame', hmap, hall⟩ := ih hr.wf hr.same
    simp only [scanRanges, hscan]
    refine ⟨hwf', hsame', by rw [map_cons, hmap, hblock, hcount], fun r hmem => ?_⟩
    rcases mem_cons.mp hmem with rfl | hmem
    · exact ⟨m', by rw [hcount]; exact hr⟩
    · exact hall r hmem

end

/-! ## Filling the cache -/

theorem insertFetched_spec {size : ℕ} (hsize : 0 < size) {s : Store} (h : s.Inv)
    {l : List (Key × Block)} (hl : ∀ p ∈ l, p.2 = s.content p.1) :
    ∃ s', insertFetched size s l = some s' ∧ s.Keeps s' := by
  induction l generalizing s with
  | nil => exact ⟨s, rfl, h, rfl⟩
  | cons p l ih =>
    obtain ⟨t, hinsert, hkeeps⟩ := Store.insertPrefetchedBlock_spec hsize h (hl p (.head _))
    obtain ⟨s', hrest, hkeeps'⟩ := ih hkeeps.1 fun q hq => by
      rw [hkeeps.2]
      exact hl q (.tail _ hq)
    exact ⟨s', by rw [insertFetched, hinsert, Option.bind_some, hrest], hkeeps.trans hkeeps'⟩

/-- Every buffer holds the bytes of its range, and no block changes. -/
theorem readBlockCacheRanges_spec {size : ℕ} (dev : ℕ) (hsize : 0 < size) {s : Store} (h : s.Inv)
    (ranges : List (ℕ × ℕ)) :
    ∃ s', readBlockCacheRanges size dev s ranges = some (s', ranges.map fun range =>
        slice (flatOf s.content dev) (range.1 * blockSz) (range.2 * blockSz)) ∧ s.Keeps s' := by
  obtain ⟨hwf, hsame, hmap, hall⟩ := scanRanges_spec dev ranges h.wf fun _ => rfl
  -- Scanning only sets reference bits.
  have hkeeps : s.Keeps { s with manager := (scanRanges dev s.manager ranges).1 } := by
    refine ⟨⟨hwf, fun k b hk => h.clean k b (by rwa [hsame] at hk)⟩, funext fun k => ?_⟩
    simp only [Store.content, hsame]
  have hfetched : ∀ p ∈ ((scanRanges dev s.manager ranges).2.map (BlockRead.fill s.device dev)).flatMap
      (BlockRead.fetched dev), p.2 = s.content p.1 := by
    intro p hp
    obtain ⟨r', hr', hp⟩ := mem_flatMap.mp hp
    obtain ⟨r, hr, rfl⟩ := mem_map.mp hr'
    obtain ⟨m', hscanned⟩ := hall r hr
    exact hscanned.fetched hp
  obtain ⟨s', hinsert, hkeeps'⟩ := insertFetched_spec hsize hkeeps.1 fun p hp => by
    rw [hkeeps.2]
    exact hfetched p hp
  refine ⟨s', ?_, hkeeps.trans hkeeps'⟩
  simp only [readBlockCacheRanges, hinsert, Option.map_some, Option.some.injEq, Prod.mk.injEq,
    true_and]
  conv_rhs => rw [← hmap]
  rw [map_map, map_map]
  refine map_congr_left fun r hr => slice_congr fun i hi => ?_
  obtain ⟨m', hscanned⟩ := hall r hr
  rw [Nat.zero_add]
  exact hscanned.fill hi

end CosmOS.BlockIo
