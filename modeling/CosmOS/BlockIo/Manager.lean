import CosmOS.BTreeMap
import CosmOS.BlockArray

/-!
# BlockIo.Manager — cached blocks and the CLOCK hand

The block cache of the file systems: entries by device and block number, a circular queue of their keys
and a hand that looks for a victim.  A hit only sets the reference bit of its entry.

* `evictOneIfNeeded` walks the hand over the queue, at most twice around.  `scan_isSome`: if nothing is
  pinned it finds a victim.
* `Wf`: the queue has the key of every entry once.
* What an entry holds and whether it is dirty is not changed by the hand (`scan_spec`).

An entry that is held by its users (`Arc::strong_count`) is `pinned`.  `size` is `BLOCK_CACHE_SIZE`.  The
counters of the build for measurements are left out.
-/

namespace CosmOS.BlockIo

open List Option

def blockSz : ℕ := 512

abbrev Block := Fin blockSz → UInt8

abbrev Key := ℕ ×ₗ ℕ

abbrev Device := Key → Block

structure BlockCache where
  cache : Block
  modified : Bool
  refBit : Bool

namespace BlockCache

def newFromBytes (data : Block) : BlockCache := ⟨data, false, true⟩

variable (e : BlockCache)

def touch : BlockCache := { e with refBit := true }

/-- `write_bytes`, behind its assertion. -/
def writeBytes (offset n : ℕ) (data : ℕ → UInt8) : BlockCache :=
  ⟨blitBlock e.cache offset n data, true, true⟩

/-- What a user of the entry can see or lose. -/
def data : Block × Bool := (e.cache, e.modified)

def sync (key : Key) (d : Device) : Device :=
  if e.modified then Function.update d key e.cache else d

end BlockCache

structure BlockCacheManager where
  queue : List Key
  clockHand : ℕ
  map : BTreeMap Key BlockCache

namespace BlockCacheManager

def new : BlockCacheManager := ⟨[], 0, .empty⟩

/-- An entry taken out of the map, and its slot in the queue. -/
structure Victim where
  slot : ℕ
  key : Key
  entry : BlockCache

/-- The loop of `evict_one_if_needed`.  Where the source panics the result is `none`. -/
def scan (pinned : Key → Bool) : ℕ → BlockCacheManager → Option (BlockCacheManager × Victim)
  | 0, _ => none
  | n + 1, m =>
    let idx := m.clockHand % m.queue.length
    let m' := { m with clockHand := (idx + 1) % m.queue.length }
    match m.queue[idx]? with
    | none => none
    | some key =>
      match m.map.get? key with
      | none => scan pinned n m'
      | some e =>
        if pinned key then scan pinned n m'
        else if e.refBit then
          -- `take_ref_bit`
          scan pinned n { m' with map := m.map.insert key { e with refBit := false } }
        else some ({ m' with map := m.map.erase key }, ⟨idx, key, e⟩)

/-- `evict_one_if_needed`; the victim is still to be dropped. -/
def evictOneIfNeeded (size : ℕ) (pinned : Key → Bool) (m : BlockCacheManager) :
    Option (BlockCacheManager × Option Victim) :=
  if m.map.entries.length < size then some (m, none)
  else if m.queue.length = 0 then none
  else (scan pinned (max (m.queue.length * 2) 1) m).map fun r => (r.1, some r.2)

def installEntry (m : BlockCacheManager) (key : Key) (e : BlockCache) (reusableSlot : Option ℕ) :
    BlockCacheManager :=
  { m with
    queue := match reusableSlot with
      | some idx => m.queue.set idx key
      | none => m.queue ++ [key]
    map := m.map.insert key e }

def edit (m : BlockCacheManager) (key : Key) (f : BlockCache → BlockCache) : BlockCacheManager :=
  { m with map := m.map.mapValues fun k e => if k = key then f e else e }

def overwriteBlockCacheRange (m : BlockCacheManager) (dev startBlock count : ℕ) (data : ℕ → UInt8) :
    BlockCacheManager :=
  { m with
    map := m.map.mapValues fun k e =>
      let (dev', blockId) := ofLex k
      if dev' = dev ∧ startBlock ≤ blockId ∧ blockId < startBlock + count then
        e.writeBytes 0 blockSz fun i => data ((blockId - startBlock) * blockSz + i)
      else e }

/-! ## Well-formed managers -/

/-- The queue has the key of every entry once. -/
structure Wf (m : BlockCacheManager) : Prop where
  nodup : m.queue.Nodup
  mem_queue : ∀ key, key ∈ m.queue ↔ (m.map.get? key).isSome

def cached (m : BlockCacheManager) (key : Key) : Option (Block × Bool) :=
  (m.map.get? key).map BlockCache.data

variable {m m' : BlockCacheManager} {key : Key}

theorem cached_isSome : (m.cached key).isSome = (m.map.get? key).isSome := isSome_map

theorem wf_new : Wf new := ⟨nodup_nil, fun _ => by simp [new]⟩

/-- A change of the entries that keeps their keys. -/
theorem Wf.of_map (hm : Wf m) (hqueue : m'.queue = m.queue)
    (hmap : ∀ k, (m'.map.get? k).isSome = (m.map.get? k).isSome) : Wf m' :=
  ⟨hqueue ▸ hm.nodup, fun k => by rw [hqueue, hmap]; exact hm.mem_queue k⟩

theorem get?_edit (f : BlockCache → BlockCache) (k : Key) :
    (m.edit key f).map.get? k = if k = key then (m.map.get? k).map f else m.map.get? k := by
  rw [edit, BTreeMap.get?_mapValues]
  split
  next h => simp
  next h => simp

theorem Wf.edit (hm : Wf m) (f : BlockCache → BlockCache) : Wf (m.edit key f) := by
  refine hm.of_map rfl fun k => ?_
  rw [get?_edit]
  split <;> simp

/-! ## The hand -/

variable {pinned : Key → Bool}

/-- What the hand does until it stops: it clears reference bits and takes one entry that nobody holds. -/
theorem scan_spec {n : ℕ} {v : Victim} (h : scan pinned n m = some (m', v)) :
    m'.queue = m.queue ∧ m.queue[v.slot]? = some v.key ∧ pinned v.key = false ∧
      m.cached v.key = some v.entry.data ∧
      ∀ k, m'.cached k = if k = v.key then none else m.cached k := by
  induction n generalizing m with
  | zero => cases h
  | succ n ih =>
    unfold scan at h
    dsimp only at h
    split at h
    next => cases h
    next key hslot =>
      split at h
      next =>
        have hrest := ih h
        exact hrest
      next e he =>
        split at h
        next =>
          have hrest := ih h
          exact hrest
        next hpinned =>
          split at h
          next =>
            -- The reference bit is not part of what is cached.
            have hsame : ∀ k, ((m.map.insert key { e with refBit := false }).get? k).map
                BlockCache.data = m.cached k := by
              intro k
              rw [BTreeMap.get?_insert, cached]
              split
              next hk => rw [hk, he]; rfl
              next => rfl
            obtain ⟨hqueue, hkey, hpin, hv, hrest⟩ := ih h
            refine ⟨hqueue, hkey, hpin, (hsame _).symm.trans hv, fun k => ?_⟩
            rw [hrest k]
            split
            · rfl
            · exact hsame k
          next =>
            cases h
            refine ⟨rfl, hslot, by simpa using hpinned, by rw [cached, he]; rfl, fun k => ?_⟩
            rw [cached, BTreeMap.get?_erase]
            split
            · rfl
            · rfl

/-- The slots whose entry has its reference bit set. -/
def referenced (m : BlockCacheManager) : ℕ :=
  m.queue.countP fun key => (m.map.get? key).any BlockCache.refBit

/-- Counting what one member of the list has lost. -/
theorem countP_lt_countP_of_mem {α : Type*} {l : List α} {p q : α → Bool} {a : α} (ha : a ∈ l)
    (hpq : ∀ x, p x = true → q x = true) (hp : p a = false) (hq : q a = true) :
    l.countP p < l.countP q := by
  obtain ⟨l₁, l₂, rfl⟩ := append_of_mem ha
  have h₁ := countP_mono_left (l := l₁) fun x _ => hpq x
  have h₂ := countP_mono_left (l := l₂) fun x _ => hpq x
  rw [countP_append, countP_append, countP_cons, countP_cons, hp, hq]
  simp only [Bool.false_eq_true, if_false, if_true]
  omega

/-- With more steps than referenced slots the hand finds a victim, if no entry is held. -/
theorem scan_isSome {n : ℕ} (hq : m.queue.length ≠ 0)
    (hres : ∀ key ∈ m.queue, (m.map.get? key).isSome) (hn : m.referenced < n) :
    (scan (fun _ => false) n m).isSome := by
  induction n generalizing m with
  | zero => omega
  | succ n ih =>
    have hidx : m.clockHand % m.queue.length < m.queue.length := Nat.mod_lt _ (by omega)
    unfold scan
    dsimp only
    rw [getElem?_eq_getElem hidx]
    dsimp only
    have hmem : m.queue[m.clockHand % m.queue.length] ∈ m.queue := getElem_mem hidx
    obtain ⟨e, he⟩ := isSome_iff_exists.mp (hres _ hmem)
    rw [he]
    simp only [Bool.false_eq_true, if_false]
    split
    next href =>
      refine ih hq (fun key hkey => ?_) (Nat.lt_of_lt_of_le ?_ (Nat.le_of_lt_succ hn))
      · rw [BTreeMap.get?_insert]
        split
        · rfl
        · exact hres key hkey
      · -- The slot under the hand is not referenced any more, and no other one becomes so.
        refine countP_lt_countP_of_mem hmem (fun key hkey => ?_) ?_ ?_
        · rw [BTreeMap.get?_insert] at hkey
          split at hkey
          next => cases hkey
          next => exact hkey
        · rw [BTreeMap.get?_insert, if_pos rfl]
          rfl
        · rwa [he]
    next => rfl

variable {size : ℕ} {v : Option Victim}

/-- Eviction does not fail when no entry is held. -/
theorem evictOneIfNeeded_isSome (hsize : 0 < size) (hm : Wf m) :
    (evictOneIfNeeded size (fun _ => false) m).isSome := by
  unfold evictOneIfNeeded
  split
  next => rfl
  next hfull =>
    -- A full map is not empty, so the queue has a key.
    have hq : m.queue.length ≠ 0 := by
      intro hzero
      obtain ⟨e, he⟩ := exists_mem_of_length_pos (l := m.map.entries) (by omega)
      have hkey : e.1 ∈ m.queue := by
        rw [hm.mem_queue]
        exact isSome_iff_exists.mpr ⟨e.2, BTreeMap.get?_eq_some_iff.mpr he⟩
      rw [length_eq_zero_iff.mp hzero] at hkey
      cases hkey
    rw [if_neg hq, isSome_map]
    have hle : m.referenced ≤ m.queue.length := countP_le_length
    exact scan_isSome hq (fun key hkey => (hm.mem_queue key).mp hkey) (by omega)

/-- What eviction leaves in the cache: everything but the victim. -/
theorem evictOneIfNeeded_spec (h : evictOneIfNeeded size pinned m = some (m', v)) :
    m'.queue = m.queue ∧ (∀ k, m'.cached k = if ∃ w ∈ v, k = w.key then none else m.cached k) ∧
      ∀ w ∈ v, m.queue[w.slot]? = some w.key ∧ pinned w.key = false ∧
        m.cached w.key = some w.entry.data := by
  unfold evictOneIfNeeded at h
  split at h
  · cases h
    exact ⟨rfl, fun k => by simp, nofun⟩
  split at h
  · cases h
  obtain ⟨⟨m₁, w⟩, hscan, heq⟩ := map_eq_some_iff.mp h
  cases heq
  obtain ⟨hqueue, hslot, hpin, hcached, hrest⟩ := scan_spec hscan
  refine ⟨hqueue, fun k => ?_, fun w' hw' => ?_⟩
  · simpa using hrest k
  · cases hw'
    exact ⟨hslot, hpin, hcached⟩

theorem installEntry_map (e : BlockCache) (slot : Option ℕ) :
    (m.installEntry key e slot).map = m.map.insert key e := rfl

/-- A slot of a queue without repetitions gets a new key. -/
theorem mem_set_iff {l : List Key} (hl : l.Nodup) {i : ℕ} {a b : Key} (hi : l[i]? = some b) (x : Key) :
    x ∈ l.set i a ↔ x = a ∨ (x ∈ l ∧ x ≠ b) := by
  obtain ⟨hlt, rfl⟩ := List.getElem?_eq_some_iff.mp hi
  have hperm := getElem_cons_eraseIdx_perm hlt
  have hnot : l[i] ∉ l.eraseIdx i := (nodup_cons.mp (hperm.nodup_iff.mpr hl)).1
  rw [(set_perm_cons_eraseIdx hlt a).mem_iff, mem_cons, ← hperm.mem_iff, mem_cons]
  constructor
  · rintro (rfl | hx)
    · exact .inl rfl
    · exact .inr ⟨.inr hx, fun h => hnot (h ▸ hx)⟩
  · rintro (rfl | ⟨hx, hne⟩)
    · exact .inl rfl
    · exact .inr (hx.resolve_left hne)

/-- A block that was not cached gets its place. -/
theorem Wf.install (hm : Wf m)
    (h : evictOneIfNeeded size pinned m = some (m', v)) (hkey : m.map.get? key = none)
    (e : BlockCache) : Wf (m'.installEntry key e (v.map Victim.slot)) := by
  obtain ⟨hqueue, hcached, hv⟩ := evictOneIfNeeded_spec h
  have hnot : key ∉ m.queue := by
    rw [hm.mem_queue, hkey]
    exact Bool.false_ne_true
  have hget : ∀ k, ((m'.installEntry key e (v.map Victim.slot)).map.get? k).isSome ↔
      k = key ∨ (k ∈ m.queue ∧ ¬ ∃ w ∈ v, k = w.key) := by
    intro k
    rw [installEntry_map, BTreeMap.get?_insert]
    split
    next hk => simp [hk]
    next hk =>
      rw [← cached_isSome, hcached k, hm.mem_queue, ← cached_isSome]
      split
      next hw =>
        refine ⟨fun h => absurd h Bool.false_ne_true, ?_⟩
        rintro (h | h)
        · exact absurd h hk
        · exact absurd hw h.2
      next hw =>
        refine ⟨fun h => .inr ⟨h, hw⟩, ?_⟩
        rintro (h | h)
        · exact absurd h hk
        · exact h.1
  cases v with
  | none =>
    refine ⟨?_, fun k => ?_⟩
    · simp only [installEntry, hqueue]
      refine nodup_append.mpr ⟨hm.nodup, nodup_singleton key, fun x hx y hy hxy => hnot ?_⟩
      rwa [← mem_singleton.mp hy, ← hxy]
    · rw [hget]
      simp [installEntry, hqueue, or_comm]
  | some w =>
    have hslot := (hv w rfl).1
    refine ⟨?_, fun k => ?_⟩
    · simp only [installEntry, hqueue]
      exact hm.nodup.set hnot
    · rw [hget]
      simp only [installEntry, map_some, hqueue, mem_set_iff hm.nodup hslot]
      simp

end BlockCacheManager

end CosmOS.BlockIo
