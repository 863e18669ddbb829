import CosmOS.BlockIo.Manager

/-!
# BlockIo.Store — the cache over its devices

One user at a time: a manager, the devices below it, and the operations of the cache.

`content` is what a block holds as a user of the cache sees it: the bytes of its entry, or those of the
device if it is not cached.  `Inv`: a clean entry is what the device has.  Every operation keeps `Inv`;
eviction, loading and syncing keep the content, writing changes the blocks it names.
-/

namespace CosmOS.BlockIo

open BlockCacheManager Option Function

structure Store where
  manager : BlockCacheManager
  device : Device

structure BlockWrite where
  dev : ℕ
  startBlock : ℕ
  count : ℕ
  data : ℕ → UInt8

variable (w : BlockWrite)

def BlockWrite.Covers (key : Key) : Prop :=
  (ofLex key).1 = w.dev ∧ w.startBlock ≤ (ofLex key).2 ∧ (ofLex key).2 < w.startBlock + w.count

instance : DecidablePred w.Covers := fun _ => inferInstanceAs (Decidable (_ ∧ _ ∧ _))

def BlockWrite.block (key : Key) : Block :=
  fun i => w.data (((ofLex key).2 - w.startBlock) * blockSz + i)

def BlockWrite.apply (d : Device) : Device :=
  fun key => if w.Covers key then w.block key else d key

namespace Store

/-! ## Operations -/

def init (d : Device) : Store := ⟨.new, d⟩

variable (size : ℕ) (s : Store)

/-- Make room; a victim is dropped, which writes it back if it is dirty. -/
def evict : Option (Store × Option Victim) :=
  (evictOneIfNeeded size (fun _ => false) s.manager).map fun (m, v) =>
    (⟨m, match v with
      | some w => w.entry.sync w.key s.device
      | none => s.device⟩, v)

variable (key : Key)

/-- Put a block into the cache, from the bytes `data` or, if there are none, from the device. -/
def load (data : Option Block) : Option Store :=
  (evict size s).map fun (s', v) =>
    { s' with
      manager := s'.manager.installEntry key (.newFromBytes (data.getD (s'.device key)))
        (v.map Victim.slot) }

def insertPrefetchedBlock (data : Block) : Option Store :=
  match s.manager.map.get? key with
  | some _ => some s
  | none => load size s key (some data)

def getBlockCache : Option Store :=
  match s.manager.map.get? key with
  | some _ => some { s with manager := s.manager.edit key .touch }
  | none => load size s key none

def writeBytes (offset n : ℕ) (data : ℕ → UInt8) : Option Store :=
  (getBlockCache size s key).bind fun s' =>
    if offset + n ≤ blockSz then
      some { s' with manager := s'.manager.edit key fun e => e.writeBytes offset n data }
    else none

def overwriteBlockCacheRange (w : BlockWrite) : Store :=
  if w.count = 0 then s
  else ⟨s.manager.overwriteBlockCacheRange w.dev w.startBlock w.count w.data, w.apply s.device⟩

def overwriteBlockCacheRanges (writes : List BlockWrite) : Store :=
  ⟨writes.foldl (fun m w => m.overwriteBlockCacheRange w.dev w.startBlock w.count w.data) s.manager,
    writes.foldl (fun d w => w.apply d) s.device⟩

def syncAll : Store :=
  ⟨{ s.manager with map := s.manager.map.mapValues fun _ e => { e with modified := false } },
    s.manager.map.entries.foldl (fun d e => e.2.sync e.1 d) s.device⟩

/-! ## Content -/

def content : Device := fun key =>
  match s.manager.cached key with
  | some (b, _) => b
  | none => s.device key

structure Inv (s : Store) : Prop where
  wf : s.manager.Wf
  clean : ∀ key b, s.manager.cached key = some (b, false) → s.device key = b

/-- The invariant holds after the step, and no block has changed. -/
def Keeps (s s' : Store) : Prop := s'.Inv ∧ s'.content = s.content

variable {s s' : Store} {key : Key} {size : ℕ}

theorem content_of_cached {b : Block} {dirty : Bool} (h : s.manager.cached key = some (b, dirty)) :
    s.content key = b := by
  rw [content, h]

theorem content_of_not_cached (h : s.manager.cached key = none) : s.content key = s.device key := by
  rw [content, h]

theorem inv_init (d : Device) : (init d).Inv := ⟨wf_new, nofun⟩

theorem Keeps.trans {s'' : Store} (h : Keeps s s') (h' : Keeps s' s'') : Keeps s s'' :=
  ⟨h'.1, h'.2.trans h.2⟩

variable {e : BlockCache}

theorem sync_of_ne {k : Key} (h : key ≠ k) (d : Device) : e.sync k d key = d key := by
  unfold BlockCache.sync
  split
  · exact update_of_ne h ..
  · rfl

/-- A victim is on the device when it has been dropped. -/
theorem sync_self {d : Device} (h : e.modified = false → d key = e.cache) :
    e.sync key d key = e.cache := by
  unfold BlockCache.sync
  split
  next => exact update_self ..
  next hm => exact h (by simpa using hm)

theorem Inv.clean_entry (h : s.Inv) (he : s.manager.cached key = some e.data)
    (hm : e.modified = false) : s.device key = e.cache :=
  h.clean key e.cache (by rw [he, BlockCache.data, hm])

/-! ## Loading and eviction -/

/-- A victim is written back, so every block holds what it held. -/
theorem evict_spec (hsize : 0 < size) (h : s.Inv) : ∃ s' v, evict size s = some (s', v) ∧
    evictOneIfNeeded size (fun _ => false) s.manager = some (s'.manager, v) ∧
      s'.content = s.content ∧ ∀ k b, s'.manager.cached k = some (b, false) → s'.device k = b := by
  obtain ⟨⟨m, v⟩, hm⟩ := isSome_iff_exists.mp (evictOneIfNeeded_isSome hsize h.wf)
  obtain ⟨_, hcached, hv⟩ := evictOneIfNeeded_spec hm
  refine ⟨_, v, by rw [evict, hm]; rfl, hm, ?_⟩
  cases v with
  | none =>
    have hsame : ∀ k, m.cached k = s.manager.cached k := fun k => by simpa using hcached k
    refine ⟨funext fun k => ?_, fun k b hk => h.clean k b (by rwa [hsame k] at hk)⟩
    simp only [content, hsame]
  | some w =>
    have hw := (hv w rfl).2.2
    have hcached : ∀ k, m.cached k = if k = w.key then none else s.manager.cached k :=
      fun k => by simpa using hcached k
    refine ⟨funext fun k => ?_, fun k b hk => ?_⟩
    · rcases eq_or_ne k w.key with rfl | hne
      · rw [content_of_not_cached (by rw [hcached, if_pos rfl]), content_of_cached hw]
        exact sync_self fun hmod => h.clean_entry hw hmod
      · simp only [content, hcached, if_neg hne]
        rw [sync_of_ne hne]
    · rcases eq_or_ne k w.key with rfl | hne
      · rw [hcached, if_pos rfl] at hk
        cases hk
      · rw [hcached, if_neg hne] at hk
        exact (sync_of_ne hne _).trans (h.clean k b hk)

theorem cached_install {m : BlockCacheManager} (e : BlockCache) (slot : Option ℕ) (k : Key) :
    (m.installEntry key e slot).cached k = if k = key then some e.data else m.cached k := by
  rw [cached, installEntry_map, BTreeMap.get?_insert]
  split
  · rfl
  · rfl

theorem load_spec (hsize : 0 < size) (h : s.Inv) (hkey : s.manager.map.get? key = none)
    (data : Option Block) (hdata : ∀ b ∈ data, b = s.content key) :
    ∃ s', load size s key data = some s' ∧ Keeps s s' ∧ (s'.manager.cached key).isSome := by
  obtain ⟨t, v, hev, hm, hcontent, hclean⟩ := evict_spec hsize h
  have hnone : t.manager.cached key = none := by
    have hold : s.manager.cached key = none := by rw [cached, hkey]; rfl
    rw [(evictOneIfNeeded_spec hm).2.1 key, hold]
    split <;> rfl
  -- Both sources of the bytes have what the block holds.
  have hdev : t.device key = s.content key := by rw [← content_of_not_cached hnone, hcontent]
  have hbytes : data.getD (t.device key) = s.content key := by
    cases data with
    | none => exact hdev
    | some b => exact hdata b rfl
  refine ⟨_, by rw [load, hev]; rfl, ⟨⟨h.wf.install hm hkey _, fun k b hk => ?_⟩, funext fun k => ?_⟩, ?_⟩
  · rw [cached_install] at hk
    split at hk
    next heq =>
      cases hk
      rw [heq]
      exact hdev.trans hbytes.symm
    next => exact hclean k b hk
  · rw [← hcontent]
    rcases eq_or_ne k key with rfl | hne
    · rwa [content_of_cached ((cached_install _ _ k).trans (if_pos rfl)), hcontent]
    · simp only [content, cached_install, if_neg hne]
  · rw [cached_install, if_pos rfl]
    rfl

theorem insertPrefetchedBlock_spec (hsize : 0 < size) (h : s.Inv) {data : Block}
    (hdata : data = s.content key) :
    ∃ s', insertPrefetchedBlock size s key data = some s' ∧ Keeps s s' := by
  unfold insertPrefetchedBlock
  cases hkey : s.manager.map.get? key with
  | some e => exact ⟨s, rfl, h, rfl⟩
  | none =>
    obtain ⟨s', hload, hkeeps, _⟩ := load_spec hsize h hkey (some data)
      fun b hb => by cases hb; exact hdata
    exact ⟨s', hload, hkeeps⟩

theorem keeps_edit (h : s.Inv) {f : BlockCache → BlockCache} (hf : ∀ e, (f e).data = e.data) :
    Keeps s { s with manager := s.manager.edit key f } := by
  have hsame : ∀ k, (s.manager.edit key f).cached k = s.manager.cached k := by
    intro k
    rw [cached, get?_edit]
    split
    · rw [map_map]
      exact congrFun (congrArg Option.map (funext hf)) _
    · rfl
  refine ⟨⟨h.wf.edit f, fun k b hk => h.clean k b (by rwa [hsame k] at hk)⟩, funext fun k => ?_⟩
  simp only [content, hsame]

theorem getBlockCache_spec (hsize : 0 < size) (h : s.Inv) (key : Key) :
    ∃ s', getBlockCache size s key = some s' ∧ Keeps s s' ∧ (s'.manager.cached key).isSome := by
  unfold getBlockCache
  cases hkey : s.manager.map.get? key with
  | none => exact load_spec hsize h hkey none nofun
  | some e =>
    refine ⟨_, rfl, keeps_edit h fun _ => rfl, ?_⟩
    rw [cached_isSome, get?_edit, if_pos rfl, hkey]
    rfl

/-! ## Writing -/

/-- Bytes written through an entry: the block holds them, and the entry is dirty. -/
theorem writeBytes_spec (hsize : 0 < size) (h : s.Inv) (key : Key) {offset n : ℕ}
    (hn : offset + n ≤ blockSz) (data : ℕ → UInt8) :
    ∃ s', writeBytes size s key offset n data = some s' ∧ s'.Inv ∧
      s'.content = update s.content key (blitBlock (s.content key) offset n data) := by
  obtain ⟨t, hget, ⟨hinv, hcontent⟩, hsome⟩ := getBlockCache_spec hsize h key
  obtain ⟨⟨b, dirty⟩, hb⟩ := isSome_iff_exists.mp hsome
  obtain ⟨e, he, heq⟩ := map_eq_some_iff.mp hb
  have hcached : ∀ k, (t.manager.edit key fun e => e.writeBytes offset n data).cached k =
      if k = key then some (blitBlock b offset n data, true) else t.manager.cached k := by
    intro k
    rw [cached, get?_edit]
    split
    next hk =>
      rw [hk, he]
      cases heq
      rfl
    next => rfl
  refine ⟨_, by rw [writeBytes, hget, bind_some, if_pos hn], ⟨hinv.wf.edit _, ?_⟩,
    funext fun k => ?_⟩
  · intro k b' hk
    rw [hcached] at hk
    split at hk
    · cases hk
    · exact hinv.clean k b' hk
  · rcases eq_or_ne k key with rfl | hne
    · rw [content_of_cached ((hcached k).trans (if_pos rfl)), update_self, ← hcontent,
        content_of_cached hb]
    · rw [update_of_ne hne, ← hcontent]
      simp only [content, hcached, if_neg hne]

theorem cached_overwrite (m : BlockCacheManager) (w : BlockWrite) (key : Key) :
    (m.overwriteBlockCacheRange w.dev w.startBlock w.count w.data).cached key =
      if w.Covers key then (m.cached key).map fun _ => (w.block key, true) else m.cached key := by
  rw [cached, BlockCacheManager.overwriteBlockCacheRange, BTreeMap.get?_mapValues, map_map]
  by_cases hw : w.Covers key
  · rw [if_pos hw, cached, map_map]
    refine congrFun (congrArg Option.map (funext fun e => ?_)) _
    have hw : (ofLex key).1 = w.dev ∧ w.startBlock ≤ (ofLex key).2 ∧
      (ofLex key).2 < w.startBlock + w.count := hw
    simp only [Function.comp, hw, BlockCache.writeBytes]
    rw [blitBlock_all]
    rfl
  · rw [if_neg hw]
    refine congrFun (congrArg Option.map (funext fun e => ?_)) _
    have hw : ¬ ((ofLex key).1 = w.dev ∧ w.startBlock ≤ (ofLex key).2 ∧
      (ofLex key).2 < w.startBlock + w.count) := hw
    simp only [Function.comp, hw, if_false]

/-- The cached blocks of one range are overwritten, then the device. -/
theorem overwrite_one (h : s.Inv) (w : BlockWrite) :
    Inv ⟨s.manager.overwriteBlockCacheRange w.dev w.startBlock w.count w.data, w.apply s.device⟩ ∧
      content ⟨s.manager.overwriteBlockCacheRange w.dev w.startBlock w.count w.data, w.apply s.device⟩ =
        w.apply s.content := by
  refine ⟨⟨h.wf.of_map rfl fun k => ?_, fun k b hk => ?_⟩, funext fun k => ?_⟩
  · rw [BlockCacheManager.overwriteBlockCacheRange, BTreeMap.get?_mapValues, Option.isSome_map]
  · -- An entry that is still clean is not covered.
    rw [cached_overwrite] at hk
    split at hk
    · obtain ⟨_, _, heq⟩ := map_eq_some_iff.mp hk
      cases heq
    next hw => exact (if_neg hw).trans (h.clean k b hk)
  · simp only [content, cached_overwrite, BlockWrite.apply]
    by_cases hw : w.Covers k
    · simp only [if_pos hw]
      cases s.manager.cached k with
      | none | some _ => rfl
    · simp only [if_neg hw]

theorem overwriteBlockCacheRanges_spec (h : s.Inv) (writes : List BlockWrite) :
    (overwriteBlockCacheRanges s writes).Inv ∧
      (overwriteBlockCacheRanges s writes).content = writes.foldl (fun d w => w.apply d) s.content := by
  induction writes generalizing s with
  | nil => exact ⟨h, rfl⟩
  | cons w writes ih =>
    -- The cache and the device are written in the same order, so the rest starts from both.
    obtain ⟨hinv, hcontent⟩ := overwrite_one h w
    obtain ⟨hinv', hcontent'⟩ := ih hinv
    exact ⟨hinv', by rw [List.foldl_cons, ← hcontent]; exact hcontent'⟩

theorem overwriteBlockCacheRange_spec (h : s.Inv) (w : BlockWrite) :
    (overwriteBlockCacheRange s w).Inv ∧
      (overwriteBlockCacheRange s w).content = w.apply s.content := by
  unfold overwriteBlockCacheRange
  split
  next hcount =>
    refine ⟨h, funext fun k => (if_neg fun hw => ?_).symm⟩
    have hlt := hw.2.2
    have hle := hw.2.1
    omega
  next => exact overwrite_one h w

/-! ## Syncing -/

/-- Syncing a list of entries with different keys puts each of them on the device. -/
theorem foldl_sync {l : List (Key × BlockCache)} (hl : l.Pairwise fun a b => a.1 < b.1) (d : Device)
    (hclean : ∀ p ∈ l, p.2.modified = false → d p.1 = p.2.cache) (k : Key) :
    (∀ p ∈ l, p.1 = k → l.foldl (fun d e => e.2.sync e.1 d) d k = p.2.cache) ∧
      ((∀ p ∈ l, p.1 ≠ k) → l.foldl (fun d e => e.2.sync e.1 d) d k = d k) := by
  induction l generalizing d with
  | nil => exact ⟨nofun, fun _ => rfl⟩
  | cons a l ih =>
    obtain ⟨hhead, htail⟩ := List.pairwise_cons.mp hl
    have hne : ∀ p ∈ l, p.1 ≠ a.1 := fun p hp => (hhead p hp).ne'
    obtain ⟨hmem, hnot⟩ := ih htail (a.2.sync a.1 d) fun p hp hm => by
      rw [sync_of_ne (hne p hp)]
      exact hclean p (.tail _ hp) hm
    refine ⟨fun p hp hk => ?_, fun hall => ?_⟩
    · rcases List.mem_cons.mp hp with rfl | hp
      · -- The entries behind it have other keys.
        rw [List.foldl_cons, hnot fun q hq => hk ▸ hne q hq, ← hk]
        exact sync_self fun hm => hclean p (.head _) hm
      · exact hmem p hp hk
    · rw [List.foldl_cons, hnot fun p hp => hall p (.tail _ hp)]
      exact sync_of_ne (hall a (.head _)).symm d

theorem syncAll_spec (h : s.Inv) : Keeps s s.syncAll ∧ s.syncAll.device = s.content := by
  have hcached : ∀ k, s.syncAll.manager.cached k = (s.manager.cached k).map fun p => (p.1, false) := by
    intro k
    rw [cached, syncAll, BTreeMap.get?_mapValues, cached, map_map, map_map]
    rfl
  have hdevice : ∀ k, s.syncAll.device k = s.content k := by
    intro k
    have hfold := foldl_sync s.manager.map.sorted s.device (fun p hp hm =>
      h.clean_entry (by rw [cached, BTreeMap.get?_eq_some_iff.mpr hp]; rfl) hm) k
    cases hk : s.manager.map.get? k with
    | some e =>
      have hcached : s.manager.cached k = some (e.cache, e.modified) := by rw [cached, hk]; rfl
      rw [content_of_cached hcached]
      exact hfold.1 (k, e) (BTreeMap.get?_eq_some_iff.mp hk) rfl
    | none =>
      rw [content_of_not_cached (by rw [cached, hk]; rfl)]
      refine hfold.2 fun p hp heq => ?_
      exact BTreeMap.get?_eq_none_iff.mp hk p.2 (heq ▸ hp)
  have hcontent : s.syncAll.content = s.content := by
    funext k
    rw [content, hcached, hdevice]
    cases hk : s.manager.cached k with
    | none => rfl
    | some p => exact (content_of_cached hk).symm
  refine ⟨⟨⟨?_, fun k b hk => ?_⟩, hcontent⟩, funext hdevice⟩
  · refine h.wf.of_map rfl fun k => ?_
    rw [syncAll, BTreeMap.get?_mapValues, isSome_map]
  · rw [hdevice, ← hcontent]
    exact content_of_cached hk

end Store

end CosmOS.BlockIo
