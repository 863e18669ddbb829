import CosmOS.BlockIo.Direct

/-!
# BlockIo.Coherence — clean copies, and what readers see

A miss may load a block between the section of an overwrite and its device write.  The old bytes are then
cached as a clean copy (`miss_during_overwrite`).  In runs in which a block is not loaded, written or
overwritten while a device write of it is outstanding, readers get the data of the last write and clean
copies are those of the device (`direct_writes_coherent`).
-/

namespace CosmOS.BlockIo.Direct

open BlockCacheManager Function List

/-! ## Invariant -/

/-- The device when all outstanding writes are done. -/
def State.settled (s : State) : Device := applyAll (s.requests.map Prod.snd) s.device

structure Inv (s : State) : Prop where
  /-- A cached block has the data of the last write. -/
  entry : ∀ key b dirty, s.manager.cached key = some (b, dirty) → b = s.last key
  clean : ∀ key b, s.manager.cached key = some (b, false) → s.device key = b
  /-- While a device write is outstanding the cached block is dirty, -/
  dirty : ∀ key b dirty, s.manager.cached key = some (b, dirty) → ¬ s.Quiet key → dirty = true
  /-- and the device writes end with the last data. -/
  settled : ∀ key, ¬ s.Quiet key → s.settled key = s.last key
  absent : ∀ key, s.manager.cached key = none → s.Quiet key →
    (∀ t k v, s.pc t = .evicting k v → v.key ≠ key) → s.device key = s.last key
  evicting : ∀ t k v, s.pc t = .evicting k v → s.lock = some t ∧ v.entry.cache = s.last v.key ∧
    s.manager.cached v.key = none ∧ s.manager.cached k = none
  loading : ∀ t k slot, s.pc t = .loading k slot → s.lock = some t ∧ s.manager.cached k = none
  holding : ∀ t k, s.pc t = .holding k → t ∈ s.holders k
  held : ∀ k, s.holders k ≠ [] → (s.manager.cached k).isSome
  /-- Different overwrites have no outstanding block in common. -/
  disjoint : ∀ r ∈ s.requests, ∀ r' ∈ s.requests, r.1 ≠ r'.1 → ∀ key, r.2.Covers key →
    ¬ r'.2.Covers key

section

variable {s s' : State} {size : ℕ} {t u : ThreadId} {key k : Key} {m : BlockCacheManager} {slot : Option ℕ}

theorem exists_covers_of_not_quiet (h : ¬ s.Quiet key) :
    ∃ w ∈ s.requests.map Prod.snd, w.Covers key := by
  simp only [State.Quiet, not_forall, not_not] at h
  obtain ⟨r, hr, hw⟩ := h
  exact ⟨r.2, mem_map_of_mem hr, hw⟩

/-- A position that is not the new one of `t` is that of another thread. -/
theorem pc_of_update {p p' : Pc} (hu : update s.pc t p' u = p) (hp : p ≠ p') :
    u ≠ t ∧ s.pc u = p := by
  rcases eq_or_ne u t with rfl | hne
  · rw [update_self] at hu
    exact absurd hu.symm hp
  · rw [update_of_ne hne] at hu
    exact ⟨hne, hu⟩

theorem mem_holders (hold : ∀ u k, s.pc u = .holding k → u ∈ s.holders k) (u : ThreadId) (k : Key)
    (hu : update s.pc t (.holding key) u = .holding k) :
    u ∈ update s.holders key (t :: s.holders key) k := by
  rcases eq_or_ne u t with rfl | hne
  · rw [update_self] at hu
    cases hu
    rw [update_self]
    exact .head _
  · rw [update_of_ne hne] at hu
    rcases eq_or_ne k key with rfl | hk
    · rw [update_self]
      exact .tail _ (hold u k hu)
    · rw [update_of_ne hk]
      exact hold u k hu

section

variable (hinv : Inv s) (hlock : s.lock = none)

include hinv hlock

/-- While the manager is free no miss is under way. -/
theorem Inv.not_evicting (t : ThreadId) (k : Key) (v : Victim) : s.pc t ≠ .evicting k v := by
  intro h
  rw [(hinv.evicting t k v h).1] at hlock
  cases hlock

theorem Inv.not_loading (t : ThreadId) (k : Key) (slot : Option ℕ) : s.pc t ≠ .loading k slot := by
  intro h
  rw [(hinv.loading t k slot h).1] at hlock
  cases hlock

/-- A miss has made room, and goes on at `pc`. -/
theorem room_inv (hkey : s.manager.cached key = none) {v : Option Victim}
    (hm : evictOneIfNeeded size (fun k => !(s.holders k).isEmpty) s.manager = some (m, v)) {pc : Pc}
    (hpc : (∃ slot, pc = .loading key slot ∧ ∀ w ∈ v, w.entry.modified = false) ∨
      ∃ w ∈ v, pc = .evicting key w) :
    Inv { s with manager := m, lock := some t, pc := update s.pc t pc } := by
  obtain ⟨_, hcached, hv⟩ := evictOneIfNeeded_spec hm
  have hsub : ∀ k p, m.cached k = some p → s.manager.cached k = some p := by
    intro k p hk
    rw [hcached] at hk
    split at hk
    · cases hk
    · exact hk
  have hnone : ∀ k, s.manager.cached k = none → m.cached k = none := by
    intro k hk
    rw [hcached, hk]
    split <;> rfl
  constructor
  · exact fun k b d hk => hinv.entry k b d (hsub k _ hk)
  · exact fun k b hk => hinv.clean k b (hsub k _ hk)
  · exact fun k b d hk => hinv.dirty k b d (hsub k _ hk)
  · exact hinv.settled
  · intro k hk hquiet hev
    cases hold : s.manager.cached k with
    | none => exact hinv.absent k hold hquiet fun u k' w hu => absurd hu (hinv.not_evicting hlock u k' w)
    | some p =>
      -- The block was the victim; it was clean, or its write back is under way.
      have hvictim : ∃ w ∈ v, k = w.key := by
        by_contra hnot
        rw [hcached, if_neg hnot, hold] at hk
        cases hk
      obtain ⟨w, hw, rfl⟩ := hvictim
      have hdata := (hv w hw).2.2
      rcases hpc with ⟨slot, _, hclean⟩ | ⟨w', hw', rfl⟩
      · have hmod := hclean w hw
        rw [BlockCache.data, hmod] at hdata
        rw [← hinv.entry _ _ _ hdata]
        exact hinv.clean _ _ hdata
      · cases hw.symm.trans hw'
        exact absurd rfl (hev t key w (update_self ..))
  · intro u k w hu
    dsimp only at hu
    rcases eq_or_ne u t with rfl | hne
    · rw [update_self] at hu
      rcases hpc with ⟨slot, rfl, _⟩ | ⟨w', hw', rfl⟩
      · cases hu
      · cases hu
        have hdata := (hv w hw').2.2
        refine ⟨rfl, hinv.entry _ _ _ hdata, ?_, hnone _ hkey⟩
        exact (hcached w.key).trans (if_pos ⟨w, hw', rfl⟩)
    · rw [update_of_ne hne] at hu
      exact absurd hu (hinv.not_evicting hlock u k w)
  · intro u k slot hu
    dsimp only at hu
    rcases eq_or_ne u t with rfl | hne
    · rw [update_self] at hu
      rcases hpc with ⟨slot', rfl, _⟩ | ⟨w', hw', rfl⟩
      · cases hu
        exact ⟨rfl, hnone _ hkey⟩
      · cases hu
    · rw [update_of_ne hne] at hu
      exact absurd hu (hinv.not_loading hlock u k slot)
  · intro u k hu
    refine hinv.holding u k (pc_of_update hu ?_).2
    rcases hpc with ⟨slot, rfl, _⟩ | ⟨w, _, rfl⟩ <;> rintro ⟨⟩
  · intro k hk
    refine (hcached k) ▸ ?_
    rw [if_neg]
    · exact hinv.held k hk
    -- A victim has no users.
    rintro ⟨w, hw, rfl⟩
    have hfree := (hv w hw).2.1
    rw [Bool.not_eq_false', List.isEmpty_iff] at hfree
    exact hk hfree
  · exact hinv.disjoint

theorem miss_inv (hkey : s.manager.cached key = none)
    (h : miss size s t key = some s') : Inv s' := by
  unfold miss at h
  split at h
  next => cases h
  next m hm =>
    cases h
    exact room_inv hinv hlock hkey hm (.inl ⟨none, rfl, nofun⟩)
  next m v hm =>
    cases h
    refine room_inv hinv hlock hkey hm ?_
    cases hmod : v.entry.modified with
    | true => exact .inr ⟨v, rfl, rfl⟩
    | false => exact .inl ⟨some v.slot, rfl, fun w hw => by cases hw; exact hmod⟩

end

/-- Only one miss is under way. -/
theorem Inv.evicting_unique (hinv : Inv s) (hlock : s.lock = some t) {v : Victim}
    (h : s.pc u = .evicting k v) : u = t := by
  have hu := (hinv.evicting u k v h).1
  rw [hlock] at hu
  exact (Option.some.inj hu).symm

theorem Inv.same (hinv : Inv s) (hm : ∀ k, m.cached k = s.manager.cached k) :
    Inv { s with manager := m } := by
  constructor
  · exact fun k b d hk => hinv.entry k b d (by rw [← hm]; exact hk)
  · exact fun k b hk => hinv.clean k b (by rw [← hm]; exact hk)
  · exact fun k b d hk => hinv.dirty k b d (by rw [← hm]; exact hk)
  · exact hinv.settled
  · exact fun k hk => hinv.absent k (by rw [← hm]; exact hk)
  · intro t k v hpc
    obtain ⟨hlock, hlast, hv, hk⟩ := hinv.evicting t k v hpc
    exact ⟨hlock, hlast, (hm _).trans hv, (hm _).trans hk⟩
  · intro t k slot hpc
    obtain ⟨hlock, hk⟩ := hinv.loading t k slot hpc
    exact ⟨hlock, (hm _).trans hk⟩
  · exact hinv.holding
  · intro k hk
    exact (congrArg Option.isSome (hm k)).trans (hinv.held k hk)
  · exact hinv.disjoint

theorem cached_touch (m : BlockCacheManager) (key k : Key) :
    (m.edit key .touch).cached k = m.cached k := by
  rw [cached, get?_edit]
  split
  · rw [Option.map_map]
    rfl
  · rfl

section

variable (hinv : Inv s)
include hinv

/-- A thread that neither evicts nor loads moves, and the holders of one entry change with it. -/
theorem Inv.setHolders {pc : Pc} {l : List ThreadId}
    (hpc : s.pc t = .idle ∨ s.pc t = .holding key) (hnew : pc = .idle ∨ pc = .holding key)
    (hholding : ∀ u k, update s.pc t pc u = .holding k → u ∈ update s.holders key l k)
    (hheld : l ≠ [] → (s.manager.cached key).isSome) :
    Inv { s with pc := update s.pc t pc, holders := update s.holders key l } := by
  refine { hinv with absent := ?_, evicting := ?_, loading := ?_, holding := hholding, held := ?_ }
  · intro k hk hquiet hev
    refine hinv.absent k hk hquiet fun u k' v hu => hev u k' v ?_
    have hne : u ≠ t := by rintro rfl; simp [hu] at hpc
    exact (update_of_ne hne ..).trans hu
  · intro u k v hu
    exact hinv.evicting u k v (pc_of_update hu (by rcases hnew with rfl | rfl <;> nofun)).2
  · intro u k slot hu
    exact hinv.loading u k slot (pc_of_update hu (by rcases hnew with rfl | rfl <;> nofun)).2
  · intro k hk
    dsimp only at hk ⊢
    rcases eq_or_ne k key with rfl | hne
    · rw [update_self] at hk
      exact hheld hk
    · rw [update_of_ne hne] at hk
      exact hinv.held k hk

/-- A thread takes an entry of the cache. -/
theorem Inv.hold (hpc : s.pc t = .idle) (hkey : (s.manager.cached key).isSome) : Inv { s with
      pc := update s.pc t (.holding key)
      holders := update s.holders key (t :: s.holders key) } :=
  hinv.setHolders (.inl hpc) (.inr rfl) (mem_holders hinv.holding) fun _ => hkey

/-- A thread drops its entry, which may be evicted then. -/
theorem Inv.release (hpc : s.pc t = .holding key) :
    Inv { s with
      pc := update s.pc t .idle
      holders := update s.holders key ((s.holders key).erase t) } := by
  refine hinv.setHolders (.inr hpc) (.inl rfl) ?_ fun hne => hinv.held key fun hnil => hne ?_
  · intro u k hu
    obtain ⟨hne, hu⟩ := pc_of_update hu nofun
    have hmem := hinv.holding u k hu
    rcases eq_or_ne k key with rfl | hk
    · rw [update_self]
      exact (mem_erase_of_ne hne).mpr hmem
    · rwa [update_of_ne hk]
  · rw [hnil]
    rfl

/-- The victim of an eviction reaches the device. -/
theorem Inv.writeBack {v : Victim} (hpc : s.pc t = .evicting key v) : Inv { s with
      device := update s.device v.key v.entry.cache
      pc := update s.pc t (.loading key (some v.slot)) } := by
  obtain ⟨hlock, hlast, hv, hkey⟩ := hinv.evicting t key v hpc
  refine { hinv with clean := ?_, settled := ?_, absent := ?_, evicting := ?_, loading := ?_, holding := ?_ }
  · intro k b hk
    have hne : k ≠ v.key := fun h => by rw [h, hv] at hk; cases hk
    exact (update_of_ne hne ..).trans (hinv.clean k b hk)
  · -- What a device write covers does not depend on what was there.
    intro k hk
    exact (applyAll_of_covers (exists_covers_of_not_quiet hk)).trans (hinv.settled k hk)
  · intro k hk hquiet _
    dsimp only
    rcases eq_or_ne k v.key with rfl | hne
    · rw [update_self, hlast]
    rw [update_of_ne hne]
    refine hinv.absent k hk hquiet fun u k' w hu => ?_
    have hut := hinv.evicting_unique hlock hu
    rw [hut, hpc] at hu
    cases hu
    exact hne.symm
  · intro u k w hu
    obtain ⟨hne, hu⟩ := pc_of_update hu nofun
    exact absurd (hinv.evicting_unique hlock hu) hne
  · intro u k slot hu
    rcases eq_or_ne u t with rfl | hne
    · have hu : update s.pc u (.loading key (some v.slot)) u = .loading k slot := hu
      rw [update_self] at hu
      cases hu
      exact ⟨hlock, hkey⟩
    · exact hinv.loading u k slot ((update_of_ne hne ..).symm.trans hu)
  · exact fun u k hu => hinv.holding u k (pc_of_update hu nofun).2

/-- A block is loaded while no device write of it is outstanding. -/
theorem Inv.load (hpc : s.pc t = .loading key slot)
    (hquiet : s.Quiet key) :
    Inv { s with
      manager := s.manager.installEntry key (.newFromBytes (s.device key)) slot
      lock := none
      pc := update s.pc t (.holding key)
      holders := update s.holders key (t :: s.holders key) } := by
  obtain ⟨hlock, hkey⟩ := hinv.loading t key slot hpc
  have hnoev : ∀ u k v, s.pc u ≠ .evicting k v := by
    intro u k v hu
    rw [hinv.evicting_unique hlock hu, hpc] at hu
    cases hu
  have hdev : s.device key = s.last key :=
    hinv.absent key hkey hquiet fun u k v hu => absurd hu (hnoev u k v)
  have hcached : ∀ k, (s.manager.installEntry key (.newFromBytes (s.device key)) slot).cached k =
      if k = key then some (s.device key, false) else s.manager.cached k :=
    fun k => Store.cached_install _ _ k
  have hold : ∀ k p, k ≠ key →
      (s.manager.installEntry key (.newFromBytes (s.device key)) slot).cached k = p →
      s.manager.cached k = p := fun k p hne hk => by rwa [hcached, if_neg hne] at hk
  have hnew : ∀ p, (s.manager.installEntry key (.newFromBytes (s.device key)) slot).cached key = p →
      p = some (s.device key, false) := fun p hk => by rw [← hk, hcached, if_pos rfl]
  constructor
  · intro k b d hk
    rcases eq_or_ne k key with rfl | hne
    · cases hnew _ hk
      exact hdev
    · exact hinv.entry k b d (hold k _ hne hk)
  · intro k b hk
    rcases eq_or_ne k key with rfl | hne
    · cases hnew _ hk
      rfl
    · exact hinv.clean k b (hold k _ hne hk)
  · intro k b d hk hcov
    rcases eq_or_ne k key with rfl | hne
    · exact absurd hquiet hcov
    · exact hinv.dirty k b d (hold k _ hne hk) hcov
  · exact hinv.settled
  · intro k hk hq _
    rcases eq_or_ne k key with rfl | hne
    · cases hnew _ hk
    · exact hinv.absent k (hold k _ hne hk) hq fun u k' v hu => absurd hu (hnoev u k' v)
  · exact fun u k v hu => absurd (pc_of_update hu nofun).2 (hnoev u k v)
  · intro u k sl hu
    obtain ⟨hne, hu⟩ := pc_of_update hu nofun
    exact absurd (Option.some.inj ((hinv.loading u k sl hu).1.symm.trans hlock)) hne
  · exact mem_holders hinv.holding
  · intro k hk
    dsimp only at hk ⊢
    rw [hcached]
    split
    · rfl
    next hne =>
      rw [update_of_ne hne] at hk
      exact hinv.held k hk
  · exact hinv.disjoint

/-- Bytes are written through an entry while no device write of the block is outstanding. -/
theorem Inv.write (hpc : s.pc t = .holding key) (hquiet : s.Quiet key) (offset n : ℕ)
    (data : ℕ → UInt8) : Inv { s with
      manager := s.manager.edit key fun e => e.writeBytes offset n data
      last := update s.last key (blitBlock (s.last key) offset n data) } := by
  have hsome := hinv.held key (ne_nil_of_mem (hinv.holding t key hpc))
  have hne_of_none : ∀ k, s.manager.cached k = none → k ≠ key := by
    rintro k hk rfl
    rw [hk] at hsome
    cases hsome
  have hcached : ∀ k, (s.manager.edit key fun e => e.writeBytes offset n data).cached k =
      if k = key then (s.manager.cached k).map fun p => (blitBlock p.1 offset n data, true)
      else s.manager.cached k := by
    intro k
    rw [cached, cached, get?_edit]
    split
    · rw [Option.map_map, Option.map_map]
      rfl
    · rfl
  have hnew : ∀ k b d, (s.manager.edit key fun e => e.writeBytes offset n data).cached k = some (b, d) →
      (k = key ∧ b = blitBlock (s.last key) offset n data ∧ d = true) ∨
        (k ≠ key ∧ s.manager.cached k = some (b, d)) := by
    intro k b d hk
    rw [hcached] at hk
    split at hk
    next heq =>
      obtain ⟨⟨b', d'⟩, hp, heq'⟩ := Option.map_eq_some_iff.mp hk
      cases heq'
      refine .inl ⟨heq, ?_, rfl⟩
      rw [hinv.entry k b' d' hp, heq]
    next hne => exact .inr ⟨hne, hk⟩
  have hnone : ∀ k, (s.manager.edit key fun e => e.writeBytes offset n data).cached k = none ↔
      s.manager.cached k = none := by
    intro k
    rw [hcached]
    split
    · exact Option.map_eq_none_iff
    · exact Iff.rfl
  constructor
  · intro k b d hk
    dsimp only
    rcases hnew k b d hk with ⟨rfl, hb, _⟩ | ⟨hne, hk⟩
    · rw [update_self, hb]
    · rw [update_of_ne hne]
      exact hinv.entry k b d hk
  · intro k b hk
    rcases hnew k b false hk with ⟨_, _, hd⟩ | ⟨_, hk⟩
    · cases hd
    · exact hinv.clean k b hk
  · intro k b d hk hcov
    rcases hnew k b d hk with ⟨_, _, hd⟩ | ⟨_, hk⟩
    · exact hd
    · exact hinv.dirty k b d hk hcov
  · intro k hcov
    have hne : k ≠ key := fun h => hcov (h ▸ hquiet)
    exact (hinv.settled k hcov).trans (update_of_ne hne ..).symm
  · intro k hk hq hev
    have hk := (hnone k).mp hk
    exact (hinv.absent k hk hq hev).trans (update_of_ne (hne_of_none k hk) ..).symm
  · intro u k v hu
    obtain ⟨hlock, hlast, hv, hk⟩ := hinv.evicting u k v hu
    refine ⟨hlock, ?_, (hnone _).mpr hv, (hnone _).mpr hk⟩
    exact hlast.trans (update_of_ne (hne_of_none _ hv) ..).symm
  · intro u k slot hu
    obtain ⟨hlock, hk⟩ := hinv.loading u k slot hu
    exact ⟨hlock, (hnone _).mpr hk⟩
  · exact hinv.holding
  · intro k hk
    have hold := hinv.held k hk
    rw [Option.isSome_iff_ne_none] at hold ⊢
    exact fun h => hold ((hnone k).mp h)
  · exact hinv.disjoint

/-- Blocks that no outstanding request touches are overwritten directly. -/
theorem Inv.overwrite (hlock : s.lock = none) {writes : List BlockWrite}
    (hover : ∀ w ∈ writes, ∀ r ∈ s.requests, ¬ Overlaps w r.2) :
    Inv { s with
      manager := writes.foldl
        (fun m w => m.overwriteBlockCacheRange w.dev w.startBlock w.count w.data) s.manager
      requests := s.requests ++ writes.map fun w => (t, w)
      last := applyAll writes s.last } := by
  have hcached := cached_overwrites s.manager writes
  have hold : ∀ k b d, (writes.foldl
      (fun m w => m.overwriteBlockCacheRange w.dev w.startBlock w.count w.data) s.manager).cached k =
        some (b, d) → ∃ d', s.manager.cached k = some (s.last k, d') ∧ b = applyAll writes s.last k ∧
          d = (d' || writes.any (·.Covers k)) := by
    intro k b d hk
    rw [hcached] at hk
    obtain ⟨⟨b', d'⟩, hp, heq⟩ := Option.map_eq_some_iff.mp hk
    cases heq
    have hb' := hinv.entry k b' d' hp
    rw [hb'] at hp
    exact ⟨d', hp, applyAll_congr hb', rfl⟩
  have hnone : ∀ k, (writes.foldl
      (fun m w => m.overwriteBlockCacheRange w.dev w.startBlock w.count w.data) s.manager).cached k =
        none ↔ s.manager.cached k = none := by
    intro k
    rw [hcached, Option.map_eq_none_iff]
  -- The requests are those of before and the new ones.
  have hquiet : ∀ k, (∀ r ∈ s.requests ++ writes.map fun w => (t, w), ¬ r.2.Covers k) ↔
      s.Quiet k ∧ ∀ w ∈ writes, ¬ w.Covers k := by
    intro k
    simp only [forall_mem_append, forall_mem_map]
    exact Iff.rfl
  have hmap : (s.requests ++ writes.map fun w => (t, w)).map Prod.snd =
      s.requests.map Prod.snd ++ writes := by
    rw [map_append, map_map]
    exact congrArg _ (map_id' _)
  constructor
  · intro k b d hk
    obtain ⟨d', _, hb, _⟩ := hold k b d hk
    exact hb
  · intro k b hk
    obtain ⟨d', hp, hb, hd⟩ := hold k b false hk
    -- A clean entry is not covered.
    have hd := hd.symm
    rw [Bool.or_eq_false_iff] at hd
    rw [hd.1] at hp
    have hcov : ∀ w ∈ writes, ¬ w.Covers k := by simpa using hd.2
    rw [hb, applyAll_of_not_covers hcov]
    exact hinv.clean k _ hp
  · intro k b d hk hcov
    obtain ⟨d', hp, _, rfl⟩ := hold k b d hk
    by_cases hq : s.Quiet k
    · have hany : writes.any (·.Covers k) = true := by
        by_contra hnot
        refine hcov ((hquiet k).mpr ⟨hq, fun w hw hwk => hnot ?_⟩)
        exact any_eq_true.mpr ⟨w, hw, decide_eq_true hwk⟩
      rw [hany, Bool.or_true]
    · rw [hinv.dirty k _ _ hp hq, Bool.true_or]
  · intro k hcov
    refine (congrFun (congrArg (fun l => applyAll l s.device) hmap) k).trans ?_
    rw [applyAll_append]
    by_cases hnew : ∃ w ∈ writes, w.Covers k
    · exact applyAll_of_covers hnew
    · have hnew : ∀ w ∈ writes, ¬ w.Covers k := fun w hw hwk => hnew ⟨w, hw, hwk⟩
      have hq : ¬ s.Quiet k := fun hq => hcov ((hquiet k).mpr ⟨hq, hnew⟩)
      exact applyAll_congr (hinv.settled k hq)
  · intro k hk hq hev
    obtain ⟨hq, hnew⟩ := (hquiet k).mp hq
    exact (hinv.absent k ((hnone k).mp hk) hq hev).trans (applyAll_of_not_covers hnew).symm
  · exact fun u k v hu => absurd hu (hinv.not_evicting hlock u k v)
  · exact fun u k slot hu => absurd hu (hinv.not_loading hlock u k slot)
  · exact hinv.holding
  · intro k hk
    have hsome := hinv.held k hk
    rw [Option.isSome_iff_ne_none] at hsome ⊢
    exact fun h => hsome ((hnone k).mp h)
  · intro r hr r' hr' hne k hk hk'
    rcases mem_append.mp hr with hr | hr
    · rcases mem_append.mp hr' with hr' | hr'
      · exact hinv.disjoint r hr r' hr' hne k hk hk'
      · obtain ⟨w, hw, rfl⟩ := mem_map.mp hr'
        exact hover w hw r hr (overlaps_of_covers hk' hk)
    · obtain ⟨w, hw, rfl⟩ := mem_map.mp hr
      rcases mem_append.mp hr' with hr' | hr'
      · exact hover w hw r' hr' (overlaps_of_covers hk hk')
      · obtain ⟨w', _, rfl⟩ := mem_map.mp hr'
        exact hne rfl

/-- An outstanding write reaches the device. -/
theorem Inv.transfer {r : ThreadId × BlockWrite}
    (hfind : s.requests.find? (fun r => r.1 = t) = some r) :
    Inv { s with
      device := r.2.apply s.device
      requests := s.requests.eraseP fun r => r.1 = t } := by
  obtain ⟨hrt, pre, post, hsplit, hpre⟩ := find?_eq_some_iff_append.mp hfind
  have hrt : r.1 = t := of_decide_eq_true hrt
  have hpre : ∀ r' ∈ pre, r'.1 ≠ t := fun r' hr' => by simpa using hpre r' hr'
  have herase : s.requests.eraseP (fun r => r.1 = t) = pre ++ post := by
    rw [hsplit, eraseP_append_right _ fun r' hr' => by simpa using hpre r' hr',
      eraseP_cons_of_pos (by simpa using hrt)]
  have hmem : r ∈ s.requests := mem_of_find?_eq_some hfind
  have hsub : ∀ r' ∈ s.requests.eraseP (fun r => r.1 = t), r' ∈ s.requests :=
    fun r' hr' => mem_of_mem_eraseP hr'
  have hquiet : ∀ k, s.Quiet k → ∀ r' ∈ s.requests.eraseP (fun r => r.1 = t), ¬ r'.2.Covers k :=
    fun k hq r' hr' => hq r' (hsub r' hr')
  -- Requests of other threads have no block in common with this one, so the end result is the same.
  have hsettled : ∀ k, applyAll ((s.requests.eraseP fun r => r.1 = t).map Prod.snd)
      (r.2.apply s.device) k = s.settled k := by
    intro k
    rw [herase, map_append, applyAll_move, State.settled, hsplit, map_append, map_cons]
    intro w' hw' hk hk'
    obtain ⟨r', hr', rfl⟩ := mem_map.mp hw'
    have hne : r.1 ≠ r'.1 := fun h => hpre r' hr' (h.symm.trans hrt)
    refine hinv.disjoint r hmem r' ?_ hne k hk hk'
    rw [hsplit]
    exact mem_append_left _ hr'
  have happly : ∀ k, s.Quiet k → r.2.apply s.device k = s.device k :=
    fun k hq => apply_of_not_covers (hq r hmem)
  constructor
  · exact hinv.entry
  · intro k b hk
    by_cases hq : s.Quiet k
    · exact (happly k hq).trans (hinv.clean k b hk)
    · cases hinv.dirty k b false hk hq
  · exact fun k b d hk hcov => hinv.dirty k b d hk fun hq => hcov (hquiet k hq)
  · exact fun k hcov => (hsettled k).trans (hinv.settled k fun hq => hcov (hquiet k hq))
  · intro k hk hq' hev
    by_cases hq : s.Quiet k
    · exact (happly k hq).trans (hinv.absent k hk hq hev)
    -- The last device write of the block.
    rw [← hinv.settled k hq, ← hsettled k]
    refine (applyAll_of_not_covers fun w hw => ?_).symm
    obtain ⟨r', hr', rfl⟩ := mem_map.mp hw
    exact hq' r' hr'
  · exact hinv.evicting
  · exact hinv.loading
  · exact hinv.holding
  · exact hinv.held
  · exact fun r₁ h₁ r₂ h₂ => hinv.disjoint r₁ (hsub r₁ h₁) r₂ (hsub r₂ h₂)

theorem next_inv {l : Label} (hl : Careful s l) (h : next size s l = some s') : Inv s' := by
  cases l with simp only [next] at h
  | get t key =>
    split at h
    next hpc hlock =>
      split at h
      next e he =>
        cases h
        have hkey : (s.manager.cached key).isSome := by rw [cached_isSome, he]; rfl
        have hheld := hinv.hold hpc hkey
        exact hheld.same fun k => cached_touch s.manager key k
      next hnone => exact miss_inv hinv hlock (by rw [cached, hnone]; rfl) h
    next => cases h
  | step t =>
    split at h
    next key v hpc =>
      cases h
      exact hinv.writeBack hpc
    next key slot hpc =>
      cases h
      simp only [Careful, hpc] at hl
      exact hinv.load hpc hl
    next => cases h
  | read t =>
    split at h
    next key _ =>
      cases h
      exact hinv.same fun k => cached_touch s.manager key k
    next => cases h
  | write t offset n data =>
    split at h
    next key hpc =>
      split at h
      · cases h
        simp only [Careful, hpc] at hl
        exact hinv.write hpc hl offset n data
      · cases h
    next => cases h
  | release t =>
    split at h
    next key hpc =>
      cases h
      exact hinv.release hpc
    next => cases h
  | overwrite t writes =>
    split at h
    next hpc hlock =>
      split at h
      · cases h
        exact hinv.overwrite hlock hl
      · cases h
    next => cases h
  | transfer t =>
    split at h
    next t' w hfind =>
      cases h
      exact hinv.transfer hfind
    next => cases h

end

end

theorem boot_inv (d : Device) : Inv (boot d) := by
  have hquiet : ∀ key, (boot d).Quiet key := fun _ => nofun
  exact ⟨nofun, nofun, nofun, fun key h => absurd (hquiet key) h, fun _ _ _ _ => rfl, nofun, nofun, nofun,
    fun k h => absurd rfl h, nofun⟩

theorem inv_of_reach {size : ℕ} {s : State} (h : (machine size).Reach Careful s) : Inv s := by
  refine h.invariant ?_ fun s l s' hinv hl hnext => next_inv hinv hl hnext
  rintro s ⟨d, rfl⟩
  exact boot_inv d

/-- In a run in which a block is not loaded, written or overwritten while a device write of it is
outstanding, who has a block from `get_block_cache` reads the data of the last write to it, and a clean
copy is what the device has. -/
theorem direct_writes_coherent {size : ℕ} {s : State} (h : (machine size).Reach Careful s) :
    (∀ t key, s.pc t = .holding key → ∃ dirty, s.manager.cached key = some (s.last key, dirty)) ∧
      ∀ key b, s.manager.cached key = some (b, false) → s.device key = b := by
  have hinv := inv_of_reach h
  refine ⟨fun t key hpc => ?_, hinv.clean⟩
  have hsome := hinv.held key (ne_nil_of_mem (hinv.holding t key hpc))
  obtain ⟨⟨b, dirty⟩, hb⟩ := Option.isSome_iff_exists.mp hsome
  refine ⟨dirty, ?_⟩
  rw [← hinv.entry key b dirty hb, hb]

/-- With the lock free and no device write outstanding, what was written last to a block is in the cache
or, if it is not cached, on the device. -/
theorem last_write_kept {size : ℕ} {s : State} (h : (machine size).Reach Careful s)
    (hlock : s.lock = none) (hreq : s.requests = []) (key : Key) :
    ((s.manager.cached key).map Prod.fst).getD (s.device key) = s.last key := by
  have hinv := inv_of_reach h
  cases hc : s.manager.cached key with
  | some e => exact hinv.entry key e.1 e.2 hc
  | none =>
    refine hinv.absent key hc (by simp [State.Quiet, hreq]) fun t k v hpc => ?_
    rw [(hinv.evicting t k v hpc).1] at hlock
    cases hlock

def sevens : BlockWrite := ⟨0, 0, 1, fun _ => 7⟩

def blockZero : Key := toLex (0, 0)

def holdsZero (s : State) : Bool :=
  match s.pc 2 with
  | .holding key => key = blockZero
  | _ => false

theorem pc_of_holdsZero {s : State} (h : holdsZero s = true) : s.pc 2 = .holding blockZero := by
  unfold holdsZero at h
  split at h
  next key hkey => rw [hkey, of_decide_eq_true h]
  next => cases h

def orderedRun : List Label :=
  [.overwrite 1 [sevens], .transfer 1, .get 2 blockZero, .step 2]

/-- The block is loaded between the section and the device write. -/
def racingRun : List Label :=
  [.overwrite 1 [sevens], .get 2 blockZero, .step 2, .transfer 1]

theorem direct_writes_coherent_ordered : ∃ s, (machine 1).Reach Careful s ∧
    ∃ dirty, s.manager.cached blockZero = some (s.last blockZero, dirty) := by
  obtain ⟨s, hrun, hp⟩ := (Option.any_eq_true holdsZero
    ((machine 1).runWhile Careful (boot fun _ _ => 0) orderedRun)).mp (by decide)
  have hreach : (machine 1).Reach Careful s := Machine.reach_of_runWhile ⟨_, rfl⟩ hrun
  exact ⟨s, hreach, (direct_writes_coherent hreach).1 2 blockZero (pc_of_holdsZero hp)⟩

theorem last_write_kept_ordered : ∃ s, (machine 1).Reach Careful s ∧
    ((s.manager.cached blockZero).map Prod.fst).getD (s.device blockZero) = s.last blockZero := by
  obtain ⟨s, hs, hlock, hreq⟩ := (machine 1).exists_reach_of_runWhile Careful
    (fun s => s.lock = none ∧ s.requests = []) orderedRun ⟨fun _ _ => 0, rfl⟩ (by decide)
  exact ⟨s, hs, last_write_kept hs hlock hreq _⟩

/-- The overwrite has returned, it was the only write, and a reader has other bytes, in a copy that is
marked clean and differs from the device. -/
theorem miss_during_overwrite : ∃ s t key b, (machine 65536).Reachable s ∧ s.requests = [] ∧
    s.pc t = .holding key ∧ s.manager.cached key = some (b, false) ∧ b ≠ s.last key ∧
    s.device key ≠ b := by
  obtain ⟨s, hrun, hp⟩ := (Option.any_eq_true (fun s : State => holdsZero s && s.requests.isEmpty &&
      (s.manager.cached blockZero).any
        (fun p : Block × Bool => !p.2 && decide (p.1 ⟨0, by decide⟩ = 0)) &&
      decide (s.last blockZero ⟨0, by decide⟩ = 7 ∧ s.device blockZero ⟨0, by decide⟩ = 7))
    ((machine 65536).run (boot fun _ _ => 0) racingRun)).mp (by decide)
  simp only [Bool.and_eq_true, List.isEmpty_iff, decide_eq_true_eq] at hp
  obtain ⟨⟨⟨hpc, hreq⟩, hcached⟩, hlast, hdev⟩ := hp
  obtain ⟨⟨b, dirty⟩, hb, hbytes⟩ := (Option.any_eq_true _ _).mp hcached
  simp only [Bool.and_eq_true, Bool.not_eq_true', decide_eq_true_eq] at hbytes
  obtain ⟨rfl, hzero⟩ := hbytes
  refine ⟨s, 2, blockZero, b, Machine.reachable_of_run ⟨_, rfl⟩ hrun, hreq, ?_, hb, ?_, ?_⟩
  · exact pc_of_holdsZero hpc
  · intro h
    rw [h, hlast] at hzero
    cases hzero
  · intro h
    rw [← h, hdev] at hzero
    cases hzero

end CosmOS.BlockIo.Direct
