import CosmOS.Mm.TlbGeneration

/-!
# TLB generations — safety

`NoStaleAccess` holds in every run whose steps meet `EditsInSync`.  The invariant classifies
stale translations: a cached translation that the page table no longer has belongs either to a
hart outside user mode that will notice the new generation on its way back, or to a target of an
outstanding shootdown that covers it and whose frame is still held back.
-/

namespace CosmOS.Mm.Tlb

open Function List Option DeferredUserFlush
open BTreeMap (get?_eq_none_iff get?_eq_some_iff mem_erase mem_insert mem_values value_unique)

variable {maxHarts : ℕ} {s s' : State maxHarts} {table : PageTable} {released : Finset Frame}
  {p : ℕ → Bool} {h : Hart maxHarts} {f : Frame} {flush : DeferredUserFlush} {id v : ℕ} {e : Edit} {r : Reclaim maxHarts}

/-! ## What an edit can do -/

/-- The only facts about edits that the protocol relies on. -/
structure EditSpec (table : PageTable) (released : Finset Frame) (e : Edit) : Prop where
  /-- A translation survives, or the flush covers it and its frame is accounted for. -/
  kept : ∀ v f, (v, f) ∈ table →
    (v, f) ∈ e.table ∨ (e.flush.covers v = true ∧ f ∈ e.batch ++ e.moved)
  installed : ∀ f ∈ e.table.values, f ∈ table.values ∨ f ∉ released
  batch : ∀ f ∈ e.batch, f ∈ table.values
  moved : ∀ f ∈ e.moved, f ∈ table.values

theorem mem_framesAt : f ∈ framesAt table p ↔ ∃ v, (v, f) ∈ table ∧ p v = true := by
  simp [framesAt, mem_values]

theorem framesAt_subset : ∀ f ∈ framesAt table p, f ∈ table.values := by
  intro f hf
  rcases mem_framesAt.mp hf with ⟨v, hv, -⟩
  exact mem_values.mpr ⟨v, hv⟩

theorem removePages_spec (hcov : ∀ v, p v = true → flush.covers v = true) :
    EditSpec table released (removePages table p flush) where
  kept := by
    intro v f hv
    cases hp : p v with
    | false => exact .inl (by simp [removePages, hv, hp])
    | true =>
      refine .inr ⟨hcov v hp, ?_⟩
      exact mem_append_left _ (mem_framesAt.mpr ⟨v, hv, hp⟩)
  installed := by
    intro f hf
    rcases mem_values.mp hf with ⟨v, hv⟩
    exact .inl (mem_values.mpr ⟨v, (BTreeMap.mem_filter.mp hv).1⟩)
  batch := framesAt_subset
  moved := by
    intro f hf
    simp [removePages] at hf

/-- Installing a live frame at one page, under a flush of that page. -/
theorem insert_spec {vaddr : ℕ} {frame : Frame} {batch : List Frame} (hlive : frame ∉ released)
    (hbatch : ∀ f, f ∈ batch ↔ (floor vaddr, f) ∈ table) :
    EditSpec table released ⟨table.insert (floor vaddr) frame, .page vaddr, batch, []⟩ where
  kept := by
    intro v f hv
    by_cases hva : v = floor vaddr
    · refine .inr ⟨by simp [covers, hva], ?_⟩
      exact mem_append_left _ ((hbatch f).mpr (hva ▸ hv))
    · exact .inl (mem_insert.mpr (.inr ⟨hva, hv⟩))
  installed := by
    intro f hf
    rcases mem_values.mp hf with ⟨v, hv⟩
    rcases mem_insert.mp hv with ⟨-, rfl⟩ | ⟨-, hv⟩
    · exact .inr hlive
    · exact .inl (mem_values.mpr ⟨v, hv⟩)
  batch := by
    intro f hf
    exact mem_values.mpr ⟨_, (hbatch f).mp hf⟩
  moved := by
    intro f hf
    simp at hf

theorem relocate_spec {oldStart newStart pages : ℕ} :
    EditSpec table released ⟨relocate table oldStart newStart pages, .addressSpace,
      framesAt table (inSpan newStart (newStart + pages)),
      framesAt table (inSpan oldStart (oldStart + pages))⟩ where
  kept := by
    intro v f hv
    -- Pages of either range are accounted for; all others stay where they are.
    by_cases hnew : inSpan newStart (newStart + pages) v = true
    · refine .inr ⟨rfl, ?_⟩
      exact mem_append_left _ (mem_framesAt.mpr ⟨v, hv, hnew⟩)
    by_cases hold : inSpan oldStart (oldStart + pages) v = true
    · refine .inr ⟨rfl, ?_⟩
      exact mem_append_right _ (mem_framesAt.mpr ⟨v, hv, hold⟩)
    left
    rw [← get?_eq_some_iff, relocate, BTreeMap.get?_insertMany_of_not_mem]
    · rw [get?_eq_some_iff]
      simp [hv, hnew, hold]
    intro e he hev
    rcases mem_map.mp he with ⟨e', he', rfl⟩
    have hspan := (mem_filter.mp he').2
    simp only [inSpan, Bool.and_eq_true, decide_eq_true_eq] at hspan hnew
    omega
  installed := by
    intro f hf
    left
    rcases BTreeMap.mem_values_insertMany hf with hf | hf
    · rcases mem_values.mp hf with ⟨v, hv⟩
      exact mem_values.mpr ⟨v, (BTreeMap.mem_filter.mp hv).1⟩
    · rcases mem_map.mp hf with ⟨e, he, rfl⟩
      rcases mem_map.mp he with ⟨e', he', rfl⟩
      exact mem_values.mpr ⟨e'.1, (mem_filter.mp he').1⟩
  batch := framesAt_subset
  moved := framesAt_subset

theorem unchanged_spec : EditSpec table released ⟨table, flush, [], []⟩ where
  kept := fun _ _ hv => .inl hv
  installed := fun _ hf => .inl hf
  batch := by simp
  moved := by simp

theorem apply_spec {op : EditOp} (h : op.apply table released = some e) :
    EditSpec table released e := by
  cases op with simp only [EditOp.apply, ite_none_right_eq_some] at h
  | munmap start stop =>
    rcases h with ⟨hlt, ⟨⟩⟩
    refine removePages_spec ?_
    intro v hv
    simp only [inSpan, Bool.and_eq_true, decide_eq_true_eq] at hv
    -- the flush reaches up to the last page that is visited
    have hlast : v ≤ floor (stop - 1) := by
      simp only [floor, ceil, pageSize] at *
      omega
    simp [covers, hlt, hv.1, hlast]
  | privateCow vaddr frame =>
    split at h
    next old hold =>
      rcases ite_none_right_eq_some.mp h with ⟨hlive, ⟨⟩⟩
      refine insert_spec hlive ?_
      intro f
      rw [← get?_eq_some_iff, hold]
      simp [eq_comm]
    · simp at h
  | lazyFault vaddr frame =>
    split at h
    · simp at h
    rename_i hnone
    rcases ite_none_right_eq_some.mp h with ⟨hlive, ⟨⟩⟩
    refine insert_spec hlive ?_
    intro f
    simpa using get?_eq_none_iff.mp hnone f
  | relaxPage vaddr =>
    cases h
    exact unchanged_spec
  | mprotect start stop =>
    rcases h with ⟨_, ⟨⟩⟩
    exact unchanged_spec
  | teardown start stop =>
    cases h
    exact removePages_spec fun _ _ => rfl
  | mremap oldStart newStart pages =>
    rcases h with ⟨_, ⟨⟩⟩
    exact relocate_spec

/-- An outstanding shootdown still has to reach `h` for page `v`, and `f` is accounted for. -/
def Outstanding (s : State maxHarts) (h : Hart maxHarts) (v : ℕ) (f : Frame) : Prop :=
  ∃ id r, (id, r) ∈ s.pending ∧ h ∈ r.mask ∧ r.flush.covers v = true ∧ f ∈ r.batch ++ r.moved

structure Inv (s : State maxHarts) : Prop where
  user_active : s.userMode = s.activeUserHarts
  seen_le : ∀ h, s.seenTlbGeneration h ≤ s.tlbGeneration
  stale : ∀ h v f, (v, f) ∈ s.tlb h → (v, f) ∉ s.table →
    (h ∉ s.activeUserHarts ∧ s.seenTlbGeneration h ≠ s.tlbGeneration) ∨ Outstanding s h v f
  mapped_live : ∀ f ∈ s.table.values, f ∉ s.released
  batch_live : ∀ id r, (id, r) ∈ s.pending → ∀ f ∈ r.batch, f ∉ s.released
  moved_live : ∀ id r, (id, r) ∈ s.pending → r.mask ≠ ∅ → ∀ f ∈ r.moved, f ∉ s.released

theorem Inv.noStaleAccess (hinv : Inv s) : NoStaleAccess s := by
  rintro h hh ⟨v, f⟩ he
  by_cases hcur : (v, f) ∈ s.table
  · exact hinv.mapped_live f (mem_values.mpr ⟨v, hcur⟩)
  rcases hinv.stale h v f he hcur with ⟨hinactive, -⟩ | ⟨id, r, hr, hm, -, hf⟩
  · exact absurd (hinv.user_active ▸ hh) hinactive
  · rcases mem_append.mp hf with hf | hf
    · exact hinv.batch_live id r hr f hf
    · exact hinv.moved_live id r hr (Finset.ne_empty_of_mem hm) f hf

theorem Inv.initial : Inv (initial : State maxHarts) where
  user_active := rfl
  seen_le := fun _ => Nat.zero_le 1
  stale := by
    intro h v f he
    exact absurd he (Finset.notMem_empty _)
  mapped_live := fun _ _ => Finset.notMem_empty _
  batch_live := fun _ _ _ _ _ => Finset.notMem_empty _
  moved_live := fun _ _ _ _ _ _ => Finset.notMem_empty _

theorem mem_flushTlb {tlb : Finset (ℕ × Frame)} :
    (v, f) ∈ flushTlb flush tlb ↔ (v, f) ∈ tlb ∧ flush.covers v = false := by
  simp [flushTlb]

section

variable (hinv : Inv s)

include hinv

theorem Inv.fill (hv : (v, f) ∈ s.table) :
    Inv { s with tlb := update s.tlb h (insert (v, f) (s.tlb h)) } where
  __ := hinv
  stale := by
    intro h' v' f' he hcur
    change (v', f') ∈ update s.tlb h (insert (v, f) (s.tlb h)) h' at he
    rcases eq_or_ne h' h with rfl | hh
    · rw [update_self] at he
      rcases Finset.mem_insert.mp he with heq | he
      · -- A translation just read from the table is not stale.
        rw [heq] at hcur
        exact absurd hv hcur
      · exact hinv.stale h' v' f' he hcur
    · rw [update_of_ne hh] at he
      exact hinv.stale h' v' f' he hcur

theorem Inv.enterKernel : Inv { s.markUserInactive h with userMode := s.userMode.erase h } where
  user_active := by
    show s.userMode.erase h = s.activeUserHarts.erase h
    rw [hinv.user_active]
  __ := hinv
  stale := by
    intro h' v f he hcur
    rcases hinv.stale h' v f he hcur with ⟨hinactive, hseen⟩ | hout
    · refine .inl ⟨?_, hseen⟩
      intro hm
      exact hinactive (Finset.mem_of_mem_erase hm)
    · exact .inr hout

theorem Inv.enterUser : Inv { s.markUserActive h with userMode := insert h s.userMode } := by
  unfold State.markUserActive
  split
  · -- The hart missed a generation: the fence leaves it no translation at all.
    refine { hinv with user_active := ?_, seen_le := ?_, stale := ?_ }
    · show insert h s.userMode = insert h s.activeUserHarts
      rw [hinv.user_active]
    · intro h'
      show update s.seenTlbGeneration h s.tlbGeneration h' ≤ s.tlbGeneration
      rcases eq_or_ne h' h with rfl | hh
      · rw [update_self]
      · rw [update_of_ne hh]
        exact hinv.seen_le h'
    · intro h' v f he hcur
      change (v, f) ∈ update s.tlb h _ h' at he
      rcases eq_or_ne h' h with rfl | hh
      · rw [update_self, mem_flushTlb] at he
        exact absurd he.2 (by simp [covers])
      · rw [update_of_ne hh] at he
        rcases hinv.stale h' v f he hcur with ⟨hinactive, hseen'⟩ | hout
        · refine .inl ⟨?_, ?_⟩
          · simpa [hh] using hinactive
          · show update s.seenTlbGeneration h s.tlbGeneration h' ≠ s.tlbGeneration
            rwa [update_of_ne hh]
        · exact .inr hout
  · -- The hart is up to date, so whatever is stale in its TLB has a shootdown on its way.
    rename_i hseen
    have hseen : s.seenTlbGeneration h = s.tlbGeneration := not_not.mp hseen
    refine { hinv with user_active := ?_, stale := ?_ }
    · show insert h s.userMode = insert h s.activeUserHarts
      rw [hinv.user_active]
    intro h' v f he hcur
    rcases hinv.stale h' v f he hcur with ⟨hinactive, hseen'⟩ | hout
    · have hh : h' ≠ h := by
        rintro rfl
        exact hseen' hseen
      exact .inl ⟨by simpa [hh] using hinactive, hseen'⟩
    · exact .inr hout

/-- An edit by a hart that is up to date or flushes everything. -/
theorem Inv.edit (hu : h ∉ s.userMode) (hid : s.pending.get? id = none)
    (hspec : EditSpec s.table s.released e)
    (hsync : s.seenTlbGeneration h = s.tlbGeneration ∨ e.flush.isFull = true) :
    Inv (s.edit h id e) := by
  have hfresh : ∀ r, (id, r) ∉ s.pending := get?_eq_none_iff.mp hid
  have hkeep : ∀ id' r, (id', r) ∈ s.pending → (id', r) ∈ (s.edit h id e).pending := by
    intro id' r hr
    refine mem_insert.mpr (.inr ⟨?_, hr⟩)
    rintro rfl
    exact hfresh r hr
  have hold : ∀ h' v f, Outstanding s h' v f → Outstanding (s.edit h id e) h' v f := by
    rintro h' v f ⟨id', r, hr, hrest⟩
    exact ⟨id', r, hkeep id' r hr, hrest⟩
  refine ⟨hinv.user_active, ?_, ?_, ?_, ?_, ?_⟩
  · intro h'
    show update s.seenTlbGeneration h (s.tlbGeneration + 1) h' ≤ s.tlbGeneration + 1
    rcases eq_or_ne h' h with rfl | hh
    · rw [update_self]
    · rw [update_of_ne hh]
      exact (hinv.seen_le h').trans (Nat.le_succ _)
  · intro h' v f he hcur
    change (v, f) ∈ update s.tlb h (flushTlb e.flush (s.tlb h)) h' at he
    by_cases hh : h' = h
    · -- The editing hart: whatever its own edit made stale, its own flush removed.
      subst hh
      rw [update_self, mem_flushTlb] at he
      obtain ⟨he, hcov⟩ := he
      have hstale : (v, f) ∉ s.table := by
        intro htab
        rcases hspec.kept v f htab with hm | ⟨hc, -⟩
        · exact hcur hm
        · rw [hc] at hcov
          exact absurd hcov (by decide)
      rcases hinv.stale h' v f he hstale with ⟨-, hseen⟩ | hout
      · rcases hsync with hs | hfull
        · exact absurd hs hseen
        · simp [covers, hfull] at hcov
      · exact .inr (hold h' v f hout)
    · rw [update_of_ne hh] at he
      have hseen_ne : update s.seenTlbGeneration h (s.tlbGeneration + 1) h' ≠
          s.tlbGeneration + 1 := by
        rw [update_of_ne hh]
        have := hinv.seen_le h'
        omega
      by_cases htab : (v, f) ∈ s.table
      · -- Newly stale: an active hart is a target, an inactive one missed the generation.
        rcases hspec.kept v f htab with hm | ⟨hcov, hf⟩
        · exact absurd hm hcur
        · by_cases hact : h' ∈ s.activeUserHarts
          · exact .inr ⟨id, _, mem_insert.mpr (.inl ⟨rfl, rfl⟩), hact, hcov, hf⟩
          · exact .inl ⟨hact, hseen_ne⟩
      · rcases hinv.stale h' v f he htab with ⟨hact, -⟩ | hout
        · exact .inl ⟨hact, hseen_ne⟩
        · exact .inr (hold h' v f hout)
  · intro f hf
    rcases hspec.installed f hf with hf | hf
    · exact hinv.mapped_live f hf
    · exact hf
  · intro id' r hr f hf
    rcases mem_insert.mp hr with ⟨-, rfl⟩ | ⟨-, hr⟩
    · exact hinv.mapped_live f (hspec.batch f hf)
    · exact hinv.batch_live id' r hr f hf
  · intro id' r hr hm f hf
    rcases mem_insert.mp hr with ⟨-, rfl⟩ | ⟨-, hr⟩
    · exact hinv.mapped_live f (hspec.moved f hf)
    · exact hinv.moved_live id' r hr hm f hf

theorem Inv.shootdown {target : Hart maxHarts} (hr : (id, r) ∈ s.pending) : Inv { s with
      tlb := update s.tlb target (flushTlb r.flush (s.tlb target))
      pending := s.pending.insert id { r with mask := r.mask.erase target } } := by
  refine { hinv with stale := ?_, batch_live := ?_, moved_live := ?_ }
  · intro h v f he hcur
    change (v, f) ∈ update s.tlb target (flushTlb r.flush (s.tlb target)) h at he
    -- A stale entry the target keeps is not covered by this flush, so another one is on its way.
    have hentry : (v, f) ∈ s.tlb h ∧ (h = target → r.flush.covers v = false) := by
      rcases eq_or_ne h target with rfl | hh
      · rw [update_self, mem_flushTlb] at he
        exact ⟨he.1, fun _ => he.2⟩
      · rw [update_of_ne hh] at he
        exact ⟨he, fun h' => absurd h' hh⟩
    rcases hinv.stale h v f hentry.1 hcur with hinactive | ⟨id', r', hr', hm, hcov, hf⟩
    · exact .inl hinactive
    right
    rcases eq_or_ne id' id with rfl | hid
    · obtain rfl := value_unique hr' hr
      have hh : h ≠ target := by
        intro hh
        rw [hentry.2 hh] at hcov
        exact absurd hcov (by decide)
      exact ⟨id', _, mem_insert.mpr (.inl ⟨rfl, rfl⟩), Finset.mem_erase.mpr ⟨hh, hm⟩, hcov, hf⟩
    · exact ⟨id', r', mem_insert.mpr (.inr ⟨hid, hr'⟩), hm, hcov, hf⟩
  · intro id' r' hr' f hf
    rcases mem_insert.mp hr' with ⟨-, rfl⟩ | ⟨-, hr'⟩
    · exact hinv.batch_live id r hr f hf
    · exact hinv.batch_live id' r' hr' f hf
  · intro id' r' hr' hm f hf
    rcases mem_insert.mp hr' with ⟨-, rfl⟩ | ⟨-, hr'⟩
    · refine hinv.moved_live id r hr ?_ f hf
      intro hempty
      exact hm (by simp [hempty])
    · exact hinv.moved_live id' r' hr' hm f hf

theorem Inv.release (hr : (id, r) ∈ s.pending)
    (hdone : r.mask = ∅)
    (hmoved : ∀ r' ∈ (s.pending.erase id).values, r'.mask ≠ ∅ → ∀ f ∈ r.batch, f ∉ r'.moved) :
    Inv { s with
      pending := s.pending.erase id
      released := s.released ∪
        (unreferenced s.table (s.pending.erase id) r.batch).toFinset } := by
  have hsplit : ∀ f, f ∈ s.released ∪ (unreferenced s.table (s.pending.erase id) r.batch).toFinset →
      f ∈ s.released ∨ (f ∈ r.batch ∧ f ∉ s.table.values ∧
        ∀ r' ∈ (s.pending.erase id).values, f ∉ r'.batch) := by
    intro f hf
    simpa [unreferenced] using hf
  refine ⟨hinv.user_active, hinv.seen_le, ?_, ?_, ?_, ?_⟩
  · intro h v f he hcur
    rcases hinv.stale h v f he hcur with hinactive | ⟨id', r', hr', hm, hrest⟩
    · exact .inl hinactive
    refine .inr ⟨id', r', mem_erase.mpr ⟨hr', ?_⟩, hm, hrest⟩
    rintro rfl
    obtain rfl := value_unique hr' hr
    rw [hdone] at hm
    exact absurd hm (Finset.notMem_empty _)
  · intro f hf hrel
    rcases hsplit f hrel with hrel | ⟨-, hnot, -⟩
    · exact hinv.mapped_live f hf hrel
    · exact hnot hf
  · intro id' r' hr' f hf hrel
    have hval : r' ∈ (s.pending.erase id).values := mem_values.mpr ⟨id', hr'⟩
    rcases hsplit f hrel with hrel | ⟨-, -, hnot⟩
    · exact hinv.batch_live id' r' (mem_erase.mp hr').1 f hf hrel
    · exact hnot r' hval hf
  · intro id' r' hr' hm f hf hrel
    have hval : r' ∈ (s.pending.erase id).values := mem_values.mpr ⟨id', hr'⟩
    rcases hsplit f hrel with hrel | ⟨hbatch, -, -⟩
    · exact hinv.moved_live id' r' (mem_erase.mp hr').1 hm f hf hrel
    · exact hmoved r' hval hm f hbatch hf

theorem Inv.next {l : Label maxHarts} (hok : EditsInSync s l)
    (hnext : next s l = some s') : Inv s' := by
  cases l with simp only [Tlb.next, ite_none_right_eq_some] at hnext
  | fill h v =>
    rcases hnext with ⟨_, hnext⟩
    rcases map_eq_some_iff.mp hnext with ⟨f, hf, rfl⟩
    exact hinv.fill (get?_eq_some_iff.mp hf)
  | enterKernel h =>
    rcases hnext with ⟨_, ⟨⟩⟩
    exact hinv.enterKernel
  | enterUser h =>
    rcases hnext with ⟨_, ⟨⟩⟩
    exact hinv.enterUser
  | edit h id op =>
    rcases hnext with ⟨hguard, hnext⟩
    rcases map_eq_some_iff.mp hnext with ⟨e, he, rfl⟩
    refine hinv.edit hguard.1 hguard.2 (apply_spec he) ?_
    rcases hok with hs | hfull
    · exact .inl hs
    · exact .inr (hfull e he)
  | shootdown id target =>
    split at hnext
    next r hr =>
      rcases ite_none_right_eq_some.mp hnext with ⟨_, ⟨⟩⟩
      exact hinv.shootdown (get?_eq_some_iff.mp hr)
    · simp at hnext
  | release id =>
    split at hnext
    next r hr =>
      rcases ite_none_right_eq_some.mp hnext with ⟨hdone, ⟨⟩⟩
      exact hinv.release (get?_eq_some_iff.mp hr) hdone (hok r hr)
    · simp at hnext

end

/-- **Generation safety.** In every run whose edits are made in sync, no hart in user mode holds
a cached translation to a released frame. -/
theorem generation_safe {s : State maxHarts} (h : (machine maxHarts).Reach EditsInSync s) :
    NoStaleAccess s := by
  have hinv : Inv s := by
    refine h.invariant ?_ ?_
    · rintro s rfl
      exact Inv.initial
    · intro s l s' hinv hok hnext
      exact hinv.next hok hnext
  exact hinv.noStaleAccess

section Runs

/-- Hart 1 caches a page and traps.  Hart 0 unmaps that page; no hart is active, so its frame is
released at once.  Hart 1 then takes a lazy fault on another page, which flushes only that page
but marks the hart up to date, and returns to user mode without a fence. -/
def skippedGeneration : List (Label 12) :=
  [.edit 0 0 (.lazyFault 4096 10), .release 0, .enterUser 1, .fill 1 1, .enterKernel 1,
    .edit 0 1 (.munmap 4096 8192), .release 1, .edit 1 2 (.lazyFault 20480 11), .enterUser 1]

/-- The same two edits made by hart 0, with hart 1 in user mode as the target of the shootdown. -/
def shotDown : List (Label 12) :=
  [.enterUser 0, .enterKernel 0, .edit 0 0 (.lazyFault 4096 10), .release 0, .enterUser 1,
    .fill 1 1, .edit 0 1 (.munmap 4096 8192), .shootdown 1 1, .release 1,
    .edit 0 2 (.lazyFault 20480 11), .shootdown 2 1, .release 2, .fill 1 5]

/-- Hart `h` is in user mode and holds a translation to a released frame. -/
def staleOn (h : Hart maxHarts) (s : State maxHarts) : Bool :=
  decide (h ∈ s.userMode ∧ ∃ e ∈ s.tlb h, e.2 ∈ s.released)

/-- A single-page flush after a missed generation leaves a usable translation to a released
frame. -/
theorem stale_access_reachable : ∃ s, (machine 12).Reachable s ∧ ¬NoStaleAccess s := by
  obtain ⟨s, hs, hstale⟩ := (machine 12).exists_reachable_of_run (staleOn 1 ·) skippedGeneration
    rfl (by decide)
  refine ⟨s, hs, ?_⟩
  intro hsafe
  obtain ⟨hu, e, he, hrel⟩ := of_decide_eq_true hstale
  exact hsafe 1 hu e he hrel

theorem generation_safe_shotDown :
    ∃ s, (machine 12).Reach EditsInSync s ∧ 1 ∈ s.userMode ∧ s.released ≠ ∅ ∧ NoStaleAccess s := by
  obtain ⟨s, hs, hu, hrel⟩ := (machine 12).exists_reach_of_runWhile EditsInSync
    (fun s => 1 ∈ s.userMode ∧ s.released ≠ ∅) shotDown rfl (by decide)
  exact ⟨s, hs, hu, hrel, generation_safe hs⟩

end Runs

end CosmOS.Mm.Tlb
