import CosmOS.PageCache.Representation

/-!
# PageCache.Flushing — writing back and reclaim

A flush brings the bytes of dirty pages to the backing file and clears their flag.  It changes nothing
about the file that the mapping stands for (`Represents.flush`), whichever way the bytes go out:
`flush_page` writes one page, `flush_writeback_batch` a row of them.  When `sync_mapping` has visited
every dirty page the backing file is that file.
-/

namespace CosmOS.PageCache

open PageCache
open Prod (fst)

open Function List Option

def CachePage.flushed (p : CachePage) : CachePage :=
  { p with dirty := false, writeback := false, redirtied := false }

namespace Mapping

open Mapping

variable {m m' : Mapping} {f : File} {p : CachePage} {i first : ℕ} {l : List ℕ}
  {batch : List (ℕ × CachePage)}

/-- The pages at `l` have been written back, and no other page has changed. -/
structure Flushes (m m' : Mapping) (l : List ℕ) : Prop where
  page : ∀ i, i ∈ l → ∃ p, m.pages i = some p ∧ p.dirty = true ∧ m'.pages i = some p.flushed
  other : ∀ i, i ∉ l → m'.pages i = m.pages i
  listed : ∀ i, i ∉ l → i ∈ m.dirtyPages → i ∈ m'.dirtyPages
  size : m'.size = m.size

/-- Where a page after the writeback comes from. -/
theorem Flushes.cases (h : Flushes m m' l) (hp : m'.pages i = some p) : i ∉ l ∧ m.pages i = some p ∨
      i ∈ l ∧ ∃ p₀, m.pages i = some p₀ ∧ p₀.dirty = true ∧ p = p₀.flushed := by
  by_cases hi : i ∈ l
  · obtain ⟨p₀, hp₀, hd, hp'⟩ := h.page i hi
    exact .inr ⟨hi, p₀, hp₀, hd, some.inj (hp.symm.trans hp')⟩
  · exact .inl ⟨hi, h.other i hi ▸ hp⟩

/-- What the device got: bytes of the file, and all those of the pages at `l`. -/
structure Carries (m : Mapping) (f : File) (l : List ℕ) (off n : ℕ) (src : ℕ → UInt8) : Prop where
  shows : ∀ x, x < n → src x = f.byte (off + x) ∧ off + x < f.len
  covers : ∀ i p, i ∈ l → m.pages i = some p → ∀ x, x < p.validBytes →
    off ≤ pageStart i + x ∧ pageStart i + x < off + n

section Flush

variable {off n : ℕ} {src : ℕ → UInt8}

theorem Carries.len_le (h : m.Carries f l off n src) (hshort : m.backing.len ≤ f.len) :
    (m.backing.writeAt off n src).len ≤ f.len := by
  show (if n = 0 then m.backing.len else max m.backing.len (off + n)) ≤ f.len
  split
  · exact hshort
  · have hlast := (h.shows (n - 1) (by omega)).2
    omega

theorem Represents.carried (h : m.Represents f) (hflush : Flushes m m' l)
    (hcarry : m.Carries f l off n src) (hclean : ∀ p, m'.pages i = some p → p.dirty = false)
    {x : ℕ} (hx : x < pageSize) :
    (m.backing.writeAt off n src).byte (pageStart i + x) = f.byte (pageStart i + x) := by
  show blit m.backing.byte off n src (pageStart i + x) = _
  by_cases hin : off ≤ pageStart i + x ∧ pageStart i + x < off + n
  · rw [blit_of_mem hin.1 hin.2, (hcarry.shows _ (by omega)).1, Nat.add_sub_cancel' hin.1]
  rw [blit_of_not_mem hin]
  by_cases hi : i ∈ l
  · -- the byte lies past the end of the file
    obtain ⟨p, hp, hd, -⟩ := hflush.page i hi
    have hfits := h.pages.page i p hp
    have hvalid := hfits.valid (hfits.fresh hd)
    have hge : p.validBytes ≤ x := by
      by_contra hlt
      exact hin (hcarry.covers i p hi hp x (by omega))
    have hend : f.len ≤ pageStart i + x := by
      unfold pageValidBytesForSize at hvalid
      omega
    rw [f.zeroed _ hend, m.backing.zeroed _ (Nat.le_trans h.pages.short hend)]
  · exact h.pages.clean i (fun p hp => hclean p ((hflush.other i hi).trans hp)) x hx

/-- The last page of the file reaches its end. -/
theorem pageStart_tailPage (hpos : 0 < f.len) :
    pageStart (tailPage f) + pageValidBytesForSize f.len (tailPage f) = f.len ∧
      0 < pageValidBytesForSize f.len (tailPage f) := by
  simp only [tailPage, pageValidBytesForSize, pageStart, filePageIndex, pageSize]
  omega

section

variable (h : m.Represents f) (hflush : Flushes m m' l) (hcarry : m.Carries f l off n src)
  (hbacking : m'.backing = m.backing.writeAt off n src)

include h hflush hcarry hbacking

theorem Tail.flush : m'.Tail f := by
  have hle := hcarry.len_le h.pages.short
  have hgrow : m.backing.len ≤ (m.backing.writeAt off n src).len := SparseFile.len_le_writeAt
  constructor
  · rw [hbacking]
    rcases h.tail.flushed with hlen | ⟨p, hp, hd⟩
    · exact .inl (by omega)
    by_cases hi : tailPage f ∈ l
    · refine .inl (le_antisymm hle ?_)
      have hfits := h.pages.page _ p hp
      have hvalid := hfits.valid (hfits.fresh hd)
      rcases Nat.eq_zero_or_pos f.len with hzero | hpos
      · omega
      -- the last byte of the file went out
      obtain ⟨hend, hsome⟩ := pageStart_tailPage hpos
      obtain ⟨hfrom, hto⟩ := hcarry.covers _ p hi hp (p.validBytes - 1) (by omega)
      have hhas := (SparseFile.has_writeAt m.backing src hfrom hto).1
      omega
    · exact .inr ⟨p, (hflush.other _ hi).trans hp, hd⟩
  · intro hpos p hp
    rcases hflush.cases hp with ⟨-, hp₀⟩ | ⟨-, p₀, hp₀, -, rfl⟩
    · exact h.tail.ready hpos p hp₀
    · exact h.tail.ready hpos p₀ hp₀

theorem Represents.flush : m'.Represents f where
  pages :=
    { size := hflush.size.trans h.pages.size
      page := fun i p hp => by
        rcases hflush.cases hp with ⟨-, hp₀⟩ | ⟨-, p₀, hp₀, -, rfl⟩
        · exact h.pages.page i p hp₀
        · have hfits := h.pages.page i p₀ hp₀
          exact { hfits with writeback := rfl, fresh := nofun }
      clean := fun i hclean x hx => hbacking ▸ h.carried hflush hcarry hclean hx
      listed := fun i p hp hd => by
        rcases hflush.cases hp with ⟨hi, hp₀⟩ | ⟨-, p₀, -, -, rfl⟩
        · exact hflush.listed i hi (h.pages.listed i p hp₀ hd)
        · cases hd
      short := hbacking ▸ hcarry.len_le h.pages.short }
  tail := .flush h hflush hcarry hbacking

end

end Flush

/-! ## flush_page -/

/-- The end of a writeback that nothing has disturbed. -/
theorem finishPageWriteback_eq (hp : m.pages i = some p.beginWriteback) (hd : p.dirty = true)
    (hmap : p.mapCount = 0) : m.finishPageWriteback i true =
      { m.setPage i p.flushed with dirtyPages := m.dirtyPages.erase i } := by
  have hstays : p.beginWriteback.staysDirty true = false := by
    simp [CachePage.staysDirty, CachePage.beginWriteback, hmap]
  have hpage : p.beginWriteback.finishWriteback true = p.flushed := by
    unfold CachePage.finishWriteback
    rw [hstays, Bool.and_false]
    rfl
  have hdirty : p.beginWriteback.dirty = true := hd
  unfold finishPageWriteback
  rw [page_of_some hp, hpage, hstays, hdirty, if_pos rfl, if_neg Bool.false_ne_true]

theorem Represents.carries_page (h : m.Represents f) (hp : m.pages i = some p)
    (hd : p.dirty = true) : m.Carries f [i] (pageStart p.index) p.validBytes p.bytes := by
  have hfits := h.pages.page i p hp
  have hvalid := hfits.valid (hfits.fresh hd)
  have hpage := pageValidBytesForSize_le f.len i
  rw [hfits.index]
  constructor
  · intro x hx
    refine ⟨hfits.byte (hfits.fresh hd) (by omega), ?_⟩
    unfold pageValidBytesForSize at hvalid
    omega
  · intro j q hj hq x hx
    obtain rfl := mem_singleton.mp hj
    obtain rfl := some.inj (hp.symm.trans hq)
    omega

/-- `flush_page` returns with the page clean. -/
theorem Represents.flushPage (h : m.Represents f) (hp : m.pages i = some p) :
    ∃ m', m.flushPage i = some m' ∧ m'.Represents f ∧
      ∀ j q, m'.pages j = some q → q.dirty = true → j ≠ i ∧ m.pages j = some q := by
  have hfits := h.pages.page i p hp
  unfold Mapping.flushPage
  simp only [page_of_some hp, hfits.writeback]
  by_cases hd : p.dirty = true
  · simp only [hd]
    set marked : Mapping := { m.setPage i p.beginWriteback with
      backing := m.backing.writeAt (pageStart p.index) p.validBytes p.bytes } with hmarked
    have hflush : Flushes m
        { marked.setPage i p.flushed with dirtyPages := marked.dirtyPages.erase i } [i] := by
      refine ⟨fun j hj => ?_, fun j hj => ?_, fun j hj hmem => ?_, rfl⟩
      · rw [mem_singleton.mp hj]
        exact ⟨p, hp, hd, setPage_pages_self⟩
      · have hne : j ≠ i := fun hji => hj (mem_singleton.mpr hji)
        exact (setPage_pages_of_ne hne).trans (setPage_pages_of_ne hne)
      · exact (mem_erase_of_ne fun hji => hj (mem_singleton.mpr hji)).mpr hmem
    refine ⟨_, congrArg some (finishPageWriteback_eq setPage_pages_self hd hfits.unmapped),
      h.flush hflush (h.carries_page hp hd) rfl, fun j q hq hdirty => ?_⟩
    rcases hflush.cases hq with ⟨hj, hq₀⟩ | ⟨-, q₀, -, -, rfl⟩
    · exact ⟨fun hji => hj (mem_singleton.mpr hji), hq₀⟩
    · cases hdirty
  · simp only [hd]
    refine ⟨m, rfl, h, fun j q hq hdirty => ⟨?_, hq⟩⟩
    rintro rfl
    obtain rfl := some.inj (hp.symm.trans hq)
    exact hd hdirty

/-! ## flush_writeback_batch -/

/-- The pages of the batch are marked, and they lie side by side from `first` on. -/
structure Collected (m m' : Mapping) (first : ℕ) (batch : List (ℕ × CachePage)) : Prop where
  index : batch.map Prod.fst = List.range' first batch.length
  page : ∀ c, c ∈ batch → m.pages c.1 = some c.2 ∧ c.2.dirty = true
  marked : ∀ c, c ∈ batch → m'.pages c.1 = some c.2.beginWriteback
  other : ∀ i, i ∉ batch.map Prod.fst → m'.pages i = m.pages i
  size : m'.size = m.size
  dirtyPages : m'.dirtyPages = m.dirtyPages
  backing : m'.backing = m.backing

/-- Only the last page of the batch is short. -/
def FullBatch (batch : List (ℕ × CachePage)) : Prop :=
  Slice.Full pageSize (batch.map fun c => ⟨c.2.validBytes, c.2.bytes⟩)

/-- The pages of a batch are finished one after the other. -/
structure Finishes (m m' : Mapping) (batch : List (ℕ × CachePage)) : Prop where
  page : ∀ c, c ∈ batch → m'.pages c.1 = some c.2.flushed
  other : ∀ i, i ∉ batch.map Prod.fst → m'.pages i = m.pages i
  listed : ∀ i, i ∉ batch.map Prod.fst → i ∈ m.dirtyPages → i ∈ m'.dirtyPages
  size : m'.size = m.size
  backing : m'.backing = m.backing

theorem finishBatch_finishes (hnodup : (batch.map fst).Nodup)
    (hmarked : ∀ c, c ∈ batch → m.pages c.1 = some c.2.beginWriteback)
    (hpage : ∀ c, c ∈ batch → c.2.dirty = true ∧ c.2.mapCount = 0) :
    Finishes m (finishBatch m batch) batch := by
  induction batch generalizing m with
  | nil => exact ⟨nofun, fun _ _ => rfl, fun _ _ => id, rfl, rfl⟩
  | cons c batch ih =>
    obtain ⟨hhead, hnodup⟩ := nodup_cons.mp hnodup
    obtain ⟨hd, hmap⟩ := hpage c (.head _)
    have hne : ∀ d ∈ batch, d.1 ≠ c.1 := fun d hd heq =>
      hhead (heq ▸ mem_map_of_mem hd)
    rw [finishBatch, finishPageWriteback_eq (hmarked c (.head _)) hd hmap]
    have hrest := ih (m := { m.setPage c.1 c.2.flushed with dirtyPages := m.dirtyPages.erase c.1 })
      hnodup
      (fun d hd => (setPage_pages_of_ne (hne d hd)).trans (hmarked d (.tail _ hd)))
      fun d hd => hpage d (.tail _ hd)
    refine ⟨fun d hd => ?_, fun j hj => ?_, fun j hj hmem => ?_, hrest.size, hrest.backing⟩
    · rcases mem_cons.mp hd with rfl | hd
      · exact (hrest.other _ hhead).trans setPage_pages_self
      · exact hrest.page d hd
    · rw [map_cons, mem_cons, not_or] at hj
      exact (hrest.other j hj.2).trans (setPage_pages_of_ne hj.1)
    · rw [map_cons, mem_cons, not_or] at hj
      exact hrest.listed j hj.2 ((mem_erase_of_ne hj.1).mpr hmem)

theorem Collected.index_of_getElem {k : ℕ} {c : ℕ × CachePage} (h : Collected m m' first batch)
    (hk : batch[k]? = some c) : c.1 = first + k := by
  have hmap : (batch.map fst)[k]? = some c.1 := by rw [getElem?_map, hk, map_some]
  have hlt : k < batch.length := (List.getElem?_eq_some_iff.mp hk).1
  rw [h.index, getElem?_range' hlt, Nat.one_mul] at hmap
  exact (some.inj hmap).symm

section

variable (h : m.Represents f) (hbatch : Collected m m' first batch) (hfull : FullBatch batch)

include h hbatch hfull

theorem Represents.carries_batch : m.Carries f (batch.map fst) (pageStart first) (writebackData batch).len
      (writebackData batch).get := by
  have hfits : ∀ c, c ∈ batch → c.2.Fits f c.1 (pageValidBytesForSize f.len c.1) false :=
    fun c hc => h.pages.page c.1 c.2 (hbatch.page c hc).1
  have hpos : 0 < pageSize := by decide
  constructor
  · intro x hx
    obtain ⟨block, hblock, hlt⟩ := hfull.exists_block hpos hx
    have hget := Slice.row_get hblock (Nat.mod_lt x hpos)
    rw [Nat.div_add_mod'] at hget
    rw [getElem?_map] at hblock
    obtain ⟨c, hc, rfl⟩ := map_eq_some_iff.mp hblock
    have hmem := mem_of_getElem? hc
    have hup := (hfits c hmem).fresh (hbatch.page c hmem).2
    have hvalid := (hfits c hmem).valid hup
    have hoff : pageStart first + x = pageStart c.1 + x % pageSize := by
      rw [hbatch.index_of_getElem hc]
      simp only [pageStart, pageSize]
      omega
    constructor
    · rwa [hoff, ← (hfits c hmem).byte hup (Nat.mod_lt x hpos)]
    · have hlt : x % pageSize < c.2.validBytes := hlt
      unfold pageValidBytesForSize at hvalid
      omega
  · intro i p hi hp x hx
    obtain ⟨c, hmem, rfl⟩ := mem_map.mp hi
    obtain rfl := some.inj ((hbatch.page c hmem).1.symm.trans hp)
    obtain ⟨k, hk⟩ := getElem?_of_mem hmem
    have hblock : (batch.map fun c => (⟨c.2.validBytes, c.2.bytes⟩ : Slice UInt8))[k]? =
        some ⟨c.2.validBytes, c.2.bytes⟩ := by
      rw [getElem?_map, hk, map_some]
    have hend : k * pageSize + c.2.validBytes ≤ (writebackData batch).len := hfull.end_le hblock
    have hstart : pageStart c.1 = pageStart first + k * pageSize := by
      rw [hbatch.index_of_getElem hk]
      exact Nat.add_mul first k pageSize
    omega

theorem Represents.flushWritebackBatch (hne : batch ≠ []) :
    Flushes m (m'.flushWritebackBatch batch) (batch.map fst) ∧
      (m'.flushWritebackBatch batch).Represents f := by
  have hhead : (batch.head?.map fst).getD 0 = first := by
    obtain ⟨c, rest, rfl⟩ := exists_cons_of_ne_nil hne
    exact hbatch.index_of_getElem (k := 0) rfl
  have hnodup : (batch.map fst).Nodup := hbatch.index ▸ nodup_range'
  have hfinish := finishBatch_finishes
    (m := { m' with
      backing := m'.backing.writeAt (pageStart first) (writebackData batch).len
        (writebackData batch).get })
    hnodup hbatch.marked
    fun c hc => ⟨(hbatch.page c hc).2, (h.pages.page c.1 c.2 (hbatch.page c hc).1).unmapped⟩
  have hflush : Flushes m (m'.flushWritebackBatch batch) (batch.map fst) := by
    unfold Mapping.flushWritebackBatch
    rw [hhead]
    refine ⟨fun i hi => ?_, fun i hi => (hfinish.other i hi).trans (hbatch.other i hi), fun i hi
      hmem => hfinish.listed i hi (hbatch.dirtyPages.symm ▸ hmem), hfinish.size.trans hbatch.size⟩
    obtain ⟨c, hc, rfl⟩ := mem_map.mp hi
    exact ⟨c.2, (hbatch.page c hc).1, (hbatch.page c hc).2, hfinish.page c hc⟩
  refine ⟨hflush, h.flush hflush (h.carries_batch hbatch hfull) ?_⟩
  unfold Mapping.flushWritebackBatch
  rw [hhead, ← hbatch.backing]
  exact hfinish.backing

end

/-! ## collect_writeback_batch -/

theorem Collected.nil (m : Mapping) (first : ℕ) : Collected m m first [] :=
  ⟨rfl, nofun, nofun, fun _ _ => rfl, rfl, rfl, rfl⟩

theorem Collected.snoc (h : Collected m m' first batch) (hi : i = first + batch.length)
    (hp : m.pages i = some p) (hd : p.dirty = true) :
    Collected m (m'.setPage i p.beginWriteback) first (batch ++ [(i, p)]) := by
  have hnew : i ∉ batch.map fst := by
    rw [h.index, mem_range'_1]
    omega
  have hindex : (batch ++ [(i, p)]).map fst = range' first (batch ++ [(i, p)]).length := by
    rw [map_append, h.index, length_append, ← range'_append_1, hi]
    rfl
  refine ⟨hindex, fun c hc => ?_, fun c hc => ?_, fun j hj => ?_, h.size, h.dirtyPages, h.backing⟩
  · rcases mem_append.mp hc with hc | hc
    · exact h.page c hc
    · rw [mem_singleton.mp hc]
      exact ⟨hp, hd⟩
  · rcases mem_append.mp hc with hc | hc
    · have hne : c.1 ≠ i := fun heq => hnew (heq ▸ mem_map_of_mem hc)
      exact (setPage_pages_of_ne hne).trans (h.marked c hc)
    · rw [mem_singleton.mp hc]
      exact setPage_pages_self
  · rw [map_append, mem_append, not_or] at hj
    have hne : j ≠ i := fun heq => hj.2 (mem_singleton.mpr heq)
    exact (setPage_pages_of_ne hne).trans (h.other j hj.1)

/-- The pages of the batch are full. -/
def Whole (batch : List (ℕ × CachePage)) : Prop := ∀ c, c ∈ batch → c.2.validBytes = pageSize

theorem Whole.fullBatch (h : Whole batch) : FullBatch batch := by
  refine .of_forall fun block hblock => ?_
  obtain ⟨c, hc, rfl⟩ := mem_map.mp hblock
  exact h c hc

theorem Whole.fullBatch_snoc (h : Whole batch) (hp : p.validBytes ≤ pageSize) :
    FullBatch (batch ++ [(i, p)]) := by
  unfold FullBatch
  rw [map_append]
  refine .append_last (fun block hblock => ?_) hp
  obtain ⟨c, hc, rfl⟩ := mem_map.mp hblock
  exact h c hc

theorem Whole.snoc (h : Whole batch) (hp : p.validBytes = pageSize) : Whole (batch ++ [(i, p)]) := by
  intro c hc
  rcases mem_append.mp hc with hc | hc
  · exact h c hc
  · rwa [mem_singleton.mp hc]

/-- A batch that `collect_writeback_batch` returns for the indices `l`. -/
structure Batched (m m' : Mapping) (first : ℕ) (l : List ℕ) (batch : List (ℕ × CachePage)) : Prop where
  collected : Collected m m' first batch
  full : FullBatch batch
  nonempty : batch ≠ []
  split : ∃ rest, l = batch.map Prod.fst ++ rest

section

variable (h : m.Represents f)
include h

/-- The loop, once it has collected a page. -/
theorem Represents.collect_cons (l : List ℕ) {batch : List (ℕ × CachePage)}
    (hbatch : Collected m m' first batch) (hwhole : Whole batch) (hne : batch ≠ []) :
    ∃ m'' result, collectWritebackBatch m' (first + batch.length) l batch = (m'', .batch result) ∧
      Batched m m'' first (batch.map fst ++ l) result := by
  induction l generalizing m' batch with
  | nil =>
    rw [collectWritebackBatch, closeBatch, if_neg (by simpa using hne)]
    exact ⟨m', batch, rfl, hbatch, hwhole.fullBatch, hne, [], rfl⟩
  | cons i l ih =>
    have hclose : ∃ m'' result, (m', BatchCollectResult.batch batch) = (m'', .batch result) ∧
        Batched m m'' first (batch.map fst ++ i :: l) result :=
      ⟨m', batch, rfl, hbatch, hwhole.fullBatch, hne, i :: l, rfl⟩
    have hnonempty : batch.isEmpty = false := by simpa using hne
    rw [collectWritebackBatch]
    simp only [closeBatch, hnonempty]
    split
    · exact hclose
    have hi : i = first + batch.length := by omega
    have hsame : m'.pages i = m.pages i := by
      refine hbatch.other i ?_
      rw [hbatch.index, mem_range'_1]
      omega
    rw [hsame]
    split
    · exact hclose
    rename_i p hp
    have hfits := h.pages.page i p hp
    have happend : batch.map fst ++ i :: l = (batch ++ [(i, p)]).map fst ++ l := by
      simp
    split
    · exact hclose
    split
    · exact hclose
    rename_i hd
    have hsnoc := hbatch.snoc hi hp (by simpa using hd)
    split
    · exact hclose
    split
    · -- a short page ends the batch
      rw [happend]
      exact ⟨_, _, rfl, hsnoc, hwhole.fullBatch_snoc (hfits.bound.trans (pageValidBytesForSize_le _
        _)), by simp, l, rfl⟩
    next hfull =>
      have hrest := ih hsnoc (hwhole.snoc (by simpa using hfull)) (by simp)
      rw [length_append] at hrest
      rwa [happend]

/-- What `collect_writeback_batch` returns for a list of indices. -/
theorem Represents.collect (i : ℕ) (l : List ℕ) : (∃ m' batch,
    collectWritebackBatch m i (i :: l) [] = (m', .batch batch) ∧ Batched m m' i (i :: l) batch) ∨
    (collectWritebackBatch m i (i :: l) [] = (m, .single i) ∧ ∃ p, m.pages i = some p) ∨
    (collectWritebackBatch m i (i :: l) [] = (m, .skip) ∧
      ∀ p, m.pages i = some p → p.dirty = false) := by
  rw [collectWritebackBatch]
  simp only [ne_eq]
  rw [if_neg (by decide)]
  split
  next hnone =>
    refine .inr (.inr ⟨rfl, fun p hp => ?_⟩)
    rw [hnone] at hp
    cases hp
  next p hp =>
    have hfits := h.pages.page i p hp
    rw [if_neg (hfits.writeback ▸ Bool.false_ne_true)]
    split
    next hd =>
      refine .inr (.inr ⟨rfl, fun q hq => ?_⟩)
      rw [← some.inj (hp.symm.trans hq)]
      simpa using hd
    next hd =>
      have hone := (Collected.nil m i).snoc rfl hp (by simpa using hd)
      have hwhole : Whole [] := nofun
      split
      · exact .inr (.inl ⟨rfl, p, hp⟩)
      refine .inl ?_
      split
      · exact ⟨_, _, rfl, hone,
          hwhole.fullBatch_snoc (hfits.bound.trans (pageValidBytesForSize_le _ _)), by simp, l, rfl⟩
      next hfull =>
        exact h.collect_cons l hone (hwhole.snoc (by simpa using hfull)) (by simp)

/-! ## sync_mapping -/

/-- The flush loop ends, leaves no page dirty and keeps the file. -/
theorem Represents.flushDirtyPages (l : List ℕ)
    (hl : ∀ i p, m.pages i = some p → p.dirty = true → i ∈ l) :
    ∃ m', (∀ fuel, l.length ≤ fuel → flushDirtyPages fuel m l = some m') ∧ m'.Represents f ∧
      ∀ i p, m'.pages i = some p → p.dirty = false := by
  -- each call of the collector takes an index off the list at least
  induction hlen : l.length using Nat.strong_induction_on generalizing m l with
  | _ n ih =>
    cases l with
    | nil =>
      refine ⟨m, fun fuel _ => by cases fuel <;> rfl, h, fun i p hp => ?_⟩
      rw [← Bool.not_eq_true]
      exact fun hd => not_mem_nil (hl i p hp hd)
    | cons i l =>
      rw [length_cons] at hlen
      -- the rest of the loop, from a mapping that stands for the same file
      have hstep : ∀ {m₁ : Mapping} (rest : List ℕ), rest.length < n → m₁.Represents f →
          (∀ j p, m₁.pages j = some p → p.dirty = true → j ∈ rest) →
          (∀ fuel, flushDirtyPages (fuel + 1) m (i :: l) = flushDirtyPages fuel m₁ rest) →
          ∃ m', (∀ fuel, n ≤ fuel → flushDirtyPages fuel m (i :: l) = some m') ∧
            m'.Represents f ∧ ∀ i p, m'.pages i = some p → p.dirty = false := by
        intro m₁ rest hlt hm₁ hrest heq
        obtain ⟨m', hrun, hm', hclean⟩ := ih rest.length hlt hm₁ rest hrest rfl
        refine ⟨m', fun fuel hfuel => ?_, hm', hclean⟩
        obtain ⟨fuel, rfl⟩ := Nat.exists_eq_succ_of_ne_zero (n := fuel) (by omega)
        rw [heq]
        exact hrun fuel (by omega)
      rcases h.collect i l with ⟨m₁, batch, hcollect, hbatched⟩ | ⟨hcollect, p, hp⟩ |
        ⟨hcollect, hclean⟩
      · obtain ⟨rest, hsplit⟩ := hbatched.split
        have hpos : 0 < batch.length := length_pos_of_ne_nil hbatched.nonempty
        obtain ⟨hflush, hm₁⟩ :=
          h.flushWritebackBatch hbatched.collected hbatched.full hbatched.nonempty
        have hdrop : (i :: l).drop (max batch.length 1) = rest := by
          rw [hsplit, max_eq_left hpos]
          exact drop_left' (length_map _)
        have hlength : l.length + 1 = batch.length + rest.length := by
          rw [← length_cons, hsplit, length_append, length_map]
        refine hstep rest (by omega) hm₁ (fun j q hq hd => ?_) fun fuel => ?_
        · rcases hflush.cases hq with ⟨hj, hq₀⟩ | ⟨-, q₀, -, -, rfl⟩
          · exact (mem_append.mp (hsplit ▸ hl j q hq₀ hd)).resolve_left hj
          · cases hd
        · rw [flushDirtyPages, hcollect, ← hdrop]
      · obtain ⟨m₁, hflush, hm₁, hother⟩ := h.flushPage hp
        refine hstep l (by omega) hm₁ (fun j q hq hd => ?_) fun fuel => ?_
        · obtain ⟨hne, hq₀⟩ := hother j q hq hd
          exact (mem_cons.mp (hl j q hq₀ hd)).resolve_left hne
        · rw [flushDirtyPages, hcollect]
          simp only [hflush, bind_some]
      · refine hstep l (by omega) h (fun j q hq hd => ?_) fun fuel => ?_
        · refine (mem_cons.mp (hl j q hq hd)).resolve_left ?_
          rintro rfl
          rw [hclean q hq] at hd
          cases hd
        · rw [flushDirtyPages, hcollect]

/-- A mapping without dirty pages: the backing file is the file. -/
theorem Represents.backing_eq (hclean : ∀ i p, m.pages i = some p → p.dirty = false) : m.backing = f := by
  refine SparseFile.ext ?_ (funext fun off => ?_)
  · rcases h.tail.flushed with hlen | ⟨p, hp, hd⟩
    · exact hlen
    · rw [hclean _ p hp] at hd
      cases hd
  · have hbyte := h.pages.clean (filePageIndex off) (hclean _) (filePageOffset off)
      (filePageOffset_lt off)
    rwa [pageStart_add_filePageOffset] at hbyte

theorem Represents.syncMapping :
    ∃ m', (∀ fuel, m.dirtyPages.length ≤ fuel → m.syncMapping fuel = some m') ∧ m'.Represents f ∧
      m'.backing = f := by
  obtain ⟨m', hrun, hm', hclean⟩ := h.flushDirtyPages m.dirtyPages h.pages.listed
  exact ⟨m', hrun, hm', hm'.backing_eq hclean⟩

/-! ## reclaim_one -/

theorem Represents.remove (hp : m.pages i = some p) (hd : p.dirty = false) :
    Represents { m with pages := update m.pages i none } f := by
  have hpages : ∀ j q, update m.pages i none j = some q → j ≠ i ∧ m.pages j = some q := by
    intro j q hq
    rcases eq_or_ne j i with rfl | hj
    · rw [update_self] at hq
      cases hq
    · exact ⟨hj, (update_of_ne hj ..).symm.trans hq⟩
  have hkept : ∀ j q, m.pages j = some q → q.dirty = true → update m.pages i none j = some q := by
    intro j q hq hdirty
    rw [update_of_ne, hq]
    rintro rfl
    rw [← some.inj (hp.symm.trans hq), hd] at hdirty
    cases hdirty
  refine ⟨⟨h.pages.size, fun j q hq => h.pages.page j q (hpages j q hq).2, fun j hclean => ?_,
    fun j q hq => h.pages.listed j q (hpages j q hq).2, h.pages.short⟩, ?_,
    fun hpos q hq => h.tail.ready hpos q (hpages _ q hq).2⟩
  · refine h.pages.clean j fun q hq => ?_
    rw [← Bool.not_eq_true]
    intro hdirty
    rw [hclean q (hkept j q hq hdirty)] at hdirty
    cases hdirty
  · exact h.tail.flushed.imp id fun ⟨q, hq, hdirty⟩ => ⟨q, hkept _ q hq hdirty, hdirty⟩

theorem Represents.reclaimOne (i : ℕ) : ∃ m', m.reclaimOne i = some m' ∧ m'.Represents f := by
  unfold Mapping.reclaimOne
  split
  · exact ⟨m, rfl, h⟩
  rename_i p hp
  split
  · exact ⟨m, rfl, h⟩
  split
  · exact ⟨_, rfl, h.touch hp false⟩
  split
  · obtain ⟨m', hm', hrep, -⟩ := h.flushPage hp
    exact ⟨m', hm', hrep⟩
  next hd =>
    exact ⟨_, rfl, h.remove hp (Bool.not_eq_true _ ▸ hd)⟩

end

end Mapping

end CosmOS.PageCache
