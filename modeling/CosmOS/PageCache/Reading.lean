import CosmOS.PageCache.Representation

/-!
# PageCache.Reading — loading a range and reading the file

`load_page_range` marks the pages of its range that have no data, reads them run by run and publishes
each page with what the run brought.  `Loading` is what holds meanwhile.  A short read leaves a page
without data, but never the last page of the file.

`read_mapping` copies page by page.  Each page it comes to shows at least one more byte, so the loops
end, and what they have copied is the file's (`Copied`).
-/

namespace CosmOS.PageCache

open PageCache

open List Option

namespace Mapping

open Mapping

variable {m m' : Mapping} {f : File} {p q : CachePage} {i first : ℕ} {marked run rest : List ℕ}
  {frames : Frames}

/-! ## load_page_range -/

/-- The mapping stands for `f` while the pages `marked` are being loaded. -/
structure Loading (m : Mapping) (f : File) (marked : List ℕ) : Prop where
  pages : m.Pages f marked (pageValidBytesForSize f.len)
  flushed : m.backing.len = f.len ∨ ∃ p, m.pages (tailPage f) = some p ∧ p.dirty = true
  ready : 0 < f.len → ∀ p, m.pages (tailPage f) = some p → p.uptodate = true ∨ tailPage f ∈ marked
  cached : ∀ i, i ∈ marked → m.pages i ≠ none
  nodup : marked.Nodup

theorem Represents.loading (h : m.Represents f) : m.Loading f [] :=
  ⟨h.pages, h.tail.flushed, fun hpos p hp => .inl (h.tail.ready hpos p hp), nofun, nodup_nil⟩

theorem Loading.represents (h : m.Loading f []) : m.Represents f :=
  ⟨h.pages, h.flushed, fun hpos p hp => (h.ready hpos p hp).resolve_right not_mem_nil⟩

theorem Loading.mark (h : m.Loading f marked) (hi : i ∉ marked)
    (hq : q.Fits f i (pageValidBytesForSize f.len i) true) (hd : q.dirty = false)
    (hclean : ∀ p, m.pages i = some p → p.dirty = false) :
    (m.setPage i q).Loading f (marked ++ [i]) := by
  have hmem : i ∈ marked ++ [i] := mem_append_right _ (mem_singleton_self i)
  refine ⟨?_, ?_, fun hpos p hp => ?_, fun j hj => ?_, ?_⟩
  · refine h.pages.update (decide_eq_true hmem ▸ hq) (fun j hj => ?_) (fun _ _ => rfl) (fun _ =>
      h.pages.clean i hclean) (fun hdirty => ?_) (fun _ _ => id) rfl fun _ _ => rfl
    · rw [mem_append, mem_singleton]
      exact or_iff_left hj
    · rw [hd] at hdirty
      cases hdirty
  · refine h.flushed.imp id fun ⟨p, hp, hdirty⟩ => ?_
    by_cases hj : tailPage f = i
    · rw [hclean p (hj ▸ hp)] at hdirty
      cases hdirty
    · exact ⟨p, (setPage_pages_of_ne hj).trans hp, hdirty⟩
  · by_cases hj : tailPage f = i
    · exact .inr (hj ▸ hmem)
    · rw [setPage_pages_of_ne hj] at hp
      exact (h.ready hpos p hp).imp id (mem_append_left [i])
  · by_cases hji : j = i
    · rw [hji, setPage_pages_self]
      exact some_ne_none q
    · rw [setPage_pages_of_ne hji]
      rw [mem_append, mem_singleton] at hj
      exact h.cached j (hj.resolve_right hji)
  · refine nodup_append.mpr ⟨h.nodup, nodup_singleton i, fun j hj k hk hjk => ?_⟩
    exact hi (mem_singleton.mp hk ▸ hjk ▸ hj)

theorem Loading.markRange (frames : Frames) (l : List ℕ) (h : m.Loading f marked) :
    (markRange frames l m marked).1.Loading f (markRange frames l m marked).2 := by
  induction l generalizing m marked with
  | nil => exact h
  | cons i l ih =>
    rw [markRange]
    cases hp : m.pages i with
    | some p =>
      have hfits := h.pages.page i p hp
      rw [getOrCreatePage_of_some hp, page_of_some hp]
      split
      · exact ih h
      rename_i hcond
      have hnot : p.uptodate = false ∧ p.loading = false := by simpa using hcond
      have hi : i ∉ marked := by simpa using hfits.loading.symm.trans hnot.2
      have hd := hfits.dirty_of_stale hnot.1
      refine ih (h.mark hi (hfits.beginLoad hnot.1) hd fun q hq => ?_)
      rwa [← some.inj (hp.symm.trans hq)]
    | none =>
      -- a new page is marked at once
      have hcreate : m.getOrCreatePage frames i = m.setPage i (CachePage.new i (frames i)) := by
        unfold getOrCreatePage
        rw [hp]
      have hi : i ∉ marked := fun hmem => h.cached i hmem hp
      have hfits := CachePage.Fits.new f i (frames i) (pageValidBytesForSize f.len i)
      rw [hcreate, setPage_page_self, setPage_setPage]
      refine ih (h.mark hi (hfits.beginLoad rfl) rfl fun q hq => ?_)
      rw [hp] at hq
      cases hq

/-- The page `q` is `p` with its first `k` bytes from the file, published as far as they go. -/
structure Brought (f : File) (i k : ℕ) (p q : CachePage) : Prop where
  index : q.index = p.index
  loading : q.loading = false
  writeback : q.writeback = p.writeback
  mapCount : q.mapCount = p.mapCount
  dirty : q.dirty = p.dirty
  bytes : ∀ x, x < pageSize → q.bytes x = if x < k then f.byte (pageStart i + x) else p.bytes x
  valid_le : q.validBytes ≤ k
  bound : q.validBytes ≤ pageValidBytesForSize f.len i
  uptodate : q.uptodate = decide (q.validBytes = pageValidBytesForSize f.len i)

theorem Brought.fits {v k : ℕ} {b : Bool} (h : Brought f i k p q) (hp : p.Fits f i v b)
    (hup : p.uptodate = false) : q.Fits f i (pageValidBytesForSize f.len i) false where
  index := h.index.trans hp.index
  __ := h
  writeback := h.writeback.trans hp.writeback
  unmapped := h.mapCount.trans hp.unmapped
  bytes := fun x hx => by
    rw [h.bytes x hx]
    split
    · exact .inl rfl
    by_cases hq : q.uptodate = true
    · -- all bytes of the page that are in the file were brought
      have hvalid : q.validBytes = pageValidBytesForSize f.len i :=
        of_decide_eq_true (h.uptodate ▸ hq)
      have hle := h.valid_le
      refine .inl (hp.byte_of_zero hx (f.zeroed _ ?_))
      unfold pageValidBytesForSize at hvalid
      omega
    · exact (hp.bytes x hx).imp id fun hzero => ⟨Bool.not_eq_true _ ▸ hq, hzero.2⟩
  valid := fun hq => of_decide_eq_true (h.uptodate ▸ hq)
  fresh := fun hd => by
    rw [h.dirty, hp.dirty_of_stale hup] at hd
    cases hd
  stale := fun hl => by
    rw [h.loading] at hl
    cases hl

/-- The page after the iteration of `finish_page_run` for a page that the run has not filled. -/
theorem brought_finishRun (p : CachePage) (pageOffset read : ℕ) (buffered : Option (Slice UInt8))
    (hget : ∀ buffer, buffered = some buffer → ∀ x, x < pageSize → pageOffset + x < read →
    buffer.get (pageOffset + x) = f.byte (pageStart i + x)) (hread : buffered = none → read = 0) :
    Brought f i ((p.finishRun i f.len pageOffset read buffered).validBytes) p
      (p.finishRun i f.len pageOffset read buffered) := by
  refine ⟨rfl, rfl, rfl, rfl, rfl, fun x hx => ?_, le_rfl, ?_, rfl⟩
  · cases buffered with
    | none =>
      have hzero : (p.finishRun i f.len pageOffset read none).validBytes = 0 := by
        show min (read - pageOffset) _ = 0
        rw [hread rfl, Nat.zero_sub, Nat.zero_min]
      rw [hzero]
      rfl
    | some buffer =>
      show blit p.bytes 0 _ (fun x => buffer.get (pageOffset + x)) x = _
      split
      next hlt =>
        rw [blit_of_mem (Nat.zero_le x) (by rwa [Nat.zero_add])]
        refine hget buffer rfl x hx ?_
        have hlt : x < min (min (read - pageOffset) (pageValidBytesForSize f.len i))
          (buffer.len - pageOffset) := hlt
        omega
      next hlt =>
        exact blit_of_ge (by rw [Nat.zero_add]; exact Nat.not_lt.mp hlt)
  · cases buffered with
    | none => exact min_le_right _ _
    | some buffer => exact le_trans (min_le_left _ _) (min_le_right _ _)

/-- The page after the iteration of `finish_page_run` for a page that the device has filled. -/
theorem brought_fill {pageOffset read : ℕ} {src : ℕ → UInt8}
    (hsrc : ∀ x, x < pageSize → pageOffset + x < read → src x = f.byte (pageStart i + x)) :
    Brought f i (min (read - pageOffset) pageSize) p
      ((p.fill (min (read - pageOffset) pageSize) src).finishRun i f.len pageOffset read none) := by
  refine ⟨rfl, rfl, rfl, rfl, rfl, fun x hx => ?_, ?_, min_le_right _ _, rfl⟩
  · show blit p.bytes 0 _ src x = _
    split
    next hlt =>
      rw [blit_of_mem (Nat.zero_le x) (by rwa [Nat.zero_add])]
      exact hsrc x hx (by omega)
    next hlt =>
      exact blit_of_ge (by omega)
  · have hpage := pageValidBytesForSize_le f.len i
    show min (read - pageOffset) (pageValidBytesForSize f.len i) ≤ min (read - pageOffset) pageSize
    omega

/-- One page of a run that `load_page_run` has read: it shows what was read of it, and all of it if the
backing file is complete. -/
theorem Loading.loadPageRun_page (h : m.Loading f marked) (hrun : OrderedRun id run) (hi : i ∈ run)
    (hmarked : i ∈ marked) (hp : m.pages i = some p) :
    ∃ q k, (m.loadPageRun run).pages i = some q ∧ Brought f i k p q ∧
      (m.backing.len = f.len → q.validBytes = pageValidBytesForSize f.len i) := by
  have hfits := h.pages.page i p hp
  rw [decide_eq_true hmarked] at hfits
  have hup := hfits.stale hfits.loading
  obtain ⟨first, last, hfirst, hlast⟩ := run_ends hi
  have hle : first ≤ i := (hrun i hi).1 first hfirst
  have hge : i ≤ last := (hrun i hi).2 last hlast
  -- the page is clean, so the backing file has its bytes
  have hbyte : ∀ x, x < pageSize → m.backing.byte (pageStart first + (i - first) * pageSize + x) =
      f.byte (pageStart i + x) := by
    intro x hx
    have hstart : pageStart first + (i - first) * pageSize = pageStart i := by
      simp only [pageStart, pageSize]
      omega
    rw [hstart]
    refine h.pages.clean i (fun q hq => ?_) x hx
    rw [← some.inj (hp.symm.trans hq)]
    exact hfits.dirty_of_stale hup
  -- and the run covers what the file has of the page
  have hcover : (i - first) * pageSize + pageValidBytesForSize f.len i ≤
      min f.len (pageStart last + pageSize) - pageStart first ∨ pageValidBytesForSize f.len i = 0 := by
    simp only [pageValidBytesForSize, pageStart, pageSize]
    omega
  unfold loadPageRun
  simp only [hfirst, hlast, getD_some, h.pages.size]
  split
  next hstop =>
    have hbrought : Brought f i _ p (p.finishRun i f.len ((i - first) * pageSize) 0 none) :=
      brought_finishRun p _ 0 none (by rintro _ ⟨⟩) fun _ => rfl
    refine ⟨_, _, (if_pos hi).trans (by rw [page_of_some hp]), hbrought, fun _ => ?_⟩
    show min (0 - (i - first) * pageSize) (pageValidBytesForSize f.len i) = _
    omega
  · split
    · -- the frames are filled in place
      have hpage : ∀ read, (m.fillRun run first (pageStart first) read).page i =
          p.fill (min (read - (i - first) * pageSize) pageSize) fun x =>
            m.backing.byte (pageStart first + (i - first) * pageSize + x) := by
        intro read
        refine page_of_some ((if_pos hi).trans ?_)
        rw [page_of_some hp]
      refine ⟨_, _, (if_pos hi).trans (by rw [hpage]), brought_fill fun x hx _ => hbyte x hx,
        fun hlen => ?_⟩
      show min (min _ (m.backing.len - pageStart first) - (i - first) * pageSize) _ = _
      omega
    · -- through a buffer
      refine ⟨_, _, (if_pos hi).trans (congrArg (fun p : CachePage => some (p.finishRun ..))
        (page_of_some hp)), brought_finishRun p _ _ _ ?_ ?_, fun hlen => ?_⟩
      · rintro _ ⟨⟩ x hx hlt
        refine (if_pos hlt).trans ?_
        rw [← Nat.add_assoc]
        exact hbyte x hx
      · rintro ⟨⟩
      · show min (min (min _ (m.backing.len - pageStart first) - (i - first) * pageSize) _)
          (min f.len (pageStart last + pageSize) - pageStart first - (i - first) * pageSize) = _
        omega

theorem loadPageRun_pages_of_not_mem (hi : i ∉ run) : (m.loadPageRun run).pages i = m.pages i := by
  unfold loadPageRun
  dsimp only
  split
  · exact if_neg hi
  · split
    · exact (if_neg hi).trans (if_neg hi)
    · exact if_neg hi

theorem loadPageRun_rest (m : Mapping) (run : List ℕ) :
    (m.loadPageRun run).size = m.size ∧ (m.loadPageRun run).backing = m.backing ∧
      (m.loadPageRun run).dirtyPages = m.dirtyPages := by
  unfold loadPageRun
  dsimp only
  split
  · exact ⟨rfl, rfl, rfl⟩
  · split <;> exact ⟨rfl, rfl, rfl⟩

theorem Loading.loadPageRun_cases (h : m.Loading f (run ++ rest))
    (hrun : OrderedRun id run) (hq : (m.loadPageRun run).pages i = some q) :
    i ∉ run ∧ m.pages i = some q ∨
      i ∈ run ∧ i ∉ rest ∧ q.dirty = false ∧ q.Fits f i (pageValidBytesForSize f.len i) false ∧
        (m.backing.len = f.len → q.uptodate = true) := by
  by_cases hi : i ∈ run
  · have hmarked : i ∈ run ++ rest := mem_append_left rest hi
    have hrest : i ∉ rest := fun hrest => (nodup_append.mp h.nodup).2.2 i hi i hrest rfl
    obtain ⟨p, hp⟩ := ne_none_iff_exists'.mp (h.cached i hmarked)
    obtain ⟨q', k, hq', hbrought, hfull⟩ := h.loadPageRun_page hrun hi hmarked hp
    obtain rfl := some.inj (hq.symm.trans hq')
    have hfits := h.pages.page i p hp
    have hup : p.uptodate = false := hfits.stale (hfits.loading.trans (decide_eq_true hmarked))
    refine .inr ⟨hi, hrest, hbrought.dirty.trans (hfits.dirty_of_stale hup), hbrought.fits hfits hup,
      fun hlen => ?_⟩
    rw [hbrought.uptodate]
    exact decide_eq_true (hfull hlen)
  · exact .inl ⟨hi, (loadPageRun_pages_of_not_mem hi).symm.trans hq⟩

/-- A run of marked pages is loaded; the others stay marked. -/
theorem Loading.loadPageRun (h : m.Loading f (run ++ rest))
    (hrun : OrderedRun id run) : (m.loadPageRun run).Loading f rest := by
  obtain ⟨hsize, hbacking, hdirty⟩ := loadPageRun_rest m run
  -- a dirty page is in no run
  have hkeep : ∀ i p, m.pages i = some p → p.dirty = true → (m.loadPageRun run).pages i = some p := by
    intro i p hp hd
    refine (loadPageRun_pages_of_not_mem fun hi => ?_).trans hp
    have hfits := h.pages.page i p hp
    have hmarked := decide_eq_true (subset_append_left run rest hi)
    cases (hfits.stale (hfits.loading.trans hmarked)).symm.trans (hfits.fresh hd)
  have hflushed := h.flushed
  refine ⟨⟨hsize.trans h.pages.size, fun i q hq => ?_, fun i hclean => ?_, fun i q hq hd => ?_,
    hbacking ▸ h.pages.short⟩, ?_, fun hpos q hq => ?_, fun i hi => ?_, ?_⟩
  · rcases h.loadPageRun_cases hrun hq with ⟨hi, hp⟩ | ⟨hi, hrest, -, hfits, -⟩
    · have hfits := h.pages.page i q hp
      rwa [decide_eq_decide.mpr (show i ∈ run ++ rest ↔ i ∈ rest by
        rw [mem_append]; exact or_iff_right hi)] at hfits
    · exact decide_eq_false hrest ▸ hfits
  · rw [hbacking]
    refine h.pages.clean i fun p hp => ?_
    rw [← Bool.not_eq_true]
    intro hd
    rw [hclean p (hkeep i p hp hd)] at hd
    cases hd
  · rcases h.loadPageRun_cases hrun hq with ⟨-, hp⟩ | ⟨-, -, hclean, -⟩
    · exact hdirty ▸ h.pages.listed i q hp hd
    · rw [hclean] at hd
      cases hd
  · rw [hbacking]
    exact hflushed.imp id fun ⟨p, hp, hd⟩ => ⟨p, hkeep _ p hp hd, hd⟩
  · rcases h.loadPageRun_cases hrun hq with ⟨hi, hp⟩ | ⟨-, -, hclean, -, hfull⟩
    · refine (h.ready hpos q hp).imp id fun hmem => ?_
      exact (mem_append.mp hmem).resolve_left hi
    -- the last page is clean, so the backing file is complete
    refine .inl (hfull (hflushed.resolve_right ?_))
    rintro ⟨p, hp, hd⟩
    rw [some.inj (hq.symm.trans (hkeep _ p hp hd)), hd] at hclean
    cases hclean
  · have hnot : i ∉ run := fun hrun => (nodup_append.mp h.nodup).2.2 i hrun i hi rfl
    rw [loadPageRun_pages_of_not_mem hnot]
    exact h.cached i (mem_append_right run hi)
  · exact (nodup_append.mp h.nodup).2.1

theorem Loading.loadRuns {fuel : ℕ} (h : m.Loading f marked) (hfuel : marked.length ≤ fuel) :
    (loadRuns fuel m marked).Represents f := by
  induction fuel generalizing m marked with
  | zero =>
    rw [eq_nil_of_length_eq_zero (Nat.le_zero.mp hfuel)] at h
    exact h.represents
  | succ fuel ih =>
    cases marked with
    | nil => exact h.represents
    | cons i l =>
      have happend := splitRun_append id (i :: l)
      obtain ⟨run, hhead⟩ := splitRun_head id i l
      refine ih (Loading.loadPageRun (happend.symm ▸ h) (splitRun_ordered _)) ?_
      have hlen := congrArg length happend
      rw [hhead, length_append, length_cons, length_cons] at hlen
      rw [length_cons] at hfuel
      omega

theorem Represents.loadPageRange (h : m.Represents f) (frames : Frames) (first count : ℕ) :
    (m.loadPageRange frames first count).Represents f :=
  (h.loading.markRange frames (range' first count)).loadRuns le_rfl

/-! ## read_mapping -/

/-- `get_or_load_page` returns a page that shows the file. -/
theorem Represents.getOrLoadPage (h : m.Represents f) (frames : Frames) (i : ℕ) :
    ∃ m' q, m.getOrLoadPage frames i = some m' ∧ m'.Represents f ∧ m'.page i = q ∧
      q.uptodate = true ∧ q.Fits f i (pageValidBytesForSize f.len i) false := by
  have hm := h.pages.getOrCreatePage (i := i) frames fun _ => not_mem_nil
  obtain ⟨p, hp⟩ := m.getOrCreatePage_pages frames i
  have hfits := hm.page i p hp
  obtain ⟨q, hq, hup, hdirty, hqfits, hsame, hload⟩ := hm.ensurePageUptodate hp
  have hvalid : q.validBytes = pageValidBytesForSize f.len i := by
    cases hcase : p.uptodate with
    | true => exact (hsame hcase).trans (hfits.valid hcase)
    | false => exact hload hcase
  rw [hvalid] at hqfits
  refine ⟨_, q, hq, ⟨hm.setPage hp hqfits (fun _ _ => Iff.rfl) (fun _ _ => rfl) hdirty, ?_⟩,
    setPage_page_self, hup, hqfits⟩
  refine h.tail.replace (fun j hj => (setPage_pages_of_ne hj).trans (getOrCreatePage_of_ne hj))
    setPage_pages_self getOrCreatePage_backing (fun p₀ hp₀ => ?_) fun _ _ => hup
  rw [getOrCreatePage_of_some hp₀, hp₀] at hp
  rw [hdirty, some.inj hp]

end Mapping

/-- What a call of `read_mapping` has copied so far is the file's. -/
structure ReadCall.Copied (r : ReadCall) (f : File) : Prop where
  stop_le : r.stop ≤ f.len
  done_le : r.fileOff ≤ r.stop
  bytes : ∀ x, x < r.done → r.out x = f.byte (r.offset + x)

open ReadCall

section Read

variable {m m' : Mapping} {f : File} {r r' : ReadCall} {p : CachePage}

theorem ReadCall.Copied.copy (h : r.Copied f)
    (hp : p.Fits f r.pageIdx (pageValidBytesForSize f.len r.pageIdx) false)
    (hup : p.uptodate = true) : (r.copy p).Copied f := by
  have hvalid := hp.valid hup
  have hdone := h.done_le
  have hpage := pageValidBytesForSize_le f.len r.pageIdx
  refine ⟨h.stop_le, ?_, fun x hx => ?_⟩
  · show r.offset + (r.done + min (p.validBytes - r.pageOff) (r.stop - r.fileOff)) ≤ r.stop
    unfold fileOff at *
    omega
  · show blit r.out r.done (r.readable p) (fun x => p.bytes (r.pageOff + x)) x = _
    have hx : x < r.done + r.readable p := hx
    by_cases hnew : r.done ≤ x
    · have hlt : r.pageOff + (x - r.done) < pageSize := by
        unfold readable at hx
        omega
      have hoff : pageStart r.pageIdx + r.pageOff = r.fileOff := pageStart_add_filePageOffset _
      have hfile : pageStart r.pageIdx + (r.pageOff + (x - r.done)) = r.offset + x := by
        unfold fileOff at hoff
        omega
      rw [blit_of_mem hnew hx, show (r.copy p).offset = r.offset from rfl, ← hfile]
      exact hp.byte hup hlt
    · rw [blit_of_lt (by omega)]
      exact h.bytes x (by omega)

/-- What the loops of `read_mapping` do not touch. -/
structure ReadCall.Goes (r r' : ReadCall) : Prop where
  offset : r'.offset = r.offset
  stop : r'.stop = r.stop
  windowDone : r'.windowDone = r.windowDone
  done : r.done ≤ r'.done

theorem ReadCall.Goes.refl (r : ReadCall) : r.Goes r := ⟨rfl, rfl, rfl, le_rfl⟩

/-- The inner loop copies until the window ends. -/
theorem Mapping.Represents.readInner (frames : Frames) (h : m.Represents f) (hr : r.Copied f) :
    ∃ m' r', (∀ fuel, r.stop - r.fileOff < fuel → readInner frames fuel m r = some (m', r')) ∧
      m'.Represents f ∧ r'.Copied f ∧ r.Goes r' ∧
      ¬ (r'.fileOff < r'.stop ∧ r'.done < r'.windowDone) := by
  -- each page gives a byte at least
  induction hleft : r.stop - r.fileOff using Nat.strong_induction_on generalizing m r with
  | _ left ih =>
    by_cases hcond : r.fileOff < r.stop ∧ r.done < r.windowDone
    · obtain ⟨m₁, q, hload, hm₁, hpage, hup, hfits⟩ := h.getOrLoadPage frames r.pageIdx
      have hpos : 0 < r.readable q := by
        have hvalid := hfits.valid hup
        have hoff : r.pageOff < pageValidBytesForSize f.len r.pageIdx :=
          filePageOffset_lt_valid (lt_of_lt_of_le hcond.1 hr.stop_le)
        unfold ReadCall.readable
        omega
      have hless : (r.copy q).stop - (r.copy q).fileOff < left := by
        show r.stop - (r.offset + (r.done + r.readable q)) < left
        have hlt : r.offset + r.done < r.stop := hcond.1
        unfold fileOff at hleft
        omega
      obtain ⟨m', r', hrun, hm', hr', hgoes, hend⟩ := ih _ hless hm₁ (hr.copy hfits hup) rfl
      refine ⟨m', r', fun fuel hfuel => ?_, hm', hr', ⟨hgoes.offset, hgoes.stop, hgoes.windowDone,
        Nat.le_trans (Nat.le_add_right _ _) hgoes.done⟩, hend⟩
      obtain ⟨fuel, rfl⟩ := Nat.exists_eq_succ_of_ne_zero (n := fuel) (by omega)
      rw [readInner, if_pos hcond, hload, bind_some, hpage, if_neg (by omega)]
      exact hrun fuel (by omega)
    · refine ⟨m, r, fun fuel hfuel => ?_, h, hr, .refl r, hcond⟩
      obtain ⟨fuel, rfl⟩ := Nat.exists_eq_succ_of_ne_zero (n := fuel) (by omega)
      rw [readInner, if_neg hcond]

theorem ReadCall.lt_openWindow (h : r.fileOff < r.stop) : r.done < r.openWindow.windowDone := by
  have hstart : r.fileOff < pageStart r.pageIdx + pageSize * readBatchPages := by
    simp only [pageIdx, pageStart, filePageIndex, pageSize, readBatchPages]
    omega
  show r.done < r.done + (min r.stop (pageStart r.pageIdx + pageSize * readBatchPages) - r.fileOff)
  omega

/-- The outer loop copies until the end of the call. -/
theorem Mapping.Represents.readOuter (frames : Frames) (h : m.Represents f) (hr : r.Copied f) :
    ∃ m' r', (∀ fuel, r.stop - r.fileOff + 1 < fuel → readOuter frames fuel m r = some (m', r')) ∧
      m'.Represents f ∧ r'.Copied f ∧ r'.offset = r.offset ∧ r'.fileOff = r.stop := by
  -- each window is copied to its end
  induction hleft : r.stop - r.fileOff using Nat.strong_induction_on generalizing m r with
  | _ left ih =>
    by_cases hlt : r.fileOff < r.stop
    · have hload := h.loadPageRange frames r.pageIdx r.windowPages
      have hopen : r.openWindow.Copied f := { hr with }
      obtain ⟨m₁, r₁, hinner, hm₁, hr₁, hgoes, hend⟩ := hload.readInner frames hopen
      have hwindow := lt_openWindow hlt
      have hless : r₁.stop - r₁.fileOff < left := by
        have hoffset : r₁.offset = r.offset := hgoes.offset
        have hstop : r₁.stop = r.stop := hgoes.stop
        rw [hgoes.windowDone] at hend
        unfold fileOff at *
        omega
      obtain ⟨m', r', houter, hm', hr', hoffset, hstop⟩ := ih _ hless hm₁ hr₁ rfl
      refine ⟨m', r', fun fuel hfuel => ?_, hm', hr', hoffset.trans hgoes.offset,
        hstop.trans hgoes.stop⟩
      obtain ⟨fuel, rfl⟩ := Nat.exists_eq_succ_of_ne_zero (n := fuel) (by omega)
      have hwindow : r.openWindow.stop - r.openWindow.fileOff = left := hleft
      rw [readOuter, if_pos hlt, hinner fuel (by omega)]
      exact houter fuel (by omega)
    · refine ⟨m, r, fun fuel hfuel => ?_, h, hr, rfl, le_antisymm hr.done_le (by omega)⟩
      obtain ⟨fuel, rfl⟩ := Nat.exists_eq_succ_of_ne_zero (n := fuel) (by omega)
      rw [readOuter, if_neg hlt]

end Read

/-- The answer of a read: the bytes of the file from `offset` on, `len` of them or up to its end. -/
structure Answers (f : File) (offset len : ℕ) (bytes : Slice UInt8) : Prop where
  len : bytes.len = min len (f.len - offset)
  get : ∀ x, x < bytes.len → bytes.get x = f.byte (offset + x)

namespace Mapping

variable {m : Mapping} {f : File} {offset len : ℕ}

theorem Represents.readSlow (h : m.Represents f) (frames : Frames) (offset len : ℕ) :
    ∃ m' bytes, (∀ fuel, len + 1 < fuel → m.readSlow fuel frames offset len = some (m', bytes)) ∧
      m'.Represents f ∧ Answers f offset len bytes := by
  have hsize := h.pages.size
  unfold Mapping.readSlow
  by_cases hend : m.size ≤ offset
  · simp only [hend]
    exact ⟨m, _, fun _ _ => rfl, h, by simp only; omega, nofun⟩
  simp only [hend]
  have hr : (⟨offset, min m.size (offset + len), 0, 0, fun _ => 0⟩ : ReadCall).Copied f :=
    ⟨by simp only; omega, by unfold fileOff; simp only; omega, nofun⟩
  obtain ⟨m', r', hrun, hm', hr', hoffset, hstop⟩ := h.readOuter frames hr
  refine ⟨m', ⟨r'.done, r'.out⟩, fun fuel hfuel => ?_, hm', ?_, fun x hx => ?_⟩
  · rw [hrun fuel (by unfold fileOff; simp only; omega)]
    rfl
  · unfold fileOff at hstop
    simp only at hstop hoffset ⊢
    omega
  · show r'.out x = _
    rw [hr'.bytes x hx, hoffset]

/-- The fast path gives the answer or nothing. -/
theorem Represents.readHit (h : m.Represents f) (hpage : readStaysWithinPage offset len = true) :
    (m.readHit offset len).1.Represents f ∧
      ∀ bytes, (m.readHit offset len).2 = some bytes → Answers f offset len bytes := by
  have hsize := h.pages.size
  unfold Mapping.readHit
  split
  · refine ⟨h, ?_⟩
    rintro _ ⟨⟩
    exact ⟨by simp only; omega, fun x hx => absurd hx (Nat.not_lt_zero x)⟩
  next hend =>
    split
    · exact ⟨h, by rintro _ ⟨⟩⟩
    rename_i p hp
    have htouch := h.touch hp true
    have hfits := h.pages.page _ p hp
    split
    next hup =>
      have hvalid := hfits.valid hup
      have hsame : filePageIndex offset = filePageIndex (offset + (len - 1)) :=
        of_decide_eq_true hpage
      -- the answer ends inside the page
      have hwithin : min m.size (offset + len) - offset ≤ p.validBytes - filePageOffset offset := by
        simp only [pageValidBytesForSize, pageStart, filePageIndex, filePageOffset, pageSize] at *
        omega
      refine ⟨htouch, ?_⟩
      rintro _ ⟨⟩
      refine ⟨by simp only; omega, fun x hx => ?_⟩
      have hoff := pageStart_add_filePageOffset offset
      have hbound := pageValidBytesForSize_le f.len (filePageIndex offset)
      have hx : x < min (p.validBytes - filePageOffset offset) (min m.size (offset + len) - offset) :=
        hx
      show p.bytes (filePageOffset offset + x) = _
      rw [hfits.byte hup (by omega), ← Nat.add_assoc, hoff]
    · exact ⟨htouch, by rintro _ ⟨⟩⟩

theorem Represents.readMapping (h : m.Represents f) (frames : Frames) (offset len : ℕ) :
    ∃ m' bytes, (∀ fuel, len + 1 < fuel → m.readMapping fuel frames offset len = some (m', bytes)) ∧
      m'.Represents f ∧ Answers f offset len bytes := by
  unfold Mapping.readMapping
  by_cases hlen : len = 0
  · simp only [hlen]
    exact ⟨m, _, fun _ _ => rfl, h, by simp only; omega, nofun⟩
  simp only [hlen]
  by_cases hpage : readStaysWithinPage offset len = true
  · simp only [hpage]
    obtain ⟨hhit, hanswer⟩ := h.readHit hpage
    generalize m.readHit offset len = result at hhit hanswer
    obtain ⟨m₁, answer⟩ := result
    cases answer with
    | some bytes => exact ⟨m₁, bytes, fun _ _ => rfl, hhit, hanswer bytes rfl⟩
    | none => exact hhit.readSlow frames offset len
  · simp only [hpage]
    exact h.readSlow frames offset len

end Mapping

end CosmOS.PageCache
