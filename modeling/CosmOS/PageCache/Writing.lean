import CosmOS.PageCache.Representation

/-!
# PageCache.Writing — a write to the mapping is a write to the file

`write_mapping` stores a new size first and then visits the pages of its range one after the other.
While it does, the mapping stands for the file as far as it has been written: the pages that are still
to come show the file up to its old size, all others up to the new one.  `Writing` is that invariant,
`Writing.writePage` the step and `Writing.writeLoop` the loop.
-/

namespace CosmOS.PageCache

namespace WriteCall

variable (w : WriteCall)

/-- The page of the last byte of the call. -/
def lastIdx : ℕ := filePageIndex (w.offset + w.buf.len - 1)

/-- The call has still to visit the page `i`. -/
def Pending (i : ℕ) : Prop := w.done < w.buf.len ∧ w.pageIdx ≤ i ∧ i ≤ w.lastIdx

instance (i : ℕ) : Decidable (w.Pending i) := inferInstanceAs (Decidable (_ ∧ _))

/-- How many valid bytes a page with data has in the middle of the call. -/
def valid (size i : ℕ) : ℕ := pageValidBytesForSize (if w.Pending i then w.oldSize else size) i

variable {w}

theorem writable_pos (h : w.done < w.buf.len) : 0 < w.writable := by
  have hoff : w.pageOff < pageSize := filePageOffset_lt w.fileOff
  unfold writable
  omega

theorem next_done_le (h : w.done < w.buf.len) : w.next.done ≤ w.buf.len := by
  show w.done + min (pageSize - w.pageOff) (w.buf.len - w.done) ≤ w.buf.len
  omega

theorem next_fileOff (w : WriteCall) : w.next.fileOff = w.fileOff + w.writable :=
  (Nat.add_assoc _ _ _).symm

theorem next_src (w : WriteCall) : w.next.src = fun x => w.src (w.writable + x) := by
  funext x
  exact congrArg w.buf.get (Nat.add_assoc _ _ _)

/-- The step takes the pending page with the lowest index. -/
theorem pending_next (h : w.done < w.buf.len) (i : ℕ) :
    w.next.Pending i ↔ w.Pending i ∧ i ≠ w.pageIdx := by
  simp only [Pending, next, pageIdx, lastIdx, fileOff, writable, pageOff, filePageIndex,
    filePageOffset, pageSize]
  omega

theorem valid_next_of_ne (h : w.done < w.buf.len) {size i : ℕ} (hi : i ≠ w.pageIdx) :
    w.next.valid size i = w.valid size i := by
  have hiff : w.next.Pending i ↔ w.Pending i := by
    rw [pending_next h]
    exact and_iff_left hi
  unfold valid
  simp only [hiff]
  rfl

theorem valid_next_self (h : w.done < w.buf.len) (size : ℕ) :
    w.next.valid size w.pageIdx = pageValidBytesForSize size w.pageIdx := by
  unfold valid
  rw [if_neg]
  exact fun hp => ((pending_next h _).mp hp).2 rfl

theorem valid_of_done (h : ¬ w.done < w.buf.len) (size : ℕ) :
    w.valid size = pageValidBytesForSize size := by
  funext i
  unfold valid
  rw [if_neg fun hp => h hp.1]

/-- The bytes the step stores lie in one page. -/
theorem filePageIndex_of_step {off : ℕ} (hle : w.fileOff ≤ off) (hlt : off < w.fileOff + w.writable) :
    filePageIndex off = w.pageIdx := by
  simp only [pageIdx, writable, pageOff, filePageIndex, filePageOffset, pageSize] at *
  omega

end WriteCall

/-- The mapping stands for the file `f` as far as the call `w` has written it. -/
structure Mapping.Writing (m : Mapping) (f : File) (w : WriteCall) : Prop where
  pages : m.Pages f [] (w.valid f.len)
  room : w.offset + w.buf.len ≤ f.len
  grown : w.oldSize ≤ f.len
  blank : w.done < w.buf.len → ∀ off, w.oldSize ≤ off → pageStart w.pageIdx ≤ off → f.byte off = 0
  done_le : w.done ≤ w.buf.len

namespace Mapping

variable {m m' : Mapping} {f : File} {w : WriteCall} {p q : CachePage} {i : ℕ}

/-- A page that is not loaded is stored as a whole or lies past the old end of the file. -/
theorem Writing.shows (h : m.Writing f w) (hlt : w.done < w.buf.len) {v : ℕ} {b : Bool}
    (hp : p.Fits f w.pageIdx v b) (hload : (w.storesPart && !p.uptodate) = false) {x : ℕ}
    (hx : x < pageSize) (hout : ¬ (w.pageOff ≤ x ∧ x < w.pageOff + w.writable)) :
    p.bytes x = f.byte (pageStart w.pageIdx + x) := by
  by_cases hup : p.uptodate = true
  · exact hp.byte hup hx
  have hpart : w.storesPart = false := by simpa [hup] using hload
  by_cases hpast : pageStart w.pageIdx < w.oldSize
  · -- the whole page is stored
    have hwhole : w.pageOff = 0 ∧ ¬ w.writable < pageSize := by
      simpa [WriteCall.storesPart, hpast] using hpart
    omega
  · exact hp.byte_of_zero hx (h.blank hlt _ (by omega) (by omega))

theorem Writing.writeAt_len (h : m.Writing f w) :
    (f.writeAt w.fileOff w.writable w.src).len = f.len := by
  refine SparseFile.writeAt_len_of_le ?_
  have hroom := h.room
  have hdone := h.done_le
  unfold WriteCall.fileOff WriteCall.writable
  omega

/-- What the iteration leaves in the page. -/
theorem Writing.store (h : m.Writing f w) (hp : p.Fits f w.pageIdx p.validBytes false)
    (hshows : ∀ x, x < pageSize → ¬ (w.pageOff ≤ x ∧ x < w.pageOff + w.writable) →
      p.bytes x = f.byte (pageStart w.pageIdx + x)) :
    (p.store w.pageOff w.writable w.src w.oldSize m.size).markDirty.Fits
      (f.writeAt w.fileOff w.writable w.src) w.pageIdx
      (pageValidBytesForSize f.len w.pageIdx) false := by
  set q := p.store w.pageOff w.writable w.src w.oldSize m.size with hq
  have hfresh : q.dirty = true → q.uptodate = true := fun hd => by
    show (p.uptodate || _) = true
    rw [hp.fresh hd, Bool.true_or]
  have hbound := hp.bound
  have hgrown := h.grown
  have hvalid : q.validBytes = pageValidBytesForSize f.len w.pageIdx := by
    show (if max p.validBytes (pageValidBytesForSize m.size p.index) < p.validBefore w.oldSize then
      p.validBefore w.oldSize else max p.validBytes (pageValidBytesForSize m.size p.index)) = _
    rw [hp.index, h.pages.size, max_eq_right hbound, if_neg]
    unfold CachePage.validBefore pageValidBytesForSize
    rw [hp.index]
    omega
  have hlen := h.writeAt_len
  exact
    { index := q.markDirty_index.trans hp.index
      loading := q.markDirty_loading.trans hp.loading
      writeback := q.markDirty_writeback.trans hp.writeback
      unmapped := q.markDirty_mapCount.trans hp.unmapped
      bytes := fun x hx => by
        refine .inl ?_
        rw [q.markDirty_bytes]
        show blit p.bytes w.pageOff w.writable w.src x =
          blit f.byte w.fileOff w.writable w.src (pageStart w.pageIdx + x)
        have hoff : pageStart w.pageIdx + w.pageOff = w.fileOff := pageStart_add_filePageOffset _
        by_cases hin : w.pageOff ≤ x ∧ x < w.pageOff + w.writable
        · rw [blit_of_mem hin.1 hin.2, blit_of_mem (by omega) (by omega)]
          congr 1
          omega
        · rw [blit_of_not_mem hin, blit_of_not_mem (by omega)]
          exact hshows x hx hin
      valid := fun _ => q.markDirty_validBytes.trans hvalid
      bound := by rw [q.markDirty_validBytes, hvalid, hlen]
      fresh := fun _ => q.markDirty_uptodate hfresh
      stale := fun hl => by
        rw [q.markDirty_loading, show q.loading = p.loading from rfl, hp.loading] at hl
        exact nomatch hl }

/-- One page is dirty afterwards, and nothing else has changed. -/
structure Dirties (m m' : Mapping) (i : ℕ) : Prop where
  dirty : ∃ p, m'.pages i = some p ∧ p.dirty = true
  other : ∀ j, j ≠ i → m'.pages j = m.pages j
  backing : m'.backing = m.backing

theorem Writing.markPageDirty (h : m.Writing f w) (hlt : w.done < w.buf.len)
    (hm : m'.Pages f [] (w.valid f.len)) (hp : m'.pages w.pageIdx = some p)
    (hother : ∀ j, j ≠ w.pageIdx → m'.pages j = m.pages j) (hbacking : m'.backing = m.backing)
    (hq : q.Fits f w.pageIdx q.validBytes false) (hdirty : q.dirty = p.dirty)
    (hshows : ∀ x, x < pageSize → ¬ (w.pageOff ≤ x ∧ x < w.pageOff + w.writable) →
      q.bytes x = f.byte (pageStart w.pageIdx + x)) :
    let stored := (m'.setPage w.pageIdx
      (q.store w.pageOff w.writable w.src w.oldSize m'.size)).markPageDirty w.pageIdx
    stored.Writing (f.writeAt w.fileOff w.writable w.src) w.next ∧ Dirties m stored w.pageIdx := by
  set q' := q.store w.pageOff w.writable w.src w.oldSize m'.size with hq'
  have hstore := h.store hq hshows
  rw [show m.size = m'.size from h.pages.size.trans hm.size.symm,
    ← WriteCall.valid_next_self hlt] at hstore
  have hlen := h.writeAt_len
  intro stored
  have hstored : stored = { m'.setPage w.pageIdx q'.markDirty with
      dirtyPages := if q'.dirty then m'.dirtyPages else insertIndex q'.index m'.dirtyPages } := by
    unfold stored Mapping.markPageDirty
    rw [setPage_page_self, setPage_setPage]
    rfl
  have hself : stored.pages w.pageIdx = some q'.markDirty := by
    rw [hstored]
    exact setPage_pages_self
  refine ⟨⟨?_, hlen ▸ h.room, hlen ▸ h.grown, fun hlt' off hold hoff => ?_,
    WriteCall.next_done_le hlt⟩, ⟨_, hself, q'.markDirty_dirty⟩, fun j hj => ?_, ?_⟩
  · rw [hstored, hlen]
    refine hm.update hstore (fun _ _ => Iff.rfl) (fun j hj => WriteCall.valid_next_of_ne hlt hj)
      (fun hclean => ?_) (fun _ => ?_) (fun j _ hj => ?_) hlen fun off hoff => ?_
    · rw [q'.markDirty_dirty] at hclean
      cases hclean
    · split
      · exact hm.listed _ p hp (hdirty ▸ ‹_›)
      · exact mem_insertIndex.mpr (.inl hq.index.symm)
    · split
      · exact hj
      · exact mem_insertIndex.mpr (.inr hj)
    · exact blit_of_not_mem fun hin => hoff (WriteCall.filePageIndex_of_step hin.1 hin.2)
  · -- the pages to come lie behind the bytes just stored
    have hnext : w.fileOff + w.writable ≤ off ∧ pageStart w.pageIdx ≤ off := by
      simp only [WriteCall.next, WriteCall.pageIdx, WriteCall.fileOff, WriteCall.writable,
        WriteCall.pageOff, pageStart, filePageIndex, filePageOffset, pageSize] at hoff hlt' ⊢
      omega
    exact (blit_of_ge hnext.1).trans (h.blank hlt off hold hnext.2)
  · rw [hstored]
    exact (setPage_pages_of_ne hj).trans (hother j hj)
  · rw [hstored]
    exact hbacking

theorem Writing.writePage (frames : Frames) (h : m.Writing f w) (hlt : w.done < w.buf.len) :
    ∃ m', m.writePage frames w = some m' ∧
      m'.Writing (f.writeAt w.fileOff w.writable w.src) w.next ∧ Dirties m m' w.pageIdx := by
  have hm := h.pages.getOrCreatePage (i := w.pageIdx) frames fun _ => List.not_mem_nil
  obtain ⟨p, hp⟩ := m.getOrCreatePage_pages frames w.pageIdx
  have hother : ∀ j, j ≠ w.pageIdx → (m.getOrCreatePage frames w.pageIdx).pages j = m.pages j :=
    fun j hj => getOrCreatePage_of_ne hj
  have hfits := hm.page _ p hp
  unfold Mapping.writePage
  simp only [page_of_some hp]
  by_cases hload : (w.storesPart && !p.uptodate) = true
  · obtain ⟨q, hq, hup, hdirty, hfits', -, -⟩ := hm.ensurePageUptodate hp
    have hstep := h.markPageDirty hlt hm hp hother getOrCreatePage_backing hfits' hdirty
      fun x hx _ => hfits'.byte hup hx
    refine ⟨_, ?_, hstep⟩
    rw [if_pos hload, hq, Option.map_some, setPage_page_self, setPage_setPage]
    rfl
  · have hload : (w.storesPart && !p.uptodate) = false := Bool.not_eq_true _ ▸ hload
    have hstep := h.markPageDirty hlt hm hp hother getOrCreatePage_backing hfits.self rfl
      fun x hx hout => h.shows hlt hfits hload hx hout
    refine ⟨_, ?_, hstep⟩
    rw [if_neg (hload ▸ nofun), Option.map_some, page_of_some hp]

/-- What a write leaves: the pages of its range are dirty, and nothing else has changed. -/
structure Rewrites (m m' : Mapping) (w : WriteCall) : Prop where
  dirty : ∀ off, w.fileOff ≤ off → off < w.offset + w.buf.len →
    ∃ p, m'.pages (filePageIndex off) = some p ∧ p.dirty = true
  other : ∀ j, m'.pages j = m.pages j ∨ ∃ p, m'.pages j = some p ∧ p.dirty = true
  backing : m'.backing = m.backing

theorem Rewrites.cons {m₁ m₂ m₃ : Mapping} (hstep : Dirties m₁ m₂ w.pageIdx)
    (hrest : Rewrites m₂ m₃ w.next) : Rewrites m₁ m₃ w := by
  have hpage : ∃ p, m₃.pages w.pageIdx = some p ∧ p.dirty = true :=
    (hrest.other w.pageIdx).elim (fun hsame => hsame ▸ hstep.dirty) id
  refine ⟨fun off hle hlt => ?_, fun j => ?_, hrest.backing.trans hstep.backing⟩
  · by_cases hin : off < w.fileOff + w.writable
    · exact WriteCall.filePageIndex_of_step hle hin ▸ hpage
    · exact hrest.dirty off (by simp only [WriteCall.next, WriteCall.fileOff] at *; omega) hlt
  · by_cases hj : j = w.pageIdx
    · exact .inr (hj ▸ hpage)
    · rw [← hstep.other j hj]
      exact hrest.other j

/-- The loop writes what is left of the buffer. -/
theorem Writing.writeLoop (frames : Frames) (h : m.Writing f w) :
    ∃ m', (∀ fuel, w.buf.len - w.done ≤ fuel → writeLoop frames fuel m w = some m') ∧
      m'.Pages (f.writeAt w.fileOff (w.buf.len - w.done) w.src) [] (pageValidBytesForSize f.len) ∧
      Rewrites m m' w := by
  -- each iteration stores a byte at least
  induction hleft : w.buf.len - w.done using Nat.strong_induction_on generalizing m f w with
  | _ left ih =>
    by_cases hlt : w.done < w.buf.len
    · obtain ⟨m₁, hm₁, hwriting, hdirties⟩ := h.writePage frames hlt
      have hpos := WriteCall.writable_pos hlt
      have hle := WriteCall.next_done_le hlt
      have hnext : w.buf.len - (w.done + w.writable) = left - w.writable := by omega
      obtain ⟨m₂, hm₂, hpages, hrest⟩ := ih (left - w.writable) (by omega) hwriting hnext
      refine ⟨m₂, fun fuel hfuel => ?_, ?_, .cons hdirties hrest⟩
      · obtain ⟨fuel, rfl⟩ := Nat.exists_eq_succ_of_ne_zero (n := fuel) (by omega)
        rw [PageCache.writeLoop, if_pos hlt, hm₁]
        exact hm₂ fuel (by omega)
      · have hsum : w.writable + (left - w.writable) = left := by
          have hdone : w.done + w.writable ≤ w.buf.len := hle
          omega
        rwa [h.writeAt_len, WriteCall.next_fileOff, WriteCall.next_src, SparseFile.writeAt_append,
          hsum] at hpages
    · refine ⟨m, fun fuel _ => ?_, ?_, fun off hle hoff => ?_, fun _ => .inl rfl, rfl⟩
      · cases fuel with
        | zero | succ fuel => exact if_neg hlt
      · rw [show left = 0 by omega, SparseFile.writeAt_zero]
        exact WriteCall.valid_of_done hlt f.len ▸ h.pages
      · unfold WriteCall.fileOff at hle
        omega

/-! ## The call -/

/-- The pages that a write of `len` bytes at `offset` makes longer are in its range. -/
def SteadyWrite (m : Mapping) (offset len : ℕ) : Prop :=
  ∀ i, (m.pages i).isSome →
    pageValidBytesForSize (max m.size (offset + len)) i ≠ pageValidBytesForSize m.size i →
    filePageIndex offset ≤ i ∧ i ≤ filePageIndex (offset + len - 1)

variable {buf : Slice UInt8} {offset : ℕ}

/-- The new size is set and no page is stored yet. -/
theorem Represents.beginWrite (h : m.Represents f) (hsteady : m.SteadyWrite offset buf.len) (hpos : 0 < buf.len) :
    Writing { m with size := max m.size (offset + buf.len) } (f.extend (offset + buf.len))
      ⟨offset, buf, m.size, 0⟩ := by
  have hsize := h.pages.size
  refine ⟨⟨congrArg (max · (offset + buf.len)) hsize, fun i p hp => ?_, h.pages.clean,
    h.pages.listed, le_trans h.pages.short (le_max_left _ _)⟩, le_max_right _ _,
    hsize ▸ Nat.le_max_left _ _, fun _ off hoff _ => f.zeroed off (hsize ▸ hoff), Nat.zero_le _⟩
  have hfits := h.pages.page i p hp
  have hext : p.Fits (f.extend (offset + buf.len)) i _ false :=
    hfits.congr (fun _ _ => rfl) (le_max_left _ _)
  refine { hext with valid := fun hup => (hfits.valid hup).trans ?_ }
  -- a page outside the range keeps its number of bytes
  unfold WriteCall.valid
  split
  · rw [hsize]
  next hpending =>
    by_contra hne
    have hrange := hsteady i (hp ▸ rfl) fun heq => hne (by rw [hsize] at heq; exact heq.symm)
    exact hpending ⟨hpos, hrange⟩

/-- If the file has grown its last page is the last page of the write. -/
theorem Tail.write {f' : File} (h : m.Tail f)
    (hlen : f'.len = max f.len (offset + buf.len)) (hpos : 0 < buf.len)
    (hfresh : ∀ i p, m'.pages i = some p → p.dirty = true → p.uptodate = true)
    (hrewrites : Rewrites m m' ⟨offset, buf, f.len, 0⟩) : m'.Tail f' := by
  have htail : (∃ p, m'.pages (tailPage f') = some p ∧ p.dirty = true) ∨
      f'.len = f.len ∧ m'.pages (tailPage f) = m.pages (tailPage f) := by
    rcases lt_or_ge f.len (offset + buf.len) with hgrow | hsame
    · left
      have hlast : f'.len = offset + buf.len := by omega
      unfold tailPage
      exact hrewrites.dirty _ (by unfold WriteCall.fileOff; simp only; omega) (by simp only; omega)
    · have hlen' : f'.len = f.len := by omega
      rw [show tailPage f' = tailPage f from congrArg (fun n => filePageIndex (n - 1)) hlen']
      exact (hrewrites.other (tailPage f)).elim (fun h => .inr ⟨hlen', h⟩) .inl
  rcases htail with ⟨p, hp, hd⟩ | ⟨hlen', hsame⟩
  · refine ⟨.inr ⟨p, hp, hd⟩, fun _ p' hp' => ?_⟩
    rw [← Option.some.inj (hp.symm.trans hp')]
    exact hfresh _ p hp hd
  · have hpage : tailPage f' = tailPage f := congrArg (fun n => filePageIndex (n - 1)) hlen'
    refine ⟨?_, fun hpos p hp => ?_⟩
    · rw [hpage, hsame, hlen', hrewrites.backing]
      exact h.flushed
    · rw [hpage, hsame] at hp
      exact h.ready (hlen' ▸ hpos) p hp

theorem Represents.writeMapping (h : m.Represents f) (frames : Frames)
    (hsteady : 0 < buf.len → m.SteadyWrite offset buf.len) :
    ∃ m', (∀ fuel, buf.len ≤ fuel → m.writeMapping fuel frames offset buf = some m') ∧
      m'.Represents (f.writeAt offset buf.len buf.get) := by
  unfold Mapping.writeMapping
  by_cases hlen : buf.len = 0
  · simp only [hlen]
    exact ⟨m, fun _ _ => rfl, (f.writeAt_zero offset buf.get).symm ▸ h⟩
  simp only [hlen]
  have hpos : 0 < buf.len := Nat.pos_of_ne_zero hlen
  have hwriting := h.beginWrite (hsteady hpos) hpos
  obtain ⟨m', hm', hpages, hrewrites⟩ := hwriting.writeLoop frames
  have hsrc : (⟨offset, buf, m.size, 0⟩ : WriteCall).src = buf.get := by
    funext x
    exact congrArg buf.get (Nat.zero_add x)
  have hwrite : (f.extend (offset + buf.len)).writeAt offset buf.len buf.get =
      f.writeAt offset buf.len buf.get := f.extend_writeAt hpos
  have hgrow : (f.extend (offset + buf.len)).len = (f.writeAt offset buf.len buf.get).len :=
    (if_neg hlen).symm
  refine ⟨m', fun fuel hfuel => hm' fuel (Nat.le_trans (Nat.sub_le _ _) hfuel), ?_, ?_⟩
  · rwa [← hgrow, ← hwrite, ← hsrc]
  · refine h.tail.write hgrow.symm hpos (fun i p hp hd => ?_) { hrewrites with }
    exact (hpages.page i p hp).fresh hd

end Mapping

end CosmOS.PageCache
