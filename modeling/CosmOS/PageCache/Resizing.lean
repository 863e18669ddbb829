import CosmOS.PageCache.Representation

/-!
# PageCache.Resizing — a change of the size

`truncate_mapping` and `fallocate_mapping` change the size of the backing file at once.  In the cache
they look at one page only: a growth at the old last page, a shrinking at the new one.  `SteadyGrowth`
and `SteadyShrink` say when that is enough.
-/

namespace CosmOS.PageCache

namespace Mapping

open Mapping

variable {m : Mapping} {f : File} {p : CachePage} {i n : ℕ}

/-- A growth changes the number of bytes in the file of no cached page but the last one. -/
def SteadyGrowth (m : Mapping) (newSize : ℕ) : Prop :=
  ∀ i, (m.pages i).isSome → pageValidBytesForSize newSize i ≠ pageValidBytesForSize m.size i →
    0 < m.size ∧ i = filePageIndex (m.size - 1)

/-- The page that a shrinking makes the last one has data if it is cached. -/
def SteadyShrink (m : Mapping) (newSize : ℕ) : Prop :=
  ∀ p, m.pages (filePageIndex (newSize - 1)) = some p → p.uptodate = true

/-! ## Growth -/

/-- The old last page has data, so a growth gives it the zeros that the file has there. -/
theorem Represents.growTail (h : m.Represents f) (hn : f.len < n) (hpos : 0 < f.len)
    (hp : m.pages (tailPage f) = some p) :
    (growTail p (pageValidBytesForSize f.len (tailPage f)) (pageValidBytesForSize n (tailPage f))).Fits
      (f.extend n) (tailPage f) (pageValidBytesForSize n (tailPage f)) false := by
  have hfits := h.pages.page _ p hp
  have hup := h.tail.ready hpos p hp
  have hvalid := hfits.valid hup
  have hmono := pageValidBytesForSize_mono hn.le (tailPage f)
  have hlen : (f.extend n).len = n := max_eq_right hn.le
  have hmax : max p.validBytes (pageValidBytesForSize n (tailPage f)) =
      pageValidBytesForSize n (tailPage f) := by omega
  refine ⟨hfits.index, hfits.loading, hfits.writeback, hfits.unmapped, fun x hx => .inl ?_,
    fun _ => hmax, ?_, fun _ => rfl, fun hl => ?_⟩
  · show blit p.bytes _ _ (fun _ => 0) x = f.byte (pageStart (tailPage f) + x)
    by_cases hin : pageValidBytesForSize f.len (tailPage f) ≤ x ∧
        x < pageValidBytesForSize f.len (tailPage f) +
          (pageValidBytesForSize n (tailPage f) - pageValidBytesForSize f.len (tailPage f))
    · rw [blit_of_mem hin.1 hin.2, f.zeroed]
      have hle := hin.1
      unfold pageValidBytesForSize at hle
      omega
    · rw [blit_of_not_mem hin]
      exact hfits.byte hup hx
  · rw [hlen]
    exact hmax.le
  · exact absurd (hfits.loading.symm.trans hl) (by simp)

theorem SteadyGrowth.valid (hsteady : m.SteadyGrowth n) (hsize : m.size = f.len)
    (hp : m.pages i = some p) (hi : 0 < f.len → i ≠ tailPage f) :
    pageValidBytesForSize n i = pageValidBytesForSize f.len i := by
  rw [← hsize]
  by_contra hne
  obtain ⟨hpos, htail⟩ := hsteady i (hp ▸ rfl) hne
  refine hi (hsize ▸ hpos) (htail.trans ?_)
  rw [hsize]
  rfl

/-- A growth changes the size and the backing file first. -/
theorem Represents.grow (h : m.Represents f) (hn : f.len < n) (hsteady : m.SteadyGrowth n) :
    Pages { m with size := n, backing := m.backing.extend n } (f.extend n) []
      (fun i => pageValidBytesForSize (if 0 < f.len ∧ i = tailPage f then f.len else n) i) where
  size := (max_eq_right hn.le).symm
  page := fun i p hp => by
    have hfits := h.pages.page i p hp
    have hext : p.Fits (f.extend n) i _ false := hfits.congr (fun _ _ => rfl) (le_max_left _ _)
    refine { hext with valid := fun hup => (hfits.valid hup).trans ?_ }
    split
    · rfl
    next htail =>
      exact (hsteady.valid h.pages.size hp fun hpos hi => htail ⟨hpos, hi⟩).symm
  clean := h.pages.clean
  listed := h.pages.listed
  short := by
    have hshort := h.pages.short
    show max m.backing.len n ≤ max f.len n
    omega

@[simp]
theorem growPages_backing (m : Mapping) (k n : ℕ) : (m.growPages k n).backing = m.backing := by
  unfold growPages
  dsimp only
  split
  · split <;> rfl
  · rfl

theorem growPages_pages {k n : ℕ} (hp : (m.growPages k n).pages i = some p) :
    ∃ p₀, m.pages i = some p₀ ∧ (p = p₀ ∨ p.uptodate = true) := by
  unfold growPages at hp
  dsimp only at hp
  split at hp
  · split at hp
    next p₀ hp₀ =>
      rcases eq_or_ne i (filePageIndex (k - 1)) with rfl | hi
      · rw [setPage_pages_self] at hp
        exact ⟨p₀, hp₀, .inr (Option.some.inj hp ▸ rfl)⟩
      · rw [setPage_pages_of_ne hi] at hp
        exact ⟨p, hp, .inl rfl⟩
    · exact ⟨p, hp, .inl rfl⟩
  · exact ⟨p, hp, .inl rfl⟩

section

variable (h : m.Represents f)

include h

theorem Represents.growPages (hn : f.len < n) (hsteady : m.SteadyGrowth n) :
    Pages (growPages { m with size := n, backing := m.backing.extend n } m.size n)
      (f.extend n) [] (pageValidBytesForSize n) := by
  have hgrow := h.grow hn hsteady
  have hmono := pageValidBytesForSize_mono hn.le (tailPage f)
  rw [h.pages.size]
  unfold Mapping.growPages
  dsimp only
  split
  next hcond =>
    split
    next p hp =>
      have hfits := h.growTail hn hcond.1 hp
      refine hgrow.setPage hp hfits (fun _ _ => Iff.rfl) (fun j hj => ?_) rfl
      rw [if_neg fun hj' => hj hj'.2]
    next hnone =>
      refine hgrow.congr_valid fun i p hp => ?_
      rw [if_neg]
      rintro ⟨-, rfl⟩
      exact absurd (hnone.symm.trans hp) (by simp)
  · -- the old last page was full, or the file was empty
    rename_i hcond
    refine hgrow.congr_valid fun i p _ => ?_
    split
    next hi =>
      obtain ⟨hpos, rfl⟩ := hi
      have hle := pageValidBytesForSize_le n (tailPage f)
      have hnot : ¬ (0 < f.len ∧ pageValidBytesForSize f.len (tailPage f) < pageSize ∧
        pageValidBytesForSize f.len (tailPage f) < pageValidBytesForSize n (tailPage f)) := hcond
      omega
    · rfl

/-- A growth, of `truncate_mapping` and of `fallocate_mapping`. -/
theorem Represents.grows (hn : f.len < n) (hsteady : m.SteadyGrowth n) :
    Represents (Mapping.growPages { m with size := n, backing := m.backing.extend n } m.size n)
      (f.extend n) := by
  have hlen : (f.extend n).len = n := max_eq_right hn.le
  have hshort := h.pages.short
  refine ⟨hlen.symm ▸ h.growPages hn hsteady, .inl ?_, fun _ p hp => ?_⟩
  · rw [growPages_backing]
    show max m.backing.len n = max f.len n
    omega
  · obtain ⟨p₀, hp₀, hup⟩ := growPages_pages hp
    refine hup.elim (fun heq => ?_) id
    -- the last page was the last page before, for a later one would have got longer
    have htail : 0 < f.len ∧ tailPage (f.extend n) = tailPage f := by
      by_contra hne
      have hvalid := hsteady.valid h.pages.size hp₀ fun hpos htail => hne ⟨hpos, htail⟩
      unfold tailPage at hne hvalid
      simp only [pageValidBytesForSize, pageStart, filePageIndex, pageSize] at hne hvalid
      omega
    rw [heq]
    exact h.tail.ready htail.1 p₀ (htail.2 ▸ hp₀)

/-! ## Shrinking -/

/-- A page below the new last one is full before and after. -/
theorem Represents.fits_truncate (hn : n < f.len) (hp : m.pages i = some p)
    (hi : pageStart i + pageSize ≤ n) :
    p.Fits (f.truncate n) i (pageValidBytesForSize n i) false := by
  have hfits := h.pages.page i p hp
  have hvalid : pageValidBytesForSize n i = pageValidBytesForSize f.len i := by
    unfold pageValidBytesForSize
    omega
  have hbyte : ∀ x, x < pageSize →
      (f.truncate n).byte (pageStart i + x) = f.byte (pageStart i + x) :=
    fun x hx => if_pos (by omega)
  exact
    { index := hfits.index
      loading := hfits.loading
      writeback := hfits.writeback
      unmapped := hfits.unmapped
      bytes := fun x hx => hbyte x hx ▸ hfits.bytes x hx
      valid := fun hup => (hfits.valid hup).trans hvalid.symm
      bound := hfits.bound.trans hvalid.ge
      fresh := hfits.fresh
      stale := hfits.stale }

/-- The new last page has data, so a shrinking leaves the first bytes of it and zeros. -/
theorem Represents.shrinkTail (hn : n < f.len) (hp : m.pages i = some p) (hup : p.uptodate = true) :
    (shrinkTail p (pageValidBytesForSize n i)).Fits (f.truncate n) i (pageValidBytesForSize n i)
      false := by
  have hfits := h.pages.page i p hp
  have hvalid := hfits.valid hup
  have hmono := pageValidBytesForSize_mono hn.le i
  have hmin : min p.validBytes (pageValidBytesForSize n i) = pageValidBytesForSize n i := by omega
  refine ⟨hfits.index, hfits.loading, hfits.writeback, hfits.unmapped, fun x hx => .inl ?_,
    fun _ => hmin, hmin.le, fun _ => rfl, fun hl => ?_⟩
  · show blit p.bytes _ _ (fun _ => 0) x = if pageStart i + x < n then f.byte (pageStart i + x) else 0
    by_cases hin : pageStart i + x < n
    · rw [if_pos hin, blit_of_lt (by unfold pageValidBytesForSize; omega)]
      exact hfits.byte hup hx
    · rw [if_neg hin, blit_of_mem (by unfold pageValidBytesForSize; omega) (by omega)]
  · exact absurd (hfits.loading.symm.trans hl) (by simp)

end

/-- The pages of a shrunk mapping: those below the new last one as they were, then that one. -/
theorem shrinkPages_pages (m : Mapping) (n i : ℕ) : (m.shrinkPages n).pages i = if n = 0 ∨
    filePageIndex (n - 1) < i then none else if i = filePageIndex (n - 1) then
        (m.pages i).map fun p => shrinkTail p (pageValidBytesForSize n i)
      else m.pages i := by
  unfold shrinkPages
  by_cases hn : n = 0
  · simp only [hn, Nat.lt_irrefl, if_false, if_true, Nat.zero_le, true_or]
  have hpos : 0 < n := Nat.pos_of_ne_zero hn
  simp only [hn, hpos, if_true, if_false, false_or, Nat.succ_le_iff, Nat.lt_irrefl]
  rcases eq_or_ne i (filePageIndex (n - 1)) with rfl | hi
  · rw [if_neg (Nat.lt_irrefl _), if_pos rfl]
    cases hp : m.pages (filePageIndex (n - 1)) with
    | none =>
      simp only [Option.map_none]
      rw [if_neg (Nat.lt_irrefl _), hp]
    | some p => exact setPage_pages_self
  · rw [if_neg hi]
    cases hp : m.pages (filePageIndex (n - 1)) with
    | none => rfl
    | some p => exact setPage_pages_of_ne hi

@[simp]
theorem shrinkPages_backing (m : Mapping) (n : ℕ) : (m.shrinkPages n).backing = m.backing := by
  unfold shrinkPages
  dsimp only
  split
  · split <;> rfl
  · rfl

theorem mem_shrinkPages_dirtyPages (hn : n ≠ 0) (hi : i ≤ filePageIndex (n - 1))
    (hmem : i ∈ m.dirtyPages) : i ∈ (m.shrinkPages n).dirtyPages := by
  have hfilter : i ∈ m.dirtyPages.filter fun j =>
      !(decide (filePageIndex (n - 1) + 1 ≤ j) && (m.pages j).isSome) := by
    refine List.mem_filter.mpr ⟨hmem, ?_⟩
    rw [decide_eq_false (by omega), Bool.false_and, Bool.not_false]
  unfold shrinkPages
  simp only [if_neg hn]
  split
  · split <;> exact hfilter
  · exact hfilter

/-- The pages that stay fit the shorter file and are as dirty as they were. -/
theorem Represents.shrunk (h : m.Represents f) (hn : n < f.len) (hsteady : 0 < n → m.SteadyShrink n)
    (hp : (shrinkPages { m with size := n, backing := m.backing.truncate n } n).pages i = some p) :
    p.Fits (f.truncate n) i (pageValidBytesForSize n i) false ∧
      (0 < n ∧ i ≤ filePageIndex (n - 1)) ∧ (i = filePageIndex (n - 1) → p.uptodate = true) ∧
      ∃ p₀, m.pages i = some p₀ ∧ p.dirty = p₀.dirty := by
  rw [shrinkPages_pages] at hp
  split at hp
  · simp at hp
  have hpos : 0 < n := by omega
  have hle : i ≤ filePageIndex (n - 1) := by omega
  split at hp
  next hi =>
    obtain ⟨p₀, hp₀, rfl⟩ := Option.map_eq_some_iff.mp hp
    have hup : p₀.uptodate = true := hsteady hpos p₀ (hi ▸ hp₀)
    exact ⟨h.shrinkTail hn hp₀ hup, ⟨hpos, hle⟩, fun _ => rfl, p₀, hp₀, rfl⟩
  next hi =>
    refine ⟨h.fits_truncate hn hp ?_, ⟨hpos, hle⟩, fun hi' => absurd hi' hi, p, hp, rfl⟩
    simp only [filePageIndex, pageStart, pageSize] at hle hi ⊢
    omega

/-- A dirty page with bytes in the shorter file stays. -/
theorem shrinkPages_of_lt (hi : pageStart i < n) (hp : m.pages i = some p) :
    ∃ q, (m.shrinkPages n).pages i = some q ∧ q.dirty = p.dirty := by
  have hkept : ¬ (n = 0 ∨ filePageIndex (n - 1) < i) := by
    simp only [filePageIndex, pageStart, pageSize] at hi ⊢
    omega
  rw [shrinkPages_pages, if_neg hkept]
  split
  · exact ⟨_, congrArg (Option.map _) hp, rfl⟩
  · exact ⟨p, hp, rfl⟩

theorem Represents.shrinks (h : m.Represents f) (hn : n < f.len)
    (hsteady : 0 < n → m.SteadyShrink n) :
    Represents (shrinkPages { m with size := n, backing := m.backing.truncate n } n)
      (f.truncate n) := by
  refine ⟨⟨?_, fun i p hp => (h.shrunk hn hsteady hp).1, fun i hclean x hx => ?_,
    fun i p hp hd => ?_, ?_⟩, .inl ?_, fun _ p hp => (h.shrunk hn hsteady hp).2.2.1 rfl⟩
  · unfold shrinkPages
    dsimp only
    split
    · split <;> rfl
    · rfl
  · rw [shrinkPages_backing]
    show (if pageStart i + x < n then _ else _) = if pageStart i + x < n then _ else _
    by_cases hin : pageStart i + x < n
    · rw [if_pos hin, if_pos hin]
      refine h.pages.clean i (fun p hp => ?_) x hx
      obtain ⟨q, hq, hdirty⟩ := shrinkPages_of_lt
        (m := { m with size := n, backing := m.backing.truncate n }) (n := n) (by omega) hp
      exact hdirty ▸ hclean q hq
    · rw [if_neg hin, if_neg hin]
  · obtain ⟨-, ⟨hpos, hi⟩, -, p₀, hp₀, hdirty⟩ := h.shrunk hn hsteady hp
    exact mem_shrinkPages_dirtyPages hpos.ne' hi (h.pages.listed i p₀ hp₀ (hdirty ▸ hd))
  · rw [shrinkPages_backing]
    exact le_refl n
  · rw [shrinkPages_backing]
    rfl

/-! ## The calls -/

/-- The growths and shrinkings of `truncate_mapping` meet the conditions. -/
structure SteadyTruncate (m : Mapping) (newSize : ℕ) : Prop where
  growth : m.size < newSize → m.SteadyGrowth newSize
  shrink : newSize < m.size → 0 < newSize → m.SteadyShrink newSize

theorem Represents.truncateMapping (h : m.Represents f) (hsteady : m.SteadyTruncate n) :
    (m.truncateMapping n).Represents (f.truncate n) := by
  have hsize := h.pages.size
  unfold Mapping.truncateMapping
  split
  · -- the size stays
    rwa [SparseFile.truncate_of_le (by omega), SparseFile.extend_of_le (by omega)]
  · split
    · exact h.shrinks (by omega) (hsteady.shrink ‹_›)
    · have hlt : m.size < n := by omega
      have hshort := h.pages.short
      rw [SparseFile.truncate_of_le (by omega), SparseFile.truncate_of_le (by omega)]
      exact h.grows (by omega) (hsteady.growth hlt)

theorem Represents.fallocateMapping (h : m.Represents f) {offset len : ℕ}
    (hsteady : m.size < offset + len → m.SteadyGrowth (offset + len)) :
    (m.fallocateMapping offset len).Represents (f.extend (offset + len)) := by
  have hsize := h.pages.size
  have hshort := h.pages.short
  unfold Mapping.fallocateMapping
  dsimp only
  split
  · -- only the backing file gets longer
    rw [SparseFile.extend_of_le (f := f) (by omega)]
    refine ⟨⟨hsize, h.pages.page, h.pages.clean, h.pages.listed, ?_⟩, ?_, h.tail.ready⟩
    · show max m.backing.len (offset + len) ≤ f.len
      omega
    · refine h.tail.flushed.imp (fun hlen => ?_) id
      show max m.backing.len (offset + len) = f.len
      omega
  · have hlt : m.size < offset + len := by omega
    exact h.grows (by omega) (hsteady hlt)

end Mapping

end CosmOS.PageCache
