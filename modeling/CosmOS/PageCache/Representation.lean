import CosmOS.PageCache.Mapping
import CosmOS.PageCache.Sections

/-!
# PageCache.Representation — the file that a mapping stands for

`Represents m f`: the pages, the backing file and the size of `m` together stand for the file `f`.

* A page that has data shows the bytes of `f`, and `valid_bytes` is the number of its bytes inside the
  file.  A page without data holds zeros, or bytes of `f` that an incomplete read brought.
* Where no page is dirty the backing file has the bytes of `f`.
* The backing file is as long as `f`, or the last page of `f` is dirty.

`Pages` is the part of it that holds in the middle of an operation too: while the pages `loading` are
being loaded, and while the pages that have data show `valid` bytes.
-/

namespace CosmOS.PageCache

open Option

structure CachePage.Fits (p : CachePage) (f : File) (i valid : ℕ) (loading : Bool) : Prop where
  index : p.index = i
  loading : p.loading = loading
  writeback : p.writeback = false
  unmapped : p.mapCount = 0
  bytes : ∀ x, x < pageSize →
    p.bytes x = f.byte (pageStart i + x) ∨ p.uptodate = false ∧ p.bytes x = 0
  valid : p.uptodate = true → p.validBytes = valid
  bound : p.validBytes ≤ pageValidBytesForSize f.len i
  fresh : p.dirty = true → p.uptodate = true
  stale : p.loading = true → p.uptodate = false

structure Mapping.Pages (m : Mapping) (f : File) (loading : List ℕ) (valid : ℕ → ℕ) : Prop where
  size : m.size = f.len
  page : ∀ i p, m.pages i = some p → p.Fits f i (valid i) (decide (i ∈ loading))
  clean : ∀ i, (∀ p, m.pages i = some p → p.dirty = false) → ∀ x, x < pageSize →
    m.backing.byte (pageStart i + x) = f.byte (pageStart i + x)
  listed : ∀ i p, m.pages i = some p → p.dirty = true → i ∈ m.dirtyPages
  short : m.backing.len ≤ f.len

/-- The page of the last byte of a file. -/
def tailPage (f : File) : ℕ := filePageIndex (f.len - 1)

/-- The backing file is complete but for the tail page, and the tail page has data. -/
structure Mapping.Tail (m : Mapping) (f : File) : Prop where
  flushed : m.backing.len = f.len ∨ ∃ p, m.pages (tailPage f) = some p ∧ p.dirty = true
  ready : 0 < f.len → ∀ p, m.pages (tailPage f) = some p → p.uptodate = true

/-- The mapping stands for the file `f`. -/
structure Mapping.Represents (m : Mapping) (f : File) : Prop where
  pages : m.Pages f [] (pageValidBytesForSize f.len)
  tail : m.Tail f

variable {m m' : Mapping} {f f' : File} {p q : CachePage} {i j x : ℕ} {loading loading' : List ℕ}
  {valid valid' : ℕ → ℕ} {frames : Frames}

namespace CachePage.Fits

variable {v : ℕ} {b : Bool}

theorem new (f : File) (i ppn v : ℕ) : (CachePage.new i ppn).Fits f i v false where
  index := rfl
  loading := rfl
  writeback := rfl
  unmapped := rfl
  bytes := fun _ _ => .inr ⟨rfl, rfl⟩
  valid := nofun
  bound := Nat.zero_le _
  fresh := nofun
  stale := nofun

section

variable (h : p.Fits f i v b)
include h

/-- A page that has data shows the file. -/
theorem byte (hup : p.uptodate = true) (hx : x < pageSize) :
    p.bytes x = f.byte (pageStart i + x) := by
  rcases h.bytes x hx with hb | ⟨hfalse, -⟩
  · exact hb
  · rw [hup] at hfalse
    cases hfalse

/-- A page without data holds zeros where the file does. -/
theorem byte_of_zero (hx : x < pageSize)
    (hz : f.byte (pageStart i + x) = 0) : p.bytes x = f.byte (pageStart i + x) := by
  rcases h.bytes x hx with hb | ⟨-, hb⟩
  · exact hb
  · rw [hb, hz]

/-- The page fits every file that has the same bytes there. -/
theorem congr (hbyte : ∀ x, x < pageSize → f'.byte (pageStart i + x) = f.byte (pageStart i + x))
    (hlen : f.len ≤ f'.len) : p.Fits f' i v b where
  __ := h
  bytes := fun x hx => hbyte x hx ▸ h.bytes x hx
  bound := le_trans h.bound (pageValidBytesForSize_mono hlen i)

/-- The number of valid bytes of a page may be read off the page. -/
theorem self : p.Fits f i p.validBytes b :=
  { h with valid := fun _ => rfl }

/-- The reference bit has nothing to do with the file. -/
theorem touch (r : Bool) : ({ p with refBit := r } : CachePage).Fits f i v b :=
  { h with }

theorem beginLoad (hup : p.uptodate = false) : p.beginLoad.Fits f i v true :=
  { h with loading := rfl, stale := fun _ => hup }

theorem dirty_of_stale (hup : p.uptodate = false) : p.dirty = false := by
  rw [← Bool.not_eq_true]
  exact fun hd => Bool.noConfusion (hup.symm.trans (h.fresh hd))

end

end CachePage.Fits

namespace Mapping

theorem page_of_some (h : m.pages i = some p) : m.page i = p := by
  unfold page
  rw [h]
  rfl

@[simp]
theorem setPage_pages_self : (m.setPage i p).pages i = some p := Function.update_self ..

theorem setPage_pages_of_ne (h : j ≠ i) : (m.setPage i p).pages j = m.pages j :=
  Function.update_of_ne h ..

theorem setPage_setPage : (m.setPage i p).setPage i q = m.setPage i q := by
  unfold setPage
  rw [Function.update_idem]

@[simp]
theorem setPage_page_self : (m.setPage i p).page i = p := page_of_some setPage_pages_self

namespace Pages

section

variable (h : m.Pages f loading valid)

include h

/-- One page changes, the file may change where that page is, and what is said of the other pages
stays. -/
theorem update {d : List ℕ} (hq : q.Fits f' i (valid' i) (decide (i ∈ loading')))
    (hloading : ∀ j, j ≠ i → (j ∈ loading' ↔ j ∈ loading)) (hvalid : ∀ j, j ≠ i → valid' j = valid j)
    (hclean : q.dirty = false → ∀ x, x < pageSize →
      m.backing.byte (pageStart i + x) = f'.byte (pageStart i + x))
    (hlisted : q.dirty = true → i ∈ d) (hd : ∀ j, j ≠ i → j ∈ m.dirtyPages → j ∈ d)
    (hlen : f'.len = f.len) (hfile : ∀ off, filePageIndex off ≠ i → f'.byte off = f.byte off) :
    Pages { m.setPage i q with dirtyPages := d } f' loading' valid' where
  size := h.size.trans hlen.symm
  page := fun j p hj => by
    rcases eq_or_ne j i with rfl | hji
    · rw [show (m.setPage j q).pages j = some q from setPage_pages_self] at hj
      exact some.inj hj ▸ hq
    · rw [show (m.setPage i q).pages j = m.pages j from setPage_pages_of_ne hji] at hj
      rw [hvalid j hji, decide_eq_decide.mpr (hloading j hji)]
      refine (h.page j p hj).congr (fun x hx => hfile _ ?_) hlen.ge
      rwa [filePageIndex_of_mem hx]
  clean := fun j hj => by
    rcases eq_or_ne j i with rfl | hji
    · exact hclean (hj q setPage_pages_self)
    · intro x hx
      rw [hfile _ (by rwa [filePageIndex_of_mem hx])]
      exact h.clean j (fun p hp => hj p ((setPage_pages_of_ne hji).trans hp)) x hx
  listed := fun j p hj hdirty => by
    rcases eq_or_ne j i with rfl | hji
    · rw [show (m.setPage j q).pages j = some q from setPage_pages_self] at hj
      exact hlisted (some.inj hj ▸ hdirty)
    · rw [show (m.setPage i q).pages j = m.pages j from setPage_pages_of_ne hji] at hj
      exact hd j hji (h.listed j p hj hdirty)
  short := h.short.trans hlen.ge

/-- The same for a page that stays as dirty as it was. -/
theorem setPage (hp : m.pages i = some p) (hq : q.Fits f i (valid' i) (decide (i ∈ loading')))
    (hloading : ∀ j, j ≠ i → (j ∈ loading' ↔ j ∈ loading)) (hvalid : ∀ j, j ≠ i → valid' j = valid j)
    (hdirty : q.dirty = p.dirty) : (m.setPage i q).Pages f loading' valid' := by
  refine h.update hq hloading hvalid (fun hclean => h.clean i fun p' hp' => ?_)
    (fun hd => h.listed i p hp (hdirty ▸ hd)) (fun _ _ => id) rfl fun _ _ => rfl
  rwa [← some.inj (hp.symm.trans hp'), ← hdirty]

/-- What the number of valid bytes would be at an index without a page does not matter. -/
theorem congr_valid
    (hvalid : ∀ i p, m.pages i = some p → valid' i = valid i) : m.Pages f loading valid' :=
  { h with page := fun i p hp => hvalid i p hp ▸ h.page i p hp }

theorem getOrCreatePage (frames : Frames) (hi : m.pages i = none → i ∉ loading) :
    (m.getOrCreatePage frames i).Pages f loading valid := by
  unfold Mapping.getOrCreatePage
  split
  · exact h
  rename_i hnone
  have hfits := CachePage.Fits.new f i (frames i) (valid i)
  rw [← decide_eq_false (hi hnone)] at hfits
  refine h.update hfits (fun _ _ => Iff.rfl) (fun _ _ => rfl) (fun _ => h.clean i fun p hp => ?_)
    (fun hd => nomatch hd) (fun _ _ => id) rfl fun _ _ => rfl
  rw [hnone] at hp
  cases hp

end

end Pages

theorem getOrCreatePage_pages (m : Mapping) (frames : Frames) (i : ℕ) :
    ∃ p, (m.getOrCreatePage frames i).pages i = some p := by
  unfold getOrCreatePage
  split
  · exact ⟨_, ‹_›⟩
  · exact ⟨_, setPage_pages_self⟩

theorem getOrCreatePage_of_ne (h : j ≠ i) : (m.getOrCreatePage frames i).pages j = m.pages j := by
  unfold getOrCreatePage
  split
  · rfl
  · exact setPage_pages_of_ne h

theorem getOrCreatePage_of_some (h : m.pages i = some p) : (m.getOrCreatePage frames i) = m := by
  unfold getOrCreatePage
  rw [h]

@[simp]
theorem getOrCreatePage_backing : (m.getOrCreatePage frames i).backing = m.backing := by
  unfold getOrCreatePage
  split <;> rfl

end Mapping

/-- One page changes and stays as dirty as it was; if it is the last page it has data. -/
theorem Mapping.Tail.replace (h : m.Tail f) (hother : ∀ j, j ≠ i → m'.pages j = m.pages j)
    (hq : m'.pages i = some q) (hbacking : m'.backing = m.backing)
    (hdirty : ∀ p, m.pages i = some p → q.dirty = p.dirty)
    (hready : i = tailPage f → 0 < f.len → q.uptodate = true) : m'.Tail f := by
  constructor
  · rw [hbacking]
    refine h.flushed.imp id fun ⟨p, hp, hd⟩ => ?_
    by_cases hi : tailPage f = i
    · exact ⟨q, hi ▸ hq, (hdirty p (hi ▸ hp)).trans hd⟩
    · exact ⟨p, (hother _ hi).trans hp, hd⟩
  · intro hpos p hp
    by_cases hi : tailPage f = i
    · rw [hi, hq] at hp
      exact some.inj hp ▸ hready hi.symm hpos
    · exact h.ready hpos p ((hother _ hi).symm.trans hp)

theorem Mapping.Represents.touch (h : m.Represents f) (hp : m.pages i = some p) (r : Bool) :
    (m.setPage i { p with refBit := r }).Represents f where
  pages :=
    h.pages.setPage hp ((h.pages.page i p hp).touch r) (fun _ _ => Iff.rfl) (fun _ _ => rfl) rfl
  tail := by
    refine h.tail.replace (fun j hj => setPage_pages_of_ne hj) setPage_pages_self rfl
      (fun q hq => ?_) fun hi hpos => h.tail.ready hpos p (hi ▸ hp)
    rw [← some.inj (hp.symm.trans hq)]

/-! ## Loading one page -/

/-- What the loader publishes shows the file. -/
theorem Mapping.Pages.loadPage (h : m.Pages f loading valid) (hp : m.pages i = some p)
    (hup : p.uptodate = false) :
    (m.loadPage i p).Fits f i (pageValidBytesForSize f.len i) false ∧
      (m.loadPage i p).uptodate = true ∧ (m.loadPage i p).dirty = false := by
  have hfits := h.page i p hp
  have hd := hfits.dirty_of_stale hup
  have hread : m.backing.present (pageStart i) (pageValidBytesForSize m.size i) ≤
      pageValidBytesForSize m.size i := Nat.min_le_left _ _
  have hvalid : max (pageValidBytesForSize m.size i)
      (m.backing.present (pageStart i) (pageValidBytesForSize m.size i)) =
      pageValidBytesForSize f.len i := by
    rw [Nat.max_eq_left hread, h.size]
  refine ⟨⟨hfits.index, rfl, hfits.writeback, hfits.unmapped, fun x hx => .inl ?_, fun _ => hvalid,
    Nat.le_of_eq hvalid, fun _ => rfl, nofun⟩, rfl, hd⟩
  show blit p.bytes 0 (m.backing.present (pageStart i) (pageValidBytesForSize m.size i))
    (fun x => m.backing.byte (pageStart i + x)) x = _
  by_cases hlt : x < m.backing.present (pageStart i) (pageValidBytesForSize m.size i)
  · -- the device has the byte
    rw [blit_of_mem (Nat.zero_le _) (by omega)]
    exact h.clean i (fun p' hp' => by rwa [← some.inj (hp.symm.trans hp')]) x hx
  · rw [blit_of_ge (by omega)]
    refine hfits.byte_of_zero hx ?_
    -- it lies past the end of the backing file, or past the end of the file
    rcases Nat.lt_or_ge (pageStart i + x) m.backing.len with hlen | hlen
    · refine f.zeroed _ ?_
      rw [← h.size]
      unfold SparseFile.present pageValidBytesForSize at hlt
      omega
    · -- the page is not dirty, so it shows the zeros past the end of the backing file
      have hclean := h.clean i (fun p' hp' => by rwa [← some.inj (hp.symm.trans hp')]) x hx
      rw [← hclean]
      exact m.backing.zeroed _ hlen

/-- `ensure_page_uptodate` returns, and the page then has data. -/
theorem Mapping.Pages.ensurePageUptodate (h : m.Pages f [] valid) (hp : m.pages i = some p) : ∃ q,
    m.ensurePageUptodate i = some (m.setPage i q) ∧ q.uptodate = true ∧ q.dirty = p.dirty ∧ q.Fits f
    i q.validBytes false ∧ (p.uptodate = true → q.validBytes = p.validBytes) ∧
      (p.uptodate = false → q.validBytes = pageValidBytesForSize f.len i) := by
  have hfits := h.page i p hp
  unfold Mapping.ensurePageUptodate
  rw [page_of_some hp]
  by_cases hup : p.uptodate = true
  · refine ⟨{ p with refBit := true }, if_pos hup, hup, rfl, (hfits.touch true).self, fun _ => rfl,
      fun hfalse => ?_⟩
    rw [hup] at hfalse
    cases hfalse
  · have hfalse : p.uptodate = false := Bool.not_eq_true _ ▸ hup
    have hpage : (m.setPage i { p with refBit := true }).Pages f [] valid :=
      h.setPage hp (hfits.touch true) (fun _ _ => Iff.rfl) (fun _ _ => rfl) rfl
    obtain ⟨hload, hready, hclean⟩ := hpage.loadPage setPage_pages_self hfalse
    have hdirty := hfits.dirty_of_stale hfalse
    refine ⟨m.loadPage i { p with refBit := true }, ?_, hready, hclean.trans hdirty.symm, hload.self,
      fun htrue => absurd htrue hup, fun _ => hload.valid hready⟩
    rw [if_neg hup, if_neg]
    exact fun hl => absurd (hfits.loading.symm.trans hl) (by simp)

end CosmOS.PageCache
