import CosmOS.Mm.FreeArea

/-!
# Mm.Munmap — unmapping is exact

`munmap_deferred` (`mm/memory_set.rs`) on areas that own their pages.  A `Vma` keeps its private frames and
the pages of the page cache that it maps in two maps from page numbers.  `split_off` takes both maps apart;
`absorb` joins only the frames, and drops the cache pages of the area that is taken in.

What an address space says about a page is read from the area that has the page (`MemorySet.viewAt`).  The
areas are well-formed (`Held`): an area maps no page outside of it, no page twice, and pages of the cache
only for a file.  So `absorb` loses nothing, since areas with a file are never merged.

A range with a page outside of the user's areas is refused before anything changes.  The pages of any
other range go into the batch that is released behind the shootdown (`munmap_exact`).
-/

namespace CosmOS.Mm

open Function List

/-- What a page is mapped to: a frame of its own or a page of the page cache. -/
inductive PageObject where
  | frame (id : ℕ)
  | cache (id : ℕ)
deriving DecidableEq

/-- The attributes of a `Vma` with its `data_frames` and `direct_cache_pages`. -/
structure VmaPages extends VmaInfo where
  dataFrames : ℕ → Option ℕ
  directCachePages : ℕ → Option ℕ

abbrev PagedVma := Area VmaPages

namespace PagedVma

def vma (area : PagedVma) : Vma := ⟨area.start, area.stop, area.attr.toVmaInfo⟩

def pageOn (area : PagedVma) (vpn : ℕ) : Option PageObject :=
  ((area.attr.directCachePages vpn).map .cache).or ((area.attr.dataFrames vpn).map .frame)

/-- What the area says about a page, and what the page is mapped to. -/
def viewOn (area : PagedVma) (vpn : ℕ) : VmaInfo × Option PageObject :=
  (area.vma.infoOn vpn, area.pageOn vpn)

/-- The area maps only its own pages, each once, and pages of the cache only for a file. -/
structure Held (area : PagedVma) : Prop where
  inside : ∀ vpn, ¬ area.Contains vpn →
    area.attr.dataFrames vpn = none ∧ area.attr.directCachePages vpn = none
  single : ∀ vpn, area.attr.directCachePages vpn = none ∨ area.attr.dataFrames vpn = none
  cached : area.attr.file = none → ∀ vpn, area.attr.directCachePages vpn = none

/-- What stays with the area when `split_off` takes the pages from `splitVpn` on. -/
def splitLeft (splitVpn : ℕ) (area : PagedVma) : VmaPages :=
  { area.attr with
    dataFrames := fun vpn => if vpn < splitVpn then area.attr.dataFrames vpn else none
    directCachePages := fun vpn => if vpn < splitVpn then area.attr.directCachePages vpn else none }

def splitRight (splitVpn : ℕ) (area : PagedVma) : VmaPages where
  toVmaInfo := area.attr.toVmaInfo.advance (splitVpn - area.start)
  dataFrames vpn := if splitVpn ≤ vpn then area.attr.dataFrames vpn else none
  directCachePages vpn := if splitVpn ≤ vpn then area.attr.directCachePages vpn else none

def absorb (area other : PagedVma) : VmaPages :=
  { area.attr with
    dataFrames := fun vpn => (other.attr.dataFrames vpn).or (area.attr.dataFrames vpn) }

/-- `unmap_present_one_deferred`, on the maps of the area and the batch. -/
def unmapPresentOneDeferred (done : VmaPages × List PageObject) (vpn : ℕ) :
    VmaPages × List PageObject :=
  match done.1.directCachePages vpn with
  | some page =>
    ({ done.1 with directCachePages := update done.1.directCachePages vpn none },
      done.2 ++ [.cache page])
  | none =>
    match done.1.dataFrames vpn with
    | some page => ({ done.1 with dataFrames := update done.1.dataFrames vpn none }, done.2 ++ [.frame page])
    | none => done

/-- The loop of `munmap_deferred` over the pages of the part that goes. -/
def unmapPages (area : PagedVma) (overlapStart overlapEnd : ℕ) : List PageObject :=
  let part : PagedVma := ⟨area.start, overlapEnd, area.splitLeft overlapEnd⟩
  ((range' overlapStart (overlapEnd - overlapStart)).foldl unmapPresentOneDeferred
    (part.splitRight overlapStart, [])).2

end PagedVma

/-- How areas with their pages are taken apart and merged. -/
def pagedEdit : AreaEdit VmaPages PageObject where
  mayTake area := Vma.isUserAccessible (PagedVma.vma area)
  before := PagedVma.splitLeft
  behind := PagedVma.splitRight
  taken := PagedVma.unmapPages
  canJoin area other := Vma.canMergeWith (PagedVma.vma area) (PagedVma.vma other)
  joined := PagedVma.absorb

/-- `MemorySet`: areas with well-formed maps, whose pages have 64-bit addresses. -/
structure MemorySet where
  vmas : AreaMap VmaPages
  held : ∀ area ∈ vmas.areas, PagedVma.Held area
  stop_lt : ∀ area ∈ vmas.areas, area.stop < 2 ^ 52

namespace MemorySet

/-- The view of an address space: what it says about a page, and what the page is mapped to. -/
def viewAt (vmas : AreaMap VmaPages) (vpn : ℕ) : Option (VmaInfo × Option PageObject) :=
  vmas.view PagedVma.viewOn vpn

def mergeVmaAround (vmas : AreaMap VmaPages) (key : ℕ) : AreaMap VmaPages := pagedEdit.mergeAround vmas key

/-- `munmap_deferred`: the areas that are left and the `UserReleaseBatch`. -/
def munmapDeferred (m : MemorySet) (startVa endVa : ℕ) : Option (AreaMap VmaPages × List PageObject) :=
  pagedEdit.unmap m.vmas (startVa / pageSize) ((endVa + (pageSize - 1)) / pageSize)

/-- Every page of the range lies in an area that user code may access. -/
def UserCovered (vmas : AreaMap VmaPages) (lo hi : ℕ) : Prop := pagedEdit.Covered vmas lo hi

end MemorySet

/-! ## Splitting, merging and unmapping keep the pages -/

namespace PagedVma

variable {area other : PagedVma} {lo hi n : ℕ}

theorem held_splitLeft (h : Held area) (n : ℕ) : Held ⟨area.start, n, area.splitLeft n⟩ where
  inside vpn hout := by
    simp only [splitLeft]
    split
    next hlt => exact h.inside vpn fun hin => hout ⟨hin.1, hlt⟩
    · exact ⟨rfl, rfl⟩
  single vpn := by
    simp only [splitLeft]
    split
    · exact h.single vpn
    · exact .inl rfl
  cached hfile vpn := by
    simp only [splitLeft]
    split
    · exact h.cached hfile vpn
    · rfl

theorem viewOn_splitLeft {vpn : ℕ} (hvpn : vpn < n) :
    viewOn ⟨area.start, n, area.splitLeft n⟩ vpn = area.viewOn vpn := by
  simp only [viewOn, pageOn, splitLeft, if_pos hvpn]
  rfl

theorem held_splitRight (h : Held area) (n : ℕ) : Held ⟨n, area.stop, area.splitRight n⟩ where
  inside vpn hout := by
    simp only [splitRight]
    split
    next hle => exact h.inside vpn fun hin => hout ⟨hle, hin.2⟩
    · exact ⟨rfl, rfl⟩
  single vpn := by
    simp only [splitRight]
    split
    · exact h.single vpn
    · exact .inl rfl
  cached hfile vpn := by
    have hnone : area.attr.file = none := Option.map_eq_none_iff.mp hfile
    simp only [splitRight]
    split
    · exact h.cached hnone vpn
    · rfl

theorem viewOn_splitRight {vpn : ℕ} (hn : area.start ≤ n) (hvpn : n ≤ vpn) :
    viewOn ⟨n, area.stop, area.splitRight n⟩ vpn = area.viewOn vpn := by
  refine Prod.ext (Vma.infoOn_behind area.vma hn hvpn) ?_
  simp only [viewOn, pageOn, splitRight, if_pos hvpn]

/-- The pages are handed out in order, each once.  The induction is on the pages still to come, which the
step leaves alone. -/
theorem foldl_unmapPresentOneDeferred {l : List ℕ} (hl : l.Nodup) (attr : VmaPages)
    (batch : List PageObject) :
    (l.foldl unmapPresentOneDeferred (attr, batch)).2 = batch ++ l.filterMap (pageOn ⟨0, 0, attr⟩) := by
  induction l generalizing attr batch with
  | nil => simp
  | cons vpn l ih =>
    obtain ⟨hnew, hl⟩ := nodup_cons.mp hl
    have hne : ∀ w ∈ l, w ≠ vpn := fun w hw => ne_of_mem_of_not_mem hw hnew
    rw [foldl_cons, unmapPresentOneDeferred]
    cases hcache : attr.directCachePages vpn with
    | some page =>
      dsimp only
      rw [ih hl, append_assoc, filterMap_cons_some (b := .cache page) (by simp [pageOn, hcache])]
      refine congrArg _ (congrArg _ (filterMap_congr fun w hw => ?_))
      simp [pageOn, update_of_ne (hne w hw)]
    | none =>
      cases hframe : attr.dataFrames vpn with
      | some page =>
        dsimp only
        rw [ih hl, append_assoc, filterMap_cons_some (b := .frame page) (by simp [pageOn, hcache, hframe])]
        refine congrArg _ (congrArg _ (filterMap_congr fun w hw => ?_))
        simp [pageOn, update_of_ne (hne w hw)]
      | none =>
        dsimp only
        rw [ih hl, filterMap_cons_none (by simp [pageOn, hcache, hframe])]

theorem unmapPages_eq (area : PagedVma) (lo hi : ℕ) :
    area.unmapPages lo hi = (range' lo (hi - lo)).filterMap area.pageOn := by
  unfold unmapPages
  rw [foldl_unmapPresentOneDeferred nodup_range', nil_append]
  refine filterMap_congr fun vpn hvpn => ?_
  rw [mem_range'_1] at hvpn
  simp only [pageOn, splitRight, splitLeft, if_pos hvpn.1, if_pos (show vpn < hi by omega)]

section

variable (harea : Held area) (hother : Held other) (h : area.vma.canMergeWith other.vma)

include harea hother h

/-- Areas that are merged have no file, so neither has cache pages to lose. -/
theorem pageOn_absorb (vpn : ℕ) : (area.Contains vpn →
      pageOn ⟨area.start, other.stop, area.absorb other⟩ vpn = area.pageOn vpn) ∧
    (other.Contains vpn →
      pageOn ⟨area.start, other.stop, area.absorb other⟩ vpn = other.pageOn vpn) := by
  obtain ⟨hadj, hattr, hfile⟩ := Vma.canMergeWith_iff.mp h
  have hadj : area.stop = other.start := hadj
  have hcache := harea.cached hfile vpn
  have hcache' := hother.cached ((congrArg VmaInfo.file hattr).trans hfile) vpn
  simp only [pageOn, absorb, hcache, hcache', Option.map_none, Option.none_or]
  constructor
  · intro hin
    have hout : ¬ other.Contains vpn := fun hin' => absurd hin.2 (by have := hin'.1; omega)
    rw [(hother.inside vpn hout).1, Option.none_or]
  · intro hin
    have hout : ¬ area.Contains vpn := fun hin' => absurd hin.1 (by have := hin'.2; omega)
    rw [(harea.inside vpn hout).1, Option.or_none]

theorem held_absorb (hpos : area.start < area.stop) (hpos' : other.start < other.stop) :
    Held ⟨area.start, other.stop, area.absorb other⟩ := by
  obtain ⟨hadj, hattr, hfile⟩ := Vma.canMergeWith_iff.mp h
  have hadj : area.stop = other.start := hadj
  have hcache := harea.cached hfile
  refine ⟨fun vpn hout => ?_, fun vpn => .inl (hcache vpn), fun _ => hcache⟩
  simp only [absorb, Option.or_eq_none_iff, and_assoc]
  -- the two areas are neighbours, so what is outside of the new one is outside of both
  refine ⟨(hother.inside vpn fun hin => hout ?_).1, harea.inside vpn fun hin => hout ?_⟩
  · exact ⟨by have := hin.1; simp only; omega, hin.2⟩
  · exact ⟨hin.1, by have := hin.2; simp only; omega⟩

end

end PagedVma

theorem pagedEdit_lawful : pagedEdit.Lawful PagedVma.Held PagedVma.viewOn Prod.snd where
  before area n h _ _ := ⟨PagedVma.held_splitLeft h n, fun _ _ hvpn => PagedVma.viewOn_splitLeft hvpn⟩
  behind area n h hn _ :=
    ⟨PagedVma.held_splitRight h n, fun _ hvpn _ => PagedVma.viewOn_splitRight hn hvpn⟩
  taken area lo hi _ _ _ _ := PagedVma.unmapPages_eq area lo hi
  adjacent area other h := (Vma.canMergeWith_iff.mp h).1
  joined area other harea hother hpos hpos' h := by
    refine ⟨PagedVma.held_absorb harea hother h hpos hpos', fun vpn => ?_⟩
    have hinfo := @Vma.infoOn_of_canMergeWith _ _ area.start other.stop h vpn
    have hpage := PagedVma.pageOn_absorb harea hother h vpn
    exact ⟨fun hin => Prod.ext hinfo.1 (hpage.1 hin), fun hin => Prod.ext hinfo.2 (hpage.2 hin)⟩

namespace MemorySet

theorem mergeVmaAround_spec {vmas : AreaMap VmaPages} (h : ∀ area, area ∈ vmas → PagedVma.Held area)
    (key : ℕ) : (∀ area, area ∈ mergeVmaAround vmas key → PagedVma.Held area) ∧
      ∀ vpn, viewAt (mergeVmaAround vmas key) vpn = viewAt vmas vpn :=
  pagedEdit_lawful.foldl_mergeAround [key] h

/-- Unmapping fails on a range that is not wholly the user's, and cuts out any other. -/
theorem unmap_spec (m : MemorySet) (lo hi : ℕ) :
    match pagedEdit.unmap m.vmas lo hi with
    | none => ¬ UserCovered m.vmas lo hi
    | some (vmas, batch) => UserCovered m.vmas lo hi ∧ (∀ area, area ∈ vmas → PagedVma.Held area) ∧
        (∀ vpn, viewAt vmas vpn = if lo ≤ vpn ∧ vpn < hi then none else viewAt m.vmas vpn) ∧
        batch = (range' lo (hi - lo)).filterMap fun vpn => (viewAt m.vmas vpn).bind Prod.snd := by
  have h := pagedEdit_lawful.unmap_cut m.held lo hi
  cases hunmap : pagedEdit.unmap m.vmas lo hi with
  | none =>
    rw [hunmap] at h
    exact h
  | some done =>
    obtain ⟨vmas, batch⟩ := done
    rw [hunmap] at h
    obtain ⟨hcovered, between, keys, hcut, rfl⟩ := h
    obtain ⟨hheld, hview⟩ := pagedEdit_lawful.foldl_mergeAround keys hcut.ok
    exact ⟨hcovered, hheld, fun vpn => (hview vpn).trans (hcut.view vpn), hcut.taken⟩

/-- `munmap` refuses a range that is not wholly the user's.  From any other range it takes every page and
leaves the view of the rest alone; the batch has what the pages taken were mapped to, in order.  The areas
stay well-formed. -/
theorem munmap_exact (m : MemorySet) (startVa endVa : ℕ) :
    let lo := startVa / pageSize
    let hi := (endVa + (pageSize - 1)) / pageSize
    match m.munmapDeferred startVa endVa with
    | none => ¬ UserCovered m.vmas lo hi
    | some (vmas, batch) => UserCovered m.vmas lo hi ∧ (∀ area, area ∈ vmas → PagedVma.Held area) ∧
        (∀ vpn, viewAt vmas vpn = if lo ≤ vpn ∧ vpn < hi then none else viewAt m.vmas vpn) ∧
        batch = (range' lo (hi - lo)).filterMap fun vpn => (viewAt m.vmas vpn).bind Prod.snd :=
  unmap_spec m (startVa / pageSize) ((endVa + (pageSize - 1)) / pageSize)

end MemorySet

end CosmOS.Mm
