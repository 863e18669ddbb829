import CosmOS.PageCache.Invariants

/-!
# PageCache.Loads — a load in flight and the bytes of a write

A loader reads the device into the frame of a page without the page lock and publishes the page in
another section.  A write that covers a whole page, or a page past the old end of the file, does not
wait for it.

* `stored_bytes_stay`: as long as no page is evicted and no write stores in a page that is being
  loaded, the bytes of a write stay in their page, `valid_bytes` covers them, and a page that has
  data keeps it.
* `stored_bytes_overwritten`: without that condition a load overwrites the bytes of a write that has
  returned, and another one takes `UPTODATE` from a dirty page.
-/

namespace CosmOS.PageCache

open Function

variable {s s' s₁ : State} {e : Env} {t u : ThreadId} {p p' : Pc} {o : ObjId} {l : Label} {off : ℕ}
  {b : UInt8} {q : CachePage} {w : WriteCall} {m : ℕ}

/-! ## The byte of a page at a file offset -/

/-- The page has the byte `b` for the offset `off` of the file, and shows it. -/
def CachePage.Shows (q : CachePage) (off : ℕ) (b : UInt8) : Prop :=
  q.bytes (filePageOffset off) = b ∧ filePageOffset off < q.validBytes

open CachePage

/-- The iteration of a write stores at `off`. -/
def WriteCall.Covers (w : WriteCall) (off : ℕ) : Prop :=
  w.fileOff ≤ off ∧ off < w.fileOff + w.writable

open WriteCall

instance (w : WriteCall) (off : ℕ) : Decidable (w.Covers off) :=
  inferInstanceAs (Decidable (_ ∧ _))

theorem WriteCall.covers_page (h : w.Covers off) : filePageIndex off = w.pageIdx ∧
    filePageOffset off = w.pageOff + (off - w.fileOff) := by
  obtain ⟨hle, hlt⟩ := h
  have hw : w.writable ≤ pageSize - w.pageOff := min_le_left _ _
  simp only [pageIdx, pageOff, filePageIndex, filePageOffset, pageSize] at *
  omega

theorem WriteCall.not_covers_page (h : ¬ w.Covers off) (hidx : filePageIndex off = w.pageIdx) :
    ¬ (w.pageOff ≤ filePageOffset off ∧ filePageOffset off < w.pageOff + w.writable) := by
  intro hin
  apply h
  simp only [WriteCall.Covers, pageIdx, pageOff, filePageIndex, filePageOffset, pageSize] at *
  omega

theorem le_store_validBytes (pageOff writable oldSize m : ℕ) (src : ℕ → UInt8) :
    max q.validBytes (pageValidBytesForSize m q.index) ≤
      (q.store pageOff writable src oldSize m).validBytes := by
  show _ ≤ if max q.validBytes (pageValidBytesForSize m q.index) < q.validBefore oldSize then
    q.validBefore oldSize else max q.validBytes (pageValidBytesForSize m q.index)
  split <;> omega

/-- The page shows what the iteration stores, provided the file was long enough. -/
theorem shows_store_of_covers (hidx : q.index = w.pageIdx) (hcov : w.Covers off)
    (hfits : w.offset + w.buf.len ≤ m) :
    (q.store w.pageOff w.writable w.src w.oldSize m).Shows off (w.src (off - w.fileOff)) := by
  obtain ⟨hpage, hpos⟩ := covers_page hcov
  constructor
  · show blit q.bytes w.pageOff w.writable w.src (filePageOffset off) = _
    rw [hpos, blit_of_mem (Nat.le_add_right _ _)]
    · rw [Nat.add_sub_cancel_left]
    · have hlt := hcov.2
      have hle := hcov.1
      omega
  · have hroom : off < m := by
      obtain ⟨hle, hlt⟩ := hcov
      have hw : w.writable ≤ w.buf.len - w.done := Nat.min_le_right _ _
      unfold fileOff at hle hlt
      omega
    have hvalid := filePageOffset_lt_valid hroom
    rw [hpage, ← hidx] at hvalid
    have hle := le_store_validBytes (q := q) w.pageOff w.writable w.oldSize m w.src
    omega

theorem shows_store_of_not_covers (hidx : filePageIndex off = w.pageIdx) (hcov : ¬ w.Covers off)
    (h : q.Shows off b) : (q.store w.pageOff w.writable w.src w.oldSize m).Shows off b := by
  constructor
  · exact (blit_of_not_mem (not_covers_page hcov hidx)).trans h.1
  · have hle := le_store_validBytes (q := q) w.pageOff w.writable w.oldSize m w.src
    have hlt := h.2
    omega

theorem CachePage.Shows.markDirty (h : q.Shows off b) : q.markDirty.Shows off b := by
  unfold CachePage.Shows
  rwa [markDirty_bytes, markDirty_validBytes]

/-! ## The bytes of the writes -/

/-- Every byte that a write stored last is in the page of the index, which has data and shows it. -/
def Kept (s : State) : Prop :=
  ∀ off b, s.written off = some b → ∃ o, s.pages (filePageIndex off) = some o ∧
    (s.obj o).uptodate = true ∧ (s.obj o).Shows off b

theorem storeWrite_written (s : State) (o : ObjId) (m : ℕ) (w : WriteCall) (off : ℕ) :
    (s.storeWrite o m w).written off =
      if w.Covers off then some (w.src (off - w.fileOff)) else s.written off := rfl

/-- What a section does to a page that has data and is not stored in. -/
theorem Effect.shows (he : Effect s e (s.pc t) p' s₁) (h : Inv s) (ho : o < s.made)
    (hup : (s.obj o).uptodate = true)
    (hstore : ∀ m w, s.pc t = .writeStore o m w → s₁ = s.storeWrite o m w →
      filePageIndex off = w.pageIdx ∧ ¬ w.Covers off) (hsh : (s.obj o).Shows off b) :
    (s₁.obj o).Shows off b := by
  have hset : ∀ {o' : ObjId} {q : CachePage}, (o = o' → q.Shows off b) →
      (update s.obj o' q o).Shows off b := by
    intro o' q hq
    rcases eq_or_ne o o' with rfl | hoo
    · rw [update_self]
      exact hq rfl
    · rwa [update_of_ne hoo]
  -- a loader has no page that has data
  have hnoload : o ∉ (s.pc t).loads := by
    intro hmem
    rw [(h.flags.sane o).stale (h.claims.loads.flagged t o hmem)] at hup
    cases hup
  cases he with
  | quiet | choose | grow | find | pick | device | remove | giveUp => exact hsh
  | make i ppn =>
    have hobj : (s.addPage i ppn).obj o = s.obj o := update_of_ne (ne_of_lt ho) ..
    rwa [hobj]
  | touch | beginLoad | retain | release | beginFlush | mark | restore | endFlush =>
    exact hset fun hoo => hoo ▸ hsh
  | fill obj hobj =>
    show (obj o).Shows off b
    rwa [(hobj o).resolve_right fun hl => hnoload hl.1]
  | finish c v pins get b hc hv hk hframe learnt hg hl =>
    refine hset fun hoo => absurd ?_ hnoload
    rw [hoo]
    exact hl.mem_iff.mpr (.head _)
  | store o' m w hp =>
    rw [storeWrite_obj]
    refine hset fun hoo => ?_
    subst hoo
    obtain ⟨hidx, hcov⟩ := hstore m w hp rfl
    exact (shows_store_of_not_covers hidx hcov hsh).markDirty
  | dirty c => exact hset fun hoo => hoo ▸ hsh.markDirty

/-- A section stores bytes of a write, or it stores none. -/
theorem Effect.history (he : Effect s e p p' s₁) :
    (s₁.written = s.written ∧ s₁.stamp = s.stamp ∧ s₁.clock = s.clock) ∨
      ∃ o m w, p = .writeStore o m w ∧ s₁ = s.storeWrite o m w := by
  cases he with
  | store o m w hp => exact .inr ⟨o, m, w, hp, rfl⟩
  | _ => exact .inl ⟨rfl, rfl, rfl⟩

/-- Only the reclaimer takes a page out of the index. -/
theorem Effect.pages (he : Effect s e p p' s₁) (hno : ∀ o, p ≠ .reclaimRemove o) {i : ℕ}
    (hi : s.pages i = some o) : s₁.pages i = some o := by
  cases he with
  | make j ppn hpage =>
    refine (update_of_ne ?_ ..).trans hi
    rintro rfl
    simp [hpage] at hi
  | remove o' hp => exact absurd hp (hno o')
  | _ => exact hi

/-- Stored bytes outlive every section but an eviction. -/
theorem Kept.effect (hk : Kept s) (h : Inv s) (he : Effect s e (s.pc t) p' s₁)
    (hno : ∀ o, s.pc t ≠ .reclaimRemove o) : Kept (s₁.goto t p') := by
  -- a byte stored before this section stays
  have hold : ∀ off b, s.written off = some b →
      (∀ o m w, s.pc t = .writeStore o m w → s₁ = s.storeWrite o m w → ¬ w.Covers off) →
      ∃ o, s₁.pages (filePageIndex off) = some o ∧ (s₁.obj o).uptodate = true ∧
        (s₁.obj o).Shows off b := by
    intro off b hw hcov
    obtain ⟨o, hpage, hup, hsh⟩ := hk off b hw
    have hmade := (h.places.index _ o hpage).2
    refine ⟨o, he.pages hno hpage, he.uptodate h.claims h.flags.sane hmade hup, ?_⟩
    refine he.shows h hmade hup (fun m w hp hs => ⟨?_, hcov o m w hp hs⟩) hsh
    have hheld := (h.places.held t (w.pageIdx, o) (hp ▸ .head _)).1
    rw [← (h.places.index _ o hpage).1, (h.places.index _ o hheld).1]
  intro off b hw
  rcases he.history with ⟨hsame, -, hclock⟩ | ⟨o, m, w, hp, rfl⟩
  · refine hold off b (hsame ▸ hw) fun o m w _ hs => ?_
    rw [hs] at hclock
    exact absurd hclock (Nat.succ_ne_self _)
  · rw [show ((s.storeWrite o m w).goto t p').written off = _ from storeWrite_written s o m w off] at hw
    split at hw
    next hcov =>
      obtain rfl : w.src (off - w.fileOff) = b := Option.some.inj hw
      have hheld : (w.pageIdx, o) ∈ (s.pc t).held := by rw [hp]; exact .head _
      have hpage := (h.places.held t _ hheld).1
      have hfits : w.offset + w.buf.len ≤ m := by
        have hfits := h.fits t
        rw [hp] at hfits
        exact hfits.1
      refine ⟨o, ?_, ?_⟩
      · rwa [(covers_page hcov).1]
      show ((s.storeWrite o m w).obj o).uptodate = true ∧ ((s.storeWrite o m w).obj o).Shows off _
      rw [storeWrite_obj, update_self]
      refine ⟨markDirty_uptodate _ fun hd => ?_,
        (shows_store_of_covers (h.places.held_index hheld).1 hcov hfits).markDirty⟩
      have hup := (h.flags.sane o).fresh hd
      simp [store, hup]
    next hcov =>
      refine hold off b hw fun o' m' w' hp' _ => ?_
      rw [hp] at hp'
      obtain ⟨-, -, rfl⟩ := Pc.writeStore.inj hp'
      exact hcov

/-! ## Runs without eviction -/

/-- The next section of the thread does not begin to evict a page and does not store in a page that
is being loaded. -/
def State.settled (s : State) (t : ThreadId) : Bool :=
  match s.pc t with
  | .reclaimDecide o => !(s.obj o).evictable
  | .writeStore o _ _ => !(s.obj o).loading
  | _ => true

/-- No page is evicted, and no write stores in a page that is being loaded. -/
def StoresSettled (s : State) (l : Label) : Prop :=
  (match l with
    | .run t _ => s.settled t
    | _ => true) = true

instance (s : State) (l : Label) : Decidable (StoresSettled s l) :=
  inferInstanceAs (Decidable (_ = true))

theorem Effect.evicting (he : Effect s e (s.pc t) p' s₁) (hset : s.settled t = true)
    (h : ∀ o, (s.obj o).evicting = false) : ∀ o, (s₁.obj o).evicting = false := by
  have hupd : ∀ {o : ObjId} {q : CachePage}, q.evicting = false →
      ∀ o', (update s.obj o q o').evicting = false :=
    fun hq => setObj_cases (P := fun _ q => q.evicting = false) hq fun o' _ => h o'
  cases he with
  | quiet | choose | grow | find | pick | device | remove | giveUp => exact h
  | make | restore => exact hupd rfl
  | touch o | release o => exact hupd (h o)
  | beginLoad c | finish c | retain c | beginFlush c | endFlush c => exact hupd (h c.2)
  | fill obj hobj =>
    intro o
    show (obj o).evicting = false
    rcases hobj o with ho | ⟨-, bytes, ho⟩ <;> rw [ho] <;> exact h o
  | store o m w =>
    rw [storeWrite_obj]
    exact hupd ((markDirty_evicting _).trans (h o))
  | dirty c => exact hupd ((markDirty_evicting _).trans (h c.2))
  | mark o hp hev => simp [State.settled, hp, hev] at hset

theorem careful_of_settled (h : ∀ o, (s.obj o).evicting = false) (hset : s.settled t = true) :
    Careful s t where
  finds := fun _ _ o _ => h o
  evicts := fun o hp hev => by simp [State.settled, hp, hev] at hset
  stores := fun o m w hp => by simpa [State.settled, hp] using hset

theorem sound_of_storesSettled (h : ∀ o, (s.obj o).evicting = false) (hset : StoresSettled s l) :
    Sound s l := by
  rintro t e rfl
  exact careful_of_settled h hset

theorem next_evicting (hr : Regular s) (h : ∀ o, (s.obj o).evicting = false) (hset : StoresSettled s l)
    (hn : s.next l = some s') : ∀ o, (s'.obj o).evicting = false := by
  cases l with
  | unmap o =>
    rcases Option.ite_none_right_eq_some.mp hn with ⟨_, ⟨⟩⟩
    exact setObj_cases (P := fun _ q => q.evicting = false) (h o) fun o' _ => h o'
  | run t e =>
    obtain ⟨s₁, p', rfl, he⟩ := next_effect hr (sound_of_storesSettled h hset) hn
    exact he.evicting hset h
  | _ => rwa [(next_begins hn nofun nofun).2]

/-- What holds along a run without eviction whose stores are settled. -/
structure SettledInv (s : State) : Prop where
  inv : Inv s
  kept : Kept s
  live : ∀ o, (s.obj o).evicting = false

theorem SettledInv.boot (f : File) : SettledInv (boot f) where
  inv := .boot f
  kept := fun _ _ h => by simp [PageCache.boot] at h
  live := fun _ => rfl

/-- Nobody is evicting a page. -/
theorem SettledInv.ne_reclaimRemove (h : SettledInv s) (t : ThreadId) (o : ObjId) :
    s.pc t ≠ .reclaimRemove o := by
  intro hp
  have hev := h.inv.places.evicts.flagged t o (hp ▸ .head _)
  rw [h.live o] at hev
  cases hev

theorem SettledInv.next (h : SettledInv s) (hset : StoresSettled s l) (hn : s.next l = some s') :
    SettledInv s' := by
  have hs := sound_of_storesSettled h.live hset
  refine ⟨h.inv.next hs hn, ?_, next_evicting h.inv.regular h.live hset hn⟩
  obtain ⟨s₁, p', rfl, he⟩ := next_effect h.inv.regular hs hn
  exact h.kept.effect h.inv he (h.ne_reclaimRemove _)

theorem settledInv_of_reach (h : machine.Reach StoresSettled s) : SettledInv s := by
  refine h.invariant ?_ fun s l s' hI hl hn => hI.next hl hn
  rintro s ⟨f, rfl⟩
  exact .boot f

/-- In every run in which no page is evicted and no write stores in a page that is being loaded:
the bytes of the writes are in the pages of the index and lie below `valid_bytes`, and no step takes
a page out of the index or the data from a page that has it. -/
theorem stored_bytes_stay (h : machine.Reach StoresSettled s) :
    (∀ off b, s.written off = some b → ∃ o, s.pages (filePageIndex off) = some o ∧
      (s.obj o).bytes (filePageOffset off) = b ∧ filePageOffset off < (s.obj o).validBytes) ∧
    ∀ l s', StoresSettled s l → machine.next s l = some s' → ∀ i o, s.pages i = some o →
      s'.pages i = some o ∧ ((s.obj o).uptodate = true → (s'.obj o).uptodate = true) := by
  have hI := settledInv_of_reach h
  constructor
  · intro off b hw
    obtain ⟨o, hpage, -, hsh⟩ := hI.kept off b hw
    exact ⟨o, hpage, hsh⟩
  · intro l s' hl hn i o hpage
    obtain ⟨s₁, p', rfl, he⟩ := next_effect hI.inv.regular (sound_of_storesSettled hI.live hl) hn
    exact ⟨he.pages (hI.ne_reclaimRemove _) hpage,
      he.uptodate hI.inv.claims hI.inv.flags.sane (hI.inv.places.index i o hpage).2⟩

def onePage : File where
  len := 4096
  byte := fun x => if x < 4096 then 1 else 0
  zeroed := fun _ hx => if_neg (Nat.not_lt.mpr hx)

/-- Some frame, and a device that moves whatever it is asked to. -/
def ample : Env := ⟨some 0, 8192⟩

def steps (t : ThreadId) (n : ℕ) : List Label := List.replicate n (.run t ample)

/-- A write of the second page, while the first one is being loaded. -/
def writeBesideLoad : List Label :=
  .loadRange 0 0 1 :: steps 0 7 ++ .write 1 4096 ⟨4096, fun _ => 7⟩ :: steps 1 7 ++ steps 0 4

theorem stored_bytes_stay_beside_load : ∃ s, machine.Reach StoresSettled s ∧
    s.written 4096 = some 7 ∧ (∃ o, s.pages (filePageIndex 4096) = some o ∧
      (s.obj o).bytes (filePageOffset 4096) = 7 ∧ filePageOffset 4096 < (s.obj o).validBytes) := by
  obtain ⟨s, hs, hw⟩ := machine.exists_reach_of_runWhile StoresSettled
    (fun s => s.written 4096 = some 7) writeBesideLoad (init_boot onePage) (by decide)
  exact ⟨s, hs, hw, (stored_bytes_stay hs).1 4096 7 hw⟩

def loadsOrWrites (_ : State) (l : Label) : Prop :=
  (match l with
    | .write .. | .loadRange .. | .run .. => true
    | _ => false) = true

instance (s : State) (l : Label) : Decidable (loadsOrWrites s l) :=
  inferInstanceAs (Decidable (_ = true))

/-- The write of the whole page happens between the first section of the load and its device
transfer. -/
def writeDuringLoad : List Label :=
  .loadRange 0 0 1 :: steps 0 7 ++ .write 1 0 ⟨4096, fun _ => 7⟩ :: steps 1 7 ++ steps 0 4

/-- A write past the end stores in a page that a load has marked before; the device has nothing. -/
def extendDuringLoad : List Label :=
  .write 1 4096 ⟨100, fun _ => 7⟩ :: steps 1 2 ++
    .loadRange 0 0 2 :: steps 0 9 ++ steps 1 5 ++ steps 0 4

/-- A load overwrites the bytes of a write that has returned, and a load takes the data from a dirty
page. -/
theorem stored_bytes_overwritten :
    (∃ s, machine.Reach loadsOrWrites s ∧ s.pc 1 matches .idle ∧ s.written 0 = some 7 ∧
      ∃ o, s.pages (filePageIndex 0) = some o ∧ (s.obj o).bytes (filePageOffset 0) = 1) ∧
    ∃ s l s', machine.Reach loadsOrWrites s ∧ loadsOrWrites s l ∧ machine.next s l = some s' ∧
      ∃ o, s.pages 1 = some o ∧ (s.obj o).dirty = true ∧ (s.obj o).uptodate = true ∧
        (s'.obj o).uptodate = false ∧ (s'.obj o).validBytes = 0 := by
  constructor
  · obtain ⟨s, hs, hp⟩ := machine.exists_reach_of_runWhile
      loadsOrWrites (fun s => (s.pc 1 matches .idle) && (s.written 0 == some 7) &&
        (s.pages (filePageIndex 0)).any fun o => (s.obj o).bytes (filePageOffset 0) == 1)
      writeDuringLoad (init_boot onePage) (by decide)
    simp only [Bool.and_eq_true, Option.any_eq_true, beq_iff_eq] at hp
    exact ⟨s, hs, hp.1.1, hp.1.2, hp.2⟩
  · obtain ⟨s, hs, hp⟩ := machine.exists_reach_of_runWhile
      loadsOrWrites (fun s => (s.next (.run 0 ample)).any fun s' => (s.pages 1).any fun o =>
        (s.obj o).dirty && (s.obj o).uptodate && !(s'.obj o).uptodate && (s'.obj o).validBytes == 0)
      extendDuringLoad (init_boot SparseFile.empty) (by decide)
    simp only [Bool.and_eq_true, Option.any_eq_true, beq_iff_eq, Bool.not_eq_true'] at hp
    obtain ⟨s', hn, o, hpage, ⟨⟨hd, hup⟩, hup'⟩, hv⟩ := hp
    exact ⟨s, .run 0 ample, s', hs, rfl, hn, o, hpage, hd, hup, hup', hv⟩

end CosmOS.PageCache
