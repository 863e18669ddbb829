import CosmOS.PageCache.Flushing
import CosmOS.PageCache.Reading
import CosmOS.PageCache.Resizing
import CosmOS.PageCache.Writing

/-!
# PageCache.Refinement — the page cache refines a byte-array file

The runs of `machine` are the sequences of operations on one mapping, beside the file that its callers
mean.  As long as no operation changes the number of in-file bytes of a cached page that it does not
visit (`Steady`), the mapping represents that file (`Reach.represents`): every operation returns, reads
give the bytes of the file, and a sync brings all of them to the backing file.

A write past the end of the file breaks this.  It leaves the old last page as short as it was: a read
of the gap gives nothing (`sparse_write_stops_reads`), and one that goes on past the gap does not
return (`readOuter_stuck`).
-/

namespace CosmOS.PageCache

open Option

/-! ## Fuel

A call that returns returns the same with more fuel.
-/

section Fuel

variable {frames : Frames} {fuel k : ℕ} {m m' : Mapping} {w : WriteCall} {r : ReadCall}
  {result : Mapping × ReadCall} {l : List ℕ}

theorem writeLoop_mono (h : writeLoop frames fuel m w = some m') (hle : fuel ≤ k) :
    writeLoop frames k m w = some m' := by
  induction fuel generalizing k m w with
  | zero =>
    rw [writeLoop] at h
    split at h
    · cases h
    next hdone =>
      cases k <;> rwa [writeLoop, if_neg hdone]
  | succ fuel ih =>
    obtain ⟨k, rfl⟩ := Nat.exists_eq_succ_of_ne_zero (n := k) (by omega)
    rw [writeLoop] at h ⊢
    split at h
    next hlt =>
      obtain ⟨m₁, hm₁, hrest⟩ := bind_eq_some_iff.mp h
      rw [if_pos hlt, hm₁]
      exact ih hrest (by omega)
    next hdone =>
      rwa [if_neg hdone]

theorem readInner_mono (h : readInner frames fuel m r = some result) (hle : fuel ≤ k) :
    readInner frames k m r = some result := by
  induction fuel generalizing k m r with
  | zero => cases h
  | succ fuel ih =>
    obtain ⟨k, rfl⟩ := Nat.exists_eq_succ_of_ne_zero (n := k) (by omega)
    rw [readInner] at h ⊢
    split at h
    next hcond =>
      obtain ⟨m₁, hm₁, hrest⟩ := bind_eq_some_iff.mp h
      rw [if_pos hcond, hm₁, bind_some]
      split at hrest
      next hzero =>
        rwa [if_pos hzero]
      next hzero =>
        rw [if_neg hzero]
        exact ih hrest (by omega)
    next hcond =>
      rwa [if_neg hcond]

theorem readOuter_mono (h : readOuter frames fuel m r = some result) (hle : fuel ≤ k) :
    readOuter frames k m r = some result := by
  induction fuel generalizing k m r with
  | zero => cases h
  | succ fuel ih =>
    obtain ⟨k, rfl⟩ := Nat.exists_eq_succ_of_ne_zero (n := k) (by omega)
    rw [readOuter] at h ⊢
    split at h
    next hlt =>
      obtain ⟨window, hwindow, hrest⟩ := bind_eq_some_iff.mp h
      rw [if_pos hlt, readInner_mono hwindow (by omega)]
      exact ih hrest (by omega)
    next hlt =>
      rwa [if_neg hlt]

theorem flushDirtyPages_mono (h : flushDirtyPages fuel m l = some m') (hle : fuel ≤ k) :
    flushDirtyPages k m l = some m' := by
  induction fuel generalizing k m l with
  | zero =>
    cases l with
    | nil => cases k <;> exact h
    | cons i l => cases h
  | succ fuel ih =>
    obtain ⟨k, rfl⟩ := Nat.exists_eq_succ_of_ne_zero (n := k) (by omega)
    have hle : fuel ≤ k := by omega
    cases l with
    | nil => exact h
    | cons i l =>
      rw [flushDirtyPages] at h ⊢
      split at h
      · exact ih h hle
      case h_2 | h_3 =>
        obtain ⟨m₁, hm₁, hrest⟩ := bind_eq_some_iff.mp h
        rw [hm₁]
        exact ih hrest hle
      · exact ih h hle

variable {answer : Mapping × Slice UInt8}

theorem Mapping.readSlow_mono {offset len : ℕ} (h : m.readSlow fuel frames offset len = some answer)
    (hle : fuel ≤ k) :
    m.readSlow k frames offset len = some answer := by
  unfold Mapping.readSlow at *
  split at h
  next hend =>
    rwa [if_pos hend]
  next hend =>
    obtain ⟨result, hresult, hanswer⟩ := map_eq_some_iff.mp h
    rw [if_neg hend, readOuter_mono hresult hle]
    exact congrArg some hanswer

theorem Mapping.exec_mono {op : Op} (h : m.exec fuel frames op = some answer) (hle : fuel ≤ k) :
    m.exec k frames op = some answer := by
  cases op with
  | read offset len =>
    have h : m.readMapping fuel frames offset len = some answer := h
    show m.readMapping k frames offset len = some answer
    unfold Mapping.readMapping at *
    split at h
    next hlen =>
      rwa [if_pos hlen]
    rename_i hlen
    rw [if_neg hlen]
    split at h
    next hpage =>
      rw [if_pos hpage]
      split at h
      · exact h
      · exact readSlow_mono h hle
    next hpage =>
      rw [if_neg hpage]
      exact readSlow_mono h hle
  | write offset buf =>
    obtain ⟨m', hm', hanswer⟩ := map_eq_some_iff.mp h
    have hmono : m.writeMapping k frames offset buf = some m' := by
      unfold Mapping.writeMapping at *
      split at hm'
      next hlen =>
        rwa [if_pos hlen]
      next hlen =>
        rw [if_neg hlen]
        exact writeLoop_mono hm' hle
    exact map_eq_some_iff.mpr ⟨m', hmono, hanswer⟩
  | truncate | fallocate | load | reclaim => exact h
  | sync =>
    obtain ⟨m', hm', hanswer⟩ := map_eq_some_iff.mp h
    exact map_eq_some_iff.mpr ⟨m', flushDirtyPages_mono hm' hle, hanswer⟩

end Fuel

namespace Mapping

/-- An operation, with the fuel for its loops and the frames it gets. -/
structure Call where
  op : Op
  fuel : ℕ
  frames : Frames

/-- Operations on one mapping, beside the file that they mean. -/
def machine : Machine (Mapping × File) Call where
  Init := fun s => s.1 = new s.2
  next := fun s c =>
    (s.1.exec c.fuel c.frames c.op).map fun result => (result.1, c.op.apply s.2)

/-- The operation changes the number of bytes in the file of no cached page but those it visits. -/
def Steady (m : Mapping) : Op → Prop
  | .write offset buf => 0 < buf.len → m.SteadyWrite offset buf.len
  | .truncate newSize => m.SteadyTruncate newSize
  | .fallocate offset len => m.size < offset + len → m.SteadyGrowth (offset + len)
  | _ => True

variable {m : Mapping} {f : File} {op : Op}

theorem represents_new (f : File) : (new f).Represents f :=
  ⟨⟨rfl, nofun, fun _ _ _ _ => rfl, nofun, le_rfl⟩, .inl rfl, nofun⟩

/-- What an operation does: it returns, and the mapping stands for the file that it means. -/
structure Refines (m : Mapping) (f : File) (frames : Frames) (op : Op) (m' : Mapping)
    (bytes : Slice UInt8) : Prop where
  returns : ∃ n, ∀ fuel, n ≤ fuel → m.exec fuel frames op = some (m', bytes)
  represents : m'.Represents (op.apply f)
  answers : ∀ offset len, op = .read offset len → Answers f offset len bytes
  synced : op = .sync → m'.backing = f

theorem Represents.exec (h : m.Represents f) (hsteady : m.Steady op) (frames : Frames) :
    ∃ m' bytes, Refines m f frames op m' bytes := by
  cases op with
  | read offset len =>
    obtain ⟨m', bytes, hrun, hm', hanswers⟩ := h.readMapping frames offset len
    exact ⟨m', bytes, ⟨len + 2, hrun⟩, hm', by rintro _ _ ⟨⟩; exact hanswers, nofun⟩
  | write offset buf =>
    obtain ⟨m', hrun, hm'⟩ := h.writeMapping frames hsteady
    refine ⟨m', noBytes, ⟨buf.len, fun fuel hfuel => ?_⟩, hm', nofun, nofun⟩
    exact congrArg (Option.map _) (hrun fuel hfuel)
  | truncate newSize =>
    exact ⟨_, noBytes, ⟨0, fun _ _ => rfl⟩, h.truncateMapping hsteady, nofun, nofun⟩
  | fallocate offset len =>
    exact ⟨_, noBytes, ⟨0, fun _ _ => rfl⟩, h.fallocateMapping hsteady, nofun, nofun⟩
  | load first count =>
    exact ⟨_, noBytes, ⟨0, fun _ _ => rfl⟩, h.loadPageRange frames first count, nofun, nofun⟩
  | sync =>
    obtain ⟨m', hrun, hm', hbacking⟩ := h.syncMapping
    refine ⟨m', noBytes, ⟨m.dirtyPages.length, fun fuel hfuel => ?_⟩, hm', nofun, fun _ => hbacking⟩
    exact congrArg (Option.map _) (hrun fuel hfuel)
  | reclaim i =>
    obtain ⟨m', hrun, hm'⟩ := h.reclaimOne i
    exact ⟨m', noBytes, ⟨0, fun _ _ => congrArg (Option.map _) hrun⟩, hm', nofun, nofun⟩

/-- A run of steady operations keeps the mapping and the file together. -/
theorem Reach.represents (h : machine.Reach (fun s c => s.1.Steady c.op) (m, f)) :
    m.Represents f := by
  refine Machine.Reach.invariant (P := fun s : Mapping × File => s.1.Represents s.2) ?_ ?_ h
  · rintro ⟨m, f⟩ hinit
    obtain rfl : m = new f := hinit
    exact represents_new f
  · rintro ⟨m, f⟩ c s' hrep hsteady hn
    obtain ⟨m', bytes, hrefines⟩ := hrep.exec hsteady c.frames
    obtain ⟨n, hrun⟩ := hrefines.returns
    obtain ⟨answer, hanswer, rfl⟩ := map_eq_some_iff.mp hn
    -- the call returns the same with the fuel that is enough
    have hmore := exec_mono hanswer (Nat.le_max_left c.fuel n)
    rw [hrun _ (Nat.le_max_right c.fuel n)] at hmore
    rw [← some.inj hmore]
    exact hrefines.represents

/-- The page cache refines a byte-array file, in every run of steady operations: the next operation
returns, a read gives the bytes of the file, and after a sync the backing file is the file. -/
theorem cache_refines_file (h : machine.Reach (fun s c => s.1.Steady c.op) (m, f))
    (hsteady : m.Steady op) (frames : Frames) :
    ∃ n m' bytes, (∀ fuel, n ≤ fuel → m.exec fuel frames op = some (m', bytes)) ∧
      (∀ offset len, op = .read offset len → Answers f offset len bytes) ∧
      (op = .sync → m'.backing = f) := by
  obtain ⟨m', bytes, hrefines⟩ := (Reach.represents h).exec hsteady frames
  obtain ⟨n, hrun⟩ := hrefines.returns
  exact ⟨n, m', bytes, hrun, hrefines.answers, hrefines.synced⟩

/-! ## Operations that are always steady -/

/-- The operations of a program that writes without gaps and does not resize the file. -/
def appends (m : Mapping) : Op → Bool
  | .write offset _ => decide (offset ≤ m.size)
  | .truncate _ | .fallocate _ _ => false
  | _ => true

theorem steady_of_appends (h : m.appends op = true) : m.Steady op := by
  cases op with
  | write offset buf =>
    -- a write that leaves no gap visits all pages that it makes longer
    intro hpos i _ hne
    have hle : offset ≤ m.size := of_decide_eq_true h
    simp only [pageValidBytesForSize, pageStart, filePageIndex, pageSize] at hne ⊢
    omega
  | truncate | fallocate => cases h
  | _ => trivial

/-- A file is written in two calls, synced and reclaimed; a read loads it again. -/
theorem cache_refines_file_reclaimed : ∃ m f,
    (machine.Reach (fun s c => s.1.Steady c.op) (m, f) ∧ f.len = 15 ∧ m.pages 0 = none) ∧
    ∃ n m' bytes, (∀ fuel, n ≤ fuel → m.exec fuel id (.read 0 20) = some (m', bytes)) ∧
      Answers f 0 20 bytes := by
  obtain ⟨⟨m, f⟩, hs, hlen, hnone⟩ := machine.exists_reach_of_runWhile (fun s c => s.1.appends c.op = true)
    (fun s => s.2.len = 15 ∧ (s.1.pages 0).isNone)
    ([.write 0 ⟨10, fun _ => 7⟩, .write 10 ⟨5, fun _ => 9⟩, .sync, .reclaim 0, .reclaim 0].map
      fun op => ⟨op, 20, id⟩)
    (show (new SparseFile.empty, SparseFile.empty).1 = new SparseFile.empty from rfl)
    (by decide)
  have hreach : machine.Reach (fun s c => s.1.Steady c.op) (m, f) :=
    hs.mono fun _ _ => steady_of_appends
  have hsteady : m.Steady (.read 0 20) := trivial
  obtain ⟨n, m', bytes, hrun, hanswers, -⟩ := cache_refines_file hreach hsteady id
  exact ⟨m, f, ⟨hreach, hlen, isNone_iff_eq_none.mp hnone⟩, n, m', bytes, hrun, hanswers 0 20 rfl⟩

end Mapping

/-! ## A page that is too short -/

section Stuck

variable {frames : Frames} {m : Mapping} {r : ReadCall} {p : CachePage}

/-- Pages that have data are not loaded again. -/
theorem markRange_of_uptodate (l : List ℕ)
    (h : ∀ i, i ∈ l → ∃ p, m.pages i = some p ∧ p.uptodate = true) :
    markRange frames l m [] = (m, []) := by
  induction l with
  | nil => rfl
  | cons i l ih =>
    obtain ⟨p, hp, hup⟩ := h i (.head _)
    rw [markRange, Mapping.getOrCreatePage_of_some hp, Mapping.page_of_some hp, hup]
    exact ih fun j hj => h j (.tail i hj)

/-- The pages of the window have data, and the first one ends before the position of the read. -/
structure Stuck (m : Mapping) (r : ReadCall) : Prop where
  before : r.fileOff < r.stop
  ready : ∀ i, i ∈ List.range' r.pageIdx r.windowPages →
    ∃ p, m.pages i = some p ∧ p.uptodate = true
  short : ∃ p, m.pages r.pageIdx = some p ∧ p.uptodate = true ∧ p.validBytes ≤ r.pageOff

/-- The read then copies nothing and tries again. -/
theorem Stuck.window (h : Stuck m r) (frames : Frames) (fuel : ℕ) :
    ∃ m', readInner frames (fuel + 1) (m.loadPageRange frames r.pageIdx r.windowPages) r.openWindow =
      some (m', r.openWindow) ∧ Stuck m' r.openWindow := by
  obtain ⟨p, hp, hup, hshort⟩ := h.short
  have hload : m.loadPageRange frames r.pageIdx r.windowPages = m := by
    unfold Mapping.loadPageRange
    rw [markRange_of_uptodate _ h.ready]
    rfl
  have hpage : m.getOrLoadPage frames r.pageIdx =
      some (m.setPage r.pageIdx { p with refBit := true }) := by
    unfold Mapping.getOrLoadPage Mapping.ensurePageUptodate
    rw [Mapping.getOrCreatePage_of_some hp, Mapping.page_of_some hp]
    exact if_pos hup
  have hzero : r.openWindow.readable { p with refBit := true } = 0 := by
    show min (p.validBytes - r.pageOff) _ = 0
    omega
  refine ⟨m.setPage r.pageIdx { p with refBit := true }, ?_, h.before, fun i hi => ?_, _,
    Mapping.setPage_pages_self, hup, hshort⟩
  · rw [hload, readInner, if_pos ⟨h.before, ReadCall.lt_openWindow h.before⟩,
      show r.openWindow.pageIdx = r.pageIdx from rfl, hpage, bind_some,
      Mapping.setPage_page_self, if_pos hzero]
  · by_cases hi' : i = r.pageIdx
    · exact ⟨{ p with refBit := true }, by rw [hi', Mapping.setPage_pages_self], hup⟩
    · rw [Mapping.setPage_pages_of_ne hi']
      exact h.ready i hi

theorem readOuter_stuck (h : Stuck m r) (fuel : ℕ) : readOuter frames fuel m r = none := by
  induction fuel generalizing m r with
  | zero => rfl
  | succ fuel ih =>
    rw [readOuter, if_pos h.before]
    cases fuel with
    | zero => rfl
    | succ fuel =>
      obtain ⟨m', hwindow, hstuck⟩ := h.window frames fuel
      rw [hwindow]
      exact ih hstuck

end Stuck

/-- Ten bytes at the start of the file and one byte behind the next page boundary. -/
theorem sparse_write_stops_reads : ∃ m f, Mapping.machine.Reachable (m, f) ∧ f.len = 4097 ∧
    (∀ fuel frames, m.exec fuel frames (.read 10 4087) = none) ∧
    ∀ fuel frames, ∃ m' bytes, m.exec fuel frames (.read 10 5) = some (m', bytes) ∧
      bytes.len = 0 := by
  obtain ⟨⟨m, f⟩, hs, hlen, hsize, hzero, hone⟩ := Mapping.machine.exists_reachable_of_run
    (fun s => s.2.len = 4097 ∧ s.1.size = 4097 ∧
      (s.1.pages 0).any (fun p : CachePage => p.uptodate && decide (p.validBytes = 10)) ∧
      (s.1.pages 1).any CachePage.uptodate)
    ([.write 0 ⟨10, fun _ => 7⟩, .write 4096 ⟨1, fun _ => 9⟩].map fun op => ⟨op, 20, id⟩)
    (show (Mapping.new SparseFile.empty, SparseFile.empty).1 = Mapping.new SparseFile.empty from rfl)
    (by decide)
  obtain ⟨p₀, hp₀, hpage⟩ := (any_eq_true _ _).mp hzero
  obtain ⟨p₁, hp₁, hup₁⟩ := (any_eq_true _ _).mp hone
  obtain ⟨hup₀, hvalid⟩ := Bool.and_eq_true_iff.mp hpage
  have hvalid : p₀.validBytes = 10 := of_decide_eq_true hvalid
  refine ⟨m, f, hs, hlen, fun fuel frames => ?_, fun fuel frames => ?_⟩
  · have hstuck : Stuck m ⟨10, 4097, 0, 0, fun _ => 0⟩ := by
      refine ⟨by decide, fun i hi => ?_, p₀, hp₀, hup₀, hvalid.le⟩
      -- the window has the pages 0 and 1
      have hi : i = 0 ∨ i = 1 := by
        have hrange : i ∈ [0, 1] := hi
        simpa using hrange
      rcases hi with rfl | rfl
      · exact ⟨p₀, hp₀, hup₀⟩
      · exact ⟨p₁, hp₁, hup₁⟩
    show m.readMapping fuel frames 10 4087 = none
    unfold Mapping.readMapping Mapping.readSlow
    rw [hsize]
    exact congrArg (Option.map _) (readOuter_stuck hstuck fuel)
  · have hhit : (m.readHit 10 5).2 =
        some ⟨min (p₀.validBytes - 10) 5, fun x => p₀.bytes (10 + x)⟩ := by
      have hp₀ : m.pages (filePageIndex 10) = some p₀ := hp₀
      unfold Mapping.readHit
      rw [hsize, hp₀]
      dsimp only
      rw [if_pos hup₀]
      rfl
    refine ⟨(m.readHit 10 5).1, ⟨min (p₀.validBytes - 10) 5, fun x => p₀.bytes (10 + x)⟩, ?_, ?_⟩
    · show m.readMapping fuel frames 10 5 = _
      unfold Mapping.readMapping
      generalize m.readHit 10 5 = result at hhit ⊢
      obtain ⟨m', answer⟩ := result
      obtain rfl : answer = _ := hhit
      rfl
    · show min (p₀.validBytes - 10) 5 = 0
      omega

end CosmOS.PageCache
