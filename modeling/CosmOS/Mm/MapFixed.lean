import CosmOS.Mm.Munmap

/-!
# Mm.MapFixed — mapping over what is there

`sys_mmap` of `syscall/mman.rs` for a private anonymous request without an address-space limit.  With
`MAP_FIXED` it unmaps the range first and ignores whether that worked: `munmap` refuses a range with a
hole in it, and the mapping is then refused for the areas that are still there.  An address of zero
means that the kernel chooses, with `MAP_FIXED` as well.
-/

namespace CosmOS.Mm

inductive Errno where
  | einval
  | eoverflow
  | enomem
  | eacces
  | efault
deriving DecidableEq

def mmErrorToErrno : MmError → Errno
  | .outOfMemory => .enomem
  | .conflict => .eacces
  | .permissionDenied => .efault

def protToMapPerm (prot : ℕ) : MapPermission :=
  ⟨prot.testBit 0 || prot.testBit 1, prot.testBit 1, prot.testBit 2, true⟩

/-- The page behind the last one that the range meets. -/
def endVpn (addr len : ℕ) : ℕ := (addr + len + (pageSize - 1)) / pageSize

namespace MemorySet

/-- What the search for a free range looks at. -/
def addressed (m : MemorySet) : AddressedVmas where
  vmas := m.vmas.map VmaPages.toVmaInfo
  stop_lt := by
    intro vma hvma
    obtain ⟨area, harea, rfl⟩ := List.mem_map.mp hvma
    exact m.stop_lt area harea

/-- `register_vma_metadata` of a private anonymous area.  No page is present before the first fault. -/
def registerVmaMetadata (vmas : AreaMap VmaPages) (startVpn endVpn : ℕ) (perm : MapPermission) :
    Except MmError (AreaMap VmaPages) :=
  if Vmas.overlapsVmaRange (vmas.map VmaPages.toVmaInfo) startVpn endVpn then .error .conflict
  else .ok (vmas.put ⟨startVpn, endVpn, ⟨perm, .anonymous, none, false⟩, fun _ => none, fun _ => none⟩)

/-- `mmap_anonymous` of a private range. -/
def mmapAnonymous (vmas : AreaMap VmaPages) (startVpn endVpn : ℕ) (perm : MapPermission) :
    Except MmError (AreaMap VmaPages) :=
  (registerVmaMetadata vmas startVpn endVpn perm).map fun vmas => mergeVmaAround vmas startVpn

def munmapAny (m : MemorySet) (startVa endVa : ℕ) : AreaMap VmaPages :=
  match m.munmapDeferred startVa endVa with
  | none => m.vmas
  | some (vmas, _) => vmas

/-- `sys_mmap` with `MAP_PRIVATE` and `MAP_ANONYMOUS`, and `MAP_FIXED` if `fixed`: the address and the
areas.  It has no result if the search for a free range does not end. -/
def sysMmap (arch : Arch) (m : MemorySet) (mmapHint mmapBase : ℕ) (fixed : Bool) (addr len prot : ℕ) :
    Option (Except Errno (ℕ × AreaMap VmaPages)) :=
  if addr % pageSize ≠ 0 then some (.error .einval)
  else if 8 ≤ prot then some (.error .einval)
  else if len = 0 then some (.error .einval)
  else
    match alignUpPage len with
    | none => some (.error .eoverflow)
    | some lenAligned =>
      if addr + lenAligned > usizeMax then some (.error .eoverflow)
      else if addr ≠ 0 ∧ (addr ≥ userSpaceEnd ∨ addr + lenAligned > userSpaceEnd) then
        some (.error .enomem)
      else if addr = 0 then
        (m.addressed.findFreeMmapArea arch mmapHint mmapBase lenAligned).map fun
          | none => .error .enomem
          | some chosen =>
            if chosen + lenAligned > usizeMax then .error .eoverflow
            else
              match mmapAnonymous m.vmas (chosen / pageSize) ((chosen + lenAligned) / pageSize)
                  (protToMapPerm prot) with
              | .error _ => .error .enomem
              | .ok vmas => .ok (chosen, vmas)
      else
        let stop := addr + lenAligned
        let vmas := if fixed then m.munmapAny addr stop else m.vmas
        match mmapAnonymous vmas (addr / pageSize) (stop / pageSize) (protToMapPerm prot) with
        | .error e => some (.error (mmErrorToErrno e))
        | .ok vmas => some (.ok (addr, vmas))

/-! ## Mapping and unmapping -/

variable {m : MemorySet} {vmas vmas' : AreaMap VmaPages} {lo hi : ℕ} {perm : MapPermission}

theorem viewAt_eq_none_iff : (∀ vpn, lo ≤ vpn → vpn < hi → viewAt vmas vpn = none) ↔
    ∀ area, area ∈ vmas → area.stop ≤ lo ∨ hi ≤ area.start ∨ hi ≤ lo := by
  constructor
  · intro h area harea
    by_contra hmeets
    have hpos := AreaMap.start_lt_stop harea
    have hnone := h (max area.start lo) (by omega) (by omega)
    exact AreaMap.view_eq_none_iff.mp hnone area harea ⟨by omega, by omega⟩
  · intro h vpn hlo hhi
    refine AreaMap.view_eq_none_iff.mpr fun area harea hin => ?_
    have hcases := h area harea
    unfold Area.Contains at hin
    omega

/-- A mapping is made where there is room, and there only. -/
theorem mmapAnonymous_ok_iff : (∃ vmas', mmapAnonymous vmas lo hi perm = .ok vmas') ↔
    lo < hi ∧ vmas.Free lo hi := by
  rw [← AreaMap.free_map vmas VmaPages.toVmaInfo, ← Vmas.overlapsVmaRange_eq_false_iff]
  unfold mmapAnonymous registerVmaMetadata
  cases Vmas.overlapsVmaRange (vmas.map VmaPages.toVmaInfo) lo hi <;> simp [Except.map]

/-- The new pages are anonymous and mapped to nothing; the others are as they were. -/
theorem mmapAnonymous_spec (hheld : ∀ area, area ∈ vmas → PagedVma.Held area)
    (h : mmapAnonymous vmas lo hi perm = .ok vmas') (vpn : ℕ) : viewAt vmas' vpn =
      if lo ≤ vpn ∧ vpn < hi then some (⟨perm, .anonymous, none, false⟩, none) else viewAt vmas vpn := by
  obtain ⟨hpos, hfree⟩ := mmapAnonymous_ok_iff.mp ⟨vmas', h⟩
  have hroom := Vmas.overlapsVmaRange_eq_false_iff.mpr
    ⟨hpos, (AreaMap.free_map vmas VmaPages.toVmaInfo).mpr hfree⟩
  simp only [mmapAnonymous, registerVmaMetadata, hroom] at h
  cases h
  have hput : ∀ area, area ∈ vmas.put ⟨lo, hi, ⟨perm, .anonymous, none, false⟩, fun _ => none,
      fun _ => none⟩ → PagedVma.Held area := by
    intro area harea
    rcases (AreaMap.mem_put _ hfree).mp harea with ⟨rfl, -⟩ | hold
    · exact ⟨fun _ _ => ⟨rfl, rfl⟩, fun _ => .inl rfl, fun _ _ => rfl⟩
    · exact hheld area hold
  rw [(mergeVmaAround_spec hput lo).2 vpn, viewAt, AreaMap.view_put _ hfree]
  rfl

theorem munmapDeferred_aligned (hhi : pageSize ∣ hi) :
    m.munmapDeferred lo hi = pagedEdit.unmap m.vmas (lo / pageSize) (hi / pageSize) := by
  have hceil : (hi + (pageSize - 1)) / pageSize = hi / pageSize := by
    obtain ⟨d, rfl⟩ := hhi
    unfold pageSize
    omega
  rw [munmapDeferred, hceil]

/-- A range without holes is unmapped, and one without areas has nothing to unmap. -/
theorem munmapAny_spec (m : MemorySet) (hhi : pageSize ∣ hi)
    (hclear : UserCovered m.vmas (lo / pageSize) (hi / pageSize) ∨
      m.vmas.Free (lo / pageSize) (hi / pageSize)) :
    (∀ area, area ∈ m.munmapAny lo hi → PagedVma.Held area) ∧
      ∀ vpn, viewAt (m.munmapAny lo hi) vpn =
        if lo / pageSize ≤ vpn ∧ vpn < hi / pageSize then none else viewAt m.vmas vpn := by
  have h := m.unmap_spec (lo / pageSize) (hi / pageSize)
  unfold munmapAny
  rw [munmapDeferred_aligned hhi]
  cases hunmap : pagedEdit.unmap m.vmas (lo / pageSize) (hi / pageSize) with
  | none =>
    rw [hunmap] at h
    have hfree := hclear.resolve_left h
    refine ⟨m.held, fun vpn => ?_⟩
    dsimp only
    split
    next hin =>
      exact viewAt_eq_none_iff.mpr (fun area harea => (hfree area harea).imp_right .inl) vpn hin.1 hin.2
    · rfl
  | some done =>
    rw [hunmap] at h
    exact ⟨h.2.1, h.2.2.1⟩

/-- A range with a hole and a mapping is left as it is. -/
theorem munmapAny_of_hole (m : MemorySet) (hhi : pageSize ∣ hi)
    (hhole : ¬ UserCovered m.vmas (lo / pageSize) (hi / pageSize)) : m.munmapAny lo hi = m.vmas := by
  have h := m.unmap_spec (lo / pageSize) (hi / pageSize)
  unfold munmapAny
  rw [munmapDeferred_aligned hhi]
  cases hunmap : pagedEdit.unmap m.vmas (lo / pageSize) (hi / pageSize) with
  | none => rfl
  | some done =>
    rw [hunmap] at h
    exact absurd h.1 hhole

/-! ## `MAP_FIXED` -/

/-- The call maps the range anew: its pages are anonymous, private and not present, and the other pages are
as they were. -/
def Replaced (arch : Arch) (m : MemorySet) (hint base addr len prot : ℕ) : Prop :=
  ∃ vmas, m.sysMmap arch hint base true addr len prot = some (.ok (addr, vmas)) ∧
    ∀ vpn, viewAt vmas vpn = if addr / pageSize ≤ vpn ∧ vpn < endVpn addr len then
        some (⟨protToMapPerm prot, .anonymous, none, false⟩, none)
      else viewAt m.vmas vpn

section

variable {arch : Arch} {hint base addr len prot : ℕ} (haddr : pageSize ∣ addr) (hlen : 0 < len)
  (hprot : prot < 8) (hend : addr + len ≤ userSpaceEnd)

include haddr hlen hprot hend

/-- The checks of the call pass. -/
theorem sysMmap_checked : ∃ stop, pageSize ∣ stop ∧ addr / pageSize < stop / pageSize ∧
    stop / pageSize = endVpn addr len ∧
    (addr ≠ 0 → m.sysMmap arch hint base true addr len prot =
      match mmapAnonymous (m.munmapAny addr stop) (addr / pageSize) (stop / pageSize)
          (protToMapPerm prot) with
      | .error e => some (.error (mmErrorToErrno e))
      | .ok vmas => some (.ok (addr, vmas))) ∧
    (addr = 0 → m.sysMmap arch hint base true addr len prot =
      (m.addressed.findFreeMmapArea arch hint base stop).map fun
        | none => .error .enomem
        | some chosen =>
          if chosen + stop > usizeMax then .error .eoverflow
          else
            match mmapAnonymous m.vmas (chosen / pageSize) ((chosen + stop) / pageSize)
                (protToMapPerm prot) with
            | .error _ => .error .enomem
            | .ok vmas => .ok (chosen, vmas)) := by
  obtain ⟨d, rfl⟩ := haddr
  have huser : userSpaceEnd = 2 ^ 38 := rfl
  have hmax : usizeMax = 2 ^ 64 - 1 := rfl
  have hup : alignUpPage len = some ((len + (pageSize - 1)) / pageSize * pageSize) :=
    if_pos (by unfold pageSize; omega)
  have hlast : pageSize * d + (len + (pageSize - 1)) / pageSize * pageSize ≤ userSpaceEnd := by
    unfold pageSize at hend ⊢
    omega
  refine ⟨pageSize * d + (len + (pageSize - 1)) / pageSize * pageSize,
    (dvd_mul_right _ _).add (dvd_mul_left _ _), by unfold pageSize; omega,
    by unfold endVpn pageSize; omega, fun hne => ?_, fun hzero => ?_⟩
  all_goals
    unfold sysMmap
    rw [if_neg (by simp), if_neg (by omega), if_neg (by omega), hup]
    dsimp only
    rw [if_neg (by omega), if_neg (by omega)]
  · rw [if_neg hne, if_pos rfl]
  · rw [if_pos hzero, hzero, zero_add]

/-- For `mmap_hint` and `mmap_base` as a process has them, `MAP_FIXED` replaces what is there exactly if
the address is not zero and the range is wholly mapped for the user or wholly free. -/
theorem map_fixed_replaces (m : MemorySet) (hhint : hint ≤ userSpaceEnd) (hbase : 0 < base) :
    Replaced arch m hint base addr len prot ↔ addr ≠ 0 ∧
      (UserCovered m.vmas (addr / pageSize) (endVpn addr len) ∨
        m.vmas.Free (addr / pageSize) (endVpn addr len)) := by
  obtain ⟨stop, hstop, hpos, hlast, hfixed, hauto⟩ :=
    @sysMmap_checked m arch hint base addr len prot haddr hlen hprot hend
  unfold Replaced
  rw [← hlast]
  by_cases hzero : addr = 0
  · -- the kernel chooses the range, and not the one at zero
    refine iff_of_false ?_ (fun h => h.1 hzero)
    rintro ⟨vmas, hcall, -⟩
    obtain ⟨r, hr, hfound⟩ := m.addressed.findFreeMmapArea_answers arch base hhint hstop
    rw [hauto hzero, hr, Option.map_some, Option.some_inj] at hcall
    split at hcall
    · cases hcall
    next chosen =>
    split at hcall
    · cases hcall
    split at hcall
    · cases hcall
    · cases hcall
      have hchosen := (hfound _ rfl).2.1
      omega
  · rw [hfixed hzero, and_iff_right hzero]
    constructor
    · rintro ⟨vmas, hcall, -⟩
      by_contra hneither
      rw [not_or] at hneither
      rw [munmapAny_of_hole m hstop hneither.1] at hcall
      cases hmap : mmapAnonymous m.vmas (addr / pageSize) (stop / pageSize) (protToMapPerm prot) with
      | error e =>
        rw [hmap] at hcall
        cases hcall
      | ok vmas => exact hneither.2 (mmapAnonymous_ok_iff.mp ⟨vmas, hmap⟩).2
    · intro hclear
      obtain ⟨hheld, hview⟩ := m.munmapAny_spec hstop hclear
      -- the range is free now, so the mapping is registered
      have hfree : (m.munmapAny addr stop).Free (addr / pageSize) (stop / pageSize) := by
        intro area harea
        have hnone := viewAt_eq_none_iff.mp (fun vpn hlo hhi => (hview vpn).trans (if_pos ⟨hlo, hhi⟩))
          area harea
        omega
      obtain ⟨vmas, hmap⟩ := mmapAnonymous_ok_iff.mpr ⟨hpos, hfree⟩
      refine ⟨vmas, by rw [hmap], fun vpn => ?_⟩
      rw [mmapAnonymous_spec hheld hmap, hview]
      split <;> rfl

end

def onePage : MemorySet where
  vmas := ⟨[⟨1, 2, ⟨⟨true, true, false, true⟩, .anonymous, none, false⟩,
    fun vpn => if vpn = 1 then some 7 else none, fun _ => none⟩], by simp, by simp⟩
  held := by
    simp only [List.mem_singleton, forall_eq]
    refine ⟨fun vpn hout => ⟨if_neg fun h => hout ?_, rfl⟩, fun _ => .inl rfl, fun _ _ => rfl⟩
    exact ⟨by simp only; omega, by simp only; omega⟩
  stop_lt := by simp

/-- The page is replaced; with the page behind it, which is free, the call would not replace it. -/
theorem map_fixed_replaces_page : Replaced .riscv onePage 0x1000 0x1000 0x1000 0x1000 1 ∧
    ¬ Replaced .riscv onePage 0x1000 0x1000 0x1000 0x2000 1 := by
  constructor
  · refine (map_fixed_replaces (by decide) (by decide) (by decide) (by decide) onePage (by decide)
      (by decide)).mpr ⟨by decide, .inl fun vpn hlo hhi => ⟨_, .head _, ⟨hlo, hhi⟩, rfl⟩⟩
  · rw [map_fixed_replaces (by decide) (by decide) (by decide) (by decide) onePage (by decide) (by decide)]
    rintro ⟨-, hcovered | hfree⟩
    · obtain ⟨area, harea, hin, -⟩ := hcovered 2 (by decide) (by decide)
      obtain rfl := List.mem_singleton.mp harea
      exact absurd hin.2 (by decide)
    · exact absurd hfree (by decide)

/-- With a hole behind the page, nothing is unmapped and the mapping is refused. -/
theorem map_fixed_refused : (∀ area ∈ onePage.vmas.areas, Vma.isUserAccessible (PagedVma.vma area)) ∧
      onePage.sysMmap .riscv 0x1000 0x1000 true 0x1000 0x2000 1 = some (.error .eacces) := by
  constructor
  · simp [onePage, PagedVma.vma, Vma.isUserAccessible]
  · rfl

end MemorySet

end CosmOS.Mm
