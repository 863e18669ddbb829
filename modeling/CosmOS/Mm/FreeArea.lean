import CosmOS.Mm.FrameAllocator
import CosmOS.Mm.Vma

/-!
# Mm.FreeArea — choosing the range of a new mapping

`find_free_mmap_area` of `mm/memory_set.rs` searches from a hint up to the end of the user range, and
then from the base up to the hint.  Addresses are bytes, and the areas are looked up by page numbers.

The second pass is bounded by the hint, so a hole on both sides of the hint is in neither pass: a range
is found exactly if a free one lies beside the hint (`find_free_mmap_area_complete`).  The callers pass
`mmap_hint`, which begins at the base and is moved to the end of a range that was found; a hint behind the
user range would give results behind it (`find_free_mmap_area_behind_end`).
-/

namespace CosmOS.Mm

inductive Arch where
  | riscv
  | loongarch64
deriving DecidableEq

/-- `VA_BITS`, on both architectures. -/
def vaBits : ℕ := 39

def userSpaceEnd : ℕ := 2 ^ (vaBits - 1)

/-- What `VirtAddr::from` makes of a raw address. -/
def Arch.normalizeVirtAddrInput : Arch → ℕ → ℕ
  | .riscv, bits => bits % 2 ^ vaBits
  | .loongarch64, bits => bits

def alignUpPage (value : ℕ) : Option ℕ :=
  if value + (pageSize - 1) ≤ usizeMax then some ((value + (pageSize - 1)) / pageSize * pageSize)
  else none

/-- Areas whose pages have 64-bit addresses. -/
structure AddressedVmas where
  vmas : Vmas
  stop_lt : ∀ vma ∈ vmas.areas, vma.stop < 2 ^ 52

namespace AddressedVmas

/-- The loop of `find_free_area_in_range`.  It has no result when the rounds run out. -/
def findFreeFrom (arch : Arch) (s : AddressedVmas) (upper len : ℕ) : ℕ → ℕ → Option (Option ℕ)
  | 0, _ => none
  | rounds + 1, candidate =>
    if candidate + len > usizeMax then some none
    else if candidate + len > upper then some none
    else
      let candidateVpn := arch.normalizeVirtAddrInput candidate / pageSize
      match (s.vmas.floor? candidateVpn).filter fun prev => prev.stop * pageSize > candidate with
      | some prev =>
        match alignUpPage (prev.stop * pageSize) with
        | none => some none
        | some candidate => findFreeFrom arch s upper len rounds candidate
      | none =>
        match s.vmas.ceil? candidateVpn with
        | none => some (some candidate)
        | some next =>
          if candidate + len ≤ next.start * pageSize then some (some candidate)
          else
            match alignUpPage (next.stop * pageSize) with
            | none => some none
            | some candidate => findFreeFrom arch s upper len rounds candidate

/-- `find_free_area_in_range`.  Every round starts at a later page. -/
def findFreeAreaInRange (arch : Arch) (s : AddressedVmas) (start upper len : ℕ) :
    Option (Option ℕ) :=
  if len = 0 ∨ start ≥ upper ∨ len > upper - start then some none
  else
    match alignUpPage start with
    | none => some none
    | some candidate => s.findFreeFrom arch upper len (upper + 2) candidate

def findFreeMmapArea (arch : Arch) (s : AddressedVmas) (hint base len : ℕ) : Option (Option ℕ) :=
  match alignUpPage (max hint base) with
  | none => some none
  | some start =>
    match s.findFreeAreaInRange arch start userSpaceEnd len with
    | none => none
    | some (some a) => some (some a)
    | some none => if start > base then s.findFreeAreaInRange arch base start len else some none

/-- The bytes from `a` on are in no area. -/
def FreeBytes (s : AddressedVmas) (a len : ℕ) : Prop :=
  ∀ vma ∈ s.vmas.areas, vma.stop * pageSize ≤ a ∨ a + len ≤ vma.start * pageSize

variable {arch : Arch} {s : AddressedVmas} {upper len start a c n : ℕ}

/-! ## The scan -/

theorem alignUpPage_mul (h : c < 2 ^ 52) : alignUpPage (c * pageSize) = some (c * pageSize) := by
  have hround : (c * pageSize + (pageSize - 1)) / pageSize * pageSize = c * pageSize := by
    unfold pageSize
    omega
  rw [alignUpPage, if_pos (by unfold usizeMax pageSize; omega), hround]

/-- What a scan from `start` up to `upper` answers: a free range, or that there is none. -/
def Answers (s : AddressedVmas) (start upper len : ℕ) : Option ℕ → Prop
  | some a => pageSize ∣ a ∧ start ≤ a ∧ a + len ≤ upper ∧ s.FreeBytes a len
  | none => ∀ a, pageSize ∣ a → start ≤ a → a + len ≤ upper → ¬ s.FreeBytes a len

/-- The ranges that a later start leaves out are not free. -/
theorem Answers.of_later {later : ℕ} {r : Option ℕ} (h : s.Answers later upper len r)
    (hle : start ≤ later)
    (hskip : ∀ a, pageSize ∣ a → start ≤ a → a < later → ¬ s.FreeBytes a len) :
    s.Answers start upper len r := by
  cases r with
  | some a =>
    obtain ⟨hdvd, hlater, hrest⟩ := h
    exact ⟨hdvd, hle.trans hlater, hrest⟩
  | none =>
    intro a hdvd hstart hend
    rcases lt_or_ge a later with hlt | hge
    · exact hskip a hdvd hstart hlt
    · exact h a hdvd hge hend

theorem normalize_of_le (h : a ≤ userSpaceEnd) : arch.normalizeVirtAddrInput a = a := by
  cases arch with
  | riscv => exact Nat.mod_eq_of_lt (h.trans_lt (by decide))
  | loongarch64 => rfl

theorem freeBytes_iff : s.FreeBytes (c * pageSize) (n * pageSize) ↔ s.vmas.Free c (c + n) := by
  have hpage : 0 < pageSize := by decide
  simp only [FreeBytes, AreaMap.Free, ← add_mul, Nat.mul_le_mul_right_iff hpage]

/-- The scan ends, and it answers for every later range.  The induction is on the rounds: each begins at
a later page, and what it skips meets an area. -/
theorem findFreeFrom_answers (arch : Arch) (s : AddressedVmas) (rounds : ℕ) (hn : 0 < n)
    (hupper : upper ≤ userSpaceEnd) (hrounds : upper + 1 - c * pageSize < rounds) :
    ∃ r, s.findFreeFrom arch upper (n * pageSize) rounds (c * pageSize) = some r ∧
      s.Answers (c * pageSize) upper (n * pageSize) r := by
  have hpage : 0 < pageSize := by decide
  have hend : userSpaceEnd ≤ usizeMax := by decide
  induction rounds generalizing c with
  | zero => omega
  | succ rounds ih =>
    dsimp only [findFreeFrom]
    rcases Nat.lt_or_ge upper (c * pageSize + n * pageSize) with hout | hin
    · refine ⟨none, ?_, ?_⟩
      · rw [if_pos hout]
        exact ite_self _
      · intro a _ hstart hle
        omega
    rw [if_neg (by omega), if_neg (by omega), normalize_of_le (by omega), Nat.mul_div_cancel _ hpage]
    -- the scan goes on behind an area that every range up to there meets
    have hskip : ∀ vma ∈ s.vmas, c < vma.stop → vma.start < c + n →
        ∃ r, s.findFreeFrom arch upper (n * pageSize) rounds (vma.stop * pageSize) = some r ∧
          s.Answers (c * pageSize) upper (n * pageSize) r := by
      intro vma hvma hlt hmeets
      have hlater := Nat.mul_le_mul_right pageSize (Nat.succ_le_of_lt hlt)
      have hbefore := Nat.mul_lt_mul_of_pos_right hmeets hpage
      rw [Nat.succ_mul] at hlater
      rw [Nat.add_mul] at hbefore
      obtain ⟨r, hr, hanswers⟩ := ih (c := vma.stop) (by omega)
      refine ⟨r, hr, hanswers.of_later (by omega) fun a _ hstart hstop hfree => ?_⟩
      rcases hfree vma hvma with hleft | hright <;> omega
    cases hprev : (s.vmas.floor? c).filter fun prev => prev.stop * pageSize > c * pageSize with
    | some prev =>
      obtain ⟨hfloor, hstop⟩ := Option.filter_eq_some_iff.mp hprev
      obtain ⟨hmem, hle, -⟩ := AreaMap.floor?_spec hfloor
      dsimp only
      rw [alignUpPage_mul (s.stop_lt prev hmem)]
      exact hskip prev hmem (Nat.lt_of_mul_lt_mul_right (of_decide_eq_true hstop)) (by omega)
    | none =>
      have hbefore : ∀ prev, s.vmas.floor? c = some prev → prev.stop ≤ c := by
        intro prev hfloor
        simpa [hpage] using Option.filter_eq_none_iff.mp hprev prev hfloor
      -- the candidate is taken if the next area leaves room for it
      have htake : (∀ next, s.vmas.ceil? c = some next → c + n ≤ next.start) →
          s.Answers (c * pageSize) upper (n * pageSize) (some (c * pageSize)) := fun hroom =>
        ⟨dvd_mul_left _ _, le_rfl, hin,
          freeBytes_iff.mpr ((AreaMap.free_iff_neighbours (by omega)).mpr ⟨hbefore, hroom⟩)⟩
      cases hnext : s.vmas.ceil? c with
      | none => exact ⟨_, rfl, htake (by simp [hnext])⟩
      | some next =>
        obtain ⟨hmem, hle, -⟩ := AreaMap.ceil?_spec hnext
        dsimp only
        split
        all_goals
          rename_i hroom
          rw [← Nat.add_mul, Nat.mul_le_mul_right_iff hpage] at hroom
        · exact ⟨_, rfl, htake (by simpa [hnext] using hroom)⟩
        · rw [alignUpPage_mul (s.stop_lt next hmem)]
          exact hskip next hmem (hle.trans_lt (AreaMap.start_lt_stop hmem)) (by omega)

/-! ## One pass -/

theorem alignUpPage_eq_some {value : ℕ} (h : alignUpPage value = some a) :
    ∃ c, a = c * pageSize ∧ value ≤ a ∧ a < value + pageSize := by
  unfold alignUpPage at h
  split at h
  · cases h
    exact ⟨_, rfl, by unfold pageSize; omega, by unfold pageSize; omega⟩
  · cases h

/-- One pass answers for the ranges between its ends. -/
theorem findFreeAreaInRange_answers (arch : Arch) (s : AddressedVmas) (start : ℕ) (hpos : 0 < len)
    (hlen : pageSize ∣ len) (hupper : upper ≤ userSpaceEnd) :
    ∃ r, s.findFreeAreaInRange arch start upper len = some r ∧ s.Answers start upper len r := by
  unfold findFreeAreaInRange
  split
  · refine ⟨none, rfl, fun a _ hstart hend => ?_⟩
    omega
  cases hup : alignUpPage start with
  | none =>
    have hfits : userSpaceEnd + pageSize ≤ usizeMax := by decide
    unfold alignUpPage at hup
    rw [if_pos (by omega)] at hup
    cases hup
  | some candidate =>
    obtain ⟨c, rfl, hle, hlt⟩ := alignUpPage_eq_some hup
    obtain ⟨n, rfl⟩ := exists_eq_mul_left_of_dvd hlen
    obtain ⟨r, hr, hanswers⟩ := s.findFreeFrom_answers arch (upper + 2)
      (Nat.pos_of_mul_pos_right hpos) hupper (show upper + 1 - c * pageSize < upper + 2 by omega)
    refine ⟨r, hr, hanswers.of_later hle ?_⟩
    -- no page begins between the start and the candidate
    rintro a ⟨d, rfl⟩ hstart hstop
    rw [Nat.mul_comm] at hstop hstart
    have hdc : d + 1 ≤ c := Nat.lt_of_mul_lt_mul_right hstop
    have hmul := Nat.mul_le_mul_right pageSize hdc
    rw [Nat.succ_mul] at hmul
    omega

/-- A range that is found below one bound is found below every later one: until then the bound has ended
no round. -/
theorem findFreeFrom_mono {rounds rounds' upper' candidate : ℕ} (hrounds : rounds ≤ rounds')
    (hupper : upper ≤ upper')
    (h : s.findFreeFrom arch upper len rounds candidate = some (some a)) :
    s.findFreeFrom arch upper' len rounds' candidate = some (some a) := by
  induction rounds generalizing candidate rounds' with
  | zero => cases h
  | succ rounds ih =>
    obtain ⟨rounds', rfl⟩ := Nat.exists_eq_add_of_le' (show 1 ≤ rounds' by omega)
    dsimp only [findFreeFrom] at h ⊢
    split at h
    · cases h
    split at h
    · cases h
    rw [if_neg (by omega), if_neg (by omega)]
    split at h
    · split at h
      · cases h
      · exact ih (by omega) h
    · split at h
      · exact h
      split at h
      next hfits => rw [if_pos hfits, h]
      next hmeets =>
        rw [if_neg hmeets]
        split at h
        · cases h
        · exact ih (by omega) h

/-- So a pass with a later bound finds a range wherever there is one in the user range. -/
theorem findFreeAreaInRange_of_later (arch : Arch) (hpos : 0 < len) (hlen : pageSize ∣ len)
    (hfree : s.Answers start userSpaceEnd len (some a)) (hupper : userSpaceEnd ≤ upper) :
    ∃ b, s.findFreeAreaInRange arch start upper len = some (some b) := by
  obtain ⟨hdvd, hstart, hend, hfree⟩ := hfree
  obtain ⟨r, hr, hanswers⟩ := s.findFreeAreaInRange_answers arch start hpos hlen le_rfl
  cases r with
  | none => exact absurd hfree (hanswers a hdvd hstart hend)
  | some b =>
    refine ⟨b, ?_⟩
    unfold findFreeAreaInRange at hr ⊢
    rw [if_neg (by omega)] at hr ⊢
    split at hr
    · cases hr
    · exact findFreeFrom_mono (by omega) hupper hr

/-! ## The two passes -/

/-- The range does not lie on both sides of the address. -/
def Beside (start len a : ℕ) : Prop := start ≤ a ∨ a + len ≤ start

/-- What the two passes find and what they leave out, for a rounded hint in the user range. -/
theorem findFreeMmapArea_spec (arch : Arch) (s : AddressedVmas) {hint base : ℕ}
    (hup : alignUpPage (max hint base) = some start) (hstart : start ≤ userSpaceEnd) (hpos : 0 < len)
    (hlen : pageSize ∣ len) :
    ∃ r, s.findFreeMmapArea arch hint base len = some r ∧
      (∀ a, r = some a → s.Answers base userSpaceEnd len (some a) ∧ Beside start len a) ∧
      (r = none → ∀ a, Beside start len a → ¬ s.Answers base userSpaceEnd len (some a)) := by
  obtain ⟨c, rfl, hle, -⟩ := alignUpPage_eq_some hup
  obtain ⟨r, hr, hfirst⟩ := s.findFreeAreaInRange_answers arch (c * pageSize) hpos hlen le_rfl
  unfold findFreeMmapArea
  simp only [hup, hr]
  cases r with
  | some a =>
    refine ⟨some a, rfl, ?_, by simp⟩
    rintro _ ⟨⟩
    obtain ⟨hdvd, habove, hrest⟩ := hfirst
    exact ⟨⟨hdvd, by omega, hrest⟩, .inl habove⟩
  | none =>
    have habove : ∀ a, c * pageSize ≤ a → ¬ s.Answers base userSpaceEnd len (some a) :=
      fun a hstart ⟨hdvd, _, hend, hfree⟩ => hfirst a hdvd hstart hend hfree
    dsimp only
    split
    next hwraps =>
      obtain ⟨r, hr, hsecond⟩ := s.findFreeAreaInRange_answers arch base hpos hlen hstart
      refine ⟨r, hr, ?_, ?_⟩
      · rintro a rfl
        obtain ⟨hdvd, hbase, hend, hfree⟩ := hsecond
        exact ⟨⟨hdvd, hbase, hend.trans hstart, hfree⟩, .inr hend⟩
      · rintro rfl a (hside | hside) hanswers
        · exact habove a hside hanswers
        · exact hsecond a hanswers.1 hanswers.2.1 hside hanswers.2.2.2
    next hbase =>
      -- without a second pass the first one began at the base
      refine ⟨none, rfl, by simp, fun _ a _ hanswers => habove a ?_ hanswers⟩
      have := hanswers.2.1
      omega

/-- Behind the user range the passes are left with less than a page, if the hint is not to blame. -/
theorem findFreeMmapArea_base_behind {hint base : ℕ} (hhint : hint ≤ userSpaceEnd)
    (hup : alignUpPage (max hint base) = some start) (hstart : userSpaceEnd < start) (hpos : 0 < len)
    (hlen : pageSize ∣ len) : s.findFreeMmapArea arch hint base len = some none := by
  obtain ⟨c, rfl, -, hlt⟩ := alignUpPage_eq_some hup
  have hpage : pageSize ≤ len := Nat.le_of_dvd hpos hlen
  have hbase : userSpaceEnd < base := by
    have hend : userSpaceEnd = 2 ^ 26 * pageSize := by decide
    unfold pageSize at hlt hstart hend
    omega
  have hfirst : s.findFreeAreaInRange arch (c * pageSize) userSpaceEnd len = some none := by
    rw [findFreeAreaInRange, if_pos (by omega)]
  have hsecond : s.findFreeAreaInRange arch base (c * pageSize) len = some none := by
    rw [findFreeAreaInRange, if_pos (by omega)]
  unfold findFreeMmapArea
  simp only [hup, hfirst, hsecond, ite_self]

/-- For every hint in the user range the search ends, and only with a free range behind the base. -/
theorem findFreeMmapArea_answers (arch : Arch) (s : AddressedVmas) {hint : ℕ} (base : ℕ)
    (hhint : hint ≤ userSpaceEnd) (hlen : pageSize ∣ len) :
    ∃ r, s.findFreeMmapArea arch hint base len = some r ∧
      ∀ a, r = some a → s.Answers base userSpaceEnd len (some a) := by
  cases hup : alignUpPage (max hint base) with
  | none =>
    refine ⟨none, ?_, by simp⟩
    unfold findFreeMmapArea
    rw [hup]
  | some start =>
    rcases Nat.eq_zero_or_pos len with rfl | hpos
    · refine ⟨none, ?_, by simp⟩
      unfold findFreeMmapArea findFreeAreaInRange
      simp [hup]
    rcases Nat.lt_or_ge userSpaceEnd start with hout | hin
    · exact ⟨none, findFreeMmapArea_base_behind hhint hup hout hpos hlen, by simp⟩
    obtain ⟨r, hr, hfound, -⟩ := s.findFreeMmapArea_spec arch hup hin hpos hlen
    exact ⟨r, hr, fun a ha => (hfound a ha).1⟩

/-- Where there is a free range at all, the search finds one exactly if the hint can be rounded up to a page
and some free range lies beside the rounded hint. -/
theorem find_free_mmap_area_complete (arch : Arch) (s : AddressedVmas) {hint base len : ℕ}
    (hlen : pageSize ∣ len) (hpos : 0 < len)
    (hroom : ∃ a, pageSize ∣ a ∧ base ≤ a ∧ a + len ≤ userSpaceEnd ∧ s.FreeBytes a len) :
    (∃ b, s.findFreeMmapArea arch hint base len = some (some b)) ↔
      ∃ start, alignUpPage (max hint base) = some start ∧
        ∃ a, (pageSize ∣ a ∧ base ≤ a ∧ a + len ≤ userSpaceEnd ∧ s.FreeBytes a len) ∧
          Beside start len a := by
  cases hup : alignUpPage (max hint base) with
  | none =>
    unfold findFreeMmapArea
    simp [hup]
  | some start =>
    rcases Nat.lt_or_ge userSpaceEnd start with hout | hin
    · -- the first pass is empty, and the second one goes over the whole user range
      obtain ⟨a, hfree⟩ := hroom
      have hfirst : s.findFreeAreaInRange arch start userSpaceEnd len = some none := by
        rw [findFreeAreaInRange, if_pos (by omega)]
      obtain ⟨b, hsecond⟩ := findFreeAreaInRange_of_later arch hpos hlen hfree hout.le
      refine iff_of_true ⟨b, ?_⟩ ⟨start, rfl, a, hfree, .inr (hfree.2.2.1.trans hout.le)⟩
      unfold findFreeMmapArea
      simp only [hup, hfirst, hsecond]
      exact if_pos (by omega)
    · obtain ⟨r, hr, hfound, hnone⟩ := s.findFreeMmapArea_spec arch hup hin hpos hlen
      rw [hr]
      constructor
      · rintro ⟨b, hb⟩
        exact ⟨start, rfl, b, hfound b (Option.some.inj hb)⟩
      · rintro ⟨_, ⟨⟩, a, hfree, hside⟩
        cases r with
        | some b => exact ⟨b, rfl⟩
        | none => exact absurd hfree (hnone rfl a hside)

/-- The user range with a hole of two pages, after the first one. -/
def twoPageHole : AddressedVmas where
  vmas := ⟨[⟨0, 1, ⟨⟨true, true, false, true⟩, .anonymous, none, false⟩⟩,
    ⟨3, 2 ^ 26, ⟨⟨true, true, false, true⟩, .anonymous, none, false⟩⟩], by simp, by simp⟩
  stop_lt := by simp

/-- The hole is found from its first page, and from a page behind the user range. -/
theorem find_free_mmap_area_complete_hole :
    (∃ b, twoPageHole.findFreeMmapArea .riscv 0x1000 0 0x2000 = some (some b)) ∧
      ∃ b, twoPageHole.findFreeMmapArea .riscv (userSpaceEnd + 1) 0 0x2000 = some (some b) := by
  have hhole : pageSize ∣ 0x1000 ∧ 0 ≤ 0x1000 ∧ 0x1000 + 0x2000 ≤ userSpaceEnd ∧
      twoPageHole.FreeBytes 0x1000 0x2000 := by
    unfold FreeBytes
    decide
  constructor
  · exact (find_free_mmap_area_complete .riscv twoPageHole (by decide) (by decide) ⟨_, hhole⟩).mpr
      ⟨0x1000, by decide, _, hhole, .inl (by decide)⟩
  · exact (find_free_mmap_area_complete .riscv twoPageHole (by decide) (by decide) ⟨_, hhole⟩).mpr
      ⟨userSpaceEnd + 0x1000, by decide, _, hhole, .inr (by decide)⟩

/-- With the hint in the middle of the hole, neither pass sees it. -/
theorem find_free_mmap_area_misses_hole : twoPageHole.FreeBytes 0x1000 0x2000 ∧
      twoPageHole.findFreeMmapArea .riscv 0x2000 0 0x2000 = some none := by
  constructor
  · unfold FreeBytes
    decide
  · decide

end AddressedVmas

end CosmOS.Mm
