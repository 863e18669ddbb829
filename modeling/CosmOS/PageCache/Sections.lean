import CosmOS.PageCache.Effects

/-!
# PageCache.Sections — every section has one of the effects

One lemma for each family of sections, and `next_effect` for a step of the system.  They are proved
for a state that is `Regular`; the invariants of `PageCache.Invariants` include that.
-/

namespace CosmOS.PageCache

open Function List Option State Pc WritebackPage

/-- Every thread is where its lists say, and no page holds more than a page. -/
structure Regular (s : State) : Prop where
  fits : ∀ t, (s.pc t).Fits s.size s.clock
  bounded : ∀ o, (s.obj o).validBytes ≤ pageSize
  nodup : ∀ t, (s.pc t).loads.Nodup

section Sections

variable {s s' s₁ : State} {t : ThreadId} {e : Env} {p p' : Pc} {n c first : ℕ}

/-! ## Positions that take nothing -/

theorem Pc.Moves.of_eq {found : List (ℕ × ObjId)} (hheld : ∀ c ∈ p'.held, c ∈ found ∨ c ∈ p.held)
    (hloads : p'.loads = p.loads) (hflushes : p'.flushes = p.flushes)
    (hevicts : p'.evicts = p.evicts) (hfacts : p'.facts = []) (hfits : p'.Fits n c) :
    p.Moves p' found p.loads p.flushes p.evicts [] n c where
  held := hheld
  loads := hloads ▸ Perm.refl _
  flushes := hflushes ▸ Perm.refl _
  evicts := hevicts
  facts := by simp [hfacts]
  fits := hfits

theorem Pc.Keeps.refl (p : Pc) (h : p.Fits n c) : p.Keeps p n c :=
  ⟨fun _ hc => .inr hc, .refl _, .refl _, rfl, fun _ hg => .inr hg, h⟩

theorem Pc.Keeps.of_nil (hheld : p'.held = []) (hloads : p'.loads = p.loads)
    (hflushes : p'.flushes = p.flushes) (hevicts : p'.evicts = p.evicts) (hfacts : p'.facts = [])
    (hfits : p'.Fits n c) : p.Keeps p' n c :=
  .of_eq (by simp [hheld]) hloads hflushes hevicts hfacts hfits

theorem Pc.Keeps.of_held (hsame : (p'.held, p'.loads, p'.flushes, p'.evicts, p'.facts) =
      (p.held, p.loads, p.flushes, p.evicts, [])) (hfits : p'.Fits n c) : p.Keeps p' n c := by
  simp only [Prod.mk.injEq] at hsame
  obtain ⟨hheld, hloads, hflushes, hevicts, hfacts⟩ := hsame
  exact .of_eq (fun _ hc => .inr (hheld ▸ hc)) hloads hflushes hevicts hfacts hfits

/-- The thread writes out what it took, and learns all it then relies on. -/
theorem Effect.deliver {f : File} (hf : s.WritesTaken p f) (hl : ∀ g ∈ p'.facts, Delivers s p f g)
    (hout : ∀ i o time v data, .took i o time v data ∉ p'.facts) (hheld : p'.held = p.held)
    (hloads : p'.loads = p.loads) (hflushes : p'.flushes = p.flushes)
    (hevicts : p'.evicts = p.evicts) (hfits : p'.Fits s.size s.clock) :
    Effect s e p p' { s with backing := f } :=
  .device f hf p'.facts hl hout ⟨fun _ hc => .inr (hheld ▸ hc), hloads ▸ .refl _,
    hflushes ▸ .refl _, hevicts, fun _ hg => .inl hg, hfits⟩

theorem Effect.keep (h : p.Keeps p' s.size s.clock) : Effect s e p p' s := .quiet [] nofun h

variable (k : Caller) (o : ObjId)

theorem gotPage_lists :
    (k.gotPage o).held = (k.pageIdx, o) :: k.kept ∧ (k.gotPage o).loads = k.kept.map Prod.snd ∧
      (k.gotPage o).flushes = [] ∧ (k.gotPage o).evicts = [] ∧ (k.gotPage o).facts = [] := by
  cases k <;> exact ⟨rfl, rfl, rfl, rfl, rfl⟩

theorem gotPage_fits (h : k.writeEnd ≤ n) : (k.gotPage o).Fits n c := by
  cases k with
  | write w | read r | fault i dirties => exact h
  | range g => trivial

theorem loaded_fits (h : k.writeEnd ≤ n) : (k.loaded o).Fits n c := by
  cases k with
  | fault i dirties => cases dirties <;> trivial
  | write w => exact h
  | read r | range g => trivial

theorem gotPage_moves (hheld : p.held = k.kept)
    (hloads : p.loads = k.kept.map Prod.snd) (hflushes : p.flushes = []) (hevicts : p.evicts = [])
    (hfits : k.writeEnd ≤ n) :
    p.Moves (k.gotPage o) [(k.pageIdx, o)] p.loads p.flushes p.evicts [] n c := by
  obtain ⟨hheld', hloads', hflushes', hevicts', hfacts'⟩ := gotPage_lists k o
  refine .of_eq (fun c hc => ?_) (hloads'.trans hloads.symm) (hflushes'.trans hflushes.symm)
    (hevicts'.trans hevicts.symm) hfacts' (gotPage_fits k o hfits)
  rw [hheld'] at hc
  rw [hheld]
  exact (mem_cons.mp hc).imp_left mem_singleton.mpr

/-- Returning from `ensure_page_uptodate`, the caller has its page and what it had before. -/
theorem loaded_lists :
    (k.loaded o).held = (k.pageIdx, o) :: k.kept ∧ (k.loaded o).loads = k.kept.map Prod.snd ∧
      (k.loaded o).flushes = [] ∧ (k.loaded o).evicts = [] ∧
      ∀ g ∈ (k.loaded o).facts, g = .ready o := by
  cases k with
  | fault i dirties => cases dirties <;> exact ⟨rfl, rfl, rfl, rfl, fun g hg => mem_singleton.mp hg⟩
  | write w | range g => exact ⟨rfl, rfl, rfl, rfl, fun g hg => nomatch hg⟩
  | read r => exact ⟨rfl, rfl, rfl, rfl, fun g hg => mem_singleton.mp hg⟩

/-- A step is the effect of a section of the thread `t`, which then goes on at `p'`. -/
def HasEffect (s : State) (e : Env) (t : ThreadId) (s' : State) : Prop :=
  ∃ s₁ p', s' = s₁.goto t p' ∧ Effect s e (s.pc t) p' s₁

theorem HasEffect.of (hp : s.pc t = p) (h : Effect s e p p' s₁) :
    HasEffect s e t (s₁.goto t p') := ⟨s₁, p', rfl, hp ▸ h⟩

theorem HasEffect.keep (hp : s.pc t = p) (h : p.Keeps p' s.size s.clock) :
    HasEffect s e t (s.goto t p') := .of hp (.keep h)

theorem hasEffect_wait (hpc : s₁.pc = s.pc) (h : Effect s e (s.pc t) (s.pc t) s₁) :
    HasEffect s e t s₁ := by
  refine ⟨s₁, s.pc t, ?_, h⟩
  show s₁ = { s₁ with pc := update s₁.pc t (s.pc t) }
  rw [← hpc, update_eq_self]

/-! ## write_mapping -/

theorem writeStep_effect (hc : Careful s t) (hp : s.pc t = p) (hf : p.Fits s.size s.clock)
    (hn : s.writeStep t p = some s') : HasEffect s e t s' := by
  cases p <;> simp only [writeStep, reduceCtorEq, some.injEq] at hn <;> subst hn
  case writeGrow w =>
    refine .of hp (.grow _ (le_max_left _ _) ?_)
    exact ⟨nofun, .refl _, .refl _, rfl, nofun, le_max_right _ _⟩
  case writeHead w =>
    refine .keep hp ?_
    split
    · exact .of_nil rfl rfl rfl rfl rfl hf
    · exact .of_nil rfl rfl rfl rfl rfl trivial
  case writeTest o w =>
    refine .keep hp ?_
    split <;> exact .of_held rfl hf
  case writeSize o w =>
    exact .keep hp (.of_held rfl ⟨hf, hf⟩)
  case writeStore o m w =>
    exact .of hp (.store o m w rfl (hc.stores o m w hp) (.of_nil rfl rfl rfl rfl rfl hf.2))

/-! ## get_or_create_page and ensure_page_uptodate -/

/-- A read that is not cut short brings every byte that the device has of the first `v` ones. -/
theorem readAll_of_lt {f : File} {start v count x : ℕ} (hall : f.present start v ≤ count)
    (hx : x < v) (hlen : start + x < f.len) : x < min count (f.present start v) := by
  unfold SparseFile.present at *
  omega

theorem pageStep_effect (hc : Careful s t) (hp : s.pc t = p) (hf : p.Fits s.size s.clock)
    (hn : s.pageStep t e p = some s') : HasEffect s e t s' := by
  cases p <;> simp only [pageStep, reduceCtorEq] at hn
  case lookup k =>
    split at hn <;> cases hn
    next o ho =>
      have hev := hc.finds k.pageIdx (by simp [hp, looksUp]) o ho
      exact .of hp (.find (k.pageIdx, o) ho hev (gotPage_moves k o rfl rfl rfl rfl hf))
    · exact .keep hp (.of_held rfl hf)
  case insert k =>
    split at hn
    · obtain ⟨p', hk, rfl⟩ := map_eq_some_iff.mp hn
      refine .keep hp ?_
      cases k with
      | range g | fault i dirties =>
        cases hk
        exact .of_held rfl trivial
      | write w | read r => simp [Caller.outOfMemory] at hk
    · split at hn <;> cases hn
      next o ho =>
        have hev := hc.finds k.pageIdx (by simp [hp, looksUp]) o ho
        exact .of hp (.find (k.pageIdx, o) ho hev (gotPage_moves k o rfl rfl rfl rfl hf))
      next hnone =>
        exact .of hp (.make _ _ hnone (gotPage_moves k s.made rfl rfl rfl rfl hf))
  case ensure o k =>
    obtain ⟨hheld, hloads, hflushes, hevicts, hfacts⟩ := loaded_lists k o
    split at hn
    next hup =>
      cases hn
      refine .of hp (.touch o true [.ready o] ?_ ?_)
      · exact fun g hg => ⟨mem_singleton.mp hg, hup⟩
      · exact ⟨fun c hc => .inr (by rwa [hheld] at hc), hloads ▸ .refl _, hflushes ▸ .refl _, hevicts,
          fun g hg => .inl (mem_singleton.mpr (hfacts g hg)), loaded_fits k o hf⟩
    next hup =>
      split at hn <;> cases hn
      · exact hasEffect_wait rfl (.touch o true [] nofun (Pc.Keeps.refl _ (hp ▸ hf)))
      next hload =>
        exact .of hp (.beginLoad (k.pageIdx, o) true (.head _) (Bool.not_eq_true _ ▸ hload)
          (Bool.not_eq_true _ ▸ hup) ⟨fun c hc => .inr hc, .refl _, .refl _, rfl, nofun, hf⟩)
  case loadSize o k =>
    cases hn
    refine .of hp (.quiet [.sized k.pageIdx (pageValidBytesForSize s.size k.pageIdx)] ?_ ?_)
    · rintro g hg
      rw [mem_singleton.mp hg]
      exact .size (k.pageIdx, o) (.head _) (.head _)
    · exact ⟨fun c hc => .inr hc, .refl _, .refl _, rfl, fun g hg => .inl hg,
        hf, pageValidBytesForSize_le _ _⟩
  case loadRead o v k =>
    cases hn
    have hpresent : s.backing.present (pageStart k.pageIdx) v ≤ v := min_le_left _ _
    refine .of hp (.fill _ (fun o' => ?_) [.loaded k.pageIdx o (max v (min e.count
      (s.backing.present (pageStart k.pageIdx) v))) none] ?_ (by simp [facts]) ?_)
    · rcases eq_or_ne o' o with rfl | ho
      · exact .inr ⟨.head _, _, update_self ..⟩
      · exact .inl (update_of_ne ho ..)
    · rintro g hg
      rw [mem_singleton.mp hg]
      refine .mk (k.pageIdx, o) v _ none (.head _) (.head _) (.head _)
        fun hall x hx hlen => ⟨lt_of_lt_of_le hx (le_max_left _ _), ?_⟩
      have hread := readAll_of_lt hall hx hlen
      show (update s.obj o _ o).bytes x = _
      rw [update_self, CachePage.fill_bytes,
        blit_of_mem (Nat.zero_le _) (by rw [Nat.zero_add]; exact hread)]
      rfl
    · refine ⟨fun c hc => .inr hc, .refl _, .refl _, rfl, fun g hg => .inl hg, hf.1, ?_⟩
      have hv := hf.2
      omega
  case loadFinish o v r k =>
    cases hn
    obtain ⟨hheld, hloads, hflushes, hevicts, hfacts⟩ := loaded_lists k o
    refine .of hp (.finish (k.pageIdx, o) (max v r) _ none true (.head _) hf.2
      mem_cons_self (fun hne => absurd rfl hne) [.ready o] ?_ ?_ ?_)
    · exact fun g hg => ⟨mem_singleton.mp hg, rfl⟩
    · rw [hloads]
      exact .refl _
    · exact ⟨fun c hc => .inr (by rwa [hheld] at hc), .refl _, hflushes ▸ .refl _, hevicts,
        fun g hg => .inl (mem_singleton.mpr (hfacts g hg)), loaded_fits k o hf.1⟩

/-! ## read_mapping -/

theorem readStep_effect (hc : Careful s t) (hp : s.pc t = p) (hn : s.readStep t p = some s') :
    HasEffect s e t s' := by
  cases p <;> simp only [readStep, reduceCtorEq] at hn
  case readHitLookup offset len =>
    split at hn
    · cases hn
      exact .keep hp (.of_held rfl trivial)
    split at hn <;> cases hn
    next o ho =>
      have hev := hc.finds (filePageIndex offset) (by simp [hp, looksUp]) o ho
      exact .of hp (.find (filePageIndex offset, o) ho hev
        (.of_eq (fun c hc => .inl hc) rfl rfl rfl rfl trivial))
    · exact .keep hp (.of_held rfl trivial)
  case readHit o offset len fileSize =>
    cases hn
    refine .of hp (.touch o true [] nofun ?_)
    split <;> exact Pc.Keeps.of_nil rfl rfl rfl rfl rfl trivial
  case readSize offset len =>
    cases hn
    refine .keep hp ?_
    split <;> exact .of_held rfl trivial
  case readOuter r =>
    cases hn
    refine .keep hp ?_
    split <;> exact .of_held rfl trivial
  case readInner r =>
    cases hn
    refine .keep hp ?_
    split
    · exact .of_held rfl (Nat.zero_le _)
    · exact .of_held rfl trivial
  case readCopy o r =>
    cases hn
    refine .keep hp ?_
    split <;> exact .of_nil rfl rfl rfl rfl rfl trivial

/-! ## load_page_range_inner -/

section SplitRun

variable {α : Type*} (idx : α → ℕ)

theorem splitRun_append (l : List α) : (splitRun idx l).1 ++ (splitRun idx l).2 = l := by
  fun_induction splitRun idx l with
  | case1 | case2 => rfl
  | case3 c d cs hadj ih => rw [cons_append, ih]
  | case4 => rfl

theorem splitRun_head (d : α) (cs : List α) : ∃ ds, (splitRun idx (d :: cs)).1 = d :: ds := by
  cases cs with
  | nil => exact ⟨[], rfl⟩
  | cons c cs =>
    unfold splitRun
    split
    · exact ⟨_, rfl⟩
    · exact ⟨[], rfl⟩

variable {idx}

theorem orderedRun_singleton (c : α) : OrderedRun idx [c] := by
  intro a ha
  rw [mem_singleton.mp ha]
  constructor
  · rintro _ ⟨⟩
    exact le_rfl
  · rintro _ ⟨⟩
    exact le_rfl

theorem orderedRun_cons {c d : α} {ds : List α} (hle : idx c ≤ idx d)
    (h : OrderedRun idx (d :: ds)) : OrderedRun idx (c :: d :: ds) := by
  have hd : ∀ a ∈ d :: ds, idx d ≤ idx a := fun a ha => (h a ha).1 d rfl
  intro a ha
  constructor
  · rintro b ⟨⟩
    rcases mem_cons.mp ha with rfl | ha
    · exact le_rfl
    · exact le_trans hle (hd a ha)
  · intro z hz
    rcases mem_cons.mp ha with rfl | ha
    · exact le_trans hle ((h d (.head _)).2 z hz)
    · exact (h a ha).2 z hz

theorem splitRun_ordered (l : List α) : OrderedRun idx (splitRun idx l).1 := by
  fun_induction splitRun idx l with
  | case1 => exact nofun
  | case2 c => exact orderedRun_singleton c
  | case3 c d cs hadj ih =>
    obtain ⟨ds, hds⟩ := splitRun_head idx d cs
    rw [hds] at ih ⊢
    exact orderedRun_cons (by omega) ih
  | case4 c d cs hadj => exact orderedRun_singleton c

/-- A run has a first and a last page, unless it is empty. -/
theorem run_ends {run : List α} {d : α} (hd : d ∈ run) :
    ∃ a z, run.head? = some a ∧ run.getLast? = some z := by
  cases run with
  | nil => cases hd
  | cons a l => exact ⟨a, _, rfl, getLast?_eq_some_getLast (cons_ne_nil a l)⟩

end SplitRun

variable {run : List (ℕ × ObjId)}

theorem fillRun_obj {start read : ℕ} : (s.fillRun run first start read).obj o = s.obj o ∨
      o ∈ run.map Prod.snd ∧
        ∃ bytes, (s.fillRun run first start read).obj o = { s.obj o with bytes := bytes } := by
  cases hfind : run.find? fun c => c.2 == o with
  | none => exact .inl (by simp only [fillRun, hfind])
  | some c =>
    have hmem := mem_of_find?_eq_some hfind
    have ho : c.2 = o := by simpa using find?_some hfind
    refine .inr ⟨ho ▸ mem_map_of_mem hmem, ?_⟩
    simp only [fillRun, hfind]
    exact ⟨_, rfl⟩

/-- What the device puts into the frame of a page of a run. -/
theorem fillRun_of_mem {start read : ℕ} {c : ℕ × ObjId}
    (hnodup : (run.map Prod.snd).Nodup) (hc : c ∈ run) : (s.fillRun run first start read).obj c.2 =
      (s.obj c.2).fill (min (read - (c.1 - first) * pageSize) pageSize) fun x =>
        s.backing.byte (start + (c.1 - first) * pageSize + x) := by
  cases hfind : run.find? fun d => d.2 == c.2 with
  | none => exact absurd (find?_eq_none.mp hfind c hc) (by simp)
  | some d =>
    have hmem := mem_of_find?_eq_some hfind
    have ho : d.2 = c.2 := by simpa using find?_some hfind
    have hd : d = c := inj_on_of_nodup_map hnodup hmem hc ho
    simp only [fillRun, hfind, hd]

variable {i : ℕ} {y : SyncCall} {batch : List WritebackPage} {o : ObjId} {w : WritebackPage}

/-- Where a byte of a page of the run stands in the run. -/
theorem run_position {fileSize last x : ℕ} (hfirst : first ≤ i) (hlast : i ≤ last)
    (hx : x < pageValidBytesForSize fileSize i) :
    pageStart first + ((i - first) * pageSize + x) = pageStart i + x ∧
      (i - first) * pageSize + x < min fileSize (pageStart last + pageSize) - pageStart first := by
  simp only [pageValidBytesForSize, pageStart, pageSize] at *
  omega

section RunRead

variable {run rest : List (ℕ × ObjId)} {fileSize : ℕ} {k : RangeCaller} {a z d : ℕ × ObjId}
  {x : ℕ}

variable {read : ℕ}

theorem runFact_transfers {buffered : Option (Slice UInt8)} {obj : ObjId → CachePage} (hd : d ∈ run)
    (hread : (runRead run rest fileSize k).ReadsAll s e →
      ∀ x, x < pageValidBytesForSize fileSize d.1 → pageStart d.1 + x < s.backing.len →
      x < CachePage.runValid (pageValidBytesForSize fileSize d.1) ((d.1 - first) * pageSize)
        read buffered ∧
      (buffered.map fun buffer x => buffer.get ((d.1 - first) * pageSize + x)).getD
        (obj d.2).bytes x = s.backing.byte (pageStart d.1 + x)) :
    Transfers s e (.runRead run rest fileSize k) obj (runFact first fileSize read buffered d) := by
  refine .mk d _ _ _ (mem_append_left _ hd) ?_ (mem_map.mpr ⟨d, hd, rfl⟩) hread
  exact mem_map_of_mem (mem_append_left _ hd)

section

variable (hrun : OrderedRun Prod.fst run) (hd : d ∈ run) (ha : run.head? = some a)
  (hz : run.getLast? = some z)

include hrun hd ha hz

/-- A complete read of a run reaches every byte that the device has of its pages. -/
theorem run_reads (hall : (runRead run rest fileSize k).ReadsAll s e)
    (hx : x < pageValidBytesForSize fileSize d.1) (hlen : pageStart d.1 + x < s.backing.len) :
    (d.1 - a.1) * pageSize + x < min e.count (s.backing.present (pageStart a.1)
      (min fileSize (pageStart z.1 + pageSize) - pageStart a.1)) := by
  obtain ⟨hpos, hlt⟩ := run_position ((hrun d hd).1 a ha) ((hrun d hd).2 z hz) hx
  exact readAll_of_lt (hall a ha z hz) hlt (by omega)

variable (hread : read = min e.count (s.backing.present (pageStart a.1)
  (min fileSize (pageStart z.1 + pageSize) - pageStart a.1)))

include hread

theorem runFact_direct (hnodup : (run.map Prod.snd).Nodup) :
    Transfers s e (.runRead run rest fileSize k)
      (s.fillRun run a.1 (pageStart a.1) read).obj (runFact a.1 fileSize read none d) := by
  refine runFact_transfers hd fun hall x hx hlen => ?_
  have hlt := run_reads hrun hd ha hz hall hx hlen
  have hpos := (run_position ((hrun d hd).1 a ha) ((hrun d hd).2 z hz) hx).1
  have hpage : x < pageSize := lt_of_lt_of_le hx (pageValidBytesForSize_le _ _)
  constructor
  · show x < min (read - (d.1 - a.1) * pageSize) _
    omega
  · show ((s.fillRun run a.1 (pageStart a.1) read).obj d.2).bytes x = _
    rw [fillRun_of_mem hnodup hd, CachePage.fill_bytes, blit_of_mem (Nat.zero_le _) (by omega),
      Nat.sub_zero, Nat.add_assoc, hpos]

theorem runFact_buffered : Transfers s e (.runRead run rest fileSize k) s.obj
      (runFact a.1 fileSize read (some ⟨min fileSize (pageStart z.1 + pageSize) - pageStart a.1,
        fun x => if x < read then s.backing.byte (pageStart a.1 + x) else 0⟩) d) := by
  refine runFact_transfers hd fun hall x hx hlen => ?_
  have hlt := run_reads hrun hd ha hz hall hx hlen
  obtain ⟨hpos, hstop⟩ := run_position ((hrun d hd).1 a ha) ((hrun d hd).2 z hz) hx
  rw [← hread] at hlt
  constructor
  · show x < min (min (read - (d.1 - a.1) * pageSize) _)
      (min fileSize (pageStart z.1 + pageSize) - pageStart a.1 - (d.1 - a.1) * pageSize)
    omega
  · show (if (d.1 - a.1) * pageSize + x < read then _ else _) = _
    rw [if_pos hlt, hpos]

end

/-- The transfer of a run fills its frames, or a buffer. -/
theorem runRead_effect (hp : s.pc t = .runRead run rest fileSize k)
    (hf : (runRead run rest fileSize k).Fits s.size s.clock)
    (hnodup : (runRead run rest fileSize k).loads.Nodup)
    (hn : s.rangeStep t e (.runRead run rest fileSize k) = some s') : HasEffect s e t s' := by
  simp only [rangeStep] at hn
  have hrun : (run.map Prod.snd).Nodup := by
    have hnodup : ((run ++ rest).map Prod.snd).Nodup := hnodup
    rw [map_append] at hnodup
    exact (List.nodup_append.mp hnodup).1
  have hfresh : ∀ i o v get, .loaded i o v get ∉ (runRead run rest fileSize k).facts := by
    simp [facts]
  have hmoves : ∀ first read buffered, (runRead run rest fileSize k).Moves
      (.runFinish run rest first fileSize read buffered k) [] ((run ++ rest).map Prod.snd) [] []
      (run.map (runFact first fileSize read buffered)) s.size s.clock :=
    fun _ _ _ => ⟨fun c hc => .inr hc, .refl _, .refl _, rfl, fun g hg => .inl hg, trivial⟩
  split at hn
  next hstop =>
    cases hn
    refine .of hp (.fill s.obj (fun o => .inl rfl) _ (fun g hg => ?_) hfresh (hmoves _ _ _))
    obtain ⟨d, hd, rfl⟩ := List.mem_map.mp hg
    obtain ⟨a, z, ha, hz⟩ := run_ends hd
    simp only [ha, hz] at hstop ⊢
    refine runFact_transfers hd fun hall x hx hlen => ?_
    have hstop : min fileSize (pageStart z.1 + pageSize) ≤ pageStart a.1 := hstop
    have hlt := (run_position ((hf d hd).1 a ha) ((hf d hd).2 z hz) hx).2
    omega
  · split at hn <;> cases hn
    · refine .of hp (.fill _ (fun o => ?_) _ (fun g hg => ?_) hfresh (hmoves _ _ _))
      · refine (fillRun_obj o).imp_right fun ⟨ho, hbytes⟩ => ⟨?_, hbytes⟩
        show o ∈ (run ++ rest).map Prod.snd
        rw [List.map_append]
        exact List.mem_append_left _ ho
      · obtain ⟨d, hd, rfl⟩ := List.mem_map.mp hg
        obtain ⟨a, z, ha, hz⟩ := run_ends hd
        simp only [ha, hz]
        exact runFact_direct hf hd ha hz rfl hrun
    · refine .of hp (.fill s.obj (fun o => .inl rfl) _ (fun g hg => ?_) hfresh (hmoves _ _ _))
      obtain ⟨d, hd, rfl⟩ := List.mem_map.mp hg
      obtain ⟨a, z, ha, hz⟩ := run_ends hd
      simp only [ha, hz]
      exact runFact_buffered hf hd ha hz rfl

theorem runFinish_effect {todo : List (ℕ × ObjId)} {buffered : Option (Slice UInt8)}
    (hp : s.pc t = .runFinish todo rest first fileSize read buffered k)
    (hn : s.rangeStep t e (.runFinish todo rest first fileSize read buffered k) = some s') :
    HasEffect s e t s' := by
  cases todo with
  | nil =>
    cases hn
    exact .keep hp (.of_held rfl trivial)
  | cons c todo =>
    cases hn
    have hmoves : (runFinish (c :: todo) rest first fileSize read buffered k).Moves
        (.runFinish todo rest first fileSize read buffered k) []
        ((todo ++ rest).map Prod.snd) [] [] [] s.size s.clock :=
      ⟨fun c hc => .inr (.tail _ hc), .refl _, .refl _, rfl,
        fun g hg => .inr (.tail _ hg), trivial⟩
    cases buffered with
    | none =>
      refine .of hp (.finish c _ _ none _ (.head _) ?_
        List.mem_cons_self (fun hne => absurd rfl hne) [] nofun (.refl _) hmoves)
      exact le_trans (min_le_right _ _) (pageValidBytesForSize_le _ _)
    | some buffer =>
      refine .of hp (.finish c _ _ (some fun x => buffer.get ((c.1 - first) * pageSize + x)) _
        (.head _) ?_ List.mem_cons_self (fun _ => by simp [facts, runFact]) [] nofun (.refl _)
        hmoves)
      exact le_trans (min_le_left _ _)
        (le_trans (min_le_right _ _) (pageValidBytesForSize_le _ _))

end RunRead

theorem rangeStep_effect (hp : s.pc t = p) (hf : p.Fits s.size s.clock) (hnodup : p.loads.Nodup)
    (hn : s.rangeStep t e p = some s') : HasEffect s e t s' := by
  cases p
  case runRead run rest fileSize k => exact runRead_effect hp hf hnodup hn
  case runFinish todo rest first fileSize read buffered k => exact runFinish_effect hp hn
  all_goals simp only [rangeStep, reduceCtorEq] at hn
  case rangeHead g =>
    cases hn
    refine .keep hp ?_
    split
    · exact .of_held rfl (Nat.zero_le _)
    · exact .of_held rfl trivial
  case rangeMark o g =>
    split at hn <;> cases hn
    · exact .keep hp (.of_eq (fun c hc => .inr (.tail _ hc)) rfl rfl rfl rfl trivial)
    rename_i hflags
    rw [Bool.not_eq_true, Bool.or_eq_false_iff] at hflags
    refine .of hp (.beginLoad (g.next, o) (s.obj o).refBit (.head _) hflags.2
      hflags.1 ⟨fun c hc => .inr ?_, ?_, .refl _, rfl, nofun, trivial⟩)
    · rcases mem_append.mp hc with hc | hc
      · exact .tail _ hc
      · exact mem_singleton.mp hc ▸ .head _
    · show ((g.candidates ++ [(g.next, o)]).map Prod.snd).Perm (o :: g.candidates.map Prod.snd)
      rw [map_append]
      exact perm_append_singleton _ _
  case runs candidates k =>
    cases hn
    refine .keep hp ?_
    split
    next hempty =>
      rw [List.isEmpty_iff] at hempty
      subst hempty
      cases k <;> exact .of_eq (fun _ => .inr) rfl rfl rfl rfl trivial
    · have hsplit := splitRun_append Prod.fst candidates
      refine .of_eq (fun _ hc => .inr (hsplit ▸ hc)) ?_ rfl rfl rfl (splitRun_ordered candidates)
      show ((splitRun Prod.fst candidates).1 ++ (splitRun Prod.fst candidates).2).map Prod.snd = _
      rw [hsplit]
      rfl
  case runSize run rest k =>
    cases hn
    refine .of hp (.quiet (run.map fun c => .sized c.1 (pageValidBytesForSize s.size c.1)) ?_ ?_)
    · intro g hg
      obtain ⟨d, hd, rfl⟩ := mem_map.mp hg
      exact .size d (mem_append_left _ hd) (mem_map_of_mem (mem_append_left _ hd))
    · exact ⟨fun c hc => .inr hc, .refl _, .refl _, rfl, fun g hg => .inl hg, hf⟩

/-! ## File faults -/

theorem faultStep_effect (hp : s.pc t = p) (hn : s.faultStep t p = some s') :
    HasEffect s e t s' := by
  cases p <;> simp only [faultStep, reduceCtorEq, some.injEq] at hn <;> subst hn
  case faultDirty o i =>
    exact .of hp (.dirty (i, o) (.head _) (.head _)
      ⟨fun c hc => .inr hc, .refl _, .refl _, rfl, fun g hg => .inr hg, trivial⟩)
  case retain o i =>
    exact .of hp (.retain (i, o) (.head _) (.head _) (.of_nil rfl rfl rfl rfl rfl trivial))
  case markDirty o i =>
    exact .of hp (.dirty (i, o) (.head _) (.head _) (.of_nil rfl rfl rfl rfl rfl trivial))

/-! ## sync_mapping -/

theorem SyncCall.laid_nil (y : SyncCall) : y.Laid [] n := ⟨nofun, nofun, nofun⟩

theorem SyncCall.Laid.mono {m : ℕ} (h : y.Laid batch m) (hle : m ≤ n) : y.Laid batch n :=
  ⟨h.index, fun k w hw hk => h.full k w hw (by omega), h.bounded⟩

theorem SyncCall.Laid.append (h : y.Laid batch 0)
    (hi : y.dirtyPages[batch.length]? = some w.pageIdx)
    (hfirst : ∃ first, y.dirtyPages.head? = some first ∧ w.pageIdx = first + batch.length)
    (hbound : w.validBytes ≤ pageSize ∧ y.began ≤ w.time) (hlast : n = 0 → w.validBytes = pageSize) :
    y.Laid (batch ++ [w]) n := by
  -- a position of the longer batch is one of the old batch or the last one
  have hcases : ∀ k w', (batch ++ [w])[k]? = some w' →
      batch[k]? = some w' ∧ k < batch.length ∨ w' = w ∧ k = batch.length := by
    intro k w' hw
    rcases Nat.lt_trichotomy k batch.length with hk | hk | hk
    · rw [getElem?_append_left hk] at hw
      exact .inl ⟨hw, hk⟩
    · subst hk
      rw [getElem?_append_right le_rfl, Nat.sub_self] at hw
      exact .inr ⟨(some.inj hw).symm, rfl⟩
    · rw [getElem?_append_right (le_of_lt hk)] at hw
      rw [getElem?_eq_none (by simp; omega)] at hw
      simp at hw
  refine ⟨fun k w' hw => ?_, fun k w' hw hk => ?_, fun w' hw => ?_⟩
  · rcases hcases k w' hw with ⟨hw, -⟩ | ⟨rfl, rfl⟩
    · exact h.index k w' hw
    · exact ⟨hi, hfirst⟩
  · rcases hcases k w' hw with ⟨hw, hlt⟩ | ⟨rfl, rfl⟩
    · exact h.full k w' hw hlt
    · rw [length_append, length_singleton] at hk
      exact hlast (by omega)
  · rcases mem_append.mp hw with hw | hw
    · exact h.bounded w' hw
    · exact mem_singleton.mp hw ▸ hbound

/-- A sync with a batch in its hands goes on to write it out. -/
theorem batchWrite_keeps (hheld : batch.map entry ⊆ p.held) (hloads : p.loads = [])
    (hflushes : p.flushes = batch.map page) (hevicts : p.evicts = [])
    (hfacts : p.facts = y.owes 0 :: batch.map took) (hbegan : y.began ≤ c)
    (hlaid : y.Laid batch 0) (hne : batch ≠ []) : p.Keeps (.batchWrite y batch) n c where
  held := fun _ hc => .inr (hheld hc)
  loads := hloads ▸ .refl _
  flushes := hflushes ▸ .refl _
  evicts := hevicts.symm
  facts := fun _ hg => .inr (hfacts ▸ hg)
  fits := ⟨hbegan, hlaid.mono (Nat.zero_le _), hne⟩

/-- A sync without a batch passes over a page that is absent or not dirty. -/
theorem skip_effect (hloads : p.loads = []) (hflushes : p.flushes = []) (hevicts : p.evicts = [])
    (howes : y.owes 0 ∈ p.facts) (hi : y.dirtyPages.head? = some i)
    (hclean : s.pages i = none ∨ ∃ o, (i, o) ∈ p.held ∧ (s.obj o).dirty = false)
    (hbegan : y.began ≤ s.clock) : Effect s e p (.collect (y.skip 1) []) s := by
  obtain ⟨rest, hrest⟩ : ∃ rest, y.dirtyPages = i :: rest := by
    cases hl : y.dirtyPages with
    | nil => simp [hl] at hi
    | cons j rest =>
      rw [hl] at hi
      exact ⟨rest, by rw [some.inj hi]⟩
  have howes : Fact.owes (i :: rest) y.began ∈ p.facts := hrest ▸ howes
  refine .quiet [y.owes 1] (fun g hg => ?_) ⟨nofun, hloads ▸ .refl _, hflushes ▸ .refl _,
    hevicts.symm, fun g hg => .inl hg, hbegan, (y.skip 1).laid_nil⟩
  rw [mem_singleton.mp hg, SyncCall.owes, hrest]
  exact .clean i rest y.began howes hclean

theorem collect_effect (hc : Careful s t) (hp : s.pc t = .collect y batch)
    (hbegan : y.began ≤ s.clock) (hlaid : y.Laid batch 0)
    (hn : s.syncStep t e (.collect y batch) = some s') : HasEffect s e t s' := by
  have hwrite : batch ≠ [] → HasEffect s e t (s.goto t (.batchWrite y batch)) := fun hne =>
    .keep hp (batchWrite_keeps (List.Subset.refl _) rfl rfl rfl rfl hbegan hlaid hne)
  simp only [syncStep] at hn
  split at hn
  next hhead =>
    split at hn <;> cases hn
    next hempty =>
      rw [List.isEmpty_iff] at hempty
      have hnil : y.dirtyPages = [] := head?_eq_none_iff.mp hhead
      refine .keep hp ⟨nofun, .refl _, hempty ▸ .refl _, rfl, fun g hg => .inr ?_, trivial⟩
      have howes : y.owes 0 = .owes [] y.began := by rw [SyncCall.owes, hnil]; rfl
      exact mem_singleton.mp hg ▸ howes ▸ .head _
    next hempty =>
      exact hwrite (by simpa using hempty)
  next hhead hnone =>
    cases hn
    refine hwrite fun hempty => ?_
    rw [hempty, length_nil, ← head?_eq_getElem?, hhead] at hnone
    simp at hnone
  next first i hfirst hi =>
    have hbatch : i ≠ first + batch.length → batch ≠ [] := by
      intro hne hempty
      rw [hempty, length_nil, ← head?_eq_getElem?, hfirst] at hi
      exact hne (by simp [hempty, some.inj hi])
    split at hn
    next hstop =>
      cases hn
      refine hwrite (hstop.elim (fun hcap hempty => ?_) hbatch)
      rw [hempty] at hcap
      exact absurd hcap (by decide)
    next hgo =>
      have hadj : i = first + batch.length := by
        by_contra hne
        exact hgo (.inr hne)
      split at hn <;> cases hn
      next o ho =>
        have hev := hc.finds i (by simp [hp, looksUp, hi]) o ho
        refine .of hp (.find (i, o) ho hev ⟨fun c hc => ?_, .refl _, .refl _, rfl,
          fun g hg => .inr hg, hbegan, hlaid, hi, first, hfirst, hadj⟩)
        exact (mem_cons.mp hc).imp_left mem_singleton.mpr
      next hnone =>
        split
        next hempty =>
          rw [List.isEmpty_iff] at hempty
          subst hempty
          have hi' : y.dirtyPages.head? = some i := by rw [head?_eq_getElem?]; exact hi
          exact .of hp (skip_effect rfl rfl rfl (.head _) hi' (.inl hnone) hbegan)
        next hempty =>
          exact hwrite (by simpa using hempty)

theorem collectPage_effect (hp : s.pc t = .collectPage o i y batch)
    (hbound : (s.obj o).validBytes ≤ pageSize) (hf : (collectPage o i y batch).Fits s.size s.clock)
    (hn : s.syncStep t e (.collectPage o i y batch) = some s') : HasEffect s e t s' := by
  obtain ⟨hbegan, hlaid, hi, first, hfirst, hadj⟩ := hf
  have hwrite : batch ≠ [] → HasEffect s e t (s.goto t (.batchWrite y batch)) := fun hne =>
    .keep hp (batchWrite_keeps (subset_cons_self _ _) rfl rfl rfl rfl hbegan hlaid hne)
  have hhead : batch = [] → y.dirtyPages.head? = some i := by
    rintro rfl
    rw [hfirst, hadj]
    rfl
  have hflush : HasEffect s e t
      (s.goto t (if batch.isEmpty then .flush o i (.sync y) else .batchWrite y batch)) := by
    split
    next hempty =>
      rw [List.isEmpty_iff] at hempty
      subst hempty
      exact .keep hp ⟨fun _ hc => .inr hc, .refl _, .refl _, rfl, fun _ hg => .inr hg, hhead rfl, hbegan⟩
    next hempty =>
      exact hwrite (by simpa using hempty)
  simp only [syncStep] at hn
  split at hn
  · cases hn
    exact hflush
  rename_i hwb
  split at hn
  next hdirty =>
    cases hn
    split
    next hempty =>
      rw [List.isEmpty_iff] at hempty
      subst hempty
      exact .of hp (skip_effect rfl rfl rfl (.head _) (hhead rfl)
        (.inr ⟨o, .head _, by simpa using hdirty⟩) hbegan)
    next hempty =>
      exact hwrite (by simpa using hempty)
  next hdirty =>
    split at hn <;> cases hn
    · exact hflush
    -- the page joins the batch, which is written out if the page is short
    set w : WritebackPage := ⟨i, o, (s.obj o).validBytes, (s.obj o).bytes, s.clock⟩ with hw
    have hlaid' : ∀ m, (m = 0 → w.validBytes = pageSize) → y.Laid (batch ++ [w]) m :=
      fun m hm => hlaid.append hi ⟨first, hfirst, hadj⟩ ⟨hbound, hbegan⟩ hm
    have hheld : ∀ c ∈ (batch ++ [w]).map entry, c ∈ (collectPage o i y batch).held := by
      intro c hc
      rw [map_append] at hc
      rcases mem_append.mp hc with hc | hc
      · exact .tail _ hc
      · exact mem_singleton.mp hc ▸ .head _
    have hperm : ((batch ++ [w]).map page).Perm (o :: batch.map page) := by
      rw [map_append]
      exact perm_append_singleton _ _
    have hfacts : ∀ g ∈ y.owes 0 :: (batch ++ [w]).map took,
        g ∈ [w.took] ∨ g ∈ (collectPage o i y batch).facts := by
      intro g hg
      rw [List.map_append] at hg
      exact (List.mem_append.mp hg).symm
    refine .of hp (.beginFlush (i, o) (.head _) (Bool.not_eq_true _ ▸ hwb)
      (by simpa using hdirty) [w.took] (fun g hg => ?_) ?_)
    · exact ⟨some (s.obj o).bytes, List.mem_singleton.mp hg, by rintro d ⟨⟩; rfl⟩
    split
    · exact ⟨fun c hc => .inr (hheld c hc), .refl _, hperm, rfl, hfacts, hbegan,
        hlaid' 1 nofun, by simp⟩
    next hfull =>
      exact ⟨fun c hc => .inr (hheld c hc), .refl _, hperm, rfl, hfacts, hbegan,
        hlaid' 0 fun _ => by simpa using hfull⟩

/-! ## flush_writeback_batch -/

section BatchWrite

variable {y : SyncCall} {batch : List WritebackPage} {f : File} {count : ℕ}

theorem SyncCall.Laid.full_row (h : y.Laid batch 1) :
    Slice.Full pageSize (batch.map block) := by
  constructor
  · intro j block hj hlt
    rw [getElem?_map] at hj
    obtain ⟨w, hw, rfl⟩ := map_eq_some_iff.mp hj
    rw [length_map] at hlt
    exact h.full j w hw hlt
  · intro block hblock
    obtain ⟨w, hw, rfl⟩ := mem_map.mp hblock
    exact (h.bounded w hw).1

/-- The pages of the batch follow its first one. -/
theorem SyncCall.Laid.start (h : y.Laid batch n) {k : ℕ} (hk : batch[k]? = some w) :
    pageStart w.pageIdx = pageStart ((batch.head?.map pageIdx).getD 0) + k * pageSize := by
  obtain ⟨w₀, hw₀⟩ : ∃ w₀, batch.head? = some w₀ := by
    cases batch with
    | nil => simp at hk
    | cons w₀ _ => exact ⟨w₀, rfl⟩
  obtain ⟨first, hfirst, hidx⟩ := (h.index k w hk).2
  obtain ⟨first', hfirst', hidx'⟩ := (h.index 0 w₀ (by rw [← head?_eq_getElem?, hw₀])).2
  rw [hfirst] at hfirst'
  cases hfirst'
  rw [hw₀, hidx]
  simp only [map_some, getD_some, hidx', Nat.add_zero, pageStart, Nat.add_mul]

/-- A complete write of the batch brings out what was copied from its pages. -/
theorem batch_delivered (h : y.Laid batch 1) (hw : w ∈ batch) :
    s.Delivered (f.writeAt (pageStart ((batch.head?.map pageIdx).getD 0))
      (batchData batch).len (batchData batch).get) w.pageIdx w.page w.validBytes (some w.data) := by
  intro x hx
  obtain ⟨k, hk⟩ := mem_iff_getElem?.mp hw
  rw [h.start hk]
  exact SparseFile.has_writeAt_row f h.full_row (by rw [getElem?_map, hk]; rfl) hx

/-- A write of the batch, complete or not, changes only what was copied from its pages. -/
theorem batch_writesTaken (h : y.Laid batch 1) (hcount : count ≤ (batchData batch).len) :
    s.WritesTaken (.batchWrite y batch)
      (s.backing.writeAt (pageStart ((batch.head?.map pageIdx).getD 0)) count
        (batchData batch).get) := by
  set start := pageStart ((batch.head?.map pageIdx).getD 0) with hstart
  intro off b hb
  by_cases hoff : start ≤ off ∧ off < start + count
  · obtain ⟨block, hblock, hlt⟩ := h.full_row.exists_block (by decide)
      (lt_of_lt_of_le (by omega : off - start < count) hcount)
    have hget := Slice.row_get (x := (off - start) % pageSize) hblock (Nat.mod_lt _ (by decide))
    have hpos : (off - start) / pageSize * pageSize + (off - start) % pageSize = off - start := by
      rw [Nat.mul_comm]
      exact Nat.div_add_mod _ _
    rw [hpos] at hget
    rw [getElem?_map] at hblock
    obtain ⟨w, hw, rfl⟩ := map_eq_some_iff.mp hblock
    refine .inr ⟨w.pageIdx, w.page, w.time, w.validBytes, some w.data, (off - start) % pageSize,
      mem_cons_of_mem _ (mem_map_of_mem (mem_of_getElem? hw)), hlt, ?_, ?_⟩
    · rw [h.start hw]
      omega
    · have hhas := SparseFile.has_writeAt s.backing (batchData batch).get hoff.1 hoff.2
      rwa [show (batchData batch).get (off - start) = _ from hget] at hhas
  · exact .inl (hb.writeAt_of_not_mem hoff)

theorem batchWrite_effect (hp : s.pc t = .batchWrite y batch)
    (hf : (batchWrite y batch).Fits s.size s.clock)
    (hn : s.syncStep t e (.batchWrite y batch) = some s') : HasEffect s e t s' := by
  obtain ⟨hbegan, hlaid, hne⟩ := hf
  have hcount : min e.count (batchData batch).len ≤ (batchData batch).len := min_le_right _ _
  cases hn
  refine .of hp (.deliver (batch_writesTaken hlaid hcount) (fun g hg => ?_) ?_ rfl rfl rfl
    rfl hbegan)
  · rcases mem_append.mp hg with hg | hg
    · -- the sync has the pages of the batch behind it
      split at hg
      next hok =>
        rw [decide_eq_true_iff] at hok
        rw [mem_singleton.mp hg]
        refine .owes y.dirtyPages _ y.began (.head _) (fun i o time v data hg => ?_) fun i hi => ?_
        · rcases mem_cons.mp hg with hg | hg
          · cases hg
          · obtain ⟨w, hw, heq⟩ := mem_map.mp hg
            obtain ⟨-, -, rfl, -⟩ := Fact.took.inj heq
            exact (hlaid.bounded w hw).2
        obtain ⟨k, hk⟩ := mem_iff_getElem?.mp hi
        by_cases hlt : k < batch.length
        · obtain ⟨w, hw⟩ : ∃ w, batch[k]? = some w := ⟨_, getElem?_eq_getElem hlt⟩
          have hidx := (hlaid.index k w hw).1
          rw [hk] at hidx
          cases hidx
          have hmem := mem_of_getElem? hw
          refine .inr ⟨w.page, w.time, w.validBytes, some w.data,
            mem_cons_of_mem _ (mem_map_of_mem hmem), ?_⟩
          rw [hok]
          exact batch_delivered hlaid hmem
        · left
          have hlen := length_pos_iff.mpr hne
          refine mem_iff_getElem?.mpr ⟨k - max batch.length 1, ?_⟩
          rw [getElem?_drop, ← hk]
          congr 1
          omega
      · cases hg
    · obtain ⟨w, hw, rfl⟩ := mem_map.mp hg
      refine .out w.pageIdx w.page w.time w.validBytes (some w.data) _
        (mem_cons_of_mem _ (mem_map_of_mem hw)) fun hok => ?_
      rw [decide_eq_true_iff] at hok
      rw [hok]
      exact batch_delivered hlaid hw
  · intro i o time v data hg
    rcases mem_append.mp hg with hg | hg
    · split at hg <;> simp [SyncCall.owes] at hg
    · obtain ⟨w, -, hw⟩ := mem_map.mp hg
      simp [out] at hw

end BatchWrite

theorem syncStep_effect (hc : Careful s t) (hp : s.pc t = p) (hf : p.Fits s.size s.clock)
    (hbound : ∀ o, (s.obj o).validBytes ≤ pageSize) (hn : s.syncStep t e p = some s') :
    HasEffect s e t s' := by
  cases p with
  | collect y batch => exact collect_effect hc hp hf.1 hf.2 hn
  | collectPage o i y batch => exact collectPage_effect hp (hbound o) hf hn
  | batchWrite y batch => exact batchWrite_effect hp hf hn
  | batchFinish todo writeOk consumed y =>
    cases todo with
    | nil =>
      cases hn
      refine .keep hp ?_
      cases writeOk with
      | false => exact .of_nil rfl rfl rfl rfl rfl trivial
      | true =>
        exact ⟨fun c hc => .inr hc, .refl _, .refl _, rfl, fun g hg => .inr hg, hf,
          SyncCall.laid_nil _⟩
    | cons w todo =>
      cases hn
      refine .of hp (.endFlush w.entry w.time writeOk (.head _) ?_ (.refl _) ⟨fun c hc => .inr
        (.tail _ hc), .refl _, .refl _, rfl, fun g hg => .inr ?_, hf⟩)
      · exact mem_append_right _ (.head _)
      · exact (mem_append.mp hg).elim (mem_append_left _) fun h => mem_append_right _ (.tail _ h)
  | synced began =>
    cases hn
    exact .keep hp (.of_held rfl trivial)
  | _ => simp [syncStep] at hn

/-! ## flush_page and reclaim_one -/

theorem page_delivered {f : File} {v : ℕ} :
    s.Delivered (f.writeAt (pageStart i) v (s.obj o).bytes) i o v none := by
  intro x hx
  have hhas := SparseFile.has_writeAt f (s.obj o).bytes
    (Nat.le_add_right (pageStart i) x) (Nat.add_lt_add_left hx _)
  rwa [Nat.add_sub_cancel_left] at hhas

variable {k : FlushCaller}

theorem flushWrite_effect {v time : ℕ} (hp : s.pc t = .flushWrite o i v time k)
    (hf : (flushWrite o i v time k).Fits s.size s.clock)
    (hn : s.reclaimStep t e (.flushWrite o i v time k) = some s') : HasEffect s e t s' := by
  cases hn
  refine .of hp (.deliver ?_ (fun g hg => ?_) ?_ rfl rfl rfl rfl hf)
  · intro off b hb
    by_cases hoff : pageStart i ≤ off ∧ off < pageStart i + min e.count v
    · refine .inr ⟨i, o, time, v, none, off - pageStart i, .head _, by omega, by omega, ?_⟩
      exact SparseFile.has_writeAt s.backing (s.obj o).bytes hoff.1 hoff.2
    · exact .inl (hb.writeAt_of_not_mem hoff)
  · rcases mem_cons.mp hg with rfl | hg
    · refine .out i o time v none _ (.head _) fun hok => ?_
      rw [decide_eq_true_iff] at hok
      rw [hok]
      exact page_delivered
    · split at hg
      next hok =>
        rw [decide_eq_true_iff] at hok
        cases k with
        | reclaim => cases hg
        | sync y =>
          rw [mem_singleton.mp hg]
          refine .owes y.dirtyPages _ y.began (.tail _ (.head _))
            (fun i' o' time' v' data' hg => ?_) fun j hj => ?_
          · rcases mem_cons.mp hg with hg | hg
            · obtain ⟨-, -, rfl, -⟩ := Fact.took.inj hg
              exact hf.1.2
            · cases mem_singleton.mp hg
          -- the page of the writeback is the first one of the sync
          cases hl : y.dirtyPages with
          | nil => rw [hl] at hj; cases hj
          | cons a rest =>
            have hhead : a = i := by
              have hi := hf.1.1
              rw [hl] at hi
              exact some.inj hi
            rw [hl] at hj
            rcases mem_cons.mp hj with rfl | hj
            · subst hhead
              refine .inr ⟨o, time, v, none, .head _, ?_⟩
              rw [hok]
              exact page_delivered
            · exact .inl hj
      · cases hg
  · intro i' o' time' v' data' hg
    rcases mem_cons.mp hg with hg | hg
    · simp at hg
    · split at hg
      · cases k <;> simp [FlushCaller.owes, SyncCall.owes] at hg
      · cases hg

theorem flush_effect (hp : s.pc t = .flush o i k)
    (hf : (flush o i k).Fits s.size s.clock) (hn : s.reclaimStep t e (.flush o i k) = some s') :
    HasEffect s e t s' := by
  simp only [reclaimStep] at hn
  split at hn
  · cases hn
    exact hasEffect_wait rfl (.keep (.refl _ (hp ▸ hf)))
  rename_i hwb
  split at hn <;> cases hn
  next hdirty =>
    cases k with
    | reclaim => exact .keep hp (.of_nil rfl rfl rfl rfl rfl trivial)
    | sync y =>
      exact .of hp (skip_effect rfl rfl rfl (.head _) hf.1
        (.inr ⟨o, .head _, by simpa using hdirty⟩) hf.2)
  next hdirty =>
    refine .of hp (.beginFlush (i, o) (.head _) (Bool.not_eq_true _ ▸ hwb)
      (by simpa using hdirty) [.took i o s.clock (s.obj o).validBytes none] (fun g hg => ?_)
      ⟨fun c hc => .inr hc, .refl _, .refl _, rfl, fun g hg => ?_, hf, le_rfl⟩)
    · exact ⟨none, mem_singleton.mp hg, nofun⟩
    · exact (mem_cons.mp hg).imp_left mem_singleton.mpr

theorem flushFinish_effect {time : ℕ} {writeOk : Bool} (hp : s.pc t = .flushFinish o i time writeOk k)
    (hf : (flushFinish o i time writeOk k).Fits s.size s.clock)
    (hn : s.reclaimStep t e (.flushFinish o i time writeOk k) = some s') : HasEffect s e t s' := by
  cases hn
  cases k with
  | reclaim =>
    exact .of hp (.endFlush (i, o) time writeOk (.head _) (.head _) (.refl _)
      ⟨nofun, .refl _, .refl _, rfl, nofun, trivial⟩)
  | sync y =>
    cases writeOk with
    | false =>
      exact .of hp (.endFlush (i, o) time false (.head _) (.head _) (.refl _)
        ⟨nofun, .refl _, .refl _, rfl, nofun, trivial⟩)
    | true =>
      exact .of hp (.endFlush (i, o) time true (.head _) (.head _) (.refl _) ⟨nofun, .refl _, .refl
        _, rfl, fun g hg => .inr (.tail _ hg), le_trans hf.1.2 hf.2, SyncCall.laid_nil _⟩)

theorem reclaimStep_effect (hc : Careful s t) (hp : s.pc t = p) (hf : p.Fits s.size s.clock)
    (hn : s.reclaimStep t e p = some s') : HasEffect s e t s' := by
  cases p with simp only [reclaimStep] at hn
  | flush o i k => exact flush_effect hp hf hn
  | flushWrite o i valid time k => exact flushWrite_effect hp hf hn
  | flushFinish o i time writeOk k => exact flushFinish_effect hp hf hn
  | reclaimDecide o =>
    split at hn
    · cases hn
      exact .keep hp (.of_held rfl trivial)
    rename_i hbusy
    have hev : (s.obj o).evicting = false := by
      simp only [CachePage.busy, Bool.not_eq_true, Bool.or_eq_false_iff] at hbusy
      exact hbusy.2
    split at hn
    · cases hn
      exact .of hp (.touch o false [] nofun (Pc.Keeps.of_held rfl trivial))
    next href =>
      split at hn <;> cases hn
      · exact .of hp (.pick o [] (.inl ⟨rfl, hev, rfl⟩)
          (.of_eq (fun c hc => .inl hc) rfl rfl rfl rfl trivial))
      rename_i hdirty
      have hevict : (s.obj o).evictable = true := by
        simp [CachePage.evictable, hbusy, href, hdirty]
      exact .of hp (.mark o rfl hevict (hc.evicts o hp hevict)
        ⟨nofun, .refl _, .refl _, rfl, nofun, trivial⟩)
  | reclaimRemove o =>
    split at hn <;> cases hn
    next hpage =>
      exact .of hp (.remove o rfl hpage ⟨nofun, .refl _, .refl _, rfl, nofun, trivial⟩)
    next hpage =>
      exact .of hp (.giveUp o rfl hpage rfl)
  | reclaimRestore o =>
    cases hn
    exact .of hp (.restore o rfl (.of_held rfl trivial))
  | _ => simp at hn

/-! ## A step of the system -/

theorem begin_effect (hn : s.begin t p' = some s') (hheld : p'.held = []) (hloads : p'.loads = [])
    (hflushes : p'.flushes = []) (hevicts : p'.evicts = []) (hfacts : p'.facts = [])
    (hfits : p'.Fits s.size s.clock) : HasEffect s e t s' := by
  unfold begin at hn
  split at hn
  next hp =>
    cases hn
    exact .keep hp (.of_nil hheld hloads hflushes hevicts hfacts hfits)
  · simp at hn

/-- The thread a step is a section of; no thread takes part in an `unmap`. -/
def Label.mover : Label → ThreadId
  | .write t _ _ | .read t _ _ | .loadRange t _ _ | .fault t _ _ | .dirtyMapped t _ | .sync t
  | .reclaim t _ | .run t _ => t
  | .unmap _ => 0

/-- The environment of a step; a call begins without one. -/
def Label.env : Label → Env
  | .run _ e => e
  | _ => ⟨none, 0⟩

/-- A step that is no section of a call and no unmapping begins a call. -/
theorem next_begins {l : Label} (hn : s.next l = some s') (hrun : ∀ t e, l ≠ .run t e)
    (hunmap : ∀ o, l ≠ .unmap o) : s.pc l.mover = .idle ∧ s'.obj = s.obj := by
  have hbegin : ∀ {t p}, s.begin t p = some s' → s.pc t = .idle ∧ s'.obj = s.obj := by
    intro t p hn
    unfold begin at hn
    split at hn
    next hidle =>
      cases hn
      exact ⟨hidle, rfl⟩
    · cases hn
  cases l with
  | write | read | loadRange | fault | sync => exact hbegin hn
  | dirtyMapped | reclaim =>
    rcases ite_none_right_eq_some.mp hn with ⟨_, hn⟩
    exact hbegin hn
  | unmap o => exact absurd rfl (hunmap o)
  | run t e => exact absurd rfl (hrun t e)

/-- Every step of the system has an effect. -/
theorem next_effect {l : Label} (hr : Regular s) (hs : Sound s l) (hn : s.next l = some s') :
    HasEffect s l.env l.mover s' := by
  cases l with simp only [State.next, State.begin] at hn
  | write t offset buf =>
    refine begin_effect hn ?_ ?_ ?_ ?_ ?_ ?_ <;> split <;> first | rfl | trivial
  | read t offset len =>
    refine begin_effect hn ?_ ?_ ?_ ?_ ?_ ?_ <;> split <;>
      first | rfl | trivial | (split <;> first | rfl | trivial)
  | loadRange t first count => exact begin_effect hn rfl rfl rfl rfl rfl trivial
  | fault t i dirties => exact begin_effect hn rfl rfl rfl rfl rfl (Nat.zero_le _)
  | sync t =>
    split at hn
    next hp =>
      cases hn
      refine .of hp (.quiet [.owes s.dirtyPages s.clock] (fun g hg => ?_) ⟨nofun, .refl _, .refl _,
        rfl, fun g hg => .inl hg, le_rfl, SyncCall.laid_nil _⟩)
      rw [mem_singleton.mp hg]
      exact .dirty
    · simp at hn
  | reclaim t o =>
    split at hn
    next ho =>
      split at hn
      next hp =>
        cases hn
        exact .of hp (.choose o rfl rfl ho)
      · simp at hn
    · simp at hn
  | dirtyMapped t o =>
    split at hn
    next hmapped =>
      split at hn
      next hp =>
        cases hn
        exact .of hp (.pick o [.ready o] (.inr ⟨hmapped, rfl⟩)
          ⟨fun c hc => .inl hc, .refl _, .refl _, rfl, fun g hg => .inl hg, trivial⟩)
      · simp at hn
    · simp at hn
  | unmap o =>
    rcases ite_none_right_eq_some.mp hn with ⟨hmapped, ⟨⟩⟩
    exact hasEffect_wait rfl (.release o hmapped (.refl _ (hr.fits _)))
  | run t e =>
    have hc := hs t e rfl
    have hf := hr.fits t
    simp only [State.threadStep, or_eq_some_iff] at hn
    rcases hn with hn | ⟨-, hn | ⟨-, hn | ⟨-, hn | ⟨-, hn | ⟨-, hn | ⟨-, hn⟩⟩⟩⟩⟩⟩
    · exact writeStep_effect hc rfl hf hn
    · exact pageStep_effect hc rfl hf hn
    · exact readStep_effect hc rfl hn
    · exact rangeStep_effect rfl hf (hr.nodup t) hn
    · exact faultStep_effect rfl hn
    · exact syncStep_effect hc rfl hf hr.bounded hn
    · exact reclaimStep_effect hc rfl hf hn

end Sections

end CosmOS.PageCache
