import CosmOS.PageCache.Content

/-!
# PageCache.Eviction — reclaim against reads, writes, faults and syncs

`reclaim_one` decides under the page lock, drops it, and takes the page out of the index in a later
section without looking at it again.

* `eviction_keeps_bytes`: in every run whose sections are `Preserving`, a page that leaves the index
  is clean, unmapped and in nobody's hands, a copy of `read_mapping` gives the bytes written last,
  and a sync that returns has brought them out.
* `eviction_drops_bytes`: a write that has found its page before the page is marked `EVICTING` stores
  in it afterwards.  The page is removed dirty, and a later read gives the old byte.
-/

namespace CosmOS.PageCache

variable {s s' s₁ : State} {e : Env} {t u : ThreadId} {p p' : Pc} {o : ObjId} {l : Label} {k : ℕ}

/-- Every section is careful, and whole where it loads a page or stores in one. -/
def Preserving (s : State) (l : Label) : Prop := ∀ t e, l = .run t e → Careful s t ∧ Whole s e t

theorem Preserving.sound (h : Preserving s l) : Sound s l := fun t e hl => (h t e hl).1

/-- A call that begins is as whole as it has to be. -/
theorem whole_of_idle (hp : s.pc t = .idle) : Whole s e t where
  reads := by rw [hp]; trivial
  stores := fun _ _ _ hstore => by rw [hp] at hstore; cases hstore

structure ContentInv (s : State) : Prop where
  inv : Inv s
  content : Content s

theorem ContentInv.boot (f : File) : ContentInv (boot f) := ⟨.boot f, .boot f⟩

theorem Content.next (h : Content s) (hI : Inv s) (hl : Preserving s l)
    (hn : s.next l = some s') : Content s' := by
  by_cases hunmap : ∃ o, l = .unmap o
  · obtain ⟨o, rfl⟩ := hunmap
    rcases Option.ite_none_right_eq_some.mp hn with ⟨_, ⟨⟩⟩
    exact h.setObj rfl rfl rfl rfl rfl
  · obtain ⟨s₁, p', rfl, he⟩ := next_effect hI.regular hl.sound hn
    by_cases hrun : ∃ t e, l = .run t e
    · obtain ⟨t, e, rfl⟩ := hrun
      exact h.effect hI (hl t e rfl).2 he
    · have hidle := (next_begins hn (fun t e heq => hrun ⟨t, e, heq⟩) fun o heq => hunmap ⟨o, heq⟩).1
      exact h.effect hI (whole_of_idle hidle) he

theorem contentInv_of_reach (h : machine.Reach Preserving s) : ContentInv s := by
  refine h.invariant ?_ fun s l s' hI hl hn => ?_
  · rintro s ⟨f, rfl⟩
    exact .boot f
  · exact ⟨hI.inv.next hl.sound hn, hI.content.next hI.inv hl hn⟩

/-- An object that is not in the index never comes back. -/
theorem Effect.not_in_pages (he : Effect s e p p' s₁) (ho : o < s.made)
    (hout : ∀ i, s.pages i ≠ some o) : ∀ i, s₁.pages i ≠ some o := by
  cases he with
  | make j ppn =>
    intro i hi
    rcases eq_or_ne i j with rfl | hij
    · have heq : s.made = o :=
        Option.some.inj ((Function.update_self (f := s.pages) ..).symm.trans hi)
      exact absurd heq (ne_of_gt ho)
    · exact hout i ((Function.update_of_ne hij ..).symm.trans hi)
  | remove o' =>
    intro i hi
    by_cases hio : i = (s.obj o').index
    · subst hio
      simp at hi
    · exact hout i ((Function.update_of_ne hio ..).symm.trans hi)
  | _ => exact hout

/-- In every run whose sections are all `Preserving`:

* a page that `reclaim_one` is about to remove is in the index, clean, unmapped and in nobody's
  hands, whoever is about to store in a page has one of the index, and a removed page stays out;
* what `read_mapping` copies out of a page are the bytes written last, all within `valid_bytes`, and
  all of them lie below the size of the file;
* a sync that returns has brought out every byte written before it began. -/
theorem eviction_keeps_bytes (h : machine.Reach Preserving s) :
    ((∀ t o, s.pc t = .reclaimRemove o → s.pages (s.obj o).index = some o ∧
        (s.obj o).dirty = false ∧ (s.obj o).mapCount = 0 ∧ ∀ u, ∀ c ∈ (s.pc u).held, c.2 ≠ o) ∧
      (∀ t o m w, s.pc t = .writeStore o m w → s.pages w.pageIdx = some o) ∧
      ∀ l s', Preserving s l → machine.next s l = some s' → ∀ o, o < s.made →
        (∀ i, s.pages i ≠ some o) → ∀ i, s'.pages i ≠ some o) ∧
    ((∀ t o r, s.pc t = .readCopy o r → ∀ off b, s.written off = some b →
        filePageIndex off = r.pageIdx → (s.obj o).Shows off b) ∧
      (∀ t o offset len n, s.pc t = .readHit o offset len n → (s.obj o).uptodate = true →
        ∀ off b, s.written off = some b → filePageIndex off = filePageIndex offset →
          (s.obj o).Shows off b) ∧ ∀ off b, s.written off = some b → off < s.size) ∧
    ∀ t began, s.pc t = .synced began → ∀ off b, s.written off = some b → s.stamp off ≤ began →
      s.backing.Has off b := by
  obtain ⟨hI, hC⟩ := contentInv_of_reach h
  refine ⟨⟨fun t o hp => ?_, fun t o m w hp => ?_, fun l s' hl hn o ho hout => ?_⟩,
    ⟨fun t o r hp => ?_, fun t o offset len n hp hup => ?_, hC.room⟩, fun t began hp off b hw hst => ?_⟩
  · have hmem : o ∈ (s.pc t).evicts := by rw [hp]; exact .head _
    obtain ⟨hpage, hd, hm⟩ := hI.places.evicted t o hmem
    refine ⟨hpage, hd, hm, ?_⟩
    -- whatever is in the hands of a thread is not being evicted
    rintro u c hc rfl
    have hev := (hI.places.held u c hc).2
    rw [hI.places.evicts.flagged t c.2 hmem] at hev
    cases hev
  · have hheld : (w.pageIdx, o) ∈ (s.pc t).held := by rw [hp]; exact .head _
    exact (hI.places.held t _ hheld).1
  · obtain ⟨s₁, p', rfl, he⟩ := next_effect hI.regular hl.sound hn
    exact he.not_in_pages ho hout
  · have hheld : (r.pageIdx, o) ∈ (s.pc t).held := by rw [hp]; exact .head _
    have hup := hI.flags.ready t o (hp ▸ .head _)
    exact hC.page _ o (hI.places.held t _ hheld).1 hup
  · have hheld : (filePageIndex offset, o) ∈ (s.pc t).held := by rw [hp]; exact .head _
    exact hC.page _ o (hI.places.held t _ hheld).1 hup
  · have howes := (hC.facts t (.owes [] began) (hp ▸ .head _)).2
    exact ((howes off b hw hst).resolve_left List.not_mem_nil).1

/-- The test of `Preserving` for a section, when all threads from `k` on are idle. -/
def State.preserves (s : State) (k : ℕ) (t : ThreadId) (e : Env) : Bool :=
  ((s.pc t).looksUp.all fun i => (s.pages i).all fun o => !(s.obj o).evicting) &&
    match s.pc t with
    | .reclaimDecide o => !(s.obj o).evictable ||
        (List.range k).all fun u => (s.pc u).held.all fun c => c.2 != o
    | .writeStore o _ w => !(s.obj o).loading && ((s.obj o).uptodate ||
        decide (w.writable = pageSize) || decide (s.backing.len ≤ pageStart w.pageIdx))
    | .loadRead _ v k => decide (s.backing.present (pageStart k.pageIdx) v ≤ e.count)
    | .runRead run _ fileSize _ => run.head?.all fun c => run.getLast?.all fun d =>
      decide (s.backing.present (pageStart c.1)
        (min fileSize (pageStart d.1 + pageSize) - pageStart c.1) ≤ e.count)
    | _ => true

/-- Only the threads below `k` take steps, and their sections are `Preserving`. -/
def PreservingBelow (k : ℕ) (s : State) (l : Label) : Prop :=
  l.mover < k ∧ (match l with
    | .run t e => s.preserves k t e
    | _ => true) = true

instance (k : ℕ) (s : State) (l : Label) : Decidable (PreservingBelow k s l) :=
  inferInstanceAs (Decidable (_ ∧ _))

theorem preserving_of_below (hidle : ∀ u, k ≤ u → s.pc u = .idle) (h : PreservingBelow k s l) :
    Preserving s l := by
  rintro t e rfl
  obtain ⟨hfinds, hrest⟩ := Bool.and_eq_true_iff.mp h.2
  simp only [List.all_eq_true, Option.all_eq_true, Bool.not_eq_true'] at hfinds
  refine ⟨⟨hfinds, fun o hp hev u c hc => ?_, fun o m w hp => ?_⟩, ⟨?_, fun o m w hp => ?_⟩⟩
  · simp only [hp, hev, Bool.not_true, Bool.false_or, List.all_eq_true, List.mem_range,
      bne_iff_ne] at hrest
    rcases lt_or_ge u k with hu | hu
    · exact hrest u hu c hc
    · rw [hidle u hu] at hc
      cases hc
  · simp only [hp, Bool.and_eq_true, Bool.not_eq_true'] at hrest
    exact hrest.1
  · unfold Pc.ReadsAll
    split
    next hp =>
      simp only [hp, decide_eq_true_iff] at hrest
      exact hrest
    next hp =>
      simp only [hp, Option.all_eq_true, decide_eq_true_iff] at hrest
      exact hrest
    · trivial
  · simp only [hp, Bool.and_eq_true, Bool.or_eq_true, decide_eq_true_iff] at hrest
    exact or_assoc.mp hrest.2

theorem reach_of_below (h : machine.Reach (PreservingBelow k) s) : machine.Reach Preserving s := by
  -- along such a run the invariant holds and the threads from `k` on stay idle
  have hidle : ∀ s, machine.Reach (PreservingBelow k) s → Inv s ∧ ∀ u, k ≤ u → s.pc u = .idle := by
    intro s h
    refine Machine.Reach.invariant (P := fun s => Inv s ∧ ∀ u, k ≤ u → s.pc u = .idle) ?_
      (fun s l s' hI hl hn => ?_) h
    · rintro s ⟨f, rfl⟩
      exact ⟨.boot f, fun _ _ => rfl⟩
    have hs := (preserving_of_below hI.2 hl).sound
    refine ⟨hI.1.next hs hn, fun u hu => ?_⟩
    obtain ⟨s₁, p', rfl, he⟩ := next_effect hI.1.regular hs hn
    have hne : u ≠ l.mover := fun heq => absurd hl.1 (not_lt.mpr (heq ▸ hu))
    rw [goto_pc_of_ne hne, he.pc_eq]
    exact hI.2 u hu
  exact h.imp fun s l hs hl => preserving_of_below (hidle s hs).2 hl

/-- Ten bytes are written, and a sync brings them out; the reclaimer clears `ref_bit`. -/
def writeThenSync : List Label :=
  .write 0 0 ⟨10, fun _ => 7⟩ :: steps 0 8 ++ .sync 1 :: steps 1 7 ++ .reclaim 2 0 :: steps 2 1

def evictThenRead : List Label :=
  writeThenSync ++ .reclaim 2 0 :: steps 2 2 ++ .read 3 0 10 :: steps 3 17

theorem eviction_keeps_bytes_read : ∃ s, machine.Reach Preserving s ∧
    (s.made = 2 ∧ s.pages 0 = some 1) ∧ s.written 0 = some 7 ∧
    ∃ o r, s.pc 3 = .readCopy o r ∧ (s.obj o).Shows 0 7 := by
  obtain ⟨s, hs, hmade, hpage, hw, hpc⟩ := machine.exists_reach_of_runWhile (PreservingBelow 4)
    (fun s => s.made = 2 ∧ s.pages 0 = some 1 ∧ s.written 0 = some 7 ∧ (match s.pc 3 with
      | .readCopy _ r => r.pageIdx == 0
      | _ => false : Bool))
    evictThenRead (init_boot SparseFile.empty) (by decide +kernel)
  refine ⟨s, reach_of_below hs, ⟨hmade, hpage⟩, hw, ?_⟩
  split at hpc
  next o r hp3 =>
    have hidx : filePageIndex 0 = r.pageIdx := (eq_of_beq hpc).symm
    exact ⟨o, r, hp3, (eviction_keeps_bytes (reach_of_below hs)).2.1.1 3 o r hp3 0 7 hw hidx⟩
  · exact absurd hpc (by decide)

/-- A second write has the page in its hands when the reclaimer marks it, and stores afterwards. -/
def storeWhileEvicting : List Label :=
  writeThenSync ++ .write 0 5 ⟨1, fun _ => 9⟩ :: steps 0 5 ++ .reclaim 2 0 :: steps 2 1 ++ steps 0 2

def removesDirty (s : State) : Bool :=
  match s.pc 2 with
  | .reclaimRemove o => decide (s.pages (s.obj o).index = some o) && (s.obj o).dirty
  | _ => false

/-- A read is about to copy the first byte that was written. -/
def readsSeven (s : State) : Bool :=
  match s.pc 3 with
  | .readCopy o r => decide (r.pageIdx = filePageIndex 5 ∧ (s.obj o).bytes (filePageOffset 5) = 7)
  | _ => false

/-- A page is removed dirty; after that a read copies the old byte although the write returned. -/
theorem eviction_drops_bytes :
    (∃ s o, machine.Reachable s ∧ s.pc 2 = .reclaimRemove o ∧ s.pages (s.obj o).index = some o ∧
      (s.obj o).dirty = true) ∧
    ∃ s, machine.Reachable s ∧ s.pc 0 matches .idle ∧ s.written 5 = some 9 ∧
      ∃ o r, s.pc 3 = .readCopy o r ∧ r.pageIdx = filePageIndex 5 ∧
        (s.obj o).bytes (filePageOffset 5) = 7 := by
  constructor
  · obtain ⟨s, hs, hp⟩ := machine.exists_reachable_of_run (removesDirty ·) storeWhileEvicting
      (init_boot SparseFile.empty) (by decide)
    unfold removesDirty at hp
    split at hp
    next o hp2 =>
      obtain ⟨hpage, hd⟩ := Bool.and_eq_true_iff.mp hp
      exact ⟨s, o, hs, hp2, of_decide_eq_true hpage, hd⟩
    · exact absurd hp (by decide)
  · obtain ⟨s, hs, hidle, hw, hpc⟩ := machine.exists_reachable_of_run
      (fun s => (s.pc 0 matches .idle) ∧ s.written 5 = some 9 ∧ readsSeven s)
      (storeWhileEvicting ++ steps 2 1 ++ .read 3 0 10 :: steps 3 17)
      (init_boot SparseFile.empty) (by decide +kernel)
    refine ⟨s, hs, hidle, hw, ?_⟩
    unfold readsSeven at hpc
    split at hpc
    next o r hp3 =>
      exact ⟨o, r, hp3, of_decide_eq_true hpc⟩
    · exact absurd hpc (by decide)

end CosmOS.PageCache
