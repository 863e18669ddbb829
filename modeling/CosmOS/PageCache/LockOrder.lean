import CosmOS.PageCache.Locks

/-!
# PageCache.LockOrder — pages before mappings and mappings before pages

`mark_page_dirty`, `flush_page` and `finish_page_writeback` take the lock of a mapping under the lock of a
page.  `cached_uptodate_pages`, `try_get_page_with_fault_window` and `discard_inode` take locks of pages
under the lock of their mapping.

* `page_and_mapping_deadlock`: a task that marks a page dirty and one that looks at the cached pages of the
  mapping wait for each other.
* `no_page_mapping_deadlock`: it takes a call of either kind.  If calls of the two kinds on one mapping do
  not overlap, no such state is reached.

`Up` and `Down` say what a task may still do: take a mapping under a page, or a page under a mapping.
Nothing but the beginning of a call adds to them.
-/

namespace CosmOS.PageCache.Locks

open Function Data

variable {d : Data} {k : Pc} {p : PageId} {m : MappingId} {ok : Bool} {s s' : State} {t u : TaskId}
  {l : Label} {hp : Option PageId} {hm : Option MappingId}

/-! ## The locks at a position -/

/-- A guard is dropped where the rest of the call does not have it. -/
def Pc.Wf : Pc → Prop
  | .unlockPage _ k => k.heldPage = none ∧ k.Wf
  | .unlockMapping _ k => k.heldMapping = none ∧ k.Wf
  | .finishUnlock _ k | .flush _ _ k | .flushInode _ _ k | .flushWait _ _ k | .flushWrite _ _ k |
    .finish _ _ _ _ k | .finishInsert _ _ _ _ k => k.heldPage = none ∧ k.heldMapping = none ∧ k.Wf
  | _ => True

/-- A position with the locks that go with it. -/
structure Pc.Holds (k : Pc) (hp : Option PageId) (hm : Option MappingId) : Prop where
  page : k.heldPage = hp
  mapping : k.heldMapping = hm
  wf : k.Wf

theorem Pc.Holds.unlockPage (h : k.Holds none hm) (p : PageId) : (Pc.unlockPage p k).Holds (some p) hm :=
  ⟨rfl, h.mapping, h.page, h.wf⟩

theorem Pc.Holds.unlockMapping (h : k.Holds hp none) (m : MappingId) :
    (Pc.unlockMapping m k).Holds hp (some m) :=
  ⟨h.page, rfl, h.mapping, h.wf⟩

theorem holds_idle : Pc.idle.Holds none none := ⟨rfl, rfl, trivial⟩

def LockOp.pageAfter (hp : Option PageId) : LockOp → Option PageId
  | .takePage p => some p
  | .dropPage _ => none
  | _ => hp

def LockOp.mappingAfter (hm : Option MappingId) : LockOp → Option MappingId
  | .takeMapping m => some m
  | .dropMapping _ => none
  | _ => hm

/-! ## What a task may still do -/

/-- The task may still take the lock of `m` under the lock of a page. -/
def Pc.Up (owner : PageId → Option MappingId) (m : MappingId) : Pc → Prop
  | .mark m' _ | .markInsert m' _ | .sync m' | .collectInode m' _ | .collectLookup m' _ _ _ |
    .collectPage m' _ _ _ _ | .batchWrite m' _ _ => m' = m
  | .flush m' _ k | .flushInode m' _ k | .flushWait m' _ k | .flushWrite m' _ k |
    .finish m' _ _ _ k | .finishInsert m' _ _ _ k => m' = m ∨ k.Up owner m
  | .unlockPage _ k | .unlockMapping _ k | .finishUnlock _ k => k.Up owner m
  -- a dirty page is flushed
  | .reclaim p | .reclaimOwner p => owner p = some m
  | _ => False

/-- The task may still take the lock of a page under the lock of `m`. -/
def Pc.Down (m : MappingId) : Pc → Prop
  | .cached m' _ _ | .cachedPage m' _ _ | .window m' _ | .windowPage m' _ | .discard m' |
    .discardPage m' _ _ => m' = m
  | .flush _ _ k | .flushInode _ _ k | .flushWait _ _ k | .flushWrite _ _ k | .finish _ _ _ _ k |
    .finishInsert _ _ _ _ k | .unlockPage _ k | .unlockMapping _ k | .finishUnlock _ k => k.Down m
  | _ => False

variable {owner owner' : PageId → Option MappingId} {m' : MappingId} {k' : Pc}

/-- A place without locks from which a task takes at most the lock of `m` under the lock of a page. -/
structure Pc.Rests (owner : PageId → Option MappingId) (m : MappingId) (k : Pc) : Prop where
  holds : k.Holds none none
  up : ∀ m', k.Up owner m' → m = m'
  down : ∀ m', ¬ k.Down m'

theorem rests_idle : Pc.idle.Rests owner m := ⟨holds_idle, fun _ => False.elim, fun _ => id⟩

theorem rests_syncNext (m : MappingId) (rest : List ℕ) : (syncNext m rest).Rests owner m := by
  unfold syncNext
  split
  · exact rests_idle
  · exact ⟨⟨rfl, rfl, trivial⟩, fun _ => id, fun _ => id⟩

section

variable (m : MappingId) (rest : List ℕ) (batch : List (ℕ × PageId))

theorem rests_batchWrite : (Pc.batchWrite m rest batch).Rests owner m :=
  ⟨⟨rfl, rfl, trivial⟩, fun _ => id, fun _ => id⟩

theorem rests_closeBatch : (closeBatch m rest batch).Rests owner m := by
  unfold closeBatch
  split
  · exact rests_syncNext m _
  · exact rests_batchWrite m rest batch

theorem rests_collectNext : (collectNext m rest batch).Rests owner m := by
  unfold collectNext
  split
  · split
    · exact rests_closeBatch m rest batch
    · exact ⟨⟨rfl, rfl, trivial⟩, fun _ => id, fun _ => id⟩
  · exact rests_closeBatch m rest batch

end

theorem rests_finishAll (h : k.Rests owner m) (ok : Bool) (batch : List (ℕ × PageId)) :
    (finishAll m ok k batch).Rests owner m := by
  induction batch with
  | nil => exact h
  | cons c batch ih =>
    exact ⟨⟨rfl, rfl, ih.holds.page, ih.holds.mapping, ih.holds.wf⟩,
      fun m' hup => hup.elim id (ih.up m'), ih.down⟩

theorem rests_flush (h : k.Rests owner m) (p : PageId) : (Pc.flush m p k).Rests owner m :=
  ⟨⟨rfl, rfl, h.holds.page, h.holds.mapping, h.holds.wf⟩, fun m' hup => hup.elim id (h.up m'), h.down⟩

/-- The position `k'` comes after `k`: it has the locks that the operation of `k` leaves, and the task may do
there nothing that it could not do before. -/
structure Pc.Leads (owner : PageId → Option MappingId) (k k' : Pc) : Prop where
  holds : k.Wf → k'.Holds (k.op.pageAfter k.heldPage) (k.op.mappingAfter k.heldMapping)
  up : ∀ m, k'.Up owner m → k.Up owner m
  down : ∀ m, k'.Down m → k.Down m

theorem leads_of (holds : k.Wf → k'.Holds (k.op.pageAfter k.heldPage) (k.op.mappingAfter k.heldMapping))
    (up : ∀ m, k'.Up owner m → k.Up owner m := by exact fun _ => id)
    (down : ∀ m, k'.Down m → k.Down m := by exact fun _ => id) : k.Leads owner k' :=
  ⟨holds, up, down⟩

theorem Pc.Rests.unlockMapping (h : k'.Rests owner m) (hop : k.op = .takeMapping m') (hpage : k.heldPage = none)
    (hup : k.Up owner m) : k.Leads owner (.unlockMapping m' k') := by
  refine ⟨fun _ => ?_, fun m₁ hup' => h.up m₁ hup' ▸ hup, fun m₁ hdown => (h.down m₁ hdown).elim⟩
  rw [hop, hpage]
  exact h.holds.unlockMapping m'

theorem Pc.Rests.unlockPage (h : k'.Rests owner m) (hop : k.op = .takePage p) (hmapping : k.heldMapping = none)
    (hup : k.Up owner m) : k.Leads owner (.unlockPage p k') := by
  refine ⟨fun _ => ?_, fun m₁ hup' => h.up m₁ hup' ▸ hup, fun m₁ hdown => (h.down m₁ hdown).elim⟩
  rw [hop, hmapping]
  exact h.holds.unlockPage p

/-- A place in a loop over pages, under the lock of the mapping. -/
structure Pc.Walks (owner : PageId → Option MappingId) (m : MappingId) (k : Pc) : Prop where
  holds : k.Holds none (some m)
  up : ∀ m', ¬ k.Up owner m'
  down : ∀ m', k.Down m' → m = m'

theorem walks_cachedNext (m : MappingId) (rest : List PageId) : (cachedNext m rest).Walks owner m := by
  cases rest with
  | nil => exact ⟨holds_idle.unlockMapping m, fun _ => id, fun _ => False.elim⟩
  | cons p rest => exact ⟨⟨rfl, rfl, trivial⟩, fun _ => id, fun _ => id⟩

theorem walks_discardNext (m : MappingId) (rest : List PageId) : (discardNext m rest).Walks owner m := by
  cases rest with
  | nil => exact ⟨⟨rfl, rfl, trivial⟩, fun _ => id, fun _ => False.elim⟩
  | cons p rest => exact ⟨⟨rfl, rfl, trivial⟩, fun _ => id, fun _ => id⟩

section

variable (d : Data) (ok : Bool) {m : MappingId} {p : PageId} {i : ℕ} {rest : List ℕ}
  {batch : List (ℕ × PageId)}

theorem collectPage_leads :
    (Pc.collectPage m p i rest batch).Leads d.owner (d.advance ok (.collectPage m p i rest batch)).2 := by
  unfold advance
  dsimp only
  split
  · split
    · exact (rests_flush (rests_syncNext m _) p).unlockPage rfl rfl rfl
    · exact (rests_batchWrite m rest batch).unlockPage rfl rfl rfl
  · split
    · exact (rests_closeBatch m rest batch).unlockPage rfl rfl rfl
    · split
      · exact (rests_batchWrite m rest _).unlockPage rfl rfl rfl
      · exact (rests_collectNext m rest _).unlockPage rfl rfl rfl

theorem batchWrite_leads :
    (Pc.batchWrite m rest batch).Leads d.owner (d.advance ok (.batchWrite m rest batch)).2 := by
  have hrests : (finishAll m ok (if ok then syncNext m (rest.drop (max batch.length 1)) else .idle)
      batch).Rests d.owner m := by
    apply rests_finishAll
    split
    · exact rests_syncNext m _
    · exact rests_idle
  exact ⟨fun _ => hrests.holds, hrests.up, fun m' hdown => (hrests.down m' hdown).elim⟩

theorem flush_leads {k : Pc} : (Pc.flush m p k).Leads d.owner (d.advance ok (.flush m p k)).2 := by
  unfold advance
  dsimp only
  split
  · exact leads_of fun hwf => ⟨rfl, rfl, rfl, hwf⟩
  · split
    · exact leads_of (fun hwf => ⟨rfl, hwf.2.1, hwf.1, hwf.2.2⟩) fun _ => .inr
    · exact leads_of fun hwf => ⟨rfl, rfl, hwf⟩

theorem reclaim_leads : (Pc.reclaim p).Leads d.owner (d.advance ok (.reclaim p)).2 := by
  have hidle : (Pc.reclaim p).Leads d.owner (.unlockPage p .idle) :=
    ⟨fun _ => holds_idle.unlockPage p, fun _ => False.elim, fun _ => id⟩
  unfold advance
  dsimp only
  split
  · exact hidle
  split
  · exact hidle
  · split
    · exact leads_of fun _ => ⟨rfl, rfl, rfl, trivial⟩
    · exact leads_of (fun _ => ⟨rfl, rfl, rfl, trivial⟩) fun _ => False.elim

end

/-- The code between two lock operations takes and drops no lock, and adds nothing to what the task may still
do. -/
theorem advance_leads (d : Data) (ok : Bool) (k : Pc) : k.Leads d.owner (d.advance ok k).2 := by
  cases k with
  | idle => exact leads_of fun _ => holds_idle
  | unlockPage p k => exact leads_of fun hwf => ⟨hwf.1, rfl, hwf.2⟩
  | unlockMapping m k => exact leads_of fun hwf => ⟨rfl, hwf.1, hwf.2⟩
  | finishUnlock p k => exact leads_of fun hwf => ⟨hwf.1, hwf.2.1, hwf.2.2⟩
  | mark m p =>
    unfold advance
    dsimp only
    split
    · exact rests_idle.unlockPage rfl rfl rfl
    · exact leads_of fun _ => ⟨rfl, rfl, trivial⟩
  | markInsert m p =>
    exact ⟨fun _ => (holds_idle.unlockPage p).unlockMapping m, fun _ => False.elim, fun _ => id⟩
  | sync m => exact (rests_syncNext m _).unlockMapping rfl rfl rfl
  | collectInode m rest => exact (rests_collectNext m rest []).unlockMapping rfl rfl rfl
  | collectLookup m i rest batch =>
    unfold advance
    dsimp only
    split
    · exact leads_of fun _ => ⟨rfl, rfl, rfl, trivial⟩
    · exact (rests_closeBatch m rest batch).unlockMapping rfl rfl rfl
  | collectPage m p i rest batch => exact collectPage_leads d ok
  | batchWrite m rest batch => exact batchWrite_leads d ok
  | flush m p k => exact flush_leads d ok
  | flushInode m p k => exact leads_of fun hwf => ⟨rfl, rfl, rfl, rfl, hwf⟩
  | flushWait m p k => exact leads_of fun hwf => ⟨rfl, rfl, rfl, hwf⟩
  | flushWrite m p k =>
    unfold advance
    dsimp only
    split
    · exact leads_of fun hwf => ⟨rfl, rfl, hwf⟩
    · exact ⟨fun _ => ⟨rfl, rfl, rfl, rfl, trivial⟩, fun _ hup => .inl (hup.elim id False.elim),
        fun _ => False.elim⟩
  | finish m i p writeOk k =>
    unfold advance
    dsimp only
    split
    · exact leads_of fun hwf => ⟨rfl, rfl, hwf⟩
    · exact leads_of (fun hwf => ⟨rfl, rfl, hwf⟩) fun _ => .inr
  | finishInsert m i p stays k =>
    exact leads_of (fun hwf => ⟨rfl, rfl, rfl, hwf⟩) fun _ => .inr
  | truncInode m newSize | truncReadahead m newSize oldSize | reclaimIndex m p =>
    exact leads_of fun _ => ⟨rfl, rfl, rfl, trivial⟩
  | truncSize m newSize | truncTail m i newSize oldSize | reclaimUpgrade p | reclaimRemove m p i =>
    unfold advance
    dsimp only
    split <;> exact leads_of fun _ => ⟨rfl, rfl, rfl, trivial⟩
  | truncBacking m newSize oldSize =>
    unfold advance
    dsimp only
    split <;> exact leads_of fun _ => ⟨rfl, rfl, trivial⟩
  | truncPages m newSize oldSize =>
    unfold advance truncNext
    dsimp only
    split <;> split <;> exact leads_of fun _ => ⟨rfl, rfl, rfl, trivial⟩
  | truncPage p i newSize oldSize | reclaimRestore p =>
    exact leads_of fun _ => holds_idle.unlockPage p
  | reclaim p => exact reclaim_leads d ok
  | reclaimOwner p =>
    unfold advance
    dsimp only
    split
    · exact (rests_flush rests_idle p).unlockPage rfl rfl ‹_›
    · exact ⟨fun _ => holds_idle.unlockPage p, fun _ => False.elim, fun _ => id⟩
  | cached m first count =>
    have hwalks : (cachedNext m (d.range m first count)).Walks d.owner m := walks_cachedNext m _
    exact ⟨fun _ => hwalks.holds, fun m' hup => (hwalks.up m' hup).elim, hwalks.down⟩
  | cachedPage m p rest =>
    have hwalks : (cachedNext m rest).Walks d.owner m := walks_cachedNext m rest
    exact ⟨fun _ => hwalks.holds.unlockPage p, fun m' hup => (hwalks.up m' hup).elim, hwalks.down⟩
  | window m i =>
    unfold advance
    dsimp only
    split
    · exact leads_of fun _ => ⟨rfl, rfl, trivial⟩
    · exact ⟨fun _ => holds_idle.unlockMapping m, fun _ => id, fun _ => False.elim⟩
  | windowPage m p =>
    exact ⟨fun _ => (holds_idle.unlockMapping m).unlockPage p, fun _ => id, fun _ => False.elim⟩
  | discard m =>
    have hwalks : (discardNext m (d.mapping m).pages.values).Walks d.owner m := walks_discardNext m _
    exact ⟨fun _ => hwalks.holds, fun m' hup => (hwalks.up m' hup).elim, hwalks.down⟩
  | discardPage m p rest =>
    have hwalks : (discardNext m rest).Walks d.owner m := walks_discardNext m rest
    exact ⟨fun _ => hwalks.holds.unlockPage p, fun m' hup => (hwalks.up m' hup).elim, hwalks.down⟩
  | discardClear m => exact ⟨fun _ => holds_idle, fun _ => id, fun _ => False.elim⟩

theorem up_of_waits (hop : k.op = .takeMapping m) (hp : k.heldPage = some p) : k.Up owner m := by
  cases k with
  | markInsert m' p' =>
    cases hop
    exact rfl
  | flushInode m' p' k | finishInsert m' i p' stays k =>
    cases hop
    exact .inl rfl
  | _ => first | (cases hop; done) | cases hp

theorem down_of_waits (hop : k.op = .takePage p) (hm : k.heldMapping = some m) : k.Down m := by
  cases k with
  | cachedPage m' p' rest | windowPage m' p' | discardPage m' p' rest => exact Option.some.inj hm
  | _ => first | (cases hop; done) | cases hm

/-! ## The lock tables -/

theorem heldPage_of_takePage (h : k.op = .takePage p) : k.heldPage = none := by
  cases k <;> first | rfl | cases h

theorem heldPage_of_dropPage (h : k.op = .dropPage p) : k.heldPage = some p := by
  cases k <;> cases h <;> rfl

theorem heldMapping_of_takeMapping (h : k.op = .takeMapping m) : k.heldMapping = none := by
  cases k <;> first | rfl | cases h

theorem heldMapping_of_dropMapping (h : k.op = .dropMapping m) : k.heldMapping = some m := by
  cases k <;> cases h <;> rfl

/-- The lock tables are what the positions of the tasks say. -/
structure LockInv (s : State) : Prop where
  wf : ∀ t, (s.pc t).Wf
  page : Mutex.Agrees s.pageLock fun t => (s.pc t).heldPage
  mapping : Mutex.Agrees s.mappingLock fun t => (s.pc t).heldMapping

theorem update_pc {α : Type} (f : Pc → α) (pc : TaskId → Pc) (t : TaskId) (k : Pc) :
    (fun u => f (update pc t k u)) = update (fun u => f (pc u)) t (f k) := by
  funext u
  exact apply_update (fun _ => f) pc t k u

theorem forall_update {P : TaskId → Pc → Prop} {pc : TaskId → Pc} (hk : P t k)
    (h : ∀ u, u ≠ t → P u (pc u)) (u : TaskId) : P u (update pc t k u) :=
  (forall_update_iff pc P).mpr ⟨hk, h⟩ u

/-- What a lock operation leaves to the lock tables. -/
theorem LockInv.step (h : LockInv s) (hn : s.step t ok = some s') :
    LockInv s' ∧ s'.data = (s.data.advance ok (s.pc t)).1 ∧
      s'.pc = update s.pc t (s.data.advance ok (s.pc t)).2 := by
  have hafter := (advance_leads s.data ok (s.pc t)).holds (h.wf t)
  have hwf : ∀ u, (update s.pc t (s.data.advance ok (s.pc t)).2 u).Wf :=
    forall_update hafter.wf fun u _ => h.wf u
  have hpage := hafter.page
  have hmapping := hafter.mapping
  -- a lock of the kind that the operation is not about stays with its task
  have hsamePage : (s.data.advance ok (s.pc t)).2.heldPage = (s.pc t).heldPage →
      Mutex.Agrees s.pageLock fun u =>
        (update s.pc t (s.data.advance ok (s.pc t)).2 u).heldPage := by
    intro hsame
    rw [update_pc, hsame, update_eq_self]
    exact h.page
  have hsameMapping : (s.data.advance ok (s.pc t)).2.heldMapping = (s.pc t).heldMapping →
      Mutex.Agrees s.mappingLock fun u =>
        (update s.pc t (s.data.advance ok (s.pc t)).2 u).heldMapping := by
    intro hsame
    rw [update_pc, hsame, update_eq_self]
    exact h.mapping
  unfold State.step at hn
  cases hop : (s.pc t).op with
  | takePage p =>
    rw [hop] at hn hpage hmapping
    rcases Option.ite_none_right_eq_some.mp hn with ⟨hfree, ⟨⟩⟩
    refine ⟨⟨hwf, ?_, hsameMapping hmapping⟩, rfl, rfl⟩
    have htake := h.page.take hfree (heldPage_of_takePage hop)
    dsimp only [State.goto]
    rwa [update_pc, hpage]
  | takeMapping m =>
    rw [hop] at hn hpage hmapping
    rcases Option.ite_none_right_eq_some.mp hn with ⟨hfree, ⟨⟩⟩
    refine ⟨⟨hwf, hsamePage hpage, ?_⟩, rfl, rfl⟩
    have htake := h.mapping.take hfree (heldMapping_of_takeMapping hop)
    dsimp only [State.goto]
    rwa [update_pc, hmapping]
  | dropPage p =>
    rw [hop] at hn hpage hmapping
    cases hn
    refine ⟨⟨hwf, ?_, hsameMapping hmapping⟩, rfl, rfl⟩
    have hdrop := h.page.drop (heldPage_of_dropPage hop)
    dsimp only [State.goto]
    rwa [update_pc, hpage]
  | dropMapping m =>
    rw [hop] at hn hpage hmapping
    cases hn
    refine ⟨⟨hwf, hsamePage hpage, ?_⟩, rfl, rfl⟩
    have hdrop := h.mapping.drop (heldMapping_of_dropMapping hop)
    dsimp only [State.goto]
    rwa [update_pc, hmapping]
  | backing =>
    rw [hop] at hn hpage hmapping
    cases hn
    exact ⟨⟨hwf, hsamePage hpage, hsameMapping hmapping⟩, rfl, rfl⟩
  | nothing =>
    rw [hop] at hn
    cases hn

/-- No page gets a mapping. -/
theorem owner_of_advance (h : (d.advance ok k).1.owner p = some m) : d.owner p = some m := by
  have hsame : (∃ q, (d.advance ok k).1.owner = update d.owner q none) ∨
      (d.advance ok k).1.owner = d.owner := by
    cases k with
    | discardPage m' q rest => exact .inl ⟨q, rfl⟩
    | collectPage _ _ _ _ _ | reclaim _ | flush _ _ _ | finish _ _ _ _ _ | reclaimRemove _ _ _ =>
      right
      unfold advance
      dsimp only
      repeat' split
      all_goals rfl
    | _ => exact .inr rfl
  rcases hsame with ⟨q, hq⟩ | hsame
  · rw [hq] at h
    by_cases hpq : p = q
    · rw [hpq, update_self] at h
      cases h
    · rwa [update_of_ne hpq] at h
  · rwa [hsame] at h

theorem Pc.Up.mono (hle : ∀ p m, owner' p = some m → owner p = some m) (h : k.Up owner' m) :
    k.Up owner m := by
  induction k with
  | flush m' p k ih | flushInode m' p k ih | flushWait m' p k ih | flushWrite m' p k ih
  | finish m' i p ok k ih | finishInsert m' i p stays k ih => exact h.imp id ih
  | unlockPage p k ih | unlockMapping m' k ih | finishUnlock p k ih => exact ih h
  | reclaim p | reclaimOwner p => exact hle p m h
  | _ => exact h

/-! ## Calls that do not overlap -/

/-- Of two calls on one mapping that overlap, not one takes it under a page and the other a page under it. -/
def Separate (s : State) : Label → Prop
  | .call _ c => ∀ m,
    (c.start.Up s.data.owner m → ∀ u, ¬ (s.pc u).Down m) ∧
      (c.start.Down m → ∀ u, ¬ (s.pc u).Up s.data.owner m)
  | .run _ _ => True

structure OrderInv (s : State) : Prop where
  locks : LockInv s
  apart : ∀ t u m, (s.pc t).Up s.data.owner m → ¬ (s.pc u).Down m

theorem OrderInv.boot (d : Data) : OrderInv (boot d) where
  locks := by
    constructor
    · intro t
      exact trivial
    · exact Mutex.Agrees.none (fun _ => rfl) fun _ => rfl
    · exact Mutex.Agrees.none (fun _ => rfl) fun _ => rfl
  apart := by
    intro t u m hup
    exact hup.elim

theorem holds_start (c : Call) : c.start.Holds none none := by
  cases c <;> exact ⟨rfl, rfl, trivial⟩

theorem start_apart (c : Call) (hup : c.start.Up owner m) : ¬ c.start.Down m := by
  cases c with
  | markPageDirty | syncMapping | truncateMapping | reclaimOne => exact id
  | cachedUptodatePages | tryGetPageWithFaultWindow | discardInode => exact hup.elim

theorem OrderInv.call {c : Call} (h : OrderInv s) (hidle : s.pc t = .idle)
    (hsep : Separate s (.call t c)) : OrderInv (s.goto t c.start) := by
  have hstart := holds_start c
  constructor
  · constructor
    · exact forall_update hstart.wf fun u _ => h.locks.wf u
    · have hsame : c.start.heldPage = (s.pc t).heldPage := by rw [hstart.page, hidle]; rfl
      dsimp only [State.goto]
      rw [update_pc, hsame, update_eq_self]
      exact h.locks.page
    · have hsame : c.start.heldMapping = (s.pc t).heldMapping := by rw [hstart.mapping, hidle]; rfl
      dsimp only [State.goto]
      rw [update_pc, hsame, update_eq_self]
      exact h.locks.mapping
  · intro v u m
    refine forall_update (P := fun _ k => k.Up s.data.owner m →
      ¬ (update s.pc t c.start u).Down m) ?_ ?_ v
    · intro hup
      exact forall_update (P := fun _ k => ¬ k.Down m) (start_apart c hup) (fun u _ => (hsep m).1 hup u) u
    · intro v _ hup
      refine forall_update (P := fun _ k => ¬ k.Down m) ?_ (fun u _ => h.apart v u m hup) u
      intro hdown
      exact (hsep m).2 hdown v hup

theorem OrderInv.step (h : OrderInv s) (hn : s.step t ok = some s') : OrderInv s' := by
  obtain ⟨hlocks, hdata, hpc⟩ := h.locks.step hn
  refine ⟨hlocks, ?_⟩
  -- whatever a task may still do, it could already do before the step
  have hup : ∀ v m, (s'.pc v).Up s'.data.owner m → (s.pc v).Up s.data.owner m := by
    intro v m hv
    have hv : (s'.pc v).Up s.data.owner m := hv.mono fun p m hp => owner_of_advance (hdata ▸ hp)
    rw [hpc] at hv
    exact forall_update (P := fun v k => k.Up s.data.owner m → (s.pc v).Up s.data.owner m)
      ((advance_leads s.data ok (s.pc t)).up m) (fun _ _ => id) v hv
  have hdown : ∀ v m, (s'.pc v).Down m → (s.pc v).Down m := by
    intro v m hv
    rw [hpc] at hv
    exact forall_update (P := fun v k => k.Down m → (s.pc v).Down m)
      ((advance_leads s.data ok (s.pc t)).down m) (fun _ _ => id) v hv
  intro v u m hv hu
  exact h.apart v u m (hup v m hv) (hdown u m hu)

theorem OrderInv.next (h : OrderInv s) (hsep : Separate s l) (hn : next s l = some s') : OrderInv s' := by
  cases l with
  | call t c =>
    unfold Locks.next at hn
    dsimp only at hn
    split at hn
    next hidle =>
      cases hn
      exact h.call hidle hsep
    · cases hn
  | run t ok => exact h.step hn

theorem OrderInv.of_reach (h : machine.Reach Separate s) : OrderInv s := by
  apply h.invariant
  · rintro s ⟨d, rfl⟩
    exact OrderInv.boot d
  · intro s l s' hinv hsep hn
    exact hinv.next hsep hn

/-- No two tasks wait for each other over a page and a mapping, as long as calls that take the mapping first
and calls that take the page first do not overlap. -/
theorem no_page_mapping_deadlock (h : machine.Reach Separate s) (t u : TaskId) (p : PageId) (m : MappingId) :
    ¬ Deadlock s t u p m := by
  have hinv := OrderInv.of_reach h
  rintro ⟨hpage, htakeMapping, hmapping, htakePage⟩
  have hup : (s.pc t).Up s.data.owner m := up_of_waits htakeMapping ((hinv.locks.page p t).mp hpage)
  have hdown : (s.pc u).Down m := down_of_waits htakePage ((hinv.locks.mapping m u).mp hmapping)
  exact hinv.apart t u m hup hdown

def onePage : Data where
  page := fun p => { CachePage.new p p with validBytes := pageSize, uptodate := true, refBit := true }
  owner := fun _ => some 0
  mapping := fun _ => ⟨pageSize, BTreeMap.empty.insert 0 0, []⟩

theorem separate_of_upward {c : Call} (hc : ∀ m, ¬ c.start.Down m) (h : ∀ u m, ¬ (s.pc u).Down m) :
    Separate s (.call t c) := by
  intro m
  constructor
  · intro _ u
    exact h u m
  · intro hdown
    exact (hc m hdown).elim

/-- A task has the page and waits for the mapping, which a flusher has: the flusher does not want the page. -/
theorem no_page_mapping_deadlock_flusher : ∃ s, machine.Reach Separate s ∧ s.pageLock 0 = some 0 ∧
    (s.pc 0).op = .takeMapping 0 ∧ s.mappingLock 0 = some 1 ∧ ¬ Deadlock s 0 1 0 0 := by
  let s₁ := (boot onePage).goto 0 (.mark 0 0)
  have hr : machine.Reach Separate (s₁.goto 1 (.sync 0)) := by
    have h₀ : machine.Reach Separate (boot onePage) := .init ⟨onePage, rfl⟩
    have h₁ : machine.Reach Separate s₁ := by
      refine h₀.next (l := .call 0 (.markPageDirty 0 0)) ?_ rfl
      exact separate_of_upward (fun _ => id) fun _ _ => id
    refine h₁.next (l := .call 1 (.syncMapping 0)) ?_ rfl
    refine separate_of_upward (fun _ => id) fun u m => ?_
    exact forall_update (P := fun _ k => ¬ k.Down m) id (fun _ _ => id) u
  have hr := hr.next (l := Label.run 0 true) trivial rfl
  have hr := hr.next (l := Label.run 1 true) trivial rfl
  exact ⟨_, hr, by decide, by decide, by decide,
    no_page_mapping_deadlock hr 0 1 0 0⟩

/-- One task marks the page dirty and another looks at the cached pages: they wait for each other. -/
theorem page_and_mapping_deadlock :
    ∃ s, machine.Reachable s ∧ s.data.owner 0 = some 0 ∧ Deadlock s 0 1 0 0 := by
  exact machine.exists_reachable_of_run _
    [.call 0 (.markPageDirty 0 0), .call 1 (.cachedUptodatePages 0 0 1), .run 0 true, .run 1 true]
    ⟨onePage, rfl⟩ (by decide)

end CosmOS.PageCache.Locks
