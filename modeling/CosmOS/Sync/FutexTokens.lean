import CosmOS.Sync.Futex

/-!
# Sync.FutexTokens — every wake that is counted ends a wait with success

A wake operation counts a waiter in the section in which it finds it asleep on the queue; the wait
decides on its result much later, from its slot and the pending signals.  The two agree as long as
no timer and no signal comes between them, and no operation is late: `Undisturbed`.  Then every
thread is claimed at most once, by a queue, by an operation that has taken it off, or by the
success it is owed, and the counts that were returned are the successes (`Inv`).
-/

namespace CosmOS.Futex

open Function List Option

/-! ## Claims on a thread -/

/-- An operation has taken the waiter off its queue and has not looked at it yet. -/
def Op.holds (t : Tid) : Op → ℕ
  | .check _ _ _ u => if u = t then 1 else 0
  | _ => 0

open Op

/-- What an operation has counted and not returned. -/
def Op.credit : Op → ℕ
  | .pop _ _ count | .check _ _ count _ => count
  | .onWake _ _ count _ | .wakeup _ _ count _ => count + 1
  | .onWakeList _ moved | .wakeupList _ _ moved => moved
  | _ => 0

/-- The threads a wake operation still has to look at, to mark or to wake. -/
def Op.tasks : Op → List Tid
  | .check _ _ _ t | .onWake _ _ _ t | .wakeup _ _ _ t => [t]
  | .onWakeList todo _ => todo
  | .wakeupList t todo _ => t :: todo
  | _ => []

def WaitPc.starting : WaitPc → Bool
  | .read | .deadline | .queue | .register _ | .arm _ _ | .sleep _ _ .prepare => true
  | _ => false

def WaitPc.sleeping : WaitPc → Bool
  | .sleep _ _ .prepare | .sleep _ _ .finishQueue | .sleep _ _ .finishTask => false
  | .sleep _ _ _ => true
  | _ => false

def WaitPc.handle : WaitPc → Option FutexWaitHandle
  | .arm _ h | .state h | .cleanup h _ => some h
  | .sleep _ h _ => h
  | _ => none

/-- What a wait that stands there finds in its slot, or has found there. -/
def WaitPc.finds (r : FutexWaitRegistry) : WaitPc → Option FutexWaitState
  | .cleanup _ wakeState => wakeState
  | pc => pc.handle.bind r.waitState

namespace State

open State

variable (s : State) (t : Tid)

def claims : ℕ :=
  s.waiters.countP (·.2 = t) + (s.ops.map (Op.holds t)).sum + s.owed.count t

def finds : Option FutexWaitState := (s.threads t).pc.finds s.registry

/-- As things are, the wait of the thread succeeds. -/
def Safe : Prop :=
  s.finds t = some .ready ∨ s.finds t ≠ some .timedOut ∧ (s.threads t).pending = false

instance : Decidable (s.Safe t) := inferInstanceAs (Decidable (_ ∨ _ ∧ _))

end State

/-- No wake counts a waiter that has timed out or has a signal pending, no timer and no signal
reaches a waiter that was counted, and a thread waits again only when no queue and no wake operation
has it from an earlier wait. -/
def Undisturbed (s : State) : Label → Prop
  | .wait t _ _ _ => (∀ e ∈ s.waiters, e.2 ≠ t) ∧ ∀ c ∈ s.ops, t ∉ c.tasks
  | .op (.check q _ _ t) => s.waitsOn q t = true → s.Safe t
  | .op (.collect src dst wakeCount requeueCount) =>
    ∀ t ∈ (s.collectWakeAndRequeue src dst wakeCount requeueCount).1, s.Safe t
  | .signal t => t ∈ s.owed → s.finds t = some .ready
  | .expire x => s.registry.timesOut x.tag x.task = true → x.task ∉ s.owed
  | _ => True

instance (s : State) (l : Label) : Decidable (Undisturbed s l) := by
  unfold Undisturbed
  split <;> infer_instance

open WaitSlots (Slot Slots Grant)

/-- The slot of the handle is in use by the thread. -/
def FutexWaitRegistry.Holds (r : FutexWaitRegistry) (h : FutexWaitHandle) (t : Tid) : Prop :=
  Grant.Holds .futex ⟨h, h.slotIdx, t⟩ (r.slots h.slotIdx)

open FutexWaitRegistry

structure Inv (s : State) : Prop where
  claims : ∀ t, s.claims t ≤ 1
  starting : ∀ t, (s.threads t).pc.starting = true → s.claims t = 0
  inWait : ∀ t ∈ s.owed, (s.threads t).pc ≠ .idle
  safe : ∀ t ∈ s.owed, s.Safe t
  asleep : ∀ t, (s.threads t).asleep = true → (s.threads t).pc.sleeping = true
  holds : ∀ t h, (s.threads t).pc.handle = some h → s.registry.Holds h t
  balance : s.returned + (s.ops.map Op.credit).sum = s.succeeded + s.owed.length + s.requeued
  failed : s.failed = 0

section Steps

variable {s s' : State} {t u : Tid} {c : Op} {cs : List Op} {h : FutexWaitHandle}

/-! ## The parts of a step -/

/-- A sum over the operations when one of them moves on. -/
theorem sum_replace (cs : List Op) (f : Op → ℕ) (hc : c ∈ s.ops) :
    ((s.replace c cs).ops.map f).sum + f c = (s.ops.map f).sum + (cs.map f).sum := by
  have herase : f c + ((s.ops.erase c).map f).sum = (s.ops.map f).sum := sum_map_erase f hc
  simp only [State.replace, map_append, sum_append]
  omega

/-- Waiters, operations and what is owed change hands; no thread is claimed anew. -/
theorem Inv.moves {w : List (QueueId × Tid)} {ops : List Op} {owed : List Tid}
    {returned requeued succeeded : ℕ} (hi : Inv s)
    (hclaims : ∀ t, w.countP (·.2 = t) + (ops.map (Op.holds t)).sum + owed.count t ≤ s.claims t)
    (howed : ∀ t ∈ owed, t ∈ s.owed ∨ (s.threads t).pc ≠ .idle ∧ s.Safe t)
    (hbalance : returned + (ops.map credit).sum + (s.succeeded + s.owed.length + s.requeued) =
      s.returned + (s.ops.map credit).sum + (succeeded + owed.length + requeued)) : Inv { s with
      waiters := w, ops := ops, owed := owed, returned := returned, requeued := requeued
      succeeded := succeeded } where
  claims t := Nat.le_trans (hclaims t) (hi.claims t)
  starting t ht := Nat.le_zero.mp (hi.starting t ht ▸ hclaims t)
  inWait t ht := (howed t ht).elim (hi.inWait t) And.left
  safe t ht := (howed t ht).elim (hi.safe t) And.right
  __ := hi
  balance := by
    have hold := hi.balance
    dsimp only
    omega

theorem Inv.replace (hi : Inv s) (hc : c ∈ s.ops)
    (hholds : ∀ t, (cs.map (Op.holds t)).sum ≤ c.holds t)
    (hcredit : (cs.map Op.credit).sum = c.credit) : Inv (s.replace c cs) := by
  refine hi.moves (fun t => ?_) (fun t ht => .inl ht) ?_
  · have hsum := sum_replace cs (Op.holds t) hc
    have hle := hholds t
    simp only [State.replace] at hsum
    simp only [State.claims]
    omega
  · have hsum := sum_replace cs Op.credit hc
    simp only [State.replace] at hsum
    omega

theorem Inv.finish {count : ℕ} (hi : Inv s) (hc : c ∈ s.ops) (hcredit : c.credit = count) :
    Inv (s.finish c count) := by
  refine hi.moves (fun t => ?_) (fun t ht => .inl ht) ?_
  · have hsum := sum_replace [] (Op.holds t) hc
    simp only [map_nil, sum_nil] at hsum
    simp only [State.claims, State.replace] at hsum ⊢
    omega
  · have hsum := sum_replace [] Op.credit hc
    simp only [map_nil, sum_nil, State.replace] at hsum ⊢
    omega

theorem Inv.removeWaiter (hi : Inv s) (q : QueueId) (t : Tid) : Inv (s.removeWaiter q t) := by
  refine hi.moves (fun u => ?_) (fun u hu => .inl hu) rfl
  have hle : (s.waiters.filter (· ≠ (q, t))).countP (·.2 = u) ≤ s.waiters.countP (·.2 = u) :=
    filter_sublist.countP_le
  simp only [State.claims]
  omega

def Kept (x y : Slot) : Prop :=
  y = x ∨ x.state = .active ∧ y = { x with state := .ready }

variable {r r' : FutexWaitRegistry} {pc : WaitPc}

theorem Kept.keyValid (hk : Kept (r.slots h.slotIdx) (r'.slots h.slotIdx)) :
    r'.keyValid h = r.keyValid h := by
  unfold FutexWaitRegistry.keyValid Slots.keyValid
  rcases hk with heq | ⟨hactive, heq⟩
  · rw [heq]
  · rw [heq, hactive]
    rfl

theorem Kept.waitState (hk : Kept (r.slots h.slotIdx) (r'.slots h.slotIdx)) :
    r'.waitState h = r.waitState h ∨ r'.waitState h = some .ready := by
  unfold FutexWaitRegistry.waitState
  rw [hk.keyValid]
  rcases hk with heq | ⟨hactive, heq⟩
  · exact .inl (by rw [heq])
  · rw [heq]
    cases r.keyValid h
    · exact .inl rfl
    · exact .inr rfl

theorem finds_of_kept
    (hk : ∀ h, pc.handle = some h → Kept (r.slots h.slotIdx) (r'.slots h.slotIdx)) :
    pc.finds r' = pc.finds r ∨ pc.finds r' = some .ready := by
  cases pc with
  | arm q h | state h => exact (hk h rfl).waitState
  | sleep q h k =>
    cases h with
    | none => exact .inl rfl
    | some h => exact (hk h rfl).waitState
  | _ => exact .inl rfl

/-- The registry changes.  The slots of the waits that are owed a success may be marked ready. -/
theorem Inv.registry (hi : Inv s) (hholds : ∀ t h, (s.threads t).pc.handle = some h → r.Holds h t)
    (hkept : ∀ t ∈ s.owed, ∀ h, (s.threads t).pc.handle = some h →
      Kept (s.registry.slots h.slotIdx) (r.slots h.slotIdx)) :
    Inv { s with registry := r } where
  __ := hi
  safe t ht := by
    have hsafe := hi.safe t ht
    have hfinds : State.finds { s with registry := r } t = s.finds t ∨
        State.finds { s with registry := r } t = some .ready := finds_of_kept (hkept t ht)
    rcases hfinds with heq | heq
    · unfold State.Safe
      rwa [heq]
    · exact .inl heq
  holds := hholds

theorem Inv.registry_kept (hi : Inv s)
    (hr : ∀ t h, (s.threads t).pc.handle = some h → Kept (s.registry.slots h.slotIdx) (r.slots h.slotIdx)) :
    Inv { s with registry := r } := by
  refine hi.registry (fun t h hh => ?_) fun t _ => hr t
  have hold := hi.holds t h hh
  unfold FutexWaitRegistry.Holds
  rcases hr t h hh with heq | ⟨-, heq⟩ <;> rw [heq]
  · exact hold
  · exact ⟨hold.lt, hold.handle, nofun, hold.task⟩

theorem Inv.markReady (hi : Inv s) (t : Tid) : Inv (s.markReady t) := by
  refine hi.registry_kept fun u h _ => ?_
  show Kept _ (ite _ _ _)
  split
  next hslot =>
    exact .inr ⟨beq_iff_eq.mp (Bool.and_eq_true_iff.mp hslot).2, rfl⟩
  · exact .inl rfl

variable {x : Thread}

theorem Inv.setThread (hi : Inv s) (hstarting : x.pc.starting = true → s.claims t = 0)
    (hinWait : t ∈ s.owed → x.pc ≠ .idle) (hsafe : t ∈ s.owed → (s.setThread t x).Safe t)
    (hasleep : x.asleep = true → x.pc.sleeping = true)
    (hholds : ∀ h, x.pc.handle = some h → s.registry.Holds h t) : Inv (s.setThread t x) where
  __ := hi
  starting u hu := by
    rcases eq_or_ne u t with rfl | hut
    · exact hstarting (by simpa [State.setThread] using hu)
    · exact hi.starting u (by simpa [State.setThread, update_of_ne hut] using hu)
  inWait u hu := by
    rcases eq_or_ne u t with rfl | hut
    · simpa [State.setThread] using hinWait hu
    · simpa [State.setThread, update_of_ne hut] using hi.inWait u hu
  safe u hu := by
    rcases eq_or_ne u t with rfl | hut
    · exact hsafe hu
    · simpa [State.Safe, State.finds, State.setThread, update_of_ne hut] using hi.safe u hu
  asleep u hu := by
    rcases eq_or_ne u t with rfl | hut
    · simpa [State.setThread] using hasleep (by simpa [State.setThread] using hu)
    · simpa [State.setThread, update_of_ne hut] using
        hi.asleep u (by simpa [State.setThread, update_of_ne hut] using hu)
  holds u h hh := by
    rcases eq_or_ne u t with rfl | hut
    · exact hholds h (by simpa [State.setThread] using hh)
    · exact hi.holds u h (by simpa [State.setThread, update_of_ne hut] using hh)

theorem setThread_threads : (s.setThread t x).threads t = x := update_self ..

theorem Inv.thread (hi : Inv s) (hpc : x.pc = (s.threads t).pc)
    (hpending : x.pending = (s.threads t).pending)
    (hasleep : x.asleep = true → (s.threads t).asleep = true) : Inv (s.setThread t x) := by
  refine hi.setThread (fun hs => hi.starting t (hpc ▸ hs)) (fun ht => hpc ▸ hi.inWait t ht) (fun ht => ?_)
    (fun hx => hpc ▸ hi.asleep t (hasleep hx)) (fun h hh => hi.holds t h (hpc ▸ hh))
  have hsafe := hi.safe t ht
  unfold State.Safe State.finds at hsafe ⊢
  rwa [setThread_threads, hpc, hpending]

theorem Inv.wakeupTask (hi : Inv s) (t : Tid) : Inv (s.wakeupTask t) := by
  unfold State.wakeupTask
  split
  · exact hi.thread rfl rfl nofun
  · exact hi

theorem wakeupTask_ops : (s.wakeupTask t).ops = s.ops := by
  unfold State.wakeupTask
  split <;> rfl

theorem Inv.goto {k : WaitPc} (hi : Inv s)
    (hstarting : k.starting = true → (s.threads t).pc.starting = true) (hidle : k ≠ .idle)
    (hsafe : t ∈ s.owed → k.finds s.registry = s.finds t)
    (hasleep : (s.threads t).asleep = true → k.sleeping = true)
    (hholds : ∀ h, k.handle = some h → s.registry.Holds h t) : Inv (s.goto t k) := by
  refine hi.setThread (fun hs => hi.starting t (hstarting hs)) (fun _ => hidle) (fun ht => ?_) hasleep
    hholds
  have hold := hi.safe t ht
  unfold State.Safe
  unfold State.finds
  rw [setThread_threads]
  show k.finds s.registry = _ ∨ k.finds s.registry ≠ _ ∧ _
  rwa [hsafe ht]

theorem Inv.not_owed (hi : Inv s) (h : (s.threads t).pc.starting = true) : t ∉ s.owed := by
  have hclaims := hi.starting t h
  unfold State.claims at hclaims
  exact count_eq_zero.mp (by omega)

theorem Inv.awake (hi : Inv s) (h : (s.threads t).pc.sleeping = false) :
    (s.threads t).asleep = false := by
  by_contra hasleep
  rw [hi.asleep t (Bool.not_eq_false _ ▸ hasleep)] at h
  contradiction

theorem Inv.ret {r : Ret} (hi : Inv s) (hsleeping : (s.threads t).pc.sleeping = false)
    (hok : t ∈ s.owed → r = .ok) : Inv (s.ret t r) := by
  have hidle : ∀ {s : State}, Inv s → t ∉ s.owed → (s.threads t).asleep = false →
      Inv (s.goto t .idle) := fun hi ht hasleep =>
    hi.setThread nofun (absurd · ht) (absurd · ht) (fun h => absurd (hasleep.symm.trans h) nofun) nofun
  unfold State.ret
  split
  next ht =>
    rw [if_pos (hok ht)]
    have hcount := hi.claims t
    unfold State.claims at hcount
    have hpos := count_pos_iff.mpr ht
    have hlen : s.owed.length = (s.owed.filter (· ≠ t)).length + s.owed.count t := by
      have hsum := length_eq_countP_add_countP (· = t) (l := s.owed)
      simp only [decide_eq_true_eq] at hsum
      rw [hsum, ← countP_eq_length_filter, add_comm]
      rfl
    have hpaid : Inv { s with owed := s.owed.filter (· ≠ t), succeeded := s.succeeded + 1 } := by
      refine hi.moves (fun u => ?_) (fun u hu => .inl (mem_of_mem_filter hu)) (by omega)
      have hle := (filter_sublist (p := (· ≠ t)) (l := s.owed)).count_le u
      unfold State.claims
      omega
    refine hidle hpaid ?_ (hi.awake hsleeping)
    simp
  next ht =>
    exact hidle hi ht (hi.awake hsleeping)

/-! ## The sections of a wait -/

theorem ret_spec (x : Ret) : (s.ret t x).threads = update s.threads t { s.threads t with pc := .idle } ∧
    (s.ret t x).registry = s.registry ∧
    ∀ r, State.ret { s with registry := r } t x = { s.ret t x with registry := r } := by
  unfold State.ret
  dsimp only
  split
  · split <;> exact ⟨rfl, rfl, fun _ => rfl⟩
  · exact ⟨rfl, rfl, fun _ => rfl⟩

theorem Inv.cleanup (hi : Inv s) (hidle : ∀ h', (s.threads t).pc.handle ≠ some h')
    (hother : ∀ u h', u ≠ t → (s.threads u).pc.handle = some h' → h'.slotIdx ≠ h.slotIdx) :
    Inv { s with registry := s.registry.cleanup h } := by
  refine hi.registry_kept fun u h' hu => .inl ?_
  have hut : u ≠ t := fun heq => hidle h' (heq ▸ hu)
  exact if_neg (by simp [hother u h' hut hu])

/-- A slot in use is none that `alloc` hands out. -/
theorem alloc_spec (ha : r.alloc t = some (h, r')) :
    r'.Holds h t ∧ ∀ idx, (r.slots idx).state ≠ .free → r'.slots idx = r.slots idx := by
  unfold alloc at ha
  obtain ⟨⟨g, r'⟩, halloc, heq⟩ := map_eq_some_iff.mp ha
  cases heq
  obtain ⟨hfree, rfl, slot, n, rfl, hg⟩ :=
    WaitSlots.alloc_spec (WaitSlots.lt_of_freeSlot_ne (by decide)) halloc
  have hidx : g.handle.slotIdx = g.slot := by rw [hg.handle]
  constructor
  · show Grant.Holds _ _ (update r.slots _ _ _)
    rwa [hidx, update_self]
  · intro idx hne
    refine update_of_ne ?_ _ _
    rintro rfl
    exact hne hfree

theorem Inv.inert (hi : Inv s) {clock made : ℕ} {word : FutexKey → Option ℤ}
    {table : List (FutexKey × QueueId)} {timers : List Timer} :
    Inv { s with clock := clock, word := word, table := table, made := made, timers := timers } :=
  { hi with }

theorem futexQueueByKey_eq (key : FutexKey) : ∃ table made,
    (s.futexQueueByKey key).2 = { s with table := table, made := made } := by
  unfold State.futexQueueByKey
  split
  · exact ⟨_, _, rfl⟩
  · exact ⟨_, _, rfl⟩

variable {q : QueueId} {k : SleepPc}

section

variable (hi : Inv s)

include hi

/-- Inside the sleep and right behind it, a wait has the handle it came with. -/
theorem Inv.sleepGoto {h : Option FutexWaitHandle} (hpc : (s.threads t).pc = .sleep q h k)
    (hto : pc = afterSleep h ∨ ∃ j, pc = .sleep q h j ∧ j ≠ .prepare)
    (hasleep : (s.threads t).asleep = true → pc.sleeping = true) : Inv (s.goto t pc) := by
  have hold : ∀ h', h = some h' → s.registry.Holds h' t := fun h' hh =>
    hi.holds t h' (hpc ▸ hh)
  have hfinds : s.finds t = h.bind s.registry.waitState := by rw [State.finds, hpc]; rfl
  rcases hto with rfl | ⟨j, rfl, hj⟩
  · cases h with
    | none => exact hi.goto nofun nofun (fun _ => hfinds.symm) hasleep nofun
    | some h => exact hi.goto nofun nofun (fun _ => hfinds.symm) hasleep hold
  · refine hi.goto (fun hs => ?_) nofun (fun _ => hfinds.symm) hasleep hold
    cases j <;> first | exact absurd rfl hj | cases hs

/-- A thread that no queue and no operation claims joins a queue. -/
theorem Inv.enqueue (hclaims : s.claims t = 0) (hstarting : (s.threads t).pc.starting = false) :
    Inv { s with waiters := s.waiters ++ [(q, t)] } where
  claims u := by
    have hu := hi.claims u
    simp only [State.claims, countP_append, countP_singleton] at hu hclaims ⊢
    rcases eq_or_ne t u with rfl | hut
    · simp only [decide_true, if_true]
      omega
    · simp only [hut, decide_false, if_false, Bool.false_eq_true]
      omega
  starting u hu := by
    have hut : t ≠ u := by
      rintro rfl
      rw [hstarting] at hu
      contradiction
    have hold := hi.starting u hu
    simp only [State.claims, countP_append, countP_singleton, hut, decide_false, if_false,
      Bool.false_eq_true] at hold ⊢
    omega
  __ := hi

theorem Inv.prepare {h : Option FutexWaitHandle} (hpc : (s.threads t).pc = .sleep q h .prepare) :
    Inv ((s.prepareToWait t q).goto t (.sleep q h .skipWord)) := by
  have hstarting : (s.threads t).pc.starting = true := by rw [hpc]; rfl
  have ht := hi.not_owed hstarting
  have heq : (s.prepareToWait t q).goto t (.sleep q h .skipWord) =
      { s.setThread t { s.threads t with
          asleep := true, handle := some q, pc := .sleep q h .skipWord } with
        waiters := s.waiters ++ [(q, t)] } := by
    simp [State.prepareToWait, State.goto, State.setThread]
  rw [heq]
  refine Inv.enqueue (hi.setThread nofun (absurd · ht) (absurd · ht) (fun _ => rfl) fun h' hh => ?_)
    (hi.starting t hstarting) (setThread_threads ▸ rfl)
  exact hi.holds t h' (hpc ▸ hh)

theorem Inv.sleepStep {h : Option FutexWaitHandle}
    (hpc : (s.threads t).pc = .sleep q h k) (hn : s.sleepStep t q h k = some s') : Inv s' := by
  have hin : ∀ j, j ≠ SleepPc.prepare → ((s.threads t).asleep = true →
      (WaitPc.sleep q h j).sleeping = true) → Inv (s.goto t (.sleep q h j)) :=
    fun j hj hasleep => hi.sleepGoto hpc (.inr ⟨j, rfl, hj⟩) hasleep
  cases k <;> simp only [State.sleepStep, some.injEq] at hn
  case prepare => exact hn ▸ hi.prepare hpc
  case skipWord | skipHandle | skipSignal =>
    subst hn
    split <;> exact hin _ nofun fun _ => rfl
  case cancelQueue =>
    subst hn
    exact (hi.removeWaiter q t).sleepGoto hpc (.inr ⟨_, rfl, nofun⟩) fun _ => rfl
  case cancelTask =>
    subst hn
    unfold State.wakeupTask
    split
    · refine Inv.sleepGoto (q := q) (k := .cancelTask)
        (hi.thread rfl rfl nofun) ?_ (.inl rfl) fun hx => ?_
      · rwa [setThread_threads]
      · rw [setThread_threads] at hx
        contradiction
    next hawake =>
      exact hi.sleepGoto hpc (.inl rfl) fun hx => absurd hx hawake
  case blocked =>
    rcases ite_none_left_eq_some.mp hn with ⟨hawake, ⟨⟩⟩
    exact hin _ nofun fun hx => absurd hx hawake
  case finishQueue =>
    subst hn
    have hawake : (s.threads t).asleep = false := hi.awake (hpc ▸ rfl)
    exact (hi.removeWaiter q t).sleepGoto hpc (.inr ⟨_, rfl, nofun⟩) fun hx =>
      absurd (hawake.symm.trans hx) nofun
  case finishTask =>
    subst hn
    have hawake : (s.threads t).asleep = false := hi.awake (hpc ▸ rfl)
    refine Inv.sleepGoto (q := q) (k := .finishTask) (hi.thread rfl rfl id) ?_
      (.inl rfl) fun hx => ?_
    · rwa [setThread_threads]
    · rw [setThread_threads] at hx
      exact absurd (hawake.symm.trans hx) nofun

theorem Inv.cleanupStep {wakeState : Option FutexWaitState}
    (hpc : (s.threads t).pc = .cleanup h wakeState)
    (hn : s.futexWaitAddr t (.cleanup h wakeState) = some s') : Inv s' := by
  have hhandle : (s.threads t).pc.handle = some h := by rw [hpc]; rfl
  have hslot : ∀ u h', u ≠ t → (s.threads u).pc.handle = some h' → h'.slotIdx ≠ h.slotIdx := by
    intro u h' hut hu heq
    have htask := (hi.holds u h' hu).task
    rw [heq, (hi.holds t h hhandle).task] at htask
    exact hut htask.symm
  have hsafe : t ∈ s.owed → wakeState = some .ready ∨ wakeState ≠ some .timedOut ∧
      (s.threads t).pending = false := fun ht => by
    have hold := hi.safe t ht
    rwa [State.Safe, State.finds, hpc] at hold
  have hawake : (s.threads t).asleep = false := hi.awake (hpc ▸ rfl)
  have hreturn : ∀ r, (t ∈ s.owed → r = .ok) →
      Inv (State.ret { s with registry := s.registry.cleanup h } t r) := by
    intro r hok
    have hret := hi.ret (hpc ▸ rfl) hok
    obtain ⟨hthreads, hregistry, heq⟩ := ret_spec (s := s) (t := t) r
    rw [heq, ← hregistry]
    refine hret.cleanup (by rw [hthreads, update_self]; nofun) fun u h' hut hu => ?_
    rw [hthreads, update_of_ne hut] at hu
    exact hslot u h' hut hu
  simp only [State.futexWaitAddr] at hn
  split at hn <;> cases hn
  · exact hreturn .ok fun _ => rfl
  · exact hreturn .etimedout fun ht => absurd (hsafe ht) (by simp)
  · -- the signals decide
    rename_i hready htimedOut
    have hgo : Inv (s.goto t .signal) := by
      refine hi.setThread nofun (fun _ => nofun) (fun ht => .inr ?_)
        (fun hx => absurd (hawake.symm.trans hx) nofun) nofun
      rw [State.finds, setThread_threads]
      exact ⟨nofun, ((hsafe ht).resolve_left hready).2⟩
    refine hgo.cleanup (t := t) (by simp [State.goto, setThread_threads, WaitPc.handle])
      fun u h' hut hu => ?_
    simp only [State.goto, State.setThread, update_of_ne hut] at hu
    exact hslot u h' hut hu

/-- One section of a wait. -/
theorem Inv.run (hn : s.futexWaitAddr t (s.threads t).pc = some s') : Inv s' := by
  have hleave : ∀ r, (s.threads t).pc.starting = true → (s.threads t).pc.sleeping = false →
      Inv (s.ret t r) := fun r hs hsl => hi.ret hsl fun ht => absurd ht (hi.not_owed hs)
  have hahead : ∀ {s₁ : State} {k : WaitPc}, Inv s₁ → (s₁.threads t).pc.starting = true →
      (s₁.threads t).pc.sleeping = false → k ≠ .idle →
      (∀ h, k.handle = some h → s₁.registry.Holds h t) → Inv (s₁.goto t k) :=
    fun h₁ hs hsl hk hh => h₁.goto (fun _ => hs) hk (fun ht => absurd ht (h₁.not_owed hs))
      (fun hx => absurd ((h₁.awake hsl).symm.trans hx) nofun) hh
  cases hpc : (s.threads t).pc with rw [hpc] at hn hleave
  | idle => simp [State.futexWaitAddr] at hn
  | read =>
    simp only [State.futexWaitAddr] at hn
    split at hn
    · cases hn
      exact hleave _ rfl rfl
    · split at hn <;> cases hn
      · exact hleave _ rfl rfl
      · exact hahead hi (hpc ▸ rfl) (hpc ▸ rfl) nofun nofun
  | deadline =>
    simp only [State.futexWaitAddr] at hn
    split at hn <;> cases hn
    · exact hleave _ rfl rfl
    · exact hahead hi (hpc ▸ rfl) (hpc ▸ rfl) nofun nofun
  | queue =>
    obtain ⟨table, made, heq⟩ := futexQueueByKey_eq (s := s) (s.threads t).key
    simp only [State.futexWaitAddr, heq, some.injEq] at hn
    subst hn
    refine hahead hi.inert (hpc ▸ rfl) (hpc ▸ rfl) ?_ ?_ <;> split <;> nofun
  | register q =>
    simp only [State.futexWaitAddr] at hn
    split at hn <;> cases hn
    · exact hleave _ rfl rfl
    rename_i h r halloc
    obtain ⟨hholds, hkept⟩ := alloc_spec halloc
    have h₁ : Inv { s with registry := r } := hi.registry_kept fun u h' hu =>
      .inl (hkept _ (hi.holds u h' hu).taken)
    exact hahead h₁ (hpc ▸ rfl) (hpc ▸ rfl) nofun fun h' hh =>
      some.inj hh ▸ hholds
  | arm q h =>
    cases hn
    exact hahead hi.inert (hpc ▸ rfl) (hpc ▸ rfl) nofun fun h' hh =>
      hi.holds t h' (hpc ▸ hh)
  | sleep q h k => exact hi.sleepStep hpc hn
  | state h =>
    cases hn
    refine hi.goto nofun nofun (fun _ => by rw [State.finds, hpc]; rfl) (fun hx => ?_) fun h' hh =>
      hi.holds t h' (hpc ▸ hh)
    exact absurd ((hi.awake (hpc ▸ rfl)).symm.trans hx) nofun
  | cleanup h wakeState => exact hi.cleanupStep hpc hn
  | signal =>
    cases hn
    refine hi.ret (hpc ▸ rfl) fun ht => ?_
    have hsafe := hi.safe t ht
    rw [State.Safe, State.finds, hpc] at hsafe
    rw [if_neg (by simp [(hsafe.resolve_left nofun).2])]

end

/-! ## The sections of the other operations -/

theorem collectWake_count (waits : Tid → Bool) (t : Tid) (n : ℕ) (l : List Tid) :
    (collectWake waits n l).1.count t + (collectWake waits n l).2.count t ≤ l.count t := by
  fun_induction collectWake waits n l with
  | case1 l | case2 n => simp
  | case3 n u l hu woken rest heq ih =>
    rw [heq] at ih
    simp only [count_cons] at ih ⊢
    omega
  | case4 n u l hu ih =>
    simp only [count_cons]
    omega

theorem collectRequeue_count (waits : Tid → Bool) (t : Tid) (n : ℕ) (l : List Tid) :
    (collectRequeue waits n l).1.count t + (collectRequeue waits n l).2.count t ≤ l.count t := by
  fun_induction collectRequeue waits n l with
  | case1 waits l | case2 waits n => simp
  | case3 waits n u l hu moved rest heq ih =>
    rw [heq] at ih
    simp only [count_cons] at ih ⊢
    omega
  | case4 waits n u l hu ih =>
    simp only [count_cons]
    omega

theorem waits_of_collectWake {waits : Tid → Bool} {n : ℕ} {l : List Tid}
    (ht : t ∈ (collectWake waits n l).1) : waits t = true := by
  fun_induction collectWake waits n l with
  | case1 l | case2 n => contradiction
  | case3 n u l hu woken rest heq ih =>
    rw [heq] at ih
    rcases mem_cons.mp ht with rfl | ht
    · exact hu
    · exact ih ht
  | case4 n u l hu ih => exact ih ht

theorem countP_waiters (q : QueueId) (t : Tid) :
    (s.waiters.filter (·.1 ≠ q)).countP (·.2 = t) + (s.queue q).count t =
      s.waiters.countP (·.2 = t) := by
  have hq : (s.queue q).count t = (s.waiters.filter (·.1 = q)).countP (·.2 = t) := by
    simp [State.queue, count, countP_map, Function.comp_def]
    rfl
  rw [hq, countP_eq_countP_filter_add s.waiters _ fun e => decide (e.1 = q)]
  simp only [ne_eq, decide_not]
  omega

section

variable (hi : Inv s)

include hi

theorem Inv.handles {f : Tid → Thread} (hpc : ∀ t, (f t).pc = (s.threads t).pc)
    (hasleep : ∀ t, (f t).asleep = (s.threads t).asleep)
    (hpending : ∀ t, (f t).pending = (s.threads t).pending) : Inv { s with threads := f } where
  __ := hi
  starting t ht := hi.starting t (hpc t ▸ ht)
  inWait t ht hidle := hi.inWait t ht (hpc t ▸ hidle)
  safe t ht := by
    have hold := hi.safe t ht
    unfold State.Safe State.finds at hold ⊢
    rwa [hpc t, hpending t]
  asleep t ht := (congrArg _ (hpc t)).trans (hi.asleep t (hasleep t ▸ ht))
  holds t h hh := hi.holds t h (hpc t ▸ hh)

/-- A requeue takes waiters to wake off the queue and moves others. -/
theorem Inv.collect {src dst : QueueId} {wakeCount requeueCount : ℕ}
    (hc : Op.collect src dst wakeCount requeueCount ∈ s.ops)
    (hok : Undisturbed s (.op (.collect src dst wakeCount requeueCount))) :
    Inv (s.opStep (.collect src dst wakeCount requeueCount)) := by
  set woken := (collectWake (s.waitsOn src) wakeCount (s.queue src)).1 with hwoken
  set left := (collectWake (s.waitsOn src) wakeCount (s.queue src)).2
  set moved := (collectRequeue (s.waitsOn src) requeueCount left).1
  set rest := (collectRequeue (s.waitsOn src) requeueCount left).2
  have hcredit := sum_replace [.onWakeList woken (woken.length + moved.length)] Op.credit hc
  have hmoves : Inv { s with
      waiters := s.waiters.filter (·.1 ≠ src) ++ rest.map (src, ·) ++ moved.map (dst, ·)
      owed := woken ++ s.owed, requeued := s.requeued + moved.length
      ops := [.onWakeList woken (woken.length + moved.length)] ++
        s.ops.erase (.collect src dst wakeCount requeueCount) } := by
    refine hi.moves (fun t => ?_) (fun t ht => ?_) ?_
    · -- every waiter of the source queue goes to one of the lists, or is dropped
      have hholds := sum_replace [.onWakeList woken (woken.length + moved.length)] (Op.holds t) hc
      have hleft : woken.count t + left.count t ≤ (s.queue src).count t := collectWake_count ..
      have hrest : moved.count t + rest.count t ≤ left.count t := collectRequeue_count ..
      have hqueue := countP_waiters (s := s) src t
      have hpairs : ∀ (q : QueueId) (l : List Tid), (l.map (q, ·)).countP (·.2 = t) = l.count t := by
        intro q l
        rw [countP_map]
        rfl
      simp only [State.claims, countP_append, count_append, hpairs]
      simp only [State.replace, Op.holds, map_cons, map_nil, sum_cons, sum_nil] at hholds ⊢
      omega
    · rcases mem_append.mp ht with ht | ht
      · have hwaits := waits_of_collectWake (hwoken ▸ ht)
        simp only [State.waitsOn, Bool.and_eq_true] at hwaits
        have hsleeping := hi.asleep t hwaits.1
        exact .inr ⟨fun hidle => by rw [hidle] at hsleeping; contradiction, hok t ht⟩
      · exact .inl ht
    · simp only [State.replace, Op.credit, map_cons, map_nil, sum_cons, sum_nil,
        length_append] at hcredit ⊢
      omega
  refine hmoves.handles (fun t => ?_) (fun t => ?_) fun t => ?_ <;> dsimp only <;> split <;> rfl

/-- One section of a wake or of a requeue. -/
theorem Inv.opStep (hc : c ∈ s.ops) (hok : Undisturbed s (.op c)) : Inv (s.opStep c) := by
  cases c with simp only [State.opStep]
  | wake key maxCount =>
    split
    · exact hi.finish hc rfl
    · exact hi.replace hc (fun _ => Nat.le_refl _) rfl
  | pop q limit count =>
    split
    · split
      · exact hi.finish hc rfl
      rename_i t rest hqueue
      have hmem : (q, t) ∈ s.waiters := by
        have hhead : t ∈ s.queue q := hqueue ▸ .head _
        simpa [State.queue] using hhead
      refine hi.moves (fun u => ?_) (fun u hu => .inl hu) ?_
      · have hcount := (perm_cons_erase hmem).countP_eq (·.2 = u)
        have hholds := sum_replace [.check q limit count t] (Op.holds u) hc
        simp only [State.replace, State.claims, Op.holds, map_cons, map_nil, sum_cons,
          sum_nil, countP_cons, decide_eq_true_eq] at hcount hholds ⊢
        omega
      · have hcredit := sum_replace [.check q limit count t] Op.credit hc
        simp only [State.replace, Op.credit, map_cons, map_nil, sum_cons, sum_nil] at hcredit ⊢
        omega
    · exact hi.finish hc rfl
  | check q limit count t =>
    split
    next hwaits =>
      have hsafe := hok hwaits
      simp only [State.waitsOn, Bool.and_eq_true] at hwaits
      have hsleeping := hi.asleep t hwaits.1
      refine hi.moves (fun u => ?_) (fun u hu => ?_) ?_
      · have hholds := sum_replace [.onWake q limit count t] (Op.holds u) hc
        simp only [State.replace, State.claims, Op.holds, map_cons, map_nil, sum_cons,
          sum_nil, count_cons, beq_iff_eq] at hholds ⊢
        omega
      · rcases mem_cons.mp hu with rfl | hu
        · exact .inr ⟨fun hidle => by rw [hidle] at hsleeping; contradiction, hsafe⟩
        · exact .inl hu
      · have hcredit := sum_replace [.onWake q limit count t] Op.credit hc
        simp only [State.replace, Op.credit, map_cons, map_nil, sum_cons,
          sum_nil, length_cons] at hcredit ⊢
        omega
    · exact hi.replace hc (fun _ => Nat.zero_le _) rfl
  | onWake q limit count t => exact (hi.markReady t).replace hc (fun _ => Nat.le_refl _) rfl
  | wakeup q limit count t | wakeupList t todo moved | rouse t =>
    exact (hi.wakeupTask t).replace (by rwa [wakeupTask_ops]) (fun _ => Nat.le_refl _) rfl
  | requeue src dst wakeCount requeueCount =>
    obtain ⟨table, made, heq⟩ := futexQueueByKey_eq (s := s) src
    simp only [heq]
    exact hi.inert.replace hc (fun _ => Nat.le_refl _) rfl
  | requeueTo src dst wakeCount requeueCount =>
    obtain ⟨table, made, heq⟩ := futexQueueByKey_eq (s := s) dst
    simp only [heq]
    split <;> exact hi.inert.replace hc (fun _ => Nat.le_refl _) rfl
  | collect src dst wakeCount requeueCount => exact hi.collect hc hok
  | onWakeList todo moved =>
    cases todo with
    | nil => exact hi.finish hc rfl
    | cons t todo => exact (hi.markReady t).replace hc (fun _ => Nat.le_refl _) rfl
  | kick t signal =>
    split
    · exact hi.replace hc (fun _ => Nat.le_refl _) rfl
    · split <;> exact hi.replace hc (fun _ => Nat.le_refl _) rfl
  | shouldWake t =>
    split <;> exact hi.replace hc (fun _ => Nat.le_refl _) rfl
  | wakeWaiter q t =>
    split
    · split <;> exact hi.replace hc (fun _ => Nat.le_refl _) rfl
    · exact hi.replace hc (fun _ => Nat.le_refl _) rfl
  | remove q t => exact (hi.removeWaiter q t).replace hc (fun _ => Nat.le_refl _) rfl

theorem Inv.begin (hholds : ∀ t, c.holds t = 0) (hcredit : c.credit = 0) :
    Inv { s with ops := c :: s.ops } := by
  refine hi.moves (fun t => ?_) (fun t ht => .inl ht) ?_
  · simp [State.claims, hholds t]
  · simp [hcredit]

theorem Inv.wait {key : FutexKey} {expected : ℤ} {deadline : Option ℕ}
    (hidle : (s.threads t).pc = .idle) (hwaiters : ∀ e ∈ s.waiters, e.2 ≠ t)
    (hops : ∀ c ∈ s.ops, t ∉ c.tasks) : Inv (s.setThread t { s.threads t with
      key := key, expected := expected, deadline := deadline, pc := .read }) := by
  have ht : t ∉ s.owed := fun ht => hi.inWait t ht hidle
  have hclaims : s.claims t = 0 := by
    have hqueues : s.waiters.countP (·.2 = t) = 0 := by simpa [countP_eq_zero] using hwaiters
    have hhands : (s.ops.map (Op.holds t)).sum = 0 := by
      refine sum_eq_zero fun n hn => ?_
      obtain ⟨c, hc, rfl⟩ := mem_map.mp hn
      cases c with
      | check q limit count u =>
        refine if_neg ?_
        rintro rfl
        exact hops _ hc (mem_singleton.mpr rfl)
      | _ => rfl
    rw [State.claims, hqueues, hhands, count_eq_zero.mpr ht]
  have hawake := hi.awake (t := t) (hidle ▸ rfl)
  exact hi.setThread (fun _ => hclaims) (absurd · ht) (absurd · ht)
    (fun hx => absurd (hawake.symm.trans hx) nofun) nofun

/-- A timer expires; the wait it times out is owed nothing. -/
theorem Inv.timeOut {x : Timer} (ht : x.task ∉ s.owed) :
    Inv { s with registry := s.registry.handleTimeout x.tag x.task } := by
  refine hi.registry (fun u h hh => ?_) fun u hu h hh => .inl (if_neg ?_)
  · have hold := hi.holds u h hh
    show Grant.Holds _ _ (ite _ _ _)
    split
    · exact ⟨hold.lt, hold.handle, nofun, hold.task⟩
    · exact hold
  · -- the slot belongs to the task of the timer
    intro hsel
    simp only [Bool.and_eq_true, beq_iff_eq] at hsel
    exact ht (hsel.1.2.symm.trans (hi.holds u h hh).task ▸ hu)

theorem Inv.next {l : Label} (hok : Undisturbed s l) (hn : Futex.next s l = some s') : Inv s' := by
  cases l with
  | tick | store key value =>
    cases hn
    exact hi.inert
  | wait t key expected deadline =>
    rcases ite_none_right_eq_some.mp hn with ⟨hidle, ⟨⟩⟩
    exact hi.wait hidle hok.1 hok.2
  | run t => exact hi.run hn
  | wake key maxCount | requeue src dst wakeCount requeueCount =>
    cases hn
    exact hi.begin (fun _ => rfl) rfl
  | cmpRequeue src dst wakeCount requeueCount expected =>
    simp only [Futex.next] at hn
    split at hn <;> cases hn
    · exact hi.begin (fun _ => rfl) rfl
    · exact hi
  | op c =>
    rcases ite_none_right_eq_some.mp hn with ⟨hc, hn⟩
    rw [← some.inj hn]
    exact hi.opStep hc hok
  | signal t =>
    cases hn
    refine Inv.begin (hi.setThread (hi.starting t) (hi.inWait t) (fun ht => .inl ?_)
      (hi.asleep t) (hi.holds t)) (fun _ => rfl) rfl
    rw [State.finds, setThread_threads]
    exact hok ht
  | handleSignals t =>
    rcases ite_none_right_eq_some.mp hn with ⟨hidle, ⟨⟩⟩
    have ht : t ∉ s.owed := fun ht => hi.inWait t ht hidle
    exact hi.setThread (hi.starting t) (hi.inWait t) (absurd · ht) (hi.asleep t) (hi.holds t)
  | expire x =>
    rcases ite_none_right_eq_some.mp hn with ⟨_, hn⟩
    split at hn <;> cases hn
    next hout =>
      exact (hi.timeOut (hok hout)).inert.begin (fun _ => rfl) rfl
    · exact hi.inert

end

end Steps

theorem inv_boot (word : FutexKey → Option ℤ) : Inv (boot word) where
  claims _ := Nat.zero_le _
  starting _ _ := rfl
  inWait := nofun
  safe := nofun
  asleep := nofun
  holds := nofun
  balance := rfl
  failed := rfl

/-- In an undisturbed run no wait that a wake counted fails, and when no operation is in progress and
no such wait, the counts returned are the waits that a wake let succeed and the waiters that were
moved. -/
theorem wake_tokens_conserved {s : State} (h : machine.Reach Undisturbed s) :
    s.failed = 0 ∧ (s.ops = [] → s.owed = [] → s.returned = s.succeeded + s.requeued) := by
  have hi : Inv s := by
    apply h.invariant
    · rintro s ⟨word, rfl⟩
      exact inv_boot word
    · intro s l s' hi hok hn
      exact hi.next hok hn
  refine ⟨hi.failed, fun hops howed => ?_⟩
  have hbalance := hi.balance
  rw [hops, howed] at hbalance
  simpa using hbalance

section Runs

variable (key : FutexKey)

def runs (n : ℕ) (t : Tid) : List Label := List.replicate n (.run t)

/-- The sections of a wake of one waiter, from the one that counts it on. -/
def countOne (q : QueueId) (t : Tid) : List Label :=
  [.op (.check q 1 0 t), .op (.onWake q 1 0 t), .op (.wakeup q 1 0 t), .op (.pop q 1 1)]

def takeOne (q : QueueId) : List Label := [.wake key 1, .op (.wake key 1), .op (.pop q 1 0)]

/-- The timer of the wait expires between the section that counts the waiter and the one that marks it
ready. -/
def timerRace : List Label :=
  .wait 0 key 0 (some 1) :: runs 9 0 ++ .tick :: takeOne key 0 ++
    [.op (.check 0 1 0 0), .expire ⟨1, 0, ⟨0, 1⟩⟩] ++ (countOne 0 0).drop 1 ++
    [.op (.kick 0 false), .op (.rouse 0)] ++ runs 5 0

/-- A signal arrives behind the section that counts the waiter. -/
def signalRace : List Label :=
  .wait 0 key 0 none :: runs 7 0 ++ takeOne key 0 ++
    [.op (.check 0 1 0 0), .signal 0, .op (.kick 0 true), .op (.wakeWaiter 0 0), .op (.remove 0 0),
      .op (.rouse 0)] ++ (countOne 0 0).drop 1 ++ runs 4 0

/-- A wake takes the thread off the queue, and counts it when it waits there again. -/
def lateCheck : List Label :=
  .wait 0 key 0 none :: runs 4 0 ++ takeOne key 0 ++ .store key (some 1) :: runs 4 0 ++
    .wait 0 key 1 none :: runs 7 0 ++ .op (.check 0 1 0 0) :: takeOne key 0 ++ countOne 0 0 ++
    (countOne 0 0).drop 1 ++ runs 4 0

/-- A requeue wakes one waiter and moves another, which a wake of the other queue then counts. -/
def requeueAndWake (dst : FutexKey) : List Label :=
  .wait 0 key 0 none :: runs 7 0 ++ .wait 1 key 0 (some 1) :: runs 9 1 ++
    [.requeue key dst 1 1, .op (.requeue key dst 1 1), .op (.requeueTo 0 dst 1 1), .op (.collect 0 1 1 1),
      .op (.onWakeList [0] 2), .op (.wakeupList 0 [] 2), .op (.onWakeList [] 2)] ++
    takeOne dst 1 ++ countOne 1 1 ++ runs 4 0 ++ runs 5 1

end Runs

theorem wake_tokens_conserved_requeueAndWake : ∃ s, machine.Reach Undisturbed s ∧ s.succeeded = 2 ∧
    s.failed = 0 ∧ s.returned = s.succeeded + s.requeued := by
  obtain ⟨s, hreach, hdone, hops, howed⟩ := machine.exists_reach_of_runWhile Undisturbed
    (fun s => s.succeeded = 2 ∧ s.ops = [] ∧ s.owed = [])
    (requeueAndWake ⟨0, none⟩ ⟨8, none⟩) ⟨fun _ => some 0, rfl⟩ (by decide +kernel)
  obtain ⟨hfailed, hbalance⟩ := wake_tokens_conserved hreach
  exact ⟨s, hreach, hdone, hfailed, hbalance hops howed⟩

/-- Wakes that were counted end in waits that time out or are interrupted, and one wait is counted
twice. -/
theorem wake_tokens_lost :
    (∃ s, machine.Reachable s ∧ s.ops = [] ∧ s.owed = [] ∧ s.failed = 1 ∧ s.returned = 1 ∧
      s.succeeded = 0 ∧ (s.threads 0).pending = false) ∧
    (∃ s, machine.Reachable s ∧ s.ops = [] ∧ s.owed = [] ∧ s.failed = 1 ∧ s.returned = 1 ∧
      s.succeeded = 0 ∧ s.clock = 0) ∧
    ∃ s, machine.Reachable s ∧ s.ops = [] ∧ s.owed = [] ∧ s.returned = 2 ∧ s.succeeded = 1 ∧
      s.requeued = 0 := by
  have hinit : machine.Init (boot fun _ => some 0) := ⟨_, rfl⟩
  refine ⟨?_, ?_, ?_⟩
  · exact machine.exists_reachable_of_run _ (timerRace ⟨0, none⟩) hinit (by decide +kernel)
  · exact machine.exists_reachable_of_run _ (signalRace ⟨0, none⟩) hinit (by decide)
  · exact machine.exists_reachable_of_run _ (lateCheck ⟨0, none⟩) hinit (by decide)

end CosmOS.Futex
