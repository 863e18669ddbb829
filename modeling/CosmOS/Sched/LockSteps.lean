import CosmOS.Sched.Wakeup

/-!
# Runqueue locks and task locks

The scheduler again, with the acquisition of runqueue locks and task-inner locks as separate
steps.  A critical section of `System` that works on a runqueue is now a script:

* it takes the runqueue lock (`begin`);
* while holding it, it asks for task locks one after the other (`request`, `acquire`, `release`):
  the task being linked, the subject of `remove_task`, the entry `remove_cfs_by_key` takes out of
  the tree, the entries whose affinity `steal_cfs_task` looks at, the boost candidates;
* it changes the data and drops its locks (`commit`).

All other sections hold at most one task lock and ask for nothing while they hold it; they are
single steps that need that lock to be free (`plain`).  The exception is `on_timer_tick`, which
locks the current task and then asks for the runqueue of its hart, in `cfs_should_preempt` or
`has_runnable_task_at_or_above`.

A data change happens while its section holds every lock it needs, so the data follow the runs of
`attrMachine` (`sched_reachable`).

Scope limits: processor locks are always taken before task locks and never together with a
runqueue lock, so they are part of the plain steps.  A section reads and changes its data at
`commit`; which tasks it locks before that is read off the state at the request.
-/

namespace CosmOS.Sched

open Function

variable {maxHarts : ℕ}

/-- Who runs a piece of code: the scheduler of a hart, its timer tick, or a call. -/
inductive Agent (maxHarts : ℕ)
  | hart (h : Hart maxHarts)
  | tick (h : Hart maxHarts)
  | call (c : CallId)
deriving DecidableEq

/-- Where an agent stands with respect to its locks.  `l` is the section it is in. -/
inductive LockPc (maxHarts : ℕ)
  | free
  | heldRq (l : Label maxHarts) (r : Hart maxHarts)
  | wantsTask (l : Label maxHarts) (r : Hart maxHarts) (t : Tid)
  | heldBoth (l : Label maxHarts) (r : Hart maxHarts) (t : Tid)
  /-- `on_timer_tick` has read `t` from the processor and waits for it. -/
  | tickWants (t : Tid)
  | tickHeld (t : Tid)
  /-- Holds task `t` and waits for the runqueue of its hart. -/
  | tickWantsRq (t : Tid)
  | tickBoth (t : Tid)
deriving DecidableEq

structure LockState (maxHarts : ℕ) where
  sched : State maxHarts
  pc : Agent maxHarts → LockPc maxHarts
  rqLock : Hart maxHarts → Option (Agent maxHarts)
  taskLock : Tid → Option (Agent maxHarts)

/-! ## Sections and their locks -/

def Label.agent : Label maxHarts → Agent maxHarts
  | .sched h | .requeue h _ _ | .boost h _ | .charge h _ | .suspend h _ _ | .publish h | .cancel h
  | .block h _ => .hart h
  | .wake c _ _ | .enqueue c _ | .call c | .callLink c _ _ | .setAttr c _ _ => .call c

variable (s : State maxHarts)

/-- The runqueue lock a section takes. -/
def rqOf : Label maxHarts → Option (Hart maxHarts)
  | .sched h =>
    match s.pc h with
    | .idle | .stolen _ _ => some h
    | .stealing source =>
      if hs : source < maxHarts ∧ source ≠ h.val then some ⟨source, hs.1⟩ else none
    | _ => none
  | .requeue h target _ =>
    match s.pc h with
    | .requeueLinking _ => some target
    | _ => none
  | .boost h _ =>
    match s.pc h with
    | .boosting _ => some h
    | _ => none
  | .callLink c target _ =>
    match s.calls c with
    | some (.linkWoken ..) | some (.link _) => some target
    | _ => none
  | .call c =>
    match s.calls c with
    | some (.attrScan _ _ _ source) =>
      if hs : source < maxHarts then some ⟨source, hs⟩ else none
    | _ => none
  | _ => none

/-- The section locks task `t` while it holds runqueue `r`. -/
def Locks (r : Hart maxHarts) (t : Tid) : Label maxHarts → Prop
  | .sched h =>
    match s.pc h with
    | .idle => ((s.rqs r).cfsTasks.first?.map Prod.snd) = some t
    | .stealing _ => t ∈ (s.rqs r).cfsTasks.values
    | _ => False
  | .requeue h _ _ => s.pc h = .requeueLinking t
  | .boost _ candidates => t ∈ candidates
  | .callLink c _ _ =>
    match s.calls c with
    | some (.linkWoken u _) | some (.link u) => t = u
    | _ => False
  | .call c =>
    match s.calls c with
    | some (.attrScan u _ _ _) =>
      t = u ∨ ((s.tasks u).cfsRqKey.bind (s.rqs r).cfsTasks.get?) = some t
    | _ => False
  | _ => False

instance (r : Hart maxHarts) (t : Tid) (l : Label maxHarts) :
    Decidable (Locks s r t l) := by
  unfold Locks
  cases l <;> dsimp only
  case sched h => cases s.pc h <;> infer_instance
  case callLink c _ _ | call c =>
    cases s.calls c with
    | none => infer_instance
    | some call => cases call <;> infer_instance
  all_goals infer_instance

/-- The linking sections change their data with the task locked. -/
def Label.links : Label maxHarts → Bool
  | .requeue .. | .callLink .. => true
  | _ => false

/-- The task a section without a runqueue lock works on. -/
def plainTask : Label maxHarts → Option Tid
  | .sched h =>
    match s.pc h with
    | .popped t | .stolenMin t _ _ | .picked t | .suspending t _ _ | .blocking t _
    | .releasing t | .requeueing t => some t
    | _ => none
  | .charge h _ => s.current h
  | .publish h | .cancel h => (s.pc h).currentTask
  | .call c =>
    match s.calls c with
    | some (.waitSwitch ..) | some (.repairScan ..) => none
    | some call => some call.task
    | none => none
  | _ => none

inductive LockLabel (maxHarts : ℕ)
  | begin (l : Label maxHarts)
  | request (a : Agent maxHarts) (t : Tid)
  | acquire (a : Agent maxHarts)
  | release (a : Agent maxHarts)
  | commit (a : Agent maxHarts)
  | plain (l : Label maxHarts)
  /-- The timer interrupt of `h` reads `current`. -/
  | tick (h : Hart maxHarts)
  /-- Its next step; `sliceLeft` says whether an RR slice has ticks left. -/
  | tickStep (h : Hart maxHarts) (sliceLeft : Bool)
deriving DecidableEq

namespace LockState

variable (s : LockState maxHarts)

def goto (a : Agent maxHarts) (pc : LockPc maxHarts) :
    LockState maxHarts :=
  { s with pc := update s.pc a pc }

def setRqLock (r : Hart maxHarts) (a : Option (Agent maxHarts)) :
    LockState maxHarts :=
  { s with rqLock := update s.rqLock r a }

def setTaskLock (t : Tid) (a : Option (Agent maxHarts)) :
    LockState maxHarts :=
  { s with taskLock := update s.taskLock t a }

/-- An interrupt handler runs on top of the code of its hart. -/
def interrupted : Agent maxHarts → Bool
  | .hart h => s.pc (.tick h) ≠ .free
  | _ => false

/-- The body of `on_timer_tick` once it has read `current`. -/
def tickStep (h : Hart maxHarts) (sliceLeft : Bool) :
    Option (LockState maxHarts) :=
  match s.pc (.tick h) with
  | .tickWants t =>
    match s.taskLock t with
    | none => some ((s.setTaskLock t (some (.tick h))).goto (.tick h) (.tickHeld t))
    | some _ => none
  | .tickHeld t =>
    let task := s.sched.tasks t
    let done := (s.setTaskLock t none).goto (.tick h) .free
    if task.status ≠ .running then some done
    else
      match task.policy with
      | .fifo | .other => some (s.goto (.tick h) (.tickWantsRq t))
      | .rr => some (if sliceLeft then done else s.goto (.tick h) (.tickWantsRq t))
      | .idle => some done
  | .tickWantsRq t =>
    match s.rqLock h with
    | none => some ((s.setRqLock h (some (.tick h))).goto (.tick h) (.tickBoth t))
    | some _ => none
  | .tickBoth t =>
    some (((s.setRqLock h none).setTaskLock t none).goto (.tick h) .free)
  | _ => none

end LockState

variable (s : LockState maxHarts)

def lockNext : LockLabel maxHarts → Option (LockState maxHarts)
  | .begin l =>
    match rqOf s.sched l with
    | some r =>
      if s.pc l.agent = .free ∧ s.interrupted l.agent = false ∧ s.rqLock r = none then
        some ((s.setRqLock r (some l.agent)).goto l.agent (.heldRq l r))
      else none
    | none => none
  | .request a t =>
    match s.pc a with
    | .heldRq l r => if Locks s.sched r t l then some (s.goto a (.wantsTask l r t)) else none
    | _ => none
  | .acquire a =>
    match s.pc a with
    | .wantsTask l r t =>
      match s.taskLock t with
      | none => some ((s.setTaskLock t (some a)).goto a (.heldBoth l r t))
      | some _ => none
    | _ => none
  | .release a =>
    match s.pc a with
    | .heldBoth l r t => some ((s.setTaskLock t none).goto a (.heldRq l r))
    | _ => none
  | .commit a =>
    match s.pc a with
    | .heldRq l r =>
      if l.links then none
      else (next s.sched l).map fun sched =>
        { s.setRqLock r none with sched := sched }.goto a .free
    | .heldBoth l r t =>
      if l.links then
        (next s.sched l).map fun sched =>
          { (s.setRqLock r none).setTaskLock t none with sched := sched }.goto a .free
      else none
    | _ => none
  | .plain l =>
    match rqOf s.sched l with
    | some _ => none
    | none =>
      if s.pc l.agent = .free ∧ s.interrupted l.agent = false ∧
          ((plainTask s.sched l).bind s.taskLock) = none then
        (next s.sched l).map fun sched => { s with sched := sched }
      else none
  | .tick h =>
    match s.sched.current h with
    | some t =>
      if s.pc (.tick h) = .free then some (s.goto (.tick h) (.tickWants t)) else none
    | none => none
  | .tickStep h sliceLeft => s.tickStep h sliceLeft

structure LockState.IsInitial (s : LockState maxHarts) : Prop where
  sched : s.sched.IsInitial
  pc : ∀ a, s.pc a = .free
  rqLock : ∀ r, s.rqLock r = none
  taskLock : ∀ t, s.taskLock t = none

def lockMachine (maxHarts : ℕ) : Machine (LockState maxHarts) (LockLabel maxHarts) where
  Init := LockState.IsInitial
  next := lockNext

def LockState.WaitsForTask (a : Agent maxHarts) (t : Tid) : Prop :=
  (∃ l r, s.pc a = .wantsTask l r t) ∨ s.pc a = .tickWants t

def LockState.WaitsForRq (a : Agent maxHarts) (r : Hart maxHarts) : Prop :=
  a = .tick r ∧ ∃ t, s.pc a = .tickWantsRq t

/-- One agent holds a runqueue lock and waits for a task lock, another holds this task lock and
waits for this runqueue lock. -/
def Deadlock : Prop :=
  ∃ a b r t, s.rqLock r = some a ∧ s.WaitsForTask a t ∧ s.taskLock t = some b ∧ s.WaitsForRq b r

/-! ## Frames of the data steps -/

section Frames

variable {s s' : State maxHarts} {l : Label maxHarts} {h target : Hart maxHarts} {t : Tid} {hint : Option ℕ}

theorem State.linkTask_frame
    (hl : s.linkTask t target hint = some s') : s'.pc = s.pc ∧ s'.current = s.current := by
  rcases State.linkTask_spec hl with ⟨rq', task', rfl, -⟩
  exact ⟨rfl, rfl⟩

variable {c : CallId}

theorem callStep_frame (hn : callStep s c = some s') : s'.pc = s.pc ∧ s'.current = s.current := by
  cases hcall : s.calls c with
  | none =>
    simp only [callStep, hcall] at hn
    contradiction
  | some call =>
    cases call <;> simp only [callStep, hcall] at hn
    case wake =>
      cases hn
      unfold wakeStep
      simp only
      split <;> (repeat' split) <;> exact ⟨rfl, rfl⟩
    case resolve =>
      cases hn
      unfold resolveStep
      simp only
      split_ifs <;> exact ⟨rfl, rfl⟩
    case waitSwitch =>
      split at hn
      · contradiction
      · cases hn
        exact ⟨rfl, rfl⟩
    case repairScan | attrScan =>
      split at hn
      · split at hn <;> (cases hn; exact ⟨rfl, rfl⟩)
      · cases hn
        exact ⟨rfl, rfl⟩
    case attrUpdate =>
      cases hn
      split_ifs <;> exact ⟨rfl, rfl⟩
    case enqueue | attr =>
      cases hn
      split <;> exact ⟨rfl, rfl⟩
    case attrFinal | attrHead =>
      cases hn
      exact ⟨rfl, rfl⟩
    all_goals contradiction

theorem callLink_frame
    (hn : callLink s c target hint = some s') : s'.pc = s.pc ∧ s'.current = s.current := by
  have hlinked : ∀ (t : Tid) (f : State maxHarts → State maxHarts), (s.linkTask t target hint).map f
      = some s' → (∀ s₁, (f s₁).pc = s₁.pc ∧ (f s₁).current = s₁.current) →
      s'.pc = s.pc ∧ s'.current = s.current := by
    intro t f hmap hf
    rcases Option.map_eq_some_iff.mp hmap with ⟨s₁, hl, rfl⟩
    have hframe := State.linkTask_frame hl
    exact ⟨(hf s₁).1.trans hframe.1, (hf s₁).2.trans hframe.2⟩
  unfold callLink at hn
  split at hn
  · simp only at hn
    split at hn
    · cases hn
      exact ⟨rfl, rfl⟩
    · cases hn
      exact ⟨rfl, rfl⟩
    all_goals
      split at hn
      · cases hn
        exact ⟨rfl, rfl⟩
      · exact hlinked _ _ hn fun _ => ⟨rfl, rfl⟩
  · split at hn
    · cases hn
      exact ⟨rfl, rfl⟩
    · exact hlinked _ _ hn fun _ => ⟨rfl, rfl⟩
  · contradiction

/-- The hart runs the task, or will run it without another look at its own runqueue. -/
def HartPc.commits : HartPc → Tid → Bool
  | .popped t, u | .stolenMin t _ _, u | .picked t, u | .running t, u | .prepared t, u
  | .blocking t _, u | .restoring t, u => u = t
  | _, _ => false

theorem HartPc.commits_of_currentTask {pc : HartPc} (hc : pc.currentTask = some t) :
    pc.commits t = true := by
  cases pc <;> simp_all [HartPc.currentTask, HartPc.commits]

/-- What a section of hart `h` does to its position and its slot.  It commits itself to a task only in a
section on its own runqueue. -/
structure HartMoves (s s' : State maxHarts) (l : Label maxHarts) (h : Hart maxHarts)
    (pc' : HartPc) : Prop where
  pc : s'.pc = update s.pc h pc'
  current : s'.current = s.current ∧ pc'.currentTask = (s.pc h).currentTask ∨
    s'.current = update s.current h pc'.currentTask
  commits : ∀ t, pc'.commits t = true → (s.pc h).commits t = true ∨ l = .sched h ∧ rqOf s l = some h

theorem hartStep_moves (hn : hartStep s h = some s') : ∃ pc', HartMoves s s' (.sched h) h pc' := by
  have hkeep : ∀ {s₁ : State maxHarts} {pc₁ : HartPc}, s₁.pc = s.pc → s₁.current = s.current →
      pc₁.currentTask = (s.pc h).currentTask →
      (∀ t, pc₁.commits t = true → (s.pc h).commits t = true) →
      ∃ pc', HartMoves s (s₁.goto h pc₁) (.sched h) h pc' := by
    intro s₁ pc₁ hpc hcur htask hcommits
    exact ⟨pc₁, by rw [← hpc]; rfl, .inl ⟨hcur, htask⟩, fun t ht => .inl (hcommits t ht)⟩
  have hleave : ∀ {s₁ : State maxHarts} {pc₁ : HartPc}, s₁.pc = s.pc → s₁.current = s.current →
      pc₁.currentTask = (s.pc h).currentTask → (∀ t, pc₁.commits t = false) →
      ∃ pc', HartMoves s (s₁.goto h pc₁) (.sched h) h pc' := by
    intro s₁ pc₁ hpc hcur htask hcommits
    refine hkeep hpc hcur htask fun t ht => ?_
    rw [hcommits t] at ht
    cases ht
  cases hpc : s.pc h <;> simp only [hartStep, hpc] at hn
  case idle =>
    have hrq : rqOf s (.sched h) = some h := by simp [rqOf, hpc]
    split at hn <;>
      (cases hn; exact ⟨_, rfl, .inl ⟨rfl, by rw [hpc]; rfl⟩, fun _ _ => .inr ⟨rfl, hrq⟩⟩)
  case stolen =>
    have hrq : rqOf s (.sched h) = some h := by simp [rqOf, hpc]
    cases hn
    exact ⟨_, rfl, .inl ⟨rfl, by rw [hpc]; rfl⟩, fun _ _ => .inr ⟨rfl, hrq⟩⟩
  case stealing source =>
    split at hn
    · split at hn
      · cases hn
        exact hleave rfl rfl (hpc ▸ rfl) fun _ => rfl
      · split at hn <;> (cases hn; exact hleave rfl rfl (hpc ▸ rfl) fun _ => rfl)
    · cases hn
      exact hleave rfl rfl (hpc ▸ rfl) fun _ => rfl
  case popped | stolenMin =>
    split at hn <;> cases hn
    · exact hkeep rfl rfl (hpc ▸ rfl) (fun _ => hpc ▸ id)
    · exact hleave rfl rfl (hpc ▸ rfl) fun _ => rfl
  case picked | restoring =>
    cases hn
    exact ⟨_, rfl, .inr rfl, fun _ ht => .inl (hpc ▸ ht)⟩
  case blocking =>
    split at hn <;> cases hn
    · exact hkeep rfl rfl (hpc ▸ rfl) (fun _ => hpc ▸ id)
    · exact hleave rfl rfl (by rw [hpc]; split <;> rfl) fun _ => by split <;> rfl
  case switching =>
    split at hn <;> (cases hn; exact hleave rfl rfl (hpc ▸ rfl) fun _ => rfl)
  case suspending | deferring =>
    cases hn
    exact hleave rfl rfl (hpc ▸ rfl) fun _ => rfl
  case releasing | requeueing =>
    cases hn
    exact hleave rfl rfl (by rw [hpc]; split <;> rfl) fun _ => by split <;> rfl
  all_goals contradiction

/-- Only a hart's own code moves its position and its slots. -/
theorem next_moves (hn : next s l = some s') : (s'.pc = s.pc ∧ s'.current = s.current) ∨
      ∃ h pc', l.agent = .hart h ∧ HartMoves s s' l h pc' := by
  cases l with simp only [next] at hn
  | wake | enqueue | setAttr =>
    unfold State.start at hn
    split at hn <;> cases hn
    exact .inl ⟨rfl, rfl⟩
  | call c => exact .inl (callStep_frame hn)
  | callLink c target hint => exact .inl (callLink_frame hn)
  | sched h =>
    obtain ⟨pc', hmoves⟩ := hartStep_moves hn
    exact .inr ⟨h, pc', rfl, hmoves⟩
  | charge h delta =>
    split at hn
    · split at hn
      · cases hn
        exact .inl ⟨rfl, rfl⟩
      · contradiction
    · contradiction
  | requeue h target hint =>
    split at hn
    next u hpc =>
      split at hn
      · cases hn
        exact .inr ⟨h, _, rfl, rfl, .inl ⟨rfl, by rw [hpc]; rfl⟩, by rintro _ ⟨⟩⟩
      · rcases Option.map_eq_some_iff.mp hn with ⟨s₁, hl, rfl⟩
        obtain ⟨h1, h2⟩ := State.linkTask_frame hl
        exact .inr ⟨h, .idle, rfl, by rw [← h1]; rfl, .inl ⟨h2, by rw [hpc]; rfl⟩, by rintro _ ⟨⟩⟩
    · contradiction
  | boost h candidates | publish h | cancel h =>
    split at hn
    next u hpc =>
      cases hn
      exact .inr ⟨h, _, rfl, rfl, .inl ⟨rfl, by rw [hpc]; rfl⟩, fun _ ht => .inl (hpc ▸ ht)⟩
    · contradiction
  | suspend h yieldPenalty rtHead =>
    split at hn
    · cases hn
      exact .inr ⟨h, _, rfl, rfl, .inr rfl, by rintro _ ⟨⟩⟩
    · contradiction
  | block h nanosleep =>
    split at hn <;> first
      | contradiction
      | (rename_i hpc
         cases hn
         exact .inr ⟨h, _, rfl, rfl, .inr rfl, fun _ ht => .inl (hpc ▸ ht)⟩)

theorem next_frame (ha : l.agent ≠ .hart h) (hn : next s l = some s') :
    s'.pc h = s.pc h ∧ s'.current h = s.current h := by
  rcases next_moves hn with ⟨hpc, hcur⟩ | ⟨h', pc', hagent, hmoves⟩
  · rw [hpc, hcur]
    exact ⟨rfl, rfl⟩
  have hne : h ≠ h' := by
    rintro rfl
    exact ha hagent
  rw [hmoves.pc, update_of_ne hne]
  rcases hmoves.current with ⟨hcur, -⟩ | hcur <;> rw [hcur]
  · exact ⟨rfl, rfl⟩
  · exact ⟨rfl, update_of_ne hne _ _⟩

/-- A hart's `current` slot says what its position says. -/
def CurrentOk (s : State maxHarts) : Prop :=
  ∀ h, s.current h = (s.pc h).currentTask

theorem CurrentOk.next (hc : CurrentOk s) (hn : next s l = some s') : CurrentOk s' := by
  intro h
  rcases next_moves hn with ⟨hpc, hcur⟩ | ⟨h', pc', -, hmoves⟩
  · rw [hpc, hcur, hc h]
  rw [hmoves.pc]
  rcases eq_or_ne h h' with rfl | hh
  · rw [update_self]
    rcases hmoves.current with ⟨hcur, htask⟩ | hcur
    · rw [hcur, hc h, htask]
    · rw [hcur, update_self]
  · rw [update_of_ne hh, ← hc h]
    rcases hmoves.current with ⟨hcur, -⟩ | hcur <;> rw [hcur]
    rw [update_of_ne hh]

theorem next_commits (hn : next s l = some s') (hc : (s'.pc h).commits t = true) :
    (s.pc h).commits t = true ∨ (l = .sched h ∧ rqOf s l = some h) := by
  rcases next_moves hn with ⟨hpc, -⟩ | ⟨h', pc', -, hmoves⟩
  · rw [hpc] at hc
    exact .inl hc
  rw [hmoves.pc] at hc
  rcases eq_or_ne h h' with rfl | hh
  · rw [update_self] at hc
    exact hmoves.commits t hc
  · rw [update_of_ne hh] at hc
    exact .inl hc

/-- The runqueue a hart works on depends on its position only. -/
theorem rqOf_congr (ha : l.agent = .hart h) (hpc : s'.pc h = s.pc h) : rqOf s' l = rqOf s l := by
  cases l with
  | sched h' | requeue h' target hint | boost h' candidates =>
    obtain rfl : h' = h := by simpa [Label.agent] using ha
    simp only [rqOf, hpc]
  | wake | enqueue | call | callLink | setAttr => exact absurd ha (by simp [Label.agent])
  | _ => rfl

/-- A hart in a section on a runqueue runs no task. -/
theorem currentTask_of_rqOf {r : Hart maxHarts} (ha : l.agent = .hart h)
    (hr : rqOf s l = some r) : (s.pc h).currentTask = none := by
  cases l with
  | sched h' | requeue h' target hint | boost h' candidates =>
    obtain rfl : h' = h := by simpa [Label.agent] using ha
    cases hpc : s.pc h' <;> simp_all [rqOf, HartPc.currentTask]
  | wake | enqueue | call | callLink | setAttr => exact absurd ha (by simp [Label.agent])
  | _ => exact absurd hr (by simp [rqOf])

end Frames

end CosmOS.Sched
