import CosmOS.Sched.Keeps

/-!
# The ownership invariant

Every step of the scheduler keeps `Inv`, if `remove_task` never clears `on_rq` of a task it did
not find (`RemovalsFind`), and with it the two other invariants of `Keeps`.  The moves of a hart
and of a call come first, then the steps in the order of `System`; `Inv.next` puts them together.
-/

namespace CosmOS.Sched

open Sched HartPc Keeps Advances RunQueue State

open Function

variable {maxHarts : ℕ} {tasks : Tid → Task maxHarts} {nanosleep : Bool}

/-! ## Moves of a hart -/

/-- The slots of the processors agree with the positions once hart `h` is at `pc'`. -/
structure Slots (s : State maxHarts) (h : Hart maxHarts) (pc' : HartPc)
    (current pending : Hart maxHarts → Option Tid) : Prop where
  current : ∀ h', current h' = (update s.pc h pc' h').currentTask
  pending : ∀ h', pending h' = (update s.pc h pc' h').pendingTask

section Harts

variable {s s' : State maxHarts} {h h₀ : Hart maxHarts} {pc pc' : HartPc} {u : Tid} {k m : Hold}
  {task : Task maxHarts} {current pending : Hart maxHarts → Option Tid} {published : Tid → ℕ}

section

variable (hi : Inv s) (hpc : s.pc h = pc)

include hi hpc

theorem Inv.sameSlots (hcur : pc'.currentTask = pc.currentTask)
    (hpend : pc'.pendingTask = pc.pendingTask) : Slots s h pc' s.current s.pending := by
  subst hpc
  constructor
  · intro h'
    rw [hi.current h', apply_update_of_eq currentTask hcur]
  · intro h'
    rw [hi.pending h', apply_update_of_eq pendingTask hpend]

theorem Inv.currentSlot (hpend : pc'.pendingTask = pc.pendingTask) :
    Slots s h pc' (update s.current h pc'.currentTask) s.pending := by
  subst hpc
  constructor
  · intro h'
    rw [apply_update (fun _ => currentTask)]
    exact congrArg (update · h pc'.currentTask h') (funext hi.current)
  · intro h'
    rw [hi.pending h', apply_update_of_eq pendingTask hpend]

theorem Inv.pendingSlot (hcur : pc'.currentTask = pc.currentTask) :
    Slots s h pc' s.current (update s.pending h pc'.pendingTask) := by
  subst hpc
  constructor
  · intro h'
    rw [hi.current h', apply_update_of_eq currentTask hcur]
  · intro h'
    rw [apply_update (fun _ => pendingTask)]
    exact congrArg (update · h pc'.pendingTask h') (funext hi.pending)

/-- A hart moves with the same task in its hands, or none. -/
theorem Inv.quiet (hold : pc'.hold = pc.hold)
    (hreq : ∀ t, pc.requeues t = true → pc'.requeues t = true ∨ s.alreadyOwned t)
    (hslots : Slots s h pc' current pending) :
    Keeps s { s with pc := update s.pc h pc', current := current, pending := pending } := by
  subst hpc
  refine of_advances ⟨?_, hi.keys, hslots.current, hslots.pending, hi.snaps⟩
    (of_status (fun _ => rfl) rfl rfl) rfl rfl
  intro t
  rcases hi.owned t with ⟨x, hx⟩
  exact ⟨x, hx.frame (Frame.ofHart rfl (fun _ => rfl) ⟨rfl, rfl, rfl⟩ rfl rfl (congrFun hold t) (hreq t))⟩

theorem Inv.take {rq' : RunQueue} {tasks' : Tid → Task maxHarts}
    (htakes : RunQueue.Takes (s.rqs h₀) s.tasks u rq' tasks') (hold : pc.hold = fun _ => .no)
    (hreq : pc.requeues = fun _ => false) (hold' : pc'.hold = fun t => if t = u then .popped else .no)
    (hslots : Slots s h pc' s.current s.pending) : Keeps s ((s.setRq h₀ rq' tasks').goto h pc') :=
  of_advances ⟨Owned.pop hi.owned htakes hpc (congrFun hold) (congrFun hreq) (congrFun hold'), htakes.keys hi.keys,
    hslots.current, hslots.pending, hi.snaps⟩ (of_status (fun t => (htakes.flags t).1) rfl
    rfl) rfl rfl

end

theorem RunQueue.OwnKeys.update_task (hk : RunQueue.OwnKeys tasks)
    (htask : task.cfsRqKey = (tasks u).cfsRqKey ∨ task.cfsRqKey = none) :
    RunQueue.OwnKeys (update tasks u task) := by
  refine ownKeys_update hk ?_
  intro k hkey
  rcases htask with hsame | hnone
  · exact hk u k (hsame ▸ hkey)
  · exact absurd hkey (by rw [hnone]; simp)

section

variable (hi : Inv s)
include hi

theorem Inv.inHand (hpc : s.pc h = pc)
    (hold : ∀ t, pc.hold t = if t = u then k else .no) (hk : k ≠ .no)
    (hold' : ∀ t, pc'.hold t = if t = u then m else .no) (hreq : ∀ t, pc.requeues t = false)
    (hflags : (m.owner h).Flags task)
    (hlost : m = .no → task.status = .runnable → pc'.requeues u = true)
    (hkey : task.cfsRqKey = (s.tasks u).cfsRqKey) (hslots : Slots s h pc' current pending) :
    Inv { s with
      tasks := update s.tasks u task
      pc := update s.pc h pc'
      current := current
      pending := pending
      published := published } :=
  ⟨Owned.inHand hi.owned hpc hold hk hold' hreq hflags hlost, hi.keys.update_task (.inl hkey),
    hslots.current, hslots.pending, hi.snaps⟩

/-- Hart `h` updates the task on its CPU and keeps it there. -/
theorem Inv.onCpu (hpc : s.pc h = pc)
    (hs' : s' = { s with
      tasks := update s.tasks u task
      pc := update s.pc h pc'
      current := current
      pending := pending
      published := published })
    (hold : pc.hold = fun t => if t = u then .cpu else .no)
    (hold' : pc'.hold = fun t => if t = u then .cpu else .no) (hreq : pc.requeues = fun _ => false)
    (hrq : task.onRq = false ∨ task.onRq = (s.tasks u).onRq)
    (hcpu : task.onCpu = true ∨ task.onCpu = (s.tasks u).onCpu)
    (hkey : task.cfsRqKey = (s.tasks u).cfsRqKey) (hslots : Slots s h pc' current pending)
    (hadv : Advances s s') : Keeps s s' := by
  subst hs'
  have hon : (s.pc h).hold u = .cpu := by
    rw [hpc, hold]
    exact if_pos rfl
  have hflags := Owned.cpu_flags hi.owned hon
  have hflags' : (Owner.cpu h).Flags task := by
    constructor
    · rcases hrq with hr | hr
      · exact hr
      · rw [hr, hflags.1]
    · rcases hcpu with hc | hc
      · exact hc
      · rw [hc, hflags.2]
  exact of_advances (hi.inHand hpc (congrFun hold) (by decide) (congrFun hold') (congrFun hreq)
    hflags' (by simp) hkey hslots) hadv rfl rfl

theorem Inv.admitted_of_hold (hold : (s.pc h).hold u ≠ .no) : s.admitted u = true := by
  rcases hi.owned u with ⟨x, hx⟩
  refine hx.admitted ?_
  rintro rfl
  rw [hx.hold h] at hold
  exact hold rfl

section

variable (hpc : s.pc h = pc) (hold : pc.hold = fun t => if t = u then .popped else .no)
  (hreq : pc.requeues = fun _ => false)

include hpc hold hreq

/-- A popped task that is runnable goes to the CPU. -/
theorem Inv.accept {vruntimeNs : ℕ} (hslots : Slots s h (.picked u) s.current s.pending) :
    Keeps s ((s.setTask u { s.tasks u with
      onRq := false, onCpu := true, lastCpu := h, vruntimeNs := vruntimeNs }).goto h (.picked u)) :=
  of_advances (hi.inHand hpc (congrFun hold) (by decide) (fun _ => rfl) (congrFun hreq) ⟨rfl, rfl⟩
    (by simp) rfl hslots) (of_awake rfl rfl (fun _ => id) (.inl rfl)) rfl rfl

theorem Inv.drop (hold' : pc'.hold = fun _ => .no)
    (hslots : Slots s h pc' s.current s.pending) (hrun : (s.tasks u).status ≠ .runnable) :
    Keeps s ((s.setTask u { s.tasks u with onRq := false }).goto h pc') := by
  refine of_advances (hi.inHand (m := .no) hpc (congrFun hold) (by decide) ?_ (congrFun hreq) ?_ ?_ rfl hslots)
    (of_awake rfl rfl (fun _ => id) (.inl rfl)) rfl rfl
  · intro t
    rw [hold', ite_self]
  · have hpopped : (s.pc h).hold u = .popped := by
      rw [hpc, hold]
      exact if_pos rfl
    rcases hi.owned u with ⟨x, hx⟩
    obtain rfl : x = .popped h := Owner.hold_popped (hx.hold h ▸ hpopped)
    exact hx.flags.imp_right fun hf => ⟨rfl, hf.2⟩
  · intro _ hr
    exact absurd hr hrun

end

/-! ## Steps of a hart -/

theorem Inv.blocking (hpc : s.pc h = .blocking u nanosleep)
    (hn : hartStep s h = some s') : Keeps s s' := by
  simp only [hartStep, hpc] at hn
  split at hn
  · cases hn
    exact hi.onCpu hpc rfl rfl rfl rfl (.inl rfl) (.inl rfl) rfl
      (hi.sameSlots hpc rfl rfl) (of_awake rfl rfl (fun _ => id) (.inr (.inl rfl)))
  · cases hn
    have hadm : s.admitted u = true := hi.admitted_of_hold (h := h) (by simp [hpc, hold])
    refine hi.onCpu hpc rfl rfl ?_ rfl (.inl rfl) (.inr rfl) rfl
      (hi.sameSlots hpc ?_ ?_) (of_publish hadm rfl rfl rfl rfl ?_)
    · split <;> rfl
    · split <;> rfl
    · split <;> rfl
    · split
      · exact .inr ⟨rfl, ‹_›⟩
      · exact .inl rfl

theorem Inv.releasing (hpc : s.pc h = .releasing u) (hn : hartStep s h = some s') : Keeps s s' := by
  simp only [hartStep, hpc] at hn
  cases hn
  refine of_advances (hi.inHand (m := .no) hpc (fun _ => rfl) (by decide) ?_
    (fun _ => rfl) (.inr ⟨rfl, rfl⟩) ?_ rfl (hi.sameSlots hpc ?_ ?_))
    (of_awake rfl rfl (fun _ => id) (.inl rfl)) rfl rfl
  · intro t
    split <;> rw [ite_self] <;> rfl
  · intro _ hr
    rw [if_pos hr]
    simp [requeues]
  · split <;> rfl
  · split <;> rfl

theorem Inv.requeueing (hpc : s.pc h = .requeueing u)
    (hn : hartStep s h = some s') : Keeps s s' := by
  simp only [hartStep, hpc] at hn
  cases hn
  refine hi.quiet hpc ?_ ?_ (hi.sameSlots hpc ?_ ?_)
  · split <;> rfl
  · intro t hr
    have htu : t = u := by simpa [requeues] using hr
    subst htu
    split
    · exact .inr ‹_›
    · exact .inl hr
  · split <;> rfl
  · split <;> rfl

theorem Inv.hartStep (hn : hartStep s h = some s') : Keeps s s' := by
  have hstep := hn
  cases hpc : s.pc h with simp only [Sched.hartStep, hpc] at hn
  | idle =>
    split at hn
    next t rq tasks hd =>
      cases hn
      exact hi.take hpc (dequeue_takes hd) rfl rfl rfl (hi.sameSlots hpc rfl rfl)
    · cases hn
      exact hi.quiet hpc rfl nofun (hi.sameSlots hpc rfl rfl)
  | stealing source =>
    split at hn
    · split at hn
      · cases hn
        exact hi.quiet hpc rfl nofun (hi.sameSlots hpc rfl rfl)
      split at hn
      next t rq tasks hd =>
        cases hn
        obtain ⟨e, -, he⟩ := Option.bind_eq_some_iff.mp hd
        exact hi.take hpc (removeCfsByKey_takes he).1 rfl rfl rfl (hi.sameSlots hpc rfl rfl)
      · cases hn
        exact hi.quiet hpc rfl nofun (hi.sameSlots hpc rfl rfl)
    · cases hn
      exact hi.quiet hpc rfl nofun (hi.sameSlots hpc rfl rfl)
  | popped t | stolenMin t source targetMin =>
    split at hn
    · cases hn
      exact hi.accept hpc rfl rfl (hi.sameSlots hpc rfl rfl)
    next hrun =>
      cases hn
      exact hi.drop hpc rfl rfl rfl (hi.sameSlots hpc rfl rfl) hrun
  | stolen t source =>
    cases hn
    exact hi.quiet hpc rfl nofun (hi.sameSlots hpc rfl rfl)
  | picked t =>
    cases hn
    exact hi.onCpu hpc rfl rfl rfl rfl (.inl rfl) (.inl rfl) rfl
      (hi.currentSlot hpc rfl) (of_awake rfl rfl (fun _ => id) (.inr (.inl rfl)))
  | suspending t yieldPenalty rtHead =>
    cases hn
    refine hi.onCpu hpc rfl rfl rfl rfl (.inl ?_) (.inr ?_) ?_
      (hi.sameSlots hpc rfl rfl) (of_awake rfl rfl (fun _ => id) ?_)
    · split <;> rfl
    · split <;> rfl
    · split <;> rfl
    · split
      · exact .inl rfl
      · exact .inr (.inr rfl)
  | blocking t nanosleep => exact hi.blocking hpc hstep
  | releasing t => exact hi.releasing hpc hstep
  | requeueing t => exact hi.requeueing hpc hstep
  | restoring t =>
    cases hn
    exact hi.quiet hpc rfl nofun (hi.currentSlot hpc rfl)
  | deferring t =>
    cases hn
    exact hi.quiet hpc rfl nofun (hi.pendingSlot hpc rfl)
  | switching t =>
    have hpend : s.pending h = some t := (hi.pending h).trans (by rw [hpc]; rfl)
    simp only [hpend] at hn
    cases hn
    exact hi.quiet hpc rfl nofun (hi.pendingSlot hpc rfl)
  | running t | prepared t | boosting t | requeueLinking t | exiting t | exited => contradiction

end

end Harts

/-! ## Moves of a call -/

def Call.isWakeup : Call maxHarts → Bool
  | .wake .. | .resolve .. | .waitSwitch .. | .panicked .. | .repairScan .. | .linkWoken .. => true
  | _ => false

section Calls

variable {s s' : State maxHarts} {c : CallId} {call : Call maxHarts} {t : Tid} {epoch : ℕ}
  {task : Task maxHarts}

/-- A wakeup has unlinked nothing and requeues nothing. -/
theorem Call.plain_of_isWakeup (hw : call.isWakeup = true) :
    (∀ t, call.limbo t = false) ∧ (∀ t, call.requeues t = false) ∧ call.SnapOk ∧
      call.isAttr = false := by
  cases call with
  | wake | resolve | waitSwitch | panicked | repairScan | linkWoken =>
    exact ⟨fun _ => rfl, fun _ => rfl, trivial, rfl⟩
  | _ => contradiction

theorem Inv.moveCall (call' : Option (Call maxHarts)) (hi : Inv s)
    (hlimbo : ∀ t, (s.calls c).any (·.limbo t) = false)
    (hlimbo' : ∀ t, call'.any (·.limbo t) = false)
    (hreq : ∀ t, (s.calls c).any (·.requeues t) = true →
      call'.any (·.requeues t) = true ∨ s.alreadyOwned t)
    (hsnap : ∀ call, call' = some call → call.SnapOk) (woken : Tid → ℕ) :
    Inv { s with calls := update s.calls c call', woken := woken } := by
  refine ⟨?_, hi.keys, hi.current, hi.pending, forall_calls_update hi.snaps hsnap⟩
  intro t
  rcases hi.owned t with ⟨x, hx⟩
  exact ⟨x, hx.frame (Frame.ofCall rfl (fun _ => rfl) ⟨rfl, rfl, rfl⟩ rfl rfl
    (by rw [hlimbo t, hlimbo' t]) (hreq t))⟩

variable {call' : Call maxHarts} {h target hart : Hart maxHarts} {change : AttrChange maxHarts}
  {snap : Snapshot maxHarts} {hint : Option ℕ} {status : TaskStatus}

section

variable (hi : Inv s) (hcall : s.calls c = some call)

include hi hcall

theorem Inv.become (hlimbo : call.limbo = fun _ => false) (hlimbo' : call'.limbo = fun _ => false)
    (hreq : ∀ t, call.requeues t = true → call'.requeues t = true) (hsnap : call'.SnapOk)
    (hepoch : call.EpochOk s → call'.EpochOk s) (hattr : call.isAttr = false → call'.isAttr = false) :
    Keeps s (s.become c call') := by
  refine ⟨hi.moveCall (some call') ?_ (congrFun hlimbo') ?_ (by simpa using hsnap) s.woken, ?_, ?_⟩
  · intro u
    rw [hcall]
    exact congrFun hlimbo u
  · intro u hr
    rw [hcall] at hr
    exact .inl (hreq u hr)
  · intro hw
    exact hw.moveCall (by simpa using hepoch (hw.epoch c call hcall))
  · intro hna
    exact forall_calls_update hna (by simpa using hattr (hna c call hcall))

theorem Inv.becomeWakeup (hw : call.isWakeup = true)
    (hw' : call'.isWakeup = true) (hepoch : call.EpochOk s → call'.EpochOk s) :
    Keeps s (s.become c call') := by
  obtain ⟨hlimbo, hreq, -, -⟩ := Call.plain_of_isWakeup hw
  obtain ⟨hlimbo', -, hsnap, hattr⟩ := Call.plain_of_isWakeup hw'
  exact hi.become hcall (funext hlimbo) (funext hlimbo') (by simp [hreq]) hsnap hepoch fun _ => hattr

/-- A call returns; if it was to requeue a task, it found it owned. -/
theorem Inv.ret (hlimbo : call.limbo = fun _ => false)
    (hreq : ∀ t, call.requeues t = true → s.alreadyOwned t) : Keeps s (s.ret c) := by
  refine ⟨hi.moveCall none ?_ (fun _ => rfl) ?_ (by simp) s.woken, fun hw => hw.moveCall (by simp),
    fun hna => forall_calls_update hna (by simp)⟩
  · intro u
    rw [hcall]
    exact congrFun hlimbo u
  · intro u hr
    rw [hcall] at hr
    exact .inr (hreq u hr)

theorem Inv.retWake (hw : call.isWakeup = true) (hle : call.EpochOk s → epoch ≤ s.published t)
    (hawake : call.EpochOk s → (s.tasks t).status.isSleeping = true → epoch < s.published t) :
    Keeps s (s.retWake c t epoch) := by
  obtain ⟨hlimbo, hreq, -, -⟩ := Call.plain_of_isWakeup hw
  refine ⟨hi.moveCall none ?_ (fun _ => rfl) ?_ (by simp) _, ?_,
    fun hna => forall_calls_update hna (by simp)⟩
  · intro u
    rw [hcall]
    exact hlimbo u
  · intro u hr
    rw [hcall] at hr
    exact absurd hr (by simp [hreq u])
  · intro hwake
    have hepoch := hwake.epoch c call hcall
    exact hwake.retWake (hle hepoch) (hawake hepoch)

end

theorem Inv.setTask (hi : Inv s) (hflags : ∀ x, Owned s t x → x.Flags task)
    (hrun : Owned s t .nobody → task.status = .runnable → (s.tasks t).status = .runnable)
    (hkey : task.cfsRqKey = (s.tasks t).cfsRqKey ∨ task.cfsRqKey = none)
    (hstatus : task.status = (s.tasks t).status ∨ task.status = .running ∨ task.status = .runnable) :
    Keeps s (s.setTask t task) :=
  of_advances ⟨Owned.setTask hi.owned hflags hrun, hi.keys.update_task hkey, hi.current,
    hi.pending, hi.snaps⟩ (of_awake rfl rfl (fun _ => id) hstatus) rfl rfl

theorem Inv.setFields (hi : Inv s)
    (hsame : task.status = (s.tasks t).status ∧ task.onCpu = (s.tasks t).onCpu ∧
      task.onRq = (s.tasks t).onRq)
    (hkey : task.cfsRqKey = (s.tasks t).cfsRqKey ∨ task.cfsRqKey = none) :
    Keeps s (s.setTask t task) :=
  hi.setTask (fun _ hx => hx.flags.congr hsame) (fun _ hr => hsame.1 ▸ hr) hkey (.inl hsame.1)

theorem TaskStatus.ne_zombie_of_isSleeping (h : status.isSleeping = true) : status ≠ .zombie := by
  intro hz
  rw [hz] at h
  exact absurd h (by decide)

/-- A sleeping task that somebody owns may be marked runnable. -/
theorem Inv.markTaskWoken (hi : Inv s) (hsleep : (s.tasks t).status.isSleeping = true)
    (howned : (s.tasks t).onRq = true ∨ (s.tasks t).onCpu = true) :
    Keeps s (s.markTaskWoken t) := by
  have hnz := TaskStatus.ne_zombie_of_isSleeping hsleep
  refine hi.setTask ?_ ?_ (.inl rfl) (.inr (.inr rfl))
  · intro x hx
    have hf := hx.flags
    cases x with
    | cpu h => exact hf
    | nobody | rq h | popped h | limbo c =>
      rcases hf with hz | hf
      · exact absurd hz hnz
      · exact .inr hf
  · intro hx _
    rcases hx.flags with hz | ⟨hrq, hcpu⟩
    · exact absurd hz hnz
    · simp [hrq, hcpu] at howned

theorem Inv.markRet (hi : Inv s) (hcall : s.calls c = some call) (hw : call.isWakeup = true)
    (hle : ∀ {s : State maxHarts}, call.EpochOk s → epoch ≤ s.published t)
    (hsleep : (s.tasks t).status.isSleeping = true)
    (howned : (s.tasks t).onRq = true ∨ (s.tasks t).onCpu = true) :
    Keeps s ((s.markTaskWoken t).retWake c t epoch) := by
  have hmark := hi.markTaskWoken hsleep howned
  refine hmark.trans (hmark.inv.retWake hcall hw hle ?_)
  intro _ hsleep'
  rw [State.markTaskWoken, State.setTask_tasks_self] at hsleep'
  contradiction

/-- The current task of a hart is on its CPU. -/
theorem Inv.onCpu_of_current (hi : Inv s) (hcur : s.current h = some t) :
    (s.pc h).hold t = .cpu := by
  have hc : (s.pc h).currentTask = some t := (hi.current h).symm.trans hcur
  cases hpc : s.pc h with rw [hpc] at hc
  | running u | prepared u =>
    cases hc
    exact if_pos rfl
  | _ =>
    contradiction

/-! ## Steps of a call -/

theorem not_isSleeping_of_eq {P : Prop} (h : (s.tasks t).status = status)
    (hs : status.isSleeping = false) (hsleep : (s.tasks t).status.isSleeping = true) : P := by
  rw [h, hs] at hsleep
  contradiction

theorem Inv.wakeStep (hi : Inv s)
    (hcall : s.calls c = some (.wake t hart epoch)) : Keeps s (wakeStep s c t hart epoch) := by
  cases hstatus : (s.tasks t).status with simp only [Sched.wakeStep, hstatus]
  | interruptible | uninterruptible =>
    split
    next hrq =>
      exact hi.markRet hcall rfl id (by rw [hstatus]; rfl) (.inl hrq)
    · split <;> exact hi.becomeWakeup hcall rfl rfl id
  | runnable =>
    split
    · exact hi.retWake hcall rfl id fun _ => not_isSleeping_of_eq hstatus rfl
    · exact hi.becomeWakeup hcall rfl rfl fun he => ⟨he, not_isSleeping_of_eq hstatus rfl⟩
  | running | zombie =>
    exact hi.retWake hcall rfl id fun _ => not_isSleeping_of_eq hstatus rfl

theorem Inv.resolveStep {lastCpu : Hart maxHarts} (hi : Inv s)
    (hcall : s.calls c = some (.resolve t hart lastCpu epoch)) :
    Keeps s (resolveStep s c t hart lastCpu epoch) := by
  simp only [Sched.resolveStep]
  split
  next hawake =>
    exact hi.retWake hcall rfl id fun _ hsleep => absurd hsleep (by rw [hawake]; decide)
  rename_i hsleep
  rw [Bool.not_eq_false] at hsleep
  split
  next hrq =>
    exact hi.markRet hcall rfl id hsleep (.inl hrq)
  split
  next hcur =>
    have hcpu := (Owned.cpu_flags hi.owned (hi.onCpu_of_current hcur)).2
    exact hi.markRet hcall rfl id hsleep (.inr hcpu)
  · split
    · split
      · exact hi.becomeWakeup hcall rfl rfl fun _ => trivial
      · exact hi.becomeWakeup hcall rfl rfl id
    · exact hi.becomeWakeup hcall rfl rfl id

/-- `remove_task` never clears `on_rq` of a task it did not find. -/
def RemovalsFind (s : State maxHarts) : Label maxHarts → Prop
  | .call c =>
    match s.calls c with
    | some (.attrFinal t _ _ false) => (s.tasks t).onRq = false
    | _ => True
  | _ => True

instance (s : State maxHarts) (l : Label maxHarts) : Decidable (RemovalsFind s l) := by
  unfold RemovalsFind
  induction l using Label.casesOn <;> dsimp only
  case call c =>
    generalize s.calls c = call
    rcases call with _ | call
    · infer_instance
    induction call using Call.casesOn
    case attrFinal t _ _ onRq => induction onRq using Bool.casesOn <;> infer_instance
    all_goals infer_instance
  all_goals infer_instance

theorem AttrChange.update_flags (change : AttrChange maxHarts) (snap : Snapshot maxHarts)
    (task : Task maxHarts) :
    ((change.update snap task).status = task.status ∧ (change.update snap task).onCpu = task.onCpu ∧
      (change.update snap task).onRq = task.onRq) ∧
    ((change.update snap task).cfsRqKey = task.cfsRqKey ∨
      (change.update snap task).cfsRqKey = none) := by
  cases change with
  | setscheduler policy prio | schedAttr policy prio weight =>
    cases policy <;> simp [AttrChange.update]
  | setpriority weight | setaffinity mask => simp [AttrChange.update]

section

variable (hi : Inv s)

include hi

/-- A step of an attribute change that moves a task. -/
theorem Keeps.of_attr {rqs : Hart maxHarts → RunQueue}
    (hcall : s.calls c = some call) (hattr : call.isAttr = true)
    (hstatus : ∀ t, (tasks t).status = (s.tasks t).status)
    (hepoch : ∀ {s : State maxHarts}, call'.EpochOk s) (hsnap : call'.SnapOk)
    (howned : ∀ t, ∃ x, Owned { s with tasks := tasks, rqs := rqs, calls := update s.calls c (some call') } t x)
    (hkeys : RunQueue.OwnKeys tasks) :
    Keeps s { s with tasks := tasks, rqs := rqs, calls := update s.calls c (some call') } := by
  refine ⟨⟨howned, hkeys, hi.current, hi.pending, forall_calls_update hi.snaps (by simpa using hsnap)⟩,
    ?_, ?_⟩
  · intro hw
    have hadv : Advances s { s with tasks := tasks, rqs := rqs } := of_status hstatus rfl rfl
    exact (hw.advance hadv rfl rfl).moveCall (by simpa using hepoch)
  · intro hna
    exact absurd (hna c call hcall) (by rw [hattr]; decide)

theorem Inv.attrScan {source : ℕ}
    (hcall : s.calls c = some (.attrScan t change snap source)) (hn : callStep s c = some s') :
    Keeps s s' := by
  have hsnap : snap.wasOnRq = true := hi.snaps c _ hcall
  simp only [callStep, hcall] at hn
  split at hn
  · split at hn
    next rq tasks hr =>
      cases hn
      have htakes := removeTask_takes hi.keys hr
      exact of_attr hi hcall rfl (fun t => (htakes.flags t).1) trivial hsnap
        (Owned.unlinkByCall hi.owned htakes hcall (fun _ => rfl) (fun _ => rfl) (fun _ => rfl))
        (htakes.keys hi.keys)
    · cases hn
      exact hi.become hcall rfl rfl nofun hsnap id id
  · cases hn
    exact hi.become hcall rfl rfl nofun hsnap id id

theorem Inv.attrFinal {found : Bool}
    (hcall : s.calls c = some (.attrFinal t change snap found)) (hok : RemovalsFind s (.call c)) :
    Keeps s ((s.setTask t { s.tasks t with onRq := false, cfsRqKey := none }).become c
      (.attrUpdate t change snap)) := by
  have hsnap : snap.wasOnRq = true := hi.snaps c _ hcall
  cases found with
  | true =>
    refine of_attr hi hcall rfl ?_ trivial trivial
      (Owned.settleByCall hi.owned rfl rfl rfl hcall (fun _ => rfl) (fun _ => rfl) (fun _ => rfl)
        (by simp [Call.requeues, hsnap])) (hi.keys.update_task (.inr rfl))
    intro u
    exact apply_update_of_eq Task.status (by rfl) u
  | false =>
    have hrq : (s.tasks t).onRq = false := by simpa only [RemovalsFind, hcall] using hok
    have hset : Keeps s (s.setTask t { s.tasks t with onRq := false, cfsRqKey := none }) :=
      hi.setFields ⟨rfl, rfl, hrq.symm⟩ (.inr rfl)
    exact hset.trans (hset.inv.become hcall rfl rfl nofun
      trivial id id)

theorem Inv.attrUpdate (hcall : s.calls c = some (.attrUpdate t change snap))
    (hn : callStep s c = some s') : Keeps s s' := by
  obtain ⟨hsame, hkey⟩ := change.update_flags snap (s.tasks t)
  have hset := hi.setFields hsame hkey
  simp only [callStep, hcall] at hn
  cases hn
  refine hset.trans ?_
  split
  · exact hset.inv.become hcall rfl rfl (by simp [Call.requeues]) trivial id
      fun _ => rfl
  rename_i hwas
  have hno : ∀ u, (Call.attrUpdate t change snap).requeues u = false := by
    intro u
    simp [Call.requeues, hwas]
  split
  · exact hset.inv.become hcall rfl rfl (by simp [hno]) trivial id id
  · exact hset.inv.ret hcall rfl (by simp [hno])

theorem Inv.callStep (hok : RemovalsFind s (.call c))
    (hn : callStep s c = some s') : Keeps s s' := by
  cases hcall : s.calls c with
  | none =>
    simp only [Sched.callStep, hcall] at hn
    contradiction
  | some call =>
    have hstep := hn
    cases call with simp only [Sched.callStep, hcall] at hn
    | wake t hart epoch =>
      cases hn
      exact hi.wakeStep hcall
    | resolve t hart lastCpu epoch =>
      cases hn
      exact hi.resolveStep hcall
    | waitSwitch t epoch =>
      split at hn
      · contradiction
      · cases hn
        exact hi.becomeWakeup hcall rfl rfl id
    | repairScan t source epoch =>
      split at hn
      · split at hn
        · cases hn
          exact hi.retWake hcall rfl And.left And.right
        · cases hn
          exact hi.becomeWakeup hcall rfl rfl id
      · cases hn
        exact hi.becomeWakeup hcall rfl rfl And.left
    | enqueue t =>
      cases hn
      split
      next howned =>
        refine hi.ret hcall rfl ?_
        intro u hr
        have hut : u = t := by simpa [Call.requeues] using hr
        exact hut ▸ howned
      · exact hi.become hcall rfl rfl (by simp [Call.requeues]) trivial id id
    | attr t change =>
      cases hn
      split
      · exact hi.ret hcall rfl nofun
      · split
        next hrq =>
          exact hi.become hcall rfl rfl nofun hrq id id
        · exact hi.become hcall rfl rfl nofun trivial id id
    | attrScan t change snap source => exact hi.attrScan hcall hstep
    | attrFinal t change snap found =>
      cases hn
      exact hi.attrFinal hcall hok
    | attrUpdate t change snap => exact hi.attrUpdate hcall hstep
    | attrHead t =>
      cases hn
      have hset : Keeps s (s.setTask t { s.tasks t with rtEnqueueHead := true }) :=
        hi.setFields ⟨rfl, rfl, rfl⟩ (.inl rfl)
      exact hset.trans (hset.inv.ret hcall rfl nofun)
    | linkWoken t epoch | link t | panicked t => contradiction

/-! ## Linking sections -/

/-- Linking keeps the invariants; afterwards the task is runnable and owned. -/
theorem Inv.linkTask (hrq : (s.tasks t).onRq = false) (hcpu : (s.tasks t).onCpu = false)
    (hnz : (s.tasks t).status ≠ .zombie) (hl : s.linkTask t target hint = some s') :
    Keeps s s' ∧ s'.alreadyOwned t ∧ (s'.tasks t).status = .runnable ∧ s'.calls = s.calls ∧
      s'.pc = s.pc := by
  have howned := Owned.linkTask hi.owned hrq hcpu hnz hl
  rcases linkTask_spec hl with ⟨rq', task', rfl, -, hstatus, hrq', -, hkey⟩
  refine ⟨of_advances ⟨howned, ?_, hi.current, hi.pending, hi.snaps⟩
    (of_awake rfl rfl ?_ (.inr (.inr hstatus))) rfl rfl, .inl ?_, ?_, rfl, rfl⟩
  · refine ownKeys_update hi.keys ?_
    intro k hk
    rcases hkey k hk with hold | hnew
    · exact hi.keys t k hold
    · exact hnew
  · intro u hu
    rcases eq_or_ne u t with rfl | hut
    · exact update_self _ _ _
    · exact (update_of_ne hut _ _).trans hu
  · simp [setRq, hrq']
  · simp [setRq, hstatus]

end

theorem State.not_alreadyOwned_iff : ¬ s.alreadyOwned t ↔
    (s.tasks t).onRq = false ∧ (s.tasks t).onCpu = false ∧ (s.tasks t).status ≠ .zombie := by
  simp [alreadyOwned]

section

variable (hi : Inv s)
include hi

/-- A task that is neither queued nor on a CPU is linked and the wakeup returns. -/
theorem Inv.linkWoken (hcall : s.calls c = some (.linkWoken t epoch))
    (hfree : ¬ ((s.tasks t).onRq || (s.tasks t).onCpu) = true) (hnz : (s.tasks t).status ≠ .zombie)
    (hn : ((s.linkTask t target hint).map fun s' => s'.retWake c t epoch) = some s') :
    Keeps s s' := by
  simp only [Bool.or_eq_true, not_or, Bool.not_eq_true] at hfree
  rcases Option.map_eq_some_iff.mp hn with ⟨s₁, hl, rfl⟩
  obtain ⟨hk, -, hrun, hcalls, -⟩ := hi.linkTask hfree.1 hfree.2 hnz hl
  exact hk.trans (hk.inv.retWake (by rw [hcalls, hcall]) rfl id
    fun _ => not_isSleeping_of_eq hrun rfl)

theorem Inv.callLink (hn : callLink s c target hint = some s') : Keeps s s' := by
  cases hcall : s.calls c with
  | none =>
    simp only [Sched.callLink, hcall] at hn
    contradiction
  | some call =>
    cases call with
    | linkWoken t epoch =>
      simp only [Sched.callLink, hcall] at hn
      cases hstatus : (s.tasks t).status with simp only [hstatus] at hn
      | running | zombie =>
        cases hn
        exact hi.retWake hcall rfl id fun _ => not_isSleeping_of_eq hstatus rfl
      | runnable =>
        split at hn
        · cases hn
          exact hi.retWake hcall rfl id fun _ => not_isSleeping_of_eq hstatus rfl
        next hfree =>
          exact hi.linkWoken hcall hfree (by rw [hstatus]; decide) hn
      | interruptible | uninterruptible =>
        split at hn
        next hflags =>
          rw [Bool.or_eq_true] at hflags
          cases hn
          exact hi.markRet hcall rfl id (by rw [hstatus]; rfl) hflags
        next hfree =>
          exact hi.linkWoken hcall hfree (by rw [hstatus]; decide) hn
    | link t =>
      have htask : ∀ u, (Call.link t : Call maxHarts).requeues u = true → u = t := by
        intro u hr
        simpa [Call.requeues] using hr
      simp only [Sched.callLink, hcall] at hn
      split at hn
      next howned =>
        cases hn
        exact hi.ret hcall rfl (fun u hr => htask u hr ▸ howned)
      next hfree =>
        rcases Option.map_eq_some_iff.mp hn with ⟨s₁, hl, rfl⟩
        obtain ⟨hrq, hcpu, hnz⟩ := not_alreadyOwned_iff.mp hfree
        obtain ⟨hk, howned, -, hcalls, -⟩ := hi.linkTask hrq hcpu hnz hl
        exact hk.trans (hk.inv.ret (by rw [hcalls, hcall]) rfl (fun u hr => htask u hr ▸ howned))
    | _ =>
      simp only [Sched.callLink, hcall] at hn
      contradiction

theorem Inv.requeue (hn : next s (.requeue h target hint) = some s') : Keeps s s' := by
  -- Once the task is owned the hart may forget about it.
  have hforget : ∀ {s₁ : State maxHarts} {u : Tid}, Inv s₁ → s₁.pc h = .requeueLinking u →
      s₁.alreadyOwned u → Keeps s₁ (s₁.goto h .idle) := by
    intro s₁ u hi₁ hpc howned
    refine hi₁.quiet hpc rfl ?_ (hi₁.sameSlots hpc rfl rfl)
    intro t' hr
    have htu : t' = u := by simpa [requeues] using hr
    exact .inr (htu ▸ howned)
  simp only [next] at hn
  split at hn
  next u hpc =>
    split at hn
    next howned =>
      cases hn
      exact hforget hi hpc howned
    next hfree =>
      rcases Option.map_eq_some_iff.mp hn with ⟨s₁, hl, rfl⟩
      obtain ⟨hrq, hcpu, hnz⟩ := not_alreadyOwned_iff.mp hfree
      obtain ⟨hk, howned, -, -, hpcs⟩ := hi.linkTask hrq hcpu hnz hl
      exact hk.trans (hforget hk.inv (by rw [hpcs, hpc]) howned)
  · contradiction

/-! ## The running task -/

theorem Inv.boost {candidates : List Tid} (hn : next s (.boost h candidates) = some s') :
    Keeps s s' := by
  simp only [next] at hn
  split at hn
  next u hpc =>
    cases hn
    have hr := boostProcessCfsTasks_rekeys (s.rqs h) s.tasks candidates
      (Owned.linkCount_le_one hi.owned h)
    have hk : Keeps s (s.setRq h ((s.rqs h).boostProcessCfsTasks s.tasks candidates).1
        ((s.rqs h).boostProcessCfsTasks s.tasks candidates).2) :=
      of_advances ⟨Owned.rekeys hi.owned hr, hr.keys hi.keys, hi.current, hi.pending,
        hi.snaps⟩ (of_status (fun t => (hr.flags t).1) rfl rfl) rfl rfl
    exact hk.trans (hk.inv.quiet hpc rfl nofun (hk.inv.sameSlots hpc rfl rfl))
  · contradiction

theorem Inv.charge {delta : ℕ} (hn : next s (.charge h delta) = some s') : Keeps s s' := by
  simp only [next] at hn
  split at hn
  · split at hn
    · cases hn
      exact hi.setFields ⟨rfl, rfl, rfl⟩ (.inl rfl)
    · contradiction
  · contradiction

theorem Inv.publish (hn : next s (.publish h) = some s') : Keeps s s' := by
  simp only [next] at hn
  split at hn
  next u hpc =>
    cases hn
    have hadm : s.admitted u = true := hi.admitted_of_hold (h := h) (by simp [hpc, hold])
    exact hi.onCpu hpc rfl rfl rfl rfl (.inr rfl) (.inr rfl) rfl
      (hi.sameSlots hpc rfl rfl) (of_publish hadm rfl rfl rfl rfl (.inl rfl))
  · contradiction

theorem Inv.cancel (hn : next s (.cancel h) = some s') : Keeps s s' := by
  simp only [next] at hn
  split at hn
  next u hpc =>
    cases hn
    split
    · exact hi.onCpu hpc rfl rfl rfl rfl (.inl rfl) (.inl rfl) rfl
        (hi.sameSlots hpc rfl rfl) (of_awake rfl rfl (fun _ => id) (.inr (.inl rfl)))
    · exact hi.onCpu hpc rfl rfl rfl rfl (.inr rfl) (.inr rfl) rfl
        (hi.sameSlots hpc rfl rfl) (of_awake rfl rfl (fun _ => id) (.inl rfl))
  · contradiction

theorem Inv.suspend {yieldPenalty : Bool} {rtHead : Option Bool}
    (hn : next s (.suspend h yieldPenalty rtHead) = some s') : Keeps s s' := by
  simp only [next] at hn
  split at hn
  next u hpc =>
    cases hn
    exact hi.quiet hpc rfl nofun (hi.currentSlot hpc rfl)
  · contradiction

theorem Inv.block (hn : next s (.block h nanosleep) = some s') : Keeps s s' := by
  simp only [next] at hn
  split at hn
  case h_1 u hpc | h_2 u hpc =>
    cases hn
    exact hi.quiet hpc rfl nofun (hi.currentSlot hpc rfl)
  case h_3 => contradiction

theorem Inv.start (hn : s.start c call = some s')
    (hlimbo : ∀ t, call.limbo t = false) (hsnap : call.SnapOk) (hepoch : call.EpochOk s) :
    Inv s' ∧ (WakeInv s → WakeInv s') ∧ (call.isAttr = false → NoAttr s → NoAttr s') := by
  unfold State.start at hn
  split at hn
  · contradiction
  rename_i hfree
  cases hn
  refine ⟨hi.moveCall (some call) ?_ hlimbo ?_ (by simpa using hsnap) s.woken, fun hw => hw.moveCall
    (by simpa using hepoch), fun hattr hna => forall_calls_update hna (by simpa using hattr)⟩
  · intro u
    rw [hfree]
    rfl
  · intro u hr
    rw [hfree] at hr
    contradiction

end

end Calls

section Runs

variable {s s' : State maxHarts} {l : Label maxHarts}

/-- Every step that meets `RemovalsFind` keeps the invariants, but for the start of an attribute
change. -/
theorem Inv.next_keeps (hi : Inv s) (hok : RemovalsFind s l) (hn : next s l = some s') :
    Inv s' ∧ (WakeInv s → WakeInv s') ∧
      ((∀ c t change, l ≠ .setAttr c t change) → NoAttr s → NoAttr s') := by
  have hkeeps : ∀ {s'}, Keeps s s' → Inv s' ∧ (WakeInv s → WakeInv s') ∧
      ((∀ c t change, l ≠ .setAttr c t change) → NoAttr s → NoAttr s') := by
    intro s' hk
    exact ⟨hk.inv, hk.wake, fun _ => hk.attr⟩
  cases l with
  | sched h => exact hkeeps (hi.hartStep hn)
  | requeue h target hint => exact hkeeps (hi.requeue hn)
  | boost h candidates => exact hkeeps (hi.boost hn)
  | charge h delta => exact hkeeps (hi.charge hn)
  | suspend h yieldPenalty rtHead => exact hkeeps (hi.suspend hn)
  | publish h => exact hkeeps (hi.publish hn)
  | cancel h => exact hkeeps (hi.cancel hn)
  | block h nanosleep => exact hkeeps (hi.block hn)
  | call c => exact hkeeps (hi.callStep hok hn)
  | callLink c target hint => exact hkeeps (hi.callLink hn)
  | wake c t h =>
    obtain ⟨hi', hw, hna⟩ := hi.start hn (fun _ => rfl) trivial le_rfl
    exact ⟨hi', hw, fun _ => hna rfl⟩
  | enqueue c t =>
    obtain ⟨hi', hw, hna⟩ := hi.start hn (fun _ => rfl) trivial trivial
    exact ⟨hi', hw, fun _ => hna rfl⟩
  | setAttr c t change =>
    obtain ⟨hi', hw, -⟩ := hi.start hn (fun _ => rfl) trivial trivial
    exact ⟨hi', hw, fun hne => absurd rfl (hne c t change)⟩

theorem Inv.init (h₀ : s.IsInitial) : Inv s := by
  refine ⟨?_, ?_, ?_, ?_, ?_⟩
  · intro t
    obtain ⟨-, hcpu, hrq, -⟩ := h₀.tasks t
    refine ⟨.nobody, ?_, ?_, ?_, .inr ⟨hrq, hcpu⟩, by simp, ?_⟩
    · intro h
      rw [h₀.rqs h, linkCount_new]
      rfl
    · intro h
      rw [h₀.pc h]
      rfl
    · intro c
      rw [h₀.calls c]
      rfl
    · intro _ hadm
      exact absurd hadm (by rw [h₀.admitted t]; decide)
  · intro t k hk
    rw [(h₀.tasks t).2.2.2] at hk
    contradiction
  · intro h
    rw [h₀.current h, h₀.pc h]
    rfl
  · intro h
    rw [h₀.pending h, h₀.pc h]
    rfl
  · intro c call hc
    rw [h₀.calls c] at hc
    contradiction

end Runs

end CosmOS.Sched
