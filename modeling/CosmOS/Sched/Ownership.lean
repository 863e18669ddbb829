import CosmOS.Sched.System

/-!
# Who owns a task

A task is owned by nobody, by one runqueue, by one hart or, for a moment, by an attribute change
that has just unlinked it.  `Owned s t x` says that `x` is the owner of `t`: every place that can
mention `t` agrees with `x`, the flags `on_rq` and `on_cpu` say what they should for such an
owner, and an unowned runnable task has somebody on the way to requeue it.

The lemmas are the ways in which a step can move the owner of one task and leave every other task
alone: `Owned.inHand`, `Owned.setTask`, `Owned.pop`, `Owned.linkTask`, `Owned.unlinkByCall`,
`Owned.settleByCall`.

Zombies are exempt from the flag rules unless a hart runs them: the guards of all linking
sections look at the status first.
-/

namespace CosmOS.Sched

open Function RunQueue

variable {maxHarts : ℕ}

/-! ## Hands and owners -/

/-- How a hart has a task in its hands: taken from a queue, or on its CPU. -/
inductive Hold
  | no
  | popped
  | cpu
deriving DecidableEq

open Hold

/-- From `picked` to `releasing` the hart is switching into the task, runs it, or has not finished
switching out of it. -/
def HartPc.hold : HartPc → Tid → Hold
  | .popped t, u | .stolen t _, u | .stolenMin t _ _, u => if u = t then .popped else .no
  | .picked t, u | .running t, u | .prepared t, u | .suspending t _ _, u | .blocking t _, u
  | .restoring t, u | .boosting t, u | .deferring t, u | .switching t, u | .releasing t, u
  | .exiting t, u => if u = t then .cpu else .no
  | .idle, _ | .stealing _, _ | .requeueing _, _ | .requeueLinking _, _ | .exited, _ => .no

def HartPc.currentTask : HartPc → Option Tid
  | .running t | .prepared t => some t
  | _ => none

def HartPc.pendingTask : HartPc → Option Tid
  | .switching t => some t
  | _ => none

/-- The hart is on the way to requeue the task. -/
def HartPc.requeues : HartPc → Tid → Bool
  | .requeueing t, u | .requeueLinking t, u => u = t
  | _, _ => false

/-- The call has unlinked the task and not cleared `on_rq` yet. -/
def Call.limbo : Call maxHarts → Tid → Bool
  | .attrFinal t _ _ true, u => u = t
  | _, _ => false

def Call.requeues : Call maxHarts → Tid → Bool
  | .attrUpdate t _ snap, u => u = t && snap.wasOnRq
  | .enqueue t, u | .link t, u => u = t
  | _, _ => false

/-- `remove_task` runs only for a task that was on a runqueue. -/
def Call.SnapOk : Call maxHarts → Prop
  | .attrScan _ _ snap _ | .attrFinal _ _ snap _ => snap.wasOnRq = true
  | _ => True

inductive Owner (maxHarts : ℕ)
  | nobody
  | rq (h : Hart maxHarts)
  | popped (h : Hart maxHarts)
  | cpu (h : Hart maxHarts)
  | limbo (c : CallId)
deriving DecidableEq

open Owner

namespace Owner

variable (x : Owner maxHarts)

def links (h : Hart maxHarts) : ℕ := if x = .rq h then 1 else 0

def hold (h : Hart maxHarts) : Hold :=
  if x = .popped h then .popped else if x = .cpu h then .cpu else .no

def inLimbo (c : CallId) : Bool := x = .limbo c

/-- What the flags of a task say, by owner. -/
def Flags : Owner maxHarts → Task maxHarts → Prop
  | .nobody, task => task.status = .zombie ∨ (task.onRq = false ∧ task.onCpu = false)
  | .cpu _, task => task.onRq = false ∧ task.onCpu = true
  | _, task => task.status = .zombie ∨ (task.onRq = true ∧ task.onCpu = false)

end Owner

def Hold.owner (h : Hart maxHarts) : Hold → Owner maxHarts
  | .no => .nobody
  | .popped => .popped h
  | .cpu => .cpu h

/-- Somebody is on the way to put the task back into a runqueue. -/
def State.Requeued (s : State maxHarts) (t : Tid) : Prop :=
  (∃ h, (s.pc h).requeues t = true) ∨ ∃ c call, s.calls c = some call ∧ call.requeues t = true

open State

structure Owned (s : State maxHarts) (t : Tid) (x : Owner maxHarts) : Prop where
  link : ∀ h, (s.rqs h).linkCount t = x.links h
  hold : ∀ h, (s.pc h).hold t = x.hold h
  limbo : ∀ c, (s.calls c).any (·.limbo t) = x.inLimbo c
  flags : x.Flags (s.tasks t)
  admitted : x ≠ .nobody → s.admitted t = true
  requeued : x = .nobody → s.admitted t = true → (s.tasks t).status = .runnable → s.Requeued t

structure Inv (s : State maxHarts) : Prop where
  owned : ∀ t, ∃ x, Owned s t x
  keys : RunQueue.OwnKeys s.tasks
  current : ∀ h, s.current h = (s.pc h).currentTask
  pending : ∀ h, s.pending h = (s.pc h).pendingTask
  snaps : ∀ c call, s.calls c = some call → call.SnapOk

section Owner

variable {x : Owner maxHarts} {h h' : Hart maxHarts} {k : Hold}

theorem Owner.hold_popped (hx : x.hold h = .popped) : x = .popped h := by
  unfold hold at hx
  split at hx
  · assumption
  · split at hx <;> exact absurd hx (by decide)

theorem Owner.hold_cpu (hx : x.hold h = .cpu) : x = .cpu h := by
  unfold hold at hx
  split at hx
  · exact absurd hx (by decide)
  · split at hx
    · assumption
    · exact absurd hx (by decide)

/-- A hart that has the task in its hands is its owner. -/
theorem Owner.eq_of_hold (hx : x.hold h ≠ .no) : x = (x.hold h).owner h := by
  cases hk : x.hold h with
  | no => exact absurd hk hx
  | popped => exact hold_popped hk
  | cpu => exact hold_cpu hk

theorem Hold.owner_hold_of_ne (hne : h' ≠ h) : (k.owner h).hold h' = .no := by
  cases k <;> simp [owner, hold, Ne.symm hne]

theorem Hold.owner_links : (k.owner h).links h' = 0 := by
  cases k <;> simp [owner, links]

theorem Hold.owner_inLimbo (c : CallId) : (k.owner h).inLimbo c = false := by
  cases k <;> simp [owner, inLimbo]

end Owner

/-! ## Moves of the owner

`s` and `s'` are the states before and after a step.  `Frame s s' t` says that the step leaves `t`
alone.  Each lemma after it says who the owners are after a step that moves one task. -/

theorem apply_update_of_eq {α β γ : Type*} [DecidableEq α] {g : α → β} {a : α} {b : β} (f : β → γ)
    (heq : f b = f (g a)) (x : α) : f (update g a b x) = f (g x) := by
  rcases eq_or_ne x a with rfl | hx
  · rw [update_self, heq]
  · rw [update_of_ne hx]

/-- Nothing the owner of `t` is read from changes; whoever gives up requeueing `t` found it
owned. -/
structure Frame (s s' : State maxHarts) (t : Tid) : Prop where
  link : ∀ h, (s'.rqs h).linkCount t = (s.rqs h).linkCount t
  hold : ∀ h, (s'.pc h).hold t = (s.pc h).hold t
  limbo : ∀ c, (s'.calls c).any (·.limbo t) = (s.calls c).any (·.limbo t)
  flags : (s'.tasks t).status = (s.tasks t).status ∧ (s'.tasks t).onCpu = (s.tasks t).onCpu ∧
    (s'.tasks t).onRq = (s.tasks t).onRq
  admitted : s'.admitted t = s.admitted t
  requeued : s.Requeued t → s'.Requeued t ∨ s.alreadyOwned t

section Moves

variable {s s' : State maxHarts} {t u : Tid} {x : Owner maxHarts} {h h₀ target : Hart maxHarts}
  {pc pc' : HartPc} {k k' : Hold} {c : CallId} {call' : Option (Call maxHarts)} {rq' : RunQueue}
  {tasks' : Tid → Task maxHarts} {task : Task maxHarts} {hint : Option ℕ}

theorem Owner.Flags.congr {task' : Task maxHarts} (hf : x.Flags task)
    (hsame : task'.status = task.status ∧ task'.onCpu = task.onCpu ∧ task'.onRq = task.onRq) :
    x.Flags task' := by
  obtain ⟨hstatus, hcpu, hrq⟩ := hsame
  cases x <;> simpa only [Owner.Flags, hstatus, hcpu, hrq] using hf

theorem Owned.frame (hx : Owned s t x) (hf : Frame s s' t) : Owned s' t x := by
  refine ⟨?_, ?_, ?_, hx.flags.congr hf.flags, fun hxn => by rw [hf.admitted]; exact hx.admitted hxn,
    ?_⟩
  · intro h
    rw [hf.link h, hx.link h]
  · intro h
    rw [hf.hold h, hx.hold h]
  · intro c
    rw [hf.limbo c, hx.limbo c]
  · intro hxn hadm hrun
    subst hxn
    rw [hf.flags.1] at hrun
    rw [hf.admitted] at hadm
    rcases hf.requeued (hx.requeued rfl hadm hrun) with hr | howned
    · exact hr
    · rcases hx.flags with hz | ⟨hrq, hcpu⟩
      · exact absurd (hz.symm.trans hrun) (by decide)
      · simp [State.alreadyOwned, hrq, hcpu, hrun] at howned

theorem Owned.moves (hs : ∀ t, ∃ x, Owned s t x) (hu : ∀ x, Owned s u x → ∃ x', Owned s' u x')
    (hother : ∀ t, t ≠ u → Frame s s' t) : ∀ t, ∃ x, Owned s' t x := by
  intro t
  rcases hs t with ⟨x, hx⟩
  rcases eq_or_ne t u with rfl | htu
  · exact hu x hx
  · exact ⟨x, hx.frame (hother t htu)⟩

theorem flags_update_of_ne (htu : t ≠ u) : (update s.tasks u task t).status = (s.tasks t).status ∧
    (update s.tasks u task t).onCpu = (s.tasks t).onCpu ∧
      (update s.tasks u task t).onRq = (s.tasks t).onRq := by
  rw [update_of_ne htu]
  exact ⟨rfl, rfl, rfl⟩

section

variable (hadm : s'.admitted t = s.admitted t) (hlink : ∀ h, (s'.rqs h).linkCount t = (s.rqs h).linkCount t)
  (hflags : (s'.tasks t).status = (s.tasks t).status ∧ (s'.tasks t).onCpu = (s.tasks t).onCpu ∧
    (s'.tasks t).onRq = (s.tasks t).onRq)
include hadm hlink hflags

/-- A hart moves, with `t` in its hands as before. -/
theorem Frame.ofHart (hpc : s'.pc = update s.pc h pc') (hcalls : s'.calls = s.calls)
    (hold : pc'.hold t = (s.pc h).hold t)
    (hreq : (s.pc h).requeues t = true → pc'.requeues t = true ∨ s.alreadyOwned t) : Frame s s' t := by
  refine ⟨hlink, ?_, fun c => by rw [hcalls], hflags, hadm, ?_⟩
  · intro h'
    rw [hpc]
    exact apply_update_of_eq (HartPc.hold · t) hold h'
  · rintro (⟨h', hr⟩ | hcall)
    · rcases eq_or_ne h' h with rfl | hg
      · exact (hreq hr).imp_left fun hr' => .inl ⟨h', by rw [hpc, update_self]; exact hr'⟩
      · exact .inl (.inl ⟨h', by rw [hpc, update_of_ne hg]; exact hr⟩)
    · exact .inl (.inr (hcalls ▸ hcall))

/-- A call moves on or returns, with `t` unlinked by it as before. -/
theorem Frame.ofCall (hpc : s'.pc = s.pc) (hcalls : s'.calls = update s.calls c call')
    (hlimbo : call'.any (·.limbo t) = (s.calls c).any (·.limbo t))
    (hreq : (s.calls c).any (·.requeues t) = true →
      call'.any (·.requeues t) = true ∨ s.alreadyOwned t) : Frame s s' t := by
  refine ⟨hlink, fun h => by rw [hpc], ?_, hflags, hadm, ?_⟩
  · intro c'
    rw [hcalls]
    exact apply_update_of_eq (Option.any (Call.limbo · t)) hlimbo c'
  · rintro (hhart | ⟨c', call, hcall, hr⟩)
    · exact .inl (.inl (hpc ▸ hhart))
    rcases eq_or_ne c' c with rfl | hc
    · refine (hreq (by rw [hcall]; exact hr)).imp_left fun hr' => ?_
      rcases (Option.any_eq_true _ _).mp hr' with ⟨call₁, hcall₁, hr₁⟩
      exact .inr ⟨c', call₁, by rw [hcalls, update_self, hcall₁], hr₁⟩
    · exact .inl (.inr ⟨c', call, by rw [hcalls, update_of_ne hc, hcall], hr⟩)

end

/-- The hands of the harts when `h` is the only one that has `u`. -/
theorem hold_update_owner (hk : pc'.hold u = k) (hno : ∀ h', h' ≠ h → (s.pc h').hold u = .no)
    (h' : Hart maxHarts) : (update s.pc h pc' h').hold u = (k.owner h).hold h' := by
  rcases eq_or_ne h' h with rfl | hg
  · rw [update_self, hk]
    cases k <;> simp [owner, hold]
  · rw [update_of_ne hg, hno h' hg, owner_hold_of_ne hg]

theorem RunQueue.Unlinks.of_ne {rq : RunQueue} (hu : RunQueue.Unlinks rq rq' u) (htu : t ≠ u) :
    rq'.linkCount t = rq.linkCount t := by
  rw [hu t, if_neg htu, Nat.add_zero]

/-- Whoever unlinks a task from a runqueue took it from its owner, and its only link. -/
theorem Owned.of_unlinks (hx : Owned s t x) (hu : RunQueue.Unlinks (s.rqs h₀) rq' t) :
    x = .rq h₀ ∧ ∀ h', (update s.rqs h₀ rq' h').linkCount t = 0 := by
  have hcount := hu t
  have hlink := hx.link h₀
  rw [if_pos rfl] at hcount
  by_cases hxr : x = .rq h₀
  · refine ⟨hxr, ?_⟩
    rw [links, if_pos hxr] at hlink
    intro h'
    rcases eq_or_ne h' h₀ with rfl | hg
    · rw [update_self]
      omega
    · subst hxr
      rw [update_of_ne hg, hx.link h', links]
      simp [Ne.symm hg]
  · rw [links, if_neg hxr] at hlink
    omega

/-- What the linking section does: one more link in the target runqueue, for a task that is now
runnable and on a runqueue. -/
theorem State.linkTask_spec (hl : s.linkTask u target hint = some s') :
    ∃ rq' task', s' = { s.setRq target rq' (update s.tasks u task') with
        admitted := update s.admitted u true } ∧
      ((s.rqs target).linkCount u = 0 → RunQueue.Unlinks rq' (s.rqs target) u) ∧
      task'.status = .runnable ∧ task'.onRq = true ∧ task'.onCpu = (s.tasks u).onCpu ∧
      ∀ k, task'.cfsRqKey = some k → (s.tasks u).cfsRqKey = some k ∨ (ofLex k).2 = u := by
  unfold linkTask at hl
  rcases Option.map_eq_some_iff.mp hl with ⟨⟨rq', task'⟩, he, rfl⟩
  obtain ⟨hstatus, hcpu, hrq, hkey⟩ := enqueueLocked_task he
  exact ⟨rq', task', rfl, unlinks_enqueueLocked he, hstatus, hrq, hcpu, hkey⟩

section

variable (hs : ∀ t, ∃ x, Owned s t x)
include hs

theorem Owned.inHand {current pending : Hart maxHarts → Option Tid} {published : Tid → ℕ} (hpc : s.pc h = pc)
    (hold : ∀ t, pc.hold t = if t = u then k else .no) (hk : k ≠ .no)
    (hold' : ∀ t, pc'.hold t = if t = u then k' else .no)
    (hreq : ∀ t, pc.requeues t = false) (hflags : (k'.owner h).Flags task)
    (hlost : k' = .no → task.status = .runnable → pc'.requeues u = true) :
    ∀ t, ∃ x, Owned { s with
      tasks := update s.tasks u task
      pc := update s.pc h pc'
      current := current
      pending := pending
      published := published } t x := by
  refine Owned.moves (u := u) hs ?_ ?_
  · intro x hx
    -- The old owner is `h`, so nobody else mentions the task.
    have hxk : x.hold h = k := by rw [← hx.hold h, hpc, hold, if_pos rfl]
    have hxo := eq_of_hold (hxk.trans_ne hk)
    rw [hxk] at hxo
    subst hxo
    refine ⟨k'.owner h, ?_, ?_, ?_, ?_, fun _ => hx.admitted ?_, ?_⟩
    · intro h'
      rw [owner_links]
      exact (hx.link h').trans owner_links
    · refine hold_update_owner (by rw [hold', if_pos rfl]) ?_
      intro h' hg
      rw [hx.hold h', owner_hold_of_ne hg]
    · intro c
      rw [owner_inLimbo]
      exact (hx.limbo c).trans (owner_inLimbo c)
    · simpa only [update_self] using hflags
    · intro hno
      cases k <;> simp [owner] at hno hk
    · intro hno _ hrun
      have hk' : k' = .no := by
        cases k' <;> simp [owner] at hno ⊢
      simp only [update_self] at hrun
      exact .inl ⟨h, by simp only [update_self]; exact hlost hk' hrun⟩
  · intro t htu
    refine Frame.ofHart rfl (fun _ => rfl) (flags_update_of_ne htu) rfl rfl ?_ ?_
    · rw [hpc, hold, hold', if_neg htu, if_neg htu]
    · rw [hpc, hreq]
      exact fun hr => absurd hr (by decide)

theorem Owned.setTask (hflags : ∀ x, Owned s u x → x.Flags task)
    (hrun : Owned s u .nobody → task.status = .runnable → (s.tasks u).status = .runnable) :
    ∀ t, ∃ x, Owned (s.setTask u task) t x := by
  refine Owned.moves (u := u) hs ?_ ?_
  · intro x hx
    refine ⟨x, hx.link, hx.hold, hx.limbo, ?_, hx.admitted, ?_⟩
    · rw [setTask_tasks_self]
      exact hflags x hx
    · intro hno hadm hr
      subst hno
      rw [setTask_tasks_self] at hr
      exact hx.requeued rfl hadm (hrun hx hr)
  · intro t htu
    exact ⟨fun _ => rfl, fun _ => rfl, fun _ => rfl, flags_update_of_ne htu, rfl, .inl⟩

theorem Owned.pop (htakes : RunQueue.Takes (s.rqs h₀) s.tasks u rq' tasks') (hpc : s.pc h = pc)
    (hold : ∀ t, pc.hold t = .no) (hreq : ∀ t, pc.requeues t = false)
    (hold' : ∀ t, pc'.hold t = if t = u then .popped else .no) :
    ∀ t, ∃ x, Owned ((s.setRq h₀ rq' tasks').goto h pc') t x := by
  refine Owned.moves (u := u) hs ?_ ?_
  · intro x hx
    rcases hx.of_unlinks htakes.unlinks with ⟨rfl, hlinks⟩
    have hflags : (popped h).Flags (tasks' u) := hx.flags.congr (htakes.flags u)
    refine ⟨.popped h, hlinks, ?_, hx.limbo, hflags, fun _ => hx.admitted (by simp), by simp⟩
    exact hold_update_owner (by rw [hold', if_pos rfl]) fun h' _ => hx.hold h'
  · intro t htu
    refine Frame.ofHart rfl ?_ (htakes.flags t) rfl rfl ?_ ?_
    · exact apply_update_of_eq (linkCount · t) (htakes.unlinks.of_ne htu)
    · rw [hpc, hold', hold, if_neg htu]
    · rw [hpc, hreq]
      exact fun hr => absurd hr (by decide)

variable {call call' : Call maxHarts}

theorem Owned.unlinkByCall (htakes : RunQueue.Takes (s.rqs h₀) s.tasks u rq' tasks')
    (hcall : s.calls c = some call)
    (hlimbo : ∀ t, call.limbo t = false) (hreq : ∀ t, call.requeues t = false)
    (hlimbo' : ∀ t, call'.limbo t = decide (t = u)) :
    ∀ t, ∃ x, Owned ((s.setRq h₀ rq' tasks').become c call') t x := by
  refine Owned.moves (u := u) hs ?_ ?_
  · intro x hx
    rcases hx.of_unlinks htakes.unlinks with ⟨rfl, hlinks⟩
    have hflags : (Owner.limbo c).Flags (tasks' u) := hx.flags.congr (htakes.flags u)
    refine ⟨.limbo c, hlinks, hx.hold, ?_, hflags, fun _ => hx.admitted (by simp), by simp⟩
    intro c'
    rcases eq_or_ne c' c with rfl | hc
    · simp [hlimbo', inLimbo]
    · have hcl := hx.limbo c'
      simpa [become_calls_of_ne hc, setRq, inLimbo, Ne.symm hc] using hcl
  · intro t htu
    refine Frame.ofCall rfl ?_ (htakes.flags t) rfl rfl ?_ ?_
    · exact apply_update_of_eq (linkCount · t) (htakes.unlinks.of_ne htu)
    · simp [hcall, hlimbo, hlimbo', htu]
    · simp [hcall, hreq]

/-- The attribute change that unlinked a task clears `on_rq` and is bound to requeue it. -/
theorem Owned.settleByCall (hstatus : task.status = (s.tasks u).status) (hrq : task.onRq = false)
    (hcpu : task.onCpu = (s.tasks u).onCpu) (hcall : s.calls c = some call)
    (hlimbo : ∀ t, call.limbo t = decide (t = u)) (hreq : ∀ t, call.requeues t = false)
    (hlimbo' : ∀ t, call'.limbo t = false) (hreq' : call'.requeues u = true) :
    ∀ t, ∃ x, Owned ((s.setTask u task).become c call') t x := by
  refine Owned.moves (u := u) hs ?_ ?_
  · intro x hx
    have hxl : x = .limbo c := by
      have hc := hx.limbo c
      simpa [hcall, hlimbo, Owner.inLimbo] using hc
    subst hxl
    refine ⟨.nobody, hx.link, hx.hold, ?_, ?_, by simp, ?_⟩
    · intro c'
      rcases eq_or_ne c' c with rfl | hc
      · simp [hlimbo', Owner.inLimbo]
      · have hcl := hx.limbo c'
        simpa [State.become_calls_of_ne hc, State.setTask, Owner.inLimbo, Ne.symm hc] using hcl
    · have hf := hx.flags
      simp only [Owner.Flags, State.become, State.setTask, update_self, hstatus, hrq, hcpu] at hf ⊢
      exact hf.imp_right fun hf' => ⟨trivial, hf'.2⟩
    · intro _ _ _
      exact .inr ⟨c, call', become_calls_self _ _ _, hreq'⟩
  · intro t htu
    refine Frame.ofCall rfl (fun _ => rfl) (flags_update_of_ne htu) rfl rfl ?_ ?_
    · simp [hcall, hlimbo, hlimbo', htu]
    · simp [hcall, hreq]

theorem Owned.linkTask (hrq : (s.tasks u).onRq = false)
    (hcpu : (s.tasks u).onCpu = false) (hnz : (s.tasks u).status ≠ .zombie)
    (hl : s.linkTask u target hint = some s') : ∀ t, ∃ x, Owned s' t x := by
  rcases linkTask_spec hl with ⟨rq', task', rfl, hlinks, hstatus, hrq', hcpu', -⟩
  have hnobody : Owned s u .nobody := by
    rcases hs u with ⟨x, hx⟩
    have hf := hx.flags
    have hnobody : x = .nobody := by
      cases x <;> simp [Owner.Flags, hrq, hcpu, hnz] at hf ⊢
    exact hnobody ▸ hx
  have hunlinks := hlinks ((hnobody.link target).trans (by simp [links]))
  refine Owned.moves (u := u) hs ?_ ?_
  · intro _ _
    refine ⟨.rq target, ?_, hnobody.hold, hnobody.limbo, ?_, fun _ => update_self _ _ _, by simp⟩
    · intro h'
      have hzero := hnobody.link h'
      rcases eq_or_ne h' target with rfl | hg
      · have hcount := hunlinks u
        simp only [setRq, update_self]
        simp only [links, reduceCtorEq, if_false] at hcount hzero ⊢
        omega
      · simpa [setRq, update_of_ne hg, links, Ne.symm hg] using hzero
    · simp [Owner.Flags, setRq, hrq', hcpu', hcpu]
  · intro t htu
    refine ⟨?_, fun _ => rfl, fun _ => rfl, flags_update_of_ne htu, update_of_ne htu _ _, .inl⟩
    exact apply_update_of_eq (linkCount · t) (hunlinks.of_ne htu).symm

theorem Owned.rekeys (hr : RunQueue.Rekeys (s.rqs h₀) s.tasks rq' tasks') :
    ∀ t, ∃ x, Owned (s.setRq h₀ rq' tasks') t x := by
  intro t
  rcases hs t with ⟨x, hx⟩
  refine ⟨x, hx.frame ⟨?_, fun _ => rfl, fun _ => rfl, hr.flags t, rfl, .inl⟩⟩
  exact apply_update_of_eq (linkCount · t) (hr.count t)

theorem Owned.linkCount_le_one (h : Hart maxHarts) (t : Tid) : (s.rqs h).linkCount t ≤ 1 := by
  rcases hs t with ⟨x, hx⟩
  rw [hx.link h, links]
  split <;> omega

/-- A task on the CPU of a hart has its flags set accordingly. -/
theorem Owned.cpu_flags (hold : (s.pc h).hold t = .cpu) :
    (s.tasks t).onRq = false ∧ (s.tasks t).onCpu = true := by
  rcases hs t with ⟨x, hx⟩
  have hxc : x = .cpu h := hold_cpu (hx.hold h ▸ hold)
  subst hxc
  exact hx.flags

end

end Moves

end CosmOS.Sched
