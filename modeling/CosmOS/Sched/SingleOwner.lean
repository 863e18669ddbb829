import CosmOS.Sched.OwnershipSteps

/-!
# Single ownership

* `single_owner`: without attribute changes the three invariants of `check_sched_invariants` hold
  in every reachable state, and no task runs twice.
* `attr_single_owner`: with attribute changes, in the runs that meet `RemovalsFind`, a task in the
  hands of a hart is linked nowhere, in no other hart's hands, and no runnable task is lost.
  `double_dispatch_reachable` is a run outside that condition in which one task runs on two harts.
-/

namespace CosmOS.Sched

variable {maxHarts : ℕ}

section Runs

variable {s s' : State maxHarts} {l : Label maxHarts}

/-! ## Single ownership -/

/-- The three invariants of `check_sched_invariants`, and no task is switched into twice. -/
structure SingleOwner (s : State maxHarts) : Prop where
  current_once : ∀ t h h', s.current h = some t → s.current h' = some t → h = h'
  current_unlinked : ∀ t h h', s.current h = some t → (s.rqs h').linkCount t = 0
  linked_once : ∀ t, ∑ h, (s.rqs h).linkCount t ≤ 1
  switched_once : ∀ t h h', (s.pc h).hold t = .cpu → (s.pc h').hold t = .cpu → h = h'

variable {x : Owner maxHarts} {t : Tid}

/-- Two harts that have a task in their hands are one hart. -/
theorem Owned.hand_unique {h h' : Hart maxHarts} (hx : Owned s t x)
    (hh : (s.pc h).hold t ≠ .no) (hh' : (s.pc h').hold t ≠ .no) : h = h' := by
  rw [hx.hold h] at hh
  rw [hx.hold h'] at hh'
  have hxo := Owner.eq_of_hold hh
  by_contra hne
  rw [hxo, Hold.owner_hold_of_ne (Ne.symm hne)] at hh'
  exact hh' rfl

/-- A task in the hands of a hart is linked nowhere. -/
theorem Owned.unlinked_of_hand {h h' : Hart maxHarts}
    (hx : Owned s t x) (hh : (s.pc h).hold t ≠ .no) : (s.rqs h').linkCount t = 0 := by
  have hxo := Owner.eq_of_hold (hx.hold h ▸ hh)
  rw [hx.link h', hxo, Hold.owner_links]

theorem Owned.sum_linkCount_le (hx : Owned s t x) : ∑ h, (s.rqs h).linkCount t ≤ 1 := by
  have hsum : ∑ h, (s.rqs h).linkCount t = ∑ h, x.links h :=
    Finset.sum_congr rfl fun h _ => hx.link h
  rw [hsum]
  cases x with
  | rq h₀ | nobody | popped h₀ | cpu h₀ | limbo c => simp [Owner.links]

theorem Inv.singleOwner (hi : Inv s) : SingleOwner s := by
  have hand : ∀ {t h}, s.current h = some t → (s.pc h).hold t ≠ .no := by
    intro t h hcur
    rw [hi.onCpu_of_current hcur]
    decide
  refine ⟨?_, ?_, ?_, ?_⟩
  · intro t h h' hcur hcur'
    rcases hi.owned t with ⟨x, hx⟩
    exact hx.hand_unique (hand hcur) (hand hcur')
  · intro t h h' hcur
    rcases hi.owned t with ⟨x, hx⟩
    exact hx.unlinked_of_hand (hand hcur)
  · intro t
    rcases hi.owned t with ⟨x, hx⟩
    exact hx.sum_linkCount_le
  · intro t h h' hh hh'
    rcases hi.owned t with ⟨x, hx⟩
    exact hx.hand_unique (by rw [hh]; decide) (by rw [hh']; decide)

/-! ## Runs without attribute changes -/

theorem machine_next_eq (hn : (machine maxHarts).next s l = some s') :
    next s l = some s' ∧ ∀ c t change, l ≠ .setAttr c t change := by
  cases l with
  | setAttr c t change => exact absurd hn (Option.some_ne_none _).symm
  | _ => exact ⟨hn, by simp⟩

theorem WakeInv.init (h₀ : s.IsInitial) : WakeInv s := by
  have hrun : ∀ t, (s.tasks t).status = .runnable := fun t => (h₀.tasks t).1
  refine ⟨?_, ?_, ?_, ?_, ?_⟩
  · intro t
    rw [hrun t]
    decide
  · intro t hpos
    rw [h₀.published t] at hpos
    exact absurd hpos (lt_irrefl 0)
  · intro t
    rw [h₀.woken t]
    exact Nat.zero_le _
  · intro t
    exact not_isSleeping_of_eq (hrun t) rfl
  · intro c call hc
    rw [h₀.calls c] at hc
    contradiction

/-- Without attribute changes there is nothing to remove. -/
theorem NoAttr.removalsFind (hna : NoAttr s) : RemovalsFind s l := by
  cases l with
  | call c =>
    cases hcall : s.calls c with
    | none => simp only [RemovalsFind, hcall]
    | some call =>
      have hattr := hna c call hcall
      cases call with
      | attrFinal => exact absurd hattr (by simp [Call.isAttr])
      | _ => simp only [RemovalsFind, hcall]
  | _ => trivial

/-- The invariants of runs without attribute changes. -/
theorem inv_of_reachable (h : (machine maxHarts).Reachable s) : Inv s ∧ WakeInv s := by
  have hall : Inv s ∧ WakeInv s ∧ NoAttr s := by
    refine h.invariant (P := fun s => Inv s ∧ WakeInv s ∧ NoAttr s) ?_ ?_
    · intro s₀ h₀
      refine ⟨Inv.init h₀, WakeInv.init h₀, ?_⟩
      intro c call hc
      rw [h₀.calls c] at hc
      contradiction
    · rintro s l s' ⟨hi, hw, hna⟩ - hn
      obtain ⟨hn', hne⟩ := machine_next_eq hn
      obtain ⟨hi', hw', hna'⟩ := hi.next_keeps hna.removalsFind hn'
      exact ⟨hi', hw' hw, hna' hne hna⟩
  exact ⟨hall.1, hall.2.1⟩

/-- **Single ownership.** In every reachable state a task is current on at most one hart, no
current task is linked in a runqueue, no task is linked twice, and no two harts are switching
into, running or switching out of the same task. -/
theorem single_owner (h : (machine maxHarts).Reachable s) : SingleOwner s :=
  (inv_of_reachable h).1.singleOwner

end Runs

variable (lastCpu : Hart maxHarts)

def Task.initial : Task maxHarts where
  status := .runnable
  onCpu := false
  onRq := false
  lastCpu := lastCpu
  policy := .other
  rtPriority := ⟨0, rtQueueLevels_pos⟩
  rtEnqueueHead := false
  weight := 1024
  vruntimeNs := 0
  cfsInitialized := false
  cfsRqKey := none
  cpuAffinityMask := Finset.univ

def State.boot : State maxHarts where
  tasks := fun _ => Task.initial lastCpu
  rqs := fun _ => RunQueue.new
  current := fun _ => none
  pending := fun _ => none
  pc := fun _ => .idle
  calls := fun _ => none
  admitted := fun _ => false
  published := fun _ => 0
  woken := fun _ => 0

theorem State.boot_isInitial : (State.boot lastCpu).IsInitial :=
  ⟨fun _ => ⟨rfl, rfl, rfl, rfl⟩, fun _ => rfl, fun _ => rfl, fun _ => rfl, fun _ => rfl,
    fun _ => rfl, fun _ => rfl, fun _ => rfl, fun _ => rfl⟩

/-- The labels that put task 0 on the runqueue of hart `target`. -/
def addFirstTask {maxHarts : ℕ} (target : Hart maxHarts) : List (Label maxHarts) :=
  [.enqueue 0 0, .call 0, .callLink 0 target none]

/-- Hart 0 runs task 0, publishes it as sleeping, and a waker finds it before it blocks. -/
theorem single_owner_wokenEarly : ∃ s, (machine 2).Reachable s ∧
    (s.current 0 = some 0 ∧ (s.tasks 0).status = .runnable) ∧ SingleOwner s := by
  obtain ⟨s, hs, hp⟩ := (machine 2).exists_reachable_of_run
    (fun s => s.current 0 = some 0 ∧ (s.tasks 0).status = .runnable)
    (addFirstTask 0 ++ [.sched 0, .sched 0, .sched 0, .publish 0, .wake 1 0 1, .call 1, .call 1])
    (State.boot_isInitial 0) (by decide)
  exact ⟨s, hs, hp, single_owner hs⟩

/-! ## Attribute changes -/

/-- What attribute changes must not break: a task that is current or about to be dispatched is
linked nowhere, it is in the hands of one hart, and a runnable task that was queued before is in a
runqueue, in the hands of a hart, or on its way back through an operation in progress. -/
structure AttrSafe (s : State maxHarts) : Prop where
  unlinked : ∀ t h h', (s.pc h).hold t ≠ .no → (s.rqs h').linkCount t = 0
  one_hart : ∀ t h h', (s.pc h).hold t ≠ .no → (s.pc h').hold t ≠ .no → h = h'
  not_lost : ∀ t, s.admitted t = true → (s.tasks t).status = .runnable →
    (∃ h, (s.rqs h).linkCount t ≠ 0) ∨ (∃ h, (s.pc h).hold t ≠ .no) ∨ s.Requeued t ∨
      ∃ c call, s.calls c = some call ∧ call.limbo t = true

theorem Inv.attrSafe {s : State maxHarts} (hi : Inv s) : AttrSafe s := by
  refine ⟨?_, ?_, ?_⟩
  · intro t h h' hh
    rcases hi.owned t with ⟨x, hx⟩
    exact hx.unlinked_of_hand hh
  · intro t h h' hh hh'
    rcases hi.owned t with ⟨x, hx⟩
    exact hx.hand_unique hh hh'
  · intro t hadm hrun
    rcases hi.owned t with ⟨x, hx⟩
    cases x with
    | nobody => exact .inr (.inr (.inl (hx.requeued rfl hadm hrun)))
    | rq h =>
      refine .inl ⟨h, ?_⟩
      rw [hx.link h]
      simp [Owner.links]
    | popped h | cpu h =>
      refine .inr (.inl ⟨h, ?_⟩)
      rw [hx.hold h]
      simp [Owner.hold]
    | limbo c =>
      have hc := hx.limbo c
      simp only [Owner.inLimbo] at hc
      rcases (Option.any_eq_true _ _).mp hc with ⟨call, hcall, hl⟩
      exact .inr (.inr (.inr ⟨c, call, hcall, hl⟩))

/-- **Attribute changes.** In every run in which `remove_task` never clears `on_rq` of a task it
did not find, a task in the hands of a hart is linked nowhere and in no other hart's hands, and no
runnable task is lost. -/
theorem attr_single_owner {s : State maxHarts} (h : (attrMachine maxHarts).Reach RemovalsFind s) :
    AttrSafe s := by
  refine Inv.attrSafe (h.invariant (fun _ h₀ => Inv.init h₀) ?_)
  intro s l s' hi hok hn
  exact (hi.next_keeps hok hn).1

/-- `setpriority` takes task 0 off the runqueue of hart 0 and puts it on that of hart 1, from where
hart 0 steals it. -/
theorem attr_single_owner_migrated : ∃ s, (attrMachine 2).Reach RemovalsFind s ∧
    (s.current 0 = some 0 ∧ (s.tasks 0).weight = 512) ∧ AttrSafe s := by
  obtain ⟨s, hs, hp⟩ := (attrMachine 2).exists_reach_of_runWhile RemovalsFind
    (fun s => s.current 0 = some 0 ∧ (s.tasks 0).weight = 512)
    (addFirstTask 0 ++ [.setAttr 0 0 (.setpriority 512), .call 0, .call 0, .call 0, .call 0, .call 0,
      .callLink 0 1 none, .sched 0, .sched 0, .sched 0, .sched 0, .sched 0, .sched 0])
    (State.boot_isInitial 0) (by decide)
  exact ⟨s, hs, hp, attr_single_owner hs⟩

/-- The window between a pop and the task section: `setpriority` has seen `on_rq`, hart 0 pops the
task, `remove_task` finds it nowhere but clears `on_rq`, and `enqueue_task_on` links it again.
Both harts then run it. -/
theorem double_dispatch_reachable : ∃ s, (attrMachine 2).Reachable s ∧
    s.current 0 = some 0 ∧ s.current 1 = some 0 := by
  exact (attrMachine 2).exists_reachable_of_run _
    (addFirstTask 0 ++ [.setAttr 0 0 (.setpriority 512), .call 0, .sched 0, .call 0, .call 0, .call 0,
      .call 0, .call 0, .call 0, .callLink 0 1 none, .sched 0, .sched 1, .sched 1, .sched 0,
      .sched 1])
    (State.boot_isInitial 0) (by decide)

end CosmOS.Sched
