import CosmOS.Sched.Ownership

/-!
# What a step keeps

Two more invariants travel with the ownership invariant.  `WakeInv` is the part of the argument
about lost wakeups that ownership does not give: a sleeping task has a publication that no returned
wakeup started after; the repair branch of `wakeup_task`, which saw the task runnable, may return
while the task sleeps again, but only for an older publication.  `NoAttr` says that no attribute
change is in progress.  `Keeps s s'` is what `OwnershipSteps` proves of every step.

What the harts do to statuses and publications is said once, by `Advances`.
-/

namespace CosmOS.Sched

open Function

variable {maxHarts : ℕ}

/-! ## What a step does to statuses -/

/-- Nobody falls asleep without a new publication, nobody dies, publications are never undone, and
only admitted tasks publish. -/
structure Advances (s s' : State maxHarts) : Prop where
  published : ∀ t, s.published t ≤ s'.published t
  asleep : ∀ t, (s'.tasks t).status.isSleeping = true →
    (s.tasks t).status.isSleeping = true ∨ s.published t < s'.published t
  alive : ∀ t, (s'.tasks t).status = .zombie → (s.tasks t).status = .zombie
  admitted : ∀ t, s.admitted t = true → s'.admitted t = true
  fresh : ∀ t, s.published t < s'.published t → s'.admitted t = true

structure AdvancesAt (s s' : State maxHarts) (t : Tid) : Prop where
  published : s.published t ≤ s'.published t
  asleep : (s'.tasks t).status.isSleeping = true →
    (s.tasks t).status.isSleeping = true ∨ s.published t < s'.published t
  alive : (s'.tasks t).status = .zombie → (s.tasks t).status = .zombie
  admitted : s.admitted t = true → s'.admitted t = true
  fresh : s.published t < s'.published t → s'.admitted t = true

section Advances

variable {s s' : State maxHarts} {t u : Tid} {task : Task maxHarts} {h : Hart maxHarts}

theorem AdvancesAt.of_awake (hpub : s'.published t = s.published t)
    (hadm : s.admitted t = true → s'.admitted t = true)
    (htask : (s'.tasks t).status = (s.tasks t).status ∨ (s'.tasks t).status = .running ∨
      (s'.tasks t).status = .runnable) : AdvancesAt s s' t := by
  refine ⟨hpub.ge, ?_, ?_, hadm, fun hlt => absurd hlt (hpub ▸ lt_irrefl _)⟩
  · intro hsleep
    rcases htask with h1 | h1 | h1
    · exact .inl (h1 ▸ hsleep)
    · exact absurd hsleep (by rw [h1]; decide)
    · exact absurd hsleep (by rw [h1]; decide)
  · intro hz
    rcases htask with h1 | h1 | h1
    · exact h1 ▸ hz
    · exact absurd (h1.symm.trans hz) (by decide)
    · exact absurd (h1.symm.trans hz) (by decide)

theorem Advances.of_tasks (hadv : ∀ t, AdvancesAt s s' t) : Advances s s' :=
  ⟨fun t => (hadv t).published, fun t => (hadv t).asleep, fun t => (hadv t).alive,
    fun t => (hadv t).admitted, fun t => (hadv t).fresh⟩

theorem Advances.of_status (hstatus : ∀ t, (s'.tasks t).status = (s.tasks t).status)
    (hpub : s'.published = s.published) (hadm : s'.admitted = s.admitted) : Advances s s' :=
  .of_tasks fun t => .of_awake (by rw [hpub]) (hadm ▸ id) (.inl (hstatus t))

theorem Advances.of_awake (htasks : s'.tasks = update s.tasks u task)
    (hpub : s'.published = s.published) (hadm : ∀ t, s.admitted t = true → s'.admitted t = true)
    (htask : task.status = (s.tasks u).status ∨ task.status = .running ∨
      task.status = .runnable) : Advances s s' := by
  refine .of_tasks fun t => .of_awake (by rw [hpub]) (hadm t) ?_
  rw [htasks]
  rcases eq_or_ne t u with rfl | htu
  · rwa [update_self]
  · rw [update_of_ne htu]
    exact .inl rfl

theorem Advances.of_publish {n : ℕ} (hu : s.admitted u = true)
    (htasks : s'.tasks = update s.tasks u task) (htask : task.status = .interruptible)
    (hpub : s'.published = update s.published u n) (hadm : s'.admitted = s.admitted)
    (hn : n = s.published u + 1 ∨ n = s.published u ∧ (s.tasks u).status.isSleeping = true) :
    Advances s s' := by
  refine .of_tasks fun t => ?_
  rcases eq_or_ne t u with rfl | htu
  · have hself : s'.published t = n := by rw [hpub, update_self]
    refine ⟨?_, ?_, ?_, by rw [hadm]; exact id, fun _ => by rw [hadm, hu]⟩
    · rcases hn with h1 | ⟨h1, -⟩ <;> omega
    · intro _
      rcases hn with h1 | ⟨-, h1⟩
      · exact .inr (by omega)
      · exact .inl h1
    · intro hz
      rw [htasks, update_self, htask] at hz
      exact absurd hz (by decide)
  · exact .of_awake (by rw [hpub, update_of_ne htu]) (hadm ▸ id)
      (.inl (by rw [htasks, update_of_ne htu]))

end Advances

/-! ## The invariants of calls -/

/-- A wakeup started after at most as many publications as there are now.  The repair branch saw
the task runnable, so if it sleeps now it has published again. -/
def Call.EpochOk (s : State maxHarts) : Call maxHarts → Prop
  | .wake t _ epoch | .resolve t _ _ epoch | .waitSwitch t epoch | .linkWoken t epoch =>
    epoch ≤ s.published t
  | .repairScan t _ epoch =>
    epoch ≤ s.published t ∧
      ((s.tasks t).status.isSleeping = true → epoch < s.published t)
  | _ => True

structure WakeInv (s : State maxHarts) : Prop where
  alive : ∀ t, (s.tasks t).status ≠ .zombie
  admitted : ∀ t, 0 < s.published t → s.admitted t = true
  woken_le : ∀ t, s.woken t ≤ s.published t
  asleep : ∀ t, (s.tasks t).status.isSleeping = true → s.woken t < s.published t
  epoch : ∀ c call, s.calls c = some call → call.EpochOk s

def Call.isAttr : Call maxHarts → Bool
  | .attr .. | .attrScan .. | .attrFinal .. | .attrUpdate .. | .attrHead .. => true
  | _ => false

def NoAttr (s : State maxHarts) : Prop :=
  ∀ c call, s.calls c = some call → call.isAttr = false

/-- A step that ends in `s'` keeps the three invariants. -/
structure Keeps (s s' : State maxHarts) : Prop where
  inv : Inv s'
  wake : WakeInv s → WakeInv s'
  attr : NoAttr s → NoAttr s'

section Calls

variable {s s' : State maxHarts} {c : CallId} {call : Call maxHarts} {t : Tid} {epoch : ℕ}
  {call' : Option (Call maxHarts)}

/-- What holds of every call holds after one call has moved on or returned. -/
theorem forall_calls_update {P : Call maxHarts → Prop}
    (hall : ∀ c call, s.calls c = some call → P call) (hnew : ∀ call, call' = some call → P call) :
    ∀ c' call, update s.calls c call' c' = some call → P call := by
  intro c' call hc
  rcases eq_or_ne c' c with rfl | hcc
  · rw [update_self] at hc
    exact hnew call hc
  · rw [update_of_ne hcc] at hc
    exact hall c' call hc

theorem Call.EpochOk.mono (he : call.EpochOk s) (hadv : Advances s s') : call.EpochOk s' := by
  have hle : ∀ {t epoch}, epoch ≤ s.published t → epoch ≤ s'.published t := by
    intro t epoch h
    exact h.trans (hadv.published t)
  cases call with
  | wake t hart epoch | resolve t hart lastCpu epoch | waitSwitch t epoch | linkWoken t epoch =>
    exact hle he
  | repairScan t source epoch =>
    refine ⟨hle he.1, ?_⟩
    intro hsleep
    rcases hadv.asleep t hsleep with hsleep' | hlt
    · exact (he.2 hsleep').trans_le (hadv.published t)
    · exact he.1.trans_lt hlt
  | _ => trivial

/-- A step of a hart, or the part of a call's step that changes a task. -/
theorem WakeInv.advance (hw : WakeInv s) (hadv : Advances s s') (hcalls : s'.calls = s.calls)
    (hwoken : s'.woken = s.woken) : WakeInv s' := by
  refine ⟨?_, ?_, ?_, ?_, ?_⟩
  · intro t hz
    exact hw.alive t (hadv.alive t hz)
  · intro t hpos
    rcases (hadv.published t).eq_or_lt with heq | hlt
    · exact hadv.admitted t (hw.admitted t (heq ▸ hpos))
    · exact hadv.fresh t hlt
  · intro t
    rw [hwoken]
    exact (hw.woken_le t).trans (hadv.published t)
  · intro t hsleep
    rw [hwoken]
    rcases hadv.asleep t hsleep with hsleep' | hlt
    · exact (hw.asleep t hsleep').trans_le (hadv.published t)
    · exact (hw.woken_le t).trans_lt hlt
  · intro c call hc
    rw [hcalls] at hc
    exact (hw.epoch c call hc).mono hadv

theorem WakeInv.moveCall (hw : WakeInv s) (hcall : ∀ call, call' = some call → call.EpochOk s) :
    WakeInv { s with calls := update s.calls c call' } :=
  { hw with epoch := forall_calls_update hw.epoch hcall }

/-- A wakeup returns: its task is awake, or has published again since the wakeup started. -/
theorem WakeInv.retWake (hw : WakeInv s) (hle : epoch ≤ s.published t)
    (hawake : (s.tasks t).status.isSleeping = true → epoch < s.published t) :
    WakeInv (s.retWake c t epoch) := by
  have hret : WakeInv (s.ret c) := hw.moveCall (by simp)
  refine ⟨hret.alive, hret.admitted, ?_, ?_, hret.epoch⟩
  · intro u
    simp only [State.retWake]
    rcases eq_or_ne u t with rfl | hut
    · rw [update_self]
      exact max_le (hw.woken_le u) hle
    · rw [update_of_ne hut]
      exact hw.woken_le u
  · intro u hsleep
    simp only [State.retWake] at hsleep ⊢
    rcases eq_or_ne u t with rfl | hut
    · rw [update_self]
      exact max_lt (hw.asleep u hsleep) (hawake hsleep)
    · rw [update_of_ne hut]
      exact hw.asleep u hsleep

theorem Keeps.trans {s₁ : State maxHarts} (h : Keeps s s₁) (h' : Keeps s₁ s') : Keeps s s' :=
  ⟨h'.inv, fun hw => h'.wake (h.wake hw), fun hna => h'.attr (h.attr hna)⟩

theorem Keeps.of_advances (hi : Inv s') (hadv : Advances s s') (hcalls : s'.calls = s.calls)
    (hwoken : s'.woken = s.woken) : Keeps s s' :=
  ⟨hi, fun hw => hw.advance hadv hcalls hwoken, fun hna => by rwa [NoAttr, hcalls]⟩

end Calls

end CosmOS.Sched
