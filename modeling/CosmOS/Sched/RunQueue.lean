import CosmOS.BTreeMap

/-!
# Per-hart runqueues

The data of `sched/runqueue.rs`: the scheduling fields of a task, the `RunQueue` of one hart with
its RT levels and its CFS tree, and the operations that run under the runqueue lock.

* `Task` carries the fields these operations read or write.  `on_cpu` is an atomic of the task
  itself; every writer holds the task lock.
* `RunQueue` carries the fact that a CFS key ends in the pointer of its own task.
* `linkCount` counts the places in which a task is linked, over all RT levels and the tree.  The
  lemmas below say how each operation moves it; nothing else about a runqueue matters for
  ownership.

Fields that no modelled function reads (time slices, wait reasons, statistics, `stop_task`) are
left out.
-/

namespace CosmOS.Sched

open Function List Option

abbrev Hart (maxHarts : ℕ) := Fin maxHarts

/-- Tasks are named by their `Arc` pointer. -/
abbrev Tid := ℕ

inductive TaskStatus
  | running
  | runnable
  | interruptible
  | uninterruptible
  | zombie
deriving Repr, DecidableEq

inductive SchedPolicy
  | idle
  | other
  | fifo
  | rr
deriving Repr, DecidableEq

def SchedPolicy.isRt : SchedPolicy → Bool
  | .fifo | .rr => true
  | _ => false

def schedRtPrioMax : ℕ := 99
def rtQueueLevels : ℕ := schedRtPrioMax + 1

theorem rtQueueLevels_pos : 0 < rtQueueLevels := Nat.succ_pos _
def cfsWakeupGranularityNs : ℕ := 1000000
def cfsYieldPenaltyNs : ℕ := 3000000
def rtSleepCfsBoostMinRunning : ℕ := 128
def rtSleepCfsBoostMaxTasks : ℕ := 8

abbrev RtPrio := Fin rtQueueLevels

/-- Virtual runtime first, then the task pointer. -/
abbrev CfsKey := ℕ ×ₗ Tid

def u64Max : ℕ := 2 ^ 64 - 1

def satAdd (a b : ℕ) : ℕ := min (a + b) u64Max

structure Task (maxHarts : ℕ) where
  status : TaskStatus
  onCpu : Bool
  onRq : Bool
  lastCpu : Hart maxHarts
  policy : SchedPolicy
  rtPriority : RtPrio
  rtEnqueueHead : Bool
  weight : ℕ
  vruntimeNs : ℕ
  cfsInitialized : Bool
  cfsRqKey : Option CfsKey
  cpuAffinityMask : Finset (Hart maxHarts)
deriving DecidableEq

structure RunQueue where
  rtQueues : RtPrio → List Tid
  highestRtPrio : Option RtPrio
  rtNrRunning : ℕ
  cfsTasks : BTreeMap CfsKey Tid
  cfsNrRunning : ℕ
  cfsLoad : ℕ
  minVruntimeNs : ℕ
  /-- A tree key ends in the pointer of the task it is the key of. -/
  key_ptr : ∀ k t, (k, t) ∈ cfsTasks → (ofLex k).2 = t

namespace RunQueue

def new : RunQueue where
  rtQueues := fun _ => []
  highestRtPrio := none
  rtNrRunning := 0
  cfsTasks := BTreeMap.empty
  cfsNrRunning := 0
  cfsLoad := 0
  minVruntimeNs := 0
  key_ptr := fun _ _ h => absurd h (BTreeMap.not_mem_empty _)

/-! ## Operations under the runqueue lock -/

variable (rq : RunQueue)

def leftmostCfsVruntime : Option ℕ :=
  rq.cfsTasks.first?.map fun e => (ofLex e.1).1

variable (accounted : Option ℕ)

/-- `refresh_min_vruntime`: the floor only moves up. -/
def refreshMinVruntime : RunQueue :=
  let low := accounted.elim rq.minVruntimeNs (max rq.minVruntimeNs)
  { rq with minVruntimeNs := rq.leftmostCfsVruntime.elim low (max low) }

/-- `refresh_highest_rt_prio`: the highest non-empty level, level 0 excluded. -/
def refreshHighestRtPrio : RunQueue :=
  { rq with highestRtPrio :=
      (List.finRange rtQueueLevels).reverse.find? fun p => p.val ≠ 0 ∧ rq.rtQueues p ≠ [] }

def placeCfsEntity (vruntimeNs : ℕ) (initialized : Bool) (hint : Option ℕ) :
    ℕ × Bool :=
  let effectiveMin := match hint with
    | some current => if rq.cfsNrRunning = 0 then current else min rq.minVruntimeNs current
    | none => rq.minVruntimeNs
  if initialized then (max vruntimeNs (effectiveMin - cfsWakeupGranularityNs), true)
  else (effectiveMin, true)

variable {maxHarts : ℕ} (t : Tid) (task : Task maxHarts)

def enqueueRt :
    RunQueue × Task maxHarts :=
  let prio := task.rtPriority
  let queue := if task.rtEnqueueHead then t :: rq.rtQueues prio else rq.rtQueues prio ++ [t]
  ({ rq with
      rtQueues := update rq.rtQueues prio queue
      rtNrRunning := rq.rtNrRunning + 1
      highestRtPrio := some (rq.highestRtPrio.elim prio (max · prio)) },
    { task with rtEnqueueHead := false })

def enqueueCfs (hint : Option ℕ) : RunQueue × Task maxHarts :=
  let placed := rq.placeCfsEntity task.vruntimeNs task.cfsInitialized hint
  let key : CfsKey := toLex (placed.1, t)
  let rq' : RunQueue :=
    { rq with
      cfsTasks := rq.cfsTasks.insert key t
      cfsNrRunning := rq.cfsNrRunning + 1
      cfsLoad := satAdd rq.cfsLoad task.weight
      key_ptr := by
        intro k t' h
        rcases BTreeMap.mem_insert.mp h with ⟨rfl, rfl⟩ | ⟨-, h⟩
        · rfl
        · exact rq.key_ptr k t' h }
  (rq'.refreshMinVruntime none,
    { task with
      vruntimeNs := placed.1
      cfsInitialized := placed.2
      cfsRqKey := some key })

/-- `enqueue_locked`; idle tasks are never enqueued (`unreachable!`). -/
def enqueueLocked (hint : Option ℕ) : Option (RunQueue × Task maxHarts) :=
  match task.policy with
  | .fifo | .rr => some (rq.enqueueRt t task)
  | .other => some (rq.enqueueCfs t task hint)
  | .idle => none

def dequeueHighestRt : Option (Tid × RunQueue) :=
  match rq.highestRtPrio with
  | none => none
  | some prio =>
    match rq.rtQueues prio with
    | [] => none
    | t :: rest =>
      some (t, { rq with
        rtQueues := update rq.rtQueues prio rest
        rtNrRunning := rq.rtNrRunning - 1 }.refreshHighestRtPrio)

section

variable {maxHarts : ℕ} (rq : RunQueue)

/-- The tree without `key`, with the load of the removed task taken off. -/
def unlinkCfs (key : CfsKey) (task : Task maxHarts) : RunQueue :=
  let rq' : RunQueue :=
    { rq with
      cfsTasks := rq.cfsTasks.erase key
      cfsLoad := rq.cfsLoad - task.weight
      cfsNrRunning := rq.cfsNrRunning - 1
      key_ptr := fun k t h => rq.key_ptr k t (BTreeMap.mem_erase.mp h).1 }
  rq'.refreshMinVruntime (some task.vruntimeNs)

variable (tasks : Tid → Task maxHarts)

/-- `remove_cfs_by_key`: also clears the key stored in the task. -/
def removeCfsByKey (key : CfsKey) :
    Option (Tid × RunQueue × (Tid → Task maxHarts)) :=
  (rq.cfsTasks.get? key).map fun t =>
    (t, rq.unlinkCfs key (tasks t), update tasks t { tasks t with cfsRqKey := none })

def dequeueLeftmostCfs :
    Option (Tid × RunQueue × (Tid → Task maxHarts)) :=
  rq.cfsTasks.first?.bind fun e => rq.removeCfsByKey tasks e.1

/-- The critical section of `dequeue_task`: RT first, then the leftmost CFS task. -/
def dequeue :
    Option (Tid × RunQueue × (Tid → Task maxHarts)) :=
  match rq.dequeueHighestRt with
  | some (t, rq') => some (t, rq', tasks)
  | none => rq.dequeueLeftmostCfs tasks

/-- The critical section of `steal_cfs_task` on the source runqueue: the first tree entry whose
affinity allows the target hart. -/
def stealFrom (target : Hart maxHarts) :
    Option (Tid × RunQueue × (Tid → Task maxHarts)) :=
  (rq.cfsTasks.entries.find? fun e => target ∈ (tasks e.2).cpuAffinityMask).bind fun e =>
    rq.removeCfsByKey tasks e.1

/-- `RunQueue::remove_task`; `none` is the source's `false`. -/
def removeTask (t : Tid) :
    Option (RunQueue × (Tid → Task maxHarts)) :=
  let task := tasks t
  match task.policy with
  | .fifo | .rr =>
    if t ∈ rq.rtQueues task.rtPriority then
      some ({ rq with
        rtQueues := update rq.rtQueues task.rtPriority
          ((rq.rtQueues task.rtPriority).erase t)
        rtNrRunning := rq.rtNrRunning - 1 }.refreshHighestRtPrio, tasks)
    else none
  | .other =>
    match task.cfsRqKey with
    | some key => (rq.removeCfsByKey tasks key).map Prod.snd
    | none =>
      (rq.cfsTasks.entries.find? fun e => e.2 = t).bind fun e =>
        (rq.removeCfsByKey tasks e.1).map Prod.snd
  | .idle => none

/-- One candidate of `boost_process_cfs_tasks`: a queued fair task of this runqueue is moved to
the front of the tree. -/
def boostOne (boosted : ℕ) (t : Tid) :
    Option (RunQueue × (Tid → Task maxHarts)) :=
  let task := tasks t
  if task.policy = .other ∧ task.onRq = true ∧ task.status = .runnable then
    match task.cfsRqKey with
    | none => none
    | some key =>
      if rq.cfsTasks.get? key = some t then
        let newKey : CfsKey := toLex (boosted, t)
        some ({ rq with
            cfsTasks := (rq.cfsTasks.erase key).insert newKey t
            key_ptr := by
              intro k t' h
              rcases BTreeMap.mem_insert.mp h with ⟨rfl, rfl⟩ | ⟨-, h⟩
              · rfl
              · exact rq.key_ptr k t' (BTreeMap.mem_erase.mp h).1 },
          update tasks t { task with vruntimeNs := boosted, cfsRqKey := some newKey })
      else none
  else none

/-- The candidate loop of `boost_process_cfs_tasks`; `budget` is the number of boosts left, which it
also returns. -/
def boostLoop (boosted : ℕ) :
    ℕ → RunQueue → (Tid → Task maxHarts) → List Tid → (RunQueue × (Tid → Task maxHarts)) × ℕ
  | 0, rq, tasks, _ => ((rq, tasks), 0)
  | budget, rq, tasks, [] => ((rq, tasks), budget)
  | budget + 1, rq, tasks, t :: rest =>
    match rq.boostOne tasks boosted t with
    | some (rq', tasks') => boostLoop boosted budget rq' tasks' rest
    | none => boostLoop boosted (budget + 1) rq tasks rest

def boostProcessCfsTasks (candidates : List Tid) :
    RunQueue × (Tid → Task maxHarts) :=
  if rq.cfsNrRunning < rtSleepCfsBoostMinRunning then (rq, tasks)
  else
    let (r, left) := boostLoop (rq.minVruntimeNs - cfsWakeupGranularityNs)
      rtSleepCfsBoostMaxTasks rq tasks candidates
    if left < rtSleepCfsBoostMaxTasks then (r.1.refreshMinVruntime none, r.2) else r

end

/-! ## Links -/

/-- In how many places of the runqueue a task is linked. -/
def linkCount : ℕ :=
  (∑ p, (rq.rtQueues p).count t) + rq.cfsTasks.values.count t

/-- One link of `t` less, everything else as before. -/
def Unlinks (rq rq' : RunQueue) (t : Tid) : Prop :=
  ∀ t', rq.linkCount t' = rq'.linkCount t' + if t' = t then 1 else 0

theorem linkCount_eq_zero {rq : RunQueue} {t : Tid} (h : rq.linkCount t = 0) :
    (∀ p, t ∉ rq.rtQueues p) ∧ t ∉ rq.cfsTasks.values := by
  have hsum : (∑ p, (rq.rtQueues p).count t) = 0 := Nat.eq_zero_of_add_eq_zero_right h
  have hcfs : rq.cfsTasks.values.count t = 0 := Nat.eq_zero_of_add_eq_zero_left h
  refine ⟨?_, count_eq_zero.mp hcfs⟩
  intro p
  have hp := Finset.sum_eq_zero_iff.mp hsum p (Finset.mem_univ p)
  exact count_eq_zero.mp hp

@[simp]
theorem linkCount_new : new.linkCount t = 0 := by
  simp [linkCount, new, BTreeMap.values, BTreeMap.empty]

@[simp]
theorem refreshMinVruntime_rtQueues :
    (rq.refreshMinVruntime accounted).rtQueues = rq.rtQueues := rfl

@[simp]
theorem refreshMinVruntime_cfsTasks :
    (rq.refreshMinVruntime accounted).cfsTasks = rq.cfsTasks := rfl

@[simp]
theorem refreshHighestRtPrio_rtQueues :
    rq.refreshHighestRtPrio.rtQueues = rq.rtQueues := rfl

@[simp]
theorem refreshHighestRtPrio_cfsTasks :
    rq.refreshHighestRtPrio.cfsTasks = rq.cfsTasks := rfl

/-- Replacing one RT level shifts the count by the difference of the two lists. -/
theorem sum_count_update (queues : RtPrio → List Tid) (p : RtPrio) (l : List Tid) (t : Tid) :
    (∑ q, (update queues p l q).count t) + (queues p).count t =
      (∑ q, (queues q).count t) + l.count t := by
  have hsplit := Finset.add_sum_erase Finset.univ (fun q => (queues q).count t) (Finset.mem_univ p)
  have hsplit' := Finset.add_sum_erase Finset.univ
    (fun q => (update queues p l q).count t) (Finset.mem_univ p)
  have hrest : ∑ q ∈ Finset.univ.erase p, (update queues p l q).count t =
      ∑ q ∈ Finset.univ.erase p, (queues q).count t := by
    refine Finset.sum_congr rfl ?_
    intro q hq
    rw [update_of_ne (Finset.ne_of_mem_erase hq)]
  simp only [update_self] at hsplit'
  omega

theorem count_singleton (t t' : Tid) : [t].count t' = if t' = t then 1 else 0 := by
  by_cases h : t' = t
  · simp [h]
  · simp [h, Ne.symm h]

section

variable {maxHarts : ℕ} {rq rq' : RunQueue} {tasks tasks' : Tid → Task maxHarts} {t : Tid}
  {task task' : Task maxHarts} {hint : Option ℕ}

theorem unlinks_enqueueRt (rq : RunQueue) (t : Tid) (task : Task maxHarts) :
    Unlinks (rq.enqueueRt t task).1 rq t := by
  intro t'
  have hsum := sum_count_update rq.rtQueues task.rtPriority (if task.rtEnqueueHead then t ::
    rq.rtQueues task.rtPriority else rq.rtQueues task.rtPriority ++ [t]) t'
  have hlen : (if task.rtEnqueueHead then t :: rq.rtQueues task.rtPriority
      else rq.rtQueues task.rtPriority ++ [t]).count t' =
        (rq.rtQueues task.rtPriority).count t' + if t' = t then 1 else 0 := by
    rw [← count_singleton]
    split
    · rw [← singleton_append, count_append, Nat.add_comm]
    · rw [count_append]
  simp only [linkCount, enqueueRt]
  omega

/-- Linking a task that is linked nowhere in this runqueue. -/
theorem unlinks_enqueueCfs (rq : RunQueue) (t : Tid) (task : Task maxHarts) (hint : Option ℕ)
    (h : rq.linkCount t = 0) : Unlinks (rq.enqueueCfs t task hint).1 rq t := by
  intro t'
  have hfresh : ∀ b, (toLex ((rq.placeCfsEntity task.vruntimeNs task.cfsInitialized hint).1, t),
      b) ∉ rq.cfsTasks := by
    intro b hb
    have hbt : t = b := rq.key_ptr _ b hb
    subst hbt
    exact (linkCount_eq_zero h).2 (BTreeMap.mem_values.mpr ⟨_, hb⟩)
  have hcount := BTreeMap.count_values_insert hfresh t t'
  simp only [linkCount, enqueueCfs, refreshMinVruntime_rtQueues, refreshMinVruntime_cfsTasks]
  omega

theorem unlinks_enqueueLocked (he : rq.enqueueLocked t task hint = some (rq', task'))
    (h : rq.linkCount t = 0) : Unlinks rq' rq t := by
  unfold enqueueLocked at he
  split at he
  case h_1 | h_2 =>
    cases he
    exact unlinks_enqueueRt rq t task
  · cases he
    exact unlinks_enqueueCfs rq t task hint h
  · simp at he

/-- Enqueueing moves none of the ownership flags of the task. -/
theorem enqueueLocked_task (he : rq.enqueueLocked t task hint = some (rq', task')) :
    task'.status = task.status ∧ task'.onCpu = task.onCpu ∧ task'.onRq = task.onRq ∧
      ∀ k, task'.cfsRqKey = some k → task.cfsRqKey = some k ∨ (ofLex k).2 = t := by
  unfold enqueueLocked at he
  split at he
  case h_1 | h_2 =>
    cases he
    exact ⟨rfl, rfl, rfl, fun _ hk => .inl hk⟩
  · cases he
    refine ⟨rfl, rfl, rfl, ?_⟩
    intro k hk
    right
    cases hk
    rfl
  · simp at he

theorem unlinks_dequeueHighestRt (h : rq.dequeueHighestRt = some (t, rq')) : Unlinks rq rq' t := by
  unfold dequeueHighestRt at h
  split at h
  · simp at h
  rename_i prio _
  split at h
  · simp at h
  rename_i t₀ rest hqueue
  obtain ⟨rfl, rfl⟩ := Prod.mk.inj (some.inj h)
  intro t'
  have hsum := sum_count_update rq.rtQueues prio rest t'
  have hlen : (rq.rtQueues prio).count t' = rest.count t' + if t' = t₀ then 1 else 0 := by
    rw [hqueue, ← count_singleton, ← singleton_append, count_append, Nat.add_comm]
  simp only [linkCount, refreshHighestRtPrio_rtQueues, refreshHighestRtPrio_cfsTasks]
  omega

/-! ## Operations that touch the tasks

Besides its runqueue, an operation may rewrite keys and virtual runtimes of tasks.  It keeps the
ownership flags of every task, and every stored key still ends in its own task. -/

/-- The task table changes in keys and runtimes only. -/
def SameFlags (tasks tasks' : Tid → Task maxHarts) : Prop :=
  ∀ t, (tasks' t).status = (tasks t).status ∧ (tasks' t).onCpu = (tasks t).onCpu ∧
    (tasks' t).onRq = (tasks t).onRq

/-- Every stored tree key ends in the task that stores it. -/
def OwnKeys (tasks : Tid → Task maxHarts) : Prop :=
  ∀ t k, (tasks t).cfsRqKey = some k → (ofLex k).2 = t

theorem SameFlags.refl (tasks : Tid → Task maxHarts) : SameFlags tasks tasks :=
  fun _ => ⟨rfl, rfl, rfl⟩

theorem SameFlags.trans {tasks tasks' tasks'' : Tid → Task maxHarts} (h : SameFlags tasks tasks')
    (h' : SameFlags tasks' tasks'') : SameFlags tasks tasks'' := by
  intro t
  obtain ⟨h1, h2, h3⟩ := h t
  obtain ⟨h1', h2', h3'⟩ := h' t
  exact ⟨h1'.trans h1, h2'.trans h2, h3'.trans h3⟩

theorem sameFlags_update (hs : task.status = (tasks t).status) (hc : task.onCpu = (tasks t).onCpu)
    (hr : task.onRq = (tasks t).onRq) : SameFlags tasks (update tasks t task) := by
  intro t'
  rcases eq_or_ne t' t with rfl | h
  · rw [update_self]
    exact ⟨hs, hc, hr⟩
  · rw [update_of_ne h]
    exact ⟨rfl, rfl, rfl⟩

theorem ownKeys_update (h : OwnKeys tasks) (hk : ∀ k, task.cfsRqKey = some k → (ofLex k).2 = t) :
    OwnKeys (update tasks t task) := by
  intro t' k hk'
  rcases eq_or_ne t' t with rfl | ht
  · rw [update_self] at hk'
    exact hk k hk'
  · rw [update_of_ne ht] at hk'
    exact h t' k hk'

/-- What taking one task out of a runqueue does. -/
structure Takes (rq : RunQueue) (tasks : Tid → Task maxHarts) (t : Tid) (rq' : RunQueue)
    (tasks' : Tid → Task maxHarts) : Prop where
  unlinks : Unlinks rq rq' t
  flags : SameFlags tasks tasks'
  keys : OwnKeys tasks → OwnKeys tasks'

theorem removeCfsByKey_takes {key : CfsKey}
    (h : rq.removeCfsByKey tasks key = some (t, rq', tasks')) :
    Takes rq tasks t rq' tasks' ∧ (ofLex key).2 = t := by
  rcases map_eq_some_iff.mp h with ⟨t₀, ht₀, heq⟩
  obtain ⟨rfl, hrest⟩ := Prod.mk.inj heq
  cases hrest
  have hmem := BTreeMap.get?_eq_some_iff.mp ht₀
  refine ⟨⟨?_, sameFlags_update rfl rfl rfl, fun hk => ownKeys_update hk (by simp)⟩,
    rq.key_ptr key t₀ hmem⟩
  intro t'
  have hcount := BTreeMap.count_values_erase hmem t'
  simp only [linkCount, unlinkCfs, refreshMinVruntime_rtQueues, refreshMinVruntime_cfsTasks]
  omega

theorem dequeue_takes (h : rq.dequeue tasks = some (t, rq', tasks')) :
    Takes rq tasks t rq' tasks' := by
  unfold dequeue at h
  split at h
  next hrt =>
    obtain ⟨rfl, hrest⟩ := Prod.mk.inj (some.inj h)
    cases hrest
    exact ⟨unlinks_dequeueHighestRt hrt, SameFlags.refl _, id⟩
  · obtain ⟨e, -, he⟩ := bind_eq_some_iff.mp h
    exact (removeCfsByKey_takes he).1

theorem removeTask_takes (hkeys : OwnKeys tasks) (h : rq.removeTask tasks t = some (rq', tasks')) :
    Takes rq tasks t rq' tasks' := by
  -- Both RT policies take the same branch.
  have hrt : ∀ prio : RtPrio, t ∈ rq.rtQueues prio →
      Unlinks rq { rq with
        rtQueues := update rq.rtQueues prio ((rq.rtQueues prio).erase t)
        rtNrRunning := rq.rtNrRunning - 1 }.refreshHighestRtPrio t := by
    intro prio hmem t'
    have hsum := sum_count_update rq.rtQueues prio ((rq.rtQueues prio).erase t) t'
    have hlen : (rq.rtQueues prio).count t' =
        ((rq.rtQueues prio).erase t).count t' + if t' = t then 1 else 0 := by
      rw [(perm_cons_erase hmem).count_eq, ← count_singleton, ← singleton_append,
        count_append, Nat.add_comm]
    simp only [linkCount, refreshHighestRtPrio_rtQueues, refreshHighestRtPrio_cfsTasks]
    omega
  unfold removeTask at h
  simp only at h
  split at h
  case h_1 | h_2 =>
    split at h
    next hmem =>
      cases h
      exact ⟨hrt _ hmem, SameFlags.refl _, id⟩
    · simp at h
  · split at h
    next key hkey =>
      rcases map_eq_some_iff.mp h with ⟨⟨t₀, r₀⟩, hr, rfl⟩
      obtain ⟨htakes, hptr⟩ := removeCfsByKey_takes hr
      obtain rfl : t = t₀ := (hkeys t key hkey).symm.trans hptr
      exact htakes
    · obtain ⟨e, he, hr⟩ := bind_eq_some_iff.mp h
      rcases map_eq_some_iff.mp hr with ⟨⟨t₀, r₀⟩, hr, rfl⟩
      obtain ⟨htakes, hptr⟩ := removeCfsByKey_takes hr
      have het : e.2 = t := by simpa using find?_some he
      have hemem : (e.1, e.2) ∈ rq.cfsTasks := mem_of_find?_eq_some he
      obtain rfl : t = t₀ := by rw [← het, ← rq.key_ptr e.1 e.2 hemem, hptr]
      exact htakes
  · simp at h

/-- Boosting re-keys tasks inside the tree; no task changes its number of links. -/
structure Rekeys (rq : RunQueue) (tasks : Tid → Task maxHarts) (rq' : RunQueue)
    (tasks' : Tid → Task maxHarts) : Prop where
  count : ∀ t, rq'.linkCount t = rq.linkCount t
  flags : SameFlags tasks tasks'
  keys : OwnKeys tasks → OwnKeys tasks'

theorem boostOne_rekeys {boosted : ℕ} (hlink : rq.linkCount t ≤ 1)
    (h : rq.boostOne tasks boosted t = some (rq', tasks')) : Rekeys rq tasks rq' tasks' := by
  unfold boostOne at h
  simp only at h
  rcases Option.ite_none_right_eq_some.mp h with ⟨_, h⟩
  split at h
  · simp at h
  rename_i key _
  rcases Option.ite_none_right_eq_some.mp h with ⟨hget, h⟩
  cases h
  have hmem := BTreeMap.get?_eq_some_iff.mp hget
  refine ⟨?_, sameFlags_update rfl rfl rfl, fun hk => ownKeys_update hk ?_⟩
  · intro t'
    have herase := BTreeMap.count_values_erase hmem t'
    have hfresh : ∀ b, (toLex (boosted, t), b) ∉ rq.cfsTasks.erase key := by
      intro b hb
      have hb' := (BTreeMap.mem_erase.mp hb).1
      obtain rfl : t = b := rq.key_ptr _ b hb'
      -- A second entry of the same task would be a second link.
      have hself := BTreeMap.count_values_erase hmem t
      have hpos : 0 < (rq.cfsTasks.erase key).values.count t :=
        count_pos_iff.mpr (BTreeMap.mem_values.mpr ⟨_, hb⟩)
      simp only [linkCount, if_true] at hlink hself
      omega
    have hinsert := BTreeMap.count_values_insert hfresh t t'
    simp only [linkCount]
    omega
  · intro k hk
    cases hk
    rfl

theorem boostLoop_rekeys (boosted budget : ℕ) (candidates : List Tid) (rq : RunQueue)
    (tasks : Tid → Task maxHarts) (hlink : ∀ t, rq.linkCount t ≤ 1) :
    Rekeys rq tasks (boostLoop boosted budget rq tasks candidates).1.1
      (boostLoop boosted budget rq tasks candidates).1.2 := by
  induction candidates generalizing budget rq tasks with
  | nil => cases budget <;> exact ⟨fun _ => rfl, SameFlags.refl _, id⟩
  | cons t rest ih =>
    cases budget with
    | zero => exact ⟨fun _ => rfl, SameFlags.refl _, id⟩
    | succ budget =>
      rw [boostLoop]
      split
      next rq' tasks' hone =>
        have hr := boostOne_rekeys (hlink t) hone
        have hlink' : ∀ t, rq'.linkCount t ≤ 1 := by
          intro t'
          rw [hr.count t']
          exact hlink t'
        have hrest := ih budget rq' tasks' hlink'
        exact ⟨fun t' => (hrest.count t').trans (hr.count t'), hr.flags.trans hrest.flags,
          fun hk => hrest.keys (hr.keys hk)⟩
      · exact ih (budget + 1) rq tasks hlink

theorem boostProcessCfsTasks_rekeys (rq : RunQueue) (tasks : Tid → Task maxHarts)
    (candidates : List Tid) (hlink : ∀ t, rq.linkCount t ≤ 1) :
    Rekeys rq tasks (rq.boostProcessCfsTasks tasks candidates).1
      (rq.boostProcessCfsTasks tasks candidates).2 := by
  unfold boostProcessCfsTasks
  split
  · exact ⟨fun _ => rfl, SameFlags.refl _, id⟩
  · have hr := boostLoop_rekeys (rq.minVruntimeNs - cfsWakeupGranularityNs)
      rtSleepCfsBoostMaxTasks candidates rq tasks hlink
    dsimp only
    split
    · exact { hr with }
    · exact hr

end

end RunQueue

end CosmOS.Sched
