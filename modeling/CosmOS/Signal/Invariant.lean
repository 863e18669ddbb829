import CosmOS.Signal.System

/-!
# Signal.Invariant — a task with signal work has its hint set

The invariant: a task that has signal work has its hint set, or a sender is about to set it, or the task
does not come to a test of its hint from where it is (it is not attached yet, between the two halves of
`restore_temp_signal_mask`, exiting, or taken down by `execve`).

What a section may do is said once, in `Effect`, and the invariant is derived from that.
-/

namespace CosmOS.Signal

open Function

/-! ## What is owed to a task, and who is out -/

/-- The sender is still to set the hint of `t`. -/
def Sender.Owes (t : TaskId) : Sender → Prop
  | .idle => False
  | .toProcess _ rest => t ∈ rest
  | .toTask u => u = t

instance (t : TaskId) : DecidablePred (Sender.Owes t)
  | .idle => isFalse id
  | .toProcess _ rest => inferInstanceAs (Decidable (t ∈ rest))
  | .toTask u => inferInstanceAs (Decidable (u = t))

def State.Owed (s : State) (t : TaskId) : Prop := ∃ c, (s.senders c).Owes t

def Pc.Unattached : Pc → Prop
  | .unborn | .created | .attaching .. => True
  | _ => False

/-- The task was taken down and is off its CPU. -/
def Task.Gone (task : Task) : Prop := task.exitCode = true ∧ task.place.onCpu = false

/-- The task does not come to a test of its hint from here. -/
def Task.Out (task : Task) : Prop :=
  task.pc.Unattached ∨ task.pc = .unmarked ∨ task.pc = .exited ∨ task.Gone

/-- What `attach_task` has read is still so. -/
def Task.AttachOk (task : Task) : Prop :=
  ∀ pending mask restore, task.pc = .attaching pending mask restore →
    task.pendingSignals = pending ∧ task.signalMask = mask ∧ task.signalMaskBackup.isSome = restore

/-- What `exec` knows of the siblings on its lists. -/
def ExecOk (s : State) : ExecPc → Prop
  | .visiting rest running active =>
    (∀ u ∈ rest, (s.tasks u).pc ≠ .unborn) ∧
      ∀ u ∈ active, (s.tasks u).exitCode = true ∧ (u ∈ running ∨ (s.tasks u).Gone)
  | .unlinking sibling rest running active =>
    (∀ u ∈ sibling :: rest, (s.tasks u).pc ≠ .unborn) ∧
      ∀ u ∈ active, (s.tasks u).exitCode = true ∧ (u ∈ running ∨ (s.tasks u).Gone)
  | .waiting running active =>
    ∀ u ∈ active, (s.tasks u).exitCode = true ∧ (u ∈ running ∨ (s.tasks u).Gone)
  | .removing active => ∀ u ∈ active, (s.tasks u).Gone
  | _ => True

structure Inv (s : State) : Prop where
  hint : ∀ t, (s.tasks t).needed (s.procOf t) = true →
    (s.tasks t).signalWorkPending = true ∨ s.Owed t ∨ (s.tasks t).Out
  table : ∀ t, t ∉ (s.procOf t).tasks →
    (s.tasks t).pc.Unattached ∨ (s.tasks t).pc = .exited ∨ (s.tasks t).Gone
  listed : ∀ pid, ∀ t ∈ (s.procs pid).tasks, (s.tasks t).pc ≠ .unborn
  zombie : ∀ t, (s.tasks t).exitCode = true → (s.tasks t).status = .zombie ∧ (s.tasks t).pc ≠ .unborn
  attaching : ∀ t, (s.tasks t).AttachOk
  exec : ∀ t pc, (s.tasks t).pc = .exec pc → ExecOk s pc

/-! ## Less pending, more masked -/

theorem signalWorkNeeded_iff {threadPending processPending mask : SignalBit} {restore : Bool} :
    signalWorkNeeded threadPending processPending mask restore = true ↔
      restore = true ∨ ∃ sig, (sig ∈ threadPending ∨ sig ∈ processPending) ∧
        sig ∉ mask.withoutUnblockable := by
  simp only [signalWorkNeeded, Bool.or_eq_true, Bool.not_eq_true', decide_eq_false_iff_not]
  refine or_congr Iff.rfl ?_
  rw [← ne_eq, ← Finset.nonempty_iff_ne_empty]
  constructor
  · rintro ⟨sig, hsig⟩
    rw [Finset.mem_sdiff, Finset.mem_union] at hsig
    exact ⟨sig, hsig⟩
  · rintro ⟨sig, hsig⟩
    exact ⟨sig, by rwa [Finset.mem_sdiff, Finset.mem_union]⟩

/-- The work of a task does not grow. -/
structure Task.Less (a b : Task) : Prop where
  pending : b.pendingSignals ⊆ a.pendingSignals
  mask : a.signalMask ⊆ b.signalMask
  restore : b.signalMaskBackup.isSome = true → a.signalMaskBackup.isSome = true

theorem Task.Less.refl (a : Task) : a.Less a := ⟨Finset.Subset.refl _, Finset.Subset.refl _, id⟩

theorem Task.Less.needed {a b : Task} {p q : Process} (h : a.Less b)
    (hp : q.pendingSignals ⊆ p.pendingSignals) (hb : b.needed q = true) : a.needed p = true := by
  rw [Task.needed, signalWorkNeeded_iff] at *
  rcases hb with hb | ⟨sig, hpending, hmask⟩
  · exact .inl (h.restore hb)
  · refine .inr ⟨sig, hpending.imp (fun hs => h.pending hs) fun hs => hp hs, fun hs => hmask ?_⟩
    exact Finset.sdiff_subset_sdiff h.mask (Finset.Subset.refl _) hs

/-! ## What a section does to a task -/

/-- What is never undone. -/
structure Evolves (a b : Task) : Prop where
  unborn : a.pc = .unborn → b.pc.Unattached
  born : a.pc ≠ .unborn → b.pc ≠ .unborn ∧ b.pid = a.pid
  exit : a.exitCode = true → b.exitCode = true
  gone : a.Gone → b.Gone
  exited : a.pc = .exited → b.pc = .exited

theorem Evolves.refl (a : Task) : Evolves a a :=
  ⟨fun h => by rw [h]; trivial, fun h => ⟨h, rfl⟩, id, id, id⟩

/-- A task whose code, process and exit code stay, and which does not come back from where it is. -/
theorem Evolves.of_pc {a b : Task} (hpid : b.pid = a.pid) (hpc : b.pc = a.pc)
    (hexit : a.exitCode = true → b.exitCode = true) (hplace : a.Gone → b.place.onCpu = false) :
    Evolves a b where
  unborn h := by rw [hpc, h]; trivial
  born h := ⟨by rwa [hpc], hpid⟩
  exit := hexit
  gone h := ⟨hexit h.1, hplace h⟩
  exited h := by rw [hpc, h]

/-- The hint after a section is right, or the section has taken work away and left the hint. -/
def HintKept (a b : Task) (q : Process) : Prop :=
  (b.needed q = true → b.signalWorkPending = true) ∨ b.Out ∨
    (a.Less b ∧ b.signalWorkPending = a.signalWorkPending ∧ (a.Out → b.Out))

/-- A task before and after a section that it takes, or that the scheduler takes for it. -/
structure TaskStep (s : State) (a b : Task) (q : Process) : Prop where
  evolves : Evolves a b
  hint : HintKept a b q
  zombie : b.exitCode = true → b.status = .zombie ∧ b.pc ≠ .unborn
  attaching : b.AttachOk
  exec : ∀ pc, b.pc = .exec pc → ExecOk s pc

inductive Effect (s : State) : State → Prop
  | own (t : TaskId) (b : Task) (q : Process) (hstep : TaskStep s (s.tasks t) b q)
      (hpending : q.pendingSignals ⊆ (s.procOf t).pendingSignals)
      (hleft : ∀ u, u ∉ q.tasks → (u ∉ (s.procOf t).tasks ∧ (u = t → (s.tasks t).pc.Unattached →
        b.pc.Unattached)) ∨ (s.tasks u).Gone ∨ (u = t ∧ b.pc = .exited))
      (hlisted : ∀ u ∈ q.tasks, u ∈ (s.procOf t).tasks ∨ (u = t ∧ b.pc ≠ .unborn)) :
      Effect s ((s.setTask t b).setProc (s.tasks t).pid q)
  | sibling (t u : TaskId) (pc : ExecPc) (b : Task) (hne : u ≠ t)
      (hexec : ∃ pc, (s.tasks t).pc = .exec pc)
      (hstep : TaskStep s (s.tasks u) b (s.procOf u))
      (hpid : b.pid = (s.tasks u).pid) (hpc : b.pc = (s.tasks u).pc)
      (hok : ExecOk ((s.setTask t { s.tasks t with pc := .exec pc }).setTask u b) pc) :
      Effect s ((s.setTask t { s.tasks t with pc := .exec pc }).setTask u b)
  | sendProcess (c : SenderId) (pid : Pid) (signal : SignalBit) (hidle : s.senders c = .idle) :
      Effect s ((s.setProc pid { s.procs pid with
        pendingSignals := (s.procs pid).pendingSignals ∪ signal, locked := true }).setSender c
          (.toProcess pid (s.procs pid).tasks))
  | sendTask (c : SenderId) (t : TaskId) (signal : SignalBit) (hidle : s.senders c = .idle)
      (hattached : ¬ (s.tasks t).pc.Unattached) :
      Effect s ((s.setTask t { s.tasks t with
        pendingSignals := (s.tasks t).pendingSignals ∪ signal, locked := true }).setSender c (.toTask t))
  | unlock (c : SenderId) (pid : Pid) (hc : s.senders c = .toProcess pid []) :
      Effect s ((s.setProc pid { s.procs pid with locked := false }).setSender c .idle)
  | mark (c : SenderId) (t : TaskId) (locked : Bool) (sender : Sender)
      (hc : ∀ u, (s.senders c).Owes u → u = t ∨ sender.Owes u) :
      Effect s ((s.setTask t { s.tasks t with signalWorkPending := true, locked }).setSender c sender)

/-! ## What a section keeps -/

section

variable {s s' : State} (t : TaskId)

@[simp] theorem setTask_tasks_self (b : Task) : (s.setTask t b).tasks t = b :=
  update_self ..

variable {u : TaskId} {sender : Sender} {c : SenderId}

theorem setTask_tasks_of_ne {t : TaskId} (h : u ≠ t) (b : Task) :
    (s.setTask t b).tasks u = s.tasks u :=
  update_of_ne h ..

@[simp] theorem setTask_procs (b : Task) : (s.setTask t b).procs = s.procs := rfl

@[simp] theorem setTask_senders (b : Task) : (s.setTask t b).senders = s.senders := rfl

variable (pid : Pid)

@[simp] theorem setProc_tasks (p : Process) : (s.setProc pid p).tasks = s.tasks := rfl

@[simp] theorem setProc_senders (p : Process) :
    (s.setProc pid p).senders = s.senders := rfl

@[simp] theorem setProc_procs_self (p : Process) : (s.setProc pid p).procs pid = p :=
  update_self ..

theorem setProc_procs_of_ne {pid pid' : Pid} (h : pid' ≠ pid) (p : Process) :
    (s.setProc pid p).procs pid' = s.procs pid' :=
  update_of_ne h ..

@[simp] theorem setSender_tasks (c : SenderId) (sender : Sender) :
    (s.setSender c sender).tasks = s.tasks := rfl

@[simp] theorem setSender_procs (c : SenderId) (sender : Sender) :
    (s.setSender c sender).procs = s.procs := rfl

theorem setTask_same : s.setTask t (s.tasks t) = s := by
  rw [State.setTask, update_eq_self]

/-- What a section is to each task. -/
inductive Seen (s s' : State) (u : TaskId) : Prop
  | same (h : s'.tasks u = s.tasks u)
  | own (q : Process) (h : TaskStep s (s.tasks u) (s'.tasks u) q)
  | exec (old pc : ExecPc) (hold : (s.tasks u).pc = .exec old)
      (h : s'.tasks u = { s.tasks u with pc := .exec pc }) (hok : ExecOk s' pc)
  | sent (pending : SignalBit) (hint locked : Bool)
      (h : s'.tasks u = { s.tasks u with
        pendingSignals := pending, signalWorkPending := hint, locked := locked })
      (hpending : (s.tasks u).pc.Unattached → pending = (s.tasks u).pendingSignals)

theorem Effect.seen (h : Effect s s') (u : TaskId) : Seen s s' u := by
  cases h with
  | own t b q hstep _ _ _ =>
    rcases eq_or_ne u t with rfl | hu
    · exact .own q (by simpa using hstep)
    · exact .same (setTask_tasks_of_ne hu b)
  | sibling t v pc b hne hexec hstep _ _ hok =>
    obtain ⟨old, hold⟩ := hexec
    rcases eq_or_ne u v with rfl | hv
    · exact .own _ (by simpa using hstep)
    rcases eq_or_ne u t with rfl | hu
    · exact .exec old pc hold (by rw [setTask_tasks_of_ne hv, setTask_tasks_self]) hok
    · exact .same (by rw [setTask_tasks_of_ne hv, setTask_tasks_of_ne hu])
  | sendProcess c pid signal _ | unlock c pid _ => exact .same rfl
  | sendTask c t signal _ hattached =>
    rcases eq_or_ne u t with rfl | hu
    · exact .sent _ _ _ (setTask_tasks_self u _) fun h => absurd h hattached
    · exact .same (setTask_tasks_of_ne hu _)
  | mark c t locked sender _ =>
    rcases eq_or_ne u t with rfl | hu
    · exact .sent _ _ _ (setTask_tasks_self u _) fun _ => rfl
    · exact .same (setTask_tasks_of_ne hu _)

theorem Seen.evolves (h : Seen s s' u) : Evolves (s.tasks u) (s'.tasks u) := by
  cases h with
  | same h => rw [h]; exact .refl _
  | own q h => exact h.evolves
  | exec old pc hold h _ =>
    rw [h]
    refine ⟨fun hu => ?_, fun _ => ⟨nofun, rfl⟩, id, id, fun hu => ?_⟩
    · rw [hold] at hu; cases hu
    · rw [hold] at hu; cases hu
  | sent pending hint locked h _ => rw [h]; exact .of_pc rfl rfl id fun h => h.2

theorem Effect.evolves (h : Effect s s') (u : TaskId) : Evolves (s.tasks u) (s'.tasks u) :=
  (h.seen u).evolves

/-- What `exec` knows of its siblings is never undone. -/
theorem ExecOk.mono (h : ∀ u, Evolves (s.tasks u) (s'.tasks u)) {pc : ExecPc} (hok : ExecOk s pc) :
    ExecOk s' pc := by
  have hborn : ∀ l : List TaskId, (∀ u ∈ l, (s.tasks u).pc ≠ .unborn) →
      ∀ u ∈ l, (s'.tasks u).pc ≠ .unborn :=
    fun l hl u hu => ((h u).born (hl u hu)).1
  have hactive : ∀ running active : List TaskId,
      (∀ u ∈ active, (s.tasks u).exitCode = true ∧ (u ∈ running ∨ (s.tasks u).Gone)) →
      ∀ u ∈ active, (s'.tasks u).exitCode = true ∧ (u ∈ running ∨ (s'.tasks u).Gone) :=
    fun running active hl u hu => ⟨(h u).exit (hl u hu).1, (hl u hu).2.imp_right (h u).gone⟩
  match pc, hok with
  | .visiting .., hok | .unlinking .., hok => exact ⟨hborn _ hok.1, hactive _ _ hok.2⟩
  | .waiting .., hok => exact hactive _ _ hok
  | .removing _, hok => exact fun u hu => (h u).gone (hok u hu)
  | .snapshot, _ | .clearProcess, _ | .clearTask, _ | .refresh, _ => trivial

section

variable (hinv : Inv s) (h : Effect s s')

include hinv h

theorem Effect.zombie (u : TaskId) (hexit : (s'.tasks u).exitCode = true) :
    (s'.tasks u).status = .zombie ∧ (s'.tasks u).pc ≠ .unborn := by
  cases h.seen u with
  | same h | sent pending hint locked h _ => rw [h] at hexit ⊢; exact hinv.zombie u hexit
  | own q h => exact h.zombie hexit
  | exec old pc hold h _ =>
    rw [h] at hexit ⊢
    exact ⟨(hinv.zombie u hexit).1, nofun⟩

theorem Effect.attaching (u : TaskId) : (s'.tasks u).AttachOk := by
  cases h.seen u with
  | same h => rw [h]; exact hinv.attaching u
  | own q h => exact h.attaching
  | exec old pc hold h _ =>
    rw [h]
    intro pending mask restore hpc
    cases hpc
  | sent pending hint locked h hpending =>
    rw [h]
    intro pending' mask restore hpc
    rw [hpending (by rw [hpc]; trivial)]
    exact hinv.attaching u _ _ _ hpc

theorem Effect.exec (u : TaskId) (pc : ExecPc)
    (hpc : (s'.tasks u).pc = .exec pc) : ExecOk s' pc := by
  have hmono : ExecOk s pc → ExecOk s' pc := ExecOk.mono h.evolves
  cases h.seen u with
  | same h | sent pending hint locked h _ => rw [h] at hpc; exact hmono (hinv.exec u pc hpc)
  | own q h => exact hmono (h.exec pc hpc)
  | exec old pc' hold h hok =>
    rw [h] at hpc
    cases hpc
    exact hok

theorem Effect.listed (pid : Pid) (u : TaskId)
    (hu : u ∈ (s'.procs pid).tasks) : (s'.tasks u).pc ≠ .unborn := by
  have hold : ∀ pid', u ∈ (s.procs pid').tasks → (s'.tasks u).pc ≠ .unborn :=
    fun pid' hmem => ((h.evolves u).born (hinv.listed pid' u hmem)).1
  cases h with
  | own t b q hstep _ _ hlisted =>
    rcases eq_or_ne pid (s.tasks t).pid with rfl | hpid
    · rw [setProc_procs_self] at hu
      rcases hlisted u hu with hmem | ⟨rfl, hb⟩
      · exact hold _ hmem
      · simpa using hb
    · rw [setProc_procs_of_ne hpid] at hu
      exact hold pid hu
  | sibling t v pc b _ _ _ _ _ _ | sendTask c t signal _ _ | mark c t locked sender _ =>
    exact hold pid hu
  | sendProcess c pid' signal _ | unlock c pid' _ =>
    rcases eq_or_ne pid pid' with rfl | hpid
    · rw [setSender_procs, setProc_procs_self] at hu
      exact hold pid hu
    · rw [setSender_procs, setProc_procs_of_ne hpid] at hu
      exact hold pid hu

end

/-- Why a task is not in the table of its process after a section. -/
theorem Effect.left (h : Effect s s') (u : TaskId) (hu : u ∉ (s'.procs (s.tasks u).pid).tasks) :
    (u ∉ (s.procOf u).tasks ∧ ((s.tasks u).pc.Unattached → (s'.tasks u).pc.Unattached)) ∨
      (s.tasks u).Gone ∨ (s'.tasks u).pc = .exited := by
  cases h with
  | own t b q hstep _ hleft _ =>
    rcases eq_or_ne (s.tasks u).pid (s.tasks t).pid with hpid | hpid
    · rw [hpid, setProc_procs_self] at hu
      have hproc : s.procOf u = s.procOf t := by rw [State.procOf, State.procOf, hpid]
      rcases hleft u hu with ⟨hmem, hstay⟩ | hgone | ⟨rfl, hexited⟩
      · refine .inl ⟨by rwa [hproc], fun hun => ?_⟩
        rcases eq_or_ne u t with rfl | hne
        · simpa using hstay rfl hun
        · simpa [setTask_tasks_of_ne hne] using hun
      · exact .inr (.inl hgone)
      · exact .inr (.inr (by simpa using hexited))
    · rw [setProc_procs_of_ne hpid] at hu
      have hne : u ≠ t := fun h => hpid (by rw [h])
      exact .inl ⟨hu, fun hun => by simpa [setTask_tasks_of_ne hne] using hun⟩
  | sibling t v pc b hne hexec _ _ hpc _ =>
    refine .inl ⟨hu, fun hun => ?_⟩
    obtain ⟨old, hold⟩ := hexec
    rcases eq_or_ne u v with rfl | hv
    · rwa [setTask_tasks_self, hpc]
    rcases eq_or_ne u t with rfl | ht
    · rw [hold] at hun
      exact hun.elim
    · rwa [setTask_tasks_of_ne hv, setTask_tasks_of_ne ht]
  | sendProcess c pid signal _ | unlock c pid _ =>
    refine .inl ⟨fun hmem => hu ?_, id⟩
    rcases eq_or_ne (s.tasks u).pid pid with rfl | hpid
    · rwa [setSender_procs, setProc_procs_self]
    · rwa [setSender_procs, setProc_procs_of_ne hpid]
  | sendTask c t signal _ hattached =>
    refine .inl ⟨hu, fun hun => ?_⟩
    have hne : u ≠ t := fun h => hattached (by rwa [h] at hun)
    rwa [setSender_tasks, setTask_tasks_of_ne hne]
  | mark c t locked sender _ =>
    refine .inl ⟨hu, fun hun => ?_⟩
    rcases eq_or_ne u t with rfl | hne
    · rwa [setSender_tasks, setTask_tasks_self]
    · rwa [setSender_tasks, setTask_tasks_of_ne hne]

theorem Effect.table (hinv : Inv s) (h : Effect s s') (u : TaskId) (hu : u ∉ (s'.procOf u).tasks) :
    (s'.tasks u).pc.Unattached ∨ (s'.tasks u).pc = .exited ∨ (s'.tasks u).Gone := by
  by_cases hborn : (s.tasks u).pc = .unborn
  · exact .inl ((h.evolves u).unborn hborn)
  rw [State.procOf, ((h.evolves u).born hborn).2] at hu
  rcases h.left u hu with ⟨hmem, hstay⟩ | hgone | hexited
  · rcases hinv.table u hmem with hun | hexited | hgone
    · exact .inl (hstay hun)
    · exact .inr (.inl ((h.evolves u).exited hexited))
    · exact .inr (.inr ((h.evolves u).gone hgone))
  · exact .inr (.inr ((h.evolves u).gone hgone))
  · exact .inr (.inl hexited)

/-- The hint of a task on which only its process acts. -/
theorem hint_of_less (hinv : Inv s) {b : Task} {q : Process} (hless : (s.tasks u).Less b)
    (hq : q.pendingSignals ⊆ (s.procOf u).pendingSignals)
    (hhint : b.signalWorkPending = (s.tasks u).signalWorkPending) (hout : (s.tasks u).Out → b.Out)
    (howed : s.Owed u → s'.Owed u) (hneeded : b.needed q = true) :
    b.signalWorkPending = true ∨ s'.Owed u ∨ b.Out := by
  rcases hinv.hint u (hless.needed hq hneeded) with hset | hmid | hgone
  · exact .inl (by rw [hhint, hset])
  · exact .inr (.inl (howed hmid))
  · exact .inr (.inr (hout hgone))

/-- What the others owe is still owed when one sender moves on. -/
theorem State.Owed.setSender (h : s.Owed u)
    (hc : (s.senders c).Owes u → sender.Owes u) : (s.setSender c sender).Owed u := by
  obtain ⟨c', hc'⟩ := h
  rcases eq_or_ne c' c with rfl | hne
  · exact ⟨c', by simpa [State.setSender] using hc hc'⟩
  · exact ⟨c', by simpa [State.setSender, hne] using hc'⟩

theorem State.Owed.of_sender (h : sender.Owes u) : (s.setSender c sender).Owed u :=
  ⟨c, by simpa [State.setSender] using h⟩

theorem Inv.out_of_not_listed (hinv : Inv s) (h : u ∉ (s.procOf u).tasks) : (s.tasks u).Out := by
  rcases hinv.table u h with hun | hexited | hgone
  · exact .inl hun
  · exact .inr (.inr (.inl hexited))
  · exact .inr (.inr (.inr hgone))

theorem hint_of_kept (hinv : Inv s) {b : Task} {q : Process} (h : HintKept (s.tasks u) b q)
    (hq : q.pendingSignals ⊆ (s.procOf u).pendingSignals) (howed : s.Owed u → s'.Owed u)
    (hneeded : b.needed q = true) : b.signalWorkPending = true ∨ s'.Owed u ∨ b.Out := by
  rcases h with hset | hout | ⟨hless, hsame, hout⟩
  · exact .inl (hset hneeded)
  · exact .inr (.inr hout)
  · exact hint_of_less hinv hless hq hsame hout howed hneeded

theorem hint_of_same (hinv : Inv s) (htask : s'.tasks u = s.tasks u)
    (hproc : (s'.procOf u).pendingSignals ⊆ (s.procOf u).pendingSignals)
    (howed : s.Owed u → s'.Owed u) (hneeded : (s'.tasks u).needed (s'.procOf u) = true) :
    (s'.tasks u).signalWorkPending = true ∨ s'.Owed u ∨ (s'.tasks u).Out := by
  rw [htask] at hneeded ⊢
  exact hint_of_less hinv (.refl _) hproc rfl id howed hneeded

theorem Effect.hint (hinv : Inv s) (h : Effect s s') (u : TaskId)
    (hneeded : (s'.tasks u).needed (s'.procOf u) = true) :
    (s'.tasks u).signalWorkPending = true ∨ s'.Owed u ∨ (s'.tasks u).Out := by
  have hev := h.evolves u
  by_cases hborn : (s.tasks u).pc = .unborn
  · exact .inr (.inr (.inl (hev.unborn hborn)))
  have hpid : (s'.tasks u).pid = (s.tasks u).pid := (hev.born hborn).2
  have hproc : s'.procOf u = s'.procs (s.tasks u).pid := by rw [State.procOf, hpid]
  cases h with
  | own t b q hstep hpending _ _ =>
    rcases eq_or_ne u t with rfl | hu
    · rw [hproc, setProc_procs_self] at hneeded
      simp only [setProc_tasks, setTask_tasks_self] at hneeded ⊢
      exact hint_of_kept hinv hstep.hint hpending id hneeded
    · refine hint_of_same hinv (setTask_tasks_of_ne hu b) ?_ id hneeded
      rw [hproc]
      rcases eq_or_ne (s.tasks u).pid (s.tasks t).pid with hsame | hother
      · rwa [hsame, setProc_procs_self, State.procOf, hsame]
      · rw [setProc_procs_of_ne hother]
        exact Finset.Subset.refl _
  | sibling t v pc b hne hexec hstep _ _ _ =>
    rcases eq_or_ne u v with rfl | hv
    · rw [hproc] at hneeded
      simp only [setTask_tasks_self] at hneeded ⊢
      exact hint_of_kept hinv hstep.hint (Finset.Subset.refl _) id hneeded
    rcases eq_or_ne u t with rfl | ht
    · obtain ⟨old, hold⟩ := hexec
      rw [hproc] at hneeded
      rw [setTask_tasks_of_ne hv, setTask_tasks_self] at hneeded ⊢
      -- In `exec` a task is out only if it is gone.
      refine hint_of_less hinv ⟨Finset.Subset.refl _, Finset.Subset.refl _, id⟩
        (Finset.Subset.refl _) rfl (fun hout => ?_) id hneeded
      rw [Task.Out, hold] at hout
      rcases hout with hun | hun | hun | hgone
      · exact hun.elim
      · cases hun
      · cases hun
      · exact .inr (.inr (.inr hgone))
    · refine hint_of_same hinv ?_ (hproc ▸ Finset.Subset.refl _) id hneeded
      rw [setTask_tasks_of_ne hv, setTask_tasks_of_ne ht]
  | sendProcess c pid signal hidle =>
    rcases eq_or_ne (s.tasks u).pid pid with rfl | hother
    · by_cases hmem : u ∈ (s.procOf u).tasks
      · exact .inr (.inl (.of_sender hmem))
      · exact .inr (.inr (hinv.out_of_not_listed hmem))
    · refine hint_of_same hinv rfl ?_ (fun h => State.Owed.setSender h ?_) hneeded
      · rw [hproc, setSender_procs, setProc_procs_of_ne hother]
        exact Finset.Subset.refl _
      · intro howes
        rw [setProc_senders, hidle] at howes
        exact howes.elim
  | sendTask c t signal hidle _ =>
    rcases eq_or_ne u t with rfl | hu
    · exact .inr (.inl (.of_sender rfl))
    refine hint_of_same hinv (setTask_tasks_of_ne hu _) (hproc ▸ Finset.Subset.refl _)
      (fun h => State.Owed.setSender h ?_) hneeded
    intro howes
    rw [setTask_senders, hidle] at howes
    exact howes.elim
  | unlock c pid hc =>
    refine hint_of_same hinv rfl ?_ (fun h => State.Owed.setSender h ?_) hneeded
    · rw [hproc]
      rcases eq_or_ne (s.tasks u).pid pid with rfl | hother
      · rw [setSender_procs, setProc_procs_self]
        exact Finset.Subset.refl _
      · rw [setSender_procs, setProc_procs_of_ne hother]
        exact Finset.Subset.refl _
    · intro howes
      rw [setProc_senders, hc] at howes
      cases howes
  | mark c t locked sender hc =>
    rcases eq_or_ne u t with rfl | hu
    · exact .inl (by rw [setSender_tasks, setTask_tasks_self])
    · refine hint_of_same hinv (setTask_tasks_of_ne hu _) (hproc ▸ Finset.Subset.refl _)
        (fun h => State.Owed.setSender h fun howes => ?_) hneeded
      exact (hc u howes).resolve_left hu

theorem Effect.inv (hinv : Inv s) (h : Effect s s') : Inv s' where
  hint := h.hint hinv
  table := h.table hinv
  listed := h.listed hinv
  zombie := h.zombie hinv
  attaching := h.attaching hinv
  exec := h.exec hinv

end

end CosmOS.Signal
