import CosmOS.Signal.Invariant

/-!
# Signal.Steps — what each section of the signal code does

Every section of the machine is one of the effects of `Signal.Invariant`, as long as a dispatch, a
`prepare_to_wait` or a block does not meet a task that `execve` has marked `Zombie`.
-/

namespace CosmOS.Signal

open List Option

/-! ## Consuming signals -/

/-- What the checks do: they take signals away, and then they set the hint or leave it. -/
structure Consumed (a : Task) (p : Process) (b : Task) (q : Process) : Prop where
  pid : b.pid = a.pid
  status : b.status = a.status
  exitCode : b.exitCode = a.exitCode
  place : b.place = a.place
  pending : q.pendingSignals ⊆ p.pendingSignals
  tasks : q.tasks = p.tasks
  hint : b.signalWorkPending = b.needed q ∨
    (a.Less b ∧ b.signalWorkPending = a.signalWorkPending)

variable {a b : Task} {p q : Process} {s s' : State} {pc : Pc}

theorem Consumed.refl (a : Task) (p : Process) : Consumed a p a p :=
  ⟨rfl, rfl, rfl, rfl, Finset.Subset.refl _, rfl, .inr ⟨.refl a, rfl⟩⟩

theorem Consumed.refreshed (h : Consumed a p b q) : Consumed a p (b.refresh q) q :=
  { h with hint := .inl rfl }

section

variable (h : Consumed a p b q) (hless : a.Less b ∧ b.signalWorkPending = a.signalWorkPending)

include h hless

theorem Consumed.consume (fromThread : Bool) (sig : Signum) :
    Consumed a p (consume fromThread sig b q).1 (consume fromThread sig b q).2 ∧
      a.Less (consume fromThread sig b q).1 ∧
      (consume fromThread sig b q).1.signalWorkPending = a.signalWorkPending := by
  obtain ⟨hless, hhint⟩ := hless
  unfold Signal.consume
  split
  · have hless' : a.Less { b with pendingSignals := b.pendingSignals.erase sig } :=
      { hless with pending := (Finset.erase_subset _ _).trans hless.pending }
    exact ⟨{ h with hint := .inr ⟨hless', hhint⟩ }, hless', hhint⟩
  · refine ⟨{ h with pending := ?_, hint := .inr ⟨hless, hhint⟩ }, hless, hhint⟩
    exact (Finset.erase_subset _ _).trans h.pending

theorem checkSignals_consumed (threadPending : SignalBit) (sigs : List Signum) :
    Consumed a p (checkSignals threadPending sigs b q).1
      (checkSignals threadPending sigs b q).2.1 := by
  induction sigs generalizing b q with
  | nil =>
    unfold checkSignals
    cases b.signalMaskBackup with
    | none => exact h.refreshed
    | some old => exact { h with hint := .inl rfl }
  | cons sig rest ih =>
    have hc := h.consume hless (decide (sig ∈ threadPending)) sig
    unfold checkSignals
    dsimp only
    cases (q.signalActions sig).handler with
    | ign => exact ih hc.1 hc.2
    | user => exact hc.1.refreshed
    | dfl =>
      dsimp only
      split
      · -- A fatal signal stays pending for the check that ends the task.
        exact ih h hless
      · exact ih hc.1 hc.2

theorem pollSignals_consumed (threadPending : SignalBit) (sigs : List Signum) :
    Consumed a p (pollSignals threadPending sigs b q).1 (pollSignals threadPending sigs b q).2.1 := by
  induction sigs generalizing b q with
  | nil => exact h.refreshed
  | cons sig rest ih =>
    have hc := h.consume hless (decide (sig ∈ threadPending)) sig
    unfold pollSignals
    dsimp only
    cases (q.signalActions sig).handler with
    | ign => exact ih hc.1 hc.2
    | user => exact h
    | dfl =>
      dsimp only
      split
      · exact h
      · exact ih hc.1 hc.2

end

theorem takePending_consumed (set : SignalBit) (a : Task) (p : Process) :
    Consumed a p (takePending set a p).1 (takePending set a p).2.1 := by
  unfold takePending
  split
  · exact (Consumed.refl a p).refreshed
  · exact ((Consumed.refl a p).consume ⟨.refl a, rfl⟩ _ _).1.refreshed

/-! ## The sections of the machine -/

/-- A task at `pc` comes to a test of its hint, unless it is gone. -/
def Pc.Live (pc : Pc) : Prop := ¬ pc.Unattached ∧ pc ≠ .unmarked ∧ pc ≠ .exited

theorem Task.Out.gone (h : a.Out) (hlive : a.pc.Live) : a.Gone := by
  rcases h with hun | hun | hun | hgone
  · exact absurd hun hlive.1
  · exact absurd hun hlive.2.1
  · exact absurd hun hlive.2.2
  · exact hgone

theorem Task.Out.of_pc (h : a.Out) (hpc : b.pc = a.pc) (hgone : a.Gone → b.Gone) : b.Out := by
  rw [Task.Out, hpc]
  exact h.imp_right fun h => h.imp_right fun h => h.imp_right hgone

section

variable {t sibling : TaskId}

theorem Effect.task (hstep : TaskStep s (s.tasks t) b (s.procOf t))
    (hstay : (s.tasks t).pc.Unattached → b.pc.Unattached) : Effect s (s.setTask t b) := by
  have h := Effect.own t b (s.procOf t) hstep (Finset.Subset.refl _)
    (fun u hu => .inl ⟨hu, fun _ => hstay⟩) fun u hu => .inl hu
  rwa [State.procOf, ← setTask_procs t b, State.setProc, Function.update_eq_self] at h

theorem Effect.sched (hinv : Inv s) (status : TaskStatus) (place : Place)
    (hstatus : (s.tasks t).exitCode = true → status = .zombie)
    (hplace : (s.tasks t).Gone → place.onCpu = false) :
    Effect s (s.setTask t { s.tasks t with status := status, place := place }) := by
  have hless : (s.tasks t).Less { s.tasks t with status := status, place := place } :=
    ⟨Finset.Subset.refl _, Finset.Subset.refl _, id⟩
  refine .task ⟨.of_pc rfl rfl id hplace, .inr (.inr ⟨hless, rfl, ?_⟩), fun h => ?_, ?_, ?_⟩ id
  · exact fun hout => hout.of_pc rfl fun hgone => ⟨hgone.1, hplace hgone⟩
  · exact ⟨hstatus h, (hinv.zombie t h).2⟩
  · exact hinv.attaching t
  · exact hinv.exec t

/-- A section of the code of a task, which then stands at `b.pc`. -/
theorem TaskStep.code (hinv : Inv s) (hlive : (s.tasks t).pc.Live) (hb : ¬ b.pc.Unattached)
    (hpid : b.pid = (s.tasks t).pid) (hstatus : b.status = (s.tasks t).status)
    (hexit : b.exitCode = (s.tasks t).exitCode) (hplace : b.place = (s.tasks t).place)
    (hhint : HintKept (s.tasks t) b q) (hexec : ∀ pc, b.pc = .exec pc → ExecOk s pc) :
    TaskStep s (s.tasks t) b q := by
  have hborn : b.pc ≠ .unborn := fun h => hb (by rw [h]; trivial)
  refine ⟨⟨fun h => ?_, fun _ => ⟨hborn, hpid⟩, fun h => by rwa [hexit], fun h => ?_, fun h => ?_⟩,
    hhint, fun h => ⟨?_, hborn⟩, ?_, hexec⟩
  · exact absurd (by rw [h]; trivial) hlive.1
  · exact ⟨by rw [hexit]; exact h.1, by rw [hplace]; exact h.2⟩
  · exact absurd h hlive.2.2
  · rw [hstatus]
    exact (hinv.zombie t (by rwa [← hexit])).1
  · intro pending mask restore hpc
    exact absurd (by rw [hpc]; trivial) hb

theorem Effect.exit (hlive : (s.tasks t).pc.Live) :
    Effect s (s.setTask t { s.tasks t with status := .zombie, exitCode := true, pc := .exited }) := by
  refine .task ⟨⟨fun h => ?_, fun _ => ⟨nofun, rfl⟩, fun _ => rfl, fun h => ⟨rfl, h.2⟩,
    fun _ => rfl⟩, .inr (.inl (.inr (.inr (.inl rfl)))), fun _ => ⟨rfl, nofun⟩,
    ?_, ?_⟩ fun h => absurd h hlive.1
  · exact absurd (by rw [h]; trivial) hlive.1
  · intro pending mask restore hpc
    cases hpc
  · intro pc hpc
    cases hpc

theorem HintKept.less (hlive : a.pc.Live) (hless : a.Less b)
    (hhint : b.signalWorkPending = a.signalWorkPending) (hexit : b.exitCode = a.exitCode)
    (hplace : b.place = a.place) : HintKept a b q := by
  refine .inr (.inr ⟨hless, hhint, fun hout => ?_⟩)
  obtain ⟨hgone, hoff⟩ := hout.gone hlive
  exact .inr (.inr (.inr ⟨by rw [hexit, hgone], by rw [hplace, hoff]⟩))

section

variable (hinv : Inv s) (hlive : (s.tasks t).pc.Live)

include hinv hlive

theorem Effect.goto (hpc : ¬ pc.Unattached)
    (hexec : ∀ e, pc = .exec e → ExecOk s e) : Effect s (s.setTask t { s.tasks t with pc := pc }) :=
  .task (.code hinv hlive hpc rfl rfl rfl rfl (.less hlive ⟨Finset.Subset.refl _, Finset.Subset.refl
    _, id⟩ rfl rfl rfl) hexec) fun h => absurd h hlive.1

theorem Consumed.effect (h : Consumed (s.tasks t) (s.procOf t) b q) (hpc : ¬ pc.Unattached)
    (hexec : ∀ e, pc = .exec e → ExecOk s e) : Effect s (s.setBoth t b q pc) := by
  refine .own t { b with pc } q (.code hinv hlive hpc h.pid h.status h.exitCode h.place ?_ hexec)
    h.pending (fun u hu => .inl ⟨by rwa [← h.tasks], fun _ hun => absurd hun hlive.1⟩)
    fun u hu => .inl (by rwa [← h.tasks])
  rcases h.hint with hfresh | ⟨hless, hsame⟩
  · exact .inl fun hneeded => hfresh.trans hneeded
  · exact .less hlive { hless with } hsame h.exitCode h.place

theorem Effect.refresh :
    Effect s (s.setTask t { (s.tasks t).refresh (s.procOf t) with pc := .free }) :=
  .task (.code hinv hlive id rfl rfl rfl rfl (.inl id) nofun) fun h => absurd h hlive.1

end

/-! ### `exec` -/

theorem live_exec (pc : ExecPc) : (Pc.exec pc).Live := ⟨id, nofun, nofun⟩

theorem evolves_exec (hpc : ∃ e, (s.tasks t).pc = .exec e) {u : TaskId} (h : Evolves (s.tasks u) b)
    (pc : ExecPc) (v : TaskId) : Evolves (s.tasks v)
      (((s.setTask t { s.tasks t with pc := .exec pc }).setTask u b).tasks v) := by
  obtain ⟨e, he⟩ := hpc
  rcases eq_or_ne v u with rfl | hu
  · rwa [setTask_tasks_self]
  rw [setTask_tasks_of_ne hu]
  rcases eq_or_ne v t with rfl | ht
  · rw [setTask_tasks_self]
    refine ⟨fun hv => ?_, fun _ => ⟨nofun, rfl⟩, id, id, fun hv => ?_⟩
    · rw [he] at hv; cases hv
    · rw [he] at hv; cases hv
  · rw [setTask_tasks_of_ne ht]
    exact .refl _

variable {rest running active : List TaskId}

theorem Effect.visit (hinv : Inv s)
    (hpc : (s.tasks t).pc = .exec (.visiting (sibling :: rest) running active)) (hne : sibling ≠ t) :
    Effect s ((s.setTask t { s.tasks t with pc := .exec (.unlinking sibling rest
        (if (s.tasks sibling).place.onCpu then sibling :: running else running)
        (sibling :: active)) }).setTask sibling
      { s.tasks sibling with exitCode := true, status := .zombie }) := by
  obtain ⟨hborn, hactive⟩ := hinv.exec t _ hpc
  have hsib : (s.tasks sibling).pc ≠ .unborn := hborn sibling (by simp)
  have hev : Evolves (s.tasks sibling) { s.tasks sibling with exitCode := true, status := .zombie } :=
    .of_pc rfl rfl (fun _ => rfl) fun h => h.2
  have hall := evolves_exec ⟨_, hpc⟩ hev (.unlinking sibling rest
    (if (s.tasks sibling).place.onCpu then sibling :: running else running) (sibling :: active))
  refine .sibling t sibling _ _ hne ⟨_, hpc⟩ ⟨hev, .inr (.inr ⟨⟨Finset.Subset.refl _,
    Finset.Subset.refl _, id⟩, rfl, ?_⟩), fun _ => ⟨rfl, hsib⟩, hinv.attaching sibling,
    hinv.exec sibling⟩ rfl rfl ⟨fun u hu => ((hall u).born (hborn u hu)).1, fun u hu => ?_⟩
  · exact fun hout => hout.of_pc rfl fun hgone => ⟨rfl, hgone.2⟩
  rcases mem_cons.mp hu with rfl | hu
  · -- The sibling is on the list of those to wait for, or it is off its CPU.
    rw [setTask_tasks_self]
    refine ⟨rfl, ?_⟩
    cases hcpu : (s.tasks u).place.onCpu with
    | true => exact .inl (by simp)
    | false => exact .inr ⟨rfl, hcpu⟩
  · obtain ⟨hexit, hor⟩ := hactive u hu
    refine ⟨(hall u).exit hexit, hor.imp (fun hmem => ?_) (hall u).gone⟩
    split
    · exact .tail _ hmem
    · exact hmem

theorem Effect.unlink (hinv : Inv s)
    (hpc : (s.tasks t).pc = .exec (.unlinking sibling rest running active)) (hne : sibling ≠ t) :
    Effect s ((s.setTask t { s.tasks t with pc := .exec (.visiting rest running active) }).setTask
      sibling { s.tasks sibling with
        place := if (s.tasks sibling).place = .queued then .dead else (s.tasks sibling).place }) := by
  obtain ⟨hborn, hactive⟩ := hinv.exec t _ hpc
  have hplace : (s.tasks sibling).Gone → Place.onCpu
      (if (s.tasks sibling).place = .queued then .dead else (s.tasks sibling).place) = false := by
    intro hgone
    split
    · rfl
    · exact hgone.2
  have hev : Evolves (s.tasks sibling) { s.tasks sibling with
      place := if (s.tasks sibling).place = .queued then .dead else (s.tasks sibling).place } :=
    .of_pc rfl rfl id hplace
  have hold : ExecOk s (.visiting rest running active) :=
    ⟨fun u hu => hborn u (.tail _ hu), hactive⟩
  refine .sibling t sibling _ _ hne ⟨_, hpc⟩ ⟨hev, .inr (.inr ⟨⟨Finset.Subset.refl _,
    Finset.Subset.refl _, id⟩, rfl, ?_⟩), hinv.zombie sibling, hinv.attaching sibling,
    hinv.exec sibling⟩ rfl rfl (hold.mono (evolves_exec ⟨_, hpc⟩ hev _))
  exact fun hout => hout.of_pc rfl fun hgone => ⟨hgone.1, hplace hgone⟩

theorem execStep_effect (hinv : Inv s) {pc : ExecPc} (hpc : (s.tasks t).pc = .exec pc)
    (h : execStep s t pc = some s') : Effect s s' := by
  have hok := hinv.exec t pc hpc
  have hlive : (s.tasks t).pc.Live := by rw [hpc]; exact live_exec pc
  have hgoto : ∀ e, ExecOk s e → Effect s (s.setTask t { s.tasks t with pc := .exec e }) := by
    intro e he
    exact .goto hinv hlive id fun _ hp => by cases hp; exact he
  cases pc with
  | snapshot =>
    simp only [execStep, ite_none_left_eq_some, some.injEq] at h
    obtain ⟨_, rfl⟩ := h
    refine hgoto _ ⟨fun u hu => hinv.listed _ u (mem_of_mem_filter hu), nofun⟩
  | visiting rest running active =>
    cases rest with
    | nil =>
      cases h
      exact hgoto _ hok.2
    | cons sibling rest =>
      simp only [execStep, ite_none_left_eq_some, not_or] at h
      obtain ⟨⟨_, hne⟩, h⟩ := h
      split at h
      · cases h
        exact hgoto _ ⟨fun u hu => hok.1 u (.tail _ hu), hok.2⟩
      · cases h
        exact .visit hinv hpc hne
  | unlinking sibling rest running active =>
    rcases ite_none_left_eq_some.mp h with ⟨hne, ⟨⟩⟩
    exact .unlink hinv hpc hne
  | waiting running active =>
    simp only [execStep, ite_none_left_eq_some, some.injEq] at h
    obtain ⟨hoff, rfl⟩ := h
    refine hgoto _ fun u hu => ?_
    obtain ⟨hexit, hmem | hgone⟩ := hok u hu
    · refine ⟨hexit, ?_⟩
      by_contra hcpu
      exact hoff (any_eq_true.mpr ⟨u, hmem, by simpa using hcpu⟩)
    · exact hgone
  | removing active =>
    rcases ite_none_left_eq_some.mp h with ⟨_, ⟨⟩⟩
    refine .own t _ _ (.code hinv hlive id rfl rfl rfl rfl (.less hlive ⟨Finset.Subset.refl _,
      Finset.Subset.refl _, id⟩ rfl rfl rfl) fun _ hp => by cases hp; trivial)
      (Finset.Subset.refl _) (fun u hu => ?_) fun u hu => .inl (mem_of_mem_filter hu)
    -- Only siblings that are gone leave the table.
    by_cases hmem : u ∈ (s.procOf t).tasks
    · refine .inr (.inl (hok u ?_))
      by_contra hactive
      exact hu (mem_filter.mpr ⟨hmem, by simpa using hactive⟩)
    · exact .inl ⟨hmem, fun _ hun => absurd hun hlive.1⟩
  | clearProcess =>
    rcases ite_none_left_eq_some.mp h with ⟨_, ⟨⟩⟩
    exact .own t _ _ (.code hinv hlive id rfl rfl rfl rfl (.less hlive ⟨Finset.Subset.refl _,
      Finset.Subset.refl _, id⟩ rfl rfl rfl) fun _ hp => by cases hp; trivial) (Finset.empty_subset
      _) (fun u hu => .inl ⟨hu, fun _ hun => absurd hun hlive.1⟩) fun u hu => .inl hu
  | clearTask =>
    rcases ite_none_left_eq_some.mp h with ⟨_, ⟨⟩⟩
    exact .task (.code hinv hlive id rfl rfl rfl rfl (.less hlive ⟨Finset.empty_subset _,
      Finset.Subset.refl _, nofun⟩ rfl rfl rfl) fun _ hp => by cases hp; trivial)
      fun hun => absurd hun hlive.1
  | refresh =>
    rcases ite_none_right_eq_some.mp h with ⟨_, ⟨⟩⟩
    exact .refresh hinv hlive

/-! ### The other sections -/

theorem live_of_at (h : s.At t pc) (hpc : pc.Live) : (s.tasks t).pc.Live := by
  rwa [h.2]

theorem live_free : Pc.free.Live := ⟨id, nofun, nofun⟩

theorem taskStep_effect (hinv : Inv s) (h : taskStep s t = some s') : Effect s s' := by
  have hlive : ∀ pc : Pc, (s.tasks t).pc = pc → pc.Live → (s.tasks t).pc.Live :=
    fun pc hpc h => by rwa [hpc]
  unfold taskStep at h
  dsimp only at h
  split at h
  next hpc =>
    replace hlive := hlive _ hpc ⟨id, nofun, nofun⟩
    split at h
    · unfold checkFatal at h
      split at h
      next hfatal =>
        split at hfatal
        · cases hfatal
          cases h
          exact .exit hlive
        · cases hfatal
      next hfatal =>
        split at hfatal
        · cases hfatal
        · cases hfatal
          cases h
          exact .refresh hinv hlive
    · cases h
  next hpc =>
    replace hlive := hlive _ hpc ⟨id, nofun, nofun⟩
    have hc := checkSignals_consumed (.refl (s.tasks t) (s.procOf t)) ⟨.refl _, rfl⟩ (s.tasks t).pendingSignals
      (deliverable (s.tasks t) (s.procOf t)).toList
    split at h
    · split at h
      all_goals
        rename_i hcheck
        rw [hcheck] at hc
        cases h
        exact hc.effect hinv hlive id nofun
    · cases h
  next hpc =>
    replace hlive := hlive _ hpc ⟨id, nofun, nofun⟩
    have hc := pollSignals_consumed (.refl (s.tasks t) (s.procOf t)) ⟨.refl _, rfl⟩ (s.tasks t).pendingSignals
      (deliverable (s.tasks t) (s.procOf t)).toList
    split at h
    · cases h
      exact hc.effect hinv hlive id nofun
    · cases h
  next sig action hpc =>
    replace hlive := hlive _ hpc ⟨id, nofun, nofun⟩
    split at h
    · cases h
      exact .task (.code hinv hlive id rfl rfl rfl rfl (.less hlive ⟨Finset.Subset.refl _,
        Finset.Subset.refl _, nofun⟩ rfl rfl rfl) nofun) fun hun => absurd hun hlive.1
    · cases h
  next sig action hpc =>
    replace hlive := hlive _ hpc ⟨id, nofun, nofun⟩
    split at h
    · cases h
      -- The handler's mask only adds to the one in force.
      refine .task (.code hinv hlive id rfl rfl rfl rfl (.less hlive ⟨Finset.Subset.refl _, ?_, id⟩
        rfl rfl rfl) nofun) fun hun => absurd hun hlive.1
      refine Finset.Subset.trans ?_ Finset.subset_union_left
      split
      · exact Finset.Subset.refl _
      · exact Finset.subset_insert _ _
    · cases h
  next hpc =>
    split at h
    · cases h
      exact .refresh hinv (hlive _ hpc ⟨id, nofun, nofun⟩)
    · cases h
  next hpc =>
    cases h
    have hun : ¬ (s.tasks t).pc.Unattached := by rw [hpc]; exact id
    refine .task ⟨⟨fun h => ?_, fun _ => ⟨nofun, rfl⟩, id, id, fun h => ?_⟩, .inl fun _ => rfl,
      fun hexit => ⟨(hinv.zombie t hexit).1, nofun⟩, nofun, nofun⟩ fun h => absurd h hun
    · rw [hpc] at h; cases h
    · rw [hpc] at h; cases h
  next pc hpc => exact execStep_effect hinv hpc h
  next => cases h

theorem testHint_effect (hinv : Inv s) {locked : Pc} (h : testHint s t locked = some s')
    (hlocked : ¬ locked.Unattached) (hexec : ∀ e, locked ≠ .exec e) : Effect s s' := by
  rcases ite_none_right_eq_some.mp h with ⟨hat, h⟩
  have hlive := live_of_at hat live_free
  split at h
  · cases h
    exact .goto hinv hlive hlocked fun e he => absurd he (hexec e)
  · cases h
    have hgoto := Effect.goto hinv hlive hlive.1 (hinv.exec t)
    rwa [setTask_same] at hgoto

end

/-- The task whose status a dispatch, a `prepare_to_wait` or a block stores. -/
def Label.stores : Label → Option TaskId
  | .dispatch t | .publish t | .block t => some t
  | _ => none

/-- The section does not store a status over the mark `Zombie`. -/
def Careful (s : State) (l : Label) : Prop := ∀ t ∈ l.stores, (s.tasks t).status ≠ .zombie

instance (s : State) : DecidablePred (Careful s) :=
  fun l => inferInstanceAs (Decidable (∀ t ∈ l.stores, _))

section

variable {s s' : State}

theorem Inv.alive (hinv : Inv s) {t : TaskId} (h : (s.tasks t).status ≠ .zombie) :
    (s.tasks t).exitCode ≠ true :=
  fun hexit => h (hinv.zombie t hexit).1

theorem Effect.sched_alive (hinv : Inv s) {t : TaskId} (h : (s.tasks t).status ≠ .zombie)
    (status : TaskStatus) (place : Place) :
    Effect s (s.setTask t { s.tasks t with status := status, place := place }) :=
  .sched hinv status place (fun hexit => absurd hexit (hinv.alive h))
    fun hgone => absurd hgone.1 (hinv.alive h)

theorem schedStep_effect (hinv : Inv s) {l : Label} (hl : Careful s l)
    (h : schedStep s l = some s') : Effect s s' := by
  cases l with simp only [schedStep, ite_none_right_eq_some] at h
  | addTask t =>
    rcases h with ⟨⟨_, _, halive⟩, ⟨⟩⟩
    exact .sched_alive hinv halive _ _
  | pick t =>
    rcases h with ⟨_, ⟨⟩⟩
    refine .sched hinv (s.tasks t).status _ (fun hexit => (hinv.zombie t hexit).1) fun hgone => ?_
    rw [(hinv.zombie t hgone.1).1]
    rfl
  | dispatch t =>
    rcases h with ⟨_, ⟨⟩⟩
    exact .sched_alive hinv (hl t rfl) _ _
  | suspend t =>
    rcases h with ⟨hplace, ⟨⟩⟩
    refine .sched hinv _ _ (fun hexit => by rw [if_pos (hinv.zombie t hexit).1]) fun hgone => ?_
    have hoff := hgone.2
    rw [hplace] at hoff
    cases hoff
  | publish t =>
    rcases h with ⟨_, ⟨⟩⟩
    exact .sched_alive hinv (hl t rfl) _ (s.tasks t).place
  | block t =>
    rcases h with ⟨_, h⟩
    split at h
    · cases h
      exact .sched_alive hinv (hl t rfl) _ (s.tasks t).place
    · cases h
      exact .sched_alive hinv (hl t rfl) _ _
  | release t =>
    rcases h with ⟨_, ⟨⟩⟩
    refine .sched hinv (s.tasks t).status _ (fun hexit => (hinv.zombie t hexit).1) fun _ => ?_
    cases (s.tasks t).status <;> rfl
  | wake t =>
    rcases h with ⟨hstatus, ⟨⟩⟩
    exact .sched_alive hinv (by rw [hstatus]; exact nofun) _ _
  | _ => cases h

/-- A new task has not exited, and no test of its hint is before its attachment. -/
theorem create_effect (hinv : Inv s) {t : TaskId} {pid : Pid} {mask : SignalBit}
    (h : next s (.create t pid mask) = some s') : Effect s s' := by
  rcases ite_none_right_eq_some.mp h with ⟨hpc, ⟨⟩⟩
  have hexit : (s.tasks t).exitCode ≠ true := fun hexit => (hinv.zombie t hexit).2 hpc
  refine .task ⟨⟨fun _ => trivial, fun hne => absurd hpc hne, fun h => absurd h hexit,
    fun h => absurd h.1 hexit, fun h => ?_⟩, .inr (.inl (.inl trivial)), nofun, nofun, nofun⟩
    fun _ => trivial
  rw [hpc] at h
  cases h

theorem attachRead_effect (hinv : Inv s) {t : TaskId} (h : next s (.attachRead t) = some s') :
    Effect s s' := by
  rcases ite_none_right_eq_some.mp h with ⟨hpc, ⟨⟩⟩
  refine .task ⟨⟨fun _ => trivial, fun _ => ⟨nofun, rfl⟩, id, id, fun h => ?_⟩,
    .inr (.inl (.inl trivial)), fun hexit => ⟨(hinv.zombie t hexit).1, nofun⟩, ?_, nofun⟩
    fun _ => trivial
  · rw [hpc] at h
    cases h
  · intro pending mask restore hattach
    cases hattach
    exact ⟨rfl, rfl, rfl⟩

/-- The hint that `attach_task` stores is what its first section has computed, or more. -/
theorem attach_effect (hinv : Inv s) {t : TaskId} (h : next s (.attach t) = some s') :
    Effect s s' := by
  simp only [next] at h
  split at h
  next pending mask restore hpc =>
    simp only [ite_none_left_eq_some] at h
    obtain ⟨_, h⟩ := h
    cases h
    obtain ⟨hp, hm, hr⟩ := hinv.attaching t _ _ _ hpc
    refine .own t _ _ ⟨⟨fun h => ?_, fun _ => ⟨nofun, rfl⟩, id, id, fun h => ?_⟩,
      .inl fun hneeded => ?_, fun hexit => ⟨(hinv.zombie t hexit).1, nofun⟩, nofun, nofun⟩
      (Finset.Subset.refl _) (fun u hu => .inl ⟨fun hmem => hu (.tail _ hmem), ?_⟩) fun u hu => ?_
    · rw [hpc] at h; cases h
    · rw [hpc] at h; cases h
    · have hneeded : signalWorkNeeded (s.tasks t).pendingSignals (s.procOf t).pendingSignals
          (s.tasks t).signalMask (s.tasks t).signalMaskBackup.isSome = true := hneeded
      rw [hp, hm, hr] at hneeded
      exact Bool.or_eq_true_iff.mpr (.inl hneeded)
    · rintro rfl
      exact absurd (by simp) hu
    · rcases mem_cons.mp hu with rfl | hu
      · exact .inr ⟨rfl, nofun⟩
      · exact .inl hu
  next => cases h

theorem reap_effect (hinv : Inv s) {t : TaskId} (h : next s (.reap t) = some s') : Effect s s' := by
  rcases ite_none_right_eq_some.mp h with ⟨⟨hat, _⟩, ⟨⟩⟩
  have hstep : TaskStep s (s.tasks t) (s.tasks t) { s.procOf t with
      tasks := (s.procOf t).tasks.filter (· ≠ t) } :=
    ⟨.refl _, .inr (.inl (.inr (.inr (.inl hat.2)))), hinv.zombie t, hinv.attaching t, hinv.exec t⟩
  have heff := Effect.own t (s.tasks t) _ hstep (Finset.Subset.refl _) (fun u hu => ?_)
    fun u hu => .inl (mem_of_mem_filter hu)
  · rwa [setTask_same] at heff
  · rcases eq_or_ne u t with rfl | hne
    · exact .inr (.inr ⟨rfl, hat.2⟩)
    · exact .inl ⟨fun hmem => hu (mem_filter.mpr ⟨hmem, by simpa using hne⟩), fun _ => id⟩

theorem sendTask_effect {c : SenderId} {t : TaskId} {signal : SignalBit}
    (h : next s (.sendTask c t signal) = some s') : Effect s s' := by
  simp only [next] at h
  split at h
  · cases h
  · cases h
  · cases h
  next hunborn hcreated hattaching =>
    simp only [ite_none_right_eq_some] at h
    obtain ⟨⟨hidle, _⟩, h⟩ := h
    cases h
    refine .sendTask c t signal hidle fun hun => ?_
    cases hpc : (s.tasks t).pc with
    | unborn => exact hunborn hpc
    | created => exact hcreated hpc
    | attaching pending mask restore => exact hattaching _ _ _ hpc
    | _ => rw [hpc] at hun; exact hun

theorem mark_effect {c : SenderId} (h : next s (.mark c) = some s') : Effect s s' := by
  simp only [next] at h
  split at h
  next => cases h
  next pid hc =>
    cases h
    exact .unlock c pid hc
  next pid t rest hc =>
    cases h
    refine .mark c t _ _ fun u howes => ?_
    rw [hc] at howes
    exact mem_cons.mp howes
  next t hc =>
    cases h
    refine .mark c t _ _ fun u howes => ?_
    rw [hc] at howes
    exact .inl howes.symm

/-- Every step of the system is one of the effects. -/
theorem next_effect (hinv : Inv s) {l : Label} (hl : Careful s l) (h : next s l = some s') :
    Effect s s' := by
  cases l
  case create t pid mask => exact create_effect hinv h
  case attachRead t => exact attachRead_effect hinv h
  case attach t => exact attach_effect hinv h
  case reap t => exact reap_effect hinv h
  case sendTask c t signal => exact sendTask_effect h
  case mark c => exact mark_effect h
  all_goals simp only [next, ite_none_right_eq_some] at h
  case testFatal t | testSignals t | testPoll t => exact testHint_effect hinv h id nofun
  case step t => exact taskStep_effect hinv h.2
  case frameFault t =>
    split at h
    next hpc =>
      simp only [ite_none_right_eq_some] at h
      obtain ⟨_, h⟩ := h
      cases h
      exact .exit (by rw [hpc]; exact ⟨id, nofun, nofun⟩)
    next => cases h
  case sigprocmask t how set | sigsuspend t mask | sigreturn t mask | applyTempMask t mask =>
    rcases ite_none_right_eq_some.mp h with ⟨⟨hat, _⟩, ⟨⟩⟩
    have hlive := live_of_at hat live_free
    exact .task (.code hinv hlive hlive.1 rfl rfl rfl rfl (.inl fun _ => rfl) (hinv.exec t)) id
  case restoreTempMask t old =>
    rcases h with ⟨⟨hat, _⟩, ⟨⟩⟩
    have hlive := live_of_at hat live_free
    exact .task (.code hinv hlive id rfl rfl rfl rfl (.inr (.inl (.inr (.inl rfl)))) nofun)
      fun hun => absurd hun hlive.1
  case sigtimedwait t set =>
    rcases h with ⟨⟨hat, _⟩, ⟨⟩⟩
    exact (takePending_consumed set _ _).effect hinv (live_of_at hat live_free) id nofun
  case sigaction t sig action =>
    rcases h with ⟨⟨hat, _⟩, ⟨⟩⟩
    have hlive := live_of_at hat live_free
    have heff := Effect.own t (s.tasks t) { s.procOf t with
      signalActions := Function.update (s.procOf t).signalActions sig action }
      (.code hinv hlive hlive.1 rfl rfl rfl rfl (.less hlive (.refl _) rfl rfl rfl) (hinv.exec t))
      (Finset.Subset.refl _) (fun u hu => .inl ⟨hu, fun _ => id⟩) fun u hu => .inl hu
    rwa [setTask_same] at heff
  case execve t =>
    rcases h with ⟨hat, ⟨⟩⟩
    exact .goto hinv (live_of_at hat live_free) id fun _ hp => by cases hp; trivial
  case exit t =>
    rcases h with ⟨⟨hat, _⟩, ⟨⟩⟩
    exact .exit (live_of_at hat live_free)
  case sendProcess c pid signal =>
    rcases h with ⟨⟨hidle, _⟩, ⟨⟩⟩
    exact .sendProcess c pid signal hidle
  all_goals exact schedStep_effect hinv hl h

end

end CosmOS.Signal
