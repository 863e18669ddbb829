import CosmOS.Cred.System

/-!
# Cred.Privileges — dropped privileges stay dropped

`privileges_stay_dropped`: a process none of whose user ids is 0 stays such a process, and so is
every process it creates from then on; and a store under an effective user id other than 0 uses
only values that the ids had before.  It needs that `setuid_cred` stores into the ids that
`sys_setuid` has read (`StoresIntoRead`): `privileges_regained_reachable` is a run in which
another thread drops its privileges in between.

* `CredStep`: what a section does to the credentials, with `next_credStep` to find the entry.
* `Family`: the processes a process creates after a state, with itself.
-/

namespace CosmOS.Cred

open Function Option

/-! ## What the calls store -/

/-- Every new id is one of the three old ones. -/
def Ids.Within (new old : Ids) : Prop :=
  old.changeAllowed new.real = true ∧ old.changeAllowed new.effective = true ∧
    old.changeAllowed new.saved = true

open Ids

def Credentials.Within (new old : Credentials) : Prop :=
  new.uids.Within old.uids ∧ new.gids.Within old.gids

section Stores

variable {old new : Ids} {privileged : Bool} {r e v : UInt32}

@[simp]
theorem Ids.changeAllowed_real (old : Ids) : old.changeAllowed old.real = true := by
  simp [changeAllowed]

@[simp]
theorem Ids.changeAllowed_effective (old : Ids) : old.changeAllowed old.effective = true := by
  simp [changeAllowed]

@[simp]
theorem Ids.changeAllowed_saved (old : Ids) : old.changeAllowed old.saved = true := by
  simp [changeAllowed]

theorem Ids.Within.refl (old : Ids) : old.Within old := by
  simp [Ids.Within]

/-- An argument that passes the check asks for an old value. -/
theorem Ids.changeAllowed_orElse {x : UInt32} (hx : old.changeAllowed x = true)
    (h : old.argAllowed changeAllowed v = true) : old.changeAllowed (orElse v x) = true := by
  unfold orElse
  split
  · exact hx
  next hne =>
    unfold argAllowed at h
    simpa [hne] using h

theorem Ids.setRe_within (h : old.setRe changeAllowed false r e = .ok new) :
    new.Within old := by
  unfold setRe at h
  split at h
  · cases h
  rename_i hargs
  have hargs : old.argAllowed changeAllowed r = true ∧ old.argAllowed changeAllowed e = true := by
    simpa using hargs
  have hr := changeAllowed_orElse old.changeAllowed_real hargs.1
  have he := changeAllowed_orElse old.changeAllowed_effective hargs.2
  rcases Except.ok.inj h with rfl
  split
  · exact ⟨hr, he, he⟩
  · exact ⟨hr, he, old.changeAllowed_saved⟩

theorem Ids.setRes_within (h : old.setRes changeAllowed false r e v = .ok new) :
    new.Within old := by
  unfold setRes at h
  split at h
  · cases h
  rename_i hargs
  have hargs : old.argAllowed changeAllowed r = true ∧ old.argAllowed changeAllowed e = true ∧
      old.argAllowed changeAllowed v = true := by
    simpa using hargs
  rcases Except.ok.inj h with rfl
  exact ⟨changeAllowed_orElse old.changeAllowed_real hargs.1, changeAllowed_orElse
    old.changeAllowed_effective hargs.2.1, changeAllowed_orElse old.changeAllowed_saved hargs.2.2⟩

theorem Ids.within_of_allowed (h : old.changeAllowed v = true) : Ids.Within ⟨v, v, v⟩ old :=
  ⟨h, h, h⟩

end Stores

section Calls

variable {cred new : Credentials} {r e v : UInt32}

theorem exists_ok_of_map {f : Ids → Credentials} {x : Except Errno Ids}
    (h : x.map f = .ok new) : ∃ ids, x = .ok ids ∧ f ids = new := by
  cases x with
  | error err => cases h
  | ok ids => exact ⟨ids, rfl, Except.ok.inj h⟩

variable (hne : cred.uids.effective ≠ 0)

include hne

theorem privileged_eq_false : cred.privileged = false := by
  simpa [Credentials.privileged] using hne

theorem sysSetreuid_within (h : sysSetreuid cred r e = .ok new) : new.Within cred := by
  rcases exists_ok_of_map h with ⟨ids, hids, rfl⟩
  rw [privileged_eq_false hne] at hids
  exact ⟨setRe_within hids, Ids.Within.refl _⟩

theorem sysSetresuid_within (h : sysSetresuid cred r e v = .ok new) : new.Within cred := by
  rcases exists_ok_of_map h with ⟨ids, hids, rfl⟩
  rw [privileged_eq_false hne] at hids
  exact ⟨setRes_within hids, Ids.Within.refl _⟩

theorem sysSetgid_within (h : sysSetgid cred v = .ok new) : new.Within cred := by
  unfold sysSetgid unprivilegedGidChangeAllowed at h
  rw [privileged_eq_false hne] at h
  split at h
  · cases h
  next hallowed =>
    rcases Except.ok.inj h with rfl
    exact ⟨Ids.Within.refl _, within_of_allowed (by simpa using hallowed)⟩

theorem sysSetregid_within (h : sysSetregid cred r e = .ok new) : new.Within cred := by
  rcases exists_ok_of_map h with ⟨ids, hids, rfl⟩
  rw [privileged_eq_false hne] at hids
  exact ⟨Ids.Within.refl _, setRe_within hids⟩

theorem sysSetresgid_within (h : sysSetresgid cred r e v = .ok new) : new.Within cred := by
  rcases exists_ok_of_map h with ⟨ids, hids, rfl⟩
  rw [privileged_eq_false hne] at hids
  exact ⟨Ids.Within.refl _, setRes_within hids⟩

end Calls

variable (s : State)

/-- `setuid_cred` finds the ids as `sys_setuid` has read them. -/
def StoresIntoRead (l : Label) : Prop :=
  match (s.threads l.thread).pc with
  | .store _ read => (s.procs (s.threads l.thread).proc).cred.uids = read
  | _ => True

instance (l : Label) : Decidable (StoresIntoRead s l) := by
  unfold StoresIntoRead
  split <;> infer_instance

def State.procOf (t : ThreadId) : Pid := (s.threads t).proc

open State

/-- What a section of thread `t` does to the processes. -/
inductive CredStep (s : State) (t : ThreadId) (s' : State) : Prop where
  | same (hprocs : s'.procs = s.procs)
  | store (cred : Credentials)
      (hprocs : s'.procs = update s.procs (s.procOf t)
        { s.procs (s.procOf t) with cred := cred })
      (hwithin : (s.procs (s.procOf t)).cred.uids.effective ≠ 0 →
        cred.Within (s.procs (s.procOf t)).cred)
  | fork (child : Pid) (hnew : (s.procs child).created = false)
      (hprocs : s'.procs = update s.procs child
        ⟨true, (s.procs (s.procOf t)).cred, some (s.procOf t)⟩)

structure Ok (s : State) : Prop where
  born : ∀ t, (s.threads t).pc ≠ .unborn → (s.procs (s.procOf t)).created = true
  checked : ∀ t uid read, (s.threads t).pc = .store uid read → setuidAllowed read uid = true
  creators : ∀ q c, (s.procs q).creator = some c →
    (s.procs c).created = true ∧ (s.procs q).created = true

section Steps

variable {s s' : State} {t : ThreadId} {l : Label} {a : Act} (r : Except Errno Credentials)

theorem finish_credStep (h : ∀ cred, (s.procs (s.procOf t)).cred.uids.effective ≠ 0 → r = .ok cred →
      cred.Within (s.procs (s.procOf t)).cred) : CredStep s t (s.finish t r) := by
  cases r with
  | ok cred => exact .store cred rfl fun hne => h cred hne rfl
  | error err => exact .same rfl

theorem userStep_credStep (hn : userStep s t a = some s') : CredStep s t s' := by
  cases a with
  | go => cases hn
  | setuid uid | execve =>
    cases hn
    exact .same rfl
  | setreuid r e =>
    cases hn
    exact finish_credStep _ fun _ => sysSetreuid_within
  | setresuid r e v =>
    cases hn
    exact finish_credStep _ fun _ => sysSetresuid_within
  | setgid g =>
    cases hn
    exact finish_credStep _ fun _ => sysSetgid_within
  | setregid r e =>
    cases hn
    exact finish_credStep _ fun _ => sysSetregid_within
  | setresgid r e v =>
    cases hn
    exact finish_credStep _ fun _ => sysSetresgid_within
  | fork child u =>
    rcases ite_none_right_eq_some.mp hn with ⟨hnew, ⟨⟩⟩
    exact .fork child hnew.1 rfl
  | start u =>
    rcases ite_none_right_eq_some.mp hn with ⟨_, ⟨⟩⟩
    exact .same rfl

theorem next_credStep (hok : Ok s) (hl : StoresIntoRead s l) (hn : next s l = some s') :
    CredStep s l.thread s' := by
  unfold next at hn
  dsimp only at hn
  split at hn
  · exact userStep_credStep hn
  split at hn
  swap
  · cases hn
  cases hpc : (s.threads l.thread).pc with
  | unborn | user =>
    rw [hpc] at hn
    cases hn
  | readEuid uid ruid =>
    rw [hpc] at hn
    cases hn
    exact .same rfl
  | readSuid uid ruid euid =>
    rw [hpc] at hn
    simp only [setuidStep] at hn
    split at hn <;> cases hn <;> exact .same rfl
  | store uid read =>
    have hchecked := hok.checked _ _ _ hpc
    unfold StoresIntoRead at hl
    rw [hpc] at hn hl
    cases hn
    -- the store finds the ids that it was checked against
    refine .store _ rfl fun hne => ⟨within_of_allowed ?_, Ids.Within.refl _⟩
    rw [← hl] at hchecked
    unfold setuidAllowed unprivilegedUidChangeAllowed at hchecked
    unfold State.procOf at hne ⊢
    simpa [hne] using hchecked

theorem CredStep.created (h : CredStep s t s') {q : Pid} (hq : (s.procs q).created = true) :
    (s'.procs q).created = true ∧ (s'.procs q).creator = (s.procs q).creator := by
  cases h with
  | same hprocs => rw [hprocs]; exact ⟨hq, rfl⟩
  | store cred hprocs =>
    rw [hprocs]
    rcases eq_or_ne q (s.procOf t) with rfl | hp
    · rw [update_self]
      exact ⟨hq, rfl⟩
    · rw [update_of_ne hp]
      exact ⟨hq, rfl⟩
  | fork child hnew hprocs =>
    have hne : q ≠ child := by
      rintro rfl
      rw [hq] at hnew
      cases hnew
    rw [hprocs, update_of_ne hne]
    exact ⟨hq, rfl⟩

theorem CredStep.creator (h : CredStep s t s') {q c : Pid} (hc : (s'.procs q).creator = some c) :
    (s.procs q).creator = some c ∨ (c = s.procOf t ∧ (s'.procs q).created = true) := by
  cases h with
  | same hprocs => exact .inl (hprocs ▸ hc)
  | store cred hprocs =>
    rw [hprocs] at hc
    rcases eq_or_ne q (s.procOf t) with rfl | hp
    · rw [update_self] at hc
      exact .inl hc
    · rw [update_of_ne hp] at hc
      exact .inl hc
  | fork child hnew hprocs =>
    rw [hprocs] at hc ⊢
    rcases eq_or_ne q child with rfl | hq
    · rw [update_self] at hc ⊢
      exact .inr ⟨(some.inj hc).symm, rfl⟩
    · rw [update_of_ne hq] at hc
      exact .inl hc

/-- A record of a thread: as before, the own one, or that of a thread that starts. -/
inductive ThreadStep (s : State) (t : ThreadId) (s' : State) (u : ThreadId) : Prop where
  | same (h : s'.threads u = s.threads u)
  | own (hu : u = t) (hproc : (s'.threads u).proc = (s.threads u).proc)
      (hpc : ∀ uid read, (s'.threads u).pc = .store uid read → setuidAllowed read uid = true)
  | born (hproc : (s'.procs (s'.threads u).proc).created = true ∨
      (s'.threads u).proc = (s.threads t).proc) (hpc : (s'.threads u).pc = .user)

theorem ret_threadStep (r : Except Errno Unit) (s₁ : State) (h : s₁.threads = s.threads)
    (u : ThreadId) : ThreadStep s t (s₁.ret t r) u := by
  unfold ret
  rw [h]
  rcases eq_or_ne u t with rfl | hu
  · exact .own rfl (by simp) (by simp)
  · exact .same (update_of_ne hu _ _)

theorem goto_threadStep (pc : Pc)
    (hpc : ∀ uid read, pc = .store uid read → setuidAllowed read uid = true) (u : ThreadId) :
    ThreadStep s t (s.goto t pc) u := by
  unfold goto
  rcases eq_or_ne u t with rfl | hu
  · exact .own rfl (by simp) (by simpa using hpc)
  · exact .same (update_of_ne hu _ _)

theorem spawn_threadStep {v : ThreadId} {p : Pid} (s₁ : State) (h : s₁.threads = s.threads)
    (hp : (s₁.procs p).created = true ∨ p = (s.threads t).proc) (u : ThreadId) :
    ThreadStep s t (s₁.spawn v p) u := by
  unfold spawn
  rw [h]
  rcases eq_or_ne u v with rfl | hu
  · refine .born ?_ (by simp)
    simpa using hp
  · exact .same (update_of_ne hu _ _)

theorem finish_threadStep (u : ThreadId) : ThreadStep s t (s.finish t r) u := by
  cases r with
  | ok cred => exact ret_threadStep (s := s) (.ok ()) (s.setCred _ cred) rfl u
  | error err => exact ret_threadStep (.error err) s rfl u

theorem userStep_threadStep (hn : userStep s t a = some s') (u : ThreadId) :
    ThreadStep s t s' u := by
  cases a with
  | go => cases hn
  | setuid uid =>
    cases hn
    exact goto_threadStep _ (by simp) u
  | setreuid | setresuid | setgid | setregid | setresgid =>
    cases hn
    exact finish_threadStep _ u
  | fork child v =>
    rcases ite_none_right_eq_some.mp hn with ⟨_, ⟨⟩⟩
    refine spawn_threadStep _ ?_ (.inl ?_) u
    · rfl
    · simp
  | start v =>
    rcases ite_none_right_eq_some.mp hn with ⟨_, ⟨⟩⟩
    exact spawn_threadStep _ rfl (.inr rfl) u
  | execve =>
    cases hn
    exact ret_threadStep _ _ rfl u

theorem next_threadStep (hn : next s l = some s') (u : ThreadId) : ThreadStep s l.thread s' u := by
  unfold next at hn
  dsimp only at hn
  split at hn
  · exact userStep_threadStep hn u
  split at hn
  swap
  · cases hn
  cases hpc : (s.threads l.thread).pc with rw [hpc] at hn
  | unborn | user =>
    cases hn
  | readEuid uid ruid =>
    cases hn
    exact goto_threadStep _ (by simp) u
  | readSuid uid ruid euid =>
    simp only [setuidStep] at hn
    split at hn <;> rename_i hallowed <;> cases hn
    · refine goto_threadStep _ (fun uid' read' heq => ?_) u
      cases heq
      exact hallowed
    · exact ret_threadStep _ _ rfl u
  | store uid read =>
    cases hn
    exact ret_threadStep (s := s) (.ok ()) (s.setCred _ _) rfl u

theorem born_of_next (hn : next s l = some s') : (s.threads l.thread).pc ≠ .unborn := by
  intro hpc
  unfold next at hn
  rw [hpc] at hn
  split at hn <;> cases hn

theorem Ok.next (hok : Ok s) (hl : StoresIntoRead s l) (hn : Cred.next s l = some s') : Ok s' := by
  have hcred := next_credStep hok hl hn
  have hself := hok.born _ (born_of_next hn)
  refine ⟨fun u hu => ?_, fun u uid read hpc => ?_, fun q c hc => ?_⟩
  · cases next_threadStep hn u with
    | same h =>
      unfold procOf at *
      rw [h] at hu ⊢
      exact (hcred.created (hok.born u hu)).1
    | own hut hproc =>
      subst hut
      unfold procOf at *
      rw [hproc]
      exact (hcred.created hself).1
    | born hproc =>
      rcases hproc with hproc | hproc
      · exact hproc
      · unfold procOf at *
        rw [hproc]
        exact (hcred.created hself).1
  · cases next_threadStep hn u with
    | same h => exact hok.checked u uid read (h ▸ hpc)
    | own hut hproc hstore => exact hstore uid read hpc
    | born hproc huser =>
      rw [huser] at hpc
      cases hpc
  · rcases hcred.creator hc with hold | ⟨rfl, hq⟩
    · have hboth := hok.creators q c hold
      exact ⟨(hcred.created hboth.1).1, (hcred.created hboth.2).1⟩
    · exact ⟨(hcred.created hself).1, hq⟩

theorem boot_ok : Ok boot := by
  have hone : (boot.procs 1).created = true := rfl
  have hthreads : ∀ t, (boot.threads t).proc = 1 ∧
      ((boot.threads t).pc = .user ∨ (boot.threads t).pc = .unborn) := by
    intro t
    rcases eq_or_ne t 0 with rfl | ht
    · exact ⟨rfl, .inl rfl⟩
    · simp [boot, update_of_ne ht]
  have hcreator : ∀ q, (boot.procs q).creator = none := by
    intro q
    rcases eq_or_ne q 1 with rfl | hq
    · rfl
    · simp [boot, update_of_ne hq]
  refine ⟨fun t _ => ?_, fun t uid read hpc => ?_, fun q c hc => ?_⟩
  · unfold procOf
    rwa [(hthreads t).1]
  · rcases (hthreads t).2 with h | h <;> rw [h] at hpc <;> cases hpc
  · rw [hcreator q] at hc
    cases hc

end Steps

/-- None of the three user ids is 0. -/
def Dropped (s : State) (p : Pid) : Prop :=
  (s.procs p).cred.uids.real ≠ 0 ∧ (s.procs p).cred.uids.effective ≠ 0 ∧
    (s.procs p).cred.uids.saved ≠ 0

instance (s : State) (p : Pid) : Decidable (Dropped s p) :=
  inferInstanceAs (Decidable (_ ∧ _))

/-- In `s'`: process `p` and the processes that it and its offspring created after `s`. -/
inductive Family (s s' : State) (p : Pid) : Pid → Prop where
  | self : Family s s' p p
  | child {q c : Pid} (hc : Family s s' p c) (hnew : (s.procs q).created = false)
      (hcreator : (s'.procs q).creator = some c) : Family s s' p q

section Main

variable {s₀ s s' : State} {l : Label} {p : Pid}

theorem changeAllowed_ne_zero {ids : Ids} {x : UInt32}
    (h : ids.real ≠ 0 ∧ ids.effective ≠ 0 ∧ ids.saved ≠ 0) (hx : ids.changeAllowed x = true) :
    x ≠ 0 := by
  rintro rfl
  unfold changeAllowed at hx
  rcases h with ⟨hr, he, hs⟩
  simp [Ne.symm hr, Ne.symm he, Ne.symm hs] at hx

variable {q : Pid}

/-- A process without privileges keeps being one. -/
theorem Dropped.step {t : ThreadId} (h : Dropped s q) (hstep : CredStep s t s')
    (hq : (s.procs q).created = true) : Dropped s' q := by
  cases hstep with
  | same hprocs =>
    unfold Dropped
    rwa [hprocs]
  | store cred hprocs hwithin =>
    unfold Dropped
    rw [hprocs]
    rcases eq_or_ne q (s.procOf t) with rfl | hp
    · rw [update_self]
      have hin := (hwithin h.2.1).1
      exact ⟨changeAllowed_ne_zero h hin.1, changeAllowed_ne_zero h hin.2.1,
        changeAllowed_ne_zero h hin.2.2⟩
    · rwa [update_of_ne hp]
  | fork child hnew hprocs =>
    have hne : q ≠ child := by
      rintro rfl
      rw [hq] at hnew
      cases hnew
    unfold Dropped
    rwa [hprocs, update_of_ne hne]

/-- Who is of the family after a step was so before it, or is a child made by the step. -/
theorem Family.of_step {t : ThreadId} (hok : Ok s) (hstep : CredStep s t s')
    (ht : (s.procs (s.procOf t)).created = true) (h : Family s₀ s' p q) : Family s₀ s p q ∨
      (Family s₀ s p (s.procOf t) ∧ (s'.procs q).cred = (s.procs (s.procOf t)).cred) := by
  suffices hboth : ((s.procs q).created = true ∨ q = p → Family s₀ s p q) ∧
      ((s.procs q).created = false → q ≠ p →
        Family s₀ s p (s.procOf t) ∧ (s'.procs q).cred = (s.procs (s.procOf t)).cred) by
    by_cases hq : (s.procs q).created = true ∨ q = p
    · exact .inl (hboth.1 hq)
    · rw [not_or, Bool.not_eq_true] at hq
      exact .inr (hboth.2 hq.1 hq.2)
  induction h with
  | self => exact ⟨fun _ => .self, fun _ hne => absurd rfl hne⟩
  | @child q c hc hnew hcreator ih =>
    refine ⟨fun hq => ?_, fun hq hne => ?_⟩
    · by_cases hqp : q = p
      · exact hqp ▸ .self
      · -- The creator of an old process is old.
        rw [(hstep.created (hq.resolve_right hqp)).2] at hcreator
        exact .child (ih.1 (.inl (hok.creators q c hcreator).1)) hnew hcreator
    · cases hstep with
      | same hprocs =>
        rw [hprocs] at hcreator
        rw [(hok.creators q c hcreator).2] at hq
        cases hq
      | store cred hprocs =>
        have hqt : q ≠ s.procOf t := by
          rintro rfl
          rw [ht] at hq
          cases hq
        rw [hprocs, update_of_ne hqt] at hcreator
        rw [(hok.creators q c hcreator).2] at hq
        cases hq
      | fork child hfresh hprocs =>
        rcases eq_or_ne q child with rfl | hqc
        · rw [hprocs, update_self] at hcreator ⊢
          cases hcreator
          exact ⟨ih.1 (.inl ht), rfl⟩
        · rw [hprocs, update_of_ne hqc] at hcreator
          rw [(hok.creators q c hcreator).2] at hq
          cases hq

theorem Family.created (hok : Ok s) (hp : (s.procs p).created = true)
    (h : Family s₀ s p q) : (s.procs q).created = true := by
  cases h with
  | self => exact hp
  | child hc hnew hcreator => exact (hok.creators q _ hcreator).2

/-- What the whole family keeps along a run. -/
structure FamilyDropped (s₀ s : State) (p : Pid) : Prop where
  ok : Ok s
  created : (s.procs p).created = true
  dropped : ∀ q, Family s₀ s p q → Dropped s q

theorem FamilyDropped.step (h : FamilyDropped s₀ s p) (hl : StoresIntoRead s l)
    (hn : next s l = some s') : FamilyDropped s₀ s' p := by
  have hcred := next_credStep h.ok hl hn
  have hself := h.ok.born _ (born_of_next hn)
  refine ⟨h.ok.next hl hn, (hcred.created h.created).1, fun q hq => ?_⟩
  rcases hq.of_step h.ok hcred hself with hold | ⟨hparent, hcopy⟩
  · exact (h.dropped q hold).step hcred (hold.created h.ok h.created)
  · have hdropped := h.dropped _ hparent
    unfold Dropped at hdropped ⊢
    rwa [hcopy]

theorem Family.of_same (hok : Ok s) (h : Family s s p q) : q = p := by
  cases h with
  | self => rfl
  | child hc hnew hcreator =>
    rw [(hok.creators q _ hcreator).2] at hnew
    cases hnew

theorem ok_of_reach (h : machine.Reach StoresIntoRead s) : Ok s := by
  refine h.invariant ?_ ?_
  · rintro s rfl
    exact boot_ok
  · intro s l s' hok hl hn
    exact hok.next hl hn

/-- Dropped privileges stay dropped. -/
theorem privileges_stay_dropped (h : machine.Reach StoresIntoRead s) (p : Pid)
    (hp : (s.procs p).created = true) :
    (Dropped s p → ∀ s', machine.Path StoresIntoRead s s' → ∀ q, Family s s' p q → Dropped s' q) ∧
    ∀ l s', StoresIntoRead s l → next s l = some s' → (s.procs p).cred.uids.effective ≠ 0 →
      (s'.procs p).cred.Within (s.procs p).cred := by
  have hok := ok_of_reach h
  refine ⟨fun hdropped s' hpath => ?_, fun l s' hl hn hne => ?_⟩
  · have hstart : FamilyDropped s s p := by
      refine ⟨hok, hp, fun q hq => ?_⟩
      rwa [hq.of_same hok]
    have hend : FamilyDropped s s' p := hpath.invariant (P := fun s₁ => FamilyDropped s s₁ p)
        (fun s₁ l s₂ hs hl hn => hs.step hl hn) hstart
    exact hend.dropped
  · have hrefl : (s.procs p).cred.Within (s.procs p).cred := ⟨Ids.Within.refl _, Ids.Within.refl _⟩
    cases next_credStep hok hl hn with
    | same hprocs => rwa [hprocs]
    | store cred hprocs hwithin =>
      rw [hprocs]
      rcases eq_or_ne p (s.procOf l.thread) with rfl | hq
      · rw [update_self]
        exact hwithin hne
      · rwa [update_of_ne hq]
    | fork child hnew hprocs =>
      have hpc : p ≠ child := by
        rintro rfl
        rw [hp] at hnew
        cases hnew
      rwa [hprocs, update_of_ne hpc]

end Main

def dropThenFork : List Label :=
  [⟨0, .setresuid 1000 1000 1000⟩, ⟨0, .fork 2 1⟩, ⟨1, .setuid 0⟩, ⟨1, .go⟩, ⟨1, .go⟩]

theorem privileges_stay_dropped_fork : ∃ s s', machine.Reach StoresIntoRead s ∧
    (s.procs 1).created = true ∧ Dropped s 1 ∧ machine.Path StoresIntoRead s s' ∧
    (s'.procs 2).creator = some 1 ∧ Dropped s' 2 := by
  obtain ⟨s, hs, hcreated, hnew, hdropped, hafter⟩ := machine.exists_reach_of_runWhile StoresIntoRead
    (fun s => (s.procs 1).created = true ∧ (s.procs 2).created = false ∧ Dropped s 1 ∧
      (machine.runWhile StoresIntoRead s (dropThenFork.drop 1)).any
        fun s' => decide ((s'.procs 2).creator = some 1))
    (dropThenFork.take 1) rfl (by decide)
  obtain ⟨s', hrun', hcreator⟩ := (any_eq_true _ _).mp hafter
  have hcreator := of_decide_eq_true hcreator
  have hpath := Machine.path_of_runWhile hrun'
  exact ⟨s, s', hs, hcreated, hdropped, hpath, hcreator,
    (privileges_stay_dropped hs 1 hcreated).1 hdropped s' hpath 2 (.child .self hnew hcreator)⟩

/-- One thread of init calls `setuid(0)` and reads root ids; the other drops all privileges. -/
def dropDuringSetuid : List Label :=
  [⟨0, .start 1⟩, ⟨0, .setuid 0⟩, ⟨0, .go⟩, ⟨0, .go⟩, ⟨1, .setresuid 1000 1000 1000⟩]

/-- Without the condition the store brings root back. -/
theorem privileges_regained_reachable : ∃ s s' l, machine.Reachable s ∧ Dropped s 1 ∧
    next s l = some s' ∧ ¬Dropped s' 1 := by
  obtain ⟨s, hs, hdropped, hstep⟩ := machine.exists_reachable_of_run
    (fun s => Dropped s 1 ∧ (next s ⟨0, .go⟩).any fun s' => decide (¬Dropped s' 1))
    dropDuringSetuid rfl (by decide)
  obtain ⟨s', hn, hregained⟩ := (any_eq_true _ _).mp hstep
  exact ⟨s, s', _, hs, hdropped, hn, of_decide_eq_true hregained⟩

end CosmOS.Cred
