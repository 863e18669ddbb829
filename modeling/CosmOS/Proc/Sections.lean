import CosmOS.Proc.TreeSteps

/-!
# Proc.Sections — what one section of a call does to the tree

One lemma for each call finds the entry of `TreeStep` for the section it executes, and `next_treeStep`
puts them together for a step of the machine.  `State.TreeOk.next`: the invariant of the tree is kept.
-/

namespace CosmOS.Proc

open Function List Option ThreadPc Sleeper ExitPc State

section Sections

variable {s s₁ s' : State} {t u : ThreadId} {a : Act} {pc₀ pc : ThreadPc} {exiting : Bool}

/-- A move between two positions with the same processes in hand, to one that creates nothing. -/
theorem TreeStep.move (hpc : (s.threads t).pc = pc₀)
    (hheld : (s.roleAt t pc).held = (s.roleAt t pc₀).held) (hmakes : ∀ c, ¬(s.roleAt t pc).Makes c)
    (hok : (s.roleAt t pc).Ok s.nodes) : TreeStep s t a (s.goto t pc) :=
  .goto hpc (.refl s) hheld hok fun c hc => absurd hc (hmakes c)

/-! ### Waiting -/

/-- The claim moves the child from the list into the hands of the caller. -/
theorem claim_treeStep {w : Wait} {c : Pid} (hpc : (s.threads t).pc = .wait w (.claim c))
    (hok : ZombieFor s.nodes w c) (hc : c ∈ (s.procs (s.threads t).proc).children) :
    TreeStep s t a ((s.setChildren (s.threads t).proc
      ((s.procs (s.threads t).proc).children.erase c)).goto t (.wait w (.revalidate c))) := by
  have hpc' := roles_eq hpc
  refine .trade (s.threads t).proc _ _ (setChildren_nodes ..) (setChildren_lists ..)
    (goto_roles ..) (fun d => ?_) (fun d _ hd => ?_) ⟨hok, fun _ => False.elim⟩ (.inl erase_subset)
  · rw [hpc']
    exact count_erase_add hc d
  · rw [hpc'] at hd
    cases hd

theorem waitStep_treeStep (h : s.TreeOk) {w : Wait} {k : WaitPc}
    (hpc : (s.threads t).pc = .wait w k) (hn : waitStep s t w a k = some s') :
    TreeStep s t a s' := by
  have hok := h.okAt hpc
  unfold waitStep at hn
  split at hn
  · cases hn
    exact .move hpc rfl (fun _ => id) (fun c hc => by cases hc)
  · cases hn
    exact .move hpc rfl (fun _ => id) (Scan.examine_zombie rfl hok)
  · cases hn
    exact .move hpc rfl (fun _ => id) trivial
  · cases hn
    exact .move hpc rfl (fun _ => id) (hok _ rfl)
  · split at hn <;> cases hn <;> exact .move hpc rfl (fun _ => id) trivial
  · dsimp only at hn
    split at hn <;> cases hn
    next c hc =>
      exact claim_treeStep hpc hok hc
    · exact .move hpc rfl (fun _ => id) trivial
  · split at hn <;> cases hn
    · exact .move hpc rfl (fun _ => id) hok.1
    · -- A claimed child is still a matching zombie.
      rename_i hne
      rw [Bool.and_eq_true] at hne
      exact absurd ⟨hok.1, hok.2⟩ hne
  · exact absurd hok id
  · cases hn
    exact .move hpc rfl (fun _ => id) hok
  · cases hn
    rename_i c
    refine .reap c .user ?_ (unpublish_nodes ..) (unpublish_lists ..) (goto_roles ..) rfl
      ⟨trivial, fun _ => False.elim⟩
    rw [roles_eq hpc]
    rfl

/-- A thread on a wait queue has empty hands and goes on with empty hands. -/
theorem sleepStep_treeStep (h : s.TreeOk) {what : Sleeper} {k : SleepPc}
    (hpc : (s.threads t).pc = .sleep what k) (hn : sleepStep s t what a k = some s') :
    TreeStep s t a s' := by
  have hok := h.okAt hpc
  have hgoto : ∀ k', TreeStep s t a (s.goto t (.sleep what k')) := fun k' =>
    .move hpc rfl (fun _ => id) (ok_at hok k')
  have hleave : ∀ k', TreeStep s t a
      ((s.unqueue (what.queue (s.threads t).proc) t).goto t (.sleep what k')) := fun k' =>
    .goto hpc (s.sameTree_setQueue _ _) rfl (ok_at hok k') fun _ => False.elim
  have hheld : (s.roleAt t (what.after a)).held = [] := after_held what a _
  have hmakes : ∀ c, ¬(s.roleAt t (what.after a)).Makes c := after_not_makes what a _
  cases k with simp only [sleepStep] at hn
  | prepare =>
    cases hn
    exact .setThread hpc (s.sameTree_setQueue _ _) _ rfl rfl (ok_at hok _) fun _ => False.elim
  | skip =>
    split at hn <;> cases hn <;> exact hgoto _
  | skipScan sc =>
    split at hn
    · cases hn
      exact hgoto _
    · cases hn
      exact hgoto _
    · contradiction
  | cancelQueue | finishQueue =>
    cases hn
    exact hleave _
  | cancelTask | finishTask =>
    split at hn <;> cases hn
    · exact .setThread hpc (.refl s) _ rfl hheld (after_ok hok a) fun c hc => absurd hc (hmakes c)
    · exact .move hpc hheld hmakes (after_ok hok a)
  | blocked =>
    split at hn
    · cases hn
      exact .move hpc rfl (fun _ => id) trivial
    · split at hn
      · contradiction
      · cases hn
        exact hgoto _

/-! ### Clones and the release of a vfork parent -/

/-- The thread starts the first thread of the process that it has made. -/
theorem addTask_treeStep (h : s.TreeOk) {c : Pid} {vfork : Bool}
    (hpc : (s.threads t).pc = .clone (.addTask c vfork)) (hu : (s.threads u).pc = .unborn) :
    TreeStep s t (.start u) (((s.setProc c { s.procs c with tasks := (s.procs c).tasks ++ [u] }).setThread
      u (Thread.new c true)).goto t (if vfork then .clone (.vforkCheck c) else .user)) := by
  have hok := h.okAt hpc
  have hpc' := roles_eq hpc
  have hmakes : (s.roles t).Makes c := by
    rw [hpc']
    rfl
  -- The new thread is not the one that creates it.
  have htu : t ≠ u := by
    rintro rfl
    rw [hpc] at hu
    cases hu
  refine .spawn u c (if vfork then .clone (.vforkCheck c) else .user) rfl hu
    (fun v hv => h.makers v t c hv hmakes) (by cases vfork <;> exact id) hok.1
    (s.setProc_nodes_of_eq c _ rfl) (s.setProc_lists_of_eq c _ rfl) ?_ ?_ ⟨?_, fun d hd => ?_⟩
  · rw [goto_roles, setThread_roles, update_of_ne htu]
    rfl
  · rw [hpc']
    cases vfork <;> rfl
  · cases vfork
    · trivial
    · exact h.published _ hok.1
  · cases vfork <;> exact absurd hd id

theorem cloneStep_treeStep (h : s.TreeOk) {k : ClonePc}
    (hpc : (s.threads t).pc = .clone k) (hn : cloneStep s t a k = some s') : TreeStep s t a s' := by
  have hok := h.okAt hpc
  have hpc' := roles_eq hpc
  unfold cloneStep at hn
  split at hn
  next c g vfork =>
    cases hn
    refine .trade g _ _ (setChildren_nodes ..) (setChildren_lists ..) (goto_roles ..)
      (fun d => ?_) (fun d _ hd => ?_) ⟨⟨hok.1, hok.2.1⟩, ?_⟩ (.inr (.inr ⟨c, vfork, hpc⟩))
    · rw [hpc']
      simp only [count_append]
      rfl
    · rw [hpc'] at hd
      rw [mem_singleton.mp hd]
      exact hok.2.2.1
    · rw [hpc']
      exact fun d hd => hd
  next c g vfork =>
    split at hn <;> cases hn
    · exact .abandon c g vfork hpc (setChildren_nodes ..) (setChildren_lists ..) (goto_roles ..)
    · exact .publish c g vfork hpc (setProc_nodes ..) (s.setProc_lists_of_eq c _ rfl)
        (goto_roles ..)
  next c vfork =>
    split at hn
    next u =>
      rcases ite_none_right_eq_some.mp hn with ⟨hu, ⟨⟩⟩
      exact addTask_treeStep h hpc hu
    · contradiction
  · split at hn <;> cases hn
    · exact .move hpc rfl (fun _ => id) trivial
    · exact .move hpc rfl (fun _ => id) hok

theorem releaseStep_treeStep (h : s.TreeOk)
    (hpc : (s.threads t).pc = .release exiting) (hn : releaseStep s t exiting = some s') :
    TreeStep s t a s' := by
  have hok := h.okAt hpc
  unfold releaseStep at hn
  dsimp only at hn
  split at hn <;> cases hn
  · exact .move hpc (afterRelease_held exiting _) (afterRelease_not_makes exiting _)
      (afterRelease_ok _ hok)
  · exact .goto hpc (s.sameTree_setProc _ _ rfl rfl) rfl hok fun _ => False.elim

def WakeOut.resumeAll (exiting : Bool) : WakeOut → ThreadPc
  | .goto k => .wakeAll exiting k
  | .woke => .wakeAll exiting .pop
  | .empty => afterRelease exiting

theorem wakeAllStep_treeStep (h : s.TreeOk) {k : WakePc}
    (hpc : (s.threads t).pc = .wakeAll exiting k) (hn : wakeAllStep s t exiting k = some s') :
    TreeStep s t a s' := by
  have hok := h.okAt hpc
  have hstep : ∀ s₁ out, wakeUpTo s (s.threads t).proc k = (s₁, out) →
      TreeStep s t a (s₁.goto t (out.resumeAll exiting)) := by
    intro s₁ out heq
    have hst := sameTree_wakeUpTo s (s.threads t).proc k
    rw [heq] at hst
    refine .goto hpc hst ?_ ?_ (fun c hc => ?_)
    · cases out <;> first | rfl | exact afterRelease_held exiting _
    · cases out <;> first | exact hok | exact afterRelease_ok _ hok
    · cases out <;> first | exact absurd hc id | exact absurd hc (afterRelease_not_makes exiting _ c)
  unfold wakeAllStep at hn
  split at hn <;> rename_i heq <;> cases hn <;> exact hstep _ _ heq

/-! ### The exit path -/

/-- The end of the loop over the children: they are put on the list of init. -/
theorem reparented_treeStep (h : s.TreeOk) {done zombies : List Pid}
    (hpc : (s.threads t).pc = .exit (.reparent [] done zombies)) :
    TreeStep s t a ((s.setChildren initproc ((s.procs initproc).children ++ done)).goto t
      (.exit (.announce zombies))) := by
  have hok := h.okAt hpc
  have hpc' := roles_eq hpc
  refine .trade initproc _ (.exit (.announce zombies)) (setChildren_nodes ..)
    (setChildren_lists ..) (goto_roles ..) (fun d => ?_) (fun d _ hd => ?_)
    ⟨announce_ok hok.1 hok.2.2, fun c hc => absurd hc (announce_not_makes _ _ c)⟩
    (.inr (.inl ⟨rfl, done, zombies, hpc⟩))
  · have hempty : (s.roleAt t (.exit (.announce zombies))).held = [] := announce_held zombies _
    have hheld : (s.roles t).held = done ++ [] := by
      rw [hpc']
      rfl
    rw [hempty, hheld, append_nil, count_append]
    rfl
  · rw [hpc'] at hd
    exact hok.2.1 d (append_nil done ▸ hd)

/-- A section of the notification of init for a zombie that was handed to it. -/
theorem notifyInit_treeStep (h : s.TreeOk) {c : Pid} {k : NotifyPc} {todo : List Pid} {out : NotifyOut}
    (hpc : (s.threads t).pc = .exit (.notifyInit c k todo))
    (heq : notifyParentChildExit s initproc c k = (s₁, out)) :
    TreeStep s t a (s₁.goto t (out.resume (fun k => .exit (.notifyInit c k todo))
      (.exit (.announce todo)))) := by
  have hok := h.okAt hpc
  have hpos : Notifies s t c (fun k => .exit (.notifyInit c k todo)) (.exit (.announce todo)) :=
    ⟨fun _ => rfl, announce_held todo _, fun _ hk => ⟨hok.1, hok.2.1, hk⟩,
      announce_ok hok.1 fun d hd => hok.2.1 d (.tail _ hd), fun _ _ => id,
      fun d => announce_not_makes todo _ d⟩
  exact notify_treeStep _ _ hpc hpos (hok.2.1 c (.head _)) hok.2.2 heq

/-- A section of the notification of the own parent. -/
theorem notifyParent_treeStep (h : s.TreeOk) {g : Pid} {k : NotifyPc} {out : NotifyOut}
    (hpc : (s.threads t).pc = .exit (.notifyParent g k))
    (heq : notifyParentChildExit s g (s.threads t).proc k = (s₁, out)) :
    TreeStep s t a (s₁.goto t (out.resume (fun k => .exit (.notifyParent g k)) .dead)) := by
  have hok := h.okAt hpc
  have hpos : Notifies s t (s.threads t).proc (fun k => .exit (.notifyParent g k)) .dead :=
    ⟨fun _ => rfl, rfl, fun _ hk => ⟨hok.1, hk⟩, trivial, fun _ _ => id, fun _ => id⟩
  exact notify_treeStep _ _ hpc hpos hok.1 hok.2 heq

theorem exitStep_treeStep (h : s.TreeOk) {k : ExitPc}
    (hpc : (s.threads t).pc = .exit k) (hn : exitStep s t a k = some s') : TreeStep s t a s' := by
  have hok := h.okAt hpc
  cases k with
  | mark =>
    simp only [exitStep] at hn
    split at hn <;> cases hn
    · exact .move hpc rfl (fun _ => id) trivial
    · exact .mark hpc (setProc_nodes ..) (setProc_lists ..) (goto_roles ..)
  | reparent todo done zombies =>
    cases todo with
    | nil =>
      cases hn
      exact reparented_treeStep h hpc
    | cons c todo =>
      cases hn
      exact .reparent c todo done zombies hpc (setProc_nodes ..) (s.setProc_lists_of_eq c _ rfl)
        (goto_roles ..)
  | notifyInit c k todo =>
    simp only [exitStep] at hn
    split at hn <;> rename_i heq <;> cases hn <;> exact notifyInit_treeStep h hpc heq
  | snapshot =>
    cases hn
    exact .move hpc rfl (fun _ => id) hok
  | kill todo =>
    cases todo with
    | nil =>
      cases hn
      exact .move hpc rfl (fun _ => id) hok
    | cons u todo =>
      have hst : SameTree s (s.setThread u
          { s.threads u with killed := true, asleep := false, handle := none }) :=
        ⟨rfl, rfl, s.setThread_roles_of_eq u _ rfl⟩
      simp only [exitStep] at hn
      split at hn <;> cases hn <;> exact .goto hpc hst rfl hok fun _ => False.elim
  | unqueue u q todo =>
    cases hn
    exact .goto hpc (s.sameTree_setQueue _ _) rfl hok fun _ => False.elim
  | join =>
    simp only [exitStep] at hn
    split at hn <;> cases hn
    · exact .move hpc rfl (fun _ => id) hok
    · exact .same hpc h (.refl s)
  | recycle =>
    have hst := s.sameTree_setProc (s.threads t).proc
      { s.procs (s.threads t).proc with tasks := [] } rfl rfl
    simp only [exitStep] at hn
    split at hn
    · cases hn
      exact .goto hpc hst rfl trivial fun _ => False.elim
    · split at hn
      · rcases ite_none_right_eq_some.mp hn with ⟨-, ⟨⟩⟩
        exact .goto hpc hst rfl trivial fun _ => False.elim
      · cases hn
        exact .goto hpc hst rfl ⟨hok, by simp⟩ fun _ => False.elim
  | notifyParent g k =>
    simp only [exitStep] at hn
    split at hn <;> rename_i heq <;> cases hn <;> exact notifyParent_treeStep h hpc heq

/-! ### System calls -/

theorem cloneProcess_treeStep (h : s.TreeOk) {child : Pid} {parentFlag vfork upgraded : Bool}
    {sig : ExitSignal} (hact : a = .clone child parentFlag vfork upgraded sig)
    (hpc : (s.threads t).pc = .user)
    (hn : cloneProcess s t child parentFlag vfork upgraded sig = some s') : TreeStep s t a s' := by
  unfold cloneProcess at hn
  dsimp only at hn
  split at hn
  · contradiction
  rename_i hcreated
  have hc : (s.nodes child).created = false := Bool.eq_false_iff.mpr hcreated
  have hlist : s.lists child = [] := h.lister child hc
  split at hn
  · contradiction
  split at hn
  next hflag =>
    subst hflag
    split at hn <;> rename_i htarget <;> cases hn
    next g =>
      have hg : (s.nodes (s.roles t).proc).parent = some g := by
        rcases ite_none_right_eq_some.mp htarget with ⟨_, htarget⟩
        exact htarget
      have hx := Process.new_node g (s.procs (s.threads t).proc).pgid sig vfork
      rw [htarget]
      exact .createFor child g _ vfork hpc hc hg hx.1 hx.2 (setProc_nodes ..)
        (s.setProc_lists_of_eq child _ hlist.symm) (goto_roles ..)
    · have hx := Process.new_node (s.threads t).proc (s.procs (s.threads t).proc).pgid sig vfork
      rw [htarget]
      exact .createLost child _ vfork upgraded sig hact htarget hpc hc hx.1 hx.2
        (setProc_nodes ..) (s.setProc_lists_of_eq child _ hlist.symm) (goto_roles ..)
  next hflag =>
    cases hn
    rw [Bool.not_eq_true] at hflag
    subst hflag
    have hx := Process.new_node (s.threads t).proc (s.procs (s.threads t).proc).pgid sig vfork
    refine .createOwn child _ vfork upgraded sig hact hpc hc hx.1 hx.2 ?_ ?_ (goto_roles ..)
    · rw [goto_nodes, setChildren_nodes]
      exact setProc_nodes ..
    · rw [goto_lists, setChildren_lists]
      exact congrArg (update · _ _) (s.setProc_lists_of_eq child _ hlist.symm)

/-- A thread of the calling process starts; the caller stays in user mode. -/
theorem start_treeStep (h : s.TreeOk) (hpc : (s.threads t).pc = .user)
    (hu : (s.threads u).pc = .unborn) :
    TreeStep s t (.start u) ((s.setProc (s.threads t).proc { s.procs (s.threads t).proc with
      tasks := (s.procs (s.threads t).proc).tasks ++ [u] }).setThread u
        (Thread.new (s.threads t).proc false)) := by
  have hpc' := roles_eq hpc
  have hborn : (s.roles t).pc ≠ .unborn := by
    rw [hpc']
    exact nofun
  have htu : t ≠ u := by
    rintro rfl
    exact hborn hu
  refine .spawn u (s.threads t).proc .user rfl hu (fun v hv => absurd rfl (h.fresh v _ hv t hborn))
    id (h.born t hborn) (s.setProc_nodes_of_eq _ _ rfl) (s.setProc_lists_of_eq _ _ rfl) ?_
    (hpc' ▸ rfl) ⟨trivial, fun _ => False.elim⟩
  rw [setThread_roles, setProc_roles, ← hpc']
  funext v
  rcases eq_or_ne v t with rfl | hv
  · rw [update_self, update_of_ne htu]
  · rw [update_of_ne hv]
    rfl

theorem userStep_treeStep (h : s.TreeOk) (hpc : (s.threads t).pc = .user)
    (hn : userStep s t a = some s') : TreeStep s t a s' := by
  cases a with
  | wait4 pid nohang | kill target =>
    cases hn
    exact .move hpc rfl (fun _ => id) trivial
  | clone child parentFlag vfork upgraded sig => exact cloneProcess_treeStep h rfl hpc hn
  | start u =>
    rcases ite_none_right_eq_some.mp hn with ⟨hu, ⟨⟩⟩
    exact start_treeStep h hpc hu
  | execve =>
    cases hn
    exact .move hpc rfl (fun _ => id) fun he => by cases he
  | exit =>
    rcases ite_none_left_eq_some.mp hn with ⟨hne, ⟨⟩⟩
    exact .move hpc rfl (fun _ => id) fun _ => hne
  | exitThread =>
    rcases ite_none_left_eq_some.mp hn with ⟨_, ⟨⟩⟩
    exact .move hpc rfl (fun _ => id) trivial
  | pause =>
    cases hn
    exact .setThread hpc (.refl s) _ rfl rfl trivial fun _ => False.elim
  | sigaction ignored =>
    cases hn
    exact .same hpc h (s.sameTree_setProc _ _ rfl rfl)
  | sigmask masked =>
    cases hn
    exact .same hpc h ⟨rfl, rfl, s.setThread_roles_of_eq t _ rfl⟩
  | go | alt => contradiction

theorem signal_treeStep {k : KickPc} {out : Option KickPc} (hpc : (s.threads t).pc = .signal k)
    (heq : wakeSignalWaiters s k = (s₁, out)) :
    TreeStep s t a (s₁.goto t ((out.map .signal).getD .user)) := by
  have hst := sameTree_wakeSignalWaiters s k
  rw [heq] at hst
  refine .goto hpc hst ?_ ?_ (fun c hc => ?_)
  · cases out <;> rfl
  · cases out <;> trivial
  · cases out <;> exact absurd hc id

theorem kernelStep_treeStep (h : s.TreeOk) (hpc : (s.threads t).pc = pc)
    (hn : kernelStep s t a pc = some s') : TreeStep s t a s' := by
  cases pc with simp only [kernelStep] at hn
  | unborn | user | dead => contradiction
  | paused =>
    split at hn
    · cases hn
      exact .move hpc rfl (fun _ => id) trivial
    · split at hn
      · contradiction
      · cases hn
        exact .move hpc rfl (fun _ => id) trivial
  | wait w k => exact waitStep_treeStep h hpc hn
  | sleep what k => exact sleepStep_treeStep h hpc hn
  | clone k => exact cloneStep_treeStep h hpc hn
  | release exiting => exact releaseStep_treeStep h hpc hn
  | wakeAll exiting k => exact wakeAllStep_treeStep h hpc hn
  | exit k => exact exitStep_treeStep h hpc hn
  | signal k =>
    split at hn <;> rename_i heq <;> cases hn <;> exact signal_treeStep hpc heq

variable {l : Label}

/-- What every step of the machine does to the tree. -/
theorem next_treeStep (h : s.TreeOk) (hn : next s l = some s') : TreeStep s l.thread l.act s' := by
  unfold next at hn
  dsimp only at hn
  split at hn
  next hpc =>
    split at hn
    · cases hn
      exact .move hpc rfl (fun _ => id) trivial
    · exact userStep_treeStep h hpc hn
  · split at hn
    · contradiction
    · exact kernelStep_treeStep h rfl hn

theorem born_of_next (hn : next s l = some s') : (s.roles l.thread).pc ≠ .unborn := by
  intro hpc
  have hpc' : (s.threads l.thread).pc = .unborn := hpc
  unfold next at hn
  dsimp only at hn
  rw [hpc', if_neg (by simp)] at hn
  split at hn <;> contradiction

theorem State.TreeOk.next (h : s.TreeOk) (hn : Proc.next s l = some s') : s'.TreeOk :=
  h.step (born_of_next hn) (next_treeStep h hn)

end Sections

/-! ## Threads that are never started -/

/-- The step starts no thread with a number from `k` on. -/
def Label.StartsBelow (k : ℕ) (l : Label) : Prop :=
  match l.act with
  | .start u => u < k
  | _ => True

instance (k : ℕ) (l : Label) : Decidable (l.StartsBelow k) := by
  unfold Label.StartsBelow
  induction l.act using Act.casesOn <;> infer_instance

/-- A step changes the role of the thread that takes it, and of the one it starts. -/
theorem TreeStep.roles_of_ne {s s' : State} {t u : ThreadId} {a : Act}
    (hstep : TreeStep s t a s') (hut : u ≠ t) (ha : a ≠ .start u) : s'.roles u = s.roles u := by
  cases hstep with
  | spawn v p pc hact hv _ _ hp hnodes hlists hroles hheld hfits =>
    have huv : u ≠ v := by
      rintro rfl
      exact ha hact
    rw [hroles, update_of_ne hut, update_of_ne huv]
  | _ => simp_all

/-- In a run that starts only threads below `k`, the others do not exist. -/
theorem unborn_of_reach {k : ℕ} (hk : 0 < k) {s : State}
    (h : machine.Reach (fun _ l => l.StartsBelow k) s) :
    s.TreeOk ∧ ∀ u, k ≤ u → (s.threads u).pc = .unborn := by
  refine h.invariant (P := fun s => s.TreeOk ∧ ∀ u, k ≤ u → (s.threads u).pc = .unborn) ?_ ?_
  · rintro s rfl
    refine ⟨boot_treeOk, fun u hu => ?_⟩
    have hne : u ≠ 0 := by omega
    simp [boot, update_of_ne hne]
  · rintro s l s' ⟨hok, hun⟩ hl hn
    refine ⟨hok.next hn, fun u hu => ?_⟩
    have hut : u ≠ l.thread := by
      rintro rfl
      exact born_of_next hn (hun _ hu)
    have hact : l.act ≠ .start u := by
      intro hact
      rw [Label.StartsBelow, hact] at hl
      exact absurd hl (Nat.not_lt.mpr hu)
    have hrole := (next_treeStep hok hn).roles_of_ne hut hact
    exact (congrArg Role.pc hrole).trans (hun u hu)

end CosmOS.Proc
