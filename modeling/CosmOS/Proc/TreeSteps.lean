import CosmOS.Proc.Tree

/-!
# Proc.TreeSteps — the sections as moves of the tree

`TreeStep` lists what a section can do to the tree; `next_treeStep` finds the entry for every
section of every call, and `TreeInv.step` is the invariant, one entry at a time.
-/

namespace CosmOS.Proc

open Function List TreeInv Process

/-- The role of `t` after it moved to another position. -/
def State.roleAt (s : State) (t : ThreadId) (pc : ThreadPc) : Role := ⟨(s.roles t).proc, pc⟩

open State

/-- The role a thread takes over at a new position fits the tree it was in. -/
structure Fits (s : State) (t : ThreadId) (pc : ThreadPc) : Prop where
  ok : (s.roleAt t pc).Ok s.nodes
  makes : ∀ c, (s.roleAt t pc).Makes c → (s.roles t).Makes c

/-- What one section of thread `t` does to the tree. -/
inductive TreeStep (s : State) (t : ThreadId) (a : Act) (s' : State) : Prop where
  /-- The thread moves on with the same processes in its hands. -/
  | quiet (pc : ThreadPc) (hnodes : s'.nodes = s.nodes) (hlists : s'.lists = s.lists)
      (hroles : s'.roles = update s.roles t (s.roleAt t pc))
      (hheld : (s.roleAt t pc).held = (s.roles t).held) (hfits : Fits s t pc)
  /-- Processes move between the list of `p` and the hands of `t`. -/
  | trade (p : Pid) (l : List Pid) (pc : ThreadPc) (hnodes : s'.nodes = s.nodes)
      (hlists : s'.lists = update s.lists p l)
      (hroles : s'.roles = update s.roles t (s.roleAt t pc))
      (hcount : ∀ c, l.count c + (s.roleAt t pc).held.count c =
        (s.lists p).count c + (s.roles t).held.count c)
      (hparent : ∀ c ∈ l, c ∈ (s.roles t).held → (s.nodes c).parent = some p)
      (hfits : Fits s t pc)
      (hpush : l ⊆ s.lists p ∨
        (p = initproc ∧ ∃ done zombies, (s.roles t).pc = .exit (.reparent [] done zombies)) ∨
        ∃ c vfork, (s.roles t).pc = .clone (.push c p vfork))
  /-- A clone fails and takes its child off the list again. -/
  | abandon (c g : Pid) (vfork : Bool) (hpc : (s.roles t).pc = .clone (.finish c g vfork))
      (hnodes : s'.nodes = s.nodes)
      (hlists : s'.lists = update s.lists g ((s.lists g).filter (· ≠ c)))
      (hroles : s'.roles = update s.roles t (s.roleAt t .user))
  /-- A process becomes a zombie and its children are taken. -/
  | mark (hpc : (s.roles t).pc = .exit .mark)
      (hnodes : s'.nodes = update s.nodes (s.roles t).proc
        { s.nodes (s.roles t).proc with zombie := true })
      (hlists : s'.lists = update s.lists (s.roles t).proc [])
      (hroles : s'.roles = update s.roles t
        (s.roleAt t (.exit (.reparent (s.lists (s.roles t).proc) [] []))))
  /-- The parent pointer of a taken child is set to init. -/
  | reparent (c : Pid) (todo done zombies : List Pid)
      (hpc : (s.roles t).pc = .exit (.reparent (c :: todo) done zombies))
      (hnodes : s'.nodes = update s.nodes c
        { s.nodes c with parent := some initproc })
      (hlists : s'.lists = s.lists)
      (hroles : s'.roles = update s.roles t (s.roleAt t (.exit (.reparent todo
        (done ++ [c]) (if (s.nodes c).zombie then zombies ++ [c] else zombies)))))
  /-- A process is created, as a child of the calling process and on its list. -/
  | createOwn (c : Pid) (x : Node) (vfork upgraded : Bool) (sig : ExitSignal)
      (hact : a = .clone c false vfork upgraded sig) (hpc : (s.roles t).pc = .user)
      (hc : (s.nodes c).created = false)
      (hx : x.created = true ∧ x.published = false ∧ x.reaped = false ∧ x.zombie = false)
      (hparent : x.parent = some (s.roles t).proc)
      (hnodes : s'.nodes = update s.nodes c x)
      (hlists : s'.lists = update s.lists (s.roles t).proc
        (s.lists (s.roles t).proc ++ [c]))
      (hroles : s'.roles = update s.roles t
        (s.roleAt t (.clone (.finish c (s.roles t).proc vfork))))
  /-- A process is created as a child of `g`, and on no list yet. -/
  | createFor (c g : Pid) (x : Node) (vfork : Bool) (hpc : (s.roles t).pc = .user)
      (hc : (s.nodes c).created = false) (hg : (s.nodes (s.roles t).proc).parent = some g)
      (hx : x.created = true ∧ x.published = false ∧ x.reaped = false ∧ x.zombie = false)
      (hparent : x.parent = some g)
      (hnodes : s'.nodes = update s.nodes c x) (hlists : s'.lists = s.lists)
      (hroles : s'.roles = update s.roles t (s.roleAt t (.clone (.push c g vfork))))
  /-- CLONE_PARENT finds no parent: the child goes on no list. -/
  | createLost (c : Pid) (x : Node) (vfork upgraded : Bool) (sig : ExitSignal)
      (hact : a = .clone c true vfork upgraded sig)
      (hnone : cloneParentTarget s (s.roles t).proc true upgraded = none)
      (hpc : (s.roles t).pc = .user)
      (hc : (s.nodes c).created = false)
      (hx : x.created = true ∧ x.published = false ∧ x.reaped = false ∧ x.zombie = false)
      (hparent : x.parent = some (s.roles t).proc)
      (hnodes : s'.nodes = update s.nodes c x) (hlists : s'.lists = s.lists)
      (hroles : s'.roles = update s.roles t
        (s.roleAt t (.clone (.finish c (s.roles t).proc vfork))))
  | publish (c g : Pid) (vfork : Bool) (hpc : (s.roles t).pc = .clone (.finish c g vfork))
      (hnodes : s'.nodes = update s.nodes c { s.nodes c with published := true })
      (hlists : s'.lists = s.lists)
      (hroles : s'.roles = update s.roles t (s.roleAt t (.clone (.addTask c vfork))))
  /-- A reaper takes the process in its hands out of the pid table. -/
  | reap (c : Pid) (pc : ThreadPc) (hheld : (s.roles t).held = [c])
      (hnodes : s'.nodes = update s.nodes c { s.nodes c with reaped := true })
      (hlists : s'.lists = s.lists)
      (hroles : s'.roles = update s.roles t (s.roleAt t pc))
      (hempty : (s.roleAt t pc).held = []) (hfits : Fits s t pc)
  | spawn (u : ThreadId) (p : Pid) (pc : ThreadPc) (hact : a = .start u)
      (hu : (s.roles u).pc = .unborn) (hmake : ∀ v, (s.roles v).Makes p → v = t)
      (hmake' : ¬(s.roleAt t pc).Makes p)
      (hp : (s.nodes p).published = true) (hnodes : s'.nodes = s.nodes)
      (hlists : s'.lists = s.lists)
      (hroles : s'.roles = update (update s.roles u ⟨p, .user⟩) t
        (s.roleAt t pc))
      (hheld : (s.roleAt t pc).held = (s.roles t).held) (hfits : Fits s t pc)

/-! ## The invariant, one entry at a time -/

section Steps

variable {s s' : State} {t : ThreadId} {a : Act} {c g p : Pid} {vfork : Bool} {pc : ThreadPc}

def State.TreeOk (s : State) : Prop := TreeInv s.nodes s.lists s.roles

section

variable (h : s.TreeOk)
include h

theorem State.TreeOk.mark (hpc : (s.roles t).pc = .exit .mark) : TreeInv
      (update s.nodes (s.roles t).proc { s.nodes (s.roles t).proc with zombie := true })
      (update s.lists (s.roles t).proc []) (update s.roles t
        (s.roleAt t (.exit (.reparent (s.lists (s.roles t).proc) [] [])))) := by
  have hborn : (s.roles t).pc ≠ .unborn := by
    rw [hpc]
    exact nofun
  have hpub := born h t hborn
  have hne : (s.roles t).proc ≠ initproc := by
    have hok := ok h t
    unfold Role.Ok at hok
    rwa [hpc] at hok
  have hzombie : TreeInv (update s.nodes (s.roles t).proc
      { s.nodes (s.roles t).proc with zombie := true }) s.lists s.roles := by
    refine setNode h _ (fun q hq => ⟨h.parent q _ hq, h.listed q _ hq⟩)
      (fun u hu => h.held u _ hu) (fun u => ?_) id (fun g hg => h.parents _ g hg) id
      (fun _ => hpub) (fun hp => h.published _ hp) (fun he => absurd he hne)
    -- The process has a thread, so nobody is creating it.
    exact (h.ok u).keep (Keeps.update _ (fun _ => ⟨rfl, rfl⟩) id (fun _ => rfl)
      (fun hm => absurd rfl (h.fresh u _ hm t hborn)))
  refine trade hzombie hborn [] (fun c => ?_) (fun c hc => ?_) ?_ (fun c hc => ?_)
  · simp [Role.held]
  · cases hc
  · exact ⟨by simp, by simp, by simp⟩
  · exact absurd hc id

/-- A child of an exiting process gets init as its parent. -/
theorem State.TreeOk.reparent {todo done zombies : List Pid}
    (hpc : (s.roles t).pc = .exit (.reparent (c :: todo) done zombies)) :
    TreeInv (update s.nodes c { s.nodes c with parent := some initproc }) s.lists
      (update s.roles t (s.roleAt t (.exit (.reparent todo (done ++ [c])
        (if (s.nodes c).zombie then zombies ++ [c] else zombies))))) := by
  have hborn : (s.roles t).pc ≠ .unborn := by
    rw [hpc]
    exact nofun
  have hheld : (s.roles t).held = done ++ c :: todo := by
    unfold Role.held
    rw [hpc]
  have hc : c ∈ (s.roles t).held := by simp [hheld]
  have hok : (s.nodes (s.roles t).proc).zombie = true ∧
      (∀ c ∈ done, (s.nodes c).parent = some initproc) ∧
      ∀ c ∈ zombies, (s.nodes c).zombie = true := by
    have hok := ok h t
    unfold Role.Ok at hok
    rwa [hpc] at hok
  -- The new pointer changes neither what is a zombie nor the parents of the others.
  have hz : ∀ d, (update s.nodes c { s.nodes c with parent := some initproc } d).zombie =
      (s.nodes d).zombie := update_field Node.zombie rfl
  have hp : ∀ d, d = c ∨ (s.nodes d).parent = some initproc →
      (update s.nodes c { s.nodes c with parent := some initproc } d).parent = some initproc := by
    intro d hd
    rcases eq_or_ne d c with rfl | hdc
    · rw [update_self]
    · rw [update_of_ne hdc]
      exact hd.resolve_left hdc
  have hnode : TreeInv (update s.nodes c { s.nodes c with parent := some initproc })
      s.lists s.roles := by
    refine setNode h _ (fun q hq => absurd hq (h.notMem_of_held hc q))
      (fun u hu => h.held u _ hu) (fun u => ?_) id (fun g hg => ?_) id
      (fun hz => h.zombie _ hz) (fun hp => h.published _ hp) (fun he => he ▸ h.init.2)
    · rcases eq_or_ne u t with rfl | hu
      · unfold Role.Ok
        rw [hpc]
        refine ⟨?_, fun d hd => hp d (.inr (hok.2.1 d hd)), fun d hd => ?_⟩
        · rw [hz]
          exact hok.1
        · rw [hz]
          exact hok.2.2 d hd
      · refine (h.ok u).keep (Keeps.update _ (fun hz => ⟨hz, rfl⟩) id (fun hcu => ?_)
          (fun _ => ⟨rfl, rfl⟩))
        exact absurd (h.eq_of_held hcu hc) hu
    · rw [← Option.some.inj hg]
      exact h.published _ h.init.1
  refine quiet hnode hborn (fun d => ?_) ?_ (fun d hd => absurd hd id)
  · rw [hheld]
    simp only [Role.held, count_append, count_cons, count_nil]
    omega
  · refine ⟨?_, fun d hd => ?_, fun d hd => ?_⟩
    · rw [hz]
      exact hok.1
    · rcases mem_append.mp hd with hd | hd
      · exact hp d (.inr (hok.2.1 d hd))
      · exact hp d (.inl (mem_singleton.mp hd))
    · rw [hz]
      split at hd
      next hzc =>
        rcases mem_append.mp hd with hd | hd
        · exact hok.2.2 d hd
        · rw [mem_singleton.mp hd]
          exact hzc
      · exact hok.2.2 d hd

theorem State.TreeOk.publish (hpc : (s.roles t).pc = .clone (.finish c g vfork)) :
    TreeInv (update s.nodes c { s.nodes c with published := true }) s.lists
      (update s.roles t (s.roleAt t (.clone (.addTask c vfork)))) := by
  have hborn : (s.roles t).pc ≠ .unborn := by
    rw [hpc]
    rintro ⟨⟩
  have hmakes : (s.roles t).Makes c := by
    unfold Role.Makes
    rw [hpc]
  have hok : (s.nodes c).created = true ∧ (s.nodes c).published = false := by
    have hok := ok h t
    unfold Role.Ok at hok
    rwa [hpc] at hok
  have hzombie : (s.nodes c).zombie = false := by
    refine Bool.eq_false_iff.mpr fun hz => ?_
    rw [zombie h c hz] at hok
    cases hok.2
  have hsole : Sole s.roles t c := sole h hmakes
  -- The thread first gives up its claim that the child is unpublished.
  have hquiet : TreeInv s.nodes s.lists (update s.roles t (s.roleAt t .user)) :=
    quiet h hborn (fun d => by simp [Role.held]) trivial (fun d hd => absurd hd id)
  have hself : (update s.roles t (s.roleAt t .user)) t = s.roleAt t .user := update_self ..
  have hnobody : ∀ u, ¬(update s.roles t (s.roleAt t .user) u).Makes c := by
    intro u hu
    rcases eq_or_ne u t with rfl | hut
    · rwa [update_self] at hu
    · rw [update_of_ne hut] at hu
      exact hut (hsole.maker u hu)
  have hnode : TreeInv (update s.nodes c { s.nodes c with published := true }) s.lists
      (update s.roles t (s.roleAt t .user)) := by
    refine setNode hquiet _
      (fun q hq => ⟨hquiet.parent q _ hq, hquiet.listed q _ hq⟩) (fun u hu => hquiet.held u _ hu)
      (fun u => ?_) id (fun g hg => hquiet.parents _ g hg) (fun _ => rfl)
      (fun _ => rfl) (fun _ => hok.1) (fun he => he ▸ hquiet.init.2)
    exact (hquiet.ok u).keep (Keeps.update _ (fun hz => ⟨hz, rfl⟩) id
      (fun _ => rfl) (fun hm => absurd hm (hnobody u)))
  have hlast : TreeInv _ _ (update _ t ⟨_, .clone (.addTask c vfork)⟩) := quiet hnode ?_ ?_ ?_ ?_
  · rwa [hself, update_idem] at hlast
  · rw [hself]
    rintro ⟨⟩
  · intro d
    rw [hself]
    exact Nat.le_refl _
  · rw [hself]
    unfold Role.Ok
    dsimp only
    rw [update_self]
    exact ⟨rfl, hzombie⟩
  · rw [hself]
    rintro d rfl
    refine ⟨fun u hu => absurd hu (hnobody u), fun u hu => ?_⟩
    rcases eq_or_ne u t with rfl | hut
    · rw [update_self]
      exact hsole.fresh u hborn
    · rw [update_of_ne hut] at hu ⊢
      exact hsole.fresh u hu

theorem State.TreeOk.reap (hheld : (s.roles t).held = [c]) (hempty : (s.roleAt t pc).held = [])
    (hfits : Fits s t pc) :
    TreeInv (update s.nodes c { s.nodes c with reaped := true }) s.lists
      (update s.roles t (s.roleAt t pc)) := by
  have hborn : (s.roles t).pc ≠ .unborn := by
    intro hpc
    unfold Role.held at hheld
    rw [hpc] at hheld
    exact cons_ne_nil _ _ hheld.symm
  have hc : c ∈ (s.roles t).held := by simp [hheld]
  have hquiet : TreeInv s.nodes s.lists (update s.roles t (s.roleAt t pc)) := by
    refine quiet h hborn (fun d => ?_) hfits.ok (fun d hd => h.sole (hfits.makes d hd))
    change (s.roleAt t pc).held.count d ≤ _
    rw [hempty]
    exact Nat.zero_le _
  -- Out of the hands of `t`, the process is nowhere.
  have hhand : ∀ u, c ∉ (update s.roles t (s.roleAt t pc) u).held := by
    intro u hu
    rcases eq_or_ne u t with rfl | hut
    · rw [update_self, hempty] at hu
      exact not_mem_nil hu
    · rw [update_of_ne hut] at hu
      exact hut (h.eq_of_held hu hc)
  have hkeeps : ∀ u, Keeps s.nodes (update s.nodes c { s.nodes c with reaped := true })
      (update s.roles t (s.roleAt t pc) u) :=
    fun u => .update _ (fun hz => ⟨hz, rfl⟩) id (fun _ => rfl) fun _ => ⟨rfl, rfl⟩
  exact setNode hquiet _ (fun q hq => absurd hq (h.notMem_of_held hc q))
    (fun u hu => absurd hu (hhand u)) (fun u => (hquiet.ok u).keep (hkeeps u)) id
    (fun g hg => hquiet.parents _ g hg) id (fun hz => hquiet.zombie _ hz)
    (fun hp => hquiet.published _ hp) (fun he => he ▸ hquiet.init.2)

section

variable (hpc : (s.roles t).pc = .user) (hc : (s.nodes c).created = false) (x : Node)
  (hx : x.created = true ∧ x.published = false ∧ x.reaped = false ∧ x.zombie = false)
  (hparent : x.parent = some g) (hg : (s.nodes g).created = true) (vfork : Bool)

include hpc hc hx hparent hg

/-- The new process passes through the hands of its creator. -/
theorem State.TreeOk.createFor :
    TreeInv (update s.nodes c x) s.lists (update s.roles t (s.roleAt t (.clone (.push c g vfork)))) := by
  refine create h ?_ hc x hx hparent hg vfork
  rw [hpc]
  exact nofun

theorem State.TreeOk.createOwn (l : List Pid) (hl : l = s.lists g ++ [c] ∨ l = s.lists g) :
    TreeInv (update s.nodes c x) (update s.lists g l) (update s.roles t (s.roleAt t (.clone (.finish c g vfork)))) := by
  have hpush := h.createFor hpc hc x hx hparent hg vfork
  have hself : (update s.roles t (s.roleAt t (.clone (.push c g vfork)))) t =
      s.roleAt t (.clone (.push c g vfork)) := update_self ..
  have hnode : update s.nodes c x c = x := update_self ..
  have hlast : TreeInv _ (update _ g l) (update _ t ⟨_, .clone (.finish c g vfork)⟩) :=
    trade hpush ?_ l ?_ ?_ ?_ ?_
  · rwa [hself, update_idem] at hlast
  · rw [hself]
    exact nofun
  · intro d
    rw [hself]
    simp only [roleAt, Role.held, count_cons]
    rcases hl with rfl | rfl
    · simp only [count_append, count_cons, count_nil]
      omega
    · omega
  · intro d _ hd
    rw [hself] at hd
    rw [mem_singleton.mp hd, hnode]
    exact hparent
  · rw [hself]
    unfold Role.Ok
    dsimp only
    rw [hnode]
    exact ⟨hx.1, hx.2.1⟩
  · intro d hd
    refine hpush.sole ?_
    rw [hself]
    exact hd

end

theorem State.TreeOk.spawn {u : ThreadId} (hu : (s.roles u).pc = .unborn)
    (hp : (s.nodes p).published = true) (hborn : (s.roles t).pc ≠ .unborn)
    (hheld : (s.roleAt t pc).held = (s.roles t).held) (hfits : Fits s t pc)
    (hmake : ∀ v, (s.roles v).Makes p → v = t) (hmake' : ¬(s.roleAt t pc).Makes p) :
    TreeInv s.nodes s.lists (update (update s.roles u ⟨p, .user⟩) t (s.roleAt t pc)) := by
  have htu : u ≠ t := by
    rintro rfl
    exact hborn hu
  have hquiet : TreeInv s.nodes s.lists (update s.roles t (s.roleAt t pc)) :=
    quiet h hborn (fun d => Nat.le_of_eq (congrArg (count d) hheld)) hfits.ok
      fun d hd => h.sole (hfits.makes d hd)
  rw [update_comm htu]
  refine TreeInv.spawn hquiet ?_ hp fun v hv => ?_
  · rwa [update_of_ne htu]
  rcases eq_or_ne v t with rfl | hvt
  · rw [update_self] at hv
    exact hmake' hv
  · rw [update_of_ne hvt] at hv
    exact hvt (hmake v hv)

/-- A section keeps the invariant of the tree. -/
theorem State.TreeOk.step (hborn : (s.roles t).pc ≠ .unborn)
    (hstep : TreeStep s t a s') : s'.TreeOk := by
  have hproc := h.published _ (h.born t hborn)
  unfold State.TreeOk
  cases hstep with rw [hnodes, hlists, hroles]
  | quiet pc hnodes hlists hroles hheld hfits =>
    exact quiet h hborn (fun c => Nat.le_of_eq (congrArg (count c) hheld)) hfits.ok
      fun c hc => h.sole (hfits.makes c hc)
  | trade p l pc hnodes hlists hroles hcount hparent hfits _ =>
    exact trade h hborn l (fun c => Nat.le_of_eq (hcount c)) hparent hfits.ok
      fun c hc => h.sole (hfits.makes c hc)
  | abandon c g vfork hpc hnodes hlists hroles =>
    refine trade h hborn _ (fun d => ?_) (fun d hd hh => ?_) trivial
      fun d hd => absurd hd id
    · simp only [Role.held]
      exact Nat.le_trans (filter_sublist.count_le d) (Nat.le_add_right _ _)
    · exact absurd ((mem_filter.mp hd).1) (h.notMem_of_held hh g)
  | mark hpc hnodes hlists hroles =>
    exact h.mark hpc
  | reparent c todo done zombies hpc hnodes hlists hroles =>
    exact h.reparent hpc
  | createOwn c x vfork _ _ _ hpc hc hx hparent hnodes hlists hroles =>
    exact h.createOwn hpc hc x hx hparent hproc vfork _ (.inl rfl)
  | createFor c g x vfork hpc hc hg hx hparent hnodes hlists hroles =>
    exact h.createFor hpc hc x hx hparent (h.parents _ g hg) vfork
  | createLost c x vfork _ _ _ _ hpc hc hx hparent hnodes hlists hroles =>
    have hlost := h.createOwn hpc hc x hx hparent hproc vfork _ (.inr rfl)
    rwa [update_eq_self] at hlost
  | publish c g vfork hpc hnodes hlists hroles =>
    exact h.publish hpc
  | reap c pc hheld hnodes hlists hroles hempty hfits => exact h.reap hheld hempty hfits
  | spawn u p pc _ hu hmake hmake' hp hnodes hlists hroles hheld hfits =>
    exact h.spawn hu hp hborn hheld hfits hmake hmake'

end

end Steps

/-! ## The entry of every section -/

section Sections

variable {s s₁ s' : State} {t : ThreadId} {a : Act} {w : Wait} {pc₀ pc : ThreadPc}

theorem State.roles_eq (hpc : (s.threads t).pc = pc₀) : s.roles t = s.roleAt t pc₀ := by
  subst hpc
  rfl

/-- The thread knows at its position what the invariant says. -/
theorem State.TreeOk.okAt (h : s.TreeOk) (hpc : (s.threads t).pc = pc₀) :
    (s.roleAt t pc₀).Ok s.nodes :=
  roles_eq hpc ▸ h.ok t

theorem TreeStep.goto (hpc : (s.threads t).pc = pc₀) (hst : SameTree s s₁)
    (hheld : (s.roleAt t pc).held = (s.roleAt t pc₀).held) (hok : (s.roleAt t pc).Ok s.nodes)
    (hmakes : ∀ c, (s.roleAt t pc).Makes c → (s.roleAt t pc₀).Makes c) :
    TreeStep s t a (s₁.goto t pc) := by
  have hpc' := roles_eq hpc
  refine .quiet pc hst.nodes hst.lists ?_ (hpc' ▸ hheld) ⟨hok, fun c hc => hpc' ▸ hmakes c hc⟩
  rw [goto_roles, hst.roles]
  rfl

theorem TreeStep.setThread (hpc : (s.threads t).pc = pc₀) (hst : SameTree s s₁) (x : Thread)
    (hproc : x.proc = (s.threads t).proc) (hheld : (s.roleAt t x.pc).held = (s.roleAt t pc₀).held)
    (hok : (s.roleAt t x.pc).Ok s.nodes)
    (hmakes : ∀ c, (s.roleAt t x.pc).Makes c → (s.roleAt t pc₀).Makes c) :
    TreeStep s t a (s₁.setThread t x) := by
  have hpc' := roles_eq hpc
  refine .quiet x.pc hst.nodes hst.lists ?_ (hpc' ▸ hheld) ⟨hok, fun c hc => hpc' ▸ hmakes c hc⟩
  rw [setThread_roles, hst.roles]
  rcases x with ⟨p⟩
  subst hproc
  rfl

variable {n : Pid → Node}

theorem Scan.examine_zombie {sc : Scan} {c : Pid} {rest : List Pid}
    {p : Process} (hp : p.node = n c) (h : ∀ d, sc.zombie = some d → ZombieFor n w d) (d : Pid)
    (hd : (sc.examine w c p rest).zombie = some d) : ZombieFor n w d := by
  unfold Scan.examine at hd
  split at hd
  next hm =>
    rcases Option.or_eq_some_iff.mp hd with hd | ⟨-, hd⟩
    · exact h d hd
    split at hd
    next hz =>
      cases hd
      unfold ZombieFor
      rw [← hp]
      exact ⟨hz, hm⟩
    · cases hd
  · exact h d hd

/-- Moving an element of a list into a hand keeps the count. -/
theorem count_erase_add {l : List Pid} {c : Pid} (hc : c ∈ l) (d : Pid) :
    (l.erase c).count d + [c].count d = l.count d + ([] : List Pid).count d := by
  rw [count_erase, count_nil, count_singleton]
  rcases eq_or_ne c d with rfl | hcd
  · have hpos := count_pos_iff.mpr hc
    simp only [beq_self_eq_true, if_true]
    omega
  · simp [hcd]

variable {p : Pid} {out : NotifyOut} {what : Sleeper} {k : NotifyPc}

theorem Sleeper.after_ok {k : SleepPc} (h : (Role.mk p (.sleep what k)).Ok n) (a : Act) :
    (Role.mk p (what.after a)).Ok n := by
  cases what with
  | child w => trivial
  | vfork c =>
    simp only [Sleeper.after]
    split
    · trivial
    · exact h

theorem Sleeper.after_held (what : Sleeper) (a : Act) (p : Pid) :
    (Role.mk p (what.after a)).held = [] := by
  unfold Sleeper.after
  split
  · rfl
  · split <;> rfl

theorem Sleeper.after_not_makes (what : Sleeper) (a : Act) (p c : Pid) :
    ¬(Role.mk p (what.after a)).Makes c := by
  unfold Sleeper.after
  split
  · exact id
  · split <;> exact id

/-- All positions on the queue know the same. -/
theorem Sleeper.ok_at {k : SleepPc} (h : (Role.mk p (.sleep what k)).Ok n) (k' : SleepPc) :
    (Role.mk p (.sleep what k')).Ok n := by
  cases what with
  | child w => trivial
  | vfork c => exact h

/-- The fields of a control block outside the tree do not matter to it. -/
theorem State.sameTree_setProc (s : State) (p : Pid) (x : Process) (hx : x.node = s.nodes p)
    (hx' : x.children = s.lists p) : SameTree s (s.setProc p x) :=
  ⟨s.setProc_nodes_of_eq p x hx, s.setProc_lists_of_eq p x hx', rfl⟩

/-! ### The exit path -/

theorem afterRelease_held (exiting : Bool) (p : Pid) :
    (Role.mk p (afterRelease exiting)).held = [] := by
  cases exiting <;> rfl

theorem afterRelease_ok {exiting : Bool} (n : Pid → Node)
    (h : exiting = true → p ≠ initproc) : (Role.mk p (afterRelease exiting)).Ok n := by
  cases exiting
  · trivial
  · exact h rfl

theorem afterRelease_not_makes (exiting : Bool) (p c : Pid) :
    ¬(Role.mk p (afterRelease exiting)).Makes c := by
  cases exiting <;> exact id

def NotifyOut.holds : NotifyOut → Bool
  | .goto k => k.holds
  | .done => false

/-- The notification itself leaves the tree alone; the reaper behind it claims the child from the
list and at the end takes it out of the pid table. -/
theorem notifyParentChildExit_cases {parent child : Pid}
    (hz : (s.procs child).zombie = true) (hk : k ≠ .reapRestore)
    (hn : notifyParentChildExit s parent child k = (s₁, out)) :
    (SameTree s s₁ ∧ out.holds = k.holds ∧ out ≠ .goto .reapRestore) ∨
    (k = .reapClaim ∧ out = .goto .reapCheck ∧ child ∈ s.lists parent ∧
      s₁ = s.setChildren parent ((s.lists parent).erase child)) ∨
    (k = .reapRemove ∧ out = .done ∧ s₁.nodes = (s.unpublish child).nodes ∧
      s₁.lists = s.lists ∧ s₁.roles = s.roles) := by
  cases k with
  | autoreap =>
    cases hn
    refine .inl ⟨.refl s, ?_, ?_⟩ <;> split <;> simp [NotifyOut.holds, NotifyPc.holds]
  | signal r | reapAccount =>
    cases hn
    exact .inl ⟨.refl s, rfl, by simp⟩
  | kick r k =>
    have hst := sameTree_wakeSignalWaiters s k
    simp only [notifyParentChildExit] at hn
    split at hn <;> rename_i heq <;> rw [heq] at hst <;> cases hn
    · exact .inl ⟨hst, rfl, by simp⟩
    · exact .inl ⟨hst, rfl, by simp⟩
  | wakeOne r k =>
    have hst := sameTree_wakeUpTo s parent k
    simp only [notifyParentChildExit] at hn
    split at hn <;> rename_i heq
    · rw [heq] at hst
      cases hn
      exact .inl ⟨hst, rfl, by simp⟩
    · rw [heq] at hst
      cases hn
      refine .inl ⟨hst, ?_, ?_⟩ <;> cases r <;> simp [NotifyOut.holds, NotifyPc.holds]
  | reapClaim =>
    simp only [notifyParentChildExit] at hn
    split at hn <;> cases hn
    next hmem =>
      exact .inr (.inl ⟨rfl, rfl, hmem, rfl⟩)
    · exact .inl ⟨.refl s, rfl, by simp⟩
  | reapCheck =>
    cases hn
    rw [if_pos hz]
    exact .inl ⟨.refl s, rfl, by simp⟩
  | reapRestore => exact absurd rfl hk
  | reapRemove =>
    cases hn
    exact .inr (.inr ⟨rfl, rfl, rfl, unpublish_lists s child, rfl⟩)

variable (pos : NotifyPc → ThreadPc)

/-- Where the thread that runs a notification goes on. -/
def NotifyOut.resume (back : ThreadPc) : NotifyOut → ThreadPc
  | .goto k => pos k
  | .done => back

/-- The hands of a thread in a notification for `child` hold the child exactly in the reaper. -/
structure Notifies (s : State) (t : ThreadId) (child : Pid) (pos : NotifyPc → ThreadPc) (back : ThreadPc) :
    Prop where
  held : ∀ k, (s.roleAt t (pos k)).held = if k.holds then [child] else []
  heldBack : (s.roleAt t back).held = []
  ok : ∀ k, k ≠ .reapRestore → (s.roleAt t (pos k)).Ok s.nodes
  okBack : (s.roleAt t back).Ok s.nodes
  makes : ∀ k c, ¬(s.roleAt t (pos k)).Makes c
  makesBack : ∀ c, ¬(s.roleAt t back).Makes c

theorem notify_treeStep {parent child : Pid} (back : ThreadPc) (hpc : (s.threads t).pc = pos k)
    (hpos : Notifies s t child pos back) (hz : (s.procs child).zombie = true) (hk : k ≠ .reapRestore)
    (hn : notifyParentChildExit s parent child k = (s₁, out)) :
    TreeStep s t a (s₁.goto t (out.resume pos back)) := by
  obtain ⟨hheld, hback, hok, hokb, hmakes, hmakesb⟩ := hpos
  have hpc' := roles_eq hpc
  rcases notifyParentChildExit_cases hz hk hn with ⟨hst, hholds, hne⟩ | ⟨rfl, rfl, hmem, rfl⟩ |
    ⟨rfl, rfl, hnodes, hlists, hroles⟩
  · cases out with
    | goto k' =>
      have hk' : k' ≠ .reapRestore := fun he => hne (he ▸ rfl)
      change TreeStep s t a (s₁.goto t (pos k'))
      refine .goto hpc hst ?_ (hok k' hk') (fun c hc => absurd hc (hmakes k' c))
      rw [hheld, hheld]
      exact congrArg (fun b : Bool => if b then [child] else []) hholds
    | done =>
      change TreeStep s t a (s₁.goto t back)
      refine .goto hpc hst ?_ hokb (fun c hc => absurd hc (hmakesb c))
      rw [hback, hheld, ← hholds]
      rfl
  · refine .trade parent _ (pos .reapCheck) (setChildren_nodes ..)
      (setChildren_lists ..) (goto_roles ..) (fun d => ?_) (fun d _ hd => ?_)
      ⟨hok _ (by simp), fun c hc => absurd hc (hmakes _ c)⟩ (.inl erase_subset)
    · rw [hpc', hheld, hheld]
      exact count_erase_add hmem d
    · rw [hpc', hheld] at hd
      cases hd
  · refine .reap child back ?_ ?_ hlists ?_ hback ⟨hokb, fun c hc => absurd hc (hmakesb c)⟩
    · rw [hpc', hheld]
      rfl
    · rw [goto_nodes, hnodes, unpublish_nodes]
    · rw [goto_roles, hroles]
      rfl

theorem ExitPc.announce_held (todo : List Pid) (p : Pid) :
    (Role.mk p (.exit (.announce todo))).held = [] := by
  cases todo <;> rfl

theorem ExitPc.announce_ok {todo : List Pid} (hp : (n p).zombie = true) (h : ∀ c ∈ todo, (n c).zombie = true) :
    (Role.mk p (.exit (.announce todo))).Ok n := by
  cases todo with
  | nil => exact hp
  | cons c todo => exact ⟨hp, h, by simp⟩

theorem ExitPc.announce_not_makes (todo : List Pid) (p c : Pid) :
    ¬(Role.mk p (.exit (.announce todo))).Makes c := by
  cases todo <;> exact id

/-- A new control block is not published, not reaped and no zombie, and names its parent. -/
theorem Process.new_node (parent : Pid) (pgid : ℕ) (sig : ExitSignal) (vfork : Bool) :
    let x := (new parent pgid sig vfork).node
    (x.created = true ∧ x.published = false ∧ x.reaped = false ∧ x.zombie = false) ∧
      x.parent = some parent :=
  ⟨⟨rfl, rfl, rfl, rfl⟩, rfl⟩

theorem TreeStep.same (hpc : (s.threads t).pc = pc₀) (h : s.TreeOk) (hst : SameTree s s') :
    TreeStep s t a s' := by
  have hpc' := roles_eq hpc
  refine .quiet pc₀ hst.nodes hst.lists ?_ (hpc' ▸ rfl) ⟨h.okAt hpc, fun c hc => hpc' ▸ hc⟩
  rw [hst.roles, ← hpc', update_eq_self]

end Sections

/-! ## The initial state -/

theorem boot_lists (p : Pid) : boot.lists p = [] := by
  rcases eq_or_ne p initproc with rfl | hp
  · rfl
  · simp [lists, boot, update_of_ne hp, unused]

theorem boot_nodes (p : Pid) : (boot.nodes p).parent = none ∧ (boot.nodes p).zombie = false ∧
    ((boot.nodes p).published = true → (boot.nodes p).created = true) := by
  rcases eq_or_ne p initproc with rfl | hp
  · exact ⟨rfl, rfl, fun _ => rfl⟩
  · simp [nodes, boot, update_of_ne hp, unused, node]

/-- Every thread is in user mode or not started, and belongs to init. -/
theorem boot_roles (t : ThreadId) :
    boot.roles t = ⟨initproc, .user⟩ ∨ boot.roles t = ⟨initproc, .unborn⟩ := by
  rcases eq_or_ne t 0 with rfl | ht
  · exact .inl rfl
  · refine .inr ?_
    simp [roles, boot, update_of_ne ht, Thread.new, Thread.role]

theorem boot_treeOk : boot.TreeOk := by
  have hheld : ∀ t, (boot.roles t).held = [] := by
    intro t
    rcases boot_roles t with h | h <;> rw [h] <;> rfl
  have hmakes : ∀ t c, ¬(boot.roles t).Makes c := by
    intro t c
    rcases boot_roles t with h | h <;> rw [h] <;> exact id
  refine ⟨fun c => .of_zero ?_, fun p c hc => ?_, fun p c hc => ?_, fun p _ => boot_lists p,
    fun c g hg => ?_, fun t c hc => ?_, fun t => ?_, fun t u c ht => absurd ht (hmakes t c),
    fun t c ht => absurd ht (hmakes t c), fun t _ => ?_, fun c hc => ?_,
    fun c => (boot_nodes c).2.2, ⟨rfl, rfl⟩⟩
  · rintro (p | t)
    · simp [copies, boot_lists p]
    · simp [copies, hheld t]
  · rw [boot_lists p] at hc
    cases hc
  · rw [boot_lists p] at hc
    cases hc
  · rw [(boot_nodes c).1] at hg
    cases hg
  · rw [hheld t] at hc
    cases hc
  · rcases boot_roles t with h | h <;> rw [h] <;> trivial
  · rcases boot_roles t with h | h <;> rw [h] <;> rfl
  · rw [(boot_nodes c).2.1] at hc
    cases hc

end CosmOS.Proc
