import CosmOS.Proc.Sections

/-!
# Proc.Orphans — no process is orphaned

`no_orphan`: in every run in which no clone adds a child to a process that is already a zombie,
and CLONE_PARENT finds a parent, every published process that is not reaped is, between
operations, on the list of exactly one process; that one is alive and is named by the parent
pointer.  `orphan_reachable` shows that the condition is needed: the exit of a process takes its
list once, and a sibling thread inside `clone_process` pushes onto it afterwards.
-/

namespace CosmOS.Proc

open Function List State

variable (s : State)

/-- The section adds a child only to a living process. -/
def ClonesToLiving (l : Label) : Prop :=
  let p := (s.threads l.thread).proc
  match (s.threads l.thread).pc, l.act with
  | .user, .clone _ false _ _ _ => (s.procs p).zombie = false
  | .user, .clone _ true _ upgraded _ => (cloneParentTarget s p true upgraded).isSome = true
  | .clone (.push _ g _), _ => (s.procs g).zombie = false
  | _, _ => True

instance (l : Label) : Decidable (ClonesToLiving s l) := by
  unfold ClonesToLiving
  dsimp only
  cases (s.threads l.thread).pc
  case user =>
    cases l.act
    case clone _ toParent _ _ _ => cases toParent <;> infer_instance
    all_goals infer_instance
  case clone pc => cases pc <;> infer_instance
  all_goals infer_instance

/-- The process has to be found somewhere: it is published, or about to be. -/
def Needed (n : Pid → Node) (r : ThreadId → Role) (c : Pid) : Prop :=
  (n c).published = true ∨ ∃ t, (r t).Makes c

/-- The process is on a list or in the hands of a thread. -/
def Somewhere (l : Pid → List Pid) (r : ThreadId → Role) (c : Pid) : Prop :=
  (∃ p, c ∈ l p) ∨ ∃ t, c ∈ (r t).held

/-- What the condition on clones adds to the invariant of the tree. -/
structure Kept (n : Pid → Node) (l : Pid → List Pid) (r : ThreadId → Role) : Prop where
  alive : ∀ p, l p ≠ [] → (n p).zombie = false
  somewhere : ∀ c, c ≠ initproc → Needed n r c → (n c).reaped = false → Somewhere l r c

section Somewhere

variable {n n' : Pid → Node} {l l' : Pid → List Pid} {r r' : ThreadId → Role} {c p : Pid}
  {t : ThreadId} {x : Role}

theorem Needed.mono (hn : (n' c).published = true → (n c).published = true)
    (hr : ∀ t, (r' t).Makes c → (r t).Makes c) (h : Needed n' r' c) : Needed n r c := by
  rcases h with h | ⟨t, h⟩
  · exact .inl (hn h)
  · exact .inr ⟨t, hr t h⟩

/-- What a role that makes no more than the old one adds to the makers. -/
theorem makes_of_update (hm : x.Makes c → (r t).Makes c) (u : ThreadId)
    (h : (update r t x u).Makes c) : (r u).Makes c := by
  rcases eq_or_ne u t with rfl | hu
  · rw [update_self] at h
    exact hm h
  · rwa [update_of_ne hu] at h

/-- A process stays somewhere if what was on the list of `p` and in the hands of `t` is still on
one of the two. -/
theorem Somewhere.trade (h : Somewhere l r c) (m : List Pid)
    (hl : c ∈ l p → c ∈ m ∨ c ∈ x.held) (hr : c ∈ (r t).held → c ∈ m ∨ c ∈ x.held) :
    Somewhere (update l p m) (update r t x) c := by
  have hto : c ∈ m ∨ c ∈ x.held → Somewhere (update l p m) (update r t x) c := by
    rintro (hc | hc)
    · refine .inl ⟨p, ?_⟩
      rwa [update_self]
    · refine .inr ⟨t, ?_⟩
      rwa [update_self]
  rcases h with ⟨q, hq⟩ | ⟨u, hu⟩
  · rcases eq_or_ne q p with rfl | hqp
    · exact hto (hl hq)
    · refine .inl ⟨q, ?_⟩
      rwa [update_of_ne hqp]
  · rcases eq_or_ne u t with rfl | hut
    · exact hto (hr hu)
    · refine .inr ⟨u, ?_⟩
      rwa [update_of_ne hut]

theorem Somewhere.setRole (h : Somewhere l r c) (hr : c ∈ (r t).held → c ∈ x.held) :
    Somewhere l (update r t x) c := by
  have hup := h.trade (l initproc) .inl fun hc => .inr (hr hc)
  rwa [update_eq_self] at hup

end Somewhere

/-! ## The condition keeps every process in reach -/

section Kept

variable {s s' : State} {l : Label} {n n' : Pid → Node} {ls ls' : Pid → List Pid}
  {r r' : ThreadId → Role} {c d q : Pid} {t : ThreadId} {x : Node} {y : Role}

/-- The process a clone makes was created by it, so nobody else is concerned. -/
theorem needed_of_create (hd : d ≠ c) (hy : y.Makes d → d = c)
    (h : Needed (update n c x) (update r t y) d) : Needed n r d := by
  rw [Needed, update_of_ne hd] at h
  exact Needed.mono id (makes_of_update fun hm => absurd (hy hm) hd) h

/-- A change of the nodes that leaves alone which of them are published or reaped. -/
theorem needed_of_field (hp : x.published = (n c).published)
    (hr : ∀ t, (r' t).Makes d → (r t).Makes d) (h : Needed (update n c x) r' d) : Needed n r d := by
  refine Needed.mono (fun hd => ?_) hr h
  rwa [update_field Node.published hp] at hd

/-- The creation of a process that is put somewhere. -/
theorem Kept.somewhere_create (hk : Kept n ls r)
    (hold : ∀ d, d ≠ c → Needed (update n c x) r' d → Needed n r d) (hc : Somewhere ls' r' c)
    (hmove : ∀ d, Somewhere ls r d → Somewhere ls' r' d) (d : Pid) (hd : d ≠ initproc)
    (hneed : Needed (update n c x) r' d) (hreaped : (update n c x d).reaped = false) :
    Somewhere ls' r' d := by
  by_cases hdc : d = c
  · rwa [hdc]
  · rw [update_of_ne hdc] at hreaped
    exact hmove d (hk.somewhere d hd (hold d hdc hneed) hreaped)

theorem zombie_create (hx : x.zombie = false) (hq : (n q).zombie = false) :
    (update n c x q).zombie = false := by
  rcases eq_or_ne q c with rfl | hqc
  · rwa [update_self]
  · rwa [update_of_ne hqc]

theorem zombie_field (hk : Kept n ls r) (hx : x.zombie = (n c).zombie) (hq : ls q ≠ []) :
    (update n c x q).zombie = false := by
  rw [update_field Node.zombie hx]
  exact hk.alive q hq

theorem State.not_held {pc : ThreadPc} (hpc : (s.threads t).pc = pc)
    (hnil : (s.roleAt t pc).held = []) : c ∉ (s.roles t).held := by
  rw [roles_eq hpc, hnil]
  exact not_mem_nil

section Cases

variable (h : s.TreeOk) (hk : Kept s.nodes s.lists s.roles) {pc : ThreadPc}

include hk

/-- The processes on the list and in the hands together do not change. -/
theorem Kept.trade {p : Pid} {l' : List Pid}
    (hcount : ∀ c,
      l'.count c + (s.roleAt t pc).held.count c = (s.lists p).count c + (s.roles t).held.count c)
    (hfits : Fits s t pc) (halive : l' ≠ [] → (s.nodes p).zombie = false) :
    Kept s.nodes (update s.lists p l') (update s.roles t (s.roleAt t pc)) := by
  refine ⟨fun q hq => ?_, fun c hc hneed hreaped => ?_⟩
  · rcases eq_or_ne q p with rfl | hqp
    · rw [update_self] at hq
      exact halive hq
    · rw [update_of_ne hqp] at hq
      exact hk.alive q hq
  · have hold := Needed.mono id (makes_of_update (hfits.makes c)) hneed
    have hpos : c ∈ s.lists p ∨ c ∈ (s.roles t).held → c ∈ l' ∨ c ∈ (s.roleAt t pc).held := by
      intro hmem
      have hsum := hcount c
      by_contra hnot
      rw [not_or] at hnot
      rw [count_eq_zero_of_not_mem hnot.1, count_eq_zero_of_not_mem hnot.2] at hsum
      rcases hmem with hmem | hmem <;> have := count_pos_iff.mpr hmem <;> omega
    exact (hk.somewhere c hc hold hreaped).trade l' (fun hmem => hpos (.inl hmem))
      (fun hmem => hpos (.inr hmem))

include h in
/-- The child of the failed clone is unpublished and nobody makes it any more. -/
theorem Kept.abandon {g : Pid} {vfork : Bool} (hpc : (s.threads t).pc = .clone (.finish c g vfork)) :
    Kept s.nodes (update s.lists g ((s.lists g).filter (· ≠ c)))
      (update s.roles t (s.roleAt t .user)) := by
  have hok := h.okAt hpc
  have hmakes : (s.roles t).Makes c := by
    rw [roles_eq hpc]
    rfl
  refine ⟨fun q hq => ?_, fun d hd hneed hreaped => ?_⟩
  · refine hk.alive q fun hempty => hq ?_
    rcases eq_or_ne q g with rfl | hqg
    · rw [update_self, hempty, filter_nil]
    · rwa [update_of_ne hqg]
  · have hdc : d ≠ c := by
      rintro rfl
      rcases hneed with hpub | ⟨u, hu⟩
      · rw [hok.2] at hpub
        cases hpub
      rcases eq_or_ne u t with rfl | hut
      · rwa [update_self] at hu
      · rw [update_of_ne hut] at hu
        exact hut (h.makers u t d hu hmakes)
    have hold := Needed.mono id (makes_of_update False.elim) hneed
    have hfilter : d ∈ s.lists g → d ∈ (s.lists g).filter (· ≠ c) := fun hmem =>
      mem_filter.mpr ⟨hmem, by simpa using hdc⟩
    exact (hk.somewhere d hd hold hreaped).trade _ (fun hmem => .inl (hfilter hmem))
      (fun hmem => absurd hmem (not_held hpc rfl))

/-- The children of the zombie are now in the hands of the exiting thread. -/
theorem Kept.mark (hpc : (s.threads t).pc = .exit .mark) :
    Kept (update s.nodes (s.roles t).proc { s.nodes (s.roles t).proc with zombie := true })
      (update s.lists (s.roles t).proc [])
      (update s.roles t (s.roleAt t (.exit (.reparent (s.lists (s.roles t).proc) [] [])))) := by
  refine ⟨fun q hq => ?_, fun d hd hneed hreaped => ?_⟩
  · rcases eq_or_ne q ((s.roles t).proc) with rfl | hqp
    · rw [update_self] at hq
      exact absurd rfl hq
    · rw [update_of_ne hqp] at hq ⊢
      exact hk.alive q hq
  · rw [update_field Node.reaped (by rfl)] at hreaped
    have hold := needed_of_field (by rfl) (makes_of_update False.elim) hneed
    exact (hk.somewhere d hd hold hreaped).trade _ (fun hmem => .inr hmem)
      (fun hmem => absurd hmem (not_held hpc rfl))

theorem Kept.reparent {todo done zombies zombies' : List Pid}
    (hpc : (s.threads t).pc = .exit (.reparent (c :: todo) done zombies)) :
    Kept (update s.nodes c { s.nodes c with parent := some initproc }) s.lists
      (update s.roles t (s.roleAt t (.exit (.reparent todo (done ++ [c]) zombies')))) := by
  refine ⟨fun q => zombie_field hk rfl, fun d hd hneed hreaped => ?_⟩
  rw [update_field Node.reaped (by rfl)] at hreaped
  have hold := needed_of_field (by rfl) (makes_of_update False.elim) hneed
  refine (hk.somewhere d hd hold hreaped).setRole (fun hmem => ?_)
  rw [roles_eq hpc] at hmem
  simpa [roleAt, Role.held] using hmem

/-- The new process is on the list of its living parent. -/
theorem Kept.createOwn {vfork : Bool} (hpc : (s.threads t).pc = .user) (hx : x.zombie = false)
    (halive : (s.nodes (s.roles t).proc).zombie = false) :
    Kept (update s.nodes c x) (update s.lists (s.roles t).proc (s.lists (s.roles t).proc ++ [c]))
      (update s.roles t (s.roleAt t (.clone (.finish c (s.roles t).proc vfork)))) := by
  refine ⟨fun q hq => ?_, hk.somewhere_create (fun d hdc => needed_of_create hdc Eq.symm) ?_
    (fun d hd => ?_)⟩
  · refine zombie_create hx ?_
    by_cases hqp : q = (s.roles t).proc
    · rwa [hqp]
    · rw [update_of_ne hqp] at hq
      exact hk.alive q hq
  · refine .inl ⟨(s.roles t).proc, ?_⟩
    simp
  · exact hd.trade _ (fun hmem => .inl (mem_append_left _ hmem))
      (fun hmem => absurd hmem (not_held hpc rfl))

/-- The new process is in the hands of the thread that makes it. -/
theorem Kept.createFor {g : Pid} {vfork : Bool} (hpc : (s.threads t).pc = .user)
    (hx : x.zombie = false) : Kept (update s.nodes c x) s.lists
      (update s.roles t (s.roleAt t (.clone (.push c g vfork)))) := by
  refine ⟨fun q hq => zombie_create hx (hk.alive q hq), hk.somewhere_create
    (fun d hdc => needed_of_create hdc Eq.symm) (.inr ⟨t, ?_⟩)
    (fun d hd => hd.setRole fun hmem => absurd hmem (not_held hpc rfl))⟩
  rw [update_self]
  exact mem_singleton.mpr rfl

theorem Kept.publish {g : Pid} {vfork : Bool} (hpc : (s.threads t).pc = .clone (.finish c g vfork)) :
    Kept (update s.nodes c { s.nodes c with published := true }) s.lists
      (update s.roles t (s.roleAt t (.clone (.addTask c vfork)))) := by
  have hmakes : (s.roles t).Makes c := by
    rw [roles_eq hpc]
    rfl
  refine ⟨fun q => zombie_field hk rfl, fun d hd hneed hreaped => ?_⟩
  rw [update_field Node.reaped (by rfl)] at hreaped
  have hold : Needed s.nodes s.roles d := by
    by_cases hdc : d = c
    · exact .inr ⟨t, hdc ▸ hmakes⟩
    · exact needed_of_create (y := s.roleAt t (.clone (.addTask c vfork))) hdc Eq.symm hneed
  exact (hk.somewhere d hd hold hreaped).setRole fun hmem => absurd hmem (not_held hpc rfl)

theorem Kept.reap (hheld : (s.roles t).held = [c]) (hfits : Fits s t pc) :
    Kept (update s.nodes c { s.nodes c with reaped := true }) s.lists
      (update s.roles t (s.roleAt t pc)) := by
  refine ⟨fun q => zombie_field hk rfl, fun d hd hneed hreaped => ?_⟩
  have hdc : d ≠ c := by
    rintro rfl
    rw [update_self] at hreaped
    cases hreaped
  rw [update_of_ne hdc] at hreaped
  have hold := needed_of_field (by rfl) (makes_of_update (hfits.makes d)) hneed
  refine (hk.somewhere d hd hold hreaped).setRole (fun hmem => ?_)
  rw [hheld] at hmem
  exact absurd (mem_singleton.mp hmem) hdc

/-- Neither the new thread nor the one that starts it holds or makes anything new. -/
theorem Kept.spawn {u : ThreadId} {p : Pid} (hu : (s.threads u).pc = .unborn)
    (hheld : (s.roleAt t pc).held = (s.roles t).held) (hfits : Fits s t pc) :
    Kept s.nodes s.lists (update (update s.roles u ⟨p, .user⟩) t (s.roleAt t pc)) := by
  refine ⟨hk.alive, fun d hd hneed hreaped => ?_⟩
  have hnew : ∀ v, (update s.roles u ⟨p, .user⟩ v).Makes d → (s.roles v).Makes d :=
    makes_of_update False.elim
  have hunborn : (s.roles u).held = [] := by
    rw [roles_eq hu]
    rfl
  have hold : Needed s.nodes s.roles d := by
    refine Needed.mono id (fun v hv => ?_) hneed
    rcases eq_or_ne v t with rfl | hvt
    · rw [update_self] at hv
      exact hfits.makes d hv
    · rw [update_of_ne hvt] at hv
      exact hnew v hv
  have hspawn : Somewhere s.lists (update s.roles u ⟨p, .user⟩) d := by
    refine (hk.somewhere d hd hold hreaped).setRole (fun hmem => ?_)
    rw [hunborn] at hmem
    cases hmem
  refine hspawn.setRole (fun hmem => ?_)
  by_cases htu : t = u
  · rw [htu, update_self] at hmem
    cases hmem
  · rwa [update_of_ne htu, ← hheld] at hmem

end Cases

/-- Every section keeps every process in reach, one entry of `TreeStep` at a time. -/
theorem Kept.step (h : s.TreeOk) (hk : Kept s.nodes s.lists s.roles) (hl : ClonesToLiving s l)
    (hstep : TreeStep s l.thread l.act s') : Kept s'.nodes s'.lists s'.roles := by
  unfold ClonesToLiving at hl
  cases hstep with rw [hnodes, hlists, hroles]
  | quiet pc hnodes hlists hroles hheld hfits =>
    refine ⟨hk.alive, fun c hc hneed hreaped => ?_⟩
    have hold := Needed.mono id (makes_of_update (hfits.makes c)) hneed
    exact (hk.somewhere c hc hold hreaped).setRole (fun hmem => hheld ▸ hmem)
  | trade p l' pc hnodes hlists hroles hcount hparent hfits hpush =>
    refine hk.trade hcount hfits fun hne => ?_
    rcases hpush with hsub | ⟨rfl, -⟩ | ⟨c, vfork, hpc⟩
    · refine hk.alive p fun hempty => hne ?_
      rw [hempty] at hsub
      exact subset_nil.mp hsub
    · exact h.init.2
    · have hpc' : (s.threads l.thread).pc = .clone (.push c p vfork) := hpc
      rwa [hpc'] at hl
  | abandon c g vfork hpc hnodes hlists hroles => exact hk.abandon h hpc
  | mark hpc hnodes hlists hroles => exact hk.mark hpc
  | reparent c todo done zombies hpc hnodes hlists hroles => exact hk.reparent hpc
  | createOwn c x vfork upgraded sig hact hpc hc hx hparent hnodes hlists hroles =>
    have hpc' : (s.threads l.thread).pc = .user := hpc
    rw [hpc', hact] at hl
    exact hk.createOwn hpc hx.2.2.2 hl
  | createFor c g x vfork hpc hc hg hx hparent hnodes hlists hroles =>
    exact hk.createFor hpc hx.2.2.2
  | createLost c x vfork upgraded sig hact hnone hpc hc hx hparent hnodes hlists hroles =>
    -- Excluded by the condition.
    have hpc' : (s.threads l.thread).pc = .user := hpc
    have hnone' : cloneParentTarget s (s.threads l.thread).proc true upgraded = none := hnone
    rw [hpc', hact] at hl
    dsimp only at hl
    rw [hnone'] at hl
    cases hl
  | publish c g vfork hpc hnodes hlists hroles => exact hk.publish hpc
  | reap c pc hheld hnodes hlists hroles hempty hfits => exact hk.reap hheld hfits
  | spawn u p pc _ hu _ _ hp hnodes hlists hroles hheld hfits => exact hk.spawn hu hheld hfits

end Kept

/-! ## Between operations -/

/-- A clone, an exit or a reaping is in progress and has begun to change the tree. -/
def ThreadPc.changesTree : ThreadPc → Bool
  | .clone (.push ..) | .clone (.finish ..) | .clone (.addTask ..) => true
  | .wait _ (.revalidate _) | .wait _ (.restore _) | .wait _ (.account _) | .wait _ (.remove _) =>
    true
  | .exit _ => true
  | _ => false

/-- No such operation is in progress. -/
def TreeQuiet : Prop := ∀ t, (s.threads t).pc.changesTree = false

/-- `c` is on the list of exactly one process, once; that process is not a zombie and is the one
its parent pointer names. -/
def Housed (c : Pid) : Prop :=
  ∃ p, (s.procs p).children.count c = 1 ∧ (∀ q, c ∈ (s.procs q).children → q = p) ∧
    (s.procs p).zombie = false ∧ (s.procs c).parent = some p

theorem held_of_quiet {r : Role} (h : r.pc.changesTree = false) : r.held = [] := by
  rcases r with ⟨p, pc⟩
  unfold Role.held
  dsimp only at h ⊢
  split <;> first | rfl | (simp [ThreadPc.changesTree] at h)

/-- On a list, with the invariants: in its place. -/
theorem housed_of_mem {s : State} (h : s.TreeOk) (hk : Kept s.nodes s.lists s.roles) {c p : Pid}
    (hc : c ∈ s.lists p) : Housed s c := by
  have hparent := h.parent p c hc
  refine ⟨p, ?_, fun q hq => ?_, hk.alive p (ne_nil_of_mem hc), hparent⟩
  · have hle : (s.lists p).count c ≤ 1 := (h.once c).le_one (.inl p)
    have hpos := count_pos_iff.mpr hc
    change (s.lists p).count c = 1
    omega
  · have hparent' := h.parent q c hq
    rw [hparent] at hparent'
    exact (Option.some.inj hparent').symm

theorem boot_kept : Kept boot.nodes boot.lists boot.roles := by
  refine ⟨fun p hp => absurd (boot_lists p) hp, fun c hc hneed _ => ?_⟩
  rcases hneed with hp | ⟨t, ht⟩
  · simp [nodes, boot, update_of_ne hc, Process.unused, Process.node] at hp
  · rcases boot_roles t with h | h <;> rw [h] at ht <;> exact absurd ht id

/-- No process is orphaned. -/
theorem no_orphan {s : State} (h : machine.Reach ClonesToLiving s) (hq : TreeQuiet s) (c : Pid)
    (hc : c ≠ initproc) (hp : (s.procs c).published = true) (hr : (s.procs c).reaped = false) :
    Housed s c := by
  have hinv : s.TreeOk ∧ Kept s.nodes s.lists s.roles := by
    refine h.invariant (P := fun s => s.TreeOk ∧ Kept s.nodes s.lists s.roles) ?_ ?_
    · rintro s rfl
      exact ⟨boot_treeOk, boot_kept⟩
    · rintro s l s' ⟨hok, hk⟩ hl hn
      exact ⟨hok.next hn, hk.step hok hl (next_treeStep hok hn)⟩
  rcases hinv.2.somewhere c hc (.inl hp) hr with ⟨p, hmem⟩ | ⟨t, hmem⟩
  · exact housed_of_mem hinv.1 hinv.2 hmem
  · rw [held_of_quiet (hq t)] at hmem
    cases hmem

/-- Whatever the interleaving, a process on a list of children is on it once, in the hands of no thread
and not reaped, and the list is that of its parent. -/
theorem listed_once {s : State} (h : machine.Reachable s) {p c : Pid} (hc : c ∈ s.lists p) :
    (s.lists p).count c = 1 ∧ (∀ t, c ∉ (s.roles t).held) ∧ (s.procs c).reaped = false ∧
      (s.procs c).parent = some p := by
  have hok : s.TreeOk := by
    refine h.invariant ?_ fun s l s' hok _ hn => hok.next hn
    rintro s rfl
    exact boot_treeOk
  refine ⟨?_, fun t ht => hok.notMem_of_held ht p hc, (hok.listed p c hc).2, hok.parent p c hc⟩
  exact ((hok.once c).le_one (.inl p)).antisymm (count_pos_iff.mpr hc)

/-! ## Reparenting, and a clone that comes too late -/

theorem treeQuiet_of_below {k : ℕ} (hk : 0 < k) {s : State}
    (h : machine.Reach (fun _ l => l.StartsBelow k) s)
    (hbelow : ∀ t < k, (s.threads t).pc.changesTree = false) : TreeQuiet s := by
  intro t
  rcases Nat.lt_or_ge t k with ht | ht
  · exact hbelow t ht
  · rw [(unborn_of_reach hk h).2 t ht]
    rfl

/-- Init starts process 2, which starts process 3 and exits: process 3 is handed to init. -/
def reparentedChild : List Label :=
  [⟨0, .clone 2 false false true .sigchld⟩, ⟨0, .go⟩, ⟨0, .start 1⟩,
    ⟨1, .clone 3 false false true .sigchld⟩, ⟨1, .go⟩, ⟨1, .start 2⟩, ⟨1, .exit⟩]
  ++ List.replicate 15 ⟨1, .go⟩

theorem no_orphan_reparented : ∃ s, machine.Reach ClonesToLiving s ∧
    ((s.procs 2).zombie = true ∧ (s.procs 3).published = true) ∧ TreeQuiet s ∧ Housed s 3 := by
  obtain ⟨s, hs, hbelow, hz, hp, hr⟩ := machine.exists_reach_of_runWhile
    (fun s l => ClonesToLiving s l ∧ l.StartsBelow 3)
    (fun s => (∀ t : ℕ, t < 3 → (s.threads t).pc.changesTree = false) ∧
      (s.procs 2).zombie = true ∧ (s.procs 3).published = true ∧ (s.procs 3).reaped = false)
    reparentedChild rfl (by decide +kernel)
  have hreach : machine.Reach ClonesToLiving s := hs.mono fun _ _ h => h.1
  have hquiet := treeQuiet_of_below (by decide) (hs.mono fun _ _ h => h.2) hbelow
  exact ⟨s, hreach, ⟨hz, hp⟩, hquiet, no_orphan hreach hquiet 3 (by decide) hp hr⟩

theorem listed_once_grandchild : ∃ s, machine.Reachable s ∧ (s.procs 3).parent = some 2 := by
  obtain ⟨s, hs, hc⟩ := machine.exists_reachable_of_run (fun s => 3 ∈ s.lists 2)
    (reparentedChild.take 6) rfl (by decide)
  exact ⟨s, hs, (listed_once hs hc).2.2.2⟩

/-- Init starts process 2; one of its two threads exits and marks it a zombie; the other then
adds process 3 to its list; both run to their end. -/
def orphaningClone : List Label :=
  [⟨0, .clone 2 false false true .sigchld⟩, ⟨0, .go⟩, ⟨0, .start 1⟩, ⟨1, .start 2⟩,
    ⟨1, .exit⟩, ⟨1, .go⟩, ⟨1, .go⟩,
    ⟨2, .clone 3 false false true .sigchld⟩, ⟨2, .go⟩, ⟨2, .start 3⟩]
  ++ List.replicate 5 ⟨1, .go⟩ ++ [⟨2, .go⟩] ++ List.replicate 8 ⟨1, .go⟩

/-- Without the condition a published process stays on the list of a zombie. -/
theorem orphan_reachable : ∃ s c, machine.Reachable s ∧ TreeQuiet s ∧ c ≠ initproc ∧
    (s.procs c).published = true ∧ (s.procs c).reaped = false ∧ ¬Housed s c := by
  obtain ⟨s, hs, hbelow, hz, hp, hr, hparent⟩ := machine.exists_reach_of_runWhile (fun _ l => l.StartsBelow 4)
    (fun s => (∀ t : ℕ, t < 4 → (s.threads t).pc.changesTree = false) ∧
      (s.procs 2).zombie = true ∧ (s.procs 3).published = true ∧ (s.procs 3).reaped = false ∧
      (s.procs 3).parent = some 2) orphaningClone rfl (by decide +kernel)
  refine ⟨s, 3, hs.mono fun _ _ _ => trivial, treeQuiet_of_below (by decide) hs hbelow, by decide,
    hp, hr, ?_⟩
  -- The parent pointer names the zombie.
  rintro ⟨p, -, -, halive, hparent'⟩
  rw [hparent] at hparent'
  rw [← Option.some.inj hparent', hz] at halive
  cases halive

end CosmOS.Proc
