import CosmOS.AtMostOnce
import CosmOS.Proc.System

/-!
# Proc.Tree — where every process is while the tree changes

The tree is what the control blocks say about parents and children; a thread in the middle of a
clone, an exit or a reaping holds the processes it has taken off a list and not yet put anywhere.
The invariant is a conservation law: each process is on one list, in the hands of one thread, or
nowhere, and every section moves it between a list and the hands of the thread that executes it.

* `Node`, `Role`: the part of a control block and of a thread that the tree depends on.
* `copies`: on which lists and in whose hands a process is.
* `TreeInv`: the invariant, with what each position of a thread knows about the processes it
  names.  `TreeInv.trade`, `TreeInv.setNode` and `TreeInv.create` are the moves of which every
  section is made.
-/

namespace CosmOS.Proc

open Function List

structure Node where
  created : Bool
  published : Bool
  reaped : Bool
  zombie : Bool
  parent : Option Pid
  pgid : ℕ

def Process.node (p : Process) : Node :=
  ⟨p.created, p.published, p.reaped, p.zombie, p.parent, p.pgid⟩

structure Role where
  proc : Pid
  pc : ThreadPc

open Role

def Thread.role (x : Thread) : Role := ⟨x.proc, x.pc⟩

variable (s : State)

def State.nodes : Pid → Node := fun p => (s.procs p).node

open State

def State.lists : Pid → List Pid := fun p => (s.procs p).children

def State.roles : ThreadId → Role := fun t => (s.threads t).role

/-- What holds of the new record and of every other old one holds after the write. -/
theorem forall_update {β : Type*} {f : ℕ → β} {a : ℕ} {b : β} {P : ℕ → β → Prop}
    (hself : P a b) (hother : ∀ x, x ≠ a → P x (f x)) : ∀ x, P x (update f a b x) :=
  (forall_update_iff f P).mpr ⟨hself, hother⟩

/-- A write that keeps a field of one record keeps it everywhere. -/
theorem update_field {α β : Type*} (f : α → β) {n : Pid → α} {c : Pid} {x : α}
    (hx : f x = f (n c)) : ∀ d, f (update n c x d) = f (n d) :=
  forall_update (P := fun d y => f y = f (n d)) hx fun _ _ => rfl

/-! ## What the updates of the state do to the tree -/

section Views

variable (s : State) (p q : Pid) (t u : ThreadId) (x : Process)

@[simp] theorem State.setProc_nodes : (s.setProc p x).nodes = update s.nodes p x.node := by
  funext q
  rcases eq_or_ne q p with rfl | hq
  · simp [nodes, setProc]
  · simp [nodes, setProc, update_of_ne hq]

@[simp] theorem State.setProc_lists : (s.setProc p x).lists = update s.lists p x.children := by
  funext q
  rcases eq_or_ne q p with rfl | hq
  · simp [lists, setProc]
  · simp [lists, setProc, update_of_ne hq]

@[simp] theorem State.setProc_roles : (s.setProc p x).roles = s.roles := rfl

@[simp] theorem State.setThread_roles (x : Thread) :
    (s.setThread t x).roles = update s.roles t x.role := by
  funext u
  rcases eq_or_ne u t with rfl | hu
  · simp [roles, setThread]
  · simp [roles, setThread, update_of_ne hu]

theorem State.setProc_nodes_of_eq (hx : x.node = s.nodes p) : (s.setProc p x).nodes = s.nodes := by
  rw [setProc_nodes, hx, update_eq_self]

theorem State.setProc_lists_of_eq (hx : x.children = s.lists p) :
    (s.setProc p x).lists = s.lists := by
  rw [setProc_lists, hx, update_eq_self]

theorem State.setThread_roles_of_eq (x : Thread) (hx : x.role = s.roles t) :
    (s.setThread t x).roles = s.roles := by
  rw [setThread_roles, hx, update_eq_self]

variable (pc : ThreadPc)

@[simp] theorem State.goto_nodes : (s.goto t pc).nodes = s.nodes := rfl

@[simp] theorem State.goto_lists : (s.goto t pc).lists = s.lists := rfl

@[simp] theorem State.goto_roles : (s.goto t pc).roles = update s.roles t ⟨(s.roles t).proc, pc⟩ :=
  setThread_roles s t _

@[simp] theorem State.setQueue_nodes (l : List ThreadId) : (s.setQueue q l).nodes = s.nodes :=
  setProc_nodes_of_eq s q _ rfl

@[simp] theorem State.setQueue_lists (l : List ThreadId) : (s.setQueue q l).lists = s.lists :=
  setProc_lists_of_eq s q _ rfl

@[simp] theorem State.wakeupTask_roles : (s.wakeupTask u).roles = s.roles :=
  setThread_roles_of_eq s u _ rfl

@[simp] theorem State.setChildren_nodes (l : List Pid) : (s.setChildren p l).nodes = s.nodes :=
  setProc_nodes_of_eq s p _ rfl

@[simp] theorem State.setChildren_lists (l : List Pid) :
    (s.setChildren p l).lists = update s.lists p l :=
  setProc_lists s p _

@[simp] theorem State.unpublish_nodes :
    (s.unpublish p).nodes = update s.nodes p { s.nodes p with reaped := true } :=
  setProc_nodes s p _

@[simp] theorem State.unpublish_lists : (s.unpublish p).lists = s.lists :=
  setProc_lists_of_eq s p _ rfl

end Views

/-! ## The wakers do not touch the tree -/

structure SameTree (s s' : State) : Prop where
  nodes : s'.nodes = s.nodes
  lists : s'.lists = s.lists
  roles : s'.roles = s.roles

open SameTree

variable (s : State)

theorem SameTree.refl : SameTree s s := ⟨rfl, rfl, rfl⟩

theorem State.sameTree_setQueue (q : Pid) (l : List ThreadId) : SameTree s (s.setQueue q l) :=
  ⟨setQueue_nodes s q l, setQueue_lists s q l, rfl⟩

theorem State.sameTree_wakeupTask (u : ThreadId) : SameTree s (s.wakeupTask u) :=
  ⟨rfl, rfl, wakeupTask_roles s u⟩

theorem sameTree_wakeUpTo (q : Pid) (k : WakePc) : SameTree s (wakeUpTo s q k).1 := by
  cases k with
  | pop =>
    simp only [wakeUpTo]
    split
    · exact refl s
    · exact s.sameTree_setQueue q _
  | check t => exact refl s
  | wake t => exact s.sameTree_wakeupTask t

theorem sameTree_wakeSignalWaiters (k : KickPc) : SameTree s (wakeSignalWaiters s k).1 := by
  cases k with
  | next todo =>
    cases todo with
    | nil => exact refl s
    | cons t todo =>
      unfold wakeSignalWaiters
      dsimp only
      repeat' split
      all_goals exact refl s
  | status t todo => exact refl s
  | remove t q todo => exact s.sameTree_setQueue q _
  | wake t todo => exact s.sameTree_wakeupTask t

/-! ## Hands and knowledge of a thread -/

/-- The reaper has taken the child off its parent's list. -/
def NotifyPc.holds : NotifyPc → Bool
  | .reapCheck | .reapRestore | .reapAccount | .reapRemove => true
  | _ => false

/-- The processes a thread has taken off a list, or created, and not yet put onto one. -/
def Role.held (r : Role) : List Pid :=
  match r.pc with
  | .wait _ (.revalidate c) | .wait _ (.restore c) | .wait _ (.account c) | .wait _ (.remove c) =>
    [c]
  | .clone (.push c _ _) => [c]
  | .exit (.reparent todo done _) => done ++ todo
  | .exit (.notifyInit c k _) => if k.holds then [c] else []
  | .exit (.notifyParent _ k) => if k.holds then [r.proc] else []
  | _ => []

/-- The thread is creating the process, which has no thread yet. -/
def Role.Makes (r : Role) (c : Pid) : Prop :=
  match r.pc with
  | .clone (.push c' _ _) | .clone (.finish c' _ _) | .clone (.addTask c' _) => c' = c
  | _ => False

def ZombieFor (n : Pid → Node) (w : Wait) (c : Pid) : Prop :=
  (n c).zombie = true ∧ w.matchesChild c (n c).pgid = true

/-- What a thread may rely on at its position.  No restoring branch is ever taken: a child is
claimed only after it was seen as a matching zombie, and it stays one. -/
def Role.Ok (n : Pid → Node) (r : Role) : Prop :=
  match r.pc with
  | .wait w (.scan sc) => ∀ c, sc.zombie = some c → ZombieFor n w c
  | .wait w (.claim c) | .wait w (.revalidate c) => ZombieFor n w c
  | .wait _ (.restore _) => False
  | .wait _ (.account c) | .wait _ (.remove c) => (n c).zombie = true
  | .clone (.push c g _) =>
    (n c).created = true ∧ (n c).published = false ∧ (n c).parent = some g ∧
      (n g).created = true
  | .clone (.finish c _ _) => (n c).created = true ∧ (n c).published = false
  | .clone (.addTask c _) => (n c).published = true ∧ (n c).zombie = false
  | .clone (.vforkCheck c) | .sleep (.vfork c) _ => (n c).created = true
  | .release exiting | .wakeAll exiting _ => exiting = true → r.proc ≠ initproc
  | .exit .mark => r.proc ≠ initproc
  | .exit (.reparent _ done zombies) =>
    (n r.proc).zombie = true ∧ (∀ c ∈ done, (n c).parent = some initproc) ∧
      ∀ c ∈ zombies, (n c).zombie = true
  | .exit (.notifyInit c k todo) =>
    (n r.proc).zombie = true ∧ (∀ c' ∈ c :: todo, (n c').zombie = true) ∧ k ≠ .reapRestore
  | .exit (.notifyParent _ k) => (n r.proc).zombie = true ∧ k ≠ .reapRestore
  | .exit _ => (n r.proc).zombie = true
  | _ => True

/-- What a change of the tree must keep for the knowledge of a thread to stay valid. -/
structure Keeps (n n' : Pid → Node) (r : Role) : Prop where
  zombie : ∀ c, (n c).zombie = true → (n' c).zombie = true ∧ (n' c).pgid = (n c).pgid
  created : ∀ c, (n c).created = true → (n' c).created = true
  parent : ∀ c ∈ r.held, (n' c).parent = (n c).parent
  made : ∀ c, r.Makes c → (n' c).published = (n c).published ∧ (n' c).zombie = (n c).zombie

theorem ZombieFor.keep {n n' : Pid → Node} {w : Wait} {c : Pid}
    (hz : ∀ c, (n c).zombie = true → (n' c).zombie = true ∧ (n' c).pgid = (n c).pgid)
    (h : ZombieFor n w c) : ZombieFor n' w c := by
  have h' := hz c h.1
  exact ⟨h'.1, h'.2 ▸ h.2⟩

theorem Role.Ok.keep {n n' : Pid → Node} {r : Role} (hk : Keeps n n' r) (h : r.Ok n) : r.Ok n' := by
  rcases r with ⟨p, pc⟩
  have hz : ∀ c, (n c).zombie = true → (n' c).zombie = true := fun c hc => (hk.zombie c hc).1
  unfold Role.Ok at h ⊢
  dsimp only at h ⊢
  split at h
  · exact fun c hc => (h c hc).keep hk.zombie
  · exact h.keep hk.zombie
  · exact h.keep hk.zombie
  · exact h
  · exact hz _ h
  · exact hz _ h
  · -- The thread holds the child it is about to push, so its parent pointer is settled.
    refine ⟨hk.created _ h.1, ?_, ?_, hk.created _ h.2.2.2⟩
    · rw [(hk.made _ rfl).1]
      exact h.2.1
    · rw [hk.parent _ (by simp [held])]
      exact h.2.2.1
  · refine ⟨hk.created _ h.1, ?_⟩
    rw [(hk.made _ rfl).1]
    exact h.2
  · rwa [(hk.made _ rfl).1, (hk.made _ rfl).2]
  · exact hk.created _ h
  · exact hk.created _ h
  · exact h
  · exact h
  · exact h
  · refine ⟨hz _ h.1, fun c hc => ?_, fun c hc => hz c (h.2.2 c hc)⟩
    rw [hk.parent c (by simp [held, hc])]
    exact h.2.1 c hc
  · exact ⟨hz _ h.1, fun c hc => hz c (h.2.1 c hc), h.2.2⟩
  · exact ⟨hz _ h.1, h.2⟩
  · simp_all
  · simp_all

/-- How often `c` is on the list of a process and in the hands of a thread. -/
def copies (l : Pid → List Pid) (r : ThreadId → Role) (c : Pid) : Pid ⊕ ThreadId → ℕ :=
  Sum.elim (fun p => (l p).count c) (fun t => (r t).held.count c)

structure TreeInv (n : Pid → Node) (l : Pid → List Pid) (r : ThreadId → Role) : Prop where
  once : ∀ c, AtMostOnce (copies l r c)
  parent : ∀ p, ∀ c ∈ l p, (n c).parent = some p
  listed : ∀ p, ∀ c ∈ l p, (n c).created = true ∧ (n c).reaped = false
  lister : ∀ p, (n p).created = false → l p = []
  parents : ∀ c g, (n c).parent = some g → (n g).created = true
  held : ∀ t, ∀ c ∈ (r t).held, (n c).created = true ∧ (n c).reaped = false
  ok : ∀ t, (r t).Ok n
  makers : ∀ t u c, (r t).Makes c → (r u).Makes c → t = u
  fresh : ∀ t c, (r t).Makes c → ∀ u, (r u).pc ≠ .unborn → (r u).proc ≠ c
  born : ∀ t, (r t).pc ≠ .unborn → (n (r t).proc).published = true
  zombie : ∀ c, (n c).zombie = true → (n c).published = true
  published : ∀ c, (n c).published = true → (n c).created = true
  init : (n initproc).published = true ∧ (n initproc).zombie = false

section Moves

variable {n : Pid → Node} {l : Pid → List Pid} {r : ThreadId → Role} {c p q : Pid}
  {t u : ThreadId} {pc : ThreadPc}

theorem copies_hand_ne_zero (hc : c ∈ (r t).held) : copies l r c (.inr t) ≠ 0 :=
  Nat.ne_of_gt (count_pos_iff.mpr hc)

theorem TreeInv.notMem_of_held (h : TreeInv n l r) (hc : c ∈ (r t).held) (p : Pid) : c ∉ l p := by
  intro hmem
  cases (h.once c).unique (.inl p) _ (Nat.ne_of_gt (count_pos_iff.mpr hmem)) (copies_hand_ne_zero hc)

theorem TreeInv.eq_of_held (h : TreeInv n l r) (hc : c ∈ (r t).held) (hc' : c ∈ (r u).held) :
    t = u :=
  Sum.inr.inj ((h.once c).unique _ _ (copies_hand_ne_zero hc) (copies_hand_ne_zero hc'))

/-- Only `t` can be creating `c`, and `c` has no thread. -/
structure Sole (r : ThreadId → Role) (t : ThreadId) (c : Pid) : Prop where
  maker : ∀ u, (r u).Makes c → u = t
  fresh : ∀ u, (r u).pc ≠ .unborn → (r u).proc ≠ c

theorem TreeInv.sole (h : TreeInv n l r) (hc : (r t).Makes c) : Sole r t c :=
  ⟨fun u hu => h.makers u t c hu hc, h.fresh t c hc⟩

section

variable (h : TreeInv n l r) (hborn : (r t).pc ≠ .unborn)

include h hborn

/-- A thread that moves stays in its process; what it creates, it alone creates. -/
theorem TreeInv.moved (hmakes : ∀ c, (Role.mk (r t).proc pc).Makes c → Sole r t c) :
    (∀ u v c, (update r t ⟨(r t).proc, pc⟩ u).Makes c →
      (update r t ⟨(r t).proc, pc⟩ v).Makes c → u = v) ∧
    (∀ u c, (update r t ⟨(r t).proc, pc⟩ u).Makes c → ∀ v,
      (update r t ⟨(r t).proc, pc⟩ v).pc ≠ .unborn → (update r t ⟨(r t).proc, pc⟩ v).proc ≠ c) ∧
    (∀ u, (update r t ⟨(r t).proc, pc⟩ u).pc ≠ .unborn →
      (n (update r t ⟨(r t).proc, pc⟩ u).proc).published = true) := by
  have hmk : ∀ u c, (update r t ⟨(r t).proc, pc⟩ u).Makes c →
      (u = t ∧ Sole r t c) ∨ (u ≠ t ∧ (r u).Makes c) :=
    forall_update (P := fun u (x : Role) => ∀ c, x.Makes c → (u = t ∧ Sole r t c) ∨ (u ≠ t ∧ (r u).Makes c))
      (fun c hc => .inl ⟨rfl, hmakes c hc⟩) fun u hu c hc => .inr ⟨hu, hc⟩
  have hold : ∀ v, (update r t ⟨(r t).proc, pc⟩ v).pc ≠ .unborn →
      (r v).pc ≠ .unborn ∧ (update r t ⟨(r t).proc, pc⟩ v).proc = (r v).proc :=
    forall_update (P := fun v (x : Role) => x.pc ≠ .unborn → (r v).pc ≠ .unborn ∧ x.proc = (r v).proc)
      (fun _ => ⟨hborn, rfl⟩) fun v _ hv => ⟨hv, rfl⟩
  refine ⟨fun u v c hu hv => ?_, fun u c hu v hv => ?_, fun u hu => ?_⟩
  · rcases hmk u c hu with ⟨rfl, hsole⟩ | ⟨hut, hu'⟩ <;> rcases hmk v c hv with ⟨rfl, hsole'⟩ | ⟨hvt, hv'⟩
    · rfl
    · exact absurd (hsole.maker v hv') hvt
    · exact absurd (hsole'.maker u hu') hut
    · exact h.makers u v c hu' hv'
  · rw [(hold v hv).2]
    rcases hmk u c hu with ⟨-, hsole⟩ | ⟨-, hu'⟩
    · exact hsole.fresh v (hold v hv).1
    · exact h.fresh u c hu' v (hold v hv).1
  · rw [(hold u hu).2]
    exact h.born u (hold u hu).1

/-- A section that moves processes between the list of `p` and the hands of `t`. -/
theorem TreeInv.trade (l' : List Pid)
    (hcount : ∀ c,
      l'.count c + (Role.mk (r t).proc pc).held.count c ≤ (l p).count c + (r t).held.count c)
    (hparent : ∀ c ∈ l', c ∈ (r t).held → (n c).parent = some p)
    (hok : (Role.mk (r t).proc pc).Ok n)
    (hmakes : ∀ c, (Role.mk (r t).proc pc).Makes c → Sole r t c) :
    TreeInv n (update l p l') (update r t ⟨(r t).proc, pc⟩) := by
  -- Whatever is on the new list or in the new hands was on the old list or in the old hands.
  have hfrom : ∀ c, c ∈ l' ∨ c ∈ (Role.mk (r t).proc pc).held → c ∈ l p ∨ c ∈ (r t).held := by
    intro c hc
    have hpos : 0 < (l p).count c + (r t).held.count c := by
      have := hcount c
      rcases hc with hc | hc <;> have := count_pos_iff.mpr hc <;> omega
    rcases Nat.add_pos_iff_pos_or_pos.mp hpos with hpos | hpos
    · exact .inl (count_pos_iff.mp hpos)
    · exact .inr (count_pos_iff.mp hpos)
  have hlive : ∀ c, c ∈ l' ∨ c ∈ (Role.mk (r t).proc pc).held →
      (n c).created = true ∧ (n c).reaped = false := by
    intro c hc
    rcases hfrom c hc with hc | hc
    · exact h.listed p c hc
    · exact h.held t c hc
  have hparent' : ∀ c ∈ l', (n c).parent = some p := by
    intro c hc
    rcases hfrom c (.inl hc) with hold | hold
    · exact h.parent p c hold
    · exact hparent c hc hold
  obtain ⟨hmakers, hfresh, hborn'⟩ := h.moved hborn hmakes
  refine ⟨fun c => ?_,
    forall_update (P := fun q (m : List Pid) => ∀ c ∈ m, (n c).parent = some q) hparent' fun q _ => h.parent q,
    forall_update (P := fun _ (m : List Pid) => ∀ c ∈ m, (n c).created = true ∧ (n c).reaped = false)
      (fun c hc => hlive c (.inl hc)) fun q _ => h.listed q,
    forall_update (P := fun q (m : List Pid) => (n q).created = false → m = []) (fun hp => ?_)
      fun q _ => h.lister q, h.parents,
    forall_update (P := fun _ (x : Role) => ∀ c ∈ x.held, (n c).created = true ∧ (n c).reaped = false)
      (fun c hc => hlive c (.inr hc)) fun u _ => h.held u,
    forall_update hok fun u _ => h.ok u, hmakers, hfresh, hborn',
    h.zombie, h.published, h.init⟩
  · refine (h.once c).trade (i := .inl p) (j := .inr t) ?_ (by simp) ?_
    · rintro (q | u) hq hu
      · have hq' : q ≠ p := fun he => hq (he ▸ rfl)
        simp [copies, update_of_ne hq']
      · have hu' : u ≠ t := fun he => hu (he ▸ rfl)
        simp [copies, update_of_ne hu']
    · simpa [copies] using hcount c
  · rw [eq_nil_iff_forall_not_mem]
    intro c hc
    rw [h.parents c p (hparent' c hc)] at hp
    cases hp

/-- A section that leaves the lists alone and the hands as they are, or empties them. -/
theorem TreeInv.quiet (hheld : ∀ c, (Role.mk (r t).proc pc).held.count c ≤ (r t).held.count c)
    (hok : (Role.mk (r t).proc pc).Ok n)
    (hmakes : ∀ c, (Role.mk (r t).proc pc).Makes c → Sole r t c) :
    TreeInv n l (update r t ⟨(r t).proc, pc⟩) := by
  have htrade := h.trade hborn (l initproc) (fun c => Nat.add_le_add_left (hheld c) _) (fun c hc hh
    => absurd hc (h.notMem_of_held hh initproc)) hok hmakes
  rwa [update_eq_self] at htrade

end

/-- A section that writes the control block of `p`, apart from its list. -/
theorem TreeInv.setNode (h : TreeInv n l r) (x : Node)
    (hlist : ∀ q, p ∈ l q → x.parent = some q ∧ x.created = true ∧ x.reaped = false)
    (hheld : ∀ t, p ∈ (r t).held → x.created = true ∧ x.reaped = false)
    (hok : ∀ t, (r t).Ok (update n p x)) (hcreated : (n p).created = true → x.created = true)
    (hparent : ∀ g, x.parent = some g → (n g).created = true)
    (hpublished : (n p).published = true → x.published = true)
    (hzombie : x.zombie = true → x.published = true)
    (hcreated' : x.published = true → x.created = true) (hinit : p = initproc → x.zombie = false) :
    TreeInv (update n p x) l r := by
  have hmono : ∀ g, (n g).created = true → (update n p x g).created = true :=
    forall_update (P := fun g (y : Node) => (n g).created = true → y.created = true) hcreated fun _ _ => id
  have hpub : ∀ g, (n g).published = true → (update n p x g).published = true :=
    forall_update (P := fun g (y : Node) => (n g).published = true → y.published = true) hpublished
      fun _ _ => id
  refine ⟨h.once,
    fun q => forall_update (P := fun c (y : Node) => c ∈ l q → y.parent = some q) (fun hq => (hlist q hq).1)
      fun c _ => h.parent q c,
    fun q => forall_update (P := fun c (y : Node) => c ∈ l q → y.created = true ∧ y.reaped = false)
      (fun hq => (hlist q hq).2) fun c _ => h.listed q c,
    fun q hq => ?_,
    fun c g hc => hmono g (forall_update (P := fun c (y : Node) => y.parent = some g → (n g).created = true)
      (hparent g) (fun c _ => h.parents c g) c hc),
    fun u => forall_update (P := fun c (y : Node) => c ∈ (r u).held → y.created = true ∧ y.reaped = false)
      (hheld u) fun c _ => h.held u c,
    hok, h.makers, h.fresh, fun u hu => hpub _ (h.born u hu),
    forall_update (P := fun _ (y : Node) => y.zombie = true → y.published = true) hzombie
      fun c _ => h.zombie c,
    forall_update (P := fun _ (y : Node) => y.published = true → y.created = true) hcreated'
      fun c _ => h.published c, hpub _ h.init.1, ?_⟩
  · refine h.lister q (Bool.eq_false_iff.mpr fun hcr => ?_)
    rw [hmono q hcr] at hq
    cases hq
  · exact forall_update (P := fun c (y : Node) => c = initproc → y.zombie = false) hinit
      (fun c _ hc => hc ▸ h.init.2) initproc rfl

/-- What the writes of one control block must keep, for the knowledge of the threads. -/
theorem Keeps.update (x : Node) {r : Role}
    (hzombie : (n p).zombie = true → x.zombie = true ∧ x.pgid = (n p).pgid)
    (hcreated : (n p).created = true → x.created = true)
    (hparent : p ∈ r.held → x.parent = (n p).parent)
    (hmade : r.Makes p → x.published = (n p).published ∧ x.zombie = (n p).zombie) : Keeps n (update n p x) r :=
  ⟨forall_update (P := fun c (y : Node) => (n c).zombie = true → y.zombie = true ∧ y.pgid = (n c).pgid) hzombie
      fun _ _ hz => ⟨hz, rfl⟩,
    forall_update (P := fun c (y : Node) => (n c).created = true → y.created = true) hcreated fun _ _ => id,
    forall_update (P := fun c (y : Node) => c ∈ r.held → y.parent = (n c).parent) hparent fun _ _ _ => rfl,
    forall_update (P := fun c (y : Node) => r.Makes c → y.published = (n c).published ∧
      y.zombie = (n c).zombie) hmade fun _ _ _ => ⟨rfl, rfl⟩⟩

section

variable (h : TreeInv n l r)
include h

section

variable (hc : (n c).created = false)

include hc

theorem TreeInv.notMem_of_not_created (p : Pid) : c ∉ l p := by
  intro hmem
  rw [(h.listed p c hmem).1] at hc
  cases hc

theorem TreeInv.notMem_held_of_not_created (t : ThreadId) : c ∉ (r t).held := by
  intro hmem
  rw [(h.held t c hmem).1] at hc
  cases hc

theorem TreeInv.not_makes_of_not_created (u : ThreadId) : ¬(r u).Makes c := by
  intro hm
  -- A thread that makes a process has created it.
  have hok := h.ok u
  have hpub := h.published c
  unfold Role.Makes at hm
  unfold Role.Ok at hok
  split at hm
  all_goals simp_all

/-- What a thread knows does not mention a control block that is not in use. -/
theorem TreeInv.keeps_of_not_created (x : Node) (u : ThreadId) : Keeps n (update n c x) (r u) := by
  have hpub : ¬(n c).published = true := by
    intro hp
    rw [h.published c hp] at hc
    cases hc
  refine Keeps.update x (fun hz => absurd (h.zombie c hz) hpub) (fun hcr => ?_)
    (fun hm => absurd hm (h.notMem_held_of_not_created hc u)) (fun hm => ?_)
  · rw [hcr] at hc
    cases hc
  · exact absurd hm (h.not_makes_of_not_created hc u)

end

/-- The creation of `c` by a thread, which then holds the new process. -/
theorem TreeInv.create (hborn : (r t).pc ≠ .unborn) (hc : (n c).created = false)
    (x : Node) (hx : x.created = true ∧ x.published = false ∧ x.reaped = false ∧ x.zombie = false)
    {g : Pid} (hparent : x.parent = some g) (hg : (n g).created = true) (vfork : Bool) :
    TreeInv (update n c x) l (update r t ⟨(r t).proc, .clone (.push c g vfork)⟩) := by
  have hpub : (n c).published ≠ true := by
    intro hp
    rw [h.published c hp] at hc
    cases hc
  have hci : c ≠ initproc := by
    rintro rfl
    exact hpub h.init.1
  have hgc : g ≠ c := by
    rintro rfl
    rw [hg] at hc
    cases hc
  have hnode : TreeInv (update n c x) l r := by
    refine h.setNode x (fun q hq => absurd hq (h.notMem_of_not_created hc q)) (fun u hu => absurd hu
      (h.notMem_held_of_not_created hc u)) (fun u => (h.ok u).keep (h.keeps_of_not_created hc x u))
      (fun _ => hx.1) ?_ (fun hp => absurd hp hpub) (fun hz => ?_) (fun _ => hx.1)
      (fun hi => absurd hi hci)
    · intro g' hg'
      rw [hparent] at hg'
      rwa [← Option.some.inj hg']
    · rw [hx.2.2.2] at hz
      cases hz
  -- Nobody else makes the new process, and no thread belongs to it.
  have hsole : Sole r t c := by
    refine ⟨fun u hu => absurd hu (h.not_makes_of_not_created hc u), ?_⟩
    rintro u hu rfl
    exact hpub (h.born u hu)
  have hmakes : ∀ d, (Role.mk (r t).proc (.clone (.push c g vfork))).Makes d → Sole r t d := by
    rintro d rfl
    exact hsole
  obtain ⟨hmakers, hfresh, hborn'⟩ := hnode.moved hborn hmakes
  refine ⟨fun d => ?_, hnode.parent, hnode.listed, hnode.lister, hnode.parents,
    forall_update (P := fun _ (y : Role) => ∀ d ∈ y.held, (update n c x d).created = true ∧
      (update n c x d).reaped = false) (fun d hd => ?_) fun u _ => hnode.held u,
    forall_update ?_ fun u _ => hnode.ok u, hmakers, hfresh,
    hborn', hnode.zombie, hnode.published, hnode.init⟩
  · -- Only the hands of `t` change, and nothing but the new process comes into them.
    refine (h.once d).replace (i := .inr t) (j := .inl c) ?_ ?_ (by simp) ?_
    · rintro (q | u) hu -
      · rfl
      · have hu' : u ≠ t := fun he => hu (he ▸ rfl)
        simp [copies, update_of_ne hu']
    · simp only [copies, Sum.elim_inl, Sum.elim_inr, update_self, h.lister c hc]
      exact count_le_length
    · intro hd
      simp only [copies, Sum.elim_inl, Sum.elim_inr, update_self, h.lister c hc,
        count_nil, Role.held] at hd
      have hdc : d = c := by
        by_contra hdc
        simp [Ne.symm hdc] at hd
      subst hdc
      rintro (q | u) - -
      · exact count_eq_zero_of_not_mem (h.notMem_of_not_created hc q)
      · exact count_eq_zero_of_not_mem (h.notMem_held_of_not_created hc u)
  · obtain rfl : d = c := mem_singleton.mp hd
    rw [update_self]
    exact ⟨hx.1, hx.2.2.1⟩
  · refine ⟨?_, ?_, ?_, ?_⟩
    · rw [update_self]
      exact hx.1
    · rw [update_self]
      exact hx.2.1
    · rwa [update_self]
    · rwa [update_of_ne hgc]

/-- A new thread of a published process that nobody is creating. -/
theorem TreeInv.spawn (hu : (r u).pc = .unborn)
    (hp : (n p).published = true) (hmake : ∀ v, ¬(r v).Makes p) : TreeInv n l (update r u ⟨p, .user⟩) := by
  have hheld : (r u).held = [] := by
    unfold Role.held
    rw [hu]
  have heq : ∀ v, (update r u ⟨p, .user⟩ v).held = (r v).held :=
    forall_update (P := fun v (y : Role) => y.held = (r v).held) hheld.symm fun _ _ => rfl
  have hmakes : ∀ v c, (update r u ⟨p, .user⟩ v).Makes c → (r v).Makes c :=
    forall_update (P := fun v (y : Role) => ∀ c, y.Makes c → (r v).Makes c) (fun _ => False.elim)
      fun _ _ _ => id
  refine ⟨fun c => ?_, h.parent, h.listed, h.lister, h.parents, fun v c hc => ?_,
    forall_update trivial fun v _ => h.ok v,
    fun v w c hv hw => h.makers v w c (hmakes v c hv) (hmakes w c hw), fun v c hv => ?_,
    forall_update (P := fun _ (y : Role) => y.pc ≠ .unborn → (n y.proc).published = true) (fun _ => hp)
      fun v _ => h.born v, h.zombie, h.published, h.init⟩
  · have hcopies : copies l (update r u ⟨p, .user⟩) c = copies l r c := by
      funext i
      rcases i with q | v
      · rfl
      · simp [copies, heq v]
    rw [hcopies]
    exact h.once c
  · rw [heq v] at hc
    exact h.held v c hc
  · have hv' := hmakes v c hv
    refine forall_update (P := fun _ (y : Role) => y.pc ≠ .unborn → y.proc ≠ c) ?_
      fun w _ => h.fresh v c hv' w
    rintro - rfl
    exact hmake v hv'

end

end Moves

end CosmOS.Proc
