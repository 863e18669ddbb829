import CosmOS.Machine

/-!
# Vfs.InodeCache — one inode for a file

The inode cache, with each section under its lock as one step.  A lookup that misses makes an inode of its own
before it looks again (`two_inodes_for_one_file`), but what is handed out or cached is one inode for each file,
and a pinned one stays where every later lookup finds it (`inodes_unique_and_pinned`).

Reclaiming may begin at any time: the watermarks, which put it off, are left out.
-/

namespace CosmOS.Vfs.InodeCache

open Function Option

structure Key where
  fsId : ℕ
  ino : ℕ
  deriving DecidableEq

def Key.stable (k : Key) : Bool := k.fsId ≠ 0 && k.ino ≠ 0

structure Inode where
  key : Key
  /-- The strong references of callers. -/
  refs : ℕ
  pageCache : Bool
  retained : Bool

namespace Inode

variable (x : Inode)

def setPageCacheRetained (retained : Bool) : Inode := { x with retained := retained && x.pageCache }

def getOrInsertPageCacheState : Inode :=
  if x.pageCache then x else { x with pageCache := true, retained := false }

def takePageCacheState : Inode := { x with pageCache := false, retained := false }

end Inode

structure Entry where
  inode : ℕ
  refBit : Bool

/-- Where a thread is: between the sections of `get_or_create_inode` with the inode that it has made, or of
`reclaim_one_inode` with a key from the queue. -/
inductive Pc where
  | idle
  | made (o : ℕ)
  | popped (k : Key)
  deriving DecidableEq

structure State where
  table : Key → Option Entry
  inactive : List Key
  inodes : ℕ → Inode
  next : ℕ
  pc : ℕ → Pc

namespace State

variable (s : State) (t o : ℕ) (k : Key)

/-- `Arc::strong_count`, of an inode that is handed out or cached. -/
def strongCount : ℕ :=
  (s.inodes o).refs + if (s.table (s.inodes o).key).map Entry.inode = some o then 1 else 0

def setInode (x : Inode) : State := { s with inodes := update s.inodes o x }

def setEntry (e : Option Entry) : State := { s with table := update s.table k e }

def goto (pc : Pc) : State := { s with pc := update s.pc t pc }

/-- `get_or_create_inode` finds an entry. -/
def hit (e : Entry) : State :=
  let x := s.inodes e.inode
  (s.setEntry k (some { e with refBit := true })).setInode e.inode { x with refs := x.refs + 1 }

def newUncached (refs : ℕ) : State :=
  { s.setInode s.next ⟨k, refs, false, false⟩ with next := s.next + 1 }

/-- `get_or_create_inode`, up to its second section. -/
def lookup : State :=
  if k.stable then
    match s.table k with
    | some e => s.hit k e
    | none => (s.newUncached k 0).goto t (.made s.next)
  else s.newUncached k 1

/-- The second section of `get_or_create_inode`. -/
def insert : State :=
  let x := s.inodes o
  match s.table x.key with
  | some e => (s.hit x.key e).goto t .idle
  | none =>
    let s' := ((s.setEntry x.key (some ⟨o, true⟩)).setInode o { x with refs := 1 }).goto t .idle
    { s' with inactive := s.inactive ++ [x.key] }

/-- The second section of `reclaim_one_inode`. -/
def reclaim : State :=
  match s.table k with
  | none => s.goto t .idle
  | some e =>
    let back := { s.goto t .idle with inactive := s.inactive ++ [k] }
    if 1 < s.strongCount e.inode then back.setEntry k (some { e with refBit := true })
    else if e.refBit then back.setEntry k (some { e with refBit := false })
    else if (s.inodes e.inode).retained then back
    else (s.goto t .idle).setEntry k none

def use (x : Inode) : Option State := if 0 < (s.inodes o).refs then some (s.setInode o x) else none

end State

inductive Label where
  | lookup (t : ℕ) (k : Key)
  | insert (t : ℕ)
  | pop (t : ℕ)
  | reclaim (t : ℕ)
  | drop (o : ℕ)
  /-- The page cache upgrades a weak reference. -/
  | upgrade (o : ℕ)
  | install (o : ℕ)
  | take (o : ℕ)
  | retain (o : ℕ) (retained : Bool)

def next (s : State) : Label → Option State
  | .lookup t k => if s.pc t = .idle then some (s.lookup t k) else none
  | .insert t => match s.pc t with
    | .made o => some (s.insert t o)
    | _ => none
  | .pop t => match s.pc t, s.inactive with
    | .idle, k :: rest => some { s.goto t (.popped k) with inactive := rest }
    | _, _ => none
  | .reclaim t => match s.pc t with
    | .popped k => some (s.reclaim t k)
    | _ => none
  | .upgrade o =>
    let x := s.inodes o
    if 0 < s.strongCount o then some (s.setInode o { x with refs := x.refs + 1 }) else none
  | .drop o => s.use o { s.inodes o with refs := (s.inodes o).refs - 1 }
  | .install o => s.use o (s.inodes o).getOrInsertPageCacheState
  | .take o => s.use o (s.inodes o).takePageCacheState
  | .retain o retained => s.use o ((s.inodes o).setPageCacheRetained retained)

def machine : Machine State Label where
  Init s := s = ⟨fun _ => none, [], fun _ => ⟨⟨0, 0⟩, 0, false, false⟩, 0, fun _ => .idle⟩
  next := next

/-- What is handed out or pinned is in the table, and what a lookup has made for itself is not. -/
structure Inv (s : State) : Prop where
  entry : ∀ k e, s.table k = some e →
    (s.inodes e.inode).key = k ∧ e.inode < s.next ∧ ∀ t, s.pc t ≠ .made e.inode
  cached : ∀ o, (s.inodes o).key.stable = true → 0 < (s.inodes o).refs ∨ (s.inodes o).retained = true →
    ∃ e, s.table (s.inodes o).key = some e ∧ e.inode = o
  made : ∀ t o, s.pc t = .made o → o < s.next ∧ (s.inodes o).refs = 0 ∧ (s.inodes o).retained = false
  own : ∀ t u o, s.pc t = .made o → s.pc u = .made o → t = u

variable {s s' : State} {l : Label} {t o : ℕ} {k : Key} {x : Inode} {e : Entry}

theorem inTable_of_strongCount (h : 0 < s.strongCount o) :
    0 < (s.inodes o).refs ∨ ∃ e, s.table (s.inodes o).key = some e ∧ e.inode = o := by
  unfold State.strongCount at h
  split at h
  next hin => exact .inr (map_eq_some_iff.mp hin)
  next => exact .inl h

theorem strongCount_pos (he : s.table (s.inodes o).key = some e) (ho : e.inode = o) :
    0 < s.strongCount o := by
  unfold State.strongCount
  rw [he, map_some, if_pos (congrArg some ho)]
  exact Nat.succ_pos _

section

variable (h : Inv s)

include h

/-- An inode with a reference or an entry is not one that a lookup has just made. -/
theorem Inv.not_made (hlive : 0 < s.strongCount o) : s.pc t ≠ .made o := by
  intro hpc
  rcases inTable_of_strongCount hlive with hrefs | ⟨e, he, rfl⟩
  · rw [(h.made t o hpc).2.1] at hrefs
    exact lt_irrefl 0 hrefs
  · exact (h.entry _ e he).2.2 t hpc

theorem Inv.setInode (hlive : 0 < s.strongCount o) (hkey : x.key = (s.inodes o).key) :
    Inv (s.setInode o x) := by
  have hkeys : ∀ i, (update s.inodes o x i).key = (s.inodes i).key :=
    (forall_update_iff s.inodes fun i y => y.key = (s.inodes i).key).mpr ⟨hkey, fun _ _ => rfl⟩
  refine ⟨fun k e he => ?_, fun i hk hi => ?_, fun t i hpc => ?_, h.own⟩
  · exact ⟨(hkeys _).trans (h.entry k e he).1, (h.entry k e he).2⟩
  · dsimp only [State.setInode] at hk hi ⊢
    rw [hkeys] at hk ⊢
    rcases eq_or_ne i o with rfl | hio
    · exact (inTable_of_strongCount hlive).elim (fun hrefs => h.cached i hk (.inl hrefs)) id
    · rw [update_of_ne hio] at hi
      exact h.cached i hk hi
  · have hio : i ≠ o := fun heq => h.not_made hlive (heq ▸ hpc)
    dsimp only [State.setInode]
    rw [update_of_ne hio]
    exact h.made t i hpc

theorem Inv.use (hn : s.use o x = some s') (hkey : x.key = (s.inodes o).key) : Inv s' := by
  obtain ⟨hrefs, ⟨⟩⟩ := ite_none_right_eq_some.mp hn
  exact h.setInode (Nat.add_pos_left hrefs _) hkey

/-- A write to the table. An inode that needs an entry must not lose it. -/
theorem Inv.setEntry (e : Option Entry) (hentry : ∀ e' ∈ e,
      (s.inodes e'.inode).key = k ∧ e'.inode < s.next ∧ ∀ t, s.pc t ≠ .made e'.inode)
    (hcached : ∀ e', s.table k = some e' →
      0 < (s.inodes e'.inode).refs ∨ (s.inodes e'.inode).retained = true →
      ∃ e'' ∈ e, e''.inode = e'.inode) : Inv (s.setEntry k e) := by
  refine ⟨fun k' e' he' => ?_, fun i hk hi => ?_, h.made, h.own⟩ <;>
    dsimp only [State.setEntry] at *
  · rcases eq_or_ne k' k with rfl | hne
    · rw [update_self] at he'
      exact hentry e' he'
    · rw [update_of_ne hne] at he'
      exact h.entry k' e' he'
  · obtain ⟨e', he', rfl⟩ := h.cached i hk hi
    rcases eq_or_ne (s.inodes e'.inode).key k with heq | hne
    · rw [heq, update_self]
      exact hcached e' (heq ▸ he') hi
    · rw [update_of_ne hne]
      exact ⟨e', he', rfl⟩

theorem Inv.setBit (he : s.table k = some e) (bit : Bool) :
    Inv (s.setEntry k (some { e with refBit := bit })) := by
  refine h.setEntry _ ?_ fun e' he' _ => ⟨_, rfl, ?_⟩
  · rintro _ ⟨⟩
    exact h.entry k e he
  · cases he.symm.trans he'
    rfl

theorem Inv.hit (he : s.table k = some e) : Inv (s.hit k e) := by
  have hkey := (h.entry k e he).1
  refine (h.setBit he true).setInode (strongCount_pos (e := { e with refBit := true }) ?_ rfl) rfl
  exact hkey ▸ update_self ..

/-- A thread moves.  An inode that it has made has no entry, and no other thread has it. -/
theorem Inv.goto {pc : Pc} {inactive : List Key} (hpc : ∀ o, pc = .made o →
      (o < s.next ∧ (s.inodes o).refs = 0 ∧ (s.inodes o).retained = false) ∧
      (∀ u, s.pc u ≠ .made o) ∧ ∀ k e, s.table k = some e → e.inode ≠ o) :
    Inv { s.goto t pc with inactive } := by
  have hold : ∀ u i, update s.pc t pc u = .made i → s.pc u = .made i ∨ u = t ∧ pc = .made i := by
    intro u i hu
    rcases eq_or_ne u t with rfl | hut
    · rw [update_self] at hu
      exact .inr ⟨rfl, hu⟩
    · rw [update_of_ne hut] at hu
      exact .inl hu
  refine ⟨fun k e he => ?_, h.cached, fun u i hu => ?_, fun u v i hu hv => ?_⟩
  · obtain ⟨hkey, hlt, hmade⟩ := h.entry k e he
    refine ⟨hkey, hlt, fun u hu => ?_⟩
    exact (hold u _ hu).elim (hmade u) fun hi => (hpc _ hi.2).2.2 k e he rfl
  · exact (hold u i hu).elim (h.made u i) fun hi => (hpc i hi.2).1
  · rcases hold u i hu with hold₁ | ⟨rfl, hi⟩ <;> rcases hold v i hv with hold₂ | ⟨rfl, hi'⟩
    · exact h.own u v i hold₁ hold₂
    · exact absurd hold₁ ((hpc i hi').2.1 u)
    · exact absurd hold₂ ((hpc i hi).2.1 v)
    · rfl

/-- The new inode has no entry.  If its key is stable, nobody has it yet. -/
theorem Inv.newUncached {refs : ℕ} (hk : k.stable = true → refs = 0) : Inv (s.newUncached k refs) := by
  have hold : ∀ i, i < s.next → update s.inodes s.next ⟨k, refs, false, false⟩ i = s.inodes i :=
    fun i hi => update_of_ne hi.ne ..
  refine ⟨fun k' e he => ?_, fun i hki hi => ?_, fun t i hpc => ?_, h.own⟩ <;>
    dsimp only [State.newUncached, State.setInode] at *
  · obtain ⟨hkey, hlt, hmade⟩ := h.entry k' e he
    rw [hold _ hlt]
    exact ⟨hkey, Nat.lt_succ_of_lt hlt, hmade⟩
  · rcases eq_or_ne i s.next with rfl | hne
    · rw [update_self] at hki hi
      rw [hk hki] at hi
      exact (hi.elim (lt_irrefl 0) nofun).elim
    · rw [update_of_ne hne] at hki hi ⊢
      exact h.cached i hki hi
  · obtain ⟨hlt, hrefs⟩ := h.made t i hpc
    rw [hold i hlt]
    exact ⟨Nat.lt_succ_of_lt hlt, hrefs⟩

theorem Inv.lookup : Inv (s.lookup t k) := by
  unfold State.lookup
  split
  · split
    next e he => exact h.hit he
    next =>
      refine (h.newUncached fun _ => rfl).goto ?_
      rintro _ ⟨⟩
      refine ⟨?_, fun u hu => lt_irrefl _ (h.made u _ hu).1, fun k' e he => (h.entry k' e he).2.1.ne⟩
      dsimp only [State.newUncached, State.setInode]
      rw [update_self]
      exact ⟨Nat.lt_succ_self _, rfl, rfl⟩
  next hk => exact h.newUncached fun hstable => absurd hstable hk

theorem Inv.insert (hpc : s.pc t = .made o) : Inv (s.insert t o) := by
  unfold State.insert
  dsimp only
  split
  next e he => exact (h.hit he).goto nofun
  next hnone =>
    -- Only this lookup had the inode, and it has it no more.
    have hun : ∀ u, update s.pc t .idle u ≠ .made o := by
      intro u hu
      rcases eq_or_ne u t with rfl | hut
      · cases (update_self ..).symm.trans hu
      · rw [update_of_ne hut] at hu
        exact hut (h.own u t o hu hpc)
    have hidle : Inv { s.goto t .idle with inactive := s.inactive ++ [(s.inodes o).key] } := h.goto nofun
    have hentry : Inv ({ s.goto t .idle with inactive := s.inactive ++ [(s.inodes o).key] }.setEntry
        (s.inodes o).key (some ⟨o, true⟩)) := by
      refine hidle.setEntry _ ?_ fun e he => nomatch hnone.symm.trans he
      rintro _ ⟨⟩
      exact ⟨rfl, (h.made t o hpc).1, hun⟩
    exact hentry.setInode (strongCount_pos (update_self ..) rfl) rfl

theorem Inv.reclaim : Inv (s.reclaim t k) := by
  have hidle {inactive} : Inv { s.goto t .idle with inactive } := h.goto nofun
  unfold State.reclaim
  split
  · exact hidle
  next e he =>
    dsimp only
    split
    · exact hidle.setBit he true
    next hrefs =>
      split
      · exact hidle.setBit he false
      split
      · exact hidle
      next hretained =>
        -- The entry goes only if it is the last reference.
        refine (@hidle s.inactive).setEntry none nofun fun e' he' hi => ?_
        cases he.symm.trans he'
        refine hi.elim (fun hpos => absurd ?_ hrefs) fun hr => absurd hr hretained
        unfold State.strongCount
        rw [(h.entry k e he).1, he, map_some, if_pos rfl]
        exact Nat.succ_lt_succ hpos

theorem Inv.next (hn : next s l = some s') : Inv s' := by
  cases l with simp only [InodeCache.next] at hn
  | lookup t k =>
    obtain ⟨-, ⟨⟩⟩ := ite_none_right_eq_some.mp hn
    exact h.lookup
  | insert t =>
    split at hn <;> cases hn
    rename_i hpc
    exact h.insert hpc
  | pop t =>
    split at hn <;> cases hn
    exact h.goto nofun
  | reclaim t =>
    split at hn <;> cases hn
    exact h.reclaim
  | upgrade o =>
    obtain ⟨hlive, ⟨⟩⟩ := ite_none_right_eq_some.mp hn
    exact h.setInode hlive rfl
  | install o =>
    refine h.use hn ?_
    unfold Inode.getOrInsertPageCacheState
    split <;> rfl
  | drop o | take o | retain o retained => exact h.use hn rfl

end

/-- For each file one inode is handed out or cached, a pinned one stays in the table, and one that is not there
yet only the lookup has that made it. -/
theorem inodes_unique_and_pinned (h : machine.Reachable s) :
    (∀ o o', (s.inodes o).key = (s.inodes o').key → (s.inodes o).key.stable = true →
      0 < s.strongCount o → 0 < s.strongCount o' → o = o') ∧
    (∀ o, (s.inodes o).key.stable = true → (s.inodes o).retained = true →
      ∃ e, s.table (s.inodes o).key = some e ∧ e.inode = o ∧
        ∀ t, s.lookup t (s.inodes o).key = s.hit (s.inodes o).key e) ∧
    ∀ t o, s.pc t = .made o → s.strongCount o = 0 := by
  have hinv : Inv s := by
    refine h.invariant ?_ fun s l s' hs _ hn => hs.next hn
    rintro _ rfl
    constructor <;> nofun
  refine ⟨fun o o' hkey hk ho ho' => ?_, fun o hk hr => ?_, fun t o hpc => ?_⟩
  · have hin : ∀ i, (s.inodes i).key.stable = true → 0 < s.strongCount i →
        ∃ e, s.table (s.inodes i).key = some e ∧ e.inode = i := fun i hi hcount =>
      (inTable_of_strongCount hcount).elim (fun hrefs => hinv.cached i hi (.inl hrefs)) id
    obtain ⟨e, he, rfl⟩ := hin o hk ho
    obtain ⟨e', he', rfl⟩ := hin o' (hkey ▸ hk) ho'
    rw [hkey, he'] at he
    cases he
    rfl
  · obtain ⟨e, he, ho⟩ := hinv.cached o hk (.inr hr)
    refine ⟨e, he, ho, fun t => ?_⟩
    unfold State.lookup
    rw [if_pos hk, he]
  · exact Nat.eq_zero_of_not_pos fun hpos => hinv.not_made hpos hpc

/-- An inode is pinned and dropped, and its turn to go comes twice. -/
theorem inodes_unique_and_pinned_dropped : ∃ s, machine.Reachable s ∧ (s.inodes 0).refs = 0 ∧
    ∃ e, s.table ⟨1, 5⟩ = some e ∧ e.inode = 0 ∧ ∀ t, s.lookup t ⟨1, 5⟩ = s.hit ⟨1, 5⟩ e := by
  obtain ⟨s, hreach, hrefs, hkey, hretained⟩ := machine.exists_reachable_of_run
    (fun s => (s.inodes 0).refs = 0 ∧ (s.inodes 0).key = ⟨1, 5⟩ ∧ (s.inodes 0).retained = true)
    [.lookup 0 ⟨1, 5⟩, .insert 0, .install 0, .retain 0 true, .drop 0, .pop 0, .reclaim 0, .pop 0, .reclaim 0]
    rfl (by decide)
  have hpinned := (inodes_unique_and_pinned hreach).2.1 0 (hkey ▸ rfl) hretained
  rw [hkey] at hpinned
  exact ⟨s, hreach, hrefs, hpinned⟩

/-- Two lookups miss and one goes on: the other still has an inode of the same file. -/
theorem two_inodes_for_one_file : ∃ s, machine.Reachable s ∧ s.pc 0 = .made 0 ∧ s.strongCount 1 = 2 ∧
    (s.inodes 0).key = ⟨1, 5⟩ ∧ (s.inodes 1).key = ⟨1, 5⟩ := by
  exact machine.exists_reachable_of_run _ [.lookup 0 ⟨1, 5⟩, .lookup 1 ⟨1, 5⟩, .insert 1] rfl (by decide)

end CosmOS.Vfs.InodeCache
