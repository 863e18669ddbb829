import CosmOS.Vfs.Attributes

/-!
# Vfs.StatCache — the attributes that `stat_attrs` answers

`Inode` keeps a snapshot of the attributes of the node that it wraps.  Its operations call the backend
and then drop the snapshots of some of the inodes they were given; a call, each `invalidate_stat_cache`,
and the fetch and the store of `stat_attrs` are steps of their own.  What `unlink` and `rename_child`
look up first changes nothing here and is left out.

* `stat_attrs_coherent`: the answers are the backend's as long as no call touches an inode whose
  snapshot somebody keeps that the operation does not drop, or is about to store.
* `unlink_keeps_snapshot`: `unlink` of one of two names keeps the snapshot of the file.
-/

namespace CosmOS.Vfs.StatCache

open Function

/-- The inodes on which the operation calls `invalidate_stat_cache` after a call with this result. -/
def Op.invalidates {α : Type} : Op α → Result → List α
  | _, .err => []
  | create .., _ | mkdir .., _ | symlink .., _ | link .., _ | clear _, _ => []
  | linkInode dir child _, _ => [dir, child]
  | unlink dir _, _ | rmdir dir _, _ => [dir]
  | renameChild dir _ newParent _, _ => [dir, newParent]
  | writeAt i _ _, .written n | writeAtResult i _ _, .written n => if n = 0 then [] else [i]
  | writeAt _ _ _, _ | writeAtResult _ _ _, _ => []
  | truncate i _, _ | fallocate i, _ | setMode i _, _ | setOwner i _ _, _ | setTimes i _ _ _, _ => [i]

inductive Pc where
  | idle
  /-- `create` or `mkdir` has its child and is to read its mode. -/
  | readMode (child : Node) (perms : ℕ)
  /-- It is to set the mode of the child, on the node and not on an `Inode`. -/
  | setMode (child : Node) (mode : ℕ)
  | invalidate (rest : List ℕ)
  /-- `stat_attrs` has the answer of the backend. -/
  | fetched (i : ℕ) (attrs : VfsAttrs)
  deriving DecidableEq

/-- Where an operation goes on behind its call. -/
def Op.after (op : Op ℕ) (result : Result) : Pc :=
  match op, result with
  | create .., .created c => .readMode c 0o644
  | mkdir .., .created c => .readMode c 0o755
  | op, result => .invalidate (op.invalidates result)

/-- The disk, the snapshot of every `Inode`, and the threads. -/
structure State (D : Type) where
  disk : D
  snapshot : ℕ → Option VfsAttrs
  pc : ℕ → Pc

inductive Label where
  | call (t : ℕ) (op : Op ℕ)
  | readMode (t : ℕ)
  | setMode (t : ℕ)
  | invalidate (t : ℕ)
  /-- `stat_attrs` has missed, now or before. -/
  | fetch (t i : ℕ)
  | store (t : ℕ)

section

variable {D : Type} (B : Backend D)
  -- the node that every `Inode` wraps
  (node : ℕ → Node)

def State.backend (s : State D) (i : ℕ) : VfsAttrs := B.attrs s.disk (node i).key

def State.statAttrs (s : State D) (i : ℕ) : VfsAttrs := (s.snapshot i).getD (s.backend B node i)

def next (s : State D) : Label → Option (State D)
  | .call t op =>
    if s.pc t = .idle then
      let (disk, result) := B.call s.disk (op.map node)
      some { s with disk := disk, pc := update s.pc t (op.after result) }
    else none
  | .readMode t => match s.pc t with
    | .readMode c perms =>
      some { s with pc := update s.pc t (match (B.attrs s.disk c.key).mode with
        | some mode => .setMode c (mode / 0x1000 * 0x1000 + perms)
        | none => .invalidate []) }
    | _ => none
  | .setMode t => match s.pc t with
    | .setMode c mode =>
      some { s with
        disk := (B.call s.disk (.setMode c mode)).1
        pc := update s.pc t (.invalidate []) }
    | _ => none
  | .invalidate t => match s.pc t with
    | .invalidate [] => some { s with pc := update s.pc t .idle }
    | .invalidate (i :: rest) =>
      some { s with snapshot := update s.snapshot i none, pc := update s.pc t (.invalidate rest) }
    | _ => none
  | .fetch t i =>
    if s.pc t = .idle then some { s with pc := update s.pc t (.fetched i (s.backend B node i)) }
    else none
  | .store t => match s.pc t with
    | .fetched i attrs =>
      some { s with snapshot := update s.snapshot i (some attrs), pc := update s.pc t .idle }
    | _ => none

def machine : Machine (State D) Label where
  Init s := s.snapshot = (fun _ => none) ∧ s.pc = fun _ => .idle
  next := next B node

/-- Nobody has a snapshot of an inode of the list, but for those of `drops`, or is about to store
one. -/
def Unseen (s : State D) (drops keys : List ℕ) : Prop :=
  ∀ i, (node i).key ∈ keys →
    (i ∈ drops ∨ s.snapshot i = none) ∧ ∀ t attrs, s.pc t ≠ .fetched i attrs

/-- The inodes that the call touches are unseen before it, but for those it drops afterwards. -/
def Announced (s : State D) : Label → Prop
  | .call _ op => Unseen node s (op.invalidates (B.call s.disk (op.map node)).2)
      (B.touches s.disk (op.map node))
  | .setMode t => ∀ c mode, s.pc t = .setMode c mode → Unseen node s [] (B.touches s.disk (.setMode c mode))
  | _ => True

/-- A snapshot is the backend's or about to be dropped. -/
structure Inv (s : State D) : Prop where
  snapshot : ∀ i attrs, s.snapshot i = some attrs →
    attrs = s.backend B node i ∨ ∃ t rest, s.pc t = .invalidate rest ∧ i ∈ rest
  fetched : ∀ t i attrs, s.pc t = .fetched i attrs → attrs = s.backend B node i

end

section Steps

variable {D : Type} {B : Backend D} {node : ℕ → Node} {s s' : State D} {l : Label} {t : ℕ} {pc : Pc}

/-- A thread that was not to drop anything goes on. -/
theorem Inv.goto (h : Inv B node s) (hold : ∀ rest i, s.pc t = .invalidate rest → i ∉ rest)
    (hpc : ∀ i attrs, pc = .fetched i attrs → attrs = s.backend B node i) :
    Inv B node { s with pc := update s.pc t pc } := by
  constructor
  · intro i attrs hi
    rcases h.snapshot i attrs hi with hattrs | ⟨u, rest, hu, hmem⟩
    · exact .inl hattrs
    · have hut : u ≠ t := by
        rintro rfl
        exact hold rest i hu hmem
      exact .inr ⟨u, rest, (update_of_ne hut ..).trans hu, hmem⟩
  · intro u i attrs hu
    by_cases hut : u = t
    · subst hut
      exact hpc i attrs ((update_self ..).symm.trans hu)
    · exact h.fetched u i attrs ((update_of_ne hut ..).symm.trans hu)

/-- A call of the backend: where an inode is touched, its snapshot is not there or dropped next. -/
theorem Inv.call (h : Inv B node s) (op : Op Node) {drops : List ℕ}
    (hunseen : Unseen node s drops (B.touches s.disk op))
    (hold : ∀ rest, s.pc t ≠ .invalidate rest) (hnew : ∀ i attrs, pc ≠ .fetched i attrs)
    (hdrops : ∀ i ∈ drops, ∃ rest, pc = .invalidate rest ∧ i ∈ rest) :
    Inv B node { s with disk := (B.call s.disk op).1, pc := update s.pc t pc } := by
  constructor
  · intro i attrs hi
    by_cases htouch : (node i).key ∈ B.touches s.disk op
    · rcases (hunseen i htouch).1 with hdrop | hnone
      · obtain ⟨rest, hrest, hmem⟩ := hdrops i hdrop
        exact .inr ⟨t, rest, (update_self ..).trans hrest, hmem⟩
      · cases hnone.symm.trans hi
    · rcases h.snapshot i attrs hi with hattrs | ⟨u, rest, hu, hmem⟩
      · exact .inl (hattrs.trans (B.frame s.disk op _ htouch).symm)
      · have hut : u ≠ t := by
          rintro rfl
          exact hold rest hu
        exact .inr ⟨u, rest, (update_of_ne hut ..).trans hu, hmem⟩
  · intro u i attrs hu
    by_cases hut : u = t
    · subst hut
      exact absurd ((update_self ..).symm.trans hu) (hnew i attrs)
    · have hu' : s.pc u = .fetched i attrs := (update_of_ne hut ..).symm.trans hu
      have htouch : (node i).key ∉ B.touches s.disk op := fun hmem => (hunseen i hmem).2 u attrs hu'
      exact (h.fetched u i attrs hu').trans (B.frame s.disk op _ htouch).symm

/-- An operation either has no snapshot to drop or drops them next. -/
theorem Op.mem_after {op : Op ℕ} {result : Result} :
    (∀ i attrs, op.after result ≠ .fetched i attrs) ∧
      ∀ i ∈ op.invalidates result, ∃ rest, op.after result = .invalidate rest ∧ i ∈ rest := by
  unfold Op.after
  split
  · exact ⟨nofun, nofun⟩
  · exact ⟨nofun, nofun⟩
  · exact ⟨nofun, fun i hi => ⟨_, rfl, hi⟩⟩

/-- The snapshot of one inode is dropped. -/
theorem Inv.drop (h : Inv B node s) {i : ℕ} {rest : List ℕ} (hpc : s.pc t = .invalidate (i :: rest)) :
    Inv B node { s with snapshot := update s.snapshot i none, pc := update s.pc t (.invalidate rest) } := by
  constructor
  · intro j attrs hj
    dsimp only at hj
    have hji : j ≠ i := by
      rintro rfl
      rw [update_self] at hj
      cases hj
    rw [update_of_ne hji] at hj
    rcases h.snapshot j attrs hj with hattrs | ⟨u, rest', hu, hmem⟩
    · exact .inl hattrs
    by_cases hut : u = t
    · subst hut
      obtain rfl : i :: rest = rest' := Pc.invalidate.inj (hpc.symm.trans hu)
      exact .inr ⟨u, rest, update_self .., (List.mem_cons.mp hmem).resolve_left hji⟩
    · exact .inr ⟨u, rest', (update_of_ne hut ..).trans hu, hmem⟩
  · intro u j attrs hu
    by_cases hut : u = t
    · subst hut
      dsimp only at hu
      rw [update_self] at hu
      cases hu
    · exact h.fetched u j attrs ((update_of_ne hut ..).symm.trans hu)

/-- `stat_attrs` stores what it has fetched. -/
theorem Inv.store (h : Inv B node s) {i : ℕ} {attrs : VfsAttrs} (hpc : s.pc t = .fetched i attrs) :
    Inv B node { s with snapshot := update s.snapshot i (some attrs), pc := update s.pc t .idle } := by
  have hidle : Inv B node { s with pc := update s.pc t .idle } :=
    h.goto (fun rest j hrest => by cases hpc.symm.trans hrest) nofun
  refine ⟨fun j attrs' hj => ?_, hidle.fetched⟩
  by_cases hji : j = i
  · subst hji
    dsimp only at hj
    rw [update_self] at hj
    obtain rfl := Option.some.inj hj
    exact .inl (h.fetched t j attrs hpc)
  · exact hidle.snapshot j attrs' ((update_of_ne hji ..).symm.trans hj)

theorem Inv.next (h : Inv B node s) (hok : Announced B node s l) (hn : next B node s l = some s') :
    Inv B node s' := by
  cases l with simp only [StatCache.next] at hn
  | call t op =>
    obtain ⟨hpc, ⟨⟩⟩ := Option.ite_none_right_eq_some.mp hn
    exact h.call (op.map node) hok (fun rest hrest => by cases hpc.symm.trans hrest) Op.mem_after.1
      Op.mem_after.2
  | readMode t =>
    split at hn <;> cases hn
    next hpc =>
      refine h.goto (fun rest j hrest => by cases hpc.symm.trans hrest) ?_
      split <;> nofun
  | setMode t =>
    split at hn <;> cases hn
    next c mode hpc =>
      exact h.call _ (hok c mode hpc) (fun rest hrest => by cases hpc.symm.trans hrest) nofun nofun
  | invalidate t =>
    split at hn <;> cases hn <;> rename_i hpc
    · refine h.goto (fun rest j hrest => ?_) nofun
      obtain rfl : [] = rest := Pc.invalidate.inj (hpc.symm.trans hrest)
      exact List.not_mem_nil
    · exact h.drop hpc
  | fetch t i =>
    obtain ⟨hpc, ⟨⟩⟩ := Option.ite_none_right_eq_some.mp hn
    refine h.goto (fun rest j hrest => by cases hpc.symm.trans hrest) ?_
    rintro j attrs ⟨⟩
    rfl
  | store t =>
    split at hn <;> cases hn
    next hpc =>
      exact h.store hpc

/-- With no operation in progress, every `Inode` answers what the backend holds, in every run over ext4
or FAT32 in which the inodes that a call touches are unseen or dropped. -/
theorem stat_attrs_coherent (h : (machine B node).Reach (Announced B node) s)
    (hidle : ∀ t, s.pc t = .idle) (i : ℕ) : s.statAttrs B node i = s.backend B node i := by
  have hinv : Inv B node s := by
    refine h.invariant ?_ fun s l s' hs hok hn => hs.next hok hn
    rintro s ⟨hsnapshot, hpc⟩
    constructor
    · rw [hsnapshot]
      nofun
    · rw [hpc]
      nofun
  unfold State.statAttrs
  cases hi : s.snapshot i with
  | none => rfl
  | some attrs =>
    rcases hinv.snapshot i attrs hi with hattrs | ⟨t, rest, ht, -⟩
    · exact hattrs
    · cases (hidle t).symm.trans ht

end Steps

/-! ## A file with two names -/

structure SmallDisk where
  inode : ℕ → Ext4Record
  entry : ℕ → String → Option ℕ

/-- The library over it, with the calls that write to an inode other than by its reference failing. -/
def smallExt4 : Ext4 SmallDisk where
  inode := SmallDisk.inode
  writeBackInode d r := { d with inode := update d.inode r.inodeNum r.inode }
  dirLookup := SmallDisk.entry
  dirHasEntry _ _ := true
  freshInode _ := 0
  blockSize := 4096
  create d _ _ _ := (d, none)
  link d _ _ _ := (d, none)
  dirRemoveEntry d p name :=
    ({ d with entry := update d.entry p.inodeNum (update (d.entry p.inodeNum) name none) },
      some p.inode)
  truncateInode d _ _ := (d, none)
  unlink d _ _ _ := (d, false)
  dirRemove d _ _ := (d, false)
  renameEntry d _ _ _ _ := (d, false)
  writeAt d _ _ _ := (d, none)
  prepareAlignedWriteAt d _ _ _ := (d, none)
  extentRemoveSpace d _ _ := (d, none)
  writeBackInode_inode _ _ := rfl
  create_fresh _ _ _ _ _ := nofun
  create_only _ _ _ _ := .refl
  link_only _ _ _ _ := .refl
  dirRemoveEntry_only _ _ _ _ _ := rfl
  truncateInode_only _ _ _ := .refl
  unlink_only _ _ _ _ := .refl
  dirRemove_only _ _ _ := .refl
  renameEntry_only _ _ _ _ _ := .refl
  writeAt_only _ _ _ _ := .refl
  prepareAlignedWriteAt_only _ _ _ _ := .refl
  extentRemoveSpace_only _ _ _ := .refl

/-- Inode 2 is a directory with two names of inode 7. -/
def twoNames : State SmallDisk where
  disk :=
    { inode := update (fun _ => ⟨0x8000 + 0o644, 2, 5, 0, 0, (0, 0), (0, 0), (0, 0)⟩) 2
        ⟨0x4000 + 0o755, 2, 4096, 0, 0, (0, 0), (0, 0), (0, 0)⟩
      entry := fun i name => if i = 2 ∧ (name = "a" ∨ name = "b") then some 7 else none }
  snapshot := fun _ => none
  pc := fun _ => .idle

/-- `Inode` number `i` wraps inode `i`. -/
def ownNode (i : ℕ) : Node := ⟨i, i = 2⟩

/-- Nobody has asked for the file when a name is removed: the next answer is that of the backend. -/
theorem stat_attrs_coherent_unlink : ∃ s, (machine smallExt4.backend ownNode).Reach
      (Announced smallExt4.backend ownNode) s ∧ (s.backend smallExt4.backend ownNode 7).nlink = 1 ∧
      s.statAttrs smallExt4.backend ownNode 7 = s.backend smallExt4.backend ownNode 7 := by
  have hstart : (machine smallExt4.backend ownNode).Reach (Announced smallExt4.backend ownNode)
    twoNames := .init ⟨rfl, rfl⟩
  have hfetch := hstart.next (l := Label.fetch 0 2) trivial rfl
  have hstore := hfetch.next (l := Label.store 0) trivial rfl
  have hcall := hstore.next (l := Label.call 0 (.unlink 2 "a"))
    (by
      intro i hi
      have hi : i ∈ [2, 7] := hi
      have hi : i = 2 ∨ i = 7 := by simpa using hi
      refine ⟨?_, by rintro (_ | t) <;> nofun⟩
      rcases hi with rfl | rfl
      · exact .inl (.head _)
      · exact .inr rfl) rfl
  have hdone := (hcall.next (l := Label.invalidate 0) trivial rfl).next (l := Label.invalidate 0) trivial rfl
  have hidle := hdone.next (l := Label.fetch 0 7) trivial rfl
  have hlast := hidle.next (l := Label.store 0) trivial rfl
  refine ⟨_, hlast, rfl, stat_attrs_coherent hlast ?_ 7⟩
  rintro (_ | t) <;> rfl

/-- One of two names is removed, and the inode still answers two. -/
theorem unlink_keeps_snapshot : ∃ s, (machine smallExt4.backend ownNode).Reachable s ∧
    (∀ t, s.pc t = .idle) ∧ (s.backend smallExt4.backend ownNode 7).nlink = 1 ∧
      (s.statAttrs smallExt4.backend ownNode 7).nlink = 2 := by
  refine ⟨_, Machine.reachable_of_run (show (machine smallExt4.backend ownNode).Init twoNames from ⟨rfl, rfl⟩) (rfl : (machine smallExt4.backend
    ownNode).run twoNames [.fetch 0 7, .store 0, .call 0 (.unlink 2 "a"), .invalidate 0,
      .invalidate 0] = some _), ?_, rfl, rfl⟩
  rintro (_ | t) <;> rfl

end CosmOS.Vfs.StatCache
