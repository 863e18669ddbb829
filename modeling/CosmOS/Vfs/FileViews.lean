import CosmOS.Vfs.OpenFiles

/-!
# Vfs.FileViews — what belongs to a file

`view` is what a file consists of: the contents of its number, while the number is its own, and the mappings
that were made for it.

* `Inv`: every living inode belongs to the newest file of its number, and a mapping belongs to the file of
  the inodes that it is attached to.
* `Stays F s s'`: a change that keeps the invariant and touches no view but those of the files in `F`.  Every
  part of a call is such a change, and calls are composed of them with `Stays.trans`.

Here are the parts: the tables of references, lookups, the links on the disk, and the calls on mappings.
`Inv.access` is the result for them: a call through a handle gives bytes of the handle's own file and
touches no other one.
-/

namespace CosmOS.Vfs.OpenFiles

open Function Option

open PageCache (File Mapping Frames noBytes)

/-! ## What belongs to a file -/

structure View where
  /-- The contents on the disk, for the newest file of a number. -/
  content : Option File
  caches : MappingId → Option Mapping

def State.view (s : State) (f : FileId) : View where
  content := if s.gen f.1 = f.2 then some (s.contents f.1) else none
  caches m := if m < s.nextMapping ∧ (s.mappings m).file = f then some (s.mappings m).cache else none

open State

/-- The mappings through which a call may go that sees nothing but the view. -/
inductive View.Maps (v : View) (file : File) : Mapping → Prop
  | fresh : v.Maps file (.new file)
  | cached {m : MappingId} {c : Mapping} (h : v.caches m = some c) : v.Maps file { c with backing := file }
  /-- `get_or_create_mapping` raises the size to that of the file. -/
  | raised {m : MappingId} {c : Mapping} (h : v.caches m = some c) :
    v.Maps file { c with size := max c.size file.len, backing := file }

/-- The bytes come from the operation on a mapping and the contents of the view. -/
def View.Gives (v : View) (fuel : ℕ) (frames : Frames) (op : PageCache.Op) (bytes : Slice UInt8) : Prop :=
  ∃ file c, v.content = some file ∧ v.Maps file c ∧ (c.exec fuel frames op).map Prod.snd = some bytes

/-- The inode belongs to the newest file of its number. -/
def State.Current (s : State) (o : InodeId) : Prop :=
  o < s.nextInode ∧ (s.inodes o).gen = s.gen (s.inodes o).ino

structure Inv (s : State) : Prop where
  cache_ino : ∀ i o, s.inodeCache i = some o → (s.inodes o).ino = i
  gen_le : ∀ o, o < s.nextInode → (s.inodes o).gen ≤ s.gen (s.inodes o).ino
  current : ∀ o, s.alive o → s.Current o
  mapping_file : ∀ o m, o < s.nextInode → (s.inodes o).mapping = some m →
    m < s.nextMapping ∧ (s.mappings m).file = (s.inodes o).file
  inode_file : ∀ m, m < s.nextMapping →
    (s.mappings m).inode < s.nextInode ∧ (s.inodes (s.mappings m).inode).file = (s.mappings m).file
  registry_ino : ∀ i m, s.registry i = some m → m < s.nextMapping ∧ (s.mappings m).file.1 = i

/-- A change that touches no view but those of the files in `F`. -/
structure Stays (F : FileId → Prop) (s s' : State) : Prop where
  inv : Inv s'
  view : ∀ f, ¬ F f → s'.view f = s.view f
  gen : s'.gen = s.gen
  next_le : s.nextInode ≤ s'.nextInode
  file : ∀ o, o < s.nextInode → (s'.inodes o).file = (s.inodes o).file

/-- The change touches no file. -/
def nobody : FileId → Prop := fun _ => False

variable {s s' s'' : State} {F F' : FileId → Prop} {f : FileId} {o : InodeId} {m : MappingId} {i d d' : Ino}
  {n n' : Name}

theorem Stays.refl (h : Inv s) : Stays F s s := ⟨h, fun _ _ => rfl, rfl, le_rfl, fun _ _ => rfl⟩

theorem Stays.trans (h : Stays F s s') (h' : Stays F s' s'') : Stays F s s'' where
  inv := h'.inv
  view f hf := (h'.view f hf).trans (h.view f hf)
  gen := h'.gen.trans h.gen
  next_le := h.next_le.trans h'.next_le
  file o ho := (h'.file o (ho.trans_le h.next_le)).trans (h.file o ho)

theorem Stays.mono (h : Stays F s s') (hF : ∀ f, F f → F' f) : Stays F' s s' where
  __ := h
  view f hf := h.view f fun hf' => hf (hF f hf')

/-- What touches no file touches none outside of any set. -/
theorem Stays.of_nobody (h : Stays nobody s s') : Stays F s s' := h.mono fun _ hf => hf.elim

theorem Stays.current (h : Stays F s s') (ho : s.Current o) : s'.Current o := by
  obtain ⟨hlt, hgen⟩ := ho
  have hfile := h.file o hlt
  obtain ⟨hino, hgen'⟩ := Prod.mk.inj hfile
  refine ⟨hlt.trans_le h.next_le, ?_⟩
  rwa [hgen', hino, h.gen]

/-! ## References -/

theorem held_iff : s.held o = true ↔
    (∃ fd, s.handles.get? fd = some o) ∨ ∃ k, s.dentries.cached k = some (some o) := by
  unfold held DentryCache.cached
  simp only [Bool.or_eq_true, List.contains_iff_mem, List.any_eq_true, decide_eq_true_eq,
    BTreeMap.mem_values, map_eq_some_iff, BTreeMap.get?_eq_some_iff]
  constructor
  · rintro (h | ⟨e, ⟨k, hk⟩, he⟩)
    · exact .inl h
    · exact .inr ⟨k, e, hk, he⟩
  · rintro (h | ⟨k, e, hk, he⟩)
    · exact .inl h
    · exact .inr ⟨e, ⟨k, hk⟩, he⟩

theorem alive_iff : s.alive o = true ↔ s.held o = true ∨ s.inodeCache (s.inodes o).ino = some o := by
  unfold alive
  rw [Bool.or_eq_true, decide_eq_true_eq]

theorem attached_iff : s.attached m = true ↔
    ∃ o, o < s.nextInode ∧ s.alive o = true ∧ (s.inodes o).mapping = some m := by
  unfold attached
  simp only [List.any_eq_true, List.mem_range, Bool.and_eq_true, decide_eq_true_eq]

section

variable (h : Inv s)
include h

theorem Inv.current_of_handle {fd : Fd} (hfd : s.handles.get? fd = some o) : s.Current o :=
  h.current o (alive_iff.mpr (.inl (held_iff.mpr (.inl ⟨fd, hfd⟩))))

theorem Inv.current_of_dentry {k : DentryKey} (hk : s.dentries.cached k = some (some o)) :
    s.Current o :=
  h.current o (alive_iff.mpr (.inl (held_iff.mpr (.inr ⟨k, hk⟩))))

theorem Inv.current_of_cache (ho : s.inodeCache i = some o) :
    s.Current o ∧ (s.inodes o).ino = i := by
  have hino := h.cache_ino i o ho
  refine ⟨h.current o (alive_iff.mpr (.inr ?_)), hino⟩
  rwa [hino]

/-! ## Changes of the references

The tables of references may change in any way that adds only inodes of the newest files. -/

variable {hs : BTreeMap Fd InodeId} {c : DentryCache InodeId}

theorem Inv.holders {ic : Ino → Option InodeId}
    (hhandles : ∀ fd o, hs.get? fd = some o → s.Current o)
    (hdentries : ∀ k o, c.cached k = some (some o) → s.Current o)
    (hcache : ∀ i o, ic i = some o → s.inodeCache i = some o) :
    Stays nobody s { s with dentries := c, handles := hs, inodeCache := ic } where
  inv :=
    { cache_ino := by
        intro i o ho
        exact h.cache_ino i o (hcache i o ho)
      gen_le := h.gen_le
      current := by
        intro o ho
        rcases alive_iff.mp ho with ho | ho
        · rcases held_iff.mp ho with ⟨fd, hfd⟩ | ⟨k, hk⟩
          · exact hhandles fd o hfd
          · exact hdentries k o hk
        · exact (h.current_of_cache (hcache _ o ho)).1
      mapping_file := h.mapping_file
      inode_file := h.inode_file
      registry_ino := h.registry_ino }
  view _ _ := rfl
  gen := rfl
  next_le := le_rfl
  file _ _ := rfl

theorem Inv.setDentries (hc : ∀ k o, c.cached k = some (some o) → s.Current o) :
    Stays nobody s { s with dentries := c } :=
  h.holders (fun _ _ => h.current_of_handle) hc fun _ _ ho => ho

theorem Inv.setHandles (hhs : ∀ fd o, hs.get? fd = some o → s.Current o) :
    Stays nobody s { s with handles := hs } :=
  h.holders hhs (fun _ _ => h.current_of_dentry) fun _ _ ho => ho

theorem Inv.lookup (k : DentryKey) :
    Stays nobody s { s with dentries := (s.dentries.lookup k).2 } := by
  apply h.setDentries
  intro k' o hk'
  rw [DentryCache.cached_lookup] at hk'
  exact h.current_of_dentry hk'

theorem Inv.insertDentry (d : Ino) (n : Name) (child : Option InodeId)
    (hchild : ∀ o, child = some o → s.Current o) : Stays nobody s (s.insertDentry d n child) := by
  apply h.setDentries
  intro k o hk
  rcases s.dentries.put_stores (key d n) child k (some o) hk with ⟨-, hv⟩ | ⟨-, hv⟩
  · exact hchild o hv.symm
  · exact h.current_of_dentry hv

theorem Inv.removeDentry (d : Ino) (n : Name) : Stays nobody s (s.removeDentry d n) := by
  apply h.setDentries
  intro k o hk
  exact h.current_of_dentry (s.dentries.remove_sub (key d n) k _ hk)

theorem Inv.removeCachedInode (i : Ino) : Stays nobody s (s.removeCachedInode i) := by
  apply h.holders (fun _ _ => h.current_of_handle) fun _ _ => h.current_of_dentry
  intro j o ho
  by_cases hj : j = i
  · rw [hj, update_self] at ho
    cases ho
  · rwa [update_of_ne hj] at ho

theorem Inv.insertHandle (ho : s.Current o) (fd : Fd) :
    Stays nobody s { s with handles := s.handles.insert fd o } := by
  apply h.setHandles
  intro fd' o' hfd'
  rw [BTreeMap.get?_insert] at hfd'
  split at hfd'
  · cases hfd'
    exact ho
  · exact h.current_of_handle hfd'

theorem Inv.closeHandle (fd : Fd) : Stays nobody s { s with handles := s.handles.erase fd } := by
  apply h.setHandles
  intro fd' o' hfd'
  rw [BTreeMap.get?_erase] at hfd'
  split at hfd'
  · cases hfd'
  · exact h.current_of_handle hfd'

/-- An inode that is made belongs to the newest file of its number. -/
theorem Inv.getOrCreateInode (i : Ino) : Stays nobody s (s.getOrCreateInode i).2 ∧
      (s.getOrCreateInode i).2.Current (s.getOrCreateInode i).1 := by
  unfold State.getOrCreateInode
  cases hc : s.inodeCache i with
  | some o => exact ⟨Stays.refl h, (h.current_of_cache hc).1⟩
  | none =>
    have hold : ∀ o, o < s.nextInode →
        update s.inodes s.nextInode ⟨i, s.disk.isDir i, none, s.gen i⟩ o = s.inodes o :=
      fun o ho => update_of_ne ho.ne _ _
    have hnew : update s.inodes s.nextInode ⟨i, s.disk.isDir i, none, s.gen i⟩ s.nextInode =
        ⟨i, s.disk.isDir i, none, s.gen i⟩ := update_self ..
    refine ⟨⟨⟨?_, ?_, ?_, ?_, ?_, h.registry_ino⟩, fun _ _ => rfl, rfl, Nat.le_succ _, ?_⟩, ?_⟩
    · intro j o ho
      dsimp only at ho ⊢
      by_cases hj : j = i
      · rw [hj, update_self] at ho
        cases ho
        rw [hnew, hj]
      · rw [update_of_ne hj] at ho
        rw [hold o (h.current_of_cache ho).1.1]
        exact h.cache_ino j o ho
    · intro o ho
      dsimp only at ho ⊢
      rcases Nat.lt_succ_iff_lt_or_eq.mp ho with ho | rfl
      · rw [hold o ho]
        exact h.gen_le o ho
      · rw [hnew]
    · intro o ho
      unfold State.Current
      dsimp only
      -- an old reference, or the entry that the inode cache has got
      have hcases : o = s.nextInode ∨ s.Current o := by
        rcases alive_iff.mp ho with ho | ho
        · exact .inr (h.current o (alive_iff.mpr (.inl ho)))
        dsimp only at ho
        by_cases hj : (update s.inodes s.nextInode ⟨i, s.disk.isDir i, none, s.gen i⟩ o).ino = i
        · rw [hj, update_self] at ho
          exact .inl (some.inj ho).symm
        · rw [update_of_ne hj] at ho
          exact .inr (h.current_of_cache ho).1
      rcases hcases with rfl | hcur
      · rw [hnew]
        exact ⟨Nat.lt_succ_self _, rfl⟩
      · rw [hold o hcur.1]
        exact ⟨hcur.1.trans (Nat.lt_succ_self _), hcur.2⟩
    · intro o m ho hm
      dsimp only at ho hm ⊢
      rcases Nat.lt_succ_iff_lt_or_eq.mp ho with ho | rfl
      · rw [hold o ho] at hm ⊢
        exact h.mapping_file o m ho hm
      · rw [hnew] at hm
        cases hm
    · intro m hm
      obtain ⟨hlt, hfile⟩ := h.inode_file m hm
      dsimp only
      rw [hold _ hlt]
      exact ⟨hlt.trans (Nat.lt_succ_self _), hfile⟩
    · intro o ho
      dsimp only
      rw [hold o ho]
    · unfold State.Current
      dsimp only
      rw [hnew]
      exact ⟨Nat.lt_succ_self _, rfl⟩

/-- A lookup finds an inode of the newest file of its number. -/
theorem Inv.find (d : Ino) (n : Name) :
    Stays nobody s (s.find d n).2 ∧ (s.find d n).2.disk = s.disk ∧
      ∀ o, (s.find d n).1 = some o → (s.find d n).2.Current o := by
  have hlookup := h.lookup (key d n)
  have hresult := s.dentries.lookup_result (key d n)
  unfold State.find
  rw [← Prod.mk.eta (p := s.dentries.lookup (key d n))]
  cases hr : (s.dentries.lookup (key d n)).1 with
  | positive o =>
    refine ⟨hlookup, rfl, ?_⟩
    rintro o' ⟨⟩
    rw [hr] at hresult
    cases hk : s.dentries.cached (key d n) with
    | none =>
      rw [hk] at hresult
      cases hresult
    | some r =>
      cases r with rw [hk] at hresult
      | none =>
        cases hresult
      | some child =>
        cases hresult
        exact h.current_of_dentry hk
  | negative => exact ⟨hlookup, rfl, fun _ ho => by cases ho⟩
  | miss =>
    cases s.disk.find d n with
    | none =>
      exact ⟨hlookup.trans (hlookup.inv.insertDentry d n none fun _ ho => by cases ho), rfl,
        fun _ ho => by cases ho⟩
    | some i =>
      dsimp only
      obtain ⟨hmade, hcur⟩ := hlookup.inv.getOrCreateInode i
      have hinserted := hmade.inv.insertDentry d n (some (State.getOrCreateInode _ i).1) fun o ho => by
        cases ho
        exact hcur
      refine ⟨(hlookup.trans hmade).trans hinserted, ?_, ?_⟩
      · unfold State.insertDentry State.getOrCreateInode
        split <;> rfl
      · rintro o ⟨⟩
        exact hinserted.current hcur

end

/-! ## Changes of the files -/

theorem State.Current.file_eq (ho : s.Current o) :
    (s.inodes o).file = ((s.inodes o).ino, s.gen (s.inodes o).ino) := by
  unfold Inode.file
  rw [ho.2]

/-- The numbers that lose their last link. -/
def LosesLink (s : State) (disk : Disk) (f : FileId) : Prop :=
  s.gen f.1 = f.2 ∧ s.disk.links f.1 ≠ 0 ∧ disk.links f.1 = 0

theorem Inv.setDisk (h : Inv s) (disk : Disk) : Stays (LosesLink s disk) s (s.setDisk disk) where
  inv := { h with }
  view := by
    intro f hf
    unfold State.view State.setDisk
    dsimp only
    by_cases hgen : s.gen f.1 = f.2
    · rw [if_neg fun hl => hf ⟨hgen, hl⟩]
    · rw [if_neg hgen, if_neg hgen]
  gen := rfl
  next_le := le_rfl
  file _ _ := rfl

/-- Giving an inode another mapping changes nothing else of it. -/
theorem update_mapping (inodes : InodeId → Inode) (o o' : InodeId) (x : Option MappingId) :
    update inodes o { inodes o with mapping := x } o' =
      { inodes o' with mapping := if o' = o then x else (inodes o').mapping } := by
  rcases eq_or_ne o' o with rfl | ho
  · rw [update_self, if_pos rfl]
  · rw [update_of_ne ho, if_neg ho]

section

variable (h : Inv s)

include h

/-- The mapping of an inode, the pages of a mapping and its inode, and the registry may change together,
within one file. -/
theorem Inv.setMapping {x : Option MappingId} {p : PageMapping}
    {registry : Ino → Option MappingId} (ho : o < s.nextInode) (hm : m < s.nextMapping)
    (hfile : (s.mappings m).file = (s.inodes o).file) (hx : ∀ m', x = some m' → m' = m)
    (hp : p.file = (s.inodes o).file) (hinode : p.inode = (s.mappings m).inode ∨ p.inode = o)
    (hregistry : ∀ i m', registry i = some m' → s.registry i = some m') :
    Stays (· = (s.inodes o).file) s
      { s with
        inodes := update s.inodes o { s.inodes o with mapping := x }
        mappings := update s.mappings m p
        registry := registry } := by
  have hfiles : ∀ m', (update s.mappings m p m').file = (s.mappings m').file := by
    intro m'
    by_cases hm' : m' = m
    · rw [hm', update_self, hp, hfile]
    · rw [update_of_ne hm']
  refine ⟨⟨?_, ?_, ?_, ?_, ?_, ?_⟩, ?_, rfl, le_rfl, ?_⟩
  · intro i o' ho'
    dsimp only
    rw [update_mapping]
    exact h.cache_ino i o' ho'
  · intro o' ho'
    dsimp only
    rw [update_mapping]
    exact h.gen_le o' ho'
  · intro o' ho'
    unfold State.Current
    dsimp only
    rw [update_mapping]
    apply h.current
    rcases alive_iff.mp ho' with ho' | ho'
    · exact alive_iff.mpr (.inl ho')
    · dsimp only at ho'
      rw [update_mapping] at ho'
      exact alive_iff.mpr (.inr ho')
  · intro o' m' ho' hm'
    dsimp only at hm' ⊢
    rw [update_mapping] at hm' ⊢
    rw [hfiles]
    by_cases hoo : o' = o
    · rw [if_pos hoo] at hm'
      rw [hx m' hm', hoo]
      exact ⟨hm, hfile⟩
    · rw [if_neg hoo] at hm'
      exact h.mapping_file o' m' ho' hm'
  · intro m' hm'
    dsimp only
    rw [hfiles, update_mapping]
    by_cases hmm : m' = m
    · rw [hmm, update_self]
      rcases hinode with hinode | hinode
      · rw [hinode]
        exact h.inode_file m hm
      · rw [hinode]
        exact ⟨ho, hfile.symm⟩
    · rw [update_of_ne hmm]
      exact h.inode_file m' hm'
  · intro i m' hm'
    rw [hfiles]
    exact h.registry_ino i m' (hregistry i m' hm')
  · intro f hf
    unfold view
    congr 1
    funext m'
    dsimp only
    rw [hfiles]
    by_cases hmm : m' = m
    · rw [hmm, hfile, if_neg fun hh => hf hh.2.symm, if_neg fun hh => hf hh.2.symm]
    · rw [update_of_ne hmm]
  · intro o' ho'
    dsimp only
    rw [update_mapping]
    rfl

theorem Inv.discardInode (ho : o < s.nextInode) :
    Stays (· = (s.inodes o).file) s (s.discardInode o) := by
  unfold State.discardInode
  cases hm : (s.inodes o).mapping with
  | none => exact Stays.refl h
  | some m =>
    obtain ⟨hlt, hfile⟩ := h.mapping_file o m ho hm
    apply h.setMapping ho hlt hfile
    · intro m' hm'
      cases hm'
    · exact hfile
    · exact .inl rfl
    · intro i m' hm'
      by_cases hi : i = (s.inodes o).ino
      · rw [hi, update_self] at hm'
        cases hm'
      · rwa [update_of_ne hi] at hm'

/-! ## Calls on mappings -/

/-- A mapping that can be found by a number belongs to the newest file of the number. -/
theorem Inv.registered_file (hr : s.registered i = some m) :
    m < s.nextMapping ∧ (s.mappings m).file = (i, s.gen i) := by
  obtain ⟨hreg, hatt⟩ := filter_eq_some_iff.mp hr
  obtain ⟨hlt, hino⟩ := h.registry_ino i m hreg
  obtain ⟨o, ho, halive, hm⟩ := attached_iff.mp hatt
  have hfile := (h.mapping_file o m ho hm).2
  have hcur := (h.current o halive).file_eq
  rw [hfile] at hino
  refine ⟨hlt, ?_⟩
  rw [hfile, hcur]
  have hi : (s.inodes o).ino = i := hino
  rw [hi]

theorem Inv.dropRegistration (i : Ino) :
    Stays nobody s { s with registry := update s.registry i none } where
  inv :=
    { h with
      registry_ino := by
        intro j m hm
        dsimp only at hm
        by_cases hj : j = i
        · rw [hj, update_self] at hm
          cases hm
        · rw [update_of_ne hj] at hm
          exact h.registry_ino j m hm }
  view _ _ := rfl
  gen := rfl
  next_le := le_rfl
  file _ _ := rfl

/-- The state of `registerMapping` when no mapping is registered. -/
theorem Inv.newMapping (ho : s.Current o) : Stays (· = (s.inodes o).file) s { s with
        mappings := update s.mappings s.nextMapping
          ⟨.new (s.contents (s.inodes o).ino), o, (s.inodes o).file⟩
        nextMapping := s.nextMapping + 1
        registry := update s.registry (s.inodes o).ino (some s.nextMapping) } := by
  have hold : ∀ m, m < s.nextMapping → update s.mappings s.nextMapping
      ⟨.new (s.contents (s.inodes o).ino), o, (s.inodes o).file⟩ m = s.mappings m :=
    fun m hm => update_of_ne hm.ne _ _
  have hnew : update s.mappings s.nextMapping
      ⟨.new (s.contents (s.inodes o).ino), o, (s.inodes o).file⟩ s.nextMapping =
        ⟨.new (s.contents (s.inodes o).ino), o, (s.inodes o).file⟩ := update_self ..
  refine ⟨⟨h.cache_ino, h.gen_le, h.current, ?_, ?_, ?_⟩, ?_, rfl, le_rfl, fun _ _ => rfl⟩
  · intro o' m ho' hm
    obtain ⟨hlt, hfile⟩ := h.mapping_file o' m ho' hm
    dsimp only
    rw [hold m hlt]
    exact ⟨hlt.trans (Nat.lt_succ_self _), hfile⟩
  · intro m hm
    dsimp only at hm ⊢
    rcases Nat.lt_succ_iff_lt_or_eq.mp hm with hm | rfl
    · rw [hold m hm]
      exact h.inode_file m hm
    · rw [hnew]
      exact ⟨ho.1, rfl⟩
  · intro i m hm
    dsimp only at hm ⊢
    by_cases hi : i = (s.inodes o).ino
    · rw [hi, update_self] at hm
      cases hm
      rw [hnew, hi]
      exact ⟨Nat.lt_succ_self _, rfl⟩
    · rw [update_of_ne hi] at hm
      obtain ⟨hlt, hino⟩ := h.registry_ino i m hm
      rw [hold m hlt]
      exact ⟨hlt.trans (Nat.lt_succ_self _), hino⟩
  · intro f hf
    unfold view
    congr 1
    funext m
    rcases lt_trichotomy m s.nextMapping with hm | rfl | hm
    · simp only [hold m hm, hm, Nat.lt_succ_of_lt hm]
    · rw [if_neg fun hh => hf (hh.2.symm.trans (congrArg PageMapping.file hnew)),
        if_neg fun hh => lt_irrefl _ hh.1]
    · rw [if_neg fun hh => absurd (Nat.lt_succ_iff.mp hh.1) (not_le.mpr hm),
        if_neg fun hh => absurd hh.1 (not_lt.mpr hm.le)]

theorem Inv.adoptMapping (ho : o < s.nextInode) (hm : m < s.nextMapping)
    (hfile : (s.mappings m).file = (s.inodes o).file) :
    Stays (· = (s.inodes o).file) s (s.adoptMapping o m) := by
  apply h.setMapping ho hm hfile
  · intro m' hm'
    exact (some.inj hm').symm
  · exact hfile
  · dsimp only
    split
    · exact .inl rfl
    · exact .inr rfl
  · exact fun _ _ hm' => hm'

/-- `get_or_create_mapping` gives a mapping of the inode's own file, one in the view or a new one. -/
theorem Inv.mappingForInode (ho : s.Current o) :
    Stays (· = (s.inodes o).file) s (s.mappingForInode o).2 ∧
    (s.mappingForInode o).1 < (s.mappingForInode o).2.nextMapping ∧
    ((s.mappingForInode o).2.mappings (s.mappingForInode o).1).file = (s.inodes o).file ∧
    (s.mappingForInode o).2.contents = s.contents ∧
    (s.view (s.inodes o).file).Maps (s.contents (s.inodes o).ino)
      { ((s.mappingForInode o).2.mappings (s.mappingForInode o).1).cache with
        backing := s.contents (s.inodes o).ino } := by
  unfold State.mappingForInode
  cases hm : (s.inodes o).mapping with
  | some m =>
    obtain ⟨hlt, hfile⟩ := h.mapping_file o m ho.1 hm
    have hview : (s.view (s.inodes o).file).caches m = some (s.mappings m).cache := if_pos ⟨hlt, hfile⟩
    exact ⟨Stays.refl h, hlt, hfile, rfl, .cached hview⟩
  | none =>
    unfold registerMapping
    dsimp only
    cases hr : s.registered (s.inodes o).ino with
    | some m =>
      obtain ⟨hlt, hfile⟩ := h.registered_file hr
      rw [← ho.file_eq] at hfile
      have hview : (s.view (s.inodes o).file).caches m = some (s.mappings m).cache := if_pos ⟨hlt, hfile⟩
      refine ⟨h.adoptMapping ho.1 hlt hfile, hlt, ?_, rfl, ?_⟩
      · unfold State.adoptMapping
        dsimp only
        rwa [update_self]
      · unfold State.adoptMapping
        dsimp only
        rw [update_self]
        exact .raised hview
    | none =>
      have hnew := h.newMapping ho
      refine ⟨hnew.trans (hnew.inv.adoptMapping ho.1 (Nat.lt_succ_self _) ?_), Nat.lt_succ_self _, ?_,
        rfl, ?_⟩
      · dsimp only
        rw [update_self]
      · unfold State.adoptMapping
        dsimp only
        rw [update_self, update_self]
      · unfold State.adoptMapping
        dsimp only
        rw [update_self, update_self]
        -- the size of a new mapping is that of the file already
        have hsize : Mapping.new (s.contents (s.inodes o).ino) =
            { Mapping.new (s.contents (s.inodes o).ino) with
              size := max (Mapping.new (s.contents (s.inodes o).ino)).size
                (s.contents (s.inodes o).ino).len
              backing := s.contents (s.inodes o).ino } := by
          unfold Mapping.new
          rw [max_self]
        rw [← hsize]
        exact .fresh

end

variable {fuel : ℕ} {frames : Frames} {op : PageCache.Op} {bytes : Slice UInt8} {fd : Fd}

/-- Giving a mapping other pages changes nothing else of it. -/
theorem update_cache (mappings : MappingId → PageMapping) (m m' : MappingId) (c : Mapping) :
    update mappings m { mappings m with cache := c } m' =
      { mappings m' with cache := if m' = m then c else (mappings m').cache } := by
  rcases eq_or_ne m' m with rfl | hm
  · rw [update_self, if_pos rfl]
  · rw [update_of_ne hm, if_neg hm]

/-- A call on a mapping works on the pages and the contents of the mapping's file. -/
theorem Inv.onMapping (h : Inv s) (hm : m < s.nextMapping)
    (hcall : s.onMapping m fuel frames op = some (s', bytes)) :
    Stays (· = (s.mappings m).file) s s' ∧ s.gen (s.mappings m).file.1 = (s.mappings m).file.2 ∧
      (Mapping.exec { (s.mappings m).cache with backing := s.contents (s.mappings m).file.1 } fuel frames
        op).map Prod.snd = some bytes := by
  unfold State.onMapping at hcall
  rcases ite_none_right_eq_some.mp hcall with ⟨halive, hcall⟩
  obtain ⟨result, hexec, hresult⟩ := map_eq_some_iff.mp hcall
  cases hresult
  obtain ⟨-, hfile⟩ := h.inode_file m hm
  have hcur := (h.current _ halive).file_eq
  have hino : (s.inodes (s.mappings m).inode).ino = (s.mappings m).file.1 := by
    rw [← hfile]
    rfl
  have hgen : s.gen (s.mappings m).file.1 = (s.mappings m).file.2 := by
    rw [← hfile, hcur]
  refine ⟨⟨⟨h.cache_ino, h.gen_le, h.current, ?_, ?_, ?_⟩, ?_, rfl, le_rfl, fun _ _ => rfl⟩, hgen, ?_⟩
  · intro o m' ho hm'
    dsimp only
    rw [update_cache]
    exact h.mapping_file o m' ho hm'
  · intro m' hm'
    dsimp only
    rw [update_cache]
    exact h.inode_file m' hm'
  · intro i m' hm'
    dsimp only
    rw [update_cache]
    exact h.registry_ino i m' hm'
  · intro f hf
    unfold view
    dsimp only
    congr 1
    · by_cases hi : f.1 = (s.inodes (s.mappings m).inode).ino
      · -- the number is that of the mapping's file, which is another generation
        have hne : s.gen f.1 ≠ f.2 := by
          intro hgen'
          apply hf
          rw [hi, hino] at hgen'
          exact Prod.ext (hi.trans hino) (hgen'.symm.trans hgen)
        rw [if_neg hne, if_neg hne]
      · rw [update_of_ne hi]
    · funext m'
      simp only [update_cache]
      by_cases hmm : m' = m
      · rw [hmm, if_neg fun hh => hf hh.2.symm, if_neg fun hh => hf hh.2.symm]
      · rw [if_neg hmm]
  · rw [← hino, hexec]
    rfl

theorem Inv.syncInode (h : Inv s) (hcall : s.syncInode i fuel frames = some (s', bytes)) :
    Stays (· = (i, s.gen i)) s s' ∧ (s.view (i, s.gen i)).Gives fuel frames .sync bytes := by
  unfold State.syncInode at hcall
  have hcontent : (s.view (i, s.gen i)).content = some (s.contents i) := if_pos rfl
  cases hr : s.registered i with rw [hr] at hcall
  | some m =>
    obtain ⟨hlt, hfile⟩ := h.registered_file hr
    obtain ⟨hstays, -, hbytes⟩ := h.onMapping hlt hcall
    rw [hfile] at hstays hbytes
    have hview : (s.view (i, s.gen i)).caches m = some (s.mappings m).cache := if_pos ⟨hlt, hfile⟩
    exact ⟨hstays, _, _, hcontent, .cached hview, hbytes⟩
  | none =>
    cases hcall
    exact ⟨(h.dropRegistration i).of_nobody, _, _, hcontent, .fresh, by cases fuel <;> rfl⟩

/-- A call through a handle works on the handle's own file. -/
theorem Inv.access (h : Inv s) (hfd : s.handles.get? fd = some o)
    (hcall : s.access fd fuel frames op = some (s', bytes)) :
    Stays (· = (s.inodes o).file) s s' ∧
      (bytes = noBytes ∨ (s.view (s.inodes o).file).Gives fuel frames op bytes) := by
  have hcur := h.current_of_handle hfd
  unfold State.access at hcall
  rw [hfd] at hcall
  dsimp only at hcall
  split at hcall
  · cases hcall
    exact ⟨Stays.refl h, .inl rfl⟩
  have hcontent : (s.view (s.inodes o).file).content = some (s.contents (s.inodes o).ino) :=
    if_pos hcur.2.symm
  have hmapped : (s.mappingForInode o).2.onMapping (s.mappingForInode o).1 fuel frames op =
      some (s', bytes) → Stays (· = (s.inodes o).file) s s' ∧
        (bytes = noBytes ∨ (s.view (s.inodes o).file).Gives fuel frames op bytes) := by
    intro hcall
    obtain ⟨hstays, hlt, hfile, hcontents, hmaps⟩ := h.mappingForInode hcur
    obtain ⟨hstays', -, hbytes⟩ := hstays.inv.onMapping hlt hcall
    rw [hfile, hcontents] at hbytes
    rw [hfile] at hstays'
    exact ⟨hstays.trans hstays', .inr ⟨_, _, hcontent, hmaps, hbytes⟩⟩
  cases op with
  | sync =>
    rw [hcur.file_eq]
    obtain ⟨hstays, hgives⟩ := h.syncInode hcall
    exact ⟨hstays, .inr hgives⟩
  | reclaim => cases hcall
  | read offset len | write offset buf | truncate newSize | fallocate offset len
  | load first count => exact hmapped hcall

end CosmOS.Vfs.OpenFiles
