import CosmOS.AreaEdit

/-!
# Mm.Vma — the areas of a user address space

The area side of `MemorySet` (`mm/memory_set.rs`): which pages belong to which `Vma`, and what the
edits do to that.  Addresses are page numbers.  Page tables, frames and TLB work are not here; whether
an eager mapping gets its frames is an argument.  `merge_vma_around` and `munmap_deferred` are those of
`AreaEdit`; the pages that an area owns are in `Mm.Munmap`.

Every edit gets two lemmas: what it does to each page (`infoAt`), and that it leaves an area alone
which no other area can be joined with.
-/

namespace CosmOS.Mm

open List

inductive VmaKind where
  | kernel
  | elf
  | heap
  | userStack (tid : ℕ)
  | trapContext (tid : ℕ)
  | anonymous
  | sharedAnonymous
  | file
  | vdso
deriving DecidableEq

structure MapPermission where
  r : Bool
  w : Bool
  x : Bool
  u : Bool
deriving DecidableEq

/-- `FileVma`: an open file, the file page of the first page of the area, and `MAP_SHARED`. -/
structure FileVma where
  file : ℕ
  pgoff : ℕ
  shared : Bool
deriving DecidableEq

/-- What a `Vma` says about its pages.  The map type is `Framed` in user space. -/
structure VmaInfo where
  mapPerm : MapPermission
  kind : VmaKind
  file : Option FileVma
  sharedAnon : Bool
deriving DecidableEq

/-- The information of the area that is left when the first `n` pages of an area go. -/
def VmaInfo.advance (n : ℕ) (info : VmaInfo) : VmaInfo :=
  { info with file := info.file.map fun f => { f with pgoff := f.pgoff + n } }

theorem VmaInfo.advance_add (n k : ℕ) (info : VmaInfo) :
    info.advance (n + k) = (info.advance n).advance k := by
  simp only [advance, Option.map_map]
  congr 2
  funext f
  simp [Nat.add_assoc]

theorem VmaInfo.advance_of_no_file {info : VmaInfo} (h : info.file = none) (n : ℕ) :
    info.advance n = info := by
  cases info
  cases h
  rfl

abbrev Vma := Area VmaInfo

abbrev Vmas := AreaMap VmaInfo

/-- `MmError`, as far as an edit of the areas can give it. -/
inductive MmError where
  | outOfMemory
  | conflict
  | permissionDenied
deriving DecidableEq

namespace Vma

def isUserAccessible (vma : Vma) : Bool := vma.attr.mapPerm.u

def supportsLazyUserFault (vma : Vma) : Bool :=
  isUserAccessible vma && !vma.attr.sharedAnon &&
    match vma.attr.kind with
    | .anonymous | .sharedAnonymous | .heap | .userStack _ => true
    | _ => false

def shouldEagerMap (vma : Vma) : Bool := vma.attr.file.isNone && !supportsLazyUserFault vma

def canMergeWith (vma other : Vma) : Bool :=
  vma.stop = other.start && vma.attr.mapPerm = other.attr.mapPerm &&
    vma.attr.kind = other.attr.kind && vma.attr.sharedAnon = other.attr.sharedAnon &&
    vma.attr.file.isNone && other.attr.file.isNone

theorem canMergeWith_iff {vma other : Vma} : canMergeWith vma other ↔
      vma.stop = other.start ∧ other.attr = vma.attr ∧ vma.attr.file = none := by
  simp only [canMergeWith, Bool.and_eq_true, decide_eq_true_eq, Option.isNone_iff_eq_none]
  constructor
  · rintro ⟨⟨⟨⟨⟨hadj, hperm⟩, hkind⟩, hshared⟩, hfile⟩, hfile'⟩
    refine ⟨hadj, ?_, hfile⟩
    rcases vma with ⟨_, _, ⟨_, _, _, _⟩⟩
    rcases other with ⟨_, _, ⟨_, _, _, _⟩⟩
    simp_all
  · rintro ⟨hadj, hattr, hfile⟩
    simp [hadj, hattr, hfile]

/-- What the area says about a page: `file_page_index` counts from its start. -/
def infoOn (vma : Vma) (vpn : ℕ) : VmaInfo := vma.attr.advance (vpn - vma.start)

@[simp]
theorem infoOn_kind (vma : Vma) (vpn : ℕ) : (vma.infoOn vpn).kind = vma.attr.kind := rfl

end Vma

/-- How areas are taken apart and merged: `split_off` moves the file offset along, and `absorb` keeps the
attributes. -/
def vmaEdit : AreaEdit VmaInfo Empty where
  mayTake := Vma.isUserAccessible
  before _ vma := vma.attr
  behind splitVpn vma := vma.attr.advance (splitVpn - vma.start)
  taken _ _ _ := []
  canJoin := Vma.canMergeWith
  joined vma _ := vma.attr

theorem Vma.infoOn_behind (vma : Vma) {n stop vpn : ℕ} (hn : vma.start ≤ n) (hvpn : n ≤ vpn) :
    Vma.infoOn ⟨n, stop, vma.attr.advance (n - vma.start)⟩ vpn = vma.infoOn vpn := by
  rw [infoOn, infoOn, ← VmaInfo.advance_add]
  congr 1
  simp only
  omega

theorem Vma.infoOn_of_canMergeWith {vma other : Vma} {start stop : ℕ} (h : canMergeWith vma other)
    (vpn : ℕ) : Vma.infoOn ⟨start, stop, vma.attr⟩ vpn = vma.infoOn vpn ∧
      Vma.infoOn ⟨start, stop, vma.attr⟩ vpn = other.infoOn vpn := by
  obtain ⟨-, hattr, hfile⟩ := canMergeWith_iff.mp h
  simp only [infoOn, hattr, VmaInfo.advance_of_no_file hfile, and_self]

theorem vmaEdit_lawful : vmaEdit.Lawful (fun _ => True) Vma.infoOn fun _ => none where
  before vma n _ _ _ := ⟨trivial, fun _ _ _ => rfl⟩
  behind vma n _ hn _ := ⟨trivial, fun _ hvpn _ => Vma.infoOn_behind vma hn hvpn⟩
  taken := by simp [vmaEdit]
  adjacent vma other h := (Vma.canMergeWith_iff.mp h).1
  joined vma other _ _ _ _ h := ⟨trivial, fun vpn =>
    ⟨fun _ => (Vma.infoOn_of_canMergeWith h vpn).1, fun _ => (Vma.infoOn_of_canMergeWith h vpn).2⟩⟩

/-- A mapping that `sys_mmap` asks for. -/
inductive MmapRequest where
  | anonymous (perm : MapPermission) (shared : Bool)
  | file (perm : MapPermission) (file pgoff : ℕ) (shared : Bool)

/-- `Vma::new_anonymous`, `Vma::new_shared_anonymous` and `Vma::new_file`. -/
def MmapRequest.vmaInfo : MmapRequest → VmaInfo
  | .anonymous perm false => ⟨perm, .anonymous, none, false⟩
  | .anonymous perm true => ⟨perm, .sharedAnonymous, none, true⟩
  | .file perm f pgoff shared => ⟨perm, .file, some ⟨f, pgoff, shared⟩, false⟩

namespace Vmas

/-! ## Looking up -/

/-- What the address space says about a page. -/
def infoAt (vmas : Vmas) (vpn : ℕ) : Option VmaInfo := vmas.view Vma.infoOn vpn

def overlapsVmaRange (vmas : Vmas) (startVpn endVpn : ℕ) : Bool :=
  if endVpn ≤ startVpn then true
  else
    (vmas.floor? startVpn).any (fun prev => startVpn < prev.stop) ||
      (vmas.ceil? startVpn).any fun next => next.start < endVpn

variable {vmas vmas' : Vmas} {vma area : Vma} {vpn startVpn endVpn : ℕ}

/-- The test looks at two neighbours and is exact. -/
theorem overlapsVmaRange_eq_false_iff :
    overlapsVmaRange vmas startVpn endVpn = false ↔ startVpn < endVpn ∧ vmas.Free startVpn endVpn := by
  unfold overlapsVmaRange
  split
  next hempty =>
    exact ⟨nofun, fun h => absurd h.1 (by omega)⟩
  next hpos =>
    have hlt : startVpn < endVpn := by omega
    rw [AreaMap.free_iff_neighbours hlt]
    cases vmas.floor? startVpn <;> cases vmas.ceil? startVpn <;> simp [hlt]

/-! ## Adding areas -/

/-- `insert_vma`.  `frames` says whether the frames of an eager mapping can be had. -/
def insertVma (userSpaceEnd : ℕ) (vmas : Vmas) (vma : Vma) (frames : Bool) : Except MmError Vmas :=
  if vma.isUserAccessible && userSpaceEnd < vma.stop then .error .permissionDenied
  else if overlapsVmaRange vmas vma.start vma.stop then .error .conflict
  else if vma.shouldEagerMap && !frames then .error .outOfMemory
  else .ok (vmas.put vma)

def insertVmaEager (vmas : Vmas) (vma : Vma) (frames : Bool) : Except MmError Vmas :=
  if overlapsVmaRange vmas vma.start vma.stop then .error .conflict
  else if !frames then .error .outOfMemory
  else .ok (vmas.put vma)

def registerVmaMetadata (vmas : Vmas) (vma : Vma) : Except MmError Vmas :=
  if overlapsVmaRange vmas vma.start vma.stop then .error .conflict else .ok (vmas.put vma)

/-- What all three do when they do anything. -/
structure Inserted (vmas : Vmas) (vma : Vma) (vmas' : Vmas) : Prop where
  pos : vma.start < vma.stop
  free : vmas.Free vma.start vma.stop
  eq : vmas' = vmas.put vma

theorem Inserted.of_not_overlaps (h : ¬ overlapsVmaRange vmas vma.start vma.stop) :
    Inserted vmas vma (vmas.put vma) := by
  obtain ⟨hpos, hfree⟩ := overlapsVmaRange_eq_false_iff.mp (by simpa using h)
  exact ⟨hpos, hfree, rfl⟩

variable {frames : Bool} {userSpaceEnd : ℕ} {request : MmapRequest}

theorem insertVma_ok (h : insertVma userSpaceEnd vmas vma frames = .ok vmas') : Inserted vmas vma vmas' := by
  unfold insertVma at h
  split at h
  · cases h
  split at h
  · cases h
  rename_i hfree
  split at h
  · cases h
  · cases h
    exact .of_not_overlaps hfree

theorem insertVmaEager_ok (h : insertVmaEager vmas vma frames = .ok vmas') :
    Inserted vmas vma vmas' := by
  unfold insertVmaEager at h
  split at h
  · cases h
  rename_i hfree
  split at h
  · cases h
  · cases h
    exact .of_not_overlaps hfree

theorem registerVmaMetadata_ok (h : registerVmaMetadata vmas vma = .ok vmas') :
    Inserted vmas vma vmas' := by
  unfold registerVmaMetadata at h
  split at h
  · cases h
  next hfree =>
    cases h
    exact .of_not_overlaps hfree

/-- Where there is room, only frames can be missing. -/
theorem insertVma_of_free (userSpaceEnd : ℕ) (frames : Bool) (hpos : vma.start < vma.stop)
    (hfree : vmas.Free vma.start vma.stop) (hend : vma.isUserAccessible → vma.stop ≤ userSpaceEnd) :
    insertVma userSpaceEnd vmas vma frames = .ok (vmas.put vma) ∨
      insertVma userSpaceEnd vmas vma frames = .error .outOfMemory ∧ frames = false := by
  have hroom : overlapsVmaRange vmas vma.start vma.stop = false :=
    overlapsVmaRange_eq_false_iff.mpr ⟨hpos, hfree⟩
  have hperm : ¬ (vma.isUserAccessible && decide (userSpaceEnd < vma.stop)) := by
    simpa using hend
  unfold insertVma
  rw [if_neg hperm, hroom]
  cases frames <;> cases vma.shouldEagerMap <;> simp

theorem insertVmaEager_of_free (frames : Bool) (hpos : vma.start < vma.stop)
    (hfree : vmas.Free vma.start vma.stop) :
    insertVmaEager vmas vma frames = .ok (vmas.put vma) ∨
      insertVmaEager vmas vma frames = .error .outOfMemory ∧ frames = false := by
  have hroom : overlapsVmaRange vmas vma.start vma.stop = false :=
    overlapsVmaRange_eq_false_iff.mpr ⟨hpos, hfree⟩
  unfold insertVmaEager
  rw [hroom]
  cases frames <;> simp

theorem Inserted.mem_iff (h : Inserted vmas vma vmas') {other : Vma} :
    other ∈ vmas' ↔ other = vma ∨ other ∈ vmas := by
  rw [h.eq, AreaMap.mem_put vma h.free, and_iff_left h.pos]

theorem Inserted.infoAt (h : Inserted vmas vma vmas') :
    infoAt vmas' vpn = if vma.Contains vpn then some (vma.infoOn vpn) else infoAt vmas vpn := by
  rw [h.eq]
  exact AreaMap.view_put vma h.free

/-! ## Joining areas -/

/-- No page outside the area is of the area's kind. -/
def Alone (vmas : Vmas) (vma : Vma) : Prop :=
  ∀ vpn info, infoAt vmas vpn = some info → info.kind = vma.attr.kind → vma.Contains vpn

/-- An edit that shows on no page, and on no area that is alone. -/
structure SamePages (vmas vmas' : Vmas) : Prop where
  infoAt : ∀ vpn, infoAt vmas' vpn = infoAt vmas vpn
  keeps : ∀ vma, vma ∈ vmas → Alone vmas vma → vma ∈ vmas'

theorem SamePages.refl (vmas : Vmas) : SamePages vmas vmas := ⟨fun _ => rfl, fun _ h _ => h⟩

theorem Alone.of_infoAt (h : Alone vmas vma) (hsub : ∀ vpn info, Vmas.infoAt vmas' vpn = some info →
    Vmas.infoAt vmas vpn = some info) : Alone vmas' vma :=
  fun vpn info hinfo => h vpn info (hsub vpn info hinfo)

theorem SamePages.trans {vmas'' : Vmas} (h : SamePages vmas vmas') (h' : SamePages vmas' vmas'') :
    SamePages vmas vmas'' where
  infoAt vpn := (h'.infoAt vpn).trans (h.infoAt vpn)
  keeps vma hmem halone := by
    refine h'.keeps vma (h.keeps vma hmem halone) (halone.of_infoAt fun vpn info hinfo => ?_)
    rwa [h.infoAt] at hinfo

theorem infoAt_of_mem (hmem : vma ∈ vmas) (hin : vma.Contains vpn) :
    infoAt vmas vpn = some (vma.infoOn vpn) :=
  AreaMap.view_of_mem hmem hin

/-- Areas that pass `can_merge_with` may be joined: neither of them was alone. -/
theorem SamePages.join {left right : Vma} (hleft : left ∈ vmas) (hright : right ∈ vmas)
    (h : Vma.canMergeWith left right) : SamePages vmas (vmas.join left right left.attr) := by
  obtain ⟨hadj, hattr, hfile⟩ := Vma.canMergeWith_iff.mp h
  have hlpos := AreaMap.start_lt_stop hleft
  have hrpos := AreaMap.start_lt_stop hright
  constructor
  · intro vpn
    exact AreaMap.view_join hleft hright hadj (fun _ => (Vma.infoOn_of_canMergeWith h vpn).1)
      fun _ => (Vma.infoOn_of_canMergeWith h vpn).2
  intro vma hmem halone
  refine (AreaMap.mem_join hleft hright hadj).mpr (.inr ⟨hmem, ?_, ?_⟩)
  · rintro rfl
    have hin := halone right.start _ (infoAt_of_mem hright ⟨Nat.le_refl _, hrpos⟩)
      (by simp [hattr])
    exact absurd hin.2 (by omega)
  · rintro rfl
    have hin := halone left.start _ (infoAt_of_mem hleft ⟨Nat.le_refl _, hlpos⟩)
      (by simp [hattr])
    exact absurd hin.1 (by omega)

def mergeVmaAround (vmas : Vmas) (key : ℕ) : Vmas := vmaEdit.mergeAround vmas key

theorem foldl_mergeVmaAround_spec (keys : List ℕ) (vmas : Vmas) :
    SamePages vmas (keys.foldl mergeVmaAround vmas) :=
  AreaEdit.foldl_mergeAround_induct .refl (fun _ _ _ => .trans) vmaEdit_lawful.adjacent
    (fun _ _ _ => .join) keys vmas

/-! ## Unmapping -/

def munmap (vmas : Vmas) (startVpn endVpn : ℕ) : Option Vmas :=
  (vmaEdit.unmap vmas startVpn endVpn).map Prod.fst

/-- `munmap_deferred` takes the pages of the range and no others.  An area outside of it that is alone is
kept as it is. -/
theorem munmap_spec (h : munmap vmas startVpn endVpn = some vmas') :
    (∀ vpn, infoAt vmas' vpn = if startVpn ≤ vpn ∧ vpn < endVpn then none else infoAt vmas vpn) ∧
    ∀ vma, vma ∈ vmas → Alone vmas vma →
      (∀ vpn, vma.Contains vpn → ¬ (startVpn ≤ vpn ∧ vpn < endVpn)) → vma ∈ vmas' := by
  obtain ⟨⟨_, taken⟩, hunmap, rfl⟩ := Option.map_eq_some_iff.mp h
  have hcut := vmaEdit_lawful.unmap_cut (m := vmas) (fun _ _ => trivial) startVpn endVpn
  rw [hunmap] at hcut
  obtain ⟨-, between, keys, hcut, rfl⟩ := hcut
  have hmerge : SamePages between (keys.foldl vmaEdit.mergeAround between) :=
    foldl_mergeVmaAround_spec keys between
  constructor
  · exact fun vpn => (hmerge.infoAt vpn).trans (hcut.view vpn)
  intro vma hmem halone hout
  refine hmerge.keeps vma (hcut.keeps vma hmem hout) (halone.of_infoAt fun vpn info hinfo => ?_)
  rw [infoAt, hcut.view] at hinfo
  split at hinfo
  · cases hinfo
  · exact hinfo

/-! ## Mapping -/

def mmap (userSpaceEnd : ℕ) (vmas : Vmas) (request : MmapRequest) (startVpn endVpn : ℕ)
    (frames : Bool) : Except MmError Vmas :=
  let vma : Vma := ⟨startVpn, endVpn, request.vmaInfo⟩
  match request with
  | .anonymous _ true => (insertVmaEager vmas vma frames).map fun vmas => mergeVmaAround vmas startVpn
  | .anonymous _ false => (registerVmaMetadata vmas vma).map fun vmas => mergeVmaAround vmas startVpn
  | .file .. => insertVma userSpaceEnd vmas vma frames

section

variable (h : mmap userSpaceEnd vmas request startVpn endVpn frames = .ok vmas')

include h

theorem mmap_inserted :
    ∃ between, Inserted vmas ⟨startVpn, endVpn, request.vmaInfo⟩ between ∧ SamePages between vmas' := by
  rcases request with ⟨perm, _ | _⟩ | ⟨perm, file, pgoff, shared⟩ <;> simp only [mmap] at h
  · cases hreg : registerVmaMetadata vmas ⟨startVpn, endVpn, _⟩ with
    | error e => rw [hreg] at h; cases h
    | ok between =>
      rw [hreg] at h
      cases h
      exact ⟨between, registerVmaMetadata_ok hreg, foldl_mergeVmaAround_spec [startVpn] between⟩
  · cases hins : insertVmaEager vmas ⟨startVpn, endVpn, _⟩ frames with
    | error e => rw [hins] at h; cases h
    | ok between =>
      rw [hins] at h
      cases h
      exact ⟨between, insertVmaEager_ok hins, foldl_mergeVmaAround_spec [startVpn] between⟩
  · exact ⟨vmas', insertVma_ok h, .refl _⟩

theorem mmap_spec : (∀ vpn, infoAt vmas' vpn =
      if startVpn ≤ vpn ∧ vpn < endVpn then some (request.vmaInfo.advance (vpn - startVpn))
      else infoAt vmas vpn) ∧
    ∀ vma, vma ∈ vmas → Alone vmas vma → vma.attr.kind ≠ request.vmaInfo.kind → vma ∈ vmas' := by
  obtain ⟨between, hins, hsame⟩ := mmap_inserted h
  have hinfo : ∀ vpn, infoAt between vpn =
      if startVpn ≤ vpn ∧ vpn < endVpn then some (request.vmaInfo.advance (vpn - startVpn))
      else infoAt vmas vpn := fun _ => hins.infoAt
  constructor
  · exact fun vpn => (hsame.infoAt vpn).trans (hinfo vpn)
  intro vma hmem halone hkind
  refine hsame.keeps vma (hins.mem_iff.mpr (.inr hmem)) fun vpn info hi hk => ?_
  rw [hinfo] at hi
  split at hi
  · cases hi
    exact absurd hk.symm hkind
  · exact halone vpn info hi hk

end

end Vmas

end CosmOS.Mm
