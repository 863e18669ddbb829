import CosmOS.Vfs.Disk

/-!
# Vfs.DiskSpec — what directory operations do to lookups

* `Done`: all that a request can do, and `apply_done`: it does one of these.
* `Done.wf`: requests keep directories well-formed, if they add nothing to a directory that has been
  removed.
* `Done.find_eq_of_silent`: a lookup that no entry of the footprint answers to gives what it gave before.
* `Done.find_created`, `Done.find_gone`, `Done.find_renamed`: what a lookup of the names of a request gives
  after it.
-/

namespace CosmOS.Vfs

open Function List Option

theorem Dirent.names_ext4 {e : Dirent} {n : Name} : e.names .ext4 n = true ↔ e.name = n := by
  simp [Dirent.names]

namespace Disk

variable {disk : Disk} {fail : Bool} {d d' : Ino} {n n' : Name}

structure Wf (disk : Disk) : Prop where
  /-- Entries stand in directories that are in use. -/
  live : ∀ e ∈ disk.dirents, disk.isDir e.dir = true ∧ disk.links e.dir ≠ 0
  /-- A FAT32 directory may have a name twice (`mkdir_beside`). -/
  unique : disk.kind = .ext4 → (disk.dirents.map fun e => (e.dir, e.name)).Nodup

/-- The entry answers to the name in the directory. -/
def Answers (disk : Disk) (e : Dirent) (d : Ino) (n : Name) : Prop := e.dir = d ∧ e.names disk.kind n = true

instance (disk : Disk) (e : Dirent) (d : Ino) (n : Name) : Decidable (disk.Answers e d n) :=
  inferInstanceAs (Decidable (_ ∧ _))

/-- Directories that get a new entry have not been removed. -/
def Alive (disk : Disk) : Request → Prop
  | .create _ d _ _ _ => disk.links d ≠ 0
  | .rename _ _ d' _ => disk.links d' ≠ 0
  | _ => True

instance (disk : Disk) : DecidablePred disk.Alive
  | .create .. | .rename .. => inferInstanceAs (Decidable (_ ≠ _))
  | .link .. | .unlink .. | .rmdir .. => isTrue trivial

/-- A new entry answers to the name that was asked for. -/
def Answered (disk : Disk) : Request → Prop
  | .create _ d n sfn (some i) => disk.Answers ⟨d, disk.storedName n, sfn, i⟩ d n
  | _ => True

instance (disk : Disk) : DecidablePred disk.Answered
  | .create _ _ _ _ (some _) => inferInstanceAs (Decidable (disk.Answers ..))
  | .create _ _ _ _ none | .link .. | .unlink .. | .rmdir .. | .rename .. => isTrue trivial

/-! ## Entries -/

variable {e : Dirent}

theorem mem_of_dirent? (h : disk.dirent? d n = some e) : e ∈ disk.dirents :=
  mem_of_find?_eq_some h

theorem answers_of_dirent? (h : disk.dirent? d n = some e) : disk.Answers e d n := by
  have he := find?_some h
  simpa [Answers] using he

theorem dirent?_eq_none : disk.dirent? d n = none ↔ ∀ e ∈ disk.dirents, ¬ disk.Answers e d n := by
  simp [dirent?, Answers]

theorem find_eq (hwf : disk.Wf) (d : Ino) (n : Name) : disk.find d n = (disk.dirent? d n).map (·.ino) := by
  unfold find
  by_cases hd : disk.isDir d = true
  · rw [if_pos hd]
  -- nothing stands in a file
  have hnone : disk.dirent? d n = none := by
    rw [dirent?_eq_none]
    rintro e he ⟨rfl, -⟩
    exact hd (hwf.live e he).1
  rw [if_neg hd, hnone]
  rfl

variable {removed added : List Dirent}

/-- A lookup is not changed by entries that do not answer to it. -/
theorem dirent?_edit (hr : ∀ e ∈ removed, ¬ disk.Answers e d n)
    (ha : ∀ e ∈ added, ¬ disk.Answers e d n) :
    (disk.edit removed added).dirent? d n = disk.dirent? d n := by
  unfold dirent? edit
  have hadded : added.find? (fun e => decide (e.dir = d) && e.names disk.kind n) = none := by
    rw [find?_eq_none]
    intro e he
    simpa [Answers] using ha e he
  rw [find?_append, hadded, or_none, find?_filter]
  refine congrArg (disk.dirents.find? ·) (funext fun e => ?_)
  by_cases he : e ∈ removed
  · have hno : (decide (e.dir = d) && e.names disk.kind n) = false := by
      simpa [Answers] using hr e he
    rw [hno]
    simp
  · simp [he]

/-- Where no other entry answers, the added one is found. -/
theorem dirent?_edit_added (removed : List Dirent)
    (h : ∀ e' ∈ disk.dirents, e' ∉ removed → ¬ disk.Answers e' d n) (he : disk.Answers e d n) :
    (disk.edit removed [e]).dirent? d n = some e := by
  unfold dirent? edit
  have hold : (disk.dirents.filter fun e => decide (e ∉ removed)).find?
      (fun e => decide (e.dir = d) && e.names disk.kind n) = none := by
    rw [find?_eq_none]
    intro e' he'
    rw [mem_filter] at he'
    simpa [Answers] using h e' he'.1 (by simpa using he'.2)
  rw [find?_append, hold]
  simpa [Answers] using he

/-- On ext4 one entry answers. -/
theorem Wf.answers_unique (hwf : disk.Wf) (hkind : disk.kind = .ext4) {e e' : Dirent}
    (he : e ∈ disk.dirents) (he' : e' ∈ disk.dirents) (ha : disk.Answers e d n)
    (ha' : disk.Answers e' d n) : e = e' := by
  unfold Answers at ha ha'
  rw [hkind, Dirent.names_ext4] at ha ha'
  refine inj_on_of_nodup_map (hwf.unique hkind) he he' ?_
  exact Prod.ext (ha.1.trans ha'.1.symm) (ha.2.trans ha'.2.symm)

/-- Removing the entry that answers leaves none. -/
theorem Wf.dirent?_removed (hwf : disk.Wf) (hkind : disk.kind = .ext4)
    (he : disk.dirent? d n = some e) (hmem : e ∈ removed)
    (hadd : ∀ e ∈ added, ¬ (e.dir = d ∧ e.name = n)) :
    (disk.edit removed added).dirent? d n = none := by
  refine dirent?_eq_none.mpr fun e' he' ha => ?_
  change disk.Answers e' d n at ha
  rcases mem_append.mp he' with he' | he'
  · rw [mem_filter] at he'
    rw [hwf.answers_unique hkind he'.1 (mem_of_dirent? he) ha (answers_of_dirent? he)] at he'
    simp [hmem] at he'
  · unfold Answers at ha
    rw [hkind, Dirent.names_ext4] at ha
    exact hadd e' he' ha

/-! ## What a request does -/

/-- What a request does: nothing but an error, or the edit of an operation. -/
inductive Done (disk : Disk) (fail : Bool) : Request → Option FsErrno → Disk → Prop
  | refused {r : Request} {err : FsErrno}
      (hmissing : ∀ d n, r = .unlink d n ∨ r = .rmdir d n → err = .ENOENT → disk.dirent? d n = none) :
      Done disk fail r (some err) disk
  | created {ft : FileType} {d i : Ino} {n : Name} {sfn : Option Name} {err : Option FsErrno}
      (hdir : disk.isDir d = true) (hfree : disk.dirent? d n = none)
      (hlinks : disk.links i = 0) (herr : err ≠ none → fail = true ∧ ft = .symlink) :
      Done disk fail (.create ft d n sfn (some i)) err
        { disk.edit [] [⟨d, disk.storedName n, sfn, i⟩] with
          isDir := update disk.isDir i (ft = .directory)
          links := update disk.links i 1 }
  | linked {d : Ino} {n n' : Name} {e : Dirent} (hkind : disk.kind = .ext4)
      (he : disk.dirent? d n = some e) (hfree : disk.dirent? d n' = none) :
      Done disk fail (.link d n n') none
        { disk.edit [] [⟨d, n', none, e.ino⟩] with
          links := update disk.links e.ino (disk.links e.ino + 1) }
  | unlinked {d : Ino} {n : Name} {e : Dirent} (hkind : disk.kind = .ext4)
      (he : disk.dirent? d n = some e) (hfile : disk.isDir e.ino = false) :
      Done disk fail (.unlink d n) none
        { disk.edit [e] [] with links := update disk.links e.ino (disk.links e.ino - 1) }
  | removed {d : Ino} {n : Name} {e : Dirent} (hkind : disk.kind = .ext4)
      (he : disk.dirent? d n = some e) (hempty : disk.hasEntry e.ino = false) :
      Done disk fail (.rmdir d n) none
        { disk.edit [e] [] with links := update disk.links e.ino 0 }
  /-- Both names are links of one file. -/
  | same {d d' : Ino} {n n' : Name} {e t : Dirent} (hkind : disk.kind = .ext4)
      (he : disk.dirent? d n = some e) (ht : disk.dirent? d' n' = some t) (hsame : e.ino = t.ino) :
      Done disk fail (.rename d n d' n') none disk
  | moved {d d' : Ino} {n n' : Name} {e : Dirent} (hkind : disk.kind = .ext4)
      (hdir : disk.isDir d' = true) (he : disk.dirent? d n = some e)
      (ht : disk.dirent? d' n' = none) :
      Done disk fail (.rename d n d' n') none (disk.edit [e] [⟨d', n', none, e.ino⟩])
  | replaced {d d' : Ino} {n n' : Name} {e t : Dirent} {k : ℕ} (hkind : disk.kind = .ext4)
      (hdir : disk.isDir d' = true) (he : disk.dirent? d n = some e)
      (ht : disk.dirent? d' n' = some t) (hne : e.ino ≠ t.ino)
      (hempty : disk.isDir t.ino = true → disk.hasEntry t.ino = false) :
      Done disk fail (.rename d n d' n') none
        { disk.edit [e, t] [⟨d', n', none, e.ino⟩] with links := update disk.links t.ino k }

theorem kind_ext4 (h : ¬ disk.kind = .fat32) : disk.kind = .ext4 := by
  cases hk : disk.kind with
  | ext4 => rfl
  | fat32 => exact absurd hk h

/-- A request other than the removal of a name is refused without saying that a name is missing. -/
theorem Done.refuse {r : Request} {err : FsErrno} (h : ∀ d n, r ≠ .unlink d n ∧ r ≠ .rmdir d n) :
    Done disk fail r (some err) disk := by
  refine .refused fun d n hr _ => ?_
  rcases hr with hr | hr
  · exact absurd hr (h d n).1
  · exact absurd hr (h d n).2

/-- An error that does not say that a name is missing. -/
theorem Done.refuse_of_ne {r : Request} {err : FsErrno} (h : err ≠ .ENOENT) :
    Done disk fail r (some err) disk :=
  .refused fun _ _ _ herr => absurd herr h

theorem create_done (ft : FileType) (d : Ino) (n : Name) (sfn : Option Name) (new : Option Ino) :
    Done disk fail (.create ft d n sfn new) (disk.create fail ft d n sfn new).1
      (disk.create fail ft d n sfn new).2 := by
  have hrefuse : ∀ err, Done disk fail (.create ft d n sfn new) (some err) disk :=
    fun err => .refuse fun _ _ => ⟨nofun, nofun⟩
  unfold create
  split
  · exact hrefuse _
  split
  · exact hrefuse _
  rename_i hdir
  split
  · exact hrefuse _
  rename_i hfree
  cases new with
  | none => exact hrefuse _
  | some i =>
    dsimp only
    by_cases hlinks : disk.links i ≠ 0
    · rw [if_pos hlinks]
      exact hrefuse _
    rw [if_neg hlinks]
    simp only [taken, Bool.or_eq_true, not_or, not_isSome_iff_eq_none] at hfree
    refine .created (by simpa using hdir) hfree.1 (not_not.mp hlinks) ?_
    intro herr
    by_contra hft
    rw [if_neg hft] at herr
    exact herr rfl

/-- Where the short name is taken, `create` is refused, but `mkdir` adds a second entry with it, if no entry
answers to the name as it is given. -/
theorem mkdir_beside {sfn : Option Name} {i : Ino} (hkind : disk.kind = .fat32)
    (hdir : disk.isDir d = true) (hshort : (sfnFromStr n).any (disk.hasShortName d) = true)
    (hfree : disk.dirent? d n = none) (hlinks : disk.links i = 0) :
    (disk.create fail .regular d n sfn (some i)).1 = some FsErrno.EIO ∧
      (disk.create fail .directory d n sfn (some i)).1 = none := by
  simp [create, taken, hkind, hdir, hshort, hfree, hlinks]

theorem link_done (d : Ino) (n n' : Name) :
    Done disk fail (.link d n n') (disk.link fail d n n').1 (disk.link fail d n n').2 := by
  have hrefuse : ∀ err, Done disk fail (.link d n n') (some err) disk :=
    fun err => .refuse fun _ _ => ⟨nofun, nofun⟩
  unfold link
  split
  · exact hrefuse _
  rename_i hkind
  split
  · exact hrefuse _
  split
  · exact hrefuse _
  rename_i e he
  split
  · exact hrefuse _
  rename_i hfree
  split
  · exact hrefuse _
  · exact .linked (kind_ext4 hkind) he (by simpa using hfree)

theorem unlink_done (d : Ino) (n : Name) :
    Done disk fail (.unlink d n) (disk.unlink fail d n).1 (disk.unlink fail d n).2 := by
  unfold unlink
  split
  · exact .refuse_of_ne nofun
  rename_i hkind
  split
  · exact .refuse_of_ne nofun
  split
  next hnone =>
    refine .refused fun d' n' hr _ => ?_
    rcases hr with hr | hr
    · obtain ⟨rfl, rfl⟩ := Request.unlink.inj hr
      exact hnone
    · cases hr
  rename_i e he
  split
  · exact .refuse_of_ne nofun
  rename_i hfile
  split
  · exact .refuse_of_ne nofun
  · exact .unlinked (kind_ext4 hkind) he (by simpa using hfile)

theorem rmdir_done (d : Ino) (n : Name) :
    Done disk fail (.rmdir d n) (disk.rmdir fail d n).1 (disk.rmdir fail d n).2 := by
  unfold rmdir
  split
  · exact .refuse_of_ne nofun
  rename_i hkind
  split
  · exact .refuse_of_ne nofun
  split
  next hnone =>
    refine .refused fun d' n' hr _ => ?_
    rcases hr with hr | hr
    · cases hr
    · obtain ⟨rfl, rfl⟩ := Request.rmdir.inj hr
      exact hnone
  rename_i e he
  split
  · exact .refuse_of_ne nofun
  split
  · exact .refuse_of_ne nofun
  rename_i hempty
  split
  · exact .refuse_of_ne nofun
  · exact .removed (kind_ext4 hkind) he (by simpa using hempty)

theorem targetError_none {child target : Ino} (h : disk.targetError child target = none)
    (hdir : disk.isDir target = true) : disk.hasEntry target = false := by
  unfold targetError at h
  split at h
  · cases h
  split at h
  · cases h
  split at h
  · cases h
  next hne =>
    simpa [hdir] using hne

theorem rename_done (d : Ino) (n : Name) (d' : Ino) (n' : Name) :
    Done disk fail (.rename d n d' n') (disk.rename fail d n d' n').1 (disk.rename fail d n d' n').2 := by
  have hrefuse : ∀ err, Done disk fail (.rename d n d' n') (some err) disk :=
    fun err => .refuse fun _ _ => ⟨nofun, nofun⟩
  unfold rename
  split
  · exact hrefuse _
  rename_i hkind
  split
  · exact hrefuse _
  rename_i hdir
  have hdir' : disk.isDir d' = true := by
    simp only [Bool.or_eq_true, Bool.not_eq_true', not_or, Bool.not_eq_false] at hdir
    exact hdir.2
  split
  · exact hrefuse _
  next e he ht =>
    split
    · exact hrefuse _
    · exact .moved (kind_ext4 hkind) hdir' he ht
  next e t he ht =>
    split
    next hsame =>
      exact .same (kind_ext4 hkind) he ht hsame
    rename_i hne
    split
    · exact hrefuse _
    rename_i herr
    split
    · exact hrefuse _
    · exact .replaced (kind_ext4 hkind) hdir' he ht hne (targetError_none herr)

theorem apply_done (disk : Disk) (fail : Bool) (r : Request) :
    Done disk fail r (disk.apply fail r).1 (disk.apply fail r).2 := by
  cases r with
  | create ft d n sfn new => exact create_done ft d n sfn new
  | link d n n' => exact link_done d n n'
  | unlink d n => exact unlink_done d n
  | rmdir d n => exact rmdir_done d n
  | rename d n d' n' => exact rename_done d n d' n'

variable {r : Request} {err : Option FsErrno} {disk' : Disk}

/-- The entry of a symbolic link is made and then its target cannot be written. -/
def Torn (fail : Bool) : Request → Prop
  | .create ft _ _ _ _ => fail = true ∧ ft = .symlink
  | _ => False

instance (fail : Bool) : DecidablePred (Torn fail)
  | .create .. => inferInstanceAs (Decidable (_ ∧ _))
  | .link .. | .unlink .. | .rmdir .. | .rename .. => isFalse id

/-- Any other request that fails changes nothing. -/
theorem Done.eq_of_error {e : FsErrno} (h : Done disk fail r (some e) disk') (ht : ¬ Torn fail r) :
    disk' = disk := by
  cases h with
  | refused => rfl
  | created _ _ _ herr => exact absurd (herr nofun) ht

/-! ## Well-formed directories -/

/-- Removing and adding entries, with what becomes of the numbers. -/
theorem Wf.edit (hwf : disk.Wf) (removed : List Dirent) (added : Option Dirent)
    (hdirents : disk'.dirents = (disk.edit removed added.toList).dirents) (hkind : disk'.kind = disk.kind)
    (hkeep : ∀ e ∈ disk.dirents, e ∉ removed →
      disk'.isDir e.dir = disk.isDir e.dir ∧ disk'.links e.dir ≠ 0)
    (hadd : ∀ e ∈ added, disk'.isDir e.dir = true ∧ disk'.links e.dir ≠ 0)
    (hnew : disk.kind = .ext4 → ∀ e ∈ added, ∀ e' ∈ disk.dirents, e' ∉ removed →
      e'.dir = e.dir → e'.name ≠ e.name) : disk'.Wf := by
  constructor
  · intro e he
    rw [hdirents] at he
    rcases mem_append.mp he with he | he
    · obtain ⟨hmem, hnot⟩ := mem_filter.mp he
      obtain ⟨hdir, hlinks⟩ := hkeep e hmem (by simpa using hnot)
      exact ⟨hdir.trans (hwf.live e hmem).1, hlinks⟩
    · exact hadd e (mem_toList.mp he)
  · intro hext4
    rw [hkind] at hext4
    rw [hdirents]
    unfold Disk.edit
    rw [map_append, nodup_append]
    refine ⟨(hwf.unique hext4).sublist (filter_sublist.map _), ?_, ?_⟩
    · cases added <;> simp
    rintro _ hx _ hy rfl
    obtain ⟨e', he', heq⟩ := mem_map.mp hx
    obtain ⟨e, he, heq'⟩ := mem_map.mp hy
    obtain ⟨hmem, hnot⟩ := mem_filter.mp he'
    obtain ⟨hdir, hname⟩ := Prod.mk.inj (heq.trans heq'.symm)
    exact hnew hext4 e (mem_toList.mp he) e' hmem (by simpa using hnot) hdir hname

/-- Where no entry answers to a name, none has it. -/
theorem name_ne_of_dirent?_none (hkind : disk.kind = .ext4) (h : disk.dirent? d n = none) :
    ∀ e ∈ disk.dirents, e.dir = d → e.name ≠ n := by
  intro e he hdir hname
  refine dirent?_eq_none.mp h e he ⟨hdir, ?_⟩
  rwa [hkind, Dirent.names_ext4]

theorem nameEq_self (n : Name) : nameEq n n = true := by
  unfold nameEq
  split <;> simp

theorem answers_self (disk : Disk) (e : Dirent) : disk.Answers e e.dir e.name := by
  refine ⟨rfl, ?_⟩
  unfold Dirent.names
  split
  · simp
  · simp [nameEq_self]

theorem hasEntry_eq_false {i : Ino} : disk.hasEntry i = false ↔ ∀ e ∈ disk.dirents, e.dir ≠ i := by
  simp [hasEntry]

/-- Requests keep directories well-formed. -/
theorem Done.wf (h : Done disk fail r err disk') (hwf : disk.Wf) (halive : disk.Alive r) : disk'.Wf := by
  cases h with
  | refused | same => exact hwf
  | @created ft d i n sfn err hdir hfree hlinks =>
    -- nothing stands in a directory whose number is free
    have hne : ∀ e ∈ disk.dirents, e.dir ≠ i := fun e he heq => (hwf.live e he).2 (heq ▸ hlinks)
    have hdi : d ≠ i := fun heq => halive (heq ▸ hlinks)
    refine hwf.edit [] (some _) rfl rfl ?_ ?_ ?_
    · intro e he _
      dsimp only
      rw [update_of_ne (hne e he), update_of_ne (hne e he)]
      exact ⟨rfl, (hwf.live e he).2⟩
    · rintro e ⟨⟩
      dsimp only
      rw [update_of_ne hdi, update_of_ne hdi]
      exact ⟨hdir, halive⟩
    · rintro hkind e ⟨⟩ e' he' _ hd hn
      refine dirent?_eq_none.mp hfree e' he' ?_
      have hself := answers_self disk e'
      have hstored : disk.storedName n = n := by rw [storedName, hkind]
      rwa [hd, hn, hstored] at hself
  | @linked d n n' e hkind he hfree =>
    have hd := hwf.live e (mem_of_dirent? he)
    rw [(answers_of_dirent? he).1] at hd
    have hlinks : ∀ i, disk.links i ≠ 0 → update disk.links e.ino (disk.links e.ino + 1) i ≠ 0 := by
      intro i hi
      by_cases heq : i = e.ino
      · rw [heq, update_self]
        exact Nat.succ_ne_zero _
      · rwa [update_of_ne heq]
    refine hwf.edit [] (some _) rfl rfl ?_ ?_ ?_
    · intro e' he' _
      exact ⟨rfl, hlinks _ (hwf.live e' he').2⟩
    · rintro e' ⟨⟩
      exact ⟨hd.1, hlinks _ hd.2⟩
    · rintro - e' ⟨⟩ e'' he'' _ hdir
      exact name_ne_of_dirent?_none hkind hfree e'' he'' hdir
  | @unlinked d n e hkind he hfile =>
    refine hwf.edit [e] none rfl rfl ?_ (fun _ h => nomatch h) fun _ _ h => nomatch h
    intro e' he' _
    have hne : e'.dir ≠ e.ino := by
      intro heq
      have hdir := (hwf.live e' he').1
      rw [heq, hfile] at hdir
      cases hdir
    dsimp only
    rw [update_of_ne hne]
    exact ⟨rfl, (hwf.live e' he').2⟩
  | @removed d n e hkind he hempty =>
    refine hwf.edit [e] none rfl rfl ?_ (fun _ h => nomatch h) fun _ _ h => nomatch h
    intro e' he' _
    dsimp only
    rw [update_of_ne (hasEntry_eq_false.mp hempty e' he')]
    exact ⟨rfl, (hwf.live e' he').2⟩
  | @moved d d' n n' e hkind hdir he ht =>
    refine hwf.edit [e] (some _) rfl rfl ?_ ?_ ?_
    · intro e' he' _
      exact ⟨rfl, (hwf.live e' he').2⟩
    · rintro e' ⟨⟩
      exact ⟨hdir, halive⟩
    · rintro - e' ⟨⟩ e'' he'' _ hd
      exact name_ne_of_dirent?_none hkind ht e'' he'' hd
  | @replaced d d' n n' e t k hkind hdir he ht hne hempty =>
    -- the replaced file has nothing in it
    have hnot : ∀ e' ∈ disk.dirents, e'.dir ≠ t.ino := by
      intro e' he' heq
      have hd := (hwf.live e' he').1
      rw [heq] at hd
      exact hasEntry_eq_false.mp (hempty hd) e' he' heq
    refine hwf.edit [e, t] (some _) rfl rfl ?_ ?_ ?_
    · intro e' he' _
      dsimp only
      rw [update_of_ne (hnot e' he')]
      exact ⟨rfl, (hwf.live e' he').2⟩
    · rintro e' ⟨⟩
      have hd := hnot t (mem_of_dirent? ht)
      rw [(answers_of_dirent? ht).1] at hd
      dsimp only
      rw [update_of_ne hd]
      exact ⟨hdir, halive⟩
    · rintro - e' ⟨⟩ e'' he'' hrem hd hn
      have ha : disk.Answers e'' d' n' := by
        refine ⟨hd, ?_⟩
        rwa [hkind, Dirent.names_ext4]
      exact hrem (by simp [hwf.answers_unique hkind he'' (mem_of_dirent? ht) ha (answers_of_dirent? ht)])

/-- A file system with an empty root directory, which has the number 2. -/
def fresh (kind : FsKind) : Disk where
  kind := kind
  dirents := []
  isDir i := i = 2
  links i := if i = 2 then 1 else 0

/-- None of the entries answers to the name. -/
def Silent (disk : Disk) (l : List Dirent) (d : Ino) (n : Name) : Prop := ∀ e ∈ l, ¬ disk.Answers e d n

instance (disk : Disk) (l : List Dirent) (d : Ino) (n : Name) : Decidable (disk.Silent l d n) :=
  inferInstanceAs (Decidable (∀ e ∈ l, _))

/-- A lookup that no entry of the footprint answers to is not changed. -/
theorem Done.dirent? (h : Done disk fail r err disk') (hs : disk.Silent (disk.footprint r) d n) :
    disk'.dirent? d n = disk.dirent? d n := by
  cases h with
  | refused | same => rfl
  | created =>
    refine dirent?_edit (fun e he => absurd he not_mem_nil) fun e he => hs e ?_
    simpa [footprint] using he
  | linked _ he =>
    refine dirent?_edit (fun e he => absurd he not_mem_nil) fun e' he' => hs e' ?_
    simpa [footprint, he] using he'
  | unlinked _ he | removed _ he =>
    refine dirent?_edit (fun e' he' => hs e' ?_) fun e he => nomatch he
    simpa [footprint, he] using he'
  | moved _ _ he ht =>
    refine dirent?_edit (fun e' he' => hs e' ?_) fun e' he' => hs e' ?_
    · simp only [mem_singleton] at he'
      simp [footprint, he, he']
    · simp only [mem_singleton] at he'
      simp [footprint, he, he']
  | replaced _ _ he ht =>
    refine dirent?_edit (fun e' he' => hs e' ?_) fun e' he' => hs e' ?_
    · simp only [mem_cons, not_mem_nil, or_false] at he'
      rcases he' with rfl | rfl <;> simp [footprint, he, ht]
    · simp only [mem_singleton] at he'
      simp [footprint, he, he']

theorem Done.find_eq_of_silent (h : Done disk fail r err disk') (hwf : disk.Wf) (halive : disk.Alive r)
    (hs : disk.Silent (disk.footprint r) d n) : disk'.find d n = disk.find d n := by
  rw [Disk.find_eq (h.wf hwf halive), Disk.find_eq hwf, h.dirent? hs]

/-- A new entry is found under the name that was asked for, if it answers to it. -/
theorem Done.find_created {ft : FileType} {sfn : Option Name} {new : Option Ino}
    (h : Done disk fail (.create ft d n sfn new) none disk') (hwf : disk.Wf) (halive : disk.links d ≠ 0) :
    ∃ i, new = some i ∧
      (disk.Answers ⟨d, disk.storedName n, sfn, i⟩ d n → disk'.find d n = some i) := by
  have hwf' := h.wf hwf halive
  cases h with
  | @created _ _ i _ _ _ hdir hfree =>
    refine ⟨i, rfl, fun ha => ?_⟩
    rw [Disk.find_eq hwf']
    have hentry := dirent?_edit_added [] (fun e he _ => dirent?_eq_none.mp hfree e he) ha
    exact congrArg (Option.map (·.ino)) hentry

/-- A name that has been removed or is missing is not found. -/
theorem Done.find_gone (h : Done disk fail r err disk') (hwf : disk.Wf)
    (hr : r = .unlink d n ∨ r = .rmdir d n) (herr : err = none ∨ err = some .ENOENT) :
    disk'.find d n = none := by
  have halive : disk.Alive r := by
    rcases hr with rfl | rfl <;> exact trivial
  rw [Disk.find_eq (h.wf hwf halive)]
  refine map_eq_none_iff.mpr ?_
  cases h with
  | refused hmissing =>
    rcases herr with herr | herr
    · cases herr
    · exact hmissing d n hr (some.inj herr)
  | unlinked hkind he =>
    rcases hr with hr | hr
    · obtain ⟨rfl, rfl⟩ := Request.unlink.inj hr
      exact hwf.dirent?_removed hkind he (mem_singleton_self _) fun _ h => nomatch h
    · cases hr
  | removed hkind he =>
    rcases hr with hr | hr
    · cases hr
    · obtain ⟨rfl, rfl⟩ := Request.rmdir.inj hr
      exact hwf.dirent?_removed hkind he (mem_singleton_self _) fun _ h => nomatch h
  | created | linked | same | moved | replaced => rcases hr with hr | hr <;> cases hr

/-- Only ext4 renames. -/
theorem Done.kind_of_renamed (h : Done disk fail (.rename d n d' n') none disk') : disk.kind = .ext4 := by
  cases h with
  | same hkind | moved hkind | replaced hkind => exact hkind

/-- The file is found under its new name, and under the old one only if that is the same. -/
theorem Done.find_renamed (h : Done disk fail (.rename d n d' n') none disk') (hwf : disk.Wf)
    (halive : disk.links d' ≠ 0) : ∃ i, disk.find d n = some i ∧ disk'.find d' n' = some i ∧
      (disk.find d' n' ≠ some i → disk'.find d n = none) := by
  have hwf' := h.wf hwf halive
  rw [Disk.find_eq hwf', Disk.find_eq hwf, Disk.find_eq hwf', Disk.find_eq hwf]
  cases h with
  | @same _ _ _ _ e t _ he ht hsame =>
    refine ⟨e.ino, congrArg _ he, ?_, fun hne => absurd ?_ hne⟩
    · rw [ht, hsame]
      rfl
    · rw [ht, hsame]
      rfl
  | @moved _ _ _ _ e hkind hdir he ht =>
    have hnew : disk.Answers ⟨d', n', none, e.ino⟩ d' n' := answers_self disk ⟨d', n', none, e.ino⟩
    refine ⟨e.ino, congrArg _ he, ?_, fun hne => ?_⟩
    · rw [dirent?_edit_added [e] (fun e' he' _ => dirent?_eq_none.mp ht e' he') hnew]
      rfl
    refine map_eq_none_iff.mpr (hwf.dirent?_removed hkind he (mem_singleton_self _) ?_)
    -- the old name is not the new one, for that was not found
    rintro e' he' ⟨rfl, rfl⟩
    obtain rfl := mem_singleton.mp he'
    rw [he] at ht
    cases ht
  | @replaced _ _ _ _ e t k hkind hdir he ht hne hempty =>
    have hnew : disk.Answers ⟨d', n', none, e.ino⟩ d' n' := answers_self disk ⟨d', n', none, e.ino⟩
    refine ⟨e.ino, congrArg _ he, ?_, fun _ => ?_⟩
    · refine congrArg (Option.map (·.ino)) (dirent?_edit_added [e, t] (fun e' he' hnot ha => hnot ?_) hnew)
      simp [hwf.answers_unique hkind he' (mem_of_dirent? ht) ha (answers_of_dirent? ht)]
    have hnone : (disk.edit [e, t] [⟨d', n', none, e.ino⟩]).dirent? d n = none := by
      refine hwf.dirent?_removed hkind he (.head _) ?_
      -- the old name is not the new one, for that had another file
      rintro e' he' ⟨rfl, rfl⟩
      obtain rfl := mem_singleton.mp he'
      rw [he] at ht
      exact hne (congrArg Dirent.ino (some.inj ht))
    exact congrArg (Option.map (·.ino)) hnone

end Disk

end CosmOS.Vfs
