import CosmOS.Vfs.FileViews
import CosmOS.Vfs.DiskSpec

/-!
# Vfs.Isolation — files that have the same inode number do not share bytes

`Careful` is the condition on runs: a new file does not get a number for which an `Inode` is still held by a
handle or a dentry.  Under it the invariant of `FileViews` holds along every run (`Inv.next`), so a call
through a handle gives the bytes of the handle's own file, and nothing but the calls on a file changes what
belongs to it.  Without the condition an old handle reads and writes the new file with its number.
-/

namespace CosmOS.Vfs.OpenFiles

open Function

open PageCache (File Mapping Frames noBytes)

variable {s s' : State} {f : FileId} {o : InodeId} {i d d' new : Ino} {n n' : Name} {sfn : Option Name}
  {fd : Fd} {fail : Bool} {disk : Disk} {l : Label}

/-! ## Calls on names -/

/-- A change that touches no file does not change which files a request unlinks. -/
theorem Stays.losesLink (h : Stays nobody s s') (hdisk : s'.disk = s.disk) :
    LosesLink s' disk = LosesLink s disk := by
  unfold LosesLink
  rw [h.gen, hdisk]

theorem Inv.openFile (h : Inv s) : Stays nobody s (s.openFile fd d n) := by
  obtain ⟨hfind, -, hcur⟩ := h.find d n
  unfold State.openFile
  rcases hp : s.find d n with ⟨child, s₁⟩
  rw [hp] at hfind hcur
  cases child with
  | none => exact hfind
  | some o => exact hfind.trans (hfind.inv.insertHandle (hcur o rfl) fd)

theorem Inv.unlink (h : Inv s) (d : Ino) (n : Name) (fail : Bool) :
    Stays (LosesLink s (s.unlink d n fail).2.disk) s (s.unlink d n fail).2 := by
  obtain ⟨hfind, hdisk, -⟩ := h.find d n
  unfold State.unlink
  rcases hp : s.find d n with ⟨child, s₁⟩
  rw [hp] at hfind hdisk
  dsimp only
  rcases s₁.disk.apply fail (.unlink d n) with ⟨err, disk⟩
  cases err with dsimp only
  | some err =>
    split
    · exact (hfind.trans (hfind.inv.insertDentry d n none fun _ ho => by cases ho)).of_nobody
    · exact hfind.of_nobody
  | none =>
    have hset := hfind.inv.setDisk disk
    rw [hfind.losesLink hdisk] at hset
    have hneg := hset.inv.insertDentry d n none fun _ ho => by cases ho
    have hstays := (hfind.of_nobody.trans hset).trans hneg.of_nobody
    split
    · exact hstays.trans (hneg.inv.removeCachedInode _).of_nobody
    · exact hstays

/-- The files that `unlink_child` works on: what it unlinks, and the one whose pages it discards. -/
def Unlinks (s s' : State) (d : Ino) (n : Name) (f : FileId) : Prop :=
  LosesLink s s'.disk f ∨ ∃ o, (s.find d n).1 = some o ∧ f = ((s.find d n).2.inodes o).file

theorem discardInode_disk (s : State) (o : InodeId) : (s.discardInode o).disk = s.disk := by
  unfold State.discardInode
  split <;> rfl

theorem Inv.unlinkChild (h : Inv s) :
    Stays (Unlinks s (s.unlinkChild d n fail) d n) s (s.unlinkChild d n fail) := by
  obtain ⟨hfind, hdisk, hcur⟩ := h.find d n
  have hfound : ∀ o, (s.find d n).1 = some o →
      Unlinks s (s.unlinkChild d n fail) d n ((s.find d n).2.inodes o).file :=
    fun o ho => .inr ⟨o, ho, rfl⟩
  have hloses : ∀ f, LosesLink s (s.unlinkChild d n fail).disk f →
      Unlinks s (s.unlinkChild d n fail) d n f := fun f hf => .inl hf
  generalize Unlinks s (s.unlinkChild d n fail) d n = F at hfound hloses ⊢
  unfold State.unlinkChild at hloses ⊢
  rcases hp : s.find d n with ⟨child, s₁⟩
  rw [hp] at hfind hdisk hcur hfound hloses
  cases child with
  | none => exact hfind.of_nobody
  | some o =>
    dsimp only at hloses hfound hcur ⊢
    have hunlink := hfind.inv.unlink d n fail
    split
    · exact hfind.of_nobody
    rename_i hdir
    rw [if_neg hdir] at hloses
    rcases hr : s₁.unlink d n fail with ⟨ok, s₂⟩
    rw [hr] at hunlink hloses
    rw [hfind.losesLink hdisk] at hunlink
    have hstays := hfind.of_nobody.trans hunlink
    cases ok with
    | false => exact hstays.mono hloses
    | true =>
      dsimp only at hloses ⊢
      split
      next hlast =>
        rw [if_pos hlast, discardInode_disk] at hloses
        have hlt := (hcur o rfl).1
        have hdiscard := hunlink.inv.discardInode (hlt.trans_le hunlink.next_le)
        rw [hunlink.file o hlt] at hdiscard
        refine (hstays.mono hloses).trans (hdiscard.mono ?_)
        rintro f rfl
        exact hfound o rfl
      next hlast =>
        rw [if_neg hlast] at hloses
        exact hstays.mono hloses

theorem Inv.renameChild (h : Inv s) (d : Ino) (n : Name) (d' : Ino) (n' : Name) (fail : Bool) :
    Stays (LosesLink s (s.renameChild d n d' n' fail).disk) s (s.renameChild d n d' n' fail) := by
  obtain ⟨hfind, hdisk, hcur⟩ := h.find d n
  unfold State.renameChild
  rcases hp : s.find d n with ⟨oldChild, s₁⟩
  rw [hp] at hfind hdisk hcur
  dsimp only at hfind hdisk hcur ⊢
  obtain ⟨hfind', hdisk', -⟩ := hfind.inv.find d' n'
  rcases hp' : s₁.find d' n' with ⟨target, s₂⟩
  rw [hp'] at hfind' hdisk'
  have hfinds := hfind.trans hfind'
  rcases s₂.disk.apply fail (.rename d n d' n') with ⟨err, disk⟩
  cases err with
  | some err => exact hfinds.of_nobody
  | none =>
    have hset := hfinds.inv.setDisk disk
    rw [hfinds.losesLink (hdisk'.trans hdisk)] at hset
    have hneg := hset.inv.insertDentry d n none fun _ ho => by cases ho
    have hrem := hneg.inv.removeDentry d' n'
    have hstays := ((hfinds.of_nobody.trans hset).trans hneg.of_nobody).trans hrem.of_nobody
    cases oldChild with dsimp only
    | none =>
      split
      · exact hstays.trans (hrem.inv.removeCachedInode _).of_nobody
      · exact hstays
    | some o =>
      -- the child that was found first is still that of the newest file of its number
      have hcur' := hrem.current (hneg.current (hset.current (hfind'.current (hcur o rfl))))
      have hins := hrem.inv.insertDentry d' n' (some o) fun o' ho' => by
        cases ho'
        exact hcur'
      have hstays' := hstays.trans hins.of_nobody
      split
      · exact hstays'.trans (hins.inv.removeCachedInode _).of_nobody
      · exact hstays'

theorem Inv.renameAt (h : Inv s) :
    Stays (LosesLink s (s.renameAt d n d' n' fail).disk) s (s.renameAt d n d' n' fail) := by
  obtain ⟨hfind, hdisk, -⟩ := h.find d n
  unfold State.renameAt
  rcases hp : s.find d n with ⟨old, s₁⟩
  rw [hp] at hfind hdisk
  cases old with
  | none => exact hfind.of_nobody
  | some old =>
    dsimp only at hfind hdisk ⊢
    obtain ⟨hfind', hdisk', -⟩ := hfind.inv.find d' n'
    rcases hp' : s₁.find d' n' with ⟨target, s₂⟩
    rw [hp'] at hfind' hdisk'
    have hfinds := hfind.trans hfind'
    have hrename := hfinds.inv.renameChild d n d' n' fail
    rw [hfinds.losesLink (hdisk'.trans hdisk)] at hrename
    cases target with
    | none => exact hfinds.of_nobody.trans hrename
    | some target =>
      dsimp only
      split
      · exact hfinds.of_nobody
      split
      · exact hfinds.of_nobody
      · split
        · exact hfinds.of_nobody
        · exact hfinds.of_nobody.trans hrename

theorem Inv.reclaimOneInode (h : Inv s) : Stays nobody s (s.reclaimOneInode i) := by
  unfold State.reclaimOneInode
  split
  · split
    · exact Stays.refl h
    · exact h.removeCachedInode i
  · exact Stays.refl h

/-! ## New files -/

/-- A new file does not get a number for which a handle or a dentry still holds an inode. -/
def Careful (s : State) : Label → Prop
  | .create _ _ _ _ new => ∀ o, o < s.nextInode → s.held o → (s.inodes o).ino ≠ new
  | _ => True

instance (s : State) (l : Label) : Decidable (Careful s l) :=
  match l with
  | .create _ _ _ _ new =>
    inferInstanceAs (Decidable (∀ o, o < s.nextInode → s.held o → (s.inodes o).ino ≠ new))
  | .openFile .. | .close _ | .unlink .. | .rename .. | .access .. | .sync .. | .reclaimPage .. |
    .reclaimInode _ => inferInstanceAs (Decidable True)

/-- Without inodes of the number, the next file of the number starts alone. -/
theorem Inv.newFile (h : Inv s) (hnew : ∀ o, o < s.nextInode → s.held o → (s.inodes o).ino ≠ new) :
    Inv ((s.newFile new disk).removeCachedInode new) where
  cache_ino := by
    intro i o ho
    unfold State.removeCachedInode State.newFile at ho
    dsimp only at ho
    by_cases hi : i = new
    · rw [hi, update_self] at ho
      cases ho
    · rw [update_of_ne hi] at ho
      exact h.cache_ino i o ho
  gen_le := by
    intro o ho
    have hle := h.gen_le o ho
    unfold State.removeCachedInode State.newFile
    dsimp only
    by_cases hi : (s.inodes o).ino = new
    · rw [hi] at hle
      rw [hi, update_self]
      exact hle.trans (Nat.le_succ _)
    · rwa [update_of_ne hi]
  current := by
    intro o ho
    unfold State.Current State.removeCachedInode State.newFile
    dsimp only
    have hcur : s.Current o ∧ (s.inodes o).ino ≠ new := by
      rcases alive_iff.mp ho with ho | ho
      · have hcur := h.current o (alive_iff.mpr (.inl ho))
        exact ⟨hcur, hnew o hcur.1 ho⟩
      unfold State.removeCachedInode State.newFile at ho
      dsimp only at ho
      by_cases hi : (s.inodes o).ino = new
      · rw [hi, update_self] at ho
        cases ho
      · rw [update_of_ne hi] at ho
        exact ⟨h.current o (alive_iff.mpr (.inr ho)), hi⟩
    rw [update_of_ne hcur.2]
    exact hcur.1
  __ := h

/-- A file that is not made yet has nothing. -/
theorem Inv.view_unborn (h : Inv s) (hf : s.gen f.1 < f.2) : s.view f = ⟨none, fun _ => none⟩ := by
  unfold State.view
  congr 1
  · exact if_neg hf.ne
  funext m
  apply if_neg
  rintro ⟨hm, rfl⟩
  obtain ⟨hlt, hfile⟩ := h.inode_file m hm
  have hle := h.gen_le _ hlt
  rw [← hfile] at hf
  exact absurd hf (not_lt.mpr hle)

/-- Only the new file and the one before it with the number see that a file is made. -/
theorem view_newFile (hf : f ≠ (new, s.gen new)) (hf' : f ≠ (new, s.gen new + 1)) :
    ((s.newFile new disk).removeCachedInode new).view f = s.view f := by
  unfold State.view State.removeCachedInode State.newFile
  by_cases hi : f.1 = new
  · have hne : s.gen f.1 ≠ f.2 := by
      intro hgen
      exact hf (Prod.ext hi (hgen.symm.trans (congrArg s.gen hi)))
    have hne' : update s.gen new (s.gen new + 1) f.1 ≠ f.2 := by
      intro hgen
      rw [hi, update_self] at hgen
      exact hf' (Prod.ext hi hgen.symm)
    rw [if_neg hne, if_neg hne']
  · simp only [update_of_ne hi]

/-- The creation of a file, from the moment when the backend has made it. -/
theorem Inv.create (h : Inv s) (hcareful : Careful s (.create fd d n sfn new)) : s.create fd d n sfn
    new = s ∨ ∃ disk, Inv ((s.newFile new disk).removeCachedInode new) ∧
        Stays nobody ((s.newFile new disk).removeCachedInode new) (s.create fd d n sfn new) := by
  unfold State.create
  rcases s.disk.apply false (.create .regular d n sfn (some new)) with ⟨err, disk⟩
  cases err with
  | some err => exact .inl rfl
  | none =>
    right
    have hinv : Inv ((s.newFile new disk).removeCachedInode new) := h.newFile hcareful
    obtain ⟨hmade, hcur⟩ := hinv.getOrCreateInode new
    have hins := hmade.inv.insertDentry d n (some (State.getOrCreateInode _ new).1) fun o ho => by
      cases ho
      exact hcur
    exact ⟨disk, hinv, (hmade.trans hins).trans (hins.inv.insertHandle (hins.current hcur) fd)⟩

/-- The files that a call is on.  A new file takes the number of the one before it. -/
def Label.Concerns (l : Label) (s s' : State) (f : FileId) : Prop :=
  match l with
  | .create _ _ _ _ new => f = (new, s.gen new + 1) ∨ f = (new, s.gen new)
  | .unlink d n _ => Unlinks s s' d n f
  | .rename .. => LosesLink s s'.disk f
  | .access fd _ _ _ => ∃ o, s.handles.get? fd = some o ∧ f = (s.inodes o).file
  | .sync i _ _ => f = (i, s.gen i)
  | .reclaimPage m _ _ _ => f = (s.mappings m).file
  | .openFile .. | .close _ | .reclaimInode _ => False

theorem inv_boot (disk : Disk) (contents : Ino → File) : Inv (boot disk contents) where
  cache_ino _ _ ho := by cases ho
  gen_le _ ho := absurd ho (Nat.not_lt_zero _)
  current o ho := by
    rcases alive_iff.mp ho with ho | ho
    · rcases held_iff.mp ho with ⟨fd, hfd⟩ | ⟨k, hk⟩
      · cases hfd
      · cases hk
    · cases ho
  mapping_file _ _ ho := absurd ho (Nat.not_lt_zero _)
  inode_file _ hm := absurd hm (Nat.not_lt_zero _)
  registry_ino _ _ hm := by cases hm

/-- One call: the invariant, and the views of the files that it is not on. -/
theorem Inv.next (h : Inv s) (hcareful : Careful s l) (hn : next s l = some s') :
    Inv s' ∧ ∀ f, ¬ l.Concerns s s' f → s'.view f = s.view f := by
  cases l with unfold OpenFiles.next at hn
  | create fd d n sfn new =>
    dsimp only at hn
    split at hn
    · cases hn
    cases hn
    rcases h.create hcareful with heq | ⟨disk, -, hstays⟩
    · rw [heq]
      exact ⟨h, fun _ _ => rfl⟩
    · refine ⟨hstays.inv, ?_⟩
      intro f hf
      rw [hstays.view f id]
      exact view_newFile (fun h' => hf (.inr h')) fun h' => hf (.inl h')
  | openFile fd d n =>
    dsimp only at hn
    split at hn
    · cases hn
    · cases hn
      exact ⟨h.openFile.inv, h.openFile.view⟩
  | close fd =>
    cases hn
    exact ⟨(h.closeHandle fd).inv, (h.closeHandle fd).view⟩
  | unlink d n fail =>
    cases hn
    exact ⟨h.unlinkChild.inv, h.unlinkChild.view⟩
  | rename d n d' n' fail =>
    cases hn
    exact ⟨h.renameAt.inv, h.renameAt.view⟩
  | access fd fuel frames op =>
    obtain ⟨⟨s₁, bytes⟩, hcall, rfl⟩ := Option.map_eq_some_iff.mp hn
    cases hfd : s.handles.get? fd with
    | none =>
      unfold State.access at hcall
      rw [hfd] at hcall
      cases hcall
    | some o =>
      obtain ⟨hstays, -⟩ := h.access hfd hcall
      exact ⟨hstays.inv, fun f hf => hstays.view f fun hf' => hf ⟨o, hfd, hf'⟩⟩
  | sync i fuel frames =>
    obtain ⟨⟨s₁, bytes⟩, hcall, rfl⟩ := Option.map_eq_some_iff.mp hn
    obtain ⟨hstays, -⟩ := h.syncInode hcall
    exact ⟨hstays.inv, hstays.view⟩
  | reclaimPage m page fuel frames =>
    rcases Option.ite_none_right_eq_some.mp hn with ⟨hatt, hn⟩
    obtain ⟨⟨s₁, bytes⟩, hcall, rfl⟩ := Option.map_eq_some_iff.mp hn
    obtain ⟨o, ho, -, hm⟩ := attached_iff.mp hatt
    obtain ⟨hstays, -⟩ := h.onMapping (h.mapping_file o m ho hm).1 hcall
    exact ⟨hstays.inv, hstays.view⟩
  | reclaimInode i =>
    cases hn
    exact ⟨h.reclaimOneInode.inv, h.reclaimOneInode.view⟩

theorem inv_of_reach (h : machine.Reach Careful s) : Inv s := by
  apply h.invariant
  · rintro s ⟨disk, contents, rfl⟩
    exact inv_boot disk contents
  · intro s l s' hs hl hn
    exact (hs.next hl hn).1

/-- A number's new file starts with no bytes. -/
theorem Inv.view_created (h : Inv s) (hcareful : Careful s (.create fd d n sfn new))
    (hgen : (s.create fd d n sfn new).gen new ≠ s.gen new) :
    (s.create fd d n sfn new).view (new, (s.create fd d n sfn new).gen new) =
      ⟨some .empty, fun _ => none⟩ := by
  rcases h.create hcareful with heq | ⟨disk, -, hstays⟩
  · rw [heq] at hgen
    exact absurd rfl hgen
  have hgen' : (s.create fd d n sfn new).gen new = s.gen new + 1 := by
    rw [hstays.gen]
    exact update_self ..
  have hunborn : s.view (new, s.gen new + 1) = ⟨none, fun _ => none⟩ :=
    h.view_unborn (Nat.lt_succ_self _)
  rw [hgen', hstays.view _ id]
  refine congrArg₂ View.mk ?_ (congrArg View.caches hunborn)
  unfold State.removeCachedInode State.newFile
  dsimp only
  rw [if_pos (update_self ..), update_self]

/-- In a run that gives no number away for which an inode is held: a call through a handle gives bytes of
the handle's own file and changes no other one, every call leaves the files that it is not on as they are,
and a new file starts with no bytes. -/
theorem numbers_isolate_files (h : machine.Reach Careful s) :
    (∀ fd o fuel frames op s' bytes, s.handles.get? fd = some o →
      s.access fd fuel frames op = some (s', bytes) →
      (bytes = noBytes ∨ (s.view (s.inodes o).file).Gives fuel frames op bytes) ∧
        ∀ f, f ≠ (s.inodes o).file → s'.view f = s.view f) ∧
    (∀ l s', Careful s l → machine.next s l = some s' →
      ∀ f, ¬ l.Concerns s s' f → s'.view f = s.view f) ∧
    (∀ fd d n sfn new s', Careful s (.create fd d n sfn new) →
      machine.next s (.create fd d n sfn new) = some s' → s'.gen new ≠ s.gen new →
      s'.view (new, s'.gen new) = ⟨some .empty, fun _ => none⟩) := by
  have hinv := inv_of_reach h
  refine ⟨?_, ?_, ?_⟩
  · intro fd o fuel frames op s' bytes hfd hcall
    obtain ⟨hstays, hbytes⟩ := hinv.access hfd hcall
    exact ⟨hbytes, hstays.view⟩
  · intro l s' hcareful hn
    exact (hinv.next hcareful hn).2
  · intro fd d n sfn new s' hcareful hn hgen
    unfold machine OpenFiles.next at hn
    rcases Option.ite_none_left_eq_some.mp hn with ⟨_, ⟨⟩⟩
    exact hinv.view_created hcareful hgen

def oneByte (b : UInt8) : Slice UInt8 := ⟨1, fun _ => b⟩

def State.reads (s : State) (fd : Fd) (b : UInt8) : Bool :=
  (s.access fd 8 id (.read 0 1)).any fun r : State × Slice UInt8 => r.2.len = 1 ∧ r.2.get 0 = b

theorem reads_iff {b : UInt8} : s.reads fd b = true ↔
    ∃ s' bytes, s.access fd 8 id (.read 0 1) = some (s', bytes) ∧ bytes.len = 1 ∧ bytes.get 0 = b := by
  unfold State.reads
  rw [Option.any_eq_true]
  simp only [decide_eq_true_eq]
  constructor
  · rintro ⟨⟨s', bytes⟩, hcall, hbyte⟩
    exact ⟨s', bytes, hcall, hbyte⟩
  · rintro ⟨s', bytes, hcall, hbyte⟩
    exact ⟨(s', bytes), hcall, hbyte⟩

def reuse : List Label :=
  [.create 0 2 ['a'] none 5, .access 0 8 id (.write 0 (oneByte 3)), .close 0, .unlink 2 ['a'] false,
    .create 1 2 ['b'] none 5, .access 1 8 id (.write 0 (oneByte 7))]

/-- The handle on the second file of the number reads its own byte. -/
theorem numbers_isolate_files_reused :
    ∃ s s' bytes, machine.Reach Careful s ∧ s.handles.get? 1 = some 1 ∧ (s.inodes 1).file = (5, 2) ∧
      s.access 1 8 id (.read 0 1) = some (s', bytes) ∧ bytes.len = 1 ∧ bytes.get 0 = 7 ∧
      (s.view (5, 2)).Gives 8 id (.read 0 1) bytes ∧ s'.view (5, 1) = s.view (5, 1) := by
  obtain ⟨s, hreach, hfd, hfile, hreads⟩ := machine.exists_reach_of_runWhile Careful
    (fun s : State => s.handles.get? 1 = some 1 ∧ (s.inodes 1).file = (5, 2) ∧ s.reads 1 7 = true)
    reuse ⟨Disk.fresh .ext4, fun _ => .empty, rfl⟩ (by decide)
  obtain ⟨s', bytes, hcall, hlen, hbyte⟩ := reads_iff.mp hreads
  obtain ⟨hgives, hothers⟩ := (numbers_isolate_files hreach).1 1 1 8 id (.read 0 1) s' bytes hfd hcall
  rw [hfile] at hgives hothers
  refine ⟨s, s', bytes, hreach, hfd, hfile, hcall, hlen, hbyte, ?_, hothers (5, 1) (by decide)⟩
  rcases hgives with rfl | hgives
  · cases hlen
  · exact hgives

/-- An open file is unlinked and its number reused: through the old handle the byte of the new file is read,
and a write through the old handle is seen by the new one. -/
theorem old_handle_reaches_new_file :
    ∃ s s', machine.Reachable s ∧ s.handles.get? 0 = some 0 ∧ s.handles.get? 1 = some 1 ∧
      (s.inodes 0).file = (5, 1) ∧ (s.inodes 1).file = (5, 2) ∧ s.reads 0 7 = true ∧
      machine.next s (.access 0 8 id (.write 0 (oneByte 9))) = some s' ∧ s'.reads 1 9 = true := by
  obtain ⟨s, hreach, hfd, hfd', hfile, hfile', hread, hwrite⟩ := machine.exists_reachable_of_run
    (fun s : State => s.handles.get? 0 = some 0 ∧ s.handles.get? 1 = some 1 ∧
      (s.inodes 0).file = (5, 1) ∧ (s.inodes 1).file = (5, 2) ∧ s.reads 0 7 = true ∧
      ((machine.next s (.access 0 8 id (.write 0 (oneByte 9)))).any fun s' : State => s'.reads 1 9) = true)
    [.create 0 2 ['a'] none 5, .unlink 2 ['a'] false, .create 1 2 ['b'] none 5,
      .access 1 8 id (.write 0 (oneByte 7))]
    ⟨Disk.fresh .ext4, fun _ => .empty, rfl⟩ (by decide)
  obtain ⟨s', hn, hread'⟩ := (Option.any_eq_true _ _).mp hwrite
  exact ⟨s, s', hreach, hfd, hfd', hfile, hfile', hread, hn, hread'⟩

end CosmOS.Vfs.OpenFiles
