import CosmOS.Vfs.Overlay

/-!
# Vfs.Lookup — lookups through the dentry cache

* `Careful`: no name that an operation changes is cached under another key, and the key that the operation
  sets is told the truth.
* `Inv`: the cache agrees with the nodes at every key.
* `inv_call`: after a call of a file system the cache can be wrong only at the keys that the operation goes
  on to set.
* `find_refines_nodes`: `Inode::find` gives what the node finds.
-/

namespace CosmOS.Vfs.Namespace

open Function List State DentryCache

variable {s s' : State} {h h' b : Handle} {n n' : Name} {i : Ino} {fail : Bool} {fs : FsId} {r : Request}

/-! ## When the cache is told everything -/

/-- The lookup of the key would find the entry. -/
def Sees (s : State) (fs : FsId) (e : Dirent) (k : DentryKey) : Prop :=
  mount? s.virts (k.fsId, k.parentIno) k.name = none ∧
    match bottom s.virts (k.fsId, k.parentIno) with
    | .disk b => b.1 = fs ∧ (s.disks fs).Answers e b.2 k.name
    | .bare _ | .missing => False

instance (s : State) (fs : FsId) (e : Dirent) (k : DentryKey) : Decidable (Sees s fs e k) := by
  unfold Sees
  cases bottom s.virts (k.fsId, k.parentIno) <;> infer_instance

/-- Of the keys that are cached only some would find an entry that the request adds or removes. -/
def Known (s : State) (fs : FsId) (r : Request) (ks : List DentryKey) : Prop :=
  ∀ e ∈ (s.disks fs).footprint r, ∀ k ∈ s.cache.table.keys, Sees s fs e k → k ∈ ks

instance (s : State) (fs : FsId) (r : Request) (ks : List DentryKey) : Decidable (Known s fs r ks) :=
  inferInstanceAs (Decidable (∀ e ∈ _, ∀ k ∈ _, _ → _))

/-- The keys that `create`, `mkdir` and `symlink` set: none, if `symlink` fails after the entry is made. -/
def createKeys (h : Handle) (n : Name) (fail : Bool) (r : Request) : List DentryKey :=
  if Disk.Torn fail r then [] else [key h n]

/-- The condition on `create`, `mkdir` and `symlink`: the name is not hidden by a mount, and the entry
answers to it. -/
def CarefulCreate (s : State) (ft : FileType) (h : Handle) (n : Name) (sfn : Option Name)
    (new : Option Ino) (fail : Bool) : Prop :=
  mount? s.virts h n = none ∧
    match bottom s.virts h with
    | .disk b =>
      (s.disks b.1).Alive (.create ft b.2 n sfn new) ∧ (s.disks b.1).Answered (.create ft b.2 n sfn new) ∧
        Known s b.1 (.create ft b.2 n sfn new) (createKeys h n fail (.create ft b.2 n sfn new))
    | .bare i =>
      ∀ k ∈ s.cache.table.keys, k.name = n → through s.virts (k.fsId, k.parentIno) i = true → k = key h n
    | .missing => True

instance (s : State) (ft : FileType) (h : Handle) (n : Name) (sfn : Option Name) (new : Option Ino)
    (fail : Bool) : Decidable (CarefulCreate s ft h n sfn new fail) := by
  unfold CarefulCreate
  cases bottom s.virts h <;> infer_instance

/-- The condition on `rename_child`: its names are not links of one file under two keys. -/
def CarefulRename (s : State) (h : Handle) (n : Name) (h' : Handle) (n' : Name) : Prop :=
  match renameDirs s.virts h n s.virts h' n' with
  | .ok (b, b') =>
    (s.disks b.1).Alive (.rename b.2 n b'.2 n') ∧
      Known s b.1 (.rename b.2 n b'.2 n') [key h n, key h' n'] ∧
      (key h n = key h' n' ∨ (s.disks b.1).find b.2 n = none ∨
        (s.disks b.1).find b'.2 n' ≠ (s.disks b.1).find b.2 n)
  | .error _ => True

instance (s : State) (h : Handle) (n : Name) (h' : Handle) (n' : Name) :
    Decidable (CarefulRename s h n h' n') := by
  unfold CarefulRename
  cases renameDirs s.virts h n s.virts h' n' <;> infer_instance

/-- An operation changes no name that is cached under another key. -/
def Careful (s : State) : Op → Prop
  | .find _ _ => True
  | .create ft h n sfn new fail => CarefulCreate s ft h n sfn new fail
  | .link h n n' _ => ∀ b, bottom s.virts h = .disk b → Known s b.1 (.link b.2 n n') []
  | .remove dir h n _ =>
    ∀ b, bottom s.virts h = .disk b → Known s b.1 (if dir then .rmdir b.2 n else .unlink b.2 n) [key h n]
  | .rename h n h' n' _ => CarefulRename s h n h' n'

/-- A statement about the directory at the bottom. -/
def decideBottom (b : Bottom) (P : Handle → Prop) [∀ h, Decidable (P h)] :
    Decidable (∀ h, b = .disk h → P h) :=
  match b with
  | .disk h => decidable_of_iff (P h) ⟨fun hp _ heq => Bottom.disk.inj heq ▸ hp, fun hp => hp h rfl⟩
  | .bare _ | .missing => isTrue nofun

instance (s : State) : DecidablePred (Careful s)
  | .find _ _ => isTrue trivial
  | .create ft h n sfn new fail => inferInstanceAs (Decidable (CarefulCreate s ft h n sfn new fail))
  | .link h n n' _ => decideBottom (bottom s.virts h) fun b => Known s b.1 (.link b.2 n n') []
  | .remove dir h n _ => decideBottom (bottom s.virts h) fun b =>
    Known s b.1 (if dir then .rmdir b.2 n else .unlink b.2 n) [key h n]
  | .rename h n h' n' _ => inferInstanceAs (Decidable (CarefulRename s h n h' n'))

structure Inv (s : State) : Prop where
  wf : ∀ fs, (s.disks fs).Wf
  unused : ∀ k, s.cache.Unused k
  agrees : ∀ k, Memo.Agrees s.cache.cached s.truth k

variable {k : DentryKey} {ks : List DentryKey} {v : Option Handle}

theorem mem_keys_of_cached {c : DentryCache Handle}
    (hv : c.cached k = some v) : k ∈ c.table.keys := by
  obtain ⟨e, he, -⟩ := Option.map_eq_some_iff.mp hv
  exact BTreeMap.mem_keys.mpr ⟨e, BTreeMap.get?_eq_some_iff.mp he⟩

theorem truth_of_ends (he : Ends s.virts h n b) : s.truth (key h n) = diskFind s.disks b n := by
  unfold truth
  rw [nodeFind_eq]
  rw [show ((key h n).fsId, (key h n).parentIno) = h from rfl, show (key h n).name = n from rfl, he.1, he.2]
  rfl

/-! ## Parts of an operation -/

/-- `Inode::find` finds the truth, and stores it. -/
theorem inv_find (hinv : Inv s) (h : Handle) (n : Name) :
    (find s h n).1 = s.truth (key h n) ∧ Inv (find s h n).2 := by
  constructor
  · exact find_of_agrees s.truth (hinv.unused _) (hinv.agrees _)
  constructor
  · exact hinv.wf
  · exact unused_find hinv.unused _ _
  · intro k v hv
    rcases find_stores (hinv.unused _) hv with ⟨rfl, rfl⟩ | hv
    · rfl
    · exact hinv.agrees k v hv

/-- A lookup that would not find an entry of the footprint is not changed by a call. -/
theorem truth_call (hinv : Inv s) (halive : (s.disks fs).Alive r)
    (hsees : ∀ e ∈ (s.disks fs).footprint r, ¬ Sees s fs e k) :
    (s.call fs fail r).2.truth k = s.truth k := by
  unfold truth call
  rw [nodeFind_eq, nodeFind_eq]
  cases hmount : mount? s.virts (k.fsId, k.parentIno) k.name with
  | some m => rfl
  | none =>
    cases hbottom : bottom s.virts (k.fsId, k.parentIno) with
    | bare i => rfl
    | missing => rfl
    | disk b =>
      unfold bottomFind diskFind
      dsimp only
      by_cases hb : b.1 = fs
      · rw [hb, update_self]
        have hsilent : (s.disks fs).Silent ((s.disks fs).footprint r) b.2 k.name := by
          intro e he hans
          refine hsees e he ⟨hmount, ?_⟩
          rw [hbottom]
          exact ⟨hb, hans⟩
        rw [((s.disks fs).apply_done fail r).find_eq_of_silent (hinv.wf fs) halive hsilent]
      · rw [update_of_ne hb]

/-- After a call the cache can be wrong only at the keys that are left to be set. -/
theorem inv_call (hinv : Inv s) (fail : Bool) (halive : (s.disks fs).Alive r)
    (hknown : Known s fs r ks) : (∀ fs', ((s.call fs fail r).2.disks fs').Wf) ∧
      ∀ k, k ∉ ks → Memo.Agrees s.cache.cached (s.call fs fail r).2.truth k := by
  constructor
  · intro fs'
    unfold call
    dsimp only
    rcases eq_or_ne fs' fs with rfl | hfs
    · rw [update_self]
      exact ((s.disks fs').apply_done fail r).wf (hinv.wf fs') halive
    · rw [update_of_ne hfs]
      exact hinv.wf fs'
  · intro k hk v hv
    have hsees : ∀ e ∈ (s.disks fs).footprint r, ¬ Sees s fs e k :=
      fun e he hs => hk (hknown e he k (mem_keys_of_cached hv) hs)
    rw [truth_call hinv halive hsees]
    exact hinv.agrees k v hv

/-- What is found under a name after a call. -/
theorem truth_call_of_ends (he : Ends s.virts h n b) : (s.call b.1 fail r).2.truth (key h n) =
      (((s.disks b.1).apply fail r).2.find b.2 n).map fun i => (b.1, i) := by
  have he' : Ends (s.call b.1 fail r).2.virts h n b := he
  rw [truth_of_ends he']
  unfold diskFind call
  dsimp only
  rw [update_self]

theorem call_of_error {err : FsErrno} (herr : (s.call fs fail r).1 = some err) (ht : ¬ Disk.Torn fail r) :
    (s.call fs fail r).2 = s := by
  have hdone := (s.disks fs).apply_done fail r
  unfold call at herr ⊢
  rw [herr] at hdone
  rw [hdone.eq_of_error ht, update_eq_self]

/-- The operation sets the last key at which the cache could be wrong. -/
theorem inv_insertDentry (hwf : ∀ fs, (s.disks fs).Wf)
    (hunused : ∀ k, s.cache.Unused k) (hrest : ∀ k', k' ≠ k → Memo.Agrees s.cache.cached s.truth k')
    (hv : v = s.truth k) : Inv { s with cache := s.cache.insertDentry k v } where
  wf := hwf
  unused := unused_insertDentry hunused k v
  agrees k' := by
    have hstores := insertDentry_stores (hunused k) v
    rcases eq_or_ne k' k with rfl | hk
    · exact hstores.agrees hv
    · exact hstores.agrees_of_ne hk (hrest k' hk)

/-- A lookup of a key that will be set does not matter. -/
theorem known_find (hunused : ∀ k, s.cache.Unused k) (hk : Known s fs r ks)
    (hmem : key h n ∈ ks) : Known (find s h n).2 fs r ks := by
  intro e he k hkey hsees
  obtain ⟨entry, hentry⟩ := BTreeMap.mem_keys.mp hkey
  have hcached : (find s h n).2.cache.cached k = some entry.child := by
    unfold cached
    rw [BTreeMap.get?_eq_some_iff.mpr hentry]
    rfl
  rcases find_stores (hunused _) hcached with ⟨rfl, -⟩ | hv
  · exact hmem
  · exact hk e he k (mem_keys_of_cached hv) hsees

/-! ## Each operation -/

section

variable (hinv : Inv s)
include hinv

variable {sfn : Option Name} {new : Option Ino}

/-- `create`, `mkdir` and `symlink` in a directory of a file system. -/
theorem inv_create_disk {ft : FileType}
    (hends : Ends s.virts h n b) (halive : (s.disks b.1).Alive (.create ft b.2 n sfn new))
    (hans : (s.disks b.1).Answered (.create ft b.2 n sfn new))
    (hknown : Known s b.1 (.create ft b.2 n sfn new) (createKeys h n fail (.create ft b.2 n sfn new))) :
    Inv (create s ft h n sfn new fail).2 := by
  obtain ⟨hwf, hagrees⟩ := inv_call hinv fail halive hknown
  unfold create
  rw [hends.1]
  dsimp only
  rw [← Prod.mk.eta (p := s.call b.1 fail (.create ft b.2 n sfn new))]
  cases herr : (s.call b.1 fail (.create ft b.2 n sfn new)).1 with
  | none =>
    refine inv_insertDentry hwf hinv.unused ?_ ?_
    · intro k hk
      refine hagrees k ?_
      unfold createKeys
      split
      · exact not_mem_nil
      · exact fun hmem => hk (mem_singleton.mp hmem)
    · -- the new entry is found
      have hdone := (s.disks b.1).apply_done fail (.create ft b.2 n sfn new)
      rw [show ((s.disks b.1).apply fail (.create ft b.2 n sfn new)).1 = none from herr] at hdone
      obtain ⟨i, rfl, hfind⟩ := hdone.find_created (hinv.wf b.1) halive
      rw [truth_call_of_ends hends, hfind hans]
  | some err =>
    by_cases ht : Disk.Torn fail (.create ft b.2 n sfn new)
    · -- the entry is there, and no key was cached that finds it
      unfold createKeys at hagrees
      rw [if_pos ht] at hagrees
      exact ⟨hwf, hinv.unused, fun k => hagrees k not_mem_nil⟩
    · rwa [call_of_error herr ht]

/-- `mkdir` in a virtual directory without an overlay. -/
theorem inv_create_bare (hbottom : bottom s.virts h = .bare i) (hmount : mount? s.virts h n = none)
    (hknown : ∀ k ∈ s.cache.table.keys, k.name = n → through s.virts (k.fsId, k.parentIno) i = true →
      k = key h n) : Inv (create s .directory h n sfn new fail).2 := by
  unfold create
  rw [hbottom]
  dsimp only
  refine inv_insertDentry
    (s := { s with
      virts := .new :: bind i n (virtFsId, s.virts.length + 1) s.virts
      cache := s.cache.removeDentry (key (virtFsId, i) n) })
    hinv.wf (unused_removeDentry hinv.unused _) ?_ ?_
  · intro k hk v hv
    rw [cached_removeDentry (hinv.unused _)] at hv
    split at hv
    · cases hv
    refine (hinv.agrees k v hv).trans ?_
    unfold truth
    rw [nodeFind_new, nodeFind_bind]
    rintro ⟨hname, hthrough⟩
    exact hk (hknown k (mem_keys_of_cached hv) hname hthrough)
  · unfold truth
    rw [nodeFind_new]
    exact (nodeFind_bind_bottom hbottom hmount).symm

theorem inv_create {ft : FileType} (hok : CarefulCreate s ft h n sfn new fail) :
    Inv (create s ft h n sfn new fail).2 := by
  obtain ⟨hmount, hok⟩ := hok
  cases hbottom : bottom s.virts h with rw [hbottom] at hok
  | disk b =>
    exact inv_create_disk hinv ⟨hbottom, hmount⟩ hok.1 hok.2.1 hok.2.2
  | bare i =>
    rcases eq_or_ne ft .directory with rfl | hft
    · exact inv_create_bare hinv hbottom hmount hok
    unfold create
    rw [hbottom]
    dsimp only
    rwa [if_neg hft]
  | missing =>
    unfold create
    rwa [hbottom]

theorem inv_link (hok : Careful s (.link h n n' fail)) : Inv (link s h n n' fail).2 := by
  unfold link
  cases hbottom : bottom s.virts h with
  | disk b =>
    obtain ⟨hwf, hagrees⟩ := inv_call hinv fail (r := .link b.2 n n') trivial (hok b hbottom)
    exact ⟨hwf, hinv.unused, fun k => hagrees k not_mem_nil⟩
  | bare i | missing => exact hinv

theorem inv_remove {dir : Bool} (hok : Careful s (.remove dir h n fail)) :
    Inv (remove s dir h n fail).2 := by
  have hinv₁ := (inv_find hinv h n).2
  have hvirts : (find s h n).2.virts = s.virts := rfl
  unfold remove nodeRemove
  rw [hvirts]
  by_cases hmount : (mount? s.virts h n).isSome
  · rwa [if_pos hmount]
  rw [if_neg hmount]
  cases hbottom : bottom s.virts h with
  | bare i | missing => exact hinv₁
  | disk b =>
    have hends : Ends (find s h n).2.virts h n b := ⟨hbottom, Option.not_isSome_iff_eq_none.mp hmount⟩
    dsimp only
    generalize hr : (if dir = true then Request.rmdir b.2 n else Request.unlink b.2 n) = r
    have hreq : r = .unlink b.2 n ∨ r = .rmdir b.2 n := by
      cases dir with
      | false => exact .inl hr.symm
      | true => exact .inr hr.symm
    have hknown : Known (find s h n).2 b.1 r [key h n] := by
      rw [← hr]
      exact known_find hinv.unused (hok b hbottom) (mem_singleton_self _)
    have halive : (s.disks b.1).Alive r := by
      rcases hreq with rfl | rfl <;> exact trivial
    have htorn : ¬ Disk.Torn fail r := by
      rcases hreq with rfl | rfl <;> exact id
    obtain ⟨hwf, hagrees⟩ := inv_call hinv₁ fail halive hknown
    have hset : ∀ err, ((find s h n).2.call b.1 fail r).1 = err → err = none ∨ err = some .ENOENT →
        Inv { ((find s h n).2.call b.1 fail r).2 with
          cache := ((find s h n).2.call b.1 fail r).2.cache.insertDentry (key h n) none } := by
      intro err herr hgone
      refine inv_insertDentry hwf hinv₁.unused ?_ ?_
      · intro k hk
        exact hagrees k fun hmem => hk (mem_singleton.mp hmem)
      · have hdone := (s.disks b.1).apply_done fail r
        rw [show ((s.disks b.1).apply fail r).1 = err from herr] at hdone
        have hfind := hdone.find_gone (hinv.wf b.1) hreq hgone
        exact ((truth_call_of_ends hends).trans (congrArg (Option.map _) hfind)).symm
    rw [← Prod.mk.eta (p := (find s h n).2.call b.1 fail r)]
    cases herr : ((find s h n).2.call b.1 fail r).1 with
    | none => exact hset none herr (.inl rfl)
    | some err =>
      rcases eq_or_ne err .ENOENT with rfl | hnoent
      · exact hset _ herr (.inr rfl)
      have hsame := call_of_error herr htorn
      have hres : Inv ((find s h n).2.call b.1 fail r).2 := by
        rwa [hsame]
      cases err <;> first | exact absurd rfl hnoent | exact hres

/-- What a successful rename does to the two names. -/
theorem truth_rename {b' : Handle} (hends : Ends s.virts h n b)
    (hends' : Ends s.virts h' n' b') (hfs : b.1 = b'.1)
    (halive : (s.disks b.1).Alive (.rename b.2 n b'.2 n'))
    (herr : (s.call b.1 fail (.rename b.2 n b'.2 n')).1 = none)
    (hlinked : key h n = key h' n' ∨ (s.disks b.1).find b.2 n = none ∨
      (s.disks b.1).find b'.2 n' ≠ (s.disks b.1).find b.2 n) :
    ∃ child, s.truth (key h n) = some child ∧
      (s.call b.1 fail (.rename b.2 n b'.2 n')).2.truth (key h' n') = some child ∧
      (key h n ≠ key h' n' → (s.call b.1 fail (.rename b.2 n b'.2 n')).2.truth (key h n) = none) := by
  have hdone := (s.disks b.1).apply_done fail (.rename b.2 n b'.2 n')
  rw [show ((s.disks b.1).apply fail (.rename b.2 n b'.2 n')).1 = none from herr] at hdone
  obtain ⟨i, hfound, hmoved, hgone⟩ := hdone.find_renamed (hinv.wf b.1) halive
  refine ⟨(b.1, i), ?_, ?_, fun hne => ?_⟩
  · rw [truth_of_ends hends]
    unfold diskFind
    rw [hfound]
    rfl
  · have heq : (s.call b'.1 fail (.rename b.2 n b'.2 n')).2.truth (key h' n') =
        (((s.disks b'.1).apply fail (.rename b.2 n b'.2 n')).2.find b'.2 n').map fun i => (b'.1, i) :=
      truth_call_of_ends hends'
    rw [← hfs] at heq
    rw [heq, hmoved]
    rfl
  · rw [truth_call_of_ends hends, hgone]
    · rfl
    rcases hlinked with heq | hnone | hdiff
    · exact absurd heq hne
    · rw [hfound] at hnone
      cases hnone
    · rwa [hfound] at hdiff

theorem inv_rename (hok : CarefulRename s h n h' n') : Inv (rename s h n h' n' fail).2 := by
  obtain ⟨hold, hinv₁⟩ := inv_find hinv h n
  obtain ⟨-, hinv₂⟩ := inv_find hinv₁ h' n'
  unfold rename
  dsimp only
  rw [hold]
  generalize hs₂ : (find (find s h n).2 h' n').2 = s₂ at hinv₂
  have hvirts : s₂.virts = s.virts := by rw [← hs₂]; rfl
  have hdisks : s₂.disks = s.disks := by rw [← hs₂]; rfl
  have htruth : s₂.truth = s.truth := by rw [← hs₂]; rfl
  unfold CarefulRename at hok
  unfold nodeRename
  rw [hvirts]
  cases hdirs : renameDirs s.virts h n s.virts h' n' with
  | error err => exact hinv₂
  | ok dirs =>
    obtain ⟨b, b'⟩ := dirs
    rw [hdirs] at hok
    obtain ⟨halive, hknown, hlinked⟩ := hok
    obtain ⟨hends, hends'⟩ := renameDirs_ok hdirs
    dsimp only
    by_cases hdev : (s₂.disks b.1).kind = .ext4 ∧ b.1 ≠ b'.1
    · rwa [if_pos hdev]
    rw [if_neg hdev]
    -- the two lookups have stored the names of the rename at most
    have hknown₂ : Known s₂ b.1 (.rename b.2 n b'.2 n') [key h n, key h' n'] := by
      rw [← hs₂]
      refine known_find hinv₁.unused (known_find hinv.unused hknown ?_) ?_
      · exact .head _
      · exact .tail _ (mem_singleton_self _)
    rw [← hdisks] at halive hlinked
    rw [← hvirts] at hends hends'
    obtain ⟨hwf, hagrees⟩ := inv_call hinv₂ fail halive hknown₂
    rw [← Prod.mk.eta (p := s₂.call b.1 fail (.rename b.2 n b'.2 n'))]
    cases herr : (s₂.call b.1 fail (.rename b.2 n b'.2 n')).1 with
    | some err => rwa [call_of_error herr id]
    | none =>
      have hdone := (s₂.disks b.1).apply_done fail (.rename b.2 n b'.2 n')
      rw [show ((s₂.disks b.1).apply fail (.rename b.2 n b'.2 n')).1 = none from herr] at hdone
      have hfs : b.1 = b'.1 := by
        by_contra hne
        exact hdev ⟨hdone.kind_of_renamed, hne⟩
      obtain ⟨child, hchild, hnew, hgone⟩ := truth_rename hinv₂ hends hends' hfs halive herr hlinked
      rw [htruth] at hchild
      dsimp only
      rw [hchild]
      generalize hs₃ : (s₂.call b.1 fail (.rename b.2 n b'.2 n')).2 = s₃ at hwf hagrees hnew hgone
      have hcache : s₃.cache = s₂.cache := by rw [← hs₃]; rfl
      rw [hcache]
      have hunused : ∀ k, (s₂.cache.insertDentry (key h n) none).Unused k :=
        unused_insertDentry hinv₂.unused _ _
      refine inv_insertDentry
        (s := { s₃ with cache := (s₂.cache.insertDentry (key h n) none).removeDentry (key h' n') })
        hwf (unused_removeDentry hunused _) ?_ hnew.symm
      intro k hk v hv
      rw [cached_removeDentry (hunused _), if_neg hk] at hv
      rcases insertDentry_stores (hinv₂.unused _) none k v hv with ⟨rfl, rfl⟩ | ⟨hne, hv⟩
      · exact (hgone hk).symm
      · refine hagrees k ?_ v hv
        simp [hne, hk]

theorem inv_exec {op : Op} (hok : Careful s op) : Inv (exec s op) := by
  cases op with
  | find h n => exact (inv_find hinv h n).2
  | create ft h n sfn new fail => exact inv_create hinv hok
  | link h n n' fail => exact inv_link hinv hok
  | remove dir h n fail => exact inv_remove hinv hok
  | rename h n h' n' fail => exact inv_rename hinv hok

end

theorem inv_of_reach (hreach : machine.Reach Careful s) : Inv s := by
  refine hreach.invariant ?_ ?_
  · rintro s ⟨hwf, hcache⟩
    constructor
    · exact hwf
    · intro k _
      rw [hcache]
      rfl
    · intro k
      rw [hcache]
      exact Memo.agrees_of_none rfl
  · intro s op s' hinv hok hnext
    cases hnext
    exact inv_exec hinv hok

/-- Fresh file systems and a virtual root over the one with the number 1. -/
def boot (kind : FsKind) : State := ⟨fun _ => .fresh kind, [⟨some (1, 2), fun _ => []⟩], .new⟩

end CosmOS.Vfs.Namespace
