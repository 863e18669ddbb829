import CosmOS.Vfs.Namespace

/-!
# Vfs.Overlay — lookups through virtual directories

* `nodeFind_eq`: a lookup gives the first mount on the way, or what is under the overlays.
* `nodeFind_new`, `nodeFind_bind`, `nodeFind_bind_bottom`: what a directory that is made in a virtual
  directory does to lookups.
* `renameDirs_ok`: a rename that is not refused ends in two directories of file systems, and no mount hides
  its names.
-/

namespace CosmOS.Vfs.Namespace

variable {disks : FsId → Disk} {vs ws : List VirtDir} {h h' m : Handle} {n n' : Name} {i : Ino} {w : VirtDir}

/-! ## Virtual directories -/

/-- The lookup of a handle goes through the virtual directory with the number `i`. -/
def through : List VirtDir → Handle → Ino → Bool
  | [], _, _ => false
  | v :: vs, h, i =>
    if h.1 ≠ virtFsId then false
    else if h.2 ≠ vs.length + 1 then through vs h i
    else h.2 = i || v.overlay.any fun o => through vs o i

/-- What is under the overlays. -/
def bottomFind (disks : FsId → Disk) (n : Name) : Bottom → Option Handle
  | .disk b => diskFind disks b n
  | .bare _ | .missing => none

/-! ### A handle on a directory of a file system, on an older virtual directory, and on the newest -/

theorem nodeFind_of_disk (hv : h.1 ≠ virtFsId) : nodeFind disks vs h n = diskFind disks h n := by
  cases vs with
  | nil => exact if_neg hv
  | cons v vs => exact if_pos hv

theorem bottom_of_disk (hv : h.1 ≠ virtFsId) : bottom vs h = .disk h := by
  cases vs with
  | nil => exact if_neg hv
  | cons v vs => exact if_pos hv

theorem mount?_of_disk (hv : h.1 ≠ virtFsId) : mount? vs h n = none := by
  cases vs with
  | nil => rfl
  | cons v vs => exact if_pos hv

section

variable {v : VirtDir}

theorem nodeFind_cons_of_ne (hi : h.2 ≠ vs.length + 1) :
    nodeFind disks (v :: vs) h n = nodeFind disks vs h n := by
  by_cases hv : h.1 = virtFsId
  · conv_lhs => unfold nodeFind
    rw [if_neg (not_not.mpr hv), if_pos hi]
  · rw [nodeFind_of_disk hv, nodeFind_of_disk hv]

theorem bottom_cons_of_ne (hi : h.2 ≠ vs.length + 1) : bottom (v :: vs) h = bottom vs h := by
  by_cases hv : h.1 = virtFsId
  · conv_lhs => unfold bottom
    rw [if_neg (not_not.mpr hv), if_pos hi]
  · rw [bottom_of_disk hv, bottom_of_disk hv]

theorem mount?_cons_of_ne (hi : h.2 ≠ vs.length + 1) : mount? (v :: vs) h n = mount? vs h n := by
  by_cases hv : h.1 = virtFsId
  · conv_lhs => unfold mount?
    rw [if_neg (not_not.mpr hv), if_pos hi]
  · rw [mount?_of_disk hv, mount?_of_disk hv]

section

variable (hv : h.1 = virtFsId) (hi : h.2 = vs.length + 1)

include hv hi

theorem nodeFind_cons_self : nodeFind disks (v :: vs) h n =
      (v.mounts n).head?.or (v.overlay.bind fun o => nodeFind disks vs o n) := by
  conv_lhs => unfold nodeFind
  rw [if_neg (not_not.mpr hv), if_neg (not_not.mpr hi)]
  cases (v.mounts n).head? <;> rfl

theorem bottom_cons_self : bottom (v :: vs) h = (v.overlay.map (bottom vs)).getD (.bare h.2) := by
  conv_lhs => unfold bottom
  rw [if_neg (not_not.mpr hv), if_neg (not_not.mpr hi)]
  cases v.overlay <;> rfl

theorem mount?_cons_self :
    mount? (v :: vs) h n = (v.mounts n).head?.or (v.overlay.bind fun o => mount? vs o n) := by
  conv_lhs => unfold mount?
  rw [if_neg (not_not.mpr hv), if_neg (not_not.mpr hi)]
  cases (v.mounts n).head? <;> rfl

end

end

/-- A lookup gives the first mount on the way, or what is under the overlays. -/
theorem nodeFind_eq (disks : FsId → Disk) (vs : List VirtDir) (h : Handle) (n : Name) :
    nodeFind disks vs h n = (mount? vs h n).or (bottomFind disks n (bottom vs h)) := by
  induction vs generalizing h with
  | nil =>
    unfold nodeFind mount? bottom
    split <;> rfl
  | cons v vs ih =>
    by_cases hi : h.2 = vs.length + 1
    · by_cases hv : h.1 = virtFsId
      · rw [nodeFind_cons_self hv hi, mount?_cons_self hv hi, bottom_cons_self hv hi, Option.or_assoc]
        cases v.overlay with
        | none => rfl
        | some o => exact congrArg _ (ih o)
      · rw [nodeFind_of_disk hv, mount?_of_disk hv, bottom_of_disk hv]
        rfl
    · rw [nodeFind_cons_of_ne hi, mount?_cons_of_ne hi, bottom_cons_of_ne hi]
      exact ih h

/-- There is nothing behind numbers that have not been given out. -/
theorem nodeFind_missing (disks : FsId → Disk) (hv : h.1 = virtFsId) (hlen : vs.length < h.2) (n : Name) :
    nodeFind disks vs h n = none := by
  induction vs with
  | nil => exact if_pos hv
  | cons v vs ih =>
    rw [nodeFind_cons_of_ne (Nat.ne_of_gt hlen)]
    exact ih (Nat.lt_of_succ_lt hlen)

/-- A new virtual directory is empty and changes no lookup. -/
theorem nodeFind_new (disks : FsId → Disk) (vs : List VirtDir) (h : Handle) (n : Name) :
    nodeFind disks (.new :: vs) h n = nodeFind disks vs h n := by
  by_cases hi : h.2 = vs.length + 1
  · by_cases hv : h.1 = virtFsId
    · rw [nodeFind_cons_self hv hi, nodeFind_missing disks hv (hi ▸ Nat.lt_succ_self _)]
      rfl
    · rw [nodeFind_of_disk hv, nodeFind_of_disk hv]
  · exact nodeFind_cons_of_ne hi

theorem length_bind (i : Ino) (n : Name) (m : Handle) (vs : List VirtDir) :
    (bind i n m vs).length = vs.length := by
  induction vs with
  | nil => rfl
  | cons v vs ih =>
    unfold bind
    split
    · rfl
    · rw [List.length_cons, ih, List.length_cons]

/-- A mount changes the lookups of its name that go through its directory. -/
theorem nodeFind_bind (hne : ¬ (n' = n ∧ through vs h i = true)) :
    nodeFind disks (bind i n m vs) h n' = nodeFind disks vs h n' := by
  induction vs generalizing h with
  | nil => rfl
  | cons v vs ih =>
    by_cases hv : h.1 = virtFsId
    · by_cases hi : h.2 = vs.length + 1
      · -- the directory of the handle itself
        unfold through at hne
        rw [if_neg (not_not.mpr hv), if_neg (not_not.mpr hi)] at hne
        unfold bind
        by_cases hbind : i = vs.length + 1
        · have hname : n' ≠ n := by
            rintro rfl
            exact hne ⟨rfl, by simp [hi, hbind]⟩
          rw [if_pos hbind, nodeFind_cons_self hv hi, nodeFind_cons_self hv hi]
          dsimp only
          rw [Function.update_of_ne hname]
        · rw [if_neg hbind, nodeFind_cons_self hv (by rw [hi, length_bind]), nodeFind_cons_self hv hi]
          cases (v.mounts n').head? with
          | some m => rfl
          | none =>
            cases ho : v.overlay with
            | none => rfl
            | some o =>
              refine ih ?_
              rintro ⟨hname, hthrough⟩
              exact hne ⟨hname, by simp [ho, hthrough]⟩
      · unfold through at hne
        rw [if_neg (not_not.mpr hv), if_pos hi] at hne
        rw [nodeFind_cons_of_ne hi]
        unfold bind
        split
        · exact nodeFind_cons_of_ne hi
        · rw [nodeFind_cons_of_ne (by rwa [length_bind])]
          exact ih hne
    · rw [nodeFind_of_disk hv, nodeFind_of_disk hv]

theorem le_of_bottom_bare (hbottom : bottom vs h = .bare i) : i ≤ vs.length := by
  induction vs generalizing h with
  | nil =>
    unfold bottom at hbottom
    split at hbottom <;> cases hbottom
  | cons v vs ih =>
    by_cases hi : h.2 = vs.length + 1
    · by_cases hv : h.1 = virtFsId
      · rw [bottom_cons_self hv hi] at hbottom
        cases ho : v.overlay with rw [ho] at hbottom
        | none =>
          obtain rfl : h.2 = i := Bottom.bare.inj hbottom
          exact Nat.le_of_eq hi
        | some o =>
          exact Nat.le_succ_of_le (ih hbottom)
      · rw [bottom_of_disk hv] at hbottom
        cases hbottom
    · rw [bottom_cons_of_ne hi] at hbottom
      exact Nat.le_succ_of_le (ih hbottom)

/-- A directory that is made at the bottom is found, where no mount hides it. -/
theorem nodeFind_bind_bottom (hbottom : bottom vs h = .bare i)
    (hmount : mount? vs h n = none) : nodeFind disks (bind i n m vs) h n = some m := by
  induction vs generalizing h with
  | nil =>
    unfold bottom at hbottom
    split at hbottom <;> cases hbottom
  | cons v vs ih =>
    -- further down means among the older directories
    have hold : ∀ {o}, bottom vs o = .bare i → i ≠ vs.length + 1 :=
      fun hb => Nat.ne_of_lt (Nat.lt_succ_of_le (le_of_bottom_bare hb))
    unfold bind
    by_cases hi : h.2 = vs.length + 1
    · by_cases hv : h.1 = virtFsId
      · rw [bottom_cons_self hv hi] at hbottom
        rw [mount?_cons_self hv hi, Option.or_eq_none_iff] at hmount
        cases ho : v.overlay with
        | none =>
          rw [ho] at hbottom
          obtain rfl : h.2 = i := Bottom.bare.inj hbottom
          rw [if_pos hi, nodeFind_cons_self hv hi]
          dsimp only
          rw [Function.update_self]
          rfl
        | some o =>
          rw [ho] at hbottom hmount
          rw [if_neg (hold hbottom), nodeFind_cons_self hv (by rw [hi, length_bind]), hmount.1, ho]
          exact ih hbottom hmount.2
      · rw [bottom_of_disk hv] at hbottom
        cases hbottom
    · rw [bottom_cons_of_ne hi] at hbottom
      rw [mount?_cons_of_ne hi] at hmount
      rw [if_neg (hold hbottom), nodeFind_cons_of_ne (by rwa [length_bind])]
      exact ih hbottom hmount

theorem overlay_of_virt? {o : Handle} (hv : h.1 = virtFsId)
    (hw : virt? vs h.2 = some (w, ws)) (hm : (w.mounts n).head? = none) (ho : w.overlay = some o) :
    bottom vs h = bottom ws o ∧ mount? vs h n = mount? ws o n := by
  induction vs with
  | nil => cases hw
  | cons v vs ih =>
    unfold virt? at hw
    by_cases hi : h.2 = vs.length + 1
    · rw [if_pos hi] at hw
      cases hw
      rw [bottom_cons_self hv hi, mount?_cons_self hv hi, ho, hm]
      exact ⟨rfl, rfl⟩
    · rw [if_neg hi] at hw
      rw [bottom_cons_of_ne hi, mount?_cons_of_ne hi]
      exact ih hw

/-- A lookup ends in a directory of a file system and meets no mount. -/
def Ends (vs : List VirtDir) (h : Handle) (n : Name) (b : Handle) : Prop :=
  bottom vs h = .disk b ∧ mount? vs h n = none

theorem ends_of_disk (hv : h.1 ≠ virtFsId) : Ends vs h n h := ⟨bottom_of_disk hv, mount?_of_disk hv⟩

theorem Ends.virt? {o b : Handle} (he : Ends ws o n b)
    (hv : h.1 = virtFsId) (hw : virt? vs h.2 = some (w, ws)) (hm : (w.mounts n).head? = none)
    (ho : w.overlay = some o) : Ends vs h n b := by
  obtain ⟨hbottom, hmount⟩ := overlay_of_virt? hv hw hm ho
  exact ⟨hbottom.trans he.1, hmount.trans he.2⟩

/-- A rename that is not refused ends in two directories of file systems, and no mount hides its names. -/
theorem renameDirs_ok {vs' : List VirtDir} {b b' : Handle}
    (hok : renameDirs vs h n vs' h' n' = .ok (b, b')) : Ends vs h n b ∧ Ends vs' h' n' b' := by
  induction vs generalizing h vs' h' with unfold renameDirs at hok
  | nil =>
    split at hok
    · cases hok
    rename_i hv
    split at hok
    · cases hok
    rename_i hv'
    obtain ⟨rfl, rfl⟩ := Prod.mk.inj (Except.ok.inj hok)
    exact ⟨ends_of_disk hv, ends_of_disk hv'⟩
  | cons v vs ih =>
    split at hok
    next hv =>
      split at hok
      · cases hok
      rename_i hv'
      obtain ⟨rfl, rfl⟩ := Prod.mk.inj (Except.ok.inj hok)
      exact ⟨ends_of_disk hv, ends_of_disk hv'⟩
    rename_i hv
    split at hok
    next hi =>
      obtain ⟨⟨hb, hm⟩, hends⟩ := ih hok
      exact ⟨⟨(bottom_cons_of_ne hi).trans hb, (mount?_cons_of_ne hi).trans hm⟩, hends⟩
    rename_i hi
    split at hok
    · cases hok
    rename_i hm
    have hvirt : virt? (v :: vs) h.2 = some (v, vs) := if_pos (not_not.mp hi)
    have hhead : (v.mounts n).head? = none := Option.not_isSome_iff_eq_none.mp hm
    split at hok
    · cases hok
    rename_i o ho
    split at hok
    · obtain ⟨he, he'⟩ := ih hok
      exact ⟨he.virt? (not_not.mp hv) hvirt hhead ho, he'⟩
    rename_i hv'
    split at hok
    · cases hok
    rename_i w ws hw
    split at hok
    · cases hok
    rename_i hm'
    split at hok
    · cases hok
    rename_i o' ho'
    obtain ⟨he, he'⟩ := ih hok
    exact ⟨he.virt? (not_not.mp hv) hvirt hhead ho,
      he'.virt? (not_not.mp hv') hw (Option.not_isSome_iff_eq_none.mp hm') ho'⟩

end CosmOS.Vfs.Namespace
