import CosmOS.BTreeMap
import CosmOS.Memo

/-!
# Vfs.Dentry — the dentry cache

What the lookup of a name in a directory gave, by file system, number of the directory and exact name.
A negative entry says that there is no such name.

* `lookup`, `insert`, `insertNegative`, `remove` are the sections under the lock of the cache.  `put` is
  the common body of the two inserts.
* A table that has grown past its high watermark is reclaimed with a CLOCK over `inactive`, where a key
  can stand more than once.  `reclaimIfNeeded_done`: the loop of the source ends.
* `cached` is the table without the reference bits.  `put_stores` and `cached_remove` say all that a
  section does to it.
* `find` is `Inode::find` over a file system.  `find_of_agrees`: with a cache that agrees with the file
  system it finds what the file system finds.
-/

namespace CosmOS.Vfs

abbrev Name := List Char

abbrev Ino := ℕ

abbrev FsId := ℕ

structure DentryKey where
  fsId : FsId
  parentIno : Ino
  name : Name

/-- The derived order of the source: field by field. -/
def DentryKey.fields (k : DentryKey) : ℕ ×ₗ ℕ ×ₗ Name := toLex (k.fsId, toLex (k.parentIno, k.name))

theorem DentryKey.fields_injective : Function.Injective DentryKey.fields := by
  rintro ⟨f, p, n⟩ ⟨f', p', n'⟩ h
  obtain ⟨rfl, h⟩ := Prod.mk.inj (toLex.injective h)
  obtain ⟨rfl, rfl⟩ := Prod.mk.inj (toLex.injective h)
  rfl

instance : LinearOrder DentryKey := LinearOrder.lift' DentryKey.fields DentryKey.fields_injective

variable {ι : Type}

structure DentryEntry (ι : Type) where
  /-- `none`: there is no such name. -/
  child : Option ι
  refBit : Bool

inductive DentryLookup (ι : Type) where
  | positive (child : ι)
  | negative
  | miss

structure DentryCache (ι : Type) where
  table : BTreeMap DentryKey (DentryEntry ι)
  inactive : List DentryKey
  highWatermark : ℕ
  lowWatermark : ℕ
  negativeEntries : ℕ

namespace DentryCache

def new : DentryCache ι := ⟨.empty, [], 4096, 2304, 0⟩

def lookup (c : DentryCache ι) (k : DentryKey) : DentryLookup ι × DentryCache ι :=
  match c.table.get? k with
  | some e =>
    (match e.child with
      | some child => .positive child
      | none => .negative,
      { c with table := c.table.insert k { e with refBit := true } })
  | none => (.miss, c)

/-- `reclaim_one`; `none` where the source returns `false`. -/
def reclaimOne (c : DentryCache ι) : Option (DentryCache ι) :=
  if c.table.entries.length ≤ c.lowWatermark then none
  else
    match c.inactive with
    | [] => none
    | key :: rest =>
      match c.table.get? key with
      | none => some { c with inactive := rest }
      | some e =>
        if e.refBit then
          some { c with
            table := c.table.insert key { e with refBit := false }
            inactive := rest ++ [key] }
        else
          some { c with
            table := c.table.erase key
            inactive := rest
            negativeEntries := if e.child.isNone then c.negativeEntries - 1 else c.negativeEntries }

/-- The loop of `reclaim_if_needed`, for at most `n` rounds. -/
def reclaim : ℕ → DentryCache ι → DentryCache ι
  | 0, c => c
  | n + 1, c =>
    if c.highWatermark < c.table.entries.length then
      match c.reclaimOne with
      | some c' => reclaim n c'
      | none => c
    else c

/-- Every round takes a key out of the queue or clears a reference bit. -/
def rounds (c : DentryCache ι) : ℕ := c.inactive.length + c.table.entries.countP fun e => e.2.refBit

def reclaimIfNeeded (c : DentryCache ι) : DentryCache ι := reclaim c.rounds c

/-- `insert` of a child, `insert_negative` of none. -/
def put (c : DentryCache ι) (k : DentryKey) (child : Option ι) : DentryCache ι :=
  match c.table.get? k with
  | some e =>
    { c with
      table := c.table.insert k ⟨child, true⟩
      negativeEntries := match e.child, child with
        | none, some _ => c.negativeEntries - 1
        | some _, none => c.negativeEntries + 1
        | _, _ => c.negativeEntries }
  | none =>
    reclaimIfNeeded { c with
      table := c.table.insert k ⟨child, true⟩
      inactive := c.inactive ++ [k]
      negativeEntries := if child.isNone then c.negativeEntries + 1 else c.negativeEntries }

def insert (c : DentryCache ι) (k : DentryKey) (child : ι) : DentryCache ι := c.put k (some child)

def insertNegative (c : DentryCache ι) (k : DentryKey) : DentryCache ι := c.put k none

def remove (c : DentryCache ι) (k : DentryKey) : DentryCache ι :=
  match c.table.get? k with
  | some e =>
    { c with
      table := c.table.erase k
      negativeEntries := if e.child.isNone then c.negativeEntries - 1 else c.negativeEntries }
  | none => c

/-- What the cache has for a key: nothing, that there is no such name, or the child. -/
def cached (c : DentryCache ι) (k : DentryKey) : Option (Option ι) := (c.table.get? k).map (·.child)

/-! ## What the sections do -/

theorem cached_lookup (c : DentryCache ι) (k k' : DentryKey) : (c.lookup k).2.cached k' = c.cached k' := by
  unfold lookup cached
  cases hk : c.table.get? k with
  | none => rfl
  | some e =>
    rw [BTreeMap.get?_insert]
    by_cases hk' : k' = k
    · rw [if_pos hk', hk', hk]
      rfl
    · rw [if_neg hk']

/-- What `lookup` makes of an entry. -/
def answer : Option (Option ι) → DentryLookup ι
  | some (some child) => .positive child
  | some none => .negative
  | none => .miss

theorem lookup_result (c : DentryCache ι) (k : DentryKey) : (c.lookup k).1 = answer (c.cached k) := by
  unfold lookup cached
  cases hk : c.table.get? k with
  | none => rfl
  | some e =>
    obtain ⟨child, refBit⟩ := e
    cases child <;> rfl

variable {c c' : DentryCache ι} {k : DentryKey}

theorem reclaimOne_sub (h : c.reclaimOne = some c') : Memo.Sub c'.cached c.cached := by
  intro k v hv
  unfold reclaimOne at h
  split at h
  · cases h
  split at h
  · cases h
  rename_i key rest hq
  split at h
  · cases h
    exact hv
  rename_i e he
  split at h
  · cases h
    unfold cached at hv ⊢
    rw [BTreeMap.get?_insert] at hv
    by_cases hk : k = key
    · rw [if_pos hk] at hv
      rwa [hk, he]
    · rwa [if_neg hk] at hv
  · cases h
    unfold cached at hv ⊢
    dsimp only at hv
    rw [BTreeMap.get?_erase] at hv
    by_cases hk : k = key
    · rw [if_pos hk] at hv
      cases hv
    · rwa [if_neg hk] at hv

theorem reclaim_sub (n : ℕ) (c : DentryCache ι) : Memo.Sub (reclaim n c).cached c.cached := by
  induction n generalizing c with
  | zero => exact Memo.Sub.refl _
  | succ n ih =>
    unfold reclaim
    split
    · split
      next c' hc' =>
        exact (ih c').trans (reclaimOne_sub hc')
      · exact Memo.Sub.refl _
    · exact Memo.Sub.refl _

theorem reclaimOne_rounds (h : c.reclaimOne = some c') : c'.rounds < c.rounds := by
  unfold reclaimOne at h
  split at h
  · cases h
  split at h
  · cases h
  rename_i key rest hq
  unfold rounds
  rw [hq, List.length_cons]
  split at h
  · cases h
    dsimp only
    omega
  next e he =>
    have hcount := BTreeMap.countP_erase (BTreeMap.get?_eq_some_iff.mp he) fun e => e.2.refBit
    split at h
    next href =>
      cases h
      rw [BTreeMap.countP_insert, hcount, href]
      simp
    · cases h
      dsimp only
      omega

section

variable (c : DentryCache ι)

/-- The loop ends because its condition fails or because there is nothing left to reclaim. -/
theorem reclaimIfNeeded_done :
    c.reclaimIfNeeded.table.entries.length ≤ c.reclaimIfNeeded.highWatermark ∨
      c.reclaimIfNeeded.reclaimOne = none := by
  unfold reclaimIfNeeded
  generalize hn : c.rounds = n
  have hle : c.rounds ≤ n := hn.le
  clear hn
  induction n generalizing c with
  | zero =>
    -- without rounds left the queue is empty
    have hq : c.inactive = [] := List.eq_nil_of_length_eq_zero (by unfold rounds at hle; omega)
    right
    unfold reclaim reclaimOne
    rw [hq]
    simp
  | succ n ih =>
    unfold reclaim
    by_cases hlen : c.highWatermark < c.table.entries.length
    · rw [if_pos hlen]
      cases hc : c.reclaimOne with
      | none => exact .inr hc
      | some c' =>
        have hlt := reclaimOne_rounds hc
        exact ih c' (by omega)
    · rw [if_neg hlen]
      exact .inl (Nat.le_of_not_lt hlen)

theorem insert_table_stores (k : DentryKey) (child : Option ι) :
    Memo.Stores c.cached (fun k' => ((c.table.insert k ⟨child, true⟩).get? k').map (·.child)) k child := by
  intro k' w hw
  dsimp only at hw
  rw [BTreeMap.get?_insert] at hw
  by_cases hk : k' = k
  · rw [if_pos hk] at hw
    exact .inl ⟨hk, (Option.some.inj hw).symm⟩
  · rw [if_neg hk] at hw
    exact .inr ⟨hk, hw⟩

/-- An insert stores its entry; to make room others may go, or even the new one. -/
theorem put_stores (k : DentryKey) (child : Option ι) :
    Memo.Stores c.cached (c.put k child).cached k child := by
  unfold put
  split
  · exact insert_table_stores c k child
  · exact fun k' w hw => insert_table_stores c k child k' w (reclaim_sub _ _ k' w hw)

theorem cached_remove (k k' : DentryKey) :
    (c.remove k).cached k' = if k' = k then none else c.cached k' := by
  unfold remove cached
  cases hk : c.table.get? k with
  | none =>
    by_cases hk' : k' = k
    · rw [if_pos hk', hk', hk]
      rfl
    · rw [if_neg hk']
  | some e =>
    rw [BTreeMap.get?_erase]
    by_cases hk' : k' = k
    · rw [if_pos hk', if_pos hk']
      rfl
    · rw [if_neg hk', if_neg hk']

theorem remove_sub (k : DentryKey) : Memo.Sub (c.remove k).cached c.cached := by
  intro k' v hv
  rw [cached_remove] at hv
  by_cases hk : k' = k
  · rw [if_pos hk] at hv
    cases hv
  · rwa [if_neg hk] at hv

end

/-! ## The cache behind `fs_id`

A file system whose `fs_id` is zero does not use the cache. -/

def lookupDentry (c : DentryCache ι) (k : DentryKey) : DentryLookup ι × DentryCache ι :=
  if k.fsId = 0 then (.miss, c) else c.lookup k

def insertDentry (c : DentryCache ι) (k : DentryKey) (child : Option ι) : DentryCache ι :=
  if k.fsId = 0 then c else c.put k child

def removeDentry (c : DentryCache ι) (k : DentryKey) : DentryCache ι :=
  if k.fsId = 0 then c else c.remove k

/-- `Inode::find`, with `child` what the file system finds. -/
def find (c : DentryCache ι) (k : DentryKey) (child : Option ι) : Option ι × DentryCache ι :=
  match c.lookupDentry k with
  | (.positive child, c) => (some child, c)
  | (.negative, c) => (none, c)
  | (.miss, c) => (child, c.insertDentry k child)

/-- Keys of file systems that do not use the cache are not in it. -/
def Unused (c : DentryCache ι) (k : DentryKey) : Prop := k.fsId = 0 → c.cached k = none

theorem insertDentry_stores (h : c.Unused k) (child : Option ι) :
    Memo.Stores c.cached (c.insertDentry k child).cached k child := by
  unfold insertDentry
  split
  next hk =>
    intro k' w hw
    refine .inr ⟨?_, hw⟩
    rintro rfl
    rw [h hk] at hw
    cases hw
  · exact c.put_stores k child

theorem cached_removeDentry (h : c.Unused k) (k' : DentryKey) :
    (c.removeDentry k).cached k' = if k' = k then none else c.cached k' := by
  unfold removeDentry
  split
  next hk =>
    split
    next hk' =>
      rw [hk']
      exact h hk
    · rfl
  · exact c.cached_remove k k'

theorem cached_lookupDentry (c : DentryCache ι) (k k' : DentryKey) :
    (c.lookupDentry k).2.cached k' = c.cached k' := by
  unfold lookupDentry
  split
  · rfl
  · exact c.cached_lookup k k'

theorem lookupDentry_result (h : c.Unused k) : (c.lookupDentry k).1 = answer (c.cached k) := by
  unfold lookupDentry
  split
  next hk =>
    rw [h hk]
    rfl
  · exact c.lookup_result k

theorem unused_insertDentry (hc : ∀ k, c.Unused k) (k : DentryKey) (child : Option ι)
    (k' : DentryKey) : (c.insertDentry k child).Unused k' := by
  intro hk'
  cases hv : (c.insertDentry k child).cached k' with
  | none => rfl
  | some v =>
    rcases insertDentry_stores (hc k) child k' v hv with ⟨rfl, -⟩ | ⟨-, hv'⟩
    · -- nothing is stored under such a key
      unfold insertDentry at hv
      rw [if_pos hk', hc k' hk'] at hv
      cases hv
    · rw [hc k' hk'] at hv'
      cases hv'

theorem unused_removeDentry (hc : ∀ k, c.Unused k) (k k' : DentryKey) :
    (c.removeDentry k).Unused k' := by
  intro hk'
  rw [cached_removeDentry (hc k), hc k' hk', ite_self]

theorem unused_find (hc : ∀ k, c.Unused k) (k : DentryKey) (child : Option ι) (k' : DentryKey) :
    (c.find k child).2.Unused k' := by
  have hlookup : ∀ k', (c.lookupDentry k).2.Unused k' :=
    fun k' hk' => (c.cached_lookupDentry k k').trans (hc k' hk')
  unfold find
  rw [← Prod.mk.eta (p := c.lookupDentry k)]
  cases (c.lookupDentry k).1 with
  | positive | negative => exact hlookup k'
  | miss => exact unused_insertDentry hlookup k child k'

theorem find_stores {k' : DentryKey} {child v : Option ι} (h : c.Unused k)
    (hv : (c.find k child).2.cached k' = some v) : (k' = k ∧ v = child) ∨ c.cached k' = some v := by
  unfold find at hv
  have hlookup := c.cached_lookupDentry k
  rw [← Prod.mk.eta (p := c.lookupDentry k)] at hv
  cases hr : (c.lookupDentry k).1 with rw [hr] at hv
  | positive child' | negative =>
    exact .inr ((hlookup k').symm.trans hv)
  | miss =>
    have hunused : (c.lookupDentry k).2.Unused k := fun hk => (hlookup k).trans (h hk)
    rcases insertDentry_stores hunused child k' v hv with heq | ⟨-, hv⟩
    · exact .inl heq
    · exact .inr ((hlookup k').symm.trans hv)

/-- `find` gives what the file system finds wherever the cache agrees with it. -/
theorem find_of_agrees (truth : DentryKey → Option ι) (h : c.Unused k)
    (ha : Memo.Agrees c.cached truth k) : (c.find k (truth k)).1 = truth k := by
  unfold find
  rw [← Prod.mk.eta (p := c.lookupDentry k), lookupDentry_result h]
  cases hk : c.cached k with
  | none => rfl
  | some v =>
    have hv := ha v hk
    cases v with
    | none | some child => exact hv

end DentryCache

end CosmOS.Vfs
