import CosmOS.BlockIo.Store
import CosmOS.Machine

/-!
# BlockIo.Direct — direct block writes next to cached reads

`overwrite_block_cache_range` and `overwrite_block_cache_ranges` patch the cached blocks under the lock of
the manager, release it, and then write the device.  Any number of threads use the cache at the same time.

* Each section under the manager's lock and each device transfer is a step.  A miss holds the lock while
  it writes a victim back and while it reads the device.
* `requests` are the device writes of overwrites that have left their section.
* `last` is the data of the last write to each block, in the order of the sections that wrote it.
-/

namespace CosmOS.BlockIo.Direct

open BlockCacheManager Function

abbrev ThreadId := ℕ

inductive Pc where
  | idle
  /-- A miss; the victim is out of the map and its bytes are to be written. -/
  | evicting (key : Key) (victim : Victim)
  | loading (key : Key) (slot : Option ℕ)
  | holding (key : Key)

structure State where
  manager : BlockCacheManager
  device : Device
  lock : Option ThreadId
  pc : ThreadId → Pc
  /-- The users of an entry; `Arc::strong_count` is one more than their number. -/
  holders : Key → List ThreadId
  requests : List (ThreadId × BlockWrite)
  last : Device

def applyAll (writes : List BlockWrite) (d : Device) : Device := writes.foldl (fun d w => w.apply d) d

def Overlaps (w w' : BlockWrite) : Prop :=
  w.dev = w'.dev ∧ w.startBlock < w'.startBlock + w'.count ∧ w'.startBlock < w.startBlock + w.count

instance (w w' : BlockWrite) : Decidable (Overlaps w w') := inferInstanceAs (Decidable (_ ∧ _ ∧ _))

inductive Label where
  /-- `get_block_cache`, up to the first device transfer or to the end. -/
  | get (t : ThreadId) (key : Key)
  | step (t : ThreadId)
  /-- `read_bytes` and `write_bytes` of the entry. -/
  | read (t : ThreadId)
  | write (t : ThreadId) (offset n : ℕ) (data : ℕ → UInt8)
  | release (t : ThreadId)
  /-- The section of an overwrite, and its next device write. -/
  | overwrite (t : ThreadId) (writes : List BlockWrite)
  | transfer (t : ThreadId)

/-- A miss of `get_block_cache`: make room. -/
def miss (size : ℕ) (s : State) (t : ThreadId) (key : Key) : Option State :=
  match evictOneIfNeeded size (fun k => !(s.holders k).isEmpty) s.manager with
  | none => none
  | some (m, none) =>
    some { s with manager := m, lock := some t, pc := update s.pc t (.loading key none) }
  | some (m, some v) =>
    some { s with
      manager := m
      lock := some t
      pc := update s.pc t
        (if v.entry.modified then .evicting key v else .loading key (some v.slot)) }

def next (size : ℕ) (s : State) : Label → Option State
  | .get t key =>
    match s.pc t, s.lock with
    | .idle, none =>
      match s.manager.map.get? key with
      | some _ =>
        some { s with
          manager := s.manager.edit key .touch
          pc := update s.pc t (.holding key)
          holders := update s.holders key (t :: s.holders key) }
      | none => miss size s t key
    | _, _ => none
  | .step t =>
    match s.pc t with
    | .evicting key v =>
      some { s with
        device := update s.device v.key v.entry.cache
        pc := update s.pc t (.loading key (some v.slot)) }
    | .loading key slot =>
      some { s with
        manager := s.manager.installEntry key (.newFromBytes (s.device key)) slot
        lock := none
        pc := update s.pc t (.holding key)
        holders := update s.holders key (t :: s.holders key) }
    | _ => none
  | .read t =>
    match s.pc t with
    | .holding key => some { s with manager := s.manager.edit key .touch }
    | _ => none
  | .write t offset n data =>
    match s.pc t with
    | .holding key =>
      if offset + n ≤ blockSz then
        some { s with
          manager := s.manager.edit key fun e => e.writeBytes offset n data
          last := update s.last key (blitBlock (s.last key) offset n data) }
      else none
    | _ => none
  | .release t =>
    match s.pc t with
    | .holding key =>
      some { s with
        pc := update s.pc t .idle
        holders := update s.holders key ((s.holders key).erase t) }
    | _ => none
  | .overwrite t writes =>
    match s.pc t, s.lock with
    | .idle, none =>
      if ∀ r ∈ s.requests, r.1 ≠ t then
        some { s with
          manager := writes.foldl
            (fun m w => m.overwriteBlockCacheRange w.dev w.startBlock w.count w.data) s.manager
          requests := s.requests ++ writes.map fun w => (t, w)
          last := applyAll writes s.last }
      else none
    | _, _ => none
  | .transfer t =>
    match s.requests.find? fun r => r.1 = t with
    | some (_, w) =>
      some { s with
        device := w.apply s.device
        requests := s.requests.eraseP fun r => r.1 = t }
    | none => none

def boot (d : Device) : State := ⟨.new, d, none, fun _ => .idle, fun _ => [], [], d⟩

def machine (size : ℕ) : Machine State Label where
  Init s := ∃ d, s = boot d
  next := next size

variable (s : State)

/-- No device write of the block is outstanding. -/
def State.Quiet (key : Key) : Prop := ∀ r ∈ s.requests, ¬ r.2.Covers key

instance (key : Key) : Decidable (s.Quiet key) := inferInstanceAs (Decidable (∀ r ∈ _, _))

/-- A block is not loaded, written or overwritten while a device write of it is outstanding. -/
def Careful : Label → Prop
  | .step t =>
    match s.pc t with
    | .loading key _ => s.Quiet key
    | _ => True
  | .write t _ _ _ =>
    match s.pc t with
    | .holding key => s.Quiet key
    | _ => True
  | .overwrite _ writes => ∀ w ∈ writes, ∀ r ∈ s.requests, ¬ Overlaps w r.2
  | _ => True

instance : DecidablePred (Careful s)
  | .step t => by
    unfold Careful
    dsimp only
    cases s.pc t <;> infer_instance
  | .write t _ _ _ => by
    unfold Careful
    dsimp only
    cases s.pc t <;> infer_instance
  | .overwrite _ writes => inferInstanceAs (Decidable (∀ w ∈ writes, ∀ r ∈ s.requests, _))
  | .get .. | .read _ | .release _ | .transfer _ => isTrue trivial

/-! ## Lists of writes -/

section

variable {l : List BlockWrite} {d d' : Device} {key : Key} {w w' : BlockWrite}

theorem apply_of_covers (h : w.Covers key) : w.apply d key = w.block key := if_pos h

theorem apply_of_not_covers (h : ¬ w.Covers key) : w.apply d key = d key := if_neg h

theorem applyAll_cons : applyAll (w :: l) d = applyAll l (w.apply d) := rfl

theorem applyAll_congr (h : d key = d' key) : applyAll l d key = applyAll l d' key := by
  induction l generalizing d d' with
  | nil => exact h
  | cons w l ih => exact ih (by simp only [BlockWrite.apply, h])

theorem applyAll_of_not_covers (h : ∀ w ∈ l, ¬ w.Covers key) : applyAll l d key = d key := by
  induction l generalizing d with
  | nil => rfl
  | cons w l ih =>
    refine (ih fun w' hw' => h w' (.tail _ hw')).trans ?_
    exact apply_of_not_covers (h w (.head _))

/-- Where some write covers the block, what was there before does not matter. -/
theorem applyAll_of_covers (h : ∃ w ∈ l, w.Covers key) : applyAll l d key = applyAll l d' key := by
  induction l generalizing d d' with
  | nil => simp at h
  | cons w l ih =>
    rw [applyAll_cons]
    by_cases hw : w.Covers key
    · exact applyAll_congr ((apply_of_covers hw).trans (apply_of_covers hw).symm)
    · obtain ⟨w', hmem, hw'⟩ := h
      rcases List.mem_cons.mp hmem with rfl | hmem
      · exact absurd hw' hw
      · exact ih ⟨w', hmem, hw'⟩

theorem applyAll_append (l l' : List BlockWrite) (d : Device) :
    applyAll (l ++ l') d = applyAll l' (applyAll l d) := List.foldl_append

/-- A write may be done before others that have no block in common with it. -/
theorem applyAll_move {pre post : List BlockWrite}
    (h : ∀ w' ∈ pre, w.Covers key → ¬ w'.Covers key) :
    applyAll (pre ++ post) (w.apply d) key = applyAll (pre ++ w :: post) d key := by
  rw [applyAll_append, applyAll_append]
  refine applyAll_congr ?_
  by_cases hw : w.Covers key
  · rw [applyAll_of_not_covers fun w' hw' => h w' hw' hw, apply_of_covers hw]
    exact (apply_of_covers hw).symm
  · refine Eq.trans ?_ (apply_of_not_covers hw).symm
    exact applyAll_congr (apply_of_not_covers hw)

theorem overlaps_of_covers (h : w.Covers key) (h' : w'.Covers key) : Overlaps w w' :=
  ⟨h.1.symm.trans h'.1, Nat.lt_of_le_of_lt h.2.1 h'.2.2, Nat.lt_of_le_of_lt h'.2.1 h.2.2⟩

/-- The cached blocks after the section of an overwrite. -/
theorem cached_overwrites (m : BlockCacheManager) (l : List BlockWrite) (key : Key) :
    (l.foldl (fun m w => m.overwriteBlockCacheRange w.dev w.startBlock w.count w.data) m).cached key =
      (m.cached key).map fun p => (applyAll l (fun _ => p.1) key, p.2 || l.any (·.Covers key)) := by
  induction l generalizing m with
  | nil => simp [applyAll]
  | cons w l ih =>
    rw [List.foldl_cons, ih, Store.cached_overwrite]
    by_cases hw : w.Covers key
    · rw [if_pos hw, Option.map_map]
      refine congrFun (congrArg Option.map (funext fun p => ?_)) _
      refine Prod.ext ?_ (by simp [hw])
      exact applyAll_congr (apply_of_covers hw).symm
    · rw [if_neg hw]
      refine congrFun (congrArg Option.map (funext fun p => ?_)) _
      refine Prod.ext ?_ (by simp [hw])
      rw [applyAll_cons]
      exact applyAll_congr (apply_of_not_covers (d := fun _ => p.1) hw).symm

end

end CosmOS.BlockIo.Direct
