import Mathlib

/-!
# ProbeTable — a bounded hash set with linear probing and tombstones

A general layer for open-addressed tables.  A key is looked for from its hash on, slot by slot, until it
or an empty slot is met.  A removed key leaves a tombstone, so a slot that was filled once is never empty
again and the keys behind it stay within reach.

* `Placed t`: every key is in one slot, and no empty slot is between its hash and that slot.
* `find_isSome_iff`: the search finds exactly the keys of the table.
* `insert_spec`, `remove_spec`: the keys after an edit.  An insertion fails only when no slot on the way
  is free, and then the key is not in the table.
-/

universe u

inductive ProbeSlot (κ : Type u) where
  | empty
  | tombstone
  | used (key : κ)
deriving DecidableEq

structure ProbeTable (κ : Type u) where
  slots : ℕ → ProbeSlot κ

namespace ProbeTable

variable {κ : Type u} [DecidableEq κ] (hash : κ → ℕ) (n : ℕ)

/-- The slot that is visited for a key after `i` others. -/
def probe (k : κ) (i : ℕ) : ℕ := (hash k + i) % n

variable (t : ProbeTable κ)

def set (slot : ℕ) (v : ProbeSlot κ) : ProbeTable κ :=
  ⟨Function.update t.slots slot v⟩

/-- The search, with `r` slots left to visit. -/
def findFrom (t : ProbeTable κ) (k : κ) : ℕ → ℕ → Option ℕ
  | 0, _ => none
  | r + 1, i =>
    match t.slots (probe hash n k i) with
    | .empty => none
    | .tombstone => t.findFrom k r (i + 1)
    | .used k' => if k' = k then some (probe hash n k i) else t.findFrom k r (i + 1)

def find (k : κ) : Option ℕ := t.findFrom hash n k n 0

/-- The insertion, with `r` slots left to visit and the first tombstone on the way so far. -/
def insertFrom (t : ProbeTable κ) (k : κ) : ℕ → ℕ → Option ℕ → Bool × ProbeTable κ
  | 0, _, some slot => (true, t.set slot (.used k))
  | 0, _, none => (false, t)
  | r + 1, i, tomb =>
    match t.slots (probe hash n k i) with
    | .empty => (true, t.set (tomb.getD (probe hash n k i)) (.used k))
    | .tombstone => t.insertFrom k r (i + 1) (if tomb = none then some (probe hash n k i) else tomb)
    | .used k' => if k' = k then (true, t) else t.insertFrom k r (i + 1) tomb

def insert (k : κ) : Bool × ProbeTable κ := t.insertFrom hash n k n 0 none

def remove (k : κ) : Bool × ProbeTable κ :=
  match t.find hash n k with
  | none => (false, t)
  | some slot => (true, t.set slot .tombstone)

/-! ## Placement -/

def Has (k : κ) : Prop := ∃ s < n, t.slots s = .used k

/-- Every key is within reach of its hash, and in one slot only. -/
structure Placed (t : ProbeTable κ) : Prop where
  reach : ∀ s k, s < n → t.slots s = .used k →
    ∃ d < n, s = probe hash n k d ∧ ∀ i < d, t.slots (probe hash n k i) ≠ .empty
  unique : ∀ s s' k, s < n → s' < n → t.slots s = .used k → t.slots s' = .used k → s = s'

variable {hash n} {t t' : ProbeTable κ} {k k' : κ} {i d r s : ℕ} {tomb : Option ℕ}

omit [DecidableEq κ] in
theorem probe_lt (hn : 0 < n) (k : κ) (i : ℕ) : probe hash n k i < n := Nat.mod_lt _ hn

omit [DecidableEq κ] in
theorem placed_empty : Placed hash n (⟨fun _ => .empty⟩ : ProbeTable κ) :=
  ⟨fun _ _ _ h => (nomatch h), fun _ _ _ _ _ h => (nomatch h)⟩

omit [DecidableEq κ] in
theorem set_slots (t : ProbeTable κ) (slot : ℕ) (v : ProbeSlot κ) (s : ℕ) :
    (t.set slot v).slots s = if s = slot then v else t.slots s :=
  Function.update_apply t.slots slot v s

/-! ## Searching -/

theorem findFrom_some (hn : 0 < n) (h : t.findFrom hash n k r i = some s) :
    s < n ∧ t.slots s = .used k := by
  induction r generalizing i with
  | zero => cases h
  | succ r ih =>
    rw [findFrom] at h
    split at h
    · cases h
    · exact ih h
    next k' hslot =>
      split at h
      next hk =>
        cases h
        exact ⟨probe_lt hn k i, hk ▸ hslot⟩
      · exact ih h

section

variable (hid : i ≤ d) (hdr : d < i + r) (hd : t.slots (probe hash n k d) = .used k)
  (hfull : ∀ j < d, t.slots (probe hash n k j) ≠ .empty)

include hid hdr hd hfull

theorem findFrom_isSome : (t.findFrom hash n k r i).isSome = true := by
  induction r generalizing i with
  | zero => omega
  | succ r ih =>
    rcases Nat.eq_or_lt_of_le hid with rfl | hlt
    · rw [findFrom, hd]
      simp
    have hnext := ih hlt (by omega)
    have hne := hfull i hlt
    rw [findFrom]
    split
    · contradiction
    · exact hnext
    · split
      · rfl
      · exact hnext

theorem insertFrom_of_has : t.insertFrom hash n k r i tomb = (true, t) := by
  induction r generalizing i tomb with
  | zero => omega
  | succ r ih =>
    rcases Nat.eq_or_lt_of_le hid with rfl | hlt
    · rw [insertFrom, hd]
      simp
    have hne := hfull i hlt
    rw [insertFrom]
    split
    · contradiction
    · exact ih hlt (by omega)
    · split
      · rfl
      · exact ih hlt (by omega)

end

theorem find_isSome_iff (hn : 0 < n) (h : Placed hash n t) :
    (t.find hash n k).isSome = true ↔ t.Has n k := by
  constructor
  · intro hsome
    obtain ⟨s, hs⟩ := Option.isSome_iff_exists.mp hsome
    obtain ⟨hlt, hslot⟩ := findFrom_some hn hs
    exact ⟨s, hlt, hslot⟩
  · rintro ⟨s, hlt, hslot⟩
    obtain ⟨d, hd, rfl, hfull⟩ := h.reach s k hlt hslot
    exact findFrom_isSome (Nat.zero_le d) (by omega) hslot hfull

/-! ## Inserting -/

/-- A free slot for the key: within reach of its hash, and without a key. -/
def FreeAt (hash : κ → ℕ) (n : ℕ) (t : ProbeTable κ) (k : κ) (d : ℕ) : Prop :=
  d < n ∧ (∀ j < d, t.slots (probe hash n k j) ≠ .empty) ∧
    ∀ k', t.slots (probe hash n k d) ≠ .used k'

/-- A new key goes to a free slot within its reach, or nowhere. -/
theorem insertFrom_of_not_has (hir : i + r = n)
    (hfull : ∀ j < i, t.slots (probe hash n k j) ≠ .empty)
    (htomb : ∀ s, tomb = some s → ∃ d, FreeAt hash n t k d ∧ s = probe hash n k d)
    (hn : 0 < n) (hk : ¬ t.Has n k) : t.insertFrom hash n k r i tomb = (false, t) ∨
      ∃ d, FreeAt hash n t k d ∧
        t.insertFrom hash n k r i tomb = (true, t.set (probe hash n k d) (.used k)) := by
  induction r generalizing i tomb with
  | zero =>
    cases tomb with
    | none => exact .inl rfl
    | some s =>
      obtain ⟨d, hfree, rfl⟩ := htomb s rfl
      exact .inr ⟨d, hfree, rfl⟩
  | succ r ih =>
    -- the slots visited so far are full when this one is
    have hfull' (hne : t.slots (probe hash n k i) ≠ .empty) :
        ∀ j < i + 1, t.slots (probe hash n k j) ≠ .empty := by
      intro j hj
      rcases Nat.lt_succ_iff_lt_or_eq.mp hj with hlt | rfl
      · exact hfull j hlt
      · exact hne
    rw [insertFrom]
    split
    next hslot =>
      right
      cases tomb with
      | none => exact ⟨i, ⟨by omega, hfull, by simp [hslot]⟩, rfl⟩
      | some s =>
        obtain ⟨d, hfree, rfl⟩ := htomb s rfl
        exact ⟨d, hfree, rfl⟩
    next hslot =>
      refine ih (by omega) (hfull' (by simp [hslot])) ?_
      intro s hs
      split at hs
      · cases hs
        exact ⟨i, ⟨by omega, hfull, by simp [hslot]⟩, rfl⟩
      · exact htomb s hs
    next k' hslot =>
      split
      next hk' =>
        exact absurd ⟨_, probe_lt hn k i, hk' ▸ hslot⟩ hk
      · exact ih (by omega) (hfull' (by simp [hslot])) htomb

omit [DecidableEq κ] in
theorem Placed.set_used (h : Placed hash n t) (hk : ¬ t.Has n k)
    (hfree : FreeAt hash n t k d) : Placed hash n (t.set (probe hash n k d) (.used k)) where
  reach := by
    obtain ⟨hd, hfull, -⟩ := hfree
    intro s k' hs hslot
    rw [set_slots] at hslot
    split at hslot
    next heq =>
      cases hslot
      refine ⟨d, hd, heq, fun i hi => ?_⟩
      rw [set_slots]
      split
      · simp
      · exact hfull i hi
    · obtain ⟨d', hd', heq, hfull'⟩ := h.reach s k' hs hslot
      refine ⟨d', hd', heq, fun i hi => ?_⟩
      rw [set_slots]
      split
      · simp
      · exact hfull' i hi
  unique := by
    intro s s' k' hs hs' hslot hslot'
    rw [set_slots] at hslot hslot'
    split at hslot
    next heq =>
      split at hslot'
      next heq' =>
        rw [heq, heq']
      · cases hslot
        exact absurd ⟨s', hs', hslot'⟩ hk
    · split at hslot'
      · cases hslot'
        exact absurd ⟨s, hs, hslot⟩ hk
      · exact h.unique s s' k' hs hs' hslot hslot'

omit [DecidableEq κ] in
theorem has_set_used (hn : 0 < n) (hfree : FreeAt hash n t k d) :
    (t.set (probe hash n k d) (.used k)).Has n k' ↔ k' = k ∨ t.Has n k' := by
  obtain ⟨-, -, hunused⟩ := hfree
  constructor
  · rintro ⟨s, hs, hslot⟩
    rw [set_slots] at hslot
    split at hslot
    · cases hslot
      exact .inl rfl
    · exact .inr ⟨s, hs, hslot⟩
  · rintro (rfl | ⟨s, hs, hslot⟩)
    · exact ⟨_, probe_lt hn k' d, by rw [set_slots, if_pos rfl]⟩
    refine ⟨s, hs, ?_⟩
    rw [set_slots, if_neg]
    · exact hslot
    · rintro rfl
      exact hunused k' hslot

/-- The keys after an insertion.  One that fails changes nothing. -/
theorem insert_spec (hn : 0 < n) (h : Placed hash n t) (k : κ) : Placed hash n (t.insert hash n k).2
    ∧ ((t.insert hash n k).1 = true → ∀ k', (t.insert hash n k).2.Has n k' ↔ k' = k ∨ t.Has n k') ∧
      ((t.insert hash n k).1 = false → (t.insert hash n k).2 = t ∧ ¬ t.Has n k) := by
  by_cases hk : t.Has n k
  · have heq : t.insert hash n k = (true, t) := by
      obtain ⟨s, hs, hslot⟩ := hk
      obtain ⟨d, hd, rfl, hfull⟩ := h.reach s k hs hslot
      exact insertFrom_of_has (Nat.zero_le d) (by omega) hslot hfull
    rw [heq]
    refine ⟨h, fun _ k' => ⟨.inr, ?_⟩, nofun⟩
    rintro (rfl | hk')
    · exact hk
    · exact hk'
  · have hcases : t.insertFrom hash n k n 0 none = (false, t) ∨ ∃ d, FreeAt hash n t k d ∧
        t.insertFrom hash n k n 0 none = (true, t.set (probe hash n k d) (.used k)) :=
      insertFrom_of_not_has (by omega) (fun j hj => absurd hj (Nat.not_lt_zero j)) nofun hn hk
    rcases hcases with heq | ⟨d, hfree, heq⟩
    · rw [insert, heq]
      exact ⟨h, nofun, fun _ => ⟨rfl, hk⟩⟩
    · rw [insert, heq]
      exact ⟨h.set_used hk hfree, fun _ k' => has_set_used hn hfree, nofun⟩

/-! ## Removing -/

/-- The keys after a removal, which tells whether the key was there. -/
theorem remove_spec (hn : 0 < n) (h : Placed hash n t) (k : κ) :
    Placed hash n (t.remove hash n k).2 ∧ ((t.remove hash n k).1 = true ↔ t.Has n k) ∧
      ∀ k', (t.remove hash n k).2.Has n k' ↔ k' ≠ k ∧ t.Has n k' := by
  have hfind := find_isSome_iff (k := k) hn h
  unfold remove
  split
  next heq =>
    rw [heq] at hfind
    have hk : ¬ t.Has n k := fun hk => by simpa using hfind.mpr hk
    refine ⟨h, ⟨nofun, fun hk' => absurd hk' hk⟩, fun k' => ⟨fun hk' => ⟨?_, hk'⟩, fun hk' => hk'.2⟩⟩
    rintro rfl
    exact hk hk'
  next slot heq =>
    obtain ⟨hlt, hslot⟩ := findFrom_some hn heq
    refine ⟨⟨?_, ?_⟩, ⟨fun _ => ⟨slot, hlt, hslot⟩, fun _ => rfl⟩, ?_⟩
    · intro s k' hs hs'
      rw [set_slots] at hs'
      split at hs'
      · cases hs'
      obtain ⟨d, hd, heq, hfull⟩ := h.reach s k' hs hs'
      refine ⟨d, hd, heq, fun i hi => ?_⟩
      rw [set_slots]
      split
      · simp
      · exact hfull i hi
    · intro s s' k' hs hs' hk hk'
      rw [set_slots] at hk hk'
      split at hk
      · cases hk
      · split at hk'
        · cases hk'
        · exact h.unique s s' k' hs hs' hk hk'
    · intro k'
      constructor
      · rintro ⟨s, hs, hs'⟩
        rw [set_slots] at hs'
        split at hs'
        · cases hs'
        next hne =>
          refine ⟨?_, s, hs, hs'⟩
          rintro rfl
          exact hne (h.unique s slot k' hs hlt hs' hslot)
      · rintro ⟨hne, s, hs, hs'⟩
        refine ⟨s, hs, ?_⟩
        rw [set_slots, if_neg]
        · exact hs'
        · rintro rfl
          rw [hslot] at hs'
          cases hs'
          exact hne rfl

end ProbeTable
