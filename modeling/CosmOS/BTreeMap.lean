import Mathlib

/-!
# BTreeMap — finite maps kept in key order

A general layer: a finite map is its list of entries, strictly increasing in the key.  The order
is a field, so every value of the type has unique keys and `entries` is the iteration order.

Everything is characterised by membership of entries; lookups follow from `get?_eq_some_iff`.
-/

universe u v

/-- A finite map from `κ` to `α`, its entries in strictly increasing key order. -/
structure BTreeMap (κ : Type u) (α : Type v) [LinearOrder κ] where
  entries : List (κ × α)
  sorted : entries.Pairwise fun a b => a.1 < b.1

namespace BTreeMap

open List

variable {κ : Type u} {α : Type v} [LinearOrder κ]

instance [DecidableEq α] : DecidableEq (BTreeMap κ α) := fun m m' =>
  decidable_of_iff (m.entries = m'.entries) (by
    cases m
    cases m'
    simp)

instance : Membership (κ × α) (BTreeMap κ α) := ⟨fun m e => e ∈ m.entries⟩

theorem mem_def {m : BTreeMap κ α} {e : κ × α} : e ∈ m ↔ e ∈ m.entries := Iff.rfl

/-! ## Operations -/

def empty : BTreeMap κ α := ⟨[], List.Pairwise.nil⟩

def get? (m : BTreeMap κ α) (k : κ) : Option α :=
  (m.entries.find? fun e => e.1 = k).map Prod.snd

def filter (m : BTreeMap κ α) (p : κ → α → Bool) : BTreeMap κ α where
  entries := m.entries.filter fun e => p e.1 e.2
  sorted := m.sorted.filter _

def erase (m : BTreeMap κ α) (k : κ) : BTreeMap κ α := m.filter fun k' _ => k' ≠ k

/-- Set the value at `k`, replacing the old one if there is one. -/
def insert (m : BTreeMap κ α) (k : κ) (a : α) : BTreeMap κ α where
  entries := (m.entries.filter fun e => e.1 < k) ++ (k, a) :: m.entries.filter fun e => k < e.1
  sorted := by
    refine List.pairwise_append.mpr ⟨m.sorted.filter _, ?_, ?_⟩
    · refine List.pairwise_cons.mpr ⟨?_, m.sorted.filter _⟩
      intro e he
      simpa using (List.mem_filter.mp he).2
    · intro e he e' he'
      have hlt : e.1 < k := by simpa using (List.mem_filter.mp he).2
      rcases List.mem_cons.mp he' with rfl | he'
      · exact hlt
      · exact hlt.trans (by simpa using (List.mem_filter.mp he').2)

def mapValues (m : BTreeMap κ α) (f : κ → α → α) : BTreeMap κ α where
  entries := m.entries.map fun e => (e.1, f e.1 e.2)
  sorted := List.pairwise_map.mpr m.sorted

def values (m : BTreeMap κ α) : List α := m.entries.map Prod.snd

def keys (m : BTreeMap κ α) : List κ := m.entries.map Prod.fst

def first? (m : BTreeMap κ α) : Option (κ × α) := m.entries.head?

/-! ## Membership -/

variable {m : BTreeMap κ α} {k k' : κ} {a a' : α}

@[simp]
theorem not_mem_empty (e : κ × α) : e ∉ (empty : BTreeMap κ α) :=
  List.not_mem_nil

@[simp] theorem mem_filter {p : κ → α → Bool} : (k, a) ∈ m.filter p ↔ (k, a) ∈ m ∧ p k a = true :=
  List.mem_filter

@[simp] theorem mem_erase : (k', a) ∈ m.erase k ↔ (k', a) ∈ m ∧ k' ≠ k := by
  simp [erase]

@[simp] theorem mem_insert :
    (k', a') ∈ m.insert k a ↔ (k' = k ∧ a' = a) ∨ (k' ≠ k ∧ (k', a') ∈ m) := by
  simp only [mem_def, insert, List.mem_append, List.mem_filter, List.mem_cons, Prod.mk.injEq,
    decide_eq_true_eq]
  constructor
  · rintro (⟨hm, hlt⟩ | heq | ⟨hm, hlt⟩)
    · exact .inr ⟨hlt.ne, hm⟩
    · exact .inl heq
    · exact .inr ⟨hlt.ne', hm⟩
  · rintro (heq | ⟨hne, hm⟩)
    · exact .inr (.inl heq)
    · rcases lt_or_gt_of_ne hne with hlt | hlt
      · exact .inl ⟨hm, hlt⟩
      · exact .inr (.inr ⟨hm, hlt⟩)

theorem mem_values : a ∈ m.values ↔ ∃ k, (k, a) ∈ m := by
  simp [values, mem_def]

theorem mem_keys : k ∈ m.keys ↔ ∃ a, (k, a) ∈ m := by
  simp [keys, mem_def]

theorem keys_nodup (m : BTreeMap κ α) : m.keys.Nodup := by
  rw [keys, List.Nodup, List.pairwise_map]
  exact m.sorted.imp fun hlt => hlt.ne

theorem value_unique (h : (k, a) ∈ m) (h' : (k, a') ∈ m) : a = a' := by
  have hpair := List.inj_on_of_nodup_map m.keys_nodup h h' rfl
  exact (Prod.mk.inj hpair).2

/-! ## Lookups -/

theorem get?_eq_some_iff : m.get? k = some a ↔ (k, a) ∈ m := by
  constructor
  · intro h
    rcases Option.map_eq_some_iff.mp h with ⟨e, he, rfl⟩
    have hk : e.1 = k := by simpa using List.find?_some he
    have hm := mem_of_find?_eq_some he
    rwa [← hk]
  · intro h
    have hsome : (m.entries.find? fun e => e.1 = k).isSome := by
      rw [find?_isSome]
      exact ⟨(k, a), h, by simp⟩
    rcases Option.isSome_iff_exists.mp hsome with ⟨e, he⟩
    have hk : e.1 = k := by simpa using find?_some he
    have hm : (k, e.2) ∈ m := by
      rw [← hk]
      exact mem_of_find?_eq_some he
    rw [get?, he, Option.map_some, value_unique hm h]

theorem get?_eq_none_iff : m.get? k = none ↔ ∀ a, (k, a) ∉ m := by
  rw [Option.eq_none_iff_forall_not_mem]
  constructor
  · intro h a hm
    exact h a (get?_eq_some_iff.mpr hm)
  · intro h a ha
    exact h a (get?_eq_some_iff.mp ha)

@[simp]
theorem get?_empty (k : κ) : (empty : BTreeMap κ α).get? k = none := rfl

section

variable (m : BTreeMap κ α)

theorem get?_insert (k k' : κ) (a : α) :
    (m.insert k a).get? k' = if k' = k then some a else m.get? k' := by
  ext a'
  rw [get?_eq_some_iff, mem_insert]
  split
  next heq =>
    simp [heq, eq_comm]
  next hne =>
    simp [hne, get?_eq_some_iff]

theorem get?_insert_of_ne (a : α) (h : k' ≠ k) : (m.insert k a).get? k' = m.get? k' := by
  rw [get?_insert, if_neg h]

theorem get?_erase (k k' : κ) : (m.erase k).get? k' = if k' = k then none else m.get? k' := by
  ext a
  rw [get?_eq_some_iff, mem_erase]
  split
  next heq =>
    simp [heq]
  next hne =>
    simp [hne, get?_eq_some_iff]

theorem get?_mapValues (f : κ → α → α) (k : κ) : (m.mapValues f).get? k = (m.get? k).map (f k) := by
  ext a
  rw [get?_eq_some_iff, Option.map_eq_some_iff]
  constructor
  · intro h
    obtain ⟨e, he, heq⟩ := List.mem_map.mp h
    cases heq
    exact ⟨e.2, get?_eq_some_iff.mpr he, rfl⟩
  · rintro ⟨b, hb, rfl⟩
    exact mem_map.mpr ⟨(k, b), get?_eq_some_iff.mp hb, rfl⟩

/-! ## Entries as a permutation

Removing or adding one key changes the entries by one element, in some place.  This is what
counting arguments over the values need. -/

theorem entries_nodup : m.entries.Nodup :=
  List.Nodup.of_map _ m.keys_nodup

end

theorem entries_perm_erase (h : (k, a) ∈ m) : m.entries.Perm ((k, a) :: (m.erase k).entries) := by
  refine (List.perm_ext_iff_of_nodup m.entries_nodup ?_).mpr ?_
  · refine nodup_cons.mpr ⟨?_, (m.erase k).entries_nodup⟩
    intro hm
    exact (mem_erase.mp hm).2 rfl
  · rintro ⟨k', a'⟩
    rw [mem_cons, Prod.mk.injEq]
    constructor
    · intro hm
      rcases eq_or_ne k' k with rfl | hk
      · exact .inl ⟨rfl, value_unique hm h⟩
      · exact .inr (mem_erase.mpr ⟨hm, hk⟩)
    · rintro (⟨rfl, rfl⟩ | hm)
      · exact h
      · exact (mem_erase.mp hm).1

theorem erase_insert_perm (m : BTreeMap κ α) (k : κ) (a : α) :
    ((m.insert k a).erase k).entries.Perm (m.erase k).entries := by
  refine (List.perm_ext_iff_of_nodup (entries_nodup _) (entries_nodup _)).mpr ?_
  rintro ⟨k', a'⟩
  rw [← mem_def, ← mem_def, mem_erase, mem_insert, mem_erase]
  constructor
  · rintro ⟨⟨heq, -⟩ | ⟨-, hm⟩, hne⟩
    · exact absurd heq hne
    · exact ⟨hm, hne⟩
  · rintro ⟨hm, hne⟩
    exact ⟨.inr ⟨hne, hm⟩, hne⟩

theorem erase_perm_of_not_mem (h : ∀ b, (k, b) ∉ m) : (m.erase k).entries.Perm m.entries := by
  refine (List.perm_ext_iff_of_nodup (entries_nodup _) m.entries_nodup).mpr ?_
  rintro ⟨k', a'⟩
  rw [← mem_def, ← mem_def, mem_erase]
  constructor
  · exact And.left
  · intro hm
    refine ⟨hm, ?_⟩
    rintro rfl
    exact h a' hm

theorem countP_erase (h : (k, a) ∈ m) (p : κ × α → Bool) :
    m.entries.countP p = (m.erase k).entries.countP p + if p (k, a) then 1 else 0 := by
  rw [(entries_perm_erase h).countP_eq, List.countP_cons]

theorem countP_insert (m : BTreeMap κ α) (k : κ) (a : α) (p : κ × α → Bool) :
    (m.insert k a).entries.countP p = (m.erase k).entries.countP p + if p (k, a) then 1 else 0 := by
  rw [countP_erase (mem_insert.mpr (.inl ⟨rfl, rfl⟩)) p, (erase_insert_perm m k a).countP_eq]

section Count

variable [DecidableEq α]

theorem count_values_erase (h : (k, a) ∈ m) (b : α) :
    m.values.count b = (m.erase k).values.count b + if b = a then 1 else 0 := by
  have hperm := (entries_perm_erase h).map Prod.snd
  rw [values, hperm.count_eq, List.map_cons, List.count_cons, values]
  rcases eq_or_ne b a with rfl | hb
  · simp
  · simp [hb, Ne.symm hb]

theorem count_values_insert (h : ∀ b, (k, b) ∉ m) (a b : α) :
    (m.insert k a).values.count b = m.values.count b + if b = a then 1 else 0 := by
  have hin : (k, a) ∈ m.insert k a := mem_insert.mpr (.inl ⟨rfl, rfl⟩)
  rw [count_values_erase hin b, values, values, 
    (((erase_insert_perm m k a).trans (erase_perm_of_not_mem h)).map Prod.snd).count_eq]

end Count

/-! ## Inserting a list of entries -/

def insertMany (m : BTreeMap κ α) (es : List (κ × α)) : BTreeMap κ α :=
  es.foldl (fun m e => m.insert e.1 e.2) m

theorem get?_insertMany_of_not_mem (m : BTreeMap κ α) (es : List (κ × α)) (h : ∀ e ∈ es, e.1 ≠ k) :
    (m.insertMany es).get? k = m.get? k := by
  induction es generalizing m with
  | nil => rfl
  | cons e es ih =>
    have hrest := ih (m.insert e.1 e.2) fun e' he' => h e' (.tail e he')
    have hne : k ≠ e.1 := (h e (.head _)).symm
    rwa [← get?_insert_of_ne m e.2 hne]

theorem mem_values_insertMany {es : List (κ × α)} (h : a ∈ (m.insertMany es).values) :
    a ∈ m.values ∨ a ∈ es.map Prod.snd := by
  induction es generalizing m with
  | nil => exact .inl h
  | cons e es ih =>
    rcases ih h with hm | hm
    · rcases mem_values.mp hm with ⟨k, hk⟩
      rcases mem_insert.mp hk with ⟨-, rfl⟩ | ⟨-, hk⟩
      · exact .inr (by simp)
      · exact .inl (mem_values.mpr ⟨k, hk⟩)
    · exact Or.inr (by simpa using Or.inr hm)

end BTreeMap
