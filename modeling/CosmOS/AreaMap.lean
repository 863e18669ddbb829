import Mathlib

/-!
# AreaMap — disjoint areas of pages

A general layer for address spaces.  An area is a non-empty range of pages with an attribute; a map of
areas keeps them disjoint and in order.  Both facts are fields, so no operation can make areas overlap.

* `at?`: the area of a page.  It is what everything else is described by.
* `floor?`, `ceil?`: the neighbours of a page, which are all that an ordered map looks at.
* `insert`, `remove`: the edits.  `insert` asks for a proof that the range is free; `put` tests it.
* `cut`, `join`: an area loses some of its pages, or takes in the area behind it.
* `view`: what the areas say about each page.  Cuts and joins keep it if the new areas say the same.
-/

universe u v

/-- The pages from `start` up to `stop`, with an attribute. -/
structure Area (α : Type u) where
  start : ℕ
  stop : ℕ
  attr : α
deriving DecidableEq

namespace Area

variable {α : Type u}

def Contains (a : Area α) (v : ℕ) : Prop := a.start ≤ v ∧ v < a.stop

instance (a : Area α) (v : ℕ) : Decidable (a.Contains v) := inferInstanceAs (Decidable (_ ∧ _))

end Area

/-- Disjoint areas, in order. -/
structure AreaMap (α : Type u) where
  areas : List (Area α)
  sorted : areas.Pairwise fun a b => a.stop ≤ b.start
  nonempty : ∀ a ∈ areas, a.start < a.stop

namespace AreaMap

open List

variable {α : Type u}

instance : Membership (Area α) (AreaMap α) := ⟨fun m a => a ∈ m.areas⟩

theorem mem_def {m : AreaMap α} {a : Area α} : a ∈ m ↔ a ∈ m.areas := Iff.rfl

def empty : AreaMap α := ⟨[], List.Pairwise.nil, nofun⟩

variable (m : AreaMap α)

def at? (v : ℕ) : Option (Area α) := m.areas.find? fun a => a.Contains v

/-- No area meets the pages from `lo` up to `hi`. -/
def Free (lo hi : ℕ) : Prop := ∀ a ∈ m.areas, a.stop ≤ lo ∨ hi ≤ a.start

instance (lo hi : ℕ) : Decidable (m.Free lo hi) :=
  inferInstanceAs (Decidable (∀ a ∈ m.areas, _))

/-- Add an area where the map is free. -/
def insert (a : Area α) (hpos : a.start < a.stop) (hfree : m.Free a.start a.stop) :
    AreaMap α where
  areas := (m.areas.filter fun b => b.stop ≤ a.start) ++ a ::
    m.areas.filter fun b => a.stop ≤ b.start
  sorted := by
    refine pairwise_append.mpr ⟨m.sorted.filter _, ?_, ?_⟩
    · refine pairwise_cons.mpr ⟨fun b hb => ?_, m.sorted.filter _⟩
      simpa using (mem_filter.mp hb).2
    intro b hb c hc
    have hb : b.stop ≤ a.start := by simpa using (mem_filter.mp hb).2
    rcases mem_cons.mp hc with rfl | hc
    · exact hb
    · have hc : a.stop ≤ c.start := by simpa using (mem_filter.mp hc).2
      omega
  nonempty := by
    intro b hb
    rcases mem_append.mp hb with hb | hb
    · exact m.nonempty b (mem_filter.mp hb).1
    · rcases mem_cons.mp hb with rfl | hb
      · exact hpos
      · exact m.nonempty b (mem_filter.mp hb).1

/-- Add an area, unless it is empty or meets another one. -/
def put (a : Area α) : AreaMap α :=
  if h : a.start < a.stop ∧ m.Free a.start a.stop then m.insert a h.1 h.2 else m

def filter (p : Area α → Bool) : AreaMap α where
  areas := m.areas.filter p
  sorted := m.sorted.filter p
  nonempty := fun a ha => m.nonempty a (mem_filter.mp ha).1

def remove (k : ℕ) : AreaMap α := m.filter fun a => a.start ≠ k

def map {β : Type v} (f : α → β) : AreaMap β where
  areas := m.areas.map fun a => ⟨a.start, a.stop, f a.attr⟩
  sorted := pairwise_map.mpr m.sorted
  nonempty := by
    intro b hb
    obtain ⟨a, ha, rfl⟩ := mem_map.mp hb
    exact m.nonempty a ha

theorem free_map {β : Type v} (f : α → β) {lo hi : ℕ} : (m.map f).Free lo hi ↔ m.Free lo hi := by
  simp [Free, map]

/-! ## Membership -/

variable {m : AreaMap α} {a b : Area α} {v lo hi k : ℕ}

theorem start_lt_stop (ha : a ∈ m) : a.start < a.stop := m.nonempty a ha

/-- Two areas of a map are the same or one lies before the other. -/
theorem eq_or_disjoint (ha : a ∈ m) (hb : b ∈ m) : a = b ∨ a.stop ≤ b.start ∨ b.stop ≤ a.start := by
  rcases mem_iff_getElem.mp ha with ⟨i, hi, rfl⟩
  rcases mem_iff_getElem.mp hb with ⟨j, hj, rfl⟩
  rcases Nat.lt_trichotomy i j with hij | rfl | hij
  · exact .inr (.inl (pairwise_iff_getElem.mp m.sorted i j hi hj hij))
  · exact .inl rfl
  · exact .inr (.inr (pairwise_iff_getElem.mp m.sorted j i hj hi hij))

/-- A page lies in one area at most. -/
theorem eq_of_contains (ha : a ∈ m) (hb : b ∈ m) (hav : a.Contains v) (hbv : b.Contains v) :
    a = b := by
  rcases eq_or_disjoint ha hb with h | h | h
  · exact h
  · unfold Area.Contains at *
    omega
  · unfold Area.Contains at *
    omega

theorem eq_of_start (ha : a ∈ m) (hb : b ∈ m) (h : a.start = b.start) : a = b := by
  have hapos := start_lt_stop ha
  have hbpos := start_lt_stop hb
  exact eq_of_contains ha hb ⟨Nat.le_refl _, hapos⟩ ⟨Nat.le_of_eq h.symm, by omega⟩

variable {hfree : m.Free a.start a.stop} {hpos : a.start < a.stop}

@[simp]
theorem mem_insert : b ∈ m.insert a hpos hfree ↔ b = a ∨ b ∈ m := by
  simp only [mem_def, insert, mem_append, mem_filter, mem_cons, decide_eq_true_eq]
  constructor
  · rintro (⟨hb, -⟩ | rfl | ⟨hb, -⟩)
    · exact .inr hb
    · exact .inl rfl
    · exact .inr hb
  · rintro (rfl | hb)
    · exact .inr (.inl rfl)
    · exact (hfree b hb).imp (fun h => ⟨hb, h⟩) fun h => .inr ⟨hb, h⟩

@[simp]
theorem mem_remove : a ∈ m.remove k ↔ a ∈ m ∧ a.start ≠ k := by
  simp [mem_def, remove, filter]

theorem Free.mono {lo' hi' : ℕ} (h : m.Free lo hi) (hlo : lo ≤ lo') (hhi : hi' ≤ hi) :
    m.Free lo' hi' :=
  fun a ha => (h a ha).imp (fun h => Nat.le_trans h hlo) fun h => Nat.le_trans hhi h

/-- Where an area was there is room. -/
theorem free_remove (ha : a ∈ m) : (m.remove a.start).Free a.start a.stop := by
  intro b hb
  obtain ⟨hbm, hne⟩ := mem_remove.mp hb
  rcases eq_or_disjoint ha hbm with rfl | h | h
  · exact absurd rfl hne
  · exact .inr h
  · exact .inl h

/-! ## The area of a page -/

theorem at?_eq_some_iff : m.at? v = some a ↔ a ∈ m ∧ a.Contains v := by
  constructor
  · intro h
    exact ⟨mem_of_find?_eq_some h, by simpa using find?_some h⟩
  rintro ⟨ha, hav⟩
  have hsome : (m.at? v).isSome := find?_isSome.mpr ⟨a, ha, by simpa using hav⟩
  obtain ⟨b, hb⟩ := Option.isSome_iff_exists.mp hsome
  have hbv : b.Contains v := by simpa using find?_some hb
  rw [hb, eq_of_contains (mem_of_find?_eq_some hb) ha hbv hav]

theorem at?_eq_none_iff : m.at? v = none ↔ ∀ a, a ∈ m → ¬ a.Contains v := by
  simp [at?, mem_def]

theorem at?_insert : (m.insert a hpos hfree).at? v = if a.Contains v then some a else m.at? v := by
  split
  next hav =>
    exact at?_eq_some_iff.mpr ⟨mem_insert.mpr (.inl rfl), hav⟩
  rename_i hav
  ext b
  rw [at?_eq_some_iff, at?_eq_some_iff, mem_insert]
  constructor
  · rintro ⟨rfl | hb, hbv⟩
    · exact absurd hbv hav
    · exact ⟨hb, hbv⟩
  · rintro ⟨hb, hbv⟩
    exact ⟨.inr hb, hbv⟩

theorem at?_remove (ha : a ∈ m) :
    (m.remove a.start).at? v = if a.Contains v then none else m.at? v := by
  ext b
  rw [at?_eq_some_iff, mem_remove]
  split
  next hav =>
    constructor
    · rintro ⟨⟨hb, hne⟩, hbv⟩
      exact absurd (eq_of_contains hb ha hbv hav ▸ rfl) hne
    · exact nofun
  next hav =>
    rw [at?_eq_some_iff]
    constructor
    · rintro ⟨⟨hb, -⟩, hbv⟩
      exact ⟨hb, hbv⟩
    · rintro ⟨hb, hbv⟩
      refine ⟨⟨hb, fun hstart => hav ?_⟩, hbv⟩
      exact eq_of_start hb ha hstart ▸ hbv

/-! ## Neighbours

An ordered map finds the area of a page, and whether a range is free, by looking at two areas only.
-/

/-- The last area that begins at the page `v` or before it. -/
def floor? (m : AreaMap α) (v : ℕ) : Option (Area α) := m.areas.reverse.find? fun a => a.start ≤ v

/-- The first area that begins at the page `v` or behind it. -/
def ceil? (m : AreaMap α) (v : ℕ) : Option (Area α) := m.areas.find? fun a => v ≤ a.start

theorem floor?_spec (h : m.floor? v = some a) :
    a ∈ m ∧ a.start ≤ v ∧ ∀ b, b ∈ m → b.start ≤ v → b = a ∨ b.stop ≤ a.start := by
  obtain ⟨hav, later, before, hsplit, hlater⟩ := find?_eq_some_iff_append.mp h
  have hareas : m.areas = before.reverse ++ a :: later.reverse := by
    rw [← reverse_reverse m.areas, hsplit]
    simp
  have hsorted := m.sorted
  rw [hareas, pairwise_append] at hsorted
  refine ⟨by simp [mem_def, hareas], by simpa using hav, fun b hb hbv => ?_⟩
  rw [mem_def, hareas, mem_append, mem_cons] at hb
  rcases hb with hb | rfl | hb
  · exact .inr (hsorted.2.2 b hb a (.head _))
  · exact .inl rfl
  · have := hlater b (mem_reverse.mp hb)
    simp only [Bool.not_eq_true', decide_eq_false_iff_not] at this
    exact absurd hbv this

theorem floor?_eq_none (h : m.floor? v = none) (hb : b ∈ m) : v < b.start := by
  have := find?_eq_none.mp h b (mem_reverse.mpr hb)
  simpa using this

theorem ceil?_spec (h : m.ceil? v = some a) :
    a ∈ m ∧ v ≤ a.start ∧ ∀ b, b ∈ m → v ≤ b.start → b = a ∨ a.stop ≤ b.start := by
  obtain ⟨hav, before, later, hsplit, hbefore⟩ := find?_eq_some_iff_append.mp h
  have hsorted := m.sorted
  rw [hsplit, pairwise_append, pairwise_cons] at hsorted
  refine ⟨by simp [mem_def, hsplit], by simpa using hav, fun b hb hbv => ?_⟩
  rw [mem_def, hsplit, mem_append, mem_cons] at hb
  rcases hb with hb | rfl | hb
  · have := hbefore b hb
    simp only [Bool.not_eq_true', decide_eq_false_iff_not] at this
    exact absurd hbv this
  · exact .inl rfl
  · exact .inr (hsorted.2.1.1 b hb)

theorem ceil?_eq_none (h : m.ceil? v = none) (hb : b ∈ m) : b.start < v := by
  have := find?_eq_none.mp h b hb
  simpa using this

/-- The area of a page is the last one that begins before it, if that one reaches so far. -/
theorem filter_floor? : ((m.floor? v).filter fun a => a.Contains v) = m.at? v := by
  cases h : m.floor? v with
  | none =>
    refine (at?_eq_none_iff.mpr fun b hb hbv => ?_).symm
    exact absurd (floor?_eq_none h hb) (Nat.not_lt.mpr hbv.1)
  | some a =>
    obtain ⟨ha, hav, hlast⟩ := floor?_spec h
    have hpos := start_lt_stop ha
    by_cases hcontains : a.Contains v
    · rw [at?_eq_some_iff.mpr ⟨ha, hcontains⟩]
      simp [hcontains]
    have hnone : m.at? v = none := by
      refine at?_eq_none_iff.mpr fun b hb hbv => ?_
      rcases hlast b hb hbv.1 with rfl | hstop
      · exact hcontains hbv
      · exact absurd hbv.2 (by omega)
    simp [hnone, hcontains]

/-- A range is free if the area before it ends in time and the next one begins late enough. -/
theorem free_iff_neighbours (hpos : lo < hi) : m.Free lo hi ↔
      (∀ a, m.floor? lo = some a → a.stop ≤ lo) ∧ ∀ a, m.ceil? lo = some a → hi ≤ a.start := by
  constructor
  · intro hfree
    constructor
    · intro a ha
      obtain ⟨ha, hle, -⟩ := floor?_spec ha
      rcases hfree a ha with h | h
      · exact h
      · omega
    · intro a ha
      obtain ⟨ha, hle, -⟩ := ceil?_spec ha
      have := start_lt_stop ha
      rcases hfree a ha with h | h
      · omega
      · exact h
  · rintro ⟨hfloor, hceil⟩ b hb
    have hbpos := start_lt_stop hb
    rcases Nat.lt_or_ge lo b.start with hlt | hge
    · right
      cases h : m.ceil? lo with
      | none => exact absurd (ceil?_eq_none h hb) (by omega)
      | some a =>
        have ha := hceil a h
        obtain ⟨hmem, -, hfirst⟩ := ceil?_spec h
        have hapos := start_lt_stop hmem
        rcases hfirst b hb (by omega) with rfl | hle
        · exact ha
        · omega
    · left
      cases h : m.floor? lo with
      | none => exact absurd (floor?_eq_none h hb) (by omega)
      | some a =>
        have ha := hfloor a h
        obtain ⟨hmem, -, hlast⟩ := floor?_spec h
        have hapos := start_lt_stop hmem
        rcases hlast b hb hge with rfl | hle
        · exact ha
        · omega

/-! ## Adding where there is room -/

theorem put_of_free (hpos : a.start < a.stop) (hfree : m.Free a.start a.stop) :
    m.put a = m.insert a hpos hfree :=
  dif_pos ⟨hpos, hfree⟩

theorem put_of_empty (h : a.stop ≤ a.start) : m.put a = m :=
  dif_neg fun hpos => absurd hpos.1 (Nat.not_lt.mpr h)

/-- Adding an area, if its range is free. -/
theorem mem_put (a : Area α) (hfree : m.Free a.start a.stop) :
    b ∈ m.put a ↔ (b = a ∧ a.start < a.stop) ∨ b ∈ m := by
  by_cases hpos : a.start < a.stop
  · rw [put_of_free hpos hfree, mem_insert]
    exact or_congr_left (iff_self_and.mpr fun _ => hpos)
  · rw [put_of_empty (by omega)]
    exact ⟨.inr, fun h => h.elim (fun h => absurd h.2 hpos) id⟩

theorem at?_put (a : Area α) (hfree : m.Free a.start a.stop) :
    (m.put a).at? v = if a.Contains v then some a else m.at? v := by
  by_cases hpos : a.start < a.stop
  · rw [put_of_free hpos hfree, at?_insert]
  · rw [put_of_empty (by omega), if_neg]
    rintro ⟨hlo, hhi⟩
    omega

/-! ## Cutting an area and joining two -/

/-- Take the pages from `lo` up to `hi` out of the area `a`.  What is left of it gets the attributes `x`
and `y`. -/
def cut (m : AreaMap α) (a : Area α) (lo hi : ℕ) (x y : α) : AreaMap α :=
  ((m.remove a.start).put ⟨a.start, lo, x⟩).put ⟨hi, a.stop, y⟩

/-- Let the area `a` take in the area `b` behind it, with the attribute `x` for both. -/
def join (m : AreaMap α) (a b : Area α) (x : α) : AreaMap α :=
  ((m.remove a.start).remove b.start).put ⟨a.start, b.stop, x⟩

def view {β : Type v} (m : AreaMap α) (g : Area α → ℕ → β) (v : ℕ) : Option β :=
  (m.at? v).map fun a => g a v

section Edits

variable {β : Type v} {g : Area α → ℕ → β} {x y : α}

theorem view_eq_some_iff {z : β} : m.view g v = some z ↔ ∃ a, a ∈ m ∧ a.Contains v ∧ g a v = z := by
  simp only [view, Option.map_eq_some_iff, at?_eq_some_iff, and_assoc]

theorem view_of_mem (ha : a ∈ m) (hav : a.Contains v) : m.view g v = some (g a v) :=
  view_eq_some_iff.mpr ⟨a, ha, hav, rfl⟩

theorem view_eq_none_iff : m.view g v = none ↔ ∀ a, a ∈ m → ¬ a.Contains v := by
  rw [view, Option.map_eq_none_iff, at?_eq_none_iff]

theorem view_put (a : Area α) (hfree : m.Free a.start a.stop) :
    (m.put a).view g v = if a.Contains v then some (g a v) else m.view g v := by
  rw [view, at?_put a hfree]
  split <;> rfl

theorem view_remove (ha : a ∈ m) :
    (m.remove a.start).view g v = if a.Contains v then none else m.view g v := by
  rw [view, at?_remove ha]
  split <;> rfl

section

variable (ha : a ∈ m) (hlo : lo ≤ hi) (hhi : lo ≤ a.stop) (hin : a.start ≤ hi)

include ha hlo hhi hin

theorem free_cut (x : α) : ((m.remove a.start).put ⟨a.start, lo, x⟩).Free hi a.stop := by
  have hroom := free_remove ha
  intro b hb
  rcases (mem_put ⟨a.start, lo, x⟩ (hroom.mono (Nat.le_refl _) hhi)).mp hb with ⟨rfl, -⟩ | hb
  · exact .inl hlo
  · exact (hroom b hb).imp (fun h => Nat.le_trans h hin) id

theorem mem_cut : b ∈ m.cut a lo hi x y ↔ (b = ⟨hi, a.stop, y⟩ ∧ hi < a.stop) ∨
      (b = ⟨a.start, lo, x⟩ ∧ a.start < lo) ∨ (b ∈ m ∧ b ≠ a) := by
  have hleft : (m.remove a.start).Free a.start lo := (free_remove ha).mono (Nat.le_refl _) hhi
  have hright := free_cut ha hlo hhi hin x
  unfold cut
  rw [mem_put ⟨hi, a.stop, y⟩ hright, mem_put ⟨a.start, lo, x⟩ hleft, mem_remove]
  have hne : b ∈ m ∧ b.start ≠ a.start ↔ b ∈ m ∧ b ≠ a :=
    and_congr_right fun hb => not_congr ⟨eq_of_start hb ha, fun h => h ▸ rfl⟩
  rw [hne]

end

/-- A cut takes the pages and leaves the rest as it was. -/
theorem view_cut (ha : a ∈ m) (hstart : a.start ≤ lo) (hlo : lo ≤ hi) (hhi : hi ≤ a.stop)
    (hx : a.start ≤ v → v < lo → g ⟨a.start, lo, x⟩ v = g a v)
    (hy : hi ≤ v → v < a.stop → g ⟨hi, a.stop, y⟩ v = g a v) :
    (m.cut a lo hi x y).view g v = if lo ≤ v ∧ v < hi then none else m.view g v := by
  have hleft : (m.remove a.start).Free a.start lo :=
    (free_remove ha).mono (Nat.le_refl _) (Nat.le_trans hlo hhi)
  have hright := free_cut ha hlo (Nat.le_trans hlo hhi) (Nat.le_trans hstart hlo) x
  unfold cut
  rw [view_put ⟨hi, a.stop, y⟩ hright, view_put ⟨a.start, lo, x⟩ hleft, view_remove ha]
  by_cases hav : a.Contains v
  · rw [view_of_mem ha hav]
    obtain ⟨hav1, hav2⟩ := hav
    rcases Nat.lt_or_ge v lo with hvlo | hvlo
    · rw [if_neg (by rintro ⟨h, -⟩; simp only at h; omega), if_pos ⟨hav1, hvlo⟩, if_neg (by omega),
        hx hav1 hvlo]
    rcases Nat.lt_or_ge v hi with hvhi | hvhi
    · rw [if_neg (by rintro ⟨h, -⟩; simp only at h; omega),
        if_neg (by rintro ⟨-, h⟩; simp only at h; omega), if_pos ⟨hav1, hav2⟩, if_pos ⟨hvlo, hvhi⟩]
    · rw [if_pos ⟨hvhi, hav2⟩, if_neg (by omega), hy hvhi hav2]
  · have hout : ¬ (a.start ≤ v ∧ v < a.stop) := hav
    rw [if_neg (by rintro ⟨h, h'⟩; simp only at h h'; omega),
      if_neg (by rintro ⟨h, h'⟩; simp only at h h'; omega), if_neg hav, if_neg (by omega)]

theorem free_join (ha : a ∈ m) (hb : b ∈ m) (hadj : a.stop = b.start) :
    ((m.remove a.start).remove b.start).Free a.start b.stop := by
  intro c hc
  obtain ⟨hc, hcb⟩ := mem_remove.mp hc
  obtain ⟨hc, hca⟩ := mem_remove.mp hc
  have hpos := start_lt_stop hc
  rcases eq_or_disjoint ha hc with rfl | h | h
  · exact absurd rfl hca
  · rcases eq_or_disjoint hb hc with rfl | h' | h'
    · exact absurd rfl hcb
    · exact .inr h'
    · omega
  · exact .inl h

theorem mem_join {c : Area α} (ha : a ∈ m) (hb : b ∈ m) (hadj : a.stop = b.start) :
    c ∈ m.join a b x ↔ c = ⟨a.start, b.stop, x⟩ ∨ (c ∈ m ∧ c ≠ a ∧ c ≠ b) := by
  have hapos := start_lt_stop ha
  have hbpos := start_lt_stop hb
  have hfree := free_join ha hb hadj
  unfold join
  rw [mem_put ⟨a.start, b.stop, x⟩ hfree, mem_remove, mem_remove]
  refine or_congr (and_iff_left (by simp only; omega)) ?_
  rw [and_assoc]
  refine and_congr_right fun hc => and_congr (not_congr ?_) (not_congr ?_)
  · exact ⟨eq_of_start hc ha, fun h => h ▸ rfl⟩
  · exact ⟨eq_of_start hc hb, fun h => h ▸ rfl⟩

/-- Areas may be joined if the joint one says the same of the pages of both. -/
theorem view_join (ha : a ∈ m) (hb : b ∈ m) (hadj : a.stop = b.start)
    (hx : a.Contains v → g ⟨a.start, b.stop, x⟩ v = g a v)
    (hy : b.Contains v → g ⟨a.start, b.stop, x⟩ v = g b v) :
    (m.join a b x).view g v = m.view g v := by
  have hapos := start_lt_stop ha
  have hbpos := start_lt_stop hb
  have hb' : b ∈ m.remove a.start := mem_remove.mpr ⟨hb, by omega⟩
  have hfree := free_join ha hb hadj
  unfold join
  rw [view_put ⟨a.start, b.stop, x⟩ hfree, view_remove hb', view_remove ha]
  by_cases hav : a.Contains v
  · rw [view_of_mem ha hav, hx hav, if_pos ⟨hav.1, by have := hav.2; simp only; omega⟩]
  by_cases hbv : b.Contains v
  · rw [view_of_mem hb hbv, hy hbv, if_pos ⟨by have := hbv.1; simp only; omega, hbv.2⟩]
  rw [if_neg, if_neg hbv, if_neg hav]
  rintro ⟨h, h'⟩
  unfold Area.Contains at hav hbv
  simp only at h h'
  omega

end Edits

end AreaMap
