import CosmOS.AreaMap

/-!
# AreaEdit — taking a range out of a map of areas

How an address space unmaps a range: it walks over the areas of the range, cuts each of them, and joins
what is left with its neighbours.  What a cut or a join does to the attribute of an area is a parameter
(`AreaEdit`), and so is what is handed out for the pages that go.

* `Lawful`: cuts and joins change nothing of what the areas say about the pages that stay.
* `mergeAround_induct`: whatever one join keeps, joining with the neighbours keeps.
* `unmap_cut`: `unmap` succeeds exactly on a range that is wholly covered; then it is a cut of the range
  (`IsCut`), followed by joins.
-/

open List

/-- How the areas of a map are taken apart and put together. -/
structure AreaEdit (α γ : Type) where
  /-- The pages of the area may be taken. -/
  mayTake : Area α → Bool
  /-- The attribute of the pages before `n`. -/
  before : ℕ → Area α → α
  /-- The attribute of the pages from `n` on. -/
  behind : ℕ → Area α → α
  /-- What is handed out when the pages from `lo` up to `hi` go. -/
  taken : Area α → ℕ → ℕ → List γ
  canJoin : Area α → Area α → Bool
  /-- The attribute of the joint area. -/
  joined : Area α → Area α → α

namespace AreaEdit

variable {α β γ : Type} (E : AreaEdit α γ)

def find? (m : AreaMap α) (k : ℕ) : Option (Area α) := m.areas.find? fun a => a.start = k

/-- The area before `a` takes it in, if it may. -/
def mergeLeft (m : AreaMap α) (a : Area α) : AreaMap α × Area α :=
  match (m.remove a.start).floor? a.start with
  | some left =>
    if E.canJoin left a then (m.join left a (E.joined left a), ⟨left.start, a.stop, E.joined left a⟩)
    else (m, a)
  | none => (m, a)

/-- The area takes in the one behind it, if it may. -/
def mergeRight (m : AreaMap α) (a : Area α) : AreaMap α :=
  match m.ceil? a.stop with
  | some right => if E.canJoin a right then m.join a right (E.joined a right) else m
  | none => m

/-- Join the area that begins at `k` with its neighbours. -/
def mergeAround (m : AreaMap α) (k : ℕ) : AreaMap α :=
  match find? m k with
  | some a => E.mergeRight (E.mergeLeft m a).1 (E.mergeLeft m a).2
  | none => m

/-- The areas from `cursor` up to `hi`, by their starts.  There is none if a page may not be taken.  As
many rounds as there are pages are enough. -/
def overlapStarts (m : AreaMap α) (hi : ℕ) : ℕ → ℕ → Option (List ℕ)
  | 0, _ => some []
  | rounds + 1, cursor =>
    if hi ≤ cursor then some []
    else
      match (m.floor? cursor).filter fun a => a.Contains cursor with
      | none => none
      | some a =>
        if E.mayTake a then (overlapStarts m hi rounds (min a.stop hi)).map (a.start :: ·)
        else none

/-- The area at `k` loses its pages in the range.  The state has the map, the starts of the areas that
may have a new neighbour, and what was handed out. -/
def cutOverlap (lo hi : ℕ) (done : AreaMap α × List ℕ × List γ) (k : ℕ) :
    Option (AreaMap α × List ℕ × List γ) := do
  let a ← find? done.1 k
  let overlapLo := max a.start lo
  let overlapHi := min a.stop hi
  return (done.1.cut a overlapLo overlapHi (E.before overlapLo a) (E.behind overlapHi a),
    done.2.1 ++ (if a.start < overlapLo then [a.start] else []) ++
      (if overlapHi < a.stop then [overlapHi] else []),
    done.2.2 ++ E.taken a overlapLo overlapHi)

/-- Take the pages from `lo` up to `hi` out of the map. -/
def unmap (m : AreaMap α) (lo hi : ℕ) : Option (AreaMap α × List γ) := do
  let starts ← E.overlapStarts m hi (hi - lo) lo
  let done ← starts.foldlM (E.cutOverlap lo hi) (m, [], [])
  return (done.2.1.foldl E.mergeAround done.1, done.2.2)

variable {E} {m m' : AreaMap α} {a b : Area α} {lo hi cursor rounds k n : ℕ}

theorem find?_eq_some_iff : find? m k = some a ↔ a ∈ m ∧ a.start = k := by
  constructor
  · intro h
    exact ⟨mem_of_find?_eq_some h, by simpa using find?_some h⟩
  rintro ⟨hmem, rfl⟩
  have hsome : (find? m a.start).isSome := find?_isSome.mpr ⟨a, hmem, by simp⟩
  obtain ⟨other, hother⟩ := Option.isSome_iff_exists.mp hsome
  have hstart : other.start = a.start := by simpa using find?_some hother
  rw [hother, AreaMap.eq_of_start (mem_of_find?_eq_some hother) hmem hstart]

/-! ## Joining with the neighbours -/

section Joining

variable {R : AreaMap α → AreaMap α → Prop} (hrefl : ∀ m, R m m)
  (htrans : ∀ m₁ m₂ m₃, R m₁ m₂ → R m₂ m₃ → R m₁ m₃)
  (hadj : ∀ a b, E.canJoin a b → a.stop = b.start)
  (hjoin : ∀ m a b, a ∈ m → b ∈ m → E.canJoin a b → R m (m.join a b (E.joined a b)))

include hrefl hjoin

theorem mergeRight_induct (ha : a ∈ m) : R m (E.mergeRight m a) := by
  unfold mergeRight
  split
  next right hceil =>
    split
    next hcan => exact hjoin m a right ha (AreaMap.ceil?_spec hceil).1 hcan
    · exact hrefl m
  · exact hrefl m

include hadj

theorem mergeLeft_induct (ha : a ∈ m) :
    R m (E.mergeLeft m a).1 ∧ (E.mergeLeft m a).2 ∈ (E.mergeLeft m a).1 := by
  unfold mergeLeft
  split
  next left hfloor =>
    have hleft : left ∈ m := (AreaMap.mem_remove.mp (AreaMap.floor?_spec hfloor).1).1
    split
    next hcan => exact ⟨hjoin m left a hleft ha hcan, (AreaMap.mem_join hleft ha (hadj _ _ hcan)).mpr (.inl rfl)⟩
    · exact ⟨hrefl m, ha⟩
  · exact ⟨hrefl m, ha⟩

include htrans

theorem mergeAround_induct (m : AreaMap α) (k : ℕ) : R m (E.mergeAround m k) := by
  unfold mergeAround
  split
  next a hfind =>
    obtain ⟨hleft, hmem⟩ := mergeLeft_induct hrefl hadj hjoin (find?_eq_some_iff.mp hfind).1
    exact htrans _ _ _ hleft (mergeRight_induct hrefl hjoin hmem)
  · exact hrefl m

/-- A reflexive and transitive relation that every join meets is met by joining around any areas. -/
theorem foldl_mergeAround_induct (keys : List ℕ) :
    ∀ m, R m (keys.foldl E.mergeAround m) := by
  induction keys with
  | nil => exact hrefl
  | cons k keys ih =>
    intro m
    exact htrans _ _ _ (mergeAround_induct hrefl htrans hadj hjoin m k) (ih _)

end Joining

/-! ## Edits that keep what the areas say -/

/-- On well-formed areas, an edit leaves well-formed areas that say the same of every page that stays.
`out` is what is handed out for a page. -/
structure Lawful (E : AreaEdit α γ) (Ok : Area α → Prop) (g : Area α → ℕ → β) (out : β → Option γ) :
    Prop where
  before : ∀ a n, Ok a → a.start ≤ n → n ≤ a.stop → Ok ⟨a.start, n, E.before n a⟩ ∧
    ∀ v, a.start ≤ v → v < n → g ⟨a.start, n, E.before n a⟩ v = g a v
  behind : ∀ a n, Ok a → a.start ≤ n → n ≤ a.stop → Ok ⟨n, a.stop, E.behind n a⟩ ∧
    ∀ v, n ≤ v → v < a.stop → g ⟨n, a.stop, E.behind n a⟩ v = g a v
  taken : ∀ a lo hi, Ok a → a.start ≤ lo → lo ≤ hi → hi ≤ a.stop →
    E.taken a lo hi = (range' lo (hi - lo)).filterMap fun v => out (g a v)
  adjacent : ∀ a b, E.canJoin a b → a.stop = b.start
  joined : ∀ a b, Ok a → Ok b → a.start < a.stop → b.start < b.stop → E.canJoin a b →
    Ok ⟨a.start, b.stop, E.joined a b⟩ ∧
      ∀ v, (a.Contains v → g ⟨a.start, b.stop, E.joined a b⟩ v = g a v) ∧
        (b.Contains v → g ⟨a.start, b.stop, E.joined a b⟩ v = g b v)

variable {Ok : Area α → Prop} {g : Area α → ℕ → β} {out : β → Option γ}

/-- Joining keeps well-formed areas well-formed, and what they say. -/
theorem Lawful.foldl_mergeAround (h : E.Lawful Ok g out) (keys : List ℕ) (hok : ∀ a, a ∈ m → Ok a) :
    (∀ a, a ∈ keys.foldl E.mergeAround m → Ok a) ∧
      ∀ v, (keys.foldl E.mergeAround m).view g v = m.view g v := by
  refine foldl_mergeAround_induct (R := fun m m' => (∀ a, a ∈ m → Ok a) → (∀ a, a ∈ m' → Ok a) ∧
    ∀ v, m'.view g v = m.view g v) ?_ ?_ h.adjacent ?_ keys m hok
  · exact fun m hok => ⟨hok, fun v => rfl⟩
  · intro m₁ m₂ m₃ h₁₂ h₂₃ hok
    obtain ⟨hok₂, hview₂⟩ := h₁₂ hok
    obtain ⟨hok₃, hview₃⟩ := h₂₃ hok₂
    exact ⟨hok₃, fun v => (hview₃ v).trans (hview₂ v)⟩
  · intro m a b ha hb hcan hok
    have hadj := h.adjacent a b hcan
    obtain ⟨hnew, hsame⟩ := h.joined a b (hok a ha) (hok b hb) (AreaMap.start_lt_stop ha)
      (AreaMap.start_lt_stop hb) hcan
    refine ⟨fun c hc => ?_, fun v => AreaMap.view_join ha hb hadj (hsame v).1 (hsame v).2⟩
    rcases (AreaMap.mem_join ha hb hadj).mp hc with rfl | ⟨hc, -⟩
    · exact hnew
    · exact hok c hc

/-! ## Cutting a range -/

/-- Every page of the range lies in an area that may be taken. -/
def Covered (E : AreaEdit α γ) (m : AreaMap α) (lo hi : ℕ) : Prop :=
  ∀ v, lo ≤ v → v < hi → ∃ a, a ∈ m ∧ a.Contains v ∧ E.mayTake a

def overlap (lo hi : ℕ) (a : Area α) : List ℕ := range' (max a.start lo) (min a.stop hi - max a.start lo)

theorem mem_overlap {v : ℕ} : v ∈ overlap lo hi a ↔ a.Contains v ∧ lo ≤ v ∧ v < hi := by
  rw [overlap, mem_range'_1, Area.Contains]
  omega

/-- The areas from the cursor on, one after the other, which together have the rest of the range. -/
structure Walk (E : AreaEdit α γ) (m : AreaMap α) (lo hi cursor : ℕ) (areas : List (Area α)) : Prop where
  mem : ∀ a ∈ areas, a ∈ m
  mayTake : ∀ a ∈ areas, E.mayTake a
  meets : ∀ a ∈ areas, max a.start lo < min a.stop hi
  pages : areas.flatMap (overlap lo hi) = range' cursor (hi - cursor)

theorem Walk.nil (h : hi ≤ cursor) : Walk E m lo hi cursor [] :=
  ⟨nofun, nofun, nofun, by simp [h]⟩

/-- The walk ends behind the range.  The induction is on the rounds; the cursor is where the range or the
next area begins. -/
theorem walk_of_overlapStarts {starts : List ℕ} (hrounds : hi - cursor ≤ rounds) (hlo : lo ≤ cursor)
    (hfirst : ∀ a, a ∈ m → a.Contains cursor → cursor < hi → max a.start lo = cursor)
    (h : E.overlapStarts m hi rounds cursor = some starts) :
    ∃ areas, starts = areas.map Area.start ∧ Walk E m lo hi cursor areas := by
  induction rounds generalizing cursor starts with
  | zero =>
    cases h
    exact ⟨[], rfl, .nil (by omega)⟩
  | succ rounds ih =>
    unfold overlapStarts at h
    split at h
    next hle =>
      cases h
      exact ⟨[], rfl, .nil hle⟩
    split at h
    · cases h
    rename_i hcursor a hfind
    rw [AreaMap.filter_floor?, AreaMap.at?_eq_some_iff] at hfind
    obtain ⟨hmem, hin⟩ := hfind
    have hstart := hfirst a hmem hin (by omega)
    obtain ⟨_, hstop⟩ := hin
    -- An area that goes on behind this one does not begin inside of it.
    have hnext : ∀ other, other ∈ m → other.Contains (min a.stop hi) → min a.stop hi < hi →
        max other.start lo = min a.stop hi := by
      rintro other hother ⟨_, _⟩ hlt
      have hbehind : a.stop ≤ other.start := by
        by_contra hinside
        obtain rfl := AreaMap.eq_of_contains (v := a.stop - 1) hmem hother ⟨by omega, by omega⟩
          ⟨by omega, by omega⟩
        omega
      omega
    split at h
    next hmay =>
      obtain ⟨rest, hrest, rfl⟩ := Option.map_eq_some_iff.mp h
      obtain ⟨areas, rfl, hwalk⟩ := ih (by omega) (by omega) hnext hrest
      refine ⟨a :: areas, rfl, ?_, ?_, ?_, ?_⟩
      · simpa using ⟨hmem, hwalk.mem⟩
      · simpa using ⟨hmay, hwalk.mayTake⟩
      · refine forall_mem_cons.mpr ⟨by omega, hwalk.meets⟩
      · rw [flatMap_cons, hwalk.pages, overlap, hstart]
        have happend := range'_append_1 (s := cursor) (m := min a.stop hi - cursor)
          (n := hi - min a.stop hi)
        rwa [show cursor + (min a.stop hi - cursor) = min a.stop hi by omega,
          show min a.stop hi - cursor + (hi - min a.stop hi) = hi - cursor by omega] at happend
    · cases h

/-- A range that is covered has a walk. -/
theorem overlapStarts_isSome (rounds : ℕ) (h : Covered E m cursor hi) :
    (E.overlapStarts m hi rounds cursor).isSome := by
  induction rounds generalizing cursor with
  | zero => rfl
  | succ rounds ih =>
    unfold overlapStarts
    split
    · rfl
    next hlt =>
      obtain ⟨a, hmem, hin, hmay⟩ := h cursor (le_refl _) (by omega)
      have hnext : Covered E m (min a.stop hi) hi := by
        intro v hv
        have hlo := hin.2
        exact h v (by omega)
      rw [AreaMap.filter_floor?, AreaMap.at?_eq_some_iff.mpr ⟨hmem, hin⟩]
      dsimp only
      rw [if_pos hmay, Option.isSome_map]
      exact ih hnext

/-- No area is met twice, since no page is. -/
theorem Walk.nodup {areas : List (Area α)} (h : Walk E m lo hi cursor areas) : areas.Nodup := by
  have hpages : (areas.flatMap (overlap lo hi)).Nodup := h.pages ▸ nodup_range'
  refine (nodup_flatMap.mp hpages).2.imp_of_mem fun {a b} ha _ hdisjoint heq => ?_
  subst heq
  have hmeets := h.meets a ha
  have hpage : max a.start lo ∈ overlap lo hi a := mem_overlap.mpr ⟨⟨by omega, by omega⟩, by omega, by omega⟩
  exact hdisjoint hpage hpage

theorem Walk.contains_iff {areas : List (Area α)} {v : ℕ} (h : Walk E m lo hi lo areas) :
    (∃ a ∈ areas, v ∈ overlap lo hi a) ↔ lo ≤ v ∧ v < hi := by
  rw [← mem_flatMap, h.pages, mem_range'_1]
  omega

/-- The map without the pages of the range.  Areas that do not meet it stay. -/
structure IsCut (Ok : Area α → Prop) (g : Area α → ℕ → β) (out : β → Option γ) (m : AreaMap α)
    (lo hi : ℕ) (m' : AreaMap α) (taken : List γ) : Prop where
  ok : ∀ a, a ∈ m' → Ok a
  view : ∀ v, m'.view g v = if lo ≤ v ∧ v < hi then none else m.view g v
  taken : taken = (range' lo (hi - lo)).filterMap fun v => (m.view g v).bind out
  keeps : ∀ a, a ∈ m → (∀ v, a.Contains v → ¬ (lo ≤ v ∧ v < hi)) → a ∈ m'

/-- One cut: the area loses the range, the other areas stay. -/
theorem Lawful.cutOverlap (h : E.Lawful Ok g out) (hok : ∀ b, b ∈ m → Ok b) (ha : a ∈ m)
    (hmeets : max a.start lo < min a.stop hi) (keys : List ℕ) (taken : List γ) :
    ∃ m' keys', E.cutOverlap lo hi (m, keys, taken) a.start =
        some (m', keys', taken ++ (overlap lo hi a).filterMap fun v => out (g a v)) ∧
      (∀ b, b ∈ m' → Ok b) ∧ (∀ b, b ∈ m → b ≠ a → b ∈ m') ∧
      ∀ v, m'.view g v = if v ∈ overlap lo hi a then none else m.view g v := by
  have hbefore := h.before a (max a.start lo) (hok a ha) (by omega) (by omega)
  have hbehind := h.behind a (min a.stop hi) (hok a ha) (by omega) (by omega)
  have hmem := fun b => AreaMap.mem_cut (b := b) (x := E.before (max a.start lo) a)
    (y := E.behind (min a.stop hi) a) ha hmeets.le (by omega) (by omega)
  have htaken := h.taken a _ _ (hok a ha) (le_max_left a.start lo) hmeets.le (min_le_left a.stop hi)
  have hfind : find? m a.start = some a := find?_eq_some_iff.mpr ⟨ha, rfl⟩
  obtain ⟨keys', heq⟩ : ∃ keys', E.cutOverlap lo hi (m, keys, taken) a.start =
      some (m.cut a (max a.start lo) (min a.stop hi) (E.before (max a.start lo) a)
        (E.behind (min a.stop hi) a), keys', taken ++ E.taken a (max a.start lo) (min a.stop hi)) := by
    simp only [AreaEdit.cutOverlap, hfind, Option.bind_eq_bind, Option.bind_some, pure]
    exact ⟨_, rfl⟩
  refine ⟨_, keys', heq.trans (by rw [htaken]; rfl), ?_, ?_, ?_⟩
  · intro b hb
    rcases (hmem b).mp hb with ⟨rfl, -⟩ | ⟨rfl, -⟩ | ⟨hb, -⟩
    · exact hbehind.1
    · exact hbefore.1
    · exact hok b hb
  · exact fun b hb hne => (hmem b).mpr (.inr (.inr ⟨hb, hne⟩))
  · intro v
    have hcut := AreaMap.view_cut (v := v) ha (le_max_left a.start lo) hmeets.le (min_le_left a.stop hi)
      (hbefore.2 v) (hbehind.2 v)
    rw [hcut]
    refine if_congr ?_ rfl rfl
    rw [mem_overlap, Area.Contains]
    omega

/-- All cuts.  The induction is on the areas; those still to be cut are as they were. -/
theorem Lawful.foldlM_cutOverlap (h : E.Lawful Ok g out) {areas : List (Area α)} (hnodup : areas.Nodup)
    (hmeets : ∀ a ∈ areas, max a.start lo < min a.stop hi) (keys : List ℕ) (taken : List γ) :
    ∀ m : AreaMap α, (∀ b, b ∈ m → Ok b) → (∀ a ∈ areas, a ∈ m) → ∃ m' keys',
      (areas.map Area.start).foldlM (E.cutOverlap lo hi) (m, keys, taken) = some (m', keys', taken ++
        areas.flatMap fun a => (overlap lo hi a).filterMap fun v => out (g a v)) ∧
      (∀ b, b ∈ m' → Ok b) ∧ (∀ b, b ∈ m → b ∉ areas → b ∈ m') ∧
      ∀ v, m'.view g v = if ∃ a ∈ areas, v ∈ overlap lo hi a then none else m.view g v := by
  induction areas generalizing keys taken with
  | nil => exact fun m hok _ => ⟨m, keys, by simp, hok, fun b hb _ => hb, fun v => by simp⟩
  | cons a areas ih =>
    intro m hok hmem
    obtain ⟨hnew, hnodup⟩ := nodup_cons.mp hnodup
    obtain ⟨m₁, keys₁, heq₁, hok₁, hkeeps₁, hview₁⟩ := h.cutOverlap hok (hmem a (.head _))
      (hmeets a (.head _)) keys taken
    obtain ⟨m₂, keys₂, heq₂, hok₂, hkeeps₂, hview₂⟩ := ih hnodup
      (fun b hb => hmeets b (.tail _ hb)) keys₁ _ m₁ hok₁
      fun b hb => hkeeps₁ b (hmem b (.tail _ hb)) (ne_of_mem_of_not_mem hb hnew)
    refine ⟨m₂, keys₂, ?_, hok₂, ?_, fun v => ?_⟩
    · rw [map_cons, foldlM_cons, heq₁, Option.bind_eq_bind, Option.bind_some, heq₂, flatMap_cons,
        append_assoc]
    · intro b hb hout
      rw [mem_cons, not_or] at hout
      exact hkeeps₂ b (hkeeps₁ b hb hout.1) hout.2
    · rw [hview₂, hview₁]
      by_cases hv : v ∈ overlap lo hi a <;> simp [hv]

/-- Taking out a range that is not wholly covered fails.  Any other range is cut out, and then some areas
are joined with their neighbours. -/
theorem Lawful.unmap_cut (h : E.Lawful Ok g out) (hok : ∀ a, a ∈ m → Ok a) (lo hi : ℕ) :
    match E.unmap m lo hi with
    | none => ¬ Covered E m lo hi
    | some (m', taken) => Covered E m lo hi ∧ ∃ between, ∃ keys : List ℕ,
        IsCut Ok g out m lo hi between taken ∧ m' = keys.foldl E.mergeAround between := by
  unfold unmap
  cases hstarts : E.overlapStarts m hi (hi - lo) lo with
  | none =>
    intro hcovered
    have hsome := overlapStarts_isSome (hi - lo) hcovered
    rw [hstarts] at hsome
    cases hsome
  | some starts =>
    obtain ⟨areas, rfl, hwalk⟩ := walk_of_overlapStarts (Nat.le_refl _) (Nat.le_refl _)
      (fun a _ hin _ => Nat.max_eq_right hin.1) hstarts
    obtain ⟨between, keys, heq, hokBetween, hkeeps, hview⟩ := h.foldlM_cutOverlap hwalk.nodup
      hwalk.meets [] [] m hok hwalk.mem
    simp only [Option.bind_eq_bind, Option.bind_some, heq, pure]
    refine ⟨fun v hlo hhi => ?_, between, keys, ⟨hokBetween, fun v => ?_, ?_, ?_⟩, rfl⟩
    · obtain ⟨a, ha, hv⟩ := hwalk.contains_iff.mpr ⟨hlo, hhi⟩
      exact ⟨a, hwalk.mem a ha, (mem_overlap.mp hv).1, hwalk.mayTake a ha⟩
    · rw [hview]
      exact if_congr hwalk.contains_iff rfl rfl
    · rw [nil_append, ← hwalk.pages, filterMap_flatMap]
      refine flatMap_congr fun a ha => filterMap_congr fun v hv => ?_
      rw [AreaMap.view_of_mem (hwalk.mem a ha) (mem_overlap.mp hv).1, Option.bind_some]
    · intro a ha hout
      refine hkeeps a ha fun hin => ?_
      have hmeets := hwalk.meets a hin
      exact hout (max a.start lo) ⟨le_max_left _ _, by omega⟩ ⟨le_max_right _ _, by omega⟩

end AreaEdit
