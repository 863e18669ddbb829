import Mathlib

/-!
# Mm.DeferredRecycle — kernel ranges that wait for a flush

`DeferredKernelRecycleState` of `mm/tlb_shootdown.rs`: ranges that are unmapped and not yet flushed are
kept merged, with the frames and kernel stack ids to give back after the flush.
-/

namespace CosmOS.Mm.DeferredRecycle

open List

structure DeferredVaRange where
  start : ℕ
  stop : ℕ
deriving DecidableEq

def DeferredVaRange.Contains (r : DeferredVaRange) (va : ℕ) : Prop := r.start ≤ va ∧ va < r.stop

/-- `DeferredKernelRecycleState`, over the type of the frame trackers. -/
structure State (φ : Type) where
  deferredVaRanges : List DeferredVaRange
  deferredVaRangeCount : ℕ
  deferredFrames : List φ
  deferredKstackIds : List ℕ

def new {φ : Type} : State φ := ⟨[], 0, [], []⟩

def rangesOverlap (lhs rhs : DeferredVaRange) : Bool := lhs.start < rhs.stop && rhs.start < lhs.stop

/-- The loop of `mark_va_range_deferred` on the ranges from `idx` on, with the count. -/
def placeFrom (range : DeferredVaRange) (count : ℕ) :
    List DeferredVaRange → List DeferredVaRange × ℕ
  | [] => ([range], count + 1)
  | current :: rest =>
    if current.stop < range.start then
      let placed := placeFrom range count rest
      (current :: placed.1, placed.2)
    else if range.stop < current.start then (range :: current :: rest, count + 1)
    else if rangesOverlap current range || current.stop = range.start || range.stop = current.start then
      placeFrom ⟨min range.start current.start, max range.stop current.stop⟩ (count - 1) rest
    else
      let placed := placeFrom range count rest
      (current :: placed.1, placed.2)

/-- The arguments of `mark_va_range_deferred`. -/
structure Mark (φ : Type) where
  range : DeferredVaRange
  frames : List φ
  kstackId : Option ℕ

inductive Call (φ : Type) where
  | mark (m : Mark φ)
  | takeAll

variable {φ : Type} {s : State φ} {marks : List (Mark φ)}

def markVaRangeDeferred (s : State φ) (m : Mark φ) : State φ :=
  if m.range.start ≥ m.range.stop then s
  else
    let placed := placeFrom m.range s.deferredVaRangeCount s.deferredVaRanges
    ⟨placed.1, placed.2, s.deferredFrames ++ m.frames, s.deferredKstackIds ++ m.kstackId.toList⟩

def vaRangeRequiresFlush (s : State φ) (range : DeferredVaRange) : Bool :=
  if range.start ≥ range.stop then false
  else s.deferredVaRanges.any fun current => rangesOverlap current range

/-- `take_all`: the batch is the state before, without the count. -/
def takeAll (s : State φ) : (List DeferredVaRange × List φ × List ℕ) × State φ :=
  ((s.deferredVaRanges, s.deferredFrames, s.deferredKstackIds), new)

def State.next (s : State φ) : Call φ → State φ
  | .mark m => markVaRangeDeferred s m
  | .takeAll => (takeAll s).2

/-- The marks since the last `take_all`. -/
def note (marks : List (Mark φ)) : Call φ → List (Mark φ)
  | .mark m => marks ++ [m]
  | .takeAll => []

/-! ## One range -/

/-- In order, with a gap between any two. -/
def Separated (l : List DeferredVaRange) : Prop :=
  l.Pairwise (fun a b => a.stop < b.start) ∧ ∀ a ∈ l, a.start < a.stop

variable {l : List DeferredVaRange} {range current : DeferredVaRange}

theorem separated_cons : Separated (current :: l) ↔
    (∀ b ∈ l, current.stop < b.start) ∧ current.start < current.stop ∧ Separated l := by
  simp only [Separated, pairwise_cons, forall_mem_cons]
  tauto

/-- What placing a range does to a separated list. -/
structure Placed (l : List DeferredVaRange) (range : DeferredVaRange) (count : ℕ)
    (placed : List DeferredVaRange × ℕ) : Prop where
  separated : Separated placed.1
  union : ∀ va, (∃ r ∈ placed.1, r.Contains va) ↔ range.Contains va ∨ ∃ r ∈ l, r.Contains va
  count : placed.2 + l.length = count + placed.1.length
  above : ∀ lo, lo < range.start → (∀ b ∈ l, lo < b.start) → ∀ b ∈ placed.1, lo < b.start

/-- The loop keeps the list separated.  The induction is on the ranges that are left; the range grows
when it takes one in. -/
theorem placeFrom_placed (count : ℕ) (hrange : range.start < range.stop) (hsep : Separated l)
    (hcount : l.length ≤ count) : Placed l range count (placeFrom range count l) := by
  induction l generalizing range count with
  | nil =>
    refine ⟨separated_cons.mpr ⟨nofun, hrange, .nil, nofun⟩, fun va => by simp [placeFrom], rfl, ?_⟩
    intro lo hlo _
    simpa [placeFrom] using hlo
  | cons current rest ih =>
    obtain ⟨hhead, hpos, hrest⟩ := separated_cons.mp hsep
    have hlen : rest.length + 1 ≤ count := hcount
    unfold placeFrom
    split
    next hlt =>
      have h := ih count hrange hrest (by omega)
      refine ⟨separated_cons.mpr ⟨h.above _ hlt hhead, hpos, h.separated⟩, fun va => ?_, ?_, ?_⟩
      · simp only [mem_cons, or_and_right, exists_or, exists_eq_left, h.union]
        exact or_left_comm
      · exact congrArg (· + 1) h.count
      · intro lo hlo hall
        obtain ⟨hcurrent, hall⟩ := forall_mem_cons.mp hall
        exact forall_mem_cons.mpr ⟨hcurrent, h.above lo hlo hall⟩
    split
    next hlt =>
      refine ⟨separated_cons.mpr ⟨forall_mem_cons.mpr ⟨hlt, fun b hb => ?_⟩, hrange, hsep⟩,
        fun va => by simp, by simp only [length_cons]; omega, fun lo hlo => ?_⟩
      · have := hhead b hb
        omega
      · exact fun hall => forall_mem_cons.mpr ⟨hlo, hall⟩
    split
    next hbehind hbefore _ =>
      have h := @ih ⟨min range.start current.start, max range.stop current.stop⟩ (count - 1)
        (show min _ _ < max _ _ by omega) hrest (by omega)
      refine ⟨h.separated, fun va => ?_, ?_, fun lo hlo hall => ?_⟩
      · simp only [mem_cons, or_and_right, exists_or, exists_eq_left, h.union, ← or_assoc]
        refine or_congr_left ?_
        simp only [DeferredVaRange.Contains]
        omega
      · have := h.count
        simp only [length_cons]
        omega
      · obtain ⟨hcurrent, hall⟩ := forall_mem_cons.mp hall
        exact h.above lo (show lo < min _ _ by omega) hall
    · -- ranges that neither lie apart nor touch do overlap
      rename_i hbehind hbefore hmeet
      simp [rangesOverlap] at hmeet
      omega

/-- The address is in a range marked since the last `take_all`. -/
def Marked (marks : List (Mark φ)) (va : ℕ) : Prop := ∃ m ∈ marks, m.range.Contains va

/-- The state agrees with the marks since the last `take_all`. -/
structure Inv (s : State φ) (marks : List (Mark φ)) : Prop where
  separated : Separated s.deferredVaRanges
  union : ∀ va, (∃ r ∈ s.deferredVaRanges, r.Contains va) ↔ Marked marks va
  count : s.deferredVaRangeCount = s.deferredVaRanges.length
  frames : s.deferredFrames = marks.flatMap Mark.frames
  kstackIds : s.deferredKstackIds = marks.filterMap Mark.kstackId

theorem Inv.new : Inv (new : State φ) [] where
  separated := ⟨.nil, nofun⟩
  union := fun va => by simp [DeferredRecycle.new, Marked]
  count := rfl
  frames := rfl
  kstackIds := rfl

/-- Every call with a range that is not empty keeps the agreement. -/
theorem Inv.next {c : Call φ} (h : Inv s marks)
    (hc : ∀ m, c = .mark m → m.range.start < m.range.stop) : Inv (s.next c) (note marks c) := by
  cases c with
  | takeAll => exact .new
  | mark m =>
    have hrange := hc m rfl
    have hplaced := placeFrom_placed s.deferredVaRangeCount hrange h.separated (Nat.le_of_eq h.count.symm)
    simp only [State.next, markVaRangeDeferred, note]
    rw [if_neg (by omega)]
    refine ⟨hplaced.separated, fun va => ?_, ?_, by simp [h.frames], ?_⟩
    · rw [hplaced.union, h.union]
      simp only [Marked, mem_append, mem_singleton, or_and_right, exists_or, exists_eq_left]
      exact or_comm
    · have hcount := hplaced.count
      have hold := h.count
      dsimp only
      omega
    · cases hk : m.kstackId <;> simp [h.kstackIds, hk]

theorem Inv.requiresFlush_iff (h : Inv s marks) :
    vaRangeRequiresFlush s range = true ↔ ∃ va, range.Contains va ∧ Marked marks va := by
  simp only [← h.union]
  unfold vaRangeRequiresFlush DeferredVaRange.Contains
  constructor
  · intro hany
    split at hany
    · cases hany
    · obtain ⟨r, hr, hmeet⟩ := any_eq_true.mp hany
      have hpos := h.separated.2 r hr
      simp only [rangesOverlap, Bool.and_eq_true, decide_eq_true_eq] at hmeet
      exact ⟨max range.start r.start, by omega, r, hr, by omega⟩
  · rintro ⟨va, hva, r, hr, hin⟩
    rw [if_neg (by omega)]
    refine any_eq_true.mpr ⟨r, hr, ?_⟩
    simp only [rangesOverlap, Bool.and_eq_true, decide_eq_true_eq]
    omega

theorem Inv.run (calls : List (Call φ)) (h : Inv s marks)
    (hcalls : ∀ m, .mark m ∈ calls → m.range.start < m.range.stop) :
    Inv (calls.foldl State.next s) (calls.foldl note marks) := by
  induction calls generalizing s marks with
  | nil => exact h
  | cons c calls ih =>
    refine ih (h.next ?_) fun m hm => hcalls m (.tail _ hm)
    rintro m rfl
    exact hcalls m (.head _)

/-- After any calls, the ranges are the union of the marks since the last `take_all`, kept apart, and
`take_all` gives back what was marked with them. -/
theorem deferred_ranges_exact (calls : List (Call φ))
    (hcalls : ∀ m, .mark m ∈ calls → m.range.start < m.range.stop) :
    let s := calls.foldl State.next new
    let marks := calls.foldl note []
    Separated s.deferredVaRanges ∧
      (∀ va, (∃ r ∈ s.deferredVaRanges, r.Contains va) ↔ Marked marks va) ∧
      s.deferredVaRangeCount = s.deferredVaRanges.length ∧
      (∀ range, vaRangeRequiresFlush s range = true ↔ ∃ va, range.Contains va ∧ Marked marks va) ∧
      takeAll s =
        ((s.deferredVaRanges, marks.flatMap Mark.frames, marks.filterMap Mark.kstackId), new) := by
  intro s marks
  have h : Inv s marks := Inv.new.run calls hcalls
  refine ⟨h.separated, h.union, h.count, fun range => h.requiresFlush_iff, ?_⟩
  rw [takeAll, h.frames, h.kstackIds]

/-- A mark and a `take_all`; then a range that touches the next one and a range that overlaps both. -/
def touchAndOverlap : List (Call ℕ) :=
  [.mark ⟨⟨1, 2⟩, [7], none⟩, .takeAll, .mark ⟨⟨10, 20⟩, [8], some 3⟩, .mark ⟨⟨40, 50⟩, [], none⟩,
    .mark ⟨⟨20, 30⟩, [9], some 4⟩, .mark ⟨⟨25, 45⟩, [5], none⟩]

/-- The four ranges are one, and the batch has what came with them and nothing from before. -/
theorem deferred_ranges_exact_merged :
    (touchAndOverlap.foldl State.next new).deferredVaRanges = [⟨10, 50⟩] ∧
      Separated (touchAndOverlap.foldl State.next new).deferredVaRanges ∧
      (takeAll (touchAndOverlap.foldl State.next new)).1.2 = ([8, 9, 5], [3, 4]) := by
  obtain ⟨hsep, -, -, -, htake⟩ := deferred_ranges_exact touchAndOverlap (by
    simp only [touchAndOverlap, mem_cons, Call.mark.injEq, reduceCtorEq, not_mem_nil, or_false, false_or]
    rintro m (rfl | rfl | rfl | rfl | rfl) <;> decide)
  exact ⟨rfl, hsep, by rw [htake]; rfl⟩

end CosmOS.Mm.DeferredRecycle
