import Mathlib

/-!
# SparseFile — byte sequences with a length and zero gaps

A general layer for programs that move bytes between buffers, frames and files.  It names nothing
of any program.

* `blit`: copy a stretch of one sequence over another.
* `block_end_le_sum`, `exists_block_of_lt_sum`: positions in a row of blocks of which only the last is short.
* `Slice`: a buffer, that is a length and its elements; `Slice.row` joins blocks to one.
* `SparseFile`: a sequence that is zero from its length on.  The structure carries that fact, so a
  write past the end leaves a gap of zeros and a shrunk file forgets what it held.
-/

/-- Overwrite the `n` elements of `dst` from `pos` on by the first elements of `src`. -/
def blit {β : Type*} (dst : ℕ → β) (pos n : ℕ) (src : ℕ → β) : ℕ → β :=
  fun x => if pos ≤ x ∧ x < pos + n then src (x - pos) else dst x

section Blit

variable {β : Type*} {dst src : ℕ → β} {pos n x : ℕ}

theorem blit_of_mem (hle : pos ≤ x) (hlt : x < pos + n) : blit dst pos n src x = src (x - pos) :=
  if_pos ⟨hle, hlt⟩

theorem blit_of_lt (h : x < pos) : blit dst pos n src x = dst x :=
  if_neg fun hx => Nat.not_lt.mpr hx.1 h

theorem blit_of_ge (h : pos + n ≤ x) : blit dst pos n src x = dst x :=
  if_neg fun hx => Nat.not_lt.mpr h hx.2

theorem blit_of_not_mem (h : ¬ (pos ≤ x ∧ x < pos + n)) : blit dst pos n src x = dst x :=
  if_neg h

end Blit

/-! ## Buffers and files -/

/-- A buffer: its length and its elements.  The positions past the length mean nothing. -/
structure Slice (β : Type*) where
  len : ℕ
  get : ℕ → β

/-! ## Rows of blocks -/

/-- All blocks of a row but the last are full: where a block ends in the row. -/
theorem block_end_le_sum {l : List ℕ} {b k v : ℕ} (hk : l[k]? = some v)
    (hfull : ∀ j u, l[j]? = some u → j + 1 < l.length → u = b) : k * b + v ≤ l.sum := by
  induction l generalizing k with
  | nil => simp at hk
  | cons a l ih =>
    rw [List.sum_cons]
    cases k with
    | zero =>
      have ha : a = v := Option.some.inj hk
      omega
    | succ k =>
      have hk : l[k]? = some v := hk
      have hlen : k < l.length := (List.getElem?_eq_some_iff.mp hk).1
      have ha : a = b := hfull 0 a rfl (by simp; omega)
      have hrest := ih hk fun j u hu hj => hfull (j + 1) u hu (by simp; omega)
      rw [Nat.add_mul]
      omega

/-- Which block a position of the row is in. -/
theorem exists_block_of_lt_sum {l : List ℕ} {b x : ℕ} (hpos : 0 < b) (hx : x < l.sum)
    (hfull : ∀ j u, l[j]? = some u → j + 1 < l.length → u = b)
    (hbound : ∀ u ∈ l, u ≤ b) : ∃ v, l[x / b]? = some v ∧ x % b < v := by
  induction l generalizing x with
  | nil => simp at hx
  | cons a l ih =>
    by_cases hxa : x < a
    · have ha := hbound a (.head _)
      rw [Nat.div_eq_of_lt (by omega), Nat.mod_eq_of_lt (by omega)]
      exact ⟨a, rfl, hxa⟩
    · rw [List.sum_cons] at hx
      have hlen : 0 < l.length := by
        cases l with
        | nil => simp at hx; omega
        | cons c l => exact Nat.succ_pos _
      have ha : a = b := hfull 0 a rfl (by simp; omega)
      obtain ⟨v, hv, hlt⟩ := ih (x := x - b) (by omega) (fun j u hu hj => hfull (j + 1) u hu (by
        simp; omega)) (fun u hu => hbound u (.tail _ hu))
      have hdiv : x / b = (x - b) / b + 1 := by
        rw [← Nat.add_div_right _ hpos, Nat.sub_add_cancel (by omega)]
      rw [hdiv]
      refine ⟨v, hv, ?_⟩
      rwa [← Nat.mod_eq_sub_mod (by omega)] at hlt

/-- The blocks of a row one after the other, each at a multiple of `b`. -/
def Slice.row {β : Type*} [Zero β] (b : ℕ) (l : List (Slice β)) : Slice β where
  len := (l.map Slice.len).sum
  get := fun x =>
    match l[x / b]? with
    | some block => block.get (x % b)
    | none => 0

/-- Only the last block of the row is short. -/
structure Slice.Full {β : Type*} (b : ℕ) (l : List (Slice β)) : Prop where
  full : ∀ j block, l[j]? = some block → j + 1 < l.length → block.len = b
  bounded : ∀ block ∈ l, block.len ≤ b

namespace Slice

variable {β : Type*} {b k x : ℕ} {l : List (Slice β)} {block : Slice β}

theorem Full.sizes (h : Full b l) {j u : ℕ} (hu : (l.map Slice.len)[j]? = some u)
    (hj : j + 1 < (l.map Slice.len).length) : u = b := by
  rw [List.getElem?_map] at hu
  obtain ⟨block, hblock, rfl⟩ := Option.map_eq_some_iff.mp hu
  rw [List.length_map] at hj
  exact h.full j block hblock hj

theorem Full.of_forall (h : ∀ block ∈ l, block.len = b) : Full b l :=
  ⟨fun _ block hj _ => h block (List.mem_of_getElem? hj), fun block hblock => Nat.le_of_eq (h block hblock)⟩

/-- Full blocks and one more. -/
theorem Full.append_last (h : ∀ block ∈ l, block.len = b) (hlast : block.len ≤ b) :
    Full b (l ++ [block]) := by
  constructor
  · intro j block' hj hlt
    rw [List.length_append, List.length_singleton] at hlt
    rw [List.getElem?_append_left (by omega)] at hj
    exact h block' (List.mem_of_getElem? hj)
  · intro block' hblock'
    rcases List.mem_append.mp hblock' with hmem | hmem
    · exact Nat.le_of_eq (h block' hmem)
    · exact List.mem_singleton.mp hmem ▸ hlast

variable [Zero β]

theorem row_get (hk : l[k]? = some block) (hx : x < b) : (row b l).get (k * b + x) = block.get x := by
  have hpos : 0 < b := Nat.lt_of_le_of_lt (Nat.zero_le _) hx
  have hdiv : (k * b + x) / b = k := by
    rw [Nat.mul_comm, Nat.mul_add_div hpos, Nat.div_eq_of_lt hx, Nat.add_zero]
  have hmod : (k * b + x) % b = x := by
    rw [Nat.mul_comm, Nat.mul_add_mod, Nat.mod_eq_of_lt hx]
  simp only [row, hdiv, hmod, hk]

theorem Full.end_le (h : Full b l) (hk : l[k]? = some block) : k * b + block.len ≤ (row b l).len :=
  block_end_le_sum (by rw [List.getElem?_map, hk]; rfl) fun _ _ hu hj => h.sizes hu hj

/-- Every position of the row is in one of its blocks. -/
theorem Full.exists_block (h : Full b l) (hpos : 0 < b) (hx : x < (row b l).len) :
    ∃ block, l[x / b]? = some block ∧ x % b < block.len := by
  obtain ⟨v, hv, hlt⟩ := exists_block_of_lt_sum hpos hx (fun _ _ hu hj => h.sizes hu hj) (fun u hu => by
    obtain ⟨block, hblock, rfl⟩ := List.mem_map.mp hu
    exact h.bounded block hblock)
  rw [List.getElem?_map] at hv
  obtain ⟨block, hblock, rfl⟩ := Option.map_eq_some_iff.mp hv
  exact ⟨block, hblock, hlt⟩

end Slice

/-- A file: its length, and its content, which is zero from the length on. -/
@[ext]
structure SparseFile (β : Type*) [Zero β] where
  len : ℕ
  byte : ℕ → β
  zeroed : ∀ x, len ≤ x → byte x = 0

namespace SparseFile

variable {β : Type*} [Zero β]

def empty : SparseFile β := ⟨0, fun _ => 0, fun _ _ => rfl⟩

/-- Write `n` elements of `src` at `off`; a gap before `off` becomes zeros. -/
def writeAt (f : SparseFile β) (off n : ℕ) (src : ℕ → β) : SparseFile β where
  len := if n = 0 then f.len else max f.len (off + n)
  byte := blit f.byte off n src
  zeroed := by
    intro x hx
    split at hx
    next hn =>
      rw [blit_of_not_mem (by omega)]
      exact f.zeroed x hx
    · have hlen : f.len ≤ x := Nat.le_trans (Nat.le_max_left _ _) hx
      rw [blit_of_ge (Nat.le_trans (Nat.le_max_right _ _) hx)]
      exact f.zeroed x hlen

def truncate (f : SparseFile β) (n : ℕ) : SparseFile β where
  len := n
  byte := fun x => if x < n then f.byte x else 0
  zeroed := fun _ hx => if_neg (Nat.not_lt.mpr hx)

def extend (f : SparseFile β) (n : ℕ) : SparseFile β where
  len := max f.len n
  byte := f.byte
  zeroed := fun x hx => f.zeroed x (Nat.le_trans (Nat.le_max_left _ _) hx)

/-- How many of `n` elements from `off` on are present. -/
def present (f : SparseFile β) (off n : ℕ) : ℕ := min n (f.len - off)

/-- The element `b` is in the file, at `off`. -/
def Has (f : SparseFile β) (off : ℕ) (b : β) : Prop := off < f.len ∧ f.byte off = b

variable {f : SparseFile β} {off n x : ℕ} {src : ℕ → β} {b : β}

theorem len_le_writeAt : f.len ≤ (f.writeAt off n src).len := by
  show f.len ≤ if n = 0 then f.len else max f.len (off + n)
  split
  · exact Nat.le_refl _
  · exact Nat.le_max_left _ _

theorem has_writeAt (f : SparseFile β) (src : ℕ → β) (hle : off ≤ x) (hlt : x < off + n) :
    (f.writeAt off n src).Has x (src (x - off)) := by
  constructor
  · show x < if n = 0 then f.len else max f.len (off + n)
    rw [if_neg (by omega)]
    exact Nat.lt_of_lt_of_le hlt (Nat.le_max_right _ _)
  · exact blit_of_mem hle hlt

theorem has_writeAt_row (f : SparseFile β) {b k : ℕ} {l : List (Slice β)} {block : Slice β}
    (h : Slice.Full b l) (hk : l[k]? = some block) (hx : x < block.len) :
    (f.writeAt off (Slice.row b l).len (Slice.row b l).get).Has (off + k * b + x) (block.get x) := by
  have hend := h.end_le hk
  have hxb : x < b := Nat.lt_of_lt_of_le hx (h.bounded block (List.mem_of_getElem? hk))
  have hhas := has_writeAt f (Slice.row b l).get (n := (Slice.row b l).len)
    (Nat.le_add_right off (k * b + x)) (by omega)
  rwa [Nat.add_sub_cancel_left, Slice.row_get hk hxb, ← Nat.add_assoc] at hhas

theorem Has.writeAt_of_not_mem (h : f.Has x b) (hx : ¬ (off ≤ x ∧ x < off + n)) :
    (f.writeAt off n src).Has x b :=
  ⟨Nat.lt_of_lt_of_le h.1 len_le_writeAt, (blit_of_not_mem hx).trans h.2⟩

theorem writeAt_zero (f : SparseFile β) (off : ℕ) (src : ℕ → β) : f.writeAt off 0 src = f := by
  ext x
  · rfl
  · exact blit_of_not_mem (by omega)

/-- Two writes one after the other, the second where the first one ends. -/
theorem writeAt_append (f : SparseFile β) (off n k : ℕ) (src : ℕ → β) :
    (f.writeAt off n src).writeAt (off + n) k (fun x => src (n + x)) =
      f.writeAt off (n + k) src := by
  ext x
  · show (if k = 0 then if n = 0 then f.len else max f.len (off + n) else
      max (if n = 0 then f.len else max f.len (off + n)) (off + n + k)) =
      if n + k = 0 then f.len else max f.len (off + (n + k))
    split <;> split <;> split <;> omega
  · show blit (blit f.byte off n src) (off + n) k (fun x => src (n + x)) x =
      blit f.byte off (n + k) src x
    unfold blit
    by_cases hn : off ≤ x ∧ x < off + n
    · rw [if_neg (by omega), if_pos hn, if_pos (by omega)]
    by_cases hk : off + n ≤ x ∧ x < off + n + k
    · rw [if_pos hk, if_pos (by omega)]
      show src (n + (x - (off + n))) = src (x - off)
      congr 1
      omega
    · rw [if_neg hk, if_neg hn, if_neg (by omega)]

/-- A write makes the room it needs by itself. -/
theorem extend_writeAt (f : SparseFile β) (hn : 0 < n) :
    (f.extend (off + n)).writeAt off n src = f.writeAt off n src := by
  ext x
  · show (if n = 0 then max f.len (off + n) else max (max f.len (off + n)) (off + n)) =
      if n = 0 then f.len else max f.len (off + n)
    rw [if_neg (by omega), if_neg (by omega)]
    omega
  · rfl

theorem extend_of_le (h : n ≤ f.len) : f.extend n = f := by
  ext x
  · exact Nat.max_eq_left h
  · rfl

/-- Above the length of the file truncation is an extension. -/
theorem truncate_of_le (h : f.len ≤ n) : f.truncate n = f.extend n := by
  ext x
  · exact (Nat.max_eq_right h).symm
  · show (if x < n then f.byte x else 0) = f.byte x
    split
    · rfl
    · exact (f.zeroed x (by omega)).symm

theorem writeAt_len_of_le (h : off + n ≤ f.len) : (f.writeAt off n src).len = f.len := by
  show (if n = 0 then f.len else max f.len (off + n)) = f.len
  split <;> omega

end SparseFile
