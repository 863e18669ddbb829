import CosmOS.SparseFile

/-!
# BlockArray — a flat array seen in blocks

A general layer for devices and caches that work in blocks of a fixed size under an interface in
positions.  It names nothing of any program.

* `slice`: the elements of an array from a position on, as a list.
* `blockAt`: the block with a given number.
* `foldl_blit`: several copies from one source.
* `blit_add`, `blockAt_blit_within`, `blockAt_blit_blocks`: a copy taken apart at a position, and what a
  copy inside one block and a copy of whole blocks do to each block.
-/

section Slice

variable {β : Type*} {f g : ℕ → β} {off n k : ℕ}

/-- The `n` elements from `off` on. -/
def slice (f : ℕ → β) (off n : ℕ) : List β := (List.range n).map fun i => f (off + i)

@[simp] theorem slice_zero : slice f off 0 = [] := rfl

theorem slice_congr (h : ∀ i < n, f (off + i) = g (k + i)) : slice f off n = slice g k n :=
  List.map_congr_left fun i hi => h i (List.mem_range.mp hi)

theorem slice_add : slice f off (n + k) = slice f off n ++ slice f (off + n) k := by
  simp [slice, List.range_add, Function.comp_def, Nat.add_assoc]

theorem slice_length : (slice f off n).length = n := by simp [slice]

theorem take_drop_slice {l : ℕ} (h : k + l ≤ n) :
    ((slice f off n).drop k).take l = slice f (off + k) l := by
  obtain ⟨r, rfl⟩ := Nat.exists_eq_add_of_le h
  rw [Nat.add_assoc, slice_add, slice_add, List.drop_left' slice_length, List.take_left' slice_length]

/-- A copy is a copy of its first part and a copy of the rest. -/
theorem blit_add (dst : ℕ → β) (pos n k : ℕ) (src : ℕ → β) :
    blit dst pos (n + k) src = blit (blit dst pos n src) (pos + n) k fun i => src (n + i) := by
  funext x
  by_cases hrest : pos + n ≤ x
  · by_cases hx : x < pos + n + k
    · rw [blit_of_mem (by omega) (by omega), blit_of_mem hrest hx]
      congr 1
      omega
    · rw [blit_of_ge (by omega), blit_of_ge (by omega), blit_of_ge hrest]
  · have hlt : x < pos + n := by omega
    rw [blit_of_lt hlt]
    by_cases hx : pos ≤ x
    · rw [blit_of_mem hx (by omega), blit_of_mem hx (by omega)]
    · rw [blit_of_lt (by omega), blit_of_lt (by omega)]

@[simp] theorem blit_zero (dst : ℕ → β) (pos : ℕ) (src : ℕ → β) : blit dst pos 0 src = dst := by
  funext x
  exact blit_of_not_mem (by omega)

/-- Copies that all have the elements of `g`: a position that one of them covers, or that was right before,
has its element of `g`. -/
theorem foldl_blit {ι : Type*} {l : List ι} {pos len : ι → ℕ} {src : ι → ℕ → β}
    (hsrc : ∀ a ∈ l, ∀ i < len a, src a i = g (pos a + i)) {base : ℕ → β} {x : ℕ}
    (hx : (∃ a ∈ l, pos a ≤ x ∧ x < pos a + len a) ∨ base x = g x) :
    l.foldl (fun f a => blit f (pos a) (len a) (src a)) base x = g x := by
  induction l generalizing base with
  | nil => exact hx.resolve_left (by simp)
  | cons a l ih =>
    refine ih (fun b hb => hsrc b (.tail _ hb)) ?_
    dsimp only
    by_cases hin : pos a ≤ x ∧ x < pos a + len a
    · right
      rw [blit_of_mem hin.1 hin.2, hsrc a (.head _) _ (by omega), Nat.add_sub_cancel' hin.1]
    rw [blit_of_not_mem hin]
    refine hx.imp_left fun ⟨b, hb, hxb⟩ => ?_
    rcases List.mem_cons.mp hb with rfl | hb
    · exact absurd hxb hin
    · exact ⟨b, hb, hxb⟩

end Slice

section Blocks

variable {β : Type*} {sz : ℕ}

def blockAt (sz : ℕ) (f : ℕ → β) (b : ℕ) : Fin sz → β := fun i => f (b * sz + i)

/-- The copy of a stretch over a block, from position `pos` of the block on. -/
def blitBlock (dst : Fin sz → β) (pos n : ℕ) (src : ℕ → β) : Fin sz → β :=
  fun i => if pos ≤ i.val ∧ i.val < pos + n then src (i - pos) else dst i

theorem blitBlock_all (dst : Fin sz → β) (src : ℕ → β) :
    blitBlock dst 0 sz src = fun i : Fin sz => src i := by
  funext i
  simp [blitBlock]

/-- Two positions that are in the same block. -/
theorem block_pos_inj {b b' i j : ℕ} (hi : i < sz) (hj : j < sz) (h : b * sz + i = b' * sz + j) :
    b = b' ∧ i = j := by
  have hsz : 0 < sz := Nat.zero_lt_of_lt hi
  have hb : (b * sz + i) / sz = b := by
    rw [Nat.add_comm, Nat.add_mul_div_right _ _ hsz, Nat.div_eq_of_lt hi, Nat.zero_add]
  have hb' : (b' * sz + j) / sz = b' := by
    rw [Nat.add_comm, Nat.add_mul_div_right _ _ hsz, Nat.div_eq_of_lt hj, Nat.zero_add]
  have hbb : b = b' := by rw [← hb, ← hb', h]
  subst hbb
  exact ⟨rfl, by omega⟩

theorem blockAt_blit_within (f src : ℕ → β) {b pos n : ℕ} (h : pos + n ≤ sz) (b' : ℕ) :
    blockAt sz (blit f (b * sz + pos) n src) b' =
      if b' = b then blitBlock (blockAt sz f b) pos n src else blockAt sz f b' := by
  funext i
  have hi := i.isLt
  split
  next hb =>
    subst hb
    unfold blockAt blitBlock
    by_cases hin : pos ≤ i.val ∧ i.val < pos + n
    · rw [if_pos hin, blit_of_mem (by omega) (by omega)]
      congr 1
      omega
    · rw [if_neg hin]
      exact blit_of_not_mem (by omega)
  next hb =>
    refine blit_of_not_mem fun hin => hb ?_
    -- A position of the stretch is in block `b`.
    obtain ⟨j, hj⟩ := Nat.exists_eq_add_of_le hin.1
    refine (block_pos_inj hi (j := pos + j) (by omega) ?_).1
    omega

theorem blockAt_blit_blocks (f src : ℕ → β) {b n : ℕ} (b' : ℕ) :
    blockAt sz (blit f (b * sz) (n * sz) src) b' =
      if b ≤ b' ∧ b' < b + n then fun i : Fin sz => src ((b' - b) * sz + i) else blockAt sz f b' := by
  funext i
  have hi := i.isLt
  split
  next hb =>
    obtain ⟨k, rfl⟩ := Nat.exists_eq_add_of_le hb.1
    have hk : k + 1 ≤ n := by omega
    have hend : (k + 1) * sz ≤ n * sz := Nat.mul_le_mul_right sz hk
    unfold blockAt
    rw [Nat.add_sub_cancel_left]
    rw [Nat.add_mul] at hend ⊢
    rw [blit_of_mem (by omega) (by omega)]
    congr 1
    omega
  next hb =>
    refine blit_of_not_mem fun hin => hb ?_
    have hsz : 0 < sz := Nat.zero_lt_of_lt hi
    refine ⟨Nat.le_of_not_lt fun hlt => ?_, Nat.lt_of_not_le fun hge => ?_⟩
    · have hle : (b' + 1) * sz ≤ b * sz := Nat.mul_le_mul_right sz (by omega)
      rw [Nat.add_mul] at hle
      omega
    · have hle : (b + n) * sz ≤ b' * sz := Nat.mul_le_mul_right sz (by omega)
      rw [Nat.add_mul] at hle
      omega

theorem eq_of_blockAt_eq {f g : ℕ → β} (hsz : 0 < sz) (h : ∀ b, blockAt sz f b = blockAt sz g b) :
    f = g := by
  funext x
  have hx := congrFun (h (x / sz)) ⟨x % sz, Nat.mod_lt _ hsz⟩
  simpa [blockAt, Nat.div_add_mod'] using hx

end Blocks
