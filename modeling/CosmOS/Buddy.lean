import Mathlib

/-!
# Buddy — blocks of power-of-two size

A general layer for buddy allocators.  A block is a power of two of units, at an address.

* `Tiles bs S`: every unit of `S` lies in exactly one block of `bs`, and no other unit in any.  From it
  follow disjointness (`Tiles.pairwise`) and that a block stays inside (`Tiles.mem`).
* `cover_split`, `cover_merge`: a block and its two halves tile the same units; the buddy of a block is
  found by flipping one bit of its address.
* `onOrders n l`: the blocks of the free lists of the orders below `n`, one list `l k` for each.
* `Parts n l bs S m`: the blocks on the lists and the blocks `bs` outside tile the units `S`, `m` of
  them.  A block on its way (popped and being split, or freed and being merged) is at the front of `bs`,
  so that every round of an allocator's loop is one of `Parts.push`, `Parts.drop`, `Parts.split` and
  `Parts.merge`.
-/

/-- The `2 ^ order` units from `base` on. -/
structure Block where
  base : ℕ
  order : ℕ
deriving DecidableEq, Repr

open Block

namespace Block

def size (b : Block) : ℕ := 2 ^ b.order

def Covers (b : Block) (x : ℕ) : Prop := b.base ≤ x ∧ x < b.base + b.size

instance (b : Block) (x : ℕ) : Decidable (b.Covers x) := inferInstanceAs (Decidable (_ ∧ _))

def Aligned (b : Block) : Prop := b.size ∣ b.base

def Disjoint (b b' : Block) : Prop := ∀ x, b.Covers x → ¬ b'.Covers x

variable {b : Block} {x : ℕ}

theorem size_pos (b : Block) : 0 < b.size := Nat.two_pow_pos b.order

theorem covers_base (b : Block) : b.Covers b.base :=
  ⟨le_refl b.base, Nat.lt_add_of_pos_right b.size_pos⟩

end Block

namespace Buddy

open List Function

variable {bs bs' : List Block} {S S' : ℕ → Prop} {b : Block} {p k n x : ℕ}

/-! ## Buddies -/

/-- The address of the other half of the block of order `k + 1` around the block `p` of order `k`. -/
def buddy (p k : ℕ) : ℕ := p ^^^ 2 ^ k

theorem buddy_mul (q k : ℕ) : buddy (2 ^ k * q) k = 2 ^ k * (q ^^^ 1) := by
  have h := Nat.shiftLeft_xor_distrib (a := q) (b := 1) (i := k)
  simp only [Nat.shiftLeft_eq, one_mul] at h
  rw [buddy, mul_comm (2 ^ k) q, ← h, mul_comm]

theorem buddy_of_dvd (h : 2 ^ (k + 1) ∣ p) : buddy p k = p + 2 ^ k := by
  obtain ⟨q, rfl⟩ := h
  have hp : 2 ^ (k + 1) * q = 2 ^ k * (2 * q) := by ring
  rw [hp, buddy_mul, Nat.xor_one_of_even (even_two_mul q)]
  ring

theorem buddy_of_not_dvd (h : 2 ^ k ∣ p) (hn : ¬ 2 ^ (k + 1) ∣ p) :
    2 ^ (k + 1) ∣ buddy p k ∧ p = buddy p k + 2 ^ k := by
  obtain ⟨q, rfl⟩ := h
  have hq : Odd q := by
    rcases Nat.even_or_odd' q with ⟨r, rfl | rfl⟩
    · exact absurd ⟨r, by ring⟩ hn
    · exact odd_two_mul_add_one r
  obtain ⟨r, rfl⟩ := hq
  rw [buddy_mul, Nat.xor_one_of_odd (odd_two_mul_add_one r)]
  constructor
  · exact ⟨r, by rw [Nat.add_sub_cancel]; ring⟩
  · rw [Nat.add_sub_cancel]
    ring

theorem buddy_buddy (p k : ℕ) : buddy (buddy p k) k = p := Nat.xor_xor_cancel_right ..

theorem buddy_ne (p k : ℕ) : buddy p k ≠ p := by
  intro heq
  have hzero : 2 ^ k = 0 := by simpa [buddy] using congrArg (p ^^^ ·) heq
  exact absurd hzero (Nat.two_pow_pos k).ne'

theorem buddy_aligned (h : 2 ^ k ∣ p) : 2 ^ k ∣ buddy p k := by
  by_cases hd : 2 ^ (k + 1) ∣ p
  · rw [buddy_of_dvd hd]
    exact Nat.dvd_add h (dvd_refl _)
  · exact dvd_trans (pow_dvd_pow 2 k.le_succ) (buddy_of_not_dvd h hd).1

theorem min_buddy_aligned (h : 2 ^ k ∣ p) : 2 ^ (k + 1) ∣ min p (buddy p k) := by
  by_cases hd : 2 ^ (k + 1) ∣ p
  · rwa [buddy_of_dvd hd, Nat.min_eq_left (Nat.le_add_right p _)]
  · obtain ⟨hb, hp⟩ := buddy_of_not_dvd h hd
    rwa [Nat.min_eq_right (by omega)]

/-! ## Trailing zeros -/

/-- The number of trailing zeros of a number of the given width. -/
def trailingZeros : ℕ → ℕ → ℕ
  | 0, _ => 0
  | width + 1, n => if n % 2 = 1 then 0 else trailingZeros width (n / 2) + 1

theorem trailingZeros_dvd (width n : ℕ) : 2 ^ trailingZeros width n ∣ n := by
  induction width generalizing n with
  | zero => exact one_dvd n
  | succ width ih =>
    rw [trailingZeros]
    split
    · exact one_dvd n
    rename_i hodd
    have hn : n = n / 2 * 2 := by omega
    rw [pow_succ]
    nth_rewrite 2 [hn]
    exact Nat.mul_dvd_mul_right (ih (n / 2)) 2

theorem trailingZeros_two_pow (width k : ℕ) : trailingZeros width (2 ^ k) = min k width := by
  induction width generalizing k with
  | zero => exact (Nat.min_zero k).symm
  | succ width ih =>
    rw [trailingZeros]
    cases k with
    | zero => rfl
    | succ k =>
      have hdiv : 2 ^ (k + 1) / 2 = 2 ^ k := by omega
      rw [if_neg (by omega), hdiv, ih]
      omega

/-! ## Tilings -/

/-- The number of blocks that a unit lies in. -/
def cover (bs : List Block) (x : ℕ) : ℕ := bs.countP fun b => b.Covers x

@[simp] theorem cover_cons (b : Block) (bs : List Block) (x : ℕ) :
    cover (b :: bs) x = cover bs x + if b.Covers x then 1 else 0 := by
  simp [cover, countP_cons]

theorem cover_append (bs bs' : List Block) (x : ℕ) : cover (bs ++ bs') x = cover bs x + cover bs' x :=
  countP_append

theorem cover_perm (h : bs.Perm bs') (x : ℕ) : cover bs x = cover bs' x :=
  h.countP_eq _

theorem cover_pos (hb : b ∈ bs) (hx : b.Covers x) : 0 < cover bs x :=
  countP_pos_iff.mpr ⟨b, hb, decide_eq_true hx⟩

/-- Every unit of `S` lies in exactly one block, every other unit in none. -/
def Tiles (bs : List Block) (S : ℕ → Prop) : Prop :=
  ∀ x, (S x → cover bs x = 1) ∧ (¬ S x → cover bs x = 0)

theorem Tiles.congr (h : Tiles bs S) (hcover : ∀ x, cover bs' x = cover bs x) : Tiles bs' S := by
  intro x
  rw [hcover x]
  exact h x

theorem Tiles.perm (h : Tiles bs S) (hp : bs'.Perm bs) : Tiles bs' S :=
  h.congr (cover_perm hp)

theorem Tiles.cover_le (h : Tiles bs S) (x : ℕ) : cover bs x ≤ 1 := by
  by_cases hx : S x
  · exact ((h x).1 hx).le
  · rw [(h x).2 hx]
    exact Nat.zero_le 1

theorem Tiles.mem (h : Tiles bs S) (hb : b ∈ bs) (hx : b.Covers x) : S x := by
  by_contra hS
  have hpos := cover_pos hb hx
  rw [(h x).2 hS] at hpos
  exact absurd hpos (lt_irrefl 0)

/-- The first block of a tiling meets no other. -/
theorem Tiles.head_disjoint (h : Tiles (b :: bs) S) {b' : Block} (hb' : b' ∈ bs) :
    b.Disjoint b' := by
  intro x hx hx'
  have hle := h.cover_le x
  rw [cover_cons, if_pos hx] at hle
  have hpos := cover_pos hb' hx'
  omega

theorem Tiles.tail (h : Tiles (b :: bs) S) : Tiles bs fun x => S x ∧ ¬ b.Covers x := by
  intro x
  have hx := h x
  rw [cover_cons] at hx
  by_cases hb : b.Covers x
  · have hle := h.cover_le x
    rw [cover_cons, if_pos hb] at hle
    exact ⟨fun hS => absurd hb hS.2, fun _ => by omega⟩
  · rw [if_neg hb] at hx
    exact ⟨fun hS => hx.1 hS.1, fun hS => hx.2 fun hx' => hS ⟨hx', hb⟩⟩

theorem Tiles.cons (h : Tiles bs S) (hb : ∀ x, b.Covers x → ¬ S x) :
    Tiles (b :: bs) fun x => S x ∨ b.Covers x := by
  intro x
  rw [cover_cons]
  have hx := h x
  by_cases hc : b.Covers x
  · rw [if_pos hc, hx.2 (hb x hc)]
    exact ⟨fun _ => rfl, fun hn => absurd (.inr hc) hn⟩
  · rw [if_neg hc]
    exact ⟨fun hS => hx.1 (hS.resolve_right hc), fun hS => hx.2 fun hx' => hS (.inl hx')⟩

theorem Tiles.pairwise (h : Tiles bs S) : bs.Pairwise Block.Disjoint := by
  induction bs generalizing S with
  | nil => exact List.Pairwise.nil
  | cons b bs ih => exact pairwise_cons.mpr ⟨fun b' hb' => h.head_disjoint hb', ih h.tail⟩

theorem covers_split (p k x : ℕ) :
    (Block.mk p (k + 1)).Covers x ↔ (Block.mk p k).Covers x ∨ (Block.mk (p + 2 ^ k) k).Covers x := by
  have hsucc : 2 ^ (k + 1) = 2 ^ k + 2 ^ k := by ring
  simp only [Block.Covers, size, hsucc]
  omega

theorem halves_disjoint (p k : ℕ) : (Block.mk p k).Disjoint ⟨p + 2 ^ k, k⟩ := by
  intro x hx hx'
  simp only [Block.Covers, size] at hx hx'
  omega

/-- A block and its two halves lie over the same units. -/
theorem cover_split (p k : ℕ) (bs : List Block) (x : ℕ) :
    cover (⟨p, k⟩ :: ⟨p + 2 ^ k, k⟩ :: bs) x = cover (⟨p, k + 1⟩ :: bs) x := by
  have hsplit := covers_split p k x
  have hdisj := halves_disjoint p k x
  simp only [cover_cons]
  by_cases hlow : (Block.mk p k).Covers x
  · rw [if_neg (hdisj hlow), if_pos hlow, if_pos (hsplit.mpr (.inl hlow))]
  · by_cases hhigh : (Block.mk (p + 2 ^ k) k).Covers x
    · rw [if_pos hhigh, if_neg hlow, if_pos (hsplit.mpr (.inr hhigh))]
    · rw [if_neg hhigh, if_neg hlow, if_neg fun h => (hsplit.mp h).elim hlow hhigh]

theorem cover_merge (h : 2 ^ k ∣ p) (bs : List Block) (x : ℕ) :
    cover (⟨min p (buddy p k), k + 1⟩ :: bs) x = cover (⟨p, k⟩ :: ⟨buddy p k, k⟩ :: bs) x := by
  by_cases hd : 2 ^ (k + 1) ∣ p
  · rw [buddy_of_dvd hd, Nat.min_eq_left (Nat.le_add_right p _), cover_split]
  obtain ⟨-, hp⟩ := buddy_of_not_dvd h hd
  have hswap := cover_perm (List.Perm.swap ⟨buddy p k, k⟩ ⟨p, k⟩ bs) x
  have hsplit := cover_split (buddy p k) k bs x
  rw [← hp] at hsplit
  rw [Nat.min_eq_right (by omega), hswap, hsplit]

/-! ## Sizes -/

def total (bs : List Block) : ℕ := (bs.map Block.size).sum

@[simp] theorem total_cons (b : Block) (bs : List Block) : total (b :: bs) = b.size + total bs := by
  simp [total]

theorem total_append (bs bs' : List Block) : total (bs ++ bs') = total bs + total bs' := by
  simp [total]

theorem total_perm (h : bs.Perm bs') : total bs = total bs' :=
  (h.map size).sum_nat

theorem length_le_total (bs : List Block) : bs.length ≤ total bs := by
  induction bs with
  | nil => exact le_refl 0
  | cons b bs ih =>
    have hpos := b.size_pos
    rw [total_cons, length_cons]
    omega

/-! ## The lists of all orders -/

variable {l : ℕ → List ℕ}

/-- The blocks of the lists of the orders below `n`. -/
def onOrders (n : ℕ) (l : ℕ → List ℕ) : List Block :=
  (range n).flatMap fun k => (l k).map (Block.mk · k)

theorem onOrders_succ (n : ℕ) (l : ℕ → List ℕ) :
    onOrders (n + 1) l = onOrders n l ++ (l n).map (Block.mk · n) := by
  simp [onOrders, range_succ]

theorem mem_onOrders : b ∈ onOrders n l ↔ b.order < n ∧ b.base ∈ l b.order := by
  simp only [onOrders, mem_flatMap, mem_range, mem_map]
  constructor
  · rintro ⟨k, hk, q, hq, rfl⟩
    exact ⟨hk, hq⟩
  · rintro ⟨hk, hq⟩
    exact ⟨b.order, hk, b.base, hq, rfl⟩

theorem onOrders_congr {l' : ℕ → List ℕ} (h : ∀ k < n, l' k = l k) :
    onOrders n l' = onOrders n l := by
  unfold onOrders
  apply flatMap_congr
  intro k hk
  rw [h k (mem_range.mp hk)]

theorem onOrders_push (hk : k < n) (p : ℕ) (l : ℕ → List ℕ) :
    (onOrders n (update l k (p :: l k))).Perm (⟨p, k⟩ :: onOrders n l) := by
  induction n with
  | zero => exact absurd hk (Nat.not_lt_zero k)
  | succ n ih =>
    rw [onOrders_succ, onOrders_succ]
    rcases Nat.lt_succ_iff_lt_or_eq.mp hk with hlt | rfl
    · rw [update_of_ne hlt.ne']
      exact (ih hlt).append_right _
    · rw [update_self, onOrders_congr fun j hj => update_of_ne hj.ne _ _]
      exact perm_middle

theorem onOrders_erase (hk : k < n) (hp : p ∈ l k) :
    (onOrders n l).Perm (⟨p, k⟩ :: onOrders n (update l k ((l k).erase p))) := by
  have hpush := onOrders_push hk p (update l k ((l k).erase p))
  rw [update_self, update_idem] at hpush
  refine List.Perm.trans ?_ hpush
  unfold onOrders
  apply List.Perm.flatMap_left
  intro j _
  rcases eq_or_ne j k with rfl | hjk
  · rw [update_self]
    exact (perm_cons_erase hp).map _
  · rw [update_of_ne hjk]

/-- A list of one order is no longer than all the blocks are large. -/
theorem length_le_total_onOrders (hk : k < n) (l : ℕ → List ℕ) :
    (l k).length ≤ total (onOrders n l) := by
  have hsub : ((l k).map (Block.mk · k)).Sublist (onOrders n l) :=
    sublist_flatten_of_mem (mem_map.mpr ⟨k, mem_range.mpr hk, rfl⟩)
  calc (l k).length = ((l k).map (Block.mk · k)).length := (length_map _).symm
    _ ≤ (onOrders n l).length := hsub.length_le
    _ ≤ total (onOrders n l) := length_le_total _

/-! ## Blocks on lists and blocks in hand -/

/-- The blocks on the lists and the blocks `bs` tile the units `S`, which are `m` in number. -/
structure Parts (n : ℕ) (l : ℕ → List ℕ) (bs : List Block) (S : ℕ → Prop) (m : ℕ) : Prop where
  tiles : Tiles (onOrders n l ++ bs) S
  size : total (onOrders n l ++ bs) = m

variable {m j : ℕ}

theorem Parts.perm (h : Parts n l bs S m) (hp : bs'.Perm bs) : Parts n l bs' S m where
  tiles := h.tiles.perm (hp.append_left _)
  size := (total_perm (hp.append_left _)).trans h.size

theorem Parts.of_iff (h : Parts n l bs S m) (hS : ∀ x, S' x ↔ S x) : Parts n l bs S' m := by
  obtain rfl : S' = S := funext fun x => propext (hS x)
  exact h

/-- The block in hand shares no unit with a block on a list. -/
theorem Parts.hand_disjoint (h : Parts n l (b :: bs) S m) (hj : j < n) (hp : p ∈ l j) :
    b.Disjoint ⟨p, j⟩ := by
  have htiles : Tiles (b :: (onOrders n l ++ bs)) S := h.tiles.perm perm_middle.symm
  apply htiles.head_disjoint
  exact mem_append_left _ (mem_onOrders.mpr ⟨hj, hp⟩)

theorem Parts.hand_fresh (h : Parts n l (b :: bs) S m) (hj : j < n) : b.base ∉ l j :=
  fun hp => h.hand_disjoint hj hp b.base b.covers_base (covers_base ⟨b.base, j⟩)

theorem Parts.hand_mem (h : Parts n l (b :: bs) S m) (hx : b.Covers x) : S x :=
  h.tiles.mem (mem_append_right _ (.head _)) hx

theorem Parts.push (h : Parts n l (⟨p, k⟩ :: bs) S m) (hk : k < n) :
    Parts n (update l k (p :: l k)) bs S m := by
  have hperm : (onOrders n (update l k (p :: l k)) ++ bs).Perm (onOrders n l ++ ⟨p, k⟩ :: bs) :=
    ((onOrders_push hk p l).append_right bs).trans perm_middle.symm
  exact ⟨h.tiles.perm hperm, (total_perm hperm).trans h.size⟩

theorem Parts.drop (h : Parts n l bs S m) (hk : k < n) (hp : p ∈ l k) :
    Parts n (update l k ((l k).erase p)) (⟨p, k⟩ :: bs) S m := by
  have hperm : (onOrders n (update l k ((l k).erase p)) ++ ⟨p, k⟩ :: bs).Perm
      (onOrders n l ++ bs) :=
    perm_middle.trans ((onOrders_erase hk hp).append_right bs).symm
  exact ⟨h.tiles.perm hperm, (total_perm hperm).trans h.size⟩

theorem Parts.recut (h : Parts n l bs S m) (hcover : ∀ x, cover bs' x = cover bs x)
    (htotal : total bs' = total bs) : Parts n l bs' S m where
  tiles := by
    apply h.tiles.congr
    intro x
    rw [cover_append, cover_append, hcover x]
  size := by
    rw [← h.size, total_append, total_append, htotal]

theorem Parts.split (h : Parts n l (⟨p, k + 1⟩ :: bs) S m) :
    Parts n l (⟨p, k⟩ :: ⟨p + 2 ^ k, k⟩ :: bs) S m := by
  apply h.recut (cover_split p k bs)
  simp only [total_cons, Block.size]
  ring

theorem Parts.merge (h : Parts n l (⟨buddy p k, k⟩ :: ⟨p, k⟩ :: bs) S m) (hp : 2 ^ k ∣ p) :
    Parts n l (⟨min p (buddy p k), k + 1⟩ :: bs) S m := by
  have h := h.perm (List.Perm.swap ⟨buddy p k, k⟩ ⟨p, k⟩ bs)
  apply h.recut (cover_merge hp bs)
  simp only [total_cons, Block.size]
  ring

theorem Parts.add (h : Parts n l bs S m) (hb : ∀ x, b.Covers x → ¬ S x) :
    Parts n l (b :: bs) (fun x => S x ∨ b.Covers x) (m + b.size) where
  tiles := (h.tiles.cons hb).perm perm_middle
  size := by
    rw [total_perm perm_middle, total_cons, h.size, add_comm]

theorem Parts.release (h : Parts n l (b :: bs) S m) :
    Parts n l bs (fun x => S x ∧ ¬ b.Covers x) (m - b.size) where
  tiles := (h.tiles.perm perm_middle.symm).tail
  size := by
    have hsize := h.size
    rw [total_perm perm_middle, total_cons] at hsize
    omega

theorem Parts.length_le (h : Parts n l bs S m) (hk : k < n) : (l k).length ≤ m := by
  have hsize := h.size
  rw [total_append] at hsize
  have hlength := length_le_total_onOrders hk l
  omega

end Buddy
