import Mathlib

/-!
# IntrusiveList — doubly linked lists whose links live in the nodes

A general layer for allocators that thread their free blocks on lists.  Every node starts with two
link words, and a sentinel `nil` ends a list in both directions.

* `IsList c nil head l`: from `head` the links run through the nodes of `l`, forwards and backwards.
* `push`, `unlink`: the edits, word by word, with what they do to the list they edit
  (`IsList.push`, `IsList.unlink`) and to a list that shares no node with it (`IsList.congr`).
* `locate`: a search along the forward links, with its answer (`IsList.locate_eq`).
* `Lists`: several lists over the same nodes, and what an edit of one of them keeps.
-/

universe u

/-- The two link words at the front of every node. -/
structure Cells (α : Type u) where
  next : α → α
  prev : α → α

namespace Cells

open List
open Function (update update_apply update_of_ne update_self)

variable {α : Type u} [DecidableEq α] (c : Cells α) (a v : α)

def setNext : Cells α := { c with next := Function.update c.next a v }

def setPrev : Cells α := { c with prev := Function.update c.prev a v }

theorem setNext_next (a v x : α) : (c.setNext a v).next x = if x = a then v else c.next x :=
  update_apply c.next a v x

theorem setPrev_prev (a v x : α) : (c.setPrev a v).prev x = if x = a then v else c.prev x :=
  update_apply c.prev a v x

@[simp] theorem setNext_prev : (c.setNext a v).prev = c.prev := rfl

@[simp] theorem setPrev_next : (c.setPrev a v).next = c.next := rfl

variable (nil head a : α)

/-- Put the node `a` in front of the list at `head`. -/
def push : Cells α :=
  let c := (c.setNext a head).setPrev a nil
  if head = nil then c else c.setPrev head a

/-- Take the node `a` out of the list at `head`.  The second component is the new head. -/
def unlink : Cells α × α :=
  let next := c.next a
  let prev := c.prev a
  let (c, head) := if prev = nil then (c, next) else (c.setNext prev next, head)
  let c := if next = nil then c else c.setPrev next prev
  ((c.setNext a nil).setPrev a nil, head)

/-- Follow the forward links from `cur`, whose predecessor is `prev`, until `target`; the answer is the
predecessor of `target`.  `none`: the fuel did not reach the end of the list. -/
def locate (c : Cells α) (nil target : α) : ℕ → α → α → Option (Option α)
  | 0, _, _ => none
  | fuel + 1, prev, cur =>
    if cur = nil then some none
    else if cur = target then some (some prev)
    else c.locate nil target fuel cur (c.next cur)

def nodes (c : Cells α) (nil : α) : ℕ → α → Option (List α)
  | 0, _ => none
  | fuel + 1, cur => if cur = nil then some [] else (c.nodes nil fuel (c.next cur)).map (cur :: ·)

/-! ## Chains -/

omit [DecidableEq α] in
/-- The links from `head`, whose predecessor is `prev`, run through the nodes of the list. -/
def Chain (c : Cells α) (nil : α) : α → α → List α → Prop
  | head, _, [] => head = nil
  | head, prev, a :: l => head = a ∧ a ≠ nil ∧ c.prev a = prev ∧ c.Chain nil (c.next a) a l

/-- A list of distinct nodes, linked from `head` in both directions. -/
structure IsList (c : Cells α) (nil head : α) (l : List α) : Prop where
  chain : c.Chain nil head nil l
  nodup : l.Nodup

variable {c c' : Cells α} {nil head prev a b : α} {l l' : List α}

omit [DecidableEq α] in
theorem Chain.congr (h : c.Chain nil head prev l)
    (heq : ∀ x ∈ l, c'.next x = c.next x ∧ c'.prev x = c.prev x) : c'.Chain nil head prev l := by
  induction l generalizing head prev with
  | nil => exact h
  | cons b l ih =>
    obtain ⟨hhead, hb, hprev, hrest⟩ := h
    obtain ⟨hn, hp⟩ := heq b (.head _)
    refine ⟨hhead, hb, hp.trans hprev, ?_⟩
    rw [hn]
    exact ih hrest fun x hx => heq x (.tail b hx)

omit [DecidableEq α] in
theorem Chain.ne_nil (h : c.Chain nil head prev l) (ha : a ∈ l) : a ≠ nil := by
  induction l generalizing head prev with
  | nil => cases ha
  | cons b l ih =>
    obtain ⟨-, hb, -, hrest⟩ := h
    rcases mem_cons.mp ha with rfl | ha
    · exact hb
    · exact ih hrest ha

omit [DecidableEq α] in
/-- The head of a chain is the sentinel or its first node. -/
theorem Chain.head_eq (h : c.Chain nil head prev l) : head = l.head?.getD nil := by
  cases l with
  | nil => exact h
  | cons b l => exact h.1

omit [DecidableEq α] in
theorem Chain.next_mem (h : c.Chain nil head prev l) (ha : a ∈ l) :
    c.next a = nil ∨ c.next a ∈ l := by
  induction l generalizing head prev with
  | nil => cases ha
  | cons b l ih =>
    obtain ⟨-, -, -, hrest⟩ := h
    rcases mem_cons.mp ha with rfl | ha
    · cases l with
      | nil => exact .inl hrest
      | cons d l =>
        rw [hrest.1]
        exact .inr (.tail a (.head _))
    · exact (ih hrest ha).imp_right (.tail b)

omit [DecidableEq α] in
theorem Chain.prev_mem (h : c.Chain nil head prev l) (ha : a ∈ l) :
    c.prev a = prev ∧ head = a ∨ c.prev a ∈ l := by
  induction l generalizing head prev with
  | nil => cases ha
  | cons b l ih =>
    obtain ⟨hhead, -, hprev, hrest⟩ := h
    rcases mem_cons.mp ha with rfl | ha
    · exact .inl ⟨hprev, hhead⟩
    · rcases ih hrest ha with ⟨hp, -⟩ | hp
      · rw [hp]
        exact .inr (.head _)
      · exact .inr (.tail b hp)

/-! ## Unlinking -/

theorem unlink_next (c : Cells α) (nil head a x : α) : (c.unlink nil head a).1.next x =
      if x = a then nil else if c.prev a ≠ nil ∧ x = c.prev a then c.next a else c.next x := by
  unfold unlink
  by_cases hp : c.prev a = nil <;> by_cases hn : c.next a = nil <;>
    simp [hp, hn, setNext_next]

theorem unlink_prev (c : Cells α) (nil head a x : α) : (c.unlink nil head a).1.prev x =
      if x = a then nil else if c.next a ≠ nil ∧ x = c.next a then c.prev a else c.prev x := by
  unfold unlink
  by_cases hp : c.prev a = nil <;> by_cases hn : c.next a = nil <;>
    simp [hp, hn, setPrev_prev]

theorem unlink_head (c : Cells α) (nil head a : α) :
    (c.unlink nil head a).2 = if c.prev a = nil then c.next a else head := by
  unfold unlink
  by_cases hp : c.prev a = nil <;> simp [hp]

/-- The part of a chain behind the unlinked node: only the predecessor of its first node changes. -/
theorem Chain.unlink_head (h₀ : α) (hl : c.Chain nil (c.next a) a l) (hnodup : (a :: l).Nodup)
    (hp : c.prev a ∉ l) : (c.unlink nil h₀ a).1.Chain nil (c.next a) (c.prev a) l := by
  cases l with
  | nil => exact hl
  | cons d l =>
    obtain ⟨hhead, hd, -, hrest⟩ := hl
    obtain ⟨ha, hdl⟩ := nodup_cons.mp hnodup
    have hda : d ≠ a := fun h => ha (h ▸ .head _)
    have hdp : d ≠ c.prev a := fun h => hp (h ▸ .head _)
    refine ⟨hhead, hd, ?_, ?_⟩
    · rw [unlink_prev, if_neg hda, if_pos ⟨hhead ▸ hd, hhead.symm⟩]
    have hnext : (c.unlink nil h₀ a).1.next d = c.next d := by
      rw [unlink_next, if_neg hda, if_neg fun h => hdp h.2]
    rw [hnext]
    apply hrest.congr
    intro x hx
    have hxa : x ≠ a := fun h => ha (h ▸ .tail d hx)
    have hxp : x ≠ c.prev a := fun h => hp (h ▸ .tail d hx)
    have hxd : x ≠ c.next a := fun h => (nodup_cons.mp hdl).1 (hhead ▸ h ▸ hx)
    rw [unlink_next, unlink_prev, if_neg hxa, if_neg hxa, if_neg fun h => hxp h.2,
      if_neg fun h => hxd h.2]
    exact ⟨rfl, rfl⟩

theorem Chain.unlink (h₀ : α) (h : c.Chain nil head prev l) (hnodup : l.Nodup) (hprev : prev ∉ l)
    (ha : a ∈ l) :
    (c.unlink nil h₀ a).1.Chain nil (if head = a then c.next a else head) prev (l.erase a) := by
  induction l generalizing head prev with
  | nil => cases ha
  | cons b l ih =>
    obtain ⟨rfl, hb, hbp, hrest⟩ := h
    obtain ⟨hbl, hl⟩ := nodup_cons.mp hnodup
    rcases eq_or_ne head a with rfl | hba
    · rw [if_pos rfl, erase_cons_head]
      rw [← hbp]
      exact hrest.unlink_head h₀ hnodup (hbp ▸ fun h => hprev (.tail head h))
    · have hal : a ∈ l := (mem_cons.mp ha).resolve_left (Ne.symm hba)
      rw [if_neg hba, erase_cons_tail (by simpa using hba)]
      -- the node in front of `a` is this one exactly when `a` is the next node
      have hfront : c.prev a = head ↔ c.next head = a := by
        rcases hrest.prev_mem hal with ⟨hp, hn⟩ | hp
        · exact ⟨fun _ => hn, fun _ => hp⟩
        constructor
        · intro heq
          exact absurd (heq ▸ hp) hbl
        intro heq
        cases l with
        | nil => cases hal
        | cons d l =>
          obtain rfl : a = d := heq.symm.trans hrest.1
          exact hrest.2.2.1
      have hnext : c.next a ≠ head := by
        rcases hrest.next_mem hal with hn | hn
        · exact fun h => hb (h ▸ hn)
        · exact fun h => hbl (h ▸ hn)
      refine ⟨rfl, hb, ?_, ?_⟩
      · rwa [unlink_prev, if_neg hba, if_neg fun h => hnext h.2.symm]
      have heq : (c.unlink nil h₀ a).1.next head =
          if c.next head = a then c.next a else c.next head := by
        rw [unlink_next, if_neg hba]
        by_cases hf : c.prev a = head
        · rw [if_pos ⟨hf ▸ hb, hf.symm⟩, if_pos (hfront.mp hf)]
        · rw [if_neg fun h => hf h.2.symm, if_neg fun h => hf (hfront.mpr h)]
      rw [heq]
      exact ih hrest hl hbl hal

/-! ## Lists -/

omit [DecidableEq α] in
theorem IsList.nil_notMem (h : c.IsList nil head l) : nil ∉ l :=
  fun hmem => h.chain.ne_nil hmem rfl

omit [DecidableEq α] in
theorem IsList.congr (h : c.IsList nil head l)
    (heq : ∀ x ∈ l, c'.next x = c.next x ∧ c'.prev x = c.prev x) : c'.IsList nil head l :=
  ⟨h.chain.congr heq, h.nodup⟩

theorem IsList.push (h : c.IsList nil head l) (ha : a ≠ nil) (hl : a ∉ l) :
    (c.push nil head a).IsList nil a (a :: l) := by
  refine ⟨?_, nodup_cons.mpr ⟨hl, h.nodup⟩⟩
  have hchain := h.chain
  cases l with
  | nil =>
    obtain rfl : head = nil := hchain
    have hc : c.push head head a = (c.setNext a head).setPrev a head := if_pos rfl
    rw [hc]
    exact ⟨rfl, ha, by simp [setPrev_prev], by simp [setNext_next, Chain]⟩
  | cons d l =>
    obtain ⟨rfl, hd, hdp, hrest⟩ := hchain
    have hc : c.push nil head a = ((c.setNext a head).setPrev a nil).setPrev head a := if_neg hd
    have hda : head ≠ a := fun heq => hl (heq ▸ .head _)
    rw [hc]
    refine ⟨rfl, ha, by simp [setPrev_prev, Ne.symm hda], ?_⟩
    have hnext : (((c.setNext a head).setPrev a nil).setPrev head a).next a = head := by
      simp [setNext_next]
    rw [hnext]
    refine ⟨rfl, hd, by simp [setPrev_prev], ?_⟩
    have hnext : (((c.setNext a head).setPrev a nil).setPrev head a).next head = c.next head := by
      simp [setNext_next, hda]
    rw [hnext]
    apply hrest.congr
    intro x hx
    have hxa : x ≠ a := fun heq => hl (heq ▸ .tail head hx)
    have hxd : x ≠ head := fun heq => (nodup_cons.mp h.nodup).1 (heq ▸ hx)
    simp [setNext_next, setPrev_prev, hxa, hxd]

/-- Pushing writes to the new node and to the old head only. -/
theorem push_frame (x : α) (hxa : x ≠ a) (hxh : x ≠ head) :
    (c.push nil head a).next x = c.next x ∧ (c.push nil head a).prev x = c.prev x := by
  unfold push
  by_cases hh : head = nil <;> simp [hh, setNext_next, setPrev_prev, hxa, hxh]

theorem IsList.unlink (h : c.IsList nil head l) (ha : a ∈ l) :
    (c.unlink nil head a).1.IsList nil (c.unlink nil head a).2 (l.erase a) := by
  refine ⟨?_, h.nodup.erase a⟩
  have hhead : (c.unlink nil head a).2 = if head = a then c.next a else head := by
    rw [Cells.unlink_head]
    rcases h.chain.prev_mem ha with ⟨hp, hn⟩ | hp
    · rw [if_pos hp, if_pos hn]
    rw [if_neg (h.chain.ne_nil hp), if_neg]
    -- the first node has the sentinel in front of it
    intro heq
    subst heq
    cases l with
    | nil => cases ha
    | cons d l =>
      obtain ⟨rfl, -, hdp, -⟩ := h.chain
      exact h.nil_notMem (hdp ▸ hp)
  rw [hhead]
  exact h.chain.unlink head h.nodup h.nil_notMem ha

/-- Unlinking writes to nodes of the list only. -/
theorem IsList.unlink_frame (h : c.IsList nil head l) (ha : a ∈ l) (x : α) (hx : x ∉ l) :
    (c.unlink nil head a).1.next x = c.next x ∧ (c.unlink nil head a).1.prev x = c.prev x := by
  have hxa : x ≠ a := fun heq => hx (heq ▸ ha)
  constructor
  · rw [unlink_next, if_neg hxa, if_neg]
    rintro ⟨hp, rfl⟩
    rcases h.chain.prev_mem ha with ⟨hn, -⟩ | hmem
    · exact hp hn
    · exact hx hmem
  · rw [unlink_prev, if_neg hxa, if_neg]
    rintro ⟨hn, rfl⟩
    rcases h.chain.next_mem ha with hn' | hmem
    · exact hn hn'
    · exact hx hmem

variable {fuel : ℕ}

theorem Chain.locate_eq (h : c.Chain nil head prev l) (hfuel : l.length < fuel) :
    c.locate nil a fuel prev head = some (if a ∈ l then some (c.prev a) else none) := by
  induction l generalizing head prev fuel with
  | nil =>
    obtain ⟨fuel, rfl⟩ := Nat.exists_eq_add_of_lt hfuel
    simp only [locate, if_pos (show head = nil from h), not_mem_nil, if_false]
  | cons b l ih =>
    obtain ⟨rfl, hb, hbp, hrest⟩ := h
    obtain ⟨fuel, rfl⟩ : ∃ n, fuel = n + 1 := ⟨fuel - 1, by simp at hfuel; omega⟩
    rw [locate, if_neg hb]
    rcases eq_or_ne head a with rfl | hba
    · rw [if_pos rfl, if_pos (.head _), hbp]
    · rw [if_neg hba, ih hrest (by simpa using hfuel)]
      simp [mem_cons, Ne.symm hba]

theorem IsList.locate_eq (h : c.IsList nil head l) (hfuel : l.length < fuel) :
    c.locate nil a fuel nil head = some (if a ∈ l then some (c.prev a) else none) :=
  h.chain.locate_eq hfuel

theorem Chain.nodes_eq (h : c.Chain nil head prev l) (hfuel : l.length < fuel) :
    c.nodes nil fuel head = some l := by
  induction l generalizing head prev fuel with
  | nil =>
    obtain ⟨fuel, rfl⟩ := Nat.exists_eq_add_of_lt hfuel
    simp only [nodes, if_pos (show head = nil from h)]
  | cons b l ih =>
    obtain ⟨rfl, hb, -, hrest⟩ := h
    obtain ⟨fuel, rfl⟩ : ∃ n, fuel = n + 1 := ⟨fuel - 1, by simp at hfuel; omega⟩
    rw [nodes, if_neg hb, ih hrest (by simpa using hfuel)]
    rfl

/-! ## Several lists over the same nodes -/

/-- One list for each index below `n`, with no node on two of them. -/
structure Lists (c : Cells α) (nil : α) (n : ℕ) (heads : ℕ → α) (ls : ℕ → List α) : Prop where
  linked : ∀ k < n, c.IsList nil (heads k) (ls k)
  apart : ∀ j < n, ∀ k < n, j ≠ k → ∀ a ∈ ls j, a ∉ ls k

variable {n k : ℕ} {heads : ℕ → α} {ls : ℕ → List α}

omit [DecidableEq α] in
/-- One list and the nodes it lost or gained change, the others stay. -/
theorem Lists.update {head' : α} {l' : List α} (h : c.Lists nil n heads ls)
    (hlink : c'.IsList nil head' l')
    (hframe : ∀ j < n, j ≠ k → ∀ x ∈ ls j, c'.next x = c.next x ∧ c'.prev x = c.prev x)
    (hapart : ∀ a ∈ l', ∀ j < n, j ≠ k → a ∉ ls j) :
    c'.Lists nil n (update heads k head') (update ls k l') where
  linked := by
    intro j hj
    rcases eq_or_ne j k with rfl | hjk
    · rwa [update_self, update_self]
    · rw [update_of_ne hjk, update_of_ne hjk]
      exact (h.linked j hj).congr (hframe j hj hjk)
  apart := by
    intro i hi j hj hij a ha
    rcases eq_or_ne i k with rfl | hik
    · rw [update_self] at ha
      rw [update_of_ne (Ne.symm hij)]
      exact hapart a ha j hj (Ne.symm hij)
    · rw [update_of_ne hik] at ha
      rcases eq_or_ne j k with rfl | hjk
      · rw [update_self]
        exact fun ha' => hapart a ha' i hi hik ha
      · rw [update_of_ne hjk]
        exact h.apart i hi j hj hij a ha

theorem Lists.push (h : c.Lists nil n heads ls) (hk : k < n) (ha : a ≠ nil)
    (hfresh : ∀ j < n, a ∉ ls j) :
    (c.push nil (heads k) a).Lists nil n (Function.update heads k a)
      (Function.update ls k (a :: ls k)) := by
  apply h.update ((h.linked k hk).push ha (hfresh k hk))
  · intro j hj hjk x hx
    apply push_frame
    · rintro rfl
      exact hfresh j hj hx
    -- the old head is a node of the list `k`, or the sentinel
    intro hhead
    rw [(h.linked k hk).chain.head_eq] at hhead
    cases hl : (ls k).head? with rw [hl] at hhead
    | none =>
      exact (h.linked j hj).chain.ne_nil hx hhead
    | some head =>
      exact h.apart j hj k hk hjk x hx (hhead ▸ mem_of_head? hl)
  · intro b hb j hj hjk
    rcases mem_cons.mp hb with rfl | hb
    · exact hfresh j hj
    · exact h.apart k hk j hj (Ne.symm hjk) b hb

theorem Lists.unlink (h : c.Lists nil n heads ls) (hk : k < n) (ha : a ∈ ls k) :
    (c.unlink nil (heads k) a).1.Lists nil n
      (Function.update heads k (c.unlink nil (heads k) a).2)
      (Function.update ls k ((ls k).erase a)) := by
  apply h.update ((h.linked k hk).unlink ha)
  · intro j hj hjk x hx
    exact (h.linked k hk).unlink_frame ha x fun hxk => h.apart j hj k hk hjk x hx hxk
  · intro b hb j hj hjk
    exact h.apart k hk j hj (Ne.symm hjk) b (mem_of_mem_erase hb)

omit [DecidableEq α] in
/-- Writes to nodes that are on no list. -/
theorem Lists.congr (h : c.Lists nil n heads ls)
    (hframe : ∀ k < n, ∀ x ∈ ls k, c'.next x = c.next x ∧ c'.prev x = c.prev x) :
    c'.Lists nil n heads ls :=
  ⟨fun k hk => (h.linked k hk).congr (hframe k hk), h.apart⟩

end Cells
