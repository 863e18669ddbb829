import CosmOS.Machine

/-!
# Sync.WaitSlots — the four registries of wait slots

The key slots of `poll.rs`, and the registries of `signal/wait.rs`, `sync/futex.rs` and
`net/socket_timeout.rs`.  They differ in their size, in the width of the fields of a handle and in what
a slot says about its owner; every call is one section under the lock of the registry.

* A `Grant` is a handle with the slot that was reserved for it, which is history.
* The rows of a poll key and the wakeups that follow a section are left out.
-/

namespace CosmOS.WaitSlots

open Function List

inductive Registry where
  | poll
  | signal
  | futex
  | socket
deriving DecidableEq

/-- `MAX_POLL_KEYS`, `MAX_SIGNAL_WAITERS`, `MAX_FUTEX_WAITERS` and `MAX_SOCKET_WAITERS`. -/
def Registry.size : Registry → ℕ
  | poll | signal => 128
  | futex => 1024
  | socket => 512

/-- The fields of a futex handle are `u16`, those of the other handles `u8`. -/
def Registry.bits : Registry → ℕ
  | futex => 16
  | poll | signal | socket => 8

inductive WaitState where
  | free
  | active
  | ready
  | timedOut
deriving DecidableEq

/-- `task_ptr`, and where the registry has them `pid` or `owner_pid` and `signal_bits`. -/
structure Owner where
  task : ℕ
  pid : ℕ
  signalBits : ℕ

structure Slot where
  generation : ℕ
  state : WaitState
  owner : Owner

def Slot.freed (slot : Slot) : Slot := { slot with state := .free, owner := ⟨0, 0, 0⟩ }

structure Handle where
  slotIdx : ℕ
  generation : ℕ
deriving DecidableEq

structure Grant where
  handle : Handle
  slot : ℕ
  task : ℕ
deriving DecidableEq

structure Slots where
  slots : ℕ → Slot
  nextSlot : ℕ

inductive Mark where
  | source (wakeBits : ℕ → Bool)
  | pid (pid : ℕ)
  | signalPid (pid pending : ℕ)
  | signalTask (task pending : ℕ)
  | task (task : ℕ)
  | handle (h : Handle)

namespace Slots

variable (k : Registry) (r : Slots)

def new : Slots := ⟨fun _ => ⟨0, .free, ⟨0, 0, 0⟩⟩, 0⟩

def freeSlot : Option ℕ :=
  ((range k.size).map fun off => (r.nextSlot + off) % k.size).find? fun idx =>
    (r.slots idx).state == .free

def alloc (o : Owner) : Option (Grant × Slots) :=
  (r.freeSlot k).map fun idx =>
    let generation := ((r.slots idx).generation + 1) % 2 ^ k.bits
    -- `idx as u8`, or `idx as u16`, goes into the handle
    (⟨⟨idx % 2 ^ k.bits, generation⟩, idx, o.task⟩,
      ⟨update r.slots idx ⟨generation, .active, o⟩, (idx + 1) % k.size⟩)

def keyValid (h : Handle) : Bool :=
  decide (h.slotIdx < k.size) && (r.slots h.slotIdx).state != .free &&
    (r.slots h.slotIdx).generation == h.generation

/-- The slots that `sel` picks are written. -/
def rewrite (sel : ℕ → Slot → Bool) (f : Slot → Slot) : Slots :=
  { r with slots := fun i => if sel i (r.slots i) then f (r.slots i) else r.slots i }

def cleanup (h : Handle) : Slots :=
  r.rewrite (fun i _ => i == h.slotIdx && r.keyValid k h) Slot.freed

def cleanupForTask (t : ℕ) : Slots :=
  r.rewrite (fun _ slot => slot.owner.task == t && slot.state != .free) Slot.freed

/-- The section of `handle_poll_timeout` and of its like. -/
def handleTimeout (h : Handle) (t : ℕ) : Slots :=
  r.rewrite (fun i slot => i == h.slotIdx && r.keyValid k h && slot.owner.task == t &&
    slot.state == .active) fun slot => { slot with state := .timedOut }

/-- `notify_poll_source`, `notify_poll_signal_pid`, `notify_signal_wait_pid`,
`notify_signal_wait_task`, `futex_wait_mark_ready` and `mark_ready` of the socket registry. -/
def marks (i : ℕ) (slot : Slot) : Mark → Bool
  | .source wakeBits => wakeBits i
  | .pid pid => slot.owner.pid == pid
  | .signalPid pid pending => slot.owner.pid == pid && slot.owner.signalBits &&& pending != 0
  | .signalTask t pending => slot.owner.task == t && slot.owner.signalBits &&& pending != 0
  | .task t => slot.owner.task == t
  | .handle h => i == h.slotIdx && r.keyValid k h

def markReady (m : Mark) : Slots :=
  r.rewrite (fun i slot => r.marks k i slot m && slot.state == .active) fun slot =>
    { slot with state := .ready }

end Slots

structure State where
  registry : Slots
  /-- The handles that were given out and not cleaned up. -/
  live : List Grant

inductive Label where
  | alloc (o : Owner)
  | markReady (m : Mark)
  | timeout (h : Handle) (t : ℕ)
  | cleanup (g : Grant)
  | cleanupForTask (t : ℕ)

/-- An allocation that fails changes nothing and is no step. -/
def next (k : Registry) (s : State) : Label → Option State
  | .alloc o => (s.registry.alloc k o).map fun x => ⟨x.2, x.1 :: s.live⟩
  | .markReady m => some { s with registry := s.registry.markReady k m }
  | .timeout h t => some { s with registry := s.registry.handleTimeout k h t }
  | .cleanup g =>
    if g ∈ s.live then some ⟨s.registry.cleanup k g.handle, s.live.filter (· ≠ g)⟩ else none
  | .cleanupForTask t =>
    some ⟨s.registry.cleanupForTask t, s.live.filter (·.task ≠ t)⟩

def machine (k : Registry) : Machine State Label where
  Init s := s = ⟨.new, []⟩
  next := next k

/-- The handle of a socket wait has room for the index of its slot. -/
def Fits (k : Registry) (s : State) : Label → Prop
  | .alloc _ => k = .socket → ∀ idx ∈ s.registry.freeSlot k, idx < 2 ^ k.bits
  | _ => True

instance (k : Registry) (s : State) : (l : Label) → Decidable (Fits k s l)
  | .alloc _ => inferInstanceAs (Decidable (_ → _))
  | .markReady _ | .timeout _ _ | .cleanup _ | .cleanupForTask _ => .isTrue trivial

/-- Every live handle has a slot of its own, and no other slot is taken. -/
structure Exact (k : Registry) (s : State) : Prop where
  distinct : (s.live.map fun g => g.handle.slotIdx).Nodup
  valid : ∀ g ∈ s.live, s.registry.keyValid k g.handle = true ∧ g.handle.slotIdx = g.slot
  cleanup : ∀ g ∈ s.live, (s.registry.cleanup k g.handle).slots =
    update s.registry.slots g.slot (s.registry.slots g.slot).freed
  full : ∀ o, s.registry.alloc k o = none → ∀ i < k.size, ∃ g ∈ s.live, g.handle.slotIdx = i

structure Grant.Holds (k : Registry) (g : Grant) (slot : Slot) : Prop where
  lt : g.slot < k.size
  handle : g.handle = ⟨g.slot, slot.generation⟩
  taken : slot.state ≠ .free
  task : slot.owner.task = g.task

structure Inv (k : Registry) (s : State) : Prop where
  distinct : (s.live.map (·.slot)).Nodup
  holds : ∀ g ∈ s.live, g.Holds k (s.registry.slots g.slot)
  held : ∀ i < k.size, (s.registry.slots i).state ≠ .free → ∃ g ∈ s.live, g.slot = i

variable {k : Registry} {r r' : Slots} {s s' : State} {l : Label} {g : Grant}
  {sel : ℕ → Slot → Bool}

/-- The handle of a held slot is valid. -/
theorem Grant.Holds.keyValid (h : g.Holds k (r.slots g.slot)) : r.keyValid k g.handle = true := by
  rw [Slots.keyValid, h.handle]
  simp [h.lt, h.taken]

/-- A section that writes the states of slots that stay taken. -/
theorem Inv.settle (hi : Inv k s) {state : WaitState} (hstate : state ≠ .free)
    (hsel : ∀ i slot, sel i slot = true → slot.state = .active) :
    Inv k { s with registry := s.registry.rewrite sel fun slot => { slot with state := state } } := by
  refine ⟨hi.distinct, ?_, ?_⟩
  · intro g hg
    have hold := hi.holds g hg
    show g.Holds k (ite _ _ _)
    split
    · exact ⟨hold.lt, hold.handle, hstate, hold.task⟩
    · exact hold
  · intro i hlt htaken
    refine hi.held i hlt ?_
    change (ite _ _ _ : Slot).state ≠ .free at htaken
    split at htaken
    next h =>
      rw [hsel i _ h]
      decide
    · exact htaken

/-- A section that frees the slots of the handles that `p` picks. -/
theorem Inv.release (hi : Inv k s) (p : Grant → Bool)
    (hsel : ∀ g ∈ s.live, sel g.slot (s.registry.slots g.slot) = true ↔ p g = false) :
    Inv k ⟨s.registry.rewrite sel Slot.freed, s.live.filter p⟩ := by
  refine ⟨hi.distinct.sublist (filter_sublist.map _), ?_, ?_⟩
  · intro g hg
    obtain ⟨hg, hp⟩ := mem_filter.mp hg
    show g.Holds k (ite _ _ _)
    rw [if_neg (by rw [hsel g hg, hp]; decide)]
    exact hi.holds g hg
  · intro i hlt htaken
    change (ite _ _ _ : Slot).state ≠ .free at htaken
    split at htaken
    · exact absurd rfl htaken
    next h =>
      obtain ⟨g, hg, rfl⟩ := hi.held i hlt htaken
      rw [hsel g hg] at h
      exact ⟨g, mem_filter.mpr ⟨hg, Bool.of_not_eq_false h⟩, rfl⟩

theorem lt_of_freeSlot {idx : ℕ} (h : r.freeSlot k = some idx) :
    idx < k.size ∧ (r.slots idx).state = .free := by
  obtain ⟨off, -, rfl⟩ := mem_map.mp (mem_of_find?_eq_some h)
  exact ⟨Nat.mod_lt _ (by cases k <;> decide), by simpa using find?_some h⟩

/-- The loop of `alloc` visits every slot. -/
theorem taken_of_freeSlot (h : r.freeSlot k = none) {i : ℕ} (hi : i < k.size) :
    (r.slots i).state ≠ .free := by
  have hvisit : ∃ off < k.size, (r.nextSlot + off) % k.size = i := by
    refine ⟨(i + (k.size - r.nextSlot % k.size)) % k.size, ?_⟩
    cases k <;> simp only [Registry.size] at hi ⊢ <;> omega
  obtain ⟨off, hoff, hidx⟩ := hvisit
  have hmem := find?_eq_none.mp h i (mem_map.mpr ⟨off, mem_range.mpr hoff, hidx⟩)
  simpa using hmem

/-- `alloc` hands out a free slot; the condition is that its index fits into the handle. -/
theorem alloc_spec {o : Owner} (hfits : ∀ idx ∈ r.freeSlot k, idx < 2 ^ k.bits)
    (h : r.alloc k o = some (g, r')) : (r.slots g.slot).state = .free ∧ g.task = o.task ∧
      ∃ slot n, r' = ⟨update r.slots g.slot slot, n⟩ ∧ g.Holds k slot := by
  obtain ⟨idx, hfree, heq⟩ := Option.map_eq_some_iff.mp h
  cases heq
  obtain ⟨hlt, hstate⟩ := lt_of_freeSlot hfree
  refine ⟨hstate, rfl, _, _, rfl, hlt, ?_, nofun, rfl⟩
  rw [Nat.mod_eq_of_lt (hfits idx hfree)]

/-- Only the handles of the socket registry are too small for their slots. -/
theorem lt_of_freeSlot_ne (hk : k ≠ .socket) (idx : ℕ) (h : idx ∈ r.freeSlot k) :
    idx < 2 ^ k.bits := by
  have hlt := (lt_of_freeSlot h).1
  cases k with
  | socket => exact absurd rfl hk
  | poll | signal | futex => exact Nat.lt_trans hlt (by decide)

/-- A free slot becomes that of a new handle. -/
theorem Inv.grant (hi : Inv k s) {slot : Slot} {n : ℕ} (hg : g.Holds k slot)
    (hfree : (s.registry.slots g.slot).state = .free) :
    Inv k ⟨⟨update s.registry.slots g.slot slot, n⟩, g :: s.live⟩ := by
  have hother : ∀ g' ∈ s.live, g'.slot ≠ g.slot := by
    intro g' hg' heq
    exact (hi.holds g' hg').taken (heq ▸ hfree)
  refine ⟨nodup_cons.mpr ⟨?_, hi.distinct⟩, ?_, ?_⟩
  · intro hmem
    obtain ⟨g', hg', heq⟩ := mem_map.mp hmem
    exact hother g' hg' heq
  · intro g' hg'
    dsimp only
    rcases mem_cons.mp hg' with rfl | hg'
    · rwa [update_self]
    · rw [update_of_ne (hother g' hg')]
      exact hi.holds g' hg'
  · intro i hlt htaken
    dsimp only at htaken
    rcases eq_or_ne i g.slot with rfl | hne
    · exact ⟨g, mem_cons_self, rfl⟩
    · rw [update_of_ne hne] at htaken
      obtain ⟨g', hg', heq⟩ := hi.held i hlt htaken
      exact ⟨g', mem_cons_of_mem _ hg', heq⟩

theorem Inv.next (hi : Inv k s) (hfits : Fits k s l) (hn : next k s l = some s') : Inv k s' := by
  cases l with
  | alloc o =>
    obtain ⟨⟨g, r⟩, halloc, rfl⟩ := Option.map_eq_some_iff.mp hn
    have hname : ∀ idx ∈ s.registry.freeSlot k, idx < 2 ^ k.bits := by
      by_cases hk : k = .socket
      · exact hfits hk
      · exact lt_of_freeSlot_ne hk
    obtain ⟨hfree, -, slot, n, rfl, hg⟩ := alloc_spec hname halloc
    exact hi.grant hg hfree
  | markReady m =>
    cases hn
    exact hi.settle (by decide) fun i slot h => by simp_all
  | timeout h t =>
    cases hn
    exact hi.settle (by decide) fun i slot h => by simp_all
  | cleanup g =>
    obtain ⟨hg, hs⟩ := Option.ite_none_right_eq_some.mp hn
    cases hs
    refine hi.release _ fun g' hg' => ?_
    -- no other live handle has the slot
    have hsame : g'.slot = g.slot ↔ g' = g :=
      ⟨inj_on_of_nodup_map hi.distinct hg' hg, congrArg _⟩
    have hold := hi.holds g hg
    rw [hold.keyValid, hold.handle]
    simpa using hsame
  | cleanupForTask t =>
    cases hn
    refine hi.release _ fun g hg => ?_
    have hold := hi.holds g hg
    simp [hold.task, hold.taken]

theorem Inv.exact (hi : Inv k s) : Exact k s := by
  have hname : ∀ g ∈ s.live, g.handle.slotIdx = g.slot := by
    intro g hg
    rw [(hi.holds g hg).handle]
  refine ⟨?_, ?_, ?_, ?_⟩
  · rw [map_congr_left hname]
    exact hi.distinct
  · intro g hg
    exact ⟨(hi.holds g hg).keyValid, hname g hg⟩
  · intro g hg
    funext i
    show ite _ _ _ = _
    rw [(hi.holds g hg).keyValid, hname g hg, update_apply]
    rcases eq_or_ne i g.slot with rfl | hne
    · simp
    · simp [hne]
  · intro o hnone i hlt
    obtain ⟨g, hg, heq⟩ := hi.held i hlt (taken_of_freeSlot (Option.map_eq_none_iff.mp hnone) hlt)
    exact ⟨g, hg, (hname g hg).trans heq⟩

/-- Wait slots are owned exactly, as long as the index of a socket's slot fits into its handle. -/
theorem wait_slots_exact (h : (machine k).Reach (Fits k) s) : Exact k s := by
  refine Inv.exact (h.invariant (P := Inv k) ?_ ?_)
  · rintro _ rfl
    exact ⟨nodup_nil, by simp, fun i _ htaken => absurd rfl htaken⟩
  · intro s l s' hi hfits hn
    exact hi.next hfits hn

/-- Three socket waits; the second is marked ready and cleaned up, and a fourth one follows. -/
def socketWaits : List Label :=
  [.alloc ⟨1, 1, 0⟩, .alloc ⟨2, 1, 0⟩, .alloc ⟨3, 1, 0⟩, .markReady (.handle ⟨1, 1⟩),
    .cleanup ⟨⟨1, 1⟩, 1, 2⟩, .alloc ⟨4, 1, 0⟩]

/-- All slots of the poll registry are taken; the one with the number 5 is cleaned up and taken again. -/
def pollReuse : List Label :=
  replicate 128 (.alloc ⟨1, 1, 0⟩) ++ [.cleanup ⟨⟨5, 1⟩, 5, 1⟩, .alloc ⟨2, 1, 0⟩]

/-- Three socket waits are live after a cleanup and a new wait, and a slot of the poll registry is used a
second time while all others are taken. -/
theorem wait_slots_exact_reused :
    (∃ s, (machine .socket).Reach (Fits .socket) s ∧
      s.live.map (·.handle) = [⟨3, 1⟩, ⟨2, 1⟩, ⟨0, 1⟩] ∧ Exact .socket s) ∧
    ∃ s, (machine .poll).Reach (Fits .poll) s ∧ s.live.head? = some ⟨⟨5, 2⟩, 5, 2⟩ ∧
      s.live.length = 128 ∧ Exact .poll s := by
  constructor
  · obtain ⟨s, hs, hlive⟩ := (machine .socket).exists_reach_of_runWhile (Fits .socket)
      (fun s => s.live.map (·.handle) = [⟨3, 1⟩, ⟨2, 1⟩, ⟨0, 1⟩]) socketWaits rfl (by decide +kernel)
    exact ⟨s, hs, hlive, wait_slots_exact hs⟩
  · obtain ⟨s, hs, hhead, hlength⟩ := (machine .poll).exists_reach_of_runWhile (Fits .poll)
      (fun s => s.live.head? = some ⟨⟨5, 2⟩, 5, 2⟩ ∧ s.live.length = 128) pollReuse rfl
      (by decide +kernel)
    exact ⟨s, hs, hhead, hlength, wait_slots_exact hs⟩

/-- The handle of the 257th socket wait is the one of the first, which is still live. -/
theorem socket_handle_shared : ∃ s, (machine .socket).Reachable s ∧
    ∃ g ∈ s.live, ∃ g' ∈ s.live, g.handle = g'.handle ∧ g.slot ≠ g'.slot :=
  (machine .socket).exists_reachable_of_run _ (replicate 257 (.alloc ⟨1, 1, 0⟩)) rfl
    (by decide +kernel)

end CosmOS.WaitSlots
