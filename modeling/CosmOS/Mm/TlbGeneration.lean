import CosmOS.Machine
import CosmOS.BTreeMap

/-!
# TLB generations of one user address space

A step model of the generation protocol of `mm/memory_set.rs` and its callers in
`task/process.rs`: `mark_user_active`, `mark_user_inactive`, `advance_tlb_generation`, the
page-table edits made under the process lock, and `DeferredUserReclaim::flush_then_release`.

* A hart's TLB is the set of translations it has cached for the address space.  A hart in user
  mode may cache any present page-table entry at any time.
* An edit is one step: it changes the table, flushes the editing hart with the flush of its own
  helper, publishes a new generation and takes the mask of active harts (all under the process
  lock).  Its shootdown then reaches the harts of the mask one by one and in any order, and the
  last step releases the removed frames.
* A `Frame` is one allocation of a physical frame, so a frame number that is handed out again is
  a new `Frame` and `released` only grows.

Scope limits: harts are `Fin maxHarts`; the generation is a natural number, where the source has a
`usize` that wraps; a shootdown is taken to flush exactly its targets, and the slot protocol behind it
is the subject of `CosmOS.Mm.TlbShootdown`; permissions are not modelled, so an edit that only
changes permissions changes no translation here.  The edits left out are the eager population of a
shared `mmap`, an `mremap` that changes the length, and the write protection of the parent at a fork.
-/

namespace CosmOS.Mm.Tlb

open Function

abbrev Hart (maxHarts : ℕ) := Fin maxHarts
abbrev Frame := ℕ

def pageSize : ℕ := 4096
def tlbRangePageLimit : ℕ := 32

def floor (va : ℕ) : ℕ := va / pageSize

def ceil (va : ℕ) : ℕ := (va + (pageSize - 1)) / pageSize

/-! ## Flushes -/

/-- What an edit flushes, locally and on the harts of its mask. -/
inductive DeferredUserFlush
  | addressSpace
  | page (vaddr : ℕ)
  | range (start stop : ℕ)
deriving Repr, DecidableEq

/-- The flush discards every translation of the address space.  `flush_tlb_range_asid` gives up
on ranges of more than `TLB_RANGE_PAGE_LIMIT` pages and flushes the whole ASID. -/
def DeferredUserFlush.isFull : DeferredUserFlush → Bool
  | .addressSpace => true
  | .page _ => false
  | .range start stop =>
    start < stop && tlbRangePageLimit < floor (stop - 1) - floor start + 1

/-- The flush discards the translation of page `v`. -/
def DeferredUserFlush.covers (flush : DeferredUserFlush) (v : ℕ) : Bool :=
  flush.isFull ||
    match flush with
    | .addressSpace => true
    | .page vaddr => v = floor vaddr
    | .range start stop => start < stop && floor start ≤ v && v ≤ floor (stop - 1)

/-! ## Page-table edits -/

abbrev PageTable := BTreeMap ℕ Frame

/-- The helpers that edit a user page table. -/
inductive EditOp
  /-- `munmap`: tears down the pages of a range. -/
  | munmap (start stop : ℕ)
  /-- `handle_private_cow_fault` copying a shared page to a new frame. -/
  | privateCow (vaddr : ℕ) (frame : Frame)
  /-- `handle_lazy_user_fault` and the file faults: install a page that is not present. -/
  | lazyFault (vaddr : ℕ) (frame : Frame)
  /-- A fault that only relaxes the permissions of one present page. -/
  | relaxPage (vaddr : ℕ)
  | mprotect (start stop : ℕ)
  /-- The helpers that end in `finish_deferred_page_table_edit`: heap shrinking, removal of a
  VMA, file truncation, teardown at exit and exec. -/
  | teardown (start stop : ℕ)
  /-- `mremap` to another place; the pages of the destination are unmapped first. -/
  | mremap (oldStart newStart pages : ℕ)
deriving Repr, DecidableEq

/-- The outcome of an edit: the new table, its flush, the removed frames that wait for release,
and the frames that stay mapped at another page. -/
structure Edit where
  table : PageTable
  flush : DeferredUserFlush
  batch : List Frame
  moved : List Frame

variable (table : PageTable)

/-- The frames mapped at pages that pass `p`. -/
def framesAt (p : ℕ → Bool) : List Frame :=
  (table.filter fun v _ => p v).values

def inSpan (start stop : ℕ) (v : ℕ) : Bool := start ≤ v && v < stop

/-- Remove the pages that pass `p` and defer the release of their frames. -/
def removePages (p : ℕ → Bool) (flush : DeferredUserFlush) : Edit :=
  ⟨table.filter fun v _ => !p v, flush, framesAt table p, []⟩

/-- The page table after `mremap`: present pages of the old range reappear at the same offset of
the new one. -/
def relocate (oldStart newStart pages : ℕ) : PageTable :=
  (table.filter fun v _ => !inSpan newStart (newStart + pages) v &&
      !inSpan oldStart (oldStart + pages) v).insertMany
    ((table.filter fun v _ => inSpan oldStart (oldStart + pages) v).entries.map fun e =>
      (e.1 - oldStart + newStart, e.2))

/-- Apply an edit; `none` when the helper refuses.  A new mapping needs a live frame. -/
def EditOp.apply (released : Finset Frame) : EditOp → Option Edit
  | .munmap start stop =>
    if start < stop then
      some (removePages table (inSpan (floor start) (ceil stop)) (.range start stop))
    else none
  | .privateCow vaddr frame =>
    match table.get? (floor vaddr) with
    | some old =>
      if frame ∉ released then
        some ⟨table.insert (floor vaddr) frame, .page vaddr, [old], []⟩
      else none
    | none => none
  | .lazyFault vaddr frame =>
    match table.get? (floor vaddr) with
    | some _ => none
    | none =>
      if frame ∉ released then
        some ⟨table.insert (floor vaddr) frame, .page vaddr, [], []⟩
      else none
  | .relaxPage vaddr => some ⟨table, .page vaddr, [], []⟩
  | .mprotect start stop =>
    if start < stop then some ⟨table, .range start stop, [], []⟩ else none
  | .teardown start stop => some (removePages table (inSpan start stop) .addressSpace)
  | .mremap oldStart newStart pages =>
    if oldStart + pages ≤ newStart ∨ newStart + pages ≤ oldStart then
      some ⟨relocate table oldStart newStart pages, .addressSpace,
        framesAt table (inSpan newStart (newStart + pages)),
        framesAt table (inSpan oldStart (oldStart + pages))⟩
    else none

/-! ## State and steps -/

/-- An edit whose shootdown or release is outstanding (`DeferredUserReclaim`); `mask` holds the
targets that have not flushed yet. -/
structure Reclaim (maxHarts : ℕ) where
  flush : DeferredUserFlush
  mask : Finset (Hart maxHarts)
  batch : List Frame
  moved : List Frame
deriving DecidableEq

structure State (maxHarts : ℕ) where
  table : PageTable
  tlbGeneration : ℕ
  seenTlbGeneration : Hart maxHarts → ℕ
  activeUserHarts : Finset (Hart maxHarts)
  userMode : Finset (Hart maxHarts)
  tlb : Hart maxHarts → Finset (ℕ × Frame)
  pending : BTreeMap ℕ (Reclaim maxHarts)
  released : Finset Frame

variable {maxHarts : ℕ}

/-- A fresh address space: generation 1, seen by no hart. -/
def initial : State maxHarts where
  table := BTreeMap.empty
  tlbGeneration := 1
  seenTlbGeneration := fun _ => 0
  activeUserHarts := ∅
  userMode := ∅
  tlb := fun _ => ∅
  pending := BTreeMap.empty
  released := ∅

def flushTlb (flush : DeferredUserFlush) (tlb : Finset (ℕ × Frame)) : Finset (ℕ × Frame) :=
  tlb.filter fun e => flush.covers e.1 = false

variable (s : State maxHarts) (h : Hart maxHarts)

def State.markUserActive : State maxHarts :=
  let s' :=
    if s.seenTlbGeneration h ≠ s.tlbGeneration then
      { s with
        tlb := update s.tlb h (flushTlb .addressSpace (s.tlb h))
        seenTlbGeneration := update s.seenTlbGeneration h s.tlbGeneration }
    else s
  { s' with activeUserHarts := insert h s'.activeUserHarts }

def State.markUserInactive : State maxHarts :=
  { s with activeUserHarts := s.activeUserHarts.erase h }

/-- An edit by hart `h` up to the end of its critical section: change the table, flush locally,
`record_local_tlb_change`, and queue the reclaim `id`. -/
def State.edit (id : ℕ) (e : Edit) : State maxHarts :=
  { s with
    table := e.table
    tlb := update s.tlb h (flushTlb e.flush (s.tlb h))
    tlbGeneration := s.tlbGeneration + 1
    seenTlbGeneration := update s.seenTlbGeneration h (s.tlbGeneration + 1)
    pending := s.pending.insert id ⟨e.flush, s.activeUserHarts, e.batch, e.moved⟩ }

/-- The frames of a batch that nothing else keeps alive: neither the page table nor another
outstanding batch. -/
def unreferenced (others : BTreeMap ℕ (Reclaim maxHarts))
    (batch : List Frame) : List Frame :=
  batch.filter fun f => f ∉ table.values ∧ ∀ r ∈ others.values, f ∉ r.batch

inductive Label (maxHarts : ℕ)
  | fill (h : Hart maxHarts) (v : ℕ)
  | enterKernel (h : Hart maxHarts)
  | enterUser (h : Hart maxHarts)
  | edit (h : Hart maxHarts) (id : ℕ) (op : EditOp)
  | shootdown (id : ℕ) (target : Hart maxHarts)
  | release (id : ℕ)
deriving DecidableEq

def next : Label maxHarts → Option (State maxHarts)
  | .fill h v =>
    if h ∈ s.userMode then
      (s.table.get? v).map fun f => { s with tlb := update s.tlb h (insert (v, f) (s.tlb h)) }
    else none
  | .enterKernel h =>
    if h ∈ s.userMode then
      some { s.markUserInactive h with userMode := s.userMode.erase h }
    else none
  | .enterUser h =>
    if h ∉ s.userMode then
      some { s.markUserActive h with userMode := insert h s.userMode }
    else none
  | .edit h id op =>
    if h ∉ s.userMode ∧ s.pending.get? id = none then
      (op.apply s.table s.released).map (s.edit h id)
    else none
  | .shootdown id target =>
    match s.pending.get? id with
    | some r =>
      if target ∈ r.mask then
        some { s with
          tlb := update s.tlb target (flushTlb r.flush (s.tlb target))
          pending := s.pending.insert id { r with mask := r.mask.erase target } }
      else none
    | none => none
  | .release id =>
    match s.pending.get? id with
    | some r =>
      if r.mask = ∅ then
        some { s with
          pending := s.pending.erase id
          released := s.released ∪
            (unreferenced s.table (s.pending.erase id) r.batch).toFinset }
      else none
    | none => none

def machine (maxHarts : ℕ) : Machine (State maxHarts) (Label maxHarts) where
  Init := fun s => s = initial
  next := next

/-! ## The property and its condition -/

/-- No hart in user mode can reach a released frame through its TLB. -/
def NoStaleAccess : Prop :=
  ∀ h ∈ s.userMode, ∀ e ∈ s.tlb h, e.2 ∉ s.released

/-- The condition under which the protocol is safe.  An editing hart either is up to date or
flushes its whole ASID; and a frame is not released while an `mremap` that moved it still waits
for its shootdown. -/
def EditsInSync : Label maxHarts → Prop
  | .edit h _ op =>
    s.seenTlbGeneration h = s.tlbGeneration ∨
      ∀ e, op.apply s.table s.released = some e → e.flush.isFull = true
  | .release id =>
    ∀ r, s.pending.get? id = some r →
      ∀ r' ∈ (s.pending.erase id).values, r'.mask ≠ ∅ → ∀ f ∈ r.batch, f ∉ r'.moved
  | _ => True

instance (l : Label maxHarts) : Decidable (EditsInSync s l) := by
  unfold EditsInSync
  split
  · infer_instance
  · infer_instance
  · infer_instance

end CosmOS.Mm.Tlb
