import CosmOS.Mm.ReclaimingHeapRuns

/-!
# The virtual window of the kernel heap (os/src/mm/heap_allocator.rs)

`grow_virtual` reserves a range at the top of the window, maps it and adds it to the heap;
`reclaim_free_pages_if_needed` takes a free block off the top, unmaps it and lowers the top again.  Every
section under a lock is one step, and so is every atomic access outside of one; between the steps of a
call any other call may run.

A call in progress is a `Call`; calls have no identity, so the state has them as a list of which any
element may move.  Addresses are those of the RISC-V platform, the only one that enables the window.
`map_heap_pages` maps all pages or, when it meets a valid entry or runs out of frames, none: what it had
mapped is rolled back in the same section.
-/

namespace CosmOS.Mm

open ReclaimingHeap

def kernelHeapBase : ℕ := 0xffffffc000000000

def maxKernelHeapSize : ℕ := 0x40000000

def kernelHeapGrowSize : ℕ := 64 * pageSize

def kernelHeapReclaimStartFree : ℕ := 8 * 1024 * 1024

def kernelHeapReclaimTargetFree : ℕ := 4 * 1024 * 1024

def kernelHeapReclaimMaxPagesPerCall : ℕ := 4096

def kernelHeapUnmapBatchPages : ℕ := 256

namespace HeapWindow

/-- Where a call of `grow_virtual` or `reclaim_free_pages_if_needed` stands. -/
inductive Call where
  /-- grow: the range is reserved, to be mapped -/
  | reserved (offset bytes : ℕ)
  /-- grow: the mapping failed, the reservation is to be rolled back -/
  | rollingBack (offset bytes : ℕ)
  /-- grow: the range is mapped, to be added to the heap -/
  | adding (offset bytes : ℕ)
  /-- reclaim: at the head of the loop -/
  | looking (reclaimedPages : ℕ)
  /-- reclaim: the block at `start` is popped, its first `done` pages are unmapped -/
  | unmapping (start bytes virtualBytes reclaimedPages done : ℕ)
  /-- reclaim: the block is unmapped, the top is to be compared with the snapshot -/
  | retracting (start bytes virtualBytes reclaimedPages : ℕ)
  /-- reclaim: `KERNEL_HEAP_BYTES` is to be lowered -/
  | subtracting (bytes reclaimedPages : ℕ)
  /-- reclaim: the free bytes are to be compared with the target -/
  | checking (reclaimedPages : ℕ)
deriving DecidableEq, Repr

structure State where
  system : HeapSystem
  /-- `KERNEL_HEAP_VIRTUAL_BYTES` -/
  virtualBytes : ℕ
  /-- `KERNEL_HEAP_BYTES` -/
  heapBytes : ℕ
  /-- the pages with a valid leaf entry -/
  mapped : ℕ → Bool
  calls : List Call
  /-- what `KERNEL_HEAP_BYTES` was when the window was enabled -/
  bootstrapBytes : ℕ

/-! ## Reservations -/

def checkedAdd (a b : ℕ) : Option ℕ := if a + b ≤ usizeMax then some (a + b) else none

def alignUpToPage (value : ℕ) : Option ℕ :=
  (checkedAdd value (pageSize - 1)).map fun value => value / pageSize * pageSize

def alignUp (value align : ℕ) : Option ℕ :=
  if align = 0 then none
  else (checkedAdd value (align - 1)).map fun value => value &&& (usizeMax - (align - 1))

/-- The new top of the window for a request. -/
def newUsed (used required : ℕ) : Option ℕ := do
  let required ← alignUpToPage required
  let alignedBlockEnd ← checkedAdd (← alignUp used required) required
  let normalGrowEnd ← checkedAdd used (max kernelHeapGrowSize required)
  if max alignedBlockEnd normalGrowEnd > maxKernelHeapSize then none
  else some (max alignedBlockEnd normalGrowEnd)

def freeActualBytes (h : ReclaimingHeap) : ℕ := h.total - h.allocated

namespace State

variable (s : State)

/-- The first section of `grow_virtual`.  A request that does not fit changes nothing. -/
def growVirtual (required : ℕ) : State :=
  match newUsed s.virtualBytes required with
  | none => s
  | some used =>
    { s with
      virtualBytes := used
      heapBytes := s.heapBytes + (used - s.virtualBytes)
      calls := .reserved s.virtualBytes (used - s.virtualBytes) :: s.calls }

/-- Some page of the range has a valid entry. -/
def AnyMapped (start pages : ℕ) : Prop :=
  ∃ i < pages, s.mapped (start / pageSize + i) = true

instance (start pages : ℕ) : Decidable (s.AnyMapped start pages) :=
  decidable_of_iff ((List.range pages).any fun i => s.mapped (start / pageSize + i)) (by simp [AnyMapped])

/-- `map_heap_pages`, with the number of frames that are left. -/
def mapHeapPages (start pages frames : ℕ) : Option State :=
  if s.AnyMapped start pages ∨ frames < pages then none
  else some { s with
    mapped := fun p => s.mapped p ||
      (decide (start / pageSize ≤ p) && decide (p < start / pageSize + pages)) }

def unmapBatch (start first last : ℕ) : State :=
  { s with
    mapped := fun p => s.mapped p &&
      !(decide (start / pageSize + first ≤ p) && decide (p < start / pageSize + last)) }

def rollbackVirtualHeapReservation (offset bytes : ℕ) : State :=
  { s with
    virtualBytes := if s.virtualBytes = offset + bytes then offset else s.virtualBytes
    heapBytes := s.heapBytes - bytes }

def addToHeap (offset bytes : ℕ) : Option State :=
  let start := kernelHeapBase + offset
  match s.system.heap.addToHeap start (start + bytes) with
  | .error _ => none
  | .ok heap =>
    some { s with system := { s.system with
      heap := heap
      owned := fun x => s.system.owned x || (decide (start ≤ x) && decide (x < start + bytes)) } }

/-- Pop the block at the top, if there is one and enough bytes are free. -/
def popTail : Option (Option (ℕ × ℕ) × State) :=
  if freeActualBytes s.system.heap ≤ kernelHeapReclaimStartFree then some (none, s)
  else
    match s.system.heap.releaseOneTailFreeBlock pageSize kernelHeapBase
        (kernelHeapBase + s.virtualBytes) with
    | .error _ => none
    | .ok (none, heap) => some (none, { s with system := { s.system with heap := heap } })
    | .ok (some (start, bytes), heap) =>
      some (some (start, bytes), { s with system := { s.system with
        heap := heap
        owned := fun x => s.system.owned x && !(decide (start ≤ x) && decide (x < start + bytes)) } })

def retract (bytes virtualBytes : ℕ) : State :=
  { s with virtualBytes :=
      if s.virtualBytes = virtualBytes then virtualBytes - bytes else s.virtualBytes }

def replace (c : Call) (cs : List Call) : State :=
  { s with calls := cs ++ s.calls.erase c }

def step (c : Call) (frames : ℕ) : Option State :=
  match c with
  | .reserved offset bytes =>
    match s.mapHeapPages (kernelHeapBase + offset) (bytes / pageSize) frames with
    | none => some (s.replace c [.rollingBack offset bytes])
    | some s' => some (s'.replace c [.adding offset bytes])
  | .rollingBack offset bytes =>
    some ((s.rollbackVirtualHeapReservation offset bytes).replace c [])
  | .adding offset bytes => (s.addToHeap offset bytes).map fun s' => s'.replace c []
  | .looking reclaimed =>
    if reclaimed ≥ kernelHeapReclaimMaxPagesPerCall then some (s.replace c [])
    else
      match s.popTail with
      | none => none
      | some (none, s') => some (s'.replace c [])
      | some (some (start, bytes), s') =>
        some (s'.replace c [.unmapping start bytes s.virtualBytes reclaimed 0])
  | .unmapping start bytes virtualBytes reclaimed done =>
    if done < bytes / pageSize then
      let last := min (done + kernelHeapUnmapBatchPages) (bytes / pageSize)
      some ((s.unmapBatch start done last).replace c
        [.unmapping start bytes virtualBytes reclaimed last])
    else some (s.replace c [.retracting start bytes virtualBytes (reclaimed + bytes / pageSize)])
  | .retracting _ bytes virtualBytes reclaimed =>
    some ((s.retract bytes virtualBytes).replace c [.subtracting bytes reclaimed])
  | .subtracting bytes reclaimed =>
    some ({ s with heapBytes := s.heapBytes - bytes }.replace c [.checking reclaimed])
  | .checking reclaimed =>
    if freeActualBytes s.system.heap ≤ kernelHeapReclaimTargetFree then some (s.replace c [])
    else some (s.replace c [.looking reclaimed])

end State

inductive Label where
  | growVirtual (required : ℕ)
  | reclaim
  | step (c : Call) (frames : ℕ)
  /-- an allocation, a deallocation or a store by some other code -/
  | heap (l : HeapSystem.Label)

def next (s : State) : Label → Option State
  | .growVirtual required => some (s.growVirtual required)
  | .reclaim => some { s with calls := .looking 0 :: s.calls }
  | .step c frames => if c ∈ s.calls then s.step c frames else none
  | .heap l =>
    match l with
    | .alloc .. | .dealloc .. | .store .. => (s.system.next l).map fun system => { s with system := system }
    | .addToHeap .. | .release .. => none

/-- The window is empty, and the heap has only what lies outside of it. -/
def Init (s : State) : Prop :=
  HeapSystem.machine.Reachable s.system ∧
    (∀ x, kernelHeapBase ≤ x → x < kernelHeapBase + maxKernelHeapSize → s.system.owned x = false) ∧
    s.virtualBytes = 0 ∧ s.heapBytes = s.bootstrapBytes ∧ (∀ p, s.mapped p = false) ∧ s.calls = []

def machine : Machine State Label where
  Init := Init
  next := next

end HeapWindow

end CosmOS.Mm
