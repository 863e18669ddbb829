import CosmOS.Mm.FrameAllocator
import CosmOS.ProbeTable

/-!
# The buddy heap of the kernel (os/src/mm/heap_allocator.rs)

`ReclaimingHeap` keeps free blocks of `2 ^ order` bytes on one list for each order.  The two link words
are the first two words of a block, so the model has them as `Cells` over block addresses, with the null
pointer for the end of a list.  A hash index of bounded size says which blocks are free; once an insertion
into it has failed, the heap searches the lists of the blocks that the index does not have.

`HeapSystem` adds the live blocks and the bytes that the heap has been given and has not released.
The counter `user`, which no function here reads, is left out, and so are the slab classes above.
-/

namespace CosmOS.Mm

open Buddy (trailingZeros)

def heapOrderCount : ℕ := 32

def minBuddyBlockSize : ℕ := 16

def minBuddyOrder : ℕ := 4

def freeIndexCapacity : ℕ := 65536

namespace FreeBlockIndex

def hash (key : ℕ) : ℕ :=
  let value := key >>> minBuddyOrder
  let value := value ^^^ value >>> 17
  let value := value ^^^ value >>> 9
  value &&& (freeIndexCapacity - 1)

/-- The index is probed from the hash of the address; an entry is an address and an order. -/
def hashEntry (entry : ℕ × ℕ) : ℕ := hash entry.1

end FreeBlockIndex

/-- The table of `FreeBlockIndex`, whose entries are addresses with orders. -/
abbrev FreeBlockIndex := ProbeTable (ℕ × ℕ)

namespace FreeBlockIndex

def empty : FreeBlockIndex := ⟨fun _ => .empty⟩

def insert (index : FreeBlockIndex) (key order : ℕ) : Bool × FreeBlockIndex :=
  ProbeTable.insert hashEntry freeIndexCapacity index (key, order)

def remove (index : FreeBlockIndex) (key order : ℕ) : Bool × FreeBlockIndex :=
  ProbeTable.remove hashEntry freeIndexCapacity index (key, order)

end FreeBlockIndex

inductive HeapFault where
  /-- an `assert!` or an `expect` fails -/
  | assertion
  /-- an order that has no list -/
  | outOfBounds
  /-- an address computation that overflows -/
  | overflow
  /-- a walk along a list that does not end -/
  | looping
deriving DecidableEq, Repr

structure ReclaimingHeap where
  freeList : ℕ → ℕ
  freeIndex : FreeBlockIndex
  freeIndexOverflow : Bool
  allocated : ℕ
  total : ℕ
  memory : Cells ℕ

namespace ReclaimingHeap

def empty (memory : Cells ℕ) : ReclaimingHeap where
  freeList := fun _ => 0
  freeIndex := FreeBlockIndex.empty
  freeIndexOverflow := false
  allocated := 0
  total := 0
  memory := memory

/-! ## Lists -/

variable (h : ReclaimingHeap) (order block : ℕ)

def listPush : ReclaimingHeap :=
  { h with
    memory := h.memory.push 0 (h.freeList order) block
    freeList := Function.update h.freeList order block }

def listRemove : ReclaimingHeap :=
  let (memory, head) := h.memory.unlink 0 (h.freeList order) block
  { h with memory := memory, freeList := Function.update h.freeList order head }

def pushFreeBlock : ReclaimingHeap :=
  let h := h.listPush order block
  let (inserted, index) := h.freeIndex.insert block order
  { h with freeIndex := index, freeIndexOverflow := if !inserted then true else h.freeIndexOverflow }

def popFreeBlock (order : ℕ) : Option (ℕ × ReclaimingHeap) :=
  let block := h.freeList order
  if block = 0 then none
  else
    let h := h.listRemove order block
    some (block, { h with freeIndex := (h.freeIndex.remove block order).2 })

/-- A list is never longer than the heap has bytes, and the search gets that many steps. -/
def removeFreeBlock :
    Except HeapFault (Bool × ReclaimingHeap) :=
  let (removed, index) := h.freeIndex.remove block order
  if removed then .ok (true, { h with freeIndex := index }.listRemove order block)
  else if h.freeIndexOverflow then
    match h.memory.locate 0 block (h.total + 1) 0 (h.freeList order) with
    | none => .error .looping
    | some none => .ok (false, h)
    | some (some _) => .ok (true, h.listRemove order block)
  else .ok (false, h)

/-! ## Adding memory -/

def alignUp (value : ℕ) : ℕ := (value + (minBuddyBlockSize - 1)) / minBuddyBlockSize * minBuddyBlockSize

def alignDown (value : ℕ) : ℕ := value / minBuddyBlockSize * minBuddyBlockSize

/-- The lowest set bit, `n & (!n + 1)`. -/
def lowbit (n : ℕ) : ℕ := if n = 0 then 0 else 2 ^ trailingZeros 64 n

def prevPowerOfTwo (n : ℕ) : ℕ := 2 ^ n.log2

/-- The loop of `add_to_heap`, which adds a block in each round. -/
def addBlocks : ℕ → ReclaimingHeap → ℕ → ℕ → ℕ → Except HeapFault (ReclaimingHeap × ℕ)
  | 0, h, _, _, total => .ok (h, total)
  | rounds + 1, h, current, stop, total =>
    if current + minBuddyBlockSize ≤ stop then
      let size := min (lowbit current) (prevPowerOfTwo (stop - current))
      if size < minBuddyBlockSize then .error .assertion
      else
        let order := trailingZeros 64 size
        if order ≥ heapOrderCount then .error .outOfBounds
        else addBlocks rounds (h.pushFreeBlock order current) (current + size) stop (total + size)
    else .ok (h, total)

def addToHeap (start stop : ℕ) : Except HeapFault ReclaimingHeap :=
  if start + (minBuddyBlockSize - 1) > usizeMax then .error .overflow
  else
    let start := alignUp start
    let stop := alignDown stop
    if start > stop then .error .assertion
    else
      match addBlocks (stop - start) h start stop 0 with
      | .error fault => .error fault
      | .ok (h, total) => .ok { h with total := h.total + total }

/-! ## Allocating -/

/-- The first order, from the given one on, whose list is not empty. -/
def sourceClass (h : ReclaimingHeap) : ℕ → ℕ → ℕ
  | 0, order => order
  | rounds + 1, order => if h.freeList order = 0 then h.sourceClass rounds (order + 1) else order

/-- Split one block of each order from `order + levels` down to `order + 1`. -/
def splitDown (order : ℕ) : ℕ → ReclaimingHeap → Bool × ReclaimingHeap
  | 0, h => (true, h)
  | levels + 1, h =>
    match h.popFreeBlock (order + levels + 1) with
    | none => (false, h)
    | some (block, h) =>
      splitDown order levels
        ((h.pushFreeBlock (order + levels) (block + 2 ^ (order + levels))).pushFreeBlock
          (order + levels) block)

/-- The address is `none` where the source returns `Err`. -/
def allocRounded (size : ℕ) : Except HeapFault (Option ℕ × ReclaimingHeap) :=
  let order := trailingZeros 64 size
  let source := h.sourceClass (heapOrderCount - order) order
  if source ≥ heapOrderCount then .ok (none, h)
  else
    match splitDown order (source - order) h with
    | (false, h) => .ok (none, h)
    | (true, h) =>
      match h.popFreeBlock order with
      | none => .error .assertion
      | some (block, h) => .ok (some block, { h with allocated := h.allocated + size })

/-! ## Deallocating -/

/-- The loop of `dealloc_rounded`.  `rounds` is `HEAP_ORDER_COUNT - 1` minus the order. -/
def coalesce : ℕ → ReclaimingHeap → ℕ → ℕ → Except HeapFault ReclaimingHeap
  | 0, h, _, _ => .ok h
  | rounds + 1, h, current, order =>
    let buddy := Buddy.buddy current order
    match h.removeFreeBlock order buddy with
    | .error fault => .error fault
    | .ok (false, h) => .ok h
    | .ok (true, h) =>
      match h.removeFreeBlock order current with
      | .error fault => .error fault
      | .ok (false, _) => .error .assertion
      | .ok (true, h) =>
        coalesce rounds (h.pushFreeBlock (order + 1) (min current buddy)) (min current buddy) (order + 1)

def deallocRounded (ptr size : ℕ) : Except HeapFault ReclaimingHeap :=
  let order := trailingZeros 64 size
  if order ≥ heapOrderCount then .error .outOfBounds
  else
    match coalesce (heapOrderCount - 1 - order) (h.pushFreeBlock order ptr) ptr order with
    | .error fault => .error fault
    | .ok h => .ok { h with allocated := h.allocated - size }

/-! ## Releasing -/

def nextPowerOfTwo (n : ℕ) : ℕ := if n ≤ 1 then 1 else 2 ^ ((n - 1).log2 + 1)

/-- The block ends where the range ends, and starts in the range at a page. -/
def isTail (rangeStart rangeEnd size block : ℕ) : Bool :=
  block ≥ rangeStart && min (block + size) usizeMax == rangeEnd && block % pageSize == 0

/-- The loop over the orders, from the largest one down. -/
def releaseFrom (minClass rangeStart rangeEnd : ℕ) :
    ℕ → ReclaimingHeap → Except HeapFault (Option (ℕ × ℕ) × ReclaimingHeap)
  | 0, h => .ok (none, h)
  | rounds + 1, h =>
    let order := minClass + rounds
    match h.memory.nodes 0 (h.total + 1) (h.freeList order) with
    | none => .error .looping
    | some blocks =>
      match blocks.find? (isTail rangeStart rangeEnd (2 ^ order)) with
      | none => releaseFrom minClass rangeStart rangeEnd rounds h
      | some block =>
        match h.removeFreeBlock order block with
        | .error fault => .error fault
        | .ok (false, _) => .error .assertion
        | .ok (true, h) => .ok (some (block, 2 ^ order), { h with total := h.total - 2 ^ order })

def releaseOneTailFreeBlock (minSize rangeStart rangeEnd : ℕ) :
    Except HeapFault (Option (ℕ × ℕ) × ReclaimingHeap) :=
  let minClass := trailingZeros 64 (nextPowerOfTwo minSize)
  releaseFrom minClass rangeStart rangeEnd (heapOrderCount - minClass) h

/-- The size of the block for an allocation: a power of two, at least the smallest block. -/
def roundedSize (size align : ℕ) : ℕ := max (nextPowerOfTwo size) (max align minBuddyBlockSize)

end ReclaimingHeap

/-- The heap, the live blocks, and the bytes that were added and not released since. -/
structure HeapSystem where
  heap : ReclaimingHeap
  live : List Block
  owned : ℕ → Bool

namespace HeapSystem

open ReclaimingHeap

inductive Label where
  | addToHeap (start stop : ℕ)
  /-- an allocation of `size` bytes, aligned to `2 ^ alignOrder` -/
  | alloc (size alignOrder : ℕ)
  | dealloc (b : Block)
  | release (minSize rangeStart rangeEnd : ℕ)
  /-- the holder of a block writes the two words at an address in it -/
  | store (addr first second : ℕ)

variable (s : HeapSystem) (start stop : ℕ)

/-- The bytes from `start` up to `stop` are not in the heap. -/
def Unowned : Prop :=
  ∀ i < stop - start, s.owned (start + i) = false

instance : Decidable (s.Unowned start stop) :=
  inferInstanceAs (Decidable (∀ i < stop - start, _))

def addToHeap : Option HeapSystem :=
  if s.Unowned (alignUp start) (alignDown stop) then
    match s.heap.addToHeap start stop with
    | .error _ => none
    | .ok heap =>
      some { s with
        heap := heap
        owned := fun x => s.owned x || (decide (alignUp start ≤ x) && decide (x < alignDown stop)) }
  else none

/-- Sizes and alignments are below `2 ^ 63`, as those of a `Layout` are. -/
def alloc (size alignOrder : ℕ) : Option HeapSystem :=
  if size < 2 ^ 63 ∧ alignOrder < 63 then
    match s.heap.allocRounded (roundedSize size (2 ^ alignOrder)) with
    | .error _ => none
    | .ok (none, heap) => some { s with heap := heap }
    | .ok (some block, heap) =>
      some { s with
        heap := heap
        live := ⟨block, trailingZeros 64 (roundedSize size (2 ^ alignOrder))⟩ :: s.live }
  else none

def dealloc (b : Block) : Except HeapFault HeapSystem :=
  match s.heap.deallocRounded b.base b.size with
  | .error fault => .error fault
  | .ok heap => .ok { s with heap := heap, live := s.live.erase b }

def release (minSize rangeStart rangeEnd : ℕ) : Option HeapSystem :=
  match s.heap.releaseOneTailFreeBlock minSize rangeStart rangeEnd with
  | .error _ => none
  | .ok (none, heap) => some { s with heap := heap }
  | .ok (some (start, size), heap) =>
    some { s with
      heap := heap
      owned := fun x => s.owned x && !(decide (start ≤ x) && decide (x < start + size)) }

def next : Label → Option HeapSystem
  | .addToHeap start stop => s.addToHeap start stop
  | .alloc size alignOrder => s.alloc size alignOrder
  | .dealloc b => if b ∈ s.live then (s.dealloc b).toOption else none
  | .release minSize rangeStart rangeEnd => s.release minSize rangeStart rangeEnd
  | .store addr first second =>
    if s.live.any fun b => b.Covers addr then
      some { s with heap := { s.heap with
        memory := (s.heap.memory.setNext addr first).setPrev addr second } }
    else none

def machine : Machine HeapSystem Label where
  Init := fun s => ∃ memory, s = ⟨.empty memory, [], fun _ => false⟩
  next := next

end HeapSystem

end CosmOS.Mm
