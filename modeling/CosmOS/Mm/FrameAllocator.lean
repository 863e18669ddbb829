import CosmOS.Buddy
import CosmOS.IntrusiveList
import CosmOS.Machine
import CosmOS.Mm.FreeBlockBitmap

/-!
# The physical frame allocator (os/src/mm/frame_allocator.rs, os/src/bootinfo.rs)

`BuddyFrameAllocator` keeps the free page frames of a machine in blocks of `2 ^ order` pages, on one
list for each order.  The links of a list are the first two words of the first page of a block, so that
the model has them as `Cells` over page numbers, with `usize::MAX` for the end of a list.

The regions come from the firmware: RAM minus reserved ranges (`forEachUsableMemoryRegion`), rounded
inwards to pages and cut by the kernel image (`addUsableRegion`).  `FrameSystem` adds the blocks that
are handed out, and `machine` runs allocations, deallocations and stores to allocated pages.

Addresses are below `2 ^ 64` and page numbers below `2 ^ 52`, so no sum here wraps around.
-/

namespace CosmOS.Mm

open Buddy (trailingZeros)

/-! ## Usable memory (bootinfo.rs) -/

def usizeMax : ℕ := 2 ^ 64 - 1

def pageSize : ℕ := 4096

def maxReservedRegions : ℕ := 16

structure PhysMemoryRegion where
  start : ℕ
  stop : ℕ
  stop_le : stop ≤ usizeMax

namespace PhysMemoryRegion

def isEmpty (r : PhysMemoryRegion) : Bool := r.start ≥ r.stop

end PhysMemoryRegion

structure BootInfo where
  memoryRegions : List PhysMemoryRegion
  reservedRegions : List PhysMemoryRegion

def pushTempRegion (region : PhysMemoryRegion) (out : List PhysMemoryRegion) :
    List PhysMemoryRegion :=
  if region.isEmpty || out.length ≥ maxReservedRegions + 1 then out else out ++ [region]

def subtractRegion (region reserved : PhysMemoryRegion) (out : List PhysMemoryRegion) :
    List PhysMemoryRegion :=
  let overlapStart := max region.start reserved.start
  let overlapEnd := min region.stop reserved.stop
  if h : overlapStart ≥ overlapEnd then pushTempRegion region out
  else
    have hle : overlapStart ≤ usizeMax :=
      (Nat.le_of_not_ge h).trans ((Nat.min_le_left _ _).trans region.stop_le)
    pushTempRegion ⟨overlapEnd, region.stop, region.stop_le⟩
      (pushTempRegion ⟨region.start, overlapStart, hle⟩ out)

/-- The ranges of RAM that are left when the reserved ranges are taken out, in the order in which they
are visited. -/
def BootInfo.forEachUsableMemoryRegion (info : BootInfo) : List PhysMemoryRegion :=
  info.memoryRegions.flatMap fun region =>
    (info.reservedRegions.foldl (fun fragments reserved =>
      fragments.foldl (fun next fragment => subtractRegion fragment reserved next) [])
      [region]).filter fun fragment => !fragment.isEmpty

/-! ## The allocator -/

def invalidPpn : ℕ := usizeMax

def maxManagedRegions : ℕ := 16

/-- The span that the arrays of the bitmap are made for: `MEMORY_END` in pages. -/
def maxBitmapPages : ℕ := 0x180000000 / pageSize

structure PpnRegion where
  start : ℕ
  stop : ℕ
deriving DecidableEq, Repr

def PpnRegion.Contains (r : PpnRegion) (ppn : ℕ) : Prop := r.start ≤ ppn ∧ ppn < r.stop

def floorLog2 (n : ℕ) : ℕ := n.log2

def physAddrFloorPpn (pa : ℕ) : ℕ := pa / pageSize

def physAddrCeilPpn (pa : ℕ) : ℕ := min (pa + (pageSize - 1)) usizeMax / pageSize

/-- Why an operation does not return. -/
inductive Fault where
  /-- the panic `has not been allocated` -/
  | notAllocated
  /-- a walk along a list that does not end -/
  | looping
deriving DecidableEq, Repr

/-- The fields of `BuddyFrameAllocator`, and the first two words of every page. -/
structure BuddyFrameAllocator where
  start : ℕ
  stop : ℕ
  regions : List PpnRegion
  freeList : ℕ → Option ℕ
  freeBitmap : FreeBlockBitmap
  freePages : ℕ
  allocatedPages : ℕ
  pages : Cells ℕ

namespace BuddyFrameAllocator

variable (a : BuddyFrameAllocator) (start stop : ℕ)

def addManagedRange : BuddyFrameAllocator :=
  if start ≥ stop || a.regions.length ≥ maxManagedRegions then a
  else { a with
    regions := a.regions ++ [⟨start, stop⟩]
    start := min a.start start
    stop := max a.stop stop }

def addUsableRegion (region : PhysMemoryRegion)
    (kernelStart kernelEnd : ℕ) : BuddyFrameAllocator :=
  let start := physAddrCeilPpn region.start
  let stop := physAddrFloorPpn region.stop
  if start ≥ stop then a
  else if kernelStart < kernelEnd then
    (a.addManagedRange start (min stop kernelStart)).addManagedRange (max start kernelEnd) stop
  else a.addManagedRange start stop

def isManagedRange (ppn pages : ℕ) : Bool :=
  a.regions.any fun region =>
    decide (ppn ≥ region.start) && decide (min (ppn + pages) usizeMax ≤ region.stop)

variable (ppn : ℕ)

def setNext (next : Option ℕ) : BuddyFrameAllocator :=
  { a with pages := a.pages.setNext ppn (next.getD invalidPpn) }

def setPrevious (previous : Option ℕ) : BuddyFrameAllocator :=
  { a with pages := a.pages.setPrev ppn (previous.getD invalidPpn) }

def next : Option ℕ :=
  if a.pages.next ppn = invalidPpn then none else some (a.pages.next ppn)

def previous : Option ℕ :=
  if a.pages.prev ppn = invalidPpn then none else some (a.pages.prev ppn)

def setHead (order : ℕ) (head : Option ℕ) : BuddyFrameAllocator :=
  { a with freeList := Function.update a.freeList order head }

def pushBlock (order ppn : ℕ) : BuddyFrameAllocator :=
  let a := a.setNext ppn (a.freeList order)
  let a := a.setPrevious ppn none
  let a := match a.freeList order with
    | some head => a.setPrevious head (some ppn)
    | none => a
  let a := a.setHead order (some ppn)
  { a with freeBitmap := a.freeBitmap.set order ppn }

def popBlock (order : ℕ) : Option (ℕ × BuddyFrameAllocator) :=
  match a.freeList order with
  | none => none
  | some ppn =>
    let next := a.next ppn
    let a := a.setHead order next
    let a := match next with
      | some next => a.setPrevious next none
      | none => a
    let a := (a.setNext ppn none).setPrevious ppn none
    some (ppn, { a with freeBitmap := a.freeBitmap.clear order ppn })

/-- What `remove_block` does with the block it has found behind `previous`. -/
def unlinkBlock (order target : ℕ) (previous : Option ℕ) :
    BuddyFrameAllocator :=
  let next := a.next target
  let a := match previous with
    | some previous => a.setNext previous next
    | none => a.setHead order next
  let a := match next with
    | some next => a.setPrevious next previous
    | none => a
  (a.setNext target none).setPrevious target none

/-- The bitmap says whether the block is on the list; without it the list is searched.  A list is never
longer than there are free pages, and the search gets that many steps. -/
def removeBlock (order target : ℕ) :
    Except Fault (Bool × BuddyFrameAllocator) :=
  if a.freeBitmap.enabled then
    if !a.freeBitmap.isSet order target then .ok (false, a)
    else
      let a := a.unlinkBlock order target (a.previous target)
      .ok (true, { a with freeBitmap := a.freeBitmap.clear order target })
  else
    match a.pages.locate invalidPpn target (a.freePages + 1) invalidPpn
        ((a.freeList order).getD invalidPpn) with
    | none => .error .looping
    | some none => .ok (false, a)
    | some (some previous) =>
      .ok (true, a.unlinkBlock order target (if previous = invalidPpn then none else some previous))

/-- The inner loop of `add_range`: lower the order until the block fits. -/
def fitOrder (start stop : ℕ) : ℕ → ℕ
  | 0 => 0
  | order + 1 => if start + 2 ^ (order + 1) > stop then fitOrder start stop order else order + 1

def rangeOrder : ℕ :=
  let remaining := stop - start
  let lowbitOrder := if start = 0 then maxOrder - 1 else min (trailingZeros 64 start) (maxOrder - 1)
  fitOrder start stop (min (min (floorLog2 remaining) lowbitOrder) (maxOrder - 1))

/-- The loop of `add_range`.  Each round adds at least one page, so the number of pages bounds it. -/
def addRangeLoop : ℕ → BuddyFrameAllocator → ℕ → ℕ → BuddyFrameAllocator
  | 0, a, _, _ => a
  | rounds + 1, a, start, stop =>
    if start < stop then
      let order := rangeOrder start stop
      let a := a.pushBlock order start
      addRangeLoop rounds { a with freePages := a.freePages + 2 ^ order } (start + 2 ^ order) stop
    else a

def addRange : BuddyFrameAllocator :=
  addRangeLoop (stop - start) a start stop

/-- The first order, from the given one on, whose list is not empty. -/
def sourceOrder (a : BuddyFrameAllocator) : ℕ → ℕ → ℕ
  | 0, order => order
  | rounds + 1, order =>
    if (a.freeList order).isNone then a.sourceOrder rounds (order + 1) else order

/-- Give back the upper halves of a block of order `order + levels`, down to order `order`. -/
def splitBlock (ppn order : ℕ) : ℕ → BuddyFrameAllocator → BuddyFrameAllocator
  | 0, a => a
  | levels + 1, a =>
    splitBlock ppn order levels (a.pushBlock (order + levels) (ppn + 2 ^ (order + levels)))

def allocOrder (order : ℕ) : Option (ℕ × BuddyFrameAllocator) :=
  if order ≥ maxOrder then none
  else
    let source := a.sourceOrder (maxOrder - order) order
    if source = maxOrder then none
    else
      match a.popBlock source with
      | none => none
      | some (ppn, a) =>
        let a := splitBlock ppn order (source - order) a
        some (ppn, { a with
          freePages := a.freePages - 2 ^ order
          allocatedPages := a.allocatedPages + 2 ^ order })

/-- The loop of `dealloc_order`: merge with free buddies.  `rounds` is `MAX_ORDER - 1` minus the
order. -/
def mergeBlock : ℕ → BuddyFrameAllocator → ℕ → ℕ → Except Fault (BuddyFrameAllocator × ℕ × ℕ)
  | 0, a, ppn, order => .ok (a, ppn, order)
  | rounds + 1, a, ppn, order =>
    let buddy := Buddy.buddy ppn order
    if !a.isManagedRange buddy (2 ^ order) then .ok (a, ppn, order)
    else
      match a.removeBlock order buddy with
      | .error fault => .error fault
      | .ok (false, a) => .ok (a, ppn, order)
      | .ok (true, a) => mergeBlock rounds a (min ppn buddy) (order + 1)

def deallocOrder (ppn order : ℕ) : Except Fault BuddyFrameAllocator :=
  if order ≥ maxOrder then .error .notAllocated
  else if !a.isManagedRange ppn (2 ^ order) || ppn % 2 ^ order != 0 then .error .notAllocated
  else
    match mergeBlock (maxOrder - 1 - order) a ppn order with
    | .error fault => .error fault
    | .ok (a, ppn, current) =>
      let a := a.pushBlock current ppn
      .ok { a with
        freePages := a.freePages + 2 ^ order
        allocatedPages := a.allocatedPages - 2 ^ order }

def reset (pages : Cells ℕ) : BuddyFrameAllocator where
  start := usizeMax
  stop := 0
  regions := []
  freeList := fun _ => none
  freeBitmap := FreeBlockBitmap.empty
  freePages := 0
  allocatedPages := 0
  pages := pages

/-- The regions that are managed, before any block is made. -/
def manage (pages : Cells ℕ) (info : BootInfo) (kernelStart kernelEnd : ℕ) : BuddyFrameAllocator :=
  info.forEachUsableMemoryRegion.foldl
    (fun a region => a.addUsableRegion region kernelStart kernelEnd) (reset pages)

/-- The bound on the span of the bitmap is a parameter. -/
def initFromBootinfo (maxPages : ℕ) (pages : Cells ℕ) (info : BootInfo)
    (kernelStart kernelEnd : ℕ) : BuddyFrameAllocator :=
  let a := manage pages info kernelStart kernelEnd
  let a := { a with freeBitmap := FreeBlockBitmap.reset maxPages a.start a.stop }
  a.regions.foldl (fun a region => a.addRange region.start region.stop) a

/-- A page of some managed region. -/
def Managed : Prop := ∃ r ∈ a.regions, r.Contains ppn

end BuddyFrameAllocator

/-- The allocator and the blocks that are handed out. -/
structure FrameSystem where
  allocator : BuddyFrameAllocator
  outstanding : List Block

namespace FrameSystem

inductive Label where
  | allocOrder (order : ℕ)
  | deallocOrder (b : Block)
  | frameAllocContiguous (pages alignPages : ℕ)
  /-- the holder of a page writes its first two words -/
  | store (ppn first second : ℕ)

def isPowerOfTwo (n : ℕ) : Bool := n = 2 ^ n.log2

variable (s : FrameSystem)

def allocOrder (order : ℕ) : Option ℕ × FrameSystem :=
  match s.allocator.allocOrder order with
  | none => (none, s)
  | some (ppn, a) => (some ppn, ⟨a, ⟨ppn, order⟩ :: s.outstanding⟩)

def deallocOrder (b : Block) : Except Fault FrameSystem :=
  match s.allocator.deallocOrder b.base b.order with
  | .error fault => .error fault
  | .ok a => .ok ⟨a, s.outstanding.erase b⟩

/-- A block that does not have the alignment asked for is given back at once. -/
def frameAllocContiguous (pages alignPages : ℕ) :
    Except Fault (Option ℕ × FrameSystem) :=
  if pages = 0 || alignPages = 0 || !isPowerOfTwo pages || !isPowerOfTwo alignPages then
    .ok (none, s)
  else
    let order := trailingZeros 64 pages
    match s.allocOrder order with
    | (none, s) => .ok (none, s)
    | (some start, s) =>
      if start % alignPages != 0 then
        match s.deallocOrder ⟨start, order⟩ with
        | .error fault => .error fault
        | .ok s => .ok (none, s)
      else .ok (some start, s)

def next : Label → Option FrameSystem
  | .allocOrder order => some (s.allocOrder order).2
  | .deallocOrder b => if b ∈ s.outstanding then (s.deallocOrder b).toOption else none
  | .frameAllocContiguous pages alignPages =>
    (s.frameAllocContiguous pages alignPages).toOption.map Prod.snd
  | .store ppn first second =>
    if s.outstanding.any fun b => b.Covers ppn then
      some { s with allocator := { s.allocator with
        pages := (s.allocator.pages.setNext ppn first).setPrev ppn second } }
    else none

/-- No page is in two managed regions. -/
def DisjointRegions (regions : List PpnRegion) : Prop :=
  regions.Pairwise fun r r' => ∀ ppn, r.Contains ppn → ¬ r'.Contains ppn

/-- The state after `init_from_bootinfo`, over any content of the pages. -/
def Init : Prop :=
  ∃ maxPages pages info kernelStart kernelEnd,
    s.allocator = .initFromBootinfo maxPages pages info kernelStart kernelEnd ∧
      DisjointRegions s.allocator.regions ∧ s.outstanding = []

def machine : Machine FrameSystem Label where
  Init := Init
  next := next

end FrameSystem

end CosmOS.Mm
