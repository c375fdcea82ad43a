/-
  Myos.Pmm.Buddy — the buddy allocator of physical pages (`kernel/pmm.c`,
  `include/pmm.h`).

  Page frames are numbered from `physMemStart`. `memMap` is the array of page
  descriptors; a free block hangs on the list of its order through the `node` of its
  first page (`links`). Numbers are machine words: `nrFree` is a u32, addresses and
  `refCount` are u64, and their arithmetic wraps.

  The loops over `mem_map` in `buddy_init` set every element of a range alike and are
  written as one map over the range (`forPages`, `initNodes`). `TOTAL_PAGES` is the
  failure value of `buddyAllocPfn`, 0 that of `allocPhysPages`.
-/

import Mathlib
import Myos.Lib.ListHead

namespace Myos.Pmm

open Myos.Lib.ListHead

def physMemStart : Nat := 0x40000000
def physMemEnd : Nat := 0x4FFFFFFF
def buddyMemEnd : Nat := 0x4FFFFFFF
def pageSize : Nat := 4096
def pageShift : Nat := 12
def totalPages : Nat := (physMemEnd - physMemStart + 1) >>> pageShift
def maxOrder : Nat := 10
def nrOrders : Nat := maxOrder + 1
def dmaZoneSize : Nat := 16 * 1024 * 1024
/-- `0xffff800000000000`, the base of the linear map. -/
def kernelSpaceStart : Nat := 0xffff800000000000

def gfpKernel : Nat := 1
def gfpDma : Nat := 4

def pgReserved : Nat := 1
def pgBuddy : Nat := 2
def pgAllocated : Nat := 4
def pgHead : Nat := 8

/-- u64 addition and subtraction. -/
def add64 (a b : Nat) : Nat := (a + b) % 2 ^ 64
def sub64 (a b : Nat) : Nat := (a + (2 ^ 64 - b)) % 2 ^ 64

structure Page where
  order : Nat
  flags : Nat
  refCount : Nat
  deriving DecidableEq, Repr

/-- The list nodes: the list head of each order and the node of each page. -/
inductive Node where
  | head (order : Nat)
  | page (pfn : Nat)
  deriving DecidableEq, Repr

inductive BuddyError where
  | ok
  | badOrder
  | noMemory
  | outOfRange
  | unaligned
  | notAllocated
  | doubleFree
  deriving DecidableEq, Repr

structure State where
  memMap : Nat → Page
  links : Links Node
  nrFree : Nat → Nat
  buddyMemStart : Nat
  dmaEndPfn : Nat
  lastError : BuddyError

/-! ## Addresses and page states -/

def pfnToPa (pfn : Nat) : Nat := physMemStart + (pfn <<< pageShift)
def paToPfn (pa : Nat) : Nat := sub64 pa physMemStart >>> pageShift

def paInRange (s : State) (pa : Nat) : Bool := s.buddyMemStart ≤ pa && pa ≤ buddyMemEnd
def validOrder (order : Nat) : Bool := order ≤ maxOrder
def pageAligned (pa : Nat) : Bool := pa &&& (pageSize - 1) == 0

def pageIsBuddy (p : Page) : Bool := p.flags &&& pgBuddy != 0
def pageIsAllocated (p : Page) : Bool := p.flags &&& pgAllocated != 0

def markPageBuddy (order : Nat) (p : Page) : Page := { p with flags := pgBuddy ||| pgHead, order := order }
def markPageAllocated (order : Nat) (p : Page) : Page := { p with flags := pgAllocated ||| pgHead, order := order }
def markPageReserved (p : Page) : Page := { p with flags := pgReserved, order := 0 }
def clearPageFlags (p : Page) : Page := { p with flags := 0, order := 0 }

def setPage (s : State) (pfn : Nat) (f : Page → Page) : State :=
  { s with memMap := Function.update s.memMap pfn (f (s.memMap pfn)) }

def setError (s : State) (e : BuddyError) : State := { s with lastError := e }

def buddyPfn (pfn order : Nat) : Nat := pfn ^^^ 2 ^ order
def pfnAlignedToOrder (pfn order : Nat) : Bool := pfn &&& (2 ^ order - 1) == 0

/-! ## Free areas -/

def addToFreeArea (s : State) (pfn order : Nat) : State :=
  let s := setPage s pfn (markPageBuddy order)
  { s with links := listAddTail s.links (.page pfn) (.head order),
           nrFree := Function.update s.nrFree order ((s.nrFree order + 1) % 2 ^ 32) }

def removeFromFreeArea (s : State) (pfn order : Nat) : State :=
  let s := { s with links := listDel s.links (.page pfn),
                    nrFree := Function.update s.nrFree order ((s.nrFree order + 2 ^ 32 - 1) % 2 ^ 32) }
  setPage s pfn clearPageFlags

/-- Halve the block at `pfn` until its order is `low`, freeing each right half. -/
def expandBlock (s : State) (pfn : Nat) : (high low : Nat) → State
  | 0, _ => s
  | newOrder + 1, low =>
    if newOrder + 1 > low then expandBlock (addToFreeArea s (pfn + 2 ^ newOrder) newOrder) pfn newOrder low else s

/-- The page a list node is embedded in (`container_of`). -/
def containerOf : Node → Nat
  | .page pfn => pfn
  | .head _ => 0

/-- One pass of the search over the orders `cur` still to try. -/
def buddyAllocFrom (s : State) (order : Nat) (dmaOnly : Bool) : List Nat → State × Nat
  | [] => (s, totalPages)
  | cur :: rest =>
    if listEmpty s.links (.head cur) then buddyAllocFrom s order dmaOnly rest
    else
      let pfn := containerOf (s.links.next (.head cur))
      if dmaOnly && s.dmaEndPfn ≤ pfn then buddyAllocFrom s order dmaOnly rest
      else (expandBlock (removeFromFreeArea s pfn cur) pfn cur order, pfn)

def buddyAllocPfn (s : State) (order : Nat) (dmaOnly : Bool) : State × Nat :=
  buddyAllocFrom s order dmaOnly (List.range' order (maxOrder + 1 - order))

/-- Merge the block at `pfn` with its buddy while that is free at the same order;
    `fuel` is the number of orders left below `maxOrder`. -/
def buddyMergeFrom (s : State) (pfn order : Nat) : (fuel : Nat) → State × Nat × Nat
  | 0 => (s, pfn, order)
  | fuel + 1 =>
    let bpfn := buddyPfn pfn order
    if bpfn ≥ totalPages then (s, pfn, order)
    else if !pageIsBuddy (s.memMap bpfn) then (s, pfn, order)
    else if (s.memMap bpfn).order ≠ order then (s, pfn, order)
    else buddyMergeFrom (removeFromFreeArea s bpfn order) (if bpfn < pfn then bpfn else pfn) (order + 1) fuel

def buddyMergePfn (s : State) (pfn order : Nat) : State × Nat × Nat := buddyMergeFrom s pfn order (maxOrder - order)

/-! ## Initialisation -/

/-- The largest order at most `order` whose block at `pfn` is aligned and fits. -/
def pickOrder (pfn remain : Nat) : (order : Nat) → Nat
  | 0 => 0
  | order + 1 =>
    if 2 ^ (order + 1) ≤ remain && pfnAlignedToOrder pfn (order + 1) then order + 1 else pickOrder pfn remain order

def forPages (m : Nat → Page) (lo hi : Nat) (f : Page → Page) : Nat → Page :=
  fun i => if lo ≤ i ∧ i < hi then f (m i) else m i

def initNodes (l : Links Node) (sel : Node → Bool) : Links Node :=
  { next := fun n => if sel n then n else l.next n, prev := fun n => if sel n then n else l.prev n }

/-- One block of the seeding loop. -/
def seedBlock (s : State) (pfn order : Nat) : State :=
  let s := addToFreeArea (setPage s pfn clearPageFlags) pfn order
  { s with memMap := forPages s.memMap (pfn + 1) (pfn + 2 ^ order) clearPageFlags }

/-- Cut `[pfn, pfn + remain)` into free blocks; every turn takes at least one page. -/
def seedBlocks (s : State) (pfn remain : Nat) : (fuel : Nat) → State
  | 0 => s
  | fuel + 1 =>
    if remain = 0 then s
    else
      let order := pickOrder pfn remain maxOrder
      seedBlocks (seedBlock s pfn order) (pfn + 2 ^ order) (remain - 2 ^ order) fuel

/-- `ALIGN((phys_addr_t)kernel_end - 0xffff800000000000, PAGE_SIZE)`. -/
def alignedStart (kernelEnd : Nat) : Nat :=
  let x := add64 (sub64 kernelEnd kernelSpaceStart) (pageSize - 1)
  x - x % pageSize

/-- The state before seeding: empty lists, every managed page reserved. -/
def initState (s : State) (start : Nat) : State :=
  let dmaEndPa := if start + dmaZoneSize > buddyMemEnd then buddyMemEnd else start + dmaZoneSize
  let kernelPages := paToPfn start
  let buddyTotal := (buddyMemEnd - start + 1) >>> pageShift
  let cleared := forPages s.memMap 0 totalPages fun p => { p with order := 0, flags := 0 }
  let reserved := forPages cleared 0 kernelPages markPageReserved
  { memMap := forPages reserved kernelPages (kernelPages + buddyTotal) markPageReserved
    links := initNodes s.links fun n => match n with
      | .head i => i < nrOrders
      | .page i => i < totalPages
    nrFree := fun i => if i < nrOrders then 0 else s.nrFree i
    buddyMemStart := start
    dmaEndPfn := paToPfn dmaEndPa
    lastError := .ok }

def buddyInit (s : State) (kernelEnd : Nat) : State :=
  let start := alignedStart kernelEnd
  let remain := (buddyMemEnd - start + 1) >>> pageShift
  seedBlocks (initState s start) (paToPfn start) remain remain

/-! ## Allocation and release -/

def allocPhysPages (s : State) (order flags : Nat) : State × Nat :=
  if !validOrder order then (setError s .badOrder, 0)
  else
    let (s, pfn) := buddyAllocPfn s order (flags &&& gfpDma != 0)
    if pfn ≥ totalPages then (setError s .noMemory, 0)
    else
      let s := setPage s pfn fun p => { markPageAllocated order p with refCount := 1 }
      (setError s .ok, pfnToPa pfn)

def freePhysPages (s : State) (pa order : Nat) : State :=
  if !validOrder order then setError s .badOrder
  else if !paInRange s pa then setError s .outOfRange
  else if !pageAligned pa then setError s .unaligned
  else
    let pfn := paToPfn pa
    if !pfnAlignedToOrder pfn order then setError s .unaligned
    else if pfn ≥ totalPages then setError s .outOfRange
    else
      let page := s.memMap pfn
      if !pageIsAllocated page || page.flags &&& pgHead == 0 then
        setError s (if pageIsBuddy page then .doubleFree else .notAllocated)
      else if page.order ≠ order then setError s .badOrder
      else
        let s := setPage s pfn clearPageFlags
        let (s, pfn, order) := buddyMergePfn s pfn order
        setError (addToFreeArea s pfn order) .ok

def getPage (s : State) (pa : Nat) : State :=
  let pfn := paToPfn pa
  if pfn ≥ totalPages then s else setPage s pfn fun p => { p with refCount := add64 p.refCount 1 }

def putPage (s : State) (pa : Nat) : State :=
  let pfn := paToPfn pa
  if pfn ≥ totalPages then s
  else if (s.memMap pfn).refCount = 0 then s
  else
    let s := setPage s pfn fun p => { p with refCount := p.refCount - 1 }
    if (s.memMap pfn).refCount = 0 then freePhysPages s pa 0 else s

/-! ## Runs -/

inductive Call where
  | alloc (order flags : Nat)
  | free (pa order : Nat)
  deriving DecidableEq, Repr

def step (s : State) : Call → State
  | .alloc order flags => (allocPhysPages s order flags).1
  | .free pa order => freePhysPages s pa order

/-- The allocator's variables before `buddy_init` runs (`.bss`). -/
def bssState : State := ⟨fun _ => ⟨0, 0, 0⟩, ⟨id, id⟩, fun _ => 0, 0, 0, .ok⟩

/-- The states reached from `buddyInit` with the kernel image ending at `kernelEnd`,
    whatever the memory held before. -/
inductive Reach (kernelEnd : Nat) : State → Prop
  | init (s : State) : Reach kernelEnd (buddyInit s kernelEnd)
  | step {s : State} (c : Call) : Reach kernelEnd s → Reach kernelEnd (step s c)

end Myos.Pmm
