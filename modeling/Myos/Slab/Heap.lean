/-
  Myos.Slab.Heap — the kernel heap over the buddy allocator (kernel/slab.c).

  A descriptor that is not `used` is zero and stands as `none`; the `partial` list of a cache is
  the list of its descriptors' numbers. `mem` is the word at an address: the first word of a
  free object links it to the next one, and a live object has what its owner stored there. The
  free list ends with 0.
-/

import Mathlib
import Myos.Lib.Chain
import Myos.Pmm.Coalescing

namespace Myos.Slab

open Lib Pmm

def slabCacheCount : Nat := 11
def maxSlabPages : Nat := 4096
def maxLargeAllocs : Nat := 2048
def sz8K : Nat := 8 * 1024
def sz4M : Nat := 4 * 1024 * 1024

def slabSizes : List Nat := [8, 16, 32, 64, 128, 256, 512, 1024, 2048, 4096, 8192]

def slabSize (c : Nat) : Nat := slabSizes.getD c 0

structure SlabPage where
  cache : Nat
  pa : Nat
  va : Nat
  order : Nat
  objSize : Nat
  capacity : Nat
  inuse : Nat
  freelist : Nat
  deriving DecidableEq, Repr

structure LargeAlloc where
  va : Nat
  pa : Nat
  size : Nat
  order : Nat
  deriving DecidableEq, Repr

structure Heap where
  linearMapBase : Nat
  slabPages : Nat → Option SlabPage
  largeAllocs : Nat → Option LargeAlloc
  partialOf : Nat → List Nat
  mem : Nat → Nat
  buddy : Pmm.State

/-! ## Sizes -/

/-- `while ((1 << order) < pages) order++`; more rounds than `pages` are never made. -/
def orderLoop (pages : Nat) : Nat → Nat → Nat
  | 0, order => order
  | n + 1, order => if 2 ^ order < pages then orderLoop pages n (order + 1) else order

def orderFor (pages : Nat) : Nat := orderLoop pages pages 0

def slabOrderForSize (objSize : Nat) : Nat := orderFor ((objSize + pageSize - 1) / pageSize)

def getOrderUl (size : Nat) : Nat := if size = 0 then 0 else orderFor ((size + pageSize - 1) >>> pageShift)

def findSlabCache (size : Nat) : Option Nat := (List.range slabCacheCount).find? fun c => size ≤ slabSize c

/-! ## Descriptors -/

def SlabPage.span (sp : SlabPage) : Nat := pageSize * 2 ^ sp.order

/-- `start <= addr < end`. -/
def SlabPage.Has (sp : SlabPage) (a : Nat) : Prop := sp.va ≤ a ∧ a < sp.va + sp.span

instance (sp : SlabPage) (a : Nat) : Decidable (sp.Has a) := inferInstanceAs (Decidable (_ ∧ _))

namespace Heap

def physToVirt (h : Heap) (pa : Nat) : Nat := h.linearMapBase + pa

def setSlab (h : Heap) (i : Nat) (sp : Option SlabPage) : Heap := { h with slabPages := Function.update h.slabPages i sp }

def setLarge (h : Heap) (j : Nat) (la : Option LargeAlloc) : Heap := { h with largeAllocs := Function.update h.largeAllocs j la }

def setPartial (h : Heap) (c : Nat) (l : List Nat) : Heap := { h with partialOf := Function.update h.partialOf c l }

def allocSlabPageMeta (h : Heap) : Option Nat := (List.range maxSlabPages).find? fun i => (h.slabPages i).isNone

def allocLargeMeta (h : Heap) : Option Nat := (List.range maxLargeAllocs).find? fun j => (h.largeAllocs j).isNone

def slabFindPageByVa (h : Heap) (va : Nat) : Option Nat :=
  (List.range maxSlabPages).find? fun i => (h.slabPages i).any fun sp => decide (sp.Has va)

def largeFindByVa (h : Heap) (va : Nat) : Option Nat :=
  (List.range maxLargeAllocs).find? fun j => (h.largeAllocs j).any fun la => la.va = va

/-! ## Slabs -/

/-- The free list of the first `n` objects of a new slab, and the memory with its links. -/
def freshList (va size : Nat) : Nat → (Nat → Nat) → Nat × (Nat → Nat)
  | 0, mem => (0, mem)
  | n + 1, mem =>
    let r := freshList va size n mem
    (va + n * size, Function.update r.2 (va + n * size) r.1)

/-- The descriptor of a new slab in the block at `pa`. -/
def freshPage (h : Heap) (c pa : Nat) : SlabPage :=
  let order := slabOrderForSize (slabSize c)
  let capacity := pageSize * 2 ^ order / slabSize c
  ⟨c, pa, h.physToVirt pa, order, slabSize c, capacity, 0, (freshList (h.physToVirt pa) (slabSize c) capacity h.mem).1⟩

def newSlab (h : Heap) (i c pa : Nat) : Heap :=
  let sp := h.freshPage c pa
  let h := { h with mem := (freshList sp.va sp.objSize sp.capacity h.mem).2 }.setSlab i (some sp)
  h.setPartial c (i :: h.partialOf c)

/-- Where it fails the descriptor is given back. -/
def slabGrow (h : Heap) (c flags : Nat) : Option Nat × Heap :=
  let order := slabOrderForSize (slabSize c)
  let capacity := pageSize * 2 ^ order / slabSize c
  if capacity = 0 then (none, h)
  else
    match h.allocSlabPageMeta with
    | none => (none, h)
    | some i =>
      let r := allocPhysPages h.buddy order flags
      let h := { h with buddy := r.1 }
      if r.2 = 0 then (none, h) else (some i, h.newSlab i c r.2)

def slabDestroyPage (h : Heap) (i : Nat) (sp : SlabPage) : Heap :=
  let h := h.setPartial sp.cache ((h.partialOf sp.cache).erase i)
  { h with buddy := freePhysPages h.buddy sp.pa sp.order }.setSlab i none

/-- The first object of the free list. -/
def takeObj (h : Heap) (i : Nat) : Nat × Heap :=
  match h.slabPages i with
  | none => (0, h)
  | some sp => (sp.freelist, h.setSlab i (some { sp with freelist := h.mem sp.freelist, inuse := sp.inuse + 1 }))

/-- The first slab of the cache that has a free object. -/
def findPartial (h : Heap) (c : Nat) : Option Nat :=
  (h.partialOf c).find? fun i => (h.slabPages i).any fun sp => sp.freelist ≠ 0

def slabAlloc (h : Heap) (c flags : Nat) : Nat × Heap :=
  match h.findPartial c with
  | some i => h.takeObj i
  | none =>
    match h.slabGrow c flags with
    | (none, h) => (0, h)
    | (some i, h) => h.takeObj i

def slabFreeObj (h : Heap) (va : Nat) : Heap :=
  match h.slabFindPageByVa va with
  | none => h
  | some i =>
    match h.slabPages i with
    | none => h
    | some sp =>
      let sp' := { sp with freelist := va, inuse := sp.inuse - 1 }
      let h := { h with mem := Function.update h.mem va sp.freelist }.setSlab i (some sp')
      if sp'.inuse = 0 then h.slabDestroyPage i sp' else h

/-! ## Large allocations -/

def largeAlloc (h : Heap) (size flags : Nat) : Nat × Heap :=
  let order := getOrderUl size
  match h.allocLargeMeta with
  | none => (0, h)
  | some j =>
    let r := allocPhysPages h.buddy order flags
    let h := { h with buddy := r.1 }
    if r.2 = 0 then (0, h) else (h.physToVirt r.2, h.setLarge j (some ⟨h.physToVirt r.2, r.2, size, order⟩))

def largeFree (h : Heap) (j : Nat) (la : LargeAlloc) : Heap :=
  { h with buddy := freePhysPages h.buddy la.pa la.order }.setLarge j none

/-! ## The interface -/

/-- `slab_init`. -/
def slabInit (linearMapBase : Nat) (mem : Nat → Nat) (buddy : Pmm.State) : Heap :=
  ⟨linearMapBase, fun _ => none, fun _ => none, fun _ => [], mem, buddy⟩

def kmalloc (h : Heap) (size flags : Nat) : Nat × Heap :=
  if size = 0 then (0, h)
  else if size > sz4M then (0, h)
  else if size ≤ sz8K then
    match findSlabCache size with
    | none => (0, h)
    | some c => h.slabAlloc c flags
  else h.largeAlloc size flags

def kfree (h : Heap) (va : Nat) : Heap :=
  if va = 0 then h
  else if va < h.linearMapBase then h
  else
    match h.largeFindByVa va with
    | some j =>
      match h.largeAllocs j with
      | some la => h.largeFree j la
      | none => h
    | none => h.slabFreeObj va

end Heap

/-! ## Orders -/

theorem orderLoop_spec {pages : Nat} {n order : Nat} (h : pages ≤ 2 ^ (order + n)) :
    pages ≤ 2 ^ orderLoop pages n order ∧ ∀ k, order ≤ k → pages ≤ 2 ^ k → orderLoop pages n order ≤ k := by
  induction n generalizing order with
  | zero => exact ⟨h, fun k hk _ => hk⟩
  | succ n ih =>
    rw [orderLoop]
    split
    · next hlt =>
      obtain ⟨h1, h2⟩ := ih (show pages ≤ 2 ^ (order + 1 + n) by rwa [Nat.add_right_comm])
      refine ⟨h1, fun k hk hp => h2 k ?_ hp⟩
      rcases Nat.lt_or_ge order k with hk' | hk'
      · exact hk'
      · obtain rfl := Nat.le_antisymm hk hk'
        exact absurd hp (Nat.not_le.mpr hlt)
    · next hge => exact ⟨Nat.not_lt.mp hge, fun k hk _ => hk⟩

/-- The least order of a block with that many pages. -/
theorem le_orderFor (pages : Nat) : pages ≤ 2 ^ orderFor pages :=
  (orderLoop_spec (by rw [Nat.zero_add]; exact Nat.lt_two_pow_self.le)).1

theorem orderFor_le {pages k : Nat} (h : pages ≤ 2 ^ k) : orderFor pages ≤ k :=
  (orderLoop_spec (by rw [Nat.zero_add]; exact Nat.lt_two_pow_self.le)).2 k (Nat.zero_le _) h

/-- A block of the order for the pages of `size` holds `size` bytes. -/
theorem le_block (size : Nat) : size ≤ pageSize * 2 ^ orderFor ((size + pageSize - 1) / pageSize) := by
  have h := le_orderFor ((size + pageSize - 1) / pageSize)
  unfold pageSize at *
  omega

theorem getOrderUl_eq {size : Nat} (h : 0 < size) : getOrderUl size = orderFor ((size + pageSize - 1) / pageSize) := by
  rw [getOrderUl, if_neg (Nat.pos_iff_ne_zero.mp h), Nat.shiftRight_eq_div_pow]
  rfl

theorem le_getOrderUl {size : Nat} (h : 0 < size) : size ≤ pageSize * 2 ^ getOrderUl size := by
  rw [getOrderUl_eq h]
  exact le_block size

end Myos.Slab
