/-
  Myos.Vmalloc.Mappings — `vmalloc`, `ioremap` and `dma_alloc_coherent` with their releases
  (`kernel/vmalloc.c`), over the manager of the range, the page tables and the buddy.

  The answers of `kmalloc` come with the call (`none` is NULL); a record is named by its
  address, `heap` are the records that `kmalloc` has handed out and not got back. The pages
  that `kmalloc` itself takes from the buddy are left out, and so are `vzalloc`, locks, TLB
  and barrier instructions and what the data of a record says that no release reads.
  `map_kernel_page` drops the result of the mapping.

  A ghost list has what the caller of each allocation that is out was promised: its range, the
  frames of its pages and the blocks of the buddy that it holds.
-/

import Myos.Mm.MapPage
import Myos.Vmap.Ranges

namespace Myos.Vmalloc

open Mm Pmm
open Vmap (Word VmapManager vmallocStart vmallocEnd)

/-- `struct vm_struct`; `self` is its address and `array` that of its array of pages. -/
structure VmStruct where
  self : Nat
  array : Nat
  addr : Word
  pages : List Nat
  deriving DecidableEq

structure IoMapping where
  self : Nat
  addr : Word
  nrPages : Nat
  deriving DecidableEq

structure DmaMapping where
  self : Nat
  va : Word
  pa : Nat
  nrPages : Nat
  order : Nat
  deriving DecidableEq

structure Sys where
  machine : Machine
  mgr : VmapManager
  heap : List Nat
  vmList : List VmStruct
  ioMapList : List IoMapping
  dmaMapList : List DmaMapping

def vaFlagVmalloc : Word := 1
def vaFlagIoremap : Word := 4
def pageMask : Word := ~~~0xFFF

/-- PAGE_DMA and PAGE_DEVICE; `ATTRIDX` is bits 4..2. -/
def pageDma : Nat := pageCommon ||| 1 <<< 2 ||| uxn ||| pxn
def pageDevice : Nat := pteValid ||| 1 <<< 1 ||| 1 <<< 10 ||| 2 <<< 2 ||| uxn ||| pxn

/-- `(size + PAGE_SIZE - 1) / PAGE_SIZE`. -/
def nrPages (size : Word) : Nat := ((size + 4095) / 4096).toNat

/-- `while ((1UL << order) < pages) order++;` -/
def orderFrom (pages : Nat) : (fuel order : Nat) → Nat
  | 0, order => order
  | fuel + 1, order => if 1 <<< order < pages then orderFrom pages fuel (order + 1) else order

def dmaOrder (pages : Nat) : Nat := orderFrom pages 64 0

/-! ## Pages -/

def mapKernelPage (m : Machine) (va pa prot : Nat) : Machine := (mapPage m va pa prot).1

/-- The pages `pas`, one after the other from `va` on. -/
def mapPages (m : Machine) (va prot : Nat) : (pas : List Nat) → Machine
  | [] => m
  | pa :: pas => mapPages (mapKernelPage m va pa prot) (va + pageSize) prot pas

def unmapPages (m : Machine) (va : Nat) : (n : Nat) → Machine
  | 0 => m
  | n + 1 => unmapPages (unmapPage m va) (va + pageSize) n

def freePages (m : Machine) (pas : List Nat) : Machine := pas.foldl (fun m pa => m.freePhysPages pa 0) m

/-- `n` pages more; if there are none, those of `done` are given back. -/
def allocPages (m : Machine) (done : List Nat) : (n : Nat) → Machine × Option (List Nat)
  | 0 => (m, some done)
  | n + 1 =>
    let r := m.allocPage gfpKernel
    if r.2 = 0 then (freePages r.1 done, none) else allocPages r.1 (done ++ [r.2]) n

/-! ## The calls -/

namespace Sys

def kmalloc (s : Sys) (answer : Option Nat) : Sys := { s with heap := answer.toList ++ s.heap }
def kfree (s : Sys) (p : Nat) : Sys := { s with heap := s.heap.erase p }

def vaFree (s : Sys) (addr link link' : Word) : Option Sys :=
  (s.mgr.vaFree addr link link').map fun mgr => { s with mgr := mgr }

/-- The labels `fail`: the memory of the record and the range go back. -/
def vmallocFail (s : Sys) (vm array : Option Nat) (addr link link' : Word) : Option (Sys × Word) :=
  let s := array.elim s s.kfree
  let s := vm.elim s s.kfree
  (s.vaFree addr link link').map fun s => (s, 0)

/-- `before` and `remain` answer the calls of `kmalloc` in `va_alloc`, `vm` and `array` those
    of the function itself. -/
def vmallocNodeRange (s : Sys) (size align flags : Word) (prot : Nat) (before remain : Option Word) (vm array : Option Nat)
    (link link' : Word) : Option (Sys × Word) :=
  (s.mgr.vaAlloc size align flags before remain).bind fun (mgr, addr) =>
    if addr = 0 then some ({ s with mgr := mgr }, 0)
    else
      let s := ({ s with mgr := mgr }.kmalloc vm).kmalloc array
      match vm, array with
      | some self, some pagesArray =>
        match allocPages s.machine [] (nrPages size) with
        | (machine, none) => { s with machine := machine }.vmallocFail vm array addr link link'
        | (machine, some pages) =>
          some ({ s with
            machine := mapPages machine addr.toNat prot pages
            vmList := s.vmList ++ [{ self := self, array := pagesArray, addr := addr, pages := pages }] }, addr)
      | _, _ => s.vmallocFail vm array addr link link'

def vmalloc (s : Sys) (size : Word) (before remain : Option Word) (vm array : Option Nat) (link link' : Word) :
    Option (Sys × Word) :=
  s.vmallocNodeRange size 0x1000 vaFlagVmalloc pageKernelRw before remain vm array link link'

def vfree (s : Sys) (addr link link' : Word) : Option Sys :=
  if addr = 0 then some s
  else
    match s.vmList.find? fun vm => vm.addr = addr with
    | none => some s
    | some vm =>
      let machine := freePages (unmapPages s.machine addr.toNat vm.pages.length) vm.pages
      let s := { s with vmList := s.vmList.erase vm, machine := machine }.kfree vm.array
      (s.vaFree addr link link').map fun s => s.kfree vm.self

def ioremap (s : Sys) (phys size : Word) (before remain : Option Word) (io : Option Nat) : Option (Sys × Word) :=
  let offset := phys &&& 0xFFF
  let paddrAligned := phys &&& pageMask
  let mapSize := size + offset
  (s.mgr.vaAlloc mapSize 0x1000 vaFlagIoremap before remain).map fun (mgr, addr) =>
    if addr = 0 then ({ s with mgr := mgr }, 0)
    else
      let pas := (List.range (nrPages mapSize)).map fun i => (paddrAligned + BitVec.ofNat 64 (i * 4096)).toNat
      let s := { s with mgr := mgr, machine := mapPages s.machine addr.toNat pageDevice pas }.kmalloc io
      ({ s with ioMapList := (io.map fun self => { self := self, addr := addr, nrPages := nrPages mapSize }).toList ++ s.ioMapList },
        addr + offset)

def iounmap (s : Sys) (addr link link' : Word) : Option Sys :=
  if addr = 0 then some s
  else
    let vaAligned := addr &&& pageMask
    let io := s.ioMapList.find? fun io => io.addr = vaAligned
    let s := io.elim s fun io => { s with ioMapList := s.ioMapList.erase io }.kfree io.self
    { s with machine := unmapPages s.machine vaAligned.toNat (io.elim 1 IoMapping.nrPages) }.vaFree vaAligned link link'

/-- The address for the device comes second. -/
def dmaAllocCoherent (s : Sys) (size : Word) (before remain : Option Word) (dma : Option Nat) : Option (Sys × Word × Nat) :=
  let pages := nrPages size
  let r := allocPhysPages s.machine.pmm (dmaOrder pages) gfpDma
  let s := { s with machine := { s.machine with pmm := r.1 } }
  if r.2 = 0 then some (s, 0, 0)
  else
    (s.mgr.vaAlloc (BitVec.ofNat 64 (pages * 4096)) 0x1000 vaFlagIoremap before remain).map fun (mgr, va) =>
      if va = 0 then ({ s with mgr := mgr, machine := s.machine.freePhysPages r.2 (dmaOrder pages) }, 0, r.2)
      else
        let pas := (List.range pages).map fun i => r.2 + i * 4096
        let s := { s with mgr := mgr, machine := mapPages s.machine va.toNat pageDma pas }.kmalloc dma
        ({ s with dmaMapList := (dma.map fun self => ⟨self, va, r.2, pages, dmaOrder pages⟩).toList ++ s.dmaMapList }, va, r.2)

def dmaFreeCoherent (s : Sys) (va : Word) : Sys :=
  if va = 0 then s
  else
    match s.dmaMapList.find? fun dma => dma.va = va &&& pageMask with
    | none => s
    | some dma =>
      let machine := (unmapPages s.machine (va &&& pageMask).toNat dma.nrPages).freePhysPages dma.pa dma.order
      { s with dmaMapList := s.dmaMapList.erase dma, machine := machine }.kfree dma.self

end Sys

/-! ## Runs -/

inductive Kind where
  | vmalloc
  | ioremap
  | dma
  deriving DecidableEq

/-- An allocation that is out: `size` bytes from `va` on, whose pages are the frames `pages`. -/
structure Alloc where
  kind : Kind
  va : Word
  size : Word
  pages : List Nat
  blocks : List (Nat × Nat)
  deriving DecidableEq

structure State where
  sys : Sys
  live : List Alloc

inductive Op where
  | vmalloc (size : Word) (before remain : Option Word) (vm array : Option Nat) (link link' : Word)
  | vfree (addr link link' : Word)
  | ioremap (phys size : Word) (before remain : Option Word) (io : Option Nat)
  | iounmap (addr link link' : Word)
  | dmaAllocCoherent (size : Word) (before remain : Option Word) (dma : Option Nat)
  | dmaFreeCoherent (va : Word)
  deriving DecidableEq

/-- What the call returns, and the address for the device. -/
def Sys.call (s : Sys) : Op → Option (Sys × Word × Nat)
  | .vmalloc size before remain vm array link link' => (s.vmalloc size before remain vm array link link').map fun r => (r.1, r.2, 0)
  | .vfree addr link link' => (s.vfree addr link link').map fun s => (s, 0, 0)
  | .ioremap phys size before remain io => (s.ioremap phys size before remain io).map fun r => (r.1, r.2, 0)
  | .iounmap addr link link' => (s.iounmap addr link link').map fun s => (s, 0, 0)
  | .dmaAllocCoherent size before remain dma => s.dmaAllocCoherent size before remain dma
  | .dmaFreeCoherent va => some (s.dmaFreeCoherent va, 0, 0)

/-- The number of pages that `n` bytes take. -/
def pagesOf (n : Nat) : Nat := (n + 4095) / 4096

/-- `n` pages of physical memory from `pa` on. -/
def framesFrom (pa n : Nat) : List Nat := (List.range n).map fun i => pa + i * pageSize

/-- What the caller is promised by a call that returns `r`. -/
def Op.promises (m : Machine) (r : Word) (pa : Nat) : Op → List Alloc
  | .vmalloc size .. =>
    let pages := (allocPages m [] (nrPages size)).2.getD []
    [⟨.vmalloc, r, size, pages, pages.map fun pa => (paToPfn pa, 0)⟩]
  | .ioremap phys size .. =>
    let offset := phys &&& 0xFFF
    [⟨.ioremap, r - offset, size + offset,
      framesFrom (phys.toNat / pageSize * pageSize) (pagesOf (phys.toNat % pageSize + size.toNat)), []⟩]
  | .dmaAllocCoherent size .. => [⟨.dma, r, size, framesFrom pa (pagesOf size.toNat), [(paToPfn pa, dmaOrder (nrPages size))]⟩]
  | _ => []

/-- The call gives the allocation back. -/
def Op.returns (a : Alloc) : Op → Bool
  | .vfree addr .. => a.kind = .vmalloc ∧ a.va = addr
  | .iounmap addr .. => a.kind = .ioremap ∧ a.va = addr &&& pageMask
  | .dmaFreeCoherent va => a.kind = .dma ∧ a.va = va &&& pageMask
  | _ => false

def step (s : State) (e : Op) : Option State :=
  (s.sys.call e).map fun (sys, r, pa) =>
    ⟨sys, (if r = 0 then [] else e.promises s.sys.machine r pa) ++ s.live.filter fun a => !e.returns a⟩

/-- What `kmalloc` answers in `va_alloc` is in no list of the manager. -/
def Answers (m : VmapManager) (before remain : Option Word) : Prop :=
  (∀ d, before = some d → m.Fresh d) ∧ ∀ d, remain = some d → m.Fresh d ∧ before ≠ remain

def Fresh (s : State) : Op → Prop
  | .vmalloc _ before remain .. => Answers s.sys.mgr before remain
  | .ioremap _ _ before remain _ => Answers s.sys.mgr before remain
  | .dmaAllocCoherent _ before remain _ => Answers s.sys.mgr before remain
  | _ => True

/-- An address of the range. -/
def InRange (x : Nat) : Prop := vmallocStart.toNat ≤ x ∧ x < vmallocEnd.toNat

/-- The kernel has its tables and holds the blocks `X`; nothing is mapped in the range yet. -/
structure Boot (R : Set Nat) (X : Set (Nat × Nat)) (rf : Nat → Nat) (s : State) : Prop where
  owned : Owned s.sys.machine R X rf
  root : s.sys.machine.ttbr1 ∈ R
  enabled : s.sys.machine.ttbr1 ≠ 0
  mgr : Vmap.Boot ⟨s.sys.mgr, []⟩
  unmapped : ∀ x, InRange x → ptePresent (s.sys.machine.translate x) = false
  heap : s.sys.heap = []
  vmList : s.sys.vmList = []
  ioMapList : s.sys.ioMapList = []
  dmaMapList : s.sys.dmaMapList = []
  live : s.live = []

end Myos.Vmalloc
