/-
  Myos.Mm.Pgtbl — the four-level page tables (`kernel/mmu.c`,
  `rust/src/kernel/pgtbl.rs`).

  The three checks for a missing next-level table in `arm64_map_one_page`, and the three
  in `copy_user_page_table`, are one function (`nextTable`); the nested loops of
  `copy_user_page_table` and `free_page_table_tree` are recursions on the level, `0`
  being the table of leaf entries. TLB and barrier instructions are left out.
-/

import Myos.Mm.Memory

namespace Myos.Mm

open Pmm (pageSize gfpKernel)

structure Machine where
  pmm : Pmm.State
  mem : Mem
  ttbr0 : Nat
  ttbr1 : Nat

/-- The index of an entry in a table. -/
abbrev Idx := Fin 512

def Machine.pte (m : Machine) (t : Nat) (i : Idx) : Nat := read64 m.mem (t + 8 * i)

def Machine.setPte (m : Machine) (t : Nat) (i : Idx) (v : Nat) : Machine :=
  { m with mem := write64 m.mem (t + 8 * i) v }

def Machine.clearPage (m : Machine) (pa : Nat) : Machine := { m with mem := zeroPage m.mem pa }

/-- `alloc_phys_pages(0, flags)`. -/
def Machine.allocPage (m : Machine) (flags : Nat) : Machine × Nat :=
  let r := Pmm.allocPhysPages m.pmm 0 flags
  ({ m with pmm := r.1 }, r.2)

def Machine.freePhysPages (m : Machine) (pa order : Nat) : Machine :=
  { m with pmm := Pmm.freePhysPages m.pmm pa order }

def Machine.getPage (m : Machine) (pa : Nat) : Machine := { m with pmm := Pmm.getPage m.pmm pa }

def Machine.putPage (m : Machine) (pa : Nat) : Machine := { m with pmm := Pmm.putPage m.pmm pa }

section

variable (m : Machine) (s : Pmm.State) (mem : Mem) (t : Nat) (i : Idx) (v pa order : Nat)

theorem withPmm_mem : ({ m with pmm := s } : Machine).mem = m.mem := rfl
theorem withPmm_ttbr0 : ({ m with pmm := s } : Machine).ttbr0 = m.ttbr0 := rfl
theorem withPmm_ttbr1 : ({ m with pmm := s } : Machine).ttbr1 = m.ttbr1 := rfl
theorem withMem_mem : ({ m with mem := mem } : Machine).mem = mem := rfl
theorem withMem_pmm : ({ m with mem := mem } : Machine).pmm = m.pmm := rfl
theorem withMem_ttbr0 : ({ m with mem := mem } : Machine).ttbr0 = m.ttbr0 := rfl
theorem withMem_ttbr1 : ({ m with mem := mem } : Machine).ttbr1 = m.ttbr1 := rfl

@[simp] theorem setPte_mem : (m.setPte t i v).mem = write64 m.mem (t + 8 * i) v := withMem_mem m _
@[simp] theorem setPte_pmm : (m.setPte t i v).pmm = m.pmm := withMem_pmm m _
@[simp] theorem setPte_ttbr0 : (m.setPte t i v).ttbr0 = m.ttbr0 := withMem_ttbr0 m _
@[simp] theorem setPte_ttbr1 : (m.setPte t i v).ttbr1 = m.ttbr1 := withMem_ttbr1 m _
@[simp] theorem clearPage_mem : (m.clearPage pa).mem = zeroPage m.mem pa := withMem_mem m _
@[simp] theorem clearPage_pmm : (m.clearPage pa).pmm = m.pmm := withMem_pmm m _
@[simp] theorem clearPage_ttbr0 : (m.clearPage pa).ttbr0 = m.ttbr0 := withMem_ttbr0 m _
@[simp] theorem clearPage_ttbr1 : (m.clearPage pa).ttbr1 = m.ttbr1 := withMem_ttbr1 m _
@[simp] theorem freePhysPages_mem : (m.freePhysPages pa order).mem = m.mem := withPmm_mem m _
@[simp] theorem freePhysPages_ttbr0 : (m.freePhysPages pa order).ttbr0 = m.ttbr0 := withPmm_ttbr0 m _
@[simp] theorem freePhysPages_ttbr1 : (m.freePhysPages pa order).ttbr1 = m.ttbr1 := withPmm_ttbr1 m _
@[simp] theorem getPage_mem : (m.getPage pa).mem = m.mem := withPmm_mem m _
@[simp] theorem getPage_ttbr0 : (m.getPage pa).ttbr0 = m.ttbr0 := withPmm_ttbr0 m _
@[simp] theorem getPage_ttbr1 : (m.getPage pa).ttbr1 = m.ttbr1 := withPmm_ttbr1 m _
@[simp] theorem putPage_mem : (m.putPage pa).mem = m.mem := withPmm_mem m _
@[simp] theorem putPage_ttbr0 : (m.putPage pa).ttbr0 = m.ttbr0 := withPmm_ttbr0 m _
@[simp] theorem putPage_ttbr1 : (m.putPage pa).ttbr1 = m.ttbr1 := withPmm_ttbr1 m _

end

/-! ## Addresses -/

/-- Bits 63..47 are clear; the kernel half is everything else. -/
def isUserAddr (va : Nat) : Bool := va >>> 47 == 0

/-- The low nine bits. -/
def index9 (x : Nat) : Idx := ⟨x &&& 0x1FF, Nat.lt_of_le_of_lt Nat.and_le_right (by decide)⟩

def l0Index (va : Nat) : Idx := index9 (va >>> 39)
def l1Index (va : Nat) : Idx := index9 (va >>> 30)
def l2Index (va : Nat) : Idx := index9 (va >>> 21)
def l3Index (va : Nat) : Idx := index9 (va >>> 12)

/-- The level-0 table an address is translated by. -/
def Machine.l0Table (m : Machine) (va : Nat) : Nat := if isUserAddr va then m.ttbr0 else m.ttbr1

def Machine.tableEmpty (m : Machine) (t : Nat) : Bool := (List.finRange 512).all fun i => m.pte t i == 0

/-! ## One page -/

/-- Check for, or create, the table under entry `i` of `t`. -/
def nextTable (m : Machine) (t : Nat) (i : Idx) : Machine × Option Nat :=
  if !ptePresent (m.pte t i) then
    let r := m.allocPage gfpKernel
    if r.2 = 0 then (r.1, none)
    else ((r.1.clearPage r.2).setPte t i (tableProt ||| r.2), some r.2)
  else (m, some (pteToPhys (m.pte t i)))

/-- Go on with the next table, or fail. -/
def withTable (r : Machine × Option Nat) (k : Machine → Nat → Machine × Int) : Machine × Int :=
  r.2.elim (r.1, -1) (k r.1)

def arm64MapOnePage (m : Machine) (va pa prot : Nat) : Machine × Int :=
  let l0 := m.l0Table va
  if l0 = 0 then (m, -1)
  else
    withTable (nextTable m l0 (l0Index va)) fun m l1 =>
      withTable (nextTable m l1 (l1Index va)) fun m l2 =>
        withTable (nextTable m l2 (l2Index va)) fun m l3 => (m.setPte l3 (l3Index va) (mkPte prot pa), 0)

/-- Clear the entry of a table that became empty, and free the table. -/
def Machine.dropTable (m : Machine) (t : Nat) (i : Idx) (c : Nat) : Machine := (m.setPte t i 0).freePhysPages c 0

def arm64UnmapOnePage (m : Machine) (va : Nat) : Machine :=
  let l0 := m.l0Table va
  if l0 = 0 then m
  else if !ptePresent (m.pte l0 (l0Index va)) then m
  else
    let l1 := pteToPhys (m.pte l0 (l0Index va))
    if !ptePresent (m.pte l1 (l1Index va)) then m
    else
      let l2 := pteToPhys (m.pte l1 (l1Index va))
      if !ptePresent (m.pte l2 (l2Index va)) then m
      else
        let l3 := pteToPhys (m.pte l2 (l2Index va))
        if !ptePresent (m.pte l3 (l3Index va)) then m
        else
          let m := m.setPte l3 (l3Index va) 0
          if !m.tableEmpty l3 then m
          else
            let m := m.dropTable l2 (l2Index va) l3
            if !m.tableEmpty l2 then m
            else
              let m := m.dropTable l1 (l1Index va) l2
              if !m.tableEmpty l1 then m
              else m.dropTable l0 (l0Index va) l1

def arm64GetPhysFromVa (m : Machine) (va : Nat) : Nat :=
  let l0 := m.l0Table va
  if l0 = 0 then 0
  else if !ptePresent (m.pte l0 (l0Index va)) then 0
  else
    let l1 := pteToPhys (m.pte l0 (l0Index va))
    if !ptePresent (m.pte l1 (l1Index va)) then 0
    else
      let l2 := pteToPhys (m.pte l1 (l1Index va))
      if !ptePresent (m.pte l2 (l2Index va)) then 0
      else
        let l3 := pteToPhys (m.pte l2 (l2Index va))
        if !ptePresent (m.pte l3 (l3Index va)) then 0 else pteToPhys (m.pte l3 (l3Index va))

def mapPage (m : Machine) (va pa prot : Nat) : Machine × Int := arm64MapOnePage m va pa prot
def unmapPage (m : Machine) (va : Nat) : Machine := arm64UnmapOnePage m va
def getPhysFromVa (m : Machine) (va : Nat) : Nat := arm64GetPhysFromVa m va

/-! ## Whole trees -/

/-- An entry as a forked child gets it: a writable page becomes read-only. -/
def cowPte (pte : Nat) : Nat := if pte &&& apUser != 0 && pte &&& apReadOnly == 0 then pte ||| apReadOnly else pte

/-- Share the page of leaf entry `i` of `src` with `dst`. -/
def copyPte (m : Machine) (src dst : Nat) (i : Idx) : Machine :=
  if !ptePresent (m.pte src i) then m
  else
    let m := m.setPte dst i (cowPte (m.pte src i))
    m.getPage (pteToPhys (m.pte src i))

def copyTables : (level : Nat) → Machine → (src dst : Nat) → Machine
  | 0, m, src, dst => (List.finRange 512).foldl (fun m i => copyPte m src dst i) m
  | level + 1, m, src, dst =>
    (List.finRange 512).foldl (fun m i =>
      if !ptePresent (m.pte src i) then m
      else
        let src' := pteToPhys (m.pte src i)
        let r := nextTable m dst i
        r.2.elim r.1 fun dst' => copyTables level r.1 src' dst') m

def copyUserPageTable (m : Machine) (src dst : Nat) : Machine := copyTables 3 m src dst

def freeTables : (level : Nat) → Machine → (t : Nat) → Machine
  | 0, m, t =>
    ((List.finRange 512).foldl (fun m i =>
      if ptePresent (m.pte t i) then m.putPage (pteToPhys (m.pte t i)) else m) m).freePhysPages t 0
  | level + 1, m, t =>
    ((List.finRange 512).foldl (fun m i =>
      if ptePresent (m.pte t i) then freeTables level m (pteToPhys (m.pte t i)) else m) m).freePhysPages t 0

def freePageTableTree (m : Machine) (pgd : Nat) : Machine := freeTables 3 m pgd

/-- `create_user_pgd`: one cleared page. -/
def createUserPgd (m : Machine) : Machine × Option Nat :=
  let r := m.allocPage 0
  if r.2 = 0 then (r.1, none) else (r.1.clearPage r.2, some r.2)

end Myos.Mm
