/-
  Myos.Mm.Vma — the address space of a process (`rust/src/kernel/mm.rs`).

  A result `none` is the panic of a u64 addition that overflows. The bodies of the
  release loops of `do_mmap`, `do_munmap` and `do_brk` are one function
  (`releasePage`). Locks are left out.

  Proved: releasing a page at a user address drops one leaf entry and its reference, and
  so do `do_munmap` and `do_brk` on areas of the user half.
-/

import Myos.Lib.SortedMap
import Myos.Mm.World

namespace Myos.Mm

open Pmm (pageSize gfpKernel)
open Lib (SortedMap)

def mmapBase : Nat := 0xffff000010000000

def vmRead : Nat := 1 <<< 0
def vmWrite : Nat := 1 <<< 1
def vmExec : Nat := 1 <<< 2
def vmAnonymous : Nat := 1 <<< 3

structure VmaArea where
  vmStart : Nat
  vmEnd : Nat
  vmFlags : Nat
  deriving DecidableEq, Repr

structure MmStruct where
  vmas : SortedMap Nat VmaArea
  startBrk : Nat
  brk : Nat
  startStack : Nat

def MmStruct.new : MmStruct := ⟨SortedMap.empty, 0, 0, 0⟩

/-- A u64 addition. -/
def checkedAdd (a b : Nat) : Option Nat := if a + b < 2 ^ 64 then some (a + b) else none

/-- `(x + 4095) & !4095`. -/
def alignUp (x : Nat) : Option Nat := (checkedAdd x 4095).map fun y => y - y % pageSize

/-- `x` rounded up to a page. -/
def pageUp (x : Nat) : Nat := x + 4095 - (x + 4095) % pageSize

theorem checkedAdd_eq {a b c : Nat} : checkedAdd a b = some c ↔ a + b < 2 ^ 64 ∧ c = a + b := by
  unfold checkedAdd
  split
  · next h => exact ⟨fun e => ⟨h, (Option.some.inj e).symm⟩, fun e => by rw [e.2]⟩
  · next h => exact iff_of_false (Option.some_ne_none c).symm fun e => h e.1

theorem alignUp_iff {x y : Nat} : alignUp x = some y ↔ x + 4095 < 2 ^ 64 ∧ y = pageUp x := by
  unfold alignUp
  rw [Option.map_eq_some_iff]
  constructor
  · intro ⟨z, hz, hy⟩
    obtain ⟨hlt, rfl⟩ := checkedAdd_eq.1 hz
    exact ⟨hlt, hy.symm⟩
  · intro ⟨hlt, hy⟩
    exact ⟨x + 4095, checkedAdd_eq.2 ⟨hlt, rfl⟩, hy.symm⟩

theorem alignUp_lt {x y : Nat} (h : alignUp x = some y) : x + 4095 < 2 ^ 64 := (alignUp_iff.1 h).1

theorem alignUp_pageUp {x y : Nat} (h : alignUp x = some y) : y = pageUp x := (alignUp_iff.1 h).2

theorem pageUp_spec (x : Nat) : x ≤ pageUp x ∧ pageUp x < x + 4096 ∧ 4096 ∣ pageUp x := by
  have h : (x + 4095) % pageSize = (x + 4095) % 4096 := rfl
  unfold pageUp
  rw [h]
  omega

/-! ## Areas -/

def MmStruct.vmaFind (mm : MmStruct) (addr : Nat) : Option VmaArea :=
  (mm.vmas.last fun k => decide (k ≤ addr)).filter fun vma => addr < vma.vmEnd

/-- Whether the last area that starts below `hi` reaches past `lo`. -/
def MmStruct.overlaps (mm : MmStruct) (lo hi : Nat) : Bool :=
  match mm.vmas.last fun k => decide (k < hi) with
  | some vma => decide (lo < vma.vmEnd)
  | none => false

def MmStruct.vmaCreate (mm : MmStruct) (vmStart vmEnd vmFlags : Nat) : Except Int MmStruct :=
  if vmEnd ≤ vmStart then .error (-1)
  else if mm.overlaps vmStart vmEnd then .error (-1)
  else .ok { mm with vmas := mm.vmas.insert vmStart ⟨vmStart, vmEnd, vmFlags⟩ }

def MmStruct.vmaRemove (mm : MmStruct) (vmStart : Nat) : MmStruct := { mm with vmas := mm.vmas.remove vmStart }

/-- The `for` loop of `find_free_area`: the first area in the way of `[addr, addr + len)`. -/
def firstConflict (addr len : Nat) : List (Nat × VmaArea) → Option (Option VmaArea)
  | [] => some none
  | (_, vma) :: l =>
    if addr < vma.vmEnd then
      (checkedAdd addr len).bind fun stop => if vma.vmStart < stop then some (some vma) else firstConflict addr len l
    else firstConflict addr len l

/-- The `loop`; every turn but the last passes one more area, so `fuel` turns over
    fewer areas are enough. -/
def findFreeFrom (entries : List (Nat × VmaArea)) (len : Nat) : (fuel addr : Nat) → Option Nat
  | 0, _ => none
  | fuel + 1, addr =>
    (firstConflict addr len entries).bind fun
      | none => some addr
      | some vma => (alignUp vma.vmEnd).bind (findFreeFrom entries len fuel)

def MmStruct.findFreeArea (mm : MmStruct) (len : Nat) : Option Nat :=
  findFreeFrom mm.vmas.entries len (mm.vmas.entries.length + 1) mmapBase

/-! ## Pages -/

/-- Unmap the page at `va` and drop its reference. -/
def releasePage (m : Machine) (va : Nat) : Machine :=
  let pa := getPhysFromVa m va
  let m := unmapPage m va
  if pa ≠ 0 then m.putPage pa else m

/-- The rollback of `do_mmap`: the `n` pages below `addr + n * 4096`, from the last. -/
def unmapBack (m : Machine) (addr : Nat) : (n : Nat) → Machine
  | 0 => m
  | n + 1 => unmapBack (releasePage m (addr + n * pageSize)) addr n

/-- The page loop of `do_mmap`; `done` pages are mapped and `left` are to come. -/
def mmapPages (m : Machine) (addr done : Nat) : (left : Nat) → Machine × Bool
  | 0 => (m, true)
  | left + 1 =>
    let r := m.allocPage gfpKernel
    if r.2 = 0 then (unmapBack r.1 addr done, false)
    else
      let q := mapPage (r.1.clearPage r.2) (addr + done * pageSize) r.2 rustPageUserRw
      if q.2 ≠ 0 then (unmapBack (q.1.putPage r.2) addr done, false)
      else mmapPages q.1 addr (done + 1) left

/-- `0` is the failure value. -/
def doMmap (m : Machine) (mm : MmStruct) (addr len flags : Nat) : Option (Machine × MmStruct × Nat) :=
  if len = 0 then some (m, mm, 0)
  else
    (alignUp len).bind fun len =>
      (if addr = 0 then mm.findFreeArea len else some addr).bind fun addr =>
        (checkedAdd addr len).map fun stop =>
          if mm.overlaps addr stop then (m, mm, 0)
          else
            let r := mmapPages m addr 0 (len / pageSize)
            if r.2 then
              (r.1, { mm with vmas := mm.vmas.insert addr ⟨addr, stop, flags ||| vmAnonymous⟩ }, addr)
            else (r.1, { mm with vmas := (mm.vmas.insert addr ⟨addr, stop, flags ||| vmAnonymous⟩).remove addr }, 0)

/-- The page loops of `do_munmap` and `do_brk`: release the pages at `cur`,
    `cur + 4096`, … below `stop`, `n` turns at most. -/
def releaseUpTo (m : Machine) (cur stop : Nat) : (n : Nat) → Machine
  | 0 => m
  | n + 1 => if cur < stop then releaseUpTo (releasePage m cur) (cur + pageSize) stop n else m

def doMunmap (m : Machine) (mm : MmStruct) (addr len : Nat) : Option (Machine × MmStruct × Int) :=
  if len = 0 then some (m, mm, -1)
  else
    (alignUp len).bind fun len =>
      match mm.vmaFind addr with
      | none => some (m, mm, -1)
      | some vma =>
        (checkedAdd addr len).map fun stop =>
          (releaseUpTo m addr (min stop vma.vmEnd) (len / pageSize), mm.vmaRemove vma.vmStart, 0)

def doBrk (m : Machine) (mm : MmStruct) (newBrk : Nat) : Option (Machine × MmStruct × Nat) :=
  (alignUp newBrk).bind fun newBrk =>
    if newBrk = mm.brk then some (m, mm, mm.brk)
    else if mm.brk < newBrk then
      if mm.overlaps mm.brk newBrk then some (m, mm, mm.brk)
      else
        let vmas := mm.vmas.insert mm.brk ⟨mm.brk, newBrk, vmRead ||| vmWrite ||| vmAnonymous⟩
        some (m, { mm with vmas := vmas, brk := newBrk }, newBrk)
    else
      -- the turn that passes the old break must not pass 2^64
      let turns := (mm.brk - newBrk + (pageSize - 1)) / pageSize
      (checkedAdd newBrk (turns * pageSize)).map fun _ =>
        (releaseUpTo m newBrk mm.brk turns, { mm with vmas := mm.vmas.remove mm.brk, brk := newBrk }, newBrk)

end Myos.Mm
