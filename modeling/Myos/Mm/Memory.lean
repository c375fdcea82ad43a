/-
  Myos.Mm.Memory — physical memory and page-table entries (`include/pgtbl.h`).

  Memory is a byte at every physical address; the kernel reaches it through the linear
  map (`phys_to_virt`), which is the identity here. A table is the 512 little-endian
  words of one page.

  Proved: what a word, a zeroed page and a copied page leave as it was, and what the
  fields of an entry are after the entry is put together.
-/

import Myos.Pmm.Calls

namespace Myos.Mm

open Pmm (pageSize)

abbrev Mem := Nat → UInt8

def read64 (m : Mem) (a : Nat) : Nat :=
  (m a).toNat + (m (a + 1)).toNat * 2 ^ 8 + (m (a + 2)).toNat * 2 ^ 16 + (m (a + 3)).toNat * 2 ^ 24 +
    (m (a + 4)).toNat * 2 ^ 32 + (m (a + 5)).toNat * 2 ^ 40 + (m (a + 6)).toNat * 2 ^ 48 + (m (a + 7)).toNat * 2 ^ 56

def write64 (m : Mem) (a v : Nat) : Mem :=
  fun x => if a ≤ x ∧ x < a + 8 then UInt8.ofNat (v / 2 ^ (8 * (x - a))) else m x

/-- `memset(pa, 0, PAGE_SIZE)`. -/
def zeroPage (m : Mem) (pa : Nat) : Mem := fun x => if pa ≤ x ∧ x < pa + pageSize then 0 else m x

/-- The copy loop of the fault handler, between two different pages. -/
def copyPage (m : Mem) (dst src : Nat) : Mem :=
  fun x => if dst ≤ x ∧ x < dst + pageSize then m (src + (x - dst)) else m x

/-! ## Words -/

theorem read64_congr {m m' : Mem} {a : Nat} (h : ∀ x, a ≤ x → x < a + 8 → m' x = m x) : read64 m' a = read64 m a := by
  unfold read64
  rw [h a (by omega) (by omega), h (a + 1) (by omega) (by omega), h (a + 2) (by omega) (by omega),
    h (a + 3) (by omega) (by omega), h (a + 4) (by omega) (by omega), h (a + 5) (by omega) (by omega),
    h (a + 6) (by omega) (by omega), h (a + 7) (by omega) (by omega)]

theorem write64_other {m : Mem} {a v x : Nat} (h : x < a ∨ a + 8 ≤ x) : write64 m a v x = m x := by
  unfold write64; rw [if_neg (by omega)]

theorem read64_write64 (m : Mem) {a v : Nat} (hv : v < 2 ^ 64) : read64 (write64 m a v) a = v := by
  have hb : ∀ j, j < 8 → (write64 m a v (a + j)).toNat = v / 2 ^ (8 * j) % 256 := by
    intro j hj
    unfold write64
    rw [if_pos (by omega), Nat.add_sub_cancel_left]
    exact UInt8.toNat_ofNat'
  have h0 := hb 0 (by omega)
  unfold read64
  rw [hb 1 (by omega), hb 2 (by omega), hb 3 (by omega), hb 4 (by omega), hb 5 (by omega), hb 6 (by omega),
    hb 7 (by omega)]
  rw [Nat.add_zero] at h0
  rw [h0]
  omega

theorem read64_write64_other (m : Mem) {a b v : Nat} (h : b + 8 ≤ a ∨ a + 8 ≤ b) :
    read64 (write64 m a v) b = read64 m b :=
  read64_congr fun _ _ _ => write64_other (by omega)

theorem zeroPage_other {m : Mem} {pa x : Nat} (h : x < pa ∨ pa + pageSize ≤ x) : zeroPage m pa x = m x := by
  unfold zeroPage; rw [if_neg (by omega)]

theorem copyPage_other {m : Mem} {dst src x : Nat} (h : x < dst ∨ dst + pageSize ≤ x) :
    copyPage m dst src x = m x := by
  unfold copyPage; rw [if_neg (by omega)]

theorem read64_zeroPage (m : Mem) {pa a : Nat} (h1 : pa ≤ a) (h2 : a + 8 ≤ pa + pageSize) :
    read64 (zeroPage m pa) a = 0 := by
  have : ∀ x, a ≤ x → x < a + 8 → zeroPage m pa x = (fun _ => 0 : Mem) x := by
    intro x _ _
    unfold zeroPage; rw [if_pos (by omega)]
  rw [read64_congr this]
  simp [read64]

/-! ## Page-table entries -/

def pteValid : Nat := 1
def pteTable : Nat := 1 <<< 1
def pteAddrMask : Nat := 0x0000FFFFFFFFF000
def tableProt : Nat := pteValid ||| pteTable

/-- Access-permission bits: EL0 may access (bit 6), writes are forbidden (bit 7). -/
def apUser : Nat := 1 <<< 6
def apReadOnly : Nat := 1 <<< 7

def pageCommon : Nat := pteValid ||| 1 <<< 1 ||| 1 <<< 10 ||| 3 <<< 8
def uxn : Nat := 1 <<< 54
def pxn : Nat := 1 <<< 53

/-- The protections of `include/pgtbl.h`. -/
def pageKernelRw : Nat := pageCommon ||| uxn ||| pxn
def pageUserRw : Nat := pageCommon ||| apUser ||| uxn ||| pxn
def pageUserRx : Nat := pageCommon ||| apUser ||| apReadOnly ||| uxn ||| pxn

/-- The protections of `rust/src/kernel/pgtbl.rs`, which are not those of the C header. -/
def rustPageUserRw : Nat := pageCommon ||| 1 <<< 11 ||| apUser ||| uxn ||| pxn
def rustPageUserRx : Nat := pageCommon ||| 1 <<< 11 ||| apUser ||| apReadOnly ||| pxn

def pteToPhys (pte : Nat) : Nat := pte &&& pteAddrMask
def ptePresent (pte : Nat) : Bool := pte &&& pteValid != 0

/-- The entry `map_page` writes. -/
def mkPte (prot pa : Nat) : Nat := prot ||| (pa &&& pteAddrMask)

/-- A protection the mapping functions are called with: valid, and no address bits. -/
structure ProtOk (prot : Nat) : Prop where
  valid : ptePresent prot = true
  noAddr : prot &&& pteAddrMask = 0
  lt : prot < 2 ^ 64

/-- The address of a page an entry can hold. -/
def PageAddr (pa : Nat) : Prop := pageSize ∣ pa ∧ pa < 2 ^ 48

theorem PageAddr.and_mask {pa : Nat} (h : PageAddr pa) : pa &&& pteAddrMask = pa := by
  obtain ⟨⟨q, rfl⟩, hlt⟩ := h
  have hq : q < 2 ^ 36 := by unfold pageSize at hlt; omega
  have hm : pteAddrMask = (2 ^ 36 - 1) <<< 12 := by decide
  have hs : pageSize * q = q <<< 12 := by rw [Nat.shiftLeft_eq, Nat.mul_comm]; rfl
  rw [hm, hs, ← Nat.shiftLeft_and_distrib, Nat.and_two_pow_sub_one_of_lt_two_pow hq]

theorem pteToPhys_pageAddr (pte : Nat) : PageAddr (pteToPhys pte) := by
  have hm : pteAddrMask = (2 ^ 36 - 1) <<< 12 := by decide
  have h : pteToPhys pte = ((pte >>> 12) % 2 ^ 36) * pageSize := by
    rw [pteToPhys, hm]
    apply Nat.eq_of_testBit_eq
    intro i
    rw [show pageSize = 2 ^ 12 from rfl, ← Nat.shiftLeft_eq, Nat.testBit_and, Nat.testBit_shiftLeft,
      Nat.testBit_shiftLeft, Nat.testBit_two_pow_sub_one, Nat.testBit_mod_two_pow, Nat.testBit_shiftRight]
    by_cases hi : 12 ≤ i
    · rw [Nat.add_sub_cancel' hi]
      simp [hi, Bool.and_comm]
    · simp [hi]
  rw [h]
  exact ⟨Nat.dvd_mul_left _ _, by unfold pageSize; omega⟩

theorem mkPte_pteToPhys {prot pa : Nat} (hp : ProtOk prot) (ha : PageAddr pa) : pteToPhys (mkPte prot pa) = pa := by
  rw [mkPte, pteToPhys, ha.and_mask, Nat.and_or_distrib_right, hp.noAddr, ha.and_mask, Nat.zero_or]

theorem ptePresent_iff (pte : Nat) : ptePresent pte = true ↔ pte % 2 = 1 := by
  rw [ptePresent, bne_iff_ne, pteValid, Nat.and_one_is_mod]
  omega

@[simp] theorem ptePresent_zero : ptePresent 0 = false := by decide

theorem mkPte_present {prot pa : Nat} (h : ptePresent prot = true) : ptePresent (mkPte prot pa) = true := by
  have bit : ∀ x, ptePresent x = x.testBit 0 := fun x => by
    rw [Bool.eq_iff_iff, ptePresent_iff, Nat.testBit_zero, decide_eq_true_eq]
  rw [bit] at h ⊢
  rw [mkPte, Nat.testBit_or, h, Bool.true_or]

theorem mkPte_lt {prot pa : Nat} (h : prot < 2 ^ 64) : mkPte prot pa < 2 ^ 64 :=
  Nat.or_lt_two_pow h (Nat.lt_of_le_of_lt Nat.and_le_right (by decide))

/-- The address leaves the other bits of an entry. -/
theorem mkPte_and {c : Nat} (hc : pteAddrMask &&& c = 0) (prot pa : Nat) : mkPte prot pa &&& c = prot &&& c := by
  rw [mkPte, Nat.and_or_distrib_right, Nat.and_assoc, hc, Nat.and_zero, Nat.or_zero]

theorem tableProt_ok : ProtOk tableProt := ⟨by decide, by decide, by decide⟩

end Myos.Mm
