/-
  Myos.Pmm.Usage — the page statistics of `kernel/pmm.c`.

  `buddy_nr_used_pages_total` is what `TOTAL_PAGES` leaves beside the free pages, so the
  pages of the kernel image are in it already; `total_used_pages` adds them once more.

  Proved of every run: the free lists count the pages outside the kernel and the blocks
  handed out, and nothing wraps (`free_pages_total`); so `buddy_nr_used_pages_total` is
  what it should be (`used_pages_total`), and the totals of `total_used_pages` agree exactly
  when the kernel has no pages (`accounts_iff`).
-/

import Mathlib
import Myos.Pmm.Dma

namespace Myos.Pmm

open Myos.Lib.Dyadic

/-- A sum of u32s. -/
def buddyNrFreePagesTotal (s : State) : Nat :=
  (List.range nrOrders).foldl (fun total order => (total + s.nrFree order * 2 ^ order) % 2 ^ 32) 0

def buddyNrUsedPagesTotal (s : State) : Nat := sub64 totalPages (buddyNrFreePagesTotal s) % 2 ^ 32

def totalPhysPages : Nat := (physMemEnd - physMemStart + 1) / pageSize

def totalUsedPages (s : State) : Nat :=
  let kernelPages := sub64 s.buddyMemStart physMemStart / pageSize
  add64 kernelPages (buddyNrUsedPagesTotal s)

def totalMemUsagePercent (s : State) : Nat :=
  let totalPages := totalPhysPages
  if totalPages = 0 then 0 else totalUsedPages s * 100 % 2 ^ 64 / totalPages % 2 ^ 32

/-- A sum of u32s that stays below the modulus is the sum. -/
theorem foldl_wrap (f : Nat → Nat) (n : Nat) (h : ∑ k ∈ Finset.range n, f k < 2 ^ 32) :
    (List.range n).foldl (fun total k => (total + f k) % 2 ^ 32) 0 = ∑ k ∈ Finset.range n, f k := by
  induction n with
  | zero => rfl
  | succ n ih =>
    rw [Finset.sum_range_succ] at h ⊢
    rw [List.range_succ, List.foldl_append, ih (by omega)]
    exact Nat.mod_eq_of_lt h

/-! ## The blocks, counted -/

/-- The pages of a block. -/
def blockPages (c : Nat × Nat) : Finset Nat := Finset.Ico c.1 (c.1 + 2 ^ c.2)

theorem mem_blockPages {c : Nat × Nat} {x : Nat} : x ∈ blockPages c ↔ Covers c.1 c.2 x := by
  rw [blockPages, Finset.mem_Ico]
  rfl

/-- The free blocks of a partition, list by list. -/
def listed (fl : Nat → List Nat) : Finset (Nat × Nat) :=
  (Finset.range nrOrders).biUnion fun k => (fl k).toFinset ×ˢ {k}

theorem mem_listed {fl : Nat → List Nat} {p k : Nat} : (p, k) ∈ listed fl ↔ k ≤ maxOrder ∧ p ∈ fl k := by
  simp only [listed, Finset.mem_biUnion, Finset.mem_range, Finset.mem_product, List.mem_toFinset,
    Finset.mem_singleton, nrOrders, Nat.lt_succ_iff]
  constructor
  · intro ⟨j, hj, hp, e⟩
    subst e
    exact ⟨hj, hp⟩
  · intro ⟨hk, hp⟩
    exact ⟨k, hk, hp, rfl⟩

theorem sum_listed {s : State} {fl : Nat → List Nat} (h : Partition s fl) :
    ∑ c ∈ listed fl, 2 ^ c.2 = ∑ k ∈ Finset.range nrOrders, s.nrFree k * 2 ^ k := by
  have apart : Set.PairwiseDisjoint (Finset.range nrOrders : Set Nat) fun k => (fl k).toFinset ×ˢ ({k} : Finset Nat) := by
    intro i _ j _ hij
    rw [Function.onFun, Finset.disjoint_product]
    exact Or.inr (Finset.disjoint_singleton.mpr hij)
  rw [listed, Finset.sum_biUnion apart]
  refine Finset.sum_congr rfl fun k hk => ?_
  have hk' : k ≤ maxOrder := Nat.lt_succ_iff.mp (Finset.mem_range.mp hk)
  rw [Finset.sum_product, h.nrFree k hk', ← List.toFinset_card_of_nodup (h.once k hk')]
  simp

/-- Free blocks, blocks handed out and the kernel's pages make up the memory. -/
theorem Books.Kept.pages {b : Books} (h : b.Kept) :
    (∑ k ∈ Finset.range nrOrders, b.state.nrFree k * 2 ^ k) + ∑ c ∈ b.out, 2 ^ c.2 + kernelPages b.state = totalPages := by
  obtain ⟨fl, hP⟩ := sound_partition h.sound
  have block (c : Nat × Nat) : c ∈ listed fl ∪ b.out ↔ BlockOf b.state fl c.1 c.2 := by
    rw [Finset.mem_union, BlockOf, ← h.out c.1 c.2, ← mem_listed (p := c.1) (k := c.2)]
  have apart : Disjoint (listed fl) b.out := by
    rw [Finset.disjoint_left]
    intro c hl ho
    have hf := (hP.marked c.2 c.1 (mem_listed.1 hl).1).mp (mem_listed.1 hl).2
    have hu := (h.out c.1 c.2).mp ho
    exact absurd (hf.2.1.symm.trans hu.2.1) (by decide)
  -- the blocks are disjoint and cover what the kernel leaves
  have tiles : (listed fl ∪ b.out).biUnion blockPages = Finset.Ico (kernelPages b.state) totalPages := by
    ext x
    rw [Finset.mem_biUnion, Finset.mem_Ico]
    constructor
    · intro ⟨c, hc, hx⟩
      have := hP.inside c.1 c.2 ((block c).mp hc)
      rw [blockPages, Finset.mem_Ico] at hx
      omega
    · intro ⟨h1, h2⟩
      obtain ⟨p, k, hb, hx⟩ := hP.covered x h1 h2
      exact ⟨(p, k), (block (p, k)).mpr hb, mem_blockPages.2 hx⟩
  have disjoint : Set.PairwiseDisjoint (listed fl ∪ b.out : Finset (Nat × Nat)) blockPages := by
    intro c hc d hd hne
    rw [Function.onFun, Finset.disjoint_left]
    intro x hx hy
    obtain ⟨e1, e2⟩ := hP.disjoint c.1 c.2 d.1 d.2 x ((block c).mp hc) ((block d).mp hd) (mem_blockPages.1 hx)
      (mem_blockPages.1 hy)
    exact hne (Prod.ext e1 e2)
  have hcard := congrArg Finset.card tiles
  rw [Finset.card_biUnion disjoint, Finset.sum_union apart, Nat.card_Ico] at hcard
  have size (c : Nat × Nat) : (blockPages c).card = 2 ^ c.2 := by
    rw [blockPages, Nat.card_Ico, Nat.add_sub_cancel_left]
  simp only [size, sum_listed hP] at hcard
  have := kernelPages_lt h.sound.start
  omega

/-! ## The statistics -/

section

variable {b : Books} {kernelEnd : Nat}

theorem free_pages_total (h : b.Kept) :
    buddyNrFreePagesTotal b.state + ∑ c ∈ b.out, 2 ^ c.2 + kernelPages b.state = totalPages := by
  have hp := h.pages
  have ht : totalPages = 65536 := rfl
  rw [buddyNrFreePagesTotal, foldl_wrap (fun k => b.state.nrFree k * 2 ^ k) nrOrders (by omega)]
  exact hp

theorem used_pages_total (h : b.Kept) :
    buddyNrUsedPagesTotal b.state = ∑ c ∈ b.out, 2 ^ c.2 + kernelPages b.state := by
  have hf := free_pages_total h
  have ht : totalPages = 65536 := rfl
  unfold buddyNrUsedPagesTotal sub64
  omega

/-- The kernel's pages are counted twice. -/
theorem total_used_pages (h : b.Kept) :
    totalUsedPages b.state = ∑ c ∈ b.out, 2 ^ c.2 + 2 * kernelPages b.state := by
  have hf := free_pages_total h
  have ht : totalPages = 65536 := rfl
  have hk : sub64 b.state.buddyMemStart physMemStart / pageSize = kernelPages b.state :=
    (Nat.shiftRight_eq_div_pow _ pageShift).symm
  simp only [totalUsedPages, hk, used_pages_total h, add64]
  omega

/-- The three totals agree, and no more than all of the memory is in use. -/
structure Accounts (b : Books) : Prop where
  sum : totalUsedPages b.state + buddyNrFreePagesTotal b.state = totalPhysPages
  used : buddyNrUsedPagesTotal b.state = ∑ c ∈ b.out, 2 ^ c.2 + kernelPages b.state
  percent : totalMemUsagePercent b.state ≤ 100

/-- In every run the statistics agree exactly when the managed memory starts where the
    memory does. -/
theorem accounts_iff (hk : StartIn kernelEnd) (h : b.Reach kernelEnd) :
    Accounts b ↔ alignedStart kernelEnd = physMemStart := by
  have hK := h.kept hk
  have hf := free_pages_total hK
  have hu := total_used_pages hK
  have ht : totalPages = 65536 := rfl
  have hp : totalPhysPages = 65536 := rfl
  have hkp := kernelPages_eq hK.sound.start
  have hps : pageSize = 4096 := rfl
  rw [(h.bounds hk).1, hps] at hkp
  constructor
  · intro hA
    have := hA.sum
    omega
  · intro he
    refine ⟨by omega, used_pages_total hK, ?_⟩
    have hle : totalUsedPages b.state ≤ 65536 := by omega
    rw [totalMemUsagePercent, hp, if_neg (by decide),
      Nat.mod_eq_of_lt (show totalUsedPages b.state * 100 < 2 ^ 64 by omega)]
    exact (Nat.mod_le _ _).trans (by omega)

end

/-- One block handed out over a kernel image that ends at the start of memory. -/
theorem accounts_no_kernel :
    Accounts ((Books.mk (buddyInit bssState (kernelSpaceStart + physMemStart)) ∅).step (.alloc 3 gfpKernel)) ↔
      alignedStart (kernelSpaceStart + physMemStart) = physMemStart :=
  accounts_iff (by unfold StartIn; decide) (.step (.alloc 3 gfpKernel) (.init bssState))

/-- A kernel image of three quarters of the memory: half as much again is reported in use. -/
theorem accounts_large_kernel :
    let b := Books.mk (buddyInit bssState (kernelSpaceStart + 0x4C000000)) ∅
    b.Reach (kernelSpaceStart + 0x4C000000) ∧
      totalUsedPages b.state + buddyNrFreePagesTotal b.state ≠ totalPhysPages ∧ totalMemUsagePercent b.state = 150 := by
  refine ⟨.init bssState, ?_⟩
  decide +kernel

end Myos.Pmm
