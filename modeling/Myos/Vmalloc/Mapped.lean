/-
  Myos.Vmalloc.Mapped — what the callers of `kernel/vmalloc.c` get.

  `map_kernel_page` drops the result of the mapping, so a call that finds no page for a table
  returns a range with a hole. Proved: in every run in which a page is free for every missing
  table, and in which the frames have addresses that an entry can hold, the pages of every
  allocation that is out are mapped to its frames. In every run whose sizes do not wrap no two
  allocations overlap, and a call that returns NULL leaves areas, blocks, mappings and records
  as they were.
-/

import Myos.Mm.Fork
import Myos.Vmalloc.Complete

namespace Myos.Vmalloc

open Mm Pmm
open Vmap (Word VmapManager)

def Op.allocates : Op → Prop
  | .vmalloc .. => True
  | .ioremap .. => True
  | .dmaAllocCoherent .. => True
  | _ => False

/-- The pages of two allocations do not overlap. -/
def Alloc.Apart (a b : Alloc) : Prop := ∀ x, InPages a.va.toNat a.pages.length x → ¬ InPages b.va.toNat b.pages.length x

section

variable {R : Set Nat} {X : Set (Nat × Nat)} {rf : Nat → Nat} {lost lost' : List (Nat × Nat)} {s s' : State} {e : Op}

theorem Ledger.pairwise (h : Ledger R X rf lost s) : s.live.Pairwise Alloc.Apart := by
  have hnd : s.live.Nodup := List.Nodup.of_map _ h.distinct
  exact hnd.imp_of_mem fun ha hb hne x => h.disjoint ha hb hne

theorem Translates.congr {m m' : Machine} {a : Alloc} (h : Translates m a)
    (he : ∀ i, i < a.pages.length → m'.translate (a.va.toNat + i * pageSize) = m.translate (a.va.toNat + i * pageSize)) :
    Translates m' a := by
  intro i pa hi
  rw [he i (List.getElem?_eq_some_iff.mp hi).1]
  exact h i pa hi

/-- Entries outside the pages of another allocation. -/
theorem Translates.other {m m' : Machine} {a b : Alloc} (h : Translates m b) (hin : Inside b.va.toNat b.pages.length)
    (hab : Alloc.Apart b a) (he : ∀ x, InRange x → ¬ InPages a.va.toNat a.pages.length x → m'.translate x = m.translate x) :
    Translates m' b := by
  refine h.congr fun i hi => he _ (hin.2 i hi) (hab _ ⟨Nat.le_add_right .., ?_⟩)
  have := Nat.mul_lt_mul_of_pos_right hi (show 0 < pageSize by decide)
  omega

/-- A step keeps the mappings of the allocations that are out, and makes those of a new one. -/
theorem Effect.translates (hE : Effect s e lost s' lost') (hL : Ledger R X rf lost s) (hL' : Ledger R X rf lost' s')
    (hA : Ample s.sys e) (h : ∀ a ∈ s.live, Translates s.sys.machine a) : ∀ a ∈ s'.live, Translates s'.sys.machine a := by
  cases hE with
  | refused hl hR =>
    rw [hl]
    exact fun a ha => (h a ha).congr fun i _ => hR.tables.translate _
  | @acquired a hl hAc =>
    have hap := hL'.pairwise
    rw [hl, List.pairwise_cons] at hap
    rw [hl]
    refine List.forall_mem_cons.mpr ⟨hAc.mapped hA, fun b hb => ?_⟩
    exact (h b hb).other (hL.inside hb) (fun x hx hx' => hap.1 b hb x hx' hx) hAc.other
  | @released a _ hl hother _ =>
    have hap := hL.pairwise
    have hsym : ∀ {a b : Alloc}, Alloc.Apart a b → Alloc.Apart b a := fun h x hx hx' => h x hx' hx
    rw [hl.pairwise_iff hsym, List.pairwise_cons] at hap
    intro b hb
    have hb' : b ∈ s.live := hl.mem_iff.mpr (List.mem_cons_of_mem _ hb)
    exact (h b hb').other (hL.inside hb') (hsym (hap.1 b hb)) hother

theorem Outcome.null {sys : Sys} {pa : Nat} {o : Option (Sys × Word × Nat)} {live : List Alloc} {t : Sys}
    (h : Outcome R X rf lost t live e o) (ho : o = some (sys, 0, pa)) : Refused t sys := by
  cases h with
  | refused hR _ =>
    cases ho
    exact hR
  | acquired h0 _ _ _ =>
    cases ho
    exact absurd rfl h0

/-- A call that returns NULL changed nothing. -/
theorem Ledger.null (h : Ledger R X rf lost s) (hf : Fresh s e) (hp : Proper s e) (ha : e.allocates) {sys : Sys} {pa : Nat}
    (hc : s.sys.call e = some (sys, 0, pa)) : Refused s.sys sys := by
  cases e with
  | vmalloc size before remain vm array link link' => exact (h.vmalloc hf hp vm array link link').null hc
  | ioremap phys size before remain io => exact (h.ioremap hf hp io).null hc
  | dmaAllocCoherent size before remain dma => exact (h.dmaAllocCoherent hf dma).null hc
  | vfree addr link link' => exact ha.elim
  | iounmap addr link link' => exact ha.elim
  | dmaFreeCoherent va => exact ha.elim

end

/-! ## A device register, with and without a free page -/

def mapUart : Op := .ioremap 0x9000010 0x10 none (some 2) (some 10)

theorem card_missing_le (m : Machine) (r va n : Nat) : (missing m r (pagePaths va n)).card ≤ n * 3 := by
  refine (Finset.card_filter_le _ _).trans ?_
  have h := Finset.card_biUnion_le_card_mul (Finset.range n) (fun i => tablePaths (va + i * pageSize)) 3 fun i _ => Finset.card_le_three
  rwa [Finset.card_range] at h

/-- Where no page is free and the first table is missing, nothing is mapped. -/
theorem mapPages_noRoom {m : Machine} {R : Set Nat} {K : Set (Nat × Nat)} {rf : Nat → Nat} {va pa prot : Nat} (h : Owned m R K rf)
    (hr : m.ttbr1 ∈ R) (hva : InRange va) (hc : child m.mem m.ttbr1 (l0Index va) = none) (hno : ¬ Room m.pmm 1) :
    (mapPages m va prot [pa]).translate va = m.translate va := by
  show (mapKernelPage m va pa prot).translate va = _
  by_cases h0 : m.l0Table va = 0
  · rw [mapKernelPage, show mapPage m va pa prot = (m, -1) from if_pos h0]
  have hl : m.l0Table va = m.ttbr1 := hva.l0Table
  rw [mapKernelPage, mapPage_eq m pa prot h0, hl]
  rcases nextTable_cases h hr (q := []) (by simp) (Lib.Walk.walk_nil _ _) (l0Index va) with ⟨c, hc', -⟩ | ⟨-, e, he, -⟩ | ⟨-, p, m', -, -, -, -, -, hA⟩
  · rw [hc] at hc'
    cases hc'
  · rw [(withTable_none _ (by rw [he])).1, he]
    rfl
  · exact absurd ((Room.zero m'.pmm).before hA) hno

end Myos.Vmalloc
