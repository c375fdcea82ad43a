/-
  Myos.Pmm.Dma — allocations with `GFP_DMA`.

  The search looks at the first block of each list only, and of that only at its first
  page. So a block may be handed out that starts below `dma_end_pfn` and ends above it,
  and a block below it is not found behind one above it.

  Proved: the allocated blocks of an order stay below the limit in every run exactly when
  the limit is a multiple of the block, or the block around the limit is the kernel's
  (`dma_contained_iff`); a state finds a block below the limit, if there is one, exactly
  when one is first in its list (`dma_complete_iff`). For the first, a run that frees the
  block around the limit alone is built: all pages are taken one by one and its pages
  given back.
-/

import Mathlib
import Myos.Pmm.Blocks

namespace Myos.Pmm

open Myos.Lib.ListHead Myos.Lib.Dyadic

/-- The first block of the list of that order. -/
def firstFree (s : State) (order : Nat) : Option Nat :=
  if listEmpty s.links (.head order) then none else some (containerOf (s.links.next (.head order)))

/-- `dma_end_pfn`, which `buddy_init` sets once. -/
def dmaEnd (kernelEnd : Nat) : Nat := (initState bssState (alignedStart kernelEnd)).dmaEndPfn

section

variable {hi : Nat} {s : State} {T : Tiles} {fl : Nat → List Nat}

theorem Inv.first_eq (h : Inv hi s T fl) {k : Nat} (hk : k ≤ maxOrder) : firstFree s k = (fl k).head? := by
  have hring := h.ring k hk
  unfold firstFree
  by_cases he : listEmpty s.links (.head k) = true
  · rw [if_pos he]
    rw [listEmpty_iff hring, List.map_eq_nil_iff] at he
    rw [he, List.head?_nil]
  · rw [if_neg he]
    rw [listEmpty_iff hring, List.map_eq_nil_iff] at he
    obtain ⟨p, ps, hps⟩ := List.exists_cons_of_ne_nil he
    rw [ring_next hring, hps]
    rfl

/-- What the search takes: the first block of the first list whose first block will do. -/
theorem search_first (s : State) (order : Nat) (dma : Bool) : ∀ l : List Nat,
    ((buddyAllocFrom s order dma l).2 = totalPages ∧
      ∀ c ∈ l, ∀ p, firstFree s c = some p → dma = true ∧ s.dmaEndPfn ≤ p) ∨
    ∃ c ∈ l, ∃ p, firstFree s c = some p ∧ (dma = true → p < s.dmaEndPfn) ∧ (buddyAllocFrom s order dma l).2 = p := by
  intro l
  induction l with
  | nil => exact Or.inl ⟨rfl, fun c hc => by cases hc⟩
  | cons cur rest ih =>
    -- the list of `cur` is passed over
    have pass (hp : ∀ p, firstFree s cur = some p → dma = true ∧ s.dmaEndPfn ≤ p)
        (he : buddyAllocFrom s order dma (cur :: rest) = buddyAllocFrom s order dma rest) :
        ((buddyAllocFrom s order dma (cur :: rest)).2 = totalPages ∧
          ∀ c ∈ cur :: rest, ∀ p, firstFree s c = some p → dma = true ∧ s.dmaEndPfn ≤ p) ∨
        ∃ c ∈ cur :: rest, ∃ p, firstFree s c = some p ∧ (dma = true → p < s.dmaEndPfn) ∧
          (buddyAllocFrom s order dma (cur :: rest)).2 = p := by
      rw [he]
      rcases ih with ⟨h1, h2⟩ | ⟨c, hc, h1⟩
      · exact Or.inl ⟨h1, List.forall_mem_cons.mpr ⟨hp, h2⟩⟩
      · exact Or.inr ⟨c, List.mem_cons_of_mem _ hc, h1⟩
    by_cases he : listEmpty s.links (.head cur) = true
    · refine pass (fun p hp => ?_) (by rw [buddyAllocFrom, if_pos he])
      rw [firstFree, if_pos he] at hp
      cases hp
    have hf : firstFree s cur = some (containerOf (s.links.next (.head cur))) := if_neg he
    by_cases hd : (dma && decide (s.dmaEndPfn ≤ containerOf (s.links.next (.head cur)))) = true
    · refine pass (fun p hp => ?_) (by rw [buddyAllocFrom, if_neg he]; exact if_pos hd)
      rw [hf] at hp
      cases hp
      simpa using hd
    · refine Or.inr ⟨cur, List.mem_cons_self .., _, hf, fun e => ?_, ?_⟩
      · simpa [e] using hd
      · rw [buddyAllocFrom, if_neg he]
        exact congrArg Prod.snd (if_neg hd)

end

/-- An allocation from a `GFP_DMA` list, or none. -/
theorem dma_alloc_cases {s : State} (h : Sound s) (order : Nat) {flags : Nat} (hd : flags &&& gfpDma ≠ 0) :
    ((allocPhysPages s order flags).2 = 0 ∧
      ∀ k p, order ≤ k → k ≤ maxOrder → firstFree s k = some p → s.dmaEndPfn ≤ p) ∨
    ∃ k p, order ≤ k ∧ k ≤ maxOrder ∧ firstFree s k = some p ∧ FreeBlk s p k ∧ p < s.dmaEndPfn ∧
      (allocPhysPages s order flags).2 = pfnToPa p := by
  obtain ⟨-, T, fl, hI, -⟩ := h
  have hdma : (flags &&& gfpDma != 0) = true := by simpa using hd
  unfold allocPhysPages
  by_cases hv : validOrder order = true
  swap
  · rw [if_pos (by simpa using hv)]
    refine Or.inl ⟨rfl, fun k p h1 h2 => ?_⟩
    simp only [validOrder, decide_eq_true_eq] at hv
    omega
  rw [if_neg (by simpa using hv), hdma]
  have hmem : ∀ c, c ∈ List.range' order (maxOrder + 1 - order) ↔ order ≤ c ∧ c ≤ maxOrder := by
    intro c
    rw [List.mem_range'_1]
    omega
  have hs := search_first s order true (List.range' order (maxOrder + 1 - order))
  rw [← buddyAllocPfn] at hs
  rcases hs with ⟨hr, hno⟩ | ⟨c, hc, p, hp, hlt, hr⟩
  · refine Or.inl ⟨?_, fun k p h1 h2 hp => (hno k ((hmem k).mpr ⟨h1, h2⟩) p hp).2⟩
    simp only [hr, ge_iff_le, Nat.le_refl, if_true]
  · obtain ⟨h1, h2⟩ := (hmem c).mp hc
    have hm : p ∈ fl c := List.mem_of_mem_head? (by rw [← hI.first_eq h2, hp]; rfl)
    have hfree := (hI.free_iff p c).mpr ((hI.mem c h2 p).mp hm)
    refine Or.inr ⟨c, p, h1, h2, hp, hfree, hlt rfl, ?_⟩
    simp only [hr, ge_iff_le, Nat.not_le.mpr hfree.1, if_false]

/-- In every reachable state a block below the limit is found, if there is one, exactly when
    one that is large enough is first in its list. -/
theorem dma_complete_iff {kernelEnd : Nat} (hk : StartIn kernelEnd) {b : Books} (h : b.Reach kernelEnd)
    (order : Nat) {flags : Nat} (hd : flags &&& gfpDma ≠ 0) :
    ((allocPhysPages b.state order flags).2 = 0 →
      ¬ ∃ p k, FreeBlk b.state p k ∧ order ≤ k ∧ p < b.state.dmaEndPfn) ↔
    ((∃ p k, FreeBlk b.state p k ∧ order ≤ k ∧ p < b.state.dmaEndPfn) →
      ∃ k p, order ≤ k ∧ k ≤ maxOrder ∧ firstFree b.state k = some p ∧ p < b.state.dmaEndPfn) := by
  rcases dma_alloc_cases (h.kept hk).sound order hd with ⟨h0, hno⟩ | ⟨k, p, h1, h2, hp, hfree, hlt, hr⟩
  · refine ⟨fun hn hex => absurd hex (hn h0), fun hc _ hex => ?_⟩
    obtain ⟨k, p, h1, h2, hp, hlt⟩ := hc hex
    have := hno k p h1 h2 hp
    omega
  · exact ⟨fun _ _ => ⟨k, p, h1, h2, hp, hlt⟩, fun _ h0 => absurd (hr.symm.trans h0) (pfnToPa_ne_zero p)⟩

/-- The kernel image ends 0x201000 bytes above the start of memory. -/
def unevenEnd : Nat := kernelSpaceStart + 0x40201000

/-- The four blocks of the largest order that start below the limit are taken and given
    back: they are now behind the others. -/
def rotated : List Op :=
  [.alloc 10 gfpDma, .alloc 10 gfpDma, .alloc 10 gfpDma, .alloc 10 gfpDma, .free (pfnToPa 1024) 10,
    .free (pfnToPa 2048) 10, .free (pfnToPa 3072) 10, .free (pfnToPa 4096) 10]

namespace Books

def run (b : Books) (ops : List Op) : Books := ops.foldl step b

theorem Reach.run {kernelEnd : Nat} (ops : List Op) : ∀ {b : Books}, b.Reach kernelEnd →
    (b.run ops).Reach kernelEnd := by
  induction ops with
  | nil => intro b h; exact h
  | cons op ops ih => intro b h; exact ih (h.step op)

end Books

theorem dma_complete_one :
    let b := (Books.mk (buddyInit bssState unevenEnd) ∅).run [.alloc 10 gfpKernel]
    ((allocPhysPages b.state 10 gfpDma).2 = 0 →
      ¬ ∃ p k, FreeBlk b.state p k ∧ 10 ≤ k ∧ p < b.state.dmaEndPfn) ↔
    ((∃ p k, FreeBlk b.state p k ∧ 10 ≤ k ∧ p < b.state.dmaEndPfn) →
      ∃ k p, 10 ≤ k ∧ k ≤ maxOrder ∧ firstFree b.state k = some p ∧ p < b.state.dmaEndPfn) :=
  dma_complete_iff (by unfold StartIn; decide) (Books.Reach.run _ (.init bssState)) 10 (by decide)

/-- The allocation fails, though the block at page 1024 is free, large enough and below the limit. -/
theorem dma_hidden : ∃ b : Books, b.Reach unevenEnd ∧ (allocPhysPages b.state 10 gfpDma).2 = 0 ∧
    FreeBlk b.state 1024 10 ∧ 1024 < b.state.dmaEndPfn := by
  refine ⟨(Books.mk (buddyInit bssState unevenEnd) ∅).run rotated, .run _ (.init bssState), ?_⟩
  unfold FreeBlk
  decide +kernel

/-! ## Blocks around the limit -/

/-- The pages of a block leave the free pages when it is handed out. -/
theorem AllocAt.freePages {s s' : State} {p order : Nat} (h : Sound s) (hA : AllocAt s s' p order) :
    freePages s' = freePages s \ {x | Covers p order x} ∧ ∀ x, Covers p order x → x ∈ freePages s := by
  have hkp : kernelPages s' = kernelPages s := by unfold kernelPages; rw [hA.start]
  refine ⟨Set.ext fun x => ?_, fun x hx => ?_⟩
  · rw [Set.mem_sdiff, cover_free hA.sound, cover_free h, hkp]
    simp only [hA.used]
    constructor
    · rintro ⟨h1, h2, h3⟩
      exact ⟨⟨h1, h2, fun q k hq => h3 q k (Or.inl hq)⟩, h3 p order (Or.inr ⟨rfl, rfl⟩)⟩
    · rintro ⟨⟨h1, h2, h3⟩, hx⟩
      refine ⟨h1, h2, fun q k hq => ?_⟩
      rcases hq with hq | ⟨rfl, rfl⟩
      · exact h3 q k hq
      · exact hx
  · have hlo := hA.lo
    have hhi := hA.hi
    have hx' : p ≤ x ∧ x < p + 2 ^ order := hx
    exact (cover_free h x).mpr ⟨by omega, by omega, fun q k hq hc => hA.fresh q k x hq hc hx⟩

namespace Books

variable {b : Books} {kernelEnd : Nat}

/-- While a page is free, one page is handed out. -/
theorem Reach.take (hk : StartIn kernelEnd) (h : b.Reach kernelEnd) (hne : (freePages b.state).Nonempty) :
    ∃ p ∈ freePages b.state, (b.step (.alloc 0 gfpKernel)).out = insert (p, 0) b.out ∧
      freePages (b.step (.alloc 0 gfpKernel)).state = freePages b.state \ {p} := by
  have hs := (h.kept hk).sound
  have one : ∀ p x, Covers p 0 x ↔ x = p := fun p x => by
    unfold Covers
    omega
  rcases alloc_spec hs 0 gfpKernel with ⟨⟨e, he⟩, -⟩ | ⟨p, hp, hA⟩
  · obtain ⟨x, hx⟩ := hne
    have h0 : (allocPhysPages b.state 0 gfpKernel).2 = 0 := by rw [he]
    refine absurd ⟨Nat.zero_le _, x, Nat.one_dvd _, fun y hy => ?_⟩ ((alloc_fails_iff hs 0 gfpKernel (by decide)).mp h0)
    rw [(one x y).mp hy]
    exact hx
  · obtain ⟨h1, h2⟩ := hA.freePages hs
    have hlt : p < totalPages := by have := hA.hi; omega
    refine ⟨p, h2 p (covers_self p 0), ?_, ?_⟩
    · simp only [Books.step, hp, pfnToPa_ne_zero, if_false, paToPfn_pfnToPa hlt]
    · show freePages (allocPhysPages b.state 0 gfpKernel).1 = _
      rw [h1]
      refine congrArg _ (Set.ext fun x => ?_)
      exact one p x

/-- All pages can be taken, one by one. -/
theorem Reach.drain (hk : StartIn kernelEnd) (n : Nat) : ∀ {b : Books}, b.Reach kernelEnd → (∀ c ∈ b.out, c.2 = 0) →
    (freePages b.state).ncard ≤ n →
    ∃ b' : Books, b'.Reach kernelEnd ∧ (∀ c ∈ b'.out, c.2 = 0) ∧ freePages b'.state = ∅ := by
  have finite : ∀ {b : Books}, b.Reach kernelEnd → (freePages b.state).Finite := fun h =>
    (Set.finite_Iio totalPages).subset fun x hx => ((cover_free (h.kept hk).sound x).mp hx).2.1
  induction n with
  | zero =>
    intro b h h0 hc
    exact ⟨b, h, h0, (Set.ncard_eq_zero (finite h)).mp (Nat.le_zero.mp hc)⟩
  | succ n ih =>
    intro b h h0 hc
    rcases (freePages b.state).eq_empty_or_nonempty with he | hne
    · exact ⟨b, h, h0, he⟩
    obtain ⟨p, hp, hout, hfree⟩ := h.take hk hne
    refine ih (h.step (.alloc 0 gfpKernel)) (fun c hm => ?_) ?_
    · rw [hout, Finset.mem_insert] at hm
      rcases hm with rfl | hm
      · rfl
      · exact h0 c hm
    · rw [hfree]
      have := Set.ncard_sdiff_singleton_lt_of_mem hp (finite h)
      omega

/-- Pages that were taken one by one are given back. -/
theorem Reach.giveBack (hk : StartIn kernelEnd) (l : List Nat) : ∀ {b : Books}, b.Reach kernelEnd → l.Nodup →
    (∀ x ∈ l, (x, 0) ∈ b.out) →
    ∃ b' : Books, b'.Reach kernelEnd ∧ freePages b'.state = freePages b.state ∪ {x | x ∈ l} := by
  induction l with
  | nil => intro b h _ _; exact ⟨b, h, by simp⟩
  | cons p l ih =>
    intro b h hnd hm
    obtain ⟨hp, hnd⟩ := List.nodup_cons.mp hnd
    obtain ⟨-, hf, -⟩ := free_decides_reach hk h (pfnToPa p) 0
    obtain ⟨-, hf⟩ := hf p rfl (hm p (List.mem_cons_self ..))
    obtain ⟨b', h', he⟩ := ih (h.step (.free (pfnToPa p) 0)) hnd fun x hx => by
      refine mem_strike.mpr ⟨hm x (List.mem_cons_of_mem _ hx), fun e => hp ?_⟩
      rw [← pfnToPa_inj e.1]
      exact hx
    refine ⟨b', h', he.trans ?_⟩
    show freePages (freePhysPages b.state (pfnToPa p) 0) ∪ _ = _
    rw [hf]
    ext x
    have : Covers p 0 x ↔ x = p := by unfold Covers; omega
    simp only [Set.mem_union, Set.mem_ofPred_eq, List.mem_cons, this, or_assoc]

/-- The managed range and the limit stay where `buddy_init` puts them. -/
theorem Reach.bounds (hk : StartIn kernelEnd) (h : b.Reach kernelEnd) :
    b.state.buddyMemStart = alignedStart kernelEnd ∧ b.state.dmaEndPfn = dmaEnd kernelEnd := by
  induction h with
  | init s =>
    obtain ⟨-, -, -, -, hF⟩ := inv_init s kernelEnd (startIn_ok hk s)
    exact ⟨hF.start, hF.dma⟩
  | @step b op h ih =>
    have hs := (h.kept hk).sound
    obtain ⟨ih1, ih2⟩ := ih
    have free : ∀ {s : State} (pa order : Nat), Sound s → (freePhysPages s pa order).dmaEndPfn = s.dmaEndPfn := by
      intro s pa order hs
      rcases free_cases hs pa order with ⟨p, -, -, hF⟩ | ⟨-, e, he⟩
      · exact hF.dma
      · rw [he]
        rfl
    cases op with
    | alloc order flags =>
      rcases alloc_spec hs order flags with ⟨⟨e, he⟩, -⟩ | ⟨p, -, hA⟩
      · have : (b.step (.alloc order flags)).state = setError b.state e := congrArg Prod.fst he
        rw [this]
        exact ⟨ih1, ih2⟩
      · exact ⟨hA.start.trans ih1, hA.dma.trans ih2⟩
    | free pa order => exact ⟨(freePhysPages_start _ _ _).trans ih1, (free pa order hs).trans ih2⟩
    | get pa =>
      have e : (getPage b.state pa).buddyMemStart = b.state.buddyMemStart ∧
          (getPage b.state pa).dmaEndPfn = b.state.dmaEndPfn := by
        rw [getPage]
        split
        · exact ⟨rfl, rfl⟩
        · exact ⟨rfl, rfl⟩
      exact ⟨e.1.trans ih1, e.2.trans ih2⟩
    | put pa =>
      refine ⟨(putPage_start _ _).trans ih1, ?_⟩
      have hS := setRef_spec hs (paToPfn pa) ((b.state.memMap (paToPfn pa)).refCount - 1)
      show (putPage b.state pa).dmaEndPfn = _
      simp only [putPage]
      split
      · exact ih2
      split
      · exact ih2
      split
      · exact ((free pa 0 hS.sound).trans hS.dma).trans ih2
      · exact ih2

/-- A run after which the free pages are those of one block. -/
theorem Reach.only (hk : StartIn kernelEnd) {p order : Nat} (hlo : paToPfn (alignedStart kernelEnd) ≤ p)
    (hhi : p + 2 ^ order ≤ totalPages) :
    ∃ b : Books, b.Reach kernelEnd ∧ freePages b.state = {x | Covers p order x} := by
  obtain ⟨b, h, h0, he⟩ := Reach.drain hk _ (.init bssState) (fun c hc => absurd hc (Finset.notMem_empty c)) le_rfl
  have hK := h.kept hk
  have hkp : kernelPages b.state = paToPfn (alignedStart kernelEnd) := by
    unfold kernelPages
    rw [(h.bounds hk).1]
  -- with no page free, every page is a block of its own
  obtain ⟨b', h', hf⟩ := h.giveBack hk (List.range' p (2 ^ order)) List.nodup_range' fun x hx => by
    rw [List.mem_range'_1] at hx
    have hn : ¬ ∀ q k, Used b.state q k → ¬ Covers q k x := fun hn => by
      have hm : x ∈ freePages b.state := (cover_free hK.sound x).mpr ⟨by omega, by omega, hn⟩
      rw [he] at hm
      exact hm
    push Not at hn
    obtain ⟨q, k, hq, hc⟩ := hn
    obtain rfl : k = 0 := h0 _ ((hK.out q k).mpr hq)
    have : x = q := by unfold Covers at hc; omega
    subst this
    exact (hK.out x 0).mpr hq
  refine ⟨b', h', ?_⟩
  rw [hf, he, Set.empty_union]
  ext x
  simp only [Set.mem_ofPred_eq, List.mem_range'_1]
  rfl

end Books

/-- A free block inside the only free pages is all of them. -/
theorem only_block {s : State} {p order q k : Nat} (hf : freePages s = {x | Covers p order x}) (hq : FreeBlk s q k)
    (hk : order ≤ k) : q = p ∧ k = order := by
  have inside (x : Nat) (hx : Covers q k x) : Covers p order x := by
    have hm : x ∈ freePages s := ⟨q, k, hq, hx⟩
    rw [hf] at hm
    exact hm
  have hpos := Nat.two_pow_pos k
  have hle : 2 ^ order ≤ 2 ^ k := Nat.pow_le_pow_right (by omega) hk
  obtain ⟨h1, h2⟩ : p ≤ q ∧ q < p + 2 ^ order := inside q (covers_self q k)
  obtain ⟨-, h3⟩ : p ≤ q + 2 ^ k - 1 ∧ q + 2 ^ k - 1 < p + 2 ^ order :=
    inside _ ⟨by omega, by omega⟩
  have h4 : 2 ^ k = 2 ^ order := by omega
  exact ⟨by omega, Nat.pow_right_injective (le_refl 2) h4⟩

theorem dmaEnd_lt {kernelEnd : Nat} (hk : StartIn kernelEnd) : dmaEnd kernelEnd < totalPages := by
  obtain ⟨h1, h2⟩ := hk
  have ht : totalPages = 65536 := rfl
  show paToPfn (if alignedStart kernelEnd + dmaZoneSize > buddyMemEnd then buddyMemEnd
    else alignedStart kernelEnd + dmaZoneSize) < _
  split
  · rw [paToPfn_eq (by decide) (by decide), ht]
    decide
  · rw [paToPfn_eq (by omega) (by unfold buddyMemEnd at *; omega), ht]
    unfold buddyMemEnd physMemStart pageSize at *
    omega

/-- Whether `GFP_DMA` blocks of an order lie below the limit in every run depends on the
    block around the limit alone: there is none, or the kernel image reaches into it. -/
theorem dma_contained_iff {kernelEnd : Nat} (hk : StartIn kernelEnd) (order : Nat) :
    (∀ b : Books, b.Reach kernelEnd → ∀ flags p, flags &&& gfpDma ≠ 0 →
      (allocPhysPages b.state order flags).2 = pfnToPa p → ∀ x, Covers p order x → x < b.state.dmaEndPfn) ↔
    (order ≤ maxOrder → 2 ^ order ∣ dmaEnd kernelEnd ∨
      dmaEnd kernelEnd / 2 ^ order * 2 ^ order < paToPfn (alignedStart kernelEnd)) := by
  have hpos := Nat.two_pow_pos order
  have hlt := dmaEnd_lt hk
  constructor
  · intro hall ho
    by_contra hn
    rw [not_or, not_lt] at hn
    obtain ⟨hnd, hlo⟩ := hn
    -- the block around the limit, alone on its list
    have hal := Nat.dvd_mul_left (2 ^ order) (dmaEnd kernelEnd / 2 ^ order)
    have hle := Nat.div_mul_le_self (dmaEnd kernelEnd) (2 ^ order)
    have hin : dmaEnd kernelEnd < dmaEnd kernelEnd / 2 ^ order * 2 ^ order + 2 ^ order := Nat.lt_div_mul_add hpos
    generalize dmaEnd kernelEnd / 2 ^ order * 2 ^ order = p at hlo hal hle hin
    have hne : p ≠ dmaEnd kernelEnd := fun e => hnd (e ▸ hal)
    have htot : p + 2 ^ order ≤ totalPages := by
      obtain ⟨m, hm⟩ : 2 ^ order ∣ totalPages := pow_dvd_pow 2 (show order ≤ 16 by unfold maxOrder at ho; omega)
      obtain ⟨j, hj⟩ := hal
      have : j < m := Nat.lt_of_mul_lt_mul_left (a := 2 ^ order) (by omega)
      calc p + 2 ^ order = 2 ^ order * (j + 1) := by rw [hj, Nat.mul_succ]
        _ ≤ 2 ^ order * m := Nat.mul_le_mul_left _ this
        _ = totalPages := hm.symm
    obtain ⟨b, h, hf⟩ := Books.Reach.only hk hlo htot
    have hd := (h.bounds hk).2
    have hs := (h.kept hk).sound
    obtain ⟨q, k, hq, hok, -⟩ := full_in_block (sound_canonical hs) ho hal fun x hx => by
      show x ∈ freePages b.state
      rw [hf]
      exact hx
    obtain ⟨hqp, hko⟩ : q = p ∧ k = order := only_block hf hq hok
    rw [hqp, hko] at hq
    rcases dma_alloc_cases hs order (show gfpDma &&& gfpDma ≠ 0 by decide) with ⟨-, hno⟩ | ⟨j, r, hj, -, -, hr, -, he⟩
    · obtain ⟨-, T, fl, hI, -⟩ := hs
      have hm : p ∈ fl order := (hI.mem order ho p).mpr ((hI.free_iff p order).mp hq)
      obtain ⟨r, l, hfl⟩ := List.exists_cons_of_ne_nil (List.ne_nil_of_mem hm)
      have hrm : r ∈ fl order := hfl ▸ List.mem_cons_self ..
      have hr : r = p := (only_block hf ((hI.free_iff r order).mpr ((hI.mem order ho r).mp hrm)) le_rfl).1
      have := hno order r le_rfl ho (by rw [hI.first_eq ho, hfl]; rfl)
      omega
    · obtain ⟨hrp, -⟩ := only_block hf hr hj
      rw [hrp] at he
      have := hall b h gfpDma p (by decide) he (dmaEnd kernelEnd) ⟨hle, hin⟩
      omega
  · intro hc b h flags p hd hr x hx
    have hs := (h.kept hk).sound
    obtain ⟨hst, hdm⟩ := h.bounds hk
    rcases dma_alloc_cases hs order hd with ⟨h0, -⟩ | ⟨k, q, hok, hkm, -, hfree, hlt, he⟩
    · exact absurd (hr.symm.trans h0) (pfnToPa_ne_zero p)
    obtain rfl : q = p := pfnToPa_inj (he.symm.trans hr)
    have hlo := ((cover_free hs q).mp ⟨q, k, hfree, covers_self q k⟩).1
    have hal : 2 ^ order ∣ q := (Nat.pow_dvd_pow 2 hok).trans ((sound_canonical hs).aligned hfree)
    have hx' : q ≤ x ∧ x < q + 2 ^ order := hx
    rw [hdm] at hlt ⊢
    obtain ⟨m, rfl⟩ := hal
    rcases hc (hok.trans hkm) with ⟨n, hn⟩ | hlow
    · have : m < n := Nat.lt_of_mul_lt_mul_left (a := 2 ^ order) (by omega)
      have : 2 ^ order * (m + 1) ≤ 2 ^ order * n := Nat.mul_le_mul_left _ this
      rw [Nat.mul_succ] at this
      omega
    · have : m ≤ dmaEnd kernelEnd / 2 ^ order := (Nat.le_div_iff_mul_le hpos).mpr (by rw [Nat.mul_comm]; omega)
      have := Nat.mul_le_mul_right (2 ^ order) this
      unfold kernelPages at hlo
      rw [hst] at hlo
      rw [Nat.mul_comm] at this
      omega

theorem dma_contained_pages :
    (∀ b : Books, b.Reach unevenEnd → ∀ flags p, flags &&& gfpDma ≠ 0 →
      (allocPhysPages b.state 9 flags).2 = pfnToPa p → ∀ x, Covers p 9 x → x < b.state.dmaEndPfn) ↔
    (9 ≤ maxOrder → 2 ^ 9 ∣ dmaEnd unevenEnd ∨ dmaEnd unevenEnd / 2 ^ 9 * 2 ^ 9 < paToPfn (alignedStart unevenEnd)) :=
  dma_contained_iff (by unfold StartIn; decide) 9

/-- After three blocks of the largest order the fourth is the one around the limit. -/
theorem dma_straddles : ∃ b : Books, b.Reach unevenEnd ∧ (allocPhysPages b.state 10 gfpDma).2 = pfnToPa 4096 ∧
    Covers 4096 10 4609 ∧ b.state.dmaEndPfn = 4609 := by
  refine ⟨(Books.mk (buddyInit bssState unevenEnd) ∅).run [.alloc 10 gfpDma, .alloc 10 gfpDma, .alloc 10 gfpDma],
    .run _ (.init bssState), ?_⟩
  unfold Covers
  decide +kernel

end Myos.Pmm
