/-
  Myos.Pmm.Blocks — the allocator with the ledger of the blocks it has handed out.

  A block is entered when `alloc_phys_pages` returns it and struck out when
  `free_phys_pages` gets its address and order, or `put_page` takes its last reference;
  nothing of the descriptors is read for it.

  Proved of every run: the ledger is what the descriptors say is allocated; a release
  reports `BUDDY_OK` exactly when it names a block of the ledger, and frees that block;
  every other release reports an error and changes nothing else.
-/

import Mathlib
import Myos.Pmm.Coalescing

namespace Myos.Pmm

open Myos.Lib.Dyadic

inductive Op where
  | alloc (order flags : Nat)
  | free (pa order : Nat)
  | get (pa : Nat)
  | put (pa : Nat)
  deriving DecidableEq, Repr

/-- `out`: the first page and the order of each block handed out and not given back. -/
structure Books where
  state : State
  out : Finset (Nat × Nat)

namespace Books

/-- Strike out the block of that address and order. -/
def strike (out : Finset (Nat × Nat)) (pa order : Nat) : Finset (Nat × Nat) :=
  out.filter fun b => ¬ (pfnToPa b.1 = pa ∧ b.2 = order)

def step (b : Books) : Op → Books
  | .alloc order flags =>
    let r := allocPhysPages b.state order flags
    ⟨r.1, if r.2 = 0 then b.out else insert (paToPfn r.2, order) b.out⟩
  | .free pa order => ⟨freePhysPages b.state pa order, strike b.out pa order⟩
  | .get pa => ⟨getPage b.state pa, b.out⟩
  | .put pa =>
    ⟨putPage b.state pa,
      if paToPfn pa < totalPages ∧ (b.state.memMap (paToPfn pa)).refCount = 1 then strike b.out pa 0 else b.out⟩

inductive Reach (kernelEnd : Nat) : Books → Prop where
  | init (s : State) : Reach kernelEnd ⟨buddyInit s kernelEnd, ∅⟩
  | step {b : Books} (op : Op) : Reach kernelEnd b → Reach kernelEnd (b.step op)

/-- The ledger agrees with the descriptors. -/
structure Kept (b : Books) : Prop where
  sound : Sound b.state
  out : ∀ p k, (p, k) ∈ b.out ↔ Used b.state p k

variable {b : Books}

theorem mem_strike {out : Finset (Nat × Nat)} {pa order p k : Nat} :
    (p, k) ∈ strike out pa order ↔ (p, k) ∈ out ∧ ¬ (pfnToPa p = pa ∧ k = order) := by
  rw [strike, Finset.mem_filter]

theorem Kept.alloc (h : b.Kept) (order flags : Nat) : (b.step (.alloc order flags)).Kept := by
  rcases alloc_spec h.sound order flags with ⟨⟨e, he⟩, -⟩ | ⟨p, hp, hA⟩
  · simp only [step, he, if_true]
    exact ⟨h.sound.setError e, h.out⟩
  · have hlt : p < totalPages := by
      have := hA.hi
      have := Nat.two_pow_pos order
      omega
    simp only [step, hp, pfnToPa_ne_zero, if_false, paToPfn_pfnToPa hlt]
    refine ⟨hA.sound, fun q k => ?_⟩
    rw [Finset.mem_insert, hA.used, ← h.out, Prod.mk.injEq, or_comm]

/-- A release and the ledger. -/
theorem Kept.freed (h : b.Kept) (pa order : Nat) (q k : Nat) :
    (q, k) ∈ strike b.out pa order ↔ Used (freePhysPages b.state pa order) q k := by
  rw [mem_strike, h.out]
  rcases free_cases h.sound pa order with ⟨p, rfl, hu, hF⟩ | ⟨hn, e, he⟩
  · rw [hF.used]
    refine and_congr_right fun hq => not_congr ⟨fun e => pfnToPa_inj e.1, fun e => ⟨by rw [e], ?_⟩⟩
    rw [← hq.2.2, ← hu.2.2, e]
  · rw [he]
    refine ⟨fun hq => hq.1, fun hq => ⟨hq, fun e => hn q e.1.symm (e.2 ▸ hq)⟩⟩

theorem Kept.free (h : b.Kept) (pa order : Nat) : (b.step (.free pa order)).Kept :=
  ⟨(free_any h.sound pa order).1, h.freed pa order⟩

/-- Counts do not matter to the ledger. -/
theorem Kept.refs (h : b.Kept) {s : State} (hs : RefsOnly b.state s) : Kept ⟨s, b.out⟩ :=
  ⟨hs.sound, fun p k => (h.out p k).trans (hs.used p k).symm⟩

theorem Kept.get (h : b.Kept) (pa : Nat) : (b.step (.get pa)).Kept := by
  simp only [step, getPage]
  split
  · exact h
  · exact h.refs (setRef_spec h.sound (paToPfn pa) (add64 (b.state.memMap (paToPfn pa)).refCount 1))

theorem Kept.put (h : b.Kept) (pa : Nat) : (b.step (.put pa)).Kept := by
  simp only [step, putPage]
  by_cases hlt : paToPfn pa < totalPages
  swap
  · rw [if_pos (by omega), if_neg fun e => hlt e.1]
    exact h
  rw [if_neg (by omega)]
  have hS : RefsOnly b.state (setPage b.state (paToPfn pa) fun pg => { pg with refCount := pg.refCount - 1 }) :=
    setRef_spec h.sound (paToPfn pa) ((b.state.memMap (paToPfn pa)).refCount - 1)
  have hc : ((setPage b.state (paToPfn pa) fun pg => { pg with refCount := pg.refCount - 1 }).memMap
      (paToPfn pa)).refCount = (b.state.memMap (paToPfn pa)).refCount - 1 := by simp [setPage]
  by_cases h0 : (b.state.memMap (paToPfn pa)).refCount = 0
  · rw [if_pos h0, if_neg fun e => by omega]
    exact h
  rw [if_neg h0, hc]
  by_cases h1 : (b.state.memMap (paToPfn pa)).refCount = 1
  · rw [if_pos (by omega), if_pos ⟨hlt, h1⟩]
    exact (h.refs hS).free pa 0
  · rw [if_neg (by omega), if_neg fun e => h1 e.2]
    exact h.refs hS

theorem Kept.step (h : b.Kept) (op : Op) : (b.step op).Kept := by
  cases op with
  | alloc order flags => exact h.alloc order flags
  | free pa order => exact h.free pa order
  | get pa => exact h.get pa
  | put pa => exact h.put pa

theorem Reach.kept {kernelEnd : Nat} (hk : StartIn kernelEnd) (h : Reach kernelEnd b) : b.Kept := by
  induction h with
  | init s =>
    refine ⟨sound_init s kernelEnd (startIn_ok hk s), fun p k => ?_⟩
    exact iff_of_false (Finset.notMem_empty _) (init_unused s kernelEnd (startIn_ok hk s) p k)
  | step op _ ih => exact ih.step op

end Books

/-! ## What a release reports -/

/-- A release is refused by one of its checks, or it passes them all. -/
theorem freePhysPages_checks (s : State) (pa order : Nat) :
    (∃ e, e ≠ .ok ∧ freePhysPages s pa order = setError s e) ∨
      (freePhysPages s pa order).lastError = .ok ∧ paInRange s pa = true ∧ pageAligned pa = true ∧
        pageIsAllocated (s.memMap (paToPfn pa)) = true ∧ (s.memMap (paToPfn pa)).flags &&& pgHead ≠ 0 ∧
        (s.memMap (paToPfn pa)).order = order := by
  unfold freePhysPages
  by_cases c1 : validOrder order = true
  swap
  · exact Or.inl ⟨_, by decide, if_pos (by simpa using c1)⟩
  rw [if_neg (by simpa using c1)]
  by_cases c2 : paInRange s pa = true
  swap
  · exact Or.inl ⟨_, by decide, if_pos (by simpa using c2)⟩
  rw [if_neg (by simpa using c2)]
  by_cases c3 : pageAligned pa = true
  swap
  · exact Or.inl ⟨_, by decide, if_pos (by simpa using c3)⟩
  rw [if_neg (by simpa using c3)]
  by_cases c4 : pfnAlignedToOrder (paToPfn pa) order = true
  swap
  · exact Or.inl ⟨_, by decide, if_pos (by simpa using c4)⟩
  rw [if_neg (by simpa using c4)]
  by_cases c5 : paToPfn pa ≥ totalPages
  · exact Or.inl ⟨_, by decide, if_pos c5⟩
  rw [if_neg c5]
  by_cases c6 : (!pageIsAllocated (s.memMap (paToPfn pa)) || (s.memMap (paToPfn pa)).flags &&& pgHead == 0) = true
  · refine Or.inl ⟨if pageIsBuddy (s.memMap (paToPfn pa)) then .doubleFree else .notAllocated, ?_, if_pos c6⟩
    split <;> decide
  dsimp only
  rw [if_neg c6]
  by_cases c7 : (s.memMap (paToPfn pa)).order ≠ order
  · exact Or.inl ⟨_, by decide, if_pos c7⟩
  rw [if_neg c7]
  simp only [Bool.or_eq_true, Bool.not_eq_true', beq_iff_eq, not_or, Bool.not_eq_false] at c6
  exact Or.inr ⟨rfl, c2, c3, c6.1, c6.2, not_not.mp c7⟩

/-- A release that passes the checks names an allocated block. -/
theorem free_reports {s : State} (h : Sound s) (pa order : Nat) :
    ((∃ p, pa = pfnToPa p ∧ Used s p order) ∧ (freePhysPages s pa order).lastError = .ok) ∨
      (¬ ∃ p, pa = pfnToPa p ∧ Used s p order) ∧ ∃ e, e ≠ .ok ∧ freePhysPages s pa order = setError s e := by
  rcases freePhysPages_checks s pa order with ⟨e, hne, he⟩ | ⟨hok, c2, c3, c5, c6, c7⟩
  · refine Or.inr ⟨?_, e, hne, he⟩
    rintro ⟨p, rfl, hu⟩
    -- the block would still be there after its release
    have := (((free_used h hu).used p order).mp (by rw [he]; exact hu)).2
    exact this rfl
  · obtain ⟨hst, T, fl, hI, -⟩ := h
    simp only [paInRange, Bool.and_eq_true, decide_eq_true_eq] at c2
    obtain ⟨hpa, hlt⟩ := pfnToPa_paToPfn (Nat.le_trans hst.ge c2.1) c2.2 ((pageAligned_iff pa).mp c3)
    obtain ⟨k, hk⟩ := (hI.page _ hlt).used_iff.mp ⟨c5, c6⟩
    have hu := (hI.used_iff _ _).mpr hk
    refine Or.inl ⟨⟨paToPfn pa, hpa.symm, ?_⟩, hok⟩
    rw [← c7, hu.2.2]
    exact hu

/-- In every run a release reports success exactly for the blocks that are handed out; it
    then frees the pages of that block, and otherwise changes nothing but the error code. -/
theorem free_decides_reach {kernelEnd : Nat} (hk : StartIn kernelEnd) {b : Books} (h : b.Reach kernelEnd)
    (pa order : Nat) :
    ((freePhysPages b.state pa order).lastError = .ok ↔ ∃ p, pa = pfnToPa p ∧ (p, order) ∈ b.out) ∧
    (∀ p, pa = pfnToPa p → (p, order) ∈ b.out →
      usedBlocks (freePhysPages b.state pa order) = usedBlocks b.state \ {(p, order)} ∧
      freePages (freePhysPages b.state pa order) = freePages b.state ∪ {x | Covers p order x}) ∧
    ((¬ ∃ p, pa = pfnToPa p ∧ (p, order) ∈ b.out) →
      (freePhysPages b.state pa order).memMap = b.state.memMap ∧ (freePhysPages b.state pa order).links = b.state.links ∧
      (freePhysPages b.state pa order).nrFree = b.state.nrFree) := by
  have hK := h.kept hk
  simp only [hK.out]
  have hr := free_reports hK.sound pa order
  refine ⟨?_, fun p hp hu => ?_, fun hn => ?_⟩
  · rcases hr with ⟨hu, hok⟩ | ⟨hn, e, hne, he⟩
    · exact iff_of_true hok hu
    · exact iff_of_false (by rw [he]; exact hne) hn
  · subst hp
    have hF := free_used hK.sound hu
    refine ⟨Set.ext fun c => ?_, freed_pages hK.sound hF.sound hu hF.used hF.start⟩
    show Used _ c.1 c.2 ↔ Used _ c.1 c.2 ∧ c ≠ (p, order)
    rw [hF.used]
    refine and_congr_right fun hc => not_congr ⟨fun e => Prod.ext e ?_, fun e => by rw [e]⟩
    rw [← hc.2.2, ← hu.2.2, e]
  · rcases hr with ⟨hu, -⟩ | ⟨-, e, -, he⟩
    · exact absurd hu hn
    · rw [he]
      exact ⟨rfl, rfl, rfl⟩

/-- A block is handed out and its interior page, the block itself and the block again are released. -/
theorem free_decides_twice :
    let b := ((((Books.mk (buddyInit bssState (kernelSpaceStart + 0x40200000)) ∅).step (.alloc 3 gfpKernel)).step
      (.free 0x40201000 3)).step (.free 0x40200000 3))
    (freePhysPages b.state 0x40200000 3).lastError = .ok ↔ ∃ p, 0x40200000 = pfnToPa p ∧ (p, 3) ∈ b.out :=
  (free_decides_reach (by unfold StartIn; decide)
    (.step (.free 0x40200000 3) (.step (.free 0x40201000 3) (.step (.alloc 3 gfpKernel) (.init bssState))))
    0x40200000 3).1

end Myos.Pmm
