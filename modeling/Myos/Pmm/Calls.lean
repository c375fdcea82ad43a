/-
  Myos.Pmm.Calls — what `buddy_init`, `alloc_phys_pages` and `free_phys_pages` do to
  the set of allocated blocks.

  `Sound` is the invariant between calls. `alloc_spec`: a call fails and changes
  nothing but the error code, or it hands out a block apart from every allocated one.
  `free_used` / `free_refused`: a release of an allocated block removes exactly that
  block, every other release changes nothing but the error code. `inv_init`: the
  seeding loop of `buddy_init` establishes the invariant. `sound_reach`: it holds in
  every run.
-/

import Myos.Pmm.Partition

namespace Myos.Pmm

open Myos.Lib.ListHead Myos.Lib.Dyadic

/-- The block of order `k` at `p` is allocated. -/
def Used (s : State) (p k : Nat) : Prop :=
  p < totalPages ∧ (s.memMap p).flags = pgAllocated ||| pgHead ∧ (s.memMap p).order = k

/-- The block of order `k` at `p` is free. -/
def FreeBlk (s : State) (p k : Nat) : Prop :=
  p < totalPages ∧ (s.memMap p).flags = pgBuddy ||| pgHead ∧ (s.memMap p).order = k

/-- The start of the managed range is a page boundary inside the physical range. -/
structure StartOk (s : State) : Prop where
  ge : physMemStart ≤ s.buddyMemStart
  le : s.buddyMemStart ≤ buddyMemEnd
  aligned : pageSize ∣ s.buddyMemStart

structure Sound (s : State) : Prop where
  start : StartOk s
  tiled : ∃ T fl, Inv totalPages s T fl ∧ NoHeld T

/-! ## Addresses -/

theorem paToPfn_eq {pa : Nat} (h : physMemStart ≤ pa) (h' : pa < 2 ^ 64) :
    paToPfn pa = (pa - physMemStart) / pageSize := by
  have : sub64 pa physMemStart = pa - physMemStart := by unfold sub64 physMemStart at *; omega
  rw [paToPfn, this, Nat.shiftRight_eq_div_pow]; rfl

theorem pfnToPa_eq (p : Nat) : pfnToPa p = physMemStart + p * pageSize := by
  rw [pfnToPa, Nat.shiftLeft_eq]; rfl

theorem paToPfn_pfnToPa {p : Nat} (h : p < totalPages) : paToPfn (pfnToPa p) = p := by
  have ht : totalPages = 65536 := rfl
  rw [paToPfn_eq (by rw [pfnToPa_eq]; omega) (by rw [pfnToPa_eq]; unfold physMemStart pageSize; omega), pfnToPa_eq]
  unfold pageSize; omega

theorem pageAligned_iff (pa : Nat) : pageAligned pa = true ↔ pageSize ∣ pa := by
  have : pageSize = 2 ^ 12 := rfl
  rw [pageAligned, beq_iff_eq, this, Nat.and_two_pow_sub_one_eq_mod, Nat.dvd_iff_mod_eq_zero]

theorem pfnToPa_ne_zero (p : Nat) : pfnToPa p ≠ 0 := by
  rw [pfnToPa_eq]; unfold physMemStart; omega

theorem pfnToPa_aligned (p : Nat) : pageSize ∣ pfnToPa p := by
  rw [pfnToPa_eq]; exact Nat.dvd_add ⟨0x40000, rfl⟩ (Nat.dvd_mul_left _ _)

theorem pfnToPa_inj {p q : Nat} (h : pfnToPa p = pfnToPa q) : p = q := by
  rw [pfnToPa_eq, pfnToPa_eq] at h; unfold pageSize at h; omega

/-- An aligned address in range is that of its page frame. -/
theorem pfnToPa_paToPfn {pa : Nat} (h1 : physMemStart ≤ pa) (h2 : pa ≤ buddyMemEnd) (h3 : pageSize ∣ pa) :
    pfnToPa (paToPfn pa) = pa ∧ paToPfn pa < totalPages := by
  have ht : totalPages = 65536 := rfl
  rw [paToPfn_eq h1 (by unfold buddyMemEnd at h2; omega), pfnToPa_eq]
  unfold physMemStart buddyMemEnd pageSize at *
  omega

section

variable {hi : Nat} {s : State} {T : Tiles} {fl : Nat → List Nat}

theorem kernelPages_eq (h : StartOk s) : kernelPages s * pageSize + physMemStart = s.buddyMemStart := by
  have h1 := h.ge; have h2 := h.le; have h3 := h.aligned
  have := (pfnToPa_paToPfn h1 h2 h3).1
  rw [pfnToPa_eq] at this
  unfold kernelPages; omega

theorem kernelPages_lt (h : StartOk s) : kernelPages s < totalPages := (pfnToPa_paToPfn h.ge h.le h.aligned).2

/-! ## Blocks and labels -/

theorem Inv.used_iff (h : Inv hi s T fl) (p k : Nat) : Used s p k ↔ T p = some (k, .used) := by
  constructor
  · rintro ⟨hp, hf, hk⟩
    have := h.page p hp
    match hT : T p, this with
    | some (j, .free), hpg => rw [hpg.1] at hf; simp [pgBuddy, pgHead, pgAllocated] at hf
    | some (j, .used), hpg => rw [← hk, hpg.2]
    | some (j, .held), hpg => rcases hpg with e | e <;> (rw [e] at hf; simp [pgReserved, pgHead, pgAllocated] at hf)
    | none, hpg => rcases hpg with e | e <;> (rw [e] at hf; simp [pgReserved, pgHead, pgAllocated] at hf)
  · intro hp
    have hlt := h.lt hp
    have := h.page p hlt
    rw [hp] at this
    exact ⟨hlt, this⟩

theorem Inv.free_iff (h : Inv hi s T fl) (p k : Nat) : FreeBlk s p k ↔ T p = some (k, .free) := by
  constructor
  · rintro ⟨hp, hf, hk⟩
    have := h.page p hp
    match hT : T p, this with
    | some (j, .free), hpg => rw [← hk, hpg.2]
    | some (j, .used), hpg => rw [hpg.1] at hf; simp [pgBuddy, pgHead, pgAllocated] at hf
    | some (j, .held), hpg => rcases hpg with e | e <;> (rw [e] at hf; simp [pgReserved, pgHead, pgBuddy] at hf)
    | none, hpg => rcases hpg with e | e <;> (rw [e] at hf; simp [pgReserved, pgHead, pgBuddy] at hf)
  · intro hp
    have hlt := h.lt hp
    have := h.page p hlt
    rw [hp] at this
    exact ⟨hlt, this⟩

/-! ## Allocation -/

/-- `s'` is `s` with the block of order `order` at `p` handed out. -/
structure AllocAt (s s' : State) (p order : Nat) : Prop where
  sound : Sound s'
  order_le : order ≤ maxOrder
  aligned : 2 ^ order ∣ p
  lo : kernelPages s ≤ p
  hi : p + 2 ^ order ≤ totalPages
  used : ∀ q k, Used s' q k ↔ Used s q k ∨ (q = p ∧ k = order)
  fresh : ∀ q k x, Used s q k → Covers q k x → ¬ Covers p order x
  ref : (s'.memMap p).refCount = 1
  refs : ∀ q, q ≠ p → (s'.memMap q).refCount = (s.memMap q).refCount
  start : s'.buddyMemStart = s.buddyMemStart
  dma : s'.dmaEndPfn = s.dmaEndPfn

theorem alloc_spec (h : Sound s) (order flags : Nat) :
    ((∃ e, allocPhysPages s order flags = (setError s e, 0)) ∧
      (flags &&& gfpDma = 0 → order ≤ maxOrder → ∀ q k, FreeBlk s q k → k < order)) ∨
    ∃ p, (allocPhysPages s order flags).2 = pfnToPa p ∧ AllocAt s (allocPhysPages s order flags).1 p order := by
  obtain ⟨hst, T, fl, hI, hn⟩ := h
  unfold allocPhysPages
  by_cases hv : validOrder order = true
  swap
  · rw [if_pos (by simpa using hv)]
    exact Or.inl ⟨⟨_, rfl⟩, fun _ ho => absurd (by simpa [validOrder] using ho) hv⟩
  rw [if_neg (by simpa using hv)]
  have hom : order ≤ maxOrder := by simpa [validOrder] using hv
  have hl : ∀ c ∈ List.range' order (maxOrder + 1 - order), order ≤ c ∧ c ≤ maxOrder := by
    intro c hc; rw [List.mem_range'_1] at hc; omega
  rcases allocFrom_spec hI hn order (flags &&& gfpDma != 0) _ hl with ⟨hr, hd⟩ | ⟨p, T', fl', hp, hI', hH, hU, hF⟩
  · left
    simp only [buddyAllocPfn, hr, ge_iff_le, Nat.le_refl, if_true]
    refine ⟨⟨_, rfl⟩, fun hf _ q k hq => ?_⟩
    rw [hI.free_iff] at hq
    by_contra hlt
    have hk := hI.order q k _ hq
    have := hd (by simp [hf]) k (List.mem_range'_1.mpr (by omega))
    have hm := (hI.mem k hk q).mpr hq
    rw [this] at hm; cases hm
  · right
    have hplt := hI'.lt hH.1
    have hins := hI'.tiling.inside hH.1
    simp only [buddyAllocPfn, hp, ge_iff_le, Nat.not_le.mpr hplt, if_false]
    generalize (buddyAllocFrom s order (flags &&& gfpDma != 0) (List.range' order (maxOrder + 1 - order))).1 = s1 at *
    have hkp : kernelPages s1 = kernelPages s := by unfold kernelPages; rw [hF.start]
    refine ⟨p, rfl, ?_⟩
    -- the held block gets the label `used`, and its descriptor says so
    let T2 : Tiles := Function.update T' p (some (order, .used))
    have hI2 := (hI'.relabel hH.1 (by simp) (show Tag.used ≠ .free by simp)
      (f := fun pg => { markPageAllocated order pg with refCount := 1 }) ⟨rfl, rfl⟩).setError .ok
    have hused : ∀ q k, T2 q = some (k, .used) ↔ T q = some (k, .used) ∨ (q = p ∧ k = order) := by
      intro q k
      by_cases e : q = p
      · subst e
        have : T q ≠ some (k, .used) := fun ht => by rw [← hU, hH.1] at ht; simp at ht
        simp [T2, this, eq_comm]
      · simp only [T2, Function.update_of_ne e, e, false_and, or_false]; exact hU q k
    refine ⟨⟨⟨?_, ?_, ?_⟩, T2, fl', hI2, ?_⟩, hom, hI'.tiling.aligned hH.1, by omega, hins.2, ?_, ?_, ?_, ?_, ?_, ?_⟩
    · exact hF.start ▸ hst.ge
    · exact hF.start ▸ hst.le
    · exact hF.start ▸ hst.aligned
    · intro q k hq
      by_cases e : q = p
      · subst e; simp [T2] at hq
      · simp only [T2, Function.update_of_ne e] at hq; exact e (hH.2 q k hq)
    · intro q k; rw [hI2.used_iff, hI.used_iff]; exact hused q k
    · intro q k x hq hx hx'
      rw [hI.used_iff, ← hU] at hq
      have := hI'.tiling.apart hq hH.1 hx hx'
      subst this
      rw [hH.1] at hq; simp at hq
    · simp [Pmm.setError, setPage]
    · intro q hq; simp only [Pmm.setError, setPage, Function.update_of_ne hq]; exact hF.refs q
    · exact hF.start
    · exact hF.dma

/-! ## Release -/

/-- `s'` is `s` with the allocated block of order `k` at `p` given back. -/
structure FreedAt (s s' : State) (p : Nat) : Prop where
  sound : Sound s'
  used : ∀ q j, Used s' q j ↔ Used s q j ∧ q ≠ p
  refs : ∀ q, (s'.memMap q).refCount = (s.memMap q).refCount
  start : s'.buddyMemStart = s.buddyMemStart
  dma : s'.dmaEndPfn = s.dmaEndPfn

theorem free_used (h : Sound s) {p k : Nat} (hu : Used s p k) : FreedAt s (freePhysPages s (pfnToPa p) k) p := by
  obtain ⟨hst, T, fl, hI, hn⟩ := h
  have hp := (hI.used_iff p k).mp hu
  have hplt := hI.lt hp
  have hkm := hI.order p k _ hp
  have hpage := hI.page p hplt
  rw [hp] at hpage
  have hlo := (hI.tiling.inside hp).1
  have hkp := kernelPages_eq hst
  have hrange : paInRange s (pfnToPa p) = true := by
    have ht : totalPages = 65536 := rfl
    simp only [paInRange, Bool.and_eq_true, decide_eq_true_eq, pfnToPa_eq]
    unfold physMemStart buddyMemEnd pageSize at *
    omega
  have hhead : (s.memMap p).flags &&& pgHead ≠ 0 ∧ pageIsAllocated (s.memMap p) = true := by
    simp [pageIsAllocated, hpage.1, pgAllocated, pgHead]
  -- the block is held, merged with its free buddies, and put on the list of its order
  have hI1 := hI.relabel hp (by simp) (show Tag.held ≠ .free by simp) (f := clearPageFlags) (Or.inl rfl)
  have hH1 : Held (Function.update T p (some (k, .held))) p k := by
    refine ⟨by simp, fun q j hq => ?_⟩
    by_contra e
    rw [Function.update_of_ne e] at hq
    exact hn q j hq
  obtain ⟨T', fl', hI2, hH2, hU2, hF2, hS2⟩ := merge_spec (maxOrder - k) rfl hI1 hH1
  have hF1 := setPage_frame s p clearPageFlags rfl
  have hdef : freePhysPages s (pfnToPa p) k =
      setError (addToFreeArea (buddyMergeFrom (setPage s p clearPageFlags) p k (maxOrder - k)).1
        (buddyMergeFrom (setPage s p clearPageFlags) p k (maxOrder - k)).2.1
        (buddyMergeFrom (setPage s p clearPageFlags) p k (maxOrder - k)).2.2) .ok := by
    unfold freePhysPages
    rw [paToPfn_pfnToPa hplt, if_neg (by simp [validOrder, hkm]), if_neg (by simp [hrange]),
      if_neg (by simp [(pageAligned_iff _).mpr (pfnToPa_aligned p)]),
      if_neg (by simp [(pfnAlignedToOrder_iff p k).mpr (hI.tiling.aligned hp)]), if_neg (by omega)]
    simp only [hhead.2, Bool.not_true, Bool.false_or, beq_iff_eq, hhead.1, if_false, hpage.2, ne_eq, not_true_eq_false]
    rfl
  rw [hdef]
  generalize buddyMergeFrom (setPage s p clearPageFlags) p k (maxOrder - k) = r at *
  have hI3 := (hI2.add hH2.1 hS2).setError .ok
  have hF := (hF1.trans hF2).trans (addToFreeArea_frame r.1 r.2.1 r.2.2)
  refine ⟨⟨⟨?_, ?_, ?_⟩, _, _, hI3, ?_⟩, ?_, hF.refs, hF.start, hF.dma⟩
  · exact hF.start ▸ hst.ge
  · exact hF.start ▸ hst.le
  · exact hF.start ▸ hst.aligned
  · intro q j hq
    obtain ⟨hne, hq⟩ := held_add hq
    exact hne (hH2.2 q j hq)
  · intro q j
    rw [hI3.used_iff, hI.used_iff]
    have hstep : Function.update T' r.2.1 (some (r.2.2, Tag.free)) q = some (j, .used) ↔ T' q = some (j, .used) :=
      sameUsed_update (by simp [hH2.1]) (by simp) q j
    rw [hstep, hU2]
    by_cases e : q = p
    · subst e; simp
    · rw [Function.update_of_ne e]; simp [e]

/-- A release that names no allocated block changes nothing but the error code. -/
theorem free_refused (h : Sound s) {pa order : Nat} (hn : ∀ p, pa = pfnToPa p → ¬ Used s p order) :
    ∃ e, freePhysPages s pa order = setError s e := by
  obtain ⟨hst, T, fl, hI, -⟩ := h
  unfold freePhysPages
  by_cases c1 : validOrder order = true
  swap
  · exact ⟨_, if_pos (by simpa using c1)⟩
  rw [if_neg (by simpa using c1)]
  by_cases c2 : paInRange s pa = true
  swap
  · exact ⟨_, if_pos (by simpa using c2)⟩
  rw [if_neg (by simpa using c2)]
  by_cases c3 : pageAligned pa = true
  swap
  · exact ⟨_, if_pos (by simpa using c3)⟩
  rw [if_neg (by simpa using c3)]
  simp only [paInRange, Bool.and_eq_true, decide_eq_true_eq] at c2
  obtain ⟨hpa, hlt⟩ := pfnToPa_paToPfn (Nat.le_trans hst.ge c2.1) c2.2 ((pageAligned_iff pa).mp c3)
  by_cases c4 : pfnAlignedToOrder (paToPfn pa) order = true
  swap
  · exact ⟨_, if_pos (by simpa using c4)⟩
  simp only [c4, Bool.not_true, Bool.false_eq_true, if_false, ge_iff_le, Nat.not_le.mpr hlt]
  by_cases c5 : (!pageIsAllocated (s.memMap (paToPfn pa)) || (s.memMap (paToPfn pa)).flags &&& pgHead == 0) = true
  · exact ⟨_, if_pos c5⟩
  rw [if_neg c5]
  simp only [Bool.or_eq_true, Bool.not_eq_true', beq_iff_eq, not_or, Bool.not_eq_false] at c5
  obtain ⟨k, hk⟩ := (hI.page _ hlt).used_iff.mp c5
  have hu := (hI.used_iff _ _).mpr hk
  refine ⟨_, if_pos fun e => hn (paToPfn pa) hpa.symm ?_⟩
  rw [← e, hu.2.2]; exact hu

/-- Only the error code and the blocks of a state matter to its soundness. -/
theorem Sound.setError (h : Sound s) (e : BuddyError) : Sound (setError s e) := by
  obtain ⟨hst, T, fl, hI, hn⟩ := h
  exact ⟨⟨hst.ge, hst.le, hst.aligned⟩, T, fl, hI.setError e, hn⟩

theorem used_setError (s : State) (e : BuddyError) (p k : Nat) : Used (setError s e) p k ↔ Used s p k := Iff.rfl

/-! ## The managed range -/

theorem mergeFrom_start (fuel : Nat) : ∀ (s : State) (p k : Nat),
    (buddyMergeFrom s p k fuel).1.buddyMemStart = s.buddyMemStart := by
  induction fuel with
  | zero => intro s p k; rfl
  | succ fuel ih =>
    intro s p k
    simp only [buddyMergeFrom]
    split
    · rfl
    split
    · rfl
    split
    · rfl
    · exact ih _ _ _

/-- No release moves the managed range. -/
theorem freePhysPages_start (s : State) (pa order : Nat) :
    (freePhysPages s pa order).buddyMemStart = s.buddyMemStart := by
  simp only [freePhysPages]
  split
  · rfl
  split
  · rfl
  split
  · rfl
  split
  · rfl
  split
  · rfl
  split
  · rfl
  split
  · rfl
  · exact mergeFrom_start _ _ _ _

theorem putPage_start (s : State) (pa : Nat) : (putPage s pa).buddyMemStart = s.buddyMemStart := by
  simp only [putPage]
  split
  · rfl
  split
  · rfl
  split
  · exact freePhysPages_start _ _ _
  · rfl

/-! ## Reference counts -/

/-- `s'` is `s` but for reference counts (and the error code). -/
structure RefsOnly (s s' : State) : Prop where
  sound : Sound s'
  used : ∀ q k, Used s' q k ↔ Used s q k
  start : s'.buddyMemStart = s.buddyMemStart
  dma : s'.dmaEndPfn = s.dmaEndPfn

theorem setRef_spec (h : Sound s) (p n : Nat) : RefsOnly s (setPage s p fun pg => { pg with refCount := n }) := by
  obtain ⟨hst, T, fl, hI, hn⟩ := h
  have hpg : ∀ q, ((setPage s p fun pg => { pg with refCount := n }).memMap q).flags = (s.memMap q).flags ∧
      ((setPage s p fun pg => { pg with refCount := n }).memMap q).order = (s.memMap q).order := by
    intro q
    by_cases e : q = p
    · subst e; simp [setPage]
    · simp [setPage, e]
  have hI' : Inv totalPages (setPage s p fun pg => { pg with refCount := n }) T fl := by
    refine hI.setPages rfl rfl rfl fun q hq => ?_
    have := hI.page q hq
    obtain ⟨hf, ho⟩ := hpg q
    rcases hT : T q with _ | ⟨k, t⟩ <;> rw [hT] at this
    · exact this.imp hf.trans hf.trans
    · cases t with
      | free => exact ⟨hf.trans this.1, ho.trans this.2⟩
      | used => exact ⟨hf.trans this.1, ho.trans this.2⟩
      | held => exact this.imp hf.trans hf.trans
  exact ⟨⟨⟨hst.ge, hst.le, hst.aligned⟩, T, fl, hI', hn⟩, fun q k => by rw [hI'.used_iff, hI.used_iff], rfl, rfl⟩

end

end Myos.Pmm
