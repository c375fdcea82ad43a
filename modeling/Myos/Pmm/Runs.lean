/-
  Myos.Pmm.Runs — `buddy_init` establishes the invariant, every call keeps it.

  The seeding loop lays blocks of the largest order that is aligned and fits from the
  first managed page to the last (`seed_spec`); because each block is the largest, no
  two neighbouring ones are buddies (`pickOrder_max`).

  Proved of every run (`Reach`): `partition_reach`, the free and the allocated blocks
  are aligned, disjoint, inside the managed pages and cover them, each free block is
  once on exactly one list, and `nr_free` counts the lists.
-/

import Myos.Pmm.Calls

namespace Myos.Pmm

open Myos.Lib.ListHead Myos.Lib.Dyadic

/-! ## Seeding -/

theorem pickOrder_spec {pfn remain : Nat} (hr : 0 < remain) (n : Nat) :
    pickOrder pfn remain n ≤ n ∧ 2 ^ pickOrder pfn remain n ≤ remain ∧ 2 ^ pickOrder pfn remain n ∣ pfn := by
  induction n with
  | zero => simp only [pickOrder, Nat.pow_zero]; exact ⟨Nat.le_refl _, hr, Nat.one_dvd _⟩
  | succ n ih =>
    simp only [pickOrder]
    split
    · rename_i h
      simp only [Bool.and_eq_true, decide_eq_true_eq, pfnAlignedToOrder_iff] at h
      exact ⟨Nat.le_refl _, h.1, h.2⟩
    · exact ⟨by omega, ih.2⟩

theorem pickOrder_max {pfn remain j : Nat} (h1 : 2 ^ j ≤ remain) (h2 : 2 ^ j ∣ pfn) :
    ∀ n, j ≤ n → j ≤ pickOrder pfn remain n := by
  intro n
  induction n with
  | zero => intro hj; simpa [pickOrder] using hj
  | succ n ih =>
    intro hj
    simp only [pickOrder]
    split
    · exact hj
    · rename_i h
      simp only [Bool.and_eq_true, decide_eq_true_eq, pfnAlignedToOrder_iff] at h
      refine ih ?_
      by_contra hlt
      obtain rfl : j = n + 1 := by omega
      exact h ⟨h1, h2⟩

theorem forPages_apply (m : Nat → Page) (lo hi : Nat) (f : Page → Page) (i : Nat) :
    forPages m lo hi f i = if lo ≤ i ∧ i < hi then f (m i) else m i := rfl

section

variable {hi : Nat} {s : State} {T : Tiles} {fl : Nat → List Nat}

/-- The pages after the tiled ones start no block. -/
theorem Inv.above (h : Inv hi s T fl) {p : Nat} (hp : hi ≤ p) : T p = none := by
  cases hT : T p with
  | none => rfl
  | some b =>
    have := (h.tiling.inside (t := b.2) hT).2
    have := Nat.two_pow_pos b.1
    omega

/-- One more held block at the end of the tiled pages. -/
theorem Inv.extend (h : Inv hi s T fl) {k : Nat} (hle : kernelPages s ≤ hi) (hk : k ≤ maxOrder) (hal : 2 ^ k ∣ hi)
    (hhi : hi + 2 ^ k ≤ totalPages) : Inv (hi + 2 ^ k) s (Function.update T hi (some (k, .held))) fl := by
  have hnone := h.above (Nat.le_refl hi)
  have hfree : ∀ q j, Function.update T hi (some (k, Tag.held)) q = some (j, .free) ↔ T q = some (j, .free) := by
    intro q j
    by_cases e : q = hi
    · subst e; simp [hnone]
    · rw [Function.update_of_ne e]
  refine ⟨h.tiling.extend hle hal _, hhi, ?_, h.ring, fun j hj q => (h.mem j hj q).trans (hfree q j).symm, h.nrFree, ?_,
    noBuddies_of_sub h.noBuddies fun q j => (hfree q j).mp⟩
  · intro q j t hq
    by_cases e : q = hi
    · subst e; simp at hq; omega
    · rw [Function.update_of_ne e] at hq; exact h.order q j t hq
  · intro q hq
    by_cases e : q = hi
    · subst e
      rw [Function.update_self]
      exact (h.page q hq).plain (Or.inl hnone) (Or.inr ⟨k, rfl⟩)
    · rw [Function.update_of_ne e]; exact h.page q hq

theorem Inv.seedBlock (h : Inv hi s T fl) {k : Nat} (hle : kernelPages s ≤ hi) (hk : k ≤ maxOrder) (hal : 2 ^ k ∣ hi)
    (hhi : hi + 2 ^ k ≤ totalPages) (hb : k < maxOrder → T (buddy hi k) ≠ some (k, .free)) :
    Inv (hi + 2 ^ k) (seedBlock s hi k) (Function.update T hi (some (k, .free)))
      (Function.update fl k (fl k ++ [hi])) := by
  have h1 := h.extend hle hk hal hhi
  have h2 : Inv (hi + 2 ^ k) (setPage s hi clearPageFlags) (Function.update T hi (some (k, .held))) fl := by
    refine h1.setPages rfl rfl rfl fun q hq => ?_
    by_cases e : q = hi
    · subst e; simp [setPage, PageAs, clearPageFlags]
    · simp only [setPage, Function.update_of_ne e]
      have := h1.page q hq
      rwa [Function.update_of_ne e] at this
  have h3 := h2.add (p := hi) (k := k) (by simp) fun hlt => by
    rw [Function.update_of_ne (buddy_ne hi k)]; exact hb hlt
  rw [Function.update_idem] at h3
  refine h3.setPages rfl rfl rfl fun q hq => ?_
  simp only [Pmm.seedBlock, forPages_apply]
  split
  · rename_i hin
    have hnone : Function.update T hi (some (k, Tag.free)) q = none :=
      h3.tiling.inner (p := hi) (k := k) (t := .free) (by simp) ⟨by omega, hin.2⟩ (by omega)
    rw [hnone]
    exact Or.inl rfl
  · exact h3.page q hq

theorem seedBlock_frame (s : State) (p k : Nat) : Frame s (Pmm.seedBlock s p k) := by
  have h1 := setPage_frame s p clearPageFlags rfl
  have h2 := addToFreeArea_frame (setPage s p clearPageFlags) p k
  refine (h1.trans h2).trans ⟨rfl, rfl, fun q => ?_⟩
  simp only [Pmm.seedBlock, forPages_apply]
  split <;> rfl

/-- The blocks laid so far: each is free and the largest that fitted where it starts. -/
def Seeded (T : Tiles) : Prop :=
  ∀ p k t, T p = some (k, t) → t = .free ∧ k = pickOrder p (totalPages - p) maxOrder

theorem seed_spec : ∀ (fuel : Nat) {s : State} {T : Tiles} {fl : Nat → List Nat} {pfn remain : Nat}, remain ≤ fuel →
    pfn + remain = totalPages → kernelPages s ≤ pfn → Inv pfn s T fl → Seeded T → ∃ T' fl',
      Inv totalPages (seedBlocks s pfn remain fuel) T' fl' ∧ Seeded T' ∧ Frame s (seedBlocks s pfn remain fuel) := by
  intro fuel
  induction fuel with
  | zero =>
    intro s T fl pfn remain hf hsum hle h hs
    obtain rfl : pfn = totalPages := by omega
    exact ⟨T, fl, h, hs, Frame.rfl' s⟩
  | succ fuel ih =>
    intro s T fl pfn remain hf hsum hle h hs
    simp only [seedBlocks]
    split
    · rename_i h0
      obtain rfl : pfn = totalPages := by omega
      exact ⟨T, fl, h, hs, Frame.rfl' s⟩
    · rename_i h0
      obtain ⟨hk, hfit, hal⟩ := pickOrder_spec (show 0 < remain by omega) maxOrder
      have hrem : totalPages - pfn = remain := by omega
      generalize hkd : pickOrder pfn remain maxOrder = k at *
      have hpos := Nat.two_pow_pos k
      -- a free buddy would lie just below, and would have been laid at the next order
      have hb : k < maxOrder → T (buddy pfn k) ≠ some (k, .free) := by
        intro hlt hT
        have hins := (h.tiling.inside hT).2
        have hodd : ¬ 2 ^ (k + 1) ∣ pfn := fun he => by rw [buddy_of_even he] at hins; omega
        have hsum' := buddy_of_odd hal hodd
        have hev := min_buddy_aligned hal
        rw [Nat.min_eq_right (by omega)] at hev
        have hkq := (hs _ _ _ hT).2
        have := pickOrder_max (j := k + 1)
          (show 2 ^ (k + 1) ≤ totalPages - buddy pfn k by rw [Nat.pow_succ]; omega) hev maxOrder hlt
        omega
      have h1 := h.seedBlock hle hk hal (by omega) hb
      have hF := seedBlock_frame s pfn k
      have hs' : Seeded (Function.update T pfn (some (k, .free))) := by
        intro q j t hq
        by_cases e : q = pfn
        · subst e
          simp only [Function.update_self, Option.some.injEq, Prod.mk.injEq] at hq
          exact ⟨hq.2.symm, by rw [hrem, hkd]; exact hq.1.symm⟩
        · rw [Function.update_of_ne e] at hq; exact hs q j t hq
      have hkp : kernelPages (Pmm.seedBlock s pfn k) = kernelPages s := by unfold kernelPages; rw [hF.start]
      obtain ⟨T', fl', hI, hS, hF'⟩ := @ih _ _ _ _ (remain - 2 ^ k) (by omega) (by omega) (by omega) h1 hs'
      exact ⟨T', fl', hI, hS, hF.trans hF'⟩

end

theorem initState_inv (s : State) {start : Nat} (h : StartOk (initState s start)) :
    Inv (kernelPages (initState s start)) (initState s start) (fun _ => none) (fun _ => []) := by
  have hkp := kernelPages_eq h
  have hge : physMemStart ≤ start := h.ge
  have hle : start ≤ buddyMemEnd := h.le
  have hal : pageSize ∣ start := h.aligned
  have hlt := kernelPages_lt h
  have htot : paToPfn start + (buddyMemEnd - start + 1) >>> pageShift = totalPages := by
    have ht : totalPages = 65536 := rfl
    have : (buddyMemEnd - start + 1) >>> pageShift = (buddyMemEnd - start + 1) / pageSize := Nat.shiftRight_eq_div_pow _ _
    rw [this, paToPfn_eq hge (by unfold buddyMemEnd at hle; omega)]
    unfold physMemStart buddyMemEnd pageSize at *
    omega
  refine ⟨tiling_empty _, Nat.le_of_lt hlt, (fun _ _ _ h => nomatch h), fun k hk => ?_, fun _ _ _ => by simp, fun k hk => ?_,
    fun p hp => Or.inr ?_, (fun _ _ _ h => nomatch h)⟩
  · have hk' : k < nrOrders := by unfold nrOrders; omega
    refine ⟨⟨?_, ?_⟩, by simp⟩ <;> simp [initState, initNodes, hk']
  · have hk' : k < nrOrders := by unfold nrOrders; omega
    simp [initState, hk']
  · simp only [initState, forPages_apply]
    split
    · rfl
    · rw [if_pos ⟨Nat.zero_le _, by rename_i hn; rw [htot] at hn; omega⟩]; rfl

/-- After `buddy_init` every block is free. -/
theorem inv_init (s : State) (kernelEnd : Nat) (h : StartOk (initState s (alignedStart kernelEnd))) :
    ∃ T fl, Inv totalPages (buddyInit s kernelEnd) T fl ∧ Seeded T ∧
      Frame (initState s (alignedStart kernelEnd)) (buddyInit s kernelEnd) := by
  have hge : physMemStart ≤ alignedStart kernelEnd := h.ge
  have hle : alignedStart kernelEnd ≤ buddyMemEnd := h.le
  have hal : pageSize ∣ alignedStart kernelEnd := h.aligned
  have hshift : (buddyMemEnd - alignedStart kernelEnd + 1) >>> pageShift =
      (buddyMemEnd - alignedStart kernelEnd + 1) / pageSize := Nat.shiftRight_eq_div_pow _ _
  refine seed_spec _ (Nat.le_refl _) ?_ (Nat.le_refl _) (initState_inv s h) (fun _ _ _ h => nomatch h)
  have ht : totalPages = 65536 := rfl
  rw [hshift, paToPfn_eq hge (by unfold buddyMemEnd at hle; omega)]
  unfold physMemStart buddyMemEnd pageSize at *
  omega

theorem sound_init (s : State) (kernelEnd : Nat) (h : StartOk (initState s (alignedStart kernelEnd))) :
    Sound (buddyInit s kernelEnd) := by
  obtain ⟨T, fl, hI, hS, hF⟩ := inv_init s kernelEnd h
  refine ⟨⟨?_, ?_, ?_⟩, T, fl, hI, fun p k hp => nomatch (hS p k _ hp).1⟩
  · rw [hF.start]; exact h.ge
  · rw [hF.start]; exact h.le
  · rw [hF.start]; exact h.aligned

/-! ## Runs -/

/-- After `buddy_init` nothing is allocated. -/
theorem init_unused (s : State) (kernelEnd : Nat) (h : StartOk (initState s (alignedStart kernelEnd))) (p k : Nat) :
    ¬ Used (buddyInit s kernelEnd) p k := by
  obtain ⟨T, fl, hI, hS, -⟩ := inv_init s kernelEnd h
  rw [hI.used_iff]
  exact fun hp => nomatch (hS p k _ hp).1

theorem free_cases {s : State} (h : Sound s) (pa order : Nat) :
    (∃ p, pa = pfnToPa p ∧ Used s p order ∧ FreedAt s (freePhysPages s pa order) p) ∨
      ((∀ p, pa = pfnToPa p → ¬ Used s p order) ∧ ∃ e, freePhysPages s pa order = setError s e) := by
  by_cases hc : ∃ p, pa = pfnToPa p ∧ Used s p order
  · obtain ⟨p, rfl, hu⟩ := hc
    exact Or.inl ⟨p, rfl, hu, free_used h hu⟩
  · have hn : ∀ p, pa = pfnToPa p → ¬ Used s p order := fun p e hu => hc ⟨p, e, hu⟩
    exact Or.inr ⟨hn, free_refused h hn⟩

/-- Whatever a release names, it moves no count and allocates nothing. -/
theorem free_any {s : State} (h : Sound s) (pa order : Nat) :
    Sound (freePhysPages s pa order) ∧
    (∀ p, ((freePhysPages s pa order).memMap p).refCount = (s.memMap p).refCount) ∧
    (∀ p k, Used (freePhysPages s pa order) p k → Used s p k) ∧
    ∀ p k, pa ≠ pfnToPa p → Used s p k → Used (freePhysPages s pa order) p k := by
  rcases free_cases h pa order with ⟨p, e, -, hF⟩ | ⟨-, e, he⟩
  · exact ⟨hF.sound, hF.refs, fun q k hq => ((hF.used q k).mp hq).1,
      fun q k hne hq => (hF.used q k).mpr ⟨hq, fun e' => hne (by rw [e, e'])⟩⟩
  · rw [he]
    exact ⟨h.setError e, fun _ => rfl, fun _ _ hq => hq, fun _ _ _ hq => hq⟩

/-- `put_page` takes one reference, if there is one. -/
theorem put_any {s : State} (h : Sound s) {q : Nat} (hq : q < totalPages) :
    Sound (putPage s (pfnToPa q)) ∧
    (∀ p, ((putPage s (pfnToPa q)).memMap p).refCount = (s.memMap p).refCount - if p = q then 1 else 0) ∧
    (∀ p k, Used (putPage s (pfnToPa q)) p k → Used s p k) ∧
    ∀ p k, p ≠ q → Used s p k → Used (putPage s (pfnToPa q)) p k := by
  have hfun : (setPage s q fun pg => { pg with refCount := pg.refCount - 1 }) =
      setPage s q fun pg => { pg with refCount := (s.memMap q).refCount - 1 } := rfl
  have hset : ∀ p, ((setPage s q fun pg => { pg with refCount := (s.memMap q).refCount - 1 }).memMap p).refCount =
      (s.memMap p).refCount - if p = q then 1 else 0 := by
    intro p
    by_cases e : p = q
    · subst e; simp [setPage]
    · simp [setPage, e]
  have hS := setRef_spec h q ((s.memMap q).refCount - 1)
  simp only [putPage, paToPfn_pfnToPa hq, ge_iff_le, Nat.not_le.mpr hq, if_false]
  by_cases h0 : (s.memMap q).refCount = 0
  · rw [if_pos h0]
    refine ⟨h, fun p => ?_, fun _ _ hp => hp, fun _ _ _ hp => hp⟩
    split
    · subst p; omega
    · rfl
  rw [if_neg h0, hfun]
  generalize (setPage s q fun pg => { pg with refCount := (s.memMap q).refCount - 1 }) = s1 at *
  split
  · obtain ⟨g1, g2, g3, g4⟩ := free_any hS.sound (pfnToPa q) 0
    exact ⟨g1, fun p => (g2 p).trans (hset p), fun p k hp => (hS.used p k).mp (g3 p k hp),
      fun p k hne hp => g4 p k (fun e => hne (pfnToPa_inj e).symm) ((hS.used p k).mpr hp)⟩
  · exact ⟨hS.sound, hset, fun p k hp => (hS.used p k).mp hp, fun p k _ hp => (hS.used p k).mpr hp⟩

theorem step_sound {s : State} (h : Sound s) (c : Call) : Sound (step s c) := by
  cases c with
  | alloc order flags =>
    rcases alloc_spec h order flags with ⟨⟨e, he⟩, -⟩ | ⟨p, -, hA⟩
    · simp only [step, he]; exact h.setError e
    · exact hA.sound
  | free pa order =>
    rcases free_cases h pa order with ⟨p, -, -, hF⟩ | ⟨-, e, he⟩
    · exact hF.sound
    · simp only [step, he]; exact h.setError e

theorem step_start {s : State} (h : Sound s) (c : Call) : (step s c).buddyMemStart = s.buddyMemStart := by
  cases c with
  | alloc order flags =>
    rcases alloc_spec h order flags with ⟨⟨e, he⟩, -⟩ | ⟨p, -, hA⟩
    · simp only [step, he]; rfl
    · exact hA.start
  | free pa order =>
    rcases free_cases h pa order with ⟨p, -, -, hF⟩ | ⟨-, e, he⟩
    · exact hF.start
    · simp only [step, he]; rfl

/-- The buddy start computed from the end of the kernel image is in the managed range. -/
def StartIn (kernelEnd : Nat) : Prop := physMemStart ≤ alignedStart kernelEnd ∧ alignedStart kernelEnd ≤ buddyMemEnd

theorem startIn_ok {kernelEnd : Nat} (h : StartIn kernelEnd) (s : State) :
    StartOk (initState s (alignedStart kernelEnd)) := by
  refine ⟨h.1, h.2, ?_⟩
  show pageSize ∣ alignedStart kernelEnd
  unfold alignedStart
  exact Nat.dvd_sub_mod _

theorem reach_sound {kernelEnd : Nat} (hk : StartIn kernelEnd) {s : State} (h : Reach kernelEnd s) :
    Sound s ∧ s.buddyMemStart = alignedStart kernelEnd := by
  induction h with
  | init s =>
    obtain ⟨T, fl, hI, hS, hF⟩ := inv_init s kernelEnd (startIn_ok hk s)
    exact ⟨sound_init s kernelEnd (startIn_ok hk s), hF.start⟩
  | step c _ ih => exact ⟨step_sound ih.1 c, (step_start ih.1 c).trans ih.2⟩

/-! ## The partition -/

/-- A block of the state: free, on the list of its order, or allocated. -/
def BlockOf (s : State) (fl : Nat → List Nat) (p k : Nat) : Prop := (k ≤ maxOrder ∧ p ∈ fl k) ∨ Used s p k

/-- The free lists hold `fl`, and with the allocated blocks they partition the managed
    pages. -/
structure Partition (s : State) (fl : Nat → List Nat) : Prop where
  lists : ∀ k, k ≤ maxOrder → Ring s.links (.head k) ((fl k).map .page)
  once : ∀ k, k ≤ maxOrder → (fl k).Nodup
  oneList : ∀ k j p, k ≤ maxOrder → j ≤ maxOrder → p ∈ fl k → p ∈ fl j → k = j
  marked : ∀ k p, k ≤ maxOrder → (p ∈ fl k ↔ FreeBlk s p k)
  orders : ∀ p k, FreeBlk s p k ∨ Used s p k → k ≤ maxOrder
  nrFree : ∀ k, k ≤ maxOrder → s.nrFree k = (fl k).length
  aligned : ∀ p k, BlockOf s fl p k → 2 ^ k ∣ p
  inside : ∀ p k, BlockOf s fl p k → kernelPages s ≤ p ∧ p + 2 ^ k ≤ totalPages
  disjoint : ∀ p k q j x, BlockOf s fl p k → BlockOf s fl q j → Covers p k x → Covers q j x → p = q ∧ k = j
  covered : ∀ x, kernelPages s ≤ x → x < totalPages → ∃ p k, BlockOf s fl p k ∧ Covers p k x

theorem sound_partition {s : State} (h : Sound s) : ∃ fl, Partition s fl := by
  obtain ⟨hst, T, fl, hI, hn⟩ := h
  have hB : ∀ p k, BlockOf s fl p k ↔ ∃ t, T p = some (k, t) := by
    intro p k
    unfold BlockOf
    rw [hI.used_iff]
    constructor
    · rintro (⟨hk, hm⟩ | hu)
      · exact ⟨_, (hI.mem k hk p).mp hm⟩
      · exact ⟨_, hu⟩
    · rintro ⟨t, ht⟩
      have hk := hI.order p k t ht
      cases t with
      | free => exact Or.inl ⟨hk, (hI.mem k hk p).mpr ht⟩
      | used => exact Or.inr ht
      | held => exact absurd ht (hn p k)
  refine ⟨fl, hI.ring, fun k hk => hI.nodup hk, ?_, ?_, ?_, hI.nrFree, ?_, ?_, ?_, ?_⟩
  · intro k j p hk hj h1 h2
    rw [hI.mem k hk] at h1; rw [hI.mem j hj, h1] at h2
    simpa using h2
  · intro k p hk; rw [hI.mem k hk, hI.free_iff]
  · intro p k h
    rw [hI.free_iff, hI.used_iff] at h
    rcases h with h | h <;> exact hI.order p k _ h
  · intro p k hb; obtain ⟨t, ht⟩ := (hB p k).mp hb; exact hI.tiling.aligned ht
  · intro p k hb; obtain ⟨t, ht⟩ := (hB p k).mp hb; exact hI.tiling.inside ht
  · intro p k q j x hp hq hx hy
    obtain ⟨t, ht⟩ := (hB p k).mp hp
    obtain ⟨u, hu⟩ := (hB q j).mp hq
    have := hI.tiling.apart ht hu hx hy
    subst this
    rw [ht] at hu
    exact ⟨rfl, by simpa using congrArg (fun b => b.map (·.1)) hu⟩
  · intro x h1 h2
    obtain ⟨p, k, t, ht, hx⟩ := hI.tiling.covered x h1 h2
    exact ⟨p, k, (hB p k).mpr ⟨t, ht⟩, hx⟩

/-- In every run the free lists and the allocated blocks partition the managed pages. -/
theorem partition_reach {kernelEnd : Nat} (hk : StartIn kernelEnd) {s : State} (h : Reach kernelEnd s) :
    kernelPages s = paToPfn (alignedStart kernelEnd) ∧ ∃ fl, Partition s fl := by
  obtain ⟨hs, hstart⟩ := reach_sound hk h
  exact ⟨by unfold kernelPages; rw [hstart], sound_partition hs⟩

/-- A kernel image ending at 2 MiB; one allocation and one wrong release. -/
theorem partition_two_calls :
    let s := step (step (buddyInit bssState (kernelSpaceStart + 0x40200000)) (.alloc 3 gfpKernel)) (.free 0x40000000 3)
    kernelPages s = paToPfn (alignedStart (kernelSpaceStart + 0x40200000)) ∧ ∃ fl, Partition s fl :=
  partition_reach (by unfold StartIn; decide) (.step _ (.step _ (.init bssState)))

end Myos.Pmm
