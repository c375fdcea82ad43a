/-
  Myos.Pmm.Coalescing — the free blocks are a function of the allocated ones.

  The free blocks of a sound state are disjoint, aligned, and hold no pair of buddies
  (`sound_canonical`), and they cover exactly the managed pages outside the allocated
  blocks (`cover_free`); `Dyadic.canonical_ext` then leaves one choice.

  Proved of every run (`coalesced_reach`): no two free buddies; the allocated blocks
  determine the free ones and every `nr_free`; freeing everything, in any order,
  brings back the free blocks of the start; an allocation without `GFP_DMA` fails
  exactly when no aligned run of free pages of that order exists.
-/

import Myos.Pmm.Runs

namespace Myos.Pmm

open Myos.Lib.Dyadic

def freeBlocks (s : State) : Set (Nat × Nat) := {b | FreeBlk s b.1 b.2}

def usedBlocks (s : State) : Set (Nat × Nat) := {b | Used s b.1 b.2}

/-- The pages of the free blocks. -/
def freePages (s : State) : Set Nat := cover (freeBlocks s)

theorem sound_canonical {s : State} (h : Sound s) : Canonical maxOrder (freeBlocks s) := by
  obtain ⟨-, T, fl, hI, -⟩ := h
  refine ⟨fun {p k} hb => ?_, fun {p k} hb => ?_, fun {p k q j x} hb hc hx hy => ?_, fun {p k} hk hb hc => ?_⟩
  · exact hI.tiling.aligned ((hI.free_iff p k).mp hb)
  · exact hI.order p k _ ((hI.free_iff p k).mp hb)
  · have hp := (hI.free_iff p k).mp hb
    have hq := (hI.free_iff q j).mp hc
    have e := hI.tiling.apart hp hq hx hy
    rw [← e, hp] at hq
    exact ⟨e, by simpa using hq⟩
  · exact hI.noBuddies p k hk ((hI.free_iff p k).mp hb) ((hI.free_iff _ k).mp hc)

theorem cover_free {s : State} (h : Sound s) (x : Nat) :
    x ∈ freePages s ↔ kernelPages s ≤ x ∧ x < totalPages ∧ ∀ p k, Used s p k → ¬ Covers p k x := by
  obtain ⟨-, T, fl, hI, hn⟩ := h
  constructor
  · rintro ⟨p, k, hb, hx⟩
    have hp := (hI.free_iff p k).mp hb
    have hins := hI.tiling.inside hp
    refine ⟨by unfold Covers at hx; omega, by unfold Covers at hx; omega, fun q j hu hy => ?_⟩
    have hq := (hI.used_iff q j).mp hu
    have e := hI.tiling.apart hp hq hx hy
    rw [← e, hp] at hq
    simp at hq
  · rintro ⟨h1, h2, h3⟩
    obtain ⟨p, k, t, ht, hx⟩ := hI.tiling.covered x h1 h2
    cases t with
    | free => exact ⟨p, k, (hI.free_iff p k).mpr ht, hx⟩
    | used => exact absurd hx (h3 p k ((hI.used_iff p k).mpr ht))
    | held => exact absurd ht (hn p k)

/-- The pages of a block become free when it is given back. -/
theorem freed_pages {s s' : State} (h : Sound s) (h' : Sound s') {p k : Nat} (hu : Used s p k)
    (hused : ∀ q j, Used s' q j ↔ Used s q j ∧ q ≠ p) (hst : s'.buddyMemStart = s.buddyMemStart) :
    freePages s' = freePages s ∪ {x | Covers p k x} := by
  have hkp : kernelPages s' = kernelPages s := by unfold kernelPages; rw [hst]
  obtain ⟨-, T, fl, hI, -⟩ := id h
  have hin := hI.tiling.inside ((hI.used_iff p k).mp hu)
  ext x
  rw [Set.mem_union, cover_free h', cover_free h, hkp]
  simp only [hused]
  constructor
  · rintro ⟨h1, h2, h3⟩
    by_cases hx : Covers p k x
    · exact Or.inr hx
    · refine Or.inl ⟨h1, h2, fun q j hq hc => ?_⟩
      by_cases e : q = p
      · subst e
        exact hx (by rw [← hu.2.2, hq.2.2]; exact hc)
      · exact h3 q j ⟨hq, e⟩ hc
  · rintro (⟨h1, h2, h3⟩ | hx)
    · exact ⟨h1, h2, fun q j hq => h3 q j hq.1⟩
    · have hx' : p ≤ x ∧ x < p + 2 ^ k := hx
      refine ⟨by omega, by omega, fun q j hq hc => hq.2 ?_⟩
      exact hI.tiling.apart ((hI.used_iff q j).mp hq.1) ((hI.used_iff p k).mp hu) hc hx

/-- Two sound states with the same managed range and the same allocated blocks have the
    same free blocks. -/
theorem free_of_used {s t : State} (hs : Sound s) (ht : Sound t) (hst : t.buddyMemStart = s.buddyMemStart)
    (hu : usedBlocks t = usedBlocks s) : freeBlocks t = freeBlocks s := by
  have hu' : ∀ p k, Used t p k ↔ Used s p k := fun p k => Set.ext_iff.mp hu (p, k)
  refine canonical_ext (sound_canonical ht) (sound_canonical hs) (Set.ext fun x => ?_)
  have hkp : kernelPages t = kernelPages s := by unfold kernelPages; rw [hst]
  show x ∈ freePages t ↔ x ∈ freePages s
  rw [cover_free ht, cover_free hs, hkp]
  simp only [hu']

theorem nrFree_of_free {s t : State} (hs : Sound s) (ht : Sound t) (hf : freeBlocks t = freeBlocks s) (k : Nat)
    (hk : k ≤ maxOrder) : t.nrFree k = s.nrFree k := by
  obtain ⟨fs, hps⟩ := sound_partition hs
  obtain ⟨ft, hpt⟩ := sound_partition ht
  have hmem : ∀ p, p ∈ ft k ↔ p ∈ fs k := fun p => by
    rw [hpt.marked k p hk, hps.marked k p hk]
    exact Set.ext_iff.mp hf (p, k)
  rw [hpt.nrFree k hk, hps.nrFree k hk]
  exact ((List.perm_ext_iff_of_nodup (hpt.once k hk) (hps.once k hk)).mpr hmem).length_eq

/-! ## Freeing everything -/

def freeAll (s : State) (bs : List (Nat × Nat)) : State :=
  bs.foldl (fun s b => freePhysPages s (pfnToPa b.1) b.2) s

theorem freeAll_spec : ∀ (bs : List (Nat × Nat)) {s : State}, Sound s → bs.Nodup → (∀ b, b ∈ bs ↔ b ∈ usedBlocks s) →
    Sound (freeAll s bs) ∧ usedBlocks (freeAll s bs) = ∅ ∧ (freeAll s bs).buddyMemStart = s.buddyMemStart := by
  intro bs
  induction bs with
  | nil =>
    intro s hs _ hb
    exact ⟨hs, Set.eq_empty_iff_forall_notMem.mpr fun b hbu => by simpa using (hb b).mpr hbu, rfl⟩
  | cons b bs ih =>
    intro s hs hnd hb
    obtain ⟨hnb, hnd⟩ := List.nodup_cons.mp hnd
    have hu : Used s b.1 b.2 := (hb b).mp (by simp)
    have hF := free_used hs hu
    obtain ⟨h1, h2, h3⟩ := ih hF.sound hnd fun c => by
      show c ∈ bs ↔ Used (freePhysPages s (pfnToPa b.1) b.2) c.1 c.2
      rw [hF.used, ← show c ∈ usedBlocks s ↔ Used s c.1 c.2 from Iff.rfl, ← hb c]
      constructor
      · intro hc
        refine ⟨List.mem_cons_of_mem _ hc, fun e => hnb ?_⟩
        have hcu : Used s c.1 c.2 := (hb c).mp (List.mem_cons_of_mem _ hc)
        have : c = b := Prod.ext e (by rw [← hcu.2.2, ← hu.2.2, e])
        rwa [this] at hc
      · rintro ⟨hc, hne⟩
        rcases List.mem_cons.mp hc with rfl | hc
        · exact absurd rfl hne
        · exact hc
    exact ⟨h1, h2, h3.trans hF.start⟩

theorem used_init (s : State) {kernelEnd : Nat} (hk : StartIn kernelEnd) : usedBlocks (buddyInit s kernelEnd) = ∅ := by
  obtain ⟨T, fl, hI, hS, -⟩ := inv_init s kernelEnd (startIn_ok hk s)
  refine Set.eq_empty_iff_forall_notMem.mpr fun b hb => ?_
  have := (hS _ _ _ ((hI.used_iff b.1 b.2).mp hb)).1
  cases this

/-! ## When an allocation fails -/

theorem alloc_fails_iff {s : State} (h : Sound s) (k flags : Nat) (hd : flags &&& gfpDma = 0) :
    (allocPhysPages s k flags).2 = 0 ↔ ¬ (k ≤ maxOrder ∧ ∃ p, 2 ^ k ∣ p ∧ ∀ x, Covers p k x → x ∈ freePages s) := by
  rcases alloc_spec h k flags with ⟨⟨e, he⟩, hnone⟩ | ⟨p, hp, hA⟩
  · rw [he]
    refine ⟨fun _ => ?_, fun _ => rfl⟩
    rintro ⟨hk, p, hal, hfull⟩
    obtain ⟨q, j, hq, hj, -⟩ := full_in_block (sound_canonical h) hk hal hfull
    have := hnone hd hk q j hq
    omega
  · rw [hp]
    refine ⟨fun h0 => absurd h0 (pfnToPa_ne_zero p), fun hn => absurd ⟨hA.order_le, p, hA.aligned, fun x hx => ?_⟩ hn⟩
    have hlo := hA.lo
    have hhi := hA.hi
    refine (cover_free h x).mpr ⟨?_, ?_, fun q j hu hy => hA.fresh q j x hu hy hx⟩ <;> unfold Covers at hx <;> omega

/-! ## Every run -/

theorem coalesced_reach {kernelEnd : Nat} (hk : StartIn kernelEnd) {s : State} (h : Reach kernelEnd s) :
    (∀ p k, k < maxOrder → FreeBlk s p k → ¬ FreeBlk s (buddyPfn p k) k) ∧
    (∀ t, Reach kernelEnd t → usedBlocks t = usedBlocks s →
      freeBlocks t = freeBlocks s ∧ ∀ k, k ≤ maxOrder → t.nrFree k = s.nrFree k) ∧
    (∀ s0 bs, bs.Nodup → (∀ b, b ∈ bs ↔ b ∈ usedBlocks s) →
      freeBlocks (freeAll s bs) = freeBlocks (buddyInit s0 kernelEnd) ∧
        ∀ k, k ≤ maxOrder → (freeAll s bs).nrFree k = (buddyInit s0 kernelEnd).nrFree k) ∧
    (∀ k flags, flags &&& gfpDma = 0 → ((allocPhysPages s k flags).2 = 0 ↔
      ¬ (k ≤ maxOrder ∧ ∃ p, 2 ^ k ∣ p ∧ ∀ x, Covers p k x → x ∈ freePages s))) := by
  obtain ⟨hs, hst⟩ := reach_sound hk h
  refine ⟨fun p k hlt hp hq => (sound_canonical hs).noBuddies hlt hp hq, fun t ht hu => ?_, fun s0 bs hnd hb => ?_,
    fun k flags hd => alloc_fails_iff hs k flags hd⟩
  · obtain ⟨ht, htst⟩ := reach_sound hk ht
    have hf := free_of_used hs ht (htst.trans hst.symm) hu
    exact ⟨hf, nrFree_of_free hs ht hf⟩
  · obtain ⟨h1, h2, h3⟩ := freeAll_spec bs hs hnd hb
    obtain ⟨hi, hist⟩ := reach_sound hk (Reach.init s0)
    have hf := free_of_used hi h1 (h3.trans (hst.trans hist.symm)) (h2.trans (used_init s0 hk).symm)
    exact ⟨hf, nrFree_of_free hi h1 hf⟩

/-- The conclusions hold after one allocation from a kernel image ending at 2 MiB. -/
theorem coalesced_one_call :
    let s := step (buddyInit bssState (kernelSpaceStart + 0x40200000)) (.alloc 3 gfpKernel)
    (∀ p k, k < maxOrder → FreeBlk s p k → ¬ FreeBlk s (buddyPfn p k) k) ∧
      (∀ k flags, flags &&& gfpDma = 0 → ((allocPhysPages s k flags).2 = 0 ↔
        ¬ (k ≤ maxOrder ∧ ∃ p, 2 ^ k ∣ p ∧ ∀ x, Covers p k x → x ∈ freePages s))) :=
  have h := coalesced_reach (by unfold StartIn; decide)
    (.step (.alloc 3 gfpKernel) (.init bssState))
  ⟨h.1, h.2.2.2⟩

end Myos.Pmm
