/-
  Myos.Mm.MapPage — `map_page`, `unmap_page` and `get_phys_from_va` against the entries
  of all trees.

  Proved of any address: mapping a page fails and changes no entry, or it writes the one
  leaf entry of the address; unmapping clears that entry, frees the tables that became
  empty and changes no other entry; the lookup reads it. `Room s n`: `n` pages are
  free. A mapping that has room for its missing tables succeeds, and an address that
  was just unmapped has that room.
-/

import Myos.Mm.Frames

namespace Myos.Mm

open Pmm Lib.Walk Lib.Dyadic

/-- The directory indices of an address. -/
def dirs (va : Nat) : List Idx := [l0Index va, l1Index va, l2Index va]

/-- The leaf entry that translates an address. -/
def Machine.translate (m : Machine) (va : Nat) : Nat := entryAt m.mem (m.l0Table va) (dirs va) (l3Index va)

/-- `m'` has the registers, the data frames and the entries of `m`, but for leaf entry
    `i` at `q` of the tree `r`, which is `v`. -/
structure Wrote (R : Set Nat) (rf : Nat → Nat) (m m' : Machine) (r : Nat) (q : List Idx) (i : Idx) (v : Nat) :
    Prop where
  ttbr0 : m'.ttbr0 = m.ttbr0
  ttbr1 : m'.ttbr1 = m.ttbr1
  entry : ∀ r' ∈ R, ∀ q' : List Idx, q'.length = 3 → ∀ j,
    entryAt m'.mem r' q' j = if r' = r ∧ q' = q ∧ j = i then v else entryAt m.mem r' q' j
  page : ∀ p, 0 < rf p → SamePage m m' p
  start : m'.pmm.buddyMemStart = m.pmm.buddyMemStart
  grown : ∀ r' ∈ R, ∀ q' : List Idx, q'.length ≤ 3 → ∀ n, walk (child m'.mem) r' q' = some n →
    walk (child m.mem) r' q' = some n ∨ ¬ Unmanaged m.pmm n

/-- `m'` has the registers, the data frames and the entries of `m`. -/
structure Quiet (R : Set Nat) (rf : Nat → Nat) (m m' : Machine) : Prop where
  ttbr0 : m'.ttbr0 = m.ttbr0
  ttbr1 : m'.ttbr1 = m.ttbr1
  entry : ∀ r' ∈ R, ∀ q' : List Idx, q'.length = 3 → ∀ j, entryAt m'.mem r' q' j = entryAt m.mem r' q' j
  page : ∀ p, 0 < rf p → SamePage m m' p
  start : m'.pmm.buddyMemStart = m.pmm.buddyMemStart
  grown : ∀ r' ∈ R, ∀ q' : List Idx, q'.length ≤ 3 → ∀ n, walk (child m'.mem) r' q' = some n →
    walk (child m.mem) r' q' = some n ∨ ¬ Unmanaged m.pmm n

/-- `n` pages are free. -/
def Room (s : State) (n : Nat) : Prop :=
  ∃ P : Finset Nat, P.card = n ∧ ∀ x ∈ P, kernelPages s ≤ x ∧ x < totalPages ∧ ∀ q k, Used s q k → ¬ Covers q k x

/-! ## Addresses and paths -/

theorem index9_val (x : Nat) : (index9 x).val = x % 512 := Nat.and_two_pow_sub_one_eq_mod x 9

/-- Equal modulo `512 * n`: the same low nine bits, and the rest equal modulo `n`. -/
theorem mod_split (n a b : Nat) : b % (512 * n) = a % (512 * n) ↔ b / 512 % n = a / 512 % n ∧ b % 512 = a % 512 := by
  rw [Nat.mod_mul, Nat.mod_mul]
  have ha := Nat.mod_lt a (show 0 < 512 by decide)
  have hb := Nat.mod_lt b (show 0 < 512 by decide)
  constructor
  · intro h; constructor <;> omega
  · rintro ⟨h1, h2⟩; rw [h1, h2]

theorem index9_shift (x k : Nat) : (index9 (x >>> (12 + k))).val = (x >>> 12) / 2 ^ k % 512 := by
  rw [index9_val, Nat.shiftRight_add, Nat.shiftRight_eq_div_pow]

/-- The four indices are bits 47..12. -/
theorem path_iff (va va' : Nat) :
    (dirs va' = dirs va ∧ l3Index va' = l3Index va) ↔ (va' >>> 12) % 2 ^ 36 = (va >>> 12) % 2 ^ 36 := by
  have h0 := fun x => index9_shift x 27
  have h1 := fun x => index9_shift x 18
  have h2 := fun x => index9_shift x 9
  rw [dirs, dirs, List.cons.injEq, List.cons.injEq, List.cons.injEq, Fin.ext_iff, Fin.ext_iff, Fin.ext_iff, Fin.ext_iff,
    l0Index, l1Index, l2Index, l3Index, l0Index, l1Index, l2Index, l3Index, h0, h0, h1, h1, h2, h2, index9_val,
    index9_val]
  generalize va >>> 12 = a
  generalize va' >>> 12 = b
  rw [show 2 ^ 36 = 512 * (512 * (512 * 512)) by norm_num, mod_split, mod_split, mod_split,
    show 2 ^ 27 = 512 * 512 * 512 by norm_num, show 2 ^ 18 = 512 * 512 by norm_num, show 2 ^ 9 = 512 by norm_num]
  simp only [Nat.div_div_eq_div_mul, Nat.reduceMul, and_true, and_assoc]

section

variable {m m' m'' : Machine} {R : Set Nat} {K : Set (Nat × Nat)} {rf : Nat → Nat}

theorem SamePage.rfl' (m : Machine) (p : Nat) : SamePage m m p := fun _ _ _ => rfl

theorem SamePage.trans {p : Nat} (h1 : SamePage m m' p) (h2 : SamePage m' m'' p) : SamePage m m'' p :=
  fun x a b => (h2 x a b).trans (h1 x a b)

theorem Quiet.rfl' (m : Machine) : Quiet R rf m m :=
  ⟨rfl, rfl, fun _ _ _ _ _ => rfl, fun p _ => SamePage.rfl' m p, rfl, fun _ _ _ _ _ h => Or.inl h⟩

theorem Quiet.withPmm {s : State} (h : s.buddyMemStart = m.pmm.buddyMemStart) : Quiet R rf m { m with pmm := s } :=
  ⟨rfl, rfl, fun _ _ _ _ _ => rfl, fun p _ => SamePage.rfl' m p, h, fun _ _ _ _ _ h => Or.inl h⟩

/-- A table of `m''` is one of `m` or managed. -/
theorem grown_trans {r' : Nat} {q' : List Idx} {n : Nat} (hst : m'.pmm.buddyMemStart = m.pmm.buddyMemStart)
    (h1 : ∀ n, walk (child m'.mem) r' q' = some n → walk (child m.mem) r' q' = some n ∨ ¬ Unmanaged m.pmm n)
    (h2 : walk (child m''.mem) r' q' = some n → walk (child m'.mem) r' q' = some n ∨ ¬ Unmanaged m'.pmm n)
    (hn : walk (child m''.mem) r' q' = some n) : walk (child m.mem) r' q' = some n ∨ ¬ Unmanaged m.pmm n := by
  rcases h2 hn with h | h
  · exact h1 n h
  · exact Or.inr (by unfold Unmanaged at *; rwa [hst] at h)

theorem Quiet.trans (h1 : Quiet R rf m m') (h2 : Quiet R rf m' m'') : Quiet R rf m m'' :=
  ⟨h2.ttbr0.trans h1.ttbr0, h2.ttbr1.trans h1.ttbr1,
    fun r hr q hq j => (h2.entry r hr q hq j).trans (h1.entry r hr q hq j),
    fun p hp => (h1.page p hp).trans (h2.page p hp), h2.start.trans h1.start,
    fun r hr q hq n => grown_trans h1.start (h1.grown r hr q hq) (h2.grown r hr q hq n)⟩

theorem Quiet.wrote (h1 : Quiet R rf m m') {r : Nat} {q : List Idx} {i : Idx} {v : Nat}
    (h2 : Wrote R rf m' m'' r q i v) : Wrote R rf m m'' r q i v :=
  ⟨h2.ttbr0.trans h1.ttbr0, h2.ttbr1.trans h1.ttbr1,
    fun r' hr q' hq j => (h2.entry r' hr q' hq j).trans (by rw [h1.entry r' hr q' hq j]),
    fun p hp => (h1.page p hp).trans (h2.page p hp), h2.start.trans h1.start,
    fun r hr q hq n => grown_trans h1.start (h1.grown r hr q hq) (h2.grown r hr q hq n)⟩

theorem Wrote.quiet {r : Nat} {q : List Idx} {i : Idx} {v : Nat} (h1 : Wrote R rf m m' r q i v)
    (h2 : Quiet R rf m' m'') : Wrote R rf m m'' r q i v :=
  ⟨h2.ttbr0.trans h1.ttbr0, h2.ttbr1.trans h1.ttbr1,
    fun r' hr q' hq j => (h2.entry r' hr q' hq j).trans (h1.entry r' hr q' hq j),
    fun p hp => (h1.page p hp).trans (h2.page p hp), h2.start.trans h1.start,
    fun r hr q hq n => grown_trans h1.start (h1.grown r hr q hq) (h2.grown r hr q hq n)⟩

theorem Owned.pfn_lt (h : Owned m R K rf) {p : Nat} (hp : 0 < rf p) : p < totalPages := (h.frame p hp).1.1

/-- Writing an entry of a table touches no data frame. -/
theorem Owned.setPte_page (h : Owned m R K rf) {t : Nat} (ht : Table m.mem R t) (i : Idx) (v : Nat) {p : Nat}
    (hp : 0 < rf p) : SamePage m (m.setPte t i v) p := by
  intro x h1 h2
  have hi := i.isLt
  have hne : pfnToPa p ≠ t := by rintro rfl; exact h.frame_not_table hp ht
  have := pages_apart (pfnToPa_aligned p) (h.table t ht).1.1 hne
  rw [setPte_mem]
  exact write64_other (by unfold pageSize at *; omega)

/-! ## Room -/

theorem Room.zero (s : State) : Room s 0 := ⟨∅, rfl, by simp⟩

/-- With room for a page an allocation of one page succeeds. -/
theorem Room.alloc {s : State} (hs : Sound s) {n : Nat} (h : Room s (n + 1)) (flags : Nat) (hf : flags &&& gfpDma = 0) :
    ∃ p, (allocPhysPages s 0 flags).2 = pfnToPa p := by
  rcases alloc_spec hs 0 flags with ⟨-, hnone⟩ | ⟨p, hp, -⟩
  · obtain ⟨P, hc, hP⟩ := h
    obtain ⟨x, hx⟩ := Finset.card_pos.mp (by omega : 0 < P.card)
    obtain ⟨h1, h2, h3⟩ := hP x hx
    obtain ⟨-, T, fl, hI, hn⟩ := hs
    obtain ⟨q, k, t, ht, hc⟩ := hI.tiling.covered x h1 h2
    cases t with
    | free => have := hnone hf (Nat.zero_le _) q k ((hI.free_iff q k).mpr ht); omega
    | used => exact absurd hc (h3 q k ((hI.used_iff q k).mpr ht))
    | held => exact absurd ht (hn q k)
  · exact ⟨p, hp⟩

/-- Handing out one page leaves room for one page less. -/
theorem Room.less {s s' : State} {n p : Nat} (h : Room s (n + 1)) (hA : AllocAt s s' p 0) : Room s' n := by
  obtain ⟨P, hc, hP⟩ := h
  have hkp : kernelPages s' = kernelPages s := by unfold kernelPages; rw [hA.start]
  have hcard : n ≤ (P.erase p).card := by have := Finset.pred_card_le_card_erase (s := P) (a := p); omega
  obtain ⟨Q, hQ, hQc⟩ := Finset.exists_subset_card_eq hcard
  refine ⟨Q, hQc, fun x hx => ?_⟩
  have hx' := Finset.mem_erase.mp (hQ hx)
  obtain ⟨h1, h2, h3⟩ := hP x hx'.2
  refine ⟨by rw [hkp]; exact h1, h2, fun q k hu hc => ?_⟩
  rcases (hA.used q k).mp hu with hu | ⟨rfl, rfl⟩
  · exact h3 q k hu hc
  · have : x = q := by unfold Covers at hc; omega
    exact hx'.1 this

/-- Before an allocation there was room for the page it handed out. -/
theorem Room.before {s s' : State} {n p : Nat} (h : Room s' n) (hA : AllocAt s s' p 0) : Room s (n + 1) := by
  obtain ⟨P, hc, hP⟩ := h
  have hkp : kernelPages s' = kernelPages s := by unfold kernelPages; rw [hA.start]
  have hup : Used s' p 0 := (hA.used p 0).mpr (Or.inr ⟨rfl, rfl⟩)
  have hpP : p ∉ P := fun hx => (hP p hx).2.2 p 0 hup (by simp [Covers])
  refine ⟨insert p P, by rw [Finset.card_insert_of_notMem hpP, hc], fun x hx => ?_⟩
  rcases Finset.mem_insert.mp hx with rfl | hx
  · exact ⟨hA.lo, hup.1, fun q k hq hc => hA.fresh q k x hq hc (by simp [Covers])⟩
  · obtain ⟨h1, h2, h3⟩ := hP x hx
    exact ⟨by rw [← hkp]; exact h1, h2, fun q k hq => h3 q k ((hA.used q k).mpr (Or.inl hq))⟩

theorem Room.mono {s s' : State} {n : Nat} (h : Room s n) (hst : s'.buddyMemStart = s.buddyMemStart)
    (hu : ∀ q k, Used s' q k → Used s q k) : Room s' n := by
  obtain ⟨P, hc, hP⟩ := h
  have hkp : kernelPages s' = kernelPages s := by unfold kernelPages; rw [hst]
  refine ⟨P, hc, fun x hx => ?_⟩
  obtain ⟨h1, h2, h3⟩ := hP x hx
  exact ⟨by rw [hkp]; exact h1, h2, fun q k hq => h3 q k (hu q k hq)⟩

/-- Freeing an allocated page makes room for one more. -/
theorem Room.more {s s' : State} {n p : Nat} (h : Room s n) (hs : Sound s) (hp : Used s p 0)
    (hst : s'.buddyMemStart = s.buddyMemStart) (hu : ∀ q k, Used s' q k → Used s q k ∧ q ≠ p) : Room s' (n + 1) := by
  obtain ⟨P, hc, hP⟩ := h
  have hkp : kernelPages s' = kernelPages s := by unfold kernelPages; rw [hst]
  have hpP : p ∉ P := fun hx => (hP p hx).2.2 p 0 hp (by simp [Covers])
  refine ⟨insert p P, by rw [Finset.card_insert_of_notMem hpP, hc], fun x hx => ?_⟩
  rcases Finset.mem_insert.mp hx with rfl | hx
  · obtain ⟨-, T, fl, hI, -⟩ := id hs
    have hlo := (hI.tiling.inside ((hI.used_iff x 0).mp hp)).1
    refine ⟨by rw [hkp]; exact hlo, hp.1, fun q k hq hc => ?_⟩
    obtain ⟨hq, hne⟩ := hu q k hq
    exact hne (used_apart hs hq hp hc (by simp [Covers])).1
  · obtain ⟨h1, h2, h3⟩ := hP x hx
    exact ⟨by rw [hkp]; exact h1, h2, fun q k hq => h3 q k (hu q k hq).1⟩

/-! ## The next table -/

/-- An allocated page is none of the data frames and none of the tables. -/
theorem NewBlock.apart {p k : Nat} (h : NewBlock m m' R K rf p k) :
    ¬ Table m'.mem R (pfnToPa p) ∧ rf p = 0 := by
  have hu := h.owned.block p k (Set.mem_insert _ _)
  have hrf : ¬ 0 < rf p := by
    intro hp
    obtain ⟨hu0, hK, -⟩ := h.owned.frame p hp
    have := (used_apart h.owned.sound hu0 hu (x := p) (by simp [Covers])
      (by have := Nat.two_pow_pos k; unfold Covers; omega)).2
    exact hK (by rw [this]; exact Set.mem_insert _ _)
  refine ⟨fun ht => ?_, by omega⟩
  obtain ⟨hu0, hK, -⟩ := h.owned.table_used hu ht
  have := (used_apart h.owned.sound hu0 hu (x := p) (by simp [Covers])
    (by have := Nat.two_pow_pos k; unfold Covers; omega)).2
  exact hK (by rw [this]; exact Set.mem_insert _ _)

theorem clearPage_zero (m : Machine) (n : Nat) (j : Idx) : read64 (m.clearPage n).mem (n + 8 * j) = 0 := by
  have hj := j.isLt
  exact read64_zeroPage m.mem (by omega) (by unfold pageSize; omega)

theorem clearPage_page {p q : Nat} (hne : q ≠ p) : SamePage m (m.clearPage (pfnToPa p)) q := by
  intro x h1 h2
  have := pages_apart (pfnToPa_aligned q) (pfnToPa_aligned p) fun e => hne (pfnToPa_inj e)
  rw [clearPage_mem]
  exact zeroPage_other (by omega)

/-- The three outcomes of `nextTable` on a table of the tree `r`. -/
theorem nextTable_cases (h : Owned m R K rf) {r t : Nat} {q : List Idx} (hr : r ∈ R) (hq : q.length < 3)
    (ht : walk (child m.mem) r q = some t) (i : Idx) :
    (∃ c, child m.mem t i = some c ∧ nextTable m t i = (m, some c)) ∨
    (child m.mem t i = none ∧
      ∃ e, nextTable m t i = ({ m with pmm := Pmm.setError m.pmm e }, none) ∧ ∀ n, ¬ Room m.pmm (n + 1)) ∨
    child m.mem t i = none ∧ ∃ p m', nextTable m t i = (m', some (pfnToPa p)) ∧ Owned m' R K rf ∧ Quiet R rf m m' ∧
      (∀ r' ∈ R, ∀ q' : List Idx, q'.length ≤ 3 → walk (child m'.mem) r' q' =
        if r' = r ∧ q' = q ++ [i] then some (pfnToPa p) else walk (child m.mem) r' q') ∧
      (∀ j : Idx, read64 m'.mem (pfnToPa p + 8 * j) = 0) ∧ AllocAt m.pmm m'.pmm p 0 := by
  have hT := h.root_table hr (by omega) ht
  have hwi : walk (child m.mem) r (q ++ [i]) = child m.mem t i := by rw [walk_snoc, ht, Option.bind_some]
  by_cases hp : ptePresent (m.pte t i) = true
  · exact Or.inl ⟨_, if_pos hp, if_neg (by simpa using hp)⟩
  have hc : child m.mem t i = none := if_neg hp
  rcases h.alloc 0 gfpKernel with ⟨⟨e, he⟩, -⟩ | ⟨p, hpa, hN⟩
  · refine Or.inr (Or.inl ⟨hc, e, ?_, fun n hn => ?_⟩)
    · unfold nextTable
      rw [if_pos (by simpa using hp)]
      simp only [Machine.allocPage, he, if_true]
    · obtain ⟨p, hp⟩ := hn.alloc h.sound gfpKernel (by decide)
      rw [he] at hp
      exact pfnToPa_ne_zero p hp.symm
  · generalize hm1 : ({ m with pmm := (allocPhysPages m.pmm 0 gfpKernel).1 } : Machine) = m1 at hN
    have hn : nextTable m t i =
        ((m1.clearPage (pfnToPa p)).setPte t i (tableProt ||| pfnToPa p), some (pfnToPa p)) := by
      unfold nextTable
      rw [if_pos (by simpa using hp)]
      simp only [Machine.allocPage, hpa, hm1, pfnToPa_ne_zero, if_false]
    have hm1e : m1.mem = m.mem := hN.mem
    obtain ⟨hnT, hrf⟩ := hN.apart
    obtain ⟨ho2, he2⟩ := hN.owned.clearPage (pfnToPa_aligned p) hnT
    have hclear : ∀ n, Table m1.mem R n → ∀ x, n ≤ x → x < n + pageSize →
        (m1.clearPage (pfnToPa p)).mem x = m1.mem x := fun n hn x h1 h2 => by
      have hne : n ≠ pfnToPa p := by rintro rfl; exact hnT hn
      have := pages_apart (hN.owned.table n hn).1.1 (pfnToPa_aligned p) hne
      rw [clearPage_mem]
      exact zeroPage_other (by omega)
    have hw2 := (hN.owned.setMem hclear).2
    have ht2 : walk (child (m1.clearPage (pfnToPa p)).mem) r q = some t := by
      rw [hw2 r hr q (by omega), hm1e]; exact ht
    have hc2 : child (m1.clearPage (pfnToPa p)).mem t i = none := by
      have := hw2 r hr (q ++ [i]) (by simp; omega)
      rw [walk_snoc, ht2, Option.bind_some, hm1e, hwi] at this
      exact this.trans hc
    have hT2 := ho2.root_table hr (by omega) ht2
    have hpt : pfnToPa p ≠ t := by rintro rfl; exact ho2.block_not_table (Set.mem_insert _ _) hT2
    obtain ⟨ho3, -, he3, hg3⟩ := ho2.link hN.fresh hr hq ht2 hc2 fun j => clearPage_zero m1 _ j
    refine Or.inr (Or.inr ⟨hc, p, _, hn, ho3, ⟨?_, ?_, fun r' hr' q' hq' j => ?_, fun p' hp' => ?_, ?_,
      fun r' hr' q' hq' n hn => ?_⟩, fun r' hr' q' hq' => ?_, fun j => ?_, ?_⟩)
    · rw [setPte_ttbr0, clearPage_ttbr0]; exact hN.ttbr0
    · rw [setPte_ttbr1, clearPage_ttbr1]; exact hN.ttbr1
    · rw [he3 r' hr' q' hq' j, he2 r' hr' q' (by omega) j, hm1e]
    · have hne : p' ≠ p := by rintro rfl; omega
      have h1 : SamePage m m1 p' := fun x _ _ => by rw [hm1e]
      exact (h1.trans (clearPage_page hne)).trans (ho2.setPte_page hT2 i _ hp')
    · rw [setPte_pmm, clearPage_pmm]; exact hN.alloc.start
    · rw [hg3 r' hr' q' hq'] at hn
      split at hn
      · have hun := hN.owned.not_unmanaged (hN.owned.block p 0 (Set.mem_insert _ _))
        rw [← Option.some.inj hn]
        exact Or.inr (by unfold Unmanaged at *; rwa [hN.alloc.start] at hun)
      · rw [hw2 r' hr' q' hq', hm1e] at hn
        exact Or.inl hn
    · rw [hg3 r' hr' q' hq', hw2 r' hr' q' hq', hm1e]
    · rw [setPte_mem, read64_setPte_page (ho2.table t hT2).1.1 (pfnToPa_aligned p) hpt]
      exact clearPage_zero m1 _ j
    · rw [setPte_pmm, clearPage_pmm]
      exact hN.alloc

/-- `m'` is as good as `m`: owned alike, the same entries and data frames. -/
structure Stepped (R : Set Nat) (K : Set (Nat × Nat)) (rf : Nat → Nat) (m m' : Machine) : Prop where
  owned : Owned m' R K rf
  quiet : Quiet R rf m m'

theorem Stepped.trans (h1 : Stepped R K rf m m') (h2 : Stepped R K rf m' m'') : Stepped R K rf m m'' :=
  ⟨h2.owned, h1.quiet.trans h2.quiet⟩

theorem Owned.errorStep (h : Owned m R K rf) (e : BuddyError) :
    Stepped R K rf m { m with pmm := Pmm.setError m.pmm e } :=
  ⟨h.setError e, ⟨rfl, rfl, fun _ _ _ _ _ => rfl, fun _ _ _ _ _ => rfl, rfl, fun _ _ _ _ _ h => Or.inl h⟩⟩

theorem nextTable_spec (h : Owned m R K rf) {r t : Nat} {q : List Idx} (hr : r ∈ R) (hq : q.length < 3)
    (ht : walk (child m.mem) r q = some t) (i : Idx) :
    Stepped R K rf m (nextTable m t i).1 ∧
      ∀ c, (nextTable m t i).2 = some c → walk (child (nextTable m t i).1.mem) r (q ++ [i]) = some c := by
  rcases nextTable_cases h hr hq ht i with ⟨c, hc, he⟩ | ⟨-, e, he, -⟩ | ⟨-, p, m', he, ho, hQ, hw, -, -⟩
  · rw [he]
    refine ⟨⟨h, Quiet.rfl' m⟩, fun c' e => ?_⟩
    rw [walk_snoc, ht, Option.bind_some, hc]; exact e
  · rw [he]
    exact ⟨h.errorStep e, fun c e => by cases e⟩
  · rw [he]
    refine ⟨⟨ho, hQ⟩, fun c e => ?_⟩
    rw [hw r hr (q ++ [i]) (by simp; omega), if_pos ⟨rfl, rfl⟩]; exact e

/-- Every table on the way `q` down from `t` is there, or a page is free for each that is missing. -/
def Enough (m : Machine) : (t : Nat) → List Idx → Prop
  | _, [] => True
  | t, i :: q => (∃ c, child m.mem t i = some c ∧ Enough m c q) ∨ child m.mem t i = none ∧ Room m.pmm (q.length + 1)

theorem nextTable_enough (h : Owned m R K rf) {r t : Nat} {q q' : List Idx} (hr : r ∈ R) (hq : q.length < 3)
    (ht : walk (child m.mem) r q = some t) {i : Idx} (hE : Enough m t (i :: q')) :
    ∃ m' c, nextTable m t i = (m', some c) ∧ Enough m' c q' := by
  rcases nextTable_cases h hr hq ht i with ⟨c, hc, he⟩ | ⟨hc, e, he, hno⟩ | ⟨hc, p, m', he, -, -, -, hz, hA⟩
  · refine ⟨m, c, he, ?_⟩
    rcases hE with ⟨c', hc', hE⟩ | ⟨hn, -⟩
    · rw [hc] at hc'; cases hc'; exact hE
    · rw [hc] at hn; cases hn
  · rcases hE with ⟨c', hc', -⟩ | ⟨-, hR⟩
    · rw [hc] at hc'; cases hc'
    · exact absurd hR (hno _)
  · refine ⟨m', _, he, ?_⟩
    rcases hE with ⟨c', hc', -⟩ | ⟨-, hR⟩
    · rw [hc] at hc'; cases hc'
    · cases q' with
      | nil => trivial
      | cons j q' => exact Or.inr ⟨child_none_of_zero (hz j), hR.less hA⟩

theorem Owned.writeLeaf (h : Owned m R K rf) {r t : Nat} {q : List Idx} (hr : r ∈ R) (hq : q.length = 3)
    (ht : walk (child m.mem) r q = some t) (i : Idx) {v : Nat} (hv : v < 2 ^ 64) :
    Owned (m.setPte t i v) R K rf ∧ Wrote R rf m (m.setPte t i v) r q i v := by
  obtain ⟨ho, he, hw⟩ := h.setLeaf hr hq ht i hv
  refine ⟨ho, setPte_ttbr0 _ _ _ _, setPte_ttbr1 _ _ _ _, he, fun p hp => ?_, by rw [setPte_pmm],
    fun r' hr' q' hq' n hn => Or.inl (by rwa [hw r' hr' q' hq'] at hn)⟩
  exact h.setPte_page (h.root_table hr (by omega) ht) _ _ hp

/-! ## Mapping a page -/

theorem withTable_none {r : Machine × Option Nat} (k : Machine → Nat → Machine × Int) (h : r.2 = none) :
    (withTable r k).1 = r.1 ∧ (withTable r k).2 = -1 := by
  unfold withTable; rw [h]; exact ⟨rfl, rfl⟩

theorem withTable_some {r : Machine × Option Nat} (k : Machine → Nat → Machine × Int) {t : Nat} (h : r.2 = some t) :
    withTable r k = k r.1 t := by
  unfold withTable; rw [h]; rfl

theorem mapPage_eq (m : Machine) {va : Nat} (pa prot : Nat) (h0 : m.l0Table va ≠ 0) :
    mapPage m va pa prot = withTable (nextTable m (m.l0Table va) (l0Index va)) fun m l1 =>
      withTable (nextTable m l1 (l1Index va)) fun m l2 =>
        withTable (nextTable m l2 (l2Index va)) fun m l3 => (m.setPte l3 (l3Index va) (mkPte prot pa), 0) :=
  if_neg h0

theorem mapPage_spec (h : Owned m R K rf) {va pa prot : Nat} (hr : m.l0Table va ∈ R) (hp : prot < 2 ^ 64) :
    (mapPage m va pa prot).2 = -1 ∧ Stepped R K rf m (mapPage m va pa prot).1 ∨
    (mapPage m va pa prot).2 = 0 ∧ Owned (mapPage m va pa prot).1 R K rf ∧
      Wrote R rf m (mapPage m va pa prot).1 (m.l0Table va) (dirs va) (l3Index va) (mkPte prot pa) := by
  by_cases h0 : m.l0Table va = 0
  · have he : mapPage m va pa prot = (m, -1) := if_pos h0
    rw [he]
    exact Or.inl ⟨rfl, h, Quiet.rfl' m⟩
  rw [mapPage_eq m pa prot h0]
  obtain ⟨s1, w1⟩ := nextTable_spec h hr (q := []) (by simp) (walk_nil _ _) (l0Index va)
  generalize nextTable m (m.l0Table va) (l0Index va) = r1 at *
  cases e1 : r1.2 with
  | none =>
    rw [(withTable_none _ e1).1]
    exact Or.inl ⟨(withTable_none _ e1).2, s1⟩
  | some l1 =>
    rw [withTable_some _ e1]
    obtain ⟨s2, w2⟩ := nextTable_spec s1.owned hr (q := [l0Index va]) (by simp) (w1 l1 e1) (l1Index va)
    generalize nextTable r1.1 l1 (l1Index va) = r2 at *
    cases e2 : r2.2 with
    | none =>
      rw [(withTable_none _ e2).1]
      exact Or.inl ⟨(withTable_none _ e2).2, s1.trans s2⟩
    | some l2 =>
      rw [withTable_some _ e2]
      obtain ⟨s3, w3⟩ := nextTable_spec s2.owned hr (q := [l0Index va, l1Index va]) (by simp) (w2 l2 e2) (l2Index va)
      generalize nextTable r2.1 l2 (l2Index va) = r3 at *
      cases e3 : r3.2 with
      | none =>
        rw [(withTable_none _ e3).1]
        exact Or.inl ⟨(withTable_none _ e3).2, (s1.trans s2).trans s3⟩
      | some l3 =>
        rw [withTable_some _ e3]
        have hw : walk (child r3.1.mem) (m.l0Table va) (dirs va) = some l3 := w3 l3 e3
        obtain ⟨ho, hW⟩ := s3.owned.writeLeaf hr rfl hw (l3Index va) (mkPte_lt hp)
        exact Or.inr ⟨rfl, ho, ((s1.trans s2).trans s3).quiet.wrote hW⟩

/-- With enough free pages for the missing tables, mapping succeeds. -/
theorem mapPage_succeeds (h : Owned m R K rf) {va : Nat} (pa prot : Nat) (hr : m.l0Table va ∈ R)
    (h0 : m.l0Table va ≠ 0) (hE : Enough m (m.l0Table va) (dirs va)) : (mapPage m va pa prot).2 = 0 := by
  rw [mapPage_eq m pa prot h0]
  obtain ⟨s1, w1⟩ := nextTable_spec h hr (q := []) (by simp) (walk_nil _ _) (l0Index va)
  obtain ⟨m1, l1, e1, hE1⟩ := nextTable_enough h hr (q := []) (by simp) (walk_nil _ _) hE
  rw [e1] at s1 w1 ⊢
  rw [withTable_some _ rfl]
  obtain ⟨s2, w2⟩ := nextTable_spec s1.owned hr (q := [l0Index va]) (by simp) (w1 l1 rfl) (l1Index va)
  obtain ⟨m2, l2, e2, hE2⟩ := nextTable_enough s1.owned hr (q := [l0Index va]) (by simp) (w1 l1 rfl) hE1
  dsimp only at s2 w2 ⊢
  rw [e2] at s2 w2 ⊢
  rw [withTable_some _ rfl]
  obtain ⟨m3, l3, e3, -⟩ := nextTable_enough s2.owned hr (q := [l0Index va, l1Index va]) (by simp) (w2 l2 rfl) hE2
  dsimp only
  rw [e3, withTable_some _ rfl]

/-! ## Looking a page up -/

theorem child_present {t : Nat} {i : Idx} (h : ptePresent (m.pte t i) = true) :
    child m.mem t i = some (pteToPhys (m.pte t i)) := if_pos h

theorem child_absent {t : Nat} {i : Idx} (h : ¬ ptePresent (m.pte t i) = true) : child m.mem t i = none := if_neg h

theorem child_some {t c : Nat} {i : Idx} (h : child m.mem t i = some c) :
    ptePresent (m.pte t i) = true ∧ pteToPhys (m.pte t i) = c := by
  by_cases hp : ptePresent (m.pte t i) = true
  · rw [child_present hp] at h; exact ⟨hp, Option.some.inj h⟩
  · rw [child_absent hp] at h; cases h

theorem child_none {t : Nat} {i : Idx} (h : child m.mem t i = none) : ¬ ptePresent (m.pte t i) = true := by
  intro hp
  rw [child_present hp] at h; cases h

/-- The tables on the way to an address, or the address is not mapped. -/
theorem translate_cases (m : Machine) (va : Nat) :
    (ptePresent (m.translate va) = false ∧ ((¬ ptePresent (m.pte (m.l0Table va) (l0Index va)) = true) ∨
      ∃ t1, child m.mem (m.l0Table va) (l0Index va) = some t1 ∧ ((¬ ptePresent (m.pte t1 (l1Index va)) = true) ∨
        ∃ t2, child m.mem t1 (l1Index va) = some t2 ∧ ¬ ptePresent (m.pte t2 (l2Index va)) = true))) ∨
    ∃ t1 t2 t3, child m.mem (m.l0Table va) (l0Index va) = some t1 ∧ child m.mem t1 (l1Index va) = some t2 ∧
      child m.mem t2 (l2Index va) = some t3 ∧ m.translate va = m.pte t3 (l3Index va) := by
  have none_of : walk (child m.mem) (m.l0Table va) (dirs va) = none → ptePresent (m.translate va) = false := by
    intro h; rw [Machine.translate, entryAt_none h, ptePresent_zero]
  unfold dirs at none_of
  simp only [walk] at none_of
  cases h1 : child m.mem (m.l0Table va) (l0Index va) with
  | none =>
    rw [h1, Option.bind_none] at none_of
    exact Or.inl ⟨none_of rfl, Or.inl (child_none h1)⟩
  | some t1 =>
    rw [h1, Option.bind_some] at none_of
    cases h2 : child m.mem t1 (l1Index va) with
    | none =>
      rw [h2, Option.bind_none] at none_of
      exact Or.inl ⟨none_of rfl, Or.inr ⟨t1, rfl, Or.inl (child_none h2)⟩⟩
    | some t2 =>
      rw [h2, Option.bind_some] at none_of
      cases h3 : child m.mem t2 (l2Index va) with
      | none =>
        rw [h3, Option.bind_none] at none_of
        exact Or.inl ⟨none_of rfl, Or.inr ⟨t1, rfl, Or.inr ⟨t2, h2, child_none h3⟩⟩⟩
      | some t3 =>
        have hw : walk (child m.mem) (m.l0Table va) (dirs va) = some t3 := by
          rw [dirs, walk_cons h1, walk_cons h2, walk_cons h3, walk_nil]
        exact Or.inr ⟨t1, t2, t3, rfl, h2, h3, entryAt_some hw _⟩

theorem getPhysFromVa_eq (m : Machine) {va : Nat} (h0 : m.l0Table va ≠ 0) :
    getPhysFromVa m va = if ptePresent (m.translate va) then pteToPhys (m.translate va) else 0 := by
  unfold getPhysFromVa arm64GetPhysFromVa
  simp only [h0, if_false, Bool.not_eq_true']
  rcases translate_cases m va with ⟨hn, hp⟩ | ⟨t1, t2, t3, h1, h2, h3, ht⟩
  · rw [if_neg (c := ptePresent (m.translate va) = true) (by rw [hn]; exact Bool.false_ne_true)]
    rcases hp with hp | ⟨t1, h1, hp | ⟨t2, h2, hp⟩⟩
    · rw [if_pos (by simpa using hp)]
    · obtain ⟨a1, rfl⟩ := child_some h1
      rw [if_neg (by simp [a1]), if_pos (by simpa using hp)]
    · obtain ⟨a1, rfl⟩ := child_some h1
      obtain ⟨a2, rfl⟩ := child_some h2
      rw [if_neg (by simp [a1]), if_neg (by simp [a2]), if_pos (by simpa using hp)]
  · obtain ⟨a1, rfl⟩ := child_some h1
    obtain ⟨a2, rfl⟩ := child_some h2
    obtain ⟨a3, rfl⟩ := child_some h3
    rw [if_neg (by simp [a1]), if_neg (by simp [a2]), if_neg (by simp [a3]), ← ht]
    by_cases hp : ptePresent (m.translate va) = true
    · rw [if_pos hp, if_neg (by simp [hp])]
    · rw [if_neg hp, if_pos (by simpa using hp)]

/-! ## Unmapping a page -/

theorem tableEmpty_iff (t : Nat) : m.tableEmpty t = true ↔ ∀ j : Idx, read64 m.mem (t + 8 * j) = 0 := by
  unfold Machine.tableEmpty
  rw [List.all_eq_true]
  constructor
  · intro h j
    have := h j (List.mem_finRange j)
    rwa [beq_iff_eq] at this
  · intro h j _
    rw [beq_iff_eq]; exact h j

/-- `m'` is `m` without the empty table under entry `i` of `t`, which is `len` edges below `r`. -/
structure Dropped (R : Set Nat) (K : Set (Nat × Nat)) (rf : Nat → Nat) (m m' : Machine) (r len t : Nat) (i : Idx)
    (c : Nat) : Prop where
  step : Stepped R K rf m m'
  above : ∀ q' : List Idx, q'.length ≤ len → walk (child m'.mem) r q' = walk (child m.mem) r q'
  gone : child m'.mem t i = none
  used : ∀ p k, Used m'.pmm p k → Used m.pmm p k
  start : m'.pmm.buddyMemStart = m.pmm.buddyMemStart
  room : ¬ Unmanaged m.pmm c → ∀ n, Room m.pmm n → Room m'.pmm (n + 1)

theorem Owned.dropStep (h : Owned m R K rf) {r t c : Nat} {q : List Idx} (hr : r ∈ R) (hq : q.length < 3)
    (ht : walk (child m.mem) r q = some t) {i : Idx} (hc : walk (child m.mem) r (q ++ [i]) = some c)
    (hz : m.tableEmpty c = true) : Dropped R K rf m (m.dropTable t i c) r q.length t i c := by
  have hwc := hc
  rw [walk_snoc, ht, Option.bind_some] at hc
  have hz := (tableEmpty_iff c).mp hz
  obtain ⟨-, he, hw, hg⟩ := h.unlink hr hq ht hc hz
  obtain ⟨ho, hu⟩ := h.dropTable hr hq ht hc hz
  have hT := h.root_table hr (by omega) ht
  have hm : (m.dropTable t i c).mem = (m.setPte t i 0).mem := freePhysPages_mem _ _ _
  have hst : (m.dropTable t i c).pmm.buddyMemStart = m.pmm.buddyMemStart := by
    rcases (h.unlink hr hq ht hc hz).1 with ⟨hun, ho⟩ | ⟨p, rfl, hK, ho⟩
    · obtain ⟨e, he⟩ := ho.freeUnmanaged (n := c) (k := 0) hun
      unfold Machine.dropTable
      rw [he]; rfl
    · exact (ho.freeBlock hK).2.start
  refine ⟨⟨ho, ⟨freePhysPages_ttbr0 _ _ _, freePhysPages_ttbr1 _ _ _, fun r' hr' q' hq' j => ?_, fun p hp => ?_, hst,
    fun r' hr' q' hq' n hn => ?_⟩⟩, fun q' hq' => ?_, ?_, fun p k hp => ((hu p k).mp hp).1, hst, fun hun n hn => ?_⟩
  · rw [hm]; exact he r' hr' q' hq' j
  · intro x h1 h2
    rw [hm]
    exact h.setPte_page hT i 0 hp x h1 h2
  · rw [hm] at hn; exact Or.inl (hg r' hr' q' hq' n hn)
  · rw [hm]; exact hw q' hq'
  · rw [hm, setPte_mem]
    exact child_none_of_zero (by rw [read64_setPte_same (by decide), if_pos rfl])
  · rcases (h.table c (h.root_table hr (by simp; omega) hwc)).2 with e | ⟨p, rfl, hup, -⟩
    · exact absurd e hun
    · refine hn.more h.sound hup hst fun q k hq => ?_
      obtain ⟨a, b⟩ := (hu q k).mp hq
      exact ⟨a, fun e => b (by rw [e])⟩

/-- Writing one entry of a table leaves its others. -/
theorem child_setPte_other (m : Machine) (t : Nat) {i j : Idx} (v : Nat) (hv : v < 2 ^ 64) (h : j ≠ i) :
    child (m.setPte t i v).mem t j = child m.mem t j := by
  unfold child
  rw [setPte_mem, read64_setPte_same hv, if_neg h]

theorem child_dropTable_other (m : Machine) (t c : Nat) {i j : Idx} (h : j ≠ i) :
    child (m.dropTable t i c).mem t j = child m.mem t j := by
  rw [Machine.dropTable, freePhysPages_mem]
  exact child_setPte_other m t 0 (by decide) h

theorem tableEmpty_child {t : Nat} (h : m.tableEmpty t = true) (j : Idx) : child m.mem t j = none :=
  child_none_of_zero ((tableEmpty_iff t).mp h j)

/-- Each table on the way to `va` is a page of the allocator, or leads somewhere else as well. -/
def Anchored (m : Machine) (r va : Nat) : Prop :=
  ∀ q i, q ≠ [] → q ++ [i] <+: dirs va ++ [l3Index va] → ∀ n, walk (child m.mem) r q = some n → Unmanaged m.pmm n →
    ∃ j, j ≠ i ∧ child m.mem n j ≠ none

theorem Anchored.of_managed {r va : Nat} (h : ∀ n, Table m.mem {r} n → ¬ Unmanaged m.pmm n) : Anchored m r va := by
  intro q i _ hq n hn hu
  refine absurd hu (h n ⟨r, rfl, q, ?_, hn⟩)
  have := hq.length_le
  simp [dirs] at this
  omega

/-- What unmapping a mapped page leaves: the entry is clear, and its tables are there or there is room for them. -/
structure Unmapped (R : Set Nat) (K : Set (Nat × Nat)) (rf : Nat → Nat) (m m' : Machine) (r va : Nat) : Prop where
  owned : Owned m' R K rf
  wrote : Wrote R rf m m' r (dirs va) (l3Index va) 0
  used : ∀ p k, Used m'.pmm p k → Used m.pmm p k
  start : m'.pmm.buddyMemStart = m.pmm.buddyMemStart
  enough : (∀ n, Table m.mem {r} n → ¬ Unmanaged m.pmm n) → Enough m' r (dirs va)

theorem unmapPage_absent {va : Nat} (h0 : m.l0Table va ≠ 0) (hn : ptePresent (m.translate va) = false) :
    unmapPage m va = m := by
  unfold unmapPage arm64UnmapOnePage
  simp only [h0, if_false, Bool.not_eq_true']
  rcases translate_cases m va with ⟨-, hp⟩ | ⟨t1, t2, t3, h1, h2, h3, ht⟩
  · rcases hp with hp | ⟨t1, h1, hp | ⟨t2, h2, hp⟩⟩
    · rw [if_pos (by simpa using hp)]
    · obtain ⟨a1, rfl⟩ := child_some h1
      rw [if_neg (by simp [a1]), if_pos (by simpa using hp)]
    · obtain ⟨a1, rfl⟩ := child_some h1
      obtain ⟨a2, rfl⟩ := child_some h2
      rw [if_neg (by simp [a1]), if_neg (by simp [a2]), if_pos (by simpa using hp)]
  · obtain ⟨a1, rfl⟩ := child_some h1
    obtain ⟨a2, rfl⟩ := child_some h2
    obtain ⟨a3, rfl⟩ := child_some h3
    rw [if_neg (by simp [a1]), if_neg (by simp [a2]), if_neg (by simp [a3]), ← ht, if_pos hn]

theorem unmapPage_eq {va t1 t2 t3 : Nat} (h0 : m.l0Table va ≠ 0)
    (h1 : child m.mem (m.l0Table va) (l0Index va) = some t1) (h2 : child m.mem t1 (l1Index va) = some t2)
    (h3 : child m.mem t2 (l2Index va) = some t3) (h4 : ptePresent (m.pte t3 (l3Index va)) = true) :
    unmapPage m va =
      if (m.setPte t3 (l3Index va) 0).tableEmpty t3 = false then m.setPte t3 (l3Index va) 0
      else if ((m.setPte t3 (l3Index va) 0).dropTable t2 (l2Index va) t3).tableEmpty t2 = false then
        (m.setPte t3 (l3Index va) 0).dropTable t2 (l2Index va) t3
      else if (((m.setPte t3 (l3Index va) 0).dropTable t2 (l2Index va) t3).dropTable t1 (l1Index va) t2).tableEmpty t1 =
          false then ((m.setPte t3 (l3Index va) 0).dropTable t2 (l2Index va) t3).dropTable t1 (l1Index va) t2
      else (((m.setPte t3 (l3Index va) 0).dropTable t2 (l2Index va) t3).dropTable t1 (l1Index va) t2).dropTable
        (m.l0Table va) (l0Index va) t1 := by
  unfold unmapPage arm64UnmapOnePage
  simp only [h0, if_false, Bool.not_eq_true']
  obtain ⟨a1, rfl⟩ := child_some h1
  obtain ⟨a2, rfl⟩ := child_some h2
  obtain ⟨a3, rfl⟩ := child_some h3
  rw [if_neg (by simp [a1]), if_neg (by simp [a2]), if_neg (by simp [a3]), if_neg (by simp [h4])]

theorem child_of_walk {mem : Mem} {r t c : Nat} {q : List Idx} {i : Idx} (h1 : walk (child mem) r q = some t)
    (h2 : walk (child mem) r (q ++ [i]) = some c) : child mem t i = some c := by
  rw [walk_snoc, h1, Option.bind_some] at h2
  exact h2

theorem child_eq_of_walk {mem mem' : Mem} {r t : Nat} {q : List Idx} {j : Idx} (h : walk (child mem) r q = some t)
    (h' : walk (child mem') r q = some t) (hj : walk (child mem') r (q ++ [j]) = walk (child mem) r (q ++ [j])) :
    child mem' t j = child mem t j := by
  rwa [walk_snoc, walk_snoc, h, h', Option.bind_some, Option.bind_some] at hj

/-- Unmapping a page, and what it leaves of the tables on the way. -/
theorem unmapPage_kept (h : Owned m R K rf) {va : Nat} (hr : m.l0Table va ∈ R) (h0 : m.l0Table va ≠ 0)
    (hp : ptePresent (m.translate va) = true) :
    Unmapped R K rf m (unmapPage m va) (m.l0Table va) va ∧
      (Anchored m (m.l0Table va) va → Enough (unmapPage m va) (m.l0Table va) (dirs va)) := by
  suffices hs : (Owned (unmapPage m va) R K rf ∧
      Wrote R rf m (unmapPage m va) (m.l0Table va) (dirs va) (l3Index va) 0 ∧
      (∀ p k, Used (unmapPage m va).pmm p k → Used m.pmm p k) ∧
      (unmapPage m va).pmm.buddyMemStart = m.pmm.buddyMemStart) ∧
      (Anchored m (m.l0Table va) va → Enough (unmapPage m va) (m.l0Table va) (dirs va)) from
    ⟨⟨hs.1.1, hs.1.2.1, hs.1.2.2.1, hs.1.2.2.2, fun hm => hs.2 (Anchored.of_managed hm)⟩, hs.2⟩
  rcases translate_cases m va with ⟨hn, -⟩ | ⟨t1, t2, t3, h1, h2, h3, ht⟩
  · rw [hp] at hn; cases hn
  rw [unmapPage_eq h0 h1 h2 h3 (ht ▸ hp)]
  generalize hl0 : m.l0Table va = r at *
  have w1 : walk (child m.mem) r [l0Index va] = some t1 := by rw [walk_cons h1, walk_nil]
  have w2 : walk (child m.mem) r [l0Index va, l1Index va] = some t2 := by rw [walk_cons h1, walk_cons h2, walk_nil]
  have w3 : walk (child m.mem) r (dirs va) = some t3 := by
    rw [dirs, walk_cons h1, walk_cons h2, walk_cons h3, walk_nil]
  -- a table on the way that has become empty is a page of the allocator
  have managed : ∀ {m' : Machine} {q : List Idx} {i : Idx} {t : Nat}, Anchored m r va → q ≠ [] →
      q ++ [i] <+: dirs va ++ [l3Index va] → walk (child m.mem) r q = some t →
      (∀ j, j ≠ i → child m'.mem t j = child m.mem t j) → m'.tableEmpty t = true → ¬ Unmanaged m.pmm t := by
    intro m' q i t hk hq hqi hw hc hz hu
    obtain ⟨j, hj, hn⟩ := hk q i hq hqi t hw hu
    exact hn ((hc j hj).symm.trans (tableEmpty_child hz j))
  -- the leaf entry is cleared
  obtain ⟨o1, -, v1⟩ := h.setLeaf hr rfl w3 (l3Index va) (v := 0) (by decide)
  have W1 := (h.writeLeaf hr rfl w3 (l3Index va) (v := 0) (by decide)).2
  have hpmm1 : (m.setPte t3 (l3Index va) 0).pmm = m.pmm := setPte_pmm _ _ _ _
  have x3 : ∀ j, j ≠ l3Index va → child (m.setPte t3 (l3Index va) 0).mem t3 j = child m.mem t3 j :=
    fun j => child_setPte_other m t3 0 (by decide)
  have f1 := w1
  have f2 := w2
  have f3 := w3
  generalize m.setPte t3 (l3Index va) 0 = m1 at *
  rw [← v1 r hr _ (by simp)] at w1 w2
  rw [← v1 r hr _ (by simp [dirs])] at w3
  have c1 := child_of_walk (q := []) (walk_nil _ _) w1
  have c2 := child_of_walk (q := [l0Index va]) w1 w2
  have c3 := child_of_walk (q := [l0Index va, l1Index va]) w2 w3
  have x2 : ∀ j, child m1.mem t2 j = child m.mem t2 j := fun j => child_eq_of_walk f2 w2 (v1 r hr _ (by simp))
  have x1 : ∀ j, child m1.mem t1 j = child m.mem t1 j := fun j => child_eq_of_walk f1 w1 (v1 r hr _ (by simp))
  by_cases z3 : m1.tableEmpty t3 = false
  · rw [if_pos z3]
    exact ⟨⟨o1, W1, fun p k hu => by rwa [hpmm1] at hu, by rw [hpmm1]⟩,
      fun _ => Or.inl ⟨t1, c1, Or.inl ⟨t2, c2, Or.inl ⟨t3, c3, trivial⟩⟩⟩⟩
  rw [if_neg z3]
  have u3 : Anchored m r va → ¬ Unmanaged m.pmm t3 := fun hk =>
    managed hk (by simp [dirs]) (List.prefix_refl _) f3 x3 (by simpa using z3)
  -- the leaf table is empty
  have D2 := o1.dropStep hr (q := [l0Index va, l1Index va]) (by simp) w2 w3 (by simpa using z3)
  replace x2 : ∀ j, j ≠ l2Index va → child (m1.dropTable t2 (l2Index va) t3).mem t2 j = child m.mem t2 j :=
    fun j hj => (child_dropTable_other m1 t2 t3 hj).trans (x2 j)
  generalize m1.dropTable t2 (l2Index va) t3 = m2 at *
  have w1' := w1
  rw [← D2.above _ (by simp)] at w1 w2
  have c1 := child_of_walk (q := []) (walk_nil _ _) w1
  have c2 := child_of_walk (q := [l0Index va]) w1 w2
  replace x1 : ∀ j, child m2.mem t1 j = child m.mem t1 j := fun j =>
    (child_eq_of_walk w1' w1 (D2.above _ (by simp))).trans (x1 j)
  have W2 := W1.quiet D2.step.quiet
  have u2 : ∀ p k, Used m2.pmm p k → Used m.pmm p k := fun p k hu => by have := D2.used p k hu; rwa [hpmm1] at this
  have s2 : m2.pmm.buddyMemStart = m.pmm.buddyMemStart := by rw [D2.start, hpmm1]
  have un2 : ∀ n, Unmanaged m2.pmm n ↔ Unmanaged m.pmm n := fun n => by
    unfold Unmanaged; rw [s2]
  have r2 : ¬ Unmanaged m.pmm t3 → Room m2.pmm 1 := fun hu => D2.room (by rwa [hpmm1]) 0 (Room.zero _)
  by_cases z2 : m2.tableEmpty t2 = false
  · rw [if_pos z2]
    exact ⟨⟨D2.step.owned, W2, u2, s2⟩, fun hk => Or.inl ⟨t1, c1, Or.inl ⟨t2, c2, Or.inr ⟨D2.gone, r2 (u3 hk)⟩⟩⟩⟩
  rw [if_neg z2]
  have k2 : Anchored m r va → ¬ Unmanaged m.pmm t2 := fun hk =>
    managed hk (by simp) ⟨[l3Index va], rfl⟩ f2 x2 (by simpa using z2)
  have D3 := D2.step.owned.dropStep hr (q := [l0Index va]) (by simp) w1 w2 (by simpa using z2)
  replace x1 : ∀ j, j ≠ l1Index va → child (m2.dropTable t1 (l1Index va) t2).mem t1 j = child m.mem t1 j :=
    fun j hj => (child_dropTable_other m2 t1 t2 hj).trans (x1 j)
  generalize m2.dropTable t1 (l1Index va) t2 = m3 at *
  rw [← D3.above _ (by simp)] at w1
  have c1 := child_of_walk (q := []) (walk_nil _ _) w1
  have W3 := W2.quiet D3.step.quiet
  have u3' : ∀ p k, Used m3.pmm p k → Used m.pmm p k := fun p k hu => u2 p k (D3.used p k hu)
  have s3 : m3.pmm.buddyMemStart = m.pmm.buddyMemStart := D3.start.trans s2
  have un3 : ∀ n, Unmanaged m3.pmm n ↔ Unmanaged m.pmm n := fun n => by
    unfold Unmanaged; rw [s3]
  have r3 : ¬ Unmanaged m.pmm t3 → ¬ Unmanaged m.pmm t2 → Room m3.pmm 2 := fun hu hu' =>
    D3.room (by rwa [un2]) 1 (r2 hu)
  by_cases z1 : m3.tableEmpty t1 = false
  · rw [if_pos z1]
    exact ⟨⟨D3.step.owned, W3, u3', s3⟩, fun hk => Or.inl ⟨t1, c1, Or.inr ⟨D3.gone, r3 (u3 hk) (k2 hk)⟩⟩⟩
  rw [if_neg z1]
  have k1 : Anchored m r va → ¬ Unmanaged m.pmm t1 := fun hk =>
    managed hk (by simp) ⟨[l2Index va, l3Index va], rfl⟩ f1 x1 (by simpa using z1)
  have D4 := D3.step.owned.dropStep hr (q := []) (by simp) (walk_nil _ _) w1 (by simpa using z1)
  exact ⟨⟨D4.step.owned, W3.quiet D4.step.quiet, fun p k hu => u3' p k (D4.used p k hu), D4.start.trans s3⟩,
    fun hk => Or.inr ⟨D4.gone, D4.room (by rw [un3]; exact k1 hk) 2 (r3 (u3 hk) (k2 hk))⟩⟩

theorem unmapPage_present (h : Owned m R K rf) {va : Nat} (hr : m.l0Table va ∈ R) (h0 : m.l0Table va ≠ 0)
    (hp : ptePresent (m.translate va) = true) : Unmapped R K rf m (unmapPage m va) (m.l0Table va) va :=
  (unmapPage_kept h hr h0 hp).1

end

end Myos.Mm
