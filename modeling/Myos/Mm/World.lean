/-
  Myos.Mm.World — reference counts against the leaf entries of the user tables.

  `refs` counts the leaf entries of the trees `U` that lead to a page, and `ex` what
  else holds a reference to it. `World m U K ex`: every page is owned by one side, and
  the count of a data frame is `refs`.

  Proved: `World` through a step that changes no entry and through one that writes one
  leaf entry; what a mapped page is.
-/

import Myos.Mm.MapPage

namespace Myos.Mm

open Pmm Lib.Walk Lib.Dyadic

/-- The references to page frame `p`. -/
def refs (mem : Mem) (U : Finset Nat) (ex : Nat → Nat) (p : Nat) : Nat := leafCount (child mem) U 4 (pfnToPa p) + ex p

/-- Whether an entry leads to page frame `p`, as a count. -/
def leadsTo (v p : Nat) : Nat := if ptePresent v = true ∧ pteToPhys v = pfnToPa p then 1 else 0

/-- A present entry leads to a page frame. -/
def LeafOk (v : Nat) : Prop := ptePresent v = true → ∃ p, pteToPhys v = pfnToPa p

/-- The level-0 tables: the user ones and the kernel's. -/
abbrev roots (m : Machine) (U : Finset Nat) : Set Nat := insert m.ttbr1 ↑U

structure World (m : Machine) (U : Finset Nat) (K : Set (Nat × Nat)) (ex : Nat → Nat) : Prop where
  owned : Owned m (roots m U) K (refs m.mem U ex)
  kernel : m.ttbr1 ∉ U
  managed : ∀ n, Table m.mem ↑U n → ¬ Unmanaged m.pmm n
  leaf : ∀ r ∈ U, ∀ q : List Idx, q.length = 3 → ∀ i, LeafOk (entryAt m.mem r q i)

theorem leafOk_zero : LeafOk 0 := fun h => by rw [ptePresent_zero] at h; cases h

theorem leadsTo_zero (p : Nat) : leadsTo 0 p = 0 := if_neg fun h => by rw [ptePresent_zero] at h; cases h.1

theorem leadsTo_absent {v : Nat} (h : ptePresent v = false) (p : Nat) : leadsTo v p = 0 :=
  if_neg fun h' => by rw [h] at h'; cases h'.1

theorem leadsTo_present {v p : Nat} (h : ptePresent v = true) (hp : pteToPhys v = pfnToPa p) (q : Nat) :
    leadsTo v q = if q = p then 1 else 0 := by
  unfold leadsTo
  by_cases e : q = p
  · rw [if_pos ⟨h, by rw [hp, e]⟩, if_pos e]
  · rw [if_neg fun h' => e (pfnToPa_inj (h'.2.symm.trans hp)), if_neg e]

theorem leadsTo_mkPte {prot p : Nat} (hp : ProtOk prot) (hlt : p < totalPages) (q : Nat) :
    leadsTo (mkPte prot (pfnToPa p)) q = if q = p then 1 else 0 :=
  leadsTo_present (mkPte_present hp.valid) (mkPte_pteToPhys hp (pfnToPa_pageAddr hlt)) q

theorem leafOk_mkPte {prot p : Nat} (hp : ProtOk prot) (hlt : p < totalPages) : LeafOk (mkPte prot (pfnToPa p)) :=
  fun _ => ⟨p, mkPte_pteToPhys hp (pfnToPa_pageAddr hlt)⟩

/-- A path of four edges is three and a leaf index. -/
theorem path_split {s : List Idx} (h : s.length = 4) : ∃ q i, s = q ++ [i] ∧ q.length = 3 := by
  have hne : s ≠ [] := by rintro rfl; cases h
  exact ⟨s.dropLast, s.getLast hne, (List.dropLast_append_getLast hne).symm, by rw [List.length_dropLast, h]⟩

section

variable {m m' : Machine} {U : Finset Nat} {K : Set (Nat × Nat)} {ex ex' rf rf' : Nat → Nat}

theorem mem_roots {r : Nat} (h : r ∈ U) : r ∈ roots m U := Set.mem_insert_of_mem _ h

theorem kernel_mem_roots : m.ttbr1 ∈ roots m U := Set.mem_insert _ _

/-- With the same entries the counts are the same. -/
theorem leafCount_entries (h : ∀ r ∈ U, ∀ q : List Idx, q.length = 3 → ∀ i,
    entryAt m'.mem r q i = entryAt m.mem r q i) (f : Nat) :
    leafCount (child m'.mem) U 4 f = leafCount (child m.mem) U 4 f := by
  refine leafCount_congr (fun r hr s hs => ?_) f
  obtain ⟨q, i, rfl, hq⟩ := path_split hs
  exact walk_eq_of_entry (h r hr q hq i)

/-- Writing one leaf entry of a user tree moves one reference. -/
theorem leafCount_wrote {R : Set Nat} {r v : Nat} {q : List Idx} {i : Idx} (hU : ∀ r ∈ U, r ∈ R) (hr : r ∈ U)
    (hq : q.length = 3) (hW : Wrote R rf m m' r q i v) (p : Nat) :
    leafCount (child m'.mem) U 4 (pfnToPa p) + leadsTo (entryAt m.mem r q i) p =
      leafCount (child m.mem) U 4 (pfnToPa p) + leadsTo v p := by
  have h : leafCount (child m'.mem) U 4 (pfnToPa p) + _ = leafCount (child m.mem) U 4 (pfnToPa p) + _ :=
    leafCount_update (p := q ++ [i])
    (b := if ptePresent v = true then some (pteToPhys v) else none) hr (by simp [hq]) (fun r' hr' s hs => by
      obtain ⟨q', j, rfl, hq'⟩ := path_split hs
      have he := hW.entry r' (hU r' hr') q' hq' j
      by_cases e : r' = r ∧ q' = q ∧ j = i
      · rw [if_pos e] at he
        obtain ⟨rfl, rfl, rfl⟩ := e
        rw [walk_entry, he]
        exact (if_pos ⟨rfl, rfl⟩).symm
      · rw [if_neg e] at he
        rw [walk_eq_of_entry he]
        refine (if_neg ?_).symm
        rintro ⟨rfl, e'⟩
        obtain ⟨rfl, e''⟩ := List.append_inj' e' rfl
        exact e ⟨rfl, rfl, by simpa using e''⟩) (pfnToPa p)
  rw [walk_entry] at h
  have some_iff : ∀ v, (if (if ptePresent v = true then some (pteToPhys v) else none) = some (pfnToPa p) then 1 else 0) =
      leadsTo v p := by
    intro v
    unfold leadsTo
    by_cases hv : ptePresent v = true
    · simp only [hv, if_true, Option.some.injEq, true_and]
    · simp only [hv, if_false, false_and, reduceCtorEq, Bool.false_eq_true]
  rwa [some_iff, some_iff] at h

theorem grown_managed {R : Set Nat} (hw : World m U K ex) (hU : ∀ r ∈ U, r ∈ R)
    (hst : m'.pmm.buddyMemStart = m.pmm.buddyMemStart)
    (hg : ∀ r' ∈ R, ∀ q' : List Idx, q'.length ≤ 3 → ∀ n, walk (child m'.mem) r' q' = some n →
      walk (child m.mem) r' q' = some n ∨ ¬ Unmanaged m.pmm n) : ∀ n, Table m'.mem ↑U n → ¬ Unmanaged m'.pmm n := by
  rintro n ⟨r, hr, q, hq, hn⟩
  have : ¬ Unmanaged m.pmm n := by
    rcases hg r (hU r hr) q hq n hn with h | h
    · exact hw.managed n ⟨r, hr, q, hq, h⟩
    · exact h
  unfold Unmanaged at *
  rwa [hst]

theorem World.step (hw : World m U K ex) (h : Stepped (roots m U) K (refs m.mem U ex) m m') : World m' U K ex := by
  have hr : refs m'.mem U ex = refs m.mem U ex := by
    funext p
    unfold refs
    rw [leafCount_entries fun r hr q hq i => h.quiet.entry r (mem_roots hr) q hq i]
  refine ⟨?_, by rw [h.quiet.ttbr1]; exact hw.kernel, grown_managed hw (fun _ => mem_roots) h.quiet.start h.quiet.grown,
    fun r hr q hq i => ?_⟩
  · rw [roots, h.quiet.ttbr1, hr]; exact h.owned
  · rw [h.quiet.entry r (mem_roots hr) q hq i]; exact hw.leaf r hr q hq i

/-- Writing a leaf entry of a user tree, once the counts say the same. -/
theorem World.write (hw : World m U K ex) {r v : Nat} {q : List Idx} {i : Idx} (hr : r ∈ U) (hq : q.length = 3)
    (hv : LeafOk v) (ho : Owned m' (roots m U) K rf') (hW : Wrote (roots m U) rf m m' r q i v)
    (hex : ∀ p, rf' p + leadsTo (entryAt m.mem r q i) p + ex p = refs m.mem U ex p + leadsTo v p + ex' p) :
    World m' U K ex' := by
  have hrf : rf' = refs m'.mem U ex' := by
    funext p
    have h1 := leafCount_wrote (fun r hr => mem_roots (m := m) hr) hr hq hW p
    have h2 := hex p
    unfold refs at h2 ⊢
    omega
  refine ⟨?_, by rw [hW.ttbr1]; exact hw.kernel, grown_managed hw (fun _ => mem_roots) hW.start hW.grown,
    fun r' hr' q' hq' j => ?_⟩
  · rw [roots, hW.ttbr1, ← hrf]; exact ho
  · rw [hW.entry r' (mem_roots hr') q' hq' j]
    split
    · exact hv
    · exact hw.leaf r' hr' q' hq' j

/-- Writing a leaf entry of the kernel's tree moves no reference of a user page. -/
theorem World.writeKernel (hw : World m U K ex) {v : Nat} {q : List Idx} {i : Idx}
    (ho : Owned m' (roots m U) K (refs m.mem U ex')) (hW : Wrote (roots m U) rf m m' m.ttbr1 q i v) :
    World m' U K ex' := by
  have hent : ∀ r ∈ U, ∀ q' : List Idx, q'.length = 3 → ∀ j, entryAt m'.mem r q' j = entryAt m.mem r q' j := by
    intro r hr q' hq' j
    rw [hW.entry r (mem_roots hr) q' hq' j, if_neg]
    rintro ⟨rfl, -⟩
    exact hw.kernel hr
  have hrf : refs m'.mem U ex' = refs m.mem U ex' := by
    funext p
    unfold refs
    rw [leafCount_entries hent]
  refine ⟨?_, by rw [hW.ttbr1]; exact hw.kernel, grown_managed hw (fun _ => mem_roots) hW.start hW.grown,
    fun r' hr' q' hq' j => ?_⟩
  · rw [roots, hW.ttbr1, hrf]; exact ho
  · rw [hent r' hr' q' hq' j]; exact hw.leaf r' hr' q' hq' j

/-- A present leaf entry of a user tree leads to a data frame. -/
theorem World.leaf_frame (hw : World m U K ex) {r : Nat} {q : List Idx} {i : Idx} (hr : r ∈ U) (hq : q.length = 3)
    (hp : ptePresent (entryAt m.mem r q i) = true) :
    ∃ p, pteToPhys (entryAt m.mem r q i) = pfnToPa p ∧ 0 < leafCount (child m.mem) U 4 (pfnToPa p) := by
  obtain ⟨p, e⟩ := hw.leaf r hr q hq i hp
  refine ⟨p, e, leafCount_pos.mpr ⟨r, hr, q ++ [i], by simp [hq], ?_⟩⟩
  rw [walk_entry, if_pos hp, e]

/-- Every frame the user tables map is counted. -/
theorem World.refs_pos (_ : World m U K ex) {p : Nat} (h : 0 < leafCount (child m.mem) U 4 (pfnToPa p)) :
    0 < refs m.mem U ex p := by unfold refs; omega

/-- There are at most 2^16 user tables of 2^36 leaf entries. -/
theorem World.leafCount_lt (hw : World m U K ex) (f : Nat) : leafCount (child m.mem) U 4 f ≤ 2 ^ 52 := by
  have hsub : U ⊆ (Finset.range totalPages).image pfnToPa := by
    intro r hr
    have hT : Table m.mem ↑U r := ⟨r, hr, [], by simp, walk_nil _ _⟩
    have hT' : Table m.mem (roots m U) r := ⟨r, mem_roots hr, [], by simp, walk_nil _ _⟩
    rcases (hw.owned.table r hT').2 with e | ⟨p, rfl, hu, -⟩
    · exact absurd e (hw.managed r hT)
    · exact Finset.mem_image.mpr ⟨p, Finset.mem_range.mpr hu.1, rfl⟩
  have hcard : U.card ≤ 65536 := by
    refine (Finset.card_le_card hsub).trans (Finset.card_image_le.trans ?_)
    have ht : totalPages = 65536 := rfl
    rw [Finset.card_range, ht]
  have h : leafCount (child m.mem) U 4 f ≤ _ := leafCount_le f
  have hc : Fintype.card Idx = 512 := Fintype.card_fin 512
  rw [hc] at h
  exact h.trans (Nat.mul_le_mul_right _ hcard)

theorem World.refs_lt (hw : World m U K ex) {p : Nat} (hs : ex p < 2 ^ 63) : refs m.mem U ex p + 1 < 2 ^ 64 := by
  have h1 := hw.leafCount_lt (pfnToPa p)
  unfold refs
  omega

end

end Myos.Mm
