/-
  Myos.Mm.FreeTree — `free_page_table_tree` as a list of releases.

  The loops read tables that are freed as they go, but no release writes memory, so the
  calls are those of the tree as it was (`freeTables_eq`).

  Proved: a tree is released by one `put_page` for each of its leaf entries and one
  `free_phys_pages` for each of its tables; with every page owned by one side these take
  exactly the tree's references and tables from the allocator.
-/

import Mathlib.Algebra.BigOperators.Fin
import Myos.Mm.World

namespace Myos.Mm

open Pmm Lib.Walk Lib.Dyadic

inductive Release where
  | put (pa : Nat)
  | free (pa : Nat)
  deriving DecidableEq, Repr

def Release.run (m : Machine) : Release → Machine
  | .put pa => m.putPage pa
  | .free pa => m.freePhysPages pa 0

/-- The releases of the tree at `t`, `level` tables deep below it. -/
def treeReleases (mem : Mem) : (level : Nat) → (t : Nat) → List Release
  | 0, t => ((List.finRange 512).flatMap fun i => (child mem t i).toList.map Release.put) ++ [.free t]
  | level + 1, t =>
    ((List.finRange 512).flatMap fun i => (child mem t i).toList.flatMap (treeReleases mem level)) ++ [.free t]

section

variable {m : Machine} {R : Set Nat} {K : Set (Nat × Nat)} {rf : Nat → Nat}

theorem run_mem (m : Machine) (c : Release) : (c.run m).mem = m.mem := by
  cases c with
  | put pa => exact putPage_mem m pa
  | free pa => exact freePhysPages_mem m pa 0

theorem runs_mem (L : List Release) (m : Machine) : (L.foldl Release.run m).mem = m.mem := by
  induction L generalizing m with
  | nil => rfl
  | cons c L ih => rw [List.foldl_cons, ih, run_mem]

theorem runs_ttbr (L : List Release) (m : Machine) :
    (L.foldl Release.run m).ttbr0 = m.ttbr0 ∧ (L.foldl Release.run m).ttbr1 = m.ttbr1 := by
  induction L generalizing m with
  | nil => exact ⟨rfl, rfl⟩
  | cons c L ih =>
    rw [List.foldl_cons, (ih _).1, (ih _).2]
    cases c with
    | put pa => exact ⟨putPage_ttbr0 m pa, putPage_ttbr1 m pa⟩
    | free pa => exact ⟨freePhysPages_ttbr0 m pa 0, freePhysPages_ttbr1 m pa 0⟩

theorem runs_start (L : List Release) (m : Machine) :
    (L.foldl Release.run m).pmm.buddyMemStart = m.pmm.buddyMemStart := by
  induction L generalizing m with
  | nil => rfl
  | cons c L ih =>
    rw [List.foldl_cons, ih]
    cases c with
    | put pa => exact putPage_start m.pmm pa
    | free pa => exact freePhysPages_start m.pmm pa 0

/-- A loop whose turns are releases read off the memory is their concatenation. -/
theorem fold_releases {mem : Mem} {f : Machine → Idx → Machine} {g : Idx → List Release}
    (hf : ∀ m i, m.mem = mem → f m i = (g i).foldl Release.run m) :
    ∀ (l : List Idx) (m : Machine), m.mem = mem → l.foldl f m = (l.flatMap g).foldl Release.run m := by
  intro l
  induction l with
  | nil => intro m _; rfl
  | cons i l ih =>
    intro m hm
    rw [List.foldl_cons, List.flatMap_cons, List.foldl_append, hf m i hm]
    exact ih _ ((runs_mem _ _).trans hm)

theorem freeTables_eq : ∀ (level : Nat) (m : Machine) (t : Nat),
    freeTables level m t = (treeReleases m.mem level t).foldl Release.run m := by
  intro level
  induction level with
  | zero =>
    intro m t
    rw [freeTables, treeReleases, List.foldl_append, fold_releases (fun m' i hm => ?_) _ m rfl]
    · rfl
    · rw [← hm]
      by_cases hp : ptePresent (m'.pte t i) = true
      · rw [if_pos hp, child_present hp]; rfl
      · rw [if_neg hp, child_absent hp]; rfl
  | succ level ih =>
    intro m t
    rw [freeTables, treeReleases, List.foldl_append, fold_releases (fun m' i hm => ?_) _ m rfl]
    · rfl
    · rw [← hm]
      by_cases hp : ptePresent (m'.pte t i) = true
      · rw [if_pos hp, child_present hp, ih, Option.toList_some, List.flatMap_singleton]
      · rw [if_neg hp, child_absent hp]; rfl

/-! ## Which releases -/

theorem count_flatMap_fin (a : Release) (g : Idx → List Release) :
    ((List.finRange 512).flatMap g).count a = ∑ i, (g i).count a := by
  rw [List.count_flatMap, Fin.sum_univ_def]; rfl

/-- One `put_page` for each leaf entry. -/
theorem count_put (mem : Mem) (f : Nat) : ∀ (level t : Nat),
    (treeReleases mem level t).count (.put f) = pathCount (child mem) (level + 1) t f := by
  intro level
  induction level with
  | zero =>
    intro t
    rw [treeReleases, List.count_append, count_flatMap_fin, pathCount_succ]
    rw [List.count_singleton, if_neg (by simp), Nat.add_zero]
    refine Finset.sum_congr rfl fun i _ => ?_
    cases child mem t i with
    | none => rfl
    | some c =>
      rw [Option.toList_some, List.map_singleton, List.count_singleton]
      show _ = pathCount (child mem) 0 c f
      rw [pathCount_zero]
      by_cases e : c = f
      · simp [e]
      · simp [e]
  | succ level ih =>
    intro t
    rw [treeReleases, List.count_append, count_flatMap_fin, pathCount_succ]
    rw [List.count_singleton, if_neg (by simp), Nat.add_zero]
    refine Finset.sum_congr rfl fun i _ => ?_
    cases child mem t i with
    | none => rfl
    | some c => rw [Option.toList_some, List.flatMap_singleton]; exact ih c

theorem mem_free (mem : Mem) (n : Nat) : ∀ (level t : Nat), Release.free n ∈ treeReleases mem level t ↔
    ∃ q : List Idx, q.length ≤ level ∧ walk (child mem) t q = some n := by
  intro level
  induction level with
  | zero =>
    intro t
    rw [treeReleases, List.mem_append, List.mem_singleton, List.mem_flatMap]
    constructor
    · rintro (⟨i, -, h⟩ | h)
      · rw [List.mem_map] at h
        obtain ⟨c, -, h⟩ := h
        cases h
      · cases h; exact ⟨[], Nat.le_refl _, walk_nil _ _⟩
    · rintro ⟨q, hq, h⟩
      obtain rfl : q = [] := List.length_eq_zero_iff.mp (Nat.le_zero.mp hq)
      rw [walk_nil] at h
      cases h; exact Or.inr rfl
  | succ level ih =>
    intro t
    rw [treeReleases, List.mem_append, List.mem_singleton, List.mem_flatMap]
    constructor
    · rintro (⟨i, -, h⟩ | h)
      · rw [List.mem_flatMap] at h
        obtain ⟨c, hc, h⟩ := h
        rw [Option.mem_toList] at hc
        obtain ⟨q, hq, hw⟩ := (ih c).mp h
        exact ⟨i :: q, by simp; omega, by rw [walk_cons hc]; exact hw⟩
      · cases h; exact ⟨[], by simp, walk_nil _ _⟩
    · rintro ⟨q, hq, h⟩
      cases q with
      | nil => rw [walk_nil] at h; cases h; exact Or.inr rfl
      | cons i q =>
        cases hc : child mem t i with
        | none => rw [walk, hc, Option.bind_none] at h; cases h
        | some c =>
          rw [walk_cons hc] at h
          exact Or.inl ⟨i, List.mem_finRange i, List.mem_flatMap.mpr
            ⟨c, Option.mem_toList.mpr hc, (ih c).mpr ⟨q, by simpa using hq, h⟩⟩⟩

/-- A sum with at most one term, which is at most one. -/
theorem sum_le_one {g : Idx → Nat} (h1 : ∀ i, g i ≤ 1) (h2 : ∀ i j, 0 < g i → 0 < g j → i = j) : ∑ i, g i ≤ 1 := by
  by_cases h : ∃ i, 0 < g i
  · obtain ⟨i, hi⟩ := h
    rw [Finset.sum_eq_single i (fun j _ hj => ?_) (fun h => absurd (Finset.mem_univ i) h)]
    · exact h1 i
    · by_contra hne
      exact hj (h2 j i (Nat.pos_of_ne_zero hne) hi)
  · rw [Finset.sum_eq_zero fun i _ => ?_]
    · exact Nat.zero_le _
    · by_contra hne
      exact h ⟨i, Nat.pos_of_ne_zero hne⟩

/-- No table is freed twice where each is reached in one way. -/
theorem count_free (mem : Mem) (n : Nat) : ∀ (level t : Nat),
    (∀ q q' : List Idx, q.length ≤ level → q'.length ≤ level → walk (child mem) t q = some n →
      walk (child mem) t q' = some n → q = q') → (treeReleases mem level t).count (.free n) ≤ 1 := by
  intro level
  induction level with
  | zero =>
    intro t _
    rw [treeReleases, List.count_append, count_flatMap_fin, Finset.sum_eq_zero fun i _ => ?_, Nat.zero_add]
    · rw [List.count_singleton]; split <;> omega
    · rw [List.count_eq_zero, List.mem_map]
      rintro ⟨c, -, h⟩
      cases h
  | succ level ih =>
    intro t hu
    rw [treeReleases, List.count_append, count_flatMap_fin, List.count_singleton]
    have step : ∀ i, 0 < ((child mem t i).toList.flatMap (treeReleases mem level)).count (Release.free n) →
        ∃ q : List Idx, q.length ≤ level ∧ walk (child mem) t (i :: q) = some n := by
      intro i hi
      rw [List.count_pos_iff, List.mem_flatMap] at hi
      obtain ⟨c, hc, h⟩ := hi
      rw [Option.mem_toList] at hc
      obtain ⟨q, hq, hw⟩ := (mem_free mem n level c).mp h
      exact ⟨q, hq, by rw [walk_cons hc]; exact hw⟩
    by_cases ht : t = n
    · -- the root is freed once, and nothing below it is the root
      rw [Finset.sum_eq_zero fun i _ => ?_, Nat.zero_add]
      · split <;> omega
      · by_contra hne
        obtain ⟨q, hq, hw⟩ := step i (Nat.pos_of_ne_zero hne)
        have := hu [] (i :: q) (by simp) (by simp; omega) (by rw [walk_nil, ht]) hw
        cases this
    · rw [if_neg (by simp [ht]), Nat.add_zero]
      refine sum_le_one (fun i => ?_) fun i j hi hj => ?_
      · cases hc : child mem t i with
        | none => exact Nat.zero_le _
        | some c =>
          rw [Option.toList_some, List.flatMap_singleton]
          refine ih c fun q q' hq hq' h h' => ?_
          have := hu (i :: q) (i :: q') (by simp; omega) (by simp; omega) (by rw [walk_cons hc]; exact h)
            (by rw [walk_cons hc]; exact h')
          exact (List.cons.inj this).2
      · obtain ⟨q, hq, hw⟩ := step i hi
        obtain ⟨q', hq', hw'⟩ := step j hj
        exact (List.cons.inj (hu _ _ (by simp; omega) (by simp; omega) hw hw')).1

/-! ## What they release -/

/-- The blocks freed by `L`. -/
def freedBlocks (L : List Release) : Set (Nat × Nat) := {b | b.2 = 0 ∧ Release.free (pfnToPa b.1) ∈ L}

theorem releases_spec : ∀ (L : List Release) {m : Machine} {rf : Nat → Nat}, Owned m R (K ∪ freedBlocks L) rf →
    (∀ pa, Release.free pa ∈ L → ∃ p, pa = pfnToPa p ∧ (p, 0) ∉ K) → (∀ pa, L.count (.free pa) ≤ 1) →
    (∀ pa, Release.put pa ∈ L → ∃ p, pa = pfnToPa p) → (∀ p, L.count (.put (pfnToPa p)) ≤ rf p) →
    Owned (L.foldl Release.run m) R K fun p => rf p - L.count (.put (pfnToPa p)) := by
  intro L
  induction L with
  | nil =>
    intro m rf h _ _ _ _
    have hK : K ∪ freedBlocks [] = K := by
      ext b; simp [freedBlocks]
    rw [hK] at h
    exact h
  | cons c L ih =>
    intro m rf h hfree hone hput hcnt
    rw [List.foldl_cons]
    have hone' : ∀ pa, L.count (.free pa) ≤ 1 := fun pa =>
      Nat.le_trans (List.Sublist.count_le _ (List.sublist_cons_self c L)) (hone pa)
    cases c with
    | put pa =>
      obtain ⟨p, rfl⟩ := hput pa (by simp)
      have hp : 0 < rf p := by
        have := hcnt p
        rw [List.count_cons_self] at this; omega
      have hK : K ∪ freedBlocks (.put (pfnToPa p) :: L) = K ∪ freedBlocks L := by
        ext b; simp [freedBlocks]
      rw [hK] at h
      have h1 := ih (h.putPage hp).1 (fun pa hpa => hfree pa (List.mem_cons_of_mem _ hpa)) hone'
        (fun pa hpa => hput pa (List.mem_cons_of_mem _ hpa)) fun q => by
          have := hcnt q
          by_cases e : q = p
          · rw [e, Function.update_self]
            rw [e, List.count_cons_self] at this; omega
          · rw [Function.update_of_ne e]
            rwa [List.count_cons_of_ne fun e' => e (pfnToPa_inj (Release.put.inj e').symm)] at this
      have hfun : (fun q => Function.update rf p (rf p - 1) q - L.count (.put (pfnToPa q))) =
          fun q => rf q - (Release.put (pfnToPa p) :: L).count (.put (pfnToPa q)) := by
        funext q
        by_cases e : q = p
        · rw [e, Function.update_self, List.count_cons_self]; omega
        · rw [Function.update_of_ne e,
            List.count_cons_of_ne fun e' => e (pfnToPa_inj (Release.put.inj e').symm)]
      rw [hfun] at h1
      exact h1
    | free pa =>
      obtain ⟨p, rfl, hpK⟩ := hfree pa (by simp)
      have hnot : Release.free (pfnToPa p) ∉ L := by
        intro hm
        have h1 := hone (pfnToPa p)
        rw [List.count_cons_self] at h1
        have := List.count_pos_iff.mpr hm
        omega
      have hK : K ∪ freedBlocks (.free (pfnToPa p) :: L) = insert (p, 0) (K ∪ freedBlocks L) := by
        ext ⟨q, k⟩
        simp only [freedBlocks, Set.mem_union, Set.mem_ofPred_eq, List.mem_cons, Release.free.injEq, Set.mem_insert_iff,
          Prod.mk.injEq]
        constructor
        · rintro (h | ⟨rfl, h | h⟩)
          · exact Or.inr (Or.inl h)
          · exact Or.inl ⟨pfnToPa_inj h, rfl⟩
          · exact Or.inr (Or.inr ⟨rfl, h⟩)
        · rintro (⟨rfl, rfl⟩ | h | ⟨rfl, h⟩)
          · exact Or.inr ⟨rfl, Or.inl rfl⟩
          · exact Or.inl h
          · exact Or.inr ⟨rfl, Or.inr h⟩
      rw [hK] at h
      have h1 := ih (h.freeBlock (k := 0) (by
        rintro (e | e)
        · exact hpK e
        · exact hnot e.2)).1 (fun pa hpa => hfree pa (List.mem_cons_of_mem _ hpa)) hone'
        (fun pa hpa => hput pa (List.mem_cons_of_mem _ hpa)) fun q => by
          have := hcnt q
          rwa [List.count_cons_of_ne (by simp)] at this
      have hfun : (fun q => rf q - L.count (.put (pfnToPa q))) =
          fun q => rf q - (Release.free (pfnToPa p) :: L).count (.put (pfnToPa q)) := by
        funext q
        rw [List.count_cons_of_ne (by simp)]
      rw [hfun] at h1
      exact h1

end

section

variable {m : Machine} {U : Finset Nat} {K : Set (Nat × Nat)} {ex : Nat → Nat}

theorem table_singleton {mem : Mem} {r n : Nat} :
    Table mem {r} n ↔ ∃ q : List Idx, q.length ≤ 3 ∧ walk (child mem) r q = some n := by
  constructor
  · rintro ⟨r', rfl, q, hq, h⟩; exact ⟨q, hq, h⟩
  · rintro ⟨q, hq, h⟩; exact ⟨r, rfl, q, hq, h⟩

theorem leafCount_erase {r : Nat} (hr : r ∈ U) (f : Nat) :
    leafCount (child m.mem) U 4 f = pathCount (child m.mem) 4 r f + leafCount (child m.mem) (U.erase r) 4 f := by
  conv_lhs => rw [← Finset.insert_erase hr]
  exact leafCount_insert (Finset.notMem_erase r U) f

/-- One `free_phys_pages` for each table. -/
theorem count_free_table (hw : World m U K ex) {r : Nat} (hr : r ∈ U) (n : Nat) [Decidable (Table m.mem {r} n)] :
    (treeReleases m.mem 3 r).count (.free n) = if Table m.mem {r} n then 1 else 0 := by
  have h1 := count_free m.mem n 3 r fun q q' hq hq' h h' =>
    (hw.owned.table_unique (mem_roots hr) hq' h' (mem_roots hr) hq h).2
  split
  · rename_i ht
    have := List.count_pos_iff.mpr ((mem_free m.mem n 3 r).mpr (table_singleton.1 ht))
    omega
  · rename_i ht
    exact List.count_eq_zero.mpr fun hm => ht (table_singleton.2 ((mem_free m.mem n 3 r).mp hm))

theorem freePageTableTree_spec (hw : World m U K ex) {r : Nat} (hr : r ∈ U) :
    World (freePageTableTree m r) (U.erase r) K ex ∧ (freePageTableTree m r).mem = m.mem ∧
      (freePageTableTree m r).ttbr0 = m.ttbr0 ∧ (freePageTableTree m r).ttbr1 = m.ttbr1 := by
  have heq : freePageTableTree m r = (treeReleases m.mem 3 r).foldl Release.run m := freeTables_eq 3 m r
  have hmem : (freePageTableTree m r).mem = m.mem := by rw [heq, runs_mem]
  have htt := runs_ttbr (treeReleases m.mem 3 r) m
  have hnr : r ≠ m.ttbr1 := by rintro rfl; exact hw.kernel hr
  have hroots : roots m U = insert r (roots m (U.erase r)) := by
    have : (U : Set Nat) = insert r ↑(U.erase r) := by rw [← Finset.coe_insert, Finset.insert_erase hr]
    rw [roots, roots, this, Set.insert_comm]
  have hrn : r ∉ roots m (U.erase r) := by
    rintro (e | e)
    · exact hnr e
    · exact (Finset.notMem_erase r U) e
  have hman : ∀ n, Table m.mem {r} n → ¬ Unmanaged m.pmm n := by
    rintro n ⟨r', rfl, q, hq, h⟩
    exact hw.managed n ⟨r', hr, q, hq, h⟩
  have ho := hw.owned
  rw [hroots] at ho
  have hd := ho.dropRoot hrn hman
  have htb : tableBlocks m.mem r = freedBlocks (treeReleases m.mem 3 r) := by
    ext ⟨p, k⟩
    simp only [tableBlocks, freedBlocks, Set.mem_ofPred_eq, mem_free, table_singleton]
  rw [htb] at hd
  have hcount : ∀ p, (treeReleases m.mem 3 r).count (.put (pfnToPa p)) = pathCount (child m.mem) 4 r (pfnToPa p) :=
    fun p => count_put m.mem (pfnToPa p) 3 r
  have hrel := releases_spec (treeReleases m.mem 3 r) hd (fun pa hpa => ?_) (fun pa => ?_) (fun pa hpa => ?_)
    (fun p => ?_)
  · have hrf : (fun p => refs m.mem U ex p - (treeReleases m.mem 3 r).count (.put (pfnToPa p))) =
        refs m.mem (U.erase r) ex := by
      funext p
      rw [hcount, refs, refs, leafCount_erase hr]
      omega
    rw [hrf, ← heq] at hrel
    refine ⟨⟨?_, by rw [heq, htt.2]; exact fun h => hw.kernel (Finset.mem_of_mem_erase h), ?_, ?_⟩,
      hmem, by rw [heq]; exact htt.1, by rw [heq]; exact htt.2⟩
    · rw [roots, show (freePageTableTree m r).ttbr1 = m.ttbr1 by rw [heq]; exact htt.2, hmem]
      exact hrel
    · rintro n ⟨r', hr', q, hq, h⟩
      rw [hmem] at h
      have := hw.managed n ⟨r', Finset.mem_of_mem_erase hr', q, hq, h⟩
      unfold Unmanaged at *
      rwa [heq, runs_start]
    · intro r' hr' q hq i
      rw [hmem]
      exact hw.leaf r' (Finset.mem_of_mem_erase hr') q hq i
  · obtain ⟨q, hq, hwk⟩ := (mem_free m.mem pa 3 r).mp hpa
    have hT : Table m.mem {r} pa := table_singleton.2 ⟨q, hq, hwk⟩
    rcases (hw.owned.table pa ⟨r, mem_roots hr, q, hq, hwk⟩).2 with e | ⟨p, rfl, -, hK, -⟩
    · exact absurd e (hman pa hT)
    · exact ⟨p, rfl, hK⟩
  · exact count_free m.mem pa 3 r fun q q' hq hq' h h' =>
      (hw.owned.table_unique (mem_roots hr) hq' h' (mem_roots hr) hq h).2
  · have hpos := List.count_pos_iff.mpr hpa
    rw [count_put] at hpos
    obtain ⟨s, hs, hwk⟩ := pathCount_pos.mp hpos
    obtain ⟨q, i, rfl, hq⟩ := path_split hs
    rw [walk_entry] at hwk
    split at hwk
    · rename_i hp
      obtain ⟨p, e⟩ := hw.leaf r hr q hq i hp
      rw [e] at hwk
      exact ⟨p, (Option.some.inj hwk).symm⟩
    · cases hwk
  · rw [hcount, refs, leafCount_erase hr]
    omega

end

end Myos.Mm
