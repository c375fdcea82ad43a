/-
  Myos.Mm.Sharing — a forked process shares its pages with its parent.

  Proved: a fork takes one page for each table of the parent (three when the parent's
  tables are those of one address) and gives the child every page, read-only; the
  first process of a system touches a page and forks.
-/

import Myos.Mm.Progress
import Myos.Mm.RefCounts

namespace Myos.Mm

open Pmm Lib.Walk Lib.Dyadic

/-- The directories of the tree `r` are on the path `d`. -/
def Thin (m : Machine) (r : Nat) (d : List Idx) : Prop :=
  ∀ q : List Idx, q.length ≤ 3 → q ≠ [] → (walk (child m.mem) r q).isSome → q <+: d

theorem need_thin {w : List Idx → Option Nat} {d : List Idx}
    (hd : ∀ q : List Idx, q.length ≤ 3 → q ≠ [] → (w q).isSome → q <+: d) : ∀ (level : Nat) (q : List Idx),
      q.length + level ≤ 3 → need w level q ≤ level := by
  intro level
  induction level with
  | zero => intro q _; exact Nat.le_refl _
  | succ level ih =>
    intro q hq
    let f : Idx → Nat := fun j => if (w (q ++ [j])).isSome then 1 + need w level (q ++ [j]) else 0
    have hsum : need w (level + 1) q = ∑ j, f j := (Fin.sum_univ_def f).symm
    rw [hsum]
    -- at most one entry of a table is on the path
    have hone : ∀ i j, f i ≠ 0 → f j ≠ 0 → i = j := by
      intro i j hi hj
      have hs : ∀ i, f i ≠ 0 → q ++ [i] <+: d := fun i hi => by
        refine hd _ (by simp; omega) (by simp) ?_
        by_contra e
        exact hi (if_neg e)
      have := List.prefix_of_prefix_length_le (hs i hi) (hs j hj) (by simp)
      have := this.eq_of_length (by simp)
      simpa using this
    have hle : ∀ i, f i ≤ level + 1 := by
      intro i
      show (if (w (q ++ [i])).isSome then 1 + need w level (q ++ [i]) else 0) ≤ level + 1
      split
      · have := ih (q ++ [i]) (by simp; omega)
        omega
      · omega
    by_cases h0 : ∃ i, f i ≠ 0
    · obtain ⟨i, hi⟩ := h0
      rw [Finset.sum_eq_single i (fun j _ hj => by_contra fun e => hj (hone j i e hi)) (by simp)]
      exact hle i
    · rw [Finset.sum_eq_zero fun i _ => by_contra fun e => h0 ⟨i, e⟩]
      omega

section

variable {m m' : Machine} {U : Finset Nat} {K : Set (Nat × Nat)} {ex : Nat → Nat} {P n : Nat} {d : List Idx}

/-- What a fork leaves: the parent as it was, and a child with every page of it. -/
structure Forked (m m' : Machine) (U : Finset Nat) (K : Set (Nat × Nat)) (ex : Nat → Nat) (P C : Nat) : Prop where
  fresh : C ∉ roots m U
  world : World m' (insert C U) K ex
  ttbr0 : m'.ttbr0 = m.ttbr0
  ttbr1 : m'.ttbr1 = m.ttbr1
  entry : ∀ r ∈ roots m U, ∀ q : List Idx, q.length = 3 → ∀ i, entryAt m'.mem r q i = entryAt m.mem r q i
  child : ∀ q : List Idx, q.length = 3 → ∀ i, entryAt m'.mem C q i =
    if ptePresent (entryAt m.mem P q i) = true then cowPte (entryAt m.mem P q i) else 0
  page : ∀ p, 0 < refs m.mem U ex p → SamePage m m' p

theorem below_all {q : List Idx} (i : Idx) : Below [] (List.finRange 512) (q ++ [i]) := by
  cases q with
  | nil => exact ⟨i, List.mem_finRange i, List.prefix_refl _⟩
  | cons j q => exact ⟨j, List.mem_finRange j, ⟨q ++ [i], rfl⟩⟩

theorem fork_forked (hw : World m U K ex) (hx : ∀ p, ex p < 2 ^ 63) (hP : P ∈ U)
    (hR : Room m.pmm (need (walk (child m.mem) P) 3 [] + n + 1)) :
    ∃ C, (createUserPgd m).2 = some C ∧ Forked m (copyUserPageTable (createUserPgd m).1 P C) U K ex P C ∧
      Room (copyUserPageTable (createUserPgd m).1 P C).pmm n := by
  obtain ⟨hc, hR1⟩ := createUserPgd_room hw.owned hR
  rcases hw.newPgd with ⟨e, -⟩ | ⟨p, e, hnR, h, hQ, hg, hz⟩
  · exact absurd e hc
  refine ⟨_, e, ?_⟩
  have hne : P ≠ pfnToPa p := by rintro rfl; exact hnR (mem_roots hP)
  have hP1 : P ∈ insert (pfnToPa p) U := Finset.mem_insert_of_mem hP
  have hroots : ∀ r ∈ roots m U, r ∈ roots (createUserPgd m).1 (insert (pfnToPa p) U) ∧ r ≠ pfnToPa p := by
    intro r hr
    refine ⟨?_, by rintro rfl; exact hnR hr⟩
    rw [roots_insert hQ.ttbr1]; exact Set.mem_insert_of_mem _ hr
  have hneed : need (walk (child (createUserPgd m).1.mem) P) 3 [] = need (walk (child m.mem) P) 3 [] :=
    need_congr 3 [] (by simp) fun s hs => hg P (mem_roots hP) s hs
  have hC := copyUserPageTable_spec h hx hP1 (Finset.mem_insert_self _ _) hne hz
  rw [hneed] at hC
  generalize createUserPgd m = r1 at *
  obtain ⟨hRn, hfull⟩ := hC.full n hR1
  generalize copyUserPageTable r1.1 P (pfnToPa p) = m2 at *
  have hPe : ∀ q : List Idx, q.length = 3 → ∀ i, entryAt r1.1.mem P q i = entryAt m.mem P q i :=
    hQ.entry P (mem_roots hP)
  refine ⟨⟨hnR, hC.world, hC.ttbr0.trans hQ.ttbr0, hC.ttbr1.trans hQ.ttbr1, fun r hr q hq i => ?_, fun q hq i => ?_,
    fun x hx => (hQ.page x hx).trans (hC.page x ?_)⟩, hRn⟩
  · rw [hC.entry r (hroots r hr).1 q hq i fun e => absurd e (hroots r hr).2]
    exact hQ.entry r hr q hq i
  · split
    case isTrue hp => rw [hfull q hq i (below_all i) (by rw [hPe q hq i]; exact hp), hPe q hq i]
    case isFalse hp =>
      rcases hC.copied q hq i (below_all i) with e | ⟨e, -⟩
      · exact e
      · rw [hPe q hq i] at e; exact absurd e hp
  · refine Nat.lt_of_lt_of_le hx ?_
    have h1 := leafCount_entries (m := m) (U := U) (fun r hr => hQ.entry r (mem_roots hr)) (pfnToPa x)
    have h2 : leafCount (child r1.1.mem) (insert (pfnToPa p) U) 4 (pfnToPa x) = _ :=
      leafCount_insert (fun h => hnR (mem_roots h)) (pfnToPa x)
    unfold refs
    omega

/-! ## The first process -/

/-- The process with the tree `P` has page frame `p` at `va`, with `prot`, and no other
    page; `n` pages are free. -/
structure Touched (m : Machine) (K : Set (Nat × Nat)) (P p va prot n : Nat) : Prop where
  world : World m {P} K fun _ => 0
  ttbr0 : m.ttbr0 = P
  frame : p < totalPages
  entry : ∀ q : List Idx, q.length = 3 → ∀ i,
    entryAt m.mem P q i = if q = dirs va ∧ i = l3Index va then mkPte prot (pfnToPa p) else 0
  thin : Thin m P (dirs va)
  room : Room m.pmm n

theorem leavesOf_pos {r p : Nat} {q : List Idx} {i : Idx} (hr : r ∈ U) (hq : q.length = 3)
    (hp : ptePresent (entryAt m.mem r q i) = true) (he : pteToPhys (entryAt m.mem r q i) = pfnToPa p) :
    0 < leafCount (child m.mem) U 4 (pfnToPa p) := by
  refine leafCount_pos.mpr ⟨r, hr, q ++ [i], by simp [hq], ?_⟩
  rw [walk_entry, if_pos hp, he]

theorem Boot.touched {va prot : Nat} (hb : Boot m K) (hu : isUserAddr va = true) (hp : ProtOk prot)
    (hR : Room m.pmm (n + 4 + 1)) :
    ∃ P p, (createUserPgd m).2 = some P ∧ P ≠ 0 ∧
      ptePresent (Machine.translate { (createUserPgd m).1 with ttbr0 := P } va) = false ∧
      (demandPage { (createUserPgd m).1 with ttbr0 := P } (pageBase va) prot).2 = .handled ∧
      (demandPage { (createUserPgd m).1 with ttbr0 := P } (pageBase va) prot).1.ttbr1 = m.ttbr1 ∧
      Touched (demandPage { (createUserPgd m).1 with ttbr0 := P } (pageBase va) prot).1 K P p va prot n := by
  obtain ⟨hc, hR1⟩ := createUserPgd_room hb.world.owned hR
  rcases hb.world.newPgd with ⟨e, -⟩ | ⟨P, e, hnR, h, hQ, -, hz⟩
  · exact absurd e hc
  have hw : World { (createUserPgd m).1 with ttbr0 := pfnToPa P } {pfnToPa P} K fun _ => 0 :=
    ⟨⟨h.owned.sound, h.owned.forest, h.owned.table, h.owned.owner, h.owned.block, h.owned.frame⟩, h.kernel, h.managed,
      h.leaf⟩
  have hub : isUserAddr (pageBase va) = true := by rw [isUserAddr_pageBase]; exact hu
  have hP1 : pfnToPa P ∈ ({pfnToPa P} : Finset Nat) := Finset.mem_singleton_self _
  refine ⟨pfnToPa P, ?_⟩
  generalize hm1 : ({ (createUserPgd m).1 with ttbr0 := pfnToPa P } : Machine) = m1 at *
  have hmem : m1.mem = (createUserPgd m).1.mem := by rw [← hm1]
  have ht0 : m1.ttbr0 = pfnToPa P := by rw [← hm1]
  have ht1 : m1.ttbr1 = m.ttbr1 := by rw [← hm1]; exact hQ.ttbr1
  have hpmm : m1.pmm = (createUserPgd m).1.pmm := by rw [← hm1]
  have hl := (l0Table_user (m := m1) hub).trans ht0
  have hcz : ∀ j, child m1.mem (pfnToPa P) j = none := fun j => child_none_of_zero (by rw [hmem]; exact hz j)
  have hno : ∀ q : List Idx, q ≠ [] → walk (child m1.mem) (pfnToPa P) q = none := fun q hq => walk_childless hcz hq
  have hva : m1.translate va = 0 := by
    rw [Machine.translate, l0Table_user hu, ht0, entryAt_none (hno _ (by simp [dirs]))]
  have hz0 : m1.translate (pageBase va) = 0 := by rw [translate_pageBase, hva]
  obtain ⟨hok, hR2, hG⟩ := demandPage_room hw.owned (n := n) (by rw [hl]; exact mem_roots hP1)
    (by rw [hl]; exact pfnToPa_ne_zero P) hp (by rw [hpmm]; exact hR1)
  rcases hw.demandPage (by rw [ht0]; exact hP1) hub hp with ⟨hn, -⟩ | ⟨p, -, hw', hI⟩
  · exact absurd hok hn
  have hW := hI.wrote
  rw [hz0, show (fun q => 0 + leadsTo 0 q) = fun _ => 0 from funext fun q => by rw [leadsTo_absent (by decide)]] at hw'
  rw [hl, dirs_pageBase, l3Index_pageBase] at hW
  rw [hl, dirs_pageBase] at hG
  refine ⟨p, e, pfnToPa_ne_zero P, by rw [hva]; decide, hok, hW.ttbr1.trans ht1, hw', hW.ttbr0.trans ht0, hI.lt, fun q hq i => ?_, fun q hq hne hs => ?_, hR2⟩
  · rw [hW.entry _ (mem_roots hP1) q hq i, entryAt_none (hno q (by rintro rfl; cases hq))]
    simp
  · -- a directory off the path of the address is one of the empty tree
    by_contra hnp
    rw [hG _ (mem_roots hP1) q hq fun h => hnp h.2.2, hno q hne] at hs
    cases hs

/-- The events: the process is created and runs, writes to an address of an area that may
    be written, which gives it a page, and forks. -/
def touchAndFork (m : Machine) (mm : MmStruct) (esr far : Nat) : List Event :=
  let pgd := (createUserPgd m).2.getD 0
  [.create, .switch pgd, .fault [] (some mm) esr far, .fork pgd]

/-- It forks. -/
theorem Touched.fork {p va prot : Nat} (h : Touched m K P p va prot (3 + n + 1)) :
    ∃ C, (createUserPgd m).2 = some C ∧ C ≠ P ∧
      Forked m (copyUserPageTable (createUserPgd m).1 P C) {P} K (fun _ => 0) P C ∧
      Room (copyUserPageTable (createUserPgd m).1 P C).pmm n := by
  have hne : need (walk (child m.mem) P) 3 [] ≤ 3 := need_thin h.thin 3 [] (by simp)
  obtain ⟨C, hc, hF, hR⟩ := fork_forked h.world (fun _ => Nat.two_pow_pos 63) (Finset.mem_singleton_self P)
    (h.room.le (by omega)) (n := n)
  exact ⟨C, hc, by rintro rfl; exact hF.fresh (mem_roots (Finset.mem_singleton_self _)), hF, hR⟩

/-- After these events the parent has its page and the child the same page. -/
theorem Boot.touchAndFork {mm : MmStruct} {esr far : Nat} (hb : Boot m K) (hu : isUserAddr far = true)
    (hR : Room m.pmm (3 + n + 1 + 4 + 1)) (hd : 0x04 ≤ esr &&& 0x3F ∧ esr &&& 0x3F ≤ 0x0F)
    (hv : rustVmaFind mm far ≠ 0 ∧ rustVmaFind mm far &&& vmWrite ≠ 0 ∧ rustVmaFind mm far &&& vmExec = 0) :
    ∃ m1 P C p, Touched m1 K P p far pageUserRw (3 + n + 1) ∧ m1.ttbr1 = m.ttbr1 ∧ C ≠ P ∧ (createUserPgd m).2 = some P ∧
      Procs.run ⟨m, ∅⟩ (Mm.touchAndFork m mm esr far) = ⟨copyUserPageTable (createUserPgd m1).1 P C, {C, P}⟩ ∧
      Forked m1 (copyUserPageTable (createUserPgd m1).1 P C) {P} K (fun _ => 0) P C ∧
      Room (copyUserPageTable (createUserPgd m1).1 P C).pmm n := by
  obtain ⟨P, p, hc, hP0, habs, hok, ht1, hT⟩ := hb.touched hu pageUserRw_ok hR
  obtain ⟨C, hcC, hne, hF, hRn⟩ := hT.fork
  have hfault : pageFaultHandler { (createUserPgd m).1 with ttbr0 := P } [] (some mm) far esr =
      demandPage { (createUserPgd m).1 with ttbr0 := P } (pageBase far) pageUserRw := by
    generalize hm1 : ({ (createUserPgd m).1 with ttbr0 := P } : Machine) = m1 at *
    have ht0 : m1.l0Table far = P := by rw [l0Table_user hu, ← hm1]
    have h0 : getPhysFromVa m1 far = 0 := by
      rw [getPhysFromVa_eq m1 (by rw [ht0]; exact hP0), habs, if_neg Bool.false_ne_true]
    have hvm : vmallocHandlePageFault m1 [] far = (m1, -1) := by
      rw [vmallocHandlePageFault, vmallocHandles_user hu, if_neg Bool.false_ne_true]
    rw [pageFaultHandler, hvm]
    dsimp only
    rw [if_neg (by decide), if_neg hv.1, vmaFault, h0, if_neg fun h => h.1 rfl, if_neg fun h => hv.2.1 h.2,
      if_neg (not_not.mpr hv.2.2)]
  refine ⟨_, P, C, p, hT, ht1, hne, hc, ?_, hF, hRn⟩
  rw [Mm.touchAndFork, hc]
  simp only [Option.getD_some, Procs.run, List.foldl_cons, List.foldl_nil]
  have h1 : Procs.step ⟨m, ∅⟩ .create = ⟨(createUserPgd m).1, {P}⟩ := by
    simp only [Procs.step, hc, Option.elim_some]
    rfl
  have h2 : Procs.step ⟨(createUserPgd m).1, {P}⟩ (.switch P) = ⟨{ (createUserPgd m).1 with ttbr0 := P }, {P}⟩ := by
    simp [Procs.step]
  have h3 : Procs.step ⟨{ (createUserPgd m).1 with ttbr0 := P }, {P}⟩ (.fault [] (some mm) esr far) =
      ⟨(demandPage { (createUserPgd m).1 with ttbr0 := P } (pageBase far) pageUserRw).1, {P}⟩ := by
    rw [Procs.step, if_pos ⟨Finset.mem_singleton_self _, hu, Or.inl habs⟩, abortHandler, if_pos hd, hfault,
      Option.elim_some]
  rw [h1, h2, h3]
  generalize (demandPage { (createUserPgd m).1 with ttbr0 := P } (pageBase far) pageUserRw).1 = m1 at *
  rw [Procs.step, if_pos (Finset.mem_singleton_self _)]
  dsimp only
  rw [hcC, Option.elim_some]

end

end Myos.Mm
