/-
  Myos.Mm.UserPages — operations on the pages of the running process, at user addresses.

  `Confined U m m' r`: of all trees only that of `r` has other entries in `m'`.

  Proved: each of `create_user_pgd`, a page fault, `do_munmap`, `do_brk` keeps `World`
  and is confined to the tree of the process.
-/

import Myos.Mm.PageFault

namespace Myos.Mm

open Pmm Lib.Walk Lib.Dyadic

/-- Of the trees of `m` only that of `r` may have changed. -/
structure Confined (U : Finset Nat) (m m' : Machine) (r : Nat) : Prop where
  ttbr0 : m'.ttbr0 = m.ttbr0
  ttbr1 : m'.ttbr1 = m.ttbr1
  entry : ∀ r' ∈ roots m U, r' ≠ r → ∀ q : List Idx, q.length = 3 → ∀ i, entryAt m'.mem r' q i = entryAt m.mem r' q i

section

variable {m m' m'' : Machine} {U : Finset Nat} {K : Set (Nat × Nat)} {ex rf : Nat → Nat} {r va : Nat}

theorem Confined.rfl' : Confined U m m r := ⟨rfl, rfl, fun _ _ _ _ _ _ => rfl⟩

theorem Confined.trans (h1 : Confined U m m' r) (h2 : Confined U m' m'' r) : Confined U m m'' r :=
  ⟨h2.ttbr0.trans h1.ttbr0, h2.ttbr1.trans h1.ttbr1, fun r' hr' hne q hq i =>
    (h2.entry r' (by rw [roots, h1.ttbr1]; exact hr') hne q hq i).trans (h1.entry r' hr' hne q hq i)⟩

theorem Quiet.confined (h : Quiet (roots m U) rf m m') : Confined U m m' r :=
  ⟨h.ttbr0, h.ttbr1, fun r' hr' _ q hq i => h.entry r' hr' q hq i⟩

theorem Wrote.confined {q : List Idx} {i : Idx} {v : Nat} (h : Wrote (roots m U) rf m m' r q i v) :
    Confined U m m' r :=
  ⟨h.ttbr0, h.ttbr1, fun r' hr' hne q' hq' j => by rw [h.entry r' hr' q' hq' j, if_neg fun e => hne e.1]⟩

theorem l0Table_user (h : isUserAddr va = true) : m.l0Table va = m.ttbr0 := if_pos h

theorem World.managedRoot (hw : World m U K ex) (hr : r ∈ U) : Managed m r := by
  rintro n ⟨r', hr', q, hq, hn⟩
  obtain rfl : r' = r := hr'
  exact hw.managed n ⟨r', hr, q, hq, hn⟩

theorem World.root_ne_zero (hw : World m U K ex) (hr : r ∈ U) : r ≠ 0 := by
  have hT : Table m.mem (roots m U) r := ⟨r, mem_roots hr, [], by simp, walk_nil _ _⟩
  rcases (hw.owned.table r hT).2 with h | ⟨p, e, -⟩
  · exact absurd h (hw.managed r ⟨r, hr, [], by simp, walk_nil _ _⟩)
  · rw [e]; exact pfnToPa_ne_zero p

/-! ## Releasing a page -/

theorem releasePage_absent (h0 : m.l0Table va ≠ 0) (hn : ptePresent (m.translate va) = false) : releasePage m va = m := by
  unfold releasePage
  rw [getPhysFromVa_eq m h0, hn, unmapPage_absent h0 hn]
  exact if_neg (not_not.mpr (if_neg Bool.false_ne_true))

/-- Releasing a page of the process drops its entry and one reference. -/
theorem World.releasePage (hw : World m U K ex) (hr : m.ttbr0 ∈ U) (hu : isUserAddr va = true) :
    (ptePresent (m.translate va) = false ∧ releasePage m va = m) ∨
    ∃ p, ptePresent (m.translate va) = true ∧ pteToPhys (m.translate va) = pfnToPa p ∧
      World (releasePage m va) U K ex ∧
      Wrote (roots m U) (refs (releasePage m va).mem U ex) m (releasePage m va) m.ttbr0 (dirs va) (l3Index va) 0 := by
  have hl := l0Table_user (m := m) hu
  have h0 : m.l0Table va ≠ 0 := by rw [hl]; exact hw.root_ne_zero hr
  have hR : m.l0Table va ∈ roots m U := by rw [hl]; exact mem_roots hr
  cases hp : ptePresent (m.translate va) with
  | false => exact Or.inl ⟨rfl, releasePage_absent h0 hp⟩
  | true =>
    right
    have htr : m.translate va = entryAt m.mem m.ttbr0 (dirs va) (l3Index va) := by rw [Machine.translate, hl]
    obtain ⟨p, hpa, hpos⟩ := hw.leaf_frame hr (q := dirs va) rfl (by rw [← htr]; exact hp)
    have hpos' := hw.refs_pos hpos
    rw [← htr] at hpa
    have hrel : Mm.releasePage m va = (unmapPage m va).putPage (pfnToPa p) := by
      unfold Mm.releasePage
      rw [getPhysFromVa_eq m h0, hp, if_pos rfl, hpa, if_pos (pfnToPa_ne_zero p)]
    rw [hrel]
    have hU := unmapPage_present hw.owned hR h0 hp
    rw [hl] at hU
    generalize unmapPage m va = m2 at *
    obtain ⟨ho, -⟩ := hU.owned.putPage hpos'
    have hQ : Quiet (roots m U) (refs m.mem U ex) m2 (m2.putPage (pfnToPa p)) := Quiet.withPmm (putPage_start _ _)
    have hW := hU.wrote.quiet hQ
    have hw' : World (m2.putPage (pfnToPa p)) U K ex := by
      refine hw.write hr (q := dirs va) rfl leafOk_zero ho hW fun x => ?_
      rw [leadsTo_zero, ← htr, leadsTo_present hp hpa]
      by_cases e : x = p
      · rw [e, Function.update_self, if_pos rfl]; omega
      · rw [Function.update_of_ne e, if_neg e]
    refine ⟨p, rfl, hpa, hw', hW.frames fun x hx => ?_⟩
    have h1 := leafCount_wrote (fun r hr => mem_roots (m := m) hr) hr (q := dirs va) rfl hW x
    rw [leadsTo_zero] at h1
    unfold refs at hx ⊢
    omega

theorem World.released (hw : World m U K ex) (hr : m.ttbr0 ∈ U) (hu : isUserAddr va = true) :
    World (Mm.releasePage m va) U K ex ∧ Confined U m (Mm.releasePage m va) m.ttbr0 := by
  rcases hw.releasePage hr hu with ⟨-, e⟩ | ⟨p, -, -, hw', hW⟩
  · rw [e]; exact ⟨hw, Confined.rfl'⟩
  · exact ⟨hw', hW.confined⟩

theorem isUserAddr_iff (va : Nat) : isUserAddr va = true ↔ va < 2 ^ 47 := by
  rw [isUserAddr, beq_iff_eq, Nat.shiftRight_eq_div_pow]
  omega

theorem World.releaseUpTo (n : Nat) : ∀ {m : Machine} {cur stop : Nat}, World m U K ex → m.ttbr0 ∈ U → stop ≤ 2 ^ 47 →
    World (releaseUpTo m cur stop n) U K ex ∧ Confined U m (releaseUpTo m cur stop n) m.ttbr0 := by
  induction n with
  | zero => intro m cur stop hw _ _; exact ⟨hw, Confined.rfl'⟩
  | succ n ih =>
    intro m cur stop hw hr hs
    unfold Mm.releaseUpTo
    by_cases hc : cur < stop
    · rw [if_pos hc]
      obtain ⟨hw', hC⟩ := hw.released hr ((isUserAddr_iff cur).mpr (by omega))
      have h := @ih _ (cur + pageSize) _ hw' (by rw [hC.ttbr0]; exact hr) hs
      rw [hC.ttbr0] at h
      exact ⟨h.1, hC.trans h.2⟩
    · rw [if_neg hc]
      exact ⟨hw, Confined.rfl'⟩

/-- Where `do_munmap` stops. -/
def munmapStop (mm : MmStruct) (addr len : Nat) : Option Nat :=
  (mm.vmaFind addr).bind fun vma => ((alignUp len).bind (checkedAdd addr)).map fun stop => min stop vma.vmEnd

theorem World.doMunmap (hw : World m U K ex) (hr : m.ttbr0 ∈ U) {mm mm' : MmStruct} {addr len : Nat} {ret : Int}
    (hs : ∀ stop, munmapStop mm addr len = some stop → stop ≤ 2 ^ 47)
    (h : doMunmap m mm addr len = some (m', mm', ret)) : World m' U K ex ∧ Confined U m m' m.ttbr0 := by
  unfold Mm.doMunmap at h
  by_cases hl : len = 0
  · rw [if_pos hl] at h; cases h
    exact ⟨hw, Confined.rfl'⟩
  rw [if_neg hl, Option.bind_eq_some_iff] at h
  obtain ⟨len', hlen, h⟩ := h
  cases hv : mm.vmaFind addr with
  | none => rw [hv] at h; cases h; exact ⟨hw, Confined.rfl'⟩
  | some vma =>
    rw [hv] at h
    obtain ⟨stop, hstop, h⟩ := Option.map_eq_some_iff.mp h
    cases h
    refine hw.releaseUpTo _ hr (hs _ ?_)
    rw [munmapStop, hv, hlen, Option.bind_some, Option.bind_some, hstop, Option.map_some]

theorem World.doBrk (hw : World m U K ex) (hr : m.ttbr0 ∈ U) {mm mm' : MmStruct} {newBrk ret : Nat}
    (hs : mm.brk ≤ 2 ^ 47) (h : doBrk m mm newBrk = some (m', mm', ret)) :
    World m' U K ex ∧ Confined U m m' m.ttbr0 := by
  unfold Mm.doBrk at h
  obtain ⟨brk', -, h⟩ := Option.bind_eq_some_iff.mp h
  by_cases h1 : brk' = mm.brk
  · rw [if_pos h1] at h; cases h
    exact ⟨hw, Confined.rfl'⟩
  rw [if_neg h1] at h
  by_cases h2 : mm.brk < brk'
  · rw [if_pos h2] at h
    split at h <;> (cases h; exact ⟨hw, Confined.rfl'⟩)
  · rw [if_neg h2] at h
    obtain ⟨_, -, h⟩ := Option.map_eq_some_iff.mp h
    cases h
    exact hw.releaseUpTo _ hr hs

/-! ## Page faults -/

/-- A new page at a user address: the page the entry led to before keeps its reference. -/
theorem World.demandPage (hw : World m U K ex) (hr : m.ttbr0 ∈ U) (hu : isUserAddr va = true) {prot : Nat}
    (hp : ProtOk prot) :
    ((demandPage m va prot).2 ≠ .handled ∧ World (demandPage m va prot).1 U K ex ∧
      Quiet (roots m U) (refs m.mem U ex) m (demandPage m va prot).1) ∨
    ∃ p, (demandPage m va prot).2 = .handled ∧
      World (demandPage m va prot).1 U K (fun q => ex q + leadsTo (m.translate va) q) ∧
      Installed (roots m U) K (refs m.mem U ex) (Function.update (refs m.mem U ex) p 1) m (demandPage m va prot).1 va
        prot p fun _ => 0 := by
  have hl := l0Table_user (m := m) hu
  rcases demandPage_spec hw.owned (by rw [hl]; exact mem_roots hr) hp with ⟨he, hs⟩ | ⟨p, -, he, hI⟩
  · exact Or.inl ⟨he, hw.step hs, hs.quiet⟩
  · refine Or.inr ⟨p, he, ?_, hI⟩
    have hW := hI.wrote
    rw [hl] at hW
    refine hw.write hr (q := dirs va) rfl (leafOk_mkPte hp hI.lt) hI.owned hW fun x => ?_
    rw [leadsTo_mkPte hp hI.lt, Machine.translate, hl]
    by_cases e : x = p
    · rw [e, Function.update_self, if_pos rfl, hI.fresh]; omega
    · rw [Function.update_of_ne e, if_neg e]; omega

theorem pageUserRw_ok : ProtOk pageUserRw := ⟨by decide, by decide, by decide⟩
theorem pageUserRx_ok : ProtOk pageUserRx := ⟨by decide, by decide, by decide⟩
theorem pageKernelRw_ok : ProtOk pageKernelRw := ⟨by decide, by decide, by decide⟩
theorem rustPageUserRw_ok : ProtOk rustPageUserRw := ⟨by decide, by decide, by decide⟩
theorem rustPageUserRx_ok : ProtOk rustPageUserRx := ⟨by decide, by decide, by decide⟩

/-- The copy of a shared page of the process moves its reference to the copy. -/
theorem World.cowPage (hw : World m U K ex) (hr : m.ttbr0 ∈ U) (hu : isUserAddr va = true) {po : Nat}
    (hpr : ptePresent (m.translate va) = true) (hpo : pteToPhys (m.translate va) = pfnToPa po) :
    ((cowPage m va (pfnToPa po)).2 = .allocFailed ∧ World (cowPage m va (pfnToPa po)).1 U K ex ∧
      Quiet (roots m U) (refs m.mem U ex) m (cowPage m va (pfnToPa po)).1) ∨
    ∃ p, (cowPage m va (pfnToPa po)).2 = .handled ∧ World (cowPage m va (pfnToPa po)).1 U K ex ∧
      Installed (roots m U) K (refs m.mem U ex)
        (Function.update (Function.update (refs m.mem U ex) p 1) po (refs m.mem U ex po - 1)) m
        (cowPage m va (pfnToPa po)).1 va pageUserRw p fun x => m.mem (pfnToPa po + x) := by
  have hl := l0Table_user (m := m) hu
  have h0 : m.l0Table va ≠ 0 := by rw [hl]; exact hw.root_ne_zero hr
  have htr : m.translate va = entryAt m.mem m.ttbr0 (dirs va) (l3Index va) := by rw [Machine.translate, hl]
  obtain ⟨p', e, hpos⟩ := hw.leaf_frame hr (q := dirs va) rfl (by rw [← htr]; exact hpr)
  obtain rfl : p' = po := pfnToPa_inj (by rw [← e, ← htr, hpo])
  have hpos' := hw.refs_pos hpos
  rcases cowPage_spec hw.owned (by rw [hl]; exact mem_roots hr) h0 hpr hpos' with
    ⟨he, hs⟩ | ⟨-, hM, -⟩ | ⟨p, he, hI⟩
  · exact Or.inl ⟨he, hw.step hs, hs.quiet⟩
  · exact absurd (Anchored.of_managed (by rw [hl]; exact hw.managedRoot hr)) hM
  · refine Or.inr ⟨p, he, ?_, hI⟩
    have hW := hI.wrote
    rw [hl] at hW
    refine hw.write hr (q := dirs va) rfl (leafOk_mkPte pageUserRw_ok hI.lt) hI.owned hW fun x => ?_
    have hne : p ≠ p' := by rintro rfl; have := hI.fresh; omega
    rw [leadsTo_mkPte pageUserRw_ok hI.lt, ← htr, leadsTo_present hpr hpo]
    by_cases e1 : x = p'
    · rw [e1, Function.update_self, if_pos rfl, if_neg (Ne.symm hne)]; omega
    · rw [Function.update_of_ne e1, if_neg e1]
      by_cases e2 : x = p
      · rw [e2, Function.update_self, if_pos rfl, hI.fresh]
      · rw [Function.update_of_ne e2, if_neg e2]

theorem vmallocHandles_user {busy : List VmapArea} (hu : isUserAddr va = true) : vmallocHandles busy va = false := by
  rw [isUserAddr_iff] at hu
  have : ¬ vmallocStart ≤ va := by unfold vmallocStart; omega
  rw [vmallocHandles, decide_eq_false this, Bool.false_and, Bool.false_and]

/-- A fault at a user address gets to the areas of the process. -/
theorem pageFaultHandler_user {busy : List VmapArea} (mm : Option MmStruct) (esr : Nat) (hu : isUserAddr va = true) :
    pageFaultHandler m busy mm va esr = (m, .noMm) ∨ pageFaultHandler m busy mm va esr = (m, .noVma) ∨
      ∃ vmFlags, pageFaultHandler m busy mm va esr = vmaFault m vmFlags va esr := by
  have hv : vmallocHandlePageFault m busy va = (m, -1) := by
    rw [vmallocHandlePageFault, vmallocHandles_user hu]; exact if_neg Bool.false_ne_true
  unfold pageFaultHandler
  rw [hv]
  cases mm with
  | none => exact Or.inl rfl
  | some mm =>
    right
    by_cases h0 : rustVmaFind mm va = 0
    · exact Or.inl (if_pos h0)
    · exact Or.inr ⟨rustVmaFind mm va, if_neg h0⟩

theorem translate_pageBase : m.translate (pageBase va) = m.translate va := by
  unfold Machine.translate
  rw [l0Table_pageBase, dirs_pageBase, l3Index_pageBase]

/-- A fault that the handler takes for a missing or a shared page, when it is one. -/
theorem World.pageFault (hw : World m U K ex) (hr : m.ttbr0 ∈ U) (hu : isUserAddr va = true) {busy : List VmapArea}
    {mm : Option MmStruct} {esr : Nat} (hf : ptePresent (m.translate va) = false ∨ isWrite esr = true) :
    World (pageFaultHandler m busy mm va esr).1 U K ex ∧ Confined U m (pageFaultHandler m busy mm va esr).1 m.ttbr0 := by
  rcases pageFaultHandler_user (m := m) mm esr hu with e | e | ⟨vmFlags, e⟩ <;> rw [e]
  · exact ⟨hw, Confined.rfl'⟩
  · exact ⟨hw, Confined.rfl'⟩
  have hl := l0Table_user (m := m) hu
  have hub : isUserAddr (pageBase va) = true := by rw [isUserAddr_pageBase]; exact hu
  unfold vmaFault
  rw [getPhysFromVa_eq m (by rw [hl]; exact hw.root_ne_zero hr)]
  cases hp : ptePresent (m.translate va) with
  | false =>
    -- nothing is mapped: a new page leaves no page behind
    have hz : (fun q => ex q + leadsTo (m.translate (pageBase va)) q) = ex := by
      funext q
      rw [translate_pageBase, leadsTo_absent hp, Nat.add_zero]
    rw [if_neg Bool.false_ne_true, if_neg (by simp)]
    split
    · exact ⟨hw, Confined.rfl'⟩
    have hprot : ProtOk (if vmFlags &&& vmExec ≠ 0 then pageUserRx else pageUserRw) := by
      split
      · exact pageUserRx_ok
      · exact pageUserRw_ok
    rcases hw.demandPage hr hub hprot with ⟨-, hw', hQ⟩ | ⟨p, -, hw', hI⟩
    · exact ⟨hw', hQ.confined⟩
    · have hW := hI.wrote
      rw [l0Table_user hub] at hW
      rw [hz] at hw'
      exact ⟨hw', hW.confined⟩
  | true =>
    obtain ⟨po, hpo, -⟩ := hw.leaf_frame hr (q := dirs va) rfl (i := l3Index va)
      (by rw [← hp, Machine.translate, hl])
    have hpo' : pteToPhys (m.translate va) = pfnToPa po := by rw [← hpo, Machine.translate, hl]
    have hwr : isWrite esr = true := hf.resolve_left (by rw [hp]; decide)
    rw [if_pos rfl, hpo', if_pos ⟨pfnToPa_ne_zero po, hwr⟩]
    split
    · exact ⟨hw, Confined.rfl'⟩
    rcases hw.cowPage hr hub (by rw [translate_pageBase]; exact hp) (by rw [translate_pageBase]; exact hpo') with
      ⟨-, hw', hQ⟩ | ⟨p, -, hw', hI⟩
    · exact ⟨hw', hQ.confined⟩
    · have hW := hI.wrote
      rw [l0Table_user hub] at hW
      exact ⟨hw', hW.confined⟩

/-! ## New trees -/

theorem roots_insert (h1 : m'.ttbr1 = m.ttbr1) : roots m' (insert r U) = insert r (roots m U) := by
  rw [roots, roots, h1, Finset.coe_insert, Set.insert_comm]

theorem World.newPgd (hw : World m U K ex) :
    ((createUserPgd m).2 = none ∧ World (createUserPgd m).1 U K ex ∧
      Quiet (roots m U) (refs m.mem U ex) m (createUserPgd m).1) ∨
    ∃ p, (createUserPgd m).2 = some (pfnToPa p) ∧ pfnToPa p ∉ roots m U ∧
      World (createUserPgd m).1 (insert (pfnToPa p) U) K ex ∧
      Quiet (roots m U) (refs m.mem U ex) m (createUserPgd m).1 ∧
      (∀ r ∈ roots m U, ∀ q : List Idx, q.length ≤ 3 →
        walk (child (createUserPgd m).1.mem) r q = walk (child m.mem) r q) ∧
      ∀ j : Idx, read64 (createUserPgd m).1.mem (pfnToPa p + 8 * j) = 0 := by
  rcases allocPage_cases hw.owned (show 0 &&& gfpDma = 0 by decide) with ⟨he, hs, -⟩ | ⟨p, hpa, hN⟩
  · rw [createUserPgd, if_pos he]
    exact Or.inl ⟨rfl, hw.step hs, hs.quiet⟩
  rw [createUserPgd, hpa, if_neg (pfnToPa_ne_zero p)]
  have hP : Prepared (roots m U) K (refs m.mem U ex) m ((m.allocPage 0).1.clearPage (pfnToPa p)) p
      fun x => zeroPage (m.allocPage 0).1.mem (pfnToPa p) (pfnToPa p + x) := hN.prepare fun x hx => zeroPage_other hx
  have hQ := hP.quiet
  have hg := hP.walks
  have hz := clearPage_zero (m.allocPage 0).1 (pfnToPa p)
  obtain ⟨ho, -⟩ := hN.owned.clearPage (pfnToPa_aligned p) hN.apart.1
  have hun := ho.not_unmanaged (ho.block p 0 (Set.mem_insert _ _))
  generalize (m.allocPage 0).1.clearPage (pfnToPa p) = m1 at *
  obtain ⟨ho', hnR, -⟩ := ho.addRoot hN.fresh hz
  have hne1 : pfnToPa p ≠ m.ttbr1 := fun e => hnR (by rw [e]; exact kernel_mem_roots)
  have hnU : pfnToPa p ∉ U := fun h => hnR (mem_roots h)
  have hcz : ∀ j, child m1.mem (pfnToPa p) j = none := fun j => child_none_of_zero (hz j)
  have hrf : refs m1.mem (insert (pfnToPa p) U) ex = refs m.mem U ex := by
    funext x
    unfold refs
    rw [leafCount_insert hnU, pathCount_childless hcz, Nat.zero_add,
      leafCount_entries fun r hr q hq i => hQ.entry r (mem_roots hr) q hq i]
  refine Or.inr ⟨p, rfl, hnR, ⟨by rw [roots_insert hQ.ttbr1, hrf]; exact ho', ?_, ?_, ?_⟩, hQ, hg, hz⟩
  · rw [hQ.ttbr1, Finset.mem_insert, not_or]
    exact ⟨Ne.symm hne1, hw.kernel⟩
  · rintro n ⟨r, hr, q, hq, hn⟩
    rcases Finset.mem_insert.mp hr with rfl | hr
    · rcases eq_or_ne q [] with rfl | hq0
      · rw [walk_nil] at hn
        cases hn; exact hun
      · rw [walk_childless hcz hq0] at hn; cases hn
    · exact grown_managed hw (fun _ => mem_roots) hQ.start hQ.grown n ⟨r, hr, q, hq, hn⟩
  · intro r hr q hq i
    rcases Finset.mem_insert.mp hr with rfl | hr
    · rw [entryAt_none (walk_childless hcz (by rintro rfl; cases hq))]
      exact leafOk_zero
    · rw [hQ.entry r (mem_roots hr) q hq i]
      exact hw.leaf r hr q hq i

/-! ## The bytes of a page -/

/-- Other bytes in a page frame change no entry. -/
theorem Owned.fill {R : Set Nat} {rf : Nat → Nat} (h : Owned m R K rf) {p : Nat} (hp : 0 < rf p) {mem : Mem}
    (hm : ∀ x, x < pfnToPa p ∨ pfnToPa p + pageSize ≤ x → mem x = m.mem x) :
    Owned { m with mem := mem } R K rf ∧
      (∀ r ∈ R, ∀ q : List Idx, q.length ≤ 3 → walk (child mem) r q = walk (child m.mem) r q) ∧
      ∀ r ∈ R, ∀ q : List Idx, q.length = 3 → ∀ i, entryAt mem r q i = entryAt m.mem r q i := by
  have hnT := h.frame_not_table hp
  have htab : ∀ n, Table m.mem R n → ∀ y, n ≤ y → y < n + pageSize → mem y = m.mem y := by
    intro n hn y hy1 hy2
    have := pages_apart (h.table n hn).1.1 (pfnToPa_aligned p) fun e => hnT (e ▸ hn)
    exact hm y (by omega)
  obtain ⟨ho, hwalk⟩ := h.setMem htab
  exact ⟨ho, hwalk, fun r hr q hq i => entryAt_setMem htab hr (by omega) (hwalk r hr q (by omega)) i⟩

theorem World.fill (hw : World m U K ex) {p : Nat} (hp : 0 < refs m.mem U ex p) {mem : Mem}
    (hm : ∀ x, x < pfnToPa p ∨ pfnToPa p + pageSize ≤ x → mem x = m.mem x) :
    World { m with mem := mem } U K ex ∧
      (∀ r ∈ roots m U, ∀ q : List Idx, q.length ≤ 3 → walk (child mem) r q = walk (child m.mem) r q) ∧
      ∀ r ∈ roots m U, ∀ q : List Idx, q.length = 3 → ∀ i, entryAt mem r q i = entryAt m.mem r q i := by
  obtain ⟨ho, hwalk, hent⟩ := hw.owned.fill hp hm
  have hrf : refs mem U ex = refs m.mem U ex := by
    funext y
    have hcount : leafCount (child mem) U 4 (pfnToPa y) = leafCount (child m.mem) U 4 (pfnToPa y) :=
      leafCount_congr (fun r hr s hs => by
        obtain ⟨q, i, rfl, hq⟩ := path_split hs
        exact walk_eq_of_entry (hent r (mem_roots hr) q hq i)) _
    unfold refs
    rw [hcount]
  refine ⟨⟨by rw [withMem_mem, hrf]; exact ho, hw.kernel, ?_, fun r hr q hq i => ?_⟩, hwalk, hent⟩
  · rintro n ⟨r, hr, q, hq, hn⟩
    rw [withMem_mem, hwalk r (mem_roots hr) q hq] at hn
    exact hw.managed n ⟨r, hr, q, hq, hn⟩
  · rw [withMem_mem, hent r (mem_roots hr) q hq i]
    exact hw.leaf r hr q hq i

/-- A store of the process to a page frame it has mapped. -/
theorem World.store (hw : World m U K ex) {p x : Nat} (hp : 0 < leafCount (child m.mem) U 4 (pfnToPa p))
    (h1 : pfnToPa p ≤ x) (h2 : x < pfnToPa p + pageSize) (b : UInt8) :
    World { m with mem := Function.update m.mem x b } U K ex ∧
      Confined U m { m with mem := Function.update m.mem x b } m.ttbr0 := by
  obtain ⟨hw', -, hent⟩ := hw.fill (hw.refs_pos hp) (show ∀ y, y < pfnToPa p ∨ pfnToPa p + pageSize ≤ y →
    Function.update m.mem x b y = m.mem y from fun y hy => Function.update_of_ne (by omega) _ _)
  exact ⟨hw', rfl, rfl, fun r hr _ q hq i => hent r hr q hq i⟩

end

end Myos.Mm
