/-
  Myos.Mm.AddressSpace — runs of one address space: its memory calls and its page faults.

  A run starts in any state in which the areas are in order and every page of the process,
  whoever mapped it, is counted (`Space.Held`). A visit to the kernel is harmless if it
  releases no page that is the kernel's own, and if a fault at an address that is mapped
  is a write to the user half.

  Proved: harmless visits keep `Held`.
-/

import Myos.Mm.PageLoops

namespace Myos.Mm

open Pmm Lib.Walk Lib.Dyadic
open Lib (Reach)

inductive Visit where
  | call (c : Call)
  | fault (busy : List VmapArea) (esr far : Nat)

def Space.visit (s : Space) : Visit → Option Space
  | .call c => s.step c
  | .fault busy esr far => (abortHandler s.machine busy (some s.mm) esr far).map fun r => { s with machine := r.1 }

/-- The areas are in order and the pages are counted. -/
structure Space.Held (U : Finset Nat) (K : Set (Nat × Nat)) (s : Space) : Prop where
  areas : AreasOk s.mm.vmas
  root : s.machine.ttbr0 ∈ U
  lent : ∃ ex, Lent s.machine U K ex

/-- The pages `do_munmap` and `do_brk` release are the process's. -/
def Call.Harmless (s : Space) : Call → Prop
  | .brk newBrk => ∀ k, pageUp newBrk + k * pageSize < s.mm.brk → s.machine.Ours (pageUp newBrk + k * pageSize)
  | .mmap _ _ _ => True
  | .munmap addr len => ∀ vma, s.mm.vmaFind addr = some vma → ∀ k, addr + k * pageSize < min (addr + pageUp len) vma.vmEnd →
      s.machine.Ours (addr + k * pageSize)

def Visit.Harmless (s : Space) : Visit → Prop
  | .call c => c.Harmless s
  | .fault _ esr far => s.machine.mapping far = none ∨ isUserAddr far = true ∧ isWrite esr = true

section

variable {m m' : Machine} {U : Finset Nat} {K : Set (Nat × Nat)} {ex ex' : Nat → Nat} {s s' : Space} {va : Nat}

/-! ## Page faults -/

theorem Lent.demandPage (h : Lent m U K ex) (hr : m.ttbr0 ∈ U) (va : Nat) {prot : Nat} (hp : ProtOk prot) :
    (∃ ex', Lent (demandPage m va prot).1 U K ex') ∧ (demandPage m va prot).1.ttbr0 = m.ttbr0 ∧
      ((demandPage m va prot).2 ≠ .handled → ∀ va', (demandPage m va prot).1.mapping va' = m.mapping va') := by
  rcases demandPage_spec h.owned (h.toWorld.l0Table_mem hr va) hp with ⟨-, hs⟩ | ⟨p, -, he, hI⟩
  · exact ⟨⟨ex, h.step hs⟩, hs.quiet.ttbr0, fun _ va' => hs.quiet.mapping h.toWorld hr va'⟩
  · obtain ⟨ex', hl, -⟩ := h.installed hr hp hI
    exact ⟨⟨ex', hl⟩, hI.wrote.ttbr0, fun hn => absurd he hn⟩

/-- The kernel's tree stays when only the process's tree changes. -/
theorem Lent.confined (h : Lent m U K ex) (hr : m.ttbr0 ∈ U) (hw : World m' U K ex) (hC : Confined U m m' m.ttbr0) :
    Lent m' U K ex := by
  have hent : ∀ q : List Idx, q.length = 3 → ∀ i, entryAt m'.mem m.ttbr1 q i = entryAt m.mem m.ttbr1 q i :=
    hC.entry _ kernel_mem_roots (h.toWorld.distinct hr).symm
  refine ⟨hw, by rw [hC.ttbr1]; exact h.root, fun p => ?_, fun q hq i => ?_⟩
  · rw [hC.ttbr1, lentCount_congr hent]
    exact h.lent p
  · rw [hC.ttbr1, hent q hq i]
    exact h.lentLeaf q hq i

theorem vmaFault_absent (flags esr : Nat) (h0 : m.l0Table va ≠ 0) (hn : m.mapping va = none) :
    vmaFault m flags va esr = (m, .writeDenied) ∨
      vmaFault m flags va esr = demandPage m (pageBase va) (if flags &&& vmExec ≠ 0 then pageUserRx else pageUserRw) := by
  unfold vmaFault
  rw [getPhysFromVa_eq m h0, mapping_none.mp hn, if_neg Bool.false_ne_true]
  dsimp only
  rw [if_neg fun h => h.1 rfl]
  split
  · exact Or.inl rfl
  · exact Or.inr rfl

/-- A fault at an address that is not mapped puts a page there or changes no mapping. -/
theorem Lent.faultAbsent (h : Lent m U K ex) (hr : m.ttbr0 ∈ U) (hn : m.mapping va = none) (busy : List VmapArea)
    (mm : Option MmStruct) (esr : Nat) : (∃ ex', Lent (pageFaultHandler m busy mm va esr).1 U K ex') ∧
      (pageFaultHandler m busy mm va esr).1.ttbr0 = m.ttbr0 := by
  have hv : (∃ ex', Lent (vmallocHandlePageFault m busy va).1 U K ex') ∧ (vmallocHandlePageFault m busy va).1.ttbr0 = m.ttbr0 ∧
      ((vmallocHandlePageFault m busy va).2 ≠ 0 → (vmallocHandlePageFault m busy va).1.mapping va = none) := by
    unfold vmallocHandlePageFault
    split
    · obtain ⟨hl, h0, hmap⟩ := h.demandPage hr (pageBase va) pageKernelRw_ok
      refine ⟨hl, h0, fun hne => ?_⟩
      dsimp only at hne ⊢
      rw [hmap (fun he => hne (if_pos he)) va]
      exact hn
    · exact ⟨⟨ex, h⟩, rfl, fun _ => hn⟩
  unfold pageFaultHandler
  dsimp only
  generalize vmallocHandlePageFault m busy va = v at *
  obtain ⟨⟨ex1, hl⟩, h0, hmap⟩ := hv
  split
  · exact ⟨⟨ex1, hl⟩, h0⟩
  next hne =>
  have hr1 : v.1.ttbr0 ∈ U := by
    rw [h0]
    exact hr
  cases mm with
  | none => exact ⟨⟨ex1, hl⟩, h0⟩
  | some mm =>
    dsimp only
    split
    · exact ⟨⟨ex1, hl⟩, h0⟩
    rcases vmaFault_absent (rustVmaFind mm va) esr (hl.l0Table_ne hr1 va) (hmap hne) with e | e <;> rw [e]
    · exact ⟨⟨ex1, hl⟩, h0⟩
    · have hprot : ProtOk (if rustVmaFind mm va &&& vmExec ≠ 0 then pageUserRx else pageUserRw) := by
        split
        · exact pageUserRx_ok
        · exact pageUserRw_ok
      obtain ⟨hl', h0', -⟩ := hl.demandPage hr1 (pageBase va) hprot
      exact ⟨hl', h0'.trans h0⟩

/-! ## Visits -/

theorem Space.Held.fault {busy : List VmapArea} {esr far : Nat} (h : s.Held U K) (hf : (Visit.fault busy esr far).Harmless s)
    (hs : s.visit (.fault busy esr far) = some s') : s'.Held U K := by
  obtain ⟨ex, hl⟩ := h.lent
  obtain ⟨⟨m', o⟩, hc, rfl⟩ := Option.map_eq_some_iff.mp hs
  unfold abortHandler at hc
  dsimp only at hc
  split at hc
  case isFalse => cases hc
  have he : m' = (pageFaultHandler s.machine busy (some s.mm) far esr).1 := (congrArg Prod.fst (Option.some.inj hc)).symm
  rw [he]
  rcases hf with hn | ⟨hu, hw⟩
  · obtain ⟨hl', h0⟩ := hl.faultAbsent h.root hn busy (some s.mm) esr
    exact ⟨h.areas, by dsimp only; rw [h0]; exact h.root, hl'⟩
  · obtain ⟨hw', hC⟩ : World (pageFaultHandler s.machine busy (some s.mm) far esr).1 U K ex ∧
        Confined U s.machine (pageFaultHandler s.machine busy (some s.mm) far esr).1 s.machine.ttbr0 :=
      hl.toWorld.pageFault h.root hu (Or.inr hw)
    exact ⟨h.areas, by dsimp only; rw [hC.ttbr0]; exact h.root, ex, hl.confined h.root hw' hC⟩

/-- Where the pages go does not matter: what is mapped over keeps its reference. -/
theorem Lent.doMmap (h : Lent m U K ex) (hr : m.ttbr0 ∈ U) {mm mm' : MmStruct} {addr len flags r : Nat}
    (hc : doMmap m mm addr len flags = some (m', mm', r)) : ∃ ex', Lent m' U K ex' := by
  unfold Mm.doMmap at hc
  split at hc
  · cases hc
    exact ⟨ex, h⟩
  obtain ⟨len', -, hc⟩ := Option.bind_eq_some_iff.mp hc
  obtain ⟨a, -, hc⟩ := Option.bind_eq_some_iff.mp hc
  obtain ⟨stop, -, hc⟩ := Option.map_eq_some_iff.mp hc
  split at hc
  · cases hc
    exact ⟨ex, h⟩
  have hp := Filled.mmapPages (len' / pageSize) (h.filled a fun _ => 0) hr
  dsimp only at hc
  rcases hp with ⟨he, ex', f', hF⟩ | ⟨he, N, ex', f', -, hF⟩ <;> rw [he] at hc <;> cases hc
  · exact ⟨ex', hF.lent⟩
  · exact ⟨ex', hF.lent⟩

theorem Space.Held.call {c : Call} (h : s.Held U K) (hf : c.Harmless s) (hs : s.step c = some s') : s'.Held U K := by
  obtain ⟨ex, hl⟩ := h.lent
  unfold Space.step at hs
  cases c with
  | brk newBrk =>
    obtain ⟨⟨m', mm', r⟩, hc, rfl⟩ := Option.map_eq_some_iff.mp hs
    suffices hl' : m'.ttbr0 ∈ U ∧ ∃ ex', Lent m' U K ex' from ⟨h.areas.doBrk hc, hl'.1, hl'.2⟩
    obtain ⟨-, ⟨-, rfl, -⟩ | ⟨-, -, -, rfl, -⟩ | ⟨-, -, rfl, -⟩⟩ := doBrk_cases hc
    · exact ⟨h.root, ex, hl⟩
    · exact ⟨h.root, ex, hl⟩
    · obtain ⟨ex', hR⟩ := hl.releaseUpTo _ h.root fun k _ hlt => hf k hlt
      exact ⟨by rw [hR.same.1]; exact h.root, ex', hR.lent⟩
  | mmap addr len flags =>
    obtain ⟨⟨m', mm', r⟩, hc, rfl⟩ := Option.map_eq_some_iff.mp hs
    exact ⟨h.areas.doMmap hc, by dsimp only; rw [(doMmap_brk hc).2.1]; exact h.root, hl.doMmap h.root hc⟩
  | munmap addr len =>
    obtain ⟨⟨m', mm', r⟩, hc, rfl⟩ := Option.map_eq_some_iff.mp hs
    refine ⟨h.areas.doMunmap hc, by dsimp only; rw [(doMunmap_brk hc).2.1]; exact h.root, ?_⟩
    unfold Mm.doMunmap at hc
    split at hc
    · cases hc
      exact ⟨ex, hl⟩
    obtain ⟨len', ha, hc⟩ := Option.bind_eq_some_iff.mp hc
    rw [alignUp_pageUp ha] at hc
    cases hv : s.mm.vmaFind addr with
    | none =>
      rw [hv] at hc
      cases hc
      exact ⟨ex, hl⟩
    | some vma =>
      rw [hv] at hc
      obtain ⟨stop, hstop, hc⟩ := Option.map_eq_some_iff.mp hc
      rw [(checkedAdd_eq.mp hstop).2] at hc
      cases hc
      obtain ⟨ex', hR⟩ := hl.releaseUpTo _ h.root fun k _ hlt => hf vma hv k hlt
      exact ⟨ex', hR.lent⟩

theorem Space.Held.visit {v : Visit} (h : s.Held U K) (hf : v.Harmless s) (hs : s.visit v = some s') : s'.Held U K := by
  cases v with
  | call c => exact h.call hf hs
  | fault busy esr far => exact h.fault hf hs

theorem held_reach (hr : Reach Space.visit (fun s v => v.Harmless s) (Space.Held U K) s) : s.Held U K :=
  hr.rule (fun _ h => h) fun _ _ _ h hf hs => h.visit hf hs

end

/-- The first process, before it maps a page. -/
theorem first_process : ∃ (m : Machine) (C : Nat), m.ttbr0 = C ∧ Lent m {C} ∅ (fun _ => 0) ∧ (∀ va, m.mapping va = none) ∧
    Room m.pmm 1000 := by
  have hw := bootMachine_boot.world
  have hroom : Room (createUserPgd bootMachine).1.pmm 1000 := by
    have hR := bootMachine_room.le (show 1001 ≤ 65024 by decide)
    rcases allocPage_cases hw.owned (show 0 &&& gfpDma = 0 by decide) with ⟨-, -, hno⟩ | ⟨p, hpa, hN⟩
    · exact absurd (hR.le (by decide)) hno
    · rw [createUserPgd, hpa, if_neg (pfnToPa_ne_zero p)]
      exact hR.less hN.alloc
  have hzero : ∀ t (i : Idx), read64 bootMachine.mem (t + 8 * i) = 0 := fun t i => by simp [bootMachine, read64]
  have hempty : ∀ r (q : List Idx) i, entryAt bootMachine.mem r q i = 0 := by
    intro r q i
    cases hwalk : walk (child bootMachine.mem) r q with
    | none => exact entryAt_none hwalk i
    | some t =>
      rw [entryAt_some hwalk]
      exact hzero t i
  rcases hw.newPgd with ⟨he, -, hQ⟩ | ⟨p, -, -, hw1, hQ, -, hz⟩
  · exact absurd he (by
      rcases allocPage_cases hw.owned (show 0 &&& gfpDma = 0 by decide) with ⟨-, -, hno⟩ | ⟨p, hpa, -⟩
      · exact absurd (bootMachine_room.le (by decide)) hno
      · rw [createUserPgd, hpa, if_neg (pfnToPa_ne_zero p)]
        exact Option.some_ne_none _)
  generalize (createUserPgd bootMachine).1 = m at *
  have hkernel : ∀ q : List Idx, q.length = 3 → ∀ i, entryAt m.mem m.ttbr1 q i = 0 := fun q hq i => by
    rw [hQ.ttbr1, hQ.entry _ kernel_mem_roots q hq i, hempty]
  have huser : ∀ q : List Idx, q.length = 3 → ∀ i, entryAt m.mem (pfnToPa p) q i = 0 := fun q hq i =>
    entryAt_none (walk_childless (fun j => child_none_of_zero (hz j)) (by rintro rfl; cases hq)) i
  have hset : (insert (pfnToPa p) ∅ : Finset Nat) = {pfnToPa p} := rfl
  rw [hset] at hw1
  have hw2 : World { m with ttbr0 := pfnToPa p } {pfnToPa p} ∅ fun _ => 0 :=
    ⟨⟨hw1.owned.sound, hw1.owned.forest, hw1.owned.table, hw1.owned.owner, hw1.owned.block, hw1.owned.frame⟩, hw1.kernel,
      hw1.managed, hw1.leaf⟩
  refine ⟨{ m with ttbr0 := pfnToPa p }, pfnToPa p, rfl, ⟨hw2, ?_, fun q => ?_, fun q hq i hne => ?_⟩, fun va => ?_, hroom⟩
  · dsimp only
    rw [hQ.ttbr1]
    unfold bootMachine
    decide
  · unfold lentCount
    refine le_of_eq (Finset.sum_eq_zero fun x hx => ?_)
    dsimp only
    rw [hkernel x.1 (mem_leaves.mp hx), lends_zero]
  · dsimp only at hne
    rw [hkernel q hq i, Nat.zero_and] at hne
    exact absurd rfl hne
  · rw [mapping_none, Machine.translate]
    have h0 : entryAt m.mem ({ m with ttbr0 := pfnToPa p }.l0Table va) (dirs va) (l3Index va) = 0 := by
      cases hu : isUserAddr va with
      | true =>
        rw [l0Table_user hu]
        exact huser _ rfl _
      | false =>
        rw [l0Table_kernel hu]
        exact hkernel _ rfl _
    dsimp only
    rw [h0, ptePresent_zero]

end Myos.Mm
