/-
  Myos.Mm.RefCounts — the processes of a running system and the frames they share.

  An event is one entry into the kernel on behalf of a process, or a store of it. Where
  an event reads the areas of a process (`mm`) or `va_mgr.busy_list`, these are any.
  `pgds` are the level-0 tables of the live processes.

  Proved, of every run: a frame no kernel block and no table is allocated exactly when a
  leaf entry maps it, its count is the number of those entries, and freeing a tree
  releases each of its tables once.
-/

import Myos.Mm.UserPages
import Myos.Mm.CopyTables
import Myos.Mm.FreeTree
import Myos.Pmm.Runs

namespace Myos.Mm

open Pmm Lib.Walk Lib.Dyadic

structure Procs where
  machine : Machine
  pgds : Finset Nat

inductive Event where
  | create
  | switch (pgd : Nat)
  | fault (busy : List VmapArea) (mm : Option MmStruct) (esr far : Nat)
  | munmap (mm : MmStruct) (addr len : Nat)
  | brk (mm : MmStruct) (newBrk : Nat)
  | store (va : Nat) (b : UInt8)
  | fork (parent : Nat)
  | exit (pgd : Nat)

/-- Whether EL0 may write through an entry. -/
def pteWritable (v : Nat) : Bool := ptePresent v && v &&& apUser != 0 && v &&& apReadOnly == 0

/-- The physical address an entry translates `va` to. -/
def physAddr (v va : Nat) : Nat := pteToPhys v + va % pageSize

/-- A store to a writable page goes straight to the frame. -/
def userStore (m : Machine) (va : Nat) (b : UInt8) : Machine :=
  { m with mem := Function.update m.mem (physAddr (m.translate va) va) b }

def Procs.step (s : Procs) : Event → Procs
  | .create =>
    let r := createUserPgd s.machine
    ⟨r.1, r.2.elim s.pgds (insert · s.pgds)⟩
  | .switch pgd => if pgd ∈ s.pgds then { s with machine := { s.machine with ttbr0 := pgd } } else s
  | .fault busy mm esr far =>
    if s.machine.ttbr0 ∈ s.pgds ∧ isUserAddr far = true ∧
        (ptePresent (s.machine.translate far) = false ∨ isWrite esr = true) then
      (abortHandler s.machine busy mm esr far).elim s fun r => { s with machine := r.1 }
    else s
  | .munmap mm addr len =>
    if s.machine.ttbr0 ∈ s.pgds ∧ ((munmapStop mm addr len).all fun stop => decide (stop ≤ 2 ^ 47)) = true then
      (doMunmap s.machine mm addr len).elim s fun r => { s with machine := r.1 }
    else s
  | .brk mm newBrk =>
    if s.machine.ttbr0 ∈ s.pgds ∧ mm.brk ≤ 2 ^ 47 then
      (doBrk s.machine mm newBrk).elim s fun r => { s with machine := r.1 }
    else s
  | .store va b =>
    if s.machine.ttbr0 ∈ s.pgds ∧ isUserAddr va = true ∧ pteWritable (s.machine.translate va) = true then
      { s with machine := userStore s.machine va b }
    else s
  | .fork parent =>
    if parent ∈ s.pgds then
      let r := createUserPgd s.machine
      r.2.elim { s with machine := r.1 } fun child => ⟨copyUserPageTable r.1 parent child, insert child s.pgds⟩
    else s
  | .exit pgd => if pgd ∈ s.pgds then ⟨freePageTableTree s.machine pgd, s.pgds.erase pgd⟩ else s

def Procs.run (s : Procs) (events : List Event) : Procs := events.foldl Procs.step s

/-- The system before the first process: `K` are the blocks the rest of the kernel
    holds, and what else is allocated are tables of the kernel's tree. -/
def Boot (m : Machine) (K : Set (Nat × Nat)) : Prop := Owned m {m.ttbr1} K fun _ => 0

/-- The leaf entries of all live user tables that map page frame `p`. -/
def Procs.leaves (s : Procs) (p : Nat) : Nat := leafCount (child s.machine.mem) s.pgds 4 (pfnToPa p)

/-- A page that neither the rest of the kernel holds nor a tree has as a table. -/
def Procs.Spare (s : Procs) (K : Set (Nat × Nat)) (p : Nat) : Prop :=
  (p, 0) ∉ K ∧ ¬ Table s.machine.mem (roots s.machine s.pgds) (pfnToPa p)

structure Procs.Counted (s : Procs) (K : Set (Nat × Nat)) : Prop where
  allocated : ∀ p, s.Spare K p → (Used s.machine.pmm p 0 ↔ 0 < s.leaves p)
  count : ∀ p, 0 < s.leaves p → s.Spare K p ∧ (s.machine.pmm.memMap p).refCount = s.leaves p
  larger : ∀ p k, 0 < k → Used s.machine.pmm p k → (p, k) ∈ K
  releases : ∀ r ∈ s.pgds,
    freePageTableTree s.machine r = (treeReleases s.machine.mem 3 r).foldl Release.run s.machine ∧
    ∀ n, Table s.machine.mem {r} n → (treeReleases s.machine.mem 3 r).count (.free n) = 1 ∧
      ∃ p, n = pfnToPa p ∧ Used s.machine.pmm p 0 ∧ ¬ Used (freePageTableTree s.machine r).pmm p 0

section

variable {m : Machine} {K : Set (Nat × Nat)} {s : Procs}

theorem Boot.world (h : Boot m K) : World m ∅ K fun _ => 0 := by
  have hr : roots m ∅ = {m.ttbr1} := by rw [roots, Finset.coe_empty, insert_empty_eq]
  refine ⟨?_, Finset.notMem_empty _, ?_, fun r hr => absurd hr (Finset.notMem_empty r)⟩
  · rw [hr]
    exact h
  · rintro n ⟨r, hr, -⟩
    exact absurd hr (Finset.notMem_empty r)

theorem store_frame (hw : World m s.pgds K fun _ => 0) (hr : m.ttbr0 ∈ s.pgds) {va : Nat} (hu : isUserAddr va = true)
    (hp : ptePresent (m.translate va) = true) :
    ∃ p, 0 < leafCount (child m.mem) s.pgds 4 (pfnToPa p) ∧ pfnToPa p ≤ physAddr (m.translate va) va ∧
      physAddr (m.translate va) va < pfnToPa p + pageSize := by
  rw [Machine.translate, l0Table_user hu] at hp ⊢
  obtain ⟨p, e, hpos⟩ := hw.leaf_frame hr (q := dirs va) rfl hp
  have := Nat.mod_lt va (show 0 < pageSize by decide)
  exact ⟨p, hpos, by unfold physAddr; omega, by unfold physAddr; omega⟩

/-- Every event keeps the counts. -/
theorem Procs.step_world (hw : World s.machine s.pgds K fun _ => 0) (e : Event) :
    World (s.step e).machine (s.step e).pgds K fun _ => 0 := by
  cases e with
  | create =>
    simp only [Procs.step]
    rcases hw.newPgd with ⟨e, h, -⟩ | ⟨p, e, -, h, -⟩ <;> rw [e]
    · exact h
    · exact h
  | switch pgd =>
    simp only [Procs.step]
    split
    · exact ⟨⟨hw.owned.sound, hw.owned.forest, hw.owned.table, hw.owned.owner, hw.owned.block, hw.owned.frame⟩,
        hw.kernel, hw.managed, hw.leaf⟩
    · exact hw
  | fault busy mm esr far =>
    simp only [Procs.step]
    split
    case isFalse => exact hw
    case isTrue h =>
      obtain ⟨hr, hu, hf⟩ := h
      unfold abortHandler
      by_cases hd : 0x04 ≤ esr &&& 0x3F ∧ esr &&& 0x3F ≤ 0x0F
      · rw [if_pos hd]
        exact (hw.pageFault hr hu hf).1
      · rw [if_neg hd]
        exact hw
  | munmap mm addr len =>
    simp only [Procs.step]
    split
    case isFalse => exact hw
    case isTrue h =>
      cases hm : doMunmap s.machine mm addr len with
      | none => exact hw
      | some r =>
        refine (hw.doMunmap h.1 (fun stop hs => ?_) hm).1
        have := h.2
        rw [hs] at this
        exact of_decide_eq_true this
  | brk mm newBrk =>
    simp only [Procs.step]
    split
    case isFalse => exact hw
    case isTrue h =>
      cases hm : doBrk s.machine mm newBrk with
      | none => exact hw
      | some r => exact (hw.doBrk h.1 h.2 hm).1
  | store va b =>
    simp only [Procs.step]
    split
    case isFalse => exact hw
    case isTrue h =>
      obtain ⟨hr, hu, hp⟩ := h
      simp only [pteWritable, Bool.and_eq_true] at hp
      obtain ⟨p, hpos, h1, h2⟩ := store_frame hw hr hu hp.1.1
      exact (hw.store hpos h1 h2 b).1
  | fork parent =>
    simp only [Procs.step]
    split
    case isFalse => exact hw
    case isTrue hp =>
      rcases hw.newPgd with ⟨e, h, -⟩ | ⟨p, e, hn, h, hQ, -, hz⟩ <;> rw [e]
      · exact h
      · have hne : parent ≠ pfnToPa p := by rintro rfl; exact hn (mem_roots hp)
        have hc := (copyUserPageTable_spec h (fun _ => Nat.two_pow_pos 63) (Finset.mem_insert_of_mem hp)
          (Finset.mem_insert_self _ _) hne hz).world
        simpa only [Option.elim_some] using hc
  | exit pgd =>
    simp only [Procs.step]
    split
    case isFalse => exact hw
    case isTrue hp => exact (freePageTableTree_spec hw hp).1

theorem Procs.run_world (events : List Event) : ∀ {s : Procs}, World s.machine s.pgds K (fun _ => 0) →
    World (s.run events).machine (s.run events).pgds K fun _ => 0 := by
  induction events with
  | nil => intro s hw; exact hw
  | cons e events ih => intro s hw; exact ih (s.step_world hw e)

theorem refs_zero (mem : Mem) (U : Finset Nat) (p : Nat) :
    refs mem U (fun _ => 0) p = leafCount (child mem) U 4 (pfnToPa p) := rfl

theorem World.counted (hw : World s.machine s.pgds K fun _ => 0) : s.Counted K := by
  have hiff := hw.owned.frame_iff
  refine ⟨fun p hp => ?_, fun p hp => ?_, fun p k hk hu => ?_, fun r hr => ⟨freeTables_eq 3 _ _, fun n hn => ?_⟩⟩
  · have := hiff p
    rw [refs_zero] at this
    exact ⟨fun hu => this.mpr ⟨hu, hp⟩, fun h => (this.mp h).1⟩
  · obtain ⟨hu, hK, hc⟩ := hw.owned.frame p hp
    exact ⟨⟨hK, hw.owned.frame_not_table hp⟩, hc⟩
  · rcases hw.owned.owner p k hu with h | ⟨rfl, -⟩
    · exact h
    · cases hk
  · classical
    have hT : Table s.machine.mem (roots s.machine s.pgds) n := by
      obtain ⟨r', hr', q, hq, hn⟩ := hn
      obtain rfl : r' = r := hr'
      exact ⟨r', mem_roots hr, q, hq, hn⟩
    refine ⟨by rw [count_free_table hw hr, if_pos hn], ?_⟩
    rcases (hw.owned.table n hT).2 with h | ⟨p, rfl, hu, hK, hrf⟩
    · exact absurd h (hw.managedRoot hr n hn)
    refine ⟨p, rfl, hu, fun hu' => ?_⟩
    obtain ⟨hw', hmem, -, ht1⟩ := freePageTableTree_spec hw hr
    have hsub : leafCount (child s.machine.mem) (s.pgds.erase r) 4 (pfnToPa p) = 0 := by
      have := leafCount_erase (m := s.machine) hr (pfnToPa p)
      rw [refs_zero] at hrf
      omega
    rcases hw'.owned.owner p 0 hu' with h | ⟨-, h | h⟩
    · exact hK h
    · -- a table of another tree is not one of this tree
      rw [hmem, roots, ht1] at h
      obtain ⟨r1, hr1, q1, hq1, hn1⟩ := h
      obtain ⟨r2, hr2, q2, hq2, hn2⟩ := hn
      obtain rfl : r2 = r := hr2
      have hr1' : r1 ∈ roots s.machine s.pgds := by
        rcases Set.mem_insert_iff.mp hr1 with rfl | h
        · exact kernel_mem_roots
        · exact mem_roots (Finset.mem_of_mem_erase h)
      have e := (hw.owned.table_unique hr1' hq1 hn1 (mem_roots hr) hq2 hn2).1
      subst e
      rcases Set.mem_insert_iff.mp hr1 with rfl | h
      · exact hw.kernel hr
      · exact (Finset.notMem_erase _ _) h
    · rw [refs_zero, hmem, hsub] at h; cases h

end

/-- A machine right after `buddy_init`, with an empty kernel table inside the image. -/
def bootMachine : Machine :=
  { pmm := buddyInit bssState (kernelSpaceStart + 0x40200000), mem := fun _ => 0, ttbr0 := 0, ttbr1 := 0x40001000 }

theorem bootMachine_start : bootMachine.pmm.buddyMemStart = 0x40200000 := by
  obtain ⟨-, -, -, -, hF⟩ := inv_init bssState (kernelSpaceStart + 0x40200000)
    (startIn_ok (by unfold StartIn; decide) bssState)
  exact hF.start

/-- With nothing allocated and cleared memory, every set of pages of the image are empty level-0 tables. -/
theorem bootMachine_owned {R : Set Nat} (hR : ∀ r ∈ R, PageAddr r ∧ r < 0x40200000) (t : Nat) :
    Owned { bootMachine with ttbr0 := t } R ∅ fun _ => 0 := by
  have hst := startIn_ok (show StartIn (kernelSpaceStart + 0x40200000) by unfold StartIn; decide) bssState
  have hun : ∀ p k, ¬ Used bootMachine.pmm p k := init_unused bssState _ hst
  have hc : ∀ t i, child bootMachine.mem t i = none := fun t i => child_none_of_zero (by simp [bootMachine, read64])
  have hw : ∀ {r n : Nat} {q : List Idx}, walk (child bootMachine.mem) r q = some n → q = [] ∧ n = r := by
    intro r n q h
    rcases eq_or_ne q [] with rfl | hq
    · rw [walk_nil] at h; exact ⟨rfl, (Option.some.inj h).symm⟩
    · rw [walk_childless (hc r) hq] at h; cases h
  refine ⟨sound_init bssState _ hst, ⟨fun r hr r' hr' q q' n _ _ h h' => ?_⟩, ?_, fun p k hu => absurd hu (hun p k),
    fun p k hk => absurd hk (Set.notMem_empty _), fun p hp => absurd hp (lt_irrefl 0)⟩
  · obtain ⟨rfl, rfl⟩ := hw h
    obtain ⟨rfl, e⟩ := hw h'
    exact ⟨e, rfl⟩
  · rintro n ⟨r, hr, q, -, h⟩
    obtain ⟨-, rfl⟩ := hw h
    refine ⟨(hR n hr).1, Or.inl (Or.inl ?_)⟩
    show n < bootMachine.pmm.buddyMemStart
    rw [bootMachine_start]
    exact (hR n hr).2

theorem bootMachine_boot : Boot bootMachine ∅ :=
  bootMachine_owned (fun r hr => by
    rw [Set.mem_singleton_iff] at hr
    subst hr
    exact ⟨⟨by unfold bootMachine pageSize; decide, by unfold bootMachine; decide⟩, by unfold bootMachine; decide⟩) 0

theorem bootMachine_room : Room bootMachine.pmm 65024 := by
  refine ⟨Finset.Ico 512 65536, by rw [Nat.card_Ico], fun x hx => ?_⟩
  rw [Finset.mem_Ico] at hx
  have hk : kernelPages bootMachine.pmm = 512 := by
    rw [kernelPages, bootMachine_start]
    rfl
  exact ⟨by rw [hk]; exact hx.1, hx.2, fun q k hu => absurd hu
    (init_unused bssState _ (startIn_ok (by unfold StartIn; decide) bssState) q k)⟩

end Myos.Mm
