/-
  Myos.Mm.Exec — `sys_execve` (`rust/src/kernel/syscall.rs`) and the drop of a
  `PageTable` (`rust/src/kernel/task.rs`).

  The assignment to `task.pgd` drops the old value, which frees the old tree; the call
  then frees the old tree once more. Path resolution and the file are left out: the call
  gets the bytes of the program or the error of reading them.

  Proved: what releasing a freed tree once more does; a call releases the old address
  space once exactly when no other process maps a frame of it.
-/

import Myos.Pmm.Runs
import Myos.Mm.Elf
import Myos.Mm.FreeTree
import Myos.Mm.Sharing

namespace Myos.Mm

open Pmm Lib.Walk Lib.Dyadic

structure Task where
  pgd : Nat
  codePa : Nat
  codeVa : Nat
  stackPa : Nat
  stackVa : Nat
  stackPages : Nat
  userSp : Nat

/-- What the call leaves in the registers of the process; x0 to x30 are zero. -/
structure UserRegs where
  elr : Nat
  sp : Nat

/-- `PageTable::drop`. -/
def dropPageTable (m : Machine) (pgd : Nat) : Machine := if pgd ≠ 0 then freePageTableTree m pgd else m

/-- The part of the call after the program is loaded. -/
def replaceTable (m : Machine) (oldPgd newPgd : Nat) : Machine :=
  let m := (dropPageTable m oldPgd).switch newPgd
  if oldPgd ≠ 0 ∧ oldPgd ≠ newPgd then freePageTableTree m oldPgd else m

def sysExecve (m : Machine) (task : Task) (elf : Except String Slice) :
    Option (Machine × Except String (Task × UserRegs)) :=
  match elf with
  | .error e => some (m, .error e)
  | .ok data =>
    (loadElf m data).map fun
      | (m, .error e) => (m, .error e)
      | (m, .ok loaded) =>
        (replaceTable m task.pgd loaded.pgd,
          .ok ({ pgd := loaded.pgd, codePa := loaded.codePa, codeVa := loaded.codeVa, stackPa := loaded.stackPa,
                 stackVa := loaded.stackTop, stackPages := loaded.stackPages, userSp := loaded.stackTop },
               { elr := loaded.entry, sp := loaded.stackTop }))

/-! ## Releasing twice -/

section

variable {m m' : Machine}

/-- What releases do to the reference counts and to the allocated blocks, whatever they
    name. -/
theorem releases_counts : ∀ (L : List Release) {m : Machine}, Sound m.pmm →
    (∀ pa, Release.put pa ∈ L → ∃ q, q < totalPages ∧ pa = pfnToPa q) →
    Sound (L.foldl Release.run m).pmm ∧
    (∀ p, ((L.foldl Release.run m).pmm.memMap p).refCount =
      (m.pmm.memMap p).refCount - L.count (.put (pfnToPa p))) ∧
    (∀ p k, Used (L.foldl Release.run m).pmm p k → Used m.pmm p k) ∧
    ∀ p k, Release.put (pfnToPa p) ∉ L → Release.free (pfnToPa p) ∉ L → Used m.pmm p k →
      Used (L.foldl Release.run m).pmm p k := by
  intro L
  induction L with
  | nil => intro m hs _; exact ⟨hs, fun _ => rfl, fun _ _ h => h, fun _ _ _ _ h => h⟩
  | cons c L ih =>
    intro m hs hput
    have one : Sound (c.run m).pmm ∧ (∀ p, ((c.run m).pmm.memMap p).refCount =
        (m.pmm.memMap p).refCount - [c].count (.put (pfnToPa p))) ∧ (∀ p k, Used (c.run m).pmm p k → Used m.pmm p k) ∧
        ∀ p k, Release.put (pfnToPa p) ≠ c → Release.free (pfnToPa p) ≠ c → Used m.pmm p k → Used (c.run m).pmm p k := by
      cases c with
      | put pa =>
        obtain ⟨q, hq, rfl⟩ := hput pa (List.mem_cons_self ..)
        obtain ⟨g1, g2, g3, g4⟩ := put_any hs hq
        refine ⟨g1, fun p => (g2 p).trans ?_, g3, fun p k hne _ hp => g4 p k (fun e => hne (by rw [e])) hp⟩
        by_cases e : p = q
        · rw [e, if_pos rfl, List.count_singleton_self]
        · rw [if_neg e, List.count_singleton, beq_false_of_ne fun e' => e (pfnToPa_inj (Release.put.inj e').symm)]
          rfl
      | free pa =>
        obtain ⟨g1, g2, g3, g4⟩ := free_any hs pa 0
        refine ⟨g1, fun p => (g2 p).trans ?_, g3, fun p k _ hne hp => g4 p k (fun e => hne (by rw [e])) hp⟩
        rw [List.count_eq_zero.mpr (by simp)]
        rfl
    obtain ⟨h1, h2, h3, h4⟩ := one
    obtain ⟨g1, g2, g3, g4⟩ := ih h1 fun pa hpa => hput pa (List.mem_cons_of_mem _ hpa)
    rw [List.foldl_cons]
    refine ⟨g1, fun p => ?_, fun p k h => h3 p k (g3 p k h), fun p k hp hf h => ?_⟩
    · rw [g2, h2, ← List.singleton_append (l := L), List.count_append]
      omega
    · rw [List.mem_cons, not_or] at hp hf
      exact g4 p k hp.2 hf.2 (h4 p k hp.1 hf.1 h)

end

/-! ## The old address space -/

/-- The leaf entries of the trees `U` that map page frame `p`. -/
def leavesOf (mem : Mem) (U : Finset Nat) (p : Nat) : Nat := leafCount (child mem) U 4 (pfnToPa p)

/-- From `m` to `m'` the process left the tree `old` for the tree `new`, each leaf and
    each table of the old tree was released once, and no page of another process. -/
structure ReleasedOnce (m m' : Machine) (U : Finset Nat) (old new : Nat) : Prop where
  count : ∀ p, 0 < leavesOf m.mem {old} p → (m'.pmm.memMap p).refCount = leavesOf m'.mem (insert new (U.erase old)) p
  data : ∀ p, 0 < leavesOf m.mem {old} p → (Used m'.pmm p 0 ↔ 0 < leavesOf m'.mem (insert new (U.erase old)) p)
  tables : ∀ n, Table m.mem {old} n → ∃ p, n = pfnToPa p ∧ Used m.pmm p 0 ∧ ¬ Used m'.pmm p 0
  others : ∀ p, 0 < leavesOf m.mem (U.erase old) p → Used m'.pmm p 0

section

variable {m m1 m' : Machine} {U : Finset Nat} {K : Set (Nat × Nat)} {ex ex0 : Nat → Nat} {old new : Nat}

theorem leavesOf_single (mem : Mem) (r p : Nat) : leavesOf mem {r} p = pathCount (child mem) 4 r (pfnToPa p) := by
  unfold leavesOf leafCount
  rw [Finset.sum_singleton]

theorem leavesOf_insert {mem : Mem} {r : Nat} (hr : r ∉ U) (p : Nat) :
    leavesOf mem (insert r U) p = leavesOf mem {r} p + leavesOf mem U p := by
  rw [leavesOf_single]
  unfold leavesOf
  exact leafCount_insert hr _

theorem refs_leavesOf (mem : Mem) (p : Nat) : refs mem U ex p = leavesOf mem U p + ex p := by
  unfold refs leavesOf
  rfl

theorem leavesOf_erase {r : Nat} (hr : r ∈ U) (p : Nat) :
    leavesOf m.mem U p = leavesOf m.mem {r} p + leavesOf m.mem (U.erase r) p := by
  rw [leavesOf_single]
  exact leafCount_erase hr _

theorem leavesOf_entries {V : Finset Nat} (hV : V ⊆ U)
    (h : ∀ r ∈ U, ∀ q : List Idx, q.length = 3 → ∀ i, entryAt m'.mem r q i = entryAt m.mem r q i) (p : Nat) :
    leavesOf m'.mem V p = leavesOf m.mem V p := leafCount_entries (fun r hr => h r (hV hr)) _

/-- Every page the tree is told to put is a page frame. -/
theorem World.put_frame (hw : World m U K ex) {r pa : Nat} (hr : r ∈ U) (h : Release.put pa ∈ treeReleases m.mem 3 r) :
    ∃ q, q < totalPages ∧ pa = pfnToPa q := by
  have hpos := List.count_pos_iff.mpr h
  rw [count_put] at hpos
  obtain ⟨s, hs, hwk⟩ := pathCount_pos.mp hpos
  obtain ⟨q, i, rfl, hq⟩ := path_split hs
  rw [walk_entry] at hwk
  split at hwk
  case isFalse => cases hwk
  case isTrue hp =>
    obtain ⟨p, e, hp⟩ := hw.leaf_frame hr hq hp
    exact ⟨p, hw.owned.pfn_lt (hw.refs_pos hp), (Option.some.inj hwk).symm.trans e⟩

/-- The image of the new program leads to no page of an old tree. -/
theorem Loading.leavesOf_new (h : Loading U K m ex0 new False m1 ex) {p : Nat} (hp : 0 < refs m.mem U ex0 p) :
    leavesOf m1.mem {new} p = 0 := by
  rw [leavesOf_single]
  by_contra hne
  obtain ⟨s, hs, hwk⟩ := pathCount_pos.mp (Nat.pos_of_ne_zero hne)
  obtain ⟨q, i, rfl, hq⟩ := path_split hs
  rw [walk_entry] at hwk
  split at hwk
  case isFalse => cases hwk
  case isTrue hpr =>
    have := (h.apart p hp).2 q hq i
    rw [leadsTo, if_pos ⟨hpr, Option.some.inj hwk⟩] at this
    cases this

theorem replaceTable_eq (m : Machine) (h0 : old ≠ 0) (hne : old ≠ new) :
    replaceTable m old new = freePageTableTree ((freePageTableTree m old).switch new) old := by
  unfold replaceTable dropPageTable
  rw [if_pos h0, if_pos ⟨h0, hne⟩]

theorem freePageTableTree_eq (m : Machine) (r : Nat) :
    freePageTableTree m r = (treeReleases m.mem 3 r).foldl Release.run m := freeTables_eq 3 m r

/-- What both releases of the old tree do: the second takes away once more what the
    first one took. -/
theorem replaceTable_spec (hL : Loading U K m (fun _ => 0) new False m1 ex) (hn : new ∉ U) (ho : old ∈ U) :
    (replaceTable m1 old new).mem = m1.mem ∧
    World (freePageTableTree m1 old) ((insert new U).erase old) K ex ∧
    (∀ p, ((replaceTable m1 old new).pmm.memMap p).refCount =
      (m1.pmm.memMap p).refCount - leavesOf m.mem {old} p - leavesOf m.mem {old} p) ∧
    (∀ p k, Used (replaceTable m1 old new).pmm p k → Used (freePageTableTree m1 old).pmm p k) ∧
    ∀ p, leavesOf m.mem {old} p = 0 → ¬ Table m1.mem {old} (pfnToPa p) → Used (freePageTableTree m1 old).pmm p 0 →
      Used (replaceTable m1 old new).pmm p 0 := by
  have hw1 := hL.world
  have ho1 : old ∈ insert new U := Finset.mem_insert_of_mem ho
  have hne : old ≠ new := by rintro rfl; exact hn ho
  have heq := replaceTable_eq m1 (hw1.root_ne_zero ho1) hne
  obtain ⟨hw2, hmem2, -⟩ := freePageTableTree_spec hw1 ho1
  have hput : ∀ pa, Release.put pa ∈ treeReleases m1.mem 3 old → ∃ q, q < totalPages ∧ pa = pfnToPa q :=
    fun pa hpa => hw1.put_frame ho1 hpa
  have hcount : ∀ p, (treeReleases m1.mem 3 old).count (.put (pfnToPa p)) = leavesOf m.mem {old} p := by
    intro p
    rw [count_put, ← leavesOf_single]
    exact leavesOf_entries (Finset.singleton_subset_iff.mpr ho) hL.entry p
  have h1 := releases_counts (treeReleases m1.mem 3 old) hw1.owned.sound hput
  rw [← freePageTableTree_eq] at h1
  have e2 := freePageTableTree_eq ((freePageTableTree m1 old).switch new) old
  generalize freePageTableTree m1 old = m2 at *
  rw [switch_mem, hmem2] at e2
  have h2 := releases_counts (treeReleases m1.mem 3 old) (m := m2.switch new) hw2.owned.sound hput
  rw [← e2, ← heq] at h2
  simp only [switch_pmm] at h2
  refine ⟨?_, hw2, fun p => ?_, fun p k hu => h2.2.2.1 p k hu, fun p h0 hT hu => h2.2.2.2 p 0 ?_ ?_ hu⟩
  · rw [heq, e2, runs_mem, switch_mem, hmem2]
  · rw [h2.2.1, h1.2.1, hcount]
  · rw [← List.count_eq_zero, hcount]; exact h0
  · rw [mem_free]
    exact fun h => hT (table_singleton.mpr h)

/-- The counts before and after, for a page of the old tree. -/
theorem replaceTable_counts (hL : Loading U K m (fun _ => 0) new False m1 ex)
    (hn : new ∉ U) (ho : old ∈ U) {p : Nat} (hp : 0 < leavesOf m.mem {old} p) :
    ((replaceTable m1 old new).pmm.memMap p).refCount = leavesOf m.mem (U.erase old) p - leavesOf m.mem {old} p ∧
    leavesOf (replaceTable m1 old new).mem (insert new (U.erase old)) p = leavesOf m.mem (U.erase old) p := by
  obtain ⟨hmem, -, hcnt, -⟩ := replaceTable_spec hL hn ho
  have hsplit := leavesOf_erase (m := m) ho p
  have hr0 : refs m.mem U (fun _ => 0) p = _ := refs_leavesOf m.mem p
  have hpos : 0 < refs m.mem U (fun _ => 0) p := by omega
  have hnew := hL.leavesOf_new hpos
  have hex : ex p = 0 := (hL.apart p hpos).1
  have hU : leavesOf m1.mem U p = leavesOf m.mem U p := leavesOf_entries (Finset.Subset.refl U) hL.entry p
  have hrf : refs m1.mem (insert new U) ex p = leavesOf m.mem U p := by
    rw [refs_leavesOf, leavesOf_insert hn, hnew, hex, hU]
    omega
  have hone := (hL.world.owned.frame p (by omega)).2.2
  constructor
  · rw [hcnt, hone, hrf]; omega
  · rw [hmem]
    have hne : new ∉ U.erase old := fun h => hn (Finset.mem_of_mem_erase h)
    rw [leavesOf_insert hne, hnew, Nat.zero_add]
    exact leavesOf_entries (Finset.erase_subset _ _) hL.entry p

/-- A page of the old tree still in use after the call is another tree's. -/
theorem replaceTable_used (hL : Loading U K m (fun _ => 0) new False m1 ex) (hn : new ∉ U)
    (ho : old ∈ U) {p : Nat} (hp : 0 < leavesOf m.mem {old} p) (hu : Used (replaceTable m1 old new).pmm p 0) :
    0 < leavesOf m.mem (U.erase old) p := by
  obtain ⟨-, hw2, -, hused, -⟩ := replaceTable_spec hL hn ho
  obtain ⟨-, hmem2, -, ht1⟩ := freePageTableTree_spec hL.world (Finset.mem_insert_of_mem (b := new) ho)
  have hpos : 0 < refs m.mem U (fun _ => 0) p := by
    have := leavesOf_erase (m := m) ho p
    rw [refs_leavesOf]; omega
  have hpos1 := hL.refs_pos hn hpos
  obtain ⟨-, hK, hnT⟩ := (hL.world.owned.frame_iff p).mp hpos1
  have hnew := hL.leavesOf_new hpos
  have hU : leavesOf m1.mem (U.erase old) p = leavesOf m.mem (U.erase old) p :=
    leavesOf_entries (Finset.erase_subset _ _) hL.entry p
  have hne : new ≠ old := by rintro rfl; exact hn ho
  rcases hw2.owned.owner p 0 (hused p 0 hu) with h | ⟨-, h | h⟩
  · exact absurd h hK
  · refine absurd ?_ hnT
    obtain ⟨r, hr, q, hq, hwk⟩ := h
    rw [hmem2] at hwk
    refine ⟨r, ?_, q, hq, hwk⟩
    rw [roots, ht1] at hr
    rcases Set.mem_insert_iff.mp hr with rfl | hr
    · exact kernel_mem_roots
    · exact mem_roots (Finset.mem_of_mem_erase hr)
  · rw [refs_leavesOf, hmem2, Finset.erase_insert_of_ne hne, leavesOf_insert fun h => hn (Finset.mem_of_mem_erase h),
      hnew, (hL.apart p hpos).1, hU] at h
    omega

/-- The old tables go back at the first release, and nothing takes them since. -/
theorem replaceTable_tables (hL : Loading U K m (fun _ => 0) new False m1 ex) (hn : new ∉ U) (ho : old ∈ U)
    (hw : World m U K fun _ => 0) {n : Nat} (hT : Table m.mem {old} n) :
    ∃ p, n = pfnToPa p ∧ Used m.pmm p 0 ∧ ¬ Used (replaceTable m1 old new).pmm p 0 := by
  have ho1 : old ∈ insert new U := Finset.mem_insert_of_mem ho
  obtain ⟨r, hr, q, hq, hwk⟩ := hT
  obtain rfl : r = old := hr
  have hwk1 : walk (child m1.mem) r q = some n := (hL.walks r ho q hq).trans hwk
  rcases (hw.owned.table n ⟨r, mem_roots ho, q, hq, hwk⟩).2 with h | ⟨p, rfl, hu, -⟩
  · exact absurd h (hw.managed n ⟨r, ho, q, hq, hwk⟩)
  refine ⟨p, rfl, hu, fun hu' => ?_⟩
  obtain ⟨-, hw2, -, hused, -⟩ := replaceTable_spec hL hn ho
  obtain ⟨-, hmem2, -, ht1⟩ := freePageTableTree_spec hL.world ho1
  have hT1 : Table m1.mem (roots m1 (insert new U)) (pfnToPa p) := ⟨r, mem_roots ho1, q, hq, hwk1⟩
  have hu1 : Used m1.pmm p 0 := by
    rcases (hL.world.owned.table _ hT1).2 with h | ⟨p', e, hu, -⟩
    · exact absurd h (hL.world.managed _ ⟨r, ho1, q, hq, hwk1⟩)
    · rwa [pfnToPa_inj e]
  obtain ⟨-, hK, hrf⟩ := hL.world.owned.table_used hu1 hT1
  rcases hw2.owned.owner p 0 (hused p 0 hu') with h | ⟨-, h | h⟩
  · exact hK h
  · obtain ⟨r', hr', q', hq', hwk'⟩ := h
    rw [hmem2] at hwk'
    rw [roots, ht1] at hr'
    have hr1 : r' ∈ roots m1 (insert new U) := by
      rcases Set.mem_insert_iff.mp hr' with rfl | hr'
      · exact kernel_mem_roots
      · exact mem_roots (Finset.mem_of_mem_erase hr')
    have e := (hL.world.owned.table_unique hr1 hq' hwk' (mem_roots ho1) hq hwk1).1
    subst e
    rcases Set.mem_insert_iff.mp hr' with rfl | h
    · exact hL.world.kernel ho1
    · exact Finset.notMem_erase _ _ h
  · have h1 := leavesOf_erase (m := m1) ho1 p
    rw [refs_leavesOf, hmem2] at h
    rw [refs_leavesOf] at hrf
    omega

/-- Pages of the other processes stay allocated when none of them is shared. -/
theorem replaceTable_others (hL : Loading U K m (fun _ => 0) new False m1 ex) (hn : new ∉ U) (ho : old ∈ U)
    (hs : ∀ p, 0 < leavesOf m.mem {old} p → leavesOf m.mem (U.erase old) p = 0) {p : Nat}
    (hp : 0 < leavesOf m.mem (U.erase old) p) : Used (replaceTable m1 old new).pmm p 0 := by
  have ho1 : old ∈ insert new U := Finset.mem_insert_of_mem ho
  have hne : new ≠ old := by rintro rfl; exact hn ho
  obtain ⟨-, hw2, -, -, hkeep⟩ := replaceTable_spec hL hn ho
  obtain ⟨-, hmem2, -, -⟩ := freePageTableTree_spec hL.world ho1
  have hpos : 0 < refs m.mem U (fun _ => 0) p := by
    have := leavesOf_erase (m := m) ho p
    rw [refs_leavesOf]; omega
  obtain ⟨-, -, hnT⟩ := (hL.world.owned.frame_iff p).mp (hL.refs_pos hn hpos)
  have hU : leavesOf m1.mem (U.erase old) p = leavesOf m.mem (U.erase old) p :=
    leavesOf_entries (Finset.erase_subset _ _) hL.entry p
  refine hkeep p ?_ (fun hT => hnT ?_) ((hw2.owned.frame p ?_).1)
  · by_contra h
    have := hs p (Nat.pos_of_ne_zero h)
    omega
  · obtain ⟨q, hq, hwk⟩ := table_singleton.mp hT
    exact ⟨old, mem_roots ho1, q, hq, hwk⟩
  · rw [refs_leavesOf, hmem2, Finset.erase_insert_of_ne hne, leavesOf_insert fun h => hn (Finset.mem_of_mem_erase h), hU]
    omega

/-- What a successful call did: it loaded the program into a new tree and replaced the
    old one. -/
theorem sysExecve_loaded {task task' : Task} {data : Slice} {regs : UserRegs} (hw : World m U K fun _ => 0)
    (he : sysExecve m task (.ok data) = some (m', .ok (task', regs))) :
    ∃ m1 ex, task'.pgd ∉ U ∧ Loading U K m (fun _ => 0) task'.pgd False m1 ex ∧
      m' = replaceTable m1 task.pgd task'.pgd := by
  obtain ⟨⟨m1, r⟩, hl, he⟩ := Option.map_eq_some_iff.mp he
  cases r with
  | error e => cases he
  | ok loaded =>
    cases he
    rcases hw.loadElf (fun h : False => h.elim) hl with ⟨-, -, e, h⟩ | ⟨new, ex, hn, hL, hok, -⟩
    · cases h
    obtain ⟨rfl, -⟩ := hok loaded rfl
    exact ⟨m1, ex, hn, hL, rfl⟩

/-- The count of a page that another process maps too is too small by what the second
    release took away. -/
theorem replaceTable_unshared (hL : Loading U K m (fun _ => 0) new False m1 ex) (hn : new ∉ U) (ho : old ∈ U)
    (h : ReleasedOnce m (replaceTable m1 old new) U old new) {p : Nat} (hp : 0 < leavesOf m.mem {old} p) :
    leavesOf m.mem (U.erase old) p = 0 := by
  obtain ⟨h1, h2⟩ := replaceTable_counts hL hn ho hp
  have := h.count p hp
  rw [h1, h2] at this
  omega

end

/-! ## A page shared with a child -/

/-- A program of one segment, at 0x400000. -/
def tinyElf : Slice where
  bytes
    | 0 => 0x7F | 1 => 0x45 | 2 => 0x4C | 3 => 0x46 | 4 => 2 | 5 => 1 | 6 => 1
    | 16 => 2 | 18 => 183 | 20 => 1 | 26 => 0x40 | 32 => 64 | 54 => 56 | 56 => 1
    | 64 => 1 | 68 => 5 | 82 => 0x40 | 96 => 120 | 104 => 120
    | _ => 0
  len := 120

theorem tinyElf_loadable : Loadable tinyElf [⟨0x400000, 120, 120, 0, 5⟩] 0x400000 :=
  .oneHeader (by decide) (by decide) (by decide) (by decide) (by decide) (by decide) (by decide) (by decide) (by decide)

def tinyMm : MmStruct := ⟨Lib.SortedMap.empty.insert 0 ⟨0, 0x10000, vmRead ||| vmWrite⟩, 0, 0, 0⟩

/-- A parent that has one page and forked, then calls `execve`. -/
theorem shared_execve : ∃ (s : Procs) (task task' : Task) (regs : UserRegs) (m' : Machine) (p : Nat),
    s = Procs.run ⟨bootMachine, ∅⟩ (touchAndFork bootMachine tinyMm 0x92000046 0x1000) ∧
    World s.machine s.pgds ∅ (fun _ => 0) ∧ task.pgd ∈ s.pgds ∧
    sysExecve s.machine task (.ok tinyElf) = some (m', .ok (task', regs)) ∧
    0 < leavesOf s.machine.mem {task.pgd} p ∧ 0 < leavesOf s.machine.mem (s.pgds.erase task.pgd) p := by
  obtain ⟨m1, P, C, p, hT, ht1, hne, -, hrun, hF, hR⟩ := bootMachine_boot.touchAndFork
    (n := 0 + 4 * stackPages + 4 * 1 + 1) (show isUserAddr 0x1000 = true by decide) (bootMachine_room.le (by decide))
    (show 0x04 ≤ 0x92000046 &&& 0x3F ∧ 0x92000046 &&& 0x3F ≤ 0x0F by decide)
    (show rustVmaFind tinyMm 0x1000 ≠ 0 ∧ rustVmaFind tinyMm 0x1000 &&& vmWrite ≠ 0 ∧
      rustVmaFind tinyMm 0x1000 &&& vmExec = 0 by decide)
  rw [hrun]
  have hw := hF.world
  have hentry := hF.entry P (mem_roots (Finset.mem_singleton_self P)) (dirs 0x1000) rfl (l3Index 0x1000)
  have hchild := hF.child (dirs 0x1000) rfl (l3Index 0x1000)
  have he1 := hT.entry (dirs 0x1000) rfl (l3Index 0x1000)
  rw [if_pos ⟨rfl, rfl⟩] at he1
  have hpres : ptePresent (mkPte pageUserRw (pfnToPa p)) = true := mkPte_present pageUserRw_ok.valid
  rw [he1] at hentry hchild
  rw [if_pos hpres] at hchild
  have hPP : P ∈ ({C, P} : Finset Nat) := Finset.mem_insert_of_mem (Finset.mem_singleton_self P)
  have hCC : C ∈ ({C, P} : Finset Nat).erase P := Finset.mem_erase.mpr ⟨hne, Finset.mem_insert_self _ _⟩
  have hpa : pteToPhys (mkPte pageUserRw (pfnToPa p)) = pfnToPa p := mkPte_pteToPhys pageUserRw_ok (pfnToPa_pageAddr hT.frame)
  have ht : (copyUserPageTable (createUserPgd m1).1 P C).ttbr1 ≠ 0 := by
    rw [hF.ttbr1, ht1]
    decide
  generalize copyUserPageTable (createUserPgd m1).1 P C = m2 at *
  obtain ⟨m3, l, hl, -⟩ := loadElf_room hw ht tinyElf_loadable hR
  have he : sysExecve m2 ⟨P, 0, 0, 0, 0, 0, 0⟩ (.ok tinyElf) = some (replaceTable m3 P l.pgd,
      .ok (⟨l.pgd, l.codePa, l.codeVa, l.stackPa, l.stackTop, l.stackPages, l.stackTop⟩, ⟨l.entry, l.stackTop⟩)) := by
    rw [sysExecve, hl, Option.map_some]
  refine ⟨⟨m2, {C, P}⟩, ⟨P, 0, 0, 0, 0, 0, 0⟩, _, _, _, p, rfl, hw, hPP, he, ?_, ?_⟩
  · exact leavesOf_pos (Finset.mem_singleton_self P) (q := dirs 0x1000) rfl (by rw [hentry]; exact hpres)
      (by rw [hentry]; exact hpa)
  · exact leavesOf_pos hCC (q := dirs 0x1000) rfl (by rw [hchild, cowPte_present]; exact hpres)
      (by rw [hchild, cowPte_pteToPhys]; exact hpa)

end Myos.Mm
