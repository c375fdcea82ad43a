/-
  Myos.Mm.PageMap — the page tables as a finite map.

  The map is from `pageKey va`, the choice of the root and VA[47:12], to a page. The
  caller of `arm64_map_one_page` gives the entry's attributes and the page; the two are
  or-ed, so address bits among the attributes become part of the page.

  Two roots with well-formed trees are all that is asked of the state before a run: the
  allocator may be in any state. Of the run it is asked that an allocated table is a page
  not in use (`Fresh`).

  Proved: in every state of every such run the trees are well formed and every lookup
  gives the page of the map (`refines_run`); a mapping whose tables are supplied
  succeeds; an unmapping changes the lookup of no other key. The kernel's own allocator
  supplies fresh tables as long as it has a page for each (`Owned.supplies`).
-/

import Myos.Mm.RefCounts

namespace Myos.Mm

open Pmm Lib.Walk Lib.Dyadic

inductive PageOp where
  | map (va pa prot : Nat)
  | unmap (va : Nat)

def PageOp.step (m : Machine) : PageOp → Machine
  | .map va pa prot => (arm64MapOnePage m va pa prot).1
  | .unmap va => arm64UnmapOnePage m va

/-- Which of the two trees translates an address, and bits 47..12 of the address. -/
def pageKey (va : Nat) : Bool × Nat := (isUserAddr va, (va >>> 12) % 2 ^ 36)

abbrev PageMap := Bool × Nat → Option Nat

def PageMap.step (f : PageMap) : PageOp → PageMap
  | .map va pa prot => Function.update f (pageKey va) (some (pteToPhys prot ||| pa))
  | .unmap va => Function.update f (pageKey va) none

/-- An address with the given key. -/
def keyAddr : Bool × Nat → Nat
  | (true, n) => n * pageSize
  | (false, n) => 2 ^ 63 + n * pageSize

/-- The map that the tables of `m` hold. -/
def Machine.pageMap (m : Machine) : PageMap := fun k => some (arm64GetPhysFromVa m (keyAddr k))

/-- Every lookup gives the page of the map, `0` if there is none. -/
def Refines (m : Machine) (f : PageMap) : Prop := ∀ va, arm64GetPhysFromVa m va = (f (pageKey va)).getD 0

/-- The current level-0 tables. -/
def Machine.roots (m : Machine) : Set Nat := {m.ttbr0, m.ttbr1}

/-- Both current roots have well-formed trees, apart from the pages `D`. -/
structure WellFormed (m : Machine) (D : Set Nat) : Prop where
  trees : Trees m.mem m.roots D
  distinct : m.ttbr0 ≠ m.ttbr1
  nonzero : m.ttbr0 ≠ 0 ∧ m.ttbr1 ≠ 0

/-- A page not in use. -/
structure Fresh (m : Machine) (D : Set Nat) (n : Nat) : Prop where
  nonzero : n ≠ 0
  page : PageAddr n
  table : ¬ Table m.mem m.roots n
  data : n ∉ D

/-- Every table missing on the way `q` down from `t` can be allocated, and is then a page not in use. -/
def Supplies (D : Set Nat) : Machine → Nat → List Idx → Prop
  | _, _, [] => True
  | m, t, i :: q => (child m.mem t i = none → Fresh m D (m.allocPage gfpKernel).2) ∧
    ∀ c, (nextTable m t i).2 = some c → Supplies D (nextTable m t i).1 c q

/-- A valid entry for a page an entry can hold, and tables for it. -/
def PageOp.Ok (D : Set Nat) (m : Machine) : PageOp → Prop
  | .map va pa prot => (PageAddr pa ∧ ptePresent prot = true ∧ prot < 2 ^ 64) ∧ Supplies D m (m.l0Table va) (dirs va)
  | .unmap _ => True

def OkRun (D : Set Nat) : Machine → List PageOp → Prop
  | _, [] => True
  | m, op :: ops => op.Ok D m ∧ OkRun D (op.step m) ops

section

variable {m m' : Machine} {D : Set Nat}

theorem l0Table_mem (m : Machine) (va : Nat) : m.l0Table va ∈ m.roots := by
  unfold Machine.l0Table Machine.roots
  split
  · exact Set.mem_insert _ _
  · exact Set.mem_insert_of_mem _ rfl

theorem WellFormed.l0Table_ne (h : WellFormed m D) (va : Nat) : m.l0Table va ≠ 0 := by
  unfold Machine.l0Table
  split
  · exact h.nonzero.1
  · exact h.nonzero.2

/-- One key, one leaf entry. -/
theorem key_iff (hd : m.ttbr0 ≠ m.ttbr1) (va va' : Nat) :
    (m.l0Table va' = m.l0Table va ∧ dirs va' = dirs va ∧ l3Index va' = l3Index va) ↔ pageKey va' = pageKey va := by
  have hroot : m.l0Table va' = m.l0Table va ↔ isUserAddr va' = isUserAddr va := by
    unfold Machine.l0Table
    cases isUserAddr va' <;> cases isUserAddr va <;> simp [hd, hd.symm]
  rw [path_iff, hroot]
  exact Prod.mk.injEq .. ▸ Iff.rfl

theorem WellFormed.key_iff (h : WellFormed m D) (va va' : Nat) :
    (m.l0Table va' = m.l0Table va ∧ dirs va' = dirs va ∧ l3Index va' = l3Index va) ↔ pageKey va' = pageKey va :=
  Mm.key_iff h.distinct va va'

/-- What a lookup makes of a leaf entry. -/
def physOf (pte : Nat) : Nat := if ptePresent pte then pteToPhys pte else 0

theorem WellFormed.lookup (h : WellFormed m D) (va : Nat) : arm64GetPhysFromVa m va = physOf (m.translate va) :=
  getPhysFromVa_eq m (h.l0Table_ne va)

theorem pageKey_div {a b : Nat} (h : a / pageSize = b / pageSize) : pageKey a = pageKey b := by
  have h1 := isUserAddr_iff a
  have h2 := isUserAddr_iff b
  unfold pageSize at h
  refine Prod.ext (Bool.eq_iff_iff.mpr (h1.trans (Iff.trans ?_ h2.symm))) ?_
  · omega
  · unfold pageKey
    rw [Nat.shiftRight_eq_div_pow, Nat.shiftRight_eq_div_pow]
    dsimp only
    omega

theorem pageKey_keyAddr (va : Nat) : pageKey (keyAddr (pageKey va)) = pageKey va := by
  have hu := isUserAddr_iff
  unfold pageKey
  cases h : isUserAddr va with
  | true =>
    have := (hu va).mp h
    rw [keyAddr, Nat.shiftRight_eq_div_pow, Nat.shiftRight_eq_div_pow]
    unfold pageSize
    refine Prod.ext ((hu _).mpr ?_) ?_
    · omega
    · dsimp only; omega
  | false =>
    rw [keyAddr, Nat.shiftRight_eq_div_pow, Nat.shiftRight_eq_div_pow]
    unfold pageSize
    refine Prod.ext (Bool.eq_false_iff.mpr fun e => ?_) ?_
    · have := (hu _).mp e
      omega
    · dsimp only; omega

/-- Lookups depend on the key only. -/
theorem WellFormed.refines (h : WellFormed m D) : Refines m m.pageMap := by
  intro va
  obtain ⟨e1, e2, e3⟩ := (h.key_iff va _).mpr (pageKey_keyAddr va)
  rw [Machine.pageMap, Option.getD_some, h.lookup, h.lookup, Machine.translate, Machine.translate, e1, e2, e3]

/-! ## Steps that keep every translation -/

/-- `m'` has the roots, the registers and the leaf entries of `m`, and well-formed trees. -/
structure Kept (m m' : Machine) (D : Set Nat) : Prop where
  wf : WellFormed m' D
  ttbr0 : m'.ttbr0 = m.ttbr0
  ttbr1 : m'.ttbr1 = m.ttbr1
  entry : ∀ r ∈ m.roots, ∀ q : List Idx, q.length = 3 → ∀ i, entryAt m'.mem r q i = entryAt m.mem r q i

theorem roots_congr (h0 : m'.ttbr0 = m.ttbr0) (h1 : m'.ttbr1 = m.ttbr1) : m'.roots = m.roots := by
  unfold Machine.roots
  rw [h0, h1]

theorem Kept.roots (h : Kept m m' D) : m'.roots = m.roots := roots_congr h.ttbr0 h.ttbr1

theorem Kept.l0Table (h : Kept m m' D) (va : Nat) : m'.l0Table va = m.l0Table va := by
  unfold Machine.l0Table
  rw [h.ttbr0, h.ttbr1]

theorem WellFormed.kept (h : WellFormed m D) : Kept m m D := ⟨h, rfl, rfl, fun _ _ _ _ _ => rfl⟩

theorem Kept.trans {m'' : Machine} (h1 : Kept m m' D) (h2 : Kept m' m'' D) : Kept m m'' D :=
  ⟨h2.wf, h2.ttbr0.trans h1.ttbr0, h2.ttbr1.trans h1.ttbr1,
    fun r hr q hq i => (h2.entry r (h1.roots ▸ hr) q hq i).trans (h1.entry r hr q hq i)⟩

theorem WellFormed.keep (h : WellFormed m D) (h0 : m'.ttbr0 = m.ttbr0) (h1 : m'.ttbr1 = m.ttbr1)
    (ht : Trees m'.mem m.roots D)
    (he : ∀ r ∈ m.roots, ∀ q : List Idx, q.length = 3 → ∀ i, entryAt m'.mem r q i = entryAt m.mem r q i) :
    Kept m m' D :=
  ⟨⟨(roots_congr h0 h1).symm ▸ ht, by rw [h0, h1]; exact h.distinct, by rw [h0, h1]; exact h.nonzero⟩, h0, h1, he⟩

theorem Kept.translate (h : Kept m m' D) (va : Nat) : m'.translate va = m.translate va := by
  unfold Machine.translate
  rw [h.l0Table]
  exact h.entry _ (l0Table_mem m va) _ rfl _

/-! ## Mapping -/

/-- The next table is there, or a fresh page is linked. -/
theorem WellFormed.table (h : WellFormed m D) {r t : Nat} {q : List Idx} (hr : r ∈ m.roots) (hq : q.length < 3)
    (ht : walk (child m.mem) r q = some t) {i : Idx}
    (hs : child m.mem t i = none → Fresh m D (m.allocPage gfpKernel).2) :
    ∃ c, (nextTable m t i).2 = some c ∧ Kept m (nextTable m t i).1 D ∧
      walk (child (nextTable m t i).1.mem) r (q ++ [i]) = some c := by
  by_cases hp : ptePresent (m.pte t i) = true
  · have hn : nextTable m t i = (m, some (pteToPhys (m.pte t i))) := if_neg (by simpa using hp)
    rw [hn]
    exact ⟨_, rfl, h.kept, by rw [walk_snoc, ht, Option.bind_some]; exact child_present hp⟩
  have hc := child_absent hp
  obtain ⟨h0, hpa, hT, hD⟩ := hs hc
  generalize hn : (m.allocPage gfpKernel).2 = n at *
  -- the allocator's own step leaves memory and registers
  have hm1 : (m.allocPage gfpKernel).1.mem = m.mem := rfl
  have e0 : (m.allocPage gfpKernel).1.ttbr0 = m.ttbr0 := rfl
  have e1 : (m.allocPage gfpKernel).1.ttbr1 = m.ttbr1 := rfl
  have he : nextTable m t i = (((m.allocPage gfpKernel).1.clearPage n).setPte t i (tableProt ||| n), some n) := by
    unfold nextTable
    rw [if_pos (by simpa using hp)]
    simp only [hn, h0, if_false]
  rw [he]
  generalize (m.allocPage gfpKernel).1 = m1 at *
  have hz := h.trees.zeroPage_table hpa.1 hT
  have hw := fun r' hr' q' hq' => Trees.walk_setMem hz (r := r') hr' (q := q') hq'
  have hT' : ¬ Table (zeroPage m.mem n) m.roots n := by rwa [table_congr hw]
  have ht' : walk (child (zeroPage m.mem n)) r q = some t := by rw [hw r hr q (by omega)]; exact ht
  have hc' : child (zeroPage m.mem n) t i = none := by
    have := hw r hr (q ++ [i]) (by simp; omega)
    rwa [walk_snoc, walk_snoc, ht', ht, Option.bind_some, Option.bind_some, hc] at this
  have hL := (h.trees.setMem hz).link hpa hT' hD hr hq ht' hc' fun j => clearPage_zero m n j
  have hmem : ((m1.clearPage n).setPte t i (tableProt ||| n)).mem =
      write64 (zeroPage m.mem n) (t + 8 * i) (tableProt ||| n) := by rw [setPte_mem, clearPage_mem, hm1]
  refine ⟨n, rfl, h.keep ?_ ?_ ?_ fun r' hr' q' hq' j => ?_, ?_⟩
  · rw [setPte_ttbr0, clearPage_ttbr0, e0]
  · rw [setPte_ttbr1, clearPage_ttbr1, e1]
  · rw [hmem]; exact hL.trees
  · rw [hmem, hL.entry r' hr' q' hq' j]
    exact entryAt_setMem hz hr' (by omega) (hw r' hr' q' (by omega)) j
  · rw [hmem, hL.walk r hr _ (by simp; omega), if_pos ⟨rfl, rfl⟩]

/-- `m'` has the leaf entries of `m` except for the one of `va`, which is `v`. -/
structure Set1 (m m' : Machine) (D : Set Nat) (va v : Nat) : Prop where
  wf : WellFormed m' D
  l0Table : ∀ va, m'.l0Table va = m.l0Table va
  translate : ∀ va', m'.translate va' = if pageKey va' = pageKey va then v else m.translate va'

theorem Set1.kept {m'' : Machine} {va v : Nat} (h1 : Set1 m m' D va v) (h2 : Kept m' m'' D) : Set1 m m'' D va v :=
  ⟨h2.wf, fun va' => (h2.l0Table va').trans (h1.l0Table va'), fun va' => (h2.translate va').trans (h1.translate va')⟩

theorem Kept.set1 {m'' : Machine} {va v : Nat} (h1 : Kept m m' D) (h2 : Set1 m' m'' D va v) : Set1 m m'' D va v :=
  ⟨h2.wf, fun va' => (h2.l0Table va').trans (h1.l0Table va'), fun va' => by rw [h2.translate, h1.translate]⟩

theorem WellFormed.setLeaf (h : WellFormed m D) {va t : Nat} (ht : walk (child m.mem) (m.l0Table va) (dirs va) = some t)
    {v : Nat} (hv : v < 2 ^ 64) : Set1 m (m.setPte t (l3Index va) v) D va v := by
  obtain ⟨hw, he⟩ := h.trees.setLeaf (l0Table_mem m va) (q := dirs va) rfl ht (l3Index va) hv
  have hl : ∀ va', (m.setPte t (l3Index va) v).l0Table va' = m.l0Table va' := fun va' => by
    unfold Machine.l0Table
    rw [setPte_ttbr0, setPte_ttbr1]
  refine ⟨⟨?_, ?_, ?_⟩, hl, fun va' => ?_⟩
  · rw [roots_congr (setPte_ttbr0 _ _ _ _) (setPte_ttbr1 _ _ _ _), setPte_mem]
    exact h.trees.congr hw
  · rw [setPte_ttbr0, setPte_ttbr1]; exact h.distinct
  · rw [setPte_ttbr0, setPte_ttbr1]; exact h.nonzero
  · unfold Machine.translate
    rw [hl, setPte_mem, he _ (l0Table_mem m va') _ rfl]
    simp only [h.key_iff]

/-- With its tables supplied, mapping a page succeeds and writes the leaf entry of the address. -/
theorem WellFormed.map (h : WellFormed m D) {va pa prot : Nat} (hl : prot < 2 ^ 64)
    (hs : Supplies D m (m.l0Table va) (dirs va)) : (arm64MapOnePage m va pa prot).2 = 0 ∧
      Set1 m (arm64MapOnePage m va pa prot).1 D va (mkPte prot pa) := by
  have hr := l0Table_mem m va
  rw [show arm64MapOnePage m va pa prot = _ from mapPage_eq m pa prot (h.l0Table_ne va)]
  obtain ⟨a1, hs⟩ := hs
  obtain ⟨l1, e1, k1, w1⟩ := h.table hr (q := []) (by simp) (walk_nil _ _) a1
  obtain ⟨a2, hs⟩ := hs l1 e1
  rw [withTable_some _ e1]
  generalize (nextTable m (m.l0Table va) (l0Index va)).1 = m1 at *
  obtain ⟨l2, e2, k2, w2⟩ := k1.wf.table (k1.roots ▸ hr) (q := [l0Index va]) (by simp) w1 a2
  obtain ⟨a3, -⟩ := hs l2 e2
  rw [withTable_some _ e2]
  generalize (nextTable m1 l1 (l1Index va)).1 = m2 at *
  have k2 := k1.trans k2
  obtain ⟨l3, e3, k3, w3⟩ := k2.wf.table (k2.roots ▸ hr) (q := [l0Index va, l1Index va]) (by simp) w2 a3
  rw [withTable_some _ e3]
  generalize (nextTable m2 l2 (l2Index va)).1 = m3 at *
  have k3 := k2.trans k3
  have w3 : walk (child m3.mem) (m3.l0Table va) (dirs va) = some l3 := by rw [k3.l0Table]; exact w3
  exact ⟨rfl, k3.set1 (k3.wf.setLeaf w3 (mkPte_lt hl))⟩

/-! ## Unmapping -/

/-- Clearing the entry of an empty table and freeing the table keeps every leaf entry. -/
theorem WellFormed.dropTable (h : WellFormed m D) {r t c : Nat} {q : List Idx} (hr : r ∈ m.roots) (hq : q.length < 3)
    (ht : walk (child m.mem) r q = some t) {i : Idx} (hc : child m.mem t i = some c) (hz : m.tableEmpty c = true) :
    Kept m (m.dropTable t i c) D ∧ ∀ q' : List Idx, q'.length ≤ q.length →
      walk (child (m.dropTable t i c).mem) r q' = walk (child m.mem) r q' := by
  have hU := h.trees.unlink hr hq ht hc ((tableEmpty_iff c).mp hz)
  have hmem : (m.dropTable t i c).mem = write64 m.mem (t + 8 * i) 0 := by
    rw [Machine.dropTable, freePhysPages_mem, setPte_mem]
  rw [← hmem] at hU
  refine ⟨h.keep ?_ ?_ hU.trees hU.entry, fun q' hq' => ?_⟩
  · rw [Machine.dropTable, freePhysPages_ttbr0, setPte_ttbr0]
  · rw [Machine.dropTable, freePhysPages_ttbr1, setPte_ttbr1]
  · rw [hU.walk r hr q' (by omega), if_neg]
    rintro ⟨-, hp⟩
    have := hp.length_le
    simp at this; omega

/-- Unmapping clears the leaf entry of the address, whatever tables it frees on the way up. -/
theorem WellFormed.unmap (h : WellFormed m D) (va : Nat) (hp : ptePresent (m.translate va) = true) :
    Set1 m (arm64UnmapOnePage m va) D va 0 := by
  rcases translate_cases m va with ⟨hn, -⟩ | ⟨t1, t2, t3, h1, h2, h3, ht⟩
  · rw [hp] at hn; cases hn
  have hr := l0Table_mem m va
  rw [show arm64UnmapOnePage m va = _ from unmapPage_eq (h.l0Table_ne va) h1 h2 h3 (ht ▸ hp)]
  have w1 : walk (child m.mem) (m.l0Table va) [l0Index va] = some t1 := by rw [walk_cons h1, walk_nil]
  have w2 : walk (child m.mem) (m.l0Table va) [l0Index va, l1Index va] = some t2 := by
    rw [walk_cons h1, walk_cons h2, walk_nil]
  have w3 : walk (child m.mem) (m.l0Table va) (dirs va) = some t3 := by
    rw [dirs, walk_cons h1, walk_cons h2, walk_cons h3, walk_nil]
  -- the leaf entry is cleared
  have S1 := h.setLeaf w3 (v := 0) (by decide)
  obtain ⟨v1, -⟩ := h.trees.setLeaf hr (q := dirs va) rfl w3 (l3Index va) (v := 0) (by decide)
  rw [← setPte_mem m] at v1
  have hr1 : m.l0Table va ∈ (m.setPte t3 (l3Index va) 0).roots := by rw [← S1.l0Table]; exact l0Table_mem _ va
  generalize m.setPte t3 (l3Index va) 0 = m1 at *
  generalize m.l0Table va = r at *
  rw [← v1 r hr _ (by simp)] at w1 w2
  rw [← v1 r hr _ (by simp [dirs])] at w3
  by_cases z3 : m1.tableEmpty t3 = false
  · rw [if_pos z3]
    exact S1
  rw [if_neg z3]
  -- the leaf table is empty
  obtain ⟨K2, v2⟩ := S1.wf.dropTable hr1 (q := [l0Index va, l1Index va]) (by simp) w2
    (child_of_walk (q := [l0Index va, l1Index va]) w2 w3) (by simpa using z3)
  have hr2 := hr1
  rw [← K2.roots] at hr2
  generalize m1.dropTable t2 (l2Index va) t3 = m2 at *
  rw [← v2 _ (by simp)] at w1 w2
  by_cases z2 : m2.tableEmpty t2 = false
  · rw [if_pos z2]
    exact S1.kept K2
  rw [if_neg z2]
  obtain ⟨K3, v3⟩ := K2.wf.dropTable hr2 (q := [l0Index va]) (by simp) w1
    (child_of_walk (q := [l0Index va]) w1 w2) (by simpa using z2)
  have hr3 := hr2
  rw [← K3.roots] at hr3
  generalize m2.dropTable t1 (l1Index va) t2 = m3 at *
  rw [← v3 _ (by simp)] at w1
  by_cases z1 : m3.tableEmpty t1 = false
  · rw [if_pos z1]
    exact S1.kept (K2.trans K3)
  rw [if_neg z1]
  obtain ⟨K4, -⟩ := K3.wf.dropTable hr3 (q := []) (by simp) (walk_nil _ _)
    (child_of_walk (q := []) (walk_nil _ _) w1) (by simpa using z1)
  exact S1.kept ((K2.trans K3).trans K4)

/-! ## Runs -/

theorem physOf_mkPte {prot pa : Nat} (hv : ptePresent prot = true) (hp : PageAddr pa) :
    physOf (mkPte prot pa) = pteToPhys prot ||| pa := by
  rw [physOf, if_pos (mkPte_present hv), mkPte, pteToPhys, hp.and_mask, Nat.and_or_distrib_right, hp.and_mask]
  rfl

/-- A lookup after one entry was written. -/
theorem Set1.lookup {va v : Nat} (h : WellFormed m D) (hS : Set1 m m' D va v) (va' : Nat) :
    arm64GetPhysFromVa m' va' = if pageKey va' = pageKey va then physOf v else arm64GetPhysFromVa m va' := by
  rw [hS.wf.lookup, h.lookup, hS.translate]
  split <;> rfl

theorem WellFormed.lookup_unmap (h : WellFormed m D) (va va' : Nat) : arm64GetPhysFromVa (arm64UnmapOnePage m va) va' =
    if pageKey va' = pageKey va then 0 else arm64GetPhysFromVa m va' := by
  by_cases hp : ptePresent (m.translate va) = true
  · exact (h.unmap va hp).lookup h va'
  rw [show arm64UnmapOnePage m va = m from unmapPage_absent (h.l0Table_ne va) (by simpa using hp)]
  split
  · rename_i e
    obtain ⟨e1, e2, e3⟩ := (h.key_iff va va').mpr e
    rw [h.lookup, physOf, if_neg]
    rwa [Machine.translate, e1, e2, e3]
  · rfl

theorem WellFormed.step (h : WellFormed m D) (op : PageOp) (hok : op.Ok D m) : WellFormed (op.step m) D := by
  cases op with
  | map va pa prot => exact (h.map hok.1.2.2 hok.2).2.wf
  | unmap va =>
    by_cases hp : ptePresent (m.translate va) = true
    · exact (h.unmap va hp).wf
    · rw [PageOp.step, show arm64UnmapOnePage m va = m from unmapPage_absent (h.l0Table_ne va) (by simpa using hp)]
      exact h

theorem Refines.step {f : PageMap} (hf : Refines m f) (h : WellFormed m D) (op : PageOp) (hok : op.Ok D m) :
    Refines (op.step m) (f.step op) := by
  intro va'
  cases op with
  | map va pa prot =>
    obtain ⟨⟨hpa, hv, hl⟩, hs⟩ := hok
    rw [PageOp.step, (h.map hl hs).2.lookup h, physOf_mkPte hv hpa, PageMap.step, Function.update_apply, hf va']
    split <;> rfl
  | unmap va =>
    rw [PageOp.step, h.lookup_unmap, PageMap.step, Function.update_apply, hf va']
    split <;> rfl

theorem Refines.run {f : PageMap} (hf : Refines m f) (h : WellFormed m D) (ops : List PageOp) (hok : OkRun D m ops) :
    WellFormed (ops.foldl PageOp.step m) D ∧ Refines (ops.foldl PageOp.step m) (ops.foldl PageMap.step f) := by
  induction ops generalizing m f with
  | nil => exact ⟨h, hf⟩
  | cons op ops ih => exact ih (hf.step h op hok.1) (h.step op hok.1) hok.2

/-- In every state of every run the trees are well formed and the lookups are those of the map. -/
theorem refines_run (h : WellFormed m D) (ops : List PageOp) (hok : OkRun D m ops) :
    WellFormed (ops.foldl PageOp.step m) D ∧ Refines (ops.foldl PageOp.step m) (ops.foldl PageMap.step m.pageMap) ∧
      (∀ va pa prot, (PageOp.map va pa prot).Ok D (ops.foldl PageOp.step m) →
        (arm64MapOnePage (ops.foldl PageOp.step m) va pa prot).2 = 0) ∧
      ∀ va va', pageKey va' ≠ pageKey va →
        arm64GetPhysFromVa (arm64UnmapOnePage (ops.foldl PageOp.step m) va) va' =
          arm64GetPhysFromVa (ops.foldl PageOp.step m) va' := by
  obtain ⟨hw, hr⟩ := h.refines.run h ops hok
  refine ⟨hw, hr, fun va pa prot hop => (hw.map hop.1.2.2 hop.2).1, fun va va' hne => ?_⟩
  rw [hw.lookup_unmap, if_neg hne]

/-! ## The kernel's own allocator -/

/-- The frames that hold data. -/
def dataFrames (rf : Nat → Nat) : Set Nat := {n | ∃ p, n = pfnToPa p ∧ 0 < rf p}

theorem Owned.supplies {R : Set Nat} {K : Set (Nat × Nat)} {rf : Nat → Nat} (h : Owned m R K rf) (hR : m.roots ⊆ R)
    {r t : Nat} {s q : List Idx} (hr : r ∈ m.roots) (hq : s.length + q.length ≤ 3)
    (ht : walk (child m.mem) r s = some t) (hE : Enough m t q) : Supplies (dataFrames rf) m t q := by
  induction q generalizing m t s with
  | nil => trivial
  | cons i q ih =>
    rw [List.length_cons] at hq
    refine ⟨fun hc => ?_, fun c hn => ?_⟩
    · rcases hE with ⟨c, hc', -⟩ | ⟨-, hroom⟩
      · rw [hc] at hc'; cases hc'
      obtain ⟨p, hp⟩ := hroom.alloc h.sound gfpKernel (by decide)
      have hp' : (m.allocPage gfpKernel).2 = pfnToPa p := hp
      rcases h.alloc 0 gfpKernel with ⟨⟨e, he⟩, -⟩ | ⟨p', hpa, hN⟩
      · rw [he] at hp
        exact absurd hp.symm (pfnToPa_ne_zero p)
      obtain rfl : p = p' := pfnToPa_inj (hp.symm.trans hpa)
      obtain ⟨hT, hrf⟩ := hN.apart
      rw [hN.mem] at hT
      rw [hp']
      refine ⟨pfnToPa_ne_zero p, pfnToPa_pageAddr (hN.owned.block p 0 (Set.mem_insert _ _)).1, ?_, ?_⟩
      · rintro ⟨r', hr', q', hq', hw⟩
        exact hT ⟨r', hR hr', q', hq', hw⟩
      · rintro ⟨p', e, hp0⟩
        rw [← pfnToPa_inj e, hrf] at hp0
        omega
    · obtain ⟨hS, hw⟩ := nextTable_spec h (hR hr) (q := s) (by omega) ht i
      obtain ⟨m', c', e, hE'⟩ := nextTable_enough h (hR hr) (q := s) (by omega) ht hE
      have hroots : (nextTable m t i).1.roots = m.roots := roots_congr hS.quiet.ttbr0 hS.quiet.ttbr1
      obtain rfl : c = c' := by rw [e] at hn; exact (Option.some.inj hn).symm
      exact ih (s := s ++ [i]) hS.owned (hroots ▸ hR) (hroots ▸ hr) (by simp; omega) (hw c hn)
        (by rw [e]; exact hE')

end

/-! ## Address bits among the attributes -/

/-- The machine after `buddy_init`, with two empty level-0 tables inside the image. -/
def twoRoots : Machine := { bootMachine with ttbr0 := 0x40002000 }

theorem twoRoots_owned : Owned twoRoots twoRoots.roots ∅ fun _ => 0 :=
  bootMachine_owned (fun r hr => by
    rcases hr with rfl | rfl
    · exact ⟨⟨by unfold pageSize; decide, by decide⟩, by decide⟩
    · exact ⟨⟨by unfold twoRoots bootMachine pageSize; decide, by unfold twoRoots bootMachine; decide⟩,
        by unfold twoRoots bootMachine; decide⟩) 0x40002000

theorem twoRoots_wellFormed : WellFormed twoRoots (dataFrames fun _ => 0) := by
  refine ⟨⟨twoRoots_owned.forest, fun n hn => (twoRoots_owned.table n hn).1, ?_⟩, ?_, ?_, ?_⟩
  · rintro n - ⟨p, -, hp⟩
    exact lt_irrefl 0 hp
  all_goals unfold twoRoots bootMachine; decide

/-- The allocator after `buddy_init` supplies the tables of every first mapping. -/
theorem twoRoots_supplies (va : Nat) :
    Supplies (dataFrames fun _ => 0) twoRoots (twoRoots.l0Table va) (dirs va) :=
  twoRoots_owned.supplies (Set.Subset.refl _) (s := []) (l0Table_mem _ va) (by simp [dirs]) (walk_nil _ _)
    (Or.inr ⟨child_none_of_zero (by simp [twoRoots, bootMachine, read64]),
      bootMachine_room.le (by simp)⟩)

/-- With an address bit among the attributes the lookup is not the page that was mapped. -/
theorem address_bits_in_prot : WellFormed twoRoots (dataFrames fun _ => 0) ∧
    (PageOp.map 0x1000 0x40004000 (pageUserRw ||| 0x1000)).Ok (dataFrames fun _ => 0) twoRoots ∧
    arm64GetPhysFromVa ((PageOp.map 0x1000 0x40004000 (pageUserRw ||| 0x1000)).step twoRoots) 0x1000 = 0x40005000 := by
  have hpa : PageAddr 0x40004000 := ⟨by unfold pageSize; decide, by decide⟩
  have hv : ptePresent (pageUserRw ||| 0x1000) = true := by decide
  refine ⟨twoRoots_wellFormed, ⟨⟨hpa, hv, by decide⟩, twoRoots_supplies _⟩, ?_⟩
  rw [PageOp.step, (twoRoots_wellFormed.map (by decide) (twoRoots_supplies _)).2.lookup twoRoots_wellFormed,
    if_pos rfl, physOf_mkPte hv hpa]
  decide

/-- Map a page, unmap it, which frees its three tables. -/
theorem refines_run_mapUnmap :
    Refines ([PageOp.map 0x1000 0x40004000 pageUserRw, .unmap 0x1000].foldl PageOp.step twoRoots)
      ([PageOp.map 0x1000 0x40004000 pageUserRw, .unmap 0x1000].foldl PageMap.step twoRoots.pageMap) :=
  (refines_run twoRoots_wellFormed [.map 0x1000 0x40004000 pageUserRw, .unmap 0x1000]
    ⟨⟨⟨⟨by unfold pageSize; decide, by decide⟩, by decide, by decide⟩, twoRoots_supplies _⟩, trivial, trivial⟩).2.1

end Myos.Mm
