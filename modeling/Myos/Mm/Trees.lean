/-
  Myos.Mm.Trees — the page tables in memory as a forest.

  The tables are the nodes reached from the level-0 tables `R` by at most three edges.
  `Trees mem R D`: each is reached in one way only, lies on a page of its own that an
  entry can hold, and is none of the pages `D`.

  Proved: `Trees` through writing outside the tables, clearing a page that is no table,
  writing a leaf entry, linking a cleared page and unlinking an empty table; and what
  each of them does to every walk and to every leaf entry.
-/

import Myos.Lib.Walk
import Myos.Mm.Pgtbl

namespace Myos.Mm

open Pmm (pageSize)
open Lib.Walk

/-- Where entry `i` of the table at `t` leads. -/
def child (mem : Mem) (t : Nat) (i : Idx) : Option Nat :=
  if ptePresent (read64 mem (t + 8 * i)) then some (pteToPhys (read64 mem (t + 8 * i))) else none

/-- A table of one of the trees `R`. -/
abbrev Table (mem : Mem) (R : Set Nat) (n : Nat) : Prop := Node (child mem) R 3 n

/-- The entry at the end of a path of three edges and a leaf index, `0` where a table is missing. -/
def entryAt (mem : Mem) (r : Nat) (q : List Idx) (i : Idx) : Nat :=
  match walk (child mem) r q with
  | some t => read64 mem (t + 8 * i)
  | none => 0

structure Trees (mem : Mem) (R D : Set Nat) : Prop where
  forest : Forest (child mem) R 3
  page : ∀ n, Table mem R n → PageAddr n
  apart : ∀ n, Table mem R n → n ∉ D

/-! ## Children and entries -/

theorem child_congr {mem mem' : Mem} {t : Nat} (h : ∀ x, t ≤ x → x < t + pageSize → mem' x = mem x) (i : Idx) :
    child mem' t i = child mem t i := by
  have hi := i.isLt
  have : read64 mem' (t + 8 * i) = read64 mem (t + 8 * i) :=
    read64_congr fun x h1 h2 => h x (by omega) (by unfold pageSize; omega)
  unfold child
  rw [this]

theorem child_none_of_zero {mem : Mem} {t : Nat} {i : Idx} (h : read64 mem (t + 8 * i) = 0) : child mem t i = none := by
  have : ptePresent (read64 mem (t + 8 * i)) = false := by rw [h]; exact ptePresent_zero
  unfold child
  rw [if_neg (by rw [this]; exact Bool.false_ne_true)]

theorem entryAt_some {mem : Mem} {r t : Nat} {q : List Idx} (h : walk (child mem) r q = some t) (i : Idx) :
    entryAt mem r q i = read64 mem (t + 8 * i) := by
  unfold entryAt; rw [h]

theorem entryAt_none {mem : Mem} {r : Nat} {q : List Idx} (h : walk (child mem) r q = none) (i : Idx) :
    entryAt mem r q i = 0 := by
  unfold entryAt; rw [h]

/-- A walk of four edges is read off the leaf entry. -/
theorem walk_entry (mem : Mem) (r : Nat) (q : List Idx) (i : Idx) :
    walk (child mem) r (q ++ [i]) =
      if ptePresent (entryAt mem r q i) then some (pteToPhys (entryAt mem r q i)) else none := by
  cases hw : walk (child mem) r q with
  | none => rw [walk_none_append hw, entryAt_none hw, if_neg (by rw [ptePresent_zero]; exact Bool.false_ne_true)]
  | some t => rw [walk_snoc, hw, entryAt_some hw, Option.bind_some, child]

theorem walk_eq_of_entry {mem mem' : Mem} {r : Nat} {q : List Idx} {i : Idx}
    (h : entryAt mem' r q i = entryAt mem r q i) :
    walk (child mem') r (q ++ [i]) = walk (child mem) r (q ++ [i]) := by
  rw [walk_entry, walk_entry, h]

/-- Different pages do not overlap. -/
theorem pages_apart {a b : Nat} (ha : pageSize ∣ a) (hb : pageSize ∣ b) (hne : a ≠ b) :
    a + pageSize ≤ b ∨ b + pageSize ≤ a := by
  obtain ⟨x, rfl⟩ := ha
  obtain ⟨y, rfl⟩ := hb
  unfold pageSize at *
  rcases Nat.lt_trichotomy x y with h | h | h
  · left; omega
  · exact absurd (by rw [h]) hne
  · right; omega

/-! ## Entries of one page -/

theorem read64_setPte_page {mem : Mem} {t n : Nat} {i : Idx} {v : Nat} (ht : pageSize ∣ t) (hn : pageSize ∣ n)
    (hne : n ≠ t) (j : Idx) : read64 (write64 mem (t + 8 * i) v) (n + 8 * j) = read64 mem (n + 8 * j) := by
  have hi := i.isLt; have hj := j.isLt
  have := pages_apart hn ht hne
  unfold pageSize at this
  exact read64_write64_other mem (by omega)

theorem child_setPte_page {mem : Mem} {t n : Nat} {i : Idx} {v : Nat} (ht : pageSize ∣ t) (hn : pageSize ∣ n)
    (hne : n ≠ t) (j : Idx) : child (write64 mem (t + 8 * i) v) n j = child mem n j := by
  unfold child; rw [read64_setPte_page ht hn hne]

theorem read64_setPte_same {mem : Mem} {t : Nat} {i : Idx} {v : Nat} (hv : v < 2 ^ 64) (j : Idx) :
    read64 (write64 mem (t + 8 * i) v) (t + 8 * j) = if j = i then v else read64 mem (t + 8 * j) := by
  by_cases e : j = i
  · rw [if_pos e, e]; exact read64_write64 mem hv
  · rw [if_neg e]
    have : j.val ≠ i.val := fun h => e (Fin.ext h)
    exact read64_write64_other mem (by omega)

section

variable {mem mem' : Mem} {R D : Set Nat}

theorem table_of_walk {r t : Nat} {q : List Idx} (hr : r ∈ R) (hq : q.length ≤ 3)
    (ht : walk (child mem) r q = some t) : Table mem R t := ⟨r, hr, q, hq, ht⟩

/-- A table is reached in one way only. -/
theorem Trees.table_unique (h : Trees mem R D) {r r' t : Nat} {q q' : List Idx} (hr : r ∈ R) (hq : q.length ≤ 3)
    (ht : walk (child mem) r q = some t) (hr' : r' ∈ R) (hq' : q'.length ≤ 3)
    (ht' : walk (child mem) r' q' = some t) : r' = r ∧ q' = q :=
  h.forest.unique r' hr' r hr q' q t hq' hq ht' ht

/-! ## Writing outside the tables -/

theorem Trees.walk_setMem (hm : ∀ n, Table mem R n → ∀ x, n ≤ x → x < n + pageSize → mem' x = mem x) {r : Nat}
    (hr : r ∈ R) {q : List Idx} (hq : q.length ≤ 3) : walk (child mem') r q = walk (child mem) r q :=
  walk_congr (fun n hn => child_congr (hm n hn.node)) hr q hq

/-- The same walks to the tables give the same tables. -/
theorem table_congr (hw : ∀ r ∈ R, ∀ q : List Idx, q.length ≤ 3 → walk (child mem') r q = walk (child mem) r q)
    (n : Nat) : Table mem' R n ↔ Table mem R n := by
  constructor
  · rintro ⟨r, hr, q, hq, hn⟩
    exact ⟨r, hr, q, hq, (hw r hr q hq).symm.trans hn⟩
  · rintro ⟨r, hr, q, hq, hn⟩
    exact ⟨r, hr, q, hq, (hw r hr q hq).trans hn⟩

theorem Trees.congr (h : Trees mem R D)
    (hw : ∀ r ∈ R, ∀ q : List Idx, q.length ≤ 3 → walk (child mem') r q = walk (child mem) r q) : Trees mem' R D := by
  refine ⟨⟨fun r hr r' hr' p q n hp hq h1 h2 => ?_⟩, fun n hn => ?_, fun n hn => ?_⟩
  · rw [hw r hr p hp] at h1
    rw [hw r' hr' q hq] at h2
    exact h.forest.unique r hr r' hr' p q n hp hq h1 h2
  · exact h.page n ((table_congr hw n).mp hn)
  · exact h.apart n ((table_congr hw n).mp hn)

/-- Memory outside the tables does not matter. -/
theorem Trees.setMem (h : Trees mem R D)
    (hm : ∀ n, Table mem R n → ∀ x, n ≤ x → x < n + pageSize → mem' x = mem x) : Trees mem' R D :=
  h.congr fun _ hr _ hq => Trees.walk_setMem hm hr hq

theorem entryAt_setMem (hm : ∀ n, Table mem R n → ∀ x, n ≤ x → x < n + pageSize → mem' x = mem x)
    {r : Nat} (hr : r ∈ R) {q : List Idx} (hq : q.length ≤ 3)
    (hw : walk (child mem') r q = walk (child mem) r q) (i : Idx) : entryAt mem' r q i = entryAt mem r q i := by
  cases ht : walk (child mem) r q with
  | none => rw [entryAt_none ht, entryAt_none (hw.trans ht)]
  | some t =>
    have hi := i.isLt
    rw [entryAt_some ht, entryAt_some (hw.trans ht)]
    exact read64_congr fun x h1 h2 => hm t ⟨r, hr, q, hq, ht⟩ x (by omega) (by unfold pageSize; omega)

/-- A page that is no table does not overlap the tables. -/
theorem Trees.zeroPage_table (h : Trees mem R D) {n : Nat} (hn : pageSize ∣ n) (ht : ¬ Table mem R n) :
    ∀ t, Table mem R t → ∀ x, t ≤ x → x < t + pageSize → zeroPage mem n x = mem x := by
  intro t hT x h1 h2
  have hne : t ≠ n := by rintro rfl; exact ht hT
  have := pages_apart (h.page t hT).1 hn hne
  exact zeroPage_other (by omega)

/-! ## Writing table entries -/

/-- Writing a leaf entry changes that entry. -/
theorem Trees.setLeaf (h : Trees mem R D) {r t : Nat} {q : List Idx} (hr : r ∈ R) (hq : q.length = 3)
    (ht : walk (child mem) r q = some t) (i : Idx) {v : Nat} (hv : v < 2 ^ 64) :
    (∀ r' ∈ R, ∀ q' : List Idx, q'.length ≤ 3 →
      walk (child (write64 mem (t + 8 * i) v)) r' q' = walk (child mem) r' q') ∧
    ∀ r' ∈ R, ∀ q' : List Idx, q'.length = 3 → ∀ j,
      entryAt (write64 mem (t + 8 * i) v) r' q' j = if r' = r ∧ q' = q ∧ j = i then v else entryAt mem r' q' j := by
  have hta := (h.page t (table_of_walk hr (by omega) ht)).1
  have hc : ∀ n, Inner (child mem) R 3 n → ∀ j, child (write64 mem (t + 8 * i) v) n j = child mem n j := by
    intro n hn j
    obtain ⟨r', hr', q', hq', hn'⟩ := id hn
    apply child_setPte_page hta (h.page n hn.node).1
    rintro rfl
    have := (h.table_unique hr (by omega) ht hr' (by omega) hn').2
    rw [this] at hq'; omega
  have hw : ∀ r ∈ R, ∀ q : List Idx, q.length ≤ 3 →
      walk (child (write64 mem (t + 8 * i) v)) r q = walk (child mem) r q := fun r hr => walk_congr hc hr
  refine ⟨hw, fun r' hr' q' hq' j => ?_⟩
  have hwq := hw r' hr' q' (by omega)
  cases hn : walk (child mem) r' q' with
  | none =>
    rw [entryAt_none (hwq.trans hn), entryAt_none hn, if_neg]
    rintro ⟨rfl, rfl, -⟩
    rw [ht] at hn; cases hn
  | some n =>
    rw [entryAt_some (hwq.trans hn), entryAt_some hn]
    by_cases e : n = t
    · obtain ⟨rfl, rfl⟩ := h.table_unique hr (by omega) ht hr' (by omega) (e ▸ hn)
      subst e
      rw [read64_setPte_same hv]
      simp
    · rw [if_neg]
      · exact read64_setPte_page hta (h.page n (table_of_walk hr' (by omega) hn)).1 e j
      · rintro ⟨rfl, rfl, -⟩
        rw [ht] at hn
        exact e (by simpa using hn.symm)

/-- What linking the cleared page `n` under entry `i` of the table at the end of `q` does. -/
structure LinkedAt (mem mem' : Mem) (R D : Set Nat) (r : Nat) (q : List Idx) (i : Idx) (n : Nat) : Prop where
  trees : Trees mem' R D
  table : ∀ u, Table mem' R u ↔ u = n ∨ Table mem R u
  walk : ∀ r' ∈ R, ∀ q' : List Idx, q'.length ≤ 3 →
    walk (child mem') r' q' = if r' = r ∧ q' = q ++ [i] then some n else walk (child mem) r' q'
  entry : ∀ r' ∈ R, ∀ q' : List Idx, q'.length = 3 → ∀ j, entryAt mem' r' q' j = entryAt mem r' q' j

/-- A cleared page becomes the table under an empty entry. -/
theorem Trees.link (h : Trees mem R D) {n : Nat} (hpa : PageAddr n) (hnT : ¬ Table mem R n) (hnD : n ∉ D) {r t : Nat}
    {q : List Idx} (hr : r ∈ R) (hq : q.length < 3) (ht : walk (child mem) r q = some t) {i : Idx}
    (hi : child mem t i = none) (hz : ∀ j : Idx, read64 mem (n + 8 * j) = 0) :
    LinkedAt mem (write64 mem (t + 8 * i) (tableProt ||| n)) R D r q i n := by
  have hv : tableProt ||| n = mkPte tableProt n := by rw [mkPte, hpa.and_mask]
  have hT := table_of_walk hr (by omega) ht
  have hta := (h.page t hT).1
  have hpt : n ≠ t := by rintro rfl; exact hnT hT
  rw [hv]
  have hl : Linked (child mem) (child (write64 mem (t + 8 * i) (mkPte tableProt n))) R 3 t i n := by
    constructor
    · intro j
      rw [child_setPte_page hta hpa.1 hpt]
      exact child_none_of_zero (hz j)
    · intro u hu j
      by_cases e : u = t
      · subst e
        unfold child
        rw [read64_setPte_same (mkPte_lt tableProt_ok.lt)]
        by_cases e' : j = i
        · simp only [e', and_self, if_true, mkPte_present tableProt_ok.valid, mkPte_pteToPhys tableProt_ok hpa]
        · simp only [e', and_false, if_false]
      · rw [if_neg (fun h => e h.1)]
        exact child_setPte_page hta (h.page u hu.node).1 e j
  have hw := fun r' (hr' : r' ∈ R) => walk_linked h.forest hr hq ht hi hl hr'
  have hold : Lib.Walk.walk (child mem) r (q ++ [i]) = none := by rw [walk_snoc, ht, Option.bind_some, hi]
  have htab : ∀ u, Table (write64 mem (t + 8 * i) (mkPte tableProt n)) R u ↔ u = n ∨ Table mem R u := by
    intro u
    constructor
    · rintro ⟨r', hr', q', hq', hu⟩
      rw [hw r' hr' q' hq'] at hu
      split at hu
      · exact Or.inl (by simpa using hu.symm)
      · exact Or.inr ⟨r', hr', q', hq', hu⟩
    · rintro (rfl | ⟨r', hr', q', hq', hu⟩)
      · refine ⟨r, hr, q ++ [i], by simp; omega, ?_⟩
        rw [hw r hr (q ++ [i]) (by simp; omega), if_pos ⟨rfl, rfl⟩]
      · refine ⟨r', hr', q', hq', ?_⟩
        rw [hw r' hr' q' hq', if_neg]
        · exact hu
        · rintro ⟨rfl, rfl⟩
          rw [hold] at hu; cases hu
  refine ⟨⟨h.forest.link hr hq ht hi hnT hl, fun u hu => ?_, fun u hu => ?_⟩, htab, hw, fun r' hr' q' hq' j => ?_⟩
  · rcases (htab u).mp hu with rfl | hu
    · exact hpa
    · exact h.page u hu
  · rcases (htab u).mp hu with rfl | hu
    · exact hnD
    · exact h.apart u hu
  · have hwq := hw r' hr' q' (by omega)
    by_cases e : r' = r ∧ q' = q ++ [i]
    · rw [if_pos e] at hwq
      rw [e.1, e.2] at hwq ⊢
      rw [entryAt_some hwq, entryAt_none hold, read64_setPte_page hta hpa.1 hpt]
      exact hz j
    · rw [if_neg e] at hwq
      cases hn : Lib.Walk.walk (child mem) r' q' with
      | none => rw [entryAt_none (hwq.trans hn), entryAt_none hn]
      | some u =>
        rw [entryAt_some (hwq.trans hn), entryAt_some hn]
        apply read64_setPte_page hta (h.page u (table_of_walk hr' (by omega) hn)).1
        rintro rfl
        have := (h.table_unique hr (by omega) ht hr' (by omega) hn).2
        rw [this] at hq'; omega

/-- What unlinking the empty table `c` from entry `i` of the table at the end of `q` does. -/
structure UnlinkedAt (mem mem' : Mem) (R D : Set Nat) (r : Nat) (q : List Idx) (i : Idx) (c : Nat) : Prop where
  trees : Trees mem' R D
  table : ∀ u, Table mem' R u ↔ Table mem R u ∧ u ≠ c
  walk : ∀ r' ∈ R, ∀ q' : List Idx, q'.length ≤ 3 →
    walk (child mem') r' q' = if r' = r ∧ q ++ [i] <+: q' then none else walk (child mem) r' q'
  entry : ∀ r' ∈ R, ∀ q' : List Idx, q'.length = 3 → ∀ j, entryAt mem' r' q' j = entryAt mem r' q' j

theorem Trees.unlink (h : Trees mem R D) {r t c : Nat} {q : List Idx} (hr : r ∈ R) (hq : q.length < 3)
    (ht : walk (child mem) r q = some t) {i : Idx} (hc : child mem t i = some c)
    (hz : ∀ j : Idx, read64 mem (c + 8 * j) = 0) : UnlinkedAt mem (write64 mem (t + 8 * i) 0) R D r q i c := by
  have hta := (h.page t (table_of_walk hr (by omega) ht)).1
  have hwc : Lib.Walk.walk (child mem) r (q ++ [i]) = some c := by rw [walk_snoc, ht, Option.bind_some, hc]
  have hcz : ∀ j, child mem c j = none := fun j => child_none_of_zero (hz j)
  have hl : Unlinked (child mem) (child (write64 mem (t + 8 * i) 0)) R 3 t i := by
    intro n hn j
    by_cases e : n = t
    · subst e
      by_cases e' : j = i
      · rw [if_pos ⟨rfl, e'⟩]
        exact child_none_of_zero (by rw [read64_setPte_same (by decide), if_pos e'])
      · rw [if_neg fun h => e' h.2]
        unfold child
        rw [read64_setPte_same (by decide), if_neg e']
    · rw [if_neg (fun h => e h.1)]
      exact child_setPte_page hta (h.page n hn.node).1 e j
  have hw := fun r' (hr' : r' ∈ R) => walk_unlinked h.forest hr hq ht hl hr'
  have htab : ∀ n, Table (write64 mem (t + 8 * i) 0) R n ↔ Table mem R n ∧ n ≠ c := by
    intro n
    constructor
    · rintro ⟨r', hr', q', hq', hn⟩
      rw [hw r' hr' q' hq'] at hn
      split at hn
      · cases hn
      · rename_i hnp
        refine ⟨⟨r', hr', q', hq', hn⟩, ?_⟩
        rintro rfl
        obtain ⟨e1, e2⟩ := h.table_unique hr (by simp; omega) hwc hr' hq' hn
        exact hnp ⟨e1, e2 ▸ List.prefix_refl _⟩
    · rintro ⟨⟨r', hr', q', hq', hn⟩, hne⟩
      refine ⟨r', hr', q', hq', ?_⟩
      rw [hw r' hr' q' hq', if_neg]
      · exact hn
      · rintro ⟨rfl, s, rfl⟩
        rw [walk_append, hwc, Option.bind_some] at hn
        by_cases hs : s = []
        · subst hs; rw [walk_nil] at hn; exact hne (by simpa using hn.symm)
        · rw [walk_childless hcz hs] at hn; cases hn
  refine ⟨⟨h.forest.unlink hr hq ht hl, fun n hn => h.page n ((htab n).mp hn).1,
    fun n hn => h.apart n ((htab n).mp hn).1⟩, htab, hw, fun r' hr' q' hq' j => ?_⟩
  have hwq := hw r' hr' q' (by omega)
  split at hwq
  · rename_i e
    obtain ⟨rfl, s, rfl⟩ := e
    rw [entryAt_none hwq]
    by_cases hs : s = []
    · subst hs
      rw [List.append_nil, entryAt_some hwc, hz j]
    · rw [entryAt_none]
      rw [walk_append, hwc, Option.bind_some, walk_childless hcz hs]
  · cases hn : Lib.Walk.walk (child mem) r' q' with
    | none => rw [entryAt_none (hwq.trans hn), entryAt_none hn]
    | some n =>
      rw [entryAt_some (hwq.trans hn), entryAt_some hn]
      apply read64_setPte_page hta (h.page n (table_of_walk hr' (by omega) hn)).1
      rintro rfl
      have := (h.table_unique hr (by omega) ht hr' (by omega) hn).2
      rw [this] at hq'; omega

end

end Myos.Mm
