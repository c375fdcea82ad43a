/-
  Myos.Mm.TableFrames — the frames of the page tables over runs of `arm64_map_one_page` and
  `arm64_unmap_one_page`.

  Mapping makes the missing tables from the top down and gives up at the first it cannot
  have; unmapping frees tables from the bottom up as they become empty. Others allocate
  and free blocks of their own in between.

  Proved: in every state of every run in which a mapping finds a page for each table it
  lacks or no page at all, each table below the root has a present entry; with no page
  mapped the root is the only table.
-/

import Mathlib
import Myos.Mm.Shortage
import Myos.Mm.PageMap
import Myos.Lib.Runs

namespace Myos.Mm

open Pmm Lib.Walk Lib.Dyadic
open Lib (Reach)

/-- Each entry of the tree `r` is clear or present. -/
def Sharp (m : Machine) (r : Nat) : Prop :=
  ∀ q : List Idx, q.length ≤ 3 → ∀ n, walk (child m.mem) r q = some n → ∀ j, m.pte n j = 0 ∨ ptePresent (m.pte n j) = true

/-- Each table below the root `r` has a present entry. -/
def Alive (m : Machine) (r : Nat) : Prop :=
  ∀ q : List Idx, q ≠ [] → q.length ≤ 3 → ∀ n, walk (child m.mem) r q = some n → ∃ j, ptePresent (m.pte n j) = true

/-- The same but for the table at `q0` of the tree `r0`. -/
def AliveBut (m : Machine) (r r0 : Nat) (q0 : List Idx) : Prop :=
  ∀ q : List Idx, q ≠ [] → q.length ≤ 3 → ¬ (r = r0 ∧ q = q0) → walk (child m.mem) r q ≠ none →
    ∃ j, walk (child m.mem) r (q ++ [j]) ≠ none

section

variable {m m' : Machine} {R : Set Nat} {K : Set (Nat × Nat)} {rf : Nat → Nat} {r r0 t c va pa prot v : Nat} {q : List Idx} {i : Idx}

theorem present_iff {n : Nat} (h : walk (child m.mem) r q = some n) (j : Idx) :
    ptePresent (m.pte n j) = true ↔ walk (child m.mem) r (q ++ [j]) ≠ none := by
  rw [walk_snoc, h, Option.bind_some]
  constructor
  · intro hp
    rw [child_present hp]
    exact Option.some_ne_none _
  · intro hc
    by_contra hp
    exact hc (child_absent hp)

theorem alive_iff : Alive m r ↔ ∀ q : List Idx, q ≠ [] → q.length ≤ 3 → walk (child m.mem) r q ≠ none →
    ∃ j, walk (child m.mem) r (q ++ [j]) ≠ none := by
  constructor
  · intro h q h1 h2 hw
    obtain ⟨n, hn⟩ := Option.ne_none_iff_exists'.mp hw
    obtain ⟨j, hj⟩ := h q h1 h2 n hn
    exact ⟨j, (present_iff hn j).mp hj⟩
  · intro h q h1 h2 n hn
    obtain ⟨j, hj⟩ := h q h1 h2 (by rw [hn]; exact Option.some_ne_none n)
    exact ⟨j, (present_iff hn j).mpr hj⟩

theorem Alive.but (h : Alive m r) (r0 : Nat) (q0 : List Idx) : AliveBut m r r0 q0 := fun q h1 h2 _ => alive_iff.1 h q h1 h2

/-- The root may be empty. -/
theorem AliveBut.root (h : AliveBut m r r0 []) : Alive m r :=
  alive_iff.2 fun q h1 h2 => h q h1 h2 fun e => h1 e.2

theorem walk_prefix {s : List Idx} (h : walk (child m.mem) r (q ++ s) ≠ none) : walk (child m.mem) r q ≠ none := by
  intro hn
  exact h (walk_none_append hn s)

/-! ## Entries -/

theorem read64_zeroPage_page {mem : Mem} {n p : Nat} (hn : pageSize ∣ n) (hp : pageSize ∣ p) (hne : n ≠ p) (j : Idx) :
    read64 (zeroPage mem p) (n + 8 * j) = read64 mem (n + 8 * j) := by
  have hj := j.isLt
  have := pages_apart hn hp hne
  refine read64_congr fun x h1 h2 => zeroPage_other ?_
  unfold pageSize at *
  omega

/-- Writing an entry of a table, without a new table. -/
theorem Sharp.write (hs : Sharp m r) (h : Owned m R K rf) (hr : r ∈ R) (hT : Table m.mem R t) (hv : v < 2 ^ 64)
    (h0 : v = 0 ∨ ptePresent v = true) (hm : m'.mem = write64 m.mem (t + 8 * i) v)
    (hw : ∀ q : List Idx, q.length ≤ 3 → ∀ n, walk (child m'.mem) r q = some n → walk (child m.mem) r q = some n) : Sharp m' r := by
  intro q hq n hn j
  have hn' := hw q hq n hn
  have hpn := (h.table n ⟨r, hr, q, hq, hn'⟩).1.1
  have hold := hs q hq n hn' j
  unfold Machine.pte at *
  rw [hm]
  by_cases hnt : n = t
  · rw [hnt, read64_setPte_same hv]
    split
    · exact h0
    · rw [← hnt]
      exact hold
  · rw [read64_setPte_page (h.table t hT).1.1 hpn hnt]
    exact hold

theorem nextTable_mem (hc : child m.mem t i = none) (he : nextTable m t i = (m', some c)) :
    m'.mem = write64 (zeroPage m.mem c) (t + 8 * i) (tableProt ||| c) := by
  unfold nextTable at he
  rw [if_pos (by simpa using child_none hc)] at he
  dsimp only at he
  split at he
  · cases he
  · obtain ⟨h1, h2⟩ := Prod.mk.inj he
    cases h2
    rw [← h1, setPte_mem, clearPage_mem]
    rfl

theorem Sharp.nextTable (hs : Sharp m r) (h : Owned m R K rf) (hr : r ∈ R) (hr0 : r0 ∈ R) (hq : q.length < 3)
    (ht : walk (child m.mem) r0 q = some t) (i : Idx) : Sharp (nextTable m t i).1 r := by
  rcases nextTable_cases h hr0 hq ht i with ⟨c, -, he⟩ | ⟨-, e, he, -⟩ | ⟨hc, p, m', he, ho, -, hw, hz, -⟩
  · rw [he]
    exact hs
  · rw [he]
    exact hs
  rw [he]
  have hm := nextTable_mem hc he
  have hnew : walk (child m'.mem) r0 (q ++ [i]) = some (pfnToPa p) := by
    rw [hw r0 hr0 _ (by simp; omega), if_pos ⟨rfl, rfl⟩]
  have hpa := (ho.table _ ⟨r0, hr0, q ++ [i], by simp; omega, hnew⟩).1
  have hta := (h.table t ⟨r0, hr0, q, by omega, ht⟩).1.1
  have ht' : walk (child m'.mem) r0 q = some t := by
    rw [hw r0 hr0 q (by omega), if_neg fun e => by simpa using congrArg List.length e.2]
    exact ht
  -- the new page is at one place only
  have hplace : ∀ r' ∈ R, ∀ q' : List Idx, q'.length ≤ 3 → walk (child m'.mem) r' q' = some (pfnToPa p) → r' = r0 ∧ q' = q ++ [i] :=
    fun r' hr' q' hq' hn => ho.table_unique hr0 (by simp; omega) hnew hr' hq' hn
  have htp : t ≠ pfnToPa p := by
    intro e
    have := (hplace r0 hr0 q (by omega) (by rw [ht', e])).2
    simpa using congrArg List.length this
  have hv : ptePresent (tableProt ||| pfnToPa p) = true := by
    rw [show tableProt ||| pfnToPa p = mkPte tableProt (pfnToPa p) by rw [mkPte, hpa.and_mask]]
    exact mkPte_present (by decide)
  have hlt : tableProt ||| pfnToPa p < 2 ^ 64 := Nat.or_lt_two_pow (by decide) (lt_trans hpa.2 (by decide))
  intro q' hq' n hn j
  by_cases hnp : n = pfnToPa p
  · rw [hnp]
    exact Or.inl (hz j)
  · have hold : walk (child m.mem) r q' = some n := by
      rw [hw r hr q' hq'] at hn
      split at hn
      · exact absurd (Option.some.inj hn).symm hnp
      · exact hn
    have hna := (h.table n ⟨r, hr, q', hq', hold⟩).1.1
    have hs' := hs q' hq' n hold j
    unfold Machine.pte at *
    dsimp only
    rw [hm]
    by_cases hnt : n = t
    · rw [hnt, read64_setPte_same hlt]
      split
      · exact Or.inr hv
      · rw [read64_zeroPage_page hta hpa.1 htp, ← hnt]
        exact hs'
    · rw [read64_setPte_page hta hna hnt, read64_zeroPage_page hna hpa.1 hnp]
      exact hs'

/-! ## Mapping -/

theorem mapPage_sharp (hs : Sharp m r) (h : Owned m R K rf) (hr : r ∈ R) (hr0 : m.l0Table va ∈ R) (hp : prot < 2 ^ 64)
    (hv : ptePresent prot = true) : Sharp (mapPage m va pa prot).1 r := by
  by_cases h0 : m.l0Table va = 0
  · have he : mapPage m va pa prot = (m, -1) := if_pos h0
    rw [he]
    exact hs
  rw [mapPage_eq m pa prot h0]
  obtain ⟨s1, w1⟩ := nextTable_spec h hr0 (q := []) (by simp) (walk_nil _ _) (l0Index va)
  have p1 := hs.nextTable h hr hr0 (q := []) (by simp) (walk_nil _ _) (l0Index va)
  generalize nextTable m (m.l0Table va) (l0Index va) = r1 at *
  cases e1 : r1.2 with
  | none =>
    rw [(withTable_none _ e1).1]
    exact p1
  | some l1 =>
    rw [withTable_some _ e1]
    obtain ⟨s2, w2⟩ := nextTable_spec s1.owned hr0 (q := [l0Index va]) (by simp) (w1 l1 e1) (l1Index va)
    have p2 := p1.nextTable s1.owned hr hr0 (q := [l0Index va]) (by simp) (w1 l1 e1) (l1Index va)
    generalize nextTable r1.1 l1 (l1Index va) = r2 at *
    cases e2 : r2.2 with
    | none =>
      rw [(withTable_none _ e2).1]
      exact p2
    | some l2 =>
      rw [withTable_some _ e2]
      obtain ⟨s3, w3⟩ := nextTable_spec s2.owned hr0 (q := [l0Index va, l1Index va]) (by simp) (w2 l2 e2) (l2Index va)
      have p3 := p2.nextTable s2.owned hr hr0 (q := [l0Index va, l1Index va]) (by simp) (w2 l2 e2) (l2Index va)
      generalize nextTable r2.1 l2 (l2Index va) = r3 at *
      cases e3 : r3.2 with
      | none =>
        rw [(withTable_none _ e3).1]
        exact p3
      | some l3 =>
        rw [withTable_some _ e3]
        have hw : walk (child r3.1.mem) (m.l0Table va) (dirs va) = some l3 := w3 l3 e3
        have hwalk := (s3.owned.setLeaf hr0 rfl hw (l3Index va) (show mkPte prot pa < 2 ^ 64 from mkPte_lt hp)).2.2
        show Sharp (r3.1.setPte l3 (l3Index va) (mkPte prot pa)) r
        refine p3.write s3.owned hr ⟨_, hr0, dirs va, by simp [dirs], hw⟩ (mkPte_lt hp)
          (Or.inr (mkPte_present hv)) (setPte_mem _ _ _ _) fun q hq n hn => ?_
        rwa [hwalk r hr q hq] at hn

/-- Where a page was mapped each table on the way has an entry. -/
theorem Alive.mapped (ha : Alive m r) (hr : r ∈ R) (hg : Grew R m m' r0 (dirs va)) (hW : Wrote R rf m m' r0 (dirs va) (l3Index va) v)
    (hv : ptePresent v = true) : Alive m' r := by
  rw [alive_iff] at ha ⊢
  intro q h1 h2 hw
  by_cases hp : r = r0 ∧ q <+: dirs va
  · obtain ⟨rfl, s, hs⟩ := hp
    have hleaf : walk (child m'.mem) r (dirs va ++ [l3Index va]) ≠ none := by
      have he := hW.entry r hr (dirs va) rfl (l3Index va)
      rw [if_pos ⟨rfl, rfl, rfl⟩] at he
      rw [walk_entry, he, if_pos hv]
      exact Option.some_ne_none _
    cases s with
    | nil =>
      rw [List.append_nil] at hs
      rw [hs]
      exact ⟨_, hleaf⟩
    | cons j s =>
      refine ⟨j, walk_prefix (s := s ++ [l3Index va]) ?_⟩
      rw [← hs] at hleaf
      simpa using hleaf
  · rw [hg r hr q h2 fun e => hp ⟨e.1, e.2.2⟩] at hw
    obtain ⟨j, hj⟩ := ha q h1 h2 hw
    refine ⟨j, ?_⟩
    rcases Nat.lt_or_eq_of_le h2 with hlt | heq
    · rw [hg r hr (q ++ [j]) (by simp; omega) fun e => hp ⟨e.1, (List.prefix_append q [j]).trans e.2.2⟩]
      exact hj
    · have he := hW.entry r hr q heq j
      rw [if_neg fun e : r = r0 ∧ q = dirs va ∧ j = l3Index va => hp ⟨e.1, e.2.1 ▸ List.prefix_refl _⟩] at he
      rw [walk_eq_of_entry he]
      exact hj

/-- Without a free page no table is made. -/
theorem nextTable_noRoom (h : Owned m R K rf) (hr0 : r0 ∈ R) (hq : q.length < 3) (ht : walk (child m.mem) r0 q = some t)
    (hno : ¬ Room m.pmm 1) (i : Idx) : (nextTable m t i).1.mem = m.mem ∧ ¬ Room (nextTable m t i).1.pmm 1 := by
  rcases nextTable_cases h hr0 hq ht i with ⟨c, -, he⟩ | ⟨-, e, he, -⟩ | ⟨-, p, m', -, -, -, -, -, hA⟩
  · rw [he]
    exact ⟨rfl, hno⟩
  · rw [he]
    exact ⟨rfl, fun hR => hno ((Room.setError_iff e).mp hR)⟩
  · exact absurd ((Room.alloc_iff hA).mpr (Room.zero _)) hno

theorem mapPage_noRoom (h : Owned m R K rf) (hr0 : m.l0Table va ∈ R) (hno : ¬ Room m.pmm 1) (hf : (mapPage m va pa prot).2 ≠ 0) :
    (mapPage m va pa prot).1.mem = m.mem := by
  by_cases h0 : m.l0Table va = 0
  · have he : mapPage m va pa prot = (m, -1) := if_pos h0
    rw [he]
  rw [mapPage_eq m pa prot h0] at hf ⊢
  obtain ⟨s1, w1⟩ := nextTable_spec h hr0 (q := []) (by simp) (walk_nil _ _) (l0Index va)
  obtain ⟨m1, n1⟩ := nextTable_noRoom h hr0 (q := []) (by simp) (walk_nil _ _) hno (l0Index va)
  generalize nextTable m (m.l0Table va) (l0Index va) = r1 at *
  cases e1 : r1.2 with
  | none =>
    rw [(withTable_none _ e1).1]
    exact m1
  | some l1 =>
    rw [withTable_some _ e1] at hf ⊢
    obtain ⟨s2, w2⟩ := nextTable_spec s1.owned hr0 (q := [l0Index va]) (by simp) (w1 l1 e1) (l1Index va)
    obtain ⟨m2, n2⟩ := nextTable_noRoom s1.owned hr0 (q := [l0Index va]) (by simp) (w1 l1 e1) n1 (l1Index va)
    generalize nextTable r1.1 l1 (l1Index va) = r2 at *
    cases e2 : r2.2 with
    | none =>
      rw [(withTable_none _ e2).1, m2, m1]
    | some l2 =>
      rw [withTable_some _ e2] at hf ⊢
      obtain ⟨m3, -⟩ := nextTable_noRoom s2.owned hr0 (q := [l0Index va, l1Index va]) (by simp) (w2 l2 e2) n2 (l2Index va)
      generalize nextTable r2.1 l2 (l2Index va) = r3 at *
      cases e3 : r3.2 with
      | none =>
        rw [(withTable_none _ e3).1, m3, m2, m1]
      | some l3 =>
        rw [withTable_some _ e3] at hf
        exact absurd rfl hf

/-- A mapping that finds a page for each table it lacks, or no page at all. -/
theorem Alive.map (ha : Alive m r) (h : Owned m R K rf) (hr : r ∈ R) (hr0 : m.l0Table va ∈ R) (hp : prot < 2 ^ 64)
    (hv : ptePresent prot = true) (hroom : Room m.pmm (missing m (m.l0Table va) (dirs va)) ∨ ¬ Room m.pmm 1) :
    Alive (mapPage m va pa prot).1 r := by
  have hsame : ∀ {m' : Machine}, m'.mem = m.mem → Alive m' r := by
    intro m' hm q h1 h2 n hn
    unfold Machine.pte
    rw [hm] at hn ⊢
    exact ha q h1 h2 n hn
  by_cases h0 : m.l0Table va = 0
  · have he : mapPage m va pa prot = (m, -1) := if_pos h0
    exact hsame (by rw [he])
  by_cases hs : (mapPage m va pa prot).2 = 0
  · rcases (mapPage_spec h hr0 hp : (mapPage m va pa prot).2 = -1 ∧ _ ∨ _) with ⟨hne, -⟩ | ⟨-, -, hW⟩
    · rw [hs] at hne
      cases hne
    · exact ha.mapped hr (mapPage_grows h hr0 hp).1 hW (mkPte_present hv)
  · rcases hroom with hroom | hno
    · exact absurd ((mapPage_shortage h pa hr0 h0 hp).2.mpr hroom) hs
    · exact hsame (mapPage_noRoom h hr0 hno hs)

/-! ## Unmapping -/

theorem Alive.clear (ha : Alive m r) (h : Owned m R K rf) (hr : r ∈ R) (hr0 : r0 ∈ R) (hq : q.length = 3)
    (ht : walk (child m.mem) r0 q = some t) (i : Idx) : AliveBut (m.setPte t i 0) r r0 q := by
  obtain ⟨-, he, hw⟩ := h.setLeaf hr0 hq ht i (v := 0) (by decide)
  intro q' h1 h2 hne hn
  rw [hw r hr q' h2] at hn
  obtain ⟨j, hj⟩ := alive_iff.1 ha q' h1 h2 hn
  refine ⟨j, ?_⟩
  rcases Nat.lt_or_eq_of_le h2 with hlt | heq
  · rw [hw r hr (q' ++ [j]) (by simp; omega)]
    exact hj
  · have he := he r hr q' heq j
    rw [if_neg fun e => hne ⟨e.1, e.2.1⟩] at he
    rw [walk_eq_of_entry he]
    exact hj

/-- Freeing an empty table leaves the table above it to be looked at. -/
theorem AliveBut.drop (ha : AliveBut m r r0 (q ++ [i])) (h : Owned m R K rf) (hr : r ∈ R) (hr0 : r0 ∈ R) (hq : q.length < 3)
    (ht : walk (child m.mem) r0 q = some t) (hc : walk (child m.mem) r0 (q ++ [i]) = some c) (hz : m.tableEmpty c = true) :
    AliveBut (m.dropTable t i c) r r0 q := by
  have hU := h.trees.unlink hr0 hq ht (child_of_walk ht hc) ((tableEmpty_iff c).mp hz)
  have hm : (m.dropTable t i c).mem = write64 m.mem (t + 8 * i) 0 := by
    rw [Machine.dropTable, freePhysPages_mem, setPte_mem]
  rw [← hm] at hU
  intro q' h1 h2 hne hn
  rw [hU.walk r hr q' h2] at hn
  split at hn
  · exact absurd rfl hn
  rename_i hnp
  obtain ⟨j, hj⟩ := ha q' h1 h2 (fun e => hnp ⟨e.1, e.2 ▸ List.prefix_refl _⟩) hn
  refine ⟨j, ?_⟩
  rcases Nat.lt_or_eq_of_le h2 with hlt | heq
  · rw [hU.walk r hr (q' ++ [j]) (by simp; omega), if_neg]
    · exact hj
    · rintro ⟨e, hp⟩
      rcases List.prefix_concat_iff.mp hp with hp | hp
      · exact hne ⟨e, (List.append_inj_left' hp rfl).symm⟩
      · exact hnp ⟨e, hp⟩
  · rw [walk_eq_of_entry (hU.entry r hr q' heq j)]
    exact hj

theorem Sharp.drop (hs : Sharp m r) (h : Owned m R K rf) (hr : r ∈ R) (hr0 : r0 ∈ R) (hq : q.length < 3)
    (ht : walk (child m.mem) r0 q = some t) (hc : walk (child m.mem) r0 (q ++ [i]) = some c) (hz : m.tableEmpty c = true) :
    Sharp (m.dropTable t i c) r := by
  have hU := h.trees.unlink hr0 hq ht (child_of_walk ht hc) ((tableEmpty_iff c).mp hz)
  have hm : (m.dropTable t i c).mem = write64 m.mem (t + 8 * i) 0 := by
    rw [Machine.dropTable, freePhysPages_mem, setPte_mem]
  rw [← hm] at hU
  refine hs.write h hr ⟨r0, hr0, q, by omega, ht⟩ (by decide) (Or.inl rfl) hm fun q' hq' n hn => ?_
  rw [hU.walk r hr q' hq'] at hn
  split at hn
  · cases hn
  · exact hn

/-- A table that is not empty has a present entry. -/
theorem AliveBut.settle (ha : AliveBut m r r0 q) (hs : Sharp m r) (hq : q.length ≤ 3) (ht : walk (child m.mem) r0 q = some t)
    (hz : m.tableEmpty t = false) : Alive m r := by
  refine alive_iff.2 fun q' h1 h2 hn => ?_
  by_cases e : r = r0 ∧ q' = q
  · obtain ⟨rfl, rfl⟩ := e
    have hex : ∃ j, m.pte t j ≠ 0 := by
      by_contra hno
      push Not at hno
      rw [(tableEmpty_iff t).mpr hno] at hz
      cases hz
    obtain ⟨j, hj⟩ := hex
    refine ⟨j, (present_iff ht j).mp ?_⟩
    rcases hs q' h2 t ht j with h0 | hp
    · exact absurd h0 hj
    · exact hp
  · exact ha q' h1 h2 e hn

/-- Unmapping frees each table it leaves empty. -/
theorem Alive.unmap (ha : Alive m r) (hs : Sharp m r) (h : Owned m R K rf) (hr : r ∈ R) (hr0 : m.l0Table va ∈ R) (h0 : m.l0Table va ≠ 0)
    (hp : ptePresent (m.translate va) = true) : Alive (unmapPage m va) r ∧ Sharp (unmapPage m va) r := by
  rcases translate_cases m va with ⟨hn, -⟩ | ⟨t1, t2, t3, h1, h2, h3, ht⟩
  · rw [hp] at hn
    cases hn
  rw [unmapPage_eq h0 h1 h2 h3 (ht ▸ hp)]
  generalize m.l0Table va = r0 at *
  have w1 : walk (child m.mem) r0 [l0Index va] = some t1 := by rw [walk_cons h1, walk_nil]
  have w2 : walk (child m.mem) r0 [l0Index va, l1Index va] = some t2 := by rw [walk_cons h1, walk_cons h2, walk_nil]
  have w3 : walk (child m.mem) r0 (dirs va) = some t3 := by rw [dirs, walk_cons h1, walk_cons h2, walk_cons h3, walk_nil]
  -- the leaf entry is cleared
  obtain ⟨o1, -, v1⟩ := h.setLeaf hr0 rfl w3 (l3Index va) (v := 0) (by decide)
  have A1 := ha.clear h hr hr0 rfl w3 (l3Index va)
  have S1 : Sharp (m.setPte t3 (l3Index va) 0) r := by
    refine hs.write h hr ⟨r0, hr0, dirs va, by simp [dirs], w3⟩ (by decide) (Or.inl rfl) (setPte_mem _ _ _ _) fun q hq n hn => ?_
    rwa [v1 r hr q hq] at hn
  generalize m.setPte t3 (l3Index va) 0 = m1 at *
  rw [← v1 r0 hr0 _ (by simp)] at w1 w2
  rw [← v1 r0 hr0 _ (by simp [dirs])] at w3
  by_cases z3 : m1.tableEmpty t3 = false
  · rw [if_pos z3]
    exact ⟨A1.settle S1 (by simp [dirs]) w3 z3, S1⟩
  rw [if_neg z3]
  replace z3 : m1.tableEmpty t3 = true := by simpa using z3
  -- the leaf table is empty
  have D2 := o1.dropStep hr0 (q := [l0Index va, l1Index va]) (by simp) w2 w3 z3
  have A2 := AliveBut.drop (q := [l0Index va, l1Index va]) A1 o1 hr hr0 (by simp) w2 w3 z3
  have S2 := S1.drop (q := [l0Index va, l1Index va]) o1 hr hr0 (by simp) w2 w3 z3
  generalize m1.dropTable t2 (l2Index va) t3 = m2 at *
  rw [← D2.above _ (by simp)] at w1 w2
  by_cases z2 : m2.tableEmpty t2 = false
  · rw [if_pos z2]
    exact ⟨A2.settle S2 (by simp) w2 z2, S2⟩
  rw [if_neg z2]
  replace z2 : m2.tableEmpty t2 = true := by simpa using z2
  have o2 := D2.step.owned
  have D3 := o2.dropStep hr0 (q := [l0Index va]) (by simp) w1 w2 z2
  have A3 := AliveBut.drop (q := [l0Index va]) A2 o2 hr hr0 (by simp) w1 w2 z2
  have S3 := S2.drop (q := [l0Index va]) o2 hr hr0 (by simp) w1 w2 z2
  generalize m2.dropTable t1 (l1Index va) t2 = m3 at *
  rw [← D3.above _ (by simp)] at w1
  by_cases z1 : m3.tableEmpty t1 = false
  · rw [if_pos z1]
    exact ⟨A3.settle S3 (by simp) w1 z1, S3⟩
  rw [if_neg z1]
  replace z1 : m3.tableEmpty t1 = true := by simpa using z1
  have o3 := D3.step.owned
  have A4 := AliveBut.drop (q := []) A3 o3 hr hr0 (by simp) (walk_nil _ _) w1 z1
  exact ⟨A4.root, S3.drop (q := []) o3 hr hr0 (by simp) (walk_nil _ _) w1 z1⟩

end

/-! ## Runs -/

/-- Pages are mapped and unmapped; others allocate blocks and free them. -/
inductive TableOp where
  | map (va pa prot : Nat)
  | unmap (va : Nat)
  | take (order flags : Nat)
  | give (p k : Nat)

/-- The machine, the blocks of the others and the places that were mapped and not unmapped. -/
structure TableRun where
  machine : Machine
  held : Finset (Nat × Nat)
  mapped : Finset (Nat × List Idx × Idx)

/-- The root, the directory indices and the leaf index of an address. -/
def Machine.place (m : Machine) (va : Nat) : Nat × List Idx × Idx := (m.l0Table va, dirs va, l3Index va)

def TableRun.step (s : TableRun) : TableOp → Option TableRun
  | .map va pa prot =>
    let r := mapPage s.machine va pa prot
    some { s with machine := r.1, mapped := if r.2 = 0 then insert (s.machine.place va) s.mapped else s.mapped }
  | .unmap va => some { s with machine := unmapPage s.machine va, mapped := s.mapped.erase (s.machine.place va) }
  | .take order flags =>
    let r := allocPhysPages s.machine.pmm order flags
    some { s with machine := { s.machine with pmm := r.1 }, held := if r.2 = 0 then s.held else insert (paToPfn r.2, order) s.held }
  | .give p k => if (p, k) ∈ s.held then some { s with machine := s.machine.freePhysPages (pfnToPa p) k, held := s.held.erase (p, k) } else none

/-- The tree `r` is empty. -/
structure TableRun.Start (R : Set Nat) (rf : Nat → Nat) (r : Nat) (s : TableRun) : Prop where
  owned : Owned s.machine R s.held rf
  root : r ∈ R ∧ r ≠ 0
  roots : s.machine.roots ⊆ R
  empty : ∀ j, s.machine.pte r j = 0

/-- The protection of a page is a valid one. -/
def TableOp.Valid (_ : TableRun) : TableOp → Prop
  | .map _ _ prot => prot < 2 ^ 64 ∧ ptePresent prot = true
  | _ => True

/-- And a mapping finds a page for each table it lacks or no page at all. -/
def TableOp.Supplied (s : TableRun) : TableOp → Prop
  | .map va pa prot => (TableOp.map va pa prot).Valid s ∧
      (Room s.machine.pmm (missing s.machine (s.machine.l0Table va) (dirs va)) ∨ ¬ Room s.machine.pmm 1)
  | _ => True

/-- What holds of every state of a run. -/
structure TableRun.Kept (R : Set Nat) (rf : Nat → Nat) (r : Nat) (s : TableRun) : Prop where
  owned : Owned s.machine R s.held rf
  root : r ∈ R ∧ r ≠ 0
  roots : s.machine.roots ⊆ R
  sharp : Sharp s.machine r
  mapped : ∀ q : List Idx, q.length = 3 → ∀ i, ptePresent (entryAt s.machine.mem r q i) = true → (r, q, i) ∈ s.mapped

section

variable {R : Set Nat} {rf : Nat → Nat} {r : Nat} {s s' : TableRun}

theorem TableRun.Start.childless (h : s.Start R rf r) {q : List Idx} (hq : q ≠ []) : walk (child s.machine.mem) r q = none :=
  walk_childless (fun i => child_none_of_zero (h.empty i)) hq

theorem TableRun.Start.alive (h : s.Start R rf r) : Alive s.machine r := by
  intro q hq _ n hn
  rw [h.childless hq] at hn
  cases hn

theorem TableRun.Start.kept (h : s.Start R rf r) : s.Kept R rf r := by
  refine ⟨h.owned, h.root, h.roots, fun q _ n hn j => ?_, fun q hq i hp => ?_⟩
  · by_cases hq : q = []
    · subst hq
      rw [walk_nil] at hn
      obtain rfl := Option.some.inj hn
      exact Or.inl (h.empty j)
    · rw [h.childless hq] at hn
      cases hn
  · rw [entryAt_none (h.childless fun e => by simp [e] at hq), ptePresent_zero] at hp
    cases hp

theorem TableRun.Kept.table_mem (h : s.Kept R rf r) (va : Nat) : s.machine.l0Table va ∈ R := h.roots (l0Table_mem _ va)

/-- A step of the others leaves the memory as it is. -/
theorem TableRun.Kept.others (h : s.Kept R rf r) (ho : Owned s'.machine R s'.held rf) (hm : s'.machine.mem = s.machine.mem)
    (h0 : s'.machine.ttbr0 = s.machine.ttbr0) (h1 : s'.machine.ttbr1 = s.machine.ttbr1) (hp : s'.mapped = s.mapped) : s'.Kept R rf r := by
  refine ⟨ho, h.root, ?_, ?_, ?_⟩
  · rw [roots_congr h0 h1]
    exact h.roots
  · intro q hq n hn j
    unfold Machine.pte
    rw [hm] at hn ⊢
    exact h.sharp q hq n hn j
  · rw [hm, hp]
    exact h.mapped

theorem TableRun.Kept.step_map (h : s.Kept R rf r) {va pa prot : Nat} (hv : (TableOp.map va pa prot).Valid s)
    (he : s.step (.map va pa prot) = some s') : s'.Kept R rf r := by
  obtain ⟨hp, hv⟩ := hv
  have hr0 := h.table_mem va
  have hs : Sharp (mapPage s.machine va pa prot).1 r := mapPage_sharp h.sharp h.owned h.root.1 hr0 hp hv
  have hspec : (mapPage s.machine va pa prot).2 = -1 ∧ _ ∨ _ := mapPage_spec h.owned hr0 hp
  unfold TableRun.step at he
  dsimp only at he
  obtain rfl := Option.some.inj he
  rcases hspec with ⟨hf, hS⟩ | ⟨hf, ho, hW⟩
  · refine ⟨hS.owned, h.root, ?_, hs, fun q hq i hp => ?_⟩
    · dsimp only
      rw [roots_congr hS.quiet.ttbr0 hS.quiet.ttbr1]
      exact h.roots
    · dsimp only at hp ⊢
      rw [hS.quiet.entry r h.root.1 q hq i] at hp
      rw [if_neg (by rw [hf]; decide)]
      exact h.mapped q hq i hp
  · refine ⟨ho, h.root, ?_, hs, fun q hq i hp => ?_⟩
    · dsimp only
      rw [roots_congr hW.ttbr0 hW.ttbr1]
      exact h.roots
    · dsimp only at hp ⊢
      rw [hW.entry r h.root.1 q hq i] at hp
      rw [if_pos hf]
      split at hp
      · rename_i e
        obtain ⟨rfl, rfl, rfl⟩ := e
        exact Finset.mem_insert_self _ _
      · exact Finset.mem_insert_of_mem (h.mapped q hq i hp)

theorem TableRun.Kept.step_unmap (h : s.Kept R rf r) {va : Nat} (ha : Alive s.machine r) (he : s.step (.unmap va) = some s') :
    s'.Kept R rf r ∧ Alive s'.machine r := by
  have hr0 := h.table_mem va
  obtain rfl := Option.some.inj he
  -- nothing of the tree changes
  have absent : unmapPage s.machine va = s.machine →
      (r = s.machine.l0Table va → ptePresent (s.machine.translate va) = false) →
      ({ s with machine := unmapPage s.machine va, mapped := s.mapped.erase (s.machine.place va) } : TableRun).Kept R rf r ∧
        Alive (unmapPage s.machine va) r := by
    intro hu hn
    rw [hu]
    refine ⟨⟨h.owned, h.root, h.roots, h.sharp, fun q hq i hp => Finset.mem_erase.mpr ⟨fun e => ?_, h.mapped q hq i hp⟩⟩, ha⟩
    obtain ⟨rfl, rfl, rfl⟩ : r = s.machine.l0Table va ∧ q = dirs va ∧ i = l3Index va := by simpa [Machine.place] using e
    have := hn rfl
    rw [Machine.translate, hp] at this
    cases this
  by_cases h0 : s.machine.l0Table va = 0
  · exact absent (if_pos h0) fun e => absurd (e.trans h0) h.root.2
  by_cases hp : ptePresent (s.machine.translate va) = true
  · obtain ⟨hU, -⟩ := unmapPage_kept h.owned hr0 h0 hp
    obtain ⟨hA, hS⟩ := ha.unmap h.sharp h.owned h.root.1 hr0 h0 hp
    refine ⟨⟨hU.owned, h.root, ?_, hS, fun q hq i hp => ?_⟩, hA⟩
    · dsimp only
      rw [roots_congr hU.wrote.ttbr0 hU.wrote.ttbr1]
      exact h.roots
    · dsimp only at hp ⊢
      rw [hU.wrote.entry r h.root.1 q hq i] at hp
      split at hp
      · rw [ptePresent_zero] at hp
        cases hp
      · rename_i hne
        refine Finset.mem_erase.mpr ⟨fun e => hne ?_, h.mapped q hq i hp⟩
        simpa [Machine.place] using e
  · replace hp : ptePresent (s.machine.translate va) = false := by simpa using hp
    exact absent (unmapPage_absent h0 hp) fun _ => hp

theorem TableRun.Kept.step_take (h : s.Kept R rf r) {order flags : Nat} (he : s.step (.take order flags) = some s') :
    s'.Kept R rf r := by
  unfold TableRun.step at he
  dsimp only at he
  obtain rfl := Option.some.inj he
  refine h.others ?_ rfl rfl rfl rfl
  dsimp only
  rcases h.owned.alloc order flags with ⟨⟨e, he⟩, -⟩ | ⟨p, hp, hN⟩
  · rw [he, if_pos rfl]
    exact h.owned.setError e
  · rw [hp, if_neg (pfnToPa_ne_zero p), (paToPfn_used (hN.owned.block p order (Set.mem_insert _ _))).1, Finset.coe_insert]
    exact hN.owned

theorem TableRun.Kept.step_give (h : s.Kept R rf r) {p k : Nat} (he : s.step (.give p k) = some s') : s'.Kept R rf r := by
  unfold TableRun.step at he
  dsimp only at he
  split at he
  swap
  · cases he
  rename_i hb
  obtain rfl := Option.some.inj he
  refine h.others ?_ (freePhysPages_mem _ _ _) (freePhysPages_ttbr0 _ _ _) (freePhysPages_ttbr1 _ _ _) rfl
  dsimp only
  have hi : (s.held : Set (Nat × Nat)) = insert (p, k) ↑(s.held.erase (p, k)) := by
    rw [← Finset.coe_insert, Finset.insert_erase hb]
  have ho := h.owned
  rw [hi] at ho
  exact (ho.freeBlock (by simp)).1

/-- One step of a run. -/
theorem TableRun.Kept.step (h : s.Kept R rf r) (ha : Alive s.machine r) {op : TableOp} (hok : op.Supplied s)
    (he : s.step op = some s') : s'.Kept R rf r ∧ Alive s'.machine r := by
  cases op with
  | map va pa prot =>
    refine ⟨h.step_map hok.1 he, ?_⟩
    obtain rfl := Option.some.inj he
    exact ha.map h.owned h.root.1 (h.table_mem va) hok.1.1 hok.1.2 hok.2
  | unmap va => exact h.step_unmap ha he
  | take order flags =>
    refine ⟨h.step_take he, ?_⟩
    obtain rfl := Option.some.inj he
    exact ha
  | give p k =>
    refine ⟨h.step_give he, ?_⟩
    unfold TableRun.step at he
    dsimp only at he
    split at he
    · obtain rfl := Option.some.inj he
      intro q h1 h2 n hn
      dsimp only at hn ⊢
      unfold Machine.pte
      rw [freePhysPages_mem] at hn ⊢
      exact ha q h1 h2 n hn
    · cases he

theorem kept_reach (h : Reach TableRun.step (fun s op => op.Supplied s) (TableRun.Start R rf r) s) :
    s.Kept R rf r ∧ Alive s.machine r :=
  h.rule (P := fun s => s.Kept R rf r ∧ Alive s.machine r) (fun _ h0 => ⟨h0.kept, h0.alive⟩)
    fun _ _ _ hs hok he => hs.1.step hs.2 hok he

/-- Below a table there is a mapped page. -/
theorem Alive.leaf {m : Machine} (ha : Alive m r) {n : Nat} : ∀ k q, q ≠ [] → q.length + k = 3 → walk (child m.mem) r q = some n →
    ∃ q' : List Idx, q'.length = 3 ∧ ∃ i, ptePresent (entryAt m.mem r q' i) = true := by
  intro k
  induction k generalizing n with
  | zero =>
    intro q hq hl hn
    obtain ⟨j, hj⟩ := ha q hq (by omega) n hn
    exact ⟨q, by omega, j, by rw [entryAt_some hn]; exact hj⟩
  | succ k ih =>
    intro q hq hl hn
    obtain ⟨j, hj⟩ := ha q hq (by omega) n hn
    refine ih (n := pteToPhys (m.pte n j)) (q ++ [j]) (by simp) (by simp; omega) ?_
    rw [walk_snoc, hn, Option.bind_some]
    exact child_present hj

end

/-- In every run whose mappings find a page for each table they lack or no page at all, each table below the root has a
    present entry, every allocated page is somebody's, and with nothing mapped the root is the only table. -/
theorem tables_reclaimed {R : Set Nat} {rf : Nat → Nat} {r : Nat} {s : TableRun}
    (h : Reach TableRun.step (fun s op => op.Supplied s) (TableRun.Start R rf r) s) :
    Alive s.machine r ∧
      (∀ p k, Used s.machine.pmm p k → (p, k) ∈ s.held ∨ 0 < rf p ∨ Table s.machine.mem R (pfnToPa p)) ∧
      (s.mapped = ∅ → ∀ n, Table s.machine.mem {r} n → n = r) := by
  obtain ⟨hK, hA⟩ := kept_reach h
  refine ⟨hA, fun p k hu => ?_, ?_⟩
  · rcases hK.owned.owner p k hu with hb | ⟨-, hT | hf⟩
    · exact Or.inl hb
    · exact Or.inr (Or.inr hT)
    · exact Or.inr (Or.inl hf)
  · rintro he n ⟨r', rfl, q, hq, hn⟩
    by_contra hne
    have hq0 : q ≠ [] := by
      rintro rfl
      rw [walk_nil] at hn
      exact hne (Option.some.inj hn).symm
    obtain ⟨q', hq', i, hp⟩ := hA.leaf (3 - q.length) q hq0 (by omega) hn
    have := hK.mapped q' hq' i hp
    rw [he] at this
    exact absurd this (Finset.notMem_empty _)

/-! ## A page short -/

/-- After `buddy_init`, with two empty trees. -/
def twoTrees : TableRun := ⟨twoRoots, ∅, ∅⟩

theorem twoTrees_start : twoTrees.Start twoRoots.roots (fun _ => 0) twoRoots.ttbr0 := by
  refine ⟨?_, ⟨Or.inl rfl, ?_⟩, Set.Subset.refl _, fun j => ?_⟩
  · rw [twoTrees, Finset.coe_empty]
    exact twoRoots_owned
  · unfold twoRoots
    decide
  · simp [twoTrees, Machine.pte, twoRoots, bootMachine, read64]

/-- The others allocate pages until one is left. -/
theorem exhaust_reach {R : Set Nat} {rf : Nat → Nat} {r : Nat}
    (n : Nat) : ∀ {s : TableRun}, Reach TableRun.step (fun s op => op.Valid s) (TableRun.Start R rf r) s → s.Kept R rf r → Room s.machine.pmm 1 → ¬ Room s.machine.pmm (n + 1) →
    ∃ s', Reach TableRun.step (fun s op => op.Valid s) (TableRun.Start R rf r) s' ∧ s'.Kept R rf r ∧ s'.machine.mem = s.machine.mem ∧
      s'.machine.ttbr0 = s.machine.ttbr0 ∧ s'.mapped = s.mapped ∧ Room s'.machine.pmm 1 ∧ ¬ Room s'.machine.pmm 2 := by
  induction n with
  | zero => exact fun _ _ h1 hn => absurd h1 hn
  | succ n ih =>
    intro s hs hK h1 hn
    by_cases h2 : Room s.machine.pmm 2
    · obtain ⟨p, hp⟩ := h1.alloc hK.owned.sound gfpKernel (by decide)
      rcases hK.owned.alloc 0 gfpKernel with ⟨⟨e, he⟩, -⟩ | ⟨p', -, hN⟩
      · rw [he] at hp
        exact absurd hp.symm (pfnToPa_ne_zero p)
      have hstep : s.step (.take 0 gfpKernel) = some _ := rfl
      have hK' := hK.step_take hstep
      obtain ⟨s', hr, hk, h3, h4, h5, h6⟩ := ih (hs.step (show (TableOp.take 0 gfpKernel).Valid s from trivial) hstep) hK' ((Room.alloc_iff hN.alloc).mp h2)
        fun hR => hn ((Room.alloc_iff hN.alloc).mpr hR)
      exact ⟨s', hr, hk, h3, h4, h5, h6⟩
    · exact ⟨s, hs, hK, rfl, rfl, rfl, h1, h2⟩

/-- A mapping that finds one page for its three tables leaves an empty table. -/
theorem empty_table_stays : ∃ s, Reach TableRun.step (fun s op => op.Valid s) (TableRun.Start twoRoots.roots (fun _ => 0) twoRoots.ttbr0) s ∧
    s.mapped = ∅ ∧ ¬ Alive s.machine twoRoots.ttbr0 ∧ ¬ ∀ n, Table s.machine.mem {twoRoots.ttbr0} n → n = twoRoots.ttbr0 := by
  obtain ⟨s, hs, hK, hm, h0, he, h1, h2⟩ := exhaust_reach totalPages (.init twoTrees_start)
    twoTrees_start.kept (bootMachine_room.le (by decide)) fun h => absurd (room_le_totalPages h) (by omega)
  have hzero : ∀ t (i : Idx), read64 s.machine.mem (t + 8 * i) = 0 := fun t i => by rw [hm]; simp [twoTrees, twoRoots, bootMachine, read64]
  have hr : s.machine.l0Table 0x1000 = twoRoots.ttbr0 := h0
  have hne : s.machine.l0Table 0x1000 ≠ 0 := by rw [hr]; exact hK.root.2
  have hmem := hK.table_mem 0x1000
  refine ⟨_, hs.step (e := .map 0x1000 0x40004000 pageUserRw) ⟨by decide, by decide⟩ rfl, ?_⟩
  dsimp only
  rw [mapPage_eq _ _ _ hne]
  rw [hr] at hmem ⊢
  rcases nextTable_cases hK.owned hmem (q := []) (by simp) (walk_nil _ _) (l0Index 0x1000) with
    ⟨c, hc, -⟩ | ⟨-, e, -, hno⟩ | ⟨-, p, m', hn, ho, -, hw, hz, hA⟩
  · rw [child_none_of_zero (hzero _ _)] at hc
    cases hc
  · exact absurd h1 (hno 0)
  have hno : ¬ Room m'.pmm 1 := fun h => h2 ((Room.alloc_iff hA).mpr h)
  have hwp : walk (child m'.mem) twoRoots.ttbr0 [l0Index 0x1000] = some (pfnToPa p) := by
    rw [hw _ hmem _ (by simp), if_pos ⟨rfl, rfl⟩]
  rw [hn, withTable_some _ rfl]
  -- no page is left for the next table
  have hstop : ∃ m'' : Machine, nextTable m' (pfnToPa p) (l1Index 0x1000) = (m'', none) ∧ m''.mem = m'.mem := by
    rcases nextTable_cases ho hmem (q := [l0Index 0x1000]) (by simp) hwp (l1Index 0x1000) with
      ⟨c, hc, -⟩ | ⟨-, e, hn, -⟩ | ⟨-, p2, m2, -, -, -, -, -, hA2⟩
    · rw [child_none_of_zero (hz _)] at hc
      cases hc
    · exact ⟨_, hn, rfl⟩
    · exact absurd ((Room.alloc_iff hA2).mpr (Room.zero _)) hno
  obtain ⟨m'', hn2, hm2⟩ := hstop
  have hz2 : ∀ j : Idx, m''.pte (pfnToPa p) j = 0 := fun j => by
    rw [Machine.pte, hm2]
    exact hz j
  dsimp only
  rw [hn2, (withTable_none _ rfl).1, (withTable_none _ rfl).2]
  rw [← hm2] at hwp
  refine ⟨by rw [if_neg (by decide), he]; rfl, fun hA => ?_, fun hT => ?_⟩
  · obtain ⟨j, hj⟩ := hA _ (by simp) (by simp) _ hwp
    rw [hz2 j, ptePresent_zero] at hj
    cases hj
  · have := hT _ ⟨_, rfl, _, by simp, hwp⟩
    rw [hm2] at hwp
    rw [this] at hwp
    have := (ho.table_unique hmem (q := []) (by simp) (walk_nil _ _) hmem (by simp) hwp).2
    cases this

/-- A page is mapped and unmapped. -/
theorem tables_reclaimed_mapUnmap : ∃ s : TableRun, s.mapped = ∅ ∧ ∀ n, Table s.machine.mem {twoRoots.ttbr0} n → n = twoRoots.ttbr0 := by
  have hroom : Room twoRoots.pmm (missing twoRoots (twoRoots.l0Table 0x1000) (dirs 0x1000)) :=
    bootMachine_room.le (by
      rw [dirs, missing_none (child_none_of_zero (by simp [twoRoots, bootMachine, read64]))]
      simp)
  obtain ⟨s1, h1, he1⟩ : ∃ s1, twoTrees.step (.map 0x1000 0x40004000 pageUserRw) = some s1 ∧
      s1.mapped ⊆ {(s1.machine.place 0x1000)} := by
    refine ⟨_, rfl, ?_⟩
    dsimp only
    split
    · rename_i hs
      have hp : pageUserRw < 2 ^ 64 := by decide
      rcases (mapPage_spec twoRoots_owned (l0Table_mem _ _) hp : (mapPage twoRoots 0x1000 0x40004000 pageUserRw).2 = -1 ∧ _ ∨ _) with
        ⟨hf, -⟩ | ⟨-, -, hW⟩
      · rw [show twoTrees.machine = twoRoots from rfl, hf] at hs
        cases hs
      · have hl : (mapPage twoTrees.machine 0x1000 0x40004000 pageUserRw).1.l0Table 0x1000 = twoTrees.machine.l0Table 0x1000 :=
          l0Table_congr hW.ttbr0 hW.ttbr1 0x1000
        rw [Machine.place, Machine.place, hl]
        exact Finset.Subset.refl _
    · exact Finset.empty_subset _
  have hs := (Reach.init twoTrees_start).step (show (TableOp.map 0x1000 0x40004000 pageUserRw).Supplied twoTrees from
    ⟨⟨by decide, by decide⟩, Or.inl hroom⟩) h1
  have hs2 := hs.step (show (TableOp.unmap 0x1000).Supplied s1 from trivial) rfl
  obtain ⟨-, -, hT⟩ := tables_reclaimed hs2
  have he2 : s1.mapped.erase (s1.machine.place 0x1000) = ∅ := by
    rw [Finset.erase_eq_empty_iff]
    exact Finset.subset_singleton_iff.mp he1
  exact ⟨_, he2, hT he2⟩

end Myos.Mm
