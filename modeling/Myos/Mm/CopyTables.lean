/-
  Myos.Mm.CopyTables — `copy_user_page_table` into an empty table.

  `Copied B N m m'`: of the tree `C`, only what is at or below the paths `B` changed;
  each leaf entry there is empty or the parent's entry as a child gets it, and with `N`
  free pages none is missing. The loop over one table and the descent into the next
  compose such steps (`Copied.trans`).

  Proved: the copy keeps `World` (each shared frame gains the reference of its new leaf
  entry), changes no other tree and no data frame, and with a free page for every table
  of the parent the child maps exactly the parent's pages.
-/

import Myos.Mm.World

namespace Myos.Mm

open Pmm Lib.Walk Lib.Dyadic

/-- `s` goes through edge `j` of the node at `q`, for some `j` of `l`. -/
def Below (q l s : List Idx) : Prop := ∃ j ∈ l, q ++ [j] <+: s

/-- The tables below the node at `q`, `level` edges deep. -/
def need (w : List Idx → Option Nat) : (level : Nat) → (q : List Idx) → Nat
  | 0, _ => 0
  | level + 1, q =>
    ((List.finRange 512).map fun j => if (w (q ++ [j])).isSome then 1 + need w level (q ++ [j]) else 0).sum

structure Copied (U : Finset Nat) (K : Set (Nat × Nat)) (ex : Nat → Nat) (P C : Nat) (B : List Idx → Prop) (N : Nat)
    (m m' : Machine) : Prop where
  world : World m' U K ex
  ttbr0 : m'.ttbr0 = m.ttbr0
  ttbr1 : m'.ttbr1 = m.ttbr1
  walks : ∀ r ∈ roots m U, ∀ q : List Idx, q.length ≤ 3 → (r = C → ¬ B q) →
    walk (child m'.mem) r q = walk (child m.mem) r q
  entry : ∀ r ∈ roots m U, ∀ q : List Idx, q.length = 3 → ∀ i, (r = C → ¬ B (q ++ [i])) →
    entryAt m'.mem r q i = entryAt m.mem r q i
  copied : ∀ q : List Idx, q.length = 3 → ∀ i, B (q ++ [i]) → entryAt m'.mem C q i = 0 ∨
    ptePresent (entryAt m.mem P q i) = true ∧ entryAt m'.mem C q i = cowPte (entryAt m.mem P q i)
  full : ∀ n, Room m.pmm (N + n) → Room m'.pmm n ∧ ∀ q : List Idx, q.length = 3 → ∀ i, B (q ++ [i]) →
    ptePresent (entryAt m.mem P q i) = true → entryAt m'.mem C q i = cowPte (entryAt m.mem P q i)
  more : ∀ p, refs m.mem U ex p ≤ refs m'.mem U ex p
  page : ∀ p, 0 < refs m.mem U ex p → SamePage m m' p

/-! ## Paths -/

theorem below_single {q s : List Idx} {i : Idx} : Below q [i] s ↔ q ++ [i] <+: s := by
  unfold Below
  simp

theorem below_cons {q l s : List Idx} {i : Idx} : Below q (i :: l) s ↔ Below q [i] s ∨ Below q l s := by
  unfold Below
  simp

/-- A path through `q` is `q` or goes through an edge of its node. -/
theorem prefix_iff (q s : List Idx) : q <+: s ↔ s = q ∨ Below q (List.finRange 512) s := by
  constructor
  · rintro ⟨t, rfl⟩
    cases t with
    | nil => exact Or.inl (List.append_nil q)
    | cons j t =>
      exact Or.inr ⟨j, List.mem_finRange j, t, by rw [List.append_assoc]; rfl⟩
  · rintro (rfl | ⟨j, -, h⟩)
    · exact List.prefix_refl _
    · exact (List.prefix_append q [j]).trans h

theorem not_below {q : List Idx} {i j : Idx} (h : j ≠ i) {s : List Idx} (hs : q ++ [j] <+: s) : ¬ Below q [i] s := by
  rw [below_single]
  intro hs'
  obtain ⟨t, rfl⟩ := hs
  obtain ⟨t', e⟩ := hs'
  rw [List.append_assoc, List.append_assoc] at e
  have := List.append_cancel_left e
  simp only [List.cons_append, List.nil_append, List.cons.injEq] at this
  exact h this.1.symm

theorem need_congr {w w' : List Idx → Option Nat} : ∀ (level : Nat) (q : List Idx), q.length + level ≤ 3 →
    (∀ s : List Idx, s.length ≤ 3 → w' s = w s) → need w' level q = need w level q := by
  intro level
  induction level with
  | zero => intros; rfl
  | succ level ih =>
    intro q hq hw
    unfold need
    refine congrArg List.sum (List.map_congr_left fun j _ => ?_)
    have hl : (q ++ [j]).length ≤ 3 := by simp; omega
    rw [hw _ hl, ih (q ++ [j]) (by simp; omega) hw]

/-! ## Entries of a child -/

theorem read64_lt (m : Mem) (a : Nat) : read64 m a < 2 ^ 64 := by
  have h : ∀ x, (m x).toNat < 2 ^ 8 := fun x => (m x).toNat_lt
  have h0 := h a; have h1 := h (a + 1); have h2 := h (a + 2); have h3 := h (a + 3)
  have h4 := h (a + 4); have h5 := h (a + 5); have h6 := h (a + 6); have h7 := h (a + 7)
  unfold read64
  omega

theorem entryAt_lt (mem : Mem) (r : Nat) (q : List Idx) (i : Idx) : entryAt mem r q i < 2 ^ 64 := by
  cases hw : walk (child mem) r q with
  | none => rw [entryAt_none hw]; decide
  | some t => rw [entryAt_some hw]; exact read64_lt _ _

theorem cowPte_lt {v : Nat} (h : v < 2 ^ 64) : cowPte v < 2 ^ 64 := by
  unfold cowPte
  split
  · exact Nat.or_lt_two_pow h (by decide)
  · exact h

theorem cowPte_pteToPhys (v : Nat) : pteToPhys (cowPte v) = pteToPhys v := by
  unfold cowPte
  split
  · rw [pteToPhys, pteToPhys, Nat.and_or_distrib_right, show apReadOnly &&& pteAddrMask = 0 by decide, Nat.or_zero]
  · rfl

theorem cowPte_present (v : Nat) : ptePresent (cowPte v) = ptePresent v := by
  have bit : ∀ x, ptePresent x = x.testBit 0 := fun x => by
    rw [Bool.eq_iff_iff, ptePresent_iff, Nat.testBit_zero, decide_eq_true_eq]
  unfold cowPte
  split
  · rw [bit, bit, Nat.testBit_or, show apReadOnly.testBit 0 = false by decide, Bool.or_false]
  · rfl

theorem leadsTo_cowPte (v p : Nat) : leadsTo (cowPte v) p = leadsTo v p := by
  unfold leadsTo
  rw [cowPte_present, cowPte_pteToPhys]

section

variable {m m' m'' : Machine} {U : Finset Nat} {K : Set (Nat × Nat)} {ex : Nat → Nat} {P C : Nat}
  {B B' : List Idx → Prop} {N N' : Nat}

/-! ## Steps -/

theorem roots_eq (h : m'.ttbr1 = m.ttbr1) : roots m' U = roots m U := by rw [roots, h]

theorem Copied.trans (hP : P ∈ U) (hC : C ∈ U) (hne : P ≠ C) (h1 : Copied U K ex P C B N m m')
    (h2 : Copied U K ex P C B' N' m' m'') : Copied U K ex P C (fun s => B s ∨ B' s) (N + N') m m'' := by
  have hr := roots_eq (U := U) h1.ttbr1
  have hPe : ∀ q : List Idx, q.length = 3 → ∀ i, entryAt m'.mem P q i = entryAt m.mem P q i :=
    fun q hq i => h1.entry P (mem_roots hP) q hq i fun e => absurd e hne
  have hkeep : ∀ q : List Idx, q.length = 3 → ∀ i, ¬ B' (q ++ [i]) → entryAt m''.mem C q i = entryAt m'.mem C q i :=
    fun q hq i hb => h2.entry C (mem_roots hC) q hq i fun _ => hb
  refine ⟨h2.world, h2.ttbr0.trans h1.ttbr0, h2.ttbr1.trans h1.ttbr1, fun r hr' q hq hB => ?_,
    fun r hr' q hq i hB => ?_, fun q hq i hB => ?_, fun n hn => ?_, fun p => (h1.more p).trans (h2.more p),
    fun p hp => (h1.page p hp).trans (h2.page p (Nat.lt_of_lt_of_le hp (h1.more p)))⟩
  · exact (h2.walks r (hr ▸ hr') q hq fun e hb => hB e (Or.inr hb)).trans
      (h1.walks r hr' q hq fun e hb => hB e (Or.inl hb))
  · exact (h2.entry r (hr ▸ hr') q hq i fun e hb => hB e (Or.inr hb)).trans
      (h1.entry r hr' q hq i fun e hb => hB e (Or.inl hb))
  · by_cases hb : B' (q ++ [i])
    · have := h2.copied q hq i hb
      rwa [hPe q hq i] at this
    · rw [hkeep q hq i hb]
      exact h1.copied q hq i (hB.resolve_right hb)
  · obtain ⟨hn1, hf1⟩ := h1.full (N' + n) (by rwa [← Nat.add_assoc])
    obtain ⟨hn2, hf2⟩ := h2.full n hn1
    refine ⟨hn2, fun q hq i hB hp => ?_⟩
    by_cases hb : B' (q ++ [i])
    · have := hf2 q hq i hb (by rwa [hPe q hq i])
      rwa [hPe q hq i] at this
    · rw [hkeep q hq i hb]
      exact hf1 q hq i (hB.resolve_right hb) hp

theorem Copied.iff (h : Copied U K ex P C B N m m') (hB : ∀ s, B' s ↔ B s) : Copied U K ex P C B' N m m' := by
  have : B' = B := funext fun s => propext (hB s)
  rw [this]; exact h

/-- Nothing is done where the parent maps nothing. -/
theorem Copied.skip (hw : World m U K ex)
    (h0 : ∀ q : List Idx, q.length = 3 → ∀ i, B (q ++ [i]) → entryAt m.mem C q i = 0 ∧
      ptePresent (entryAt m.mem P q i) = false) : Copied U K ex P C B 0 m m := by
  refine ⟨hw, rfl, rfl, fun _ _ _ _ _ => rfl, fun _ _ _ _ _ _ => rfl, fun q hq i hb => Or.inl (h0 q hq i hb).1,
    fun n hn => ⟨by rwa [Nat.zero_add] at hn, fun q hq i hb hp => ?_⟩, fun _ => Nat.le_refl _,
    fun p _ => SamePage.rfl' m p⟩
  rw [(h0 q hq i hb).2] at hp; cases hp

/-- The place of a copy: the tables at `q` of both trees. -/
structure CopyAt (U : Finset Nat) (K : Set (Nat × Nat)) (ex : Nat → Nat) (P C : Nat) (w : List Idx → Option Nat)
    (q : List Idx) (dst : Nat) (m : Machine) : Prop where
  world : World m U K ex
  view : ∀ s : List Idx, s.length ≤ 3 → walk (child m.mem) P s = w s
  table : walk (child m.mem) C q = some dst

/-- Nothing is mapped through edge `j` of the node at `q` of the child. -/
structure EmptyAt (m : Machine) (C : Nat) (q : List Idx) (j : Idx) : Prop where
  entry : ∀ q' : List Idx, q'.length = 3 → ∀ i, q ++ [j] <+: q' ++ [i] → entryAt m.mem C q' i = 0
  walk : q.length < 3 → walk (child m.mem) C (q ++ [j]) = none

theorem Copied.at {w : List Idx → Option Nat} {q : List Idx} {i : Idx} {dst : Nat} (hP : P ∈ U) (hC : C ∈ U)
    (hne : P ≠ C) (hq : q.length ≤ 3) (ha : CopyAt U K ex P C w q dst m)
    (h : Copied U K ex P C (Below q [i]) N m m') : CopyAt U K ex P C w q dst m' := by
  refine ⟨h.world, fun s hs => ?_, ?_⟩
  · rw [h.walks P (mem_roots hP) s hs fun e => absurd e hne]; exact ha.view s hs
  · rw [h.walks C (mem_roots hC) q hq fun _ => ?_]
    · exact ha.table
    · rw [below_single]
      intro hp
      have := hp.length_le
      simp at this

theorem Copied.empty {q : List Idx} {i j : Idx} (hC : C ∈ U) (hji : j ≠ i) (he : EmptyAt m C q j)
    (h : Copied U K ex P C (Below q [i]) N m m') : EmptyAt m' C q j := by
  refine ⟨fun q' hq' i' hp => ?_, fun hq => ?_⟩
  · rw [h.entry C (mem_roots hC) q' hq' i' fun _ => not_below hji hp]
    exact he.entry q' hq' i' hp
  · rw [h.walks C (mem_roots hC) (q ++ [j]) (by simp; omega) fun _ => not_below hji (List.prefix_refl _)]
    exact he.walk hq

/-- The loop over the entries of one table. -/
theorem copied_fold {f : Machine → Idx → Machine} {n : Idx → Nat} {w : List Idx → Option Nat} {q : List Idx} {dst : Nat}
    (hP : P ∈ U) (hC : C ∈ U) (hne : P ≠ C) (hq : q.length ≤ 3)
    (hstep : ∀ m i, CopyAt U K ex P C w q dst m → EmptyAt m C q i → Copied U K ex P C (Below q [i]) (n i) m (f m i)) :
    ∀ (l : List Idx) (m : Machine), l.Nodup → CopyAt U K ex P C w q dst m → (∀ j ∈ l, EmptyAt m C q j) →
      Copied U K ex P C (Below q l) (l.map n).sum m (l.foldl f m) := by
  intro l
  induction l with
  | nil =>
    intro m _ ha _
    refine (Copied.skip ha.world (B := Below q []) fun q' _ i hb => ?_)
    obtain ⟨j, hj, -⟩ := hb
    cases hj
  | cons i l ih =>
    intro m hnd ha he
    obtain ⟨hi, hnd⟩ := List.nodup_cons.mp hnd
    have h1 := hstep m i ha (he i (by simp))
    have h2 := ih (f m i) hnd (h1.at hP hC hne hq ha) fun j hj =>
      h1.empty hC (by rintro rfl; exact hi hj) (he j (List.mem_cons_of_mem _ hj))
    exact (h1.trans hP hC hne h2).iff fun s => below_cons

/-! ## One leaf entry -/

theorem leaf_below {q q' : List Idx} {i i' : Idx} (hq : q.length = 3) (hq' : q'.length = 3)
    (h : Below q [i] (q' ++ [i'])) : q' = q ∧ i' = i := by
  rw [below_single] at h
  have e := h.eq_of_length (by simp [hq, hq'])
  obtain ⟨rfl, e'⟩ := List.append_inj' e rfl
  exact ⟨rfl, by simpa using e'.symm⟩

theorem copyPte_spec (hs : ∀ p, ex p < 2 ^ 63) (hP : P ∈ U) (hC : C ∈ U) (hne : P ≠ C)
    {w : List Idx → Option Nat} {q : List Idx} {src dst : Nat} (hq : q.length = 3) (hsrc : w q = some src) {i : Idx}
    (ha : CopyAt U K ex P C w q dst m) (he : EmptyAt m C q i) :
    Copied U K ex P C (Below q [i]) 0 m (copyPte m src dst i) := by
  have hw := ha.world
  have hPs : walk (child m.mem) P q = some src := (ha.view q (by omega)).trans hsrc
  have hv : entryAt m.mem P q i = m.pte src i := entryAt_some hPs i
  by_cases hp : ptePresent (m.pte src i) = true
  swap
  · have hs : copyPte m src dst i = m := if_pos (by simpa using hp)
    rw [hs]
    refine Copied.skip hw fun q' hq' i' hb => ?_
    obtain ⟨rfl, rfl⟩ := leaf_below hq hq' hb
    exact ⟨he.entry q' hq i' (List.prefix_refl _), by rw [hv]; simpa using hp⟩
  have h0 : entryAt m.mem C q i = 0 := he.entry q hq i (List.prefix_refl _)
  obtain ⟨p, hpa, hpos⟩ := hw.leaf_frame hP hq (hv ▸ hp)
  rw [hv] at hpa
  have hCR := mem_roots (m := m) hC
  -- the child's entry is written, and the parent's table is another page
  obtain ⟨-, -, hwalk⟩ := hw.owned.setLeaf hCR hq ha.table i (cowPte_lt (read64_lt m.mem (src + 8 * i)))
  obtain ⟨ho1, hW⟩ := hw.owned.writeLeaf hCR hq ha.table i (cowPte_lt (read64_lt m.mem (src + 8 * i)))
  have hsd : src ≠ dst := by
    rintro rfl
    exact hne (hw.owned.table_unique hCR (by omega) ha.table (mem_roots hP) (by omega) hPs).1
  have hTs := (hw.owned.table src (hw.owned.root_table (mem_roots hP) (by omega) hPs)).1.1
  have hTd := (hw.owned.table dst (hw.owned.root_table hCR (by omega) ha.table)).1.1
  have hread : (m.setPte dst i (cowPte (m.pte src i))).pte src i = m.pte src i := by
    unfold Machine.pte
    rw [setPte_mem, read64_setPte_page hTd hTs hsd]
  have hcp : copyPte m src dst i = (m.setPte dst i (cowPte (m.pte src i))).getPage (pfnToPa p) := by
    unfold copyPte
    rw [if_neg (by simpa using hp)]
    simp only [hread, hpa]
  rw [hcp]
  have hg := ho1.getPage (hw.refs_pos hpos) (hw.refs_lt (hs p))
  have hQ : Quiet (roots m U) (refs m.mem U ex) (m.setPte dst i (cowPte (m.pte src i)))
      ((m.setPte dst i (cowPte (m.pte src i))).getPage (pfnToPa p)) := Quiet.withPmm (getPage_start _ _)
  have hW2 := hW.quiet hQ
  have hlt := leadsTo_present hp hpa
  have hwr : World ((m.setPte dst i (cowPte (m.pte src i))).getPage (pfnToPa p)) U K ex := by
    refine hw.write hC hq (fun hpr => ⟨p, by rw [cowPte_pteToPhys]; exact hpa⟩) hg hW2 fun x => ?_
    rw [h0, leadsTo_zero, leadsTo_cowPte]
    show Function.update (refs m.mem U ex) p (refs m.mem U ex p + 1) x + 0 + ex x =
      refs m.mem U ex x + leadsTo (m.pte src i) x + ex x
    rw [hlt]
    by_cases e : x = p
    · rw [e, Function.update_self, if_pos rfl]
    · rw [Function.update_of_ne e, if_neg e]
  refine ⟨hwr, hW2.ttbr0, hW2.ttbr1, fun r hr q' hq' _ => ?_, fun r hr q' hq' j hb => ?_, fun q' hq' j hb => ?_,
    fun n hn => ⟨?_, fun q' hq' j hb _ => ?_⟩, fun x => ?_, hW2.page⟩
  · rw [getPage_mem]; exact hwalk r hr q' hq'
  · rw [hW2.entry r hr q' hq' j, if_neg]
    rintro ⟨e, rfl, rfl⟩
    exact hb e (below_single.2 (List.prefix_refl _))
  · obtain ⟨rfl, rfl⟩ := leaf_below hq hq' hb
    right
    rw [hW2.entry C hCR q' hq' j, if_pos ⟨rfl, rfl, rfl⟩, hv]
    exact ⟨hp, rfl⟩
  · rw [Nat.zero_add] at hn
    exact hn.mono (getPage_start _ _) fun q k hu => (getPage_used ho1.sound _ q k).mp hu
  · obtain ⟨rfl, rfl⟩ := leaf_below hq hq' hb
    rw [hW2.entry C hCR q' hq' j, if_pos ⟨rfl, rfl, rfl⟩, hv]
    rfl
  · have := leafCount_wrote (fun r hr => mem_roots (m := m) hr) hC hq hW2 x
    rw [h0, leadsTo_zero] at this
    unfold refs
    omega

/-! ## One table -/

/-- A new table maps nothing. -/
theorem emptyAt_new {q : List Idx} {n : Nat} (hw : walk (child m.mem) C q = some n)
    (hz : ∀ j : Idx, read64 m.mem (n + 8 * j) = 0) (j : Idx) : EmptyAt m C q j := by
  have hc : ∀ j, child m.mem n j = none := fun j => child_none_of_zero (hz j)
  refine ⟨fun q' hq' i hp => ?_, fun _ => by rw [walk_snoc, hw, Option.bind_some, hc]⟩
  obtain ⟨t, ht⟩ := hp
  by_cases hqq : q' = q
  · rw [hqq, entryAt_some hw]; exact hz i
  · -- the path of the entry goes on below the new table
    have hpre : q <+: q' := by
      have h1 : q <+: q' ++ [i] := ⟨[j] ++ t, by rw [← List.append_assoc]; exact ht⟩
      rcases List.prefix_concat_iff.mp h1 with e | e
      · exfalso
        have := congrArg List.length ht
        rw [e] at this
        simp at this
      · exact e
    obtain ⟨s, rfl⟩ := hpre
    refine entryAt_none ?_ i
    rw [walk_append, hw, Option.bind_some, walk_childless hc (by rintro rfl; exact hqq (List.append_nil q))]

/-- The next table of the child is created. -/
theorem copied_link (hw : World m U K ex) {q : List Idx} {i : Idx} {p : Nat} (hq : q.length < 3)
    (ho : Owned m' (roots m U) K (refs m.mem U ex)) (hQ : Quiet (roots m U) (refs m.mem U ex) m m')
    (hwalk : ∀ r' ∈ roots m U, ∀ q' : List Idx, q'.length ≤ 3 → walk (child m'.mem) r' q' =
      if r' = C ∧ q' = q ++ [i] then some (pfnToPa p) else walk (child m.mem) r' q')
    (hA : AllocAt m.pmm m'.pmm p 0) : Copied U K ex P C (fun s => s = q ++ [i]) 1 m m' := by
  have no : ∀ q' : List Idx, q'.length = 3 → ∀ j, q' ++ [j] ≠ q ++ [i] := by
    intro q' hq' j e
    have := congrArg List.length e
    simp at this; omega
  refine ⟨hw.step ⟨ho, hQ⟩, hQ.ttbr0, hQ.ttbr1, fun r hr q' hq' hb => ?_, fun r hr q' hq' j _ => hQ.entry r hr q' hq' j,
    fun q' hq' j hb => absurd hb (no q' hq' j), fun n hn => ⟨?_, fun q' hq' j hb => absurd hb (no q' hq' j)⟩,
    fun x => ?_, hQ.page⟩
  · rw [hwalk r hr q' hq', if_neg]
    rintro ⟨e, e'⟩
    exact hb e e'
  · rw [Nat.add_comm] at hn
    exact hn.less hA
  · unfold refs
    rw [leafCount_entries fun r hr q hq i => hQ.entry r (mem_roots hr) q hq i]

theorem sum_zero (l : List Idx) : (l.map fun _ => 0).sum = 0 := by
  induction l with
  | nil => rfl
  | cons i l ih => rw [List.map_cons, List.sum_cons, ih]

/-- What `copyTables` does with entry `i` of a table that is not a leaf table. -/
def copyEntry (level : Nat) (src dst : Nat) (m : Machine) (i : Idx) : Machine :=
  if !ptePresent (m.pte src i) then m
  else (nextTable m dst i).2.elim (nextTable m dst i).1 fun dst' =>
    copyTables level (nextTable m dst i).1 (pteToPhys (m.pte src i)) dst'

/-- The parent has no table here; or there is no page for the child's; or it is linked, and the copy goes on below. -/
theorem copyEntry_cases (hP : P ∈ U) (hC : C ∈ U) {w : List Idx → Option Nat} {level : Nat} {q : List Idx}
    {src dst : Nat} {i : Idx} (hq : q.length + (level + 1) = 3) (ha : CopyAt U K ex P C w q dst m) (hsrc : w q = some src)
    (he : EmptyAt m C q i) (hne : P ≠ C) :
    (w (q ++ [i]) = none ∧ copyEntry level src dst m i = m) ∨
    ((w (q ++ [i])).isSome = true ∧ (∀ n, ¬ Room m.pmm (n + 1)) ∧
      ∃ e, copyEntry level src dst m i = { m with pmm := Pmm.setError m.pmm e }) ∨
    ∃ src' p m1, w (q ++ [i]) = some src' ∧ copyEntry level src dst m i = copyTables level m1 src' (pfnToPa p) ∧
      Copied U K ex P C (fun s => s = q ++ [i]) 1 m m1 ∧ CopyAt U K ex P C w (q ++ [i]) (pfnToPa p) m1 ∧
      (∀ j, EmptyAt m1 C (q ++ [i]) j) ∧ AllocAt m.pmm m1.pmm p 0 := by
  have hw := ha.world
  have hPs : walk (child m.mem) P q = some src := (ha.view q (by omega)).trans hsrc
  have hwi : w (q ++ [i]) = child m.mem src i := by
    rw [← ha.view (q ++ [i]) (by simp; omega), walk_snoc, hPs, Option.bind_some]
  by_cases hp : ptePresent (m.pte src i) = true
  swap
  · exact Or.inl ⟨hwi.trans (child_absent hp), if_pos (by simpa using hp)⟩
  have hws : w (q ++ [i]) = some (pteToPhys (m.pte src i)) := hwi.trans (child_present hp)
  have hcn : child m.mem dst i = none := by
    have := he.walk (by omega)
    rwa [walk_snoc, ha.table, Option.bind_some] at this
  right
  unfold copyEntry
  rw [if_neg (by simpa using hp)]
  rcases nextTable_cases hw.owned (mem_roots hC) (by omega : q.length < 3) ha.table i with
    ⟨c, hc, -⟩ | ⟨-, e, hr, hno⟩ | ⟨-, p, m1, hr, ho, hQ, hwalk, hz, hA⟩
  · rw [hcn] at hc; cases hc
  · rw [hr]
    exact Or.inl ⟨by rw [hws]; rfl, hno, e, rfl⟩
  · rw [hr]
    have h1 : Copied U K ex P C (fun s => s = q ++ [i]) 1 m m1 := copied_link hw (by omega) ho hQ hwalk hA
    have hnew : walk (child m1.mem) C (q ++ [i]) = some (pfnToPa p) := by
      rw [hwalk C (mem_roots hC) (q ++ [i]) (by simp; omega), if_pos ⟨rfl, rfl⟩]
    refine Or.inr ⟨_, p, m1, hws, rfl, h1, ⟨h1.world, fun s hl => ?_, hnew⟩, emptyAt_new hnew hz, hA⟩
    rw [h1.walks P (mem_roots hP) s hl fun e => absurd e hne]; exact ha.view s hl

/-- Where the parent has no table, it maps nothing. -/
theorem absent_below {w : List Idx → Option Nat} {q : List Idx} {dst : Nat} (hq : q.length < 3)
    (ha : CopyAt U K ex P C w q dst m) {i : Idx} (hn : w (q ++ [i]) = none) {q' : List Idx} (hq' : q'.length = 3)
    {i' : Idx} (hb : q ++ [i] <+: q' ++ [i']) : ptePresent (entryAt m.mem P q' i') = false := by
  have hn : walk (child m.mem) P (q ++ [i]) = none := by rw [ha.view (q ++ [i]) (by simp; omega), hn]
  rcases List.prefix_concat_iff.mp hb with e | ⟨t, rfl⟩
  · have := congrArg List.length e
    simp at this; omega
  · rw [entryAt_none (walk_none_append hn t), ptePresent_zero]

/-- The copy below one entry, from what it does below a linked table. -/
theorem copyEntry_spec (hP : P ∈ U) (hC : C ∈ U) (hne : P ≠ C) {w : List Idx → Option Nat} {level : Nat} {q : List Idx}
    {src dst : Nat} {i : Idx} (hq : q.length + (level + 1) = 3)
    (below : ∀ src' dst' m', CopyAt U K ex P C w (q ++ [i]) dst' m' → w (q ++ [i]) = some src' →
      (∀ j, EmptyAt m' C (q ++ [i]) j) → Copied U K ex P C (Below (q ++ [i]) (List.finRange 512))
        (need w level (q ++ [i])) m' (copyTables level m' src' dst'))
    (ha : CopyAt U K ex P C w q dst m) (hsrc : w q = some src) (he : EmptyAt m C q i) :
    Copied U K ex P C (Below q [i]) (if (w (q ++ [i])).isSome then 1 + need w level (q ++ [i]) else 0) m
      (copyEntry level src dst m i) := by
  have hw := ha.world
  rcases copyEntry_cases hP hC hq ha hsrc he hne with
    ⟨hn, hr⟩ | ⟨hs, hno, e, hr⟩ | ⟨src', p, m1, hs, hr, h1, ha1, he1, -⟩ <;> rw [hr]
  · rw [hn, Option.isSome_none, if_neg Bool.false_ne_true]
    refine Copied.skip hw fun q' hq' i' hb => ?_
    rw [below_single] at hb
    exact ⟨he.entry q' hq' i' hb, absent_below (by omega) ha hn hq' hb⟩
  · -- no page for the child's table
    rw [if_pos hs]
    refine ⟨hw.step (hw.owned.errorStep e), rfl, rfl, fun _ _ _ _ _ => rfl, fun _ _ _ _ _ _ => rfl,
      fun q' hq' i' hb => Or.inl (he.entry q' hq' i' (below_single.1 hb)), fun n hn => ?_, fun _ => Nat.le_refl _,
      fun p _ => SamePage.rfl' m p⟩
    refine absurd ?_ (hno (need w level (q ++ [i]) + n))
    rwa [show 1 + need w level (q ++ [i]) + n = need w level (q ++ [i]) + n + 1 by omega] at hn
  · rw [hs, Option.isSome_some, if_pos rfl]
    exact (h1.trans hP hC hne (below src' (pfnToPa p) m1 ha1 hs he1)).iff fun s => by
      rw [below_single]; exact prefix_iff _ _

theorem copyTables_spec (hs : ∀ p, ex p < 2 ^ 63) (hP : P ∈ U) (hC : C ∈ U) (hne : P ≠ C)
    (w : List Idx → Option Nat) :
    ∀ (level : Nat) (q : List Idx) (src dst : Nat) (m : Machine), q.length + level = 3 →
      CopyAt U K ex P C w q dst m → w q = some src → (∀ j, EmptyAt m C q j) →
      Copied U K ex P C (Below q (List.finRange 512)) (need w level q) m (copyTables level m src dst) := by
  intro level
  induction level with
  | zero =>
    intro q src dst m hq ha hsrc he
    have h := copied_fold (n := fun _ => 0) hP hC hne (by omega)
      (fun m i ha he => copyPte_spec hs hP hC hne (by omega) hsrc ha he) (List.finRange 512) m
      (List.nodup_finRange 512) ha fun j _ => he j
    rwa [sum_zero] at h
  | succ level ih =>
    intro q src dst m hq ha hsrc he
    exact copied_fold (f := copyEntry level src dst) hP hC hne (by omega)
      (fun m i ha he => copyEntry_spec hP hC hne hq
        (fun src' dst' m' => ih (q ++ [i]) src' dst' m' (by simp; omega)) ha hsrc he)
      (List.finRange 512) m (List.nodup_finRange 512) ha fun j _ => he j

/-- Copying the tree `P` into the empty tree `C`. -/
theorem copyUserPageTable_spec (hw : World m U K ex) (hx : ∀ p, ex p < 2 ^ 63) (hP : P ∈ U) (hC : C ∈ U) (hne : P ≠ C)
    (hz : ∀ j : Idx, read64 m.mem (C + 8 * j) = 0) :
    Copied U K ex P C (Below [] (List.finRange 512)) (need (walk (child m.mem) P) 3 []) m (copyUserPageTable m P C) :=
  copyTables_spec hx hP hC hne (walk (child m.mem) P) 3 [] P C m rfl ⟨hw, fun _ _ => rfl, walk_nil _ _⟩ (walk_nil _ _)
    (emptyAt_new (walk_nil _ _) hz)

end

end Myos.Mm
