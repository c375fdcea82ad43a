/-
  Myos.Mm.Break — what `do_brk` does with the areas.

  Growing adds an area from the old break on. Shrinking removes the area that starts at
  the old break, which is none of the heap: the heap's areas start at the breaks before
  and end at the old break at the latest. The pages are released in any case.

  Proved, in every state of every run: `brk` moves exactly the break if and only if it
  does not shrink, or shrinks over a range no area meets and no area starts at the old
  break. The pages it releases are unmapped whatever the tables are.
-/

import Myos.Mm.Calls

namespace Myos.Mm

open Pmm (pageSize)
open Lib (SortedMap Reach)
open Lib.Walk

/-! ## Clearing entries -/

/-- Every word that is a table entry is the same or 0. -/
def Cleared (mem mem' : Mem) : Prop := ∀ a, 8 ∣ a → read64 mem' a = read64 mem a ∨ read64 mem' a = 0

section

variable {m m' : Machine} {va : Nat}

theorem Cleared.rfl' {mem : Mem} : Cleared mem mem := fun _ _ => Or.inl rfl

theorem Cleared.trans {mem mem' mem'' : Mem} (h1 : Cleared mem mem') (h2 : Cleared mem' mem'') : Cleared mem mem'' := by
  intro a ha
  rcases h2 a ha with e | e
  · rw [e]
    exact h1 a ha
  · exact Or.inr e

theorem setPte_cleared (m : Machine) {t : Nat} (ht : 8 ∣ t) (i : Idx) : Cleared m.mem (m.setPte t i 0).mem := by
  intro a ha
  rw [setPte_mem]
  by_cases e : a = t + 8 * i
  · right
    rw [e]
    exact read64_write64 m.mem (by decide)
  · left
    exact read64_write64_other m.mem (by omega)

theorem dropTable_cleared (m : Machine) {t : Nat} (ht : 8 ∣ t) (i : Idx) (c : Nat) : Cleared m.mem (m.dropTable t i c).mem := by
  rw [Machine.dropTable, freePhysPages_mem]
  exact setPte_cleared m ht i

theorem pteToPhys_dvd (v : Nat) : 8 ∣ pteToPhys v := (show 8 ∣ pageSize by decide).trans (pteToPhys_pageAddr v).1

/-- A table address is a multiple of 8. -/
theorem child_dvd {t c : Nat} {i : Idx} (h : child m.mem t i = some c) : 8 ∣ c := by
  obtain ⟨-, rfl⟩ := child_some h
  exact pteToPhys_dvd _

theorem cleared_child (h : Cleared m.mem m'.mem) {t : Nat} (ht : 8 ∣ t) (i : Idx) :
    child m'.mem t i = child m.mem t i ∨ child m'.mem t i = none := by
  rcases h (t + 8 * i) (by omega) with e | e
  · left
    unfold child
    rw [e]
  · exact Or.inr (child_none_of_zero e)

theorem walk_cons_none {mem : Mem} {t : Nat} {i : Idx} (h : child mem t i = none) (q : List Idx) :
    walk (child mem) t (i :: q) = none := by
  unfold walk
  rw [h, Option.bind_none]

/-- Clearing entries leads a walk to the same table or to none. -/
theorem cleared_walk (h : Cleared m.mem m'.mem) {q : List Idx} : ∀ {t : Nat}, 8 ∣ t →
    walk (child m'.mem) t q = walk (child m.mem) t q ∨ walk (child m'.mem) t q = none := by
  induction q with
  | nil =>
    intro t _
    rw [walk_nil, walk_nil]
    exact Or.inl rfl
  | cons i q ih =>
    intro t ht
    rcases cleared_child h ht i with e | e
    · cases hc : child m.mem t i with
      | none =>
        rw [hc] at e
        exact Or.inr (walk_cons_none e q)
      | some c =>
        rw [hc] at e
        rw [walk_cons hc, walk_cons e]
        exact ih (child_dvd hc)
    · exact Or.inr (walk_cons_none e q)

theorem walk_dvd {q : List Idx} : ∀ {t n : Nat}, 8 ∣ t → walk (child m.mem) t q = some n → 8 ∣ n := by
  induction q with
  | nil =>
    intro t n ht h
    cases h
    exact ht
  | cons i q ih =>
    intro t n ht h
    obtain ⟨c, hc, h⟩ := Option.bind_eq_some_iff.mp h
    exact ih (child_dvd hc) h

/-- Clearing entries leaves a translation or takes it away. -/
theorem cleared_entry (h : Cleared m.mem m'.mem) {r : Nat} (hr : 8 ∣ r) (q : List Idx) (i : Idx) :
    entryAt m'.mem r q i = entryAt m.mem r q i ∨ entryAt m'.mem r q i = 0 := by
  rcases cleared_walk h hr (q := q) with e | e
  · cases hw : walk (child m.mem) r q with
    | none =>
      rw [hw] at e
      exact Or.inr (entryAt_none e i)
    | some t =>
      rw [hw] at e
      rw [entryAt_some hw, entryAt_some e]
      exact h _ (by have := walk_dvd hr hw; omega)
  · exact Or.inr (entryAt_none e i)

/-! ## Releasing pages -/

/-- The roots are multiples of 8. -/
def Machine.Aligned (m : Machine) : Prop := 8 ∣ m.ttbr0 ∧ 8 ∣ m.ttbr1

theorem Machine.Aligned.l0Table (h : m.Aligned) (va : Nat) : 8 ∣ m.l0Table va := by
  unfold Machine.l0Table
  split
  · exact h.1
  · exact h.2

theorem SameRoots.l0Table (h : SameRoots m m') (va : Nat) : m'.l0Table va = m.l0Table va := by
  unfold Machine.l0Table
  rw [h.1, h.2]

theorem SameRoots.aligned (h : SameRoots m m') (ha : m.Aligned) : m'.Aligned := by
  unfold Machine.Aligned
  rw [h.1, h.2]
  exact ha

/-- Unmapping clears entries, among them the one of the address. -/
theorem unmapPage_cleared (h : m.Aligned) (va : Nat) :
    Cleared m.mem (unmapPage m va).mem ∧ getPhysFromVa (unmapPage m va) va = 0 := by
  have hl := (unmapPage_roots m va).l0Table va
  by_cases h0 : m.l0Table va = 0
  · rw [show unmapPage m va = m from if_pos h0]
    exact ⟨Cleared.rfl', if_pos h0⟩
  have hgone : ∀ {m' : Machine}, m'.l0Table va = m.l0Table va → ptePresent (m'.translate va) = false → getPhysFromVa m' va = 0 := by
    intro m' hl hp
    rw [getPhysFromVa_eq m' (by rw [hl]; exact h0), if_neg (by rw [hp]; exact Bool.false_ne_true)]
  cases hp : ptePresent (m.translate va) with
  | false =>
    rw [unmapPage_absent h0 hp]
    exact ⟨Cleared.rfl', hgone rfl hp⟩
  | true =>
    rcases translate_cases m va with ⟨hn, -⟩ | ⟨t1, t2, t3, h1, h2, h3, ht⟩
    · rw [hp] at hn
      cases hn
    have d1 := child_dvd h1
    have d2 := child_dvd h2
    have d3 := child_dvd h3
    have c1 := setPte_cleared m d3 (l3Index va)
    have hread : read64 (m.setPte t3 (l3Index va) 0).mem (t3 + 8 * (l3Index va)) = 0 := by
      rw [setPte_mem]
      exact read64_write64 m.mem (by decide)
    have c2 := dropTable_cleared (m.setPte t3 (l3Index va) 0) d2 (l2Index va) t3
    have c3 := dropTable_cleared ((m.setPte t3 (l3Index va) 0).dropTable t2 (l2Index va) t3) d1 (l1Index va) t2
    have c4 := dropTable_cleared (((m.setPte t3 (l3Index va) 0).dropTable t2 (l2Index va) t3).dropTable t1 (l1Index va) t2)
      (h.l0Table va) (l0Index va) t1
    -- whatever tables go, the leaf entry is 0 from the first write on
    have hlater : ∀ {m' : Machine}, Cleared (m.setPte t3 (l3Index va) 0).mem m'.mem → m'.l0Table va = m.l0Table va →
        ptePresent (m'.translate va) = false := by
      intro m' hc hl'
      have hw : walk (child m.mem) (m.l0Table va) (dirs va) = some t3 := by rw [dirs, walk_cons h1, walk_cons h2, walk_cons h3, walk_nil]
      unfold Machine.translate
      rw [hl']
      rcases cleared_walk (c1.trans hc) (h.l0Table va) (q := dirs va) with e | e
      · rw [hw] at e
        rw [entryAt_some e]
        rcases hc (t3 + 8 * (l3Index va)) (by omega) with e | e
        · rw [e, hread, ptePresent_zero]
        · rw [e, ptePresent_zero]
      · rw [entryAt_none e, ptePresent_zero]
    have hall : Cleared (m.setPte t3 (l3Index va) 0).mem (unmapPage m va).mem := by
      rw [unmapPage_eq h0 h1 h2 h3 (ht ▸ hp)]
      split
      · exact Cleared.rfl'
      split
      · exact c2
      split
      · exact c2.trans c3
      · exact (c2.trans c3).trans c4
    exact ⟨c1.trans hall, hgone hl (hlater hall hl)⟩

/-- What was unmapped stays so. -/
theorem cleared_lookup (h : m.Aligned) (hr : SameRoots m m') (hc : Cleared m.mem m'.mem) {va : Nat} (h0 : getPhysFromVa m va = 0) :
    getPhysFromVa m' va = 0 := by
  by_cases hl : m.l0Table va = 0
  · exact if_pos (by rw [hr.l0Table]; exact hl)
  rw [getPhysFromVa_eq m hl] at h0
  rw [getPhysFromVa_eq m' (by rw [hr.l0Table]; exact hl)]
  have he := cleared_entry hc (h.l0Table va) (dirs va) (l3Index va)
  unfold Machine.translate at *
  rw [hr.l0Table]
  rcases he with e | e
  · rw [e]
    exact h0
  · rw [e, ptePresent_zero]
    rfl

theorem releasePage_cleared (h : m.Aligned) (va : Nat) :
    Cleared m.mem (releasePage m va).mem ∧ getPhysFromVa (releasePage m va) va = 0 := by
  have hu := unmapPage_cleared h va
  unfold releasePage
  dsimp only
  split
  · have hr : SameRoots (unmapPage m va) ((unmapPage m va).putPage (getPhysFromVa m va)) := ⟨putPage_ttbr0 _ _, putPage_ttbr1 _ _⟩
    have hc : Cleared (unmapPage m va).mem ((unmapPage m va).putPage (getPhysFromVa m va)).mem := by
      rw [putPage_mem]
      exact Cleared.rfl'
    exact ⟨hu.1.trans hc, cleared_lookup ((unmapPage_roots m va).aligned h) hr hc hu.2⟩
  · exact hu

theorem releaseUpTo_cleared (n : Nat) : ∀ {m : Machine} {cur stop : Nat}, m.Aligned →
    Cleared m.mem (releaseUpTo m cur stop n).mem ∧
      ∀ j, j < n → cur + j * pageSize < stop → getPhysFromVa (releaseUpTo m cur stop n) (cur + j * pageSize) = 0 := by
  induction n with
  | zero => intro m cur stop _; exact ⟨Cleared.rfl', fun j hj => absurd hj (Nat.not_lt_zero j)⟩
  | succ n ih =>
    intro m cur stop ha
    unfold releaseUpTo
    by_cases hc : cur < stop
    · rw [if_pos hc]
      obtain ⟨h1, h2⟩ := releasePage_cleared ha cur
      have ha' := (releasePage_roots m cur).aligned ha
      obtain ⟨h3, h4⟩ := @ih _ (cur + pageSize) stop ha'
      refine ⟨h1.trans h3, fun j hj hlt => ?_⟩
      cases j with
      | zero =>
        rw [Nat.zero_mul, Nat.add_zero]
        exact cleared_lookup ha' (releaseUpTo_roots n _ _ _) h3 h2
      | succ j =>
        have e : cur + (j + 1) * pageSize = cur + pageSize + j * pageSize := by rw [Nat.succ_mul]; omega
        rw [e] at hlt ⊢
        exact h4 j (by omega) hlt
    · rw [if_neg hc]
      exact ⟨Cleared.rfl', fun j _ hlt => absurd hlt (by omega)⟩

/-- One translation for all addresses of a page. -/
theorem getPhysFromVa_page (m : Machine) {va va' : Nat} (h : va' / pageSize = va / pageSize) : getPhysFromVa m va' = getPhysFromVa m va := by
  have hs : va' >>> 12 = va >>> 12 := by
    rw [Nat.shiftRight_eq_div_pow, Nat.shiftRight_eq_div_pow]
    exact h
  obtain ⟨hd, hi⟩ := (path_iff va va').mpr (by rw [hs])
  have hu : isUserAddr va' = isUserAddr va := by
    unfold isUserAddr
    rw [show 47 = 12 + 35 from rfl, Nat.shiftRight_add, Nat.shiftRight_add, hs]
  have hl : m.l0Table va' = m.l0Table va := by
    unfold Machine.l0Table
    rw [hu]
  by_cases h0 : m.l0Table va = 0
  · rw [show getPhysFromVa m va = 0 from if_pos h0, show getPhysFromVa m va' = 0 from if_pos (hl.trans h0)]
  · rw [getPhysFromVa_eq m h0, getPhysFromVa_eq m (by rw [hl]; exact h0)]
    unfold Machine.translate
    rw [hl, hd, hi]

/-- The pages between two breaks are unmapped afterwards. -/
theorem release_range (h : m.Aligned) {lo hi : Nat} (h1 : 4096 ∣ lo) (hle : lo < hi) {a : Nat} (ha : a ∈ Set.Ico lo hi) :
    getPhysFromVa (releaseUpTo m lo hi ((hi - lo + (pageSize - 1)) / pageSize)) a = 0 := by
  have hp := ha.1
  have hlt := ha.2
  have hpage : a / pageSize = (lo + (a - lo) / pageSize * pageSize) / pageSize := by
    unfold pageSize
    omega
  rw [getPhysFromVa_page _ hpage]
  refine (releaseUpTo_cleared _ h).2 _ ?_ ?_
  · unfold pageSize
    omega
  · unfold pageSize
    omega

end

/-! ## The break -/

/-- The break moved from `s` to `s'`: what is between the two breaks was added or removed, and no
    other area changed. -/
structure BreakMoved (s s' : Space) (newBrk : Nat) : Prop where
  brk : s'.mm.brk = pageUp newBrk
  grown : s.mm.brk ≤ pageUp newBrk → s'.mm.Covered = s.mm.Covered ∪ Set.Ico s.mm.brk (pageUp newBrk)
  shrunk : pageUp newBrk < s.mm.brk → s'.mm.Covered = s.mm.Covered \ Set.Ico (pageUp newBrk) s.mm.brk ∧
    ∀ a ∈ Set.Ico (pageUp newBrk) s.mm.brk, getPhysFromVa s'.machine a = 0
  others : ∀ e : Nat × VmaArea, Disjoint e.2.addrs (Set.Ico (min s.mm.brk (pageUp newBrk)) (max s.mm.brk (pageUp newBrk))) →
    (e ∈ s'.mm.vmas.entries ↔ e ∈ s.mm.vmas.entries)

/-- A call that returned `r`. -/
structure BreakLaw (s s' : Space) (newBrk r : Nat) : Prop where
  moved : r = pageUp newBrk → BreakMoved s s' newBrk
  kept : r = s.mm.brk → s' = s
  /-- Growing again over what was given up succeeds, if no area is in the way. -/
  again : pageUp newBrk < s.mm.brk → ∀ g, g + 4095 < 2 ^ 64 → pageUp newBrk < pageUp g →
    Disjoint (Set.Ico (pageUp newBrk) (pageUp g)) (s.mm.Covered \ Set.Ico (pageUp newBrk) s.mm.brk) →
    ∃ m mm, doBrk s'.machine s'.mm g = some (m, mm, pageUp g)

/-- A smaller break is over a range no area meets, with no area at the old break. -/
def BreakFits (mm : MmStruct) (newBrk : Nat) : Prop :=
  pageUp newBrk < mm.brk → Disjoint mm.Covered (Set.Ico (pageUp newBrk) mm.brk) ∧ ∀ e ∈ mm.vmas.entries, e.2.vmStart ≠ mm.brk

section

variable {s s' : Space} {mm : MmStruct} {newBrk r : Nat}

theorem AreasOk.overlaps_iff (h : AreasOk mm.vmas) {lo hi : Nat} (hlt : lo < hi) :
    mm.overlaps lo hi = false ↔ Disjoint (Set.Ico lo hi) mm.Covered := by
  rw [h.apart_iff hlt]
  constructor
  · intro ho e he
    have := h.apart ho e he
    omega
  · intro hno
    unfold MmStruct.overlaps
    cases hl : mm.vmas.last fun k => decide (k < hi) with
    | none => rfl
    | some vma =>
      obtain ⟨k, hk, hp, -⟩ := SortedMap.last_max hl
      have hkey := h.keyed _ hk
      have hlast := hno _ hk
      have hlow := of_decide_eq_true hp
      dsimp only at hkey hlast ⊢
      exact decide_eq_false fun hm => hlast ⟨hm, by omega⟩

/-- An area that is added where none is adds its addresses. -/
theorem AreasOk.covered_insert (h : AreasOk mm.vmas) {lo hi : Nat} (flags b : Nat) (hlt : lo < hi) (ho : mm.overlaps lo hi = false) :
    ({ mm with vmas := mm.vmas.insert lo ⟨lo, hi, flags⟩, brk := b } : MmStruct).Covered = mm.Covered ∪ Set.Ico lo hi ∧
      ∀ e ∈ mm.vmas.entries, e.1 ≠ lo := by
  have hno : ∀ e ∈ mm.vmas.entries, e.1 ≠ lo := by
    intro e he hk
    have h1 := h.keyed e he
    have h2 := h.nonempty e he
    have h3 := h.apart ho e he
    omega
  refine ⟨Set.ext fun a => ?_, hno⟩
  constructor
  · intro ⟨e, he, ha⟩
    rcases SortedMap.mem_insert.mp he with rfl | ⟨he, -⟩
    · exact Or.inr ha
    · exact Or.inl ⟨e, he, ha⟩
  · intro ha
    rcases ha with ⟨e, he, ha⟩ | ha
    · exact ⟨e, SortedMap.mem_insert.mpr (Or.inr ⟨he, hno e he⟩), ha⟩
    · exact ⟨(lo, ⟨lo, hi, flags⟩), SortedMap.mem_insert.mpr (Or.inl rfl), ha⟩

theorem Space.Laid.grown (h : s.Laid) (hlt : s.mm.brk < pageUp newBrk) (ho : s.mm.overlaps s.mm.brk (pageUp newBrk) = false)
    (hs : s'.mm = { s.mm with vmas := s.mm.vmas.insert s.mm.brk ⟨s.mm.brk, pageUp newBrk, vmRead ||| vmWrite ||| vmAnonymous⟩,
                              brk := pageUp newBrk }) : BreakMoved s s' newBrk := by
  have hcov := h.areas.covered_insert (vmRead ||| vmWrite ||| vmAnonymous) (pageUp newBrk) hlt ho
  refine ⟨by rw [hs], fun _ => by rw [hs]; exact hcov.1, fun hgt => absurd hgt (by omega), fun e hd => ?_⟩
  rw [hs]
  constructor
  · intro he
    rcases SortedMap.mem_insert.mp he with rfl | ⟨he, -⟩
    · -- the new area is between the breaks
      rw [min_eq_left hlt.le, max_eq_right hlt.le] at hd
      exact absurd hd ((meets_iff hlt hlt).mpr ⟨hlt, hlt⟩)
    · exact he
  · intro he
    exact SortedMap.mem_insert.mpr (Or.inr ⟨he, hcov.2 e he⟩)

/-- Where no area starts at the old break, shrinking removes none. -/
theorem shrink_entries (h : AreasOk mm.vmas) (hno : ∀ e ∈ mm.vmas.entries, e.2.vmStart ≠ mm.brk) (b : Nat) :
    ∀ e, e ∈ ({ mm with vmas := mm.vmas.remove mm.brk, brk := b } : MmStruct).vmas.entries ↔ e ∈ mm.vmas.entries := by
  intro e
  rw [SortedMap.mem_remove]
  refine ⟨fun he => he.1, fun he => ⟨he, ?_⟩⟩
  rw [h.keyed e he]
  exact hno e he

theorem covered_congr {mm mm' : MmStruct} (h : ∀ e, e ∈ mm'.vmas.entries ↔ e ∈ mm.vmas.entries) : mm'.Covered = mm.Covered := by
  ext a
  exact ⟨fun ⟨e, he, ha⟩ => ⟨e, (h e).mp he, ha⟩, fun ⟨e, he, ha⟩ => ⟨e, (h e).mpr he, ha⟩⟩

theorem Space.Laid.shrunk (h : s.Laid) (hlt : pageUp newBrk < s.mm.brk) (hf : BreakFits s.mm newBrk)
    (hm : s'.machine = releaseUpTo s.machine (pageUp newBrk) s.mm.brk ((s.mm.brk - pageUp newBrk + (pageSize - 1)) / pageSize))
    (hs : s'.mm = { s.mm with vmas := s.mm.vmas.remove s.mm.brk, brk := pageUp newBrk }) : BreakMoved s s' newBrk := by
  obtain ⟨hd, hno⟩ := hf hlt
  have hent := shrink_entries h.areas hno (pageUp newBrk)
  refine ⟨by rw [hs], fun hge => absurd hge (by omega), fun _ => ⟨?_, fun a ha => ?_⟩, fun e _ => ?_⟩
  · rw [hs, covered_congr hent, sdiff_eq_left.mpr hd]
  · rw [hm]
    exact release_range ⟨h.ttbr0, h.ttbr1⟩ (pageUp_spec newBrk).2.2 hlt ha
  · rw [hs]
    exact hent e

theorem doBrk_grow {g : Nat} (m : Machine) (hg : g + 4095 < 2 ^ 64) (hlt : mm.brk < pageUp g)
    (ho : mm.overlaps mm.brk (pageUp g) = false) : doBrk m mm g =
      some (m, { mm with vmas := mm.vmas.insert mm.brk ⟨mm.brk, pageUp g, vmRead ||| vmWrite ||| vmAnonymous⟩, brk := pageUp g },
        pageUp g) := by
  unfold Mm.doBrk
  rw [alignUp_iff.mpr ⟨hg, rfl⟩, Option.bind_some, if_neg hlt.ne', if_pos hlt, ho]
  rfl

theorem Space.Laid.break_law (h : s.Laid) (hc : doBrk s.machine s.mm newBrk = some (s'.machine, s'.mm, r)) :
    BreakLaw s s' newBrk r ↔ BreakFits s.mm newBrk := by
  have h' : s'.Laid := h.step (step_of_brk hc)
  obtain ⟨-, ⟨hr, hm, hs, hcase⟩ | ⟨hr, hlt, ho, hm, hs⟩ | ⟨hr, hlt, hm, hs⟩⟩ := doBrk_cases hc
  · -- the break stays
    have hss : s' = s := Space.ext hm hs
    have hge : ¬ pageUp newBrk < s.mm.brk := by omega
    refine iff_of_true ⟨fun hr' => ?_, fun _ => hss, fun hlt => absurd hlt hge⟩ fun hlt => absurd hlt hge
    have he : pageUp newBrk = s.mm.brk := hr'.symm.trans hr
    rw [hss]
    refine ⟨he.symm, fun _ => ?_, fun hlt => absurd hlt hge, fun e _ => Iff.rfl⟩
    rw [he, Set.Ico_self, Set.union_empty]
  · -- it grows
    refine iff_of_true ⟨fun _ => h.grown hlt ho hs, fun hr' => ?_, fun hgt => absurd hgt hlt.not_gt⟩ fun hgt => absurd hgt hlt.not_gt
    exact absurd (hr.symm.trans hr') hlt.ne'
  · constructor
    · intro hlaw _
      obtain ⟨-, -, hsh, hothers⟩ := hlaw.moved hr
      have hcov := (hsh hlt).1
      rw [hs] at hothers hcov
      constructor
      · refine Set.disjoint_left.mpr fun a ha hab => ?_
        -- an area below the old break is not removed
        obtain ⟨e, he, h1, h2⟩ := ha
        have hkey := h.areas.keyed e he
        have hin : a ∈ ({ s.mm with vmas := s.mm.vmas.remove s.mm.brk, brk := pageUp newBrk } : MmStruct).Covered :=
          ⟨e, SortedMap.mem_remove.mpr ⟨he, by have := hab.2; omega⟩, h1, h2⟩
        rw [hcov] at hin
        exact hin.2 hab
      · intro e he hstart
        -- an area at the old break is none of the range, and is removed
        have hin := (hothers e (Set.disjoint_left.mpr fun a ha hab => by
          have h1 := ha.1
          have h2 := hab.2
          rw [max_eq_left hlt.le] at h2
          omega)).mpr he
        exact (SortedMap.mem_remove.mp hin).2 ((h.areas.keyed e he).trans hstart)
    · intro hf
      have hmoved := h.shrunk hlt hf hm hs
      refine ⟨fun _ => hmoved, fun hr' => absurd (hr.symm.trans hr') hlt.ne, fun _ g hg hgt hd => ?_⟩
      rw [← (hmoved.shrunk hlt).1] at hd
      rw [← hmoved.brk] at hgt hd
      exact ⟨_, _, doBrk_grow s'.machine hg hgt ((h'.areas.overlaps_iff hgt).mpr hd)⟩

/-- In every state of every run: `brk` moves exactly the break if and only if its condition is met. -/
theorem break_law_reach (hr : Reach Space.step (fun _ _ => True) Space.New s)
    (hc : doBrk s.machine s.mm newBrk = some (s'.machine, s'.mm, r)) : BreakLaw s s' newBrk r ↔ BreakFits s.mm newBrk :=
  (laid_reach hr).break_law hc

end

/-- A heap of two pages. -/
def heapSpace : Space :=
  ⟨bootMachine, { MmStruct.new with
    vmas := SortedMap.empty.insert 0 ⟨0, 0x2000, vmRead ||| vmWrite ||| vmAnonymous⟩, brk := 0x2000 }⟩

theorem heapSpace_reach : Reach Space.step (fun _ _ => True) Space.New heapSpace := by
  have hc : doBrk (emptySpace bootMachine).machine (emptySpace bootMachine).mm 0x2000 = some _ :=
    doBrk_grow bootMachine (by decide) (by decide) (by decide)
  rw [show pageUp 0x2000 = 0x2000 by decide] at hc
  exact (Reach.init emptySpace_new).step trivial (step_of_brk hc)

theorem heap_covered : heapSpace.mm.Covered = Set.Ico 0 0x2000 := by
  ext a
  constructor
  · intro ⟨e, he, ha⟩
    rw [show heapSpace.mm.vmas.entries = [(0, ⟨0, 0x2000, vmRead ||| vmWrite ||| vmAnonymous⟩)] from rfl, List.mem_singleton] at he
    rw [he] at ha
    exact ha
  · intro ha
    exact ⟨_, List.mem_singleton_self _, ha⟩

/-- Giving up the second page leaves its area: the break moves, and what is covered does not. -/
theorem shrink_keeps_area : ∃ s', Reach Space.step (fun _ _ => True) Space.New heapSpace ∧
    doBrk heapSpace.machine heapSpace.mm 0x1000 = some (s'.machine, s'.mm, 0x1000) ∧ ¬ BreakLaw heapSpace s' 0x1000 0x1000 := by
  obtain ⟨m, mm, r, hc⟩ := (laid_reach heapSpace_reach).brk_returns (show 0x1000 + 4095 < 2 ^ 64 by decide)
  have hr : r = 0x1000 := by
    obtain ⟨-, ⟨-, -, -, hcase⟩ | ⟨-, hlt, -⟩ | ⟨hr, -⟩⟩ := doBrk_cases hc
    · exact absurd hcase (by decide)
    · exact absurd hlt (by decide)
    · exact hr
  rw [hr] at hc
  refine ⟨⟨m, mm⟩, heapSpace_reach, hc, fun hlaw => ?_⟩
  have hfits : BreakFits heapSpace.mm 0x1000 := ((laid_reach heapSpace_reach).break_law hc).mp hlaw
  obtain ⟨hd, -⟩ := hfits (by decide)
  rw [heap_covered] at hd
  exact Set.disjoint_left.mp hd (show 0x1000 ∈ Set.Ico 0 0x2000 by decide) (by decide)

/-- The heap grows. -/
theorem break_law_grow : ∃ s', doBrk heapSpace.machine heapSpace.mm 0x3000 = some (s'.machine, s'.mm, 0x3000) ∧
    BreakLaw heapSpace s' 0x3000 0x3000 := by
  have hc : doBrk heapSpace.machine heapSpace.mm 0x3000 = some _ := doBrk_grow bootMachine (by decide) (by decide) (by decide)
  rw [show pageUp 0x3000 = 0x3000 by decide] at hc
  exact ⟨⟨_, _⟩, hc, (break_law_reach heapSpace_reach hc).mpr fun hlt => absurd hlt (by decide)⟩

end Myos.Mm
