/-
  Myos.Mm.FreeArea — the search for a free area (`find_free_area` in
  `rust/src/kernel/mm.rs`).

  The search stands at an address; the first area in the way, in the order of the keys,
  sends it to the end of that area, rounded up to a page, and the scan starts again.

  Proved: if no address it computes overflows the search ends, at the least page from
  `MMAP_BASE` on that has the room, whatever the bounds of the areas are; and it does not
  overflow exactly if there is such a page whose room ends below 2^64.
-/

import Myos.Mm.Areas

namespace Myos.Mm

open Pmm (pageSize)
open Lib (SortedMap)

variable {mm : MmStruct} {len : Nat}

def VmaArea.addrs (v : VmaArea) : Set Nat := Set.Ico v.vmStart v.vmEnd

/-- The addresses in an area. -/
def MmStruct.Covered (mm : MmStruct) : Set Nat := {a | ∃ e ∈ mm.vmas.entries, a ∈ e.2.addrs}

/-- The pages from `MMAP_BASE` on with `len` bytes that no area meets. -/
def MmStruct.Places (mm : MmStruct) (len : Nat) : Set Nat :=
  {a | 4096 ∣ a ∧ mmapBase ≤ a ∧ Disjoint (Set.Ico a (a + len)) mm.Covered}

/-- The addresses the search for `len` bytes stands at. -/
inductive MmStruct.Visited (mm : MmStruct) (len : Nat) : Nat → Prop where
  | base : mm.Visited len mmapBase
  | jump {a b : Nat} {vma : VmaArea} : mm.Visited len a → firstConflict a len mm.vmas.entries = some (some vma) →
      alignUp vma.vmEnd = some b → mm.Visited len b

/-- No address the search computes overflows. -/
structure MmStruct.SearchFits (mm : MmStruct) (len : Nat) : Prop where
  stop : ∀ a, mm.Visited len a → firstConflict a len mm.vmas.entries ≠ none
  jump : ∀ a, mm.Visited len a → ∀ vma, firstConflict a len mm.vmas.entries = some (some vma) → alignUp vma.vmEnd ≠ none

/-! ## One turn -/

/-- Two ranges of addresses meet in the way the code tests it. -/
theorem meets_iff {a b c d : Nat} (h1 : a < b) (h2 : c < d) : ¬ Disjoint (Set.Ico a b) (Set.Ico c d) ↔ a < d ∧ c < b := by
  rw [Set.Ico_disjoint_Ico]
  omega

theorem AreasOk.apart_iff (h : AreasOk mm.vmas) {lo hi : Nat} (hlt : lo < hi) :
    Disjoint (Set.Ico lo hi) mm.Covered ↔ ∀ e ∈ mm.vmas.entries, ¬ (lo < e.2.vmEnd ∧ e.2.vmStart < hi) := by
  constructor
  · intro hd e he hm
    refine (meets_iff hlt (h.nonempty e he)).mpr hm (hd.mono_right fun a ha => ?_)
    exact ⟨e, he, ha⟩
  · intro hno
    refine Set.disjoint_left.mpr fun a ha hc => ?_
    obtain ⟨e, he, h1, h2⟩ := hc
    exact hno e he ⟨lt_of_le_of_lt ha.1 h2, lt_of_le_of_lt h1 ha.2⟩

theorem firstConflict_clear {addr : Nat} {l : List (Nat × VmaArea)} (h : firstConflict addr len l = some none) :
    ∀ e ∈ l, ¬ (addr < e.2.vmEnd ∧ e.2.vmStart < addr + len) := by
  induction l with
  | nil => intro e he; cases he
  | cons e l ih =>
    intro f hf hm
    rw [firstConflict] at h
    rcases List.mem_cons.mp hf with rfl | hf
    · rw [if_pos hm.1] at h
      obtain ⟨stop, hstop, h⟩ := Option.bind_eq_some_iff.mp h
      obtain ⟨-, rfl⟩ := checkedAdd_eq.mp hstop
      rw [if_pos hm.2] at h
      cases h
    · split at h
      · obtain ⟨stop, -, h⟩ := Option.bind_eq_some_iff.mp h
        split at h
        · cases h
        · exact ih h f hf hm
      · exact ih h f hf hm

/-- From a place at or above `a` the area in the way of `a` is passed, rounding included. -/
theorem AreasOk.jump_le (h : AreasOk mm.vmas) (h0 : 0 < len) {a p k : Nat} {vma : VmaArea} (hp : p ∈ mm.Places len) (hap : a ≤ p)
    (hk : (k, vma) ∈ mm.vmas.entries) (hs : vma.vmStart < a + len) : vma.vmEnd ≤ p ∧ pageUp vma.vmEnd ≤ p := by
  obtain ⟨h4, -, hd⟩ := hp
  have hno := (h.apart_iff (by omega)).mp hd _ hk
  have hend : vma.vmEnd ≤ p := by
    by_contra hlt
    exact hno ⟨Nat.not_le.mp hlt, by dsimp only; omega⟩
  have := pageUp_spec vma.vmEnd
  omega

/-! ## The search -/

theorem AreasOk.findFreeFrom (h : AreasOk mm.vmas) (h0 : 0 < len) (ho : mm.SearchFits len) (fuel : Nat) : ∀ {a : Nat},
    mm.Visited len a → 4096 ∣ a → mmapBase ≤ a → (∀ p ∈ mm.Places len, a ≤ p) →
      (mm.vmas.entries.countP fun e => decide (a < e.2.vmEnd)) < fuel →
      ∃ r, findFreeFrom mm.vmas.entries len fuel a = some r ∧ IsLeast (mm.Places len) r := by
  induction fuel with
  | zero => intro a _ _ _ _ hf; exact absurd hf (Nat.not_lt_zero _)
  | succ fuel ih =>
    intro a hv h4 hb hmin hf
    unfold Mm.findFreeFrom
    cases hc : firstConflict a len mm.vmas.entries with
    | none => exact absurd hc (ho.stop a hv)
    | some o =>
      rw [Option.bind_some]
      cases o with
      | none =>
        exact ⟨a, rfl, ⟨h4, hb, (h.apart_iff (by omega)).mpr (firstConflict_clear hc)⟩, hmin⟩
      | some vma =>
        obtain ⟨hlt, hs, k, hk⟩ := firstConflict_some hc
        cases ha : alignUp vma.vmEnd with
        | none => exact absurd ha (ho.jump a hv vma hc)
        | some b =>
          have hcount := ahead_lt hk hlt (alignUp_eq ha).1
          have hle := (alignUp_eq ha).1
          dsimp only
          rw [ha, Option.bind_some]
          refine ih (hv.jump hc ha) (alignUp_eq ha).2 (hb.trans (hlt.le.trans hle)) (fun p hp => ?_) (by omega)
          rw [alignUp_pageUp ha]
          exact (h.jump_le h0 hp (hmin p hp) hk hs).2

/-- The search ends, and where it ends is the least place. -/
theorem find_free_area_least (h : AreasOk mm.vmas) (h0 : 0 < len) (ho : mm.SearchFits len) :
    ∃ r, mm.findFreeArea len = some r ∧
      (∀ fuel, mm.vmas.entries.length < fuel → findFreeFrom mm.vmas.entries len fuel mmapBase = some r) ∧
      IsLeast (mm.Places len) r := by
  have hbase : 4096 ∣ mmapBase := by unfold mmapBase; decide
  have hends : ∀ fuel, mm.vmas.entries.length < fuel →
      ∃ r, findFreeFrom mm.vmas.entries len fuel mmapBase = some r ∧ IsLeast (mm.Places len) r := fun fuel hf =>
    h.findFreeFrom h0 ho fuel .base hbase (le_refl _) (fun p hp => hp.2.1) (lt_of_le_of_lt List.countP_le_length hf)
  obtain ⟨r, hr, hleast⟩ := hends _ (Nat.lt_succ_self _)
  refine ⟨r, hr, fun fuel hf => ?_, hleast⟩
  obtain ⟨r', hr', hleast'⟩ := hends fuel hf
  rw [hr', hleast'.unique hleast]

/-! ## Overflow -/

/-- Below a place whose room ends below 2^64 nothing overflows. -/
theorem AreasOk.searchFits (h : AreasOk mm.vmas) (h0 : 0 < len) {p : Nat} (hp : p ∈ mm.Places len) (hlt : p + len < 2 ^ 64)
    (hl : 4096 ∣ len) : mm.SearchFits len := by
  have hle : ∀ a, mm.Visited len a → a ≤ p := by
    intro a hv
    induction hv with
    | base => exact hp.2.1
    | jump _ hc ha ih =>
      obtain ⟨-, hs, k, hk⟩ := firstConflict_some hc
      rw [alignUp_pageUp ha]
      exact (h.jump_le h0 hp ih hk hs).2
  refine ⟨fun a hv hc => ?_, fun a hv vma hc ha => ?_⟩
  · have h1 := firstConflict_none hc
    have h2 := hle a hv
    omega
  · obtain ⟨-, hs, k, hk⟩ := firstConflict_some hc
    obtain ⟨hend, -⟩ := h.jump_le h0 hp (hle a hv) hk hs
    have hno : ¬ vma.vmEnd + 4095 < 2 ^ 64 := fun hfit => by
      rw [alignUp_iff.mpr ⟨hfit, rfl⟩] at ha
      cases ha
    omega

theorem findFreeFrom_place (h : AreasOk mm.vmas) (h0 : 0 < len) (fuel : Nat) : ∀ {a r : Nat}, 4096 ∣ a → mmapBase ≤ a →
    findFreeFrom mm.vmas.entries len fuel a = some r → r ∈ mm.Places len := by
  induction fuel with
  | zero => intro a r _ _ hr; cases hr
  | succ fuel ih =>
    intro a r h4 hb hr
    unfold findFreeFrom at hr
    obtain ⟨o, hc, hr⟩ := Option.bind_eq_some_iff.mp hr
    cases o with
    | none =>
      cases hr
      exact ⟨h4, hb, (h.apart_iff (by omega)).mpr (firstConflict_clear hc)⟩
    | some vma =>
      obtain ⟨b, ha, hr⟩ := Option.bind_eq_some_iff.mp hr
      have hlt := (firstConflict_some hc).1
      exact ih (alignUp_eq ha).2 (by have := (alignUp_eq ha).1; omega) hr

/-- The search and the sum after it do not overflow exactly if there is room below 2^64. -/
theorem AreasOk.findFreeArea_fits (h : AreasOk mm.vmas) (h0 : 0 < len) (hl : 4096 ∣ len) :
    (∃ r, mm.findFreeArea len = some r ∧ r + len < 2 ^ 64) ↔ ∃ p ∈ mm.Places len, p + len < 2 ^ 64 := by
  constructor
  · intro ⟨r, hr, hlt⟩
    exact ⟨r, findFreeFrom_place h h0 _ (by unfold mmapBase; decide) (le_refl _) hr, hlt⟩
  · intro ⟨p, hp, hlt⟩
    obtain ⟨r, hr, -, hleast⟩ := find_free_area_least h h0 (h.searchFits h0 hp hlt hl)
    have := hleast.2 hp
    exact ⟨r, hr, by omega⟩

/-- Two areas with unaligned bounds: the search passes both. -/
def gapMm : MmStruct :=
  ⟨(SortedMap.empty.insert mmapBase ⟨mmapBase, mmapBase + 100, vmRead⟩).insert (mmapBase + 0x1800)
    ⟨mmapBase + 0x1800, mmapBase + 0x2800, vmRead⟩, 0, 0, 0⟩

theorem gapMm_areas : AreasOk gapMm.vmas := by
  have h1 : AreasOk (SortedMap.empty.insert mmapBase ⟨mmapBase, mmapBase + 100, vmRead⟩) :=
    AreasOk.empty.insert (by omega) (by simp [SortedMap.empty])
  refine h1.insert (by omega) fun e he => ?_
  rcases SortedMap.mem_insert.mp he with rfl | ⟨he, -⟩
  · left
    dsimp only
    omega
  · cases he

theorem find_free_area_gap : IsLeast (gapMm.Places 4096) (mmapBase + 0x3000) := by
  have hp : mmapBase + 0x3000 ∈ gapMm.Places 4096 := by
    refine ⟨by unfold mmapBase; decide, by omega, (gapMm_areas.apart_iff (by omega)).mpr (by decide)⟩
  obtain ⟨r, hr, -, hleast⟩ := find_free_area_least gapMm_areas (by decide : 0 < 4096)
    (gapMm_areas.searchFits (by decide) hp (by unfold mmapBase; decide) (by decide))
  obtain rfl : mmapBase + 0x3000 = r := Option.some.inj ((rfl : gapMm.findFreeArea 4096 = some (mmapBase + 0x3000)).symm.trans hr)
  exact hleast

end Myos.Mm
