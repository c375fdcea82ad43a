/-
  Myos.Mm.LoadFailure — what a program load that fails leaves behind (`load_elf`).

  The root of the new tree is allocated before the pages, and no error path after that
  gives it back: the root, the tables below it and the pages they lead to stay allocated.
  A stack page that cannot be had leaves the new root in TTBR0 as well.

  Proved: a load that fails leaves TTBR0 and the blocks in use as they were exactly if it
  failed before the root was there.
-/

import Myos.Mm.Exec
import Myos.Mm.Fork
import Myos.Mm.Shortage

namespace Myos.Mm

open Pmm Lib.Walk Lib.Dyadic

/-- TTBR0 is what it was, and the same blocks are in use. -/
structure Clean (m m' : Machine) : Prop where
  ttbr0 : m'.ttbr0 = m.ttbr0
  used : ∀ p k, Used m'.pmm p k ↔ Used m.pmm p k

/-- The file is refused for its headers. -/
def Refused (data : Slice) : Prop := (∃ e, validateElf data = .error e) ∨ ∃ e, parseSegments data = some (.error e)

section

variable {m m' m1 : Machine} {U : Finset Nat} {K : Set (Nat × Nat)} {ex : Nat → Nat} {data : Slice} {e : String} {pgd : Nat}

/-- The three places where a load fails. -/
theorem loadElf_error (h : loadElf m data = some (m', .error e)) :
    Refused data ∧ m' = m ∨
    (createUserPgd m).2 = none ∧ m' = (createUserPgd m).1 ∨
    ¬ Refused data ∧ ∃ pgd segs, (createUserPgd m).2 = some pgd ∧
      loadImage (createUserPgd m).1 data pgd segs = some (m', .error e) := by
  unfold loadElf at h
  cases hv : validateElf data with
  | error e =>
    rw [hv] at h
    cases h
    exact Or.inl ⟨Or.inl ⟨e, hv⟩, rfl⟩
  | ok _ =>
    rw [hv] at h
    obtain ⟨r, hp, h⟩ := Option.bind_eq_some_iff.mp h
    cases r with
    | error e =>
      cases h
      exact Or.inl ⟨Or.inr ⟨e, hp⟩, rfl⟩
    | ok r =>
      obtain ⟨segs, entry⟩ := r
      rcases hc : createUserPgd m with ⟨m1, o⟩
      cases o with
      | none =>
        simp only [hc] at h
        cases h
        exact Or.inr (Or.inl ⟨rfl, rfl⟩)
      | some pgd =>
        simp only [hc] at h
        obtain ⟨⟨m2, r2⟩, hi, h⟩ := Option.bind_eq_some_iff.mp h
        cases r2 with
        | error e' =>
          cases h
          refine Or.inr (Or.inr ⟨?_, pgd, segs, rfl, hi⟩)
          rintro (⟨e, he⟩ | ⟨e, he⟩)
          · rw [hv] at he
            cases he
          · rw [hp] at he
            cases he
        | ok r2 =>
          obtain ⟨x, -, h⟩ := Option.bind_eq_some_iff.mp h
          split at h <;> cases h

theorem createUserPgd_failed (hw : World m U K ex) (h : (createUserPgd m).2 = none) : Clean m (createUserPgd m).1 := by
  unfold createUserPgd at h ⊢
  by_cases h0 : (m.allocPage 0).2 = 0
  · obtain ⟨err, hm⟩ := allocPage_failed hw.owned h0
    rw [if_pos h0, hm]
    exact ⟨rfl, fun _ _ => Iff.rfl⟩
  · rw [if_neg h0] at h
    cases h

/-- A tree that is part of the world has its root in use. -/
theorem World.root_used (hw : World m U K ex) {p : Nat} (hp : pfnToPa p ∈ U) : Used m.pmm p 0 := by
  have htab : ∀ R : Set Nat, pfnToPa p ∈ R → Table m.mem R (pfnToPa p) := fun R hR => ⟨_, hR, [], by simp, walk_nil _ _⟩
  obtain ⟨-, hun | ⟨q, hq, hu, -⟩⟩ := hw.owned.table _ (htab _ (mem_roots hp))
  · exact absurd hun (hw.managed _ (htab _ (Finset.mem_coe.mpr hp)))
  · rwa [pfnToPa_inj hq]

/-- Once the root is there a failure keeps it. -/
theorem loadImage_keeps_root (hw : World m U K ex) (hc : (createUserPgd m).2 = some pgd) {segs : List Segment}
    (h : loadImage (createUserPgd m).1 data pgd segs = some (m', .error e)) : ¬ Clean m m' := by
  intro hclean
  rcases hw.newPgd with ⟨h0, -⟩ | ⟨q, hq, hnR, hw1, hQ, hg, hz⟩
  · rw [hc] at h0
    cases h0
  rw [hc] at hq
  obtain rfl : pgd = pfnToPa q := Option.some.inj hq
  have hfree : ¬ Used m.pmm q 0 := by
    rcases createUserPgd_cases hw.owned with ⟨h0, -⟩ | ⟨p, hp, hA⟩ <;> rw [hc] at *
    · cases h0
    · obtain rfl : q = p := pfnToPa_inj (Option.some.inj hp)
      refine fun hu => hA.fresh q 0 q hu ?_ ?_ <;> unfold Covers <;> omega
  have hL0 : Loading U K m ex (pfnToPa q) False (createUserPgd m).1 ex := hw1.loading hQ hg hz
  obtain ⟨ex', hL, -⟩ := hL0.loadImage (fun hmem => hnR (mem_roots hmem)) False.elim h
  exact hfree ((hclean.used q 0).mp (hL.world.root_used (Finset.mem_insert_self _ _)))

/-- A load that fails is clean exactly if the headers are refused or no page is free for the root. -/
theorem load_clean_iff (hw : World m U K ex) (h : loadElf m data = some (m', .error e)) :
    Clean m m' ↔ Refused data ∨ ¬ Room m.pmm 1 := by
  rcases loadElf_error h with ⟨hr, rfl⟩ | ⟨hc, rfl⟩ | ⟨hr, pgd, segs, hc, hi⟩
  · exact iff_of_true ⟨rfl, fun _ _ => Iff.rfl⟩ (Or.inl hr)
  · refine iff_of_true (createUserPgd_failed hw hc) (Or.inr ?_)
    rcases createUserPgd_cases hw.owned with ⟨-, hno⟩ | ⟨p, hp, -⟩
    · exact hno
    · rw [hc] at hp
      cases hp
  · refine iff_of_false (loadImage_keeps_root hw hc hi) (not_or.mpr ⟨hr, not_not.mpr ?_⟩)
    rcases createUserPgd_cases hw.owned with ⟨hn, -⟩ | ⟨p, -, hA⟩
    · rw [hc] at hn
      cases hn
    · exact (Room.alloc_iff hA).mpr (Room.zero _)

/-! ## A single free page -/

theorem allocAndMapPage_full {R : Set Nat} {rf : Nat → Nat} (h : Owned m R K rf) (hno : ¬ Room m.pmm 1) (pgd va prot : Nat) :
    ∃ m', allocAndMapPage m pgd va prot = (m', .error "alloc phys page failed") := by
  rcases allocPage_cases h (show gfpKernel &&& gfpDma = 0 by decide) with ⟨h0, -⟩ | ⟨p, -, hN⟩
  · exact ⟨_, by rw [allocAndMapPage, if_pos h0]⟩
  · exact absurd ((Room.zero _).before hN.alloc) hno

/-- With one page free the root takes it. -/
theorem tinyElf_fails (hw : World m U K ex) (h1 : Room m.pmm 1) (h2 : ¬ Room m.pmm 2) :
    ∃ m', loadElf m tinyElf = some (m', .error "alloc phys page failed") := by
  rcases createUserPgd_cases hw.owned with ⟨-, hno⟩ | ⟨p, hpgd, hA⟩
  · exact absurd h1 hno
  rcases hw.newPgd with ⟨h0, -⟩ | ⟨q, -, -, hw1, -⟩
  · rw [hpgd] at h0
    cases h0
  have hfull : ¬ Room (createUserPgd m).1.pmm 1 := fun h => h2 ((Room.alloc_iff hA).mpr h)
  rcases hm : createUserPgd m with ⟨m1, o⟩
  rw [hm] at hpgd hw1 hfull
  obtain rfl : o = some (pfnToPa p) := hpgd
  obtain ⟨m2, h2⟩ := allocAndMapPage_full hw1.owned hfull (pfnToPa p) 0x400000 (flagsToPageProt 5)
  refine ⟨m2, ?_⟩
  have hstop : segEnd ⟨0x400000, 120, 120, 0, 5⟩ = some 0x401000 := by decide
  have hpages : pagesTo 0x400000 0x401000 = 1 := by decide
  have hl : loadPages m1 tinyElf (pfnToPa p) ⟨0x400000, 120, 120, 0, 5⟩ 0x400000 (0, 0) 1 =
      some (m2, .error "alloc phys page failed") := by
    unfold loadPages
    rw [h2]
  unfold loadElf
  rw [tinyElf_loadable.valid, tinyElf_loadable.parse]
  simp only [Option.bind_some, hm, loadImage, loadSegments, hstop, hpages, hl]

end

/-- The program is refused and its root stays allocated. -/
theorem failed_load_keeps_root : ∃ (m m' : Machine) (U : Finset Nat) (K : Set (Nat × Nat)) (e : String),
    World m U K (fun _ => 0) ∧ loadElf m tinyElf = some (m', .error e) ∧ ¬ Clean m m' := by
  have hmax : ¬ Room bootMachine.pmm (1 + totalPages) := fun h => absurd (room_le_totalPages h) (by omega)
  obtain ⟨s, K, hw, h1, h2⟩ := World.exhaust (m := bootMachine) 1 _ bootMachine_boot.world (bootMachine_room.le (by decide)) hmax
  obtain ⟨m', h⟩ := tinyElf_fails hw h1 h2
  refine ⟨_, m', ∅, K, _, hw, h, ?_⟩
  rcases loadElf_error h with ⟨hr, -⟩ | ⟨hc, -⟩ | ⟨-, pgd, segs, hc, hi⟩
  · rcases hr with ⟨e, he⟩ | ⟨e, he⟩
    · rw [tinyElf_loadable.valid] at he
      cases he
    · rw [tinyElf_loadable.parse] at he
      cases he
  · rcases createUserPgd_cases hw.owned with ⟨-, hno⟩ | ⟨p, hp, -⟩
    · exact absurd h1 hno
    · rw [hc] at hp
      cases hp
  · exact loadImage_keeps_root hw hc hi

/-- A file that is no program is refused before anything is allocated. -/
theorem empty_load_clean : ∃ (m' : Machine) (e : String),
    loadElf bootMachine ⟨fun _ => 0, 0⟩ = some (m', .error e) ∧ Clean bootMachine m' := by
  have h : loadElf bootMachine ⟨fun _ => 0, 0⟩ = some (bootMachine, .error "ELF too short") := rfl
  exact ⟨_, _, h, (load_clean_iff bootMachine_boot.world h).mpr (Or.inl (Or.inl ⟨_, rfl⟩))⟩

end Myos.Mm
