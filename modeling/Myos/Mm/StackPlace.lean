/-
  Myos.Mm.StackPlace — where the loader puts the stack (`find_stack_top`).

  The top is the largest segment end rounded up to a megabyte, 0x80000000 at least, and
  the stack grows down from there into the rounding.

  Proved of every program that is loaded: the stack shares no page with a segment exactly
  if the largest end leaves sixteen pages below the top.
-/

import Myos.Mm.Image

namespace Myos.Mm

open Pmm Lib.Walk

/-- The largest end of a segment is sixteen pages below the least top, or above it and so far below a megabyte boundary. -/
def EndFits (maxEnd : Nat) : Prop :=
  maxEnd ≤ 0x7FFF0000 ∨ 0x80000000 < maxEnd ∧ 0 < maxEnd % 0x100000 ∧ maxEnd % 0x100000 ≤ 0xF0000

section

variable {segs : List Segment} {seg : Segment} {top maxEnd entry : Nat} {data : Slice}

theorem maxSegEnd_cons : maxSegEnd (seg :: segs) = some maxEnd ↔
    ∃ e, maxSegEnd segs = some e ∧ seg.vaddr + seg.memsz < 2 ^ 64 ∧ maxEnd = max (seg.vaddr + seg.memsz) e := by
  rw [maxSegEnd]
  constructor
  · intro h
    obtain ⟨x, hx, h⟩ := Option.bind_eq_some_iff.mp h
    obtain ⟨hlt, rfl⟩ := checkedAdd_eq.mp hx
    obtain ⟨e, he, h⟩ := Option.map_eq_some_iff.mp h
    exact ⟨e, he, hlt, h.symm⟩
  · rintro ⟨e, he, hlt, rfl⟩
    rw [checkedAdd_eq.mpr ⟨hlt, rfl⟩, Option.bind_some, he]
    rfl

/-- The end of each segment is at most the largest, and the largest is the end of one. -/
theorem maxSegEnd_spec : ∀ {segs : List Segment} {maxEnd : Nat}, maxSegEnd segs = some maxEnd →
    (∀ seg ∈ segs, seg.vaddr + seg.memsz ≤ maxEnd) ∧ (segs ≠ [] → ∃ seg ∈ segs, seg.vaddr + seg.memsz = maxEnd) := by
  intro segs
  induction segs with
  | nil => exact fun _ => ⟨nofun, fun h => absurd rfl h⟩
  | cons seg segs ih =>
    intro maxEnd h
    obtain ⟨e, he, -, rfl⟩ := maxSegEnd_cons.1 h
    obtain ⟨hle, hex⟩ := ih he
    refine ⟨fun s hs => ?_, fun _ => ?_⟩
    · rcases List.mem_cons.mp hs with rfl | hs
      · exact le_max_left _ _
      · exact (hle s hs).trans (le_max_right _ _)
    · rcases le_total e (seg.vaddr + seg.memsz) with hm | hm
      · exact ⟨seg, List.mem_cons_self .., (max_eq_left hm).symm⟩
      · rw [max_eq_right hm]
        by_cases hn : segs = []
        · subst hn
          cases he
          exact ⟨seg, List.mem_cons_self .., by omega⟩
        · obtain ⟨s, hs, hse⟩ := hex hn
          exact ⟨s, List.mem_cons_of_mem _ hs, hse⟩

theorem findStackTop_eq (h : findStackTop segs = some top) :
    ∃ maxEnd, maxSegEnd segs = some maxEnd ∧ top = max ((maxEnd + 0xFFFFF) / 0x100000 * 0x100000) 0x80000000 := by
  obtain ⟨maxEnd, he, h⟩ := Option.bind_eq_some_iff.mp h
  obtain ⟨x, hx, h⟩ := Option.map_eq_some_iff.mp h
  refine ⟨maxEnd, he, h.symm.trans ?_⟩
  have hx1 : x - 1 = maxEnd + 0xFFFFF := by
    have := (checkedAdd_eq.mp hx).2
    omega
  have hround : ∀ y, y - y % 0x100000 = y / 0x100000 * 0x100000 := fun y => by omega
  rw [hx1, hround]

theorem endFits_iff {maxEnd top : Nat} (h : top = max ((maxEnd + 0xFFFFF) / 0x100000 * 0x100000) 0x80000000) :
    EndFits maxEnd ↔ maxEnd + stackPages * pageSize ≤ top := by
  unfold EndFits stackPages pageSize
  omega

/-- The pages below the top are free of segments exactly if the last byte is. -/
theorem stack_apart (h : findStackTop segs = some top) (he : maxSegEnd segs = some maxEnd) (hne : segs ≠ [])
    (hm : ∀ seg ∈ segs, seg.memsz ≠ 0) :
    (∀ seg ∈ segs, ∀ k, seg.covers k = true → ¬ (top - stackPages * pageSize ≤ k * pageSize ∧ k * pageSize < top)) ↔
      EndFits maxEnd := by
  obtain ⟨e, he', htop⟩ := findStackTop_eq h
  obtain rfl : maxEnd = e := Option.some.inj (he.symm.trans he')
  obtain ⟨hle, hex⟩ := maxSegEnd_spec he
  rw [endFits_iff htop]
  constructor
  · intro hap
    by_contra hno
    obtain ⟨seg, hs, hse⟩ := hex hne
    -- the page of the last byte
    have hlast := hm seg hs
    refine hap seg hs ((maxEnd - 1) / pageSize) ?_ ?_
    · unfold Segment.covers
      rw [decide_eq_true_eq]
      unfold pageSize
      omega
    · unfold stackPages pageSize at *
      omega
  · intro hfit seg hs k hc
    have := hle seg hs
    unfold Segment.covers at hc
    rw [decide_eq_true_eq] at hc
    omega

end

/-- The stack of a loaded program is apart from its segments exactly if their largest end fits. -/
theorem stack_apart_iff {m m' : Machine} {data : Slice} {l : LoadedElf} {segs : List Segment} {entry : Nat}
    (h : loadElf m data = some (m', .ok l)) (hp : parseSegments data = some (.ok (segs, entry))) :
    (∀ seg ∈ segs, ∀ k, seg.covers k = true →
      ¬ (l.stackTop - stackPages * pageSize ≤ k * pageSize ∧ k * pageSize < l.stackTop)) ↔
      ∃ maxEnd, maxSegEnd segs = some maxEnd ∧ EndFits maxEnd := by
  obtain ⟨segs', hp', hd⟩ := loadElf_describes h
  rw [hp] at hp'
  cases hp'
  obtain ⟨hne, hm⟩ := parseSegments_memsz hp
  obtain ⟨maxEnd, he, -⟩ := findStackTop_eq hd.top
  rw [stack_apart hd.top he hne hm]
  constructor
  · intro hf
    exact ⟨maxEnd, he, hf⟩
  · rintro ⟨e, he', hf⟩
    rw [he] at he'
    cases he'
    exact hf

/-! ## The last page below a megabyte -/

/-- A program of one segment, at 0x800FF000. -/
def highElf : Slice where
  bytes
    | 0 => 0x7F | 1 => 0x45 | 2 => 0x4C | 3 => 0x46 | 4 => 2 | 5 => 1 | 6 => 1
    | 16 => 2 | 18 => 183 | 20 => 1 | 25 => 0xF0 | 26 => 0x0F | 27 => 0x80 | 32 => 64 | 54 => 56 | 56 => 1
    | 64 => 1 | 68 => 5 | 81 => 0xF0 | 82 => 0x0F | 83 => 0x80 | 96 => 120 | 104 => 120
    | _ => 0
  len := 120

theorem highElf_loadable : Loadable highElf [⟨0x800FF000, 120, 120, 0, 5⟩] 0x800FF000 :=
  .oneHeader (by decide) (by decide) (by decide) (by decide) (by decide) (by decide) (by decide) (by decide) (by decide)

/-- Its stack is mapped over its only page. -/
theorem stack_over_program : ∃ (m' : Machine) (l : LoadedElf) (segs : List Segment), loadElf bootMachine highElf = some (m', .ok l) ∧
    parseSegments highElf = some (.ok (segs, 0x800FF000)) ∧ ∃ seg ∈ segs, ∃ k, seg.covers k = true ∧
      l.stackTop - stackPages * pageSize ≤ k * pageSize ∧ k * pageSize < l.stackTop := by
  obtain ⟨m', l, hl, -⟩ := loadElf_room (n := 0) bootMachine_boot.world (by decide) highElf_loadable (bootMachine_room.le (by decide))
  obtain ⟨segs, hp, hd⟩ := loadElf_describes hl
  rw [highElf_loadable.parse] at hp
  obtain rfl : [⟨0x800FF000, 120, 120, 0, 5⟩] = segs := (Prod.mk.inj (Except.ok.inj (Option.some.inj hp))).1
  have htop : l.stackTop = 0x80100000 := Option.some.inj (hd.top.symm.trans (by decide))
  refine ⟨m', l, _, hl, highElf_loadable.parse, _, List.mem_singleton_self _, 0x800FF, by decide, ?_⟩
  rw [htop]
  decide

/-- The stack of the program at 0x400000 is apart. -/
theorem stack_apart_tiny : ∃ (m' : Machine) (l : LoadedElf), loadElf bootMachine tinyElf = some (m', .ok l) ∧
    ∀ seg ∈ [(⟨0x400000, 120, 120, 0, 5⟩ : Segment)], ∀ k, seg.covers k = true →
      ¬ (l.stackTop - stackPages * pageSize ≤ k * pageSize ∧ k * pageSize < l.stackTop) := by
  obtain ⟨m', l, hl, -⟩ := loadElf_room (n := 0) bootMachine_boot.world (by decide) tinyElf_loadable (bootMachine_room.le (by decide))
  exact ⟨m', l, hl, (stack_apart_iff hl tinyElf_loadable.parse).mpr ⟨0x400078, by decide, Or.inl (by decide)⟩⟩

end Myos.Mm
