/-
  Myos.Mm.Munmap — what a `munmap` that returns 0 removes.

  `do_munmap` looks up the one area around `addr`, removes the whole of it, and releases
  the pages from `addr` on up to the end of the area or of the range, whichever is first.

  Proved, over every run of harmless visits: the call removes exactly its range if and
  only if the area starts at `addr` and ends in the range, no other area meets the range,
  and the pages released are the mapped pages of the range.
-/

import Myos.Mm.AddressSpace

namespace Myos.Mm

open Pmm Lib.Walk Lib.Dyadic
open Lib (Reach SortedMap)

/-- An address the hardware translates: bits 63..47 are clear, or bits 63..48 are set. -/
def Canonical (va : Nat) : Prop := va < 2 ^ 47 ∨ 2 ^ 64 - 2 ^ 48 ≤ va ∧ va < 2 ^ 64

/-- The flags of the area of an address. -/
def MmStruct.flagsAt (mm : MmStruct) (a : Nat) : Option Nat := (mm.vmaFind a).map VmaArea.vmFlags

/-- The range of a call, `len` rounded up to pages. -/
def callRange (addr len : Nat) : Set Nat := Set.Ico addr (addr + pageUp len)

/-- The keys of the pages that meet `[lo, hi)`. -/
def keysOf (lo hi : Nat) : Finset (Bool × Nat) :=
  (Finset.Ico (lo / pageSize) ((hi + 4095) / pageSize)).image fun k => pageKey (k * pageSize)

/-- The entry of a page of the process leads to page frame `p`. -/
def Machine.MapsTo (m : Machine) (va p : Nat) : Prop :=
  m.Ours va ∧ ptePresent (m.translate va) = true ∧ pteToPhys (m.translate va) = pfnToPa p

/-- The pages of the range that lead to page frame `p`. -/
def Machine.taken (m : Machine) (addr len p : Nat) : Nat :=
  ∑ κ ∈ keysOf addr (addr + pageUp len), leadsTo (m.translate (keyAddr κ)) p

structure RangeRemoved (s s' : Space) (addr len : Nat) : Prop where
  flags : ∀ a, s'.mm.flagsAt a = open Classical in if a ∈ callRange addr len then none else s.mm.flagsAt a
  gone : ∀ a ∈ callRange addr len, s'.machine.mapping a = none
  kept : ∀ a, Canonical a → a ∉ callRange addr len → s'.machine.mapping a = s.machine.mapping a
  refs : ∀ va p, s.machine.MapsTo va p →
    (Used s'.machine.pmm p 0 ↔ s.machine.taken addr len p < (s.machine.pmm.memMap p).refCount) ∧
    (Used s'.machine.pmm p 0 → (s'.machine.pmm.memMap p).refCount + s.machine.taken addr len p = (s.machine.pmm.memMap p).refCount)

/-- The loop of `do_munmap` visits the page of `a`. -/
def Visits (addr stop a : Nat) : Prop := ∃ k, addr + k * pageSize < stop ∧ pageKey (addr + k * pageSize) = pageKey a

/-- What must hold of the area that is found. -/
structure MunmapFits (s : Space) (addr len : Nat) (vma : VmaArea) : Prop where
  start : vma.vmStart = addr
  stop : vma.vmEnd ≤ addr + pageUp len
  alone : ∀ e ∈ s.mm.vmas.entries, e.2 ≠ vma → Disjoint e.2.addrs (callRange addr len)
  outside : ∀ a, Canonical a → a ∉ callRange addr len → Visits addr vma.vmEnd a → s.machine.mapping a = none
  inside : ∀ a ∈ callRange addr len, ¬ Visits addr vma.vmEnd a → s.machine.mapping a = none

section

variable {m m' : Machine} {mm : MmStruct} {U : Finset Nat} {K : Set (Nat × Nat)} {ex ex' : Nat → Nat} {s s' : Space}
  {addr len : Nat} {vma : VmaArea}

theorem mem_keysOf {lo hi : Nat} (hlt : lo < hi) {κ : Bool × Nat} : κ ∈ keysOf lo hi ↔ ∃ a, lo ≤ a ∧ a < hi ∧ pageKey a = κ := by
  have hkey : ∀ a, pageKey (a / pageSize * pageSize) = pageKey a := fun a => pageKey_div (by unfold pageSize; omega)
  unfold keysOf
  rw [Finset.mem_image]
  constructor
  · intro ⟨k, hk, he⟩
    rw [Finset.mem_Ico] at hk
    unfold pageSize at hk
    by_cases hlo : lo ≤ k * pageSize
    · exact ⟨k * pageSize, hlo, by unfold pageSize; omega, he⟩
    · -- the first page may start below the range
      refine ⟨lo, le_refl _, by unfold pageSize at *; omega, ?_⟩
      rw [← he, ← hkey lo, show lo / pageSize = k by unfold pageSize at *; omega]
  · intro ⟨a, h1, h2, he⟩
    refine ⟨a / pageSize, ?_, by rw [hkey, he]⟩
    rw [Finset.mem_Ico]
    unfold pageSize
    omega

/-! ## The areas -/

theorem AreasOk.flagsAt_some (h : AreasOk mm.vmas) {e : Nat × VmaArea} (he : e ∈ mm.vmas.entries) {a : Nat} (ha : a ∈ e.2.addrs) :
    mm.flagsAt a = some e.2.vmFlags := by
  have hk := h.keyed e he
  unfold MmStruct.flagsAt
  rw [(h.vmaFind_iff a e.2).mpr ⟨by rw [← hk]; exact he, ha.1, ha.2⟩, Option.map_some]

/-- Removing an area takes the flags of its addresses. -/
theorem AreasOk.flagsAt_remove (h : AreasOk mm.vmas) (hv : mm.vmaFind addr = some vma) (a : Nat) :
    (mm.vmaRemove vma.vmStart).flagsAt a = open Classical in if a ∈ vma.addrs then none else mm.flagsAt a := by
  have hmem := ((h.vmaFind_iff addr vma).mp hv).1
  have h' : AreasOk (mm.vmaRemove vma.vmStart).vmas := h.remove vma.vmStart
  have hfind : ∀ v, (mm.vmaRemove vma.vmStart).vmaFind a = some v ↔ mm.vmaFind a = some v ∧ v.vmStart ≠ vma.vmStart := by
    intro v
    rw [h'.vmaFind_iff, h.vmaFind_iff]
    exact ⟨fun ⟨h1, h2⟩ => ⟨⟨(SortedMap.mem_remove.mp h1).1, h2⟩, (SortedMap.mem_remove.mp h1).2⟩,
      fun ⟨⟨h1, h2⟩, h3⟩ => ⟨SortedMap.mem_remove.mpr ⟨h1, h3⟩, h2⟩⟩
  unfold MmStruct.flagsAt
  by_cases ha : a ∈ vma.addrs
  · rw [if_pos ha]
    have hva : mm.vmaFind a = some vma := (h.vmaFind_iff a vma).mpr ⟨hmem, ha.1, ha.2⟩
    cases hr : (mm.vmaRemove vma.vmStart).vmaFind a with
    | none => rfl
    | some v =>
      obtain ⟨h1, h2⟩ := (hfind v).mp hr
      rw [hva] at h1
      cases h1
      exact absurd rfl h2
  · rw [if_neg ha]
    congr 1
    cases hr : mm.vmaFind a with
    | none =>
      cases hr' : (mm.vmaRemove vma.vmStart).vmaFind a with
      | none => rfl
      | some v =>
        rw [((hfind v).mp hr').1] at hr
        cases hr
    | some v =>
      refine (hfind v).mpr ⟨hr, fun he => ha ?_⟩
      obtain ⟨h1, h2, h3⟩ := (h.vmaFind_iff a v).mp hr
      have hvv : v = vma := by
        have := SortedMap.eq_of_key h1 hmem he
        exact (Prod.mk.inj this).2
      rw [← hvv]
      exact ⟨h2, h3⟩

/-! ## The pages -/

/-- The loop of `do_munmap` over an area that ends in the range. -/
theorem mem_visited_iff {stop n : Nat} (hn : stop ≤ addr + n * pageSize) (a : Nat) :
    pageKey a ∈ visited addr stop n ↔ Visits addr stop a := by
  rw [mem_visited]
  constructor
  · intro ⟨k, _, hlt, he⟩
    exact ⟨k, hlt, he⟩
  · intro ⟨k, hlt, he⟩
    refine ⟨k, ?_, hlt, he⟩
    unfold pageSize at *
    omega

/-- The count of a frame a page of the process leads to. -/
theorem Lent.count (h : Lent m U K ex) (hr : m.ttbr0 ∈ U) {va p : Nat} (hm : m.MapsTo va p) :
    0 < refs m.mem U ex p ∧ Used m.pmm p 0 ∧ (m.pmm.memMap p).refCount = refs m.mem U ex p := by
  obtain ⟨ho, hp, he⟩ := hm
  obtain ⟨q, hq, hpos, -⟩ := h.frame hr ho hp
  obtain rfl : p = q := pfnToPa_inj (he.symm.trans hq)
  obtain ⟨hu, -, hc⟩ := h.owned.frame p hpos
  exact ⟨hpos, hu, hc⟩

/-- A frame of the process after some pages were released. -/
theorem Released.count {S : Finset (Bool × Nat)} (h : Lent m U K ex) (hR : Released U K m m' ex ex' S) (hr : m.ttbr0 ∈ U)
    {va p : Nat} (hm : m.MapsTo va p) :
    (Used m'.pmm p 0 ↔ ∑ κ ∈ S, leadsTo (m.translate (keyAddr κ)) p < (m.pmm.memMap p).refCount) ∧
    (Used m'.pmm p 0 → (m'.pmm.memMap p).refCount + ∑ κ ∈ S, leadsTo (m.translate (keyAddr κ)) p = (m.pmm.memMap p).refCount) := by
  obtain ⟨hpos, -, hc⟩ := h.count hr hm
  have hrefs := hR.refs p
  rw [hc]
  have hiff : Used m'.pmm p 0 ↔ 0 < Mm.refs m'.mem U ex' p := by
    refine ⟨fun hu => ?_, fun hp => (hR.lent.owned.frame p hp).1⟩
    by_contra h0
    exact hR.freed p hpos (by omega) hu
  refine ⟨by rw [hiff]; omega, fun hu => ?_⟩
  rw [(hR.lent.owned.frame p (hiff.mp hu)).2.2]
  exact hrefs

theorem doMunmap_zero {r : Int} (h : doMunmap m mm addr len = some (m', s'.mm, r)) (hr : r = 0) :
    ∃ vma, mm.vmaFind addr = some vma ∧ s'.mm = mm.vmaRemove vma.vmStart ∧ 0 < pageUp len ∧
      m' = releaseUpTo m addr (min (addr + pageUp len) vma.vmEnd) (pageUp len / pageSize) := by
  unfold Mm.doMunmap at h
  split at h
  · cases h
    exact absurd hr (by decide)
  next hl =>
  obtain ⟨len', ha, h⟩ := Option.bind_eq_some_iff.mp h
  rw [alignUp_pageUp ha] at h
  cases hv : mm.vmaFind addr with
  | none =>
    rw [hv] at h
    cases h
    exact absurd hr (by decide)
  | some vma =>
    rw [hv] at h
    obtain ⟨stop, hstop, h⟩ := Option.map_eq_some_iff.mp h
    rw [(checkedAdd_eq.mp hstop).2] at h
    have hup := pageUp_spec len
    obtain ⟨h1, h2⟩ := Prod.mk.inj h
    exact ⟨vma, rfl, (Prod.mk.inj h2).1.symm, by omega, h1.symm⟩

/-! ## The law -/

theorem RangeRemoved.fits (h : AreasOk s.mm.vmas) (hlen : 0 < pageUp len) (hv : s.mm.vmaFind addr = some vma)
    (hmm : s'.mm = s.mm.vmaRemove vma.vmStart) (hon : vma.vmEnd ≤ addr + pageUp len → ∀ a, Visits addr vma.vmEnd a → s'.machine.mapping a = none)
    (hoff : vma.vmEnd ≤ addr + pageUp len → ∀ a, ¬ Visits addr vma.vmEnd a → s'.machine.mapping a = s.machine.mapping a)
    (hlaw : RangeRemoved s s' addr len) : MunmapFits s addr len vma := by
  obtain ⟨hmem, hs, he⟩ := (h.vmaFind_iff addr vma).mp hv
  -- what is removed is the area
  have hflags : ∀ a, (open Classical in if a ∈ vma.addrs then none else s.mm.flagsAt a) =
      open Classical in if a ∈ callRange addr len then none else s.mm.flagsAt a := fun a => by
    rw [← h.flagsAt_remove hv a, ← hmm]
    exact hlaw.flags a
  have hin : ∀ a, a ∈ vma.addrs → a ∈ callRange addr len := by
    intro a ha
    by_contra hno
    have := hflags a
    rw [if_pos ha, if_neg hno, h.flagsAt_some hmem ha] at this
    cases this
  have hstart := hin vma.vmStart ⟨le_refl _, by omega⟩
  have hstop : vma.vmEnd ≤ addr + pageUp len := by
    by_contra hlt
    exact absurd (hin (addr + pageUp len) ⟨by omega, by omega⟩).2 (lt_irrefl _)
  refine ⟨le_antisymm hs hstart.1, hstop, fun e hem hne => Set.disjoint_left.mpr fun a ha haR => ?_, fun a hc hno hvis => ?_,
    fun a ha hvis => ?_⟩
  · -- another area would keep its flags
    have hout : a ∉ vma.addrs := fun hav => by
      have hd := h.disjoint e hem _ hmem fun heq => hne (by rw [heq])
      have h1 := ha.1
      have h2 := ha.2
      have h3 := hav.1
      have h4 := hav.2
      dsimp only at hd
      omega
    have := hflags a
    rw [if_neg hout, if_pos haR, h.flagsAt_some hem ha] at this
    cases this
  · rw [← hlaw.kept a hc hno]
    exact hon hstop a hvis
  · rw [← hoff hstop a hvis]
    exact hlaw.gone a ha

theorem MunmapFits.flags (hf : MunmapFits s addr len vma) (h : AreasOk s.mm.vmas) (hv : s.mm.vmaFind addr = some vma)
    (hmm : s'.mm = s.mm.vmaRemove vma.vmStart) (a : Nat) :
    s'.mm.flagsAt a = open Classical in if a ∈ callRange addr len then none else s.mm.flagsAt a := by
  rw [hmm, h.flagsAt_remove hv]
  have hstart := hf.start
  have hstop := hf.stop
  by_cases ha : a ∈ vma.addrs
  · have hR : a ∈ callRange addr len := ⟨by have := ha.1; omega, by have := ha.2; omega⟩
    rw [if_pos ha, if_pos hR]
  · rw [if_neg ha]
    by_cases hR : a ∈ callRange addr len
    · rw [if_pos hR]
      -- no other area is there
      unfold MmStruct.flagsAt
      cases hfind : s.mm.vmaFind a with
      | none => rfl
      | some v =>
        obtain ⟨h1, h2, h3⟩ := (h.vmaFind_iff a v).mp hfind
        have hne : v ≠ vma := by
          rintro rfl
          exact ha ⟨h2, h3⟩
        exact absurd hR (Set.disjoint_left.mp (hf.alone _ h1 hne) ⟨h2, h3⟩)
    · rw [if_neg hR]

/-- The pages released are the mapped pages of the range. -/
theorem MunmapFits.taken (hf : MunmapFits s addr len vma) (hlen : 0 < pageUp len) {n : Nat} (hn : vma.vmEnd ≤ addr + n * pageSize) (p : Nat) :
    ∑ κ ∈ visited addr vma.vmEnd n, leadsTo (s.machine.translate (keyAddr κ)) p = s.machine.taken addr len p := by
  have hstop := hf.stop
  refine Finset.sum_subset (fun κ hκ => ?_) fun κ hκ hno => ?_
  · obtain ⟨k, -, hlt, rfl⟩ := mem_visited.mp hκ
    exact (mem_keysOf (by omega)).mpr ⟨addr + k * pageSize, Nat.le_add_right _ _, by omega, rfl⟩
  · obtain ⟨a, h1, h2, rfl⟩ := (mem_keysOf (by omega)).mp hκ
    rw [mem_visited_iff hn] at hno
    rw [keyAddr_key]
    exact leadsTo_absent (mapping_none.mp (hf.inside a ⟨h1, h2⟩ hno)) p

theorem Space.Held.munmap_iff (h : s.Held U K) (hh : (Call.munmap addr len).Harmless s)
    (hc : doMunmap s.machine s.mm addr len = some (s'.machine, s'.mm, 0)) :
    RangeRemoved s s' addr len ↔ ∃ vma, s.mm.vmaFind addr = some vma ∧ MunmapFits s addr len vma := by
  obtain ⟨ex, hl⟩ := h.lent
  obtain ⟨vma, hv, hmm, hlen, hm⟩ := doMunmap_zero hc rfl
  obtain ⟨ex', hR⟩ := hl.releaseUpTo (pageUp len / pageSize) h.root fun k _ hlt => hh vma hv k hlt
  rw [← hm] at hR
  -- a page count that reaches the end of the range
  have hn : addr + pageUp len = addr + pageUp len / pageSize * pageSize := by
    have := (pageUp_spec len).2.2
    unfold pageSize
    omega
  have hvis : vma.vmEnd ≤ addr + pageUp len → ∀ a,
      pageKey a ∈ visited addr (min (addr + pageUp len) vma.vmEnd) (pageUp len / pageSize) ↔ Visits addr vma.vmEnd a := by
    intro hstop a
    rw [min_eq_right hstop]
    exact mem_visited_iff (by omega) a
  have hon : vma.vmEnd ≤ addr + pageUp len → ∀ a, Visits addr vma.vmEnd a → s'.machine.mapping a = none := fun hstop a ha =>
    hR.on a ((hvis hstop a).mpr ha)
  have hoff : vma.vmEnd ≤ addr + pageUp len → ∀ a, ¬ Visits addr vma.vmEnd a → s'.machine.mapping a = s.machine.mapping a := by
    intro hstop a ha
    unfold Machine.mapping
    rw [hR.off a fun hm => ha ((hvis hstop a).mp hm)]
  constructor
  · intro hlaw
    exact ⟨vma, hv, hlaw.fits h.areas hlen hv hmm hon hoff⟩
  · intro ⟨vma', hv', hf⟩
    rw [hv] at hv'
    cases hv'
    refine ⟨hf.flags h.areas hv hmm, fun a ha => ?_, fun a hc ha => ?_, fun va p hp => ?_⟩
    · by_cases hva : Visits addr vma.vmEnd a
      · exact hon hf.stop a hva
      · rw [hoff hf.stop a hva]
        exact hf.inside a ha hva
    · by_cases hva : Visits addr vma.vmEnd a
      · rw [hon hf.stop a hva, hf.outside a hc ha hva]
      · exact hoff hf.stop a hva
    · have hcount := hR.count hl h.root hp
      have hstop := hf.stop
      rw [min_eq_right hf.stop, hf.taken hlen (by omega)] at hcount
      exact hcount

/-- In every state of every run of harmless visits, a harmless `munmap` that returns 0 removes exactly
    its range if and only if it fits the area it finds. -/
theorem munmap_exact_reach (hr : Reach Space.visit (fun s v => v.Harmless s) (Space.Held U K) s)
    (hh : (Call.munmap addr len).Harmless s) (hc : doMunmap s.machine s.mm addr len = some (s'.machine, s'.mm, 0)) :
    RangeRemoved s s' addr len ↔ ∃ vma, s.mm.vmaFind addr = some vma ∧ MunmapFits s addr len vma :=
  (held_reach hr).munmap_iff hh hc

end

/-- A process with an area of two pages, none of them mapped. -/
def areaSpace (m : Machine) : Space :=
  ⟨m, { MmStruct.new with vmas := SortedMap.empty.insert 0x10000 ⟨0x10000, 0x12000, vmRead ||| vmWrite⟩ }⟩

section

variable {m : Machine} {C : Nat}

theorem areaSpace_find : (areaSpace m).mm.vmaFind 0x10000 = some ⟨0x10000, 0x12000, vmRead ||| vmWrite⟩ := rfl

theorem areaSpace_held (h0 : m.ttbr0 = C) (hl : Lent m {C} ∅ fun _ => 0) : (areaSpace m).Held {C} ∅ :=
  ⟨AreasOk.empty.insert (by decide) (fun e he => by cases he), by rw [← h0]; exact Finset.mem_singleton_self _, _, hl⟩

theorem areaSpace_harmless (hn : ∀ va, m.mapping va = none) (addr len : Nat) : (Call.munmap addr len).Harmless (areaSpace m) :=
  fun vma _ k _ => Or.inr fun hp => by
    rw [show (areaSpace m).machine = m from rfl, mapping_none.mp (hn _)] at hp
    exact absurd hp Bool.false_ne_true

theorem areaSpace_munmap {len : Nat} (hl : len ≠ 0) (hlt : len + 4095 < 2 ^ 64) (hfit : 0x10000 + pageUp len < 2 ^ 64) :
    ∃ s', doMunmap (areaSpace m).machine (areaSpace m).mm 0x10000 len = some (Space.machine s', s'.mm, 0) := by
  unfold Mm.doMunmap
  rw [if_neg hl, alignUp_iff.mpr ⟨hlt, rfl⟩, Option.bind_some, areaSpace_find]
  dsimp only
  rw [checkedAdd_eq.mpr ⟨hfit, rfl⟩, Option.map_some]
  exact ⟨⟨_, _⟩, rfl⟩

end

/-- Unmapping the first page of an area takes the second one's area too. -/
theorem munmap_takes_whole_area : ∃ (s s' : Space) (U : Finset Nat), s.Held U ∅ ∧ (Call.munmap 0x10000 0x1000).Harmless s ∧
    doMunmap s.machine s.mm 0x10000 0x1000 = some (s'.machine, s'.mm, 0) ∧ ¬ RangeRemoved s s' 0x10000 0x1000 := by
  obtain ⟨m, C, h0, hl, hn, -⟩ := first_process
  have hup : pageUp 0x1000 = 0x1000 := by decide
  obtain ⟨s', hs⟩ := areaSpace_munmap (m := m) (show 0x1000 ≠ 0 by decide) (by decide) (by rw [hup]; decide)
  have hheld := areaSpace_held h0 hl
  have hharm := areaSpace_harmless hn 0x10000 0x1000
  refine ⟨areaSpace m, s', {C}, hheld, hharm, hs, fun hlaw => ?_⟩
  obtain ⟨vma, hv, hf⟩ := (hheld.munmap_iff hharm hs).mp hlaw
  rw [areaSpace_find] at hv
  cases hv
  have := hf.stop
  rw [hup] at this
  exact absurd this (by decide)

/-- The whole area. -/
theorem munmap_exact_area : ∃ s s' : Space, doMunmap s.machine s.mm 0x10000 0x2000 = some (s'.machine, s'.mm, 0) ∧
    RangeRemoved s s' 0x10000 0x2000 := by
  obtain ⟨m, C, h0, hl, hn, -⟩ := first_process
  have hup : pageUp 0x2000 = 0x2000 := by decide
  obtain ⟨s', hs⟩ := areaSpace_munmap (m := m) (show 0x2000 ≠ 0 by decide) (by decide) (by rw [hup]; decide)
  refine ⟨areaSpace m, s', hs, (munmap_exact_reach (.init (areaSpace_held h0 hl)) (areaSpace_harmless hn _ _) hs).mpr
    ⟨_, areaSpace_find, rfl, le_of_eq (by rw [hup]), fun e he hne => ?_, fun a _ _ _ => hn a, fun a _ _ => hn a⟩⟩
  have he' : e ∈ [(0x10000, (⟨0x10000, 0x12000, vmRead ||| vmWrite⟩ : VmaArea))] := he
  rw [List.mem_singleton] at he'
  exact absurd (by rw [he']) hne

end Myos.Mm
