/-
  Myos.Mm.Progress — operations succeed while enough pages are free.

  `Room s n`: `n` pages are free. A mapping takes a page for each missing table, three at
  most; a fork takes one for each table of the parent; a program takes its pages, its
  stack and their tables.
-/

import Myos.Mm.Elf
import Myos.Mm.CopyTables

namespace Myos.Mm

open Pmm Lib.Walk Lib.Dyadic

section

variable {m m' m0 : Machine} {R : Set Nat} {U : Finset Nat} {K : Set (Nat × Nat)} {ex ex0 rf : Nat → Nat} {new va n : Nat}
  {d : List Idx}

theorem allocPage_room (h : Owned m R K rf) {flags : Nat} (hf : flags &&& gfpDma = 0) (hn : Room m.pmm (n + 1)) :
    ∃ p, (m.allocPage flags).2 = pfnToPa p ∧ NewBlock m (m.allocPage flags).1 R K rf p 0 ∧
      Room (m.allocPage flags).1.pmm n := by
  rcases allocPage_cases h hf with ⟨-, -, hno⟩ | ⟨p, hpa, hN⟩
  · exact absurd (hn.le (by omega)) hno
  · exact ⟨p, hpa, hN, hn.less hN.alloc⟩

theorem createUserPgd_room (h : Owned m R K rf) (hn : Room m.pmm (n + 1)) :
    (createUserPgd m).2 ≠ none ∧ Room (createUserPgd m).1.pmm n := by
  obtain ⟨p, hpa, hN, hR⟩ := allocPage_room h (show 0 &&& gfpDma = 0 by decide) hn
  rw [createUserPgd, hpa, if_neg (pfnToPa_ne_zero p)]
  exact ⟨fun e => (by cases e), hR⟩

theorem demandPage_room (h : Owned m R K rf) {prot : Nat} (hr : m.l0Table va ∈ R) (h0 : m.l0Table va ≠ 0)
    (hp : ProtOk prot) (hn : Room m.pmm (n + 4)) :
    (demandPage m va prot).2 = .handled ∧ Room (demandPage m va prot).1.pmm n ∧
      Grew R m (demandPage m va prot).1 (m.l0Table va) (dirs va) := by
  rcases demandPage_stages h va prot with ⟨-, hno⟩ | ⟨p, m1, -, hA, hP, hl, hd⟩
  · exact absurd (hn.le (by omega)) hno
  obtain ⟨hg, hk⟩ := mapPage_grows hP.owned (by rw [hl]; exact hr) hp.lt
  obtain ⟨he, hR2⟩ := hk (by rw [hl]; exact h0) n (hn.less hA)
  rw [hd, if_neg (not_not.mpr he)]
  rw [hl] at hg
  exact ⟨rfl, hR2, (Grew.of_walks hP.walks).trans hg⟩

theorem Loading.allocAndMapPage_room (h : Loading U K m0 ex0 new False m ex) (hnew : new ≠ 0) (hk : m.ttbr1 ≠ 0)
    {prot : Nat} (hp : ProtOk prot) (hn : Room m.pmm (n + 4)) :
    (∃ pa, (Mm.allocAndMapPage m new va prot).2 = .ok pa) ∧ Room (Mm.allocAndMapPage m new va prot).1.pmm n := by
  obtain ⟨p, hpa, hN, hR⟩ := allocPage_room (n := n + 3) h.world.owned (show gfpKernel &&& gfpDma = 0 by decide) hn
  have hP : Prepared (roots m (insert new U)) K (refs m.mem (insert new U) ex) m
      ((m.allocPage gfpKernel).1.clearPage (pfnToPa p)) p fun x =>
        zeroPage (m.allocPage gfpKernel).1.mem (pfnToPa p) (pfnToPa p + x) := hN.prepare fun x hx => zeroPage_other hx
  have hR' : Room ((m.allocPage gfpKernel).1.clearPage (pfnToPa p)).pmm (n + 3) := by rw [clearPage_pmm]; exact hR
  rw [Mm.allocAndMapPage, hpa, if_neg (pfnToPa_ne_zero p)]
  generalize (m.allocPage gfpKernel).1.clearPage (pfnToPa p) = m1 at *
  have hl : (m1.switch new).l0Table va = if isUserAddr va = true then new else m.ttbr1 := by
    unfold Machine.l0Table
    rw [switch_ttbr0, switch_ttbr1, hP.quiet.ttbr1]
  have hlR : (m1.switch new).l0Table va ∈ roots m (insert new U) ∧ (m1.switch new).l0Table va ≠ 0 := by
    rw [hl]
    split
    · exact ⟨mem_roots (Finset.mem_insert_self _ _), hnew⟩
    · exact ⟨kernel_mem_roots, hk⟩
  obtain ⟨-, hk⟩ := mapPage_grows (hP.owned.switch new) hlR.1 hp.lt
  obtain ⟨he, hR2⟩ := hk hlR.2 n (by rw [switch_pmm]; exact hR')
  rw [if_pos he]
  exact ⟨⟨_, rfl⟩, hR2⟩

theorem copySegment_some {data : Slice} {seg : Segment} (ho : seg.offset + seg.filesz < 2 ^ 64) (pa inSeg : Nat) :
    ∃ m', copySegment m data seg pa inSeg = some m' ∧ m'.pmm = m.pmm ∧ m'.ttbr1 = m.ttbr1 := by
  unfold copySegment
  by_cases h : inSeg < seg.filesz
  · rw [if_pos h, checkedAdd, if_pos (by omega), Option.map_some]
    exact ⟨_, rfl, rfl, rfl⟩
  · rw [if_neg h]
    exact ⟨m, rfl, rfl, rfl⟩

theorem loadPages_room (hn : new ∉ U) (h0 : new ≠ 0) (hk : m0.ttbr1 ≠ 0) {data : Slice} {seg : Segment}
    (ho : seg.offset + seg.filesz < 2 ^ 64) (n : Nat) : ∀ {m : Machine} {ex : Nat → Nat} {va k : Nat} {first : Nat × Nat},
      Loading U K m0 ex0 new False m ex → Room m.pmm (k + 4 * n) →
      ∃ m' first', loadPages m data new seg va first n = some (m', .ok first') ∧ Room m'.pmm k := by
  induction n with
  | zero => intro m ex va k first _ hR; exact ⟨m, first, rfl, hR⟩
  | succ n ih =>
    intro m ex va k first h hR
    obtain ⟨⟨pa, hpa⟩, hR1⟩ := h.allocAndMapPage_room h0 (by rw [h.ttbr1]; exact hk)
      (flagsToPageProt_ok seg.flags) (n := k + 4 * n) (by rw [Nat.add_assoc, ← Nat.mul_succ]; exact hR)
    obtain ⟨ex1, h1, -, hok⟩ := h.allocAndMapPage hn (flagsToPageProt_ok seg.flags) False.elim
    unfold loadPages
    rcases hr : allocAndMapPage m new va (flagsToPageProt seg.flags) with ⟨m1, r1⟩
    rw [hr] at hpa hR1 h1 hok
    dsimp only at hpa hR1 h1 hok
    subst hpa
    obtain ⟨⟨p, rfl, hp⟩, -⟩ := hok pa rfl
    obtain ⟨m2, hc, hpmm, -⟩ : ∃ m2, copySegment m1 data seg (pfnToPa p) (va - seg.vaddr) = some m2 ∧ _ :=
      copySegment_some ho (pfnToPa p) (va - seg.vaddr)
    obtain ⟨h2, -⟩ := h1.copySegment hp hc
    simp only [hc, Option.bind_some]
    exact ih h2 (by rw [hpmm]; exact hR1)

/-- The pages of a program without its stack. -/
def imagePages (segs : List Segment) : Nat := (segs.map fun seg => pagesTo seg.vaddr ((segEnd seg).getD 0)).sum

theorem loadSegments_room (hn : new ∉ U) (h0 : new ≠ 0) (hk : m0.ttbr1 ≠ 0) {data : Slice} :
    ∀ (segs : List Segment) {m : Machine} {ex : Nat → Nat} {k last : Nat} {first : Nat × Nat},
      (∀ seg ∈ segs, (segEnd seg).isSome ∧ seg.offset + seg.filesz < 2 ^ 64) →
      Loading U K m0 ex0 new False m ex → Room m.pmm (k + 4 * imagePages segs) →
      ∃ m' r, loadSegments m data new first last segs = some (m', .ok r) ∧ Room m'.pmm k := by
  intro segs
  induction segs with
  | nil => intro m ex k last first _ _ hR; exact ⟨m, (first, last), rfl, hR⟩
  | cons seg segs ih =>
    intro m ex k last first hs h hR
    obtain ⟨hstop, ho⟩ := hs seg (List.mem_cons_self ..)
    obtain ⟨stop, hstop⟩ := Option.isSome_iff_exists.mp hstop
    have hsum : imagePages (seg :: segs) = pagesTo seg.vaddr stop + imagePages segs := by
      simp [imagePages, hstop]
    rw [hsum] at hR
    obtain ⟨m1, first1, hp, hR1⟩ : ∃ m1 first1,
        loadPages m data new seg seg.vaddr first (pagesTo seg.vaddr stop) = some (m1, .ok first1) ∧ _ :=
      loadPages_room hn h0 hk ho (pagesTo seg.vaddr stop) (k := k + 4 * imagePages segs) h (hR.le (by omega))
    obtain ⟨ex1, h1, -⟩ := Loading.loadPages hn _ h (fun hu => hu.elim) hp
    unfold loadSegments
    simp only [hstop, hp, Option.bind_some]
    exact ih (fun s hs' => hs s (List.mem_cons_of_mem _ hs')) h1 hR1

theorem loadStack_room (hn : new ∉ U) (h0 : new ≠ 0) (hk : m0.ttbr1 ≠ 0) (n : Nat) :
    ∀ {m : Machine} {ex : Nat → Nat} {va k : Nat}, Loading U K m0 ex0 new False m ex → Room m.pmm (k + 4 * n) →
      (∃ pas, (loadStack m new va n).2 = .ok pas) ∧ Room (loadStack m new va n).1.pmm k := by
  induction n with
  | zero => intro m ex va k _ hR; exact ⟨⟨[], rfl⟩, hR⟩
  | succ n ih =>
    intro m ex va k h hR
    obtain ⟨⟨pa, hpa⟩, hR1⟩ := h.allocAndMapPage_room h0 (by rw [h.ttbr1]; exact hk)
      rustPageUserRw_ok (n := k + 4 * n) (by rw [Nat.add_assoc, ← Nat.mul_succ]; exact hR)
    obtain ⟨ex1, h1, -⟩ := h.allocAndMapPage hn rustPageUserRw_ok False.elim
    unfold loadStack
    rcases hr : allocAndMapPage m new va rustPageUserRw with ⟨m1, r1⟩
    rw [hr] at hpa hR1 h1
    dsimp only at hpa hR1 h1 ⊢
    subst hpa
    obtain ⟨⟨pas, hpas⟩, hR2⟩ := ih h1 hR1
    dsimp only
    rcases hs : loadStack m1 new (va + pageSize) n with ⟨m2, r2⟩
    rw [hs] at hpas hR2
    dsimp only at hpas hR2
    subst hpas
    exact ⟨⟨_, rfl⟩, hR2⟩

theorem loadImage_room (hn : new ∉ U) (h0 : new ≠ 0) (hk : m0.ttbr1 ≠ 0) {data : Slice} {segs : List Segment}
    (hs : ∀ seg ∈ segs, (segEnd seg).isSome ∧ seg.offset + seg.filesz < 2 ^ 64) (hst : (findStackTop segs).isSome)
    (h : Loading U K m0 ex0 new False m ex) (hR : Room m.pmm (n + 4 * stackPages + 4 * imagePages segs)) :
    ∃ m' r, loadImage m data new segs = some (m', .ok r) ∧ Room m'.pmm n := by
  obtain ⟨m2, ⟨first, last⟩, hl, hR2⟩ := loadSegments_room hn h0 hk segs hs h hR
  obtain ⟨ex2, h2, -⟩ := Loading.loadSegments hn segs h (fun hu => hu.elim) hl
  obtain ⟨top, htop⟩ := Option.isSome_iff_exists.mp hst
  unfold loadImage
  rw [hl, Option.bind_some, htop]
  dsimp only
  rw [Option.map_some]
  generalize stackPages = sp at *
  obtain ⟨⟨pas, hpas⟩, hR3⟩ := loadStack_room hn h0 hk sp (k := n) (h2.switch new) hR2
  generalize loadStack (m2.switch new) new (top - sp * pageSize) sp = r3 at *
  obtain ⟨m3, r3⟩ := r3
  dsimp only at hpas hR3
  subst hpas
  exact ⟨_, _, rfl, hR3⟩

/-- The headers of a program that is refused for want of memory only. -/
structure Loadable (data : Slice) (segs : List Segment) (entry : Nat) : Prop where
  valid : validateElf data = .ok ()
  parse : parseSegments data = some (.ok (segs, entry))
  seg : ∀ seg ∈ segs, (segEnd seg).isSome ∧ seg.offset + seg.filesz < 2 ^ 64
  stack : (findStackTop segs).isSome
  phdr : (segs.headD ⟨0, 0, 0, 0, 0⟩).vaddr + ePhoff data < 2 ^ 64 ∧
    (segs.headD ⟨0, 0, 0, 0, 0⟩).offset ≤ (segs.headD ⟨0, 0, 0, 0, 0⟩).vaddr + ePhoff data

/-- A file with one program header, after the ELF header, that is a segment to load. -/
theorem Loadable.oneHeader {data : Slice} {seg : Segment} (hlen : 64 ≤ data.len)
    (hv : ∀ x ∈ [0, 1, 2, 3, 4, 5], data.bytes x = [0x7F, 0x45, 0x4C, 0x46, 2, 1].getD x 0)
    (hty : eType data = etExec ∧ eMachine data = emAarch64) (hoff : ePhoff data = 64 ∧ ePhnum data = 1)
    (hload : read32 data.bytes 64 = ptLoad ∧ seg.memsz ≠ 0)
    (hseg : (seg.vaddr = read64 data.bytes (64 + 16) ∧ seg.memsz = read64 data.bytes (64 + 40)) ∧
      (seg.filesz = read64 data.bytes (64 + 32) ∧ seg.offset = read64 data.bytes (64 + 8)) ∧
      seg.flags = read32 data.bytes (64 + 4))
    (hend : (segEnd seg).isSome ∧ seg.offset + seg.filesz < 2 ^ 64) (hstack : (findStackTop [seg]).isSome)
    (hphdr : seg.vaddr + 64 < 2 ^ 64 ∧ seg.offset ≤ seg.vaddr + 64) : Loadable data [seg] (eEntry data) := by
  refine ⟨?_, ?_, ?_, hstack, ?_⟩
  · simp [validateElf, hty, hv]
    omega
  · obtain ⟨vaddr, memsz, filesz, offset, flags⟩ := seg
    obtain ⟨⟨h1, h2⟩, ⟨h3, h4⟩, h5⟩ := hseg
    dsimp only at h1 h2 h3 h4 h5
    subst h1 h2 h3 h4 h5
    rw [parseSegments, hoff.1, hoff.2, if_neg (by decide)]
    simp [List.range_succ, parsePhdrs, checkedAdd, hload]
  · intro s hs
    rw [List.mem_singleton] at hs
    subst hs
    exact hend
  · rw [hoff.1]
    exact hphdr

/-- With a page for the new table, and four for each page of the program and its stack,
    the program is loaded. -/
theorem loadElf_room (hw : World m U K ex) (hk : m.ttbr1 ≠ 0) {data : Slice} {segs : List Segment} {entry : Nat}
    (hl : Loadable data segs entry) (hR : Room m.pmm (n + 4 * stackPages + 4 * imagePages segs + 1)) :
    ∃ m' l, loadElf m data = some (m', .ok l) ∧ Room m'.pmm n := by
  obtain ⟨hc0, hR1⟩ := createUserPgd_room hw.owned hR
  rcases hw.newPgd with ⟨e, -⟩ | ⟨p, e, hnR, h, hQ, hg, hz⟩
  · exact absurd e hc0
  rcases hc : createUserPgd m with ⟨m1, o⟩
  rw [hc] at e h hQ hg hz hR1
  obtain rfl : o = some (pfnToPa p) := e
  dsimp only at h hQ hg hz hR1
  have hn : pfnToPa p ∉ U := fun h => hnR (mem_roots h)
  have hL : Loading U K m ex (pfnToPa p) False m1 ex := h.loading hQ hg hz
  obtain ⟨m2, ⟨first, last, top, pas⟩, hi, hR2⟩ :=
    loadImage_room hn (pfnToPa_ne_zero p) hk hl.seg hl.stack hL hR1
  unfold loadElf
  rw [hl.valid, hl.parse]
  dsimp only
  rw [Option.bind_some]
  dsimp only
  rw [hc]
  dsimp only
  rw [hi, Option.bind_some]
  dsimp only
  rw [checkedAdd, if_pos hl.phdr.1, Option.bind_some, if_neg (Nat.not_lt.mpr hl.phdr.2)]
  exact ⟨_, _, rfl, hR2⟩

end

end Myos.Mm
