/-
  Myos.Vmalloc.Releases — the releases of `kernel/vmalloc.c` against the ledger.

  `vfree` undoes all that `vmalloc` did. `iounmap` does so for a mapping that has its record, or
  that has one page; without the record the pages behind the first stay mapped in a range that
  is free again. `dma_free_coherent` never gives the range back, and does nothing at all when
  the record is missing.
-/

import Myos.Vmalloc.Calls

namespace Myos.Vmalloc

open Mm Pmm
open Vmap (Word VmapManager Orderly vmallocStart vmallocEnd)

/-- The area is free again, and none of the pages is mapped. -/
structure Released (s s' : Sys) (a : Alloc) : Prop where
  area : AreaFreed s.mgr s'.mgr a.va
  gone : ∀ x, InRange x → InPages a.va.toNat a.pages.length x → ptePresent (s'.machine.translate x) = false

section

variable {R : Set Nat} {X : Set (Nat × Nat)} {rf : Nat → Nat} {lost lost' : List (Nat × Nat)} {s s' : Sys} {live live' : List Alloc}
  {a : Alloc} {r : Record} {addr va link link' : Word}

theorem find_key {α β : Type} [DecidableEq β] {f : α → β} {l : List α} {b : β} {x : α} (h : l.find? (fun a => f a = b) = some x) :
    f x = b ∧ x ∈ l := ⟨by simpa using List.find?_some h, List.mem_of_find?_eq_some h⟩

/-- The only allocation at its address is the one that is taken out. -/
theorem Ledger.perm_filter (h : Ledger R X rf lost ⟨s, live⟩) (ha : a ∈ live) {e : Op} (he : ∀ b ∈ live, e.returns b = true ↔ b.va = a.va) :
    live.Perm (a :: live.filter fun b => !e.returns b) := by
  have hnd : live.Nodup := List.Nodup.of_map _ h.distinct
  have hf : live.filter (fun b => !e.returns b) = live.erase a := by
    rw [hnd.erase_eq_filter]
    refine List.filter_congr fun b hb => ?_
    have hba : b.va = a.va ↔ b = a := ⟨h.va_inj hb ha, fun e => congrArg Alloc.va e⟩
    have := (he b hb).trans hba
    rw [Bool.eq_iff_iff, Bool.not_eq_true', bne_iff_ne, ne_eq, ← this, Bool.not_eq_true]
  rw [hf]
  exact List.perm_cons_erase ha

/-- The allocation that a record is of. -/
theorem Ledger.of_record (h : Ledger R X rf lost ⟨s, live⟩) (hr : r ∈ s.records) (ha : a ∈ live) (hva : r.va = a.va) : r.Of a := by
  obtain ⟨b, hb, hof⟩ := h.recorded r hr
  exact h.va_inj hb ha (hof.va.symm.trans hva) ▸ hof

theorem Ledger.record_iff (h : Ledger R X rf lost ⟨s, live⟩) (hr : r ∈ s.records) {r' : Record} (hr' : r' ∈ s.records) (hva : r.va = a.va) :
    r' ∈ [r] ↔ r'.va = a.va := by
  rw [List.mem_singleton]
  exact ⟨fun e => e ▸ hva, fun e => List.inj_on_of_nodup_map h.once hr' hr (e.trans hva.symm)⟩

theorem perm_union {l l' : List (Nat × Nat)} (hl : l.Perm l') : X ∪ {b | b ∈ l} = X ∪ {b | b ∈ l'} := by
  ext b
  exact or_congr_right hl.mem_iff

/-- The blocks without those of the allocation. -/
theorem union_released (hl : live.Perm (a :: live')) :
    X ∪ {b | b ∈ held live ++ lost} = X ∪ {b | b ∈ held live' ++ lost} ∪ {b | b ∈ a.blocks} :=
  (perm_union ((hl.flatMap_right Alloc.blocks).append_right lost)).trans (blocks_union a)

theorem Ledger.block_apart (h : Ledger R X rf lost ⟨s, live⟩) (hl : live.Perm (a :: live')) {b : Nat × Nat} (hb : b ∈ a.blocks) :
    b ∉ X ∪ {b | b ∈ held live' ++ lost} := by
  have hp := Ledger.blocks_perm lost hl
  have hnd := hp.nodup_iff.mp h.nodup
  intro hm
  rcases hm with hm | hm
  · exact h.apart b (hp.mem_iff.mpr (List.mem_append_right _ (List.mem_append_left _ hb))) hm
  · rcases List.mem_append.mp hm with hm | hm
    · exact (List.nodup_append.mp hnd).2.2 b hm b (List.mem_append_left _ hb) rfl
    · exact (List.nodup_append.mp (List.nodup_append.mp hnd).2.1).2.2 b hb b hm rfl

theorem Ledger.ranges_filter (h : Ledger R X rf lost ⟨s, live⟩) (hl : live.Perm (a :: live')) {mgr : VmapManager}
    (hO : Orderly ⟨mgr, (live.map fun b => (b.va, b.size)).filter fun e => e.1 ≠ a.va⟩) :
    Orderly ⟨mgr, live'.map fun b => (b.va, b.size)⟩ := by
  have hgone : a.va ∉ live'.map Alloc.va := (List.nodup_cons.mp ((hl.map Alloc.va).nodup_iff.mp h.distinct)).1
  refine Orderly.anti hO fun e he => ?_
  obtain ⟨b, hb, rfl⟩ := List.mem_map.mp he
  refine List.mem_filter.mpr ⟨List.mem_map.mpr ⟨b, hl.mem_iff.mpr (List.mem_cons_of_mem _ hb), rfl⟩, ?_⟩
  exact decide_eq_true fun e => hgone (List.mem_map.mpr ⟨b, hb, e⟩)

theorem mem_records : r ∈ s.records ↔ (∃ vm ∈ s.vmList, vm.record = r) ∨ (∃ io ∈ s.ioMapList, io.record = r) ∨
    ∃ dma ∈ s.dmaMapList, dma.record = r := by
  simp only [Sys.records, List.mem_append, List.mem_map]

/-- Clearing the entries of `n` pages at `va`. -/
structure Cleared (va n : Nat) (m m' : Machine) : Prop where
  ttbr1 : m'.ttbr1 = m.ttbr1
  gone : ∀ x, InRange x → InPages va n x → ptePresent (m'.translate x) = false
  other : ∀ x, InRange x → ¬ InPages va n x → m'.translate x = m.translate x

theorem Cleared.tables {va n : Nat} {m m' m'' : Machine} (h : Cleared va n m m') (hS : SameTables m' m'') : Cleared va n m m'' := by
  refine ⟨hS.ttbr1.trans h.ttbr1, fun x hx hp => ?_, fun x hx hp => (hS.translate x).trans (h.other x hx hp)⟩
  rw [hS.translate]
  exact h.gone x hx hp

theorem unmapPages_cleared {va n : Nat} {m : Machine} {K : Set (Nat × Nat)} (h : Owned m R K rf) (hr : m.ttbr1 ∈ R) (h0 : m.ttbr1 ≠ 0)
    (hin : Inside va n) : Owned (unmapPages m va n) R K rf ∧ Cleared va n m (unmapPages m va n) := by
  obtain ⟨hR, hg⟩ := unmapPages_spec h hr h0 hin
  exact ⟨hR.owned, hR.ttbr1, hg, hR.other⟩

theorem Ledger.ranges_of_perm (h : Ledger R X rf lost ⟨s, live⟩) (hl : live.Perm (a :: live')) :
    Orderly ⟨s.mgr, live'.map fun b => (b.va, b.size)⟩ := by
  refine Orderly.anti h.ranges fun e he => ?_
  obtain ⟨b, hb, rfl⟩ := List.mem_map.mp he
  exact List.mem_map.mpr ⟨b, hl.mem_iff.mpr (List.mem_cons_of_mem _ hb), rfl⟩

/-! ## vfree -/

theorem vfree_none (h : addr = 0 ∨ s.vmList.find? (fun vm => vm.addr = addr) = none) : s.vfree addr link link' = some s := by
  unfold Sys.vfree
  by_cases h0 : addr = 0
  · rw [if_pos h0]
  · rw [if_neg h0, h.resolve_left h0]

theorem vfree_some {vm : VmStruct} (h0 : addr ≠ 0) (h : s.vmList.find? (fun vm => vm.addr = addr) = some vm) {mgr : VmapManager}
    (hm : s.mgr.vaFree addr link link' = some mgr) :
    s.vfree addr link link' = some { s with
      mgr := mgr
      machine := freePages (unmapPages s.machine addr.toNat vm.pages.length) vm.pages
      heap := (s.heap.erase vm.array).erase vm.self
      vmList := s.vmList.erase vm } := by
  unfold Sys.vfree
  rw [if_neg h0, h]
  show ((s.mgr.vaFree addr link link').map _).map _ = _
  rw [hm]
  rfl

theorem Ledger.va_ne_zero (h : Ledger R X rf lost ⟨s, live⟩) (ha : a ∈ live) : a.va ≠ 0 := by
  obtain ⟨d, hd, h1, -⟩ := h.ranges.serves _ (List.mem_map_of_mem (f := fun a : Alloc => (a.va, a.size)) ha)
  exact fun h0 => Orderly.start_ne_zero h.ranges hd (h1.trans h0)

/-- Two cells that are freed one after the other. -/
theorem perm_erase_erase {l l' : List Nat} {x y : Nat} (h : l.Perm (x :: y :: l')) : l.Perm (x :: y :: (l.erase x).erase y) := by
  have h1 : (l.erase x).Perm (y :: l') := (h.erase x).trans (by rw [List.erase_cons_head])
  have hx : x ∈ l := h.mem_iff.mpr (List.mem_cons_self ..)
  have hy : y ∈ l.erase x := h1.mem_iff.mpr (List.mem_cons_self ..)
  exact (List.perm_cons_erase hx).trans ((List.perm_cons_erase hy).cons x)

/-- `vfree` does nothing to an address that is no allocation's; an allocation it takes back whole. -/
theorem Ledger.vfree (h : Ledger R X rf lost ⟨s, live⟩) (addr link link' : Word) :
    s.vfree addr link link' = some s ∧ (∀ b ∈ live, (Op.vfree addr link link').returns b = false) ∨
    ∃ s' a, s.vfree addr link link' = some s' ∧ a ∈ live ∧ (∀ b ∈ live, (Op.vfree addr link link').returns b = true ↔ b = a) ∧
      Released s s' a ∧ (∀ x, InRange x → ¬ InPages a.va.toNat a.pages.length x → s'.machine.translate x = s.machine.translate x) ∧
      Ledger R X rf lost ⟨s', live.filter fun b => !(Op.vfree addr link link').returns b⟩ := by
  by_cases hno : addr = 0 ∨ s.vmList.find? (fun vm => vm.addr = addr) = none
  · refine Or.inl ⟨vfree_none hno, fun b hb => decide_eq_false fun hk => ?_⟩
    obtain ⟨hk, hva⟩ := hk
    rcases hno with rfl | hno
    · exact h.va_ne_zero hb hva
    · obtain ⟨r, hr, hof⟩ := h.vmalloced b hb hk
      rcases mem_records.1 hr with ⟨vm, hvm, rfl⟩ | ⟨io, -, rfl⟩ | ⟨dma, -, rfl⟩
      · exact List.find?_eq_none.mp hno vm hvm (decide_eq_true (hof.va.trans hva))
      · exact absurd (hof.kind.trans hk) fun e => by cases e
      · exact absurd (hof.kind.trans hk) fun e => by cases e
  rw [not_or] at hno
  obtain ⟨vm, hvm⟩ := Option.ne_none_iff_exists'.mp hno.2
  obtain ⟨rfl, hmem⟩ := find_key hvm
  have hr : vm.record ∈ s.records := List.mem_append_left _ (List.mem_map_of_mem hmem)
  obtain ⟨a, ha, hof⟩ := h.recorded _ hr
  have hva : vm.addr = a.va := hof.va
  have hret : ∀ b ∈ live, (Op.vfree vm.addr link link').returns b = true ↔ b = a := by
    intro b hb
    simp only [Op.returns, decide_eq_true_eq]
    constructor
    · exact fun e => h.va_inj hb ha (e.2.trans hva)
    · exact fun e => e ▸ ⟨hof.kind.symm, hva.symm⟩
  have hl := h.perm_filter ha (e := .vfree vm.addr link link') fun b hb =>
    (hret b hb).trans ⟨fun e => congrArg Alloc.va e, fun e => h.va_inj hb ha e⟩
  generalize live.filter (fun b => !(Op.vfree vm.addr link link').returns b) = live' at *
  obtain ⟨mgr, he, hO, hF⟩ := vaFree_spec h.ranges vm.addr link link'
  -- the pages are frames of the buddy
  obtain ⟨ps, hps, hab⟩ : ∃ ps : List Nat, vm.pages = ps.map pfnToPa ∧ a.blocks = ps.map fun p => (p, 0) := by
    refine ⟨vm.pages.map paToPfn, ?_, ?_⟩
    · rw [List.map_map]
      refine (List.map_id _).symm.trans (List.map_congr_left fun pa hpa => ?_)
      obtain ⟨p, hp, rfl⟩ := hof.frames pa hpa
      rw [Function.comp, paToPfn_pfnToPa hp]
      rfl
    · rw [← hof.blocks, List.map_map]
      rfl
  have hnd : ps.Nodup := by
    have h1 := (Ledger.blocks_perm lost hl).nodup_iff.mp h.nodup
    have h2 := (List.nodup_append.mp (List.nodup_append.mp h1).2.1).1
    rw [hab] at h2
    exact List.Nodup.of_map _ h2
  have hn : vm.pages.length = a.pages.length := hof.nrPages
  have hin : Inside vm.addr.toNat vm.pages.length := by
    rw [hva, hn]
    exact h.inside ha
  have hp : ∀ x, InPages a.va.toNat a.pages.length x ↔ InPages vm.addr.toNat vm.pages.length x := fun x => by rw [hva, hn]
  obtain ⟨hO1, hC⟩ := unmapPages_cleared h.owned h.root h.enabled hin
  rw [union_released hl, hab] at hO1
  have hO1 : Owned _ R (_ ∪ pageBlocks ps) rf := hO1
  obtain ⟨hO2, hS, -⟩ := freePages_spec hO1 hnd fun p hp =>
    h.block_apart hl (hab ▸ List.mem_map_of_mem hp)
  rw [← hps] at hO2 hS
  have hC' := hC.tables hS
  refine Or.inr ⟨_, a, vfree_some hno.1 hvm he, ha, hret, ⟨hva ▸ hF, fun x hx hx' => hC'.gone x hx ((hp x).mp hx')⟩,
    fun x hx hx' => hC'.other x hx fun e => hx' ((hp x).mpr e), ?_⟩
  have hrec : s.records.Perm ([vm.record] ++ ((s.vmList.erase vm).map VmStruct.record ++
      (s.ioMapList.map IoMapping.record ++ s.dmaMapList.map DmaMapping.record))) :=
    ((List.perm_cons_erase hmem).map VmStruct.record).append_right _
  refine h.released hl [vm.record] hO2 ((List.sublist_append_right ..).append_left _) hC'.ttbr1
    (h.ranges_filter hl (hva ▸ hO)) hrec (fun r' hr' => h.record_iff hr hr' hva) ?_
  have hcells : s.heap.Perm (vm.array :: vm.self :: List.flatMap Record.cells _) := h.heap.trans (hrec.flatMap_right Record.cells)
  exact perm_erase_erase hcells

/-! ## iounmap -/

theorem iounmap_none (h0 : addr ≠ 0) (h : s.ioMapList.find? (fun io => io.addr = addr &&& pageMask) = none) {mgr : VmapManager}
    (hm : s.mgr.vaFree (addr &&& pageMask) link link' = some mgr) :
    s.iounmap addr link link' = some { s with mgr := mgr, machine := unmapPages s.machine (addr &&& pageMask).toNat 1 } := by
  unfold Sys.iounmap
  rw [if_neg h0]
  dsimp only
  rw [h]
  show (s.mgr.vaFree _ link link').map _ = _
  rw [hm]
  rfl

theorem iounmap_some {io : IoMapping} (h0 : addr ≠ 0) (h : s.ioMapList.find? (fun io => io.addr = addr &&& pageMask) = some io)
    {mgr : VmapManager} (hm : s.mgr.vaFree (addr &&& pageMask) link link' = some mgr) :
    s.iounmap addr link link' = some { s with
      mgr := mgr
      machine := unmapPages s.machine (addr &&& pageMask).toNat io.nrPages
      heap := s.heap.erase io.self
      ioMapList := s.ioMapList.erase io } := by
  unfold Sys.iounmap
  rw [if_neg h0]
  dsimp only
  rw [h]
  show (s.mgr.vaFree _ link link').map _ = _
  rw [hm]
  rfl

/-- `iounmap` takes a mapping back whole if it has its record or has one page. -/
theorem Ledger.iounmap (h : Ledger R X rf lost ⟨s, live⟩) (ha : a ∈ live) (hk : a.kind = .ioremap) (hva : a.va = addr &&& pageMask)
    (link link' : Word) :
    ∃ s', s.iounmap addr link link' = some s' ∧ (∀ b ∈ live, (Op.iounmap addr link link').returns b = true ↔ b = a) ∧
      (a.pages.length = 1 ∨ (∃ io ∈ s.ioMapList, io.addr = a.va) → Released s s' a) ∧
      (∀ x, InRange x → ¬ InPages a.va.toNat a.pages.length x → s'.machine.translate x = s.machine.translate x) ∧
      Ledger R X rf lost ⟨s', live.filter fun b => !(Op.iounmap addr link link').returns b⟩ := by
  have h0 : addr ≠ 0 := by
    rintro rfl
    exact h.va_ne_zero ha (hva.trans (by decide))
  have hret : ∀ b ∈ live, (Op.iounmap addr link link').returns b = true ↔ b = a := by
    intro b hb
    simp only [Op.returns, decide_eq_true_eq]
    constructor
    · exact fun e => h.va_inj hb ha (e.2.trans hva.symm)
    · exact fun e => e ▸ ⟨hk, hva⟩
  have hl := h.perm_filter ha (e := .iounmap addr link link') fun b hb =>
    (hret b hb).trans ⟨fun e => congrArg Alloc.va e, fun e => h.va_inj hb ha e⟩
  have hpos : 0 < a.pages.length := h.nonempty a ha
  have hinside : Inside a.va.toNat a.pages.length := h.inside ha
  generalize live.filter (fun b => !(Op.iounmap addr link link').returns b) = live' at *
  obtain ⟨mgr, he, hO, hF⟩ := vaFree_spec h.ranges (addr &&& pageMask) link link'
  rw [← hva] at hO hF
  have hK : X ∪ {b | b ∈ held live ++ lost} = X ∪ {b | b ∈ held live' ++ lost} := by
    rw [union_released hl, h.borrowed a ha hk]
    ext b
    simp
  cases hio : s.ioMapList.find? (fun io => io.addr = addr &&& pageMask) with
  | none =>
    obtain ⟨hO1, hC⟩ := unmapPages_cleared (n := 1) h.owned h.root h.enabled ⟨hinside.1, fun i hi => hinside.2 i (by omega)⟩
    have hno : ∀ io ∈ s.ioMapList, io.addr ≠ a.va := fun io hm e => List.find?_eq_none.mp hio io hm (decide_eq_true (e.trans hva))
    rw [hva] at hC hO1
    refine ⟨_, iounmap_none h0 hio he, hret, fun hor => ⟨hF, ?_⟩, fun x hx hx' => hC.other x hx fun hm => hx' ?_, ?_⟩
    · rw [hor.resolve_right fun ⟨io, hm, e⟩ => hno io hm e, hva]
      exact hC.gone
    · rw [hva]
      exact ⟨hm.1, lt_of_lt_of_le hm.2 (Nat.add_le_add_left (Nat.mul_le_mul_right _ hpos) _)⟩
    · refine h.released hl [] (hK ▸ hO1) ((List.sublist_append_right ..).append_left _) hC.ttbr1 (h.ranges_filter hl hO)
        (List.Perm.refl _) (fun r hr => ⟨fun hm => absurd hm List.not_mem_nil, fun e => ?_⟩) (List.Perm.refl _)
      have hof := h.of_record hr ha e
      rcases mem_records.1 hr with ⟨vm, -, rfl⟩ | ⟨io, hm, rfl⟩ | ⟨dma, -, rfl⟩
      · exact absurd (hof.kind.trans hk) fun e => by cases e
      · exact absurd e (hno io hm)
      · exact absurd (hof.kind.trans hk) fun e => by cases e
  | some io =>
    obtain ⟨hioa, hmem⟩ := find_key hio
    have hr : io.record ∈ s.records := mem_records.2 (Or.inr (Or.inl ⟨io, hmem, rfl⟩))
    have hra : io.record.va = a.va := hioa.trans hva.symm
    have hn : io.nrPages = a.pages.length := (h.of_record hr ha hra).nrPages
    obtain ⟨hO1, hC⟩ := unmapPages_cleared h.owned h.root h.enabled hinside
    rw [hva, ← hn] at hC hO1
    have hrec : s.records.Perm ([io.record] ++ (s.vmList.map VmStruct.record ++
        ((s.ioMapList.erase io).map IoMapping.record ++ s.dmaMapList.map DmaMapping.record))) :=
      ((((List.perm_cons_erase hmem).map IoMapping.record).append_right _).append_left _).trans List.perm_middle
    refine ⟨_, iounmap_some h0 hio he, hret, fun _ => ⟨hF, ?_⟩, ?_, ?_⟩
    · rw [hva, ← hn]
      exact hC.gone
    · rw [hva, ← hn]
      exact hC.other
    · refine h.released hl [io.record] (hK ▸ hO1) ((List.sublist_append_right ..).append_left _) hC.ttbr1 (h.ranges_filter hl hO)
        hrec (fun r' hr' => h.record_iff hr hr' hra) ?_
      have hcells : s.heap.Perm (io.self :: List.flatMap Record.cells _) := h.heap.trans (hrec.flatMap_right Record.cells)
      exact List.perm_cons_erase (hcells.mem_iff.mpr (List.mem_cons_self ..))

/-! ## dma_free_coherent -/

theorem dmaFree_none (h : va = 0 ∨ s.dmaMapList.find? (fun dma => dma.va = va &&& pageMask) = none) : s.dmaFreeCoherent va = s := by
  unfold Sys.dmaFreeCoherent
  by_cases h0 : va = 0
  · rw [if_pos h0]
  · rw [if_neg h0, h.resolve_left h0]

theorem dmaFree_some {dma : DmaMapping} (h0 : va ≠ 0) (h : s.dmaMapList.find? (fun dma => dma.va = va &&& pageMask) = some dma) :
    s.dmaFreeCoherent va = { s with
      machine := (unmapPages s.machine (va &&& pageMask).toNat dma.nrPages).freePhysPages dma.pa dma.order
      heap := s.heap.erase dma.self
      dmaMapList := s.dmaMapList.erase dma } := by
  unfold Sys.dmaFreeCoherent
  rw [if_neg h0, h]
  rfl

/-- The range of a buffer stays busy; without its record the buffer stays mapped and keeps its block. -/
theorem Ledger.dmaFreeCoherent (h : Ledger R X rf lost ⟨s, live⟩) (va : Word) :
    s.dmaFreeCoherent va = s ∧ (∀ b ∈ live, (Op.dmaFreeCoherent va).returns b = false) ∨
    ∃ a ∈ live, (∀ b ∈ live, (Op.dmaFreeCoherent va).returns b = true ↔ b = a) ∧ (s.dmaFreeCoherent va).mgr = s.mgr ∧
      (∀ x, InRange x → ¬ InPages a.va.toNat a.pages.length x → (s.dmaFreeCoherent va).machine.translate x = s.machine.translate x) ∧
      ∃ lost', Ledger R X rf lost' ⟨s.dmaFreeCoherent va, live.filter fun b => !(Op.dmaFreeCoherent va).returns b⟩ := by
  have hret : ∀ {a : Alloc}, a ∈ live → a.kind = .dma → a.va = va &&& pageMask →
      ∀ b ∈ live, (Op.dmaFreeCoherent va).returns b = true ↔ b = a := by
    intro a ha hk hva b hb
    simp only [Op.returns, decide_eq_true_eq]
    constructor
    · exact fun e => h.va_inj hb ha (e.2.trans hva.symm)
    · exact fun e => e ▸ ⟨hk, hva⟩
  have hperm : ∀ {a : Alloc}, a ∈ live → a.kind = .dma → a.va = va &&& pageMask →
      live.Perm (a :: live.filter fun b => !(Op.dmaFreeCoherent va).returns b) := fun ha hk hva =>
    h.perm_filter ha fun b hb => (hret ha hk hva b hb).trans ⟨fun e => congrArg Alloc.va e, fun e => h.va_inj hb ha e⟩
  by_cases hno : va = 0 ∨ s.dmaMapList.find? (fun dma => dma.va = va &&& pageMask) = none
  · rw [dmaFree_none hno]
    by_cases hex : ∃ a ∈ live, a.kind = .dma ∧ a.va = va &&& pageMask
    · obtain ⟨a, ha, hk, hva⟩ := hex
      refine Or.inr ⟨a, ha, hret ha hk hva, rfl, fun _ _ _ => rfl, a.blocks ++ lost, ?_⟩
      have hl := hperm ha hk hva
      generalize live.filter (fun b => !(Op.dmaFreeCoherent va).returns b) = live' at *
      refine h.released hl [] ?_ (List.Sublist.refl _) rfl (h.ranges_of_perm hl) (List.Perm.refl _)
        (fun r hr => ⟨fun hm => absurd hm List.not_mem_nil, fun e => ?_⟩) (List.Perm.refl _)
      · exact perm_union (X := X) (Ledger.blocks_perm lost hl) ▸ h.owned
      · have hof := h.of_record hr ha e
        rcases mem_records.1 hr with ⟨vm, -, rfl⟩ | ⟨io, -, rfl⟩ | ⟨dma, hm, rfl⟩
        · exact absurd (hof.kind.trans hk) fun e => by cases e
        · exact absurd (hof.kind.trans hk) fun e => by cases e
        · rcases hno with rfl | hno
          · exact absurd (hva.trans (by decide)) (h.va_ne_zero ha)
          · exact absurd (decide_eq_true (e.trans hva)) (List.find?_eq_none.mp hno dma hm)
    · exact Or.inl ⟨rfl, fun b hb => decide_eq_false fun hk => hex ⟨b, hb, hk⟩⟩
  rw [not_or] at hno
  obtain ⟨dma, hdma⟩ := Option.ne_none_iff_exists'.mp hno.2
  obtain ⟨hva, hmem⟩ := find_key hdma
  have hr : dma.record ∈ s.records := mem_records.2 (Or.inr (Or.inr ⟨dma, hmem, rfl⟩))
  obtain ⟨a, ha, hof⟩ := h.recorded _ hr
  have hra : dma.record.va = a.va := hof.va
  have hva' : a.va = va &&& pageMask := hof.va.symm.trans hva
  have hl := hperm ha hof.kind.symm hva'
  refine Or.inr ⟨a, ha, hret ha hof.kind.symm hva', ?_⟩
  generalize live.filter (fun b => !(Op.dmaFreeCoherent va).returns b) = live' at *
  rw [dmaFree_some hno.1 hdma]
  obtain ⟨p, hp, hpa⟩ := hof.frames dma.pa (List.mem_singleton_self _)
  have hab : a.blocks = [(p, dma.order)] := by
    rw [← hof.blocks]
    show [(paToPfn dma.pa, dma.order)] = _
    rw [hpa, paToPfn_pfnToPa hp]
  have hn : dma.nrPages = a.pages.length := hof.nrPages
  obtain ⟨hO1, hC⟩ := unmapPages_cleared h.owned h.root h.enabled (h.inside ha)
  rw [hva', ← hn] at hO1 hC
  rw [perm_union ((hl.flatMap_right Alloc.blocks).append_right lost)] at hO1
  have hins : X ∪ {b | b ∈ held (a :: live') ++ lost} = _ := insert_block hab
  rw [show List.flatMap Alloc.blocks (a :: live') = held (a :: live') from rfl, hins] at hO1
  obtain ⟨hO2, hS, -⟩ := freeBlock_tables hO1 (h.block_apart hl (hab ▸ List.mem_singleton_self _))
  rw [← hpa] at hO2 hS
  have hC' := hC.tables hS
  have hrec : s.records.Perm ([dma.record] ++ (s.vmList.map VmStruct.record ++
      (s.ioMapList.map IoMapping.record ++ (s.dmaMapList.erase dma).map DmaMapping.record))) := by
    refine (((((List.perm_cons_erase hmem).map DmaMapping.record).append_left _).trans List.perm_middle).append_left _).trans ?_
    exact List.perm_middle
  refine ⟨rfl, fun x hx hx' => hC'.other x hx (by rw [← hva', hn]; exact hx'), lost, ?_⟩
  refine h.released hl [dma.record] hO2 ((List.sublist_append_right ..).append_left _) hC'.ttbr1
    (h.ranges_of_perm hl) hrec (fun r' hr' => h.record_iff hr hr' hra) ?_
  have hcells : s.heap.Perm (dma.self :: List.flatMap Record.cells _) := h.heap.trans (hrec.flatMap_right Record.cells)
  exact List.perm_cons_erase (hcells.mem_iff.mpr (List.mem_cons_self ..))

end

end Myos.Vmalloc
