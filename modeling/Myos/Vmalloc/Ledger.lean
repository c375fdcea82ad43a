/-
  Myos.Vmalloc.Ledger — what the calls of `kernel/vmalloc.c` keep between the manager of the
  range, the buddy, the records and what their callers hold.

  `Ledger R X rf lost s`: every allocation that is out has a busy area and blocks of its own;
  every other block belongs to `X`, to a table, to a counted frame or is `lost`; every record is
  that of one allocation, and the memory `kmalloc` gave out is that of the records.

  Proved: what an allocation and a release of an area do to the busy areas; a call that adds an
  allocation and one that takes one away keep the ledger.
-/

import Myos.Vmalloc.Pages

namespace Myos.Vmalloc

open Mm Pmm
open Vmap (Word VmapManager VmapArea vaSize Orderly vmallocStart vmallocEnd)

/-! ## The manager -/

/-- One more area is busy. -/
structure NewArea (m m' : VmapManager) (va : Word) : Prop where
  busy : ∃ d, d ∉ m.busyList ∧ m'.busyList = d :: m.busyList ∧ (m'.areas d).vaStart = va
  areas : ∀ d ∈ m.busyList, m'.areas d = m.areas d

/-- The area at `va` is no longer busy. -/
structure AreaFreed (m m' : VmapManager) (va : Word) : Prop where
  busy : ∀ d, d ∈ m'.busyList ↔ d ∈ m.busyList ∧ (m.areas d).vaStart ≠ va
  areas : ∀ d ∈ m'.busyList, m'.areas d = m.areas d

section

variable {m m' : VmapManager} {live live' : List (Word × Word)} {va : Word}

theorem Orderly.anti (h : Orderly ⟨m, live⟩) (hl : ∀ e ∈ live', e ∈ live) : Orderly ⟨m, live'⟩ :=
  ⟨h.linked, h.tidy, fun e he => h.serves e (hl e he)⟩

theorem Orderly.busy_inside (h : Orderly ⟨m, live⟩) {d : Word} (hd : d ∈ m.busyList) :
    Lib.Span.Inside Vmap.OnPage vmallocStart.toNat vmallocEnd.toNat (m.areas d).span :=
  h.tidy.inside (VmapManager.mem_owned.mpr (Or.inr (Or.inr hd)))

theorem Orderly.start_inj (h : Orderly ⟨m, live⟩) {d e : Word} (hd : d ∈ m.busyList) (he : e ∈ m.busyList)
    (heq : (m.areas d).vaStart = (m.areas e).vaStart) : d = e :=
  h.tidy.start_inj (VmapManager.mem_owned.mpr (Or.inr (Or.inr hd))) (VmapManager.mem_owned.mpr (Or.inr (Or.inr he))) heq

/-- No busy area starts at NULL. -/
theorem Orderly.start_ne_zero (h : Orderly ⟨m, live⟩) {d : Word} (hd : d ∈ m.busyList) : (m.areas d).vaStart ≠ 0 := by
  intro h0
  have h1 : vmallocStart.toNat ≤ (m.areas d).vaStart.toNat := (Orderly.busy_inside h hd).lower
  rw [h0] at h1
  exact absurd h1 (by decide)

/-- The pages of an allocation are in the range. -/
theorem Orderly.inside (h : Orderly ⟨m, live⟩) {e : Word × Word} (he : e ∈ live) : Inside e.1.toNat (pagesOf e.2.toNat) := by
  obtain ⟨d, hd, h1, h2⟩ := h.serves e he
  dsimp only at hd h1 h2
  have hin := Orderly.busy_inside h hd
  have hs := VmapManager.toNat_vaSize hin
  have hp : Vmap.OnPage (m.areas d).vaStart.toNat := hin.start
  have hq : Vmap.OnPage (m.areas d).vaEnd.toNat := hin.stop
  have hl : vmallocStart.toNat ≤ (m.areas d).vaStart.toNat := hin.lower
  have hu : (m.areas d).vaEnd.toNat ≤ vmallocEnd.toNat := hin.upper
  rw [BitVec.le_def, hs] at h2
  rw [← h1]
  refine ⟨hp, fun i hi => ?_⟩
  unfold InRange pagesOf pageSize Vmap.OnPage at *
  omega

/-- The pages of two allocations do not overlap. -/
theorem Orderly.apart (h : Orderly ⟨m, live⟩) {e e' : Word × Word} (he : e ∈ live) (he' : e' ∈ live) (hne : e.1 ≠ e'.1) {x : Nat}
    (hx : InPages e.1.toNat (pagesOf e.2.toNat) x) : ¬ InPages e'.1.toNat (pagesOf e'.2.toNat) x := by
  obtain ⟨d, hd, h1, h2⟩ := h.serves e he
  obtain ⟨d', hd', h1', h2'⟩ := h.serves e' he'
  dsimp only at hd h1 h2 hd' h1' h2'
  have hin := Orderly.busy_inside h hd
  have hin' := Orderly.busy_inside h hd'
  have hp : Vmap.OnPage (m.areas d).vaStart.toNat := hin.start
  have hq : Vmap.OnPage (m.areas d).vaEnd.toNat := hin.stop
  have hp' : Vmap.OnPage (m.areas d').vaStart.toNat := hin'.start
  have hq' : Vmap.OnPage (m.areas d').vaEnd.toNat := hin'.stop
  rw [BitVec.le_def, VmapManager.toNat_vaSize hin] at h2
  rw [BitVec.le_def, VmapManager.toNat_vaSize hin'] at h2'
  have hdd : d ≠ d' := by
    rintro rfl
    exact hne (h1.symm.trans h1')
  have ha := h.tidy.apart (VmapManager.mem_owned.mpr (Or.inr (Or.inr hd))) (VmapManager.mem_owned.mpr (Or.inr (Or.inr hd'))) hdd
  rw [← h1] at hx
  rw [← h1']
  unfold InPages pagesOf pageSize Vmap.OnPage at *
  unfold Lib.Span.Apart VmapArea.span at ha
  intro hx'
  dsimp only at ha
  omega

/-- The new area starts where no other busy area does. -/
theorem NewArea.start_ne (h : NewArea m m' va) (hO : Orderly ⟨m', live'⟩) {d : Word} (hd : d ∈ m.busyList) :
    (m.areas d).vaStart ≠ va := by
  intro he
  obtain ⟨e, hne, hb, hs⟩ := h.busy
  refine hne ?_
  have := Orderly.start_inj hO (hb ▸ List.mem_cons_of_mem _ hd) (hb ▸ List.mem_cons_self ..) (by rw [h.areas d hd, he, hs])
  exact this ▸ hd

theorem NewArea.not_live (h : NewArea m m' va) (hO : Orderly ⟨m', live'⟩) (hO' : Orderly ⟨m, live⟩) {e : Word × Word}
    (he : e ∈ live) : e.1 ≠ va := by
  obtain ⟨d, hd, h1, -⟩ := hO'.serves e he
  exact h1 ▸ h.start_ne hO hd

/-- An area that is given back at once leaves the busy areas as they were. -/
theorem NewArea.freed {m'' : VmapManager} (h : NewArea m m' va) (hO : Orderly ⟨m', live'⟩) (hF : AreaFreed m' m'' va) :
    (∀ d, d ∈ m''.busyList ↔ d ∈ m.busyList) ∧ ∀ d ∈ m.busyList, m''.areas d = m.areas d := by
  obtain ⟨e, hne, hb, hs⟩ := h.busy
  have hold : ∀ d, d ∈ m''.busyList ↔ d ∈ m.busyList := by
    intro d
    rw [hF.busy, hb, List.mem_cons]
    constructor
    · intro hd
      exact hd.1.resolve_left fun he => hd.2 (he ▸ hs)
    · intro hd
      refine ⟨Or.inr hd, ?_⟩
      rw [h.areas d hd]
      exact h.start_ne hO hd
  exact ⟨hold, fun d hd => (hF.areas d ((hold d).mpr hd)).trans (h.areas d hd)⟩

/-- A range is handed out, or the manager stays as it is. -/
theorem vaAlloc_spec (h : Orderly ⟨m, live⟩) {size : Word} (flags : Word) {before remain : Option Word} (hf : Answers m before remain)
    (hs : size.toNat + 4095 < 2 ^ 64) : m.vaAlloc size 0x1000 flags before remain = some (m, 0) ∨
      ∃ m' va, m.vaAlloc size 0x1000 flags before remain = some (m', va) ∧ va ≠ 0 ∧ 0 < size.toNat ∧
        Orderly ⟨m', (va, size) :: live⟩ ∧ NewArea m m' va := by
  obtain ⟨m', r, he, -, hc⟩ := h.linked.vaAlloc size 0x1000 flags hf.1 hf.2
  have hstep : Vmap.step ⟨m, live⟩ (.alloc size 0x1000 flags before remain) = some ⟨m', if r = 0 then live else (r, size) :: live⟩ := by
    rw [Vmap.step, he]
    rfl
  obtain ⟨hO, -⟩ := h.step (e := .alloc size 0x1000 flags before remain) hf ⟨rfl, hs⟩ hstep
  rcases hc with ⟨rfl, rfl, -⟩ | ⟨h0, va, rfl, hA⟩
  · exact Or.inl he
  have hsz := Vmap.toNat_alignUp hs
  have h0' : 0 < size.toNat := Nat.pos_of_ne_zero fun h => h0 (BitVec.eq_of_toNat_eq h)
  obtain ⟨hm, hle⟩ := h.linked.bestFit hA.chosen
  obtain ⟨-, hb, hfr, -⟩ := VmapManager.Allocated.tidy hA h.tidy hm (by rw [hsz]; exact Nat.dvd_mul_left ..) (by omega) hle
    fun r e hr => by
      obtain ⟨-, h1, h2⟩ := (hf.2 r e).1
      exact (VmapManager.mem_owned.mp hr).elim (fun h => by cases h) fun h => h.elim h1 h2
  have hva : va ∈ m'.busyList := hb ▸ List.mem_cons_self ..
  have hne := Orderly.start_ne_zero hO hva
  rw [if_neg hne] at hO
  exact Or.inr ⟨m', _, he, hne, h0', hO, ⟨va, fun hm' => h.tidy.not_busy hm hm', hb, rfl⟩, hfr⟩

/-- A busy area that starts at `addr` is given back. -/
theorem vaFree_spec (h : Orderly ⟨m, live⟩) (addr link link' : Word) :
    ∃ m', m.vaFree addr link link' = some m' ∧ Orderly ⟨m', live.filter fun e => e.1 ≠ addr⟩ ∧ AreaFreed m m' addr := by
  obtain ⟨m', he, -, hc⟩ := h.linked.vaFree addr link link'
  have hstep : Vmap.step ⟨m, live⟩ (.free addr link link') = some ⟨m', live.filter fun e => e.1 ≠ addr⟩ := by
    rw [Vmap.step, he]
    rfl
  obtain ⟨hO, -⟩ := h.step (e := .free addr link link') trivial trivial hstep
  refine ⟨m', he, hO, ?_⟩
  rcases hc with ⟨rfl, hno⟩ | ⟨-, va, hv, hF⟩
  · refine ⟨fun d => ⟨fun hd => ⟨hd, fun e => ?_⟩, And.left⟩, fun d _ => rfl⟩
    rcases hno with rfl | hno
    · exact Orderly.start_ne_zero h hd e
    · exact List.find?_eq_none.mp hno d hd (decide_eq_true e)
  · obtain ⟨-, hb, hfr⟩ := VmapManager.Freed.tidy hF h.tidy
    have hst : (m.areas va).vaStart = addr := by simpa using List.find?_some hv
    have hnd : m.busyList.Nodup := (List.nodup_append.mp (List.nodup_append.mp h.tidy.nodup).2.1).2.1
    refine ⟨fun d => ?_, fun d hd => hfr d (hb ▸ hd)⟩
    rw [hb, hnd.mem_erase_iff]
    constructor
    · intro hd
      exact ⟨hd.2, fun e => hd.1 (Orderly.start_inj h hd.2 hF.mem (e.trans hst.symm))⟩
    · intro hd
      exact ⟨fun e => hd.2 (e ▸ hst), hd.1⟩

end

/-! ## Records -/

/-- What a record says of its allocation, and the memory it is in. -/
structure Record where
  kind : Kind
  va : Word
  nrPages : Nat
  pas : List Nat
  order : Nat
  cells : List Nat
  deriving DecidableEq

def VmStruct.record (vm : VmStruct) : Record := ⟨.vmalloc, vm.addr, vm.pages.length, vm.pages, 0, [vm.array, vm.self]⟩
def IoMapping.record (io : IoMapping) : Record := ⟨.ioremap, io.addr, io.nrPages, [], 0, [io.self]⟩
def DmaMapping.record (dma : DmaMapping) : Record := ⟨.dma, dma.va, dma.nrPages, [dma.pa], dma.order, [dma.self]⟩

def Sys.records (s : Sys) : List Record :=
  s.vmList.map VmStruct.record ++ (s.ioMapList.map IoMapping.record ++ s.dmaMapList.map DmaMapping.record)

def Record.blocks (r : Record) : List (Nat × Nat) := r.pas.map fun pa => (paToPfn pa, r.order)

/-- The record of an allocation. -/
structure Record.Of (r : Record) (a : Alloc) : Prop where
  kind : r.kind = a.kind
  va : r.va = a.va
  nrPages : r.nrPages = a.pages.length
  blocks : r.blocks = a.blocks
  frames : ∀ pa ∈ r.pas, ∃ p, p < totalPages ∧ pa = pfnToPa p

/-! ## The ledger -/

abbrev held (live : List Alloc) : List (Nat × Nat) := live.flatMap Alloc.blocks

structure Ledger (R : Set Nat) (X : Set (Nat × Nat)) (rf : Nat → Nat) (lost : List (Nat × Nat)) (s : State) : Prop where
  owned : Owned s.sys.machine R (X ∪ {b | b ∈ held s.live ++ lost}) rf
  nodup : (held s.live ++ lost).Nodup
  apart : ∀ b ∈ held s.live ++ lost, b ∉ X
  root : s.sys.machine.ttbr1 ∈ R
  enabled : s.sys.machine.ttbr1 ≠ 0
  ranges : Orderly ⟨s.sys.mgr, s.live.map fun a => (a.va, a.size)⟩
  distinct : (s.live.map Alloc.va).Nodup
  pages : ∀ a ∈ s.live, a.pages.length = pagesOf a.size.toNat
  nonempty : ∀ a ∈ s.live, 0 < a.pages.length
  recorded : ∀ r ∈ s.sys.records, ∃ a ∈ s.live, r.Of a
  once : (s.sys.records.map Record.va).Nodup
  heap : s.sys.heap.Perm (s.sys.records.flatMap Record.cells)
  vmalloced : ∀ a ∈ s.live, a.kind = .vmalloc → ∃ r ∈ s.sys.records, r.Of a
  borrowed : ∀ a ∈ s.live, a.kind = .ioremap → a.blocks = []

section

variable {R : Set Nat} {X : Set (Nat × Nat)} {rf : Nat → Nat} {lost lost' : List (Nat × Nat)} {s s' : Sys} {live live' : List Alloc}
  {a : Alloc}

theorem Boot.ledger {s : State} (h : Boot R X rf s) : Ledger R X rf [] s := by
  have hr : s.sys.records = [] := by rw [Sys.records, h.vmList, h.ioMapList, h.dmaMapList]; rfl
  have hX : X ∪ {b | b ∈ held s.live ++ []} = X := by rw [h.live]; simp
  refine ⟨by rw [hX]; exact h.owned, ?_, ?_, h.root, h.enabled, ?_, ?_, ?_, ?_, ?_, ?_, ?_, ?_, ?_⟩
  · rw [h.live]; exact List.nodup_nil
  · rw [h.live]; exact fun b hb => by cases hb
  · rw [h.live]; exact h.mgr.orderly
  · rw [h.live]; exact List.nodup_nil
  · rw [h.live]; exact fun a ha => by cases ha
  · rw [h.live]; exact fun a ha => by cases ha
  · rw [hr]; exact fun r hr => by cases hr
  · rw [hr]; exact List.nodup_nil
  · rw [hr, h.heap]; exact List.Perm.refl _
  · rw [h.live]; exact fun a ha => by cases ha
  · rw [h.live]; exact fun a ha => by cases ha

theorem Ledger.inside (h : Ledger R X rf lost ⟨s, live⟩) (ha : a ∈ live) : Inside a.va.toNat a.pages.length := by
  rw [h.pages a ha]
  exact Orderly.inside h.ranges (List.mem_map_of_mem (f := fun a : Alloc => (a.va, a.size)) ha)

theorem Ledger.va_inj (h : Ledger R X rf lost ⟨s, live⟩) {b : Alloc} (ha : a ∈ live) (hb : b ∈ live) (he : a.va = b.va) : a = b :=
  List.inj_on_of_nodup_map h.distinct ha hb he

/-- The pages of two allocations do not overlap. -/
theorem Ledger.disjoint (h : Ledger R X rf lost ⟨s, live⟩) {b : Alloc} (ha : a ∈ live) (hb : b ∈ live) (hne : a ≠ b) {x : Nat}
    (hx : InPages a.va.toNat a.pages.length x) : ¬ InPages b.va.toNat b.pages.length x := by
  rw [h.pages a ha] at hx
  rw [h.pages b hb]
  exact Orderly.apart h.ranges (List.mem_map_of_mem (f := fun a : Alloc => (a.va, a.size)) ha)
    (List.mem_map_of_mem (f := fun a : Alloc => (a.va, a.size)) hb) (fun e => hne (h.va_inj ha hb e)) hx

/-- A call that was refused: the same areas, blocks, mappings and records. -/
structure Refused (s s' : Sys) : Prop where
  busy : ∀ d, d ∈ s'.mgr.busyList ↔ d ∈ s.mgr.busyList
  areas : ∀ d ∈ s.mgr.busyList, s'.mgr.areas d = s.mgr.areas d
  tables : SameTables s.machine s'.machine
  used : ∀ p k, Used s'.machine.pmm p k ↔ Used s.machine.pmm p k
  records : s'.records = s.records

theorem Ledger.refused (h : Ledger R X rf lost ⟨s, live⟩) (hR : Refused s s') (hheap : s'.heap = s.heap)
    (hO : Owned s'.machine R (X ∪ {b | b ∈ held live ++ lost}) rf) (hr : Orderly ⟨s'.mgr, live.map fun a => (a.va, a.size)⟩) :
    Ledger R X rf lost ⟨s', live⟩ := by
  refine ⟨hO, h.nodup, h.apart, ?_, ?_, hr, h.distinct, h.pages, h.nonempty, ?_, ?_, ?_, ?_, h.borrowed⟩
  · exact hR.tables.ttbr1 ▸ h.root
  · exact hR.tables.ttbr1 ▸ h.enabled
  · exact hR.records ▸ h.recorded
  · exact hR.records ▸ h.once
  · show s'.heap.Perm (s'.records.flatMap _)
    rw [hR.records, hheap]
    exact h.heap
  · exact hR.records ▸ h.vmalloced

/-- A call handed out the allocation `a`, with the records `rs`. -/
theorem Ledger.acquired (h : Ledger R X rf lost ⟨s, live⟩) (rs : List Record)
    (hO : Owned s'.machine R (X ∪ {b | b ∈ held (a :: live) ++ lost}) rf) (hnd : (held (a :: live) ++ lost).Nodup)
    (hX : ∀ b ∈ a.blocks, b ∉ X) (ht : s'.machine.ttbr1 = s.machine.ttbr1)
    (hr : Orderly ⟨s'.mgr, (a.va, a.size) :: live.map fun a => (a.va, a.size)⟩) (hva : NewArea s.mgr s'.mgr a.va)
    (hp : a.pages.length = pagesOf a.size.toNat) (h0 : 0 < a.pages.length) (hrec : s'.records.Perm (rs ++ s.records))
    (hrs : rs = [] ∧ a.kind ≠ .vmalloc ∨ ∃ r, rs = [r] ∧ r.Of a) (hheap : s'.heap.Perm (rs.flatMap Record.cells ++ s.heap))
    (hio : a.kind = .ioremap → a.blocks = []) : Ledger R X rf lost ⟨s', a :: live⟩ := by
  have hnew : a.va ∉ live.map Alloc.va := by
    intro hm
    obtain ⟨b, hb, hab⟩ := List.mem_map.mp hm
    exact hva.not_live hr h.ranges (List.mem_map_of_mem (f := fun a : Alloc => (a.va, a.size)) hb) hab
  have hall : ∀ r ∈ s'.records, r ∈ rs ∨ r ∈ s.records := fun r hr => List.mem_append.mp (hrec.mem_iff.mp hr)
  refine ⟨hO, hnd, fun b hb => ?_, ht ▸ h.root, ht ▸ h.enabled, hr, List.nodup_cons.mpr ⟨hnew, h.distinct⟩, ?_,
    List.forall_mem_cons.mpr ⟨h0, h.nonempty⟩, ?_, ?_, ?_, ?_,
    List.forall_mem_cons.mpr ⟨hio, h.borrowed⟩⟩
  · rw [held, List.flatMap_cons, List.append_assoc, List.mem_append] at hb
    exact hb.elim (hX b) (h.apart b)
  · exact List.forall_mem_cons.mpr ⟨hp, h.pages⟩
  · intro r hr
    rcases hall r hr with hm | hm
    · rcases hrs with ⟨rfl, -⟩ | ⟨r', rfl, hof⟩
      · cases hm
      · exact ⟨a, List.mem_cons_self .., List.mem_singleton.mp hm ▸ hof⟩
    · obtain ⟨b, hb, hof⟩ := h.recorded r hm
      exact ⟨b, List.mem_cons_of_mem _ hb, hof⟩
  · refine (hrec.map Record.va).nodup_iff.mpr ?_
    rcases hrs with ⟨rfl, -⟩ | ⟨r', rfl, hof⟩
    · exact h.once
    · refine List.nodup_cons.mpr ⟨fun hm => hnew ?_, h.once⟩
      obtain ⟨r, hr, he⟩ := List.mem_map.mp hm
      obtain ⟨b, hb, hof'⟩ := h.recorded r hr
      exact List.mem_map.mpr ⟨b, hb, hof'.va.symm.trans (he.trans hof.va)⟩
  · refine hheap.trans (((h.heap.append_left _).trans ?_).trans (hrec.flatMap_right _).symm)
    rw [List.flatMap_append]
  · intro b hb hk
    rcases List.mem_cons.mp hb with rfl | hb
    · rcases hrs with ⟨-, hno⟩ | ⟨r', rfl, hof⟩
      · exact absurd hk hno
      · exact ⟨r', hrec.mem_iff.mpr (List.mem_cons_self ..), hof⟩
    · obtain ⟨r, hr, hof⟩ := h.vmalloced b hb hk
      exact ⟨r, hrec.mem_iff.mpr (List.mem_append_right _ hr), hof⟩

theorem Ledger.blocks_perm (lost : List (Nat × Nat)) (hl : live.Perm (a :: live')) : (held live ++ lost).Perm (held live' ++ (a.blocks ++ lost)) := by
  have h1 : (held live).Perm (a.blocks ++ held live') := hl.flatMap_right _
  refine (h1.append_right lost).trans ?_
  rw [← List.append_assoc]
  exact List.perm_append_comm.append_right lost

/-- A call took the allocation `a` back, with its record if there is one. -/
theorem Ledger.released (h : Ledger R X rf lost ⟨s, live⟩) (hl : live.Perm (a :: live')) (rs : List Record)
    (hO : Owned s'.machine R (X ∪ {b | b ∈ held live' ++ lost'}) rf)
    (hlost : (held live' ++ lost').Sublist (held live' ++ (a.blocks ++ lost))) (ht : s'.machine.ttbr1 = s.machine.ttbr1)
    (hr : Orderly ⟨s'.mgr, live'.map fun a => (a.va, a.size)⟩) (hrec : s.records.Perm (rs ++ s'.records))
    (hrs : ∀ r ∈ s.records, r ∈ rs ↔ r.va = a.va) (hheap : s.heap.Perm (rs.flatMap Record.cells ++ s'.heap)) :
    Ledger R X rf lost' ⟨s', live'⟩ := by
  have hb := Ledger.blocks_perm lost hl
  have hin : ∀ b ∈ live', b ∈ live := fun b hb => hl.mem_iff.mpr (List.mem_cons_of_mem _ hb)
  have hold : ∀ r ∈ s'.records, r ∈ s.records := fun r hr => hrec.mem_iff.mpr (List.mem_append_right _ hr)
  have hnd : (rs ++ s'.records).Nodup := hrec.nodup_iff.mp (List.Nodup.of_map _ h.once)
  have hother : ∀ b ∈ live, b.va ≠ a.va → b ∈ live' := fun b hb hne =>
    (List.mem_cons.mp (hl.mem_iff.mp hb)).resolve_left fun e => hne (congrArg Alloc.va e)
  have hgone : a.va ∉ live'.map Alloc.va := (List.nodup_cons.mp ((hl.map Alloc.va).nodup_iff.mp h.distinct)).1
  refine ⟨hO, hlost.nodup (hb.nodup_iff.mp h.nodup), fun b hm => h.apart b (hb.mem_iff.mpr (hlost.subset hm)), ht ▸ h.root,
    ht ▸ h.enabled, hr, (List.nodup_cons.mp ((hl.map Alloc.va).nodup_iff.mp h.distinct)).2, fun b hm => h.pages b (hin b hm),
    fun b hm => h.nonempty b (hin b hm), ?_, ?_, ?_, ?_, fun b hm => h.borrowed b (hin b hm)⟩
  · intro r hm
    obtain ⟨b, hb, hof⟩ := h.recorded r (hold r hm)
    refine ⟨b, hother b hb fun e => ?_, hof⟩
    exact (List.nodup_append.mp hnd).2.2 r ((hrs r (hold r hm)).mpr (hof.va.trans e)) r hm rfl
  · exact (List.nodup_append.mp (by rw [← List.map_append]; exact (hrec.map _).nodup_iff.mp h.once)).2.1
  · have h1 := hheap.symm.trans (h.heap.trans (hrec.flatMap_right Record.cells))
    rw [List.flatMap_append] at h1
    exact (List.perm_append_left_iff _).mp h1
  · intro b hm hk
    obtain ⟨r, hr, hof⟩ := h.vmalloced b (hin b hm) hk
    refine ⟨r, (List.mem_append.mp (hrec.mem_iff.mp hr)).resolve_left fun hrs' => hgone ?_, hof⟩
    exact List.mem_map.mpr ⟨b, hm, hof.va.symm.trans ((hrs r hr).mp hrs')⟩

end

end Myos.Vmalloc
