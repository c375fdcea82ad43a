/-
  Myos.Mm.PageFault — the page-fault handler (`kernel/page_fault.c`) and the dispatch of
  aborts to it (`exception/handler.c`).

  `vmalloc_handle_page_fault` and the last part of `page_fault_handler` put a cleared
  page at the address in the same way (`demandPage`). The messages are left out; which
  of them is printed, and which signal sent, is the `FaultOutcome`.

  Proved: putting a page at an address fails and changes no entry, or writes the one
  leaf entry of the address and gives it a new frame (`Installed`); the copy of a shared
  page gives up one reference to the old frame.
-/

import Myos.Mm.Growth
import Myos.Mm.Vma

namespace Myos.Mm

open Pmm Lib.Walk Lib.Dyadic

def vmallocStart : Nat := 0xffff000000000000
def vmallocSize : Nat := 0x1000000000

structure VmapArea where
  vaStart : Nat
  vaEnd : Nat
  deriving DecidableEq, Repr

inductive FaultOutcome where
  | handled
  | noMm
  | noVma
  | writeDenied
  | allocFailed
  | mapFailed
  deriving DecidableEq, Repr

/-- `addr & PAGE_MASK`. -/
def pageBase (addr : Nat) : Nat := addr - addr % pageSize

def Machine.copyPage (m : Machine) (dst src : Nat) : Machine := { m with mem := Mm.copyPage m.mem dst src }

/-- Put a new cleared page at `pageAddr`. -/
def demandPage (m : Machine) (pageAddr prot : Nat) : Machine × FaultOutcome :=
  let r := m.allocPage gfpKernel
  if r.2 = 0 then (r.1, .allocFailed)
  else
    let q := mapPage (r.1.clearPage r.2) pageAddr r.2 prot
    if q.2 ≠ 0 then (q.1.freePhysPages r.2 0, .mapFailed) else (q.1, .handled)

/-- Replace the page `oldPa` at `pageAddr` by a writable copy. -/
def cowPage (m : Machine) (pageAddr oldPa : Nat) : Machine × FaultOutcome :=
  let r := m.allocPage gfpKernel
  if r.2 = 0 then (r.1, .allocFailed)
  else
    let m := (unmapPage (r.1.copyPage r.2 oldPa) pageAddr).putPage oldPa
    let q := mapPage m pageAddr r.2 pageUserRw
    if q.2 ≠ 0 then (q.1.freePhysPages r.2 0, .mapFailed) else (q.1, .handled)

/-- Whether an area of `va_mgr.busy_list` contains `addr`. -/
def busyAt (busy : List VmapArea) (addr : Nat) : Bool := busy.any fun va => va.vaStart ≤ addr && addr < va.vaEnd

/-- The address is the handler's to repair: in the vmalloc range and in a busy area. -/
def vmallocHandles (busy : List VmapArea) (addr : Nat) : Bool :=
  vmallocStart ≤ addr && addr < vmallocStart + vmallocSize && busyAt busy addr

def vmallocHandlePageFault (m : Machine) (busy : List VmapArea) (faultAddr : Nat) : Machine × Int :=
  if vmallocHandles busy faultAddr then
    let r := demandPage m (pageBase faultAddr) pageKernelRw
    (r.1, if r.2 = .handled then 0 else -1)
  else (m, -1)

/-- `0` stands for no area. -/
def rustVmaFind (mm : MmStruct) (addr : Nat) : Nat :=
  match mm.vmaFind addr with
  | some vma => vma.vmFlags
  | none => 0

/-- Bit 6 of the syndrome, WnR. -/
def isWrite (esr : Nat) : Bool := esr >>> 6 &&& 1 == 1

/-- `page_fault_handler` once the area of the address is known. -/
def vmaFault (m : Machine) (vmFlags faultAddr esr : Nat) : Machine × FaultOutcome :=
  let oldPa := getPhysFromVa m faultAddr
  if oldPa ≠ 0 ∧ isWrite esr = true then
    if vmFlags &&& vmWrite = 0 then (m, .writeDenied) else cowPage m (pageBase faultAddr) oldPa
  else if isWrite esr = true ∧ vmFlags &&& vmWrite = 0 then (m, .writeDenied)
  else demandPage m (pageBase faultAddr) (if vmFlags &&& vmExec ≠ 0 then pageUserRx else pageUserRw)

/-- `mm` is `current_mm`. -/
def pageFaultHandler (m : Machine) (busy : List VmapArea) (mm : Option MmStruct) (faultAddr esr : Nat) :
    Machine × FaultOutcome :=
  let v := vmallocHandlePageFault m busy faultAddr
  if v.2 = 0 then (v.1, .handled)
  else
    match mm with
    | none => (v.1, .noMm)
    | some mm => if rustVmaFind mm faultAddr = 0 then (v.1, .noVma) else vmaFault v.1 (rustVmaFind mm faultAddr) faultAddr esr

/-- A data or instruction abort; `none` is the panic on a status that is not a
    translation, access-flag or permission fault. -/
def abortHandler (m : Machine) (busy : List VmapArea) (mm : Option MmStruct) (esr far : Nat) :
    Option (Machine × FaultOutcome) :=
  let dfsc := esr &&& 0x3F
  if 0x04 ≤ dfsc ∧ dfsc ≤ 0x0F then some (pageFaultHandler m busy mm far esr) else none

/-! ## The page of an address -/

theorem pageBase_div (va n : Nat) (h : pageSize ∣ n) : pageBase va / n = va / n := by
  obtain ⟨k, rfl⟩ := h
  rw [← Nat.div_div_eq_div_mul, ← Nat.div_div_eq_div_mul]
  congr 1
  unfold pageBase pageSize
  omega

theorem pageBase_shiftRight (va k : Nat) (h : 12 ≤ k) : pageBase va >>> k = va >>> k := by
  rw [Nat.shiftRight_eq_div_pow, Nat.shiftRight_eq_div_pow]
  exact pageBase_div va _ (Nat.pow_dvd_pow 2 h)

@[simp] theorem dirs_pageBase (va : Nat) : dirs (pageBase va) = dirs va := by
  unfold dirs l0Index l1Index l2Index
  rw [pageBase_shiftRight va 39 (by omega), pageBase_shiftRight va 30 (by omega), pageBase_shiftRight va 21 (by omega)]

@[simp] theorem l3Index_pageBase (va : Nat) : l3Index (pageBase va) = l3Index va := by
  unfold l3Index
  rw [pageBase_shiftRight va 12 (by omega)]

@[simp] theorem isUserAddr_pageBase (va : Nat) : isUserAddr (pageBase va) = isUserAddr va := by
  unfold isUserAddr
  rw [pageBase_shiftRight va 47 (by omega)]

@[simp] theorem l0Table_pageBase (m : Machine) (va : Nat) : m.l0Table (pageBase va) = m.l0Table va := by
  unfold Machine.l0Table
  rw [isUserAddr_pageBase]

theorem l0Table_congr {m m' : Machine} (h0 : m'.ttbr0 = m.ttbr0) (h1 : m'.ttbr1 = m.ttbr1) (va : Nat) :
    m'.l0Table va = m.l0Table va := by
  unfold Machine.l0Table
  rw [h0, h1]

section

variable {m m' m'' : Machine} {R : Set Nat} {K : Set (Nat × Nat)} {rf rf' : Nat → Nat}

theorem Quiet.frames (h : Quiet R rf m m') (hf : ∀ p, 0 < rf' p → 0 < rf p) : Quiet R rf' m m' :=
  ⟨h.ttbr0, h.ttbr1, h.entry, fun p hp => h.page p (hf p hp), h.start, h.grown⟩

theorem Wrote.frames {r v : Nat} {q : List Idx} {i : Idx} (h : Wrote R rf m m' r q i v)
    (hf : ∀ p, 0 < rf' p → 0 < rf p) : Wrote R rf' m m' r q i v :=
  ⟨h.ttbr0, h.ttbr1, h.entry, fun p hp => h.page p (hf p hp), h.start, h.grown⟩

/-! ## A page of its own -/

/-- `m'` is `m` with page frame `p` allocated, filled with `data` and not yet mapped. -/
structure Prepared (R : Set Nat) (K : Set (Nat × Nat)) (rf : Nat → Nat) (m m' : Machine) (p : Nat)
    (data : Nat → UInt8) : Prop where
  owned : Owned m' R K (Function.update rf p 1)
  quiet : Quiet R rf m m'
  fresh : rf p = 0
  lt : p < totalPages
  data : ∀ x, x < pageSize → m'.mem (pfnToPa p + x) = data x
  walks : ∀ r ∈ R, ∀ q : List Idx, q.length ≤ 3 → walk (child m'.mem) r q = walk (child m.mem) r q

theorem NewBlock.prepare {p : Nat} (h : NewBlock m m' R K rf p 0) {mem : Mem}
    (hm : ∀ x, x < pfnToPa p ∨ pfnToPa p + pageSize ≤ x → mem x = m'.mem x) :
    Prepared R K rf m { m' with mem := mem } p fun x => mem (pfnToPa p + x) := by
  obtain ⟨hT, hrf⟩ := h.apart
  have ho := h.owned.adopt h.fresh Nat.one_pos h.alloc.ref
  have hpages : ∀ n, pageSize ∣ n → n ≠ pfnToPa p → ∀ x, n ≤ x → x < n + pageSize → mem x = m'.mem x := by
    intro n hn hne x h1 h2
    have := pages_apart hn (pfnToPa_aligned p) hne
    exact hm x (by omega)
  have htab : ∀ n, Table m'.mem R n → ∀ x, n ≤ x → x < n + pageSize → mem x = m'.mem x := fun n hn =>
    hpages n (ho.table n hn).1.1 fun e => hT (e ▸ hn)
  obtain ⟨ho', hw⟩ := ho.setMem htab
  refine ⟨ho', ⟨h.ttbr0, h.ttbr1, fun r hr q hq j => ?_, fun q hq x h1 h2 => ?_, h.alloc.start,
    fun r hr q hq n hn => Or.inl ?_⟩, hrf, h.owned.block p 0 (Set.mem_insert _ _) |>.1, fun _ _ => rfl,
    fun r hr q hq => ?_⟩
  · rw [withMem_mem, entryAt_setMem htab hr (by omega) (hw r hr q (by omega)), h.mem]
  · have hne : q ≠ p := by rintro rfl; omega
    rw [withMem_mem, hpages _ (pfnToPa_aligned q) (fun e => hne (pfnToPa_inj e)) x h1 h2, h.mem]
  · rw [withMem_mem, hw r hr q hq, h.mem] at hn; exact hn
  · rw [withMem_mem, hw r hr q hq, h.mem]

/-- Give page frame `p`, held by one reference that no entry has, an entry at `va`, or
    give it back. -/
theorem Owned.mapOrFree (h : Owned m R K rf) {p va prot : Nat} (hp : rf p = 1) (hr : m.l0Table va ∈ R)
    (hprot : ProtOk prot) :
    ((mapPage m va (pfnToPa p) prot).2 = -1 ∧
      Stepped R K (Function.update rf p 0) m ((mapPage m va (pfnToPa p) prot).1.freePhysPages (pfnToPa p) 0)) ∨
    (mapPage m va (pfnToPa p) prot).2 = 0 ∧ Owned (mapPage m va (pfnToPa p) prot).1 R K rf ∧
      Wrote R rf m (mapPage m va (pfnToPa p) prot).1 (m.l0Table va) (dirs va) (l3Index va)
        (mkPte prot (pfnToPa p)) := by
  rcases mapPage_spec h hr hprot.lt with ⟨he, hs⟩ | ⟨he, ho, hW⟩
  · refine Or.inl ⟨he, ?_⟩
    generalize (mapPage m va (pfnToPa p) prot).1 = m1 at *
    have hK : (p, 0) ∉ K := (hs.owned.frame p (by omega)).2.1
    obtain ⟨ho, hF⟩ := (hs.owned.disown (by omega : 0 < rf p)).freeBlock hK
    have hf : ∀ q, 0 < Function.update rf p 0 q → 0 < rf q := by
      intro q hq
      by_cases e : q = p
      · rw [e, Function.update_self] at hq; cases hq
      · rwa [Function.update_of_ne e] at hq
    exact ⟨ho, (hs.quiet.frames hf).trans (Quiet.withPmm hF.start)⟩
  · exact Or.inr ⟨he, ho, hW⟩

/-- `m'` is `m` with frame `p`, which was no data frame, mapped at `va` and holding `data`. -/
structure Installed (R : Set Nat) (K : Set (Nat × Nat)) (rf rf' : Nat → Nat) (m m' : Machine) (va prot p : Nat)
    (data : Nat → UInt8) : Prop where
  owned : Owned m' R K rf'
  wrote : Wrote R (Function.update rf' p 0) m m' (m.l0Table va) (dirs va) (l3Index va) (mkPte prot (pfnToPa p))
  fresh : rf p = 0
  lt : p < totalPages
  data : ∀ x, x < pageSize → m'.mem (pfnToPa p + x) = data x

theorem allocPage_cases (h : Owned m R K rf) {flags : Nat} (hf : flags &&& gfpDma = 0) :
    ((m.allocPage flags).2 = 0 ∧ Stepped R K rf m (m.allocPage flags).1 ∧ ¬ Room m.pmm 1) ∨
    ∃ p, (m.allocPage flags).2 = pfnToPa p ∧ NewBlock m (m.allocPage flags).1 R K rf p 0 := by
  rcases h.alloc 0 flags with ⟨⟨e, he⟩, -⟩ | ⟨p, hpa, hN⟩
  · refine Or.inl ⟨by rw [Machine.allocPage, he], by rw [Machine.allocPage, he]; exact h.errorStep e, fun hR => ?_⟩
    obtain ⟨p, hp⟩ := hR.alloc h.sound flags hf
    rw [he] at hp
    exact pfnToPa_ne_zero p hp.symm
  · exact Or.inr ⟨p, hpa, hN⟩

/-- A prepared page that was given its entry. -/
theorem Prepared.installed {va prot p : Nat} {data : Nat → UInt8} (hP : Prepared R K rf m m' p data)
    (ho : Owned m'' R K (Function.update rf p 1))
    (hW : Wrote R (Function.update rf p 1) m' m'' (m.l0Table va) (dirs va) (l3Index va) (mkPte prot (pfnToPa p))) :
    Installed R K rf (Function.update rf p 1) m m'' va prot p data := by
  refine ⟨ho, ?_, hP.fresh, hP.lt, fun x hx => ?_⟩
  · have hz : ∀ q, 0 < Function.update (Function.update rf p 1) p 0 q → 0 < rf q ∧ 0 < Function.update rf p 1 q := by
      intro q hq
      by_cases e : q = p
      · rw [e, Function.update_self] at hq; cases hq
      · rw [Function.update_of_ne e, Function.update_of_ne e] at hq
        exact ⟨hq, by rwa [Function.update_of_ne e]⟩
    exact (hP.quiet.frames fun q hq => (hz q hq).1).wrote (hW.frames fun q hq => (hz q hq).2)
  · have hpg := hW.page p (by rw [Function.update_self]; exact Nat.one_pos)
    rw [hpg _ (by omega) (by omega), hP.data x hx]

theorem Installed.congr {rf' : Nat → Nat} {va prot p : Nat} {data data' : Nat → UInt8}
    (h : Installed R K rf rf' m m' va prot p data) (hd : ∀ x, x < pageSize → data x = data' x) :
    Installed R K rf rf' m m' va prot p data' :=
  ⟨h.owned, h.wrote, h.fresh, h.lt, fun x hx => (h.data x hx).trans (hd x hx)⟩

theorem allocPage_failed (h : Owned m R K rf) {flags : Nat} (he : (m.allocPage flags).2 = 0) :
    ∃ e, (m.allocPage flags).1 = { m with pmm := Pmm.setError m.pmm e } := by
  rcases h.alloc 0 flags with ⟨⟨e, h'⟩, -⟩ | ⟨p, hpa, -⟩
  · exact ⟨e, by rw [Machine.allocPage, h']⟩
  · exact absurd (hpa.symm.trans he) (pfnToPa_ne_zero p)

/-- No page is free, or a cleared one is prepared and then mapped. -/
theorem demandPage_stages (h : Owned m R K rf) (va prot : Nat) :
    ((∃ e, demandPage m va prot = ({ m with pmm := Pmm.setError m.pmm e }, .allocFailed)) ∧ ¬ Room m.pmm 1) ∨
    ∃ p m1, (m.allocPage gfpKernel).2 = pfnToPa p ∧ AllocAt m.pmm m1.pmm p 0 ∧ Prepared R K rf m m1 p (fun _ => 0) ∧
      m1.l0Table va = m.l0Table va ∧ demandPage m va prot = if (mapPage m1 va (pfnToPa p) prot).2 ≠ 0
        then ((mapPage m1 va (pfnToPa p) prot).1.freePhysPages (pfnToPa p) 0, .mapFailed)
        else ((mapPage m1 va (pfnToPa p) prot).1, .handled) := by
  rcases allocPage_cases h (show gfpKernel &&& gfpDma = 0 by decide) with ⟨he, -, hno⟩ | ⟨p, hpa, hN⟩
  · obtain ⟨e, hm⟩ := allocPage_failed h he
    exact Or.inl ⟨⟨e, by rw [demandPage, if_pos he, hm]⟩, hno⟩
  have hP : Prepared R K rf m ((m.allocPage gfpKernel).1.clearPage (pfnToPa p)) p fun x =>
      zeroPage (m.allocPage gfpKernel).1.mem (pfnToPa p) (pfnToPa p + x) :=
    hN.prepare fun x hx => zeroPage_other hx
  refine Or.inr ⟨p, (m.allocPage gfpKernel).1.clearPage (pfnToPa p), hpa, ?_,
    ⟨hP.owned, hP.quiet, hP.fresh, hP.lt, fun x hx => ?_, hP.walks⟩, l0Table_congr hP.quiet.ttbr0 hP.quiet.ttbr1 va, ?_⟩
  · rw [clearPage_pmm]
    exact hN.alloc
  · rw [hP.data x hx]
    unfold zeroPage
    rw [if_pos (by omega)]
  · rw [demandPage, hpa, if_neg (pfnToPa_ne_zero p)]

theorem demandPage_spec (h : Owned m R K rf) {va prot : Nat} (hr : m.l0Table va ∈ R) (hp : ProtOk prot) :
    ((demandPage m va prot).2 ≠ .handled ∧ Stepped R K rf m (demandPage m va prot).1) ∨
    ∃ p, (m.allocPage gfpKernel).2 = pfnToPa p ∧ (demandPage m va prot).2 = .handled ∧
      Installed R K rf (Function.update rf p 1) m (demandPage m va prot).1 va prot p fun _ => 0 := by
  rcases demandPage_stages h va prot with ⟨⟨e, he⟩, -⟩ | ⟨p, m1, hpa, -, hP, hl, hd⟩
  · rw [he]
    exact Or.inl ⟨nofun, h.errorStep e⟩
  rw [hd]
  rcases hP.owned.mapOrFree (p := p) (Function.update_self _ _ _) (by rw [hl]; exact hr) hp with
    ⟨he, hs⟩ | ⟨he, ho, hW⟩
  · rw [if_pos (by rw [he]; decide)]
    rw [Function.update_idem, show Function.update rf p 0 = rf by rw [← hP.fresh, Function.update_eq_self]] at hs
    exact Or.inl ⟨nofun, hs.owned, hP.quiet.trans hs.quiet⟩
  · rw [if_neg (by rw [he]; decide)]
    rw [hl] at hW
    exact Or.inr ⟨p, hpa, rfl, hP.installed ho hW⟩

theorem Enough.mono {q : List Idx} (hm : m'.mem = m.mem) (hst : m'.pmm.buddyMemStart = m.pmm.buddyMemStart)
    (hu : ∀ p k, Used m'.pmm p k → Used m.pmm p k) : ∀ {t : Nat}, Enough m t q → Enough m' t q := by
  induction q with
  | nil => intro t _; trivial
  | cons i q ih =>
    intro t hE
    rcases hE with ⟨c, hc, hE⟩ | ⟨hc, hR⟩
    · exact Or.inl ⟨c, by rw [hm]; exact hc, ih hE⟩
    · exact Or.inr ⟨by rw [hm]; exact hc, hR.mono hst hu⟩

/-- The tree of `r` is made of pages the allocator manages. -/
def Managed (m : Machine) (r : Nat) : Prop := ∀ n, Table m.mem {r} n → ¬ Unmanaged m.pmm n

/-- Taking a page changes nothing on the way to an address. -/
theorem Anchored.prepared {r va p : Nat} {data : Nat → UInt8} (h : Anchored m r va) (hr : r ∈ R)
    (hP : Prepared R K rf m m' p data) : Anchored m' r va := by
  intro q i hq0 hq n hn hu
  have hlen : q.length ≤ 3 := by
    have := hq.length_le
    simp [dirs] at this
    omega
  have hst : Unmanaged m.pmm n := by
    unfold Unmanaged at *
    rwa [← hP.quiet.start]
  have hn' : walk (child m.mem) r q = some n := by rw [← hP.walks r hr q hlen, hn]
  obtain ⟨j, hj, hc⟩ := h q i hq0 hq n hn' hst
  refine ⟨j, hj, ?_⟩
  rw [child_eq_of_walk hn' hn]
  · exact hc
  rcases Nat.lt_or_eq_of_le hlen with hlt | he
  · exact hP.walks r hr _ (by simp; omega)
  · exact walk_eq_of_entry (hP.quiet.entry r hr q he j)

/-- The copy of a page: the old frame gives up one reference. If the new page cannot be
    mapped, which takes the loss of a table outside the allocator's range, the address
    is left without a page. -/
theorem cowPage_spec (h : Owned m R K rf) {va po : Nat} (hr : m.l0Table va ∈ R) (h0 : m.l0Table va ≠ 0)
    (hpr : ptePresent (m.translate va) = true) (hrf : 0 < rf po) :
    ((cowPage m va (pfnToPa po)).2 = .allocFailed ∧ Stepped R K rf m (cowPage m va (pfnToPa po)).1) ∨
    ((cowPage m va (pfnToPa po)).2 = .mapFailed ∧ ¬ Anchored m (m.l0Table va) va ∧
      Owned (cowPage m va (pfnToPa po)).1 R K (Function.update rf po (rf po - 1)) ∧
      Wrote R (Function.update rf po (rf po - 1)) m (cowPage m va (pfnToPa po)).1 (m.l0Table va) (dirs va)
        (l3Index va) 0) ∨
    ∃ p, (cowPage m va (pfnToPa po)).2 = .handled ∧
      Installed R K rf (Function.update (Function.update rf p 1) po (rf po - 1)) m (cowPage m va (pfnToPa po)).1 va
        pageUserRw p fun x => m.mem (pfnToPa po + x) := by
  rcases allocPage_cases h (show gfpKernel &&& gfpDma = 0 by decide) with ⟨he, hs, -⟩ | ⟨p, hpa, hN⟩
  · rw [cowPage, if_pos he]
    exact Or.inl ⟨rfl, hs⟩
  have hne : po ≠ p := by rintro rfl; have := hN.apart.2; omega
  have hP : Prepared R K rf m ((m.allocPage gfpKernel).1.copyPage (pfnToPa p) (pfnToPa po)) p fun x =>
      Mm.copyPage (m.allocPage gfpKernel).1.mem (pfnToPa p) (pfnToPa po) (pfnToPa p + x) :=
    hN.prepare fun x hx => copyPage_other hx
  have hdata : ∀ x, x < pageSize →
      Mm.copyPage (m.allocPage gfpKernel).1.mem (pfnToPa p) (pfnToPa po) (pfnToPa p + x) = m.mem (pfnToPa po + x) := by
    intro x hx
    unfold Mm.copyPage
    rw [if_pos (by omega), hN.mem, Nat.add_sub_cancel_left]
  rw [cowPage, hpa, if_neg (pfnToPa_ne_zero p)]
  generalize (m.allocPage gfpKernel).1.copyPage (pfnToPa p) (pfnToPa po) = m1 at *
  have hl := l0Table_congr hP.quiet.ttbr0 hP.quiet.ttbr1 va
  have hpr1 : ptePresent (m1.translate va) = true := by
    rw [Machine.translate, hl, hP.quiet.entry _ hr _ rfl]; exact hpr
  -- the old page is unmapped and its reference dropped
  obtain ⟨hU, hA⟩ := unmapPage_kept hP.owned (by rw [hl]; exact hr) (by rw [hl]; exact h0) hpr1
  rw [hl] at hU hA
  generalize unmapPage m1 va = m2 at *
  have hro : Function.update rf p 1 po = rf po := Function.update_of_ne hne _ _
  obtain ⟨ho3, hu3⟩ := hU.owned.putPage (p := po) (by rw [hro]; exact hrf)
  rw [hro] at ho3
  have hmem3 : (m2.putPage (pfnToPa po)).mem = m2.mem := putPage_mem _ _
  have ht30 : (m2.putPage (pfnToPa po)).ttbr0 = m2.ttbr0 := putPage_ttbr0 _ _
  have ht31 : (m2.putPage (pfnToPa po)).ttbr1 = m2.ttbr1 := putPage_ttbr1 _ _
  have hst3 : (m2.putPage (pfnToPa po)).pmm.buddyMemStart = m2.pmm.buddyMemStart := putPage_start _ _
  have hE : Anchored m (m.l0Table va) va → Enough (m2.putPage (pfnToPa po)) (m.l0Table va) (dirs va) := fun hM =>
    (hA (hM.prepared hr hP)).mono hmem3 hst3 fun q k hq => ((hu3 q k).mp hq).1
  have hQ3 : Quiet R (Function.update rf p 1) m2 (m2.putPage (pfnToPa po)) := by
    refine ⟨ht30, ht31, fun r hr q hq j => by rw [hmem3], fun q _ x _ _ => by rw [hmem3], hst3, fun r hr q hq n hn => ?_⟩
    rw [hmem3] at hn; exact Or.inl hn
  generalize m2.putPage (pfnToPa po) = m3 at *
  have hW3 := hU.wrote.quiet hQ3
  have hl3 : m3.l0Table va = m.l0Table va := (l0Table_congr hW3.ttbr0 hW3.ttbr1 va).trans hl
  have hp1 : Function.update (Function.update rf p 1) po (rf po - 1) p = 1 := by
    rw [Function.update_of_ne (Ne.symm hne), Function.update_self]
  have hframe : ∀ q, q ≠ p → 0 < Function.update (Function.update rf p 1) po (rf po - 1) q →
      0 < rf q ∧ 0 < Function.update rf p 1 q := by
    intro q hq h'
    by_cases e : q = po
    · rw [e, hro]; exact ⟨hrf, hrf⟩
    · rw [Function.update_of_ne e, Function.update_of_ne hq] at h'
      rw [Function.update_of_ne hq]; exact ⟨h', h'⟩
  rcases ho3.mapOrFree hp1 (by rw [hl3]; exact hr)
    (show ProtOk pageUserRw from ⟨by decide, by decide, by decide⟩) with ⟨he, hs⟩ | ⟨he, ho, hW⟩
  · rw [if_pos (by rw [he]; decide)]
    have hrf' : Function.update (Function.update (Function.update rf p 1) po (rf po - 1)) p 0 =
        Function.update rf po (rf po - 1) := by
      rw [Function.update_comm hne, Function.update_idem,
        show Function.update rf p 0 = rf by rw [← hP.fresh, Function.update_eq_self]]
    rw [hrf'] at hs
    have hf : ∀ q, 0 < Function.update rf po (rf po - 1) q → 0 < rf q ∧ 0 < Function.update rf p 1 q := by
      intro q hq
      refine hframe q (fun e => ?_) ?_
      · rw [e, Function.update_of_ne (Ne.symm hne), hP.fresh] at hq; cases hq
      · rw [← hrf'] at hq
        by_cases e : q = p
        · rw [e, Function.update_self] at hq; cases hq
        · rwa [Function.update_of_ne e] at hq
    refine Or.inr (Or.inl ⟨rfl, fun hM => ?_, hs.owned, ?_⟩)
    · have := mapPage_succeeds ho3 (pfnToPa p) pageUserRw (by rw [hl3]; exact hr) (by rw [hl3]; exact h0)
        (by rw [hl3]; exact hE hM)
      rw [he] at this; cases this
    · exact ((hP.quiet.frames fun q hq => (hf q hq).1).wrote (hW3.frames fun q hq => (hf q hq).2)).quiet hs.quiet
  · rw [if_neg (by rw [he]; decide)]
    refine Or.inr (Or.inr ⟨p, rfl, ho, ?_, hP.fresh, hP.lt, fun x hx => ?_⟩)
    · rw [hl3] at hW
      have hz : ∀ q, 0 < Function.update (Function.update (Function.update rf p 1) po (rf po - 1)) p 0 q →
          q ≠ p ∧ 0 < Function.update (Function.update rf p 1) po (rf po - 1) q := by
        intro q hq
        by_cases e : q = p
        · rw [e, Function.update_self] at hq; cases hq
        · rw [Function.update_of_ne e] at hq; exact ⟨e, hq⟩
      have h1 := (hP.quiet.frames fun q hq => (hframe q (hz q hq).1 (hz q hq).2).1).wrote
        (hW3.frames fun q hq => (hframe q (hz q hq).1 (hz q hq).2).2)
      have h2 := hW.frames fun q hq => (hz q hq).2
      refine ⟨h2.ttbr0.trans h1.ttbr0, h2.ttbr1.trans h1.ttbr1, fun r' hr' q' hq' j => ?_,
        fun q hq => (h1.page q hq).trans (h2.page q hq), h2.start.trans h1.start,
        fun r' hr' q' hq' n => grown_trans h1.start (h1.grown r' hr' q' hq') (h2.grown r' hr' q' hq' n)⟩
      rw [h2.entry r' hr' q' hq' j, h1.entry r' hr' q' hq' j]
      split <;> rfl
    · have hpg := hW.page p (by rw [hp1]; exact Nat.one_pos)
      have hpg3 := hW3.page p (by rw [Function.update_self]; exact Nat.one_pos)
      rw [hpg _ (by omega) (by omega), hpg3 _ (by omega) (by omega), hP.data x hx]
      exact hdata x hx

end

end Myos.Mm
