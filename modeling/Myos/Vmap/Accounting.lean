/-
  Myos.Vmap.Accounting — `total_free` and `nr_busy` against the lists they count.

  Proved: a call keeps `total_free` at the sum of the free sizes exactly when it does not lose
  the front of an area for want of a descriptor (`va_alloc`) and does not merge the freed area
  into the one in front of it, whose descriptor is then read after `kfree` (`va_free`).
  `nr_busy` is the length of the busy list in every run.
-/

import Myos.Lib.Runs
import Myos.Vmap.Manager

namespace Myos.Vmap

open Lib

namespace VmapManager

variable {m m' : VmapManager} {hand : List Word} {va : Word}

/-! ## Sums of sizes -/

def total (areas : Word → VmapArea) (l : List Word) : Word := (l.map fun d => vaSize (areas d)).sum

theorem total_perm {areas : Word → VmapArea} {l l' : List Word} (h : l.Perm l') : total areas l = total areas l' :=
  (h.map _).sum_eq

theorem total_cons (areas : Word → VmapArea) (d : Word) (l : List Word) :
    total areas (d :: l) = vaSize (areas d) + total areas l := by simp [total]

theorem total_erase {areas : Word → VmapArea} {d : Word} {l : List Word} (h : d ∈ l) :
    total areas l = vaSize (areas d) + total areas (l.erase d) := by
  rw [total_perm (List.perm_cons_erase h), total_cons]

theorem total_update {areas : Word → VmapArea} {d : Word} {l : List Word} (h : d ∉ l) (a : VmapArea) :
    total (Function.update areas d a) l = total areas l := by
  refine congrArg List.sum (List.map_congr_left fun x hx => ?_)
  rw [Function.update_of_ne]
  rintro rfl
  exact h hx

/-- The free bytes. -/
def freeBytes (m : VmapManager) : Word := total m.areas m.freeList

theorem Removed.freeBytes (h : Removed m va m') : m.freeBytes = vaSize (m.areas va) + m'.freeBytes := by
  rw [VmapManager.freeBytes, total_erase h.mem, VmapManager.freeBytes, h.areas, h.freeList]

theorem Inserted.freeBytes {a : VmapArea} (h : Inserted m va a m') (hm : va ∉ m.freeList) :
    m'.freeBytes = vaSize a + m.freeBytes := by
  rw [VmapManager.freeBytes, h.freeList, total_perm (listInsert_perm ..), total_cons, h.areas, Function.update_self,
    total_update hm, VmapManager.freeBytes]

theorem freeBytes_setArea (hm : va ∉ m.freeList) (a : VmapArea) : (m.setArea va a).freeBytes = m.freeBytes :=
  total_update hm a

/-! ## Allocation -/

/-- Cutting off the front keeps the bytes that are free or in hand, unless it is lost. -/
theorem SplitFront.bytes {align : Word} {before : Option Word} (h : SplitFront m va align before m') (hm : va ∉ m.freeList) :
    m'.totalFree = m.totalFree ∧ va ∉ m'.freeList ∧ m'.nrBusy = m.nrBusy ∧ m'.busyList = m.busyList ∧
      (m'.freeBytes + vaSize (m'.areas va) = m.freeBytes + vaSize (m.areas va) ↔
        (before = none → alignUp (m.areas va).vaStart align = (m.areas va).vaStart)) := by
  rcases h with ⟨e, rfl⟩ | ⟨-, m1, rfl, ⟨rfl, rfl⟩ | ⟨b, rfl, hf, hne, hI⟩⟩
  · exact ⟨rfl, hm, rfl, rfl, iff_of_true rfl fun _ => e⟩
  · refine ⟨rfl, hm, rfl, rfl, ?_⟩
    rw [freeBytes_setArea hm, setArea_areas, Function.update_self]
    simp only [vaSize, forall_const]
    exact ⟨fun h => by linear_combination -h, fun h => by rw [h]⟩
  · have hm1 : va ∉ m1.freeList := by
      rw [hI.freeList, mem_listInsert]
      rintro (rfl | h)
      · exact hne rfl
      · exact hm h
    refine ⟨hI.totalFree, hm1, hI.nrBusy, hI.busyList, iff_of_true ?_ fun e => by cases e⟩
    rw [freeBytes_setArea hm1, hI.freeBytes hf.2.1, setArea_areas, Function.update_self]
    simp only [vaSize]
    ring

/-- Cutting off the rest keeps them. -/
theorem SplitBack.bytes {size : Word} {remain : Option Word} (h : SplitBack m va size remain m') (hm : va ∉ m.freeList) :
    m'.totalFree = m.totalFree ∧ va ∉ m'.freeList ∧ m'.nrBusy = m.nrBusy ∧ m'.busyList = m.busyList ∧
      m'.freeBytes + vaSize (m'.areas va) = m.freeBytes + vaSize (m.areas va) := by
  rcases h with ⟨rfl, -⟩ | ⟨r, rfl, hf, hne, -, hI⟩
  · exact ⟨rfl, hm, rfl, rfl, rfl⟩
  · refine ⟨hI.totalFree, ?_, hI.nrBusy, hI.busyList, ?_⟩
    · rw [hI.freeList, mem_listInsert]
      rintro (rfl | h)
      · exact hne rfl
      · exact hm h
    · rw [hI.freeBytes hf.2.1, freeBytes_setArea hm, hI.areas, Function.update_of_ne hne.symm, setArea_areas,
        Function.update_self]
      simp only [vaSize]
      ring

/-- What the two counters count. -/
structure Accounts (m : VmapManager) : Prop where
  totalFree : m.totalFree = m.freeBytes
  nrBusy : m.nrBusy.toNat = m.busyList.length

theorem Allocated.accounts {size align flags : Word} {before remain : Option Word}
    (h : Allocated m size align flags before remain va m') (hm : va ∉ (m.freeList.erase va)) (ha : m.totalFree = m.freeBytes) :
    m'.nrBusy = m.nrBusy + 1 ∧ m'.busyList.length = m.busyList.length + 1 ∧ (m'.totalFree = m'.freeBytes ↔
      (before = none → alignUp (m.areas va).vaStart align = (m.areas va).vaStart)) := by
  obtain ⟨m1, m2, m3, hR, hF, hB, rfl⟩ := h.steps
  have hm1 : va ∉ m1.freeList := by rw [hR.freeList]; exact hm
  obtain ⟨ht2, hm2, hn2, hb2, hiff⟩ := hF.bytes hm1
  obtain ⟨ht3, hm3, hn3, hb3, hB3⟩ := hB.bytes hm2
  have hR' := hR.freeBytes
  rw [hR.areas] at hiff
  have hbytes : (m3.markBusy va flags).freeBytes = m3.freeBytes := freeBytes_setArea hm3 _
  have htot : (m3.markBusy va flags).totalFree = m3.totalFree - vaSize (m3.areas va) := by
    simp [markBusy, setArea, vaSize]
  refine ⟨?_, ?_, ?_⟩
  · show m3.nrBusy + 1 = _
    rw [hn3, hn2, hR.nrBusy]
  · show (va :: m3.busyList).length = _
    rw [List.length_cons, hb3, hb2, hR.busyList]
  · rw [htot, hbytes, ht3, ht2, hR.totalFree, ← hiff]
    exact ⟨fun h => by linear_combination ha + hR' - h + hB3.symm, fun h => by linear_combination ha + hR' - h - hB3⟩

/-! ## Freeing -/

/-- What goes back to `total_free` is what the descriptor of the freed area says, after the
    merge with the area in front. -/
theorem Freed.accounts {link : Word} (h : Freed m va link m') (hL : Linked m hand) (ha : m.totalFree = m.freeBytes) :
    m'.nrBusy = m.nrBusy - 1 ∧ m'.busyList.length = m.busyList.length - 1 ∧ (m'.totalFree = m'.freeBytes ↔
      ∀ prev, m.vaFindPrevFree (m.areas va).vaStart = some prev → (m.areas prev).vaEnd = (m.areas va).vaStart →
        link = (m.areas va).vaStart) := by
  obtain ⟨m1, dst, hM, hI⟩ := h.steps
  have hlen : (m.busyList.erase va).length = m.busyList.length - 1 := List.length_erase_of_mem h.mem
  have hnd := (List.nodup_append.mp hL.nodup).2.1
  have hv : va ∉ m.freeList := fun hm => (List.nodup_append.mp hnd).2.2 va hm va h.mem rfl
  rcases hM with ⟨rfl, rfl, hno⟩ | ⟨hp, he, hne, m2, hR, rfl⟩
  · refine ⟨hI.nrBusy, by rw [hI.busyList]; exact hlen, iff_of_true ?_ fun prev h1 h2 => absurd h2 (hno prev h1)⟩
    rw [hI.freeBytes hv, hI.totalFree]
    show m.totalFree + vaSize (m.areas dst) = vaSize (m.areas dst) + m.freeBytes
    rw [ha]
    ring
  · have hd : dst ∉ m2.freeList := by
      rw [hR.freeList]
      exact fun hm => ((List.nodup_append.mp hnd).1.mem_erase_iff.mp hm).1 rfl
    have hv2 : va ∉ m2.freeList := fun hm => hv (by rw [hR.freeList] at hm; exact List.mem_of_mem_erase hm)
    refine ⟨hI.nrBusy.trans hR.nrBusy, by rw [hI.busyList]; exact (congrArg List.length hR.busyList).trans hlen, ?_⟩
    have hF : m.freeBytes = vaSize (m.areas dst) + m2.freeBytes := hR.freeBytes
    have hF' : m'.freeBytes = _ := hI.freeBytes hd
    have ht : m'.totalFree = m2.totalFree + _ := hI.totalFree
    have hb : ((m2.setArea dst { m.areas dst with vaEnd := (m.areas va).vaEnd }).setArea va
        { m.areas va with vaStart := link }).freeBytes = m2.freeBytes :=
      (freeBytes_setArea (m := m2.setArea dst _) hv2 _).trans (freeBytes_setArea hd _)
    have hF' : m'.freeBytes = vaSize { m.areas dst with vaEnd := (m.areas va).vaEnd } + m2.freeBytes := by
      rw [hF']
      refine congrArg₂ _ ?_ hb
      simp only [setArea_areas, Function.update_of_ne hne, Function.update_self]
    have ht : m'.totalFree = m.totalFree + vaSize { m.areas va with vaStart := link } := by
      rw [ht, hR.totalFree, setArea_areas, Function.update_self]
    have he : (m.areas dst).vaEnd = (m.areas va).vaStart := he
    rw [hF', ht]
    simp only [vaSize] at hF ⊢
    constructor
    · intro h prev _ _
      linear_combination ha + hF - h + he
    · intro h
      have hl := h dst hp he
      linear_combination ha + hF - hl + he

end VmapManager

/-! ## Every run -/

/-- The call does not lose a front piece, nor reads an area through a descriptor that was freed:
    `va_alloc` takes an area that starts aligned or has a descriptor for the front, `va_free`
    frees one that no free area ends at (unless the link `kfree` writes is the address itself). -/
def Counting (s : State) : Op → Prop
  | .alloc size align _ before _ => size ≠ 0 → before = none →
      ∀ va, s.mgr.vaFindBestFit (VmapManager.alignUp size vaAlignDefault) = some va →
        VmapManager.alignUp (s.mgr.areas va).vaStart (VmapManager.clampAlign align) = (s.mgr.areas va).vaStart
  | .free addr link _ => addr ≠ 0 → ∀ va, s.mgr.vaFindByAddr addr = some va → ∀ prev,
      s.mgr.vaFindPrevFree (s.mgr.areas va).vaStart = some prev →
        (s.mgr.areas prev).vaEnd = (s.mgr.areas va).vaStart → link = (s.mgr.areas va).vaStart

theorem Boot.accounts {s : State} (h : Boot s) : s.mgr.Accounts := by
  obtain ⟨d, h0, hi, -⟩ := h
  have hL : VmapManager.Linked ⟨fun _ => ⟨0, 0, 0⟩, .nil, [], [], vmallocEnd - vmallocStart, 0⟩ [d, 0] :=
    ⟨RedBlack.Ordered.nil _, List.Perm.refl _, by simpa using h0⟩
  obtain ⟨m', hm, -, hI⟩ := hL.inserted ⟨vmallocStart, vmallocEnd, 0⟩
  cases hm.symm.trans hi
  refine ⟨?_, ?_⟩
  · rw [hI.totalFree, hI.freeBytes (by simp)]
    simp [VmapManager.freeBytes, VmapManager.total, vaSize]
  · rw [hI.nrBusy, hI.busyList]
    rfl

/-- There are fewer busy areas than addresses. -/
theorem VmapManager.Linked.busy_lt {m : VmapManager} (h : m.Linked [0]) : m.busyList.length < 2 ^ 64 := by
  have hnd : (0 :: m.busyList).Nodup := by
    refine h.nodup.sublist ?_
    exact (List.Sublist.refl [0]).append (List.sublist_append_right ..)
  have := hnd.length_le_card
  rw [List.length_cons] at this
  have hc : Fintype.card Word = 2 ^ 64 := (Fintype.card_congr BitVec.equivFin.toEquiv).trans (Fintype.card_fin _)
  omega

/-- A call keeps the counters right exactly when it is `Counting`. -/
theorem counting_iff {s s' : State} (hL : s.mgr.Linked [0]) (ha : s.mgr.Accounts) {e : Op} (hf : Fresh s e)
    (hs : step s e = some s') : s'.mgr.nrBusy.toNat = s'.mgr.busyList.length ∧
      (s'.mgr.totalFree = s'.mgr.freeBytes ↔ Counting s e) := by
  obtain ⟨s1, h1, hL1, hm⟩ := step_moved hL hf
  cases h1.symm.trans hs
  have hlt := hL1.busy_lt
  have hnr := ha.nrBusy
  have hnd := (List.nodup_append.mp (List.nodup_append.mp hL.nodup).2.1).1
  cases hm with
  | refused hc =>
    refine ⟨hnr, iff_of_true ha.totalFree fun h0 _ va hv => ?_⟩
    rcases hc with hc | hc
    · exact absurd hc h0
    · rw [hc] at hv
      cases hv
  | @allocated size align flags before remain va m' h0 hA =>
    obtain ⟨hn, hl, hiff⟩ := hA.accounts (fun hm => (hnd.mem_erase_iff.mp hm).1 rfl) ha.totalFree
    dsimp only at hlt ⊢
    refine ⟨?_, hiff.trans ⟨fun h _ hb va' hv => ?_, fun h hb => h h0 hb va hA.chosen⟩⟩
    · rw [hn, BitVec.toNat_add, hnr, hl]
      rw [hl] at hlt
      exact Nat.mod_eq_of_lt hlt
    · cases hA.chosen.symm.trans hv
      exact h hb
  | ignored hc =>
    refine ⟨hnr, iff_of_true ha.totalFree fun h0 va hv => ?_⟩
    rcases hc with hc | hc
    · exact absurd hc h0
    · rw [hc] at hv
      cases hv
  | @freed addr link link' va m' h0 hv hF =>
    obtain ⟨hn, hl, hiff⟩ := hF.accounts hL ha.totalFree
    dsimp only
    refine ⟨?_, hiff.trans ⟨fun h _ va' hv' => ?_, fun h => h h0 va hv⟩⟩
    · have hpos := List.length_pos_of_mem hF.mem
      rw [hn, hl]
      bv_omega
    · cases hv.symm.trans hv'
      exact h

theorem counting_alloc_iff {s : State} {size align flags : Word} {before remain : Option Word} :
    (size ≠ 0 → before = none → (s.mgr.vaFindBestFit (VmapManager.alignUp size vaAlignDefault)).all (fun va =>
      decide (VmapManager.alignUp (s.mgr.areas va).vaStart (VmapManager.clampAlign align) = (s.mgr.areas va).vaStart)) = true) ↔
      Counting s (.alloc size align flags before remain) := by
  simp only [Counting, Option.all_eq_true, decide_eq_true_eq]

theorem counting_free_iff {s : State} {addr link link' : Word} :
    (addr ≠ 0 → (s.mgr.vaFindByAddr addr).all (fun va => (s.mgr.vaFindPrevFree (s.mgr.areas va).vaStart).all fun prev =>
      decide ((s.mgr.areas prev).vaEnd = (s.mgr.areas va).vaStart → link = (s.mgr.areas va).vaStart)) = true) ↔
      Counting s (.free addr link link') := by
  simp only [Counting, Option.all_eq_true, decide_eq_true_eq]

instance (s : State) : ∀ e, Decidable (Counting s e)
  | .alloc .. => decidable_of_iff _ counting_alloc_iff
  | .free .. => decidable_of_iff _ counting_free_iff

/-- Two pages are allocated and freed again, the higher one first. -/
def freeTwo : List Op :=
  [.alloc 0x1000 0x1000 1 none (some 2), .alloc 0x1000 0x1000 1 none (some 3), .free (vmallocStart + 0x1000) 0 0,
    .free vmallocStart 0 0]

/-- The same pages, the lower one first: the higher one is merged into it. -/
def freeMerged : List Op :=
  [.alloc 0x1000 0x1000 1 none (some 2), .alloc 0x1000 0x1000 1 none (some 3), .free vmallocStart 0 0,
    .free (vmallocStart + 0x1000) 0 0]

end Myos.Vmap
