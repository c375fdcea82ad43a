/-
  Myos.Vmap.Coalescing — which free areas are merged.

  `va_free` merges the freed area into the free area in front of it. The area behind it is
  looked for among those that start above its end, so the one that starts there is passed over.

  Proved: no two free areas touch in the runs that never free an area in front of a free one,
  and such a call leaves two that do. Without busy areas one area is then left, the whole range.
-/

import Myos.Vmap.Ranges

namespace Myos.Vmap

open Lib

namespace VmapManager

variable {m m' : VmapManager} {hand : List Word} {va : Word}

/-- No free area ends where another one starts. -/
def NoTouch (m : VmapManager) : Prop := ∀ a ∈ m.freeList, ∀ b ∈ m.freeList, (m.areas a).vaEnd ≠ (m.areas b).vaStart

/-! ## The search for the area in front -/

theorem Tidy.before (h : Tidy m hand) {a b : Word} (ha : a ∈ m.owned hand) (hb : b ∈ m.owned hand)
    (hlt : (m.areas a).vaStart.toNat < (m.areas b).vaStart.toNat) :
    (m.areas a).vaEnd.toNat ≤ (m.areas b).vaStart.toNat := by
  have hne : a ≠ b := fun e => absurd hlt (by rw [e]; exact lt_irrefl _)
  refine (h.apart ha hb hne).resolve_right fun hba => ?_
  exact lt_asymm hlt ((h.inside hb).nonempty.trans_le hba)

theorem Tidy.not_self (h : Tidy m hand) {a : Word} (ha : a ∈ m.owned hand) : (m.areas a).vaEnd ≠ (m.areas a).vaStart := fun e =>
  absurd (h.inside ha).nonempty (not_lt.mpr (le_of_eq (congrArg BitVec.toNat e)))

/-- An area that ends at the address is found. -/
theorem Tidy.prevFree (h : Tidy m hand) {a addr : Word} (ha : a ∈ m.freeList) (he : (m.areas a).vaEnd = addr) :
    m.vaFindPrevFree addr = some a := by
  obtain ⟨l1, l2, hl⟩ := List.append_of_mem ha
  have hs := h.sorted
  rw [Sorted, hl, List.pairwise_append, List.pairwise_cons] at hs
  have hmem : ∀ d, d ∈ l1 ∨ d ∈ l2 → d ∈ m.owned hand := fun d hd => by
    refine mem_owned.mpr (Or.inr (Or.inl ?_))
    rw [hl]
    exact hd.elim (List.mem_append_left _) fun hd => List.mem_append_right _ (List.mem_cons_of_mem _ hd)
  have ha' : a ∈ m.owned hand := mem_owned.mpr (Or.inr (Or.inl ha))
  have h1 : ∀ x ∈ l1, decide ((m.areas x).vaEnd ≤ addr) = true := fun x hx => by
    have hlt := h.before (hmem x (Or.inl hx)) ha' (hs.2.2 x hx a (List.mem_cons_self ..))
    rw [decide_eq_true_eq, ← he, BitVec.le_def]
    exact hlt.trans (h.inside ha').nonempty.le
  have h2 : l2.takeWhile (fun x => decide ((m.areas x).vaEnd ≤ addr)) = [] := by
    cases l2 with
    | nil => rfl
    | cons y l2 =>
      have hy := hmem y (Or.inr (List.mem_cons_self ..))
      have hlt := h.before ha' hy (hs.2.1.1 y (List.mem_cons_self ..))
      refine List.takeWhile_cons_of_neg ?_
      rw [decide_eq_true_eq, ← he, BitVec.le_def, not_le]
      exact lt_of_le_of_lt hlt (h.inside hy).nonempty
  have hself : decide ((m.areas a).vaEnd ≤ addr) = true := by
    rw [decide_eq_true_eq, he]
    exact BitVec.le_refl addr
  rw [vaFindPrevFree, hl, List.takeWhile_append_of_pos h1, List.takeWhile_cons, if_pos hself, h2, List.getLast?_concat]

/-! ## Allocation -/

/-- The free areas after a cut: those there were, and the rest if it has a descriptor. -/
theorem SplitBack.free {size : Word} {remain : Option Word} (h : SplitBack m va size remain m') (hm : va ∉ m.freeList) {d : Word}
    (hd : d ∈ m'.freeList) : d ∈ m.freeList ∧ m'.areas d = m.areas d ∨
      (m'.areas d).vaEnd = (m.areas va).vaEnd ∧ (m'.areas d).vaStart = (m'.areas va).vaEnd := by
  rcases h with ⟨rfl, -⟩ | ⟨r, rfl, hf, hne, -, hI⟩
  · exact Or.inl ⟨hd, rfl⟩
  · rw [hI.freeList, mem_listInsert] at hd
    rw [hI.areas, Function.update_of_ne hne.symm]
    rcases hd with rfl | hd
    · right
      rw [Function.update_self, setArea_areas, Function.update_self]
      exact ⟨rfl, rfl⟩
    · left
      rw [Function.update_of_ne (ne_of_mem_of_not_mem hd hf.2.1), setArea_areas, Function.update_of_ne (ne_of_mem_of_not_mem hd hm)]
      exact ⟨hd, rfl⟩

theorem Allocated.noTouch {size flags : Word} {before remain : Option Word}
    (h : Allocated m size vaAlignDefault flags before remain va m') (hT : Tidy m []) (hT' : Tidy m' []) (hn : m.NoTouch) :
    m'.NoTouch := by
  obtain ⟨m1, m2, m3, hR, hF, hB, rfl⟩ := h.steps
  have hT1 := hT.removed hR
  have hin := hT1.inside (List.mem_cons_self ..)
  obtain ⟨-, rfl⟩ : _ ∧ m2 = m1 := hF.resolve_right fun hw => hw.1 (alignUp_onPage hin.start)
  -- a free area afterwards is an old one, or the rest of the area that is now busy
  have hcase : ∀ d ∈ (m3.markBusy va flags).freeList, d ∈ m.freeList ∧ (m3.markBusy va flags).areas d = m.areas d ∨
      ((m3.markBusy va flags).areas d).vaEnd = (m.areas va).vaEnd ∧
        ((m3.markBusy va flags).areas d).vaStart = ((m3.markBusy va flags).areas va).vaEnd := fun d hd => by
    have hne : d ≠ va := fun e => by
      subst e
      exact hT'.not_busy hd (List.mem_cons_self ..)
    have h1 : (m3.markBusy va flags).areas d = m3.areas d := Function.update_of_ne hne ..
    have h2 : ((m3.markBusy va flags).areas va).vaEnd = (m3.areas va).vaEnd := by
      show (Function.update m3.areas va _ va).vaEnd = _
      rw [Function.update_self]
    rw [h1, h2]
    refine (hB.free hT1.hand_not_free hd).imp (fun hd => ?_) fun hd => by rwa [hR.areas] at hd
    rw [hR.freeList, hR.areas] at hd
    exact ⟨List.mem_of_mem_erase hd.1, hd.2⟩
  have hown : ∀ d ∈ (m3.markBusy va flags).freeList, d ∈ (m3.markBusy va flags).owned [] := fun d hd =>
    mem_owned.mpr (Or.inr (Or.inl hd))
  have hvo : va ∈ (m3.markBusy va flags).owned [] := mem_owned.mpr (Or.inr (Or.inr (List.mem_cons_self ..)))
  intro a ha b hb he
  rcases hcase b hb with hb1 | hb1
  · rcases hcase a ha with ha1 | ha1
    · rw [ha1.2, hb1.2] at he
      exact hn a ha1.1 b hb1.1 he
    · rw [ha1.1, hb1.2] at he
      exact hn va hR.mem b hb1.1 he
  · -- `a` would end where the busy area ends
    by_cases hav : a = va
    · subst hav
      exact hT'.not_busy ha (List.mem_cons_self ..)
    · refine (hT'.inside (hown a ha)).stop_ne (hT'.inside hvo) (hT'.apart (hown a ha) hvo hav) ?_
      exact congrArg BitVec.toNat (he.trans hb1.2)

/-! ## Freeing -/

/-- The area in hand when the area `va` of a state without free areas that touch is freed. -/
theorem MergedPrev.grown {link dst : Word} (h : MergedPrev m va link m' dst) (hT : Tidy m (va :: hand)) (hn : m.NoTouch) :
    (m'.areas dst).vaEnd = (m.areas va).vaEnd ∧ (dst ∈ m.freeList → (m'.areas dst).vaStart = (m.areas dst).vaStart) ∧
      (∀ d ∈ m'.freeList, d ∈ m.freeList ∧ m'.areas d = m.areas d) ∧
      (∀ d ∈ m.freeList, d ≠ dst → d ∈ m'.freeList) ∧ ∀ d ∈ m'.freeList, (m.areas d).vaEnd ≠ (m'.areas dst).vaStart := by
  rcases h with ⟨rfl, rfl, hno⟩ | ⟨hp, he, hne, m1, hR, rfl⟩
  · refine ⟨rfl, fun _ => rfl, fun d hd => ⟨hd, rfl⟩, fun d hd _ => hd, fun d hd e => ?_⟩
    exact hno d (hT.prevFree hd e) e
  · have hm := (prevFree_mem hp).1
    have hnd := (List.nodup_append.mp (List.nodup_append.mp (List.nodup_cons.mp hT.nodup).2).2.1).1
    have hmem : ∀ d, d ∈ m1.freeList ↔ d ≠ dst ∧ d ∈ m.freeList := fun d => by rw [hR.freeList, hnd.mem_erase_iff]
    have hv : va ∉ m.freeList := hT.hand_not_free
    have hdst : (((m1.setArea dst { m.areas dst with vaEnd := (m.areas va).vaEnd }).setArea va
        { m.areas va with vaStart := link }).areas dst) = { m.areas dst with vaEnd := (m.areas va).vaEnd } := by
      rw [setArea_areas, Function.update_of_ne hne, setArea_areas, Function.update_self]
    rw [hdst]
    refine ⟨rfl, fun _ => rfl, fun d hd => ⟨((hmem d).mp hd).2, ?_⟩, fun d hd h1 => (hmem d).mpr ⟨h1, hd⟩, fun d hd => ?_⟩
    · rw [setArea_areas, Function.update_of_ne (ne_of_mem_of_not_mem ((hmem d).mp hd).2 hv), setArea_areas,
        Function.update_of_ne ((hmem d).mp hd).1, hR.areas]
    · exact hn d ((hmem d).mp hd).2 dst hm

/-- Freeing leaves areas that touch exactly if a free area starts where the freed one ends. -/
theorem Freed.noTouch_iff {link : Word} (h : Freed m va link m') (hT : Tidy m []) (hn : m.NoTouch) :
    m'.NoTouch ↔ ∀ d ∈ m.freeList, (m.areas d).vaStart ≠ (m.areas va).vaEnd := by
  obtain ⟨hT', -, -⟩ := h.tidy hT
  obtain ⟨m1, dst, hM, hI⟩ := h.steps
  have hT0 := hT.take h.mem
  obtain ⟨hT1, -, -⟩ := hM.tidy hT0
  obtain ⟨hend, hstart, hold, hkeep, hfront⟩ := hM.grown hT0 hn
  have hdst : dst ∉ m1.freeList := hT1.hand_not_free
  have hmem : ∀ d, d ∈ m'.freeList ↔ d = dst ∨ d ∈ m1.freeList := fun d => by rw [hI.freeList, mem_listInsert]
  have hself : m'.areas dst = m1.areas dst := by rw [hI.areas, Function.update_self]
  have hother : ∀ d ∈ m1.freeList, m'.areas d = m.areas d := fun d hd => by
    rw [hI.areas, Function.update_of_ne (ne_of_mem_of_not_mem hd hdst)]
    exact (hold d hd).2
  constructor
  · intro hn' d hd he
    -- the area in hand ends above the start of the one it has grown from
    have hdd : d ≠ dst := by
      rintro rfl
      refine hT'.not_self (mem_owned.mpr (Or.inr (Or.inl ((hmem d).mpr (Or.inl rfl))))) ?_
      rw [hself, hend, hstart hd, he]
    have hd1 := hkeep d hd hdd
    refine hn' dst ((hmem dst).mpr (Or.inl rfl)) d ((hmem d).mpr (Or.inr hd1)) ?_
    rw [hself, hother d hd1, hend]
    exact he.symm
  · intro hc a ha b hb he
    rcases (hmem a).mp ha with rfl | ha1
    · rcases (hmem b).mp hb with rfl | hb1
      · exact hT'.not_self (mem_owned.mpr (Or.inr (Or.inl ha))) he
      · rw [hself, hother b hb1, hend] at he
        exact hc b (hold b hb1).1 he.symm
    · rcases (hmem b).mp hb with rfl | hb1
      · rw [hself, hother a ha1] at he
        exact hfront a ha1 he
      · rw [hother a ha1, hother b hb1] at he
        exact hn a (hold a ha1).1 b (hold b hb1).1 he

end VmapManager

/-! ## Every run -/

/-- No free area starts where the area that the call frees ends. -/
def Clear (s : State) : Op → Prop
  | .alloc _ _ _ _ _ => True
  | .free addr _ _ => addr ≠ 0 → ∀ va, s.mgr.vaFindByAddr addr = some va →
      ∀ d ∈ s.mgr.freeList, (s.mgr.areas d).vaStart ≠ (s.mgr.areas va).vaEnd

theorem Boot.noTouch {s : State} (h : Boot s) : s.mgr.NoTouch := by
  have hT := h.tidy
  obtain ⟨d, h0, hi, -⟩ := h
  have hL : VmapManager.Linked ⟨fun _ => ⟨0, 0, 0⟩, .nil, [], [], vmallocEnd - vmallocStart, 0⟩ [d, 0] :=
    ⟨RedBlack.Ordered.nil _, List.Perm.refl _, by simpa using h0⟩
  obtain ⟨m', hm, -, hI⟩ := hL.inserted ⟨vmallocStart, vmallocEnd, 0⟩
  cases hm.symm.trans hi
  have hmem : ∀ a ∈ s.mgr.freeList, a = d := fun a ha => by
    rw [hI.freeList] at ha
    exact List.mem_singleton.mp ha
  intro a ha b hb
  rw [hmem b hb, ← hmem a ha]
  exact hT.not_self (VmapManager.mem_owned.mpr (Or.inr (Or.inl ha)))

theorem clear_iff {s s' : State} (h : Orderly s) (hn : s.mgr.NoTouch) {e : Op} (hf : Fresh s e) (hp : Paged e)
    (hs : step s e = some s') : s'.mgr.NoTouch ↔ Clear s e := by
  obtain ⟨h', hm⟩ := h.step hf hp hs
  cases hm with
  | refused _ => exact iff_of_true hn trivial
  | allocated h0 hA =>
    obtain ⟨rfl, -⟩ := hp
    exact iff_of_true (VmapManager.Allocated.noTouch hA h.tidy h'.tidy hn) trivial
  | ignored hc =>
    refine iff_of_true hn fun h0 va hv => ?_
    rcases hc with hc | hc
    · exact absurd hc h0
    · rw [hc] at hv
      cases hv
  | @freed addr link link' va m' h0 hv hF =>
    refine (hF.noTouch_iff h.tidy hn).trans ⟨fun h _ va' hv' => ?_, fun h => h h0 va hv⟩
    cases hv.symm.trans hv'
    exact h

/-- Free areas that do not touch are one, when nothing is busy. -/
theorem VmapManager.Tidy.whole {m : VmapManager} (hT : m.Tidy []) (hn : m.NoTouch) (hb : m.busyList = []) :
    ∃ d, m.freeList = [d] ∧ (m.areas d).vaStart = vmallocStart ∧ (m.areas d).vaEnd = vmallocEnd := by
  have ht := hT.tiling
  rw [VmapManager.owned, hb, List.nil_append, List.append_nil] at ht
  have hw := ht.whole (by decide) fun a ha b hb' he => by
    obtain ⟨d, hd, rfl⟩ := List.mem_map.mp ha
    obtain ⟨e, he', rfl⟩ := List.mem_map.mp hb'
    exact hn d hd e he' (BitVec.eq_of_toNat_eq he)
  obtain ⟨d, l, hl, hd, hnil⟩ := List.map_eq_cons_iff.mp hw
  cases List.map_eq_nil_iff.mp hnil
  have hspan : (m.areas d).span = ⟨vmallocStart.toNat, vmallocEnd.toNat⟩ := hd
  exact ⟨d, hl, BitVec.eq_of_toNat_eq (congrArg Span.start hspan), BitVec.eq_of_toNat_eq (congrArg Span.stop hspan)⟩

theorem clear_free_iff {s : State} {addr link link' : Word} :
    (addr ≠ 0 → (s.mgr.vaFindByAddr addr).all (fun va =>
      s.mgr.freeList.all fun d => decide ((s.mgr.areas d).vaStart ≠ (s.mgr.areas va).vaEnd)) = true) ↔
      Clear s (.free addr link link') := by
  simp only [Clear, Option.all_eq_true, List.all_eq_true, decide_eq_true_eq]

instance (s : State) : ∀ e, Decidable (Clear s e)
  | .alloc .. => .isTrue trivial
  | .free .. => decidable_of_iff _ clear_free_iff

/-- Three pages are allocated, of which the first and then the second are freed. -/
def freeUpwards : List Op :=
  [.alloc 0x1000 0x1000 1 none (some 2), .alloc 0x1000 0x1000 1 none (some 3), .alloc 0x1000 0x1000 1 none (some 4),
    .free vmallocStart 0 0, .free (vmallocStart + 0x1000) 0 0]

/-- `kmalloc` finds a descriptor for every piece. -/
def Supplied : Op → Prop
  | .alloc _ _ _ before remain => before.isSome ∧ remain.isSome
  | .free _ _ _ => True

instance : DecidablePred Supplied
  | .alloc .. => inferInstanceAs (Decidable (_ ∧ _))
  | .free .. => .isTrue trivial

/-- A page is allocated and freed. -/
def freeOne : List Op := [.alloc 0x1000 0x1000 1 (some 3) (some 2), .free vmallocStart 0 0]

end Myos.Vmap
