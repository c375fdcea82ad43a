/-
  Myos.Vmap.Fits — which area `va_alloc` picks, and what it hands out.

  `va_find_best_fit` goes by the size alone, which `va_alloc` has rounded up to pages. The
  front is cut off the area afterwards, up to the first aligned address, and nothing looks
  whether the rest is still large enough, or whether one of the sums has wrapped.

  Proved: in every run the area that is picked is a smallest one of those large enough. In the
  runs whose calls do not wrap the size and still fit behind the first aligned address, what is
  handed out is aligned, as large as asked for and apart from every other area
  (`alloc_guarantee_reach`), and a call with page alignment fails exactly when no free area is
  large enough, and then changes nothing (`best_fit_reach`).
-/

import Myos.Vmap.Ranges

namespace Myos.Vmap

open Lib

namespace VmapManager

variable {m m' : VmapManager} {hand : List Word} {va size align flags : Word} {before remain : Option Word}

/-! ## The choice -/

/-- A free area that is large enough, and no larger than another one that is. -/
def IsBest (m : VmapManager) (size va : Word) : Prop :=
  va ∈ m.freeList ∧ size ≤ vaSize (m.areas va) ∧
    ∀ d ∈ m.freeList, size ≤ vaSize (m.areas d) → vaSize (m.areas va) ≤ vaSize (m.areas d)

theorem bestFit_least {areas : Word → VmapArea} {l : List Word} : ∀ {best : Option Word},
    bestFit areas size best l = some va →
      (∀ b, best = some b → vaSize (areas va) ≤ vaSize (areas b)) ∧
        ∀ d ∈ l, size ≤ vaSize (areas d) → vaSize (areas va) ≤ vaSize (areas d) := by
  induction l with
  | nil =>
    intro best h
    refine ⟨fun b hb => ?_, fun d hd => by cases hd⟩
    cases h.symm.trans hb
    exact BitVec.le_refl _
  | cons d l ih =>
    intro best h
    rw [bestFit] at h
    split at h
    · next hd =>
      obtain ⟨h1, h2⟩ := ih h
      have hva := h1 d rfl
      refine ⟨fun b hb => ?_, fun e he => ?_⟩
      · subst hb
        have hlt : vaSize (areas d) < vaSize (areas b) := by simpa using hd.2
        exact BitVec.le_trans hva (BitVec.le_of_lt hlt)
      · rcases List.mem_cons.mp he with rfl | he
        · exact fun _ => hva
        · exact h2 e he
    · next hd =>
      obtain ⟨h1, h2⟩ := ih h
      refine ⟨h1, fun e he hle => ?_⟩
      rcases List.mem_cons.mp he with rfl | he
      · -- it is passed over for the one found so far
        cases best with
        | none => exact absurd ⟨hle, rfl⟩ hd
        | some b =>
          have hnlt : ¬ vaSize (areas e) < vaSize (areas b) := fun hlt => hd ⟨hle, by simpa using hlt⟩
          exact BitVec.le_trans (h1 b rfl) (BitVec.not_lt.mp hnlt)
      · exact h2 e he hle

theorem bestFit_none {areas : Word → VmapArea} {l : List Word} : ∀ {best : Option Word},
    bestFit areas size best l = none → best = none ∧ ∀ d ∈ l, vaSize (areas d) < size := by
  induction l with
  | nil => intro best h; exact ⟨h, fun d hd => by cases hd⟩
  | cons d l ih =>
    intro best h
    rw [bestFit] at h
    split at h
    · cases (ih h).1
    · next hd =>
      obtain ⟨rfl, h2⟩ := ih h
      refine ⟨rfl, fun e he => ?_⟩
      rcases List.mem_cons.mp he with rfl | he
      · exact BitVec.not_le.mp fun hle => hd ⟨hle, rfl⟩
      · exact h2 e he

/-- What the tree finds has exactly the size. -/
theorem Linked.isBest (h : Linked m hand) (hv : m.vaFindBestFit size = some va) : IsBest m size va := by
  obtain ⟨hm, hle⟩ := h.bestFit hv
  refine ⟨hm, hle, fun d hd hs => ?_⟩
  unfold vaFindBestFit at hv
  split at hv
  · next hs' =>
    cases hv
    obtain ⟨-, he⟩ := RedBlack.search_mem hs'
    have h0 : vaSize ⟨0, size, 0⟩ = size := by simp [vaSize]
    have hnlt : ¬ size < vaSize (m.areas va) := fun hlt => by
      rw [vaCompareSize, h0, if_pos hlt] at he
      cases he
    exact BitVec.le_trans (BitVec.not_lt.mp hnlt) hs
  · exact (bestFit_least hv).2 d hd hs

theorem Linked.bestFit_none_iff (h : Linked m hand) :
    m.vaFindBestFit size = none ↔ ∀ d ∈ m.freeList, vaSize (m.areas d) < size := by
  constructor
  · intro hv
    unfold vaFindBestFit at hv
    split at hv
    · cases hv
    · exact (bestFit_none hv).2
  · intro hlt
    cases hv : m.vaFindBestFit size with
    | none => rfl
    | some va =>
      obtain ⟨hm, hle⟩ := h.bestFit hv
      exact absurd (hlt va hm) (BitVec.not_lt.mpr hle)

/-! ## The area that is handed out -/

/-- The areas are whole pages of the range, apart from each other; they need not cover it. -/
abbrev Packed (m : VmapManager) (hand : List Word) : Prop :=
  Held (Span.Packed OnPage vmallocStart.toNat vmallocEnd.toNat) m hand

/-- Cutting off the front of an area in hand. -/
theorem SplitFront.packed (h : SplitFront m va align before m') (hH : Packed m (va :: hand))
    (hon : OnPage (alignUp (m.areas va).vaStart align).toNat) (hge : (m.areas va).vaStart ≤ alignUp (m.areas va).vaStart align)
    (hlt : alignUp (m.areas va).vaStart align < (m.areas va).vaEnd) (hb : ∀ b, before = some b → b ∉ m.owned (va :: hand)) :
    Packed m' (va :: hand) ∧ m'.areas va = { m.areas va with vaStart := alignUp (m.areas va).vaStart align } := by
  have hp : Span.Packed OnPage vmallocStart.toNat vmallocEnd.toNat ((m.areas va).span :: spans m.areas (m.owned hand)) :=
    hH.pieces
  have hva : va ∉ m.owned hand := (List.nodup_cons.mp hH.nodup).1
  have hshrink : Packed (m.setArea va { m.areas va with vaStart := alignUp (m.areas va).vaStart align }) (va :: hand) :=
    Held.place hH.nodup (hp.shrink hon hp.head.stop hge hlt le_rfl)
  rcases h with ⟨e, rfl⟩ | ⟨hne, m1, rfl, ⟨-, rfl⟩ | ⟨b, rfl, -, hbv, hI⟩⟩
  · exact ⟨hH, by rw [e]⟩
  · exact ⟨hshrink, Function.update_self ..⟩
  · refine ⟨?_, Function.update_self ..⟩
    have hlt' : (m.areas va).vaStart.toNat < (alignUp (m.areas va).vaStart align).toNat :=
      lt_of_le_of_ne hge fun e => hne (BitVec.eq_of_toNat_eq e.symm)
    -- the piece in front first gets its descriptor in hand
    have hboth : Packed ((m.setArea va { m.areas va with vaStart := alignUp (m.areas va).vaStart align }).setArea b
        ⟨(m.areas va).vaStart, alignUp (m.areas va).vaStart align, 0⟩) (b :: va :: hand) := by
      refine Held.place (List.nodup_cons.mpr ⟨hb b rfl, hH.nodup⟩) ?_
      show Span.Packed OnPage vmallocStart.toNat vmallocEnd.toNat (_ :: spans (Function.update m.areas va _) (va :: m.owned hand))
      rw [spans_update_cons hva]
      exact hp.split hon hlt' hlt
    refine hboth.perm closed_packed ?_ ?_
    · rw [setArea_areas, hI.areas, setArea_areas, setArea_areas, Function.update_comm hbv.symm]
    · show (b :: va :: (hand ++ (m.freeList ++ m.busyList))).Perm (va :: (hand ++ (m1.freeList ++ m1.busyList)))
      rw [hI.freeList, hI.busyList]
      refine (List.Perm.swap ..).trans (List.Perm.cons va ?_)
      refine List.perm_middle.symm.trans (List.Perm.append_left _ ?_)
      exact ((listInsert_perm m1.areas b m.freeList).symm.append_right _)

theorem SplitFront.frame (h : SplitFront m va align before m') : m'.busyList = m.busyList ∧
    ∀ d, d ∈ m'.freeList → d ∈ m.freeList ∨ before = some d := by
  rcases h with ⟨-, rfl⟩ | ⟨-, m1, rfl, ⟨-, rfl⟩ | ⟨b, rfl, -, -, hI⟩⟩
  · exact ⟨rfl, fun d => Or.inl⟩
  · exact ⟨rfl, fun d => Or.inl⟩
  · refine ⟨hI.busyList, fun d hd => ?_⟩
    rw [setArea_freeList, hI.freeList, mem_listInsert] at hd
    exact hd.symm.imp_right fun e => by rw [e]

theorem SplitBack.start (h : SplitBack m va size remain m') : (m'.areas va).vaStart = (m.areas va).vaStart := by
  rcases h with ⟨rfl, -⟩ | ⟨r, rfl, -, hne, -, hI⟩
  · rfl
  · rw [hI.areas, Function.update_of_ne hne.symm, setArea_areas, Function.update_self]

/-- An allocation that fits behind the first aligned address of its area. -/
theorem Allocated.packed (h : Allocated m size align flags before remain va m') (hH : Packed m [])
    (hon : OnPage (alignUp (m.areas va).vaStart align).toNat) (hge : (m.areas va).vaStart ≤ alignUp (m.areas va).vaStart align)
    (hfit : (alignUp (m.areas va).vaStart align).toNat + size.toNat ≤ (m.areas va).vaEnd.toNat)
    (hs : OnPage size.toNat) (h0 : 0 < size.toNat) (hb : ∀ b, before = some b → b ∉ m.owned [])
    (hr : ∀ r, remain = some r → r ∉ m.owned [] ∧ before ≠ remain) :
    Packed m' [] ∧ va ∈ m'.busyList ∧ (m'.areas va).vaStart = alignUp (m.areas va).vaStart align ∧
      size ≤ vaSize (m'.areas va) := by
  obtain ⟨m1, m2, m3, hR, hF, hB, rfl⟩ := h.steps
  have hH1 := hH.removed closed_packed hR
  have hown : ∀ d, d ∈ m1.owned [va] → d ∈ m.owned [] := fun d hd => by
    rw [mem_owned, hR.freeList, hR.busyList] at hd
    refine mem_owned.mpr (Or.inr ?_)
    rcases hd with hd | hd
    · exact Or.inl (List.mem_singleton.mp hd ▸ hR.mem)
    · exact hd.imp_left List.mem_of_mem_erase
  obtain ⟨hH2, ha2⟩ := hF.packed hH1 (by rw [hR.areas]; exact hon) (by rw [hR.areas]; exact hge)
    (by rw [hR.areas, BitVec.lt_def]; omega) fun b e hm => hb b e (hown b hm)
  rw [hR.areas] at ha2
  have hin := hH2.inside closed_packed (List.mem_cons_self ..)
  have hle : size ≤ vaSize (m2.areas va) := by
    rw [BitVec.le_def, toNat_vaSize hin, ha2]
    dsimp only
    omega
  obtain ⟨hb2, hf2⟩ := hF.frame
  have hr2 : ∀ r, remain = some r → r ∉ m2.owned [va] := fun r e hm => by
    rcases mem_owned.mp hm with hm | hm | hm
    · exact (hr r e).1 (hown r (mem_owned.mpr (Or.inl hm)))
    · rcases hf2 r hm with hm | hm
      · exact (hr r e).1 (hown r (mem_owned.mpr (Or.inr (Or.inl hm))))
      · exact (hr r e).2 (hm.trans e.symm)
    · exact (hr r e).1 (hown r (mem_owned.mpr (Or.inr (Or.inr (hb2 ▸ hm)))))
  obtain ⟨hH3, hle3⟩ := hB.held closed_packed hH2 hs h0 hle hr2
  have hend : (m3.markBusy va flags).areas va = { m3.areas va with flags := flags } := Function.update_self ..
  refine ⟨hH3.markBusy closed_packed flags, List.mem_cons_self .., ?_, ?_⟩
  · rw [hend]
    exact hB.start.trans (by rw [ha2])
  · rw [hend]
    exact hle3

theorem roundedUp_pos {size : Word} (h0 : size ≠ 0) (hs : size.toNat + 4095 < 2 ^ 64) :
    OnPage (alignUp size vaAlignDefault).toNat ∧ 0 < (alignUp size vaAlignDefault).toNat ∧
      size.toNat ≤ (alignUp size vaAlignDefault).toNat := by
  have hpos : 0 < size.toNat := Nat.pos_of_ne_zero fun h => h0 (BitVec.eq_of_toNat_eq h)
  rw [toNat_alignUp hs]
  exact ⟨Nat.dvd_mul_left .., by omega, by omega⟩

end VmapManager

/-! ## Every run -/

def IsPower (align : Word) : Prop := ∃ k < 64, align.toNat = 2 ^ k

/-- The first multiple of `align` from `x` on. -/
def firstAligned (x align : Nat) : Nat := (x + (align - 1)) / align * align

/-- The size does not wrap when it is rounded up to pages, and the area that is picked has
    room for it behind the first aligned address. -/
def Fits (s : State) : Op → Prop
  | .alloc size align _ _ _ => size ≠ 0 → IsPower (VmapManager.clampAlign align) ∧ size.toNat + 4095 < 2 ^ 64 ∧
      ∀ va, s.mgr.vaFindBestFit (VmapManager.alignUp size vaAlignDefault) = some va →
        firstAligned (s.mgr.areas va).vaStart.toNat (VmapManager.clampAlign align).toNat + firstAligned size.toNat 4096 ≤
          (s.mgr.areas va).vaEnd.toNat
  | .free _ _ _ => True

theorem firstAligned_ge (x : Nat) {align : Nat} (h : 0 < align) :
    x ≤ firstAligned x align ∧ x + (align - 1) < firstAligned x align + align := by
  have : x + (align - 1) < firstAligned x align + align := Nat.lt_div_mul_add h
  exact ⟨by omega, this⟩

theorem firstAligned_page {x : Nat} (h : OnPage x) : firstAligned x 4096 = x := by
  unfold OnPage at h
  unfold firstAligned
  omega

theorem toNat_firstAligned {x align : Word} {k : Nat} (ha : align.toNat = 2 ^ k) (h : firstAligned x.toNat (2 ^ k) < 2 ^ 64) :
    (VmapManager.alignUp x align).toNat = firstAligned x.toNat (2 ^ k) := by
  have hk : k ≤ 64 := (Nat.pow_le_pow_iff_right (by decide)).mp (ha ▸ align.isLt.le)
  obtain ⟨-, hlt⟩ := firstAligned_ge x.toNat (Nat.two_pow_pos k)
  -- a multiple below the modulus leaves room for one more
  have hnext : firstAligned x.toNat (2 ^ k) + 2 ^ k ≤ 2 ^ 64 := by
    obtain ⟨n, hn⟩ : 2 ^ k ∣ 2 ^ 64 := Nat.pow_dvd_pow 2 hk
    have he : firstAligned x.toNat (2 ^ k) = 2 ^ k * ((x.toNat + (2 ^ k - 1)) / 2 ^ k) := Nat.mul_comm ..
    rw [he, hn] at h
    have := Nat.mul_le_mul_left (2 ^ k) (Nat.lt_of_mul_lt_mul_left h)
    rw [he, hn]
    exact this
  rw [toNat_alignUp_pow ha, Nat.mod_eq_of_lt (hlt.trans_le hnext)]
  rfl

/-- The alignment worked with is a power of two, no less than a page and than the one asked for. -/
theorem clampAlign_pow {align : Word} (h : IsPower (VmapManager.clampAlign align)) :
    ∃ k, 12 ≤ k ∧ (VmapManager.clampAlign align).toNat = 2 ^ k ∧ (IsPower align → align.toNat ∣ 2 ^ k) := by
  obtain ⟨k, hk, he⟩ := h
  have hpage : vaAlignDefault.toNat = 2 ^ 12 := rfl
  have hge : 2 ^ 12 ≤ (VmapManager.clampAlign align).toNat := by
    unfold VmapManager.clampAlign
    split
    · rw [hpage]
    · next h => rw [← hpage]; exact BitVec.not_lt.mp h
  have h12 : 12 ≤ k := (Nat.pow_le_pow_iff_right (by decide)).mp (he ▸ hge)
  refine ⟨k, h12, he, fun hp => ?_⟩
  obtain ⟨j, -, hj⟩ := hp
  rw [hj]
  unfold VmapManager.clampAlign at he
  split at he
  · next hlt =>
    rw [BitVec.lt_def, hj, hpage] at hlt
    exact Nat.pow_dvd_pow 2 (((Nat.pow_lt_pow_iff_right (by decide)).mp hlt).le.trans h12)
  · rw [← hj, he]

/-- A call that fits keeps the areas apart, and hands out what it was asked for. -/
theorem fits_packed {s : State} (hH : s.mgr.Packed []) {size align flags va : Word} {before remain : Option Word} {m' : VmapManager}
    (h0 : size ≠ 0) (hf : Fresh s (.alloc size align flags before remain)) (hfit : Fits s (.alloc size align flags before remain))
    (hA : VmapManager.Allocated s.mgr (VmapManager.alignUp size vaAlignDefault) (VmapManager.clampAlign align) flags before remain
      va m') (hm : va ∈ s.mgr.freeList) :
    m'.Packed [] ∧ va ∈ m'.busyList ∧ (m'.areas va).vaStart.toNat =
      firstAligned (s.mgr.areas va).vaStart.toNat (VmapManager.clampAlign align).toNat ∧
      (VmapManager.alignUp size vaAlignDefault) ≤ vaSize (m'.areas va) := by
  obtain ⟨hpow, hs, hroom⟩ := hfit h0
  obtain ⟨k, h12, hk, -⟩ := clampAlign_pow hpow
  obtain ⟨hpg, hpos, hle⟩ := VmapManager.roundedUp_pos h0 hs
  have hin := hH.inside VmapManager.closed_packed (VmapManager.mem_owned.mpr (Or.inr (Or.inl hm)))
  have hroom := hroom va hA.chosen
  have hsz : (VmapManager.alignUp size vaAlignDefault).toNat = firstAligned size.toNat 4096 := toNat_alignUp hs
  have hup : (s.mgr.areas va).vaEnd.toNat < 2 ^ 64 := (s.mgr.areas va).vaEnd.isLt
  rw [hk] at hroom ⊢
  have hal := toNat_firstAligned (x := (s.mgr.areas va).vaStart) hk (by omega)
  have hge := (firstAligned_ge (s.mgr.areas va).vaStart.toNat (Nat.two_pow_pos k)).1
  have hfr : ∀ d, s.mgr.Fresh d → d ∉ s.mgr.owned [] := fun d hd hm => by
    rcases VmapManager.mem_owned.mp hm with hm | hm | hm
    · cases hm
    · exact hd.2.1 hm
    · exact hd.2.2 hm
  obtain ⟨hH', hb, hst, hle'⟩ := VmapManager.Allocated.packed hA hH
    (by rw [hal]; exact (Nat.pow_dvd_pow 2 h12).trans (Nat.dvd_mul_left ..))
    (by rw [BitVec.le_def, hal]; exact hge) (by rw [hal, hsz]; exact hroom) hpg hpos (fun b e => hfr b (hf.1 b e))
    fun r e => ⟨hfr r (hf.2 r e).1, (hf.2 r e).2⟩
  exact ⟨hH', hb, by rw [hst, hal], hle'⟩

theorem Moved.packed {s s' : State} {e : Op} (h : Moved s e s') (hL : s.mgr.Linked [0]) (hH : s.mgr.Packed []) (hf : Fresh s e)
    (hfit : Fits s e) : s'.mgr.Packed [] := by
  cases h with
  | refused _ => exact hH
  | allocated h0 hA => exact (fits_packed hH h0 hf hfit hA (hL.bestFit hA.chosen).1).1
  | ignored _ => exact hH
  | freed _ _ hF => exact (hF.held VmapManager.closed_packed hH).1

/-- What the runs of calls that fit keep. -/
theorem fits_reach {s : State} (h : Lib.Reach step (fun s e => Fresh s e ∧ Fits s e) Boot s) :
    s.mgr.Linked [0] ∧ s.mgr.Packed [] := by
  refine h.rule (P := fun s => s.mgr.Linked [0] ∧ s.mgr.Packed []) (fun s hb => ?_) ?_
  · exact ⟨hb.linked, hb.tidy.nodup, hb.tidy.tiling.toPacked⟩
  · intro s e s' hP hok hs
    obtain ⟨s1, h1, hL1, hM⟩ := step_moved hP.1 hok.1
    cases h1.symm.trans hs
    exact ⟨hL1, hM.packed hP.1 hP.2 hok.1 hok.2⟩

/-- In every run of calls that fit, the next one that does hands out an aligned address, and the
    busy area there is large enough, in the range and apart from all others. -/
theorem alloc_guarantee_reach {s : State} (h : Lib.Reach step (fun s e => Fresh s e ∧ Fits s e) Boot s)
    {size align flags : Word} {before remain : Option Word} (hp : IsPower align)
    (hf : Fresh s (.alloc size align flags before remain)) (hfit : Fits s (.alloc size align flags before remain)) :
    ∃ m' r, s.mgr.vaAlloc size align flags before remain = some (m', r) ∧ (r ≠ 0 →
      align.toNat ∣ r.toNat ∧ ∃ d ∈ m'.busyList, (m'.areas d).vaStart = r ∧
        r.toNat + size.toNat ≤ (m'.areas d).vaEnd.toNat ∧ vmallocStart ≤ r ∧ (m'.areas d).vaEnd ≤ vmallocEnd ∧
        ∀ d' ∈ m'.freeList ++ m'.busyList, d' ≠ d →
          (m'.areas d').vaEnd ≤ r ∨ (m'.areas d).vaEnd ≤ (m'.areas d').vaStart) := by
  obtain ⟨hL, hH⟩ := fits_reach h
  obtain ⟨m', r, he, -, hc⟩ := hL.vaAlloc size align flags hf.1 hf.2
  refine ⟨m', r, he, fun hr => ?_⟩
  rcases hc with ⟨-, rfl, -⟩ | ⟨h0, va, rfl, hA⟩
  · exact absurd rfl hr
  obtain ⟨hH', hb, hst, hle⟩ := fits_packed hH h0 hf hfit hA (hL.bestFit hA.chosen).1
  obtain ⟨k, -, hk, hdvd⟩ := clampAlign_pow (hfit h0).1
  have hown : ∀ d, d ∈ m'.freeList ++ m'.busyList → d ∈ m'.owned [] := fun d hd => hd
  have hin := hH'.inside VmapManager.closed_packed (hown va (List.mem_append_right _ hb))
  have hsz := VmapManager.toNat_vaSize hin
  have hne : (m'.areas va).vaStart.toNat < (m'.areas va).vaEnd.toNat := hin.nonempty
  refine ⟨?_, va, hb, rfl, ?_, hin.lower, hin.upper, fun d' hd' hne => ?_⟩
  · rw [hst, hk]
    exact (hdvd hp).trans (Nat.dvd_mul_left ..)
  · have := (VmapManager.roundedUp_pos h0 (hfit h0).2.1).2.2
    rw [BitVec.le_def, hsz] at hle
    omega
  · exact hH'.apart VmapManager.closed_packed (hown d' hd') (hown va (List.mem_append_right _ hb)) hne

/-! ## Evaluated runs -/

instance (align : Word) : Decidable (IsPower align) := by
  delta IsPower
  infer_instance

theorem fits_alloc_iff {s : State} {size align flags : Word} {before remain : Option Word} :
    (size ≠ 0 → IsPower (VmapManager.clampAlign align) ∧ size.toNat + 4095 < 2 ^ 64 ∧
      (s.mgr.vaFindBestFit (VmapManager.alignUp size vaAlignDefault)).all (fun va =>
        decide (firstAligned (s.mgr.areas va).vaStart.toNat (VmapManager.clampAlign align).toNat + firstAligned size.toNat 4096 ≤
          (s.mgr.areas va).vaEnd.toNat)) = true) ↔ Fits s (.alloc size align flags before remain) := by
  simp only [Fits, Option.all_eq_true, decide_eq_true_eq]

instance (s : State) : ∀ e, Decidable (Fits s e)
  | .alloc .. => decidable_of_iff _ fits_alloc_iff
  | .free .. => .isTrue trivial

/-- After a page the range starts off the alignment that is asked for next. -/
def onePage : List Op := [.alloc 0x1000 0x1000 1 none (some 2)]

theorem alloc_guarantee_onePage : ∃ s, Lib.Reach step (fun s e => Fresh s e ∧ Fits s e) Boot s ∧
    ∃ m' r, s.mgr.vaAlloc 0x1800 0x4000 1 (some 3) (some 4) = some (m', r) ∧ (r ≠ 0 →
      (0x4000 : Word).toNat ∣ r.toNat ∧ ∃ d ∈ m'.busyList, (m'.areas d).vaStart = r ∧
        r.toNat + (0x1800 : Word).toNat ≤ (m'.areas d).vaEnd.toNat ∧ vmallocStart ≤ r ∧ (m'.areas d).vaEnd ≤ vmallocEnd ∧
        ∀ d' ∈ m'.freeList ++ m'.busyList, d' ≠ d →
          (m'.areas d').vaEnd ≤ r ∨ (m'.areas d).vaEnd ≤ (m'.areas d').vaStart) := by
  obtain ⟨s, hr, -, hd⟩ := Lib.exists_run step (fun s e => Fresh s e ∧ Fits s e) onePage
    (fun s => decide (Fresh s (.alloc 0x1800 0x4000 1 (some 3) (some 4)) ∧ Fits s (.alloc 0x1800 0x4000 1 (some 3) (some 4))))
    bootState_boot (by decide +kernel) (by decide +kernel)
  obtain ⟨hf, hfit⟩ := of_decide_eq_true hd
  exact ⟨s, hr, alloc_guarantee_reach hr (by decide) hf hfit⟩

/-- All that is left is asked for, at the next multiple of two pages: it is handed out, one
    page short. -/
theorem onePage_short : ¬ ∀ s, Lib.Reach step Fresh Boot s → ∀ size align before remain, size ≠ 0 → IsPower align →
    Fresh s (.alloc size align 1 before remain) → ∀ m' r, s.mgr.vaAlloc size align 1 before remain = some (m', r) → r ≠ 0 →
      ∃ d ∈ m'.busyList, (m'.areas d).vaStart = r ∧ r.toNat + size.toNat ≤ (m'.areas d).vaEnd.toNat := by
  intro h
  obtain ⟨s, hr, -, hd⟩ := Lib.exists_run step Fresh onePage
    (fun s => decide (Fresh s (.alloc 0xffffff000 0x2000 1 (some 3) none)) &&
      (s.mgr.vaAlloc 0xffffff000 0x2000 1 (some 3) none).any fun (a : VmapManager × Word) => decide (a.2 ≠ 0) &&
        a.1.busyList.all fun d => decide ((a.1.areas d).vaStart = a.2 →
          ¬ a.2.toNat + (0xffffff000 : Word).toNat ≤ (a.1.areas d).vaEnd.toNat))
    bootState_boot rfl rfl
  obtain ⟨hf, ha⟩ := Bool.and_eq_true_iff.mp hd
  obtain ⟨a, he, ha⟩ := (Option.any_eq_true _ _).mp ha
  obtain ⟨hr0, hall⟩ := Bool.and_eq_true_iff.mp ha
  obtain ⟨d, hm, h1, h2⟩ := h s hr 0xffffff000 0x2000 (some 3) none (by decide) (by decide) (of_decide_eq_true hf) a.1 a.2 he
    (of_decide_eq_true hr0)
  exact of_decide_eq_true (List.all_eq_true.mp hall d hm) h1 h2

/-! ## Page alignment -/

/-- With page alignment a call fits if its size does not wrap. -/
theorem fits_page {s : State} (hL : s.mgr.Linked [0]) (hH : s.mgr.Packed []) {size flags : Word} {before remain : Option Word}
    (hs : size.toNat + 4095 < 2 ^ 64) : Fits s (.alloc size vaAlignDefault flags before remain) := by
  intro h0
  refine ⟨⟨12, by decide, rfl⟩, hs, fun va hv => ?_⟩
  obtain ⟨hm, hle⟩ := hL.bestFit hv
  have hin := hH.inside VmapManager.closed_packed (VmapManager.mem_owned.mpr (Or.inr (Or.inl hm)))
  have hon : OnPage (s.mgr.areas va).vaStart.toNat := hin.start
  have hne : (s.mgr.areas va).vaStart.toNat < (s.mgr.areas va).vaEnd.toNat := hin.nonempty
  rw [BitVec.le_def, VmapManager.toNat_vaSize hin, toNat_alignUp hs] at hle
  have hc : (VmapManager.clampAlign vaAlignDefault).toNat = 4096 := rfl
  rw [hc, firstAligned_page hon]
  show _ + (size.toNat + 4095) / 4096 * 4096 ≤ _
  generalize (size.toNat + 4095) / 4096 * 4096 = n at hle ⊢
  omega

/-- In every run a smallest area of those large enough is picked, and none exactly when there
    is none; in the runs of calls that fit, a call with page alignment, whose size does not wrap,
    fails exactly when no free area is large enough, and then changes nothing. -/
theorem best_fit_reach {s : State} (h : Lib.Reach step Fresh Boot s) :
    (∀ size, size ≠ 0 → OnPage size.toNat →
      (∀ va, s.mgr.vaFindBestFit size = some va → s.mgr.IsBest size va) ∧
      (s.mgr.vaFindBestFit size = none ↔ ∀ d ∈ s.mgr.freeList, vaSize (s.mgr.areas d) < size)) ∧
    (Lib.Reach step (fun s e => Fresh s e ∧ Fits s e) Boot s →
      ∀ size flags before remain, Fresh s (.alloc size vaAlignDefault flags before remain) → size ≠ 0 →
        size.toNat + 4095 < 2 ^ 64 →
        ∃ m' r, s.mgr.vaAlloc size vaAlignDefault flags before remain = some (m', r) ∧
          (r = 0 ↔ ∀ d ∈ s.mgr.freeList, vaSize (s.mgr.areas d) < size) ∧ (r = 0 → m' = s.mgr)) := by
  have hL : s.mgr.Linked [0] := by
    refine h.rule (P := fun s => s.mgr.Linked [0]) (fun s hb => hb.linked) fun s e s' hP hok hs => ?_
    obtain ⟨s1, h1, hL1, -⟩ := step_moved hP hok
    cases h1.symm.trans hs
    exact hL1
  refine ⟨fun size _ _ => ⟨fun va hv => hL.isBest hv, hL.bestFit_none_iff⟩, fun hr size flags before remain hf h0 hs => ?_⟩
  obtain ⟨-, hH⟩ := fits_reach hr
  obtain ⟨m', r, he, -, hc⟩ := hL.vaAlloc size vaAlignDefault flags hf.1 hf.2
  -- free areas are whole pages: one that holds the size holds it rounded up
  have hround : (∀ d ∈ s.mgr.freeList, vaSize (s.mgr.areas d) < VmapManager.alignUp size vaAlignDefault) ↔
      ∀ d ∈ s.mgr.freeList, vaSize (s.mgr.areas d) < size := by
    refine forall₂_congr fun d hd => ?_
    have hin := hH.inside VmapManager.closed_packed (VmapManager.mem_owned.mpr (Or.inr (Or.inl hd)))
    have h1 : OnPage (s.mgr.areas d).vaStart.toNat := hin.start
    have h2 : OnPage (s.mgr.areas d).vaEnd.toNat := hin.stop
    rw [BitVec.lt_def, BitVec.lt_def, VmapManager.toNat_vaSize hin, toNat_alignUp hs]
    unfold OnPage at h1 h2
    omega
  refine ⟨m', r, he, ?_⟩
  rcases hc with ⟨rfl, rfl, hn⟩ | ⟨-, va, rfl, hA⟩
  · exact ⟨iff_of_true rfl (hround.mp (hL.bestFit_none_iff.mp (hn.resolve_left h0))), fun _ => rfl⟩
  · obtain ⟨hH', hb, -, -⟩ := fits_packed hH h0 hf (fits_page hL hH hs) hA (hL.bestFit hA.chosen).1
    have hin := hH'.inside VmapManager.closed_packed (VmapManager.mem_owned.mpr (Or.inr (Or.inr hb)))
    have hne : (m'.areas va).vaStart ≠ 0 := fun e => by
      have hlo : vmallocStart.toNat ≤ (m'.areas va).vaStart.toNat := hin.lower
      rw [e] at hlo
      exact absurd hlo (by decide)
    refine ⟨iff_of_false hne fun hall => ?_, fun e => absurd e hne⟩
    have hv := hA.chosen
    rw [hL.bestFit_none_iff.mpr (hround.mpr hall)] at hv
    cases hv

theorem best_fit_onePage : ∃ s, Lib.Reach step Fresh Boot s ∧
    ∃ m' r, s.mgr.vaAlloc 0x1000 vaAlignDefault 1 none none = some (m', r) ∧
      (r = 0 ↔ ∀ d ∈ s.mgr.freeList, vaSize (s.mgr.areas d) < 0x1000) ∧ (r = 0 → m' = s.mgr) := by
  obtain ⟨s, hr, -, hd⟩ := Lib.exists_run step (fun s e => Fresh s e ∧ Fits s e) onePage
    (fun s => decide (Fresh s (.alloc 0x1000 vaAlignDefault 1 none none))) bootState_boot rfl rfl
  have hr' := hr.weaken fun s e h => h.1
  exact ⟨s, hr', (best_fit_reach hr').2 hr 0x1000 1 none none (of_decide_eq_true hd) (by decide) (by decide)⟩

/-- The size wraps to 0 when it is rounded up, and so does the first aligned address: what is
    left over is a free area that starts at 0. -/
def wrapped : List Op := [.alloc 0xffffffffffffffff 0x8000000000000000 1 (some 2) (some 3)]

/-- The area at 0 is handed out, and NULL is returned. -/
theorem wrapped_fails : ¬ ∀ s, Lib.Reach step Fresh Boot s → ∀ size before remain, size ≠ 0 → OnPage size.toNat →
    Fresh s (.alloc size vaAlignDefault 1 before remain) →
    ∀ m' r, s.mgr.vaAlloc size vaAlignDefault 1 before remain = some (m', r) →
      (r = 0 ↔ ∀ d ∈ s.mgr.freeList, vaSize (s.mgr.areas d) < size) ∧ (r = 0 → m'.busyList = s.mgr.busyList) := by
  intro h
  obtain ⟨s, hr, -, hd⟩ := Lib.exists_run step Fresh wrapped
    (fun s => decide (Fresh s (.alloc 0x2000000000000 vaAlignDefault 1 none none)) &&
      (s.mgr.vaAlloc 0x2000000000000 vaAlignDefault 1 none none).any fun (a : VmapManager × Word) =>
        decide (a.2 = 0 ∧ a.1.busyList ≠ s.mgr.busyList))
    bootState_boot rfl rfl
  obtain ⟨hf, ha⟩ := Bool.and_eq_true_iff.mp hd
  obtain ⟨a, he, ha⟩ := (Option.any_eq_true _ _).mp ha
  obtain ⟨hr0, hb⟩ := of_decide_eq_true ha
  exact hb ((h s hr _ none none (by decide) (by decide) (of_decide_eq_true hf) a.1 a.2 he).2 hr0)

end Myos.Vmap
