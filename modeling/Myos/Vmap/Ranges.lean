/-
  Myos.Vmap.Ranges — the areas of the vmalloc range.

  Proved: in every run whose calls ask for page alignment, with `kmalloc` failing where it
  likes, the areas cut the range into whole pages, the free list is sorted by address, the tree
  holds the same areas in its order, and every address that is out is the start of one busy
  area that is large enough.
-/

import Myos.Lib.Runs
import Myos.Lib.Spans
import Myos.Vmap.Manager

namespace Myos.Vmap

open Lib

/-! ## Areas as spans -/

def VmapArea.span (a : VmapArea) : Span Nat := ⟨a.vaStart.toNat, a.vaEnd.toNat⟩

def spans (areas : Word → VmapArea) (l : List Word) : List (Span Nat) := l.map fun d => (areas d).span

abbrev OnPage (n : Nat) : Prop := 4096 ∣ n

abbrev Tiling (l : List (Span Nat)) : Prop := Span.Tiled OnPage vmallocStart.toNat vmallocEnd.toNat l

theorem spans_update {areas : Word → VmapArea} {d : Word} {l : List Word} (h : d ∉ l) (a : VmapArea) :
    spans (Function.update areas d a) l = spans areas l := by
  refine List.map_congr_left fun x hx => ?_
  rw [Function.update_of_ne (ne_of_mem_of_not_mem hx h)]

theorem spans_update_cons {areas : Word → VmapArea} {d : Word} {l : List Word} (h : d ∉ l) (a : VmapArea) :
    spans (Function.update areas d a) (d :: l) = a.span :: spans areas l := by
  rw [spans, List.map_cons, Function.update_self]
  exact congrArg _ (spans_update h a)

/-- Clearing the bits below a power of two takes them away. -/
theorem toNat_and_not_low (y m : Word) {k : Nat} (hm : m.toNat = 2 ^ k - 1) :
    (y &&& ~~~m).toNat = y.toNat / 2 ^ k * 2 ^ k := by
  refine Nat.eq_of_testBit_eq fun i => ?_
  have hlow : m.getLsbD i = decide (i < k) := by rw [BitVec.getLsbD, hm, Nat.testBit_two_pow_sub_one]
  rw [← BitVec.getLsbD, BitVec.getLsbD_and, BitVec.getLsbD_not, hlow, Nat.mul_comm, Nat.testBit_two_pow_mul,
    Nat.testBit_div_two_pow]
  by_cases hi : i < k
  · simp [hi]
  · rw [Nat.sub_add_cancel (by omega), ← BitVec.getLsbD]
    by_cases h64 : i < 64
    · simp [hi, h64, Nat.not_lt.mp hi]
    · simp [BitVec.getLsbD_of_ge y i (by omega)]

/-- Rounding up to a power of two, in the words the code has for it. -/
theorem toNat_alignUp_pow {x align : Word} {k : Nat} (ha : align.toNat = 2 ^ k) :
    (VmapManager.alignUp x align).toNat = (x.toNat + (2 ^ k - 1)) % 2 ^ 64 / 2 ^ k * 2 ^ k := by
  have hpos := Nat.two_pow_pos k
  have hlt := align.isLt
  have hm : (align - 1).toNat = 2 ^ k - 1 := by
    have h1 : (1 : Word).toNat = 1 := rfl
    rw [← ha, BitVec.toNat_sub_of_le (BitVec.le_def.mpr (by omega)), h1]
  have hsum : x + align - 1 = x + (align - 1) := by rw [add_sub_assoc]
  rw [VmapManager.alignUp, toNat_and_not_low _ _ hm, hsum, BitVec.toNat_add, hm]

theorem toNat_alignUp {x : Word} (h : x.toNat + 4095 < 2 ^ 64) :
    (VmapManager.alignUp x vaAlignDefault).toNat = (x.toNat + 4095) / 4096 * 4096 := by
  rw [toNat_alignUp_pow (k := 12) rfl, Nat.mod_eq_of_lt (show x.toNat + (2 ^ 12 - 1) < 2 ^ 64 from h)]
  rfl

namespace VmapManager

variable {m m' : VmapManager} {hand : List Word} {va : Word}

/-! ## What an operation keeps -/

/-- Every descriptor in use. -/
def owned (m : VmapManager) (hand : List Word) : List Word := hand ++ (m.freeList ++ m.busyList)

theorem mem_owned {d : Word} : d ∈ m.owned hand ↔ d ∈ hand ∨ d ∈ m.freeList ∨ d ∈ m.busyList := by
  rw [owned, List.mem_append, List.mem_append]

def Sorted (m : VmapManager) : Prop := m.freeList.Pairwise fun a b => (m.areas a).vaStart.toNat < (m.areas b).vaStart.toNat

/-- A property of the pieces that rearranging them, cutting one and joining two keeps. -/
structure Closed (C : List (Span Nat) → Prop) : Prop where
  packed : ∀ {l}, C l → Span.Packed OnPage vmallocStart.toNat vmallocEnd.toNat l
  perm : ∀ {l l'}, C l → l.Perm l' → C l'
  split : ∀ {a l x}, C (a :: l) → OnPage x → a.start < x → x < a.stop → C (⟨a.start, x⟩ :: ⟨x, a.stop⟩ :: l)
  merge : ∀ {a b l}, C (a :: b :: l) → a.stop = b.start → C (⟨a.start, b.stop⟩ :: l)

theorem closed_tiling : Closed Tiling :=
  ⟨fun h => h.toPacked, Span.Tiled.perm, Span.Tiled.split, Span.Tiled.merge⟩

theorem closed_packed : Closed (Span.Packed OnPage vmallocStart.toNat vmallocEnd.toNat) :=
  ⟨id, Span.Packed.perm, Span.Packed.split, Span.Packed.merge⟩

/-- No descriptor is in two places, and their areas have the property. -/
structure Held (C : List (Span Nat) → Prop) (m : VmapManager) (hand : List Word) : Prop where
  nodup : (m.owned hand).Nodup
  pieces : C (spans m.areas (m.owned hand))

section

variable {C : List (Span Nat) → Prop}

theorem Held.inside (h : Held C m hand) (hC : Closed C) {d : Word} (hd : d ∈ m.owned hand) :
    Span.Inside OnPage vmallocStart.toNat vmallocEnd.toNat (m.areas d).span :=
  (hC.packed h.pieces).inside _ (List.mem_map_of_mem hd)

theorem Held.apart (h : Held C m hand) (hC : Closed C) {d e : Word} (hd : d ∈ m.owned hand) (he : e ∈ m.owned hand)
    (hne : d ≠ e) : Span.Apart (m.areas d).span (m.areas e).span := by
  have : Std.Symm fun d e => Span.Apart (m.areas d).span (m.areas e).span := ⟨fun _ _ h => Span.Apart.symm h⟩
  exact (List.pairwise_map.mp (hC.packed h.pieces).apart).forall hd he hne

theorem Held.start_inj (h : Held C m hand) (hC : Closed C) {d e : Word} (hd : d ∈ m.owned hand) (he : e ∈ m.owned hand)
    (heq : (m.areas d).vaStart = (m.areas e).vaStart) : d = e := by
  by_contra hne
  exact (h.inside hC hd).start_ne (h.inside hC he) (h.apart hC hd he hne) (congrArg BitVec.toNat heq)

theorem Held.hand_not_free (h : Held C m (va :: hand)) : va ∉ m.freeList := fun hm =>
  (List.nodup_cons.mp h.nodup).1 (mem_owned.2 (Or.inr (Or.inl hm)))

theorem Held.hand_not_busy (h : Held C m (va :: hand)) : va ∉ m.busyList := fun hm =>
  (List.nodup_cons.mp h.nodup).1 (mem_owned.2 (Or.inr (Or.inr hm)))

theorem Held.not_busy (h : Held C m hand) {d : Word} (hd : d ∈ m.freeList) : d ∉ m.busyList := fun hb =>
  (List.nodup_append.mp (List.nodup_append.mp h.nodup).2.1).2.2 d hd d hb rfl

theorem Held.perm (h : Held C m hand) (hC : Closed C) {hand' : List Word} (ha : m'.areas = m.areas)
    (hp : (m.owned hand).Perm (m'.owned hand')) : Held C m' hand' := by
  refine ⟨hp.nodup_iff.mp h.nodup, ?_⟩
  rw [ha]
  exact hC.perm h.pieces (hp.map _)

/-- A descriptor in no list gets the bounds of a missing piece. -/
theorem Held.place {a : VmapArea} (hd : (va :: m.owned hand).Nodup) (ht : C (a.span :: spans m.areas (m.owned hand))) :
    Held C (m.setArea va a) (va :: hand) := by
  refine ⟨hd, ?_⟩
  show C (spans (Function.update m.areas va a) (va :: m.owned hand))
  rw [spans_update_cons (List.nodup_cons.mp hd).1]
  exact ht

/-- What a descriptor in no list holds does not matter. -/
theorem Held.forget (h : Held C m hand) (hn : va ∉ m.owned hand) (a : VmapArea) : Held C (m.setArea va a) hand := by
  refine ⟨h.nodup, ?_⟩
  show C (spans (Function.update m.areas va a) (m.owned hand))
  rw [spans_update hn]
  exact h.pieces

theorem Held.removed (h : Held C m hand) (hC : Closed C) (hR : Removed m va m') : Held C m' (va :: hand) := by
  refine h.perm hC hR.areas ?_
  rw [owned, owned, hR.freeList, hR.busyList]
  refine List.Perm.trans ?_ List.perm_middle
  exact ((List.perm_cons_erase hR.mem).append_right _).append_left _

theorem Held.inserted {a : VmapArea} (h : Held C (m.setArea va a) (va :: hand)) (hC : Closed C) (hI : Inserted m va a m') :
    Held C m' hand := by
  refine h.perm hC hI.areas ?_
  rw [owned, owned, hI.freeList, hI.busyList]
  refine List.Perm.trans List.perm_middle.symm ?_
  exact ((listInsert_perm m'.areas va m.freeList).symm.append_right _).append_left _

theorem Held.markBusy (h : Held C m (va :: hand)) (hC : Closed C) (flags : Word) : Held C (m.markBusy va flags) hand := by
  have hc : Held C (m.setArea va { m.areas va with flags := flags }) (va :: hand) := Held.place h.nodup h.pieces
  refine hc.perm hC rfl ?_
  show (va :: (hand ++ (m.freeList ++ m.busyList))).Perm (hand ++ (m.freeList ++ va :: m.busyList))
  exact List.perm_middle.symm.trans (List.perm_middle.symm.append_left _)

theorem toNat_vaSize {a : VmapArea} (h : Span.Inside OnPage vmallocStart.toNat vmallocEnd.toNat a.span) :
    (vaSize a).toNat = a.vaEnd.toNat - a.vaStart.toNat :=
  BitVec.toNat_sub_of_le (BitVec.le_def.mpr h.nonempty.le)

/-- Cutting off the rest of an area in hand. -/
theorem SplitBack.held {size : Word} {remain : Option Word} (h : SplitBack m va size remain m') (hC : Closed C)
    (hH : Held C m (va :: hand)) (hs : OnPage size.toNat) (h0 : 0 < size.toNat) (hle : size ≤ vaSize (m.areas va))
    (hr : ∀ r, remain = some r → r ∉ m.owned (va :: hand)) : Held C m' (va :: hand) ∧ size ≤ vaSize (m'.areas va) := by
  rcases h with ⟨rfl, -⟩ | ⟨r, rfl, -, hne, hgt, hI⟩
  · exact ⟨hH, hle⟩
  have hva : va ∉ m.owned hand := (List.nodup_cons.mp hH.nodup).1
  have hin := hH.inside hC (List.mem_cons_self ..)
  have hsz := toNat_vaSize hin
  rw [BitVec.le_def, hsz] at hle
  rw [gt_iff_lt, BitVec.lt_def, hsz, BitVec.toNat_add] at hgt
  have hE : (m.areas va).vaEnd.toNat ≤ vmallocEnd.toNat := hin.upper
  have hEv : vmallocEnd.toNat < 2 ^ 64 - 2 ^ 30 := by decide
  have hS : vmallocStart.toNat ≤ (m.areas va).vaStart.toNat := hin.lower
  have hmid : ((m.areas va).vaStart + size).toNat = (m.areas va).vaStart.toNat + size.toNat := by
    rw [BitVec.toNat_add]
    omega
  have hstart : OnPage (m.areas va).vaStart.toNat := hin.start
  have hpage : vaAlignDefault.toNat = 4096 := rfl
  have hsplit : C (⟨(m.areas va).vaStart.toNat, ((m.areas va).vaStart + size).toNat⟩ ::
      ⟨((m.areas va).vaStart + size).toNat, (m.areas va).vaEnd.toNat⟩ :: spans m.areas (m.owned hand)) := by
    rw [hmid]
    refine hC.split (a := (m.areas va).span) hH.pieces (Nat.dvd_add hstart hs) (Nat.lt_add_of_pos_right h0) ?_
    show _ < (m.areas va).vaEnd.toNat
    omega
  refine ⟨Held.inserted (Held.place ?_ ?_) hC hI, ?_⟩
  · exact List.nodup_cons.mpr ⟨hr r rfl, hH.nodup⟩
  · show C (_ :: spans (Function.update m.areas va _) (va :: m.owned hand))
    rw [spans_update_cons hva]
    exact hC.perm hsplit (List.Perm.swap ..)
  · rw [hI.areas, Function.update_of_ne hne.symm, setArea_areas, Function.update_self, vaSize]
    dsimp only
    rw [add_sub_cancel_left]
    exact BitVec.le_refl size

theorem MergedPrev.held {link dst : Word} (h : MergedPrev m va link m' dst) (hC : Closed C) (hH : Held C m (va :: hand)) :
    Held C m' (dst :: hand) ∧ m'.busyList = m.busyList ∧ ∀ d ∈ m.busyList, m'.areas d = m.areas d := by
  rcases h with ⟨rfl, rfl, -⟩ | ⟨hp, he, -, m1, hR, rfl⟩
  · exact ⟨hH, rfl, fun d _ => rfl⟩
  have hm := (prevFree_mem hp).1
  have hH1 := hH.removed hC hR
  have ht : C (⟨(m.areas dst).vaStart.toNat, (m.areas va).vaEnd.toNat⟩ :: spans m1.areas (m1.owned hand)) := by
    have hpc := hH1.pieces
    rw [hR.areas] at hpc ⊢
    exact hC.merge (a := (m.areas dst).span) (b := (m.areas va).span) hpc (congrArg BitVec.toNat he)
  obtain ⟨hd, hv⟩ := List.nodup_cons.mp hH1.nodup
  have hdv : dst ∉ m1.owned hand := fun hm' => hd (List.mem_cons_of_mem _ hm')
  have hva := (List.nodup_cons.mp hv).1
  have hne : va ≠ dst := fun e => hd (e ▸ List.mem_cons_self ..)
  have hH2 : Held C (m1.setArea dst { m.areas dst with vaEnd := (m.areas va).vaEnd }) (dst :: hand) :=
    Held.place (List.nodup_cons.mpr ⟨hdv, (List.nodup_cons.mp hv).2⟩) ht
  refine ⟨hH2.forget (fun hm' => ?_) _, hR.busyList, fun d hb => ?_⟩
  · exact (List.mem_cons.mp hm').elim hne hva
  · have hbv : d ≠ va := fun e => by
      subst e
      exact hH.hand_not_busy hb
    rw [setArea_areas, Function.update_of_ne hbv, setArea_areas,
      Function.update_of_ne (ne_of_mem_of_not_mem hb (hH.not_busy hm)), hR.areas]

theorem Held.take (h : Held C m []) (hC : Closed C) (hv : va ∈ m.busyList) :
    Held C { m with busyList := m.busyList.erase va, nrBusy := m.nrBusy - 1 } [va] := by
  refine h.perm hC rfl ?_
  show (m.freeList ++ m.busyList).Perm (va :: (m.freeList ++ m.busyList.erase va))
  exact ((List.perm_cons_erase hv).append_left _).trans List.perm_middle

theorem Freed.held {link : Word} (h : Freed m va link m') (hC : Closed C) (hH : Held C m []) :
    Held C m' [] ∧ m'.busyList = m.busyList.erase va ∧ ∀ d ∈ m.busyList.erase va, m'.areas d = m.areas d := by
  obtain ⟨m1, dst, hM, hI⟩ := h.steps
  obtain ⟨hH1, hb, hfr⟩ := hM.held hC (hH.take hC h.mem)
  have hH2 : Held C ({ m1 with totalFree := m1.totalFree + vaSize (m1.areas va) }.setArea dst (m1.areas dst)) [dst] :=
    hH1.perm hC (Function.update_eq_self ..) (List.Perm.refl _)
  refine ⟨hH2.inserted hC hI, hI.busyList.trans hb, fun d hd => ?_⟩
  have hd1 : d ∈ m1.busyList := hb ▸ hd
  rw [hI.areas, Function.update_of_ne (ne_of_mem_of_not_mem hd1 hH1.hand_not_busy)]
  exact hfr d hd

end

/-! ## The pieces cover the range, and the list is sorted -/

structure Tidy (m : VmapManager) (hand : List Word) : Prop where
  nodup : (m.owned hand).Nodup
  tiling : Tiling (spans m.areas (m.owned hand))
  sorted : m.Sorted

theorem Tidy.held (h : Tidy m hand) : Held Tiling m hand := ⟨h.nodup, h.tiling⟩

theorem Held.tidy (h : Held Tiling m hand) (hs : m.Sorted) : Tidy m hand := ⟨h.nodup, h.pieces, hs⟩

theorem Tidy.inside (h : Tidy m hand) {d : Word} (hd : d ∈ m.owned hand) :
    Span.Inside OnPage vmallocStart.toNat vmallocEnd.toNat (m.areas d).span := h.held.inside closed_tiling hd

theorem Tidy.apart (h : Tidy m hand) {d e : Word} (hd : d ∈ m.owned hand) (he : e ∈ m.owned hand) (hne : d ≠ e) :
    Span.Apart (m.areas d).span (m.areas e).span := h.held.apart closed_tiling hd he hne

theorem Tidy.start_inj (h : Tidy m hand) {d e : Word} (hd : d ∈ m.owned hand) (he : e ∈ m.owned hand)
    (heq : (m.areas d).vaStart = (m.areas e).vaStart) : d = e := h.held.start_inj closed_tiling hd he heq

theorem Tidy.hand_not_free (h : Tidy m (va :: hand)) : va ∉ m.freeList := h.held.hand_not_free

theorem Tidy.not_busy (h : Tidy m hand) {d : Word} (hd : d ∈ m.freeList) : d ∉ m.busyList := h.held.not_busy hd

theorem Sorted.setArea (h : m.Sorted) (hm : va ∉ m.freeList) (a : VmapArea) : (m.setArea va a).Sorted := by
  refine List.Pairwise.imp_of_mem (fun {x y} hx hy hxy => ?_) h
  rw [setArea_areas, Function.update_of_ne (ne_of_mem_of_not_mem hx hm), Function.update_of_ne (ne_of_mem_of_not_mem hy hm)]
  exact hxy

theorem Removed.sorted (hR : Removed m va m') (h : m.Sorted) : m'.Sorted := by
  rw [Sorted, hR.areas, hR.freeList]
  exact h.sublist (List.erase_sublist ..)

theorem Tidy.removed (h : Tidy m hand) (hR : Removed m va m') : Tidy m' (va :: hand) :=
  (h.held.removed closed_tiling hR).tidy (hR.sorted h.sorted)

theorem listInsert_sorted {areas : Word → VmapArea} {l : List Word}
    (h : l.Pairwise fun a b => (areas a).vaStart.toNat < (areas b).vaStart.toNat)
    (hne : ∀ d ∈ l, (areas d).vaStart.toNat ≠ (areas va).vaStart.toNat) :
    (listInsert areas va l).Pairwise fun a b => (areas a).vaStart.toNat < (areas b).vaStart.toNat := by
  induction l with
  | nil => exact List.pairwise_singleton ..
  | cons tmp l ih =>
    obtain ⟨h1, h2⟩ := List.pairwise_cons.mp h
    rw [listInsert]
    split
    · next hgt =>
      refine List.pairwise_cons.mpr ⟨fun d hd => ?_, h⟩
      rcases List.mem_cons.mp hd with rfl | hd
      · exact hgt
      · exact lt_trans hgt (h1 d hd)
    · next hgt =>
      refine List.pairwise_cons.mpr ⟨fun d hd => ?_, ih h2 fun d hd => hne d (List.mem_cons_of_mem _ hd)⟩
      rcases mem_listInsert.mp hd with rfl | hd
      · exact lt_of_le_of_ne (not_lt.mp hgt) (hne tmp (List.mem_cons_self ..))
      · exact h1 d hd

theorem Inserted.sorted {a : VmapArea} (hI : Inserted m va a m') (hm : va ∉ m.freeList) (h : m.Sorted)
    (hH : Held Tiling m' hand) : m'.Sorted := by
  rw [Sorted, hI.freeList]
  refine listInsert_sorted ?_ fun d hd he => ?_
  · rw [hI.areas]
    exact h.setArea hm a
  · have mem : ∀ {d}, d = va ∨ d ∈ m.freeList → d ∈ m'.owned hand := fun hd =>
      mem_owned.2 (Or.inr (Or.inl (by rw [hI.freeList]; exact mem_listInsert.mpr hd)))
    have := hH.start_inj closed_tiling (mem (Or.inr hd)) (mem (Or.inl rfl)) (BitVec.eq_of_toNat_eq he)
    exact hm (this ▸ hd)

theorem Tidy.inserted {a : VmapArea} (h : Held Tiling (m.setArea va a) (va :: hand)) (hs : m.Sorted) (hI : Inserted m va a m') :
    Tidy m' hand := by
  have hH := h.inserted closed_tiling hI
  exact hH.tidy (hI.sorted h.hand_not_free hs hH)

/-! ## Allocation -/

theorem alignUp_onPage {x : Word} (hp : OnPage x.toNat) : alignUp x vaAlignDefault = x := by
  refine BitVec.eq_of_toNat_eq ?_
  rw [toNat_alignUp (by omega)]
  unfold OnPage at hp
  omega

theorem SplitBack.tidy {size : Word} {remain : Option Word} (h : SplitBack m va size remain m') (hT : Tidy m (va :: hand))
    (hs : OnPage size.toNat) (h0 : 0 < size.toNat) (hle : size ≤ vaSize (m.areas va))
    (hr : ∀ r, remain = some r → r ∉ m.owned (va :: hand)) : Tidy m' (va :: hand) ∧ size ≤ vaSize (m'.areas va) := by
  obtain ⟨hH, hle'⟩ := h.held closed_tiling hT.held hs h0 hle hr
  refine ⟨hH.tidy ?_, hle'⟩
  rcases h with ⟨rfl, -⟩ | ⟨r, rfl, -, -, -, hI⟩
  · exact hT.sorted
  · have hm : r ∉ m.freeList := fun hm => hr r rfl (mem_owned.2 (Or.inr (Or.inl hm)))
    exact hI.sorted hm (hT.sorted.setArea hT.hand_not_free _) hH

theorem SplitBack.frame {size : Word} {remain : Option Word} (h : SplitBack m va size remain m') :
    m'.busyList = m.busyList ∧ ∀ d, d ≠ va → remain ≠ some d → m'.areas d = m.areas d := by
  rcases h with ⟨rfl, -⟩ | ⟨r, rfl, -, -, -, hI⟩
  · exact ⟨rfl, fun d _ _ => rfl⟩
  · refine ⟨hI.busyList, fun d h1 h2 => ?_⟩
    rw [hI.areas, Function.update_of_ne fun e => h2 (congrArg some e.symm), setArea_areas, Function.update_of_ne h1]

theorem Tidy.markBusy (h : Tidy m (va :: hand)) (flags : Word) : Tidy (m.markBusy va flags) hand :=
  (h.held.markBusy closed_tiling flags).tidy
    (h.sorted.setArea h.hand_not_free { m.areas va with flags := flags })

/-- What an allocation with page alignment keeps, and what it hands out. -/
theorem Allocated.tidy {size flags : Word} {before remain : Option Word}
    (h : Allocated m size vaAlignDefault flags before remain va m') (hT : Tidy m []) (hm : va ∈ m.freeList)
    (hs : OnPage size.toNat) (h0 : 0 < size.toNat) (hle : size ≤ vaSize (m.areas va))
    (hr : ∀ r, remain = some r → r ∉ m.owned []) :
    Tidy m' [] ∧ m'.busyList = va :: m.busyList ∧ (∀ d ∈ m.busyList, m'.areas d = m.areas d) ∧
      size ≤ vaSize (m'.areas va) := by
  obtain ⟨m1, m2, m3, hR, hF, hB, rfl⟩ := h.steps
  have hT1 := hT.removed hR
  have hin := hT1.inside (List.mem_cons_self ..)
  have hsame := alignUp_onPage hin.start
  obtain ⟨-, rfl⟩ : _ ∧ m2 = m1 := hF.resolve_right fun hw => hw.1 hsame
  have hr' : ∀ r, remain = some r → r ∉ m2.owned [va] := fun r e hm' => by
    refine hr r e (mem_owned.2 (Or.inr ?_))
    rw [mem_owned, hR.freeList, hR.busyList] at hm'
    rcases hm' with hm' | hm'
    · exact Or.inl (List.mem_singleton.mp hm' ▸ hm)
    · exact hm'.imp_left List.mem_of_mem_erase
  obtain ⟨hT3, hle3⟩ := hB.tidy hT1 hs h0 (by rw [hR.areas]; exact hle) hr'
  obtain ⟨hb, hfr⟩ := hB.frame
  refine ⟨hT3.markBusy flags, ?_, fun d hd => ?_, ?_⟩
  · show va :: m3.busyList = _
    rw [hb, hR.busyList]
  · have hne : d ≠ va := ne_of_mem_of_not_mem hd (hT.not_busy hm)
    show Function.update m3.areas va _ d = _
    rw [Function.update_of_ne hne, hfr d hne fun e => hr d e (mem_owned.2 (Or.inr (Or.inr hd))), hR.areas]
  · show size ≤ vaSize (Function.update m3.areas va _ va)
    rw [Function.update_self]
    exact hle3

/-! ## Freeing -/

theorem MergedPrev.sorted {link dst : Word} (h : MergedPrev m va link m' dst) (hT : Tidy m (va :: hand)) : m'.Sorted := by
  rcases h with ⟨rfl, rfl, -⟩ | ⟨-, -, -, m1, hR, rfl⟩
  · exact hT.sorted
  have hd : dst ∉ m1.freeList := (hT.removed hR).hand_not_free
  have hv : va ∉ m1.freeList := fun hm => hT.hand_not_free (List.mem_of_mem_erase (hR.freeList ▸ hm))
  have h1 := (hR.sorted hT.sorted).setArea hd { m.areas dst with vaEnd := (m.areas va).vaEnd }
  exact h1.setArea hv { m.areas va with vaStart := link }

theorem MergedPrev.tidy {link dst : Word} (h : MergedPrev m va link m' dst) (hT : Tidy m (va :: hand)) :
    Tidy m' (dst :: hand) ∧ m'.busyList = m.busyList ∧ ∀ d ∈ m.busyList, m'.areas d = m.areas d := by
  obtain ⟨hH, hfr⟩ := h.held closed_tiling hT.held
  exact ⟨hH.tidy (h.sorted hT), hfr⟩

theorem Tidy.take (h : Tidy m []) (hv : va ∈ m.busyList) :
    Tidy { m with busyList := m.busyList.erase va, nrBusy := m.nrBusy - 1 } [va] :=
  (h.held.take closed_tiling hv).tidy h.sorted

theorem Freed.tidy {link : Word} (h : Freed m va link m') (hT : Tidy m []) :
    Tidy m' [] ∧ m'.busyList = m.busyList.erase va ∧ ∀ d ∈ m.busyList.erase va, m'.areas d = m.areas d := by
  obtain ⟨hH, hb, hfr⟩ := h.held closed_tiling hT.held
  refine ⟨hH.tidy ?_, hb, hfr⟩
  obtain ⟨m1, dst, hM, hI⟩ := h.steps
  have hT1 := (hM.tidy (hT.take h.mem)).1
  exact hI.sorted hT1.hand_not_free hT1.sorted hH

end VmapManager

/-! ## Every run -/

/-- Page alignment, and a size that does not wrap when it is rounded up to pages. -/
def Paged : Op → Prop
  | .alloc size align _ _ _ => align = vaAlignDefault ∧ size.toNat + 4095 < 2 ^ 64
  | .free _ _ _ => True

/-- Every address that is out is the start of a busy area that is large enough. -/
def Serves (s : State) : Prop :=
  ∀ e ∈ s.live, ∃ d ∈ s.mgr.busyList, (s.mgr.areas d).vaStart = e.1 ∧ e.2 ≤ vaSize (s.mgr.areas d)

theorem Boot.tidy {s : State} (h : Boot s) : s.mgr.Tidy [] := by
  obtain ⟨d, h0, hi, -⟩ := h
  have hL : VmapManager.Linked ⟨fun _ => ⟨0, 0, 0⟩, .nil, [], [], vmallocEnd - vmallocStart, 0⟩ [d, 0] :=
    ⟨RedBlack.Ordered.nil _, List.Perm.refl _, by simpa using h0⟩
  obtain ⟨m', hm, -, hI⟩ := hL.inserted ⟨vmallocStart, vmallocEnd, 0⟩
  cases hm.symm.trans hi
  have hs : VmapManager.Sorted ⟨fun _ => ⟨0, 0, 0⟩, .nil, [], [], vmallocEnd - vmallocStart, 0⟩ := List.Pairwise.nil
  refine VmapManager.Tidy.inserted (VmapManager.Held.place (List.nodup_singleton d) ?_) hs hI
  exact Span.Tiled.whole_range ⟨le_rfl, by decide, le_rfl, by decide, by decide⟩

theorem Moved.tidy {s s' : State} {e : Op} (h : Moved s e s') (hL : s.mgr.Linked [0]) (hT : s.mgr.Tidy []) (hS : Serves s)
    (hf : Fresh s e) (hp : Paged e) : s'.mgr.Tidy [] ∧ Serves s' := by
  cases h with
  | refused _ => exact ⟨hT, hS⟩
  | @allocated size align flags before remain va m' h0 hA =>
    obtain ⟨rfl, hsz⟩ := hp
    obtain ⟨hm, hle⟩ := hL.bestFit hA.chosen
    have hs := toNat_alignUp hsz
    have h0' : 0 < size.toNat := Nat.pos_of_ne_zero fun h => h0 (BitVec.eq_of_toNat_eq h)
    obtain ⟨hT', hb, hfr, hle'⟩ := VmapManager.Allocated.tidy hA hT hm (by rw [hs]; exact Nat.dvd_mul_left ..) (by omega) hle
      fun r e hr => by
        obtain ⟨-, h1, h2⟩ := (hf.2 r e).1
        exact (VmapManager.mem_owned.1 hr).elim (fun h => by cases h) fun h => h.elim h1 h2
    refine ⟨hT', fun e he => ?_⟩
    have hold : ∀ e ∈ s.live, ∃ d ∈ m'.busyList, (m'.areas d).vaStart = e.1 ∧ e.2 ≤ vaSize (m'.areas d) := fun e he => by
      obtain ⟨d, hd, h1, h2⟩ := hS e he
      refine ⟨d, hb ▸ List.mem_cons_of_mem _ hd, ?_, ?_⟩
      · rw [hfr d hd]
        exact h1
      · rw [hfr d hd]
        exact h2
    dsimp only at he ⊢
    split at he
    · exact hold e he
    · rcases List.mem_cons.mp he with rfl | he
      · refine ⟨va, hb ▸ List.mem_cons_self .., rfl, BitVec.le_trans ?_ hle'⟩
        rw [BitVec.le_def, hs]
        dsimp only
        omega
      · exact hold e he
  | ignored _ => exact ⟨hT, fun e he => hS e (List.mem_of_mem_filter he)⟩
  | @freed addr link link' va m' h0 hv hF =>
    obtain ⟨hT', hb, hfr⟩ := VmapManager.Freed.tidy hF hT
    refine ⟨hT', fun e he => ?_⟩
    obtain ⟨he, hne⟩ := List.mem_filter.mp he
    obtain ⟨d, hd, h1, h2⟩ := hS e he
    have hva : (s.mgr.areas va).vaStart = addr := by simpa using List.find?_some hv
    have hdv : d ≠ va := by
      rintro rfl
      exact of_decide_eq_true hne (h1.symm.trans hva)
    have hd' : d ∈ s.mgr.busyList.erase va := (List.mem_erase_of_ne hdv).mpr hd
    refine ⟨d, hb ▸ hd', ?_, ?_⟩
    · rw [hfr d hd']
      exact h1
    · rw [hfr d hd']
      exact h2

/-- What every run of calls with page alignment keeps. -/
structure Orderly (s : State) : Prop where
  linked : s.mgr.Linked [0]
  tidy : s.mgr.Tidy []
  serves : Serves s

theorem Boot.orderly {s : State} (h : Boot s) : Orderly s := by
  refine ⟨h.linked, h.tidy, ?_⟩
  obtain ⟨-, -, -, hl⟩ := h
  rw [Serves, hl]
  exact fun e he => by cases he

theorem Orderly.step {s s' : State} {e : Op} (h : Orderly s) (hf : Fresh s e) (hp : Paged e) (hs : step s e = some s') :
    Orderly s' ∧ Moved s e s' := by
  obtain ⟨s1, h1, hL1, hM⟩ := step_moved h.linked hf
  cases h1.symm.trans hs
  obtain ⟨hT, hS⟩ := hM.tidy h.linked h.tidy h.serves hf hp
  exact ⟨⟨hL1, hT, hS⟩, hM⟩

/-- The order of the tree is strict: areas of one size have different starts. -/
theorem VmapManager.Linked.tree_strict {m : VmapManager} (hL : m.Linked [0]) (hT : m.Tidy []) :
    m.freeTree.toList.Pairwise fun a b => vaCompareSize (m.areas a) (m.areas b) = .lt := by
  have hn : m.freeTree.toList.Nodup := hL.same.nodup_iff.mpr (List.nodup_append.mp (List.nodup_append.mp hT.nodup).2.1).1
  refine (hL.tree.sorted.and hn).imp_of_mem fun {a b} ha hb hab => ?_
  have hne : (m.areas a).vaStart.toNat ≠ (m.areas b).vaStart.toNat := fun he =>
    hab.2 (hT.start_inj (mem_owned.mpr (Or.inr (Or.inl (hL.same.mem_iff.mp ha))))
      (mem_owned.mpr (Or.inr (Or.inl (hL.same.mem_iff.mp hb)))) (BitVec.eq_of_toNat_eq he))
  have hle := hab.1
  simp only [treeLe, ne_eq, vaCompareSize_lt] at hle ⊢
  omega

/-- In every run of calls with page alignment the areas are whole pages of the range that do
    not overlap, list and tree hold the free ones in their orders, and what is out is busy. No
    call fails to return. -/
theorem ranges_reach {s : State} (h : Lib.Reach step (fun s e => Fresh s e ∧ Paged e) Boot s) :
    (∀ d ∈ s.mgr.freeList ++ s.mgr.busyList,
      4096 ∣ (s.mgr.areas d).vaStart.toNat ∧ 4096 ∣ (s.mgr.areas d).vaEnd.toNat ∧
      vmallocStart ≤ (s.mgr.areas d).vaStart ∧ (s.mgr.areas d).vaStart < (s.mgr.areas d).vaEnd ∧
      (s.mgr.areas d).vaEnd ≤ vmallocEnd) ∧
    (s.mgr.freeList ++ s.mgr.busyList).Pairwise (fun a b =>
      (s.mgr.areas a).vaEnd ≤ (s.mgr.areas b).vaStart ∨ (s.mgr.areas b).vaEnd ≤ (s.mgr.areas a).vaStart) ∧
    s.mgr.freeList.Pairwise (fun a b => (s.mgr.areas a).vaStart < (s.mgr.areas b).vaStart) ∧
    s.mgr.freeTree.toList.Perm s.mgr.freeList ∧
    s.mgr.freeTree.toList.Pairwise (fun a b => vaCompareSize (s.mgr.areas a) (s.mgr.areas b) = .lt) ∧
    (∀ e ∈ s.live, ∃ d ∈ s.mgr.busyList, (s.mgr.areas d).vaStart = e.1 ∧ e.2 ≤ vaSize (s.mgr.areas d) ∧
      ∀ d' ∈ s.mgr.busyList, (s.mgr.areas d').vaStart = e.1 → d' = d) ∧
    ∀ e, Fresh s e → ∃ s', step s e = some s' := by
  obtain ⟨hL, hT, hS⟩ := h.rule (fun s hb => hb.orderly) fun s e s' hP hok hs => (hP.step hok.1 hok.2 hs).1
  refine ⟨fun d hd => ?_, ?_, hT.sorted, hL.same, hL.tree_strict hT, fun e he => ?_, fun e hf => ?_⟩
  · have hin := hT.inside hd
    exact ⟨hin.start, hin.stop, hin.lower, hin.nonempty, hin.upper⟩
  · exact List.pairwise_map.mp hT.tiling.apart
  · obtain ⟨d, hd, h1, h2⟩ := hS e he
    refine ⟨d, hd, h1, h2, fun d' hd' h' => ?_⟩
    exact hT.start_inj (VmapManager.mem_owned.mpr (Or.inr (Or.inr hd'))) (VmapManager.mem_owned.mpr (Or.inr (Or.inr hd)))
      (h'.trans h1.symm)
  · obtain ⟨s', hs, -⟩ := step_moved hL hf
    exact ⟨s', hs⟩

instance : DecidablePred Paged
  | .alloc .. => inferInstanceAs (Decidable (_ ∧ _))
  | .free .. => .isTrue trivial

/-- Two pages are allocated, the second without a descriptor for the rest, and one is freed. -/
def allocTwo : List Op :=
  [.alloc 0x1000 0x1000 1 none (some 2), .alloc 0x1800 0x1000 1 none none, .free vmallocStart 0 0]

theorem ranges_reach_allocTwo : ∃ s, Lib.Reach step (fun s e => Fresh s e ∧ Paged e) Boot s ∧ s.live.length = 1 ∧
    ∀ e ∈ s.live, ∃ d ∈ s.mgr.busyList, (s.mgr.areas d).vaStart = e.1 ∧ e.2 ≤ vaSize (s.mgr.areas d) ∧
      ∀ d' ∈ s.mgr.busyList, (s.mgr.areas d').vaStart = e.1 → d' = d := by
  obtain ⟨s, hr, -, hd⟩ := Lib.exists_run step (fun s e => Fresh s e ∧ Paged e) allocTwo
    (fun s => decide (s.live.length = 1)) bootState_boot rfl rfl
  exact ⟨s, hr, of_decide_eq_true hd, (ranges_reach hr).2.2.2.2.2.1⟩

end Myos.Vmap
