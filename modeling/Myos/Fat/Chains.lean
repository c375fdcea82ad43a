/-
  Myos.Fat.Chains — what the loops over cluster chains do on a sound chain.

  A sound chain runs through data clusters and ends in an end mark.

  Proved: the loops that look end and find what the chain holds; `alloc_cluster` takes a free
  cluster, ends and clears it; `free_chain` frees exactly the chain; and what stays.
-/

import Myos.Lib.Chain
import Myos.Fat.Inode

namespace Myos.Fat

open Lib Fat32Inner

variable {v : Fat32Inner} {d d' : Device} {c c' x n : Nat} {l : List Nat} {buf : Buf}

structure FatChain (v : Fat32Inner) (d : Device) (c : Nat) (l : List Nat) : Prop where
  chain : Chain (v.readFatEntry d) (fatEoc ≤ ·) c l
  range : ∀ x ∈ l, 2 ≤ x ∧ x < v.total

namespace FatChain

theorem inData (h : FatChain v d c l) (hv : v.WellFormed) (hx : x ∈ l) : inData x = true := by
  have := h.range x hx
  have := hv.total
  rw [Fat32Inner.inData, decide_eq_true_eq]
  omega

theorem cons (h : FatChain v d c (x :: l)) : x = c ∧ FatChain v d (v.readFatEntry d c) l := by
  obtain ⟨rfl, -, hc⟩ := h.chain.head
  exact ⟨rfl, hc, fun y hy => h.range y (List.mem_cons_of_mem _ hy)⟩

theorem not_inData (h : FatChain v d c []) : Fat32Inner.inData c = false := by
  cases h.chain with
  | nil hs =>
    rw [Fat32Inner.inData, decide_eq_false_iff_not]
    omega

theorem unique {l' : List Nat} (h : FatChain v d c l) (h' : FatChain v d c l') : l = l' := h.chain.unique h'.chain

theorem suffix {l1 l2 : List Nat} (h : FatChain v d c (l1 ++ x :: l2)) : FatChain v d x (x :: l2) :=
  ⟨h.chain.suffix, fun y hy => h.range y (List.mem_append_right _ hy)⟩

/-- No cluster of a chain is free. -/
theorem allocated (h : FatChain v d c l) (hx : x ∈ l) : v.readFatEntry d x ≠ 0 := by
  obtain ⟨l1, l2, rfl⟩ := List.append_of_mem hx
  have hc := (h.suffix).cons.2
  intro h0
  rw [h0] at hc
  cases l2 with
  | nil =>
    cases hc.chain with
    | nil hs => exact absurd hs (by decide)
  | cons y l2 =>
    obtain ⟨rfl, -⟩ := hc.cons
    exact absurd (hc.range 0 (List.mem_cons_self ..)).1 (by decide)

theorem length_lt (h : FatChain v d c l) (hv : v.WellFormed) : l.length < chainFuel := by
  have hsub : l.toFinset ⊆ Finset.range v.total := fun y hy => by
    rw [List.mem_toFinset] at hy
    exact Finset.mem_range.mpr (h.range y hy).2
  have hcard := Finset.card_le_card hsub
  rw [List.toFinset_card_of_nodup h.chain.nodup, Finset.card_range] at hcard
  have h2 : l.length ≤ v.total - 2 := by
    have hsub : l.toFinset ⊆ Finset.Ico 2 v.total := fun y hy => by
      rw [List.mem_toFinset] at hy
      exact Finset.mem_Ico.mpr (h.range y hy)
    have := Finset.card_le_card hsub
    rwa [List.toFinset_card_of_nodup h.chain.nodup, Nat.card_Ico] at this
  have := hv.total
  have := hv.root_lt
  have := hv.root
  unfold chainFuel
  omega

/-- Entries outside the chain do not matter. -/
theorem congr (h : FatChain v d c l) (he : ∀ x ∈ l, v.readFatEntry d' x = v.readFatEntry d x) : FatChain v d' c l :=
  ⟨h.chain.congr he, h.range⟩

end FatChain

/-! ## Loops that look -/

theorem chainLen_eq (h : FatChain v d c l) (hv : v.WellFormed) (hn : l.length < n) : v.chainLen d n c = some l.length := by
  induction n generalizing c l with
  | zero => exact absurd hn (Nat.not_lt_zero _)
  | succ n ih =>
    rw [chainLen]
    cases l with
    | nil => rw [if_neg (by rw [h.not_inData]; exact Bool.false_ne_true)]; rfl
    | cons y l =>
      obtain ⟨rfl, ht⟩ := h.cons
      rw [if_pos (h.inData hv (List.mem_cons_self ..)), ih ht (Nat.lt_of_succ_lt_succ hn)]
      rfl

theorem chainSize_eq (h : FatChain v d c l) (hv : v.WellFormed) : v.chainSize d c = some (l.length * v.clusBytes) := by
  rw [chainSize, chainLen_eq h hv (h.length_lt hv), Option.map_some, clusBytes, Nat.mul_assoc]

theorem scanChain_eq {p : Buf → Nat → Bool} (h : FatChain v d c l) (hv : v.WellFormed) (hn : l.length < n) :
    v.scanChain d p n c = some (l.findSome? fun x => (v.slots.find? (p (v.readCluster d x))).map fun i => (x, i)) := by
  induction n generalizing c l with
  | zero => exact absurd hn (Nat.not_lt_zero _)
  | succ n ih =>
    rw [scanChain]
    cases l with
    | nil => rw [if_neg (by rw [h.not_inData]; exact Bool.false_ne_true)]; rfl
    | cons y l =>
      obtain ⟨rfl, ht⟩ := h.cons
      rw [if_pos (h.inData hv (List.mem_cons_self ..)), List.findSome?_cons]
      cases hf : v.slots.find? (p (v.readCluster d y)) with
      | none => exact ih ht (Nat.lt_of_succ_lt_succ hn)
      | some i => rfl

/-- The slots of the clusters of a chain. -/
def SlotIn (v : Fat32Inner) (l : List Nat) (c i : Nat) : Prop := c ∈ l ∧ i ∈ v.slots

/-- What a scan finds is picked, and nothing in front of it is; or nothing is picked. -/
theorem scanChain_cases (p : Buf → Nat → Bool) (h : FatChain v d c l) (hv : v.WellFormed) :
    (v.scanChain d p chainFuel c = some none ∧ ∀ x i, SlotIn v l x i → p (v.readCluster d x) i = false) ∨
      ∃ x i, v.scanChain d p chainFuel c = some (some (x, i)) ∧ SlotIn v l x i ∧ p (v.readCluster d x) i = true := by
  rw [scanChain_eq h hv (h.length_lt hv)]
  cases hf : l.findSome? fun x => (v.slots.find? (p (v.readCluster d x))).map fun i => (x, i) with
  | none =>
    refine Or.inl ⟨rfl, fun x i hx => ?_⟩
    have := List.findSome?_eq_none_iff.mp hf x hx.1
    rw [Option.map_eq_none_iff, List.find?_eq_none] at this
    exact Bool.eq_false_iff.mpr (this i hx.2)
  | some xi =>
    obtain ⟨x, hx, he⟩ := List.exists_of_findSome?_eq_some hf
    obtain ⟨i, hi, rfl⟩ := Option.map_eq_some_iff.mp he
    exact Or.inr ⟨x, i, rfl, ⟨hx, List.mem_of_find?_eq_some hi⟩, List.find?_some hi⟩

theorem chainTail_eq {z : Nat} (h : FatChain v d c (l ++ [z])) (hn : l.length < n) :
    v.chainTail d n c = some z := by
  induction n generalizing c l with
  | zero => exact absurd hn (Nat.not_lt_zero _)
  | succ n ih =>
    rw [chainTail]
    cases l with
    | nil =>
      obtain ⟨rfl, ht⟩ := h.cons
      rw [if_pos]
      cases ht.chain with
      | nil hs => exact hs
    | cons y l =>
      obtain ⟨rfl, ht⟩ := h.cons
      have hns : ¬ fatEoc ≤ v.readFatEntry d y := by
        have : l ++ [z] ≠ [] := by simp
        intro hs
        exact this (ht.chain.eq_nil hs)
      rw [if_neg hns]
      exact ih ht (Nat.lt_of_succ_lt_succ hn)

/-! ## Taking a cluster -/

/-- A free cluster was taken. -/
structure Taken (v : Fat32Inner) (d : Device) (c : Nat) (d' : Device) : Prop where
  lower : 2 ≤ c
  upper : c < v.total
  free : v.readFatEntry d c = 0
  fat : ∀ x, x < v.total → v.readFatEntry d' x = if x = c then fatEoc else v.readFatEntry d x
  zero : v.readCluster d' c = zeroBuf
  data : ∀ x, 2 ≤ x → x ≠ c → v.readCluster d' x = v.readCluster d x

theorem mem_clusters (hv : v.WellFormed) : c ∈ List.range' 2 (v.total % 2 ^ 32 - 2) ↔ 2 ≤ c ∧ c < v.total := by
  have := hv.total
  have hlt : v.total < 2 ^ 32 := lt_of_le_of_lt this (by decide)
  rw [Nat.mod_eq_of_lt hlt, List.mem_range'_1]
  omega

theorem allocCluster_ok (hv : v.WellFormed) (h : v.allocCluster d = .ok (c, d')) : Taken v d c d' := by
  unfold allocCluster at h
  split at h
  · cases h
  · next c0 hf =>
    cases h
    have hfree : v.readFatEntry d c = 0 := by simpa using List.find?_some hf
    obtain ⟨h2, hlt⟩ := (mem_clusters hv).mp (List.mem_of_find?_eq_some hf)
    refine ⟨h2, hlt, hfree, fun x hx => ?_, readCluster_writeCluster_self fun _ _ => rfl, fun x hx hne => ?_⟩
    · rw [readFatEntry_writeCluster hv hx, readFatEntry_writeFatEntry hx]
      rfl
    · rw [readCluster_writeCluster_of_ne h2 hx hne, readCluster_writeFatEntry hv hlt]

theorem allocCluster_error {e : String} (hv : v.WellFormed) (h : v.allocCluster d = .error e) :
    ∀ c, 2 ≤ c → c < v.total → v.readFatEntry d c ≠ 0 := by
  unfold allocCluster at h
  split at h
  · next hf =>
    intro c h2 hlt
    simpa using List.find?_eq_none.mp hf c ((mem_clusters hv).mpr ⟨h2, hlt⟩)
  · cases h

theorem allocCluster_error_eq {e : String} (h : v.allocCluster d = .error e) : e = "no free clusters" := by
  unfold allocCluster at h
  split at h
  · cases h
    rfl
  · cases h

/-- The free clusters, in the order they are taken. -/
def freeClusters (v : Fat32Inner) (d : Device) : List Nat :=
  (List.range' 2 (v.total % 2 ^ 32 - 2)).filter fun c => v.readFatEntry d c = 0

theorem mem_freeClusters (hv : v.WellFormed) : c ∈ freeClusters v d ↔ 2 ≤ c ∧ c < v.total ∧ v.readFatEntry d c = 0 := by
  rw [freeClusters, List.mem_filter, mem_clusters hv, decide_eq_true_eq, and_assoc]

theorem freeClusters_congr (hv : v.WellFormed)
    (h : ∀ x, 2 ≤ x → x < v.total → (v.readFatEntry d' x = 0 ↔ v.readFatEntry d x = 0)) : freeClusters v d' = freeClusters v d :=
  List.filter_congr fun x hx => by
    obtain ⟨h2, hlt⟩ := (mem_clusters hv).mp hx
    rw [decide_eq_decide]
    exact h x h2 hlt

theorem freeClusters_writeCluster (hv : v.WellFormed) (d : Device) (c : Nat) (buf : Buf) :
    freeClusters v (v.writeCluster d c buf) = freeClusters v d :=
  freeClusters_congr hv fun x _ hx => by rw [readFatEntry_writeCluster hv hx]

theorem allocCluster_find (h : v.allocCluster d = .ok (c, d')) :
    (List.range' 2 (v.total % 2 ^ 32 - 2)).find? (fun c => v.readFatEntry d c = 0) = some c := by
  unfold allocCluster at h
  split at h
  · cases h
  · next hf =>
    cases h
    exact hf

/-- The first free cluster is taken. -/
theorem allocCluster_next (hv : v.WellFormed) (h : v.allocCluster d = .ok (c, d')) : freeClusters v d = c :: freeClusters v d' := by
  have ht := allocCluster_ok hv h
  obtain ⟨hc, as, bs, hR, hno⟩ := List.find?_eq_some_iff_append.mp (allocCluster_find h)
  have hnd : (as ++ c :: bs).Nodup := hR ▸ List.nodup_range'
  have hcas : c ∉ as := fun hm => (List.nodup_append.mp hnd).2.2 c hm c (List.mem_cons_self ..) rfl
  have hcbs : c ∉ bs := (List.nodup_cons.mp (List.nodup_append.mp hnd).2.1).1
  have hsame : ∀ m : List Nat, (∀ x ∈ m, x ∈ as ++ c :: bs ∧ x ≠ c) →
      m.filter (fun x => decide (v.readFatEntry d' x = 0)) = m.filter fun x => decide (v.readFatEntry d x = 0) := by
    intro m hm
    refine List.filter_congr fun x hx => ?_
    obtain ⟨hx, hne⟩ := hm x hx
    rw [ht.fat x ((mem_clusters hv).mp (hR ▸ hx)).2, if_neg hne]
  have has : as.filter (fun x => decide (v.readFatEntry d x = 0)) = [] := List.filter_eq_nil_iff.mpr fun x hx => by
    simpa using hno x hx
  have hc' : ¬ decide (v.readFatEntry d' c = 0) = true := by
    rw [ht.fat c ht.upper, if_pos rfl]
    decide
  unfold freeClusters
  rw [hR, List.filter_append, List.filter_append, List.filter_cons_of_pos (p := fun x => decide (v.readFatEntry d x = 0)) hc,
    List.filter_cons_of_neg (p := fun x => decide (v.readFatEntry d' x = 0)) hc', has,
    hsame as fun x hx => ⟨List.mem_append_left _ hx, ne_of_mem_of_not_mem hx hcas⟩,
    hsame bs fun x hx => ⟨List.mem_append_right _ (List.mem_cons_of_mem _ hx), ne_of_mem_of_not_mem hx hcbs⟩, has]
  rfl

/-- Hanging a cluster behind one that is taken frees none. -/
theorem freeClusters_link {z : Nat} (hv : v.WellFormed) (hz : z < v.total) (h0 : v.readFatEntry d z ≠ 0) (hc : 0 < c) (hlt : c < v.total) :
    freeClusters v (v.writeFatEntry d z c) = freeClusters v d :=
  freeClusters_congr hv fun x _ hx => by
    rw [readFatEntry_writeFatEntry hx]
    split
    · next he =>
      subst he
      have := hv.total
      have hmod : c % (fatMask + 1) = c := Nat.mod_eq_of_lt (hlt.trans_le (this.trans (by decide)))
      rw [hmod]
      exact iff_of_false (Nat.ne_of_gt hc) h0
    · rfl

namespace Taken

/-- Chains stay, and do not hold the new cluster. -/
theorem not_mem (h : Taken v d c d') (hl : FatChain v d x l) : c ∉ l := fun hc => hl.allocated hc h.free

theorem chain (h : Taken v d c d') (hl : FatChain v d x l) : FatChain v d' x l :=
  hl.congr fun y hy => by rw [h.fat y (hl.range y hy).2, if_neg (ne_of_mem_of_not_mem hy (h.not_mem hl))]

theorem alone (h : Taken v d c d') (hv : v.WellFormed) : FatChain v d' c [c] := by
  have hlt := h.upper
  have := hv.total
  refine ⟨.cons (by omega) (.nil ?_), fun y hy => ?_⟩
  · show fatEoc ≤ v.readFatEntry d' c
    rw [h.fat c hlt, if_pos rfl]
  · rw [List.mem_singleton.mp hy]
    exact ⟨h.lower, hlt⟩

end Taken

/-! ## Linking a cluster -/

/-- The cluster `c`, a chain of its own, is hung at the end of a chain. -/
theorem FatChain.link {z : Nat} (h : FatChain v d x (l ++ [z])) (hv : v.WellFormed) (hc : c ∉ l ++ [z])
    (ha : FatChain v d c [c]) : FatChain v (v.writeFatEntry d z c) x (l ++ [z, c]) := by
  have hz := (h.range z (by simp)).2
  obtain ⟨h2, hlt⟩ := ha.range c (List.mem_singleton_self c)
  have htot := hv.total
  have hcz : c ≠ z := fun e => hc (by rw [e]; simp)
  refine ⟨h.chain.append (c := c) (fun y hy => ?_) ?_ (by omega) ?_, fun y hy => ?_⟩
  · have hyz : y ≠ z := by
      rintro rfl
      exact (List.nodup_append.mp h.chain.nodup).2.2 y hy y (List.mem_singleton_self y) rfl
    rw [readFatEntry_writeFatEntry (h.range y (List.mem_append_left _ hy)).2, if_neg hyz]
  · rw [readFatEntry_writeFatEntry hz, if_pos rfl, Nat.mod_eq_of_lt]
    exact lt_of_lt_of_le hlt (htot.trans (by decide))
  · rw [readFatEntry_writeFatEntry hlt, if_neg hcz]
    exact ha.chain.stop_last (l := [])
  · rcases List.mem_append.mp hy with hy | hy
    · exact h.range y (List.mem_append_left _ hy)
    · rcases List.mem_cons.mp hy with rfl | hy
      · exact h.range y (by simp)
      · rw [List.mem_singleton.mp hy]
        exact ⟨h2, hlt⟩

/-! ## Freeing -/

theorem freeChain_eq (h : FatChain v d c l) (hv : v.WellFormed) (hn : l.length < n) : ∃ d', v.freeChain n d c = some d' ∧
    (∀ x, x < v.total → v.readFatEntry d' x = if x ∈ l then 0 else v.readFatEntry d x) ∧
      ∀ x, v.readCluster d' x = v.readCluster d x := by
  induction n generalizing c d l with
  | zero => exact absurd hn (Nat.not_lt_zero _)
  | succ n ih =>
    rw [freeChain]
    cases l with
    | nil =>
      rw [if_neg (by rw [h.not_inData]; exact Bool.false_ne_true)]
      exact ⟨d, rfl, fun x _ => by simp, fun x => rfl⟩
    | cons y l =>
      obtain ⟨rfl, ht⟩ := h.cons
      have hlt := (h.range y (List.mem_cons_self ..)).2
      have hy : y ∉ l := (List.nodup_cons.mp h.chain.nodup).1
      have hfat : ∀ x, x < v.total → v.readFatEntry (v.writeFatEntry d y 0) x = if x = y then 0 else v.readFatEntry d x :=
        fun x hx => readFatEntry_writeFatEntry hx
      have ht' : FatChain v (v.writeFatEntry d y 0) (v.readFatEntry d y) l := ht.congr fun x hx => by
        rw [hfat x (ht.range x hx).2, if_neg (ne_of_mem_of_not_mem hx hy)]
      obtain ⟨d', hd, hf, hr⟩ := ih ht' (Nat.lt_of_succ_lt_succ hn)
      rw [if_pos (h.inData hv (List.mem_cons_self ..))]
      refine ⟨d', hd, fun x hx => ?_, fun x => ?_⟩
      · rw [hf x hx, hfat x hx]
        by_cases hxl : x ∈ l
        · rw [if_pos hxl, if_pos (List.mem_cons_of_mem _ hxl)]
        · rw [if_neg hxl]
          by_cases hxy : x = y
          · rw [if_pos hxy, if_pos (hxy ▸ List.mem_cons_self ..)]
          · rw [if_neg hxy, if_neg fun h => (List.mem_cons.mp h).elim hxy hxl]
      · rw [hr, readCluster_writeFatEntry hv hlt]

end Myos.Fat
