/-
  Myos.Fat.Operations — what the operations on inodes do to a sound volume.

  Proved: `lookup`, `create`, `write_at` and `remove` end, what they change, and what they keep:
  the volume stays sound, and so does what the free clusters hold.
-/

import Myos.Fat.Objects

namespace Myos.Fat

open Lib Fat32Inner Fat32Inode

variable {v : Fat32Inner} {d d' d1 : Device} {objs : Objects} {b : Bool} {k n x y i j : Nat} {l l2 : List Nat} {raw : List UInt8}
  {name : Str} {isDir : Bool} {ino D : Fat32Inode}

namespace Sound

theorem taken (h : Sound v d objs) (ht : Taken v d n d') : Sound v d' objs := by
  have hlt := h.wf.root_lt
  have h2 := ht.lower
  refine h.same ?_ (fun k b l hk x hx => ?_) fun k l hk x i hs => ?_
  · rw [ht.fat 0 (by omega), if_neg (by omega)]
  · rw [ht.fat x ((h.chain k b l hk).range x hx).2, if_neg (ne_of_mem_of_not_mem hx (h.not_mem ht.free hk))]
  · rw [ht.data x ((h.chain k true l hk).range x hs.1).1 (ne_of_mem_of_not_mem hs.1 (h.not_mem ht.free hk))]
    exact .refl _ _

/-- A cluster that is no directory's was written. -/
theorem written (h : Sound v d objs) (hw : DataWritten v d l d') (hl : ∀ k l', objs k = some (true, l') → ∀ x ∈ l', x ∉ l) :
    Sound v d' objs := by
  have hlt := h.wf.root_lt
  refine h.same (hw.fat 0 (by omega)) (fun k b l hk x hx => hw.fat x ((h.chain k b l hk).range x hx).2) fun k l hk x i hs => ?_
  rw [hw.data x ((h.chain k true l hk).range x hs.1).1 (hl k l hk x hs.1)]
  exact .refl _ _

theorem sizeUpdated (h : Sound v d objs) {lr : List Nat} {c size : Nat} (hr : objs v.rootClus = some (true, lr))
    (hu : SizeUpdated v d lr c size d') : Sound v d' objs := by
  have hw := hu.written (h.chain _ _ _ hr) h.wf
  have hlt := h.wf.root_lt
  rcases hu with ⟨rfl, -⟩ | ⟨x, i, hs, -, rfl⟩
  · exact h
  · refine h.same (hw.fat 0 (by omega)) (fun k b l hk x hx => hw.fat x ((h.chain k b l hk).range x hx).2) fun k l hk y j hsj => ?_
    have hx2 := ((h.chain _ _ _ hr).range x hs.1).1
    by_cases hyx : y = x
    · subst hyx
      have hm := mem_slots.mp hs.2
      rw [readCluster_writeCluster_self ((readCluster_clipped v d y).copyAt (by rw [Buf.length_toLe32]; omega))]
      exact .size hs.2 hsj.2 size _
    · rw [readCluster_writeCluster_of_ne hx2 ((h.chain k true l hk).range y hsj.1).1 hyx]
      exact .refl _ _

end Sound

/-! ## `create` -/

/-- The device once the cluster of a new object is set up. -/
def newObject (v : Fat32Inner) (d : Device) (n parent : Nat) (isDir : Bool) : Device :=
  if isDir then v.writeCluster d n (dirInit n parent) else d

/-- An entry was put into an unused slot; for that the directory got the clusters `l2`. -/
def Added (v : Fat32Inner) (d : Device) (first : Nat) (l : List Nat) (raw : List UInt8) (d' : Device) (l2 : List Nat) (x i : Nat) : Prop :=
  (l2 = [] ∨ ∀ x i, SlotIn v l x i → unused (v.readCluster d x) i = false) ∧ ∃ d1, Extended v first d l d1 l2 ∧ l2.length ≤ 1 ∧
    SlotIn v (l ++ l2) x i ∧ unused (v.readCluster d1 x) i = true ∧ d' = v.writeCluster d1 x (Buf.copyAt (v.readCluster d1 x) i raw)

theorem newObject_written (hv : v.WellFormed) (h2 : 2 ≤ n) (parent : Nat) : DataWritten v d [n] (newObject v d n parent isDir) := by
  unfold newObject
  split
  · exact writeCluster_written hv (List.mem_singleton_self n) h2 _
  · exact ⟨fun _ _ => rfl, fun _ _ _ => rfl⟩

theorem newObject_self (hv : v.WellFormed) (ht : Taken v d n d1) (parent : Nat) :
    v.readCluster (newObject v d1 n parent isDir) n = if isDir then dirInit n parent else zeroBuf := by
  unfold newObject
  split
  · refine readCluster_writeCluster_self fun off ho => dirInit_of_ge ?_
    have := hv.secPerClus
    unfold clusBytes at ho
    omega
  · exact ht.zero

theorem Sound.newObject (h : Sound v d objs) (ht : Taken v d n d1) (parent : Nat) (isDir : Bool) :
    Sound v (newObject v d1 n parent isDir) (Function.update objs n (some (isDir, [n]))) := by
  have hw := @newObject_written v d1 n isDir h.wf ht.lower parent
  have h2 := (h.taken ht).written hw fun k l hk x hx hm => by
    rw [List.mem_singleton.mp hm] at hx
    exact h.not_mem ht.free hk hx
  refine h2.insert (h.free_none ht.free) (hw.chain (ht.alone h.wf)) (List.cons_ne_nil _ _) (fun k b l hk x hx hm => ?_) fun hb x i hs => ?_
  · rw [List.mem_singleton.mp hm] at hx
    exact h.not_mem ht.free hk hx
  · rw [List.mem_singleton.mp hs.1, newObject_self h.wf ht, if_pos hb]
    exact dirInit_live hs.2

/-- An unused slot is found, or a cluster is hung behind the directory, or there is none. -/
theorem addEntry_cases (hv : v.WellFormed) (hc : FatChain v d D.firstCluster l) (h0 : l ≠ []) :
    (∃ d' l2 x i, addEntry v d D raw = some (.ok (), d') ∧ Added v d D.firstCluster l raw d' l2 x i ∧
      freeClusters v d = l2 ++ freeClusters v d') ∨
      addEntry v d D raw = some (.error "no free clusters", d) ∧ (∀ x i, SlotIn v l x i → unused (v.readCluster d x) i = false) ∧
        ∀ c, 2 ≤ c → c < v.total → v.readFatEntry d c ≠ 0 := by
  obtain ⟨y, lt, rfl⟩ := List.exists_cons_of_ne_nil h0
  have h2 : D.firstCluster ≥ 2 := (hc.cons).1 ▸ (hc.range y (List.mem_cons_self ..)).1
  unfold addEntry
  rcases scanChain_cases unused hc hv with ⟨he, hno⟩ | ⟨x, i, he, hs, hu⟩
  · rw [he, Option.bind_some]
    cases ha : v.allocCluster d with
    | error e =>
      obtain rfl := allocCluster_error_eq ha
      exact Or.inr ⟨rfl, hno, allocCluster_error hv ha⟩
    | ok r =>
      obtain ⟨newc, d1⟩ := r
      have ht := allocCluster_ok hv ha
      obtain ⟨l0, z, hl⟩ := exists_concat h0
      rw [hl] at hc
      have hct := ht.chain hc
      have htail : v.chainTail d1 chainFuel D.firstCluster = some z :=
        chainTail_eq hct (by have := hct.length_lt hv; rw [List.length_append] at this; omega)
      have hE := Extended.one hc hv ht
      left
      dsimp only
      rw [if_pos h2, htail, Option.map_some, Option.map_some]
      have hz : v.readCluster (v.writeFatEntry d1 z newc) newc = zeroBuf := hE.zero newc (List.mem_singleton_self _)
      refine ⟨_, [newc], newc, 0, rfl, ⟨Or.inr hno, _, hl ▸ hE, Nat.le_refl 1, ⟨by simp, ?_⟩, ?_, by rw [hz]⟩, ?_⟩
      · rw [mem_slots]
        have := hv.secPerClus
        unfold clusBytes
        omega
      · rw [hz]
        exact zero_unused 0
      · have hlink : freeClusters v (v.writeFatEntry d1 z newc) = freeClusters v d1 :=
          freeClusters_link hv (hc.range z (by simp)).2 (hct.allocated (by simp)) (Nat.lt_of_lt_of_le (by decide) ht.lower) ht.upper
        rw [freeClusters_writeCluster hv, hlink, allocCluster_next hv ha]
        rfl
  · left
    rw [he]
    refine ⟨_, [], x, i, rfl, ⟨Or.inl rfl, d, .refl hc, Nat.zero_le 1, by rwa [List.append_nil], hu, rfl⟩, ?_⟩
    rw [freeClusters_writeCluster hv]
    rfl

namespace Added

variable {ln : List Nat}

/-- The directory with its new clusters, before the entry is written. -/
theorem sound_grown (h : Sound v d objs) (hD : objs D.firstCluster = some (true, l)) (hE : Extended v D.firstCluster d l d1 l2) :
    Sound v d1 (Function.update objs D.firstCluster (some (true, l ++ l2))) ∧
      ∀ y j, Entry v d1 (Function.update objs D.firstCluster (some (true, l ++ l2))) y j → Entry v d objs y j ∧
        v.readCluster d1 y = v.readCluster d y := by
  have hz : true = true → ∀ x i, SlotIn v l2 x i → live (v.readCluster d1 x) i = false := fun _ x i hs => by
    rw [hE.zero x hs.1]
    exact unused_not_live (zero_unused i)
  exact ⟨h.grow hD hE hz, fun y j he => h.of_grow hD hE hz he⟩

theorem sound (ha : Added v d D.firstCluster l (rawEntry raw n isDir) d' l2 x i) (h : Sound v d objs)
    (hD : objs D.firstCluster = some (true, l)) (hraw : raw.length = 11) (hn : objs n = some (isDir, ln)) (hnD : n ≠ D.firstCluster)
    (hr : n ≠ v.rootClus) (hno : ∀ y j, Entry v d objs y j → entCluster (v.readCluster d y) j ≠ n) :
    Sound v d' (Function.update objs D.firstCluster (some (true, l ++ l2))) := by
  obtain ⟨-, d1, hE, -, hs, -, rfl⟩ := ha
  obtain ⟨h1, hent⟩ := sound_grown h hD hE
  have hlt : n < 2 ^ 32 := (h.range hn).2.trans_le (h.wf.total.trans (by decide))
  refine h1.slot (Function.update_self ..) hs (length_rawEntry hraw).le rfl fun _ _ => ?_
  rw [rawEntry_cluster hraw hlt, rawEntry_isDir hraw]
  refine ⟨hr, ⟨ln, ?_⟩, fun y j he hc => ?_⟩
  · rw [Function.update_of_ne hnD]
    exact hn
  · obtain ⟨he, hq⟩ := hent y j he
    rw [hq] at hc
    exact absurd hc (hno y j he)

end Added

/-- Nothing happened, or the cluster of the new object was set up and it got an entry or not. -/
theorem create_cases (hv : v.WellFormed) (hdir : D.isDir = true) (hc : FatChain v d D.firstCluster l) (h0 : l ≠ []) (name : Str)
    (isDir : Bool) :
    (∃ e, D.create v d name isDir = some (.error e, d) ∧ (encodeShortName name = .error e ∨ ∀ c, 2 ≤ c → c < v.total → v.readFatEntry d c ≠ 0)) ∨
      ∃ raw n d1, encodeShortName name = .ok raw ∧ Taken v d n d1 ∧ freeClusters v d = n :: freeClusters v d1 ∧
        ((∃ d' l2 x i, D.create v d name isDir = some (.ok ⟨n, if isDir then v.clusBytes else 0, isDir⟩, d') ∧
          Added v (newObject v d1 n D.firstCluster isDir) D.firstCluster l (rawEntry raw n isDir) d' l2 x i ∧
            freeClusters v d1 = l2 ++ freeClusters v d') ∨
          D.create v d name isDir = some (.error "no free clusters", newObject v d1 n D.firstCluster isDir) ∧
            (∀ x i, SlotIn v l x i → unused (v.readCluster (newObject v d1 n D.firstCluster isDir) x) i = false) ∧
            ∀ c, 2 ≤ c → c < v.total → v.readFatEntry (newObject v d1 n D.firstCluster isDir) c ≠ 0) := by
  unfold Fat32Inode.create
  rw [hdir]
  cases henc : encodeShortName name with
  | error e => exact Or.inl ⟨e, rfl, Or.inl rfl⟩
  | ok raw =>
    cases ha : v.allocCluster d with
    | error e => exact Or.inl ⟨e, rfl, Or.inr (allocCluster_error hv ha)⟩
    | ok r =>
      obtain ⟨n, d1⟩ := r
      have ht := allocCluster_ok hv ha
      have hw := @newObject_written v d1 n isDir hv ht.lower D.firstCluster
      refine Or.inr ⟨raw, n, d1, rfl, ht, allocCluster_next hv ha, ?_⟩
      rcases @addEntry_cases v _ l (rawEntry raw n isDir) D hv (hw.chain (ht.chain hc)) h0 with ⟨d', l2, x, i, he, hA, hf⟩ | ⟨he, hno, hfull⟩
      · refine Or.inl ⟨d', l2, x, i, ?_, hA, ?_⟩
        · unfold newObject at he
          dsimp only
          rw [Bool.not_true, if_neg Bool.false_ne_true, he]
          rfl
        · rw [← hf, freeClusters_congr hv fun x _ hx => by rw [hw.fat x hx]]
      · refine Or.inr ⟨?_, hno, hfull⟩
        unfold newObject at he ⊢
        dsimp only
        rw [Bool.not_true, if_neg Bool.false_ne_true, he]
        rfl

end Myos.Fat
