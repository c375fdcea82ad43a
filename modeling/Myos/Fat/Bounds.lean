/-
  Myos.Fat.Bounds — the sectors that clusters and FAT entries lead to.

  The FAT may have more entries than the volume has data clusters, and nothing compares a cluster
  number with either count. `tot` is the number of sectors of the volume (`bpb_tot_sec32`, which
  `Fat32FS::new` does not read). Clusters are numbered from 2; no caller writes or reads one below.

  Proved: a cluster is read and written within the volume exactly if it is a data cluster, an entry
  is written within the FAT area exactly if it is below the entries of the FATs that have a copy
  behind them, and `alloc_cluster` stays within the volume exactly if a data cluster is free or
  no entry is.
-/

import Myos.Fat.ReadBack

namespace Myos.Fat

open Lib Fat32Inner

variable {v : Fat32Inner} {d d' : Device} {c c' x s tot : Nat} {buf : Buf}

/-- The sectors of the cluster are sectors of the volume. -/
def DataCluster (v : Fat32Inner) (tot c : Nat) : Prop := v.clusterToSector c + v.secPerClus ≤ tot

instance (v : Fat32Inner) (tot c : Nat) : Decidable (DataCluster v tot c) := Nat.decLe _ _

/-- What a cluster reads is in the sectors of the volume. -/
def ReadsInside (v : Fat32Inner) (tot c : Nat) : Prop :=
  ∀ d d' : Device, (∀ s < tot, readSector d' s = readSector d s) → v.readCluster d' c = v.readCluster d c

/-- Writing a cluster changes sectors of the volume only. -/
def WritesInside (v : Fat32Inner) (tot c : Nat) (buf : Buf) : Prop :=
  ∀ d s, readSector (v.writeCluster d c buf) s ≠ readSector d s → s < tot

/-- Writing an entry changes sectors of the FAT area only. -/
def FatWritesInside (v : Fat32Inner) (c val : Nat) : Prop :=
  ∀ d s, readSector (v.writeFatEntry d c val) s ≠ readSector d s → v.fatStart ≤ s ∧ s < v.dataStart

/-- A cluster that is handed out is one of the volume, and so is every sector written for it. -/
def AllocInside (v : Fat32Inner) (tot : Nat) (d : Device) : Prop := ∀ c d', v.allocCluster d = .ok (c, d') →
  DataCluster v tot c ∧ ∀ s, readSector d' s ≠ readSector d s → s < tot

/-- The number of the last sector, from the start of the FATs, that writing the entry goes to. -/
def lastCopy (v : Fat32Inner) (c : Nat) : Nat := c * 4 / 512 + if v.numFats > 1 then v.fatSz32 else 0

theorem DataCluster.mono (h : DataCluster v tot c) (hle : c' ≤ c) : DataCluster v tot c' := by
  have hmul : (c' - 2) * v.secPerClus ≤ (c - 2) * v.secPerClus := Nat.mul_le_mul_right _ (by omega)
  unfold DataCluster clusterToSector at *
  omega

/-! ## Clusters -/

theorem writeCluster_changed (h : readSector (v.writeCluster d c buf) s ≠ readSector d s) :
    v.clusterToSector c ≤ s ∧ s < v.clusterToSector c + v.secPerClus := by
  by_contra hn
  rw [writeCluster, readSector_writeSectors, if_neg hn] at h
  exact h rfl

theorem readsInside_iff (hv : v.WellFormed) : ReadsInside v tot c ↔ DataCluster v tot c := by
  have hspc := hv.secPerClus
  constructor
  · intro h
    by_contra hd
    unfold DataCluster at hd
    -- the last sector of the cluster, once with zeros and once with ones
    let last := v.clusterToSector c + (v.secPerClus - 1)
    have he := h (fun _ => zeroBuf) (Function.update (fun _ => zeroBuf) last fun _ => 1) fun s hs => ?_
    · have hb := congrFun he ((v.secPerClus - 1) * 512)
      unfold readCluster clusBytes at hb
      rw [if_pos (by omega), if_pos (by omega), Nat.mul_div_cancel _ (by decide)] at hb
      simp only [readSector, last, Function.update_self, zeroBuf] at hb
      exact absurd hb (by decide)
    · refine Function.update_of_ne ?_ ..
      simp only [last]
      omega
  · intro h d d' he
    funext off
    unfold readCluster
    split
    · next ho =>
      unfold clusBytes at ho
      unfold DataCluster at h
      rw [he _ (by omega)]
    · rfl

theorem writesInside_iff (hv : v.WellFormed) : WritesInside v tot c buf ↔ DataCluster v tot c := by
  have hspc := hv.secPerClus
  constructor
  · intro h
    -- the last sector of the cluster, which held other bytes
    have hlt := h (fun _ _ => buf ((v.secPerClus - 1) * 512) + 1) (v.clusterToSector c + (v.secPerClus - 1)) fun he => ?_
    · unfold DataCluster
      omega
    · have hb := congrFun he 0
      rw [writeCluster, readSector_writeSectors, if_pos (by omega), Nat.add_sub_cancel_left, Nat.add_zero] at hb
      simp only [readSector] at hb
      exact absurd hb.symm (by simp)
  · intro h d s hs
    have := (writeCluster_changed hs).2
    unfold DataCluster at h
    omega

/-! ## Entries -/

theorem writeFatEntry_changed (h : readSector (v.writeFatEntry d c x) s ≠ readSector d s) :
    s = v.fatStart + c * 4 / 512 ∨ s = v.fatStart + c * 4 / 512 + v.fatSz32 ∧ v.numFats > 1 := by
  by_contra hn
  push Not at hn
  refine h ?_
  unfold writeFatEntry
  dsimp only
  split
  · next h1 => rw [writeSector_of_ne fun e => absurd h1 (Nat.not_lt.mpr (hn.2 e)), writeSector_of_ne hn.1]
  · rw [writeSector_of_ne hn.1]

/-- The last sector that is written holds the entry. -/
theorem writeFatEntry_last : readSector (v.writeFatEntry d c x) (v.fatStart + lastCopy v c) =
    Buf.copyAt (readSector d (v.fatStart + c * 4 / 512)) (c * 4 % 512) (Buf.toLe32 (x % (fatMask + 1))) := by
  unfold writeFatEntry lastCopy
  dsimp only
  split
  · rw [← Nat.add_assoc]
    exact writeSector_self ..
  · exact writeSector_self ..

theorem fatWritesInside_iff (hv : v.WellFormed) : FatWritesInside v c x ↔ lastCopy v c < v.numFats * v.fatSz32 := by
  have hds := hv.dataStart
  constructor
  · intro h
    have hlen : (Buf.toLe32 (x % (fatMask + 1))).length = 4 := Buf.length_toLe32 _
    -- a device with another byte where the entry begins
    let b := (Buf.toLe32 (x % (fatMask + 1)))[0]
    have hlt := (h (fun _ _ => b + 1) (v.fatStart + lastCopy v c) fun he => ?_).2
    · omega
    · rw [writeFatEntry_last] at he
      have hb := congrFun he (c * 4 % 512 + 0)
      rw [Buf.copyAt_add (by omega)] at hb
      exact absurd hb.symm (by simp [readSector, b])
  · intro h d s hs
    unfold lastCopy at h
    rcases writeFatEntry_changed hs with rfl | ⟨rfl, h1⟩
    · split at h <;> omega
    · rw [if_pos h1] at h
      omega

/-! ## Allocation -/

theorem allocCluster_device (h : v.allocCluster d = .ok (c, d')) : d' = v.writeCluster (v.writeFatEntry d c fatEoc) c zeroBuf := by
  unfold allocCluster at h
  split at h <;> cases h
  rfl

theorem allocCluster_changed (hv : v.WellFormed) (h : v.allocCluster d = .ok (c, d')) (hs : readSector d' s ≠ readSector d s) :
    v.fatStart ≤ s ∧ s < v.dataStart ∨ v.clusterToSector c ≤ s ∧ s < v.clusterToSector c + v.secPerClus := by
  have ht := allocCluster_ok hv h
  have hd := allocCluster_device h
  by_cases hc : readSector d' s ≠ readSector (v.writeFatEntry d c fatEoc) s
  · rw [hd] at hc
    exact Or.inr (writeCluster_changed hc)
  · rw [not_not] at hc
    rw [hc] at hs
    refine Or.inl ((fatWritesInside_iff hv).mpr ?_ d s hs)
    -- both copies of an entry of the FAT are in the area
    have hlt := fatSector_lt ht.upper
    have h0 := hv.numFats
    unfold lastCopy
    split
    · next h1 =>
      have : 2 * v.fatSz32 ≤ v.numFats * v.fatSz32 := Nat.mul_le_mul_right _ h1
      omega
    · have : 1 * v.fatSz32 ≤ v.numFats * v.fatSz32 := Nat.mul_le_mul_right _ h0
      omega

theorem allocInside_iff (hv : v.WellFormed) (hd : v.dataStart ≤ tot) : AllocInside v tot d ↔
    ((∃ c, 2 ≤ c ∧ c < v.total ∧ v.readFatEntry d c = 0) → ∃ c, 2 ≤ c ∧ c < v.total ∧ v.readFatEntry d c = 0 ∧ DataCluster v tot c) := by
  constructor
  · intro h ⟨c, h2, hlt, hf⟩
    cases ha : v.allocCluster d with
    | error e => exact absurd hf (allocCluster_error hv ha c h2 hlt)
    | ok r =>
      have ht : Taken v d r.1 r.2 := allocCluster_ok hv ha
      exact ⟨r.1, ht.lower, ht.upper, ht.free, (h r.1 r.2 ha).1⟩
  · intro h c d' ha
    have ht := allocCluster_ok hv ha
    obtain ⟨c', h2, hlt, hf, hin⟩ := h ⟨c, ht.lower, ht.upper, ht.free⟩
    -- the first free entry is handed out
    have hle : c ≤ c' := by
      by_contra hgt
      obtain ⟨-, as, bs, hR, hno⟩ := List.find?_eq_some_iff_append.mp (allocCluster_find ha)
      have hmem : c' ∈ as ++ c :: bs := hR ▸ (mem_clusters hv).mpr ⟨h2, hlt⟩
      have hsorted : (as ++ c :: bs).Pairwise (· < ·) := hR ▸ List.pairwise_lt_range' ..
      rcases List.mem_append.mp hmem with hm | hm
      · simpa [hf] using hno c' hm
      · rcases List.mem_cons.mp hm with rfl | hm
        · exact hgt (Nat.le_refl _)
        · have := (List.pairwise_cons.mp (List.pairwise_append.mp hsorted).2.1).1 c' hm
          omega
    have hc := hin.mono hle
    refine ⟨hc, fun s hs => ?_⟩
    unfold DataCluster at hc
    rcases allocCluster_changed hv ha hs with ⟨-, hlt⟩ | ⟨-, hlt⟩ <;> omega

end Myos.Fat
