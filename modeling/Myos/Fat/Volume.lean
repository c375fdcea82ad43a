/-
  Myos.Fat.Volume — the device under a FAT32 volume (fat32.rs): the boot sector, FAT entries
  and clusters.

  The device is its sectors by number; reading and writing one does not fail.

  Proved: on a volume whose boot sector is consistent, what every FAT entry and every cluster
  reads after a FAT entry or a cluster was written.
-/

import Myos.Lib.Bytes

namespace Myos.Fat

open Lib

abbrev Device := Nat → Buf

def readSector (d : Device) (sector : Nat) : Buf := d sector

def writeSector (d : Device) (sector : Nat) (buf : Buf) : Device := Function.update d sector buf

def fatEoc : Nat := 0x0FFFFFF8
def fatMask : Nat := 0x0FFFFFFF

structure Fat32Inner where
  secPerClus : Nat
  numFats : Nat
  fatSz32 : Nat
  rootClus : Nat
  fatStart : Nat
  dataStart : Nat
  deriving DecidableEq, Repr

/-- `Fat32FS::new`. -/
def Fat32Inner.new (d : Device) : Except String Fat32Inner :=
  let sector0 := readSector d 0
  let bps := Buf.getLe16 sector0 11
  let spc := (sector0 13).toNat
  let rsvd := Buf.getLe16 sector0 14
  let nfats := (sector0 16).toNat
  let hidd := Buf.getLe32 sector0 28
  let fatsz := Buf.getLe32 sector0 36
  let rootc := Buf.getLe32 sector0 44
  if bps ≠ 512 then .error "bad bytes per sector"
  else if spc = 0 ∨ spc &&& (spc - 1) ≠ 0 then .error "bad sec per clus"
  else if rootc < 2 then .error "bad root cluster"
  else .ok {
    secPerClus := spc
    numFats := nfats
    fatSz32 := fatsz
    rootClus := rootc
    fatStart := rsvd + hidd
    dataStart := rsvd + hidd + nfats * fatsz }

namespace Fat32Inner

variable (v : Fat32Inner)

def clusBytes : Nat := v.secPerClus * 512

def clusterToSector (cluster : Nat) : Nat := v.dataStart + (cluster - 2) * v.secPerClus

def readFatEntry (d : Device) (cluster : Nat) : Nat :=
  let off := cluster * 4
  Buf.getLe32 (readSector d (v.fatStart + off / 512)) (off % 512) % (fatMask + 1)

def writeFatEntry (d : Device) (cluster val : Nat) : Device :=
  let off := cluster * 4
  let sector := v.fatStart + off / 512
  let buf := Buf.copyAt (readSector d sector) (off % 512) (Buf.toLe32 (val % (fatMask + 1)))
  let d := writeSector d sector buf
  if v.numFats > 1 then writeSector d (sector + v.fatSz32) buf else d

/-- The sectors of the cluster, one after the other. -/
def readCluster (d : Device) (cluster : Nat) : Buf := fun off =>
  if off < v.clusBytes then readSector d (v.clusterToSector cluster + off / 512) (off % 512) else 0

def writeSectors (d : Device) (s : Nat) (buf : Buf) : Nat → Device
  | 0 => d
  | n + 1 => writeSector (writeSectors d s buf n) (s + n) fun off => buf (n * 512 + off)

def writeCluster (d : Device) (cluster : Nat) (buf : Buf) : Device :=
  writeSectors d (v.clusterToSector cluster) buf v.secPerClus

/-- The entries of a FAT. -/
def total : Nat := v.fatSz32 * 512 / 4

/-- A boot sector as formatters write it: clusters have sectors, there is a FAT, its entries
    are cluster numbers, the data follows the FATs and the root is a cluster. -/
structure WellFormed : Prop where
  secPerClus : 0 < v.secPerClus
  numFats : 0 < v.numFats
  total : v.total ≤ fatEoc
  root : 2 ≤ v.rootClus
  root_lt : v.rootClus < v.total
  dataStart : v.dataStart = v.fatStart + v.numFats * v.fatSz32

variable {v} {d : Device} {c c' x : Nat} {buf : Buf}

/-! ## FAT entries -/

theorem fatSector_lt (hc : c < v.total) : c * 4 / 512 < v.fatSz32 := by
  unfold Fat32Inner.total at hc
  omega

theorem WellFormed.fats_le (h : v.WellFormed) : v.fatStart + v.fatSz32 ≤ v.dataStart ∧
    (1 < v.numFats → v.fatStart + 2 * v.fatSz32 ≤ v.dataStart) := by
  have h0 := h.numFats
  rw [h.dataStart]
  refine ⟨Nat.add_le_add_left (Nat.le_mul_of_pos_left _ h0) _, fun h1 => ?_⟩
  exact Nat.add_le_add_left (Nat.mul_le_mul_right _ h1) _

theorem writeSector_self (d : Device) (s : Nat) (b : Buf) : readSector (writeSector d s b) s = b := Function.update_self ..

theorem writeSector_of_ne {s t : Nat} (h : t ≠ s) (d : Device) (b : Buf) : readSector (writeSector d s b) t = readSector d t :=
  Function.update_of_ne h ..

/-- The sectors outside the FATs stay. -/
theorem writeFatEntry_data (h : v.WellFormed) (hc : c < v.total) {s : Nat} (hs : v.dataStart ≤ s) :
    readSector (v.writeFatEntry d c x) s = readSector d s := by
  have hlt := fatSector_lt hc
  obtain ⟨h1, h2⟩ := h.fats_le
  unfold writeFatEntry
  dsimp only
  split
  · next hn =>
    have := h2 hn
    rw [writeSector_of_ne (by omega), writeSector_of_ne (by omega)]
  · rw [writeSector_of_ne (by omega)]

/-- A sector that is not that of the second copy changes if it is the sector of the entry. -/
theorem readSector_writeFatEntry {s : Nat} (hs : s = v.fatStart + c * 4 / 512 + v.fatSz32 → v.fatSz32 = 0) :
    readSector (v.writeFatEntry d c x) s = if s = v.fatStart + c * 4 / 512 then
      Buf.copyAt (readSector d s) (c * 4 % 512) (Buf.toLe32 (x % (fatMask + 1))) else readSector d s := by
  have hfirst : readSector (v.writeFatEntry d c x) s = readSector (writeSector d (v.fatStart + c * 4 / 512)
      (Buf.copyAt (readSector d (v.fatStart + c * 4 / 512)) (c * 4 % 512) (Buf.toLe32 (x % (fatMask + 1))))) s := by
    unfold writeFatEntry
    dsimp only
    split
    · by_cases he : s = v.fatStart + c * 4 / 512 + v.fatSz32
      · -- both copies are one sector
        have h0 : v.fatStart + c * 4 / 512 + v.fatSz32 = v.fatStart + c * 4 / 512 := by rw [hs he, Nat.add_zero]
        rw [he, h0, writeSector_self, writeSector_self]
      · rw [writeSector_of_ne he]
    · rfl
  rw [hfirst]
  split
  · next he => rw [he, writeSector_self]
  · next he => rw [writeSector_of_ne he]

theorem readFatEntry_writeFatEntry_of (hs : v.fatStart + c' * 4 / 512 = v.fatStart + c * 4 / 512 + v.fatSz32 → v.fatSz32 = 0) :
    v.readFatEntry (v.writeFatEntry d c x) c' = if c' = c then x % (fatMask + 1) else v.readFatEntry d c' := by
  unfold readFatEntry
  dsimp only
  rw [readSector_writeFatEntry hs]
  by_cases hs : c' * 4 / 512 = c * 4 / 512
  · rw [if_pos (by rw [hs])]
    split
    · next he =>
      subst he
      rw [Buf.getLe32_copyAt]
      have : x % (fatMask + 1) < 2 ^ 32 := (Nat.mod_lt _ (Nat.succ_pos _)).trans (by decide)
      rw [Nat.mod_eq_of_lt this, Nat.mod_mod]
    · next hne =>
      -- two entries of one sector do not share a byte
      congr 1
      refine Buf.getLe32_congr fun k hk => ?_
      rcases Nat.lt_or_gt_of_ne hne with hlt | hgt
      · rw [Buf.copyAt_of_lt (by omega)]
      · rw [Buf.copyAt_of_ge (by rw [Buf.length_toLe32]; omega)]
  · rw [if_neg (by omega), if_neg fun e => hs (by rw [e])]

theorem readFatEntry_writeFatEntry (hc' : c' < v.total) :
    v.readFatEntry (v.writeFatEntry d c x) c' = if c' = c then x % (fatMask + 1) else v.readFatEntry d c' := by
  have hlt := fatSector_lt hc'
  exact readFatEntry_writeFatEntry_of (by omega)

theorem readFatEntry_lt (v : Fat32Inner) (d : Device) (c : Nat) : v.readFatEntry d c < fatMask + 1 := Nat.mod_lt _ (Nat.succ_pos _)

theorem readCluster_writeFatEntry (h : v.WellFormed) (hc : c < v.total) :
    v.readCluster (v.writeFatEntry d c x) c' = v.readCluster d c' := by
  funext off
  unfold readCluster
  rw [writeFatEntry_data h hc]
  unfold clusterToSector
  omega

/-! ## Clusters -/

theorem readSector_writeSectors (d : Device) (s t : Nat) (buf : Buf) (n : Nat) :
    readSector (writeSectors d s buf n) t = if s ≤ t ∧ t < s + n then fun off => buf ((t - s) * 512 + off) else readSector d t := by
  induction n with
  | zero => rw [if_neg (by omega)]; rfl
  | succ n ih =>
    rw [writeSectors]
    by_cases ht : t = s + n
    · subst ht
      rw [writeSector_self, if_pos (by omega), Nat.add_sub_cancel_left]
    · rw [writeSector_of_ne ht, ih]
      by_cases h : s ≤ t ∧ t < s + n
      · rw [if_pos h, if_pos (by omega)]
      · rw [if_neg h, if_neg (by omega)]

theorem readFatEntry_writeCluster (h : v.WellFormed) (hc' : c' < v.total) :
    v.readFatEntry (v.writeCluster d c buf) c' = v.readFatEntry d c' := by
  have hlt := fatSector_lt hc'
  obtain ⟨h1, -⟩ := h.fats_le
  unfold readFatEntry writeCluster
  dsimp only
  rw [readSector_writeSectors, if_neg]
  unfold clusterToSector
  omega

/-- What a cluster read holds past its bytes. -/
def Clipped (v : Fat32Inner) (buf : Buf) : Prop := ∀ off, v.clusBytes ≤ off → buf off = 0

theorem readCluster_clipped (v : Fat32Inner) (d : Device) (c : Nat) : v.Clipped (v.readCluster d c) := fun _ h => if_neg (Nat.not_lt.mpr h)

theorem Clipped.copyAt (h : v.Clipped buf) {i : Nat} {src : List UInt8} (hi : i + src.length ≤ v.clusBytes) :
    v.Clipped (Buf.copyAt buf i src) := fun off ho => by
  rw [Buf.copyAt_of_ge (hi.trans ho)]
  exact h off ho

/-- Two clusters do not share a sector. -/
theorem clusterToSector_apart (hc : 2 ≤ c) (hc' : 2 ≤ c') (hne : c' ≠ c) {i j : Nat} (hi : i < v.secPerClus) (hj : j < v.secPerClus) :
    v.clusterToSector c' + i ≠ v.clusterToSector c + j := by
  have key : ∀ a b : Nat, a < b → (a - 2) * v.secPerClus + v.secPerClus ≤ (b - 2) * v.secPerClus ∨ a < 2 := by
    intro a b hab
    rcases Nat.lt_or_ge a 2 with h | h
    · exact Or.inr h
    · left
      calc (a - 2) * v.secPerClus + v.secPerClus = (a - 2 + 1) * v.secPerClus := (Nat.succ_mul ..).symm
        _ ≤ (b - 2) * v.secPerClus := Nat.mul_le_mul_right _ (by omega)
  unfold clusterToSector
  rcases Nat.lt_or_gt_of_ne hne with h | h
  · have := key c' c h
    omega
  · have := key c c' h
    omega

theorem readCluster_writeCluster_self (hb : v.Clipped buf) : v.readCluster (v.writeCluster d c buf) c = buf := by
  funext off
  unfold readCluster
  by_cases ho : off < v.clusBytes
  · have hdiv : off / 512 < v.secPerClus := by
      unfold clusBytes at ho
      omega
    rw [if_pos ho, writeCluster, readSector_writeSectors, if_pos (by omega), Nat.add_sub_cancel_left]
    congr 1
    omega
  · rw [if_neg ho, hb off (Nat.not_lt.mp ho)]

theorem readCluster_writeCluster_of_ne (hc : 2 ≤ c) (hc' : 2 ≤ c') (hne : c' ≠ c) :
    v.readCluster (v.writeCluster d c buf) c' = v.readCluster d c' := by
  funext off
  unfold readCluster
  split
  · next ho =>
    have hdiv : off / 512 < v.secPerClus := by
      unfold clusBytes at ho
      omega
    rw [writeCluster, readSector_writeSectors, if_neg fun hw => ?_]
    refine clusterToSector_apart hc hc' hne hdiv (j := v.clusterToSector c' + off / 512 - v.clusterToSector c) ?_ ?_
    · omega
    · omega
  · rfl

end Fat32Inner

end Myos.Fat
