/-
  Myos.Fat.ReadBack — a write through an inode and the reads after it.

  Proved: after any writes, a write that returns is read back and changes no other byte exactly
  if the chain it leaves holds its last byte. The chain is made as long as the growth of the
  file needs, not the file, so a file that grows by less than it has may end up too short.
-/

import Myos.Fat.Files

namespace Myos.Fat

open Lib Fat32Inner Fat32Inode

variable {v : Fat32Inner} {d d' : Device} {l lr : List Nat} {ino ino' : Fat32Inode} {off n : Nat} {buf : List UInt8}

/-- A file of a sound volume with the chain `l`, which is empty if it has no first cluster. -/
structure IsFile (v : Fat32Inner) (d : Device) (ino : Fat32Inode) (l lr : List Nat) : Prop where
  wf : v.WellFormed
  root : FatChain v d v.rootClus lr
  file : FileAt v d ino.firstCluster l lr ∨ ino.firstCluster < 2 ∧ l = [] ∧ ino.size = 0

/-- One write after the other, whatever they return. -/
def writeAll (v : Fat32Inner) : List (Nat × List UInt8) → Device → Fat32Inode → Option (Device × Fat32Inode)
  | [], d, ino => some (d, ino)
  | (off, buf) :: ws, d, ino => (ino.writeAt v d off buf).bind fun (_, d, ino) => writeAll v ws d ino

theorem IsFile.writeAt_empty (h : ino.firstCluster < 2) (h0 : ino.size = 0) (d : Device) (off : Nat) (buf : List UInt8) :
    ino.writeAt v d off buf = some (if buf.isEmpty then .ok 0 else .error "empty file, not supported yet", d, ino) := by
  unfold Fat32Inode.writeAt
  by_cases hb : buf.isEmpty = true
  · rw [if_pos hb, if_pos hb]
  · have hlen : 0 < buf.length := List.length_pos_of_ne_nil fun e => hb (List.isEmpty_iff.mpr e)
    rw [if_neg hb, if_neg hb]
    dsimp only
    rw [if_pos (by omega), if_pos h, Option.bind_some]

theorem Written.keep (h : FileAt v d ino.firstCluster l lr) {l2 : List Nat} (hw : Written v d ino off buf l lr d' l2) :
    FileAt v d' ino.firstCluster (l ++ l2) lr := by
  obtain ⟨d1, d2, hE, hW, -, hU⟩ := hw.steps
  have h2 := (h.extended hE).keep hW
  exact h2.keep (hU.written h2.root h.wf)

theorem IsFile.writeAt (h : IsFile v d ino l lr) {r : Except String Nat} (hw : ino.writeAt v d off buf = some (r, d', ino')) :
    ∃ l', IsFile v d' ino' l' lr := by
  by_cases hb : buf = []
  · subst hb
    cases hw
    exact ⟨l, h⟩
  rcases h.file with hF | ⟨h2, rfl, h0⟩
  · rcases hF.writeAt off hb with ⟨d1, l2, he, hW, -⟩ | ⟨d1, l2, he, hE, -⟩
    · cases he.symm.trans hw
      have hk := hW.keep hF
      exact ⟨l ++ l2, hk.wf, hk.root, Or.inl hk⟩
    · cases he.symm.trans hw
      have hk := hF.extended hE
      exact ⟨l ++ l2, hk.wf, hk.root, Or.inl hk⟩
  · rw [IsFile.writeAt_empty h2 h0] at hw
    cases hw
    exact ⟨[], h.wf, h.root, Or.inr ⟨h2, rfl, h0⟩⟩

theorem IsFile.writeAll (h : IsFile v d ino l lr) {ws : List (Nat × List UInt8)} (hw : writeAll v ws d ino = some (d', ino')) :
    ∃ l', IsFile v d' ino' l' lr := by
  induction ws generalizing d ino l with
  | nil =>
    cases hw
    exact ⟨l, h⟩
  | cons w ws ih =>
    obtain ⟨⟨r, d1, ino1⟩, h1, h2⟩ := Option.bind_eq_some_iff.mp hw
    obtain ⟨l1, hl1⟩ := h.writeAt h1
    exact ih hl1 h2

/-- What `write_at` is for: everything is written and read back, the other bytes stay, and the
    size grows to the end of the write. -/
structure Law (v : Fat32Inner) (d : Device) (ino : Fat32Inode) (off : Nat) (buf : List UInt8) (n : Nat) (d' : Device)
    (ino' : Fat32Inode) : Prop where
  count : n = buf.length
  readBack : ino'.readAt v d' off n = buf
  others : ∀ off' len k b, (ino.readAt v d off' len)[k]? = some b → ¬ (off ≤ off' + k ∧ off' + k < off + n) →
    (ino'.readAt v d' off' len)[k]? = some b
  size : ino'.size = max ino.size (off + n)

theorem getElem?_fileBytes {m k : Nat} : (fileBytes v d l off m)[k]? = if k < m then some (fileByte v d l (off + k)) else none := by
  rw [fileBytes, List.getElem?_map]
  split
  · next h => rw [List.getElem?_range h]; rfl
  · next h => rw [List.getElem?_eq_none (by rw [List.length_range]; omega)]; rfl

/-- The bytes of the chain after a write that fits. -/
theorem Written.bytes (h : FileAt v d ino.firstCluster l lr) {l2 : List Nat} (hw : Written v d ino off buf l lr d' l2)
    (hfit : off + buf.length ≤ (l ++ l2).length * v.clusBytes) {p : Nat} (hp : p < (l ++ l2).length * v.clusBytes) :
    fileByte v d' (l ++ l2) p = if off ≤ p ∧ p < off + buf.length then buf.getD (p - off) 0
      else if p < l.length * v.clusBytes then fileByte v d l p else 0 := by
  obtain ⟨d1, d2, hE, hW, hbytes, hU⟩ := hw.steps
  have hcb := WellFormed.clusBytes_pos h.wf
  have hpj : p / v.clusBytes < (l ++ l2).length := (Nat.div_lt_iff_lt_mul hcb).mpr hp
  have h1 := h.extended hE
  have hmem := List.getElem_mem hpj
  have hd' : fileByte v d' (l ++ l2) p = fileByte v d2 (l ++ l2) p := by
    rw [fileByte, fileByte, List.getD_eq_getElem _ _ hpj]
    rw [(hU.written (h1.keep hW).root h.wf).data _ (h1.chain.range _ hmem).1 (h1.apart _ hmem)]
  rw [hd', hbytes hfit p hp]
  refine if_congr Iff.rfl rfl ?_
  rw [fileByte, List.getD_eq_getElem _ _ hpj]
  split
  · next hl =>
    have hj : p / v.clusBytes < l.length := (Nat.div_lt_iff_lt_mul hcb).mpr hl
    rw [fileByte, List.getD_eq_getElem _ _ hj, List.getElem_append_left hj]
    rw [hE.data _ (h.chain.range _ (List.getElem_mem hj)).1 fun hm =>
      h.chain.allocated (List.getElem_mem hj) (hE.fresh _ hm)]
  · next hl =>
    have hj : ¬ p / v.clusBytes < l.length := fun hj => hl ((Nat.div_lt_iff_lt_mul hcb).mp hj)
    rw [List.getElem_append_right (Nat.not_lt.mp hj), hE.zero _ (List.getElem_mem _)]
    rfl

theorem Written.law_iff (h : FileAt v d ino.firstCluster l lr) {l2 : List Nat} (hb : buf ≠ [])
    (hw : Written v d ino off buf l lr d' l2) :
    Law v d ino off buf buf.length d' { ino with size := max ino.size (off + buf.length) } ↔
      off + buf.length ≤ (l ++ l2).length * v.clusBytes := by
  have hlen : 0 < buf.length := List.length_pos_of_ne_nil hb
  have hc : FatChain v d' (Fat32Inode.firstCluster { ino with size := max ino.size (off + buf.length) }) (l ++ l2) :=
    (hw.keep h).chain
  have hread : ∀ off' len, Fat32Inode.readAt v d' { ino with size := max ino.size (off + buf.length) } off' len =
      fileBytes v d' (l ++ l2) off' (min len (min (max ino.size (off + buf.length)) ((l ++ l2).length * v.clusBytes) - off')) :=
    fun off' len => readAt_eq hc h.wf off' len
  constructor
  · intro hL
    have hl := congrArg List.length hL.readBack
    rw [hread, fileBytes, List.length_map, List.length_range] at hl
    omega
  · intro hfit
    refine ⟨rfl, ?_, fun off' len k b hk hout => ?_, rfl⟩
    · rw [hread]
      refine List.ext_getElem? fun k => ?_
      rw [getElem?_fileBytes]
      split
      · next hk =>
        have hk' : k < buf.length := by omega
        rw [hw.bytes h hfit (by omega), if_pos (by omega), Nat.add_sub_cancel_left, List.getD_eq_getElem _ _ hk',
          List.getElem?_eq_getElem hk']
      · next hk => rw [List.getElem?_eq_none (by omega)]
    · rw [readAt_eq h.chain h.wf, getElem?_fileBytes] at hk
      split at hk
      · next hlt =>
        have hll : l.length * v.clusBytes ≤ (l ++ l2).length * v.clusBytes :=
          Nat.mul_le_mul_right _ (by rw [List.length_append]; exact Nat.le_add_right ..)
        rw [hread, getElem?_fileBytes, if_pos (by omega), hw.bytes h hfit (by omega), if_neg hout, if_pos (by omega)]
        exact hk
      · cases hk

/-- After any writes to a file, a write that returns obeys the law exactly if it is empty or ends
    within the clusters the file has then: those it had, or as many as its growth needs. -/
theorem write_law_iff {d0 : Device} {ino0 : Fat32Inode} {l0 : List Nat} {ws : List (Nat × List UInt8)} (h : IsFile v d0 ino0 l0 lr)
    (hws : writeAll v ws d0 ino0 = some (d, ino)) (hoff : off ≤ ino.size) (hw : ino.writeAt v d off buf = some (.ok n, d', ino')) :
    ∃ l, IsFile v d ino l lr ∧ (Law v d ino off buf n d' ino' ↔
      buf = [] ∨ off + buf.length ≤ max l.length ((off + buf.length - ino.size - 1) / v.clusBytes + 1) * v.clusBytes) := by
  obtain ⟨l, hl⟩ := h.writeAll hws
  refine ⟨l, hl, ?_⟩
  by_cases hb : buf = []
  · subst hb
    cases hw
    refine iff_of_true ⟨rfl, ?_, fun off' len k b hk _ => hk, ?_⟩ (Or.inl rfl)
    · refine List.eq_nil_of_length_eq_zero ?_
      unfold Fat32Inode.readAt
      split
      · rfl
      · rw [Nat.zero_min]
        dsimp only
        split <;> rfl
    · rw [Nat.add_zero]
      omega
  · rcases hl.file with hF | ⟨h2, rfl, h0⟩
    · rcases hF.writeAt off hb with ⟨d1, l2, he, hW, -⟩ | ⟨d1, l2, he, -⟩
      · cases he.symm.trans hw
        rw [hW.law_iff hF hb, hW.length, rounds, Nat.add_comm 1]
        exact ⟨Or.inr, fun h => h.resolve_left hb⟩
      · cases he.symm.trans hw
    · rw [IsFile.writeAt_empty h2 h0, if_neg (by rwa [List.isEmpty_iff])] at hw
      cases hw

/-! ## A small volume -/

/-- One sector a cluster, one FAT of one sector, the root in cluster 2. -/
def small : Fat32Inner := ⟨1, 1, 1, 2, 1, 2⟩

theorem small_wf : small.WellFormed := ⟨by decide, by decide, by decide, by decide, by decide, by decide⟩

/-- The root and a file in cluster 3. -/
def oneFile : Device :=
  small.writeFatEntry (small.writeFatEntry (small.writeFatEntry (fun _ => zeroBuf) 0 fatEoc) 2 fatEoc) 3 fatEoc

theorem oneFile_chain {c : Nat} (h : 2 ≤ c) (hc : c < 4) : FatChain small oneFile c [c] := by
  refine ⟨.cons (by simp only [fatEoc]; omega) (.nil ?_), fun x hx => ?_⟩
  · interval_cases c <;> decide
  · rw [List.mem_singleton.mp hx]
    exact ⟨h, hc.trans (by decide)⟩

def fullFile : Fat32Inode := ⟨3, 512, false⟩

theorem fullFile_isFile : IsFile small oneFile fullFile [3] [2] :=
  ⟨small_wf, oneFile_chain (by decide) (by decide), Or.inl ⟨small_wf, oneFile_chain (by decide) (by decide),
    oneFile_chain (by decide) (by decide), by decide, by decide⟩⟩

theorem writeAt_any {p : Nat → Device → Fat32Inode → Bool} (h : (ino.writeAt v d off buf).any (fun r =>
    match r with
    | (.ok n, d, ino) => p n d ino
    | (.error _, _, _) => false) = true) :
    ∃ n d' ino', ino.writeAt v d off buf = some (.ok n, d', ino') ∧ p n d' ino' = true := by
  cases hw : ino.writeAt v d off buf with
  | none => rw [hw] at h; cases h
  | some r =>
    obtain ⟨r, d', ino'⟩ := r
    rw [hw] at h
    cases r with
    | error e => cases h
    | ok n => exact ⟨n, d', ino', rfl, h⟩

theorem write_law_iff_fullFile : ∃ n d' ino', fullFile.writeAt small oneFile 10 [7] = some (.ok n, d', ino') ∧
    Law small oneFile fullFile 10 [7] n d' ino' := by
  have hw : ∃ n d' ino', fullFile.writeAt small oneFile 10 [7] = some (.ok n, d', ino') ∧ true = true :=
    writeAt_any rfl
  obtain ⟨n, d', ino', hw, -⟩ := hw
  have hws : writeAll small [] oneFile fullFile = some (oneFile, fullFile) := rfl
  obtain ⟨l, -, hL⟩ := write_law_iff fullFile_isFile hws (by decide) hw
  refine ⟨n, d', ino', hw, hL.mpr (Or.inr (Nat.le_trans (m := 1 * 512) (by decide) ?_))⟩
  exact Nat.mul_le_mul_right _ (le_max_of_le_right (Nat.le_add_left 1 _))

/-- A byte behind the end of a file that fills its cluster goes to the start of the cluster. -/
theorem fullFile_overwritten : ¬ ∀ v d0 ino0 l0 lr ws d ino off buf n d' ino', IsFile v d0 ino0 l0 lr →
    writeAll v ws d0 ino0 = some (d, ino) → off ≤ ino.size → ino.writeAt v d off buf = some (.ok n, d', ino') →
    Law v d ino off buf n d' ino' := by
  intro h
  have hw : ∃ n d' ino', fullFile.writeAt small oneFile 512 [7] = some (.ok n, d', ino') ∧
      decide (ino'.readAt small d' 512 n ≠ [7] ∧ ino'.readAt small d' 0 1 = [7]) = true := writeAt_any rfl
  obtain ⟨n, d', ino', hw, hr⟩ := hw
  have hL := h small oneFile fullFile [3] [2] [] oneFile fullFile 512 [7] n d' ino' fullFile_isFile rfl (by decide) hw
  exact (of_decide_eq_true hr).1 hL.readBack

end Myos.Fat
