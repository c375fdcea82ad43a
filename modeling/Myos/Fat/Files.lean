/-
  Myos.Fat.Files — reading and writing the bytes of a file.

  The bytes of a file are those of the clusters of its chain, one after the other.

  Proved: `read_at` returns the bytes up to the size of the inode and the end of the chain;
  `write_at` makes the chain longer by as many clusters as the growth needs, counted from the
  first cluster of the file, and then writes to the clusters of the chain, the last one standing
  for those that are missing. So a write is read back, and changes nothing else, exactly if
  the chain is then long enough.
-/

import Myos.Fat.Chains

namespace Myos.Fat

open Lib Fat32Inner Fat32Inode

variable {v : Fat32Inner} {d d' : Device} {c c' x n k : Nat} {l : List Nat}

/-- Byte `p` of the file with the chain `l`. -/
def fileByte (v : Fat32Inner) (d : Device) (l : List Nat) (p : Nat) : UInt8 :=
  v.readCluster d (l.getD (p / v.clusBytes) 0) (p % v.clusBytes)

def fileBytes (v : Fat32Inner) (d : Device) (l : List Nat) (off n : Nat) : List UInt8 :=
  (List.range n).map fun k => fileByte v d l (off + k)

theorem WellFormed.clusBytes_pos (hv : v.WellFormed) : 0 < v.clusBytes := Nat.mul_pos hv.secPerClus (by decide)

theorem fileByte_cons_lt {p : Nat} (hp : p < v.clusBytes) : fileByte v d (c :: l) p = v.readCluster d c p := by
  rw [fileByte, Nat.div_eq_of_lt hp, Nat.mod_eq_of_lt hp]
  rfl

theorem fileByte_drop (hv : v.WellFormed) (k p : Nat) : fileByte v d (l.drop k) p = fileByte v d l (k * v.clusBytes + p) := by
  have hcb := WellFormed.clusBytes_pos hv
  rw [fileByte, fileByte, Nat.mul_comm, Nat.mul_add_div hcb, Nat.mul_add_mod]
  congr 1
  rw [List.getD_eq_getElem?_getD, List.getElem?_drop, List.getD_eq_getElem?_getD]

/-! ## Reading -/

theorem skipChain_eq (h : FatChain v d c l) (hv : v.WellFormed) (hk : k ≤ l.length) :
    ∃ c', skipChain v d k c = some c' ∧ FatChain v d c' (l.drop k) := by
  induction k generalizing c l with
  | zero => exact ⟨c, rfl, h⟩
  | succ k ih =>
    cases l with
    | nil => exact absurd hk (Nat.not_succ_le_zero k)
    | cons y l =>
      obtain ⟨rfl, ht⟩ := h.cons
      rw [skipChain, if_pos (h.inData hv (List.mem_cons_self ..))]
      exact ih ht (Nat.le_of_succ_le_succ hk)

theorem skipChain_none (h : FatChain v d c l) (hv : v.WellFormed) (hk : l.length < k) : skipChain v d k c = none := by
  induction k generalizing c l with
  | zero => exact absurd hk (Nat.not_lt_zero _)
  | succ k ih =>
    rw [skipChain]
    cases l with
    | nil => rw [if_neg (by rw [h.not_inData]; exact Bool.false_ne_true)]
    | cons y l =>
      obtain ⟨rfl, ht⟩ := h.cons
      rw [if_pos (h.inData hv (List.mem_cons_self ..))]
      exact ih ht (Nat.lt_of_succ_lt_succ hk)

theorem readChain_eq (h : FatChain v d c l) (hv : v.WellFormed) {boff remain : Nat} (hb : boff < v.clusBytes) (hn : remain ≤ n) :
    readChain v d n c boff remain = fileBytes v d l boff (min remain (l.length * v.clusBytes - boff)) := by
  induction n generalizing c l boff remain with
  | zero =>
    rw [Nat.le_zero.mp hn, Nat.zero_min]
    rfl
  | succ n ih =>
    rw [readChain]
    cases l with
    | nil =>
      rw [if_neg fun hc => by rw [h.not_inData] at hc; exact Bool.false_ne_true hc.1, List.length_nil, Nat.zero_mul,
        Nat.zero_sub, Nat.min_zero]
      rfl
    | cons y l =>
      obtain ⟨rfl, ht⟩ := h.cons
      by_cases hr : 0 < remain
      · rw [if_pos ⟨h.inData hv (List.mem_cons_self ..), hr⟩]
        dsimp only
        have hcb := WellFormed.clusBytes_pos hv
        rw [ih ht hcb (by omega), List.length_cons, Nat.succ_mul, Nat.sub_zero]
        -- the part of this cluster, and the rest
        have hsum : min remain (l.length * v.clusBytes + v.clusBytes - boff) = min (v.clusBytes - boff) remain +
            min (remain - min (v.clusBytes - boff) remain) (l.length * v.clusBytes) := by omega
        rw [hsum, fileBytes, fileBytes, List.range_add, List.map_append, List.map_map, slice]
        congr 1
        · refine List.map_congr_left fun k hk => ?_
          rw [List.mem_range] at hk
          rw [fileByte_cons_lt (by omega)]
        · refine List.map_congr_left fun k hk => ?_
          rw [List.mem_range] at hk
          have hclen : min (v.clusBytes - boff) remain = v.clusBytes - boff := by omega
          rw [Function.comp_apply, hclen, Nat.zero_add, show boff + (v.clusBytes - boff + k) = 1 * v.clusBytes + k by omega,
            ← fileByte_drop hv]
          rfl
      · rw [if_neg fun hc => hr hc.2, Nat.eq_zero_of_not_pos hr, Nat.zero_min]
        rfl

/-- `read_at` returns what there is up to the size and the end of the chain. -/
theorem readAt_eq {ino : Fat32Inode} (h : FatChain v d ino.firstCluster l) (hv : v.WellFormed) (off len : Nat) :
    ino.readAt v d off len = fileBytes v d l off (min len (min ino.size (l.length * v.clusBytes) - off)) := by
  have hcb := WellFormed.clusBytes_pos hv
  unfold Fat32Inode.readAt
  split
  · next ho =>
    rw [show min len (min ino.size (l.length * v.clusBytes) - off) = 0 by omega]
    rfl
  · next ho =>
    dsimp only
    have hdiv : off = off / v.clusBytes * v.clusBytes + off % v.clusBytes := (Nat.div_add_mod' off v.clusBytes).symm
    have hmod := Nat.mod_lt off hcb
    rcases Nat.lt_or_ge l.length (off / v.clusBytes) with hk | hk
    · rw [skipChain_none h hv hk]
      have : l.length * v.clusBytes ≤ off / v.clusBytes * v.clusBytes := Nat.mul_le_mul_right _ hk.le
      rw [show min len (min ino.size (l.length * v.clusBytes) - off) = 0 by omega]
      rfl
    · obtain ⟨c', hc, hl⟩ := skipChain_eq h hv hk
      rw [hc]
      dsimp only
      rw [readChain_eq hl hv hmod (Nat.le_refl _), List.length_drop, Nat.sub_mul, fileBytes, fileBytes]
      rw [show min (min len (ino.size - off)) (l.length * v.clusBytes - off / v.clusBytes * v.clusBytes - off % v.clusBytes) =
        min len (min ino.size (l.length * v.clusBytes) - off) by omega]
      refine List.map_congr_left fun k _ => ?_
      rw [fileByte_drop hv, ← Nat.add_assoc, ← hdiv]

/-! ## Writing data -/

/-- The last cluster stands for those behind the end of the chain. -/
theorem walkTo_eq (h : FatChain v d c l) (h0 : l ≠ []) (k : Nat) :
    walkTo v d k c = l.getD (min k (l.length - 1)) 0 := by
  induction k generalizing c l with
  | zero =>
    cases l with
    | nil => exact absurd rfl h0
    | cons y l => obtain ⟨rfl, -⟩ := h.cons; rfl
  | succ k ih =>
    cases l with
    | nil => exact absurd rfl h0
    | cons y l =>
      obtain ⟨rfl, ht⟩ := h.cons
      rw [walkTo]
      cases l with
      | nil =>
        have hs : fatEoc ≤ v.readFatEntry d y := by
          cases ht.chain with
          | nil hs => exact hs
        rw [if_pos hs, List.length_singleton, Nat.sub_self, Nat.min_zero]
        rfl
      | cons z l =>
        have hs : ¬ fatEoc ≤ v.readFatEntry d y := fun hs => by
          have := ht.chain.eq_nil hs
          cases this
        have hmin : min (k + 1) (l.length + 1) = min k l.length + 1 := by omega
        rw [if_neg hs, ih ht (List.cons_ne_nil _ _)]
        simp only [List.length_cons, Nat.add_sub_cancel, hmin, List.getD_cons_succ]

theorem walkTo_mem (h : FatChain v d c l) (h0 : l ≠ []) (k : Nat) : walkTo v d k c ∈ l := by
  have hlen : 0 < l.length := List.length_pos_of_ne_nil h0
  rw [walkTo_eq h h0, List.getD_eq_getElem _ _ (by omega)]
  exact List.getElem_mem _

/-- Writing a cluster of the chain. -/
theorem fileByte_writeCluster (h : FatChain v d c l) (hv : v.WellFormed) {j : Nat} (hj : j < l.length) {buf : Buf}
    (hb : v.Clipped buf) {p : Nat} (hp : p < l.length * v.clusBytes) :
    fileByte v (v.writeCluster d (l.getD j 0) buf) l p = if p / v.clusBytes = j then buf (p % v.clusBytes) else fileByte v d l p := by
  have hcb := WellFormed.clusBytes_pos hv
  have hpj : p / v.clusBytes < l.length := (Nat.div_lt_iff_lt_mul hcb).mpr hp
  rw [fileByte]
  split
  · next he => rw [he, readCluster_writeCluster_self hb]
  · next hne =>
    rw [List.getD_eq_getElem _ _ hpj, List.getD_eq_getElem _ _ hj]
    rw [readCluster_writeCluster_of_ne (h.range _ (List.getElem_mem hj)).1 (h.range _ (List.getElem_mem hpj)).1
      fun e => hne ((List.Nodup.getElem_inj_iff h.chain.nodup).mp e)]
    rw [fileByte, List.getD_eq_getElem _ _ hpj]

/-- What writing data to a chain does whether it is long enough or not. -/
structure DataWritten (v : Fat32Inner) (d : Device) (l : List Nat) (d' : Device) : Prop where
  fat : ∀ x, x < v.total → v.readFatEntry d' x = v.readFatEntry d x
  data : ∀ x, 2 ≤ x → x ∉ l → v.readCluster d' x = v.readCluster d x

theorem DataWritten.chain (h : DataWritten v d l d') {l' : List Nat} (hl : FatChain v d c l') : FatChain v d' c l' :=
  hl.congr fun x hx => h.fat x (hl.range x hx).2

theorem writeCluster_written (hv : v.WellFormed) (hc : c ∈ l) (h2 : 2 ≤ c) (buf : Buf) :
    DataWritten v d l (v.writeCluster d c buf) :=
  ⟨fun _ hx => readFatEntry_writeCluster hv hx, fun _ hx hn =>
    readCluster_writeCluster_of_ne h2 hx fun e => hn (e ▸ hc)⟩

theorem DataWritten.trans {d'' : Device} (h : DataWritten v d l d') (h' : DataWritten v d' l d'') : DataWritten v d l d'' :=
  ⟨fun x hx => (h'.fat x hx).trans (h.fat x hx), fun x h2 hn => (h'.data x h2 hn).trans (h.data x h2 hn)⟩

theorem writeData_eq {first : Nat} (hl : FatChain v d first l) (hv : v.WellFormed) (h0 : l ≠ []) {pos : Nat} {buf : List UInt8}
    (hn : buf.length ≤ n) : ∃ d', writeData v first n d pos buf = (buf.length, d') ∧ DataWritten v d l d' ∧
      (pos + buf.length ≤ l.length * v.clusBytes → ∀ p, p < l.length * v.clusBytes →
        fileByte v d' l p = if pos ≤ p ∧ p < pos + buf.length then buf.getD (p - pos) 0 else fileByte v d l p) := by
  induction n generalizing d pos buf with
  | zero =>
    obtain rfl := List.length_eq_zero_iff.mp (Nat.le_zero.mp hn)
    exact ⟨d, rfl, ⟨fun _ _ => rfl, fun _ _ _ => rfl⟩, fun _ p _ => by rw [if_neg (by simp)]⟩
  | succ n ih =>
    rw [writeData]
    by_cases hb : buf = []
    · subst hb
      exact ⟨d, by rw [if_pos rfl]; rfl, ⟨fun _ _ => rfl, fun _ _ _ => rfl⟩, fun _ p _ => by rw [if_neg (by simp)]⟩
    have hcb := WellFormed.clusBytes_pos hv
    have hmod := Nat.mod_lt pos hcb
    have hblen : 0 < buf.length := List.length_pos_of_ne_nil hb
    have hmem := walkTo_mem hl h0 (pos / v.clusBytes)
    have h2 := (hl.range _ hmem).1
    rw [if_neg hb]
    dsimp only
    rw [if_neg (Nat.not_lt.mpr h2)]
    generalize hrem : min buf.length (v.clusBytes - pos % v.clusBytes) = remain
    generalize hfull : (if pos % v.clusBytes ≠ 0 ∨ remain ≠ v.clusBytes then v.readCluster d (walkTo v d (pos / v.clusBytes) first)
      else zeroBuf) = full
    have htake : (buf.take remain).length = remain := by rw [List.length_take]; omega
    have hclip : v.Clipped full := by
      rw [← hfull]
      split
      · exact readCluster_clipped v d _
      · exact fun _ _ => rfl
    have hclip' : v.Clipped (Buf.copyAt full (pos % v.clusBytes) (buf.take remain)) := hclip.copyAt (by rw [htake]; omega)
    have hw := writeCluster_written (d := d) hv hmem h2 (Buf.copyAt full (pos % v.clusBytes) (buf.take remain))
    obtain ⟨d', he, hw', hbytes⟩ := @ih _ (hw.chain hl) (pos + remain) (buf.drop remain) (by rw [List.length_drop]; omega)
    refine ⟨d', ?_, hw.trans hw', fun hfit p hp => ?_⟩
    · rw [he, List.length_drop]
      dsimp only
      congr 1
      omega
    · rw [List.length_drop] at hbytes
      have hj : pos / v.clusBytes < l.length := (Nat.div_lt_iff_lt_mul hcb).mpr (by omega)
      have hwalk : walkTo v d (pos / v.clusBytes) first = l.getD (pos / v.clusBytes) 0 := by
        rw [walkTo_eq hl h0, Nat.min_eq_left (by omega)]
      rw [hbytes (by omega) p hp]
      have hdm := Nat.div_add_mod' pos v.clusBytes
      have hdp := Nat.div_add_mod' p v.clusBytes
      have hmp := Nat.mod_lt p hcb
      rw [hwalk, fileByte_writeCluster hl hv hj hclip' hp]
      by_cases hin : pos ≤ p ∧ p < pos + buf.length
      · rw [if_pos hin]
        by_cases hlate : pos + remain ≤ p
        · rw [if_pos ⟨hlate, by omega⟩, List.getD_eq_getElem?_getD, List.getElem?_drop, List.getD_eq_getElem?_getD]
          congr 2
          omega
        · -- a byte of this round
          have hpj : p / v.clusBytes = pos / v.clusBytes := by
            refine Nat.div_eq_of_lt_le ?_ ?_
            · omega
            · rw [Nat.succ_mul]
              omega
          have hpm : p % v.clusBytes = pos % v.clusBytes + (p - pos) := by
            rw [hpj] at hdp
            omega
          rw [if_neg fun h => hlate h.1, if_pos hpj, hpm, Buf.copyAt_add (by rw [htake]; omega), List.getElem_take,
            List.getD_eq_getElem]
      · rw [if_neg hin, if_neg (by omega)]
        split
        · next hpj =>
          -- a byte of the cluster that is kept, so the cluster was read
          have hne : pos % v.clusBytes ≠ 0 ∨ remain ≠ v.clusBytes := by
            by_contra hcon
            rw [hpj] at hdp
            omega
          rw [if_pos hne, hwalk] at hfull
          have hkeep : Buf.copyAt full (pos % v.clusBytes) (buf.take remain) (p % v.clusBytes) = full (p % v.clusBytes) := by
            rw [hpj] at hdp
            rcases Nat.lt_or_ge p pos with hlt | hge
            · exact Buf.copyAt_of_lt (by omega)
            · exact Buf.copyAt_of_ge (by rw [htake]; omega)
          rw [hkeep, ← hfull, fileByte, hpj]
        · rfl

/-! ## Growing -/

/-- The clusters `l2`, free before, were cleared and hung behind the chain `l`. -/
structure Extended (v : Fat32Inner) (first : Nat) (d : Device) (l : List Nat) (d' : Device) (l2 : List Nat) : Prop where
  chain : FatChain v d' first (l ++ l2)
  fresh : ∀ x ∈ l2, v.readFatEntry d x = 0
  zero : ∀ x ∈ l2, v.readCluster d' x = zeroBuf
  fat : ∀ x, x < v.total → x ∉ l → x ∉ l2 → v.readFatEntry d' x = v.readFatEntry d x
  data : ∀ x, 2 ≤ x → x ∉ l2 → v.readCluster d' x = v.readCluster d x

namespace Extended

variable {first : Nat} {l2 l3 : List Nat} {d'' : Device}

theorem refl (h : FatChain v d first l) : Extended v first d l d [] := by
  refine ⟨by rw [List.append_nil]; exact h, fun x hx => ?_, fun x hx => ?_, fun x _ _ _ => rfl, fun x _ _ => rfl⟩
  · cases hx
  · cases hx

/-- One cluster. -/
theorem one {z newc : Nat} (h : FatChain v d first (l ++ [z])) (hv : v.WellFormed) (ht : Taken v d newc d') :
    Extended v first d (l ++ [z]) (v.writeFatEntry d' z newc) [newc] := by
  have hz := (h.range z (by simp)).2
  refine ⟨?_, fun x hx => ?_, fun x hx => ?_, fun x hx hl hn => ?_, fun x h2 hn => ?_⟩
  · rw [List.append_assoc]
    exact (ht.chain h).link hv (ht.not_mem h) (ht.alone hv)
  · rw [List.mem_singleton.mp hx]
    exact ht.free
  · rw [List.mem_singleton.mp hx, readCluster_writeFatEntry hv hz]
    exact ht.zero
  · rw [readFatEntry_writeFatEntry hx, if_neg fun e => hl (by rw [e]; simp), ht.fat x hx,
      if_neg fun e => hn (by rw [e]; simp)]
  · rw [readCluster_writeFatEntry hv hz, ht.data x h2 fun e => hn (by rw [e]; simp)]

theorem trans (h : Extended v first d l d' l2) (h' : Extended v first d' (l ++ l2) d'' l3) :
    Extended v first d l d'' (l2 ++ l3) := by
  have hnot : ∀ x ∈ l3, x ∉ l ++ l2 := fun x hx hm => h.chain.allocated hm (h'.fresh x hx)
  refine ⟨by rw [← List.append_assoc]; exact h'.chain, fun x hx => ?_, fun x hx => ?_, fun x hx hl hn => ?_, fun x h2 hn => ?_⟩
  · rcases List.mem_append.mp hx with hx | hx
    · exact h.fresh x hx
    · have hm := hnot x hx
      have hr := (h'.chain.range x (List.mem_append_right _ hx)).2
      rw [← h.fat x hr (fun hl => hm (List.mem_append_left _ hl)) fun hl => hm (List.mem_append_right _ hl)]
      exact h'.fresh x hx
  · rcases List.mem_append.mp hx with hx | hx
    · rw [h'.data x (h.chain.range x (List.mem_append_right _ hx)).1 fun hm => hnot x hm (List.mem_append_right _ hx)]
      exact h.zero x hx
    · exact h'.zero x hx
  · rw [List.mem_append, not_or] at hn
    rw [h'.fat x hx (fun hm => (List.mem_append.mp hm).elim hl hn.1) hn.2, h.fat x hx hl hn.1]
  · rw [List.mem_append, not_or] at hn
    rw [h'.data x h2 hn.2, h.data x h2 hn.1]

theorem other (h : Extended v first d l d' l2) {lo : List Nat} (hl : FatChain v d c lo)
    (hd : ∀ x ∈ lo, x ∉ l) : FatChain v d' c lo :=
  hl.congr fun x hx => h.fat x (hl.range x hx).2 (hd x hx) fun hm => hl.allocated hx (h.fresh x hm)

end Extended

theorem exists_concat {l : List Nat} (h : l ≠ []) : ∃ l0 z, l = l0 ++ [z] :=
  ⟨l.dropLast, l.getLast h, (List.dropLast_append_getLast h).symm⟩

/-- The rounds of the loop that makes the chain longer. -/
def rounds (v : Fat32Inner) (current endNeeded : Nat) : Nat := (endNeeded - current - 1) / v.clusBytes

/-- The chain gets as long as the rounds lead from the cluster they start at, or all clusters
    are taken. -/
theorem extend_eq {first endNeeded current j : Nat} (hv : v.WellFormed) (h : FatChain v d first l) (hj : j < l.length)
    (hn : rounds v current endNeeded < n) : ∃ r d' l2, extend v endNeeded n d current (l.getD j 0) = some (r, d') ∧
      Extended v first d l d' l2 ∧ freeClusters v d = l2 ++ freeClusters v d' ∧
      (r = .ok () ∧ (l ++ l2).length = max l.length (j + 1 + rounds v current endNeeded) ∨
        r = .error "no free clusters" ∧ (∀ c, 2 ≤ c → c < v.total → v.readFatEntry d' c ≠ 0) ∧
          (l ++ l2).length < j + 1 + rounds v current endNeeded) := by
  have hcb := WellFormed.clusBytes_pos hv
  induction n generalizing d l current j with
  | zero => exact absurd hn (Nat.not_lt_zero _)
  | succ n ih =>
    rw [extend]
    by_cases hw : current + v.clusBytes < endNeeded
    · rw [if_pos hw]
      have hr : rounds v current endNeeded = rounds v (current + v.clusBytes) endNeeded + 1 := by
        unfold rounds
        rw [← Nat.add_div_right _ hcb]
        congr 1
        omega
      rw [hr] at hn ⊢
      have hn' := Nat.lt_of_succ_lt_succ hn
      dsimp only
      rw [List.getD_eq_getElem _ _ hj]
      rcases Nat.lt_or_ge (j + 1) l.length with hj1 | hj1
      · -- the chain goes on
        have hd : l = l.take j ++ l[j] :: l[j + 1] :: l.drop (j + 2) := by
          rw [← List.drop_eq_getElem_cons hj1, ← List.drop_eq_getElem_cons hj, List.take_append_drop]
        have hs : FatChain v d l[j] (l[j] :: l[j + 1] :: l.drop (j + 2)) := FatChain.suffix (hd ▸ h)
        have hnext := (hs.cons.2).cons.1
        have hstop : ¬ v.readFatEntry d l[j] ≥ fatEoc := by
          rw [← hnext]
          exact h.chain.not_stop (List.getElem_mem hj1)
        rw [if_neg hstop, ← hnext, ← List.getD_eq_getElem _ 0 hj1]
        obtain ⟨r, d', l2, he, hE, hfree, hc⟩ := @ih _ _ (current + v.clusBytes) _ h hj1 hn'
        refine ⟨r, d', l2, he, hE, hfree, hc.imp (fun hc => ⟨hc.1, ?_⟩) fun hc => ⟨hc.1, hc.2.1, ?_⟩⟩
        · rw [hc.2]
          omega
        · omega
      · -- the end of the chain
        obtain ⟨l0, z, rfl⟩ := exists_concat (List.ne_nil_of_length_pos (Nat.zero_lt_of_lt hj))
        rw [List.length_append, List.length_singleton] at hj hj1
        have hz : (l0 ++ [z])[j] = z := by
          rw [List.getElem_append_right (by omega), List.getElem_singleton]
        rw [hz, if_pos (h.chain.stop_last)]
        cases ha : v.allocCluster d with
        | error e =>
          obtain rfl := allocCluster_error_eq ha
          refine ⟨.error "no free clusters", d, [], rfl, .refl h, rfl, Or.inr ⟨rfl, allocCluster_error hv ha, ?_⟩⟩
          rw [List.append_nil, List.length_append, List.length_singleton]
          omega
        | ok r =>
          obtain ⟨newc, d1⟩ := r
          have ht := allocCluster_ok hv ha
          have hE1 := Extended.one h hv ht
          have hj' : l0.length + 1 < (l0 ++ [z] ++ [newc]).length := by simp
          have hlast : (l0 ++ [z] ++ [newc]).getD (l0.length + 1) 0 = newc := by simp
          obtain ⟨r, d', l2, he, hE, hfree, hc⟩ := @ih _ _ (current + v.clusBytes) _ hE1.chain hj' hn'
          rw [hlast] at he
          have hlink : freeClusters v (v.writeFatEntry d1 z newc) = freeClusters v d1 :=
            freeClusters_link hv (h.range z (by simp)).2 ((ht.chain h).allocated (by simp)) (Nat.lt_of_lt_of_le (by decide) ht.lower) ht.upper
          refine ⟨r, d', [newc] ++ l2, he, hE1.trans hE, ?_, ?_⟩
          · rw [allocCluster_next hv ha, ← hlink, hfree]
            rfl
          rw [← List.append_assoc]
          simp only [List.length_append, List.length_singleton] at hc ⊢
          refine hc.imp (fun hc => ⟨hc.1, ?_⟩) fun hc => ⟨hc.1, hc.2.1, ?_⟩
          · omega
          · omega
    · rw [if_neg hw]
      have hr : rounds v current endNeeded = 0 := Nat.div_eq_of_lt (by omega)
      refine ⟨.ok (), d, [], rfl, .refl h, rfl, Or.inl ⟨rfl, ?_⟩⟩
      rw [List.append_nil, hr]
      omega

/-! ## The size in the directory -/

theorem mem_slots {i : Nat} : i ∈ v.slots ↔ 32 ∣ i ∧ i + 32 ≤ v.clusBytes := by
  have hcb : v.clusBytes = v.secPerClus * 16 * 32 := by rw [clusBytes, Nat.mul_assoc]
  unfold slots
  rw [List.mem_map]
  constructor
  · rintro ⟨k, hk, rfl⟩
    rw [List.mem_range] at hk
    exact ⟨Nat.dvd_mul_left .., by omega⟩
  · rintro ⟨⟨k, rfl⟩, hk⟩
    exact ⟨k, List.mem_range.mpr (by omega), Nat.mul_comm ..⟩

/-- A slot of the root directory got a new size, or none matched. -/
def SizeUpdated (v : Fat32Inner) (d : Device) (lr : List Nat) (cluster size : Nat) (d' : Device) : Prop :=
  d' = d ∧ (∀ x i, SlotIn v lr x i → sizeMatch cluster (v.readCluster d x) i = false) ∨
    ∃ x i, SlotIn v lr x i ∧ sizeMatch cluster (v.readCluster d x) i = true ∧
      d' = v.writeCluster d x (Buf.copyAt (v.readCluster d x) (i + 28) (Buf.toLe32 size))

theorem updateEntrySize_eq {lr : List Nat} (h : FatChain v d v.rootClus lr) (hv : v.WellFormed) (cluster size : Nat) :
    ∃ r d', v.updateEntrySize d cluster size = some (r, d') ∧ SizeUpdated v d lr cluster size d' := by
  unfold updateEntrySize
  rcases scanChain_cases (sizeMatch cluster) h hv with ⟨he, hno⟩ | ⟨x, i, he, hs, hm⟩
  · rw [he]
    exact ⟨_, _, rfl, Or.inl ⟨rfl, hno⟩⟩
  · rw [he]
    exact ⟨_, _, rfl, Or.inr ⟨x, i, hs, hm, rfl⟩⟩

theorem SizeUpdated.written {lr : List Nat} {size : Nat} (h : SizeUpdated v d lr c size d') (hr : FatChain v d x lr) (hv : v.WellFormed) :
    DataWritten v d lr d' := by
  rcases h with ⟨rfl, -⟩ | ⟨y, i, hs, -, rfl⟩
  · exact ⟨fun _ _ => rfl, fun _ _ _ => rfl⟩
  · exact writeCluster_written hv hs.1 (hr.range y hs.1).1 _

/-! ## `write_at` -/

/-- A file of a sound volume: its chain is not empty and apart from that of the root. -/
structure FileAt (v : Fat32Inner) (d : Device) (first : Nat) (l lr : List Nat) : Prop where
  wf : v.WellFormed
  root : FatChain v d v.rootClus lr
  chain : FatChain v d first l
  nonempty : l ≠ []
  apart : ∀ x ∈ l, x ∉ lr

/-- The steps of a write that returns. -/
structure Written (v : Fat32Inner) (d : Device) (ino : Fat32Inode) (off : Nat) (buf : List UInt8) (l lr : List Nat)
    (d' : Device) (l2 : List Nat) : Prop where
  length : (l ++ l2).length = max l.length (1 + rounds v ino.size (off + buf.length))
  steps : ∃ d1 d2, Extended v ino.firstCluster d l d1 l2 ∧ DataWritten v d1 (l ++ l2) d2 ∧
    (off + buf.length ≤ (l ++ l2).length * v.clusBytes → ∀ p, p < (l ++ l2).length * v.clusBytes →
      fileByte v d2 (l ++ l2) p = if off ≤ p ∧ p < off + buf.length then buf.getD (p - off) 0 else fileByte v d1 (l ++ l2) p) ∧
    SizeUpdated v d2 lr ino.firstCluster (max ino.size (off + buf.length)) d'

theorem FileAt.extended {first : Nat} {lr l2 : List Nat} (h : FileAt v d first l lr) (hE : Extended v first d l d' l2) :
    FileAt v d' first (l ++ l2) lr := by
  refine ⟨h.wf, hE.other h.root fun x hx hl => h.apart x hl hx, hE.chain, fun e => h.nonempty (List.append_eq_nil_iff.mp e).1,
    fun x hx hr => ?_⟩
  rcases List.mem_append.mp hx with hx | hx
  · exact h.apart x hx hr
  · exact h.root.allocated hr (hE.fresh x hx)

theorem FileAt.keep {first : Nat} {lr l' : List Nat} (h : FileAt v d first l lr) (hw : DataWritten v d l' d') :
    FileAt v d' first l lr :=
  ⟨h.wf, hw.chain h.root, hw.chain h.chain, h.nonempty, h.apart⟩

theorem FileAt.writeAt {ino : Fat32Inode} {lr : List Nat} (h : FileAt v d ino.firstCluster l lr) (off : Nat) {buf : List UInt8}
    (hb : buf ≠ []) :
    (∃ d' l2, ino.writeAt v d off buf = some (.ok buf.length, d', { ino with size := max ino.size (off + buf.length) }) ∧
      Written v d ino off buf l lr d' l2 ∧ freeClusters v d = l2 ++ freeClusters v d') ∨
    ∃ d' l2, ino.writeAt v d off buf = some (.error "no free clusters", d', ino) ∧ Extended v ino.firstCluster d l d' l2 ∧
      freeClusters v d = l2 ++ freeClusters v d' ∧
      (∀ c, 2 ≤ c → c < v.total → v.readFatEntry d' c ≠ 0) ∧
      (l ++ l2).length < 1 + rounds v ino.size (off + buf.length) := by
  have hlen : 0 < l.length := List.length_pos_of_ne_nil h.nonempty
  have hfirst : l.getD 0 0 = ino.firstCluster := by
    obtain ⟨y, l, rfl⟩ := List.exists_cons_of_ne_nil h.nonempty
    exact h.chain.cons.1
  have hf2 : ¬ ino.firstCluster < 2 := by
    rw [← hfirst, List.getD_eq_getElem _ _ hlen]
    exact Nat.not_lt.mpr (h.chain.range _ (List.getElem_mem hlen)).1
  -- the chain is made longer if the file grows
  have hgrow : ∃ r d1 l2, (if off + buf.length > ino.size then
        if ino.firstCluster < 2 then some (.error "empty file, not supported yet", d)
        else extend v (off + buf.length) (off + buf.length + 1) d ino.size ino.firstCluster
      else some (.ok (), d)) = some (r, d1) ∧ Extended v ino.firstCluster d l d1 l2 ∧ freeClusters v d = l2 ++ freeClusters v d1 ∧
      (r = .ok () ∧ (l ++ l2).length = max l.length (1 + rounds v ino.size (off + buf.length)) ∨
        r = .error "no free clusters" ∧ (∀ c, 2 ≤ c → c < v.total → v.readFatEntry d1 c ≠ 0) ∧
          (l ++ l2).length < 1 + rounds v ino.size (off + buf.length)) := by
    rw [if_neg hf2]
    split
    · have hn : rounds v ino.size (off + buf.length) < off + buf.length + 1 := by
        unfold rounds
        have := Nat.div_le_self (off + buf.length - ino.size - 1) v.clusBytes
        omega
      obtain ⟨r, d1, l2, he, hE, hfree, hc⟩ := extend_eq h.wf h.chain hlen hn
      rw [hfirst] at he
      rw [Nat.zero_add] at hc
      exact ⟨r, d1, l2, he, hE, hfree, hc⟩
    · refine ⟨.ok (), d, [], rfl, .refl h.chain, rfl, Or.inl ⟨rfl, ?_⟩⟩
      have hr : rounds v ino.size (off + buf.length) = 0 := by
        unfold rounds
        rw [show off + buf.length - ino.size - 1 = 0 by omega, Nat.zero_div]
      rw [hr, List.append_nil]
      omega
  obtain ⟨r, d1, l2, hg, hE, hfree, hc⟩ := hgrow
  have hne : ¬ buf.isEmpty = true := by rwa [List.isEmpty_iff]
  have hmax : (if off + buf.length > ino.size then off + buf.length else ino.size) = max ino.size (off + buf.length) := by
    split <;> omega
  rcases hc with ⟨rfl, hl⟩ | ⟨rfl, hno, hl⟩
  · left
    have h1 := h.extended hE
    obtain ⟨d2, hw, hW, hbytes⟩ := @writeData_eq _ _ _ _ _ h1.chain h.wf h1.nonempty off _ (Nat.le_refl buf.length)
    obtain ⟨r', d', hu, hU⟩ := updateEntrySize_eq (h1.keep hW).root h.wf ino.firstCluster (max ino.size (off + buf.length))
    refine ⟨d', l2, ?_, ⟨hl, d1, d2, hE, hW, hbytes, hU⟩, ?_⟩
    · unfold Fat32Inode.writeAt
      dsimp only
      rw [if_neg hne, hg, Option.bind_some]
      dsimp only
      rw [hw]
      dsimp only
      rw [hmax, hu]
      rfl
    · have hUw := hU.written (h1.keep hW).root h.wf
      rw [hfree, @freeClusters_congr v d1 d' h.wf fun x _ hx => by rw [hUw.fat x hx, hW.fat x hx]]
  · right
    refine ⟨d1, l2, ?_, hE, hfree, hno, hl⟩
    unfold Fat32Inode.writeAt
    dsimp only
    rw [if_neg hne, hg, Option.bind_some]

end Myos.Fat
