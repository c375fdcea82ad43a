/-
  Myos.Fat.Endings — when the walks over a FAT end.

  No walk remembers where it was: it goes on until a link leads out of the clusters or it has
  found what it looks for. A device may hold any FAT, with links in a circle too.

  Proved: `free_chain` ends on every FAT, as it takes away the links it follows. Mounting and each
  other walk end exactly if the links, as they are when the walk starts, lead to a cluster
  that stops it.
-/

import Myos.Fat.Loops

namespace Myos.Fat

open Lib Fat32Inner Fat32Inode

variable {v : Fat32Inner} {d : Device} {c c' x n : Nat} {ino : Fat32Inode} {p : Buf → Nat → Bool}

/-- `extend_chain`: the new cluster. -/
def Fat32Inner.extendChain (v : Fat32Inner) (d : Device) (start : Nat) : Option (Except String Nat × Device) :=
  (v.chainTail d chainFuel start).map fun c =>
    match v.allocCluster d with
    | .error e => (.error e, d)
    | .ok (newc, d) => (.ok newc, v.writeFatEntry d c newc)

/-- `remove`, with `n` rounds to free the chain in. -/
def removeIn (n : Nat) (v : Fat32Inner) (d : Device) (ino : Fat32Inode) (name : Str) : Option (Except String Unit × Device) :=
  if !ino.isDir then some (.error "not a dir", d)
  else
    (v.scanChain d (removeMatch name) chainFuel ino.firstCluster).bind fun
      | none => some (.error "not found", d)
      | some (c, i) =>
        let buf := v.readCluster d c
        let d := v.writeCluster d c (Buf.copyAt buf i [0xE5])
        let fc := entCluster buf i
        (if fc ≥ 2 then v.freeChain n d fc else some d).map fun d => (.ok (), d)

theorem remove_eq : ino.remove v d = removeIn chainFuel v d ino := rfl

/-! ## Walks that free -/

/-- The links of a sector of the FAT. -/
def links (v : Fat32Inner) (d : Device) (s : Nat) : Finset Nat :=
  (Finset.range 128).filter fun k => v.readFatEntry d (s * 128 + k) ≠ 0

/-- How many links the sectors hold that a walk can come to. -/
def linkCounts (v : Fat32Inner) (d : Device) (s : Fin (fatEoc / 128 + 1)) : Nat := (links v d s).card

/-- Freeing a cluster with a link takes a link from its sector and leaves those in front as they are. -/
theorem linkCounts_lt (hc : inData c = true) (h0 : v.readFatEntry d c ≠ 0) :
    Pi.Lex (· < ·) (fun {_} => (· < ·)) (linkCounts v (v.writeFatEntry d c 0)) (linkCounts v d) := by
  have hread : ∀ {c'}, c' / 128 ≤ c / 128 → v.readFatEntry (v.writeFatEntry d c 0) c' = if c' = c then 0 else v.readFatEntry d c' :=
    fun {c'} hle => readFatEntry_writeFatEntry_of (by omega)
  have hlt : c < fatEoc := by
    rw [inData, decide_eq_true_eq] at hc
    exact hc.2
  refine ⟨⟨c / 128, Nat.lt_succ_of_le (Nat.div_le_div_right hlt.le)⟩, fun s hs => ?_, ?_⟩
  · have hs : s.val < c / 128 := hs
    unfold linkCounts links
    congr 1
    refine Finset.filter_congr fun k hk => ?_
    rw [Finset.mem_range] at hk
    rw [hread (by omega), if_neg (by omega)]
  · show (links v (v.writeFatEntry d c 0) (c / 128)).card < (links v d (c / 128)).card
    refine Finset.card_lt_card ⟨fun k hk => ?_, fun hsub => ?_⟩
    · rw [links, Finset.mem_filter, Finset.mem_range] at hk ⊢
      have hk2 := hk.2
      rw [hread (by omega)] at hk2
      split at hk2
      · exact absurd rfl hk2
      · exact ⟨hk.1, hk2⟩
    · -- the link of the cluster itself
      have hself : c / 128 * 128 + c % 128 = c := by omega
      have hmem : c % 128 ∈ links v d (c / 128) := by
        rw [links, Finset.mem_filter, Finset.mem_range, hself]
        exact ⟨by omega, h0⟩
      have hk := hsub hmem
      rw [links, Finset.mem_filter, hself, hread (Nat.le_refl _), if_pos rfl] at hk
      exact hk.2 rfl

theorem freeChain_ends (v : Fat32Inner) (d : Device) (c : Nat) : ∃ n, (v.freeChain n d c).isSome = true := by
  have hwf : WellFounded (InvImage (Pi.Lex (· < ·) fun {_} => (· < ·)) (linkCounts v)) :=
    InvImage.wf _ (Pi.Lex.wellFounded _ fun _ => Nat.lt_wfRel.wf)
  induction d using hwf.induction generalizing c with
  | h d ih =>
    by_cases hc : inData c = true
    · by_cases h0 : v.readFatEntry d c = 0
      · -- a free cluster is the last one
        refine ⟨2, ?_⟩
        rw [freeChain, if_pos hc, h0]
        rfl
      · obtain ⟨n, hn⟩ := ih _ (linkCounts_lt hc h0) (v.readFatEntry d c)
        refine ⟨n + 1, ?_⟩
        rw [freeChain, if_pos hc]
        exact hn
    · refine ⟨1, ?_⟩
      rw [freeChain, if_neg hc]
      rfl

/-! ## Walks that look -/

/-- The links from `c` lead out of the clusters, or to a cluster with a slot that `p` picks. -/
def Ends (v : Fat32Inner) (d : Device) (p : Buf → Nat → Bool) (c : Nat) : Prop :=
  LeadsTo v d (fun x => Outside x ∨ ∃ i ∈ v.slots, p (v.readCluster d x) i = true) c

theorem scan_isSome : (v.scanChain d p chainFuel c).isSome = true ↔ Ends v d p c := by
  rw [scanChain_eq_follow, follow_isSome_iff (fun k hk => mem_range_of_inData (scanDone_none (hk k (Nat.le_refl k))).1) card_lt_chainFuel]
  refine exists_congr fun k => ?_
  generalize (v.readFatEntry d)^[k] c = x
  by_cases hx : inData x = true
  · have ho : ¬ Outside x := by rw [Outside, hx]; decide
    rw [Done, scanDone, if_pos hx, Option.isSome_map, List.find?_isSome]
    constructor
    · exact Or.inr
    · exact fun h => h.resolve_left ho
  · have ho : Outside x := Bool.eq_false_iff.mpr hx
    rw [Done, scanDone_outside ho]
    exact iff_of_true rfl (Or.inl ho)

theorem collect_isSome : (collect v d chainFuel c).isSome = true ↔ Ends v d (fun b i => b i = 0) c := by
  have hnone : ∀ x, collectDone v d x = none → inData x = true := fun x hx => by
    by_contra hc
    rw [collectDone, if_neg hc] at hx
    cases hx
  rw [collect_eq_follow, follow_isSome_iff (fun k hk => mem_range_of_inData (hnone _ (hk k (Nat.le_refl k)))) card_lt_chainFuel]
  refine exists_congr fun k => ?_
  generalize (v.readFatEntry d)^[k] c = x
  by_cases hx : inData x = true
  · have ho : ¬ Outside x := by rw [Outside, hx]; decide
    rw [Done, collectDone, if_pos hx]
    show _ ↔ Outside x ∨ ∃ i ∈ v.slots, decide (v.readCluster d x i = 0) = true
    rw [← List.any_eq_true]
    cases hz : v.slots.any fun i => v.readCluster d x i = 0 with
    | true => exact iff_of_true rfl (Or.inr rfl)
    | false => exact iff_of_false Bool.false_ne_true fun h => h.elim ho Bool.false_ne_true
  · have ho : Outside x := Bool.eq_false_iff.mpr hx
    rw [Done, collectDone, if_neg hx]
    exact iff_of_true rfl (Or.inl ho)

/-- The links from `c` lead to an end mark. -/
def HasTail (v : Fat32Inner) (d : Device) (c : Nat) : Prop := LeadsTo v d (fun x => fatEoc ≤ v.readFatEntry d x) c

theorem chainTail_isSome : (v.chainTail d chainFuel c).isSome = true ↔ HasTail v d c := by
  rw [chainTail_eq_follow, follow_isSome_iff (B := insert c (Finset.range fatEoc))]
  · refine exists_congr fun k => ?_
    generalize (v.readFatEntry d)^[k] c = x
    rw [Done]
    split
    · next h => exact iff_of_true rfl h
    · next h => exact iff_of_false Bool.false_ne_true h
  · intro k hk
    cases k with
    | zero => exact Finset.mem_insert_self ..
    | succ k =>
      -- the loop read this number and went on
      have hlast := hk k (Nat.le_succ k)
      apply Finset.mem_insert_of_mem
      rw [Finset.mem_range, Function.iterate_succ_apply']
      by_contra hge
      rw [if_pos (Nat.not_lt.mp hge)] at hlast
      cases hlast
  · calc (insert c (Finset.range fatEoc)).card ≤ (Finset.range fatEoc).card + 1 := Finset.card_insert_le ..
      _ < chainFuel := by
        rw [Finset.card_range]
        exact Nat.lt_succ_self _

/-! ## The calls -/

theorem root_isSome : (root v d).isSome = true ↔ LeadsTo v d Outside v.rootClus := by
  rw [root, Option.isSome_map, chainSize_isSome_iff]

theorem extendChain_isSome : (v.extendChain d c).isSome = true ↔ HasTail v d c := by
  rw [extendChain, Option.isSome_map, chainTail_isSome]

theorem updateEntrySize_isSome : (v.updateEntrySize d c x).isSome = true ↔ Ends v d (sizeMatch c) v.rootClus := by
  rw [updateEntrySize, Option.isSome_map, scan_isSome]

theorem readdir_isSome : (ino.readdir v d).isSome = true ↔ (ino.isDir = true → Ends v d (fun b i => b i = 0) ino.firstCluster) := by
  unfold Fat32Inode.readdir
  cases ino.isDir with
  | false => exact iff_of_true rfl fun h => absurd h Bool.false_ne_true
  | true =>
    rw [if_neg (by decide), Option.isSome_map, collect_isSome]
    exact ⟨fun h _ => h, fun h => h rfl⟩

/-- After a scan only the walk from what it found is left. -/
theorem scan_bind_isSome {α : Type} {k : Option (Nat × Nat) → Option α} (hm : (k none).isSome = true) :
    ((v.scanChain d p chainFuel c).bind k).isSome = true ↔
      Ends v d p c ∧ ∀ x i, Finds v d p c x i → (k (some (x, i))).isSome = true := by
  rw [← scan_isSome]
  cases hs : v.scanChain d p chainFuel c with
  | none => exact iff_of_false Bool.false_ne_true fun h => Bool.false_ne_true h.1
  | some r =>
    rw [Option.bind_some]
    cases r with
    | none =>
      refine iff_of_true hm ⟨rfl, fun x i hf => ?_⟩
      cases hs.symm.trans (finds_iff.2 hf)
    | some xi =>
      refine ⟨fun h => ⟨rfl, fun x i hf => ?_⟩, fun h => h.2 xi.1 xi.2 (finds_iff.1 hs)⟩
      cases hs.symm.trans (finds_iff.2 hf)
      exact h

theorem lookup_isSome {name : Str} : (ino.lookup v d name).isSome = true ↔ Ends v d (lookupMatch name) ino.firstCluster ∧
    ∀ x i, Finds v d (lookupMatch name) ino.firstCluster x i → LeadsTo v d Outside (entCluster (v.readCluster d x) i) := by
  unfold Fat32Inode.lookup
  rw [scan_bind_isSome rfl]
  refine and_congr_right fun _ => forall₂_congr fun x i => imp_congr_right fun _ => ?_
  rw [Option.isSome_map, chainSize_isSome_iff]

/-- A chain that is freed needs no condition. -/
theorem removeIn_ends {name : Str} : (∃ n, (removeIn n v d ino name).isSome = true) ↔
    (ino.isDir = true → Ends v d (removeMatch name) ino.firstCluster) := by
  unfold removeIn
  cases ino.isDir with
  | false => exact iff_of_true ⟨0, rfl⟩ fun h => absurd h Bool.false_ne_true
  | true =>
    simp only [Bool.not_true, Bool.false_eq_true, if_false, scan_bind_isSome, Option.isSome_some, forall_const]
    constructor
    · intro ⟨n, h, _⟩
      exact h
    · intro h
      rcases scan_isSome_iff.1 (scan_isSome.2 h) with hm | ⟨x, i, hf⟩
      · exact ⟨0, h, fun x i hf => absurd hm hf.not_misses⟩
      · obtain ⟨n, hn⟩ := freeChain_ends v (v.writeCluster d x (Buf.copyAt (v.readCluster d x) i [0xE5]))
          (entCluster (v.readCluster d x) i)
        refine ⟨n, h, fun y j hy => ?_⟩
        obtain ⟨rfl, rfl⟩ := hf.unique hy
        rw [Option.isSome_map]
        split
        · exact hn
        · rfl

/-- What `create` walks once it has a cluster: the directory for an unused slot, and without one to its end. -/
def AddEnds (v : Fat32Inner) (d : Device) (first : Nat) : Prop :=
  Ends v d unused first ∧
    (Misses v d unused first → ∀ newc d', v.allocCluster d = .ok (newc, d') → 2 ≤ first → HasTail v d' first)

theorem addEntry_isSome {raw : List UInt8} : (addEntry v d ino raw).isSome = true ↔ AddEnds v d ino.firstCluster := by
  unfold addEntry AddEnds
  rw [← scan_isSome]
  cases hs : v.scanChain d unused chainFuel ino.firstCluster with
  | none => exact iff_of_false Bool.false_ne_true fun h => Bool.false_ne_true h.1
  | some r =>
    rw [Option.bind_some]
    cases r with
    | some xi => exact iff_of_true rfl ⟨rfl, fun hm => absurd hm (finds_iff.mp hs).not_misses⟩
    | none =>
      have hm := misses_iff.mp hs
      dsimp only
      cases ha : v.allocCluster d with
      | error e => exact iff_of_true rfl ⟨rfl, fun _ newc d' h => by cases h⟩
      | ok r =>
        obtain ⟨newc, d'⟩ := r
        dsimp only
        rw [Option.isSome_map]
        by_cases h2 : ino.firstCluster ≥ 2
        · rw [if_pos h2, Option.isSome_map, chainTail_isSome]
          refine ⟨fun h => ⟨rfl, fun _ newc d' he _ => ?_⟩, fun h => h.2 hm newc d' rfl h2⟩
          cases he
          exact h
        · rw [if_neg h2]
          exact iff_of_true rfl ⟨rfl, fun _ _ _ _ h => absurd h h2⟩

theorem create_isSome {name : Str} {isDir : Bool} : (ino.create v d name isDir).isSome = true ↔
    (ino.isDir = true → ∀ raw newc d', encodeShortName name = .ok raw → v.allocCluster d = .ok (newc, d') →
      AddEnds v (if isDir then v.writeCluster d' newc (dirInit newc ino.firstCluster) else d') ino.firstCluster) := by
  unfold Fat32Inode.create
  cases ino.isDir with
  | false => exact iff_of_true rfl fun h => absurd h Bool.false_ne_true
  | true =>
    rw [if_neg (by decide)]
    cases encodeShortName name with
    | error e => exact iff_of_true rfl fun _ _ _ _ h => by cases h
    | ok raw =>
      cases v.allocCluster d with
      | error e => exact iff_of_true rfl fun _ _ _ _ _ h => by cases h
      | ok r =>
        dsimp only
        rw [Option.isSome_map, addEntry_isSome]
        constructor
        · intro h _ raw' newc d' _ ha
          cases ha
          exact h
        · exact fun h => h rfl raw r.1 r.2 rfl rfl

/-- Freeing ends on every FAT; mounting and each other walk end exactly if the links lead to what stops them. -/
theorem walks_end_iff (v : Fat32Inner) (d : Device) :
    (∀ c, ∃ n, (v.freeChain n d c).isSome = true) ∧
    ((root v d).isSome = true ↔ LeadsTo v d Outside v.rootClus) ∧
    (∀ c, (v.chainSize d c).isSome = true ↔ LeadsTo v d Outside c) ∧
    (∀ c, (v.extendChain d c).isSome = true ↔ HasTail v d c) ∧
    (∀ c size, (v.updateEntrySize d c size).isSome = true ↔ Ends v d (sizeMatch c) v.rootClus) ∧
    (∀ ino : Fat32Inode, (ino.readdir v d).isSome = true ↔ (ino.isDir = true → Ends v d (fun b i => b i = 0) ino.firstCluster)) ∧
    (∀ (ino : Fat32Inode) name, (ino.lookup v d name).isSome = true ↔ Ends v d (lookupMatch name) ino.firstCluster ∧
      ∀ x i, Finds v d (lookupMatch name) ino.firstCluster x i → LeadsTo v d Outside (entCluster (v.readCluster d x) i)) ∧
    (∀ (ino : Fat32Inode) name, (∃ n, (removeIn n v d ino name).isSome = true) ↔
      (ino.isDir = true → Ends v d (removeMatch name) ino.firstCluster)) ∧
    (∀ (ino : Fat32Inode) name isDir, (ino.create v d name isDir).isSome = true ↔
      (ino.isDir = true → ∀ raw newc d', encodeShortName name = .ok raw → v.allocCluster d = .ok (newc, d') →
        AddEnds v (if isDir then v.writeCluster d' newc (dirInit newc ino.firstCluster) else d') ino.firstCluster)) :=
  ⟨freeChain_ends v d, root_isSome, fun _ => chainSize_isSome_iff, fun _ => extendChain_isSome,
    fun _ _ => updateEntrySize_isSome, fun _ => readdir_isSome, fun _ _ => lookup_isSome, fun _ _ => removeIn_ends,
    fun _ _ _ => create_isSome⟩

/-! ## A root that is its own next cluster -/

/-- One sector a cluster, one FAT of one sector; the root is cluster 2, and its link leads to itself. -/
def ownLink : Device := fun s =>
  if s = 0 then Buf.copyAt (Buf.copyAt zeroBuf 11 [0, 2, 1, 1, 0, 1]) 36 [1, 0, 0, 0, 0, 0, 0, 0, 2]
  else if s = 1 then Buf.copyAt zeroBuf 8 [2] else zeroBuf

/-- Mounting does not end. -/
theorem ownLink_endless : ¬ ∀ d v, Fat32Inner.new d = .ok v → (root v d).isSome = true := by
  intro h
  have hs := h ownLink ⟨1, 1, 1, 2, 1, 2⟩ (by rfl)
  obtain ⟨k, hk⟩ := root_isSome.1 hs
  have h2 : Fat32Inner.readFatEntry ⟨1, 1, 1, 2, 1, 2⟩ ownLink 2 = 2 := rfl
  have hk : Outside ((Fat32Inner.readFatEntry ⟨1, 1, 1, 2, 1, 2⟩ ownLink)^[k] 2) := hk
  rw [Function.iterate_fixed h2] at hk
  cases hk

end Myos.Fat
