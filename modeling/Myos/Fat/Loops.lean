/-
  Myos.Fat.Loops — what the loops over chains return on any image.

  On an image that nobody checked the links can lead anywhere: to free clusters, out of the
  volume, in a circle.

  Proved: each loop that looks returns exactly if the links lead to a cluster that ends it, and
  what a scan for a slot returns then.
-/

import Myos.Lib.Follow
import Myos.Fat.Inode

namespace Myos.Fat

open Lib Fat32Inner Fat32Inode

variable {v : Fat32Inner} {d : Device} {p q : Buf → Nat → Bool} {c x i n : Nat} {l : List Nat} {P : Nat → Prop}

/-- The clusters that the links from `c` lead to, up to the first one with `P`, and that there is one. -/
def LeadsTo (v : Fat32Inner) (d : Device) (P : Nat → Prop) (c : Nat) : Prop := ∃ k, P ((v.readFatEntry d)^[k] c)

/-- The clusters that end every loop. -/
def Outside (c : Nat) : Prop := inData c = false

theorem mem_range_of_inData (h : inData c = true) : c ∈ Finset.range fatEoc := by
  rw [inData, decide_eq_true_eq] at h
  exact Finset.mem_range.mpr h.2

theorem card_lt_chainFuel : (Finset.range fatEoc).card < chainFuel := by
  rw [Finset.card_range]
  exact Nat.lt_add_of_pos_right (by decide)

/-! ## The loops -/

theorem chainLen_eq_follow (n c : Nat) :
    v.chainLen d n c = follow (v.readFatEntry d) (fun c => if inData c then none else some 0) (fun _ k => k + 1) n c := by
  induction n generalizing c with
  | zero => rfl
  | succ n ih =>
    rw [chainLen, follow, ih]
    cases inData c <;> rfl

/-- The result of a scan that ends in this cluster. -/
def scanDone (v : Fat32Inner) (d : Device) (p : Buf → Nat → Bool) (c : Nat) : Option (Option (Nat × Nat)) :=
  if inData c then (v.slots.find? (p (v.readCluster d c))).map fun i => some (c, i) else some none

theorem scanChain_eq_follow (n c : Nat) :
    v.scanChain d p n c = follow (v.readFatEntry d) (scanDone v d p) (fun _ r => r) n c := by
  induction n generalizing c with
  | zero => rfl
  | succ n ih =>
    rw [scanChain, follow, scanDone, ih]
    cases inData c with
    | false => rfl
    | true =>
      cases v.slots.find? (p (v.readCluster d c)) with
      | none =>
        show _ = Option.map _ _
        rw [Option.map_id']
        rfl
      | some i => rfl

/-- The result of a listing that ends in this cluster. -/
def collectDone (v : Fat32Inner) (d : Device) (c : Nat) : Option (List DirEntry) :=
  if inData c then if v.slots.any fun i => v.readCluster d c i = 0 then some (clusterEntries v (v.readCluster d c)) else none
  else some []

theorem collect_eq_follow (n c : Nat) : collect v d n c =
    follow (v.readFatEntry d) (collectDone v d) (fun c es => clusterEntries v (v.readCluster d c) ++ es) n c := by
  induction n generalizing c with
  | zero => rfl
  | succ n ih =>
    rw [collect, follow, collectDone, ih]
    cases inData c with
    | false => rfl
    | true =>
      cases hz : v.slots.any fun i => v.readCluster d c i = 0 with
      | true => simp only [hz, if_true]
      | false => simp only [hz, if_true, Bool.false_eq_true, if_false]

theorem chainTail_eq_follow (n c : Nat) : v.chainTail d n c =
    follow (v.readFatEntry d) (fun c => if v.readFatEntry d c ≥ fatEoc then some c else none) (fun _ z => z) n c := by
  induction n generalizing c with
  | zero => rfl
  | succ n ih =>
    rw [chainTail, follow, ih]
    split
    · rfl
    · exact (Option.map_id' ..).symm

/-! ## When they return -/

theorem chainSize_isSome_iff : (v.chainSize d c).isSome = true ↔ LeadsTo v d Outside c := by
  rw [chainSize, Option.isSome_map, chainLen_eq_follow, follow_isSome_iff (B := Finset.range fatEoc) ?_ card_lt_chainFuel]
  · simp only [Done, LeadsTo, Outside]
    refine exists_congr fun k => ?_
    cases inData ((v.readFatEntry d)^[k] c) <;> simp
  · intro k hk
    apply mem_range_of_inData
    by_contra hd
    have hk := hk k (Nat.le_refl k)
    rw [if_neg hd] at hk
    cases hk

/-! ## Scans -/

/-- Slot `i` of cluster `x` is the first one along the links from `c` that `p` picks. -/
inductive Finds (v : Fat32Inner) (d : Device) (p : Buf → Nat → Bool) : Nat → Nat → Nat → Prop where
  | here {c i : Nat} : inData c = true → v.slots.find? (p (v.readCluster d c)) = some i → Finds v d p c c i
  | next {c x i : Nat} : inData c = true → v.slots.find? (p (v.readCluster d c)) = none →
      Finds v d p (v.readFatEntry d c) x i → Finds v d p c x i

/-- A slot that `p` picks, or an end marker. -/
def orEnd (p : Buf → Nat → Bool) (buf : Buf) (i : Nat) : Bool := buf i = 0 ∨ p buf i

/-- The links from `c` lead out of the clusters, and `p` picks no slot on the way. -/
def Misses (v : Fat32Inner) (d : Device) (p : Buf → Nat → Bool) (c : Nat) : Prop :=
  ∃ l, Chain (v.readFatEntry d) Outside c l ∧ ∀ x ∈ l, ∀ i ∈ v.slots, p (v.readCluster d x) i = false

theorem scanDone_here (hc : inData c = true) (hf : v.slots.find? (p (v.readCluster d c)) = some i) :
    scanDone v d p c = some (some (c, i)) := by
  rw [scanDone, if_pos hc, hf]
  rfl

theorem scanDone_next (hc : inData c = true) (hf : v.slots.find? (p (v.readCluster d c)) = none) : scanDone v d p c = none := by
  rw [scanDone, if_pos hc, hf]
  rfl

theorem scanDone_outside (hc : Outside c) : scanDone v d p c = some none :=
  if_neg (by rw [show inData c = false from hc]; exact Bool.false_ne_true)

theorem scanDone_none (h : scanDone v d p c = none) : inData c = true ∧ v.slots.find? (p (v.readCluster d c)) = none := by
  unfold scanDone at h
  split at h
  · next hc => exact ⟨hc, Option.map_eq_none_iff.mp h⟩
  · cases h

theorem scanChain_iff {r : Option (Nat × Nat)} : v.scanChain d p chainFuel c = some r ↔
    ∃ l, Chain (v.readFatEntry d) (Done (scanDone v d p)) c l ∧ scanDone v d p ((v.readFatEntry d)^[l.length] c) = some r := by
  rw [scanChain_eq_follow, follow_eq_some_iff (fun k hk => mem_range_of_inData (scanDone_none (hk k (Nat.le_refl k))).1) card_lt_chainFuel]
  constructor
  · intro ⟨l, b, hl, hb, he⟩
    have hf : ∀ m : List Nat, m.foldr (fun _ r => r) b = b := fun m => by
      induction m with
      | nil => rfl
      | cons _ _ ih => exact ih
    rw [hf] at he
    exact ⟨l, hl, he ▸ hb⟩
  · intro ⟨l, hl, hb⟩
    refine ⟨l, r, hl, hb, ?_⟩
    induction l generalizing c with
    | nil => rfl
    | cons _ _ ih => cases hl with
      | cons _ h => exact ih h hb

theorem finds_of_scan {x : Nat} (h : v.scanChain d p n c = some (some (x, i))) : Finds v d p c x i := by
  induction n generalizing c with
  | zero => cases h
  | succ n ih =>
    rw [scanChain] at h
    split at h
    · next hc =>
      cases hf : v.slots.find? (p (v.readCluster d c)) with
      | some j =>
        rw [hf] at h
        cases h
        exact .here hc hf
      | none =>
        rw [hf] at h
        exact .next hc hf (ih h)
    · cases h

theorem finds_iff {x : Nat} : v.scanChain d p chainFuel c = some (some (x, i)) ↔ Finds v d p c x i := by
  refine ⟨finds_of_scan, fun h => ?_⟩
  rw [scanChain_iff]
  induction h with
  | here hc hf =>
    have hd := scanDone_here hc hf
    exact ⟨[], .nil (by rw [Done, hd]; rfl), hd⟩
  | next hc hf _ ih =>
    obtain ⟨l, hl, hb⟩ := ih
    exact ⟨_ :: l, .cons (not_done.2 (scanDone_next hc hf)) hl, hb⟩

theorem misses_iff : v.scanChain d p chainFuel c = some none ↔ Misses v d p c := by
  rw [scanChain_iff]
  constructor
  · intro ⟨l, hl, hb⟩
    refine ⟨l, ?_, ?_⟩
    · induction l generalizing c with
      | nil =>
        refine .nil ?_
        have hb : scanDone v d p c = some none := hb
        unfold scanDone at hb
        split at hb
        · cases hf : v.slots.find? (p (v.readCluster d c)) <;> rw [hf] at hb <;> cases hb
        · next hc => exact Bool.eq_false_iff.mpr hc
      | cons y l ih =>
        obtain ⟨rfl, hs, h⟩ := hl.head
        have hc := (scanDone_none (not_done.1 hs)).1
        exact .cons (by rw [Outside, hc]; decide) (ih h hb)
    · intro x hx j hj
      have hf := (scanDone_none (not_done.1 (hl.not_stop hx))).2
      exact Bool.eq_false_iff.mpr (List.find?_eq_none.mp hf j hj)
  · intro ⟨l, hl, hn⟩
    induction hl with
    | nil ho =>
      have hd := scanDone_outside (v := v) (d := d) (p := p) ho
      exact ⟨[], .nil (by rw [Done, hd]; rfl), hd⟩
    | @cons y l hs _ ih =>
      obtain ⟨l', hl', hb⟩ := ih fun x hx => hn x (List.mem_cons_of_mem _ hx)
      have hc : inData y = true := by
        cases h : inData y with
        | true => rfl
        | false => exact absurd h hs
      have hf : v.slots.find? (p (v.readCluster d y)) = none :=
        List.find?_eq_none.mpr fun j hj => Bool.eq_false_iff.mp (hn y (List.mem_cons_self ..) j hj)
      exact ⟨y :: l', .cons (not_done.2 (scanDone_next hc hf)) hl', hb⟩

/-- There is one first slot. -/
theorem Finds.unique {x y j : Nat} (h : Finds v d p c x i) (h' : Finds v d p c y j) : x = y ∧ i = j := by
  have he := (finds_iff.2 h).symm.trans (finds_iff.2 h')
  rw [Option.some.injEq, Option.some.injEq, Prod.mk.injEq] at he
  exact he

theorem Finds.not_misses {x : Nat} (h : Finds v d p c x i) : ¬ Misses v d p c := fun hm => by
  have he := (finds_iff.2 h).symm.trans (misses_iff.2 hm)
  cases he

theorem Finds.slot {x : Nat} (h : Finds v d p c x i) : inData x = true ∧ i ∈ v.slots ∧ p (v.readCluster d x) i = true := by
  induction h with
  | here hc hf => exact ⟨hc, List.mem_of_find?_eq_some hf, List.find?_some hf⟩
  | next _ _ _ ih => exact ih

/-- A pick that is the first of more is the first of fewer. -/
theorem Finds.mono (h : Finds v d q c x i) (hp : p (v.readCluster d x) i = true) (hpq : ∀ b j, p b j = true → q b j = true) :
    Finds v d p c x i := by
  have hnone : ∀ b j, q b j = false → p b j = false := fun b j hq => by
    by_contra hc
    rw [hpq b j (Bool.not_eq_false _ ▸ hc)] at hq
    cases hq
  induction h with
  | here hc hf =>
    refine .here hc ?_
    rw [List.find?_eq_some_iff_append] at hf ⊢
    obtain ⟨-, as, bs, he, ha⟩ := hf
    refine ⟨hp, as, bs, he, fun a hm => ?_⟩
    have := ha a hm
    rw [Bool.not_eq_true'] at this ⊢
    exact hnone _ _ this
  | next hc hf _ ih =>
    refine .next hc ?_ (ih hp)
    rw [List.find?_eq_none] at hf ⊢
    intro j hj
    exact Bool.eq_false_iff.mp (hnone _ _ (Bool.eq_false_iff.mpr (hf j hj)))

theorem find?_or {α : Type*} {p q : α → Bool} {l : List α} {a : α} (hp : l.find? p = some a) (hq : l.find? q = some a) :
    l.find? (fun b => p b || q b) = some a := by
  induction l with
  | nil => cases hp
  | cons b l ih =>
    have hpa := List.find?_some hp
    rw [List.find?_cons] at hp hq ⊢
    by_cases hb : p b = true
    · rw [hb] at hp
      simp only [hb, Bool.true_or]
      exact hp
    · rw [Bool.not_eq_true] at hb
      by_cases hqb : q b = true
      · rw [hqb] at hq
        cases hq
        rw [hb] at hpa
        cases hpa
      · rw [Bool.not_eq_true] at hqb
        rw [hb] at hp
        rw [hqb] at hq
        simp only [hb, hqb, Bool.or_false]
        exact ih hp hq

/-- A slot that is the first one for both is the first one for either. -/
theorem Finds.or {x : Nat} (h : Finds v d p c x i) (h' : Finds v d q c x i) : Finds v d (fun b j => p b j || q b j) c x i := by
  induction h with
  | here hc hf =>
    cases h' with
    | here _ hf' => exact .here hc (find?_or hf hf')
    | next _ hf' h' =>
      obtain ⟨-, hi, hq⟩ := h'.slot
      exact absurd hq (List.find?_eq_none.mp hf' _ hi)
  | @next c x i hc hf h ih =>
    cases h' with
    | here _ _ =>
      obtain ⟨-, hi, hp⟩ := h.slot
      exact absurd hp (List.find?_eq_none.mp hf _ hi)
    | next _ hf' h' =>
      refine .next hc ?_ (ih h')
      rw [List.find?_eq_none] at hf hf' ⊢
      intro j hj hor
      exact (Bool.or_eq_true _ _ ▸ hor).elim (hf j hj) (hf' j hj)

/-- Who picks more finds something too. -/
theorem Finds.exists_of_le {x : Nat} (h : Finds v d p c x i) (hpq : ∀ b j, p b j = true → q b j = true) :
    ∃ y j, Finds v d q c y j := by
  induction h with
  | @here c i hc hf =>
    have hs : (v.slots.find? (q (v.readCluster d c))).isSome = true :=
      List.find?_isSome.mpr ⟨i, List.mem_of_find?_eq_some hf, hpq _ _ (List.find?_some hf)⟩
    obtain ⟨j, hj⟩ := Option.isSome_iff_exists.mp hs
    exact ⟨c, j, .here hc hj⟩
  | @next c x i hc hf _ ih =>
    cases hq : v.slots.find? (q (v.readCluster d c)) with
    | some j => exact ⟨c, j, .here hc hq⟩
    | none =>
      obtain ⟨y, j, h⟩ := ih
      exact ⟨y, j, .next hc hq h⟩

theorem scan_isSome_iff : (v.scanChain d p chainFuel c).isSome = true ↔ Misses v d p c ∨ ∃ x i, Finds v d p c x i := by
  constructor
  · intro h
    obtain ⟨r, hr⟩ := Option.isSome_iff_exists.mp h
    cases r with
    | none => exact Or.inl (misses_iff.1 hr)
    | some xi => exact Or.inr ⟨xi.1, xi.2, finds_iff.1 hr⟩
  · intro h
    rcases h with h | ⟨x, i, h⟩
    · rw [misses_iff.2 h]; rfl
    · rw [finds_iff.2 h]; rfl

/-! ## Lookup -/

variable {f g : Fat32Inode} {name : Str}

/-- The inode of a slot. -/
def slotInode (v : Fat32Inner) (d : Device) (x i size : Nat) : Fat32Inode :=
  ⟨entCluster (v.readCluster d x) i, size, entIsDir (v.readCluster d x) i⟩

theorem lookup_ok_iff : f.lookup v d name = some (.ok g) ↔ ∃ x i size, Finds v d (lookupMatch name) f.firstCluster x i ∧
    v.chainSize d (entCluster (v.readCluster d x) i) = some size ∧ g = slotInode v d x i size := by
  rw [Fat32Inode.lookup, Option.bind_eq_some_iff]
  constructor
  · intro ⟨r, hr, he⟩
    cases r with
    | none => cases he
    | some xi =>
      obtain ⟨size, hs, he⟩ := Option.map_eq_some_iff.mp he
      cases he
      exact ⟨xi.1, xi.2, size, finds_iff.1 hr, hs, rfl⟩
  · intro ⟨x, i, size, hf, hs, he⟩
    subst he
    exact ⟨some (x, i), finds_iff.2 hf, Option.map_eq_some_iff.mpr ⟨size, hs, rfl⟩⟩

/-- A lookup that fails saw the whole chain. -/
theorem lookup_error_iff {e : String} : f.lookup v d name = some (.error e) ↔
    e = "entry not found" ∧ Misses v d (lookupMatch name) f.firstCluster := by
  rw [Fat32Inode.lookup, Option.bind_eq_some_iff]
  constructor
  · intro ⟨r, hr, he⟩
    cases r with
    | none =>
      cases he
      exact ⟨rfl, misses_iff.1 hr⟩
    | some xi =>
      obtain ⟨size, -, he⟩ := Option.map_eq_some_iff.mp he
      cases he
  · intro ⟨he, hm⟩
    subst he
    exact ⟨none, misses_iff.2 hm, rfl⟩

end Myos.Fat
