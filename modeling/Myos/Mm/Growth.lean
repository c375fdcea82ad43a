/-
  Myos.Mm.Growth — which tables a mapping makes, and how many pages it takes.

  `Grew R m m' r d`: only at the directories of the path `d` of the tree `r` may `m'`
  have a table that `m` has not.

  Proved: mapping a page makes tables on the path of its address only; with three pages
  free it succeeds, and takes no more than these.
-/

import Myos.Mm.MapPage

namespace Myos.Mm

open Pmm Lib.Walk Lib.Dyadic

def Grew (R : Set Nat) (m m' : Machine) (r : Nat) (d : List Idx) : Prop :=
  ∀ r' ∈ R, ∀ q : List Idx, q.length ≤ 3 → ¬ (r' = r ∧ q ≠ [] ∧ q <+: d) →
    walk (child m'.mem) r' q = walk (child m.mem) r' q

section

variable {m m' m'' : Machine} {R : Set Nat} {K : Set (Nat × Nat)} {rf : Nat → Nat} {r : Nat} {d d' : List Idx}

theorem Grew.rfl' : Grew R m m r d := fun _ _ _ _ _ => rfl

theorem Grew.trans (h1 : Grew R m m' r d) (h2 : Grew R m' m'' r d) : Grew R m m'' r d :=
  fun r' hr' q hq hn => (h2 r' hr' q hq hn).trans (h1 r' hr' q hq hn)

theorem Grew.mono (h : Grew R m m' r d) (hd : d <+: d') : Grew R m m' r d' :=
  fun r' hr' q hq hn => h r' hr' q hq fun ⟨e, h1, h2⟩ => hn ⟨e, h1, h2.trans hd⟩

theorem Grew.of_walks (h : ∀ r' ∈ R, ∀ q : List Idx, q.length ≤ 3 →
    walk (child m'.mem) r' q = walk (child m.mem) r' q) : Grew R m m' r d := fun r' hr' q hq _ => h r' hr' q hq

theorem Grew.of_mem (h : m'.mem = m.mem) : Grew R m m' r d := Grew.of_walks fun _ _ _ _ => by rw [h]

theorem Room.le {s : State} {n k : Nat} (h : Room s n) (hk : k ≤ n) : Room s k := by
  obtain ⟨P, hc, hP⟩ := h
  obtain ⟨Q, hQ, hQc⟩ := Finset.exists_subset_card_eq (show k ≤ P.card by omega)
  exact ⟨Q, hQc, fun x hx => hP x (hQ hx)⟩

theorem room_le_totalPages {s : State} {n : Nat} (h : Room s n) : n ≤ totalPages := by
  obtain ⟨P, rfl, hP⟩ := h
  have : P ⊆ Finset.range totalPages := fun x hx => Finset.mem_range.mpr (hP x hx).2.1
  exact (Finset.card_le_card this).trans (by rw [Finset.card_range])

theorem Room.setError {s : State} {n : Nat} (h : Room s n) (e : BuddyError) : Room (Pmm.setError s e) n :=
  h.mono rfl fun _ _ hu => hu

theorem nextTable_grows (h : Owned m R K rf) {r t : Nat} {q : List Idx} (hr : r ∈ R) (hq : q.length < 3)
    (ht : walk (child m.mem) r q = some t) (i : Idx) :
    Grew R m (nextTable m t i).1 r (q ++ [i]) ∧
      ∀ n, Room m.pmm (n + 1) → (nextTable m t i).2 ≠ none ∧ Room (nextTable m t i).1.pmm n := by
  rcases nextTable_cases h hr hq ht i with ⟨c, hc, he⟩ | ⟨-, e, he, hno⟩ | ⟨-, p, m', he, -, -, hw, -, hA⟩ <;> rw [he]
  · exact ⟨Grew.rfl', fun n hn => ⟨nofun, hn.le (Nat.le_succ n)⟩⟩
  · exact ⟨Grew.of_mem rfl, fun n hn => absurd hn (hno n)⟩
  · refine ⟨fun r' hr' q' hq' hn => ?_, fun n hn => ⟨nofun, hn.less hA⟩⟩
    rw [hw r' hr' q' hq', if_neg]
    rintro ⟨e, rfl⟩
    exact hn ⟨e, by simp, List.prefix_refl _⟩

theorem setLeaf_grows (h : Owned m R K rf) {t : Nat} {q : List Idx} (hr : r ∈ R) (hq : q.length = 3)
    (ht : walk (child m.mem) r q = some t) (i : Idx) {v : Nat} (hv : v < 2 ^ 64) : Grew R m (m.setPte t i v) r d :=
  Grew.of_walks (h.setLeaf hr hq ht i hv).2.2

theorem mapPage_grows (h : Owned m R K rf) {va pa prot : Nat} (hr : m.l0Table va ∈ R) (hp : prot < 2 ^ 64) :
    Grew R m (mapPage m va pa prot).1 (m.l0Table va) (dirs va) ∧
      (m.l0Table va ≠ 0 → ∀ n, Room m.pmm (n + 3) →
        (mapPage m va pa prot).2 = 0 ∧ Room (mapPage m va pa prot).1.pmm n) := by
  by_cases h0 : m.l0Table va = 0
  · have he : mapPage m va pa prot = (m, -1) := if_pos h0
    rw [he]
    exact ⟨Grew.rfl', fun e => absurd h0 e⟩
  rw [mapPage_eq m pa prot h0]
  obtain ⟨s1, w1⟩ := nextTable_spec h hr (q := []) (by simp) (walk_nil _ _) (l0Index va)
  obtain ⟨g1, k1⟩ := nextTable_grows h hr (q := []) (by simp) (walk_nil _ _) (l0Index va)
  replace g1 : Grew R m _ (m.l0Table va) (dirs va) := g1.mono ⟨[l1Index va, l2Index va], rfl⟩
  generalize nextTable m (m.l0Table va) (l0Index va) = r1 at *
  cases e1 : r1.2 with
  | none =>
    rw [(withTable_none _ e1).1]
    exact ⟨g1, fun _ n hn => absurd e1 (k1 (n + 2) hn).1⟩
  | some l1 =>
    rw [withTable_some _ e1]
    obtain ⟨s2, w2⟩ := nextTable_spec s1.owned hr (q := [l0Index va]) (by simp) (w1 l1 e1) (l1Index va)
    obtain ⟨g2, k2⟩ := nextTable_grows s1.owned hr (q := [l0Index va]) (by simp) (w1 l1 e1) (l1Index va)
    replace g2 : Grew R r1.1 _ (m.l0Table va) (dirs va) := g2.mono ⟨[l2Index va], rfl⟩
    generalize nextTable r1.1 l1 (l1Index va) = r2 at *
    cases e2 : r2.2 with
    | none =>
      rw [(withTable_none _ e2).1]
      exact ⟨g1.trans g2, fun _ n hn => absurd e2 (k2 (n + 1) (k1 (n + 2) hn).2).1⟩
    | some l2 =>
      rw [withTable_some _ e2]
      obtain ⟨s3, w3⟩ := nextTable_spec s2.owned hr (q := [l0Index va, l1Index va]) (by simp) (w2 l2 e2) (l2Index va)
      obtain ⟨g3, k3⟩ := nextTable_grows s2.owned hr (q := [l0Index va, l1Index va]) (by simp) (w2 l2 e2) (l2Index va)
      replace g3 : Grew R r2.1 _ (m.l0Table va) (dirs va) := g3
      generalize nextTable r2.1 l2 (l2Index va) = r3 at *
      have room : ∀ n, Room m.pmm (n + 3) → r3.2 ≠ none ∧ Room r3.1.pmm n := fun n hn =>
        k3 n (k2 (n + 1) (k1 (n + 2) hn).2).2
      cases e3 : r3.2 with
      | none =>
        rw [(withTable_none _ e3).1]
        exact ⟨(g1.trans g2).trans g3, fun _ n hn => absurd e3 (room n hn).1⟩
      | some l3 =>
        rw [withTable_some _ e3]
        have g4 : Grew R r3.1 (r3.1.setPte l3 (l3Index va) (mkPte prot pa)) (m.l0Table va) (dirs va) :=
          setLeaf_grows s3.owned hr (q := dirs va) rfl (w3 l3 e3) (l3Index va) (mkPte_lt hp)
        refine ⟨((g1.trans g2).trans g3).trans g4, fun _ n hn => ⟨rfl, ?_⟩⟩
        rw [setPte_pmm]
        exact (room n hn).2

end

end Myos.Mm
