/-
  Myos.Mm.Shortage — exactly when there are too few pages for a mapping.

  `missing m t q` is the number of tables that are not there on the way `q` down from
  `t`. A mapping takes a page for each; one that gets only some of them keeps those it
  got, so a second try needs as many pages more as are free less.

  Proved: a mapping succeeds exactly when a page is free for each missing table, and
  putting a page at an address when there is one more; after a failure the shortage is
  the same.
-/

import Mathlib
import Myos.Mm.PageFault

namespace Myos.Mm

open Pmm Lib.Walk Lib.Dyadic

def missing (m : Machine) : (t : Nat) → List Idx → Nat
  | _, [] => 0
  | t, i :: q => (child m.mem t i).elim (q.length + 1) fun c => missing m c q

section

variable {m m' : Machine} {R : Set Nat} {K : Set (Nat × Nat)} {rf : Nat → Nat} {r t va prot n : Nat} {q u : List Idx}
  {i : Idx}

theorem missing_some {c : Nat} (h : child m.mem t i = some c) : missing m t (i :: q) = missing m c q := by
  rw [missing, h]
  rfl

theorem missing_none (h : child m.mem t i = none) : missing m t (i :: q) = q.length + 1 := by
  rw [missing, h]
  rfl

theorem missing_append : ∀ {r : Nat}, walk (child m.mem) r q = some t → missing m r (q ++ u) = missing m t u := by
  induction q with
  | nil =>
    intro r h
    rw [walk_nil] at h
    cases h
    rfl
  | cons j q ih =>
    intro r h
    cases hc : child m.mem r j with
    | none =>
      simp only [walk, hc, Option.bind_none] at h
      cases h
    | some c =>
      rw [walk_cons hc] at h
      rw [List.cons_append, missing_some hc]
      exact ih h

/-- Only the tables on the way count. -/
theorem missing_congr : ∀ {p : List Idx}, (∀ s : List Idx, s.length ≤ (p ++ q).length →
    walk (child m'.mem) n s = walk (child m.mem) n s) → walk (child m.mem) n p = some t →
    missing m' t q = missing m t q := by
  induction q generalizing t with
  | nil => intro p _ _; rfl
  | cons j q ih =>
    intro p hw hp
    have hp' : walk (child m'.mem) n p = some t := by rw [hw p (by simp), hp]
    have hj : child m'.mem t j = child m.mem t j := by
      have := hw (p ++ [j]) (by simp)
      rwa [walk_snoc, walk_snoc, hp, hp', Option.bind_some, Option.bind_some] at this
    cases hc : child m.mem t j with
    | none => rw [missing_none hc, missing_none (hj.trans hc)]
    | some c =>
      rw [missing_some hc, missing_some (hj.trans hc)]
      refine ih (p := p ++ [j]) (fun s hs => hw s (by simpa using hs)) ?_
      rw [walk_snoc, hp, Option.bind_some, hc]

theorem missing_walks {d : List Idx} (hw : ∀ s : List Idx, s.length ≤ d.length →
    walk (child m'.mem) r s = walk (child m.mem) r s) : missing m' r d = missing m r d :=
  missing_congr (p := []) hw (walk_nil _ _)

/-- No table is missing on the way to a page. -/
theorem missing_present (h : ptePresent (m.translate va) = true) : missing m (m.l0Table va) (dirs va) = 0 := by
  rcases translate_cases m va with ⟨hn, -⟩ | ⟨t1, t2, t3, h1, h2, h3, -⟩
  · rw [h] at hn; cases hn
  · rw [dirs, missing_some h1, missing_some h2, missing_some h3, missing]

/-! ## Free pages -/

theorem Room.alloc_iff {s s' : State} {p : Nat} (hA : AllocAt s s' p 0) : Room s (n + 1) ↔ Room s' n :=
  ⟨fun h => h.less hA, fun h => h.before hA⟩

theorem Room.free_iff {s s' : State} {p : Nat} (hs : Sound s) (hp : Used s p 0) (hF : FreedAt s s' p) :
    Room s' (n + 1) ↔ Room s n := by
  constructor
  · rintro ⟨P, hc, hP⟩
    have hkp : kernelPages s' = kernelPages s := by unfold kernelPages; rw [hF.start]
    have hcard : n ≤ (P.erase p).card := by have := Finset.pred_card_le_card_erase (s := P) (a := p); omega
    obtain ⟨Q, hQ, hQc⟩ := Finset.exists_subset_card_eq hcard
    refine ⟨Q, hQc, fun x hx => ?_⟩
    obtain ⟨hne, hx⟩ := Finset.mem_erase.mp (hQ hx)
    obtain ⟨h1, h2, h3⟩ := hP x hx
    refine ⟨by rw [← hkp]; exact h1, h2, fun q k hu hc => ?_⟩
    by_cases e : q = p
    · subst e
      have := (used_apart hs hu hp (x := q) (by have := Nat.two_pow_pos k; unfold Covers; omega) (by simp [Covers])).2
      subst this
      exact hne (by unfold Covers at hc; omega)
    · exact h3 q k ((hF.used q k).mpr ⟨hu, e⟩) hc
  · intro h
    exact h.more hs hp hF.start fun q k hq => (hF.used q k).mp hq

theorem Room.setError_iff {s : State} (e : BuddyError) : Room (Pmm.setError s e) n ↔ Room s n :=
  ⟨fun h => h.mono rfl fun _ _ hu => hu, fun h => h.mono rfl fun _ _ hu => hu⟩

/-! ## Mapping -/

/-- `m'` lacks as many pages for the way `d` down from `r` as `m`. -/
def SameShortage (m m' : Machine) (r : Nat) (d : List Idx) : Prop :=
  ∀ k, Room m.pmm (missing m r d + k) ↔ Room m'.pmm (missing m' r d + k)

theorem SameShortage.trans {m'' : Machine} {d : List Idx} (h1 : SameShortage m m' r d) (h2 : SameShortage m' m'' r d) :
    SameShortage m m'' r d := fun k => (h1 k).trans (h2 k)

theorem SameShortage.zero {d : List Idx} (h : SameShortage m m' r d) :
    Room m.pmm (missing m r d) ↔ Room m'.pmm (missing m' r d) := by
  have := h 0
  rwa [Nat.add_zero, Nat.add_zero] at this

/-- The next table costs the page that the rest of the way then needs less. -/
theorem nextTable_shortage (h : Owned m R K rf) (hr : r ∈ R) (hq : q.length < 3)
    (ht : walk (child m.mem) r q = some t) :
    SameShortage m (nextTable m t i).1 r (q ++ i :: u) ∧
      ((nextTable m t i).2 = none → ¬ Room (nextTable m t i).1.pmm (missing (nextTable m t i).1 r (q ++ i :: u))) := by
  rcases nextTable_cases h hr hq ht i with ⟨c, hc, he⟩ | ⟨hc, e, he, hno⟩ | ⟨hc, p, m', he, -, -, hw, hz, hA⟩ <;>
    rw [he]
  · exact ⟨fun k => Iff.rfl, nofun⟩
  · have hm : missing { m with pmm := Pmm.setError m.pmm e } r (q ++ i :: u) = missing m r (q ++ i :: u) :=
      missing_walks fun s _ => rfl
    refine ⟨fun k => ?_, fun _ => ?_⟩
    · rw [hm]
      exact (Room.setError_iff e).symm
    · rw [hm, missing_append ht, missing_none hc]
      exact fun hR => hno _ ((Room.setError_iff e).mp hR)
  · have ht' : walk (child m'.mem) r (q ++ [i]) = some (pfnToPa p) := by
      rw [hw r hr _ (by simp; omega), if_pos ⟨rfl, rfl⟩]
    have hm : missing m' r (q ++ i :: u) = u.length := by
      rw [List.append_cons, missing_append ht']
      cases u with
      | nil => rfl
      | cons j u => rw [missing_none (child_none_of_zero (hz j)), List.length_cons]
    refine ⟨fun k => ?_, nofun⟩
    rw [hm, missing_append ht, missing_none hc, Nat.add_right_comm]
    exact Room.alloc_iff hA

theorem mapPage_shortage (h : Owned m R K rf) (pa : Nat) (hr : m.l0Table va ∈ R) (h0 : m.l0Table va ≠ 0)
    (hp : prot < 2 ^ 64) :
    SameShortage m (mapPage m va pa prot).1 (m.l0Table va) (dirs va) ∧
      ((mapPage m va pa prot).2 = 0 ↔ Room m.pmm (missing m (m.l0Table va) (dirs va))) := by
  have fails : ∀ {m' : Machine} {x : Machine × Int}, SameShortage m m' (m.l0Table va) (dirs va) →
      ¬ Room m'.pmm (missing m' (m.l0Table va) (dirs va)) → x.1 = m' ∧ x.2 = -1 →
      SameShortage m x.1 (m.l0Table va) (dirs va) ∧ (x.2 = 0 ↔ Room m.pmm (missing m (m.l0Table va) (dirs va))) := by
    intro m' x hS hno hx
    rw [hx.1, hx.2]
    exact ⟨hS, iff_of_false (by decide) fun hR => hno (hS.zero.mp hR)⟩
  rw [mapPage_eq m pa prot h0]
  obtain ⟨s1, w1⟩ := nextTable_spec h hr (q := []) (by simp) (walk_nil _ _) (l0Index va)
  obtain ⟨S1, n1⟩ := nextTable_shortage (i := l0Index va) (u := [l1Index va, l2Index va]) h hr (q := []) (by simp)
    (walk_nil _ _)
  replace S1 : SameShortage m _ (m.l0Table va) (dirs va) := S1
  generalize nextTable m (m.l0Table va) (l0Index va) = r1 at *
  cases e1 : r1.2 with
  | none => exact fails S1 (n1 e1) (withTable_none _ e1)
  | some l1 =>
    rw [withTable_some _ e1]
    obtain ⟨s2, w2⟩ := nextTable_spec s1.owned hr (q := [l0Index va]) (by simp) (w1 l1 e1) (l1Index va)
    obtain ⟨S2, n2⟩ := nextTable_shortage (i := l1Index va) (u := [l2Index va]) s1.owned hr (q := [l0Index va])
      (by simp) (w1 l1 e1)
    replace S2 := S1.trans (show SameShortage r1.1 _ (m.l0Table va) (dirs va) from S2)
    generalize nextTable r1.1 l1 (l1Index va) = r2 at *
    cases e2 : r2.2 with
    | none => exact fails S2 (n2 e2) (withTable_none _ e2)
    | some l2 =>
      rw [withTable_some _ e2]
      obtain ⟨s3, w3⟩ := nextTable_spec s2.owned hr (q := [l0Index va, l1Index va]) (by simp) (w2 l2 e2) (l2Index va)
      obtain ⟨S3, n3⟩ := nextTable_shortage (i := l2Index va) (u := []) s2.owned hr (q := [l0Index va, l1Index va])
        (by simp) (w2 l2 e2)
      replace S3 := S2.trans (show SameShortage r2.1 _ (m.l0Table va) (dirs va) from S3)
      generalize nextTable r2.1 l2 (l2Index va) = r3 at *
      cases e3 : r3.2 with
      | none => exact fails S3 (n3 e3) (withTable_none _ e3)
      | some l3 =>
        rw [withTable_some _ e3]
        have hw : walk (child r3.1.mem) (m.l0Table va) (dirs va) = some l3 := w3 l3 e3
        have hm : missing r3.1 (m.l0Table va) (dirs va) = 0 := by
          have := missing_append (u := []) hw
          rwa [List.append_nil] at this
        have hm' : missing (r3.1.setPte l3 (l3Index va) (mkPte prot pa)) (m.l0Table va) (dirs va) = 0 := by
          have hv := (s3.owned.setLeaf hr rfl hw (l3Index va) (v := mkPte prot pa) (mkPte_lt hp)).2.2 _ hr
          rw [missing_walks (d := dirs va) hv, hm]
        refine ⟨fun k => ?_, iff_of_true rfl (S3.zero.mpr ?_)⟩
        · rw [S3 k, hm, hm', setPte_pmm]
        · rw [hm]
          exact Room.zero _

/-! ## Putting a page at an address -/

theorem allocPage_room_iff (h : Owned m R K rf) {flags : Nat} (hf : flags &&& gfpDma = 0) :
    (m.allocPage flags).2 ≠ 0 ↔ Room m.pmm 1 := by
  rcases allocPage_cases h hf with ⟨he, -, hno⟩ | ⟨p, hpa, hN⟩
  · exact iff_of_false (not_not.mpr he) hno
  · rw [hpa]
    exact iff_of_true (pfnToPa_ne_zero p) ((Room.alloc_iff hN.alloc).mpr (Room.zero _))

/-- A new root takes one page. -/
theorem createUserPgd_cases (h : Owned m R K rf) :
    ((createUserPgd m).2 = none ∧ ¬ Room m.pmm 1) ∨
    ∃ p, (createUserPgd m).2 = some (pfnToPa p) ∧ AllocAt m.pmm (createUserPgd m).1.pmm p 0 := by
  rcases allocPage_cases h (show 0 &&& gfpDma = 0 by decide) with ⟨h0, -, hno⟩ | ⟨p, hpa, hN⟩
  · exact Or.inl ⟨by rw [createUserPgd, if_pos h0], hno⟩
  · rw [createUserPgd, hpa, if_neg (pfnToPa_ne_zero p)]
    exact Or.inr ⟨p, rfl, hN.alloc⟩

theorem demandPage_room_iff (h : Owned m R K rf) (hr : m.l0Table va ∈ R) (h0 : m.l0Table va ≠ 0) (hp : ProtOk prot) :
    ((demandPage m va prot).2 = .handled ↔ Room m.pmm (missing m (m.l0Table va) (dirs va) + 1)) ∧
      ((demandPage m va prot).2 ≠ .handled → ¬ Room (demandPage m va prot).1.pmm
        (missing (demandPage m va prot).1 (m.l0Table va) (dirs va) + 1)) := by
  rcases demandPage_stages h va prot with ⟨⟨e, he⟩, hno⟩ | ⟨p, m1, -, hA, hP, hl, hd⟩
  · rw [he]
    refine ⟨iff_of_false FaultOutcome.noConfusion fun hR => hno (hR.le (by omega)), fun _ hR => hno ?_⟩
    exact ((Room.setError_iff e).mp hR).le (by omega)
  have hm1 : missing m1 (m.l0Table va) (dirs va) = missing m (m.l0Table va) (dirs va) :=
    missing_walks (d := dirs va) (hP.walks _ hr)
  obtain ⟨hS, hk⟩ := mapPage_shortage hP.owned (pfnToPa p) (by rw [hl]; exact hr) (by rw [hl]; exact h0) hp.lt
  rw [hl, hm1, ← Room.alloc_iff hA] at hk
  rw [hl] at hS
  rw [hd]
  have hspec : _ ∨ _ := @mapPage_spec m1 R K _ hP.owned va (pfnToPa p) prot (by rw [hl]; exact hr) hp.lt
  rcases hspec with ⟨he, hs⟩ | ⟨he, -⟩
  · have hno : ¬ Room m.pmm (missing m (m.l0Table va) (dirs va) + 1) := fun hR => by
      have := hk.mpr hR
      rw [he] at this
      cases this
    rw [if_pos (by rw [he]; decide)]
    dsimp only
    generalize (mapPage m1 va (pfnToPa p) prot).1 = m2 at *
    obtain ⟨-, hF⟩ := (hs.owned.disown (p := p) (by rw [Function.update_self]; exact Nat.one_pos)).freeBlock
      (hs.owned.frame p (by rw [Function.update_self]; exact Nat.one_pos)).2.1
    have hm2 : missing (m2.freePhysPages (pfnToPa p) 0) (m.l0Table va) (dirs va) =
        missing m2 (m.l0Table va) (dirs va) := missing_walks fun s _ => by rw [freePhysPages_mem]
    refine ⟨iff_of_false FaultOutcome.noConfusion hno, fun _ hR => hno ?_⟩
    rw [hm2, Room.free_iff hs.owned.sound
      (hs.owned.frame p (by rw [Function.update_self]; exact Nat.one_pos)).1 hF, ← hS.zero, hm1, ← Room.alloc_iff hA] at hR
    exact hR
  · rw [if_neg (by rw [he]; decide)]
    exact ⟨iff_of_true rfl (hk.mp he), fun hn => absurd rfl hn⟩

/-- A page that was put at `va` took its frame and those of the missing tables. -/
theorem demandPage_takes (h : Owned m R K rf) (hr : m.l0Table va ∈ R) (h0 : m.l0Table va ≠ 0) (hp : ProtOk prot)
    (hd : (demandPage m va prot).2 = .handled) :
    (∀ k, Room m.pmm (missing m (m.l0Table va) (dirs va) + 1 + k) ↔ Room (demandPage m va prot).1.pmm k) ∧
      Grew R m (demandPage m va prot).1 (m.l0Table va) (dirs va) ∧
      missing (demandPage m va prot).1 (m.l0Table va) (dirs va) = 0 := by
  rcases demandPage_stages h va prot with ⟨⟨e, he⟩, -⟩ | ⟨p, m1, -, hA, hP, hl, he⟩ <;> rw [he] at hd ⊢
  · cases hd
  have hm1 : missing m1 (m.l0Table va) (dirs va) = missing m (m.l0Table va) (dirs va) :=
    missing_walks (d := dirs va) (hP.walks _ hr)
  obtain ⟨hS, -⟩ := mapPage_shortage hP.owned (pfnToPa p) (by rw [hl]; exact hr) (by rw [hl]; exact h0) hp.lt
  obtain ⟨hg, -⟩ := @mapPage_grows m1 R K _ hP.owned va (pfnToPa p) prot (by rw [hl]; exact hr) hp.lt
  have hspec : _ ∨ _ := @mapPage_spec m1 R K _ hP.owned va (pfnToPa p) prot (by rw [hl]; exact hr) hp.lt
  rw [hl] at hS hg
  -- a mapping that fails is not reported as handled
  split_ifs at hd ⊢ with hne
  rcases hspec with ⟨he, -⟩ | ⟨-, -, hW⟩
  · exact absurd (by rw [he]; decide) hne
  dsimp only
  generalize (mapPage m1 va (pfnToPa p) prot).1 = m2 at *
  have hl2 : m2.l0Table va = m.l0Table va := (l0Table_congr hW.ttbr0 hW.ttbr1 va).trans hl
  have hzero : missing m2 (m.l0Table va) (dirs va) = 0 := by
    rw [← hl2]
    refine missing_present ?_
    rw [Machine.translate, hl2, ← hl, hW.entry _ (by rw [hl]; exact hr) _ rfl, if_pos ⟨rfl, rfl, rfl⟩]
    exact mkPte_present hp.valid
  refine ⟨fun k => ?_, (Grew.of_walks hP.walks).trans hg, hzero⟩
  have := hS k
  rw [hm1, hzero, Nat.zero_add] at this
  rw [Nat.add_right_comm, Room.alloc_iff hA]
  exact this

end

end Myos.Mm
