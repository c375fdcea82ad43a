/-
  Myos.Vmalloc.Pages — the page loops of `kernel/vmalloc.c` against the page tables and the
  buddy.

  Proved: mapping pages of the range changes no other entry, and with a free page for every
  table missing on the way to one of them maps them all; unmapping leaves none of them mapped
  and changes no other entry; pages are allocated all or none.
-/

import Myos.Mm.PageFault
import Myos.Vmalloc.Mappings

namespace Myos.Vmalloc

open Mm Pmm Lib.Walk Lib.Dyadic
open Vmap (vmallocStart vmallocEnd)

/-- `x` is in one of the `n` pages from `va` on. -/
def InPages (va n x : Nat) : Prop := va ≤ x ∧ x < va + n * pageSize

section

variable {m m' m'' : Machine} {R : Set Nat} {K : Set (Nat × Nat)} {rf : Nat → Nat} {va n prot : Nat}

theorem InRange.kernel {x : Nat} (h : InRange x) : isUserAddr x = false := by
  have h1 : 0xffff000000000000 ≤ x := h.1
  unfold isUserAddr
  rw [Nat.shiftRight_eq_div_pow, beq_eq_false_iff_ne]
  omega

theorem InRange.l0Table {x : Nat} (h : InRange x) : m.l0Table x = m.ttbr1 := by
  unfold Machine.l0Table
  rw [h.kernel, if_neg Bool.false_ne_true]

/-- Two addresses of the range have one leaf entry if they are in one page. -/
theorem InRange.path_iff {x y : Nat} (hx : InRange x) (hy : InRange y) :
    (dirs y = dirs x ∧ l3Index y = l3Index x) ↔ y / pageSize = x / pageSize := by
  have h1 : 0xffff000000000000 ≤ x := hx.1
  have h2 : x < 0xffff001000000000 := hx.2
  have h3 : 0xffff000000000000 ≤ y := hy.1
  have h4 : y < 0xffff001000000000 := hy.2
  rw [Mm.path_iff, Nat.shiftRight_eq_div_pow, Nat.shiftRight_eq_div_pow]
  unfold pageSize
  omega

theorem InPages.head {x : Nat} (hva : pageSize ∣ va) (h : ¬ InPages va (n + 1) x) :
    x / pageSize ≠ va / pageSize ∧ ¬ InPages (va + pageSize) n x := by
  unfold InPages at *
  rw [Nat.succ_mul] at h
  refine ⟨fun e => ?_, by omega⟩
  obtain ⟨c, rfl⟩ := hva
  unfold pageSize at *
  omega

/-- `m'` differs from `m` in the entries of `n` pages at `va` at most. -/
structure Remapped (R : Set Nat) (K : Set (Nat × Nat)) (rf : Nat → Nat) (va n : Nat) (m m' : Machine) : Prop where
  owned : Owned m' R K rf
  ttbr0 : m'.ttbr0 = m.ttbr0
  ttbr1 : m'.ttbr1 = m.ttbr1
  start : m'.pmm.buddyMemStart = m.pmm.buddyMemStart
  other : ∀ x, InRange x → ¬ InPages va n x → m'.translate x = m.translate x

theorem Remapped.refl (h : Owned m R K rf) : Remapped R K rf va 0 m m := ⟨h, rfl, rfl, rfl, fun _ _ _ => rfl⟩

/-- One page, then the rest. -/
theorem Remapped.cons (hva : pageSize ∣ va) (h1 : Remapped R K rf va 1 m m') (h2 : Remapped R K rf (va + pageSize) n m' m'') :
    Remapped R K rf va (n + 1) m m'' := by
  refine ⟨h2.owned, h2.ttbr0.trans h1.ttbr0, h2.ttbr1.trans h1.ttbr1, h2.start.trans h1.start, fun x hx hn => ?_⟩
  obtain ⟨hne, hn'⟩ := InPages.head hva hn
  refine (h2.other x hx hn').trans (h1.other x hx fun h => hn ⟨h.1, ?_⟩)
  have := h.2
  rw [Nat.succ_mul]
  omega

theorem stepped_remapped (h : Stepped R K rf m m') (hr : m.ttbr1 ∈ R) : Remapped R K rf va n m m' := by
  refine ⟨h.owned, h.quiet.ttbr0, h.quiet.ttbr1, h.quiet.start, fun x hx _ => ?_⟩
  rw [Machine.translate, Machine.translate, hx.l0Table, hx.l0Table, h.quiet.ttbr1]
  exact h.quiet.entry m.ttbr1 hr (dirs x) rfl _

theorem wrote_translate {v x : Nat} (h : Wrote R rf m m' m.ttbr1 (dirs va) (l3Index va) v) (hr : m.ttbr1 ∈ R)
    (hva : InRange va) (hx : InRange x) :
    m'.translate x = if x / pageSize = va / pageSize then v else m.translate x := by
  rw [Machine.translate, Machine.translate, hx.l0Table, hx.l0Table, h.ttbr1, h.entry m.ttbr1 hr (dirs x) rfl]
  exact if_congr ⟨fun e => (hva.path_iff hx).mp e.2, fun e => ⟨rfl, (hva.path_iff hx).mpr e⟩⟩ rfl rfl

theorem wrote_remapped {v : Nat} (h : Wrote R rf m m' m.ttbr1 (dirs va) (l3Index va) v) (ho : Owned m' R K rf)
    (hr : m.ttbr1 ∈ R) (hva : InRange va) (hal : pageSize ∣ va) : Remapped R K rf va 1 m m' := by
  refine ⟨ho, h.ttbr0, h.ttbr1, h.start, fun x hx hn => ?_⟩
  rw [wrote_translate h hr hva hx, if_neg (InPages.head hal hn).1]

/-! ## Mapping and unmapping -/

/-- The pages of a range that lies in the whole range. -/
def Inside (va n : Nat) : Prop := pageSize ∣ va ∧ ∀ i, i < n → InRange (va + i * pageSize)

theorem Inside.first (h : Inside va (n + 1)) : InRange va := by
  have := h.2 0 (Nat.succ_pos n)
  rwa [Nat.zero_mul, Nat.add_zero] at this

theorem Inside.rest (h : Inside va (n + 1)) : Inside (va + pageSize) n := by
  refine ⟨Nat.dvd_add h.1 (Nat.dvd_refl _), fun i hi => ?_⟩
  have := h.2 (i + 1) (Nat.succ_lt_succ hi)
  rwa [Nat.succ_mul, Nat.add_comm (i * pageSize), ← Nat.add_assoc] at this

/-- One page is mapped, or no entry changed. -/
theorem mapKernelPage_spec (h : Owned m R K rf) (hr : m.ttbr1 ∈ R) (hva : InRange va) (hal : pageSize ∣ va)
    (hp : ProtOk prot) (pa : Nat) : Remapped R K rf va 1 m (mapKernelPage m va pa prot) ∧
      ((mapPage m va pa prot).2 = 0 → (mapKernelPage m va pa prot).translate va = mkPte prot pa) := by
  have hl : m.l0Table va = m.ttbr1 := hva.l0Table
  have hM : (mapPage m va pa prot).2 = -1 ∧ _ ∨ _ := mapPage_spec h (by rw [hl]; exact hr) hp.lt
  rcases hM with ⟨he, hs⟩ | ⟨-, ho, hW⟩
  · exact ⟨stepped_remapped hs hr, fun h0 => absurd (h0.symm.trans he) (by decide)⟩
  · rw [hl] at hW
    refine ⟨wrote_remapped hW ho hr hva hal, fun _ => ?_⟩
    exact (wrote_translate hW hr hva hva).trans (if_pos rfl)

theorem mapPages_remapped (hp : ProtOk prot) : ∀ {pas : List Nat} {m : Machine} {va : Nat}, Owned m R K rf → m.ttbr1 ∈ R →
    Inside va pas.length → Remapped R K rf va pas.length m (mapPages m va prot pas) := by
  intro pas
  induction pas with
  | nil => intro m va h _ _; exact Remapped.refl h
  | cons pa pas ih =>
    intro m va h hr hin
    have h1 := (mapKernelPage_spec h hr hin.first hin.1 hp pa).1
    exact h1.cons hin.1 (ih h1.owned (by rw [h1.ttbr1]; exact hr) hin.rest)

theorem unmapPage_spec (h : Owned m R K rf) (hr : m.ttbr1 ∈ R) (h0 : m.ttbr1 ≠ 0) (hva : InRange va) (hal : pageSize ∣ va) :
    Remapped R K rf va 1 m (unmapPage m va) ∧ ptePresent ((unmapPage m va).translate va) = false := by
  have hl : m.l0Table va = m.ttbr1 := hva.l0Table
  cases hp : ptePresent (m.translate va) with
  | false =>
    rw [unmapPage_absent (by rw [hl]; exact h0) hp]
    exact ⟨⟨h, rfl, rfl, rfl, fun _ _ _ => rfl⟩, hp⟩
  | true =>
    have hU := unmapPage_present h (by rw [hl]; exact hr) (by rw [hl]; exact h0) hp
    rw [hl] at hU
    refine ⟨wrote_remapped hU.wrote hU.owned hr hva hal, ?_⟩
    rw [wrote_translate hU.wrote hr hva hva, if_pos rfl, ptePresent_zero]

theorem unmapPages_spec : ∀ {n : Nat} {m : Machine} {va : Nat}, Owned m R K rf → m.ttbr1 ∈ R → m.ttbr1 ≠ 0 → Inside va n →
    Remapped R K rf va n m (unmapPages m va n) ∧
      ∀ x, InRange x → InPages va n x → ptePresent ((unmapPages m va n).translate x) = false := by
  intro n
  induction n with
  | zero =>
    intro m va h _ _ _
    exact ⟨Remapped.refl h, fun x _ hx => absurd hx.2 (by have := hx.1; omega)⟩
  | succ n ih =>
    intro m va h hr h0 hin
    obtain ⟨h1, hno⟩ := unmapPage_spec h hr h0 hin.first hin.1
    obtain ⟨h2, hrest⟩ := ih h1.owned (by rw [h1.ttbr1]; exact hr) (by rw [h1.ttbr1]; exact h0) hin.rest
    refine ⟨h1.cons hin.1 h2, fun x hx hp => ?_⟩
    by_cases hp' : InPages (va + pageSize) n x
    · exact hrest x hx hp'
    · show ptePresent ((unmapPages (unmapPage m va) (va + pageSize) n).translate x) = false
      rw [h2.other x hx hp']
      -- the first page
      have hk : x / pageSize = va / pageSize := by
        obtain ⟨c, rfl⟩ := hin.1
        unfold InPages at hp hp'
        rw [Nat.succ_mul] at hp
        unfold pageSize at *
        omega
      have he : (unmapPage m va).translate x = (unmapPage m va).translate va := by
        rw [Machine.translate, Machine.translate, hx.l0Table, hin.first.l0Table, ((hin.first.path_iff hx).mpr hk).1,
          ((hin.first.path_iff hx).mpr hk).2]
      rw [he]
      exact hno

/-! ## Missing tables -/

/-- The paths to the tables on the way to an address. -/
def tablePaths (va : Nat) : Finset (List Idx) := {(dirs va).take 1, (dirs va).take 2, dirs va}

/-- Those on the way to one of `n` pages. -/
def pagePaths (va n : Nat) : Finset (List Idx) := (Finset.range n).biUnion fun i => tablePaths (va + i * pageSize)

/-- Those of the paths `S` at the end of which there is no table yet. -/
def missing (m : Machine) (r : Nat) (S : Finset (List Idx)) : Finset (List Idx) := S.filter fun q => walk (child m.mem) r q = none

theorem length_tablePaths {q : List Idx} {x : Nat} (h : q ∈ tablePaths x) : q.length ≤ 3 := by
  simp only [tablePaths, Finset.mem_insert, Finset.mem_singleton] at h
  rcases h with rfl | rfl | rfl
  · exact (List.length_take_le 1 _).trans (by decide)
  · exact (List.length_take_le 2 _).trans (by decide)
  · exact Nat.le_refl 3

theorem length_pagePaths {q : List Idx} (h : q ∈ pagePaths va n) : q.length ≤ 3 := by
  obtain ⟨i, -, h⟩ := Finset.mem_biUnion.mp h
  exact length_tablePaths h

theorem missing_congr {r : Nat} {S : Finset (List Idx)} (hS : ∀ q ∈ S, q.length ≤ 3)
    (h : ∀ q : List Idx, q.length ≤ 3 → walk (child m'.mem) r q = walk (child m.mem) r q) : missing m' r S = missing m r S :=
  Finset.filter_congr fun q hq => by rw [h q (hS q hq)]

/-- With room for the missing tables the next one is found or made, and there is room for the others. -/
theorem nextTable_room (h : Owned m R K rf) {r t k : Nat} {q : List Idx} {i : Idx} {S : Finset (List Idx)} (hr : r ∈ R)
    (hq : q.length < 3) (ht : walk (child m.mem) r q = some t) (hS : ∀ q ∈ S, q.length ≤ 3) (hi : q ++ [i] ∈ S)
    (hroom : Room m.pmm (k + (missing m r S).card)) : ∃ m' c, nextTable m t i = (m', some c) ∧ Stepped R K rf m m' ∧
      walk (child m'.mem) r (q ++ [i]) = some c ∧ Room m'.pmm (k + (missing m' r S).card) := by
  have hwi : walk (child m.mem) r (q ++ [i]) = child m.mem t i := by rw [walk_snoc, ht, Option.bind_some]
  rcases nextTable_cases h hr hq ht i with ⟨c, hc, he⟩ | ⟨hc, e, -, hno⟩ | ⟨hc, p, m', he, ho, hQ, hw, -, hA⟩
  · exact ⟨m, c, he, ⟨h, Quiet.rfl' m⟩, hwi.trans hc, hroom⟩
  · have hm : q ++ [i] ∈ missing m r S := Finset.mem_filter.mpr ⟨hi, hwi.trans hc⟩
    obtain ⟨n, hn⟩ := Nat.exists_eq_succ_of_ne_zero (Finset.card_ne_zero_of_mem hm)
    rw [hn, Nat.add_succ] at hroom
    exact absurd hroom (hno _)
  · have hm : q ++ [i] ∈ missing m r S := Finset.mem_filter.mpr ⟨hi, hwi.trans hc⟩
    have hm' : missing m' r S = (missing m r S).erase (q ++ [i]) := by
      ext q'
      simp only [missing, Finset.mem_filter, Finset.mem_erase]
      constructor
      · intro hx
        have hw' := hw r hr q' (hS q' hx.1)
        rw [hx.2] at hw'
        split at hw'
        · cases hw'
        · next hne => exact ⟨fun e => hne ⟨rfl, e⟩, hx.1, hw'.symm⟩
      · intro hx
        refine ⟨hx.2.1, ?_⟩
        rw [hw r hr q' (hS q' hx.2.1), if_neg fun e => hx.1 e.2]
        exact hx.2.2
    refine ⟨m', pfnToPa p, he, ⟨ho, hQ⟩, ?_, ?_⟩
    · rw [hw r hr _ (by rw [List.length_append, List.length_singleton]; omega), if_pos ⟨rfl, rfl⟩]
    · rw [hm', Finset.card_erase_of_mem hm]
      have := Finset.card_pos.mpr ⟨_, hm⟩
      exact Room.less (by rwa [Nat.add_assoc, Nat.sub_add_cancel this]) hA

/-- With room for the missing tables a page is mapped, and there is room for the others. -/
theorem mapPage_room (h : Owned m R K rf) (hp : ProtOk prot) {k : Nat} {S : Finset (List Idx)} (pa : Nat) (hr : m.l0Table va ∈ R)
    (h0 : m.l0Table va ≠ 0) (hS : ∀ q ∈ S, q.length ≤ 3) (hva : tablePaths va ⊆ S)
    (hroom : Room m.pmm (k + (missing m (m.l0Table va) S).card)) : (mapPage m va pa prot).2 = 0 ∧
      Room (mapPage m va pa prot).1.pmm (k + (missing (mapPage m va pa prot).1 (m.l0Table va) S).card) := by
  have hq : ∀ q : List Idx, q ∈ tablePaths va → q ∈ S := fun q hq => hva hq
  rw [mapPage_eq m pa prot h0]
  obtain ⟨m1, l1, e1, s1, w1, r1⟩ := nextTable_room h hr (q := []) (by simp) (walk_nil _ _) hS
    (hq [l0Index va] (by simp [tablePaths, dirs])) hroom
  rw [e1, withTable_some _ rfl]
  obtain ⟨m2, l2, e2, s2, w2, r2⟩ := nextTable_room s1.owned hr (q := [l0Index va]) (by simp) w1 hS
    (hq [l0Index va, l1Index va] (by simp [tablePaths, dirs])) r1
  dsimp only
  rw [e2, withTable_some _ rfl]
  obtain ⟨m3, l3, e3, s3, w3, r3⟩ := nextTable_room s2.owned hr (q := [l0Index va, l1Index va]) (by simp) w2 hS
    (hq (dirs va) (by simp [tablePaths])) r2
  dsimp only
  rw [e3, withTable_some _ rfl]
  dsimp only
  refine ⟨rfl, ?_⟩
  have hw := (s3.owned.setLeaf hr rfl w3 (l3Index va) (show mkPte prot pa < 2 ^ 64 from mkPte_lt hp.lt)).2.2
  rw [setPte_pmm, missing_congr hS fun q hq => hw _ hr q hq]
  exact r3

/-- With room for the missing tables every page is mapped. -/
theorem mapPages_room (hp : ProtOk prot) {k : Nat} {S : Finset (List Idx)} (hS : ∀ q ∈ S, q.length ≤ 3) :
    ∀ {pas : List Nat} {m : Machine} {va : Nat}, Owned m R K rf → m.ttbr1 ∈ R → m.ttbr1 ≠ 0 → Inside va pas.length →
    (∀ i, i < pas.length → tablePaths (va + i * pageSize) ⊆ S) → Room m.pmm (k + (missing m m.ttbr1 S).card) →
    ∀ i pa, pas[i]? = some pa → (mapPages m va prot pas).translate (va + i * pageSize) = mkPte prot pa := by
  intro pas
  induction pas with
  | nil => intro m va _ _ _ _ _ _ i pa hi; cases hi
  | cons p pas ih =>
    intro m va h hr h0 hin hways hroom i pa hi
    obtain ⟨h1, hmap⟩ := mapKernelPage_spec h hr hin.first hin.1 hp p
    have hl : m.l0Table va = m.ttbr1 := hin.first.l0Table
    have hva : tablePaths va ⊆ S := by
      have := hways 0 (Nat.succ_pos _)
      rwa [Nat.zero_mul, Nat.add_zero] at this
    obtain ⟨hz, hroom'⟩ := mapPage_room h hp p (by rw [hl]; exact hr) (by rw [hl]; exact h0) hS hva (by rw [hl]; exact hroom)
    rw [hl, ← h1.ttbr1] at hroom'
    have hrest : ∀ i, va + pageSize + i * pageSize = va + (i + 1) * pageSize := fun i => by
      rw [Nat.succ_mul, Nat.add_assoc, Nat.add_comm pageSize]
    cases i with
    | zero =>
      have h2 := mapPages_remapped hp h1.owned (by rw [h1.ttbr1]; exact hr) hin.rest
      rw [Nat.zero_mul, Nat.add_zero]
      refine (h2.other va hin.first fun hx => ?_).trans ((hmap hz).trans ?_)
      · have := hx.1
        unfold pageSize at this
        omega
      · rw [List.getElem?_cons_zero, Option.some.injEq] at hi
        rw [hi]
    | succ i =>
      have := ih h1.owned (by rw [h1.ttbr1]; exact hr) (by rw [h1.ttbr1]; exact h0) hin.rest
        (fun j hj => by rw [hrest]; exact hways (j + 1) (Nat.succ_lt_succ hj)) hroom' i pa hi
      rwa [hrest] at this

/-! ## Pages of the buddy -/

/-- The tables and the registers are the same; only the allocator changed. -/
structure SameTables (m m' : Machine) : Prop where
  mem : m'.mem = m.mem
  ttbr0 : m'.ttbr0 = m.ttbr0
  ttbr1 : m'.ttbr1 = m.ttbr1
  start : m'.pmm.buddyMemStart = m.pmm.buddyMemStart

theorem SameTables.refl (m : Machine) : SameTables m m := ⟨rfl, rfl, rfl, rfl⟩

theorem SameTables.trans (h1 : SameTables m m') (h2 : SameTables m' m'') : SameTables m m'' :=
  ⟨h2.mem.trans h1.mem, h2.ttbr0.trans h1.ttbr0, h2.ttbr1.trans h1.ttbr1, h2.start.trans h1.start⟩

theorem SameTables.translate (h : SameTables m m') (x : Nat) : m'.translate x = m.translate x := by
  unfold Machine.translate Machine.l0Table
  rw [h.mem, h.ttbr0, h.ttbr1]

/-- The blocks of the pages `ps`. -/
def pageBlocks (ps : List Nat) : Set (Nat × Nat) := {b | b ∈ ps.map fun p => (p, 0)}

theorem pageBlocks_cons (p : Nat) (ps : List Nat) (K : Set (Nat × Nat)) :
    K ∪ pageBlocks (p :: ps) = insert (p, 0) (K ∪ pageBlocks ps) := by
  ext b
  simp only [pageBlocks, List.map_cons, List.mem_cons, Set.mem_union, Set.mem_ofPred_eq, Set.mem_insert_iff]
  exact or_left_comm

theorem mem_pageBlocks {p k : Nat} {ps : List Nat} : (p, k) ∈ pageBlocks ps ↔ p ∈ ps ∧ k = 0 := by
  simp only [pageBlocks, Set.mem_ofPred_eq, List.mem_map, Prod.mk.injEq]
  constructor
  · rintro ⟨q, hq, rfl, rfl⟩
    exact ⟨hq, rfl⟩
  · rintro ⟨hp, rfl⟩
    exact ⟨p, hp, rfl, rfl⟩

theorem freeBlock_tables {p k : Nat} (h : Owned m R (insert (p, k) K) rf) (hK : (p, k) ∉ K) :
    Owned (m.freePhysPages (pfnToPa p) k) R K rf ∧ SameTables m (m.freePhysPages (pfnToPa p) k) ∧
      ∀ q j, Used (m.freePhysPages (pfnToPa p) k).pmm q j ↔ Used m.pmm q j ∧ q ≠ p := by
  obtain ⟨ho, hF⟩ := h.freeBlock hK
  exact ⟨ho, ⟨freePhysPages_mem .., freePhysPages_ttbr0 .., freePhysPages_ttbr1 .., hF.start⟩, hF.used⟩

theorem freePages_spec : ∀ {ps : List Nat} {m : Machine}, Owned m R (K ∪ pageBlocks ps) rf → ps.Nodup →
    (∀ p ∈ ps, (p, 0) ∉ K) → Owned (freePages m (ps.map pfnToPa)) R K rf ∧ SameTables m (freePages m (ps.map pfnToPa)) ∧
      ∀ q k, Used (freePages m (ps.map pfnToPa)).pmm q k ↔ Used m.pmm q k ∧ q ∉ ps := by
  intro ps
  induction ps with
  | nil =>
    intro m h _ _
    have hK : K ∪ pageBlocks [] = K := by simp [pageBlocks]
    rw [hK] at h
    exact ⟨h, ⟨rfl, rfl, rfl, rfl⟩, fun q k => by simp [freePages]⟩
  | cons p ps ih =>
    intro m h hnd hK
    obtain ⟨hp, hnd⟩ := List.nodup_cons.mp hnd
    rw [pageBlocks_cons] at h
    have hnot : (p, 0) ∉ K ∪ pageBlocks ps := by
      rintro (hm | hm)
      · exact hK p (List.mem_cons_self ..) hm
      · exact hp (mem_pageBlocks.1 hm).1
    obtain ⟨h1, hS1, hu1⟩ := freeBlock_tables h hnot
    obtain ⟨h2, hS2, hu2⟩ := ih h1 hnd fun q hq => hK q (List.mem_cons_of_mem _ hq)
    refine ⟨h2, hS1.trans hS2, fun q k => ?_⟩
    show Used (freePages (m.freePhysPages (pfnToPa p) 0) (ps.map pfnToPa)).pmm q k ↔ _
    rw [hu2, hu1, List.mem_cons, not_or, and_assoc]

/-- A block of order `k` leaves room for `2 ^ k` pages less. -/
theorem room_allocAt {s s' : Pmm.State} {p k n : Nat} (h : Room s (n + 2 ^ k)) (hA : AllocAt s s' p k) : Room s' n := by
  obtain ⟨P, hc, hP⟩ := h
  have hkp : kernelPages s' = kernelPages s := by unfold kernelPages; rw [hA.start]
  have hcard : n ≤ (P \ Finset.Ico p (p + 2 ^ k)).card := by
    have h := Finset.le_card_sdiff (Finset.Ico p (p + 2 ^ k)) P
    rwa [Nat.card_Ico, hc, Nat.add_sub_cancel_left, Nat.add_sub_cancel] at h
  obtain ⟨Q, hQ, hQc⟩ := Finset.exists_subset_card_eq hcard
  refine ⟨Q, hQc, fun x hx => ?_⟩
  obtain ⟨hx, hnx⟩ := Finset.mem_sdiff.mp (hQ hx)
  obtain ⟨h1, h2, h3⟩ := hP x hx
  refine ⟨by rw [hkp]; exact h1, h2, fun q j hu hcov => ?_⟩
  rcases (hA.used q j).mp hu with hu | ⟨rfl, rfl⟩
  · exact h3 q j hu hcov
  · exact hnx (Finset.mem_Ico.mpr (by unfold Covers at hcov; omega))

theorem allocPages_none {done : List Nat} (h : (m.allocPage gfpKernel).2 = 0) :
    allocPages m done (n + 1) = (freePages (m.allocPage gfpKernel).1 done, none) := by
  unfold allocPages
  exact if_pos h

theorem allocPages_some {done : List Nat} (h : (m.allocPage gfpKernel).2 ≠ 0) :
    allocPages m done (n + 1) = allocPages (m.allocPage gfpKernel).1 (done ++ [(m.allocPage gfpKernel).2]) n := by
  conv_lhs => unfold allocPages
  exact if_neg h

/-- The pages `done` are back; nothing else changed. -/
structure GivenBack (R : Set Nat) (K : Set (Nat × Nat)) (rf : Nat → Nat) (done : List Nat) (m m' : Machine) : Prop where
  owned : Owned m' R K rf
  tables : SameTables m m'
  used : ∀ q k, Used m'.pmm q k ↔ Used m.pmm q k ∧ q ∉ done

/-- The pages `ps` came to the pages `done`. -/
structure Obtained (R : Set Nat) (K : Set (Nat × Nat)) (rf : Nat → Nat) (done ps : List Nat) (m m' : Machine) : Prop where
  owned : Owned m' R (K ∪ pageBlocks (done ++ ps)) rf
  nodup : (done ++ ps).Nodup
  apart : ∀ p ∈ done ++ ps, (p, 0) ∉ K
  tables : SameTables m m'
  room : ∀ k, Room m'.pmm k ↔ Room m.pmm (k + ps.length)

theorem Obtained.none {done : List Nat} (h : Owned m R (K ∪ pageBlocks done) rf) (hnd : done.Nodup) (hK : ∀ p ∈ done, (p, 0) ∉ K) :
    Obtained R K rf done [] m m := by
  refine ⟨?_, ?_, ?_, SameTables.refl m, fun k => Iff.rfl⟩
  · rwa [List.append_nil]
  · rwa [List.append_nil]
  · rwa [List.append_nil]

theorem NewBlock.tables {p k : Nat} (h : NewBlock m m' R K rf p k) : SameTables m m' := ⟨h.mem, h.ttbr0, h.ttbr1, h.alloc.start⟩

/-- One page came to the pages `done`. -/
theorem NewBlock.obtained {done : List Nat} {p : Nat} (h : NewBlock m m' R (K ∪ pageBlocks done) rf p 0) (hnd : done.Nodup)
    (hK : ∀ p ∈ done, (p, 0) ∉ K) : Obtained R K rf done [p] m m' := by
  have hpd : p ∉ done := fun hm => h.fresh (Or.inr (mem_pageBlocks.2 ⟨hm, rfl⟩))
  refine ⟨?_, ?_, fun q hq => ?_, NewBlock.tables h, fun k => ⟨fun hk => hk.before h.alloc, fun hk => hk.less h.alloc⟩⟩
  · have hb : K ∪ pageBlocks (done ++ [p]) = insert (p, 0) (K ∪ pageBlocks done) := by
      ext b
      simp only [pageBlocks, List.map_append, List.map_cons, List.map_nil, List.mem_append, List.mem_singleton, Set.mem_union,
        Set.mem_ofPred_eq, Set.mem_insert_iff]
      tauto
    rw [hb]
    exact h.owned
  · rw [List.nodup_append]
    refine ⟨hnd, List.nodup_singleton p, fun a ha b hb e => hpd ?_⟩
    rw [← List.mem_singleton.mp hb, ← e]
    exact ha
  · rcases List.mem_append.mp hq with hq | hq
    · exact hK q hq
    · rw [List.mem_singleton.mp hq]
      exact fun hm => h.fresh (Or.inl hm)

/-- A page that was given out and is given back was not in use before. -/
theorem NewBlock.used_back {done : List Nat} {p : Nat} (h : NewBlock m m' R K rf p 0) (q k : Nat) :
    (Used m'.pmm q k ∧ q ∉ done ++ [p]) ↔ Used m.pmm q k ∧ q ∉ done := by
  rw [h.alloc.used, List.mem_append, List.mem_singleton, not_or]
  constructor
  · intro hq
    obtain ⟨hu, hd, hne⟩ := hq
    exact ⟨hu.resolve_right fun e => hne e.1, hd⟩
  · intro hq
    obtain ⟨hu, hd⟩ := hq
    refine ⟨Or.inl hu, hd, fun e => ?_⟩
    subst e
    exact h.alloc.fresh q k q hu (by have := Nat.two_pow_pos k; unfold Covers; omega) (by simp [Covers])

/-- The loop gets all its pages, or gives all of them back. -/
theorem allocPages_spec : ∀ {n : Nat} {m : Machine} {done : List Nat}, Owned m R (K ∪ pageBlocks done) rf → done.Nodup →
    (∀ p ∈ done, (p, 0) ∉ K) →
    (∃ m', allocPages m (done.map pfnToPa) n = (m', none) ∧ GivenBack R K rf done m m') ∨
    ∃ m' ps, allocPages m (done.map pfnToPa) n = (m', some ((done ++ ps).map pfnToPa)) ∧ ps.length = n ∧
      Obtained R K rf done ps m m' := by
  intro n
  induction n with
  | zero =>
    intro m done h hnd hK
    exact Or.inr ⟨m, [], by rw [List.append_nil]; rfl, rfl, Obtained.none h hnd hK⟩
  | succ n ih =>
    intro m done h hnd hK
    rcases h.alloc 0 gfpKernel with ⟨⟨e, he⟩, -⟩ | ⟨p, hp, hN⟩
    · left
      have hm : (m.allocPage gfpKernel).1 = { m with pmm := Pmm.setError m.pmm e } := by
        show ({ m with pmm := (allocPhysPages m.pmm 0 gfpKernel).1 } : Machine) = _
        rw [he]
      rw [allocPages_none (congrArg Prod.snd he), hm]
      obtain ⟨ho, hS, hu⟩ := freePages_spec (h.setError e) hnd hK
      exact ⟨_, rfl, ho, ⟨hS.mem, hS.ttbr0, hS.ttbr1, hS.start⟩, hu⟩
    · have hz : (m.allocPage gfpKernel).2 = pfnToPa p := hp
      have hm : ({ m with pmm := (allocPhysPages m.pmm 0 gfpKernel).1 } : Machine) = (m.allocPage gfpKernel).1 := rfl
      rw [allocPages_some (hz ▸ pfnToPa_ne_zero p), hz]
      rw [hm] at hN
      have hO := NewBlock.obtained hN hnd hK
      generalize (m.allocPage gfpKernel).1 = m1 at *
      have hmap : done.map pfnToPa ++ [pfnToPa p] = (done ++ [p]).map pfnToPa := by rw [List.map_append]; rfl
      rw [hmap]
      rcases ih hO.owned hO.nodup hO.apart with ⟨m', he, hG⟩ | ⟨m', ps, he, rfl, hO'⟩
      · exact Or.inl ⟨m', he, hG.owned, hO.tables.trans hG.tables, fun q k => (hG.used q k).trans (NewBlock.used_back hN q k)⟩
      · rw [List.append_assoc] at he
        refine Or.inr ⟨m', p :: ps, he, rfl, ?_, ?_, ?_, hO.tables.trans hO'.tables, fun k => ?_⟩
        · have := hO'.owned; rwa [List.append_assoc] at this
        · have := hO'.nodup; rwa [List.append_assoc] at this
        · have := hO'.apart; rwa [List.append_assoc] at this
        · rw [hO'.room, hO.room, Nat.add_assoc]
          rfl

theorem union_pageBlocks_nil (K : Set (Nat × Nat)) : K ∪ pageBlocks [] = K := by simp [pageBlocks]

/-- The loop from its start. -/
theorem allocPages_cases (h : Owned m R K rf) (n : Nat) :
    (∃ m', allocPages m [] n = (m', none) ∧ Owned m' R K rf ∧ SameTables m m' ∧ ∀ q k, Used m'.pmm q k ↔ Used m.pmm q k) ∨
    ∃ m' ps, allocPages m [] n = (m', some (ps.map pfnToPa)) ∧ ps.length = n ∧ Owned m' R (K ∪ pageBlocks ps) rf ∧ ps.Nodup ∧
      (∀ p ∈ ps, (p, 0) ∉ K) ∧ SameTables m m' ∧ ∀ k, Room m'.pmm k ↔ Room m.pmm (k + n) := by
  have hK : Owned m R (K ∪ pageBlocks []) rf := by rw [union_pageBlocks_nil]; exact h
  rcases allocPages_spec (n := n) hK List.nodup_nil (fun p hp => by cases hp) with ⟨m', he, hG⟩ | ⟨m', ps, he, rfl, hO⟩
  · refine Or.inl ⟨m', he, hG.owned, hG.tables, fun q k => (hG.used q k).trans ?_⟩
    exact and_iff_left List.not_mem_nil
  · exact Or.inr ⟨m', ps, he, rfl, hO.owned, hO.nodup, hO.apart, hO.tables, hO.room⟩

end

end Myos.Vmalloc
