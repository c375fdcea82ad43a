/-
  Myos.Mm.Frames — pages on their way into and out of the page tables.

  Proved: `Owned` through dropping an empty table, allocating and freeing a block,
  giving a block a reference count, counting references up and down, and taking on or
  giving up a level-0 table.
-/

import Myos.Mm.Ownership

namespace Myos.Mm

open Pmm Lib.Walk Lib.Dyadic

section

variable {m m' : Machine} {R : Set Nat} {K : Set (Nat × Nat)} {rf : Nat → Nat}

/-! ## Blocks -/

/-- What an allocation of one block does to the allocator. -/
structure NewBlock (m m' : Machine) (R : Set Nat) (K : Set (Nat × Nat)) (rf : Nat → Nat) (p k : Nat) : Prop where
  owned : Owned m' R (insert (p, k) K) rf
  fresh : (p, k) ∉ K
  alloc : AllocAt m.pmm m'.pmm p k
  mem : m'.mem = m.mem
  ttbr0 : m'.ttbr0 = m.ttbr0
  ttbr1 : m'.ttbr1 = m.ttbr1

/-- An allocator step that changes neither the blocks nor a count of `rf` keeps `Owned`. -/
theorem Owned.samePmm (h : Owned m R K rf) {s' : State} (hs : Sound s') (hu : ∀ q k, Used s' q k ↔ Used m.pmm q k)
    (hst : s'.buddyMemStart = m.pmm.buddyMemStart)
    (hr : ∀ p, 0 < rf p → (s'.memMap p).refCount = (m.pmm.memMap p).refCount) : Owned { m with pmm := s' } R K rf := by
  refine ⟨hs, h.forest, fun n hn => ?_, fun p k hp => h.owner p k ((hu p k).mp hp),
    fun p k hb => (hu p k).mpr (h.block p k hb), fun p hp => ?_⟩
  · obtain ⟨h1, h2⟩ := h.table n hn
    refine ⟨h1, h2.imp (fun e => ?_) ?_⟩
    · unfold Unmanaged at *; rw [hst]; exact e
    · rintro ⟨p, e1, e2, e3⟩
      exact ⟨p, e1, (hu p 0).mpr e2, e3⟩
  · obtain ⟨h1, h2, h3⟩ := h.frame p hp
    exact ⟨(hu p 0).mpr h1, h2, (hr p hp).trans h3⟩

theorem Owned.setError (h : Owned m R K rf) (e : BuddyError) : Owned { m with pmm := Pmm.setError m.pmm e } R K rf :=
  h.samePmm (h.sound.setError e) (fun _ _ => Iff.rfl) rfl fun _ _ => rfl

theorem Owned.alloc (h : Owned m R K rf) (order flags : Nat) :
    ((∃ e, allocPhysPages m.pmm order flags = (Pmm.setError m.pmm e, 0)) ∧
      (flags &&& gfpDma = 0 → order ≤ maxOrder → ∀ q k, FreeBlk m.pmm q k → k < order)) ∨
    ∃ p, (allocPhysPages m.pmm order flags).2 = pfnToPa p ∧
      NewBlock m { m with pmm := (allocPhysPages m.pmm order flags).1 } R K rf p order := by
  rcases alloc_spec h.sound order flags with hf | ⟨p, hp, hA⟩
  · exact Or.inl hf
  refine Or.inr ⟨p, hp, ?_⟩
  have hnu : ∀ q k, Used m.pmm q k → q ≠ p := by
    rintro q k hu rfl
    have hpos := Nat.two_pow_pos order
    have hpos' := Nat.two_pow_pos k
    exact hA.fresh q k q hu (by unfold Covers; omega) (by unfold Covers; omega)
  have hK : ∀ k, (p, k) ∉ K := fun k hb => hnu p k (h.block p k hb) rfl
  refine ⟨⟨hA.sound, h.forest, ?_, ?_, ?_, ?_⟩, hK order, hA, rfl, rfl, rfl⟩
  · intro n hn
    obtain ⟨h1, h2⟩ := h.table n hn
    refine ⟨h1, h2.imp (fun e => ?_) ?_⟩
    · unfold Unmanaged at *; rw [hA.start]; exact e
    · rintro ⟨q, e1, e2, e3, e4⟩
      refine ⟨q, e1, (hA.used q 0).mpr (Or.inl e2), fun e => ?_, e4⟩
      rcases Set.mem_insert_iff.mp e with e | e
      · simp only [Prod.mk.injEq] at e; exact hnu q 0 e2 e.1
      · exact e3 e
  · intro q k hu
    rcases (hA.used q k).mp hu with hu | ⟨rfl, rfl⟩
    · exact (h.owner q k hu).imp_left (Set.mem_insert_of_mem _)
    · exact Or.inl (Set.mem_insert _ _)
  · intro q k hb
    rcases Set.mem_insert_iff.mp hb with e | hb
    · simp only [Prod.mk.injEq] at e; exact (hA.used q k).mpr (Or.inr e)
    · exact (hA.used q k).mpr (Or.inl (h.block q k hb))
  · intro q hq
    obtain ⟨h1, h2, h3⟩ := h.frame q hq
    have hne := hnu q 0 h1
    refine ⟨(hA.used q 0).mpr (Or.inl h1), fun e => ?_, (hA.refs q hne).trans h3⟩
    rcases Set.mem_insert_iff.mp e with e | e
    · simp only [Prod.mk.injEq] at e; exact hne e.1
    · exact h2 e

theorem Owned.freeBlock {p k : Nat} (h : Owned m R (insert (p, k) K) rf) (hK : (p, k) ∉ K) :
    Owned (m.freePhysPages (pfnToPa p) k) R K rf ∧ FreedAt m.pmm (m.freePhysPages (pfnToPa p) k).pmm p := by
  have hu := h.block p k (Set.mem_insert _ _)
  have hF := free_used h.sound hu
  have hap : ∀ q, Used m.pmm q 0 → (q, 0) ∉ insert (p, k) K → q ≠ p := by
    rintro q hq hb rfl
    have := (used_apart h.sound hq hu (x := q) (by simp [Covers])
      (by have := Nat.two_pow_pos k; unfold Covers; omega)).2
    exact hb (by rw [this]; exact Set.mem_insert _ _)
  have hKp : ∀ j, (p, j) ∉ K := by
    intro j hb
    have hj := h.block p j (Set.mem_insert_of_mem _ hb)
    have := (used_apart h.sound hj hu (x := p) (by have := Nat.two_pow_pos j; unfold Covers; omega)
      (by have := Nat.two_pow_pos k; unfold Covers; omega)).2
    exact hK (this ▸ hb)
  refine ⟨⟨hF.sound, h.forest, ?_, ?_, ?_, ?_⟩, hF⟩
  · intro n hn
    obtain ⟨h1, h2⟩ := h.table n hn
    refine ⟨h1, h2.imp (fun e => ?_) ?_⟩
    · unfold Unmanaged at *
      rw [show (m.freePhysPages (pfnToPa p) k).pmm.buddyMemStart = m.pmm.buddyMemStart from hF.start]
      exact e
    · rintro ⟨q, e1, e2, e3, e4⟩
      exact ⟨q, e1, (hF.used q 0).mpr ⟨e2, hap q e2 e3⟩, fun e => e3 (Set.mem_insert_of_mem _ e), e4⟩
  · intro q j hu'
    obtain ⟨hu', hne⟩ := (hF.used q j).mp hu'
    rcases h.owner q j hu' with hb | hb
    · rcases Set.mem_insert_iff.mp hb with e | hb
      · simp only [Prod.mk.injEq] at e; exact absurd e.1 hne
      · exact Or.inl hb
    · exact Or.inr hb
  · intro q j hb
    refine (hF.used q j).mpr ⟨h.block q j (Set.mem_insert_of_mem _ hb), ?_⟩
    rintro rfl
    exact hKp j hb
  · intro q hq
    obtain ⟨h1, h2, h3⟩ := h.frame q hq
    exact ⟨(hF.used q 0).mpr ⟨h1, hap q h1 h2⟩, fun e => h2 (Set.mem_insert_of_mem _ e), (hF.refs q).trans h3⟩

/-- A release outside the managed memory is refused. -/
theorem Owned.freeUnmanaged (h : Owned m R K rf) {n k : Nat} (hn : Unmanaged m.pmm n) :
    ∃ e, m.freePhysPages n k = { m with pmm := Pmm.setError m.pmm e } := by
  obtain ⟨e, he⟩ := free_refused h.sound fun p e hu => h.not_unmanaged hu (e ▸ hn)
  exact ⟨e, by rw [Machine.freePhysPages, he]⟩

/-! ## Reference counts -/

/-- A block of one page becomes a data frame with the count its descriptor has. -/
theorem Owned.adopt {p : Nat} (h : Owned m R (insert (p, 0) K) rf) (hK : (p, 0) ∉ K) {n : Nat} (hn : 0 < n)
    (hr : (m.pmm.memMap p).refCount = n) : Owned m R K (Function.update rf p n) := by
  have hu := h.block p 0 (Set.mem_insert _ _)
  refine ⟨h.sound, h.forest, ?_, ?_, fun q k hb => h.block q k (Set.mem_insert_of_mem _ hb), ?_⟩
  · intro t ht
    obtain ⟨h1, h2⟩ := h.table t ht
    refine ⟨h1, h2.imp_right ?_⟩
    rintro ⟨q, e1, e2, e3, e4⟩
    have hne : q ≠ p := by rintro rfl; exact e3 (Set.mem_insert _ _)
    exact ⟨q, e1, e2, fun e => e3 (Set.mem_insert_of_mem _ e), by rw [Function.update_of_ne hne]; exact e4⟩
  · intro q k hq
    rcases h.owner q k hq with hb | ⟨rfl, hb⟩
    · rcases Set.mem_insert_iff.mp hb with e | hb
      · simp only [Prod.mk.injEq] at e
        obtain ⟨rfl, rfl⟩ := e
        exact Or.inr ⟨rfl, Or.inr (by rw [Function.update_self]; exact hn)⟩
      · exact Or.inl hb
    · refine Or.inr ⟨rfl, hb.imp_right fun e => ?_⟩
      by_cases hqp : q = p
      · rw [hqp, Function.update_self]; exact hn
      · rw [Function.update_of_ne hqp]; exact e
  · intro q hq
    by_cases hqp : q = p
    · subst hqp
      rw [Function.update_self]
      exact ⟨hu, hK, hr⟩
    · rw [Function.update_of_ne hqp] at hq ⊢
      obtain ⟨h1, h2, h3⟩ := h.frame q hq
      exact ⟨h1, fun e => h2 (Set.mem_insert_of_mem _ e), h3⟩

/-- A data frame becomes a block. -/
theorem Owned.disown {p : Nat} (h : Owned m R K rf) (hp : 0 < rf p) :
    Owned m R (insert (p, 0) K) (Function.update rf p 0) := by
  obtain ⟨hu, hK, hr⟩ := h.frame p hp
  refine ⟨h.sound, h.forest, ?_, ?_, ?_, ?_⟩
  · intro t ht
    obtain ⟨h1, h2⟩ := h.table t ht
    refine ⟨h1, h2.imp_right ?_⟩
    rintro ⟨q, e1, e2, e3, e4⟩
    have hne : q ≠ p := by rintro rfl; omega
    refine ⟨q, e1, e2, fun e => ?_, by rw [Function.update_of_ne hne]; exact e4⟩
    rcases Set.mem_insert_iff.mp e with e | e
    · simp only [Prod.mk.injEq] at e; exact hne e.1
    · exact e3 e
  · intro q k hq
    rcases h.owner q k hq with hb | ⟨rfl, hb⟩
    · exact Or.inl (Set.mem_insert_of_mem _ hb)
    · by_cases hqp : q = p
      · rw [hqp]; exact Or.inl (Set.mem_insert _ _)
      · exact Or.inr ⟨rfl, hb.imp_right fun e => by rw [Function.update_of_ne hqp]; exact e⟩
  · intro q k hb
    rcases Set.mem_insert_iff.mp hb with e | hb
    · simp only [Prod.mk.injEq] at e; rw [e.1, e.2]; exact hu
    · exact h.block q k hb
  · intro q hq
    have hqp : q ≠ p := by rintro rfl; simp at hq
    rw [Function.update_of_ne hqp] at hq ⊢
    obtain ⟨h1, h2, h3⟩ := h.frame q hq
    refine ⟨h1, fun e => ?_, h3⟩
    rcases Set.mem_insert_iff.mp e with e | e
    · simp only [Prod.mk.injEq] at e; exact hqp e.1
    · exact h2 e

theorem Owned.setRef (h : Owned m R K rf) {p n : Nat} (hp : 0 < rf p) (hn : 0 < n) :
    Owned { m with pmm := setPage m.pmm p fun pg => { pg with refCount := n } } R K (Function.update rf p n) := by
  have hs := setRef_spec h.sound p n
  have h1 := (h.disown hp).samePmm hs.sound hs.used hs.start fun q hq => by
    have hqp : q ≠ p := by rintro rfl; simp at hq
    simp [setPage, Function.update_of_ne hqp]
  have h2 := h1.adopt (h.frame p hp).2.1 (n := n) hn (by simp [setPage])
  rwa [Function.update_idem] at h2

/-- The frame at the address of a used page. -/
theorem paToPfn_used {s : State} {p k : Nat} (hu : Used s p k) : paToPfn (pfnToPa p) = p ∧ p < totalPages :=
  ⟨paToPfn_pfnToPa hu.1, hu.1⟩

theorem getPage_start (s : State) (pa : Nat) : (Pmm.getPage s pa).buddyMemStart = s.buddyMemStart := by
  simp only [Pmm.getPage]; split <;> rfl

theorem getPage_used {s : State} (h : Sound s) (pa q k : Nat) : Used (Pmm.getPage s pa) q k ↔ Used s q k := by
  simp only [Pmm.getPage]
  split
  · exact Iff.rfl
  · exact (setRef_spec h (paToPfn pa) (add64 (s.memMap (paToPfn pa)).refCount 1)).used q k

theorem Owned.getPage (h : Owned m R K rf) {p : Nat} (hp : 0 < rf p) (hb : rf p + 1 < 2 ^ 64) :
    Owned (m.getPage (pfnToPa p)) R K (Function.update rf p (rf p + 1)) := by
  obtain ⟨hu, -, hr⟩ := h.frame p hp
  have he : add64 (m.pmm.memMap p).refCount 1 = rf p + 1 := by
    rw [hr]; unfold add64; exact Nat.mod_eq_of_lt hb
  have hg : m.getPage (pfnToPa p) = { m with pmm := setPage m.pmm p fun pg => { pg with refCount := rf p + 1 } } := by
    unfold Machine.getPage Pmm.getPage
    rw [(paToPfn_used hu).1, if_neg (by have := hu.1; omega)]
    simp only [setPage, he]
  rw [hg]
  exact h.setRef hp (by omega)

/-- What dropping one reference does to the allocator: nothing to the blocks, or the frame is freed. -/
theorem Owned.putPage (h : Owned m R K rf) {p : Nat} (hp : 0 < rf p) :
    Owned (m.putPage (pfnToPa p)) R K (Function.update rf p (rf p - 1)) ∧
      ∀ q k, Used (m.putPage (pfnToPa p)).pmm q k ↔ Used m.pmm q k ∧ (q = p → 1 < rf p) := by
  obtain ⟨hu, hK, hr⟩ := h.frame p hp
  have hps : Pmm.putPage m.pmm (pfnToPa p) =
      if rf p - 1 = 0 then freePhysPages (setPage m.pmm p fun pg => { pg with refCount := rf p - 1 }) (pfnToPa p) 0
      else setPage m.pmm p fun pg => { pg with refCount := rf p - 1 } := by
    unfold Pmm.putPage
    rw [(paToPfn_used hu).1, if_neg (by have := hu.1; omega), if_neg (by omega)]
    simp only [setPage, Function.update_self, hr]
  by_cases h1 : rf p - 1 = 0
  · -- the last reference: the frame is a block of nobody, and is freed
    rw [if_pos h1] at hps
    have hs := setRef_spec h.sound p (rf p - 1)
    have hd := (h.disown hp).samePmm hs.sound hs.used hs.start fun q hq => by
      have hqp : q ≠ p := by rintro rfl; simp at hq
      simp [setPage, Function.update_of_ne hqp]
    obtain ⟨ho, hF⟩ := hd.freeBlock hK
    have hm : m.putPage (pfnToPa p) = Machine.freePhysPages
        { m with pmm := setPage m.pmm p fun pg => { pg with refCount := rf p - 1 } } (pfnToPa p) 0 := by
      unfold Machine.putPage Machine.freePhysPages; rw [hps]
    rw [hm]
    have he : Function.update rf p (rf p - 1) = Function.update rf p 0 := by rw [h1]
    refine ⟨by rw [he]; exact ho, fun q k => ?_⟩
    rw [hF.used, hs.used]
    constructor
    · rintro ⟨a, b⟩; exact ⟨a, fun e => absurd e b⟩
    · rintro ⟨a, b⟩; exact ⟨a, fun e => by have := b e; omega⟩
  · rw [if_neg h1] at hps
    have hm : m.putPage (pfnToPa p) =
        { m with pmm := setPage m.pmm p fun pg => { pg with refCount := rf p - 1 } } := by
      unfold Machine.putPage; rw [hps]
    rw [hm]
    refine ⟨h.setRef hp (by omega), fun q k => ?_⟩
    rw [(setRef_spec h.sound p (rf p - 1)).used]
    exact ⟨fun a => ⟨a, fun _ => by omega⟩, fun a => a.1⟩

/-! ## Dropping an empty table -/

/-- Clear the entry of an empty table: the table is a block of nobody, or outside the managed memory. -/
theorem Owned.unlink (h : Owned m R K rf) {r t c : Nat} {q : List Idx} (hr : r ∈ R) (hq : q.length < 3)
    (ht : walk (child m.mem) r q = some t) {i : Idx} (hc : child m.mem t i = some c)
    (hz : ∀ j : Idx, read64 m.mem (c + 8 * j) = 0) :
    (Unmanaged m.pmm c ∧ Owned (m.setPte t i 0) R K rf ∨
      ∃ p, c = pfnToPa p ∧ (p, 0) ∉ K ∧ Owned (m.setPte t i 0) R (insert (p, 0) K) rf) ∧
    (∀ r' ∈ R, ∀ q' : List Idx, q'.length = 3 → ∀ j, entryAt (m.setPte t i 0).mem r' q' j = entryAt m.mem r' q' j) ∧
    (∀ q' : List Idx, q'.length ≤ q.length → walk (child (m.setPte t i 0).mem) r q' = walk (child m.mem) r q') ∧
    ∀ r' ∈ R, ∀ q' : List Idx, q'.length ≤ 3 → ∀ n, walk (child (m.setPte t i 0).mem) r' q' = some n →
      walk (child m.mem) r' q' = some n := by
  have hwc : walk (child m.mem) r (q ++ [i]) = some c := by rw [walk_snoc, ht, Option.bind_some, hc]
  have hTc := h.root_table hr (q := q ++ [i]) (by simp; omega) hwc
  have hU := h.trees.unlink hr hq ht hc hz
  have hpmm : (m.setPte t i 0).pmm = m.pmm := setPte_pmm _ _ _ _
  rw [← setPte_mem m] at hU
  generalize m.setPte t i 0 = m' at *
  have htab := hU.table
  refine ⟨?_, hU.entry, ?_, fun r' hr' q' hq' n hn => ?_⟩
  · rcases (h.table c hTc).2 with hun | ⟨p, hp, hu, hK, hrf⟩
    · refine Or.inl ⟨hun, ⟨by rw [hpmm]; exact h.sound, hU.trees.forest, ?_, ?_, ?_, ?_⟩⟩
      · intro n hn
        rw [hpmm]; exact h.table n ((htab n).mp hn).1
      · intro p k hu
        rw [hpmm] at hu
        refine (h.owner p k hu).imp_right fun e => ⟨e.1, e.2.imp_left fun e' => (htab _).mpr ⟨e', ?_⟩⟩
        rintro rfl
        exact h.not_unmanaged hu hun
      · rw [hpmm]; exact h.block
      · rw [hpmm]; exact h.frame
    · refine Or.inr ⟨p, hp, hK, ⟨by rw [hpmm]; exact h.sound, hU.trees.forest, ?_, ?_, ?_, ?_⟩⟩
      · intro n hn
        rw [hpmm]
        obtain ⟨hn, hne⟩ := (htab n).mp hn
        obtain ⟨h1, h2⟩ := h.table n hn
        refine ⟨h1, h2.imp_right ?_⟩
        rintro ⟨p', e1, e2, e3, e4⟩
        refine ⟨p', e1, e2, fun e => ?_, e4⟩
        rcases Set.mem_insert_iff.mp e with e | e
        · simp only [Prod.mk.injEq] at e; exact hne (by rw [e1, e.1, hp])
        · exact e3 e
      · intro p' k hu'
        rw [hpmm] at hu'
        rcases h.owner p' k hu' with hb | ⟨rfl, hb⟩
        · exact Or.inl (Set.mem_insert_of_mem _ hb)
        · by_cases e : p' = p
          · rw [e]; exact Or.inl (Set.mem_insert _ _)
          · exact Or.inr ⟨rfl, hb.imp_left fun e' => (htab _).mpr ⟨e', fun e'' => e (pfnToPa_inj (e''.trans hp))⟩⟩
      · intro p' k hb
        rw [hpmm]
        rcases Set.mem_insert_iff.mp hb with e | hb
        · simp only [Prod.mk.injEq] at e; rw [e.1, e.2]; exact hu
        · exact h.block p' k hb
      · intro p' hp'
        rw [hpmm]
        obtain ⟨h1, h2, h3⟩ := h.frame p' hp'
        refine ⟨h1, fun e => ?_, h3⟩
        rcases Set.mem_insert_iff.mp e with e | e
        · simp only [Prod.mk.injEq] at e
          rw [e.1, hrf] at hp'; omega
        · exact h2 e
  · intro q' hq'
    rw [hU.walk r hr q' (by omega), if_neg]
    rintro ⟨-, hp⟩
    have := hp.length_le
    simp at this; omega
  · rw [hU.walk r' hr' q' hq'] at hn
    split at hn
    · cases hn
    · exact hn

/-- Clear the entry of an empty table and free the table. -/
theorem Owned.dropTable (h : Owned m R K rf) {r t c : Nat} {q : List Idx} (hr : r ∈ R) (hq : q.length < 3)
    (ht : walk (child m.mem) r q = some t) {i : Idx} (hc : child m.mem t i = some c)
    (hz : ∀ j : Idx, read64 m.mem (c + 8 * j) = 0) :
    Owned (m.dropTable t i c) R K rf ∧
    ∀ p k, Used (m.dropTable t i c).pmm p k ↔ Used m.pmm p k ∧ pfnToPa p ≠ c := by
  unfold Machine.dropTable
  rcases (h.unlink hr hq ht hc hz).1 with ⟨hun, ho⟩ | ⟨p, rfl, hK, ho⟩
  · obtain ⟨e, he⟩ := ho.freeUnmanaged (n := c) (k := 0) hun
    rw [he]
    refine ⟨ho.setError e, fun p k => ⟨fun hu => ⟨hu, ?_⟩, fun hu => hu.1⟩⟩
    rintro rfl
    exact h.not_unmanaged hu hun
  · obtain ⟨h1, h2⟩ := ho.freeBlock hK
    refine ⟨h1, fun q k => (h2.used q k).trans ⟨fun e => ⟨e.1, fun e' => e.2 (pfnToPa_inj e')⟩,
      fun e => ⟨e.1, fun e' => e.2 (by rw [e'])⟩⟩⟩

/-! ## Roots -/

/-- A cleared block becomes a level-0 table. -/
theorem Owned.addRoot {p : Nat} (h : Owned m R (insert (p, 0) K) rf) (hK : (p, 0) ∉ K)
    (hz : ∀ j : Idx, read64 m.mem (pfnToPa p + 8 * j) = 0) :
    Owned m (insert (pfnToPa p) R) K rf ∧ pfnToPa p ∉ R ∧ ∀ q i, entryAt m.mem (pfnToPa p) q i = 0 := by
  have hu : Used m.pmm p 0 := h.block p 0 (Set.mem_insert _ _)
  have hnT : ¬ Table m.mem R (pfnToPa p) := h.block_not_table (Set.mem_insert _ _)
  have hcz : ∀ j, child m.mem (pfnToPa p) j = none := fun j => child_none_of_zero (hz j)
  have hrf : rf p = 0 := by
    by_contra e
    exact (h.frame p (Nat.pos_of_ne_zero e)).2.1 (Set.mem_insert _ _)
  have htab : ∀ n, Table m.mem (insert (pfnToPa p) R) n ↔ n = pfnToPa p ∨ Table m.mem R n := by
    intro n
    constructor
    · rintro ⟨r, hr, q, hq, hn⟩
      rcases Set.mem_insert_iff.mp hr with rfl | hr
      · by_cases hq0 : q = []
        · subst hq0; rw [walk_nil] at hn; exact Or.inl (by simpa using hn.symm)
        · rw [walk_childless hcz hq0] at hn; cases hn
      · exact Or.inr ⟨r, hr, q, hq, hn⟩
    · rintro (rfl | ⟨r, hr, q, hq, hn⟩)
      · exact ⟨_, Set.mem_insert _ _, [], by simp, rfl⟩
      · exact ⟨r, Set.mem_insert_of_mem _ hr, q, hq, hn⟩
  refine ⟨⟨h.sound, h.forest.addRoot hnT hcz, ?_, ?_, fun q k hb => h.block q k (Set.mem_insert_of_mem _ hb), ?_⟩,
    ?_, ?_⟩
  · intro n hn
    rcases (htab n).mp hn with rfl | hn
    · exact ⟨pfnToPa_pageAddr hu.1, Or.inr ⟨p, rfl, hu, hK, hrf⟩⟩
    · obtain ⟨h1, h2⟩ := h.table n hn
      refine ⟨h1, h2.imp_right ?_⟩
      rintro ⟨p', e1, e2, e3, e4⟩
      exact ⟨p', e1, e2, fun e => e3 (Set.mem_insert_of_mem _ e), e4⟩
  · intro q k hq
    rcases h.owner q k hq with hb | ⟨rfl, hb⟩
    · rcases Set.mem_insert_iff.mp hb with e | hb
      · simp only [Prod.mk.injEq] at e
        obtain ⟨rfl, rfl⟩ := e
        exact Or.inr ⟨rfl, Or.inl ((htab _).mpr (Or.inl rfl))⟩
      · exact Or.inl hb
    · exact Or.inr ⟨rfl, hb.imp_left fun e => (htab _).mpr (Or.inr e)⟩
  · intro q hq
    obtain ⟨h1, h2, h3⟩ := h.frame q hq
    exact ⟨h1, fun e => h2 (Set.mem_insert_of_mem _ e), h3⟩
  · intro hR
    exact hnT ⟨_, hR, [], by simp, rfl⟩
  · intro q i
    by_cases hq0 : q = []
    · subst hq0; rw [entryAt_some (walk_nil _ _)]; exact hz i
    · exact entryAt_none (walk_childless hcz hq0) i

/-- The blocks of the tables of the tree at `r`. -/
def tableBlocks (mem : Mem) (r : Nat) : Set (Nat × Nat) := {b | b.2 = 0 ∧ Table mem {r} (pfnToPa b.1)}

/-- Give up a root whose tables are all in managed memory: they become blocks of nobody. -/
theorem Owned.dropRoot {r : Nat} (h : Owned m (insert r R) K rf) (hr : r ∉ R)
    (hm : ∀ n, Table m.mem {r} n → ¬ Unmanaged m.pmm n) : Owned m R (K ∪ tableBlocks m.mem r) rf := by
  have hin : ∀ {n}, Table m.mem {r} n → Table m.mem (insert r R) n := by
    rintro n ⟨r', rfl, q, hq, hn⟩
    exact ⟨_, Set.mem_insert _ _, q, hq, hn⟩
  have hin' : ∀ {n}, Table m.mem R n → Table m.mem (insert r R) n := by
    rintro n ⟨r', hr', q, hq, hn⟩
    exact ⟨r', Set.mem_insert_of_mem _ hr', q, hq, hn⟩
  have hdis : ∀ {n}, Table m.mem R n → ¬ Table m.mem {r} n := by
    rintro n ⟨r', hr', q, hq, hn⟩ ⟨r'', rfl, q', hq', hn'⟩
    have := (h.forest.unique r' (Set.mem_insert_of_mem _ hr') r'' (Set.mem_insert _ _) q q' n hq hq' hn hn').1
    subst this
    exact hr hr'
  refine ⟨h.sound, h.forest.mono (Set.subset_insert _ _), ?_, ?_, ?_, ?_⟩
  · intro n hn
    obtain ⟨h1, h2⟩ := h.table n (hin' hn)
    refine ⟨h1, h2.imp_right ?_⟩
    rintro ⟨p, rfl, e2, e3, e4⟩
    exact ⟨p, rfl, e2, fun e => e.elim e3 fun e => hdis hn e.2, e4⟩
  · intro p k hu
    rcases h.owner p k hu with hb | ⟨rfl, ⟨r', hr', q, hq, hn⟩ | hb⟩
    · exact Or.inl (Or.inl hb)
    · rcases Set.mem_insert_iff.mp hr' with rfl | hr'
      · exact Or.inl (Or.inr ⟨rfl, r', rfl, q, hq, hn⟩)
      · exact Or.inr ⟨rfl, Or.inl ⟨r', hr', q, hq, hn⟩⟩
    · exact Or.inr ⟨rfl, Or.inr hb⟩
  · rintro p k (hb | ⟨rfl, hb⟩)
    · exact h.block p k hb
    · rcases (h.table _ (hin hb)).2 with e | ⟨p', e1, e2, -⟩
      · exact absurd e (hm _ hb)
      · have e : p = p' := pfnToPa_inj e1
        rw [e]; exact e2
  · intro p hp
    obtain ⟨h1, h2, h3⟩ := h.frame p hp
    exact ⟨h1, fun e => e.elim h2 fun e => h.frame_not_table hp (hin e.2), h3⟩

end

end Myos.Mm
