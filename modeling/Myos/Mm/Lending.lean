/-
  Myos.Mm.Lending — the pages of a process in both halves of the address space.

  `MMAP_BASE` is in the kernel's half, so the pages of `mmap` without a hint are entries of
  the kernel's tree. An entry there that EL0 may use is lent to a process and holds a
  reference of its frame; any other is the kernel's own.

  `Lent m U K ex`: `World`, and `ex` counts the entries that are lent.

  Proved: mapping a new page at any address keeps `Lent`, and so does releasing a page
  that is not the kernel's own; each moves the one reference it should.
-/

import Myos.Mm.PageMap

namespace Myos.Mm

open Pmm Lib.Walk Lib.Dyadic

/-- Whether an entry lends page frame `p` to EL0, as a count. -/
def lends (v p : Nat) : Nat := if ptePresent v = true ∧ v &&& apUser ≠ 0 ∧ pteToPhys v = pfnToPa p then 1 else 0

/-- The paths to the leaf entries of a tree. -/
@[irreducible] def leaves : Finset (List Idx × Idx) := paths 3 ×ˢ Finset.univ

/-- The leaf entries of the tree `r` that lend page frame `p`. -/
def lentCount (mem : Mem) (r p : Nat) : Nat := ∑ x ∈ leaves, lends (entryAt mem r x.1 x.2) p

structure Lent (m : Machine) (U : Finset Nat) (K : Set (Nat × Nat)) (ex : Nat → Nat) : Prop extends World m U K ex where
  root : m.ttbr1 ≠ 0
  lent : ∀ p, lentCount m.mem m.ttbr1 p ≤ ex p
  lentLeaf : ∀ q : List Idx, q.length = 3 → ∀ i, entryAt m.mem m.ttbr1 q i &&& apUser ≠ 0 → LeafOk (entryAt m.mem m.ttbr1 q i)

/-- The page of an address is unmapped or a process's. -/
def Machine.Ours (m : Machine) (va : Nat) : Prop :=
  isUserAddr va = true ∨ (ptePresent (m.translate va) = true → m.translate va &&& apUser ≠ 0)

/-- The leaf entry of an address, if its page is mapped. -/
def Machine.mapping (m : Machine) (va : Nat) : Option Nat := if ptePresent (m.translate va) = true then some (m.translate va) else none

/-- The turn of the page loop of `do_mmap` at `va`: `false` if it fails, the page in hand given back. -/
def newPageAt (m : Machine) (va : Nat) : Machine × Bool :=
  let r := m.allocPage gfpKernel
  if r.2 = 0 then (r.1, false)
  else
    let q := mapPage (r.1.clearPage r.2) va r.2 rustPageUserRw
    if q.2 ≠ 0 then (q.1.putPage r.2, false) else (q.1, true)

theorem mmapPages_succ (m : Machine) (addr done left : Nat) : mmapPages m addr done (left + 1) =
    if (newPageAt m (addr + done * pageSize)).2 = true then mmapPages (newPageAt m (addr + done * pageSize)).1 addr (done + 1) left
    else (unmapBack (newPageAt m (addr + done * pageSize)).1 addr done, false) := by
  rw [mmapPages]
  unfold newPageAt
  dsimp only
  split
  · rfl
  · split
    · rfl
    · rfl

section

variable {m m' : Machine} {U : Finset Nat} {R : Set Nat} {K : Set (Nat × Nat)} {ex ex' rf rf' : Nat → Nat} {va : Nat}

/-! ## Counting what is lent -/

theorem lends_zero (p : Nat) : lends 0 p = 0 := if_neg fun h => by rw [ptePresent_zero] at h; cases h.1

theorem lends_of_present {v p : Nat} (h1 : ptePresent v = true) (h2 : v &&& apUser ≠ 0) (h3 : pteToPhys v = pfnToPa p) (q : Nat) :
    lends v q = if q = p then 1 else 0 := by
  unfold lends
  by_cases e : q = p
  · rw [if_pos ⟨h1, h2, by rw [h3, e]⟩, if_pos e]
  · rw [if_neg fun h => e (pfnToPa_inj (h.2.2.symm.trans h3)), if_neg e]

theorem mem_leaves {x : List Idx × Idx} : x ∈ leaves ↔ x.1.length = 3 := by
  unfold leaves
  rw [Finset.mem_product, mem_paths, and_iff_left (Finset.mem_univ x.2)]

theorem lends_le {r : Nat} {q : List Idx} (hq : q.length = 3) (i : Idx) (p : Nat) :
    lends (entryAt m.mem r q i) p ≤ lentCount m.mem r p := by
  unfold lentCount
  exact Finset.single_le_sum (f := fun x : List Idx × Idx => lends (entryAt m.mem r x.1 x.2) p) (fun _ _ => Nat.zero_le _)
    (mem_leaves.2 (show (q, i).1.length = 3 from hq))

/-- Writing one leaf entry changes what that entry lends. -/
theorem lentCount_wrote {r v : Nat} {q : List Idx} {i : Idx} (hr : r ∈ R) (hq : q.length = 3) (hW : Wrote R rf m m' r q i v) (p : Nat) :
    lentCount m'.mem r p + lends (entryAt m.mem r q i) p = lentCount m.mem r p + lends v p := by
  have hmem : (q, i) ∈ leaves := mem_leaves.2 hq
  unfold lentCount
  rw [← Finset.add_sum_erase _ _ hmem, ← Finset.add_sum_erase _ (fun x => lends (entryAt m.mem r x.1 x.2) p) hmem]
  have hsame : ∑ x ∈ leaves.erase (q, i), lends (entryAt m'.mem r x.1 x.2) p =
      ∑ x ∈ leaves.erase (q, i), lends (entryAt m.mem r x.1 x.2) p := by
    refine Finset.sum_congr rfl fun x hx => ?_
    obtain ⟨hne, hx⟩ := Finset.mem_erase.mp hx
    rw [hW.entry r hr x.1 (mem_leaves.1 hx) x.2, if_neg]
    intro h
    exact hne (Prod.ext h.2.1 h.2.2)
  rw [hsame]
  dsimp only
  rw [hW.entry r hr q hq i, if_pos ⟨rfl, rfl, rfl⟩]
  omega

theorem lentCount_congr {r : Nat} (h : ∀ q : List Idx, q.length = 3 → ∀ i, entryAt m'.mem r q i = entryAt m.mem r q i) (p : Nat) :
    lentCount m'.mem r p = lentCount m.mem r p := by
  unfold lentCount
  refine Finset.sum_congr rfl fun x hx => ?_
  rw [h x.1 (mem_leaves.1 hx) x.2]

theorem mkPte_user {prot pa : Nat} (h : prot &&& apUser ≠ 0) : mkPte prot pa &&& apUser ≠ 0 := by
  intro e
  rw [mkPte, Nat.and_or_distrib_right, Nat.or_eq_zero_iff] at e
  exact h e.1

/-- The counts that go with the frames of a machine. -/
theorem Owned.counts_unique (h : Owned m R K rf) (h' : Owned m R K rf') : rf' = rf := by
  funext p
  by_cases hp : 0 < rf p
  · have hp' := (h'.frame_iff p).mpr ((h.frame_iff p).mp hp)
    rw [← (h'.frame p hp').2.2, (h.frame p hp).2.2]
  · have hp' : ¬ 0 < rf' p := fun hp' => hp ((h.frame_iff p).mpr ((h'.frame_iff p).mp hp'))
    omega

/-! ## The root of an address -/

theorem l0Table_kernel (h : isUserAddr va = false) : m.l0Table va = m.ttbr1 := if_neg (by rw [h]; exact Bool.false_ne_true)

theorem World.l0Table_mem (_ : World m U K ex) (hr : m.ttbr0 ∈ U) (va : Nat) : m.l0Table va ∈ roots m U := by
  cases hu : isUserAddr va with
  | true =>
    rw [l0Table_user hu]
    exact mem_roots hr
  | false =>
    rw [l0Table_kernel hu]
    exact kernel_mem_roots

theorem Lent.l0Table_ne (h : Lent m U K ex) (hr : m.ttbr0 ∈ U) (va : Nat) : m.l0Table va ≠ 0 := by
  cases hu : isUserAddr va with
  | true =>
    rw [l0Table_user hu]
    exact h.root_ne_zero hr
  | false =>
    rw [l0Table_kernel hu]
    exact h.root

theorem World.distinct (h : World m U K ex) (hr : m.ttbr0 ∈ U) : m.ttbr0 ≠ m.ttbr1 := fun e => h.kernel (e ▸ hr)

theorem Wrote.l0Table {r v : Nat} {q : List Idx} {i : Idx} (h : Wrote R rf m m' r q i v) (va : Nat) : m'.l0Table va = m.l0Table va :=
  l0Table_congr h.ttbr0 h.ttbr1 va

theorem Quiet.l0Table (h : Quiet R rf m m') (va : Nat) : m'.l0Table va = m.l0Table va := l0Table_congr h.ttbr0 h.ttbr1 va

theorem Wrote.translate {v : Nat} (hw : World m U K ex) (hr : m.ttbr0 ∈ U)
    (h : Wrote (roots m U) rf m m' (m.l0Table va) (dirs va) (l3Index va) v) (va' : Nat) :
    m'.translate va' = if pageKey va' = pageKey va then v else m.translate va' := by
  unfold Machine.translate
  rw [h.l0Table, h.entry _ (hw.l0Table_mem hr va') (dirs va') rfl]
  simp only [key_iff (hw.distinct hr)]

theorem Quiet.translate (hw : World m U K ex) (hr : m.ttbr0 ∈ U) (h : Quiet (roots m U) rf m m') (va : Nat) :
    m'.translate va = m.translate va := by
  unfold Machine.translate
  rw [h.l0Table]
  exact h.entry _ (hw.l0Table_mem hr va) (dirs va) rfl _

/-- A mapped page of ours leads to a frame that is counted. -/
theorem Lent.frame (h : Lent m U K ex) (hr : m.ttbr0 ∈ U) (ho : m.Ours va) (hp : ptePresent (m.translate va) = true) :
    ∃ p, pteToPhys (m.translate va) = pfnToPa p ∧ 0 < refs m.mem U ex p ∧ (isUserAddr va = false → 0 < ex p) := by
  cases hu : isUserAddr va with
  | true =>
    rw [Machine.translate, l0Table_user hu] at hp ⊢
    obtain ⟨p, e, hpos⟩ := h.leaf_frame hr (q := dirs va) rfl hp
    exact ⟨p, e, h.refs_pos hpos, fun hf => by cases hf⟩
  | false =>
    have huser : m.translate va &&& apUser ≠ 0 := (ho.resolve_left (by rw [hu]; exact Bool.false_ne_true)) hp
    have htr : m.translate va = entryAt m.mem m.ttbr1 (dirs va) (l3Index va) := by rw [Machine.translate, l0Table_kernel hu]
    obtain ⟨p, e⟩ := h.lentLeaf (dirs va) rfl (l3Index va) (by rw [← htr]; exact huser) (by rw [← htr]; exact hp)
    rw [← htr] at e
    have h1 := lends_le (m := m) (r := m.ttbr1) (q := dirs va) rfl (l3Index va) p
    rw [← htr, lends_of_present hp huser e, if_pos rfl] at h1
    have h2 := h.lent p
    exact ⟨p, e, by unfold refs; omega, fun _ => by omega⟩

/-! ## Entries -/

theorem mapping_some {v : Nat} : m.mapping va = some v ↔ ptePresent (m.translate va) = true ∧ m.translate va = v := by
  unfold Machine.mapping
  split
  · next h => rw [Option.some.injEq, and_iff_right h]
  · next h => exact iff_of_false (Option.some_ne_none v).symm fun e => h e.1

theorem mapping_none : m.mapping va = none ↔ ptePresent (m.translate va) = false := by
  unfold Machine.mapping
  split
  · next h => exact iff_of_false (Option.some_ne_none _) (by rw [h]; decide)
  · next h => exact iff_of_true rfl (Bool.eq_false_iff.mpr h)

theorem Wrote.mapping {v : Nat} (hw : World m U K ex) (hr : m.ttbr0 ∈ U)
    (h : Wrote (roots m U) rf m m' (m.l0Table va) (dirs va) (l3Index va) v) {va' : Nat} (hne : pageKey va' ≠ pageKey va) :
    m'.mapping va' = m.mapping va' := by
  unfold Machine.mapping
  rw [h.translate hw hr, if_neg hne]

theorem Quiet.mapping (hw : World m U K ex) (hr : m.ttbr0 ∈ U) (h : Quiet (roots m U) rf m m') (va : Nat) :
    m'.mapping va = m.mapping va := by
  unfold Machine.mapping
  rw [h.translate hw hr]

/-! ## Writing the entry of a page -/

theorem Lent.step (h : Lent m U K ex) (hs : Stepped (roots m U) K (refs m.mem U ex) m m') : Lent m' U K ex := by
  have hent := fun q hq i => hs.quiet.entry m.ttbr1 kernel_mem_roots q hq i
  refine ⟨h.toWorld.step hs, by rw [hs.quiet.ttbr1]; exact h.root, fun p => ?_, fun q hq i => ?_⟩
  · rw [hs.quiet.ttbr1, lentCount_congr hent]
    exact h.lent p
  · rw [hs.quiet.ttbr1, hent q hq i]
    exact h.lentLeaf q hq i

/-- A page of the user half: the kernel's tree stays. -/
theorem Lent.writeUser (h : Lent m U K ex) (hr : m.ttbr0 ∈ U) (hu : isUserAddr va = true) {v : Nat} (hv : LeafOk v)
    (ho : Owned m' (roots m U) K rf') (hW : Wrote (roots m U) rf m m' (m.l0Table va) (dirs va) (l3Index va) v)
    (hex : ∀ p, rf' p + leadsTo (m.translate va) p + ex p = refs m.mem U ex p + leadsTo v p + ex' p) (hle : ∀ p, ex p ≤ ex' p) :
    Lent m' U K ex' := by
  rw [Machine.translate, l0Table_user hu] at hex
  rw [l0Table_user hu] at hW
  have hent : ∀ q : List Idx, q.length = 3 → ∀ i, entryAt m'.mem m.ttbr1 q i = entryAt m.mem m.ttbr1 q i := fun q hq i => by
    rw [hW.entry _ kernel_mem_roots q hq i, if_neg fun e => h.toWorld.distinct hr e.1.symm]
  refine ⟨h.toWorld.write hr (q := dirs va) rfl hv ho hW hex, by rw [hW.ttbr1]; exact h.root, fun p => ?_, fun q hq i => ?_⟩
  · rw [hW.ttbr1, lentCount_congr hent]
    exact (h.lent p).trans (hle p)
  · rw [hW.ttbr1, hent q hq i]
    exact h.lentLeaf q hq i

/-- A page of the kernel's half: `ex` has what it lends. -/
theorem Lent.writeKernel (h : Lent m U K ex) (hk : isUserAddr va = false) {v : Nat} (hv : LeafOk v)
    (ho : Owned m' (roots m U) K rf') (hW : Wrote (roots m U) rf m m' (m.l0Table va) (dirs va) (l3Index va) v)
    (hrf : rf' = refs m.mem U ex') (hle : ∀ p, ex p + lends v p ≤ ex' p + lends (m.translate va) p) : Lent m' U K ex' := by
  rw [hrf] at ho
  rw [Machine.translate, l0Table_kernel hk] at hle
  rw [l0Table_kernel hk] at hW
  refine ⟨h.toWorld.writeKernel ho hW, by rw [hW.ttbr1]; exact h.root, fun p => ?_, fun q hq i hne => ?_⟩
  · have h1 := lentCount_wrote kernel_mem_roots (q := dirs va) rfl hW p
    have h2 := h.lent p
    have h3 := hle p
    rw [hW.ttbr1]
    omega
  · rw [hW.ttbr1, hW.entry _ kernel_mem_roots q hq i] at hne ⊢
    split
    · exact hv
    · next hn =>
      rw [if_neg hn] at hne
      exact h.lentLeaf q hq i hne

/-! ## Mapping a new page -/

/-- The page in hand is given back when it cannot be mapped. -/
theorem newPageAt_spec (h : Owned m R K rf) (hr : m.l0Table va ∈ R) :
    ((newPageAt m va).2 = false ∧ Stepped R K rf m (newPageAt m va).1) ∨
    ∃ p, (newPageAt m va).2 = true ∧ (∀ k, ¬ Used m.pmm p k) ∧
      Installed R K rf (Function.update rf p 1) m (newPageAt m va).1 va rustPageUserRw p fun _ => 0 := by
  unfold newPageAt
  dsimp only
  rcases allocPage_cases h (show gfpKernel &&& gfpDma = 0 by decide) with ⟨he, hs, -⟩ | ⟨p, hpa, hN⟩
  · rw [if_pos he]
    exact Or.inl ⟨rfl, hs⟩
  have hP : Prepared R K rf m ((m.allocPage gfpKernel).1.clearPage (pfnToPa p)) p fun x =>
      zeroPage (m.allocPage gfpKernel).1.mem (pfnToPa p) (pfnToPa p + x) := hN.prepare fun x hx => zeroPage_other hx
  have hunused : ∀ k, ¬ Used m.pmm p k := fun k hu =>
    hN.alloc.fresh p k p hu (by have := Nat.two_pow_pos k; unfold Covers; omega) (by simp [Covers])
  rw [hpa, if_neg (pfnToPa_ne_zero p)]
  generalize (m.allocPage gfpKernel).1.clearPage (pfnToPa p) = m1 at *
  have hl := l0Table_congr hP.quiet.ttbr0 hP.quiet.ttbr1 va
  have hspec : _ ∨ _ := @mapPage_spec m1 R K _ hP.owned va (pfnToPa p) rustPageUserRw (by rw [hl]; exact hr) rustPageUserRw_ok.lt
  rcases hspec with ⟨he, hs⟩ | ⟨he, ho, hW⟩
  · rw [if_pos (by rw [he]; decide)]
    refine Or.inl ⟨rfl, ?_⟩
    generalize (mapPage m1 va (pfnToPa p) rustPageUserRw).1 = m2 at *
    obtain ⟨ho, -⟩ := hs.owned.putPage (p := p) (by rw [Function.update_self]; exact Nat.one_pos)
    have hrf : Function.update (Function.update rf p 1) p (Function.update rf p 1 p - 1) = rf := by
      rw [Function.update_self, Function.update_idem, Nat.sub_self, ← hP.fresh, Function.update_eq_self]
    rw [hrf] at ho
    have hle : ∀ q, 0 < rf q → 0 < Function.update rf p 1 q := fun q hq => by
      rw [Function.update_of_ne (by rintro rfl; have := hP.fresh; omega)]
      exact hq
    exact ⟨ho, (hP.quiet.trans (hs.quiet.frames hle)).trans (Quiet.withPmm (putPage_start _ _))⟩
  · rw [if_neg (by rw [he]; decide)]
    rw [hl] at hW
    refine Or.inr ⟨p, rfl, hunused, (hP.installed ho hW).congr fun x hx => ?_⟩
    unfold zeroPage
    rw [if_pos (by omega)]

theorem lends_mkPte_le {prot p : Nat} (hp : ProtOk prot) (hlt : p < totalPages) (q : Nat) :
    lends (mkPte prot (pfnToPa p)) q ≤ if q = p then 1 else 0 := by
  unfold lends
  split
  · next h =>
    have e : pfnToPa p = pfnToPa q := (mkPte_pteToPhys hp (pfnToPa_pageAddr hlt)).symm.trans h.2.2
    rw [if_pos (pfnToPa_inj e).symm]
  · exact Nat.zero_le _

theorem Lent.counts (h : Lent m' U K ex') (h1 : m'.ttbr1 = m.ttbr1) (ho : Owned m' (roots m U) K rf) : refs m'.mem U ex' = rf := by
  refine ho.counts_unique ?_
  rw [← show roots m' U = roots m U by rw [roots, h1]]
  exact h.owned

/-- The new page has one reference, every other frame has those it had. -/
theorem Lent.installed (h : Lent m U K ex) (hr : m.ttbr0 ∈ U) {prot p : Nat} {data : Nat → UInt8} (hprot : ProtOk prot)
    (hI : Installed (roots m U) K (refs m.mem U ex) (Function.update (refs m.mem U ex) p 1) m m' va prot p data) :
    ∃ ex', Lent m' U K ex' ∧ refs m'.mem U ex' = Function.update (refs m.mem U ex) p 1 := by
  suffices hs : ∃ ex', Lent m' U K ex' by
    obtain ⟨ex', hl⟩ := hs
    exact ⟨ex', hl, hl.counts hI.wrote.ttbr1 hI.owned⟩
  have hfresh := hI.fresh
  have hleaf := leafOk_mkPte hprot hI.lt
  cases hu : isUserAddr va with
  | true =>
    refine ⟨fun q => ex q + leadsTo (m.translate va) q, h.writeUser hr hu hleaf hI.owned hI.wrote (fun q => ?_) fun q => Nat.le_add_right _ _⟩
    rw [leadsTo_mkPte hprot hI.lt]
    by_cases e : q = p
    · rw [e, Function.update_self, if_pos rfl, hfresh]
      omega
    · rw [Function.update_of_ne e, if_neg e]
      omega
  | false =>
    refine ⟨fun q => ex q + if q = p then 1 else 0, h.writeKernel hu hleaf hI.owned hI.wrote ?_ fun q => ?_⟩
    · funext q
      unfold refs at hfresh ⊢
      dsimp only
      by_cases e : q = p
      · rw [e, Function.update_self, if_pos rfl]
        omega
      · rw [Function.update_of_ne e, if_neg e, Nat.add_zero]
    · have := lends_mkPte_le hprot hI.lt q
      omega

/-- A new page is mapped at `va`, or nothing is. -/
theorem Lent.newPage (h : Lent m U K ex) (hr : m.ttbr0 ∈ U) (va : Nat) :
    ((newPageAt m va).2 = false ∧ Lent (newPageAt m va).1 U K ex ∧
      Quiet (roots m U) (refs m.mem U ex) m (newPageAt m va).1 ∧ refs (newPageAt m va).1.mem U ex = refs m.mem U ex) ∨
    ∃ p ex', (newPageAt m va).2 = true ∧ (∀ k, ¬ Used m.pmm p k) ∧ Lent (newPageAt m va).1 U K ex' ∧
      refs (newPageAt m va).1.mem U ex' = Function.update (refs m.mem U ex) p 1 ∧
      Installed (roots m U) K (refs m.mem U ex) (Function.update (refs m.mem U ex) p 1) m (newPageAt m va).1 va rustPageUserRw p
        fun _ => 0 := by
  rcases newPageAt_spec h.owned (h.toWorld.l0Table_mem hr va) with ⟨he, hs⟩ | ⟨p, he, hn, hI⟩
  · have hl := h.step hs
    exact Or.inl ⟨he, hl, hs.quiet, hl.counts hs.quiet.ttbr1 hs.owned⟩
  · obtain ⟨ex', hl, hrf⟩ := h.installed hr rustPageUserRw_ok hI
    exact Or.inr ⟨p, ex', he, hn, hl, hrf, hI⟩

/-! ## Releasing a page -/

/-- What releasing the mapped page at `va`, which leads to frame `p`, does. -/
structure Dismissed (U : Finset Nat) (K : Set (Nat × Nat)) (ex ex' : Nat → Nat) (m m' : Machine) (va p : Nat) : Prop where
  lent : Lent m' U K ex'
  leads : pteToPhys (m.translate va) = pfnToPa p
  counted : 0 < refs m.mem U ex p
  refs : refs m'.mem U ex' = Function.update (refs m.mem U ex) p (refs m.mem U ex p - 1)
  wrote : Wrote (roots m U) (Mm.refs m.mem U ex) m m' (m.l0Table va) (dirs va) (l3Index va) 0
  used : ∀ q k, Used m'.pmm q k → Used m.pmm q k ∧ (q = p → 1 < Mm.refs m.mem U ex p)

theorem Lent.releasePage (h : Lent m U K ex) (hr : m.ttbr0 ∈ U) (ho : m.Ours va) (hp : ptePresent (m.translate va) = true) :
    ∃ p ex', Dismissed U K ex ex' m (releasePage m va) va p := by
  obtain ⟨p, hpa, hpos, hext⟩ := h.frame hr ho hp
  have h0 := h.l0Table_ne hr va
  have hrel : Mm.releasePage m va = (unmapPage m va).putPage (pfnToPa p) := by
    unfold Mm.releasePage
    rw [getPhysFromVa_eq m h0, hp, if_pos rfl, hpa, if_pos (pfnToPa_ne_zero p)]
  rw [hrel]
  have hU := unmapPage_present h.owned (h.toWorld.l0Table_mem hr va) h0 hp
  generalize unmapPage m va = m2 at *
  obtain ⟨ho', hu'⟩ := hU.owned.putPage hpos
  have hused : ∀ q k, Used (m2.putPage (pfnToPa p)).pmm q k → Used m.pmm q k ∧ (q = p → 1 < Mm.refs m.mem U ex p) := fun q k hq =>
    ⟨hU.used q k ((hu' q k).mp hq).1, ((hu' q k).mp hq).2⟩
  have hW : Wrote (roots m U) (Mm.refs m.mem U ex) m (m2.putPage (pfnToPa p)) (m.l0Table va) (dirs va) (l3Index va) 0 :=
    hU.wrote.quiet (Quiet.withPmm (putPage_start _ _))
  suffices hs : ∃ ex', Lent (m2.putPage (pfnToPa p)) U K ex' by
    obtain ⟨ex', hl⟩ := hs
    exact ⟨p, ex', hl, hpa, hpos, hl.counts hW.ttbr1 ho', hW, hused⟩
  cases hu : isUserAddr va with
  | true =>
    refine ⟨ex, h.writeUser hr hu leafOk_zero ho' hW (fun q => ?_) fun q => le_refl _⟩
    rw [leadsTo_zero, leadsTo_present hp hpa]
    by_cases e : q = p
    · rw [e, Function.update_self, if_pos rfl]
      omega
    · rw [Function.update_of_ne e, if_neg e]
  | false =>
    have hex := hext hu
    have huser : m.translate va &&& apUser ≠ 0 := (ho.resolve_left (by rw [hu]; exact Bool.false_ne_true)) hp
    refine ⟨Function.update ex p (ex p - 1), h.writeKernel hu leafOk_zero ho' hW ?_ fun q => ?_⟩
    · funext q
      unfold Mm.refs
      by_cases e : q = p
      · rw [e, Function.update_self, Function.update_self]
        omega
      · rw [Function.update_of_ne e, Function.update_of_ne e]
    · rw [lends_zero, lends_of_present hp huser hpa]
      by_cases e : q = p
      · rw [e, Function.update_self, if_pos rfl]
        omega
      · rw [Function.update_of_ne e, if_neg e]

end

end Myos.Mm
