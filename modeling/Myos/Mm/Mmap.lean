/-
  Myos.Mm.Mmap — what a `mmap` does to what was mapped before.

  `do_mmap` looks at the areas only; the loop writes the leaf entry of each page from the
  place on, whatever it was.

  Proved, over every run of harmless visits: a call that returns 0 for a range that was
  not mapped leaves the areas, the translations and the data frames as they were. A call
  that succeeds disturbs nothing and maps its whole range if and only if no page it
  writes was mapped, and the range does not end in a page it does not write.
-/

import Myos.Mm.Munmap

namespace Myos.Mm

open Pmm Lib.Walk Lib.Dyadic
open Lib (Reach SortedMap)

/-- A page frame of some process. -/
def Machine.Data (m : Machine) (U : Finset Nat) (K : Set (Nat × Nat)) (p : Nat) : Prop :=
  Used m.pmm p 0 ∧ (p, 0) ∉ K ∧ ¬ Table m.mem (Mm.roots m U) (pfnToPa p)

structure RolledBack (U : Finset Nat) (K : Set (Nat × Nat)) (s s' : Space) : Prop where
  areas : s'.mm = s.mm
  mapping : ∀ va, s'.machine.mapping va = s.machine.mapping va
  data : ∀ p, s'.machine.Data U K p ↔ s.machine.Data U K p
  count : ∀ p, s.machine.Data U K p → (s'.machine.pmm.memMap p).refCount = (s.machine.pmm.memMap p).refCount

/-- A call that returned the place `r`. -/
structure Undisturbed (s s' : Space) (r len : Nat) : Prop where
  kept : ∀ va, s.machine.mapping va ≠ none → s'.machine.mapping va = s.machine.mapping va
  contents : ∀ va p, s.machine.MapsTo va p → SamePage s.machine s'.machine p
  mapped : ∀ a, r ≤ a → a < r + len → ∃ p, s'.machine.MapsTo a p ∧ (∀ x, x < pageSize → s'.machine.mem (pfnToPa p + x) = 0) ∧
    (s'.machine.pmm.memMap p).refCount = 1 ∧ ∀ va, ¬ s.machine.MapsTo va p
  reachable : ∀ va p, s.machine.MapsTo va p → ∃ va', s'.machine.MapsTo va' p

/-- Where `do_mmap` puts `len` bytes. -/
def MmStruct.place (mm : MmStruct) (addr len : Nat) : Option Nat := if addr = 0 then mm.findFreeArea (pageUp len) else some addr

/-- No page from `a` on is mapped yet, and the last byte is in one of them. -/
structure MmapFits (m : Machine) (a len : Nat) : Prop where
  unmapped : ∀ k, k * pageSize < pageUp len → m.mapping (a + k * pageSize) = none
  inside : a % pageSize + len ≤ pageUp len

section

variable {m m' : Machine} {mm mm' : MmStruct} {U : Finset Nat} {K : Set (Nat × Nat)} {ex ex' : Nat → Nat} {s s' : Space}
  {addr len flags r n : Nat} {f : Nat → Nat}

/-- The call, once the arguments fit. -/
theorem doMmap_cases (h : doMmap m mm addr len flags = some (m', mm', r)) :
    (r = 0 ∧ m' = m ∧ mm' = mm) ∨
    ∃ a, mm.place addr len = some a ∧ 0 < pageUp len ∧ mm.overlaps a (a + pageUp len) = false ∧
      m' = (mmapPages m a 0 (pageUp len / pageSize)).1 ∧
      ((mmapPages m a 0 (pageUp len / pageSize)).2 = true ∧ r = a ∨
        (mmapPages m a 0 (pageUp len / pageSize)).2 = false ∧ r = 0 ∧
          mm' = { mm with vmas := (mm.vmas.insert a ⟨a, a + pageUp len, flags ||| vmAnonymous⟩).remove a }) := by
  unfold Mm.doMmap at h
  split at h
  · cases h
    exact Or.inl ⟨rfl, rfl, rfl⟩
  next hl =>
  obtain ⟨len', ha, h⟩ := Option.bind_eq_some_iff.mp h
  rw [alignUp_pageUp ha] at h
  obtain ⟨a, hplace, h⟩ := Option.bind_eq_some_iff.mp h
  obtain ⟨stop, hstop, h⟩ := Option.map_eq_some_iff.mp h
  rw [(checkedAdd_eq.mp hstop).2] at h
  have hup := pageUp_spec len
  split at h
  · cases h
    exact Or.inl ⟨rfl, rfl, rfl⟩
  next ho =>
  refine Or.inr ⟨a, hplace, by omega, Bool.eq_false_iff.mpr ho, ?_⟩
  dsimp only at h
  generalize mmapPages m a 0 (pageUp len / pageSize) = q at *
  split at h
  · next hq =>
    obtain ⟨h1, h2⟩ := Prod.mk.inj h
    exact ⟨h1.symm, Or.inl ⟨hq, (Prod.mk.inj h2).2.symm⟩⟩
  · next hq =>
    obtain ⟨h1, h2⟩ := Prod.mk.inj h
    exact ⟨h1.symm, Or.inr ⟨Bool.eq_false_iff.mpr hq, (Prod.mk.inj h2).2.symm, (Prod.mk.inj h2).1.symm⟩⟩

theorem AreasOk.place_ne (h : AreasOk mm.vmas) {a : Nat} (hp : mm.place addr len = some a) (hlen : 0 < pageUp len) : a ≠ 0 := by
  unfold MmStruct.place at hp
  split at hp
  · have hbase : 4096 ∣ mmapBase := by unfold mmapBase; decide
    have hm := (findFreeFrom_place h hlen _ hbase (le_refl _) hp).2.1
    unfold mmapBase at hm
    omega
  · next hne =>
    cases hp
    exact hne

/-! ## Undone -/

theorem Lent.data_iff (h : Lent m U K ex) (p : Nat) : m.Data U K p ↔ 0 < refs m.mem U ex p := (h.owned.frame_iff p).symm

theorem Filled.rolledBack (h : Lent m U K ex) {a N : Nat} (hF : Filled U K m m' ex ex' a N 0 f)
    (hno : ∀ k, k < N → m.mapping (a + k * pageSize) = none) : (∀ va, m'.mapping va = m.mapping va) ∧
      (∀ p, m'.Data U K p ↔ m.Data U K p) ∧ ∀ p, m.Data U K p → (m'.pmm.memMap p).refCount = (m.pmm.memMap p).refCount := by
  have hrefs : ∀ p, Mm.refs m'.mem U ex' p = Mm.refs m.mem U ex p := fun p => by
    rw [hF.refs, if_neg fun ⟨k, hk, _⟩ => Nat.not_lt_zero k hk]
  refine ⟨fun va => ?_, fun p => ?_, fun p hp => ?_⟩
  · by_cases hva : pageKey va ∈ keys a N
    · obtain ⟨k, hk, he⟩ := mem_keys.mp hva
      rw [← mapping_key he, ← mapping_key he, hF.gone k (Nat.zero_le k) hk, hno k hk]
    · exact hF.off va hva
  · rw [hF.lent.data_iff, h.data_iff, hrefs]
  · have hpos := (h.data_iff p).mp hp
    rw [(h.owned.frame p hpos).2.2, (hF.lent.owned.frame p (by rw [hrefs]; exact hpos)).2.2, hrefs]

theorem MapsTo.congr {va va' p : Nat} (hk : pageKey va' = pageKey va) (ha : m'.mapping va' = m.mapping va') (h : m.MapsTo va p) :
    m'.MapsTo va' p := by
  obtain ⟨ho, hp, he⟩ := h
  have hv : m'.mapping va' = some (m.translate va) := by
    rw [ha, mapping_key hk]
    exact mapping_some.mpr ⟨hp, rfl⟩
  obtain ⟨hp', he'⟩ := mapping_some.mp hv
  have hu : isUserAddr va' = isUserAddr va := congrArg Prod.fst hk
  refine ⟨?_, hp', by rw [he', he]⟩
  unfold Machine.Ours
  rw [hu, he']
  exact ho.imp_right fun h _ => h hp

/-- Page `k` of a mapping. -/
theorem Filled.mapsTo {m0 : Machine} {ex0 : Nat → Nat} {N : Nat} (h : Filled U K m0 m ex0 ex addr N n f) {k : Nat} (hk : k < n) :
    m.MapsTo (addr + k * pageSize) (f k) ∧ Mm.refs m.mem U ex (f k) = 1 := by
  have h1 : Mm.refs m.mem U ex (f k) = 1 := by rw [h.refs, if_pos ⟨k, hk, rfl⟩]
  have hlt := h.lent.owned.pfn_lt (by rw [h1]; exact Nat.one_pos)
  have hon := h.on k hk
  refine ⟨⟨Or.inr fun _ => ?_, ?_, ?_⟩, h1⟩
  · rw [hon]
    exact mkPte_user (by decide)
  · rw [hon]
    exact mkPte_present (by decide)
  · rw [hon, mkPte_pteToPhys rustPageUserRw_ok (pfnToPa_pageAddr hlt)]

theorem Filled.undisturbed (h : Lent s.machine U K ex) (hr : s.machine.ttbr0 ∈ U)
    (hF : Filled U K s.machine s'.machine ex ex' addr n n f) (hlen : 0 < pageUp len)
    (hn : pageUp len = n * pageSize) : Undisturbed s s' addr len ↔ MmapFits s.machine addr len := by
  have hup := pageUp_spec len
  -- a new frame was no page's
  have hnew : ∀ k, k < n → ∀ va, ¬ s.machine.MapsTo va (f k) := by
    intro k hk va hm
    have := (h.count hr hm).1
    rw [hF.fresh k hk] at this
    exact absurd this (lt_irrefl 0)
  have hcard := hF.card
  have htotal : totalPages = 65536 := rfl
  constructor
  · intro hlaw
    refine ⟨fun k hk => ?_, ?_⟩
    · have hkn : k < n := by
        rw [hn] at hk
        exact Nat.lt_of_mul_lt_mul_right hk
      by_contra hne
      have hkeep := hlaw.kept _ hne
      have hm := (hF.mapsTo hkn).1
      exact hnew k hkn _ (MapsTo.congr rfl hkeep.symm hm)
    · by_contra hlt
      -- the last byte is in the page after the last one that is written
      have hpos : 0 < len := by unfold pageSize at *; omega
      obtain ⟨p, hm, -, -, hno⟩ := hlaw.mapped (addr + len - 1) (by omega) (by omega)
      have hkey : pageKey (addr + len - 1) = pageKey (addr + n * pageSize) :=
        pageKey_div (by unfold pageSize at *; omega)
      have hout : pageKey (addr + len - 1) ∉ keys addr n := by
        intro hin
        obtain ⟨k, hk, he⟩ := mem_keys.mp hin
        exact pageKey_ne hk (by omega) (he.trans hkey)
      exact hno _ (MapsTo.congr rfl (hF.off _ hout).symm hm)
  · intro hf
    have hkept : ∀ va, s.machine.mapping va ≠ none → s'.machine.mapping va = s.machine.mapping va := by
      intro va hne
      refine hF.off va fun hin => hne ?_
      obtain ⟨k, hk, he⟩ := mem_keys.mp hin
      rw [← mapping_key he]
      exact hf.unmapped k (by rw [hn]; exact Nat.mul_lt_mul_of_pos_right hk (by decide))
    refine ⟨hkept, fun va p hm => hF.page p (h.count hr hm).1, fun a h1 h2 => ?_, fun va p hm => ⟨va, ?_⟩⟩
    · have hin := hf.inside
      have hk : (addr % pageSize + (a - addr)) / pageSize < n := by
        refine Nat.div_lt_of_lt_mul ?_
        rw [Nat.mul_comm, ← hn]
        omega
      have hkey : pageKey a = pageKey (addr + (addr % pageSize + (a - addr)) / pageSize * pageSize) :=
        pageKey_div (by unfold pageSize at *; omega)
      generalize (addr % pageSize + (a - addr)) / pageSize = k at *
      obtain ⟨hm, h1⟩ := hF.mapsTo hk
      refine ⟨f k, MapsTo.congr hkey rfl hm, hF.zero k hk, ?_, hnew k hk⟩
      rw [(hF.lent.owned.frame (f k) (by rw [h1]; exact Nat.one_pos)).2.2, h1]
    · refine MapsTo.congr rfl (hkept va ?_) hm
      intro hnone
      have hp := hm.2.1
      rw [mapping_none.mp hnone] at hp
      exact absurd hp Bool.false_ne_true

/-- A `mmap` that succeeds disturbs nothing and maps its range if and only if it fits what is mapped. -/
theorem mmap_undisturbed_reach (hr : Reach Space.visit (fun s v => v.Harmless s) (Space.Held U K) s)
    (hc : doMmap s.machine s.mm addr len flags = some (s'.machine, s'.mm, r)) (h0 : r ≠ 0) :
    Undisturbed s s' r len ↔ ∀ a, s.mm.place addr len = some a → MmapFits s.machine a len := by
  have h := held_reach hr
  obtain ⟨ex, hl⟩ := h.lent
  rcases doMmap_cases hc with ⟨h0', -⟩ | ⟨a, hp, hlen, ho, hm, ⟨he, rfl⟩ | ⟨-, h0', -⟩⟩
  · exact absurd h0' h0
  · rcases Filled.mmapPages (pageUp len / pageSize) (hl.filled r fun _ => 0) h.root with ⟨-, ex', f, hF⟩ | ⟨he', -⟩
    · rw [← hm, Nat.zero_add] at hF
      have hn : pageUp len = pageUp len / pageSize * pageSize := by
        have := (pageUp_spec len).2.2
        unfold pageSize
        omega
      rw [hF.undisturbed hl h.root hlen hn, hp]
      simp
    · rw [he] at he'
      cases he'
  · exact absurd h0' h0

/-! ## Calls that return -/

theorem doMmap_hint (m : Machine) (flags : Nat) (h0 : addr ≠ 0) (hl : len ≠ 0) (hlt : len + 4095 < 2 ^ 64)
    (hfit : addr + pageUp len < 2 ^ 64) (ho : mm.overlaps addr (addr + pageUp len) = false) : ∃ s',
      doMmap m mm addr len flags = some (Space.machine s', s'.mm, if (mmapPages m addr 0 (pageUp len / pageSize)).2 = true then addr else 0) := by
  unfold Mm.doMmap
  rw [if_neg hl, alignUp_iff.mpr ⟨hlt, rfl⟩, Option.bind_some, if_neg h0, Option.bind_some, checkedAdd_eq.mpr ⟨hfit, rfl⟩,
    Option.map_some, ho, if_neg Bool.false_ne_true]
  dsimp only
  split
  · exact ⟨⟨_, _⟩, rfl⟩
  · exact ⟨⟨_, _⟩, rfl⟩

/-- With four pages free a page can be mapped anywhere. -/
theorem newPageAt_room {R : Set Nat} {rf : Nat → Nat} {va : Nat} (h : Owned m R K rf) (hr : m.l0Table va ∈ R)
    (h0 : m.l0Table va ≠ 0) (hn : Room m.pmm 4) : (newPageAt m va).2 = true := by
  unfold newPageAt
  dsimp only
  rcases allocPage_cases h (show gfpKernel &&& gfpDma = 0 by decide) with ⟨-, -, hno⟩ | ⟨p, hpa, hN⟩
  · exact absurd (hn.le (by decide)) hno
  have hP : Prepared R K rf m ((m.allocPage gfpKernel).1.clearPage (pfnToPa p)) p fun x =>
      zeroPage (m.allocPage gfpKernel).1.mem (pfnToPa p) (pfnToPa p + x) := hN.prepare fun x hx => zeroPage_other hx
  have hR : Room ((m.allocPage gfpKernel).1.clearPage (pfnToPa p)).pmm 3 := by
    rw [clearPage_pmm]
    exact hn.less hN.alloc
  rw [hpa, if_neg (pfnToPa_ne_zero p)]
  generalize (m.allocPage gfpKernel).1.clearPage (pfnToPa p) = m1 at *
  have hl := l0Table_congr hP.quiet.ttbr0 hP.quiet.ttbr1 va
  have he : (mapPage m1 va (pfnToPa p) rustPageUserRw).2 = 0 :=
    ((mapPage_grows hP.owned (by rw [hl]; exact hr) rustPageUserRw_ok.lt).2 (by rw [hl]; exact h0) 0 hR).1
  rw [if_neg (not_not.mpr he)]

theorem Lent.mmapPage (h : Lent m U K ex) (hr : m.ttbr0 ∈ U) (addr : Nat) (hn : Room m.pmm 4) : (mmapPages m addr 0 1).2 = true := by
  rw [mmapPages_succ, if_pos]
  · rfl
  · exact newPageAt_room h.owned (h.toWorld.l0Table_mem hr _) (h.l0Table_ne hr _) hn

end

section

variable {m : Machine} {C : Nat}

theorem emptySpace_held (h0 : m.ttbr0 = C) (hl : Lent m {C} ∅ fun _ => 0) : (emptySpace m).Held {C} ∅ :=
  ⟨AreasOk.empty, by rw [← h0]; exact Finset.mem_singleton_self _, _, hl⟩

/-- A process maps its first page. -/
theorem first_mmap (h0 : m.ttbr0 = C) (hl : Lent m {C} ∅ fun _ => 0) (hn : Room m.pmm 1000) {addr : Nat} (ha : addr ≠ 0)
    (hfit : addr + 0x1000 < 2 ^ 64) :
    ∃ s', doMmap (emptySpace m).machine (emptySpace m).mm addr 0x1000 0 = some (Space.machine s', s'.mm, addr) := by
  have hup : pageUp 0x1000 = 0x1000 := by decide
  obtain ⟨s', hs⟩ := doMmap_hint m 0 ha (show 0x1000 ≠ 0 by decide) (by decide) (by rw [hup]; exact hfit)
    (show MmStruct.new.overlaps addr (addr + pageUp 0x1000) = false from rfl)
  rw [show pageUp 0x1000 / pageSize = 1 by decide, hl.mmapPage (by rw [h0]; exact Finset.mem_singleton_self _) addr (hn.le (by decide)), if_pos rfl] at hs
  exact ⟨s', hs⟩

end

/-- A page at a place that is not a page leaves the end of the range unmapped. -/
theorem mmap_at_half_a_page : ∃ (s s' : Space) (U : Finset Nat), s.Held U ∅ ∧
    doMmap s.machine s.mm 0x10800 0x1000 0 = some (s'.machine, s'.mm, 0x10800) ∧ ¬ Undisturbed s s' 0x10800 0x1000 := by
  obtain ⟨m, C, h0, hl, hno, hn⟩ := first_process
  obtain ⟨s', hs⟩ := first_mmap h0 hl hn (show 0x10800 ≠ 0 by decide) (by decide)
  have hheld := emptySpace_held h0 hl
  refine ⟨emptySpace m, s', {C}, hheld, hs, fun hlaw => ?_⟩
  have hup : pageUp 0x1000 = 1 * pageSize := by decide
  rcases doMmap_cases hs with ⟨h0', -⟩ | ⟨a, hp, hlen, ho, hm, ⟨he, rfl⟩ | ⟨-, h0', -⟩⟩
  · exact absurd h0' (by decide)
  · rcases Filled.mmapPages (pageUp 0x1000 / pageSize) (hl.filled 0x10800 fun _ => 0) hheld.root with ⟨-, ex', f, hF⟩ | ⟨he', -⟩
    · rw [show pageUp 0x1000 / pageSize = 1 by decide] at hF hm
      rw [show m = (emptySpace m).machine from rfl, ← hm, Nat.zero_add] at hF
      have hf := (hF.undisturbed hl hheld.root hlen hup).mp hlaw
      exact absurd hf.inside (by decide)
    · rw [show m = (emptySpace m).machine from rfl, he] at he'
      cases he'
  · exact absurd h0' (by decide)

/-- The first page of a process. -/
theorem mmap_undisturbed_first : ∃ s s' : Space, doMmap s.machine s.mm 0x10000 0x1000 0 = some (s'.machine, s'.mm, 0x10000) ∧
    Undisturbed s s' 0x10000 0x1000 := by
  obtain ⟨m, C, h0, hl, hno, hn⟩ := first_process
  obtain ⟨s', hs⟩ := first_mmap h0 hl hn (show 0x10000 ≠ 0 by decide) (by decide)
  refine ⟨emptySpace m, s', hs, (mmap_undisturbed_reach (.init (emptySpace_held h0 hl)) hs (by decide)).mpr fun a ha => ?_⟩
  cases ha
  exact ⟨fun k _ => hno _, by decide⟩

end Myos.Mm
