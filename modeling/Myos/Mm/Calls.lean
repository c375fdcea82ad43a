/-
  Myos.Mm.Calls — runs of the system calls `brk`, `mmap` and `munmap` of one address space.

  The arguments of a call come from user space as they are. A call that adds two numbers
  past 2^64 - 1 panics the kernel (`none`).

  Proved, over every run: the areas are in order and the break is a page; a call panics
  exactly if its arguments fail `Call.Fits`, which looks at them and at the areas only.
-/

import Myos.Mm.FreeArea
import Myos.Mm.RefCounts

namespace Myos.Mm

open Pmm (pageSize gfpKernel)
open Lib (SortedMap Reach Meets trace)

@[ext]
structure Space where
  machine : Machine
  mm : MmStruct

inductive Call where
  | brk (newBrk : Nat)
  | mmap (addr len flags : Nat)
  | munmap (addr len : Nat)

def Space.step (s : Space) : Call → Option Space
  | .brk newBrk => (doBrk s.machine s.mm newBrk).map fun r => ⟨r.1, r.2.1⟩
  | .mmap addr len flags => (doMmap s.machine s.mm addr len flags).map fun r => ⟨r.1, r.2.1⟩
  | .munmap addr len => (doMunmap s.machine s.mm addr len).map fun r => ⟨r.1, r.2.1⟩

/-- A new process: its areas are in order, and the break is 0 (`MmStruct::new`). -/
structure Space.New (s : Space) : Prop where
  areas : AreasOk s.mm.vmas
  brk : s.mm.brk = 0
  ttbr0 : 8 ∣ s.machine.ttbr0
  ttbr1 : 8 ∣ s.machine.ttbr1

/-- What the arguments must be for no sum to pass 2^64 - 1. -/
def Call.Fits (mm : MmStruct) : Call → Prop
  | .brk newBrk => newBrk + 4095 < 2 ^ 64
  | .mmap addr len _ => len ≠ 0 → len + 4095 < 2 ^ 64 ∧ if addr = 0 then ∃ p ∈ mm.Places (pageUp len), p + pageUp len < 2 ^ 64
    else addr + pageUp len < 2 ^ 64
  | .munmap addr len => len ≠ 0 → len + 4095 < 2 ^ 64 ∧ (addr ∈ mm.Covered → addr + pageUp len < 2 ^ 64)

/-! ## The registers -/

section

variable {m m' : Machine} {mm mm' : MmStruct}

/-- The same roots. -/
def SameRoots (m m' : Machine) : Prop := m'.ttbr0 = m.ttbr0 ∧ m'.ttbr1 = m.ttbr1

theorem SameRoots.rfl' : SameRoots m m := ⟨rfl, rfl⟩

theorem SameRoots.trans {m'' : Machine} (h1 : SameRoots m m') (h2 : SameRoots m' m'') : SameRoots m m'' :=
  ⟨h2.1.trans h1.1, h2.2.trans h1.2⟩

theorem setPte_roots (m : Machine) (t : Nat) (i : Idx) (v : Nat) : SameRoots m (m.setPte t i v) :=
  ⟨setPte_ttbr0 _ _ _ _, setPte_ttbr1 _ _ _ _⟩

theorem nextTable_roots (m : Machine) (t : Nat) (i : Idx) : SameRoots m (nextTable m t i).1 := by
  unfold nextTable
  split
  · dsimp only
    split
    · exact ⟨rfl, rfl⟩
    · exact ⟨by rw [setPte_ttbr0, clearPage_ttbr0]; rfl, by rw [setPte_ttbr1, clearPage_ttbr1]; rfl⟩
  · exact SameRoots.rfl'

theorem mapPage_roots (m : Machine) (va pa prot : Nat) : SameRoots m (mapPage m va pa prot).1 := by
  by_cases h0 : m.l0Table va = 0
  · have he : mapPage m va pa prot = (m, -1) := if_pos h0
    rw [he]
    exact SameRoots.rfl'
  rw [mapPage_eq m pa prot h0]
  have h1 := nextTable_roots m (m.l0Table va) (l0Index va)
  generalize nextTable m (m.l0Table va) (l0Index va) = r1 at *
  cases e1 : r1.2 with
  | none =>
    rw [(withTable_none _ e1).1]
    exact h1
  | some l1 =>
    rw [withTable_some _ e1]
    have h2 := h1.trans (nextTable_roots r1.1 l1 (l1Index va))
    generalize nextTable r1.1 l1 (l1Index va) = r2 at *
    cases e2 : r2.2 with
    | none =>
      rw [(withTable_none _ e2).1]
      exact h2
    | some l2 =>
      rw [withTable_some _ e2]
      have h3 := h2.trans (nextTable_roots r2.1 l2 (l2Index va))
      generalize nextTable r2.1 l2 (l2Index va) = r3 at *
      cases e3 : r3.2 with
      | none =>
        rw [(withTable_none _ e3).1]
        exact h3
      | some l3 =>
        rw [withTable_some _ e3]
        exact h3.trans (setPte_roots r3.1 l3 (l3Index va) (mkPte prot pa))

theorem dropTable_roots (m : Machine) (t : Nat) (i : Idx) (c : Nat) : SameRoots m (m.dropTable t i c) := by
  unfold Machine.dropTable
  exact ⟨by rw [freePhysPages_ttbr0, setPte_ttbr0], by rw [freePhysPages_ttbr1, setPte_ttbr1]⟩

theorem unmapPage_roots (m : Machine) (va : Nat) : SameRoots m (unmapPage m va) := by
  have hs : ∀ t i, SameRoots m (m.setPte t i 0) := fun t i => setPte_roots m t i 0
  by_cases h0 : m.l0Table va = 0
  · rw [show unmapPage m va = m from if_pos h0]
    exact SameRoots.rfl'
  cases hp : ptePresent (m.translate va) with
  | false =>
    rw [unmapPage_absent h0 hp]
    exact SameRoots.rfl'
  | true =>
    rcases translate_cases m va with ⟨hn, -⟩ | ⟨t1, t2, t3, h1, h2, h3, ht⟩
    · rw [hp] at hn
      cases hn
    rw [unmapPage_eq h0 h1 h2 h3 (ht ▸ hp)]
    have h4 := (hs t3 (l3Index va)).trans (dropTable_roots _ t2 (l2Index va) t3)
    have h5 := h4.trans (dropTable_roots _ t1 (l1Index va) t2)
    split
    · exact hs t3 (l3Index va)
    split
    · exact h4
    split
    · exact h5
    · exact h5.trans (dropTable_roots _ (m.l0Table va) (l0Index va) t1)

theorem releasePage_roots (m : Machine) (va : Nat) : SameRoots m (releasePage m va) := by
  have h := unmapPage_roots m va
  unfold releasePage
  dsimp only
  split
  · exact h.trans ⟨putPage_ttbr0 _ _, putPage_ttbr1 _ _⟩
  · exact h

theorem releaseUpTo_roots (n : Nat) : ∀ (m : Machine) (cur stop : Nat), SameRoots m (releaseUpTo m cur stop n) := by
  induction n with
  | zero => intro m cur stop; exact SameRoots.rfl'
  | succ n ih =>
    intro m cur stop
    unfold releaseUpTo
    split
    · exact (releasePage_roots m cur).trans (ih _ _ _)
    · exact SameRoots.rfl'

theorem unmapBack_roots (addr n : Nat) : ∀ m : Machine, SameRoots m (unmapBack m addr n) := by
  induction n with
  | zero => intro m; exact SameRoots.rfl'
  | succ n ih => intro m; exact (releasePage_roots m _).trans (ih _)

theorem mmapPages_roots (addr left : Nat) : ∀ (m : Machine) (done : Nat), SameRoots m (mmapPages m addr done left).1 := by
  induction left with
  | zero => intro m done; exact SameRoots.rfl'
  | succ left ih =>
    intro m done
    unfold mmapPages
    dsimp only
    have h1 : SameRoots m (m.allocPage gfpKernel).1 := ⟨rfl, rfl⟩
    split
    · exact h1.trans (unmapBack_roots _ _ _)
    have h2 : SameRoots m ((m.allocPage gfpKernel).1.clearPage (m.allocPage gfpKernel).2) :=
      h1.trans ⟨clearPage_ttbr0 _ _, clearPage_ttbr1 _ _⟩
    have h3 := h2.trans (mapPage_roots _ (addr + done * pageSize) (m.allocPage gfpKernel).2 rustPageUserRw)
    split
    · exact (h3.trans ⟨putPage_ttbr0 _ _, putPage_ttbr1 _ _⟩).trans (unmapBack_roots _ _ _)
    · exact h3.trans (ih _ _)

end

/-! ## Runs -/

/-- The areas are in order, the break is a page, and the tables are aligned. -/
structure Space.Laid (s : Space) : Prop where
  areas : AreasOk s.mm.vmas
  page : 4096 ∣ s.mm.brk
  lt : s.mm.brk < 2 ^ 64
  ttbr0 : 8 ∣ s.machine.ttbr0
  ttbr1 : 8 ∣ s.machine.ttbr1

section

variable {s s' : Space} {m' : Machine} {mm' : MmStruct}

theorem Space.New.laid (h : s.New) : s.Laid :=
  ⟨h.areas, by rw [h.brk]; exact Nat.dvd_zero 4096, by rw [h.brk]; exact Nat.two_pow_pos 64, h.ttbr0, h.ttbr1⟩

/-- What `do_brk` does with the areas and the break. -/
theorem doBrk_cases {m : Machine} {mm : MmStruct} {newBrk r : Nat} (h : doBrk m mm newBrk = some (m', mm', r)) :
    newBrk + 4095 < 2 ^ 64 ∧
    (r = mm.brk ∧ m' = m ∧ mm' = mm ∧ (pageUp newBrk = mm.brk ∨ mm.brk < pageUp newBrk ∧ mm.overlaps mm.brk (pageUp newBrk) = true) ∨
      r = pageUp newBrk ∧ mm.brk < pageUp newBrk ∧ mm.overlaps mm.brk (pageUp newBrk) = false ∧ m' = m ∧
        mm' = { mm with vmas := mm.vmas.insert mm.brk ⟨mm.brk, pageUp newBrk, vmRead ||| vmWrite ||| vmAnonymous⟩,
                        brk := pageUp newBrk } ∨
      r = pageUp newBrk ∧ pageUp newBrk < mm.brk ∧
        m' = releaseUpTo m (pageUp newBrk) mm.brk ((mm.brk - pageUp newBrk + (pageSize - 1)) / pageSize) ∧
        mm' = { mm with vmas := mm.vmas.remove mm.brk, brk := pageUp newBrk }) := by
  unfold Mm.doBrk at h
  obtain ⟨nb, hn, h⟩ := Option.bind_eq_some_iff.mp h
  have hlt := alignUp_lt hn
  rw [alignUp_pageUp hn] at h
  refine ⟨hlt, ?_⟩
  by_cases h1 : pageUp newBrk = mm.brk
  · rw [if_pos h1] at h
    cases h
    exact Or.inl ⟨rfl, rfl, rfl, Or.inl h1⟩
  rw [if_neg h1] at h
  by_cases h2 : mm.brk < pageUp newBrk
  · rw [if_pos h2] at h
    split at h
    · next ho =>
      cases h
      exact Or.inl ⟨rfl, rfl, rfl, Or.inr ⟨h2, ho⟩⟩
    · next ho =>
      cases h
      exact Or.inr (Or.inl ⟨rfl, h2, Bool.eq_false_iff.mpr ho, rfl, rfl⟩)
  · rw [if_neg h2] at h
    obtain ⟨-, -, h⟩ := Option.map_eq_some_iff.mp h
    cases h
    exact Or.inr (Or.inr ⟨rfl, lt_of_le_of_ne (Nat.not_lt.mp h2) h1, rfl, rfl⟩)

/-- `mmap` and `munmap` leave the break. -/
theorem doMmap_brk {m : Machine} {mm : MmStruct} {addr len flags r : Nat} (h : doMmap m mm addr len flags = some (m', mm', r)) :
    mm'.brk = mm.brk ∧ SameRoots m m' := by
  unfold Mm.doMmap at h
  split at h
  · cases h
    exact ⟨rfl, SameRoots.rfl'⟩
  obtain ⟨len', -, h⟩ := Option.bind_eq_some_iff.mp h
  obtain ⟨a, -, h⟩ := Option.bind_eq_some_iff.mp h
  obtain ⟨stop, -, h⟩ := Option.map_eq_some_iff.mp h
  have hr := mmapPages_roots a (len' / pageSize) m 0
  split at h
  · cases h
    exact ⟨rfl, SameRoots.rfl'⟩
  dsimp only at h
  split at h
  · cases h
    exact ⟨rfl, hr⟩
  · cases h
    exact ⟨rfl, hr⟩

theorem doMunmap_brk {m : Machine} {mm : MmStruct} {addr len : Nat} {r : Int} (h : doMunmap m mm addr len = some (m', mm', r)) :
    mm'.brk = mm.brk ∧ SameRoots m m' := by
  unfold Mm.doMunmap at h
  split at h
  · cases h
    exact ⟨rfl, SameRoots.rfl'⟩
  obtain ⟨len', -, h⟩ := Option.bind_eq_some_iff.mp h
  split at h
  · cases h
    exact ⟨rfl, SameRoots.rfl'⟩
  · obtain ⟨stop, -, h⟩ := Option.map_eq_some_iff.mp h
    cases h
    exact ⟨rfl, releaseUpTo_roots _ _ _ _⟩

theorem Space.Laid.step {c : Call} (h : s.Laid) (hs : s.step c = some s') : s'.Laid := by
  unfold Space.step at hs
  cases c with
  | brk newBrk =>
    obtain ⟨⟨m', mm', r⟩, hc, rfl⟩ := Option.map_eq_some_iff.mp hs
    have hareas := h.areas.doBrk hc
    have hup := pageUp_spec newBrk
    obtain ⟨hlt, ⟨-, rfl, rfl, -⟩ | ⟨-, -, -, rfl, rfl⟩ | ⟨-, -, rfl, rfl⟩⟩ := doBrk_cases hc
    · exact h
    · exact ⟨hareas, hup.2.2, by dsimp only; omega, h.ttbr0, h.ttbr1⟩
    · obtain ⟨e0, e1⟩ := releaseUpTo_roots ((s.mm.brk - pageUp newBrk + (pageSize - 1)) / pageSize) s.machine (pageUp newBrk) s.mm.brk
      exact ⟨hareas, hup.2.2, by dsimp only; omega, by rw [e0]; exact h.ttbr0, by rw [e1]; exact h.ttbr1⟩
  | mmap addr len flags =>
    obtain ⟨⟨m', mm', r⟩, hc, rfl⟩ := Option.map_eq_some_iff.mp hs
    obtain ⟨hb, e0, e1⟩ := doMmap_brk hc
    exact ⟨h.areas.doMmap hc, by rw [hb]; exact h.page, by rw [hb]; exact h.lt, by rw [e0]; exact h.ttbr0, by rw [e1]; exact h.ttbr1⟩
  | munmap addr len =>
    obtain ⟨⟨m', mm', r⟩, hc, rfl⟩ := Option.map_eq_some_iff.mp hs
    obtain ⟨hb, e0, e1⟩ := doMunmap_brk hc
    exact ⟨h.areas.doMunmap hc, by rw [hb]; exact h.page, by rw [hb]; exact h.lt, by rw [e0]; exact h.ttbr0, by rw [e1]; exact h.ttbr1⟩

theorem laid_reach {ok : Space → Call → Prop} (hr : Reach Space.step ok Space.New s) : s.Laid :=
  hr.rule (fun _ h => h.laid) fun _ _ _ h _ hs => h.step hs

/-! ## Overflow -/

theorem AreasOk.vmaFind_isSome {mm : MmStruct} (h : AreasOk mm.vmas) (a : Nat) : (mm.vmaFind a).isSome = true ↔ a ∈ mm.Covered := by
  rw [Option.isSome_iff_exists]
  constructor
  · intro ⟨v, hv⟩
    obtain ⟨hm, h1, h2⟩ := (h.vmaFind_iff a v).mp hv
    exact ⟨_, hm, h1, h2⟩
  · intro ⟨e, he, h1, h2⟩
    have hk := h.keyed e he
    exact ⟨e.2, (h.vmaFind_iff a e.2).mpr ⟨by rw [← hk]; exact he, h1, h2⟩⟩

theorem alignUp_isSome (x : Nat) : (alignUp x).isSome = true ↔ x + 4095 < 2 ^ 64 := by
  rw [Option.isSome_iff_exists]
  exact ⟨fun ⟨y, hy⟩ => (alignUp_iff.mp hy).1, fun h => ⟨_, alignUp_iff.mpr ⟨h, rfl⟩⟩⟩

theorem checkedAdd_isSome (a b : Nat) : (checkedAdd a b).isSome = true ↔ a + b < 2 ^ 64 := by
  rw [Option.isSome_iff_exists]
  exact ⟨fun ⟨y, hy⟩ => (checkedAdd_eq.mp hy).1, fun h => ⟨_, checkedAdd_eq.mpr ⟨h, rfl⟩⟩⟩

/-- A page number of pages up to a page ends there. -/
theorem turns_end {lo hi : Nat} (h1 : 4096 ∣ lo) (h2 : 4096 ∣ hi) (hle : lo ≤ hi) :
    lo + (hi - lo + (pageSize - 1)) / pageSize * pageSize = hi := by
  unfold pageSize
  omega

theorem Space.Laid.brk_fits (h : s.Laid) (newBrk : Nat) : (s.step (.brk newBrk)).isSome = true ↔ newBrk + 4095 < 2 ^ 64 := by
  rw [Space.step, Option.isSome_map, ← alignUp_isSome]
  unfold Mm.doBrk
  cases ha : alignUp newBrk with
  | none => simp
  | some nb =>
    have hlt := alignUp_lt ha
    rw [Option.bind_some, alignUp_pageUp ha]
    refine iff_of_true ?_ rfl
    split
    · rfl
    · next hne =>
      split
      · split <;> rfl
      · next hge =>
        -- the pages up to the break end at the break
        have hend := turns_end (pageUp_spec newBrk).2.2 h.page (Nat.not_lt.mp hge)
        rw [Option.isSome_map, checkedAdd_isSome, hend]
        exact h.lt

theorem step_of_brk {m : Machine} {mm : MmStruct} {newBrk r : Nat} (hc : doBrk s.machine s.mm newBrk = some (m, mm, r)) :
    s.step (.brk newBrk) = some ⟨m, mm⟩ := by
  rw [Space.step, hc]
  rfl

theorem Space.Laid.brk_returns (h : s.Laid) {newBrk : Nat} (hf : newBrk + 4095 < 2 ^ 64) :
    ∃ m mm r, doBrk s.machine s.mm newBrk = some (m, mm, r) := by
  have hs := (h.brk_fits newBrk).mpr hf
  rw [Space.step, Option.isSome_map, Option.isSome_iff_exists] at hs
  obtain ⟨⟨m, mm, r⟩, hc⟩ := hs
  exact ⟨m, mm, r, hc⟩

theorem Space.Laid.mmap_fits (h : s.Laid) (addr len flags : Nat) :
    (s.step (.mmap addr len flags)).isSome = true ↔ (Call.mmap addr len flags).Fits s.mm := by
  rw [Space.step, Option.isSome_map]
  unfold Mm.doMmap Call.Fits
  by_cases hl : len = 0
  · rw [if_pos hl]
    exact iff_of_true rfl fun hne => absurd hl hne
  rw [if_neg hl]
  cases ha : alignUp len with
  | none =>
    have hno := (alignUp_isSome len).not.mp (by rw [ha]; exact Bool.false_ne_true)
    exact iff_of_false (by rw [Option.bind_none]; exact Bool.false_ne_true) fun hf => hno (hf hl).1
  | some len' =>
    have hlt := alignUp_lt ha
    rw [Option.bind_some, alignUp_pageUp ha]
    have hup := pageUp_spec len
    -- where the pages are to go, the rest is one sum
    have hrest : ∀ {o : Option Nat} {k : Nat → Nat → Machine × MmStruct × Nat}, (o.bind fun a =>
        (checkedAdd a (pageUp len)).map (k a)).isSome = true ↔ ∃ a, o = some a ∧ a + pageUp len < 2 ^ 64 := fun {o k} => by
      cases o with
      | none => simp
      | some a => rw [Option.bind_some, Option.isSome_map, checkedAdd_isSome]; simp
    rw [hrest]
    dsimp only
    by_cases h0 : addr = 0
    · rw [if_pos h0, if_pos h0, h.areas.findFreeArea_fits (by omega) hup.2.2]
      exact ⟨fun hp _ => ⟨hlt, hp⟩, fun hf => (hf hl).2⟩
    · rw [if_neg h0, if_neg h0]
      simp only [Option.some.injEq, exists_eq_left']
      exact ⟨fun hp _ => ⟨hlt, hp⟩, fun hf => (hf hl).2⟩

theorem Space.Laid.munmap_fits (h : s.Laid) (addr len : Nat) :
    (s.step (.munmap addr len)).isSome = true ↔ (Call.munmap addr len).Fits s.mm := by
  rw [Space.step, Option.isSome_map]
  unfold Mm.doMunmap Call.Fits
  by_cases hl : len = 0
  · rw [if_pos hl]
    exact iff_of_true rfl fun hne => absurd hl hne
  rw [if_neg hl]
  cases ha : alignUp len with
  | none =>
    have hno := (alignUp_isSome len).not.mp (by rw [ha]; exact Bool.false_ne_true)
    exact iff_of_false (by rw [Option.bind_none]; exact Bool.false_ne_true) fun hf => hno (hf hl).1
  | some len' =>
    have hlt := alignUp_lt ha
    have hfind := h.areas.vmaFind_isSome addr
    rw [Option.bind_some, alignUp_pageUp ha]
    cases hv : s.mm.vmaFind addr with
    | none =>
      rw [hv] at hfind
      exact iff_of_true rfl fun _ => ⟨hlt, fun hc => absurd (hfind.mpr hc) (by simp)⟩
    | some vma =>
      rw [hv] at hfind
      dsimp only
      rw [Option.isSome_map, checkedAdd_isSome]
      exact ⟨fun hs _ => ⟨hlt, fun _ => hs⟩, fun hf => (hf hl).2 (hfind.mp rfl)⟩

theorem Space.Laid.fits_iff (h : s.Laid) (c : Call) : (s.step c).isSome = true ↔ c.Fits s.mm := by
  cases c with
  | brk newBrk => exact h.brk_fits newBrk
  | mmap addr len flags => exact h.mmap_fits addr len flags
  | munmap addr len => exact h.munmap_fits addr len

theorem Space.Laid.run {calls : List Call} (h : s.Laid) (hf : Meets Space.step (fun s c => c.Fits s.mm) s calls) :
    (trace Space.step s calls).isSome = true := by
  induction calls generalizing s with
  | nil => rfl
  | cons c calls ih =>
    obtain ⟨h1, h2⟩ := hf
    obtain ⟨s', hs⟩ := Option.isSome_iff_exists.mp ((h.fits_iff c).mpr h1)
    rw [trace, hs, Option.bind_some]
    exact ih (h.step hs) (h2 s' hs)

/-- In every state of every run a call panics exactly if its arguments do not fit; a run of calls
    that all fit goes through. -/
theorem calls_fit_iff (hr : Reach Space.step (fun _ _ => True) Space.New s) :
    (∀ c, (s.step c).isSome = true ↔ c.Fits s.mm) ∧
      ∀ calls, Meets Space.step (fun s c => c.Fits s.mm) s calls → (trace Space.step s calls).isSome = true :=
  ⟨(laid_reach hr).fits_iff, fun _ hf => (laid_reach hr).run hf⟩

end

/-- A process without areas. -/
def emptySpace (m : Machine) : Space := ⟨m, MmStruct.new⟩

theorem emptySpace_new : (emptySpace bootMachine).New :=
  ⟨AreasOk.empty, rfl, by unfold emptySpace bootMachine; decide, by unfold emptySpace bootMachine; decide⟩

/-- The largest break panics the kernel. -/
theorem largest_brk_panics : Reach Space.step (fun _ _ => True) Space.New (emptySpace bootMachine) ∧
    (emptySpace bootMachine).step (.brk (2 ^ 64 - 1)) = none := by
  refine ⟨.init emptySpace_new, ?_⟩
  have h := (emptySpace_new.laid.fits_iff (.brk (2 ^ 64 - 1))).not
  rw [Bool.not_eq_true, Option.isSome_eq_false_iff, Option.isNone_iff_eq_none] at h
  exact h.mpr (by unfold Call.Fits; omega)

/-- A heap is made. -/
theorem calls_fit_iff_heap : ((emptySpace bootMachine).step (.brk 0x2000)).isSome = true :=
  ((calls_fit_iff (.init emptySpace_new)).1 (.brk 0x2000)).mpr (by unfold Call.Fits; omega)

end Myos.Mm
