/-
  Myos.Vmalloc.Complete — what the runs of `kernel/vmalloc.c` leave behind.

  Proved: a call is refused, or one allocation comes or goes and no entry outside its pages
  changes. In every run in which no buffer of `dma_alloc_coherent` is freed, no mapping of
  several pages that has lost its record is unmapped and no size wraps, busy areas, mapped
  pages, blocks and records are at every moment those of the allocations that are out.
-/

import Myos.Mm.RefCounts
import Myos.Vmalloc.Releases

namespace Myos.Vmalloc

open Mm Pmm
open Vmap (Word VmapManager)

/-! ## One step -/

/-- Sizes that do not wrap when they are rounded up to pages; only mappings that are out are unmapped. -/
def Proper (s : State) : Op → Prop
  | .vmalloc size .. => size.toNat + 4095 < 2 ^ 64
  | .ioremap phys size .. => phys.toNat % pageSize + size.toNat + 4095 < 2 ^ 64
  | .iounmap addr .. => addr = 0 ∨ ∃ a ∈ s.live, a.kind = .ioremap ∧ a.va = addr &&& pageMask
  | _ => True

/-- No buffer is freed, and a mapping that is unmapped has its record or has one page. -/
def Traced (s : State) : Op → Prop
  | .iounmap addr .. => ∀ a ∈ s.live, a.va = addr &&& pageMask → a.pages.length = 1 ∨ ∃ io ∈ s.sys.ioMapList, io.addr = a.va
  | .dmaFreeCoherent va => ∀ a ∈ s.live, (Op.dmaFreeCoherent va).returns a = false
  | _ => True

/-- What a call does to the allocations that are out. -/
inductive Effect (s : State) (e : Op) (lost : List (Nat × Nat)) : State → List (Nat × Nat) → Prop where
  | refused {s' : State} : s'.live = s.live → Refused s.sys s'.sys → Effect s e lost s' lost
  | acquired {s' : State} {a : Alloc} : s'.live = a :: s.live → Acquired s.sys s'.sys e a → Effect s e lost s' lost
  | released {s' : State} {a : Alloc} {lost' : List (Nat × Nat)} : s.live.Perm (a :: s'.live) →
      (∀ x, InRange x → ¬ InPages a.va.toNat a.pages.length x → s'.sys.machine.translate x = s.sys.machine.translate x) →
      (Traced s e → Released s.sys s'.sys a ∧ lost' = lost) → Effect s e lost s' lost'

section

variable {R : Set Nat} {X : Set (Nat × Nat)} {rf : Nat → Nat} {lost : List (Nat × Nat)} {s s' : State} {e : Op}

theorem filter_returns (h : ∀ a ∈ s.live, e.returns a = false) : (s.live.filter fun a => !e.returns a) = s.live :=
  List.filter_eq_self.mpr fun a ha => by rw [h a ha]; rfl

theorem step_acquire {sys : Sys} {r : Word} {pa : Nat} (hc : s.sys.call e = some (sys, r, pa)) (h0 : r ≠ 0) :
    step s e = some ⟨sys, e.promises s.sys.machine r pa ++ s.live.filter fun a => !e.returns a⟩ := by
  rw [step, hc, Option.map_some]
  dsimp only
  rw [if_neg h0]

theorem step_outcome (hO : Outcome R X rf lost s.sys s.live e (s.sys.call e)) (hr : ∀ a ∈ s.live, e.returns a = false) :
    ∃ s', step s e = some s' ∧ Ledger R X rf lost s' ∧ Effect s e lost s' lost := by
  generalize hc : s.sys.call e = o at hO
  cases hO with
  | refused hR hL =>
    refine ⟨⟨_, s.live⟩, ?_, hL, .refused rfl hR⟩
    rw [step, hc, Option.map_some]
    dsimp only
    rw [if_pos rfl, filter_returns hr]
    rfl
  | acquired h0 hp hA hL =>
    refine ⟨⟨_, _ :: s.live⟩, ?_, hL, .acquired rfl hA⟩
    rw [step_acquire hc h0, hp, filter_returns hr]
    rfl

theorem step_release {sys : Sys} (hc : s.sys.call e = some (sys, 0, 0)) :
    step s e = some ⟨sys, s.live.filter fun a => !e.returns a⟩ := by
  rw [step, hc]
  rfl

theorem perm_filter_returns {h : Ledger R X rf lost s} {a : Alloc} (ha : a ∈ s.live) (hret : ∀ b ∈ s.live, e.returns b = true ↔ b = a) :
    s.live.Perm (a :: s.live.filter fun b => !e.returns b) :=
  h.perm_filter ha fun b hb =>
    (hret b hb).trans ⟨fun e => congrArg Alloc.va e, fun e => Ledger.va_inj (s := s.sys) h hb ha e⟩

/-- A call is refused, or one allocation comes or goes. -/
theorem step_effect (h : Ledger R X rf lost s) (hf : Fresh s e) (hp : Proper s e) :
    ∃ s' lost', step s e = some s' ∧ Ledger R X rf lost' s' ∧ Effect s e lost s' lost' := by
  cases e with
  | vmalloc size before remain vm array link link' =>
    obtain ⟨s', h1⟩ := step_outcome (h.vmalloc hf hp vm array link link') fun _ _ => rfl
    exact ⟨s', lost, h1⟩
  | ioremap phys size before remain io =>
    obtain ⟨s', h1⟩ := step_outcome (h.ioremap hf hp io) fun _ _ => rfl
    exact ⟨s', lost, h1⟩
  | dmaAllocCoherent size before remain dma =>
    obtain ⟨s', h1⟩ := step_outcome (h.dmaAllocCoherent hf dma) fun _ _ => rfl
    exact ⟨s', lost, h1⟩
  | vfree addr link link' =>
    rcases h.vfree addr link link' with ⟨he, hno⟩ | ⟨s', a, he, ha, hret, hR, hother, hL⟩
    · refine ⟨s, lost, ?_, h, .refused rfl (Refused.refl _)⟩
      rw [step_release (by rw [Sys.call, he]; rfl), filter_returns hno]
    · exact ⟨_, lost, step_release (by rw [Sys.call, he]; rfl), hL,
        .released (perm_filter_returns (h := h) ha hret) hother fun _ => ⟨hR, rfl⟩⟩
  | iounmap addr link link' =>
    rcases hp with rfl | ⟨a, ha, hk, hva⟩
    · have hno : ∀ a ∈ s.live, (Op.iounmap 0 link link').returns a = false := fun a ha =>
        decide_eq_false fun e => Ledger.va_ne_zero (s := s.sys) h ha (e.2.trans (by decide))
      refine ⟨s, lost, ?_, h, .refused rfl (Refused.refl _)⟩
      rw [step_release (by rw [Sys.call, Sys.iounmap, if_pos rfl]; rfl), filter_returns hno]
    · obtain ⟨s', he, hret, hR, hother, hL⟩ := h.iounmap ha hk hva link link'
      exact ⟨_, lost, step_release (by rw [Sys.call, he]; rfl), hL,
        .released (perm_filter_returns (h := h) ha hret) hother fun hT => ⟨hR (hT a ha hva), rfl⟩⟩
  | dmaFreeCoherent va =>
    rcases h.dmaFreeCoherent va with ⟨he, hno⟩ | ⟨a, ha, hret, -, hother, lost', hL⟩
    · refine ⟨s, lost, ?_, h, .refused rfl (Refused.refl _)⟩
      rw [step_release (by rw [Sys.call, he]), filter_returns hno]
    · refine ⟨_, lost', step_release rfl, hL, .released (perm_filter_returns (h := h) ha hret) hother fun hT => ?_⟩
      exact absurd ((hret a ha).mpr rfl) (by rw [hT a ha]; decide)

end

/-! ## Complete releases -/

/-- Busy areas, mapped pages, blocks and records are those of the allocations that are out, besides the blocks `X`,
    the tables and the counted frames. -/
structure Complete (R : Set Nat) (X : Set (Nat × Nat)) (rf : Nat → Nat) (s : State) : Prop where
  busy : ∀ d ∈ s.sys.mgr.busyList, ∃ a ∈ s.live, (s.sys.mgr.areas d).vaStart = a.va
  mapped : ∀ x, InRange x → ptePresent (s.sys.machine.translate x) = true → ∃ a ∈ s.live, InPages a.va.toNat a.pages.length x
  frames : ∀ p k, Used s.sys.machine.pmm p k →
    (p, k) ∈ X ∨ k = 0 ∧ (Table s.sys.machine.mem R (pfnToPa p) ∨ 0 < rf p) ∨ ∃ a ∈ s.live, (p, k) ∈ a.blocks
  records : ∀ r ∈ s.sys.records, ∃ a ∈ s.live, r.Of a
  heap : s.sys.heap.Perm (s.sys.records.flatMap Record.cells)

/-- What the steps keep of it, besides the ledger. -/
structure Exact (s : State) : Prop where
  busy : ∀ d ∈ s.sys.mgr.busyList, ∃ a ∈ s.live, (s.sys.mgr.areas d).vaStart = a.va
  mapped : ∀ x, InRange x → ptePresent (s.sys.machine.translate x) = true → ∃ a ∈ s.live, InPages a.va.toNat a.pages.length x

section

variable {R : Set Nat} {X : Set (Nat × Nat)} {rf : Nat → Nat} {lost lost' : List (Nat × Nat)} {s s' : State} {e : Op}

theorem Exact.complete (h : Exact s) (hL : Ledger R X rf [] s) : Complete R X rf s := by
  refine ⟨h.busy, h.mapped, fun p k hu => ?_, hL.recorded, hL.heap⟩
  rcases hL.owned.owner p k hu with (hm | hm) | hm
  · exact Or.inl hm
  · rw [List.append_nil] at hm
    exact Or.inr (Or.inr (List.mem_flatMap.mp hm))
  · exact Or.inr (Or.inl hm)

theorem Exact.step (h : Exact s) (hE : Effect s e lost s' lost') (hT : Traced s e) : Exact s' ∧ lost' = lost := by
  cases hE with
  | refused hl hR =>
    refine ⟨⟨fun d hd => ?_, fun x hx hm => ?_⟩, rfl⟩
    · have hd := (hR.busy d).mp hd
      rw [hl, hR.areas d hd]
      exact h.busy d hd
    · rw [hR.tables.translate] at hm
      rw [hl]
      exact h.mapped x hx hm
  | @acquired a hl hA =>
    obtain ⟨d0, -, hb, hs⟩ := hA.area.busy
    refine ⟨⟨fun d hd => ?_, fun x hx hm => ?_⟩, rfl⟩
    · rw [hl]
      rcases List.mem_cons.mp (hb ▸ hd) with rfl | hd
      · exact ⟨a, List.mem_cons_self .., hs⟩
      · obtain ⟨b, hm, he⟩ := h.busy d hd
        exact ⟨b, List.mem_cons_of_mem _ hm, (congrArg _ (hA.area.areas d hd)).trans he⟩
    · rw [hl]
      by_cases hx' : InPages a.va.toNat a.pages.length x
      · exact ⟨a, List.mem_cons_self .., hx'⟩
      · rw [hA.other x hx hx'] at hm
        obtain ⟨b, hb, hp⟩ := h.mapped x hx hm
        exact ⟨b, List.mem_cons_of_mem _ hb, hp⟩
  | @released a _ hl hother hW =>
    obtain ⟨hR, rfl⟩ := hW hT
    have hmem : ∀ b ∈ s.live, b ≠ a → b ∈ s'.live := fun b hb hne => (List.mem_cons.mp (hl.mem_iff.mp hb)).resolve_left hne
    refine ⟨⟨fun d hd => ?_, fun x hx hm => ?_⟩, rfl⟩
    · obtain ⟨hd', hne⟩ := (hR.area.busy d).mp hd
      obtain ⟨b, hb, he⟩ := h.busy d hd'
      refine ⟨b, hmem b hb fun e => hne (he.trans (congrArg Alloc.va e)), ?_⟩
      rw [hR.area.areas d hd]
      exact he
    · by_cases hx' : InPages a.va.toNat a.pages.length x
      · rw [hR.gone x hx hx'] at hm
        cases hm
      · rw [hother x hx hx'] at hm
        obtain ⟨b, hb, hp⟩ := h.mapped x hx hm
        exact ⟨b, hmem b hb fun e => hx' (e ▸ hp), hp⟩

theorem Boot.exact {s : State} (h : Boot R X rf s) : Exact s := by
  obtain ⟨d, -, hi, -⟩ := h.mgr
  refine ⟨fun d hd => ?_, fun x hx hm => ?_⟩
  · unfold VmapManager.vaManagerInit VmapManager.vaInsertFree at hi
    obtain ⟨t, -, hm⟩ := Option.map_eq_some_iff.mp hi
    have hb : s.sys.mgr.busyList = [] := by
      rw [show s.sys.mgr = _ from hm.symm]
      rfl
    rw [hb] at hd
    cases hd
  · rw [h.unmapped x hx] at hm
    cases hm

/-- In every run in which no buffer is freed and no mapping of several pages that has lost its
    record is unmapped, what is busy, mapped, allocated and recorded belongs to the allocations
    that are out. No call fails to return. -/
theorem complete_reach (h : Lib.Reach step (fun s e => Fresh s e ∧ Proper s e ∧ Traced s e) (Boot R X rf) s) :
    Complete R X rf s ∧ ∀ e, Fresh s e → Proper s e → ∃ s', step s e = some s' := by
  obtain ⟨hL, hE⟩ : Ledger R X rf [] s ∧ Exact s := by
    refine h.rule (P := fun s => Ledger R X rf [] s ∧ Exact s) (fun s hb => ⟨hb.ledger, hb.exact⟩) fun s e s' hP hok hs => ?_
    obtain ⟨s1, lost', h1, hL, hE⟩ := step_effect hP.1 hok.1 hok.2.1
    cases h1.symm.trans hs
    obtain ⟨hX, rfl⟩ := hP.2.step hE hok.2.2
    exact ⟨hL, hX⟩
  refine ⟨hE.complete hL, fun e hf hp => ?_⟩
  obtain ⟨s', -, h1, -⟩ := step_effect hL hf hp
  exact ⟨s', h1⟩

end

/-! ## Evaluated runs -/

instance instDecidableAnswers (m : VmapManager) (before remain : Option Word) : Decidable (Answers m before remain) :=
  inferInstanceAs (Decidable (Vmap.Fresh (Vmap.State.mk m []) (Vmap.Op.alloc 0 0 0 before remain)))

instance instDecidableFresh (s : State) : ∀ e, Decidable (Fresh s e)
  | .vmalloc _ before remain .. => instDecidableAnswers s.sys.mgr before remain
  | .ioremap _ _ before remain _ => instDecidableAnswers s.sys.mgr before remain
  | .dmaAllocCoherent _ before remain _ => instDecidableAnswers s.sys.mgr before remain
  | .vfree .. => .isTrue trivial
  | .iounmap .. => .isTrue trivial
  | .dmaFreeCoherent _ => .isTrue trivial

instance instDecidableProper (s : State) : ∀ e, Decidable (Proper s e)
  | .vmalloc size .. => inferInstanceAs (Decidable (size.toNat + 4095 < 2 ^ 64))
  | .ioremap phys size .. => inferInstanceAs (Decidable (phys.toNat % pageSize + size.toNat + 4095 < 2 ^ 64))
  | .iounmap addr .. => inferInstanceAs (Decidable (addr = 0 ∨ ∃ a ∈ s.live, a.kind = .ioremap ∧ a.va = addr &&& pageMask))
  | .vfree .. => .isTrue trivial
  | .dmaAllocCoherent .. => .isTrue trivial
  | .dmaFreeCoherent _ => .isTrue trivial

instance instDecidableTraced (s : State) : ∀ e, Decidable (Traced s e)
  | .iounmap addr .. => inferInstanceAs (Decidable (∀ a ∈ s.live, a.va = addr &&& pageMask →
      a.pages.length = 1 ∨ ∃ io ∈ s.sys.ioMapList, io.addr = a.va))
  | .dmaFreeCoherent va => inferInstanceAs (Decidable (∀ a ∈ s.live, (Op.dmaFreeCoherent va).returns a = false))
  | .vmalloc .. => .isTrue trivial
  | .vfree .. => .isTrue trivial
  | .ioremap .. => .isTrue trivial
  | .dmaAllocCoherent .. => .isTrue trivial

def bootSys : Option State := Vmap.bootState.map fun v => ⟨⟨bootMachine, v.mgr, [], [], [], []⟩, []⟩

theorem bootMachine_translate (x : Nat) : bootMachine.translate x = 0 := by
  have hc : ∀ t i, child bootMachine.mem t i = none := fun t i => child_none_of_zero (by simp [bootMachine, read64])
  exact entryAt_none (Lib.Walk.walk_childless (hc _) (by simp [dirs])) _

theorem bootSys_boot (s : State) (h : bootSys = some s) : Boot {bootMachine.ttbr1} ∅ (fun _ => 0) s := by
  obtain ⟨v, hv, rfl⟩ := Option.map_eq_some_iff.mp h
  obtain ⟨d, h0, hi, -⟩ := Vmap.bootState_boot v hv
  refine ⟨bootMachine_boot, Set.mem_singleton _, show bootMachine.ttbr1 ≠ 0 by decide, ⟨d, h0, hi, rfl⟩, fun x _ => ?_, rfl, rfl, rfl, rfl, rfl⟩
  rw [bootMachine_translate, ptePresent_zero]

/-- A page comes and goes, and a device of two pages, whose record could be allocated. -/
def borrowAll : List Op :=
  [.vmalloc 0x1000 none (some 2) (some 10) (some 11) 0 0, .ioremap 0x9000010 0x1ff0 none (some 3) (some 12),
    .iounmap 0xffff000000001010 0 0, .vfree 0xffff000000000000 0 0]

theorem complete_reach_borrowAll : ∃ s, Lib.Reach step (fun s e => Fresh s e ∧ Proper s e ∧ Traced s e)
    (Boot {bootMachine.ttbr1} ∅ fun _ => 0) s ∧ s.live = [] ∧ Complete {bootMachine.ttbr1} ∅ (fun _ => 0) s := by
  obtain ⟨s, hr, -, hd⟩ := Lib.exists_run step (fun s e => Fresh s e ∧ Proper s e ∧ Traced s e) borrowAll
    (fun s => decide (s.live = [])) bootSys_boot rfl rfl
  exact ⟨s, hr, of_decide_eq_true hd, (complete_reach hr).1⟩

/-- The buffer of one block of I/O: it is allocated and freed, and its range stays busy. -/
theorem dma_range_lost : ∃ s, Lib.Reach step (fun s e => Fresh s e ∧ Proper s e) (Boot {bootMachine.ttbr1} ∅ fun _ => 0) s ∧
    s.live = [] ∧ ¬ Complete {bootMachine.ttbr1} ∅ (fun _ => 0) s := by
  obtain ⟨s, hr, -, hd⟩ := Lib.exists_run step (fun s e => Fresh s e ∧ Proper s e)
    [.dmaAllocCoherent 0x1000 none (some 2) (some 10), .dmaFreeCoherent 0xffff000000000000]
    (fun s => decide (s.live = [] ∧ s.sys.mgr.busyList ≠ [])) bootSys_boot rfl rfl
  obtain ⟨hl, hb⟩ := of_decide_eq_true hd
  refine ⟨s, hr, hl, fun hC => ?_⟩
  obtain ⟨d, hd⟩ := List.exists_mem_of_ne_nil _ hb
  obtain ⟨a, ha, -⟩ := hC.busy d hd
  rw [hl] at ha
  cases ha

end Myos.Vmalloc
