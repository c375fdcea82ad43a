/-
  Myos.Pmm.Handles — the `PhysPage` handles of `kernel/phys_page.rs` over the allocator.

  A handle holds the address of a block and an order. A clone has order 0 whatever the block;
  dropping a handle of order 0 takes a reference back, dropping another one frees the block.

  State: the allocator, the live handles (each with the order its block was allocated with,
  which the handle itself may not tell) and the addresses `ref_inc` was called for and `ref_dec`
  not yet. A handle that `ref_inc` still counts on is not dropped as the last one.

  Proved: in the runs in which a handle of an order above 0 is only dropped as the last one of
  its block, and no count wraps, the allocated blocks are those with a live handle, so a block
  stays as long as it has one and is given back whole with the last (`handles_reach`). A drop
  that breaks the rule takes the block from under the other handles.
-/

import Mathlib
import Myos.Lib.Runs
import Myos.Pmm.Coalescing

namespace Myos.Pmm

open Myos.Lib.Dyadic

structure PhysPage where
  pa : Nat
  order : Nat
  deriving DecidableEq, Repr

namespace PhysPage

def allocWith (s : State) (order flags : Nat) : State × Option PhysPage :=
  let (s, pa) := allocPhysPages s order flags
  if pa = 0 then (s, none) else (s, some ⟨pa, order⟩)

def refInc (s : State) (h : PhysPage) : State := getPage s h.pa

def refDec (s : State) (h : PhysPage) : State := putPage s h.pa

def clone (s : State) (h : PhysPage) : State × PhysPage := (getPage s h.pa, ⟨h.pa, 0⟩)

def drop (s : State) (h : PhysPage) : State :=
  if h.order = 0 then putPage s h.pa else freePhysPages s h.pa h.order

end PhysPage

/-! ## References -/

section

variable {s s' : State} {p : Nat}

/-- `s'` is `s` with the count of one page set. -/
structure CountAt (s s' : State) (p n : Nat) : Prop extends RefsOnly s s' where
  count : (s'.memMap p).refCount = n
  others : ∀ q, q ≠ p → (s'.memMap q).refCount = (s.memMap q).refCount

theorem countAt_setPage (h : Sound s) (p n : Nat) : CountAt s (setPage s p fun pg => { pg with refCount := n }) p n := by
  refine ⟨setRef_spec h p n, ?_, fun q hq => ?_⟩
  · simp [setPage]
  · simp [setPage, Function.update_of_ne hq]

theorem getPage_count (h : Sound s) (hp : p < totalPages) :
    CountAt s (getPage s (pfnToPa p)) p (add64 (s.memMap p).refCount 1) := by
  have he : getPage s (pfnToPa p) = setPage s p fun pg => { pg with refCount := add64 pg.refCount 1 } := by
    rw [getPage, paToPfn_pfnToPa hp]
    exact if_neg (by omega)
  have hpg : (setPage s p fun pg => { pg with refCount := add64 pg.refCount 1 }) =
      setPage s p fun pg => { pg with refCount := add64 (s.memMap p).refCount 1 } := rfl
  rw [he, hpg]
  exact countAt_setPage h p _

/-- A reference is taken back and others are left. -/
theorem putPage_count (h : Sound s) (hp : p < totalPages) (hc : 1 < (s.memMap p).refCount) :
    CountAt s (putPage s (pfnToPa p)) p ((s.memMap p).refCount - 1) := by
  have he : putPage s (pfnToPa p) = setPage s p fun pg => { pg with refCount := (s.memMap p).refCount - 1 } := by
    simp only [putPage, paToPfn_pfnToPa hp]
    rw [if_neg (by omega), if_neg (by omega), if_neg (by simp [setPage]; omega)]
    rfl
  rw [he]
  exact countAt_setPage h p _

/-- The last reference to a page is taken back. -/
theorem putPage_last (h : Sound s) (hu : Used s p 0) (hc : (s.memMap p).refCount = 1) :
    Sound (putPage s (pfnToPa p)) ∧ (∀ q k, Used (putPage s (pfnToPa p)) q k ↔ Used s q k ∧ q ≠ p) ∧
      ∀ q, q ≠ p → ((putPage s (pfnToPa p)).memMap q).refCount = (s.memMap q).refCount := by
  have hC := countAt_setPage h p 0
  have he : putPage s (pfnToPa p) =
      freePhysPages (setPage s p fun pg => { pg with refCount := 0 }) (pfnToPa p) 0 := by
    simp only [putPage, paToPfn_pfnToPa hu.1]
    rw [if_neg (by have := hu.1; omega), if_neg (by omega), if_pos (by simp [setPage]; omega)]
    have : (setPage s p fun pg => { pg with refCount := pg.refCount - 1 }) =
        setPage s p fun pg => { pg with refCount := (s.memMap p).refCount - 1 } := rfl
    rw [this, hc]
  have hF := free_used hC.sound ((hC.used p 0).mpr hu)
  rw [he]
  exact ⟨hF.sound, fun q k => (hF.used q k).trans (and_congr_left fun _ => hC.used q k),
    fun q hq => (hF.refs q).trans (hC.others q hq)⟩

end

/-! ## Runs -/

/-- A live handle and the order its block was allocated with. -/
abbrev Handle := PhysPage × Nat

structure Handles where
  state : State
  live : List Handle
  /-- The address of each `ref_inc` that is not undone. -/
  held : List Nat

namespace Handles

inductive Op where
  | allocWith (order flags : Nat)
  | clone (e : Handle)
  | refInc (e : Handle)
  | refDec (e : Handle)
  | drop (e : Handle)
  deriving DecidableEq, Repr

/-- Another handle for the block of `e` is live. -/
def Shared (s : Handles) (e : Handle) : Prop := ∃ e' ∈ s.live.erase e, e'.1.pa = e.1.pa

instance (s : Handles) (e : Handle) : Decidable (s.Shared e) := by
  delta Shared
  infer_instance

/-- Operations on a handle that is not live do not exist. -/
def step (s : Handles) : Op → Option Handles
  | .allocWith order flags =>
    let r := PhysPage.allocWith s.state order flags
    some ⟨r.1, (r.2.map fun h => (h, order)).toList ++ s.live, s.held⟩
  | .clone e =>
    let r := PhysPage.clone s.state e.1
    if e ∈ s.live then some ⟨r.1, (r.2, e.2) :: s.live, s.held⟩ else none
  | .refInc e => if e ∈ s.live then some ⟨PhysPage.refInc s.state e.1, s.live, e.1.pa :: s.held⟩ else none
  | .refDec e =>
    if e ∈ s.live ∧ e.1.pa ∈ s.held then some ⟨PhysPage.refDec s.state e.1, s.live, s.held.erase e.1.pa⟩ else none
  | .drop e =>
    if e ∈ s.live ∧ (s.Shared e ∨ e.1.pa ∉ s.held) then some ⟨PhysPage.drop s.state e.1, s.live.erase e, s.held⟩ else none

/-- A handle of an order above 0 is the last one of its block when it is dropped, and the
    counts do not wrap. -/
def Keeps (s : Handles) : Op → Prop
  | .drop e => e.1.order = 0 ∨ ¬ s.Shared e
  | .clone e | .refInc e => (s.state.memMap (paToPfn e.1.pa)).refCount + 1 < 2 ^ 64
  | _ => True

/-- The allocator right after `buddy_init`, and no handle. -/
def Init (kernelEnd : Nat) (s : Handles) : Prop := ∃ s0, s = ⟨buddyInit s0 kernelEnd, [], []⟩

/-- The references to a page that are accounted for. -/
def shares (s : Handles) (pa : Nat) : Nat := s.live.countP (fun e => e.1.pa = pa) + s.held.count pa

structure Counted (s : Handles) : Prop where
  sound : Sound s.state
  used : ∀ p k, Used s.state p k ↔ ∃ e ∈ s.live, e.1.pa = pfnToPa p ∧ e.2 = k
  page : ∀ e ∈ s.live, ∃ p, e.1.pa = pfnToPa p
  order : ∀ e ∈ s.live, e.1.order = 0 ∨ e.1.order = e.2
  original : ∀ e ∈ s.live, ∃ e' ∈ s.live, e'.1.pa = e.1.pa ∧ e'.1.order = e.2
  held : ∀ pa ∈ s.held, ∃ e ∈ s.live, e.1.pa = pa
  count : ∀ p k, Used s.state p k → (s.state.memMap p).refCount = s.shares (pfnToPa p)

section

variable {s : Handles} {e : Handle}

/-- The block of a live handle. -/
theorem Counted.block (h : s.Counted) (he : e ∈ s.live) : ∃ p, e.1.pa = pfnToPa p ∧ Used s.state p e.2 := by
  obtain ⟨p, hp⟩ := h.page e he
  exact ⟨p, hp, (h.used p e.2).mpr ⟨e, he, hp, rfl⟩⟩

theorem Counted.same_block (h : s.Counted) {e' : Handle} (he : e ∈ s.live) (he' : e' ∈ s.live) (hpa : e'.1.pa = e.1.pa) :
    e'.2 = e.2 := by
  obtain ⟨p, hp, hu⟩ := h.block he
  obtain ⟨q, hq, hu'⟩ := h.block he'
  obtain rfl : q = p := pfnToPa_inj (hq.symm.trans (hpa.trans hp))
  exact hu'.2.2.symm.trans hu.2.2

theorem shares_pos (he : e ∈ s.live) : 0 < s.live.countP (fun e' => e'.1.pa = e.1.pa) :=
  List.countP_pos_iff.mpr ⟨e, he, by simp⟩

theorem countP_erase_self (he : e ∈ s.live) (pa : Nat) : (s.live.erase e).countP (fun e' => e'.1.pa = pa) =
    s.live.countP (fun e' => e'.1.pa = pa) - if e.1.pa = pa then 1 else 0 := by
  rw [List.countP_erase]
  simp [he]

theorem not_shared_iff (he : e ∈ s.live) : ¬ s.Shared e ↔ s.live.countP (fun e' => e'.1.pa = e.1.pa) = 1 := by
  have hpos : 0 < s.live.countP (fun e' => e'.1.pa = e.1.pa) := List.countP_pos_iff.mpr ⟨e, he, by simp⟩
  have := countP_erase_self he e.1.pa
  rw [if_pos rfl] at this
  have h0 : ¬ s.Shared e ↔ (s.live.erase e).countP (fun e' => e'.1.pa = e.1.pa) = 0 := by
    rw [List.countP_eq_zero]
    simp [Shared]
  rw [h0]
  omega

/-- Only references have changed: what is allocated and by whom has not. -/
theorem Counted.refs (h : s.Counted) {st : State} {live : List Handle} {held : List Nat} {p n : Nat}
    (hC : CountAt s.state st p n) (hlive : ∀ q k, (∃ e ∈ live, e.1.pa = pfnToPa q ∧ e.2 = k) ↔
      ∃ e ∈ s.live, e.1.pa = pfnToPa q ∧ e.2 = k)
    (hpage : ∀ e ∈ live, ∃ q, e.1.pa = pfnToPa q) (horder : ∀ e ∈ live, e.1.order = 0 ∨ e.1.order = e.2)
    (horiginal : ∀ e ∈ live, ∃ e' ∈ live, e'.1.pa = e.1.pa ∧ e'.1.order = e.2)
    (hheld : ∀ pa ∈ held, ∃ e ∈ live, e.1.pa = pa) (hn : n = shares ⟨st, live, held⟩ (pfnToPa p))
    (hother : ∀ q, q ≠ p → shares ⟨st, live, held⟩ (pfnToPa q) = s.shares (pfnToPa q)) : Counted ⟨st, live, held⟩ := by
  refine ⟨hC.sound, fun q k => ?_, hpage, horder, horiginal, hheld, fun q k hq => ?_⟩
  · rw [hC.used, h.used, hlive]
  · by_cases e : q = p
    · rw [e, hC.count, hn]
    · rw [hC.others q e, hother q e]
      exact h.count q k ((hC.used q k).mp hq)

theorem Counted.allocWith (h : s.Counted) (order flags : Nat) {s' : Handles} (hs : s.step (.allocWith order flags) = some s') :
    s'.Counted := by
  obtain rfl := Option.some.inj hs
  rcases alloc_spec h.sound order flags with ⟨⟨e, he⟩, -⟩ | ⟨p, hp, hA⟩
  · simp only [PhysPage.allocWith, he, if_true]
    exact ⟨h.sound.setError e, h.used, h.page, h.order, h.original, h.held, h.count⟩
  · simp only [PhysPage.allocWith, hp, pfnToPa_ne_zero, if_false]
    -- no handle is for the new block, nor is a reference held
    have hno : ∀ e ∈ s.live, e.1.pa ≠ pfnToPa p := fun e he hpa => by
      obtain ⟨q, hq, hu⟩ := h.block he
      obtain rfl : q = p := pfnToPa_inj (hq.symm.trans hpa)
      exact hA.fresh q e.2 q hu (covers_self q _) (covers_self q _)
    have hlive : s.live.countP (fun e => e.1.pa = pfnToPa p) = 0 := List.countP_eq_zero.mpr fun e he => by
      simpa using hno e he
    have hheld : s.held.count (pfnToPa p) = 0 := List.count_eq_zero.mpr fun hm => by
      obtain ⟨e, he, hpa⟩ := h.held _ hm
      exact hno e he hpa
    refine ⟨hA.sound, fun q k => ?_, ?_, ?_, ?_, ?_, fun q k hq => ?_⟩
    · show Used (allocPhysPages s.state order flags).1 q k ↔ ∃ e ∈ (⟨pfnToPa p, order⟩, order) :: s.live, _
      rw [hA.used, h.used, List.exists_mem_cons_iff, or_comm]
      refine or_congr_left ⟨fun e => ?_, fun e => ?_⟩
      · exact ⟨by rw [e.1], e.2.symm⟩
      · exact ⟨(pfnToPa_inj e.1).symm, e.2.symm⟩
    · exact List.forall_mem_cons.mpr ⟨⟨p, rfl⟩, h.page⟩
    · exact List.forall_mem_cons.mpr ⟨Or.inr rfl, h.order⟩
    · refine List.forall_mem_cons.mpr ⟨⟨_, List.mem_cons_self .., rfl, rfl⟩, fun e he => ?_⟩
      obtain ⟨e', he', h'⟩ := h.original e he
      exact ⟨e', List.mem_cons_of_mem _ he', h'⟩
    · intro pa hm
      obtain ⟨e, he, hpa⟩ := h.held pa hm
      exact ⟨e, List.mem_cons_of_mem _ he, hpa⟩
    · show ((allocPhysPages s.state order flags).1.memMap q).refCount =
        ((⟨pfnToPa p, order⟩, order) :: s.live).countP (fun e => e.1.pa = pfnToPa q) + s.held.count (pfnToPa q)
      rw [List.countP_cons]
      by_cases e : q = p
      · subst e
        rw [hA.ref, hlive, hheld]
        simp
      · have hne : pfnToPa p ≠ pfnToPa q := fun e' => e (pfnToPa_inj e').symm
        have hq' : Used s.state q k := ((hA.used q k).mp hq).resolve_right fun e' => e e'.1
        rw [hA.refs q e, h.count q k hq', shares]
        simp [hne]

/-- One more reference. -/
theorem Counted.got (h : s.Counted) (he : e ∈ s.live) (hlt : (s.state.memMap (paToPfn e.1.pa)).refCount + 1 < 2 ^ 64) :
    ∃ p, e.1.pa = pfnToPa p ∧ CountAt s.state (getPage s.state e.1.pa) p (s.shares e.1.pa + 1) := by
  obtain ⟨p, hp, hu⟩ := h.block he
  have hC := getPage_count h.sound hu.1
  rw [hp, paToPfn_pfnToPa hu.1] at hlt
  rw [add64, Nat.mod_eq_of_lt hlt, h.count p e.2 hu] at hC
  refine ⟨p, hp, ?_⟩
  rw [hp]
  exact hC

theorem Counted.clone (h : s.Counted) {s' : Handles} (hk : s.Keeps (.clone e)) (hs : s.step (.clone e) = some s') :
    s'.Counted := by
  simp only [Handles.step, PhysPage.clone] at hs
  split at hs
  swap
  · cases hs
  next he =>
  cases hs
  obtain ⟨p, hp, hC⟩ := h.got he hk
  refine h.refs hC (fun q k => ?_) (List.forall_mem_cons.mpr ⟨⟨p, hp⟩, h.page⟩)
    (List.forall_mem_cons.mpr ⟨Or.inl rfl, h.order⟩) (List.forall_mem_cons.mpr ⟨?_, fun e' he' => ?_⟩) (fun pa hm => ?_) ?_
    fun q hq => ?_
  · rw [List.exists_mem_cons_iff]
    refine or_iff_right_of_imp fun hq => ⟨e, he, hq⟩
  · obtain ⟨e', he', h'⟩ := h.original e he
    exact ⟨e', List.mem_cons_of_mem _ he', h'⟩
  · obtain ⟨e'', he'', h'⟩ := h.original e' he'
    exact ⟨e'', List.mem_cons_of_mem _ he'', h'⟩
  · obtain ⟨e', he', hpa⟩ := h.held pa hm
    exact ⟨e', List.mem_cons_of_mem _ he', hpa⟩
  · simp only [shares, List.countP_cons, hp, decide_true, if_true]
    omega
  · have hne : pfnToPa p ≠ pfnToPa q := fun e' => hq (pfnToPa_inj e').symm
    simp [shares, hp, hne]

theorem Counted.refInc (h : s.Counted) {s' : Handles} (hk : s.Keeps (.refInc e)) (hs : s.step (.refInc e) = some s') :
    s'.Counted := by
  simp only [Handles.step, PhysPage.refInc] at hs
  split at hs
  swap
  · cases hs
  next he =>
  cases hs
  obtain ⟨p, hp, hC⟩ := h.got he hk
  refine h.refs hC (fun q k => Iff.rfl) h.page h.order h.original (List.forall_mem_cons.mpr ⟨⟨e, he, rfl⟩, h.held⟩) ?_ fun q hq => ?_
  · simp only [shares, hp, List.count_cons_self]
    omega
  · have hne : pfnToPa p ≠ pfnToPa q := fun e' => hq (pfnToPa_inj e').symm
    simp [shares, hp, List.count_cons_of_ne hne]

/-- One reference less, and others left. -/
theorem Counted.putBack (h : s.Counted) (he : e ∈ s.live) (hc : 1 < s.shares e.1.pa) :
    ∃ p, e.1.pa = pfnToPa p ∧ CountAt s.state (putPage s.state e.1.pa) p (s.shares e.1.pa - 1) := by
  obtain ⟨p, hp, hu⟩ := h.block he
  have hcount := h.count p e.2 hu
  rw [hp] at hc ⊢
  have hC := putPage_count h.sound hu.1 (by omega)
  rw [hcount] at hC
  exact ⟨p, rfl, hC⟩

theorem Counted.refDec (h : s.Counted) {s' : Handles} (hs : s.step (.refDec e) = some s') : s'.Counted := by
  simp only [Handles.step, PhysPage.refDec] at hs
  split at hs
  swap
  · cases hs
  next hc =>
  cases hs
  obtain ⟨he, hm⟩ := hc
  have hpos := shares_pos he
  have hheld := List.count_pos_iff.mpr hm
  obtain ⟨p, hp, hC⟩ := h.putBack he (by unfold shares; omega)
  refine h.refs hC (fun q k => Iff.rfl) h.page h.order h.original (fun pa hm => h.held pa (List.mem_of_mem_erase hm)) ?_
    fun q hq => ?_
  · rw [← hp]
    simp only [shares, List.count_erase_self]
    omega
  · have hne : pfnToPa q ≠ pfnToPa p := fun e' => hq (pfnToPa_inj e')
    simp only [shares, hp, List.count_erase_of_ne hne]

/-- The block of a handle that was the last one is given back. -/
theorem Counted.released (h : s.Counted) {st : State} {p : Nat} (hp : e.1.pa = pfnToPa p) (hn : ¬ s.Shared e)
    (hheld : e.1.pa ∉ s.held) (hS : Sound st) (hused : ∀ q k, Used st q k ↔ Used s.state q k ∧ q ≠ p)
    (hrefs : ∀ q, q ≠ p → (st.memMap q).refCount = (s.state.memMap q).refCount) : Counted ⟨st, s.live.erase e, s.held⟩ := by
  have rest : ∀ e' ∈ s.live, e'.1.pa ≠ e.1.pa → e' ∈ s.live.erase e := fun e' he' hne =>
    (List.mem_erase_of_ne fun e'' => hne (by rw [e''])).mpr he'
  have other : ∀ e' ∈ s.live.erase e, e'.1.pa ≠ e.1.pa := fun e' he' hpa => hn ⟨e', he', hpa⟩
  refine ⟨hS, fun q k => ?_, fun e' he' => h.page e' (List.mem_of_mem_erase he'),
    fun e' he' => h.order e' (List.mem_of_mem_erase he'), fun e' he' => ?_, fun pa hm => ?_, fun q k hq => ?_⟩
  · rw [hused, h.used]
    constructor
    · intro ⟨⟨e', he', hpa, hk⟩, hq⟩
      refine ⟨e', rest e' he' fun heq => hq ?_, hpa, hk⟩
      exact pfnToPa_inj (hpa.symm.trans (heq.trans hp))
    · intro ⟨e', he', hpa, hk⟩
      refine ⟨⟨e', List.mem_of_mem_erase he', hpa, hk⟩, fun hq => other e' he' ?_⟩
      rw [hpa, hq, hp]
  · obtain ⟨e'', he'', hpa, ho⟩ := h.original e' (List.mem_of_mem_erase he')
    exact ⟨e'', rest e'' he'' (hpa ▸ other e' he'), hpa, ho⟩
  · obtain ⟨e', he', hpa⟩ := h.held pa hm
    exact ⟨e', rest e' he' fun heq => hheld (heq ▸ hpa ▸ hm), hpa⟩
  · obtain ⟨hq', hne⟩ := (hused q k).mp hq
    have hpa : e.1.pa ≠ pfnToPa q := fun heq => hne (pfnToPa_inj (heq.symm.trans hp))
    show (st.memMap q).refCount = (s.live.erase e).countP (fun e' => e'.1.pa = pfnToPa q) + s.held.count (pfnToPa q)
    rw [hrefs q hne, h.count q k hq', shares, List.countP_erase]
    simp [hpa]

/-- A reference is dropped with its handle, and others are left. -/
theorem Counted.dropped (h : s.Counted) (he : e ∈ s.live) (h0 : e.1.order = 0) (hsh : s.Shared e) {p : Nat} {st : State}
    (hp : e.1.pa = pfnToPa p) (hC : CountAt s.state st p (s.shares e.1.pa - 1)) : Counted ⟨st, s.live.erase e, s.held⟩ := by
  obtain ⟨d, hd, hdpa⟩ := hsh
  have hblock := h.same_block he (List.mem_of_mem_erase hd) hdpa
  have sub : ∀ {e'}, e' ∈ s.live.erase e → e' ∈ s.live := List.mem_of_mem_erase
  have keep : ∀ e' ∈ s.live, e' = e ∨ e' ∈ s.live.erase e := fun e' he' =>
    (eq_or_ne e' e).imp_right fun hne => (List.mem_erase_of_ne hne).mpr he'
  refine h.refs hC (fun q k => ?_) (fun e' he' => h.page e' (sub he')) (fun e' he' => h.order e' (sub he'))
    (fun e' he' => ?_) (fun pa hm => ?_) ?_ fun q hq => ?_
  · constructor
    · intro ⟨e', he', hq⟩
      exact ⟨e', sub he', hq⟩
    · intro ⟨e', he', hpa, hk⟩
      rcases keep e' he' with rfl | he'
      · exact ⟨d, hd, hdpa.trans hpa, hblock.trans hk⟩
      · exact ⟨e', he', hpa, hk⟩
  · obtain ⟨e'', he'', hpa, ho⟩ := h.original e' (sub he')
    rcases keep e'' he'' with rfl | he''
    · -- the block is a page: each of its handles will do
      refine ⟨e', he', rfl, ?_⟩
      rcases h.order e' (sub he') with h' | h'
      · rw [h', ← ho, h0]
      · exact h'
    · exact ⟨e'', he'', hpa, ho⟩
  · obtain ⟨e', he', hpa⟩ := h.held pa hm
    rcases keep e' he' with rfl | he'
    · exact ⟨d, hd, hdpa.trans hpa⟩
    · exact ⟨e', he', hpa⟩
  · have := shares_pos he
    have h1 := countP_erase_self he e.1.pa
    rw [if_pos rfl] at h1
    rw [← hp]
    simp only [shares, h1]
    omega
  · have hpa : e.1.pa ≠ pfnToPa q := fun heq => hq (pfnToPa_inj (heq.symm.trans hp))
    simp only [shares, countP_erase_self he, if_neg hpa, Nat.sub_zero]

/-- A drop: the last handle gives its block back whole, another one only its reference. -/
theorem Counted.drop (h : s.Counted) {s' : Handles} (hk : s.Keeps (.drop e)) (hs : s.step (.drop e) = some s') :
    s'.Counted ∧ (¬ s.Shared e → ∃ p, e.1.pa = pfnToPa p ∧ Used s.state p e.2 ∧
      (∀ q k, Used s'.state q k ↔ Used s.state q k ∧ q ≠ p)) := by
  simp only [Handles.step] at hs
  split at hs
  swap
  · cases hs
  next hc =>
  cases hs
  obtain ⟨he, hc⟩ := hc
  obtain ⟨p, hp, hu⟩ := h.block he
  have hcount := h.count p e.2 hu
  by_cases hsh : s.Shared e
  · have h0 : e.1.order = 0 := hk.resolve_right fun hn => hn hsh
    have hlt : 1 < s.shares e.1.pa := by
      have := shares_pos he
      have h1 : s.live.countP (fun e' => e'.1.pa = e.1.pa) ≠ 1 := fun h1 => (not_shared_iff he).mpr h1 hsh
      unfold shares
      omega
    obtain ⟨q, hq, hC⟩ := h.putBack he hlt
    simp only [PhysPage.drop, h0, if_true]
    exact ⟨h.dropped he h0 hsh hq hC, fun hn => absurd hsh hn⟩
  · have hheld := hc.resolve_left hsh
    have hone : (s.state.memMap p).refCount = 1 := by
      rw [hcount, ← hp, shares, (not_shared_iff he).mp hsh, List.count_eq_zero.mpr hheld]
    by_cases h0 : e.1.order = 0
    · -- the block is a page: a larger one has its first handle left
      have hb : e.2 = 0 := by
        obtain ⟨e', he', hpa, ho⟩ := h.original e he
        by_contra hb
        have hne : e' ≠ e := fun heq => hb (by rw [← ho, heq, h0])
        exact hsh ⟨e', (List.mem_erase_of_ne hne).mpr he', hpa⟩
      rw [hb] at hu
      obtain ⟨hS, hused, hrefs⟩ := putPage_last h.sound hu hone
      simp only [PhysPage.drop, h0, if_true, hp]
      exact ⟨h.released hp hsh hheld hS hused hrefs, fun _ => ⟨p, rfl, hb ▸ hu, hused⟩⟩
    · have hb := (h.order e he).resolve_left h0
      have hF := free_used h.sound hu
      have hd : PhysPage.drop s.state e.1 = freePhysPages s.state (pfnToPa p) e.2 := by
        rw [PhysPage.drop, if_neg h0, hp, hb]
      rw [hd]
      exact ⟨h.released hp hsh hheld hF.sound hF.used fun q _ => hF.refs q, fun _ => ⟨p, hp, hu, hF.used⟩⟩

end

/-- A handle that is not the last one of its block frees it all the same. -/
theorem Counted.drop_shared {s s' : Handles} {e : Handle} (h : s.Counted) (hk : ¬ s.Keeps (.drop e))
    (hs : s.step (.drop e) = some s') : ∃ p k, ¬ Used s'.state p k ∧ ∃ e' ∈ s'.live, e'.1.pa = pfnToPa p ∧ e'.2 = k := by
  simp only [Handles.step] at hs
  split at hs
  swap
  · cases hs
  next hc =>
  cases hs
  obtain ⟨h0, hsh⟩ := not_or.mp hk
  obtain ⟨d, hd, hdpa⟩ := not_not.mp hsh
  obtain ⟨p, hp, hu⟩ := h.block hc.1
  have hF := free_used h.sound hu
  have hb := (h.order e hc.1).resolve_left h0
  refine ⟨p, e.2, ?_, d, hd, hdpa.trans hp, h.same_block hc.1 (List.mem_of_mem_erase hd) hdpa⟩
  rw [PhysPage.drop, if_neg h0, hp, hb]
  exact fun hu' => ((hF.used p e.2).mp hu').2 rfl

theorem Counted.step {s s' : Handles} (h : s.Counted) {op : Op} (hk : s.Keeps op) (hs : s.step op = some s') : s'.Counted := by
  cases op with
  | allocWith order flags => exact h.allocWith order flags hs
  | clone e => exact h.clone hk hs
  | refInc e => exact h.refInc hk hs
  | refDec e => exact h.refDec hs
  | drop e => exact (h.drop hk hs).1

theorem Init.counted {kernelEnd : Nat} (hk : StartIn kernelEnd) {s : Handles} (h : Init kernelEnd s) : s.Counted := by
  obtain ⟨s0, rfl⟩ := h
  have hn := init_unused s0 kernelEnd (startIn_ok hk s0)
  refine ⟨sound_init s0 kernelEnd (startIn_ok hk s0), fun p k => iff_of_false (hn p k) ?_, ?_, ?_, ?_, ?_,
    fun p k hu => absurd hu (hn p k)⟩
  · intro ⟨e, he, _⟩
    cases he
  all_goals exact fun e he => by cases he

theorem drop_start (s : State) (h : PhysPage) : (PhysPage.drop s h).buddyMemStart = s.buddyMemStart := by
  unfold PhysPage.drop
  split
  · exact putPage_start _ _
  · exact freePhysPages_start _ _ _

/-- In every run that meets `Keeps` the allocated blocks are those of the live handles; a drop of
    the last handle gives the pages of the block back, all of them; and a drop that does not
    meet it leaves handles without their block. -/
theorem handles_reach {kernelEnd : Nat} (hk : StartIn kernelEnd) {s : Handles}
    (h : Lib.Reach step Keeps (Init kernelEnd) s) :
    (∀ p k, Used s.state p k ↔ ∃ e ∈ s.live, e.1.pa = pfnToPa p ∧ e.2 = k) ∧
    (∀ e s', s.step (.drop e) = some s' → s.Keeps (.drop e) → ¬ s.Shared e →
      ∃ p, e.1.pa = pfnToPa p ∧ Used s.state p e.2 ∧ usedBlocks s'.state = usedBlocks s.state \ {(p, e.2)} ∧
        freePages s'.state = freePages s.state ∪ {x | Covers p e.2 x}) ∧
    ∀ e s', s.step (.drop e) = some s' →
      ((∀ p k, Used s'.state p k ↔ ∃ e ∈ s'.live, e.1.pa = pfnToPa p ∧ e.2 = k) ↔ s.Keeps (.drop e)) := by
  have hC : s.Counted := h.rule (fun s hi => hi.counted hk) fun s e s' hP hok hs => hP.step hok hs
  refine ⟨hC.used, fun e s' hs hok hn => ?_, fun e s' hs => ⟨fun hu => ?_, fun hok => (hC.step hok hs).used⟩⟩
  · obtain ⟨hC', hrel⟩ := hC.drop hok hs
    obtain ⟨p, hp, hu, hused⟩ := hrel hn
    have hst : s'.state.buddyMemStart = s.state.buddyMemStart := by
      simp only [Handles.step] at hs
      split at hs
      · cases hs
        exact drop_start _ _
      · cases hs
    refine ⟨p, hp, hu, Set.ext fun c => ?_, freed_pages hC.sound hC'.sound hu hused hst⟩
    exact (hused c.1 c.2).trans (and_congr_right fun hc => not_congr ⟨fun he => Prod.ext he (by
      rw [← hc.2.2, ← hu.2.2, he]), fun he => by rw [he]⟩)
  · by_contra hok
    obtain ⟨p, k, hn, e', he', hpa, hk'⟩ := hC.drop_shared hok hs
    exact hn ((hu p k).mpr ⟨e', he', hpa, hk'⟩)

instance (s : Handles) : ∀ op, Decidable (s.Keeps op)
  | .allocWith .. => .isTrue trivial
  | .clone _ => inferInstanceAs (Decidable (_ < _))
  | .refInc _ => inferInstanceAs (Decidable (_ < _))
  | .refDec _ => .isTrue trivial
  | .drop _ => inferInstanceAs (Decidable (_ ∨ _))

def firstHandles : Option Handles := some ⟨buddyInit bssState (kernelSpaceStart + 0x40200000), [], []⟩

theorem firstHandles_init (s : Handles) (h : firstHandles = some s) : Init (kernelSpaceStart + 0x40200000) s :=
  ⟨bssState, (Option.some.inj h).symm⟩

/-- A block of eight pages gets a second handle, which is dropped first. -/
def cloneFirst : List Op :=
  [.allocWith 3 gfpKernel, .clone (⟨0x40200000, 3⟩, 3), .refInc (⟨0x40200000, 3⟩, 3), .refDec (⟨0x40200000, 0⟩, 3),
    .drop (⟨0x40200000, 0⟩, 3)]

theorem handles_cloneFirst : ∃ s, Lib.Reach step Keeps (Init (kernelSpaceStart + 0x40200000)) s ∧ s.live.length = 1 ∧
    ∀ p k, Used s.state p k ↔ ∃ e ∈ s.live, e.1.pa = pfnToPa p ∧ e.2 = k := by
  obtain ⟨s, hr, -, hd⟩ := Lib.exists_run step Keeps cloneFirst (fun (s : Handles) => decide (s.live.length = 1))
    firstHandles_init rfl rfl
  exact ⟨s, hr, of_decide_eq_true hd, (handles_reach (by unfold StartIn; decide) hr).1⟩

/-- The first handle is dropped while the second is live. -/
def originalFirst : List Op := [.allocWith 3 gfpKernel, .clone (⟨0x40200000, 3⟩, 3), .drop (⟨0x40200000, 3⟩, 3)]

theorem originalFirst_frees : ∃ s, Lib.Reach step (fun _ _ => True) (Init (kernelSpaceStart + 0x40200000)) s ∧
    s.live = [(⟨0x40200000, 0⟩, 3)] ∧ ¬ Used s.state (paToPfn 0x40200000) 3 := by
  obtain ⟨s, hr, -, hd⟩ := Lib.exists_run step (fun _ _ => True) originalFirst (fun (s : Handles) =>
      decide (s.live = [(⟨0x40200000, 0⟩, 3)] ∧ (s.state.memMap (paToPfn 0x40200000)).flags ≠ pgAllocated ||| pgHead))
    firstHandles_init (by decide +kernel) (by decide +kernel)
  obtain ⟨h1, h2⟩ := of_decide_eq_true hd
  exact ⟨s, hr, h1, fun hu => h2 hu.2.1⟩

end Handles

end Myos.Pmm
