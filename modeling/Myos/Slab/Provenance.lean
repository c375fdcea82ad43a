/-
  Myos.Slab.Provenance — every allocation of the Rust side goes back where it came from.

  Proved (`allocations_returned`): in every run whose `dealloc`s find an allocation in the table
  just when the buddy made it, live allocations do not overlap, `dealloc` gives back the block of
  the buddy with its own order or the object of `kmalloc` and nothing else, and when nothing is
  live both allocators have the free memory of the start. `stale_entry_leaks` is a run without
  that condition: an object of `kmalloc` at the address of an older block.
-/

import Myos.Slab.KernelAllocator

namespace Myos.Slab

open Lib Pmm Lib.Dyadic

/-! ## What the heap has handed out -/

/-- The address is a slot that is not on its slab's free list, or a large allocation. -/
def Heap.Allocated (h : Heap) (a : Nat) : Prop :=
  (∃ i sp fl, h.slabPages i = some sp ∧ a ∈ sp.slots ∧ Chain h.mem (· = 0) sp.freelist fl ∧ a ∉ fl) ∨
    ∃ j la, h.largeAllocs j = some la ∧ la.va = a

theorem Inv.allocated_iff {h : Heap} {L : List Nat} {O : Set (Nat × Nat)} (hI : Inv h L O) (a : Nat) : h.Allocated a ↔ a ∈ L := by
  constructor
  · intro ha
    rcases ha with ⟨i, sp, fl, hi, ha, hc, hn⟩ | ⟨j, la, hj, rfl⟩
    · obtain ⟨fl', hc', hp⟩ := (hI.slab i sp hi).2.free
      rw [hc.unique hc'] at hn
      exact (List.mem_filter.mp ((List.mem_append.mp (hp.mem_iff.mpr ha)).resolve_left hn)).1
    · exact (hI.large j la hj).2.live
  · intro ha
    refine (hI.live a ha).imp_left fun ⟨i, sp, hi, hhas⟩ => ?_
    obtain ⟨fl, hc, hp⟩ := (hI.slab i sp hi).2.free
    have hm : a ∈ L.filter fun a => sp.Has a := List.mem_filter.mpr ⟨ha, decide_eq_true hhas⟩
    exact ⟨i, sp, fl, hi, hp.mem_iff.mp (List.mem_append_right _ hm), hc, fun hfl => (hI.free_not_live hi hp hfl).1 ha⟩

/-- The blocks that no descriptor of the heap has. -/
theorem Inv.lent_iff {h : Heap} {L : List Nat} {O : Set (Nat × Nat)} (hI : Inv h L O) (p k : Nat) :
    Used h.buddy p k ∧ ¬ h.Owns p k ↔ (p, k) ∈ O := by
  rw [hI.used]
  constructor
  · intro ⟨h1, h2⟩
    exact h1.resolve_right h2
  · intro hO
    exact ⟨Or.inl hO, hI.outside p k k hO⟩

/-- `dealloc` took back this allocation, from the allocator that made it. -/
structure Returned (base : Nat) (c : Cell) (h h' : Heap) : Prop where
  block : c.direct = true → ∃ p, c.At base p ∧ Used h.buddy p (layoutOrder c.size) ∧
    usedBlocks h'.buddy = usedBlocks h.buddy \ {(p, layoutOrder c.size)} ∧
    h'.slabPages = h.slabPages ∧ h'.largeAllocs = h.largeAllocs ∧ h'.partialOf = h.partialOf ∧ h'.mem = h.mem
  object : c.direct = false → h.Allocated c.ptr ∧ (∀ a, h'.Allocated a ↔ h.Allocated a ∧ a ≠ c.ptr) ∧
    ∀ p k, (Used h'.buddy p k ∧ ¬ h'.Owns p k) ↔ Used h.buddy p k ∧ ¬ h.Owns p k

namespace Clients

variable {s s' : Clients} {base : Nat} {start : Pmm.State} {O : Set (Nat × Nat)} {c : Cell} {p : Nat}

theorem Kept.returned (h : s.Kept base O) (hc : c ∈ s.live) (hok : s.Recorded (.dealloc c)) :
    Returned base c s.state.heap (s.state.dealloc c.ptr c.size).heap := by
  refine ⟨fun hd => ?_, fun hd => ?_⟩
  · obtain ⟨p, hp, hO⟩ := h.direct c hc hd
    have hu := (h.inv.used _ _).mpr (Or.inl hO)
    have hpa : c.ptr - s.state.heap.linearMapBase = pfnToPa p := by
      rw [hp, h.mapBase]
      exact Nat.add_sub_cancel_left ..
    rw [KernelAllocator.dealloc, if_pos (hok.mp hd), hpa]
    refine ⟨p, hp, hu, Set.ext fun b => ((free_used h.inv.sound hu).used b.1 b.2).trans ?_, rfl, rfl, rfl, rfl⟩
    refine and_congr_right fun hb => not_congr ⟨fun e => ?_, fun e => congrArg Prod.fst e⟩
    have hb' : Used s.state.heap.buddy p b.2 := e ▸ hb
    exact Prod.ext e (used_apart h.inv.sound hb' hu (covers_self p _) (covers_self p _)).2
  · have hm : c.ptr ∉ s.state.pageAllocs := Recorded.notStale hok hd
    have hkept := h.kfree hc hd hm
    have hobjs := objs_erase h.inv.nodup hc hd
    refine ⟨(h.inv.allocated_iff _).mpr (mem_objs.mpr ⟨c, hc, hd, rfl⟩), fun a => ?_, fun p k => ?_⟩
    · rw [h.inv.allocated_iff, hkept.inv.allocated_iff, hobjs, h.inv.nodup.mem_erase_iff, and_comm]
    · rw [hkept.inv.lent_iff, h.inv.lent_iff]

/-- The blocks that are not the heap's are those of the start and those of the live allocations. -/
structure Exact (base : Nat) (start : Pmm.State) (O : Set (Nat × Nat)) (s : Clients) : Prop extends Kept base O s where
  sizes : ∀ c ∈ s.live, c.size ≤ sz4M
  blocks : ∀ b, b ∈ O ↔ b ∈ usedBlocks start ∨ ∃ c ∈ s.live, c.direct = true ∧ c.At base b.1 ∧ b.2 = layoutOrder c.size
  fresh : ∀ c ∈ s.live, c.direct = true → ∀ p k, c.At base p → (p, k) ∉ usedBlocks start
  memStart : s.state.heap.buddy.buddyMemStart = start.buddyMemStart

theorem Kept.memStart_step (h : s.Kept base O) {e : Req} (he : s.step e = some s') :
    s'.state.heap.buddy.buddyMemStart = s.state.heap.buddy.buddyMemStart := by
  cases e with
  | alloc size =>
    simp only [Clients.step, Option.some.injEq] at he
    subst he
    rcases KernelAllocator.alloc_cases h.inv.sound size with ⟨-, -, p, b, hA, heq⟩ | ⟨-, h1, hf, heq⟩
    · rw [heq]
      dsimp only
      rw [KernelAllocator.record_heap]
      exact hA.start
    · rw [heq]
      have hsame : h1.buddy.buddyMemStart = s.state.heap.buddy.buddyMemStart := by rcases hf with rfl | ⟨e, rfl⟩ <;> rfl
      exact (kmalloc_start (h.inv.fails hf).sound size gfpKernel).trans hsame
  | dealloc c =>
    simp only [Clients.step] at he
    split at he
    · cases he
      unfold KernelAllocator.dealloc
      dsimp only
      split
      · exact freePhysPages_start ..
      · exact kfree_start s.state.heap c.ptr
    · cases he
  | write c word =>
    simp only [Clients.step] at he
    split at he
    · cases he
      rfl
    · cases he

theorem Exact.alloc (h : s.Exact base start O) {size : Nat} (hsize : size ≤ sz4M) (he : s.step (.alloc size) = some s') :
    ∃ O', s'.Exact base start O' := by
  have hmem := h.toKept.memStart_step he
  rcases h.toKept.alloc he with ⟨hk, hl⟩ | ⟨p, hfree, hk, hl⟩
  · refine ⟨O, hk, fun c hc => ?_, fun b => (h.blocks b).trans (or_congr_right ?_), fun c hc hd => ?_, hmem.trans h.memStart⟩
    · rcases hl with hl | ⟨a, hl⟩ <;> rw [hl] at hc
      · exact h.sizes c hc
      · rcases List.mem_cons.mp hc with rfl | hc
        · exact hsize
        · exact h.sizes c hc
    · rcases hl with hl | ⟨a, hl⟩ <;> rw [hl]
      simp
    · rcases hl with hl | ⟨a, hl⟩ <;> rw [hl] at hc
      · exact h.fresh c hc hd
      · rcases List.mem_cons.mp hc with rfl | hc
        · cases hd
        · exact h.fresh c hc hd
  · have hnew : ∀ q, (⟨⟨base + pfnToPa p, size⟩, true⟩ : Cell).At base q → q = p := fun q hq => (pfnToPa_inj (Nat.add_left_cancel hq)).symm
    refine ⟨_, hk, fun c hc => ?_, fun b => ?_, fun c hc hd q k hq hu => ?_, hmem.trans h.memStart⟩
    · rw [hl] at hc
      rcases List.mem_cons.mp hc with rfl | hc
      · exact hsize
      · exact h.sizes c hc
    · rw [hl, Set.mem_insert_iff, h.blocks b]
      simp only [List.mem_cons, exists_eq_or_imp]
      constructor
      · intro hb
        rcases hb with rfl | hb | hb
        · exact Or.inr (Or.inl ⟨trivial, rfl, rfl⟩)
        · exact Or.inl hb
        · exact Or.inr (Or.inr hb)
      · intro hb
        rcases hb with hb | ⟨-, hq, hk⟩ | hb
        · exact Or.inr (Or.inl hb)
        · exact Or.inl (Prod.ext (hnew _ hq) hk)
        · exact Or.inr (Or.inr hb)
    · rw [hl] at hc
      rcases List.mem_cons.mp hc with rfl | hc
      · have hO : (q, k) ∈ O := (h.blocks _).mpr (Or.inl hu)
        exact hfree k (hnew q hq ▸ (h.inv.used q k).mpr (Or.inl hO))
      · exact h.fresh c hc hd q k hq hu

theorem Exact.dealloc (h : s.Exact base start O) (hc : c ∈ s.live) (hok : s.Recorded (.dealloc c)) :
    ∃ O', Exact base start O' ⟨s.state.dealloc c.ptr c.size, s.live.erase c⟩ := by
  have hmem := h.toKept.memStart_step (e := .dealloc c) (if_pos hc)
  have hold : ∀ c' ∈ s.live.erase c, c' ∈ s.live := fun c' hc' => List.mem_of_mem_erase hc'
  have hne : ∀ c' ∈ s.live, c'.ptr ≠ c.ptr → c' ∈ s.live.erase c := fun c' hc' hp =>
    (List.mem_erase_of_ne fun e => hp (by rw [e])).mpr hc'
  cases hd : c.direct with
  | false =>
    refine ⟨O, h.toKept.kfree hc hd (Recorded.notStale hok hd), fun c' hc' => h.sizes c' (hold c' hc'), fun b => ?_,
      fun c' hc' => h.fresh c' (hold c' hc'), hmem.trans h.memStart⟩
    rw [h.blocks b]
    refine or_congr_right ⟨fun ⟨c', hc', hd', hb⟩ => ⟨c', hne c' hc' fun e => ?_, hd', hb⟩, fun ⟨c', hc', hb⟩ => ⟨c', hold c' hc', hb⟩⟩
    -- an object of `kmalloc` is at no address of a block
    exact h.toKept.not_direct h.inv h.mapBase hc' hd' (e ▸ mem_objs.mpr ⟨c, hc, hd, rfl⟩)
  | true =>
    obtain ⟨p, hp, hO⟩ := h.direct c hc hd
    refine ⟨_, h.toKept.reclaim hc hd (hok.mp hd) hp hO, fun c' hc' => h.sizes c' (hold c' hc'), fun b => ?_,
      fun c' hc' => h.fresh c' (hold c' hc'), hmem.trans h.memStart⟩
    rw [Set.mem_sdiff, Set.mem_singleton_iff, h.blocks b]
    constructor
    · intro ⟨hb, hbp⟩
      refine hb.imp_right fun ⟨c', hc', hd', hat, hord⟩ => ⟨c', hne c' hc' fun e => hbp ?_, hd', hat, hord⟩
      have hcc : c' = c := List.inj_on_of_nodup_map h.nodup hc' hc e
      rw [hcc] at hat hord
      exact Prod.ext (pfnToPa_inj (Nat.add_left_cancel (hat.symm.trans hp))) hord
    · intro hb
      rcases hb with hu | ⟨c', hc', hd', hat, hord⟩
      · refine ⟨Or.inl hu, fun e => ?_⟩
        rw [e] at hu
        exact h.fresh c hc hd p _ hp hu
      · refine ⟨Or.inr ⟨c', hold c' hc', hd', hat, hord⟩, fun e => h.toKept.ptr_ne hc hc' ?_⟩
        rw [e] at hat
        rw [hat, hp]

theorem Exact.step (h : s.Exact base start O) {e : Req} (hok : s.Recorded e) (he : s.step e = some s') : ∃ O', s'.Exact base start O' := by
  cases e with
  | alloc size => exact h.alloc hok he
  | dealloc c =>
    simp only [Clients.step] at he
    split at he
    · next hc =>
      cases he
      exact h.dealloc hc hok
    · cases he
  | write c word =>
    have hmem := h.toKept.memStart_step he
    simp only [Clients.step] at he
    split at he
    · next hc =>
      cases he
      exact ⟨O, h.toKept.write hc (h.sizes c hc) word, h.sizes, h.blocks, h.fresh, hmem.trans h.memStart⟩
    · cases he

theorem Exact.init (hs : Sound start) (hi : Init base start s) : s.Exact base start (usedBlocks start) := by
  have hk := Kept.init hs hi
  obtain ⟨mem, rfl⟩ := hi
  refine ⟨hk, fun c hc => ?_, fun b => ?_, fun c hc => ?_, rfl⟩
  · cases hc
  · simp
  · cases hc

/-! ## Every run -/

theorem Exact.apart (h : s.Exact base start O) : s.live.Pairwise fun c c' => c.ptr + c.size ≤ c'.ptr ∨ c'.ptr + c'.size ≤ c.ptr := by
  have hnd : s.live.Pairwise fun c c' => c.ptr ≠ c'.ptr := List.pairwise_map.mp h.nodup
  refine hnd.imp_of_mem fun {c c'} hc hc' hne => ?_
  cases hd : c.direct with
  | true =>
    obtain ⟨p, hp, hO⟩ := h.direct c hc hd
    cases hd' : c'.direct with
    | true =>
      obtain ⟨q, hq, hO'⟩ := h.direct c' hc' hd'
      exact h.directs_apart hp hO hq hO' (h.sizes c hc) (h.sizes c' hc') hne
    | false =>
      obtain ⟨x, n, hx, hn⟩ := h.room c' hc' hd'
      exact (h.direct_apart hp hO (h.sizes c hc) hx).imp_right fun hle => by omega
  | false =>
    obtain ⟨x, n, hx, hn⟩ := h.room c hc hd
    cases hd' : c'.direct with
    | true =>
      obtain ⟨q, hq, hO'⟩ := h.direct c' hc' hd'
      exact (h.direct_apart hq hO' (h.sizes c' hc') hx).symm.imp_left fun hle => by omega
    | false =>
      obtain ⟨y, m, hy, hm⟩ := h.room c' hc' hd'
      rcases h.inv.apart hx hy hne with hle | hle <;> omega

theorem Exact.unused (h : s.Exact base start O) (hl : s.live = []) : (∀ i, s.state.heap.slabPages i = none) ∧
    (∀ j, s.state.heap.largeAllocs j = none) ∧ usedBlocks s.state.heap.buddy = usedBlocks start := by
  have hkept : Use.Kept O ⟨s.state.heap, []⟩ := by
    refine ⟨?_, h.busy, fun o ho => ?_⟩
    · have hinv := h.inv
      rw [hl] at hinv
      exact hinv
    · cases ho
  obtain ⟨h1, h2, h3⟩ := hkept.unused rfl
  refine ⟨h1, h2, h3.trans (Set.ext fun b => (h.blocks b).trans (or_iff_left fun ⟨c, hc, _⟩ => ?_))⟩
  rw [hl] at hc
  cases hc

/-- In every run that frees an allocation by the table just when the buddy made it, each goes back where it came from. -/
theorem allocations_returned {kernelEnd : Nat} (hk : StartIn kernelEnd) (hb : Pmm.Reach kernelEnd start)
    (h : Lib.Reach step Recorded (Init base start) s) :
    (s.live.Pairwise fun c c' => c.ptr + c.size ≤ c'.ptr ∨ c'.ptr + c'.size ≤ c.ptr) ∧
    (∀ c ∈ s.live, s.Recorded (.dealloc c) → Returned base c s.state.heap (s.state.dealloc c.ptr c.size).heap) ∧
    (s.live = [] → (∀ i, s.state.heap.slabPages i = none) ∧ (∀ j, s.state.heap.largeAllocs j = none) ∧
      freeBlocks s.state.heap.buddy = freeBlocks start) := by
  have hs := (reach_sound hk hb).1
  obtain ⟨O, hexact⟩ := h.rule (P := fun s => ∃ O, s.Exact base start O) (fun s hi => ⟨_, Exact.init hs hi⟩)
    fun s e s' ⟨O, hexact⟩ hok he => hexact.step hok he
  refine ⟨hexact.apart, fun c hc hok => hexact.toKept.returned hc hok, fun hl => ?_⟩
  obtain ⟨h1, h2, h3⟩ := hexact.unused hl
  exact ⟨h1, h2, free_of_used hs hexact.inv.sound hexact.memStart h3⟩

/-- A block and an object, the block freed first. -/
def bothReturned : List Req := bothKinds ++ [.dealloc ⟨⟨firstBlock, 65536⟩, true⟩, .dealloc ⟨⟨kernelSpaceStart + 0x40210fe0, 20⟩, false⟩]

theorem allocations_returned_both : ∃ s, Lib.Reach step Recorded (Init kernelSpaceStart Use.freshBuddy) s ∧ s.live = [] ∧
    freeBlocks s.state.heap.buddy = freeBlocks Use.freshBuddy := by
  obtain ⟨s, hr, -, hd⟩ := Lib.exists_run step Recorded bothReturned (fun s => decide (s.live = [])) noClients_init (by decide +kernel)
    (by decide +kernel)
  have hl := of_decide_eq_true hd
  exact ⟨s, hr, hl, ((allocations_returned Use.freshBuddy_reach.1 Use.freshBuddy_reach.2 hr).2.2 hl).2.2⟩

/-- An object of `kmalloc` at the address of a block that was freed. -/
def staleEntry : List Req :=
  [.alloc 65536, .dealloc ⟨⟨firstBlock, 65536⟩, true⟩, .alloc 20000, .dealloc ⟨⟨firstBlock, 20000⟩, false⟩]

theorem stale_entry_leaks : ∃ s, Lib.Reach step Small (Init kernelSpaceStart Use.freshBuddy) s ∧ s.live = [] ∧
    ¬ ∀ j, s.state.heap.largeAllocs j = none := by
  obtain ⟨s, hr, -, hd⟩ := Lib.exists_run step Small staleEntry (fun s => decide (s.live = [] ∧ s.state.heap.largeAllocs 0 ≠ none))
    noClients_init (by decide +kernel) (by decide +kernel)
  obtain ⟨h1, h2⟩ := of_decide_eq_true hd
  exact ⟨s, hr, h1, fun hn => h2 (hn 0)⟩

end Clients

end Myos.Slab
