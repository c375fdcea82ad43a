/-
  Myos.Slab.Lifetimes — runs of `kmalloc` and of `kfree` of live objects, from an empty heap over
  a buddy allocator in any state its calls lead to; in between an owner writes what it likes into
  its object.

  Proved: in every state of every run
  - `live_objects_apart`: live objects do not overlap, each is in the block of one slab or large
    allocation and has the size that was asked for, `inuse` counts the live objects of a slab and
    its free list is its other slots;
  - `heap_leaves_nothing`: without a live object no descriptor is in use and the free blocks of the
    buddy are those of the start, and a call that answers NULL changes none of them.
-/

import Myos.Slab.Calls

namespace Myos.Slab

open Lib Pmm Lib.Dyadic

variable {base : Nat} {start : Pmm.State} {kernelEnd : Nat}

/-! ## Runs -/

/-- A live object and the size that was asked for. -/
structure Obj where
  ptr : Nat
  size : Nat
  deriving DecidableEq, Repr

structure Use where
  heap : Heap
  live : List Obj

inductive Ev where
  | kmalloc (size flags : Nat)
  | kfree (o : Obj)
  | write (o : Obj) (word : Nat → Nat)

/-- A word of an object, or one that overlaps it, may have any value. -/
def Heap.scribble (h : Heap) (o : Obj) (word : Nat → Nat) : Heap :=
  { h with mem := fun x => if x + 8 ≤ o.ptr ∨ o.ptr + o.size ≤ x then h.mem x else word x }

namespace Use

def step (s : Use) : Ev → Option Use
  | .kmalloc size flags =>
    let r := s.heap.kmalloc size flags
    some ⟨r.2, if r.1 = 0 then s.live else ⟨r.1, size⟩ :: s.live⟩
  | .kfree o => if o ∈ s.live then some ⟨s.heap.kfree o.ptr, s.live.erase o⟩ else none
  | .write o word => if o ∈ s.live then some ⟨s.heap.scribble o word, s.live⟩ else none

/-- An empty heap over the buddy allocator `start`. -/
def Init (base : Nat) (start : Pmm.State) (s : Use) : Prop := ∃ mem, s = ⟨Heap.slabInit base mem start, []⟩

abbrev Run (base : Nat) (start : Pmm.State) (s : Use) : Prop := Lib.Reach step (fun _ _ => True) (Init base start) s

def ptrs (s : Use) : List Nat := s.live.map Obj.ptr

/-- The heap is in order, and every live object has room for its size. -/
structure Kept (O : Set (Nat × Nat)) (s : Use) : Prop where
  inv : Slab.Inv s.heap s.ptrs O
  busy : s.heap.Busy
  room : ∀ o ∈ s.live, ∃ x n, s.heap.Occupies x o.ptr n ∧ o.size ≤ n

end Use

/-! ## Steps -/

theorem map_erase_of_nodup {α : Type} [DecidableEq α] (f : α → Nat) : ∀ {l : List α} {o : α}, (l.map f).Nodup → o ∈ l →
    (l.erase o).map f = (l.map f).erase (f o)
  | [], _, _, h => by cases h
  | q :: l, o, hnd, h => by
    obtain ⟨hq, hl⟩ := List.nodup_cons.mp hnd
    by_cases hqo : q = o
    · subst hqo
      rw [List.erase_cons_head, List.map_cons, List.erase_cons_head]
    · have hm : o ∈ l := (List.mem_cons.mp h).resolve_left (Ne.symm hqo)
      have hne : f q ≠ f o := fun e => hq (e ▸ List.mem_map_of_mem hm)
      rw [List.erase_cons_tail (by simpa using hqo), List.map_cons, List.map_cons, List.erase_cons_tail (by simpa using hne),
        map_erase_of_nodup f hl hm]

/-- Writing within a live object touches no free slot. -/
theorem Inv.scribble {h : Heap} {L : List Nat} {O : Set (Nat × Nat)} (hI : Inv h L O) {o : Obj} {x : Nat ⊕ Nat} {n : Nat} (ho : o.ptr ∈ L)
    (hx : h.Occupies x o.ptr n) (hsize : o.size ≤ n) (word : Nat → Nat) : Inv (h.scribble o word) L O := by
  refine hI.rewrite fun i sp a hi ha hn => if_pos ?_
  have hslot : h.Occupies (.inl i) a sp.objSize := ⟨sp, hi, ha, rfl⟩
  have hne : a ≠ o.ptr := fun e => hn (e ▸ ho)
  have h8 := (hI.slab i sp hi).2.shape.eight_le
  rcases hI.apart hslot hx hne with hlt | hlt <;> omega

namespace Use

variable {O : Set (Nat × Nat)} {s s' : Use}

theorem Kept.step (h : s.Kept O) {e : Ev} (he : s.step e = some s') : s'.Kept O := by
  cases e with
  | kmalloc size flags =>
    simp only [Use.step, Option.some.injEq] at he
    subst he
    rcases kmalloc_spec h.inv size flags with ⟨h0, hf⟩ | hM
    · rw [if_pos h0]
      exact ⟨h.inv.fails hf, hf.busy h.busy, fun o ho => (h.room o ho).imp fun x ⟨n, hx, hn⟩ => ⟨n, hf.occupies.mpr hx, hn⟩⟩
    · rw [if_neg hM.pos]
      refine ⟨hM.inv, hM.busy h.busy, fun o ho => ?_⟩
      rcases List.mem_cons.mp ho with rfl | ho
      · exact hM.room
      · obtain ⟨x, n, hx, hn⟩ := h.room o ho
        exact ⟨x, n, hM.keeps x _ n hx, hn⟩
  | kfree o =>
    simp only [Use.step] at he
    split at he
    · next ho =>
      cases he
      have hp : s.ptrs.erase o.ptr = (s.live.erase o).map Obj.ptr := (map_erase_of_nodup Obj.ptr h.inv.nodup ho).symm
      have hF := kfree_spec h.inv (List.mem_map_of_mem ho)
      have hinv := hF.inv
      rw [hp] at hinv
      refine ⟨hinv, hF.busy h.busy, fun o' ho' => ?_⟩
      obtain ⟨x, n, hx, hn⟩ := h.room o' (List.mem_of_mem_erase ho')
      refine ⟨x, n, hF.keeps x _ n ?_ hx, hn⟩
      rw [hp]
      exact List.mem_map_of_mem ho'
    · cases he
  | write o word =>
    simp only [Use.step] at he
    split at he
    · next ho =>
      cases he
      obtain ⟨x, n, hx, hn⟩ := h.room o ho
      exact ⟨h.inv.scribble (List.mem_map_of_mem ho) hx hn word, h.busy, h.room⟩
    · cases he

theorem Run.kept (hs : Sound start) (h : Run base start s) : s.Kept (usedBlocks start) := by
  refine h.rule (P := Kept (usedBlocks start)) (fun s hi => ?_) fun s e s' hk _ he => hk.step he
  obtain ⟨mem, rfl⟩ := hi
  refine ⟨Inv.init hs mem, fun i sp hi => ?_, fun o ho => ?_⟩
  · cases hi
  · cases ho

/-! ## What holds in every run -/

/-- The live objects and the heap's books agree. -/
structure Apart (s : Use) : Prop where
  disjoint : s.live.Pairwise fun o o' => ∀ x y n m, s.heap.Occupies x o.ptr n → s.heap.Occupies y o'.ptr m →
    o.ptr + n ≤ o'.ptr ∨ o'.ptr + m ≤ o.ptr
  owner : ∀ o ∈ s.live, ∃ x n p k, s.heap.Occupies x o.ptr n ∧ o.size ≤ n ∧ s.heap.block x = some (pfnToPa p, k) ∧ Used s.heap.buddy p k ∧
    s.heap.physToVirt (pfnToPa p) ≤ o.ptr ∧ o.ptr + n ≤ s.heap.physToVirt (pfnToPa p) + pageSize * 2 ^ k
  blocks : ∀ x y p q k m, x ≠ y → s.heap.block x = some (pfnToPa p, k) → s.heap.block y = some (pfnToPa q, m) →
    p + 2 ^ k ≤ q ∨ q + 2 ^ m ≤ p
  inuse : ∀ i sp, s.heap.slabPages i = some sp → sp.inuse = s.live.countP fun o => sp.Has o.ptr
  slots : ∀ i sp, s.heap.slabPages i = some sp → ∀ o ∈ s.live, sp.Has o.ptr → o.ptr ∈ sp.slots
  free : ∀ i sp, s.heap.slabPages i = some sp → ∃ fl, Chain s.heap.mem (· = 0) sp.freelist fl ∧ fl.Nodup ∧
    ∀ a, a ∈ fl ↔ a ∈ sp.slots ∧ ∀ o ∈ s.live, o.ptr ≠ a

theorem mem_ptrs {a : Nat} : a ∈ s.ptrs ↔ ∃ o ∈ s.live, o.ptr = a := List.mem_map

theorem Kept.apart (h : s.Kept O) : s.Apart := by
  refine ⟨?_, fun o ho => ?_, fun x y p q k m hne hx hy => h.inv.blocks_apart hx hy hne, fun i sp hi => ?_, fun i sp hi o ho hhas => ?_,
    fun i sp hi => ?_⟩
  · have hnd : s.live.Pairwise fun o o' => o.ptr ≠ o'.ptr := List.pairwise_map.mp h.inv.nodup
    exact hnd.imp fun hne x y n m hx hy => h.inv.apart hx hy hne
  · obtain ⟨x, n, hx, hn⟩ := h.room o ho
    obtain ⟨p, k, hb, hu, hlo, hhi⟩ := h.inv.within hx
    exact ⟨x, n, p, k, hx, hn, hb, hu, hlo, hhi⟩
  · rw [(h.inv.slab i sp hi).2.inuse, ptrs, List.filter_map, List.length_map, ← List.countP_eq_length_filter]
    rfl
  · obtain ⟨fl, -, hp⟩ := (h.inv.slab i sp hi).2.free
    exact hp.mem_iff.mp (List.mem_append_right _ (List.mem_filter.mpr ⟨mem_ptrs.2 ⟨o, ho, rfl⟩, decide_eq_true hhas⟩))
  · have hs := (h.inv.slab i sp hi).2
    obtain ⟨fl, hc, hp⟩ := hs.free
    refine ⟨fl, hc, hc.nodup, fun a => ⟨fun ha => ⟨hp.mem_iff.mp (List.mem_append_left _ ha), fun o ho e => ?_⟩, fun ⟨ha, hn⟩ => ?_⟩⟩
    · exact (h.inv.free_not_live hi hp ha).1 (mem_ptrs.2 ⟨o, ho, e⟩)
    · refine (List.mem_append.mp (hp.mem_iff.mpr ha)).resolve_right fun hm => ?_
      obtain ⟨o, ho, e⟩ := mem_ptrs.1 (List.mem_filter.mp hm).1
      exact hn o ho e

/-- In every run the live objects do not overlap, and the slabs know which of their slots are live. -/
theorem live_objects_apart (hk : StartIn kernelEnd) (hb : Pmm.Reach kernelEnd start) (h : Run base start s) : s.Apart :=
  (h.kept (reach_sound hk hb).1).apart

/-- The buddy allocator of a kernel image that ends at 2 MiB. -/
def freshBuddy : Pmm.State := buddyInit bssState (kernelSpaceStart + 0x40200000)

theorem freshBuddy_reach : StartIn (kernelSpaceStart + 0x40200000) ∧ Pmm.Reach (kernelSpaceStart + 0x40200000) freshBuddy :=
  ⟨by unfold StartIn; decide, .init bssState⟩

def emptyHeap : Use := ⟨Heap.slabInit kernelSpaceStart (fun _ => 0) freshBuddy, []⟩

theorem emptyHeap_init : Init kernelSpaceStart freshBuddy emptyHeap := ⟨_, rfl⟩

/-- A slab object, and a large one. -/
def twoObjects : List Ev := [.kmalloc 20 gfpKernel, .kmalloc 9000 gfpKernel]

theorem live_objects_apart_two : ∃ s, Run kernelSpaceStart freshBuddy s ∧ s.live.length = 2 ∧ s.Apart := by
  obtain ⟨s, hr, -, hd⟩ := Reach.of_any (fun s : Use => decide (s.live.length = 2)) (Reach.init emptyHeap_init)
    (meets_true step twoObjects _) (by decide +kernel)
  exact ⟨s, hr, of_decide_eq_true hd, live_objects_apart freshBuddy_reach.1 freshBuddy_reach.2 hr⟩

/-! ## Nothing is lost -/

theorem Kept.start_step (h : s.Kept O) {e : Ev} (he : s.step e = some s') : s'.heap.buddy.buddyMemStart = s.heap.buddy.buddyMemStart := by
  cases e with
  | kmalloc size flags =>
    simp only [Use.step, Option.some.injEq] at he
    subst he
    exact kmalloc_start h.inv.sound size flags
  | kfree o =>
    simp only [Use.step] at he
    split at he
    · cases he
      exact kfree_start s.heap o.ptr
    · cases he
  | write o word =>
    simp only [Use.step] at he
    split at he
    · cases he
      rfl
    · cases he

theorem Run.memStart (hs : Sound start) (h : Run base start s) : s.heap.buddy.buddyMemStart = start.buddyMemStart := by
  have hboth := h.rule (P := fun s => Kept (usedBlocks start) s ∧ s.heap.buddy.buddyMemStart = start.buddyMemStart) (fun s hi => ?_)
    fun s e s' hk _ he => ⟨hk.1.step he, (hk.1.start_step he).trans hk.2⟩
  · exact hboth.2
  · have hk := Run.kept hs (.init hi)
    obtain ⟨mem, rfl⟩ := hi
    exact ⟨hk, rfl⟩

/-- Without a live object the descriptors own no block. -/
theorem Kept.unused (h : s.Kept O) (hl : s.live = []) : (∀ i, s.heap.slabPages i = none) ∧ (∀ j, s.heap.largeAllocs j = none) ∧
    usedBlocks s.heap.buddy = O := by
  have hptrs : s.ptrs = [] := by rw [ptrs, hl, List.map_nil]
  have hslab : ∀ i, s.heap.slabPages i = none := by
    intro i
    cases hi : s.heap.slabPages i with
    | none => rfl
    | some sp =>
      have hin := (h.inv.slab i sp hi).2.inuse
      rw [hptrs, List.filter_nil, List.length_nil] at hin
      exact absurd (h.busy i sp hi) (by omega)
  have hlarge : ∀ j, s.heap.largeAllocs j = none := by
    intro j
    cases hj : s.heap.largeAllocs j with
    | none => rfl
    | some la =>
      have hm := (h.inv.large j la hj).2.live
      rw [hptrs] at hm
      cases hm
  refine ⟨hslab, hlarge, Set.ext fun b => (h.inv.used b.1 b.2).trans (or_iff_left fun ⟨x, hx⟩ => ?_)⟩
  cases x with
  | inl i => rw [Heap.block, hslab] at hx; cases hx
  | inr j => rw [Heap.block, hlarge] at hx; cases hx

/-- What was allocated can be given back to the last block, and a call that answers NULL took nothing. -/
theorem heap_leaves_nothing (hk : StartIn kernelEnd) (hb : Pmm.Reach kernelEnd start) (h : Run base start s) :
    (s.live = [] → (∀ i, s.heap.slabPages i = none) ∧ (∀ j, s.heap.largeAllocs j = none) ∧ freeBlocks s.heap.buddy = freeBlocks start) ∧
    ∀ size flags, (s.heap.kmalloc size flags).1 = 0 →
      (s.heap.kmalloc size flags).2.slabPages = s.heap.slabPages ∧ (s.heap.kmalloc size flags).2.largeAllocs = s.heap.largeAllocs ∧
      freeBlocks (s.heap.kmalloc size flags).2.buddy = freeBlocks s.heap.buddy := by
  have hs := (reach_sound hk hb).1
  have hkept := h.kept hs
  refine ⟨fun hl => ?_, fun size flags h0 => ?_⟩
  · obtain ⟨h1, h2, h3⟩ := hkept.unused hl
    exact ⟨h1, h2, free_of_used hs hkept.inv.sound (Run.memStart hs h) h3⟩
  · rcases kmalloc_spec hkept.inv size flags with ⟨-, hf⟩ | hM
    · rcases hf with hf | ⟨e, hf⟩ <;> rw [hf] <;> exact ⟨rfl, rfl, rfl⟩
    · exact absurd h0 hM.pos

/-- The slab object is freed first. -/
def bothFreed : List Ev := twoObjects ++
  [.kfree ⟨kernelSpaceStart + 0x40200fe0, 20⟩, .kfree ⟨kernelSpaceStart + 0x40204000, 9000⟩]

theorem heap_leaves_nothing_twice : ∃ s, Run kernelSpaceStart freshBuddy s ∧ s.live = [] ∧ freeBlocks s.heap.buddy = freeBlocks freshBuddy := by
  obtain ⟨s, hr, -, hd⟩ := Reach.of_any (fun s : Use => decide (s.live = [])) (Reach.init emptyHeap_init)
    (meets_true step bothFreed _) (by decide +kernel)
  have hl := of_decide_eq_true hd
  exact ⟨s, hr, hl, ((heap_leaves_nothing freshBuddy_reach.1 freshBuddy_reach.2 hr).1 hl).2.2⟩

end Use

end Myos.Slab
