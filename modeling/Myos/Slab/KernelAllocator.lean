/-
  Myos.Slab.KernelAllocator — the global allocator of the Rust side (rust/src/allocator.rs): blocks
  of the buddy for layouts of 64 KiB and more, `kmalloc` for the others and where the buddy has none.

  `PAGE_ALLOCS` is the list of the addresses in it. An entry is never taken out, so `dealloc` gives
  an object of `kmalloc` back to the buddy when a block with its address was allocated before; and
  with 1024 entries the next block is not recorded, and `dealloc` gives it to `kfree`.
-/

import Myos.Slab.Lifetimes

namespace Myos.Slab

open Lib Pmm Lib.Dyadic

def largeThreshold : Nat := 65536
def maxPageAllocs : Nat := 1024

structure KernelAllocator where
  heap : Heap
  pageAllocs : List Nat

/-- `pages.next_power_of_two().trailing_zeros()` is the least order with that many pages. -/
def layoutOrder (size : Nat) : Nat := min (orderFor ((size + 4095) / 4096)) 10

namespace KernelAllocator

def setBuddy (s : KernelAllocator) (b : Pmm.State) : KernelAllocator := { s with heap := { s.heap with buddy := b } }

/-- `rust_kmalloc`. -/
def kmalloc (s : KernelAllocator) (size : Nat) : Nat × KernelAllocator :=
  let r := s.heap.kmalloc size gfpKernel
  (r.1, { s with heap := r.2 })

def record (s : KernelAllocator) (va : Nat) : KernelAllocator :=
  if s.pageAllocs.length < maxPageAllocs then { s with pageAllocs := s.pageAllocs ++ [va] } else s

def alloc (s : KernelAllocator) (size : Nat) : Nat × KernelAllocator :=
  if largeThreshold ≤ size then
    let r := allocPhysPages s.heap.buddy (layoutOrder size) 0
    let s := s.setBuddy r.1
    if r.2 ≠ 0 then (s.heap.physToVirt r.2, s.record (s.heap.physToVirt r.2)) else s.kmalloc size
  else s.kmalloc size

def dealloc (s : KernelAllocator) (ptr size : Nat) : KernelAllocator :=
  if ptr ∈ s.pageAllocs then s.setBuddy (freePhysPages s.heap.buddy (ptr - s.heap.linearMapBase) (layoutOrder size))
  else { s with heap := s.heap.kfree ptr }

/-- The call gets a block of the buddy. -/
def fromBuddy (s : KernelAllocator) (size : Nat) : Bool :=
  decide (largeThreshold ≤ size) && decide ((allocPhysPages s.heap.buddy (layoutOrder size) 0).2 ≠ 0)

end KernelAllocator

/-! ## Runs -/

/-- A live allocation, with its layout's size and whether it is a block of the buddy. -/
structure Cell extends Obj where
  direct : Bool
  deriving DecidableEq, Repr

/-- The allocation starts with that page. -/
def Cell.At (c : Cell) (base p : Nat) : Prop := c.ptr = base + pfnToPa p

structure Clients where
  state : KernelAllocator
  live : List Cell

inductive Req where
  | alloc (size : Nat)
  | dealloc (c : Cell)
  | write (c : Cell) (word : Nat → Nat)

namespace Clients

def step (s : Clients) : Req → Option Clients
  | .alloc size =>
    let r := s.state.alloc size
    some ⟨r.2, if r.1 = 0 then s.live else ⟨⟨r.1, size⟩, s.state.fromBuddy size⟩ :: s.live⟩
  | .dealloc c => if c ∈ s.live then some ⟨s.state.dealloc c.ptr c.size, s.live.erase c⟩ else none
  | .write c word => if c ∈ s.live then some ⟨{ s.state with heap := s.state.heap.scribble c.toObj word }, s.live⟩ else none

def Init (base : Nat) (start : Pmm.State) (s : Clients) : Prop := ∃ mem, s = ⟨⟨Heap.slabInit base mem start, []⟩, []⟩

/-- What is freed is where the table says. -/
def Recorded (s : Clients) : Req → Prop
  | .alloc size => size ≤ sz4M
  | .dealloc c => c.direct = true ↔ c.ptr ∈ s.state.pageAllocs
  | .write c _ => c.size ≤ sz4M

/-- No entry of the table has the address of an object of `kmalloc` that is freed, and nobody
    writes more than a block can have. -/
def NotStale (s : Clients) : Req → Prop
  | .alloc _ => True
  | .dealloc c => c.direct = false → c.ptr ∉ s.state.pageAllocs
  | .write c _ => c.size ≤ sz4M

theorem Recorded.notStale {s : Clients} {e : Req} (h : s.Recorded e) : s.NotStale e := by
  cases e with
  | alloc size => trivial
  | dealloc c =>
    intro hc hm
    rw [h.mpr hm] at hc
    cases hc
  | write c word => exact h

instance (s : Clients) : (e : Req) → Decidable (s.Recorded e)
  | .alloc size => inferInstanceAs (Decidable (size ≤ sz4M))
  | .dealloc c => inferInstanceAs (Decidable (c.direct = true ↔ c.ptr ∈ s.state.pageAllocs))
  | .write c _ => inferInstanceAs (Decidable (c.size ≤ sz4M))

instance (s : Clients) : (e : Req) → Decidable (s.NotStale e)
  | .alloc _ => isTrue trivial
  | .dealloc c => inferInstanceAs (Decidable (c.direct = false → c.ptr ∉ s.state.pageAllocs))
  | .write c _ => inferInstanceAs (Decidable (c.size ≤ sz4M))

/-- The objects of `kmalloc`. -/
def objs (l : List Cell) : List Nat := (l.filter fun c => !c.direct).map fun c => c.ptr

/-- `O` are the blocks that are not the heap's. -/
structure Kept (base : Nat) (O : Set (Nat × Nat)) (s : Clients) : Prop where
  mapBase : s.state.heap.linearMapBase = base
  inv : Inv s.state.heap (objs s.live) O
  busy : s.state.heap.Busy
  nodup : (s.live.map fun c => c.ptr).Nodup
  room : ∀ c ∈ s.live, c.direct = false → ∃ x n, s.state.heap.Occupies x c.ptr n ∧ c.size ≤ n
  direct : ∀ c ∈ s.live, c.direct = true → ∃ p, c.At base p ∧ (p, layoutOrder c.size) ∈ O

end Clients

/-! ## Steps -/

namespace KernelAllocator

variable {s : KernelAllocator}

@[simp] theorem record_heap (s : KernelAllocator) (va : Nat) : (s.record va).heap = s.heap := by
  unfold record
  split <;> rfl

theorem alloc_cases (hs : Sound s.heap.buddy) (size : Nat) :
    (s.fromBuddy size = true ∧ largeThreshold ≤ size ∧ ∃ p b, AllocAt s.heap.buddy b p (layoutOrder size) ∧
      s.alloc size = (s.heap.physToVirt (pfnToPa p), (s.setBuddy b).record (s.heap.physToVirt (pfnToPa p)))) ∨
    (s.fromBuddy size = false ∧ ∃ h, Fails s.heap h ∧ s.alloc size = ({ s with heap := h } : KernelAllocator).kmalloc size) := by
  unfold alloc fromBuddy
  by_cases hsize : largeThreshold ≤ size
  · rw [if_pos hsize, decide_eq_true hsize, Bool.true_and]
    dsimp only
    rcases alloc_spec hs (layoutOrder size) 0 with ⟨⟨e, he⟩, -⟩ | ⟨p, hp, hA⟩
    · rw [he, if_neg fun h => h rfl]
      exact Or.inr ⟨rfl, _, Or.inr ⟨e, rfl⟩, rfl⟩
    · rw [hp, if_pos (pfnToPa_ne_zero p)]
      exact Or.inl ⟨decide_eq_true (pfnToPa_ne_zero p), hsize, p, _, hA, rfl⟩
  · rw [if_neg hsize, decide_eq_false hsize, Bool.false_and]
    exact Or.inr ⟨rfl, s.heap, Or.inl rfl, rfl⟩

/-- The block of a layout of at most 4 MiB holds it. -/
theorem le_layoutOrder {size : Nat} (h : size ≤ sz4M) : size ≤ pageSize * 2 ^ layoutOrder size := by
  have hle : orderFor ((size + 4095) / 4096) ≤ 10 := orderFor_le (by unfold sz4M at h; omega)
  rw [layoutOrder, Nat.min_eq_left hle]
  exact le_block size

end KernelAllocator

namespace Clients

variable {s s' : Clients} {base : Nat} {O : Set (Nat × Nat)} {c : Cell} {p : Nat}

theorem mem_objs {l : List Cell} {a : Nat} : a ∈ objs l ↔ ∃ c ∈ l, c.direct = false ∧ c.ptr = a := by
  simp only [objs, List.mem_map, List.mem_filter, Bool.not_eq_true', and_assoc]

/-- An allocation of the buddy is where no object of the heap is. -/
theorem Kept.direct_apart (h : s.Kept base O) (hp : c.At base p) (hb : (p, layoutOrder c.size) ∈ O) (hsize : c.size ≤ sz4M) {x : Nat ⊕ Nat}
    {a n : Nat} (hx : s.state.heap.Occupies x a n) : c.ptr + c.size ≤ a ∨ a + n ≤ c.ptr := by
  obtain ⟨q, m, hbx, hu, hlo, hhi⟩ := h.inv.within hx
  have hle := KernelAllocator.le_layoutOrder hsize
  have hapart := used_disjoint h.inv.sound ((h.inv.used p _).mpr (Or.inl hb)) hu fun e => h.inv.outside p _ m hb ⟨x, e ▸ hbx⟩
  rw [Cell.At, pfnToPa_eq] at hp
  rw [Heap.physToVirt, h.mapBase, pfnToPa_eq] at hlo hhi
  generalize 2 ^ layoutOrder c.size = u at *
  generalize 2 ^ m = v at *
  unfold pageSize at *
  omega

/-- Two allocations of the buddy do not overlap. -/
theorem Kept.directs_apart (h : s.Kept base O) {c' : Cell} {q : Nat} (hp : c.At base p) (hb : (p, layoutOrder c.size) ∈ O) (hq : c'.At base q)
    (hb' : (q, layoutOrder c'.size) ∈ O) (hsize : c.size ≤ sz4M) (hsize' : c'.size ≤ sz4M) (hne : c.ptr ≠ c'.ptr) :
    c.ptr + c.size ≤ c'.ptr ∨ c'.ptr + c'.size ≤ c.ptr := by
  have hle := KernelAllocator.le_layoutOrder hsize
  have hle' := KernelAllocator.le_layoutOrder hsize'
  rw [Cell.At] at hp hq
  have hapart := used_disjoint h.inv.sound ((h.inv.used p _).mpr (Or.inl hb)) ((h.inv.used q _).mpr (Or.inl hb')) fun e =>
    hne (by rw [hp, hq, e])
  rw [pfnToPa_eq] at hp hq
  generalize 2 ^ layoutOrder c.size = u at *
  generalize 2 ^ layoutOrder c'.size = v at *
  unfold pageSize at *
  omega

theorem objs_cons_direct (h : c.direct = true) (l : List Cell) : objs (c :: l) = objs l := by
  rw [objs, List.filter_cons_of_neg (by simpa using h), objs]

theorem objs_cons (h : c.direct = false) (l : List Cell) : objs (c :: l) = c.ptr :: objs l := by
  rw [objs, List.filter_cons_of_pos (by simpa using h), objs, List.map_cons]

theorem objs_erase_direct {l : List Cell} (hc : c.direct = true) : objs (l.erase c) = objs l := by
  rw [objs, ← List.erase_filter, List.erase_of_not_mem fun hm => ?_, objs]
  have := (List.mem_filter.mp hm).2
  rw [hc] at this
  cases this

theorem objs_erase {l : List Cell} (hl : (objs l).Nodup) (hm : c ∈ l) (hc : c.direct = false) : objs (l.erase c) = (objs l).erase c.ptr := by
  rw [objs, ← List.erase_filter]
  exact map_erase_of_nodup (fun c : Cell => c.ptr) hl (List.mem_filter.mpr ⟨hm, by rw [hc]; rfl⟩)

theorem nodup_erase (h : (s.live.map fun c => c.ptr).Nodup) : ((s.live.erase c).map fun c => c.ptr).Nodup :=
  h.sublist (List.erase_sublist.map _)

/-- A call that gets a block of the buddy. -/
theorem Kept.lend (h : s.Kept base O) {size : Nat} {b : Pmm.State} (hA : AllocAt s.state.heap.buddy b p (layoutOrder size)) (va : Nat)
    (hva : va = base + pfnToPa p) : Kept base (insert (p, layoutOrder size) O) ⟨(s.state.setBuddy b).record va, ⟨⟨va, size⟩, true⟩ :: s.live⟩ := by
  have hinv := h.inv.lend hA
  have hfresh : ∀ q k, Used s.state.heap.buddy q k → q ≠ p := fun q k hu e => hA.fresh q k p hu (e ▸ covers_self q k) (covers_self p _)
  refine ⟨?_, ?_, ?_, List.nodup_cons.mpr ⟨fun hm => ?_, h.nodup⟩, fun c hc hd => ?_, fun c hc hd => ?_⟩
  · rw [KernelAllocator.record_heap]
    exact h.mapBase
  · rw [KernelAllocator.record_heap, objs_cons_direct rfl]
    exact hinv
  · rw [KernelAllocator.record_heap]
    exact h.busy
  · -- an allocation at the same address would have the block, or be in one of the heap's
    obtain ⟨c, hc, hptr⟩ := List.mem_map.mp hm
    cases hd : c.direct with
    | true =>
      obtain ⟨q, hq, hO⟩ := h.direct c hc hd
      rw [Cell.At, hptr, hva] at hq
      exact hfresh q _ ((h.inv.used _ _).mpr (Or.inl hO)) (pfnToPa_inj (Nat.add_left_cancel hq)).symm
    | false =>
      obtain ⟨x, q, k, hx, -, hcov⟩ := h.inv.at_live (mem_objs.2 ⟨c, hc, hd, hptr⟩)
      have hpage : s.state.heap.pageOf va = p := by
        rw [hva, ← h.mapBase]
        exact (pageOf_va p).2
      exact hA.fresh q k p (h.inv.used_of hx) (hpage ▸ hcov) (covers_self p _)
  · rcases List.mem_cons.mp hc with rfl | hc
    · cases hd
    · rw [KernelAllocator.record_heap]
      exact (h.room c hc hd).imp fun x ⟨n, hx, hn⟩ => ⟨n, by cases x <;> exact hx, hn⟩
  · rcases List.mem_cons.mp hc with rfl | hc
    · exact ⟨p, hva, Set.mem_insert ..⟩
    · obtain ⟨q, hq, hO⟩ := h.direct c hc hd
      exact ⟨q, hq, Set.mem_insert_of_mem _ hO⟩

/-- An address of the heap is not that of an allocation of the buddy. -/
theorem Kept.not_direct (h : s.Kept base O) {h1 : Heap} {L : List Nat} (hI : Inv h1 L O) (hbase : h1.linearMapBase = base) (hc : c ∈ s.live)
    (hd : c.direct = true) : c.ptr ∉ L := by
  intro hm
  obtain ⟨q, hq, hO⟩ := h.direct c hc hd
  obtain ⟨x, hx⟩ := hI.at_live hm
  refine hI.foreign hO hx ?_
  rw [hq, ← hbase, (pageOf_va q).2]
  exact covers_self q _

/-- A call that gets an object of `kmalloc`, or nothing. -/
theorem Kept.kmalloc (h : s.Kept base O) {h1 : Heap} (hf : Fails s.state.heap h1) (t : List Nat) (size : Nat) :
    Kept base O ⟨⟨(h1.kmalloc size gfpKernel).2, t⟩,
      if (h1.kmalloc size gfpKernel).1 = 0 then s.live else ⟨⟨(h1.kmalloc size gfpKernel).1, size⟩, false⟩ :: s.live⟩ := by
  have hinv := h.inv.fails hf
  have hbase : h1.linearMapBase = base := by rcases hf with rfl | ⟨e, rfl⟩ <;> exact h.mapBase
  have hroom : ∀ c ∈ s.live, c.direct = false → ∃ x n, h1.Occupies x c.ptr n ∧ c.size ≤ n := fun c hc hd =>
    (h.room c hc hd).imp fun x ⟨n, hx, hn⟩ => ⟨n, hf.occupies.mpr hx, hn⟩
  rcases kmalloc_spec hinv size gfpKernel with ⟨h0, hf'⟩ | hM
  · rw [if_pos h0]
    refine ⟨?_, hinv.fails hf', hf'.busy (hf.busy h.busy), h.nodup, fun c hc hd => ?_, h.direct⟩
    · rcases hf' with he | ⟨e, he⟩ <;> rw [he] <;> exact hbase
    · exact (hroom c hc hd).imp fun x ⟨n, hx, hn⟩ => ⟨n, hf'.occupies.mpr hx, hn⟩
  · rw [if_neg hM.pos]
    have hb := hM.base.trans hbase
    refine ⟨hb, ?_, hM.busy (hf.busy h.busy), List.nodup_cons.mpr ⟨fun hm => ?_, h.nodup⟩, fun c hc hd => ?_, fun c hc hd => ?_⟩
    · rw [objs_cons rfl]
      exact hM.inv
    · obtain ⟨c, hc, hptr⟩ := List.mem_map.mp hm
      cases hd : c.direct with
      | true => exact h.not_direct hM.inv hb hc hd (List.mem_cons.mpr (Or.inl hptr))
      | false => exact hM.fresh (mem_objs.2 ⟨c, hc, hd, hptr⟩)
    · rcases List.mem_cons.mp hc with rfl | hc
      · exact hM.room
      · exact (hroom c hc hd).imp fun x ⟨n, hx, hn⟩ => ⟨n, hM.keeps x _ n hx, hn⟩
    · rcases List.mem_cons.mp hc with rfl | hc
      · cases hd
      · exact h.direct c hc hd

/-- What `alloc` does: a block of the buddy, an object of `kmalloc`, or nothing. -/
theorem Kept.alloc (h : s.Kept base O) {size : Nat} (he : s.step (.alloc size) = some s') :
    (s'.Kept base O ∧ (s'.live = s.live ∨ ∃ a, s'.live = ⟨⟨a, size⟩, false⟩ :: s.live)) ∨
    ∃ p, (∀ k, ¬ Used s.state.heap.buddy p k) ∧ s'.Kept base (insert (p, layoutOrder size) O) ∧
      s'.live = ⟨⟨base + pfnToPa p, size⟩, true⟩ :: s.live := by
  simp only [step, Option.some.injEq] at he
  subst he
  rcases KernelAllocator.alloc_cases h.inv.sound size with ⟨hd, -, p, b, hA, heq⟩ | ⟨hd, h1, hf, heq⟩
  · have hva : s.state.heap.physToVirt (pfnToPa p) = base + pfnToPa p := by rw [Heap.physToVirt, h.mapBase]
    rw [hd, heq, hva]
    dsimp only
    have hp := pfnToPa_ne_zero p
    rw [if_neg (by omega)]
    exact Or.inr ⟨p, fun k hu => hA.fresh p k p hu (covers_self p k) (covers_self p _), h.lend hA _ rfl, rfl⟩
  · rw [hd, heq]
    refine Or.inl ⟨h.kmalloc hf s.state.pageAllocs size, ?_⟩
    dsimp only
    split
    · exact Or.inl rfl
    · exact Or.inr ⟨_, rfl⟩

theorem Kept.ptr_ne (h : s.Kept base O) {c' : Cell} (hc : c ∈ s.live) (hc' : c' ∈ s.live.erase c) : c'.ptr ≠ c.ptr := by
  intro e
  have herase := map_erase_of_nodup (fun c : Cell => c.ptr) h.nodup hc
  have hm : c.ptr ∈ (s.live.erase c).map fun c => c.ptr := List.mem_map.mpr ⟨c', hc', e⟩
  rw [herase] at hm
  exact h.nodup.not_mem_erase hm

theorem Kept.reclaim (h : s.Kept base O) (hc : c ∈ s.live) (hd : c.direct = true) (hm : c.ptr ∈ s.state.pageAllocs) (hp : c.At base p)
    (hO : (p, layoutOrder c.size) ∈ O) : Kept base (O \ {(p, layoutOrder c.size)}) ⟨s.state.dealloc c.ptr c.size, s.live.erase c⟩ := by
  have hpa : c.ptr - s.state.heap.linearMapBase = pfnToPa p := by
    rw [hp, h.mapBase]
    exact Nat.add_sub_cancel_left ..
  have hinv := h.inv.reclaim hO (free_used h.inv.sound ((h.inv.used _ _).mpr (Or.inl hO)))
  rw [KernelAllocator.dealloc, if_pos hm, hpa]
  refine ⟨h.mapBase, ?_, h.busy, nodup_erase h.nodup, fun c' hc' hd' => ?_, fun c' hc' hd' => ?_⟩
  · rw [objs_erase_direct hd]
    exact hinv
  · exact (h.room c' (List.mem_of_mem_erase hc') hd').imp fun x ⟨n, hx, hn⟩ => ⟨n, by cases x <;> exact hx, hn⟩
  · obtain ⟨q, hq, hO'⟩ := h.direct c' (List.mem_of_mem_erase hc') hd'
    refine ⟨q, hq, hO', fun e => h.ptr_ne hc hc' ?_⟩
    rw [hq, hp, (Prod.mk.inj e).1]

/-- A block that is not in the table is not freed. -/
theorem Kept.leak (h : s.Kept base O) (hc : c ∈ s.live) (hd : c.direct = true) (hm : c.ptr ∉ s.state.pageAllocs) :
    Kept base O ⟨s.state.dealloc c.ptr c.size, s.live.erase c⟩ := by
  obtain ⟨p, hp, hO⟩ := h.direct c hc hd
  have hkfree : s.state.heap.kfree c.ptr = s.state.heap := by
    rw [hp, ← h.mapBase]
    exact kfree_foreign h.inv hO
  rw [KernelAllocator.dealloc, if_neg hm, hkfree]
  refine ⟨h.mapBase, ?_, h.busy, nodup_erase h.nodup, fun c' hc' => h.room c' (List.mem_of_mem_erase hc'), fun c' hc' =>
    h.direct c' (List.mem_of_mem_erase hc')⟩
  rw [objs_erase_direct hd]
  exact h.inv

theorem Kept.kfree (h : s.Kept base O) (hc : c ∈ s.live) (hd : c.direct = false) (hm : c.ptr ∉ s.state.pageAllocs) :
    Kept base O ⟨s.state.dealloc c.ptr c.size, s.live.erase c⟩ := by
  have hobjs := objs_erase h.inv.nodup hc hd
  have hF := kfree_spec h.inv (mem_objs.2 ⟨c, hc, hd, rfl⟩)
  rw [KernelAllocator.dealloc, if_neg hm]
  refine ⟨hF.base.trans h.mapBase, ?_, hF.busy h.busy, nodup_erase h.nodup, fun c' hc' hd' => ?_, fun c' hc' =>
    h.direct c' (List.mem_of_mem_erase hc')⟩
  · rw [hobjs]
    exact hF.inv
  · obtain ⟨x, n, hx, hn⟩ := h.room c' (List.mem_of_mem_erase hc') hd'
    refine ⟨x, n, hF.keeps x _ n ?_ hx, hn⟩
    rw [← hobjs]
    exact mem_objs.2 ⟨c', hc', hd', rfl⟩

/-- Writing within an allocation touches no free slot. -/
theorem Kept.write (h : s.Kept base O) (hc : c ∈ s.live) (hsize : c.size ≤ sz4M) (word : Nat → Nat) :
    Kept base O ⟨{ s.state with heap := s.state.heap.scribble c.toObj word }, s.live⟩ := by
  refine ⟨h.mapBase, ?_, h.busy, h.nodup, fun c' hc' hd' => ?_, h.direct⟩
  · cases hd : c.direct with
    | false =>
      obtain ⟨x, n, hx, hn⟩ := h.room c hc hd
      exact h.inv.scribble (mem_objs.2 ⟨c, hc, hd, rfl⟩) hx hn word
    | true =>
      obtain ⟨p, hp, hO⟩ := h.direct c hc hd
      refine h.inv.rewrite fun i sp a hi ha _ => if_pos ?_
      have h8 := (h.inv.slab i sp hi).2.shape.eight_le
      rcases h.direct_apart hp hO hsize (x := .inl i) ⟨sp, hi, ha, rfl⟩ with hlt | hlt
      · exact Or.inr hlt
      · exact Or.inl (by omega)
  · exact (h.room c' hc' hd').imp fun x ⟨n, hx, hn⟩ => ⟨n, by cases x <;> exact hx, hn⟩

/-- A step whose `dealloc` meets no stale entry keeps the heap in order. -/
theorem Kept.step (h : s.Kept base O) {e : Req} (hok : s.NotStale e) (he : s.step e = some s') : ∃ O', s'.Kept base O' := by
  cases e with
  | alloc size =>
    rcases h.alloc he with ⟨h', -⟩ | ⟨p, -, h', -⟩
    · exact ⟨_, h'⟩
    · exact ⟨_, h'⟩
  | dealloc c =>
    simp only [Clients.step] at he
    split at he
    · next hc =>
      cases he
      cases hd : c.direct with
      | false => exact ⟨O, h.kfree hc hd (hok hd)⟩
      | true =>
        by_cases hm : c.ptr ∈ s.state.pageAllocs
        · obtain ⟨p, hp, hO⟩ := h.direct c hc hd
          exact ⟨_, h.reclaim hc hd hm hp hO⟩
        · exact ⟨O, h.leak hc hd hm⟩
    · cases he
  | write c word =>
    simp only [Clients.step] at he
    split at he
    · next hc =>
      cases he
      exact ⟨O, h.write hc hok word⟩
    · cases he

theorem Kept.init {start : Pmm.State} (hs : Sound start) (hi : Init base start s) : s.Kept base (usedBlocks start) := by
  obtain ⟨mem, rfl⟩ := hi
  refine ⟨rfl, Inv.init hs mem, fun i sp hi => ?_, List.nodup_nil, fun c hc => ?_, fun c hc => ?_⟩
  · cases hi
  · cases hc
  · cases hc

/-! ## Alignment -/

theorem kmalloc_zero (h : Heap) (flags : Nat) : (h.kmalloc 0 flags).1 = 0 := rfl

theorem Kept.aligned (h : s.Kept base O) (hbase : sz4M ∣ base) {size t : Nat} (hdvd : 2 ^ t ∣ size) (hsize : size ≤ sz4M)
    (hne : (s.state.alloc size).1 ≠ 0) : 2 ^ t ∣ (s.state.alloc size).1 := by
  -- the object has a power of two of bytes, at least `size`, and stands at a multiple of it
  have hobj : ∀ a u, 0 < size → size ≤ 2 ^ u → 2 ^ u ∣ a → 2 ^ t ∣ a := fun a u hpos hle ha =>
    (Nat.pow_dvd_pow 2 ((Nat.pow_le_pow_iff_right (by decide)).mp ((Nat.le_of_dvd hpos hdvd).trans hle))).trans ha
  rcases KernelAllocator.alloc_cases h.inv.sound size with ⟨-, hlarge, p, b, hA, heq⟩ | ⟨-, h1, hf, heq⟩
  · rw [heq, Heap.physToVirt, h.mapBase]
    refine hobj _ (layoutOrder size + 12) (Nat.lt_of_lt_of_le (by decide) hlarge) ?_ (block_aligned hbase hA.aligned hA.order_le)
    rw [Nat.pow_add, Nat.mul_comm]
    exact KernelAllocator.le_layoutOrder hsize
  · rw [heq] at hne ⊢
    have hbase1 : h1.linearMapBase = base := by rcases hf with rfl | ⟨e, rfl⟩ <;> exact h.mapBase
    rcases kmalloc_spec (h.inv.fails hf) size gfpKernel with ⟨h0, -⟩ | hM
    · exact absurd h0 hne
    · obtain ⟨x, n, hx, hn⟩ := hM.room
      obtain ⟨u, rfl, ha⟩ := hM.inv.aligned (by rw [hM.base, hbase1]; exact hbase) hx
      refine hobj _ u (Nat.pos_of_ne_zero fun e => hne ?_) hn ha
      rw [e]
      exact kmalloc_zero h1 gfpKernel

def noClients : Clients := ⟨⟨Heap.slabInit kernelSpaceStart (fun _ => 0) Use.freshBuddy, []⟩, []⟩

theorem noClients_init : ∀ s, some noClients = some s → Init kernelSpaceStart Use.freshBuddy s := by
  intro s hs
  cases hs
  exact ⟨_, rfl⟩

/-- A block of the buddy, and an object. -/
def bothKinds : List Req := [.alloc 65536, .alloc 20]

/-- The layouts are of at most 4 MiB. -/
def Small (_ : Clients) : Req → Prop
  | .alloc size => size ≤ sz4M
  | .dealloc c => c.size ≤ sz4M
  | .write c _ => c.size ≤ sz4M

instance (s : Clients) : (e : Req) → Decidable (s.Small e)
  | .alloc size => inferInstanceAs (Decidable (size ≤ sz4M))
  | .dealloc c => inferInstanceAs (Decidable (c.size ≤ sz4M))
  | .write c _ => inferInstanceAs (Decidable (c.size ≤ sz4M))

/-- Where the first block of a fresh buddy is. -/
def firstBlock : Nat := kernelSpaceStart + 0x40200000

/-- The block of a slab goes back to the buddy by the entry of an older block, while the slab has a free slot in it;
    the next owner of the page then writes over the link of that slot. -/
def overwritten : List Req :=
  [.alloc 65536, .dealloc ⟨⟨firstBlock, 65536⟩, true⟩, .alloc 2048, .alloc 2048, .dealloc ⟨⟨firstBlock + 2048, 2048⟩, false⟩,
   .dealloc ⟨⟨firstBlock, 2048⟩, false⟩, .alloc 4096, .write ⟨⟨firstBlock, 4096⟩, false⟩ (fun _ => 1), .alloc 2048]

end Clients

end Myos.Slab
