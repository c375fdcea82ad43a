/-
  Myos.Slab.Objects — the live objects of the kernel heap.

  A descriptor of a slab or of a large allocation owns a block of the buddy allocator; `O` are
  the blocks that others have. The slots of a slab are its objects, free or live.

  Proved: `kmalloc` answers NULL and changes nothing but the buddy's error code, or hands out an
  address that no live object has, with room for the size; `kfree` of a live object takes back
  exactly that one. So in every run live objects are disjoint and within the block of one
  descriptor, `inuse` counts the live objects of a slab, and its free list is the other slots.
-/

import Myos.Lib.Runs
import Myos.Slab.Heap

namespace Myos.Slab

open Lib Pmm Lib.Dyadic

variable {h h' : Heap} {L : List Nat} {O : Set (Nat × Nat)} {a b p k i j c : Nat} {sp sp' : SlabPage} {la : LargeAlloc}

/-! ## Slots -/

/-- The addresses of the objects of a slab. -/
def SlabPage.slots (sp : SlabPage) : List Nat := (List.range sp.capacity).map fun n => sp.va + n * sp.objSize

/-- What is in a descriptor whatever is allocated. -/
structure SlabPage.Shape (sp : SlabPage) : Prop where
  cache : sp.cache < slabCacheCount
  objSize : sp.objSize = slabSize sp.cache
  order : sp.order = slabOrderForSize sp.objSize
  capacity : sp.capacity = sp.span / sp.objSize

theorem slabSize_eq (h : c < slabCacheCount) : slabSize c = 2 ^ (c + 3) := by
  unfold slabCacheCount at h
  interval_cases c <;> rfl

theorem slabSize_pos (h : c < slabCacheCount) : 0 < slabSize c := by
  rw [slabSize_eq h]
  exact Nat.two_pow_pos _

theorem slabSize_le_span (c : Nat) : slabSize c ≤ pageSize * 2 ^ slabOrderForSize (slabSize c) := le_block _

/-- The least class that is large enough. -/
theorem findSlabCache_spec {size : Nat} (hs : size ≤ sz8K) : ∃ c, findSlabCache size = some c ∧ c < slabCacheCount ∧
    size ≤ slabSize c ∧ ∀ c' < c, slabSize c' < size := by
  have hsome : (findSlabCache size).isSome = true := by
    rw [findSlabCache, List.find?_isSome]
    exact ⟨10, List.mem_range.mpr (by decide), decide_eq_true hs⟩
  obtain ⟨c, hc⟩ := Option.isSome_iff_exists.mp hsome
  obtain ⟨hp, as, bs, hab, has⟩ := List.find?_eq_some_iff_append.mp hc
  have hlt : c < slabCacheCount := List.mem_range.mp (List.mem_of_find?_eq_some hc)
  refine ⟨c, hc, hlt, of_decide_eq_true hp, fun c' hc' => ?_⟩
  have hcas : as.length = c := by
    have h1 : (List.range slabCacheCount)[as.length]? = some c := by rw [hab]; simp
    have h2 := (List.getElem?_eq_some_iff.mp h1).2
    rwa [List.getElem_range] at h2
  have hm : c' ∈ as := by
    have h1 : (List.range slabCacheCount)[c']? = some c' := by rw [List.getElem?_range (hc'.trans hlt)]
    rw [hab, List.getElem?_append_left (hcas ▸ hc')] at h1
    exact List.mem_of_getElem? h1
  have := has c' hm
  simpa using this

theorem SlabPage.Shape.objSize_pos (h : sp.Shape) : 0 < sp.objSize := h.objSize ▸ slabSize_pos h.cache

theorem SlabPage.Shape.capacity_pos (h : sp.Shape) : 0 < sp.capacity := by
  rw [h.capacity, SlabPage.span, h.order]
  exact Nat.div_pos (le_block _) h.objSize_pos

theorem SlabPage.Shape.fits (h : sp.Shape) : sp.capacity * sp.objSize ≤ sp.span := h.capacity ▸ Nat.div_mul_le_self ..

theorem mem_slots : a ∈ sp.slots ↔ ∃ n < sp.capacity, a = sp.va + n * sp.objSize := by
  simp only [SlabPage.slots, List.mem_map, List.mem_range, eq_comm]

theorem SlabPage.Shape.has (h : sp.Shape) (ha : a ∈ sp.slots) : sp.Has a ∧ a + sp.objSize ≤ sp.va + sp.span := by
  obtain ⟨n, hn, rfl⟩ := mem_slots.1 ha
  have hf := h.fits
  have hp := h.objSize_pos
  have hm : (n + 1) * sp.objSize ≤ sp.capacity * sp.objSize := Nat.mul_le_mul_right _ hn
  rw [Nat.succ_mul] at hm
  exact ⟨⟨Nat.le_add_right .., by omega⟩, by omega⟩

/-- Two slots do not overlap. -/
theorem slots_apart (ha : a ∈ sp.slots) (hb : b ∈ sp.slots) (hne : a ≠ b) : a + sp.objSize ≤ b ∨ b + sp.objSize ≤ a := by
  obtain ⟨n, -, rfl⟩ := mem_slots.1 ha
  obtain ⟨m, -, rfl⟩ := mem_slots.1 hb
  rcases Nat.lt_trichotomy n m with hlt | rfl | hlt
  · have := Nat.mul_le_mul_right sp.objSize hlt
    rw [Nat.succ_mul] at this
    exact Or.inl (by omega)
  · exact absurd rfl hne
  · have := Nat.mul_le_mul_right sp.objSize hlt
    rw [Nat.succ_mul] at this
    exact Or.inr (by omega)

theorem SlabPage.Shape.nodup (h : sp.Shape) : sp.slots.Nodup := by
  refine List.nodup_range.map_on fun n _ m _ he => ?_
  exact Nat.eq_of_mul_eq_mul_right h.objSize_pos (Nat.add_left_cancel he)

/-- The free list of a new slab runs through its slots, and only they are written. -/
theorem freshList_spec {va size : Nat} (hva : 0 < va) (hs : 0 < size) (n : Nat) (mem : Nat → Nat) :
    ∃ l : List Nat, Chain (Heap.freshList va size n mem).2 (· = 0) (Heap.freshList va size n mem).1 l ∧
      l.Perm ((List.range n).map fun m => va + m * size) ∧
      ∀ x, x ∉ (List.range n).map (fun m => va + m * size) → (Heap.freshList va size n mem).2 x = mem x := by
  induction n with
  | zero => exact ⟨[], .nil rfl, List.Perm.nil, fun _ _ => rfl⟩
  | succ n ih =>
    obtain ⟨l, hc, hp, hm⟩ := ih
    have hnot : va + n * size ∉ l := by
      intro hx
      obtain ⟨m, hlt, he⟩ := List.mem_map.mp (hp.mem_iff.mp hx)
      have := Nat.eq_of_mul_eq_mul_right hs (Nat.add_left_cancel he)
      exact absurd (List.mem_range.mp hlt) (by omega)
    rw [Heap.freshList]
    dsimp only
    refine ⟨(va + n * size) :: l, .cons (by omega) ?_, ?_, fun x hx => ?_⟩
    · rw [Function.update_self]
      exact hc.congr fun x hx => Function.update_of_ne (fun e : x = va + n * size => hnot (e ▸ hx)) _ _
    · rw [List.range_succ, List.map_append]
      exact (hp.cons _).trans (List.perm_append_singleton _ _).symm
    · rw [List.range_succ, List.map_append, List.mem_append, not_or] at hx
      rw [Function.update_of_ne (fun e => hx.2 (by simp [e]))]
      exact hm x hx.1

/-! ## Who owns an address -/

/-- The block of a slab (`inl`) or of a large allocation. -/
def Heap.block (h : Heap) : Nat ⊕ Nat → Option (Nat × Nat)
  | .inl i => (h.slabPages i).map fun sp => (sp.pa, sp.order)
  | .inr j => (h.largeAllocs j).map fun la => (la.pa, la.order)

def Heap.Owns (h : Heap) (p k : Nat) : Prop := ∃ x, h.block x = some (pfnToPa p, k)

/-- The page of the linear map that an address is in. -/
def Heap.pageOf (h : Heap) (a : Nat) : Nat := (a - h.linearMapBase - physMemStart) / pageSize

/-- The address is in the block of this owner. -/
def Heap.At (h : Heap) (x : Nat ⊕ Nat) (a : Nat) : Prop :=
  ∃ p k, h.block x = some (pfnToPa p, k) ∧ h.linearMapBase + physMemStart ≤ a ∧ Covers p k (h.pageOf a)

structure SlabOk (h : Heap) (L : List Nat) (i : Nat) (sp : SlabPage) : Prop where
  shape : sp.Shape
  va : sp.va = h.linearMapBase + sp.pa
  block : ∃ p, sp.pa = pfnToPa p
  listed : i ∈ h.partialOf sp.cache
  free : ∃ fl, Chain h.mem (· = 0) sp.freelist fl ∧ (fl ++ L.filter fun a => sp.Has a).Perm sp.slots
  inuse : sp.inuse = (L.filter fun a => sp.Has a).length

structure LargeOk (h : Heap) (L : List Nat) (la : LargeAlloc) : Prop where
  va : la.va = h.linearMapBase + la.pa
  block : ∃ p, la.pa = pfnToPa p
  order : la.order = getOrderUl la.size
  size : sz8K < la.size
  live : la.va ∈ L

/-- The blocks in use are those the descriptors own and those of others, `O`. -/
structure Owned (h : Heap) (O : Set (Nat × Nat)) : Prop where
  sound : Pmm.Sound h.buddy
  used : ∀ p k, Used h.buddy p k ↔ (p, k) ∈ O ∨ h.Owns p k
  outside : ∀ p k k', (p, k) ∈ O → ¬ h.Owns p k'
  inj : ∀ x y q k k', h.block x = some (q, k) → h.block y = some (q, k') → x = y

/-- `L` are the live objects. -/
structure Inv (h : Heap) (L : List Nat) (O : Set (Nat × Nat)) : Prop extends Owned h O where
  slab : ∀ i sp, h.slabPages i = some sp → i < maxSlabPages ∧ SlabOk h L i sp
  large : ∀ j la, h.largeAllocs j = some la → j < maxLargeAllocs ∧ LargeOk h L la
  lists : ∀ c i, i ∈ h.partialOf c → ∃ sp, h.slabPages i = some sp ∧ sp.cache = c
  listNodup : ∀ c, (h.partialOf c).Nodup
  nodup : L.Nodup
  live : ∀ a ∈ L, (∃ i sp, h.slabPages i = some sp ∧ sp.Has a) ∨ ∃ j la, h.largeAllocs j = some la ∧ la.va = a

/-- No slab is kept without a live object. -/
def Heap.Busy (h : Heap) : Prop := ∀ i sp, h.slabPages i = some sp → 0 < sp.inuse

theorem used_apart {s : Pmm.State} {p k q j x : Nat} (hs : Sound s) (hp : Used s p k) (hq : Used s q j) (hx : Covers p k x)
    (hy : Covers q j x) : p = q ∧ k = j := by
  obtain ⟨-, T, fl, hI, -⟩ := hs
  have hp' := (hI.used_iff p k).mp hp
  have hq' := (hI.used_iff q j).mp hq
  obtain rfl := hI.tiling.apart hp' hq' hx hy
  rw [hp'] at hq'
  cases hq'
  exact ⟨rfl, rfl⟩

theorem has_iff (hva : sp.va = h.linearMapBase + pfnToPa p) :
    sp.Has a ↔ h.linearMapBase + physMemStart ≤ a ∧ Covers p sp.order (h.pageOf a) := by
  rw [SlabPage.Has, hva, SlabPage.span, pfnToPa_eq, Covers, Heap.pageOf]
  generalize 2 ^ sp.order = m
  unfold pageSize
  omega

theorem pageOf_va (p : Nat) : h.linearMapBase + physMemStart ≤ h.linearMapBase + pfnToPa p ∧ h.pageOf (h.linearMapBase + pfnToPa p) = p := by
  rw [pfnToPa_eq, Heap.pageOf]
  unfold pageSize
  omega

namespace Owned

theorem used_of (hO : Owned h O) {x : Nat ⊕ Nat} (hx : h.block x = some (pfnToPa p, k)) : Used h.buddy p k :=
  (hO.used p k).mpr (Or.inr ⟨x, hx⟩)

/-- Only the error code of the buddy, or what no account looks at, has changed. -/
theorem same (hO : Owned h O) (hb : h'.block = h.block) (hbuddy : h'.buddy = h.buddy) : Owned h' O := by
  refine ⟨hbuddy ▸ hO.sound, fun p k => ?_, fun p k k' => ?_, ?_⟩
  · rw [Heap.Owns, hb, hbuddy]
    exact hO.used p k
  · rw [Heap.Owns, hb]
    exact hO.outside p k k'
  · rw [hb]
    exact hO.inj

/-- A new block for a descriptor that had none. -/
theorem alloc (hO : Owned h O) {x : Nat ⊕ Nat} (hx : h.block x = none) (hb : h'.block = Function.update h.block x (some (pfnToPa p, k)))
    (hA : AllocAt h.buddy h'.buddy p k) : Owned h' O := by
  have hfresh : ∀ q j, Used h.buddy q j → q ≠ p := by
    intro q j hq e
    subst e
    exact hA.fresh q j q hq (covers_self q j) (covers_self q k)
  have howns : ∀ q j, h'.Owns q j ↔ h.Owns q j ∨ q = p ∧ j = k := by
    intro q j
    rw [Heap.Owns, Heap.Owns, hb]
    constructor
    · intro ⟨y, hy⟩
      by_cases hxy : y = x
      · subst hxy
        rw [Function.update_self] at hy
        obtain ⟨he, rfl⟩ := Prod.mk.inj (Option.some.inj hy)
        exact Or.inr ⟨(pfnToPa_inj he).symm, rfl⟩
      · rw [Function.update_of_ne hxy] at hy
        exact Or.inl ⟨y, hy⟩
    · intro hy
      rcases hy with ⟨y, hy⟩ | ⟨rfl, rfl⟩
      · have hxy : y ≠ x := fun e => by
          rw [e, hx] at hy
          cases hy
        exact ⟨y, by rwa [Function.update_of_ne hxy]⟩
      · exact ⟨x, Function.update_self ..⟩
  have hnew : ∀ y j, y ≠ x → h.block y ≠ some (pfnToPa p, j) := fun y j _ hy => hfresh p j (hO.used_of hy) rfl
  refine ⟨hA.sound, fun q j => ?_, fun q j j' hq hown => ?_, fun y z q j j' hy hz => ?_⟩
  · rw [hA.used, hO.used, howns, or_assoc]
  · rcases (howns q j').mp hown with hown | ⟨rfl, -⟩
    · exact hO.outside q j j' hq hown
    · exact hfresh q j ((hO.used q j).mpr (Or.inl hq)) rfl
  · rw [hb] at hy hz
    by_cases hyx : y = x <;> by_cases hzx : z = x
    · rw [hyx, hzx]
    · rw [hyx, Function.update_self] at hy
      obtain ⟨rfl, -⟩ := Prod.mk.inj (Option.some.inj hy)
      rw [Function.update_of_ne hzx] at hz
      exact absurd hz (hnew z j' hzx)
    · rw [hzx, Function.update_self] at hz
      obtain ⟨rfl, -⟩ := Prod.mk.inj (Option.some.inj hz)
      rw [Function.update_of_ne hyx] at hy
      exact absurd hy (hnew y j hyx)
    · rw [Function.update_of_ne hyx] at hy
      rw [Function.update_of_ne hzx] at hz
      exact hO.inj y z q j j' hy hz

/-- The block of a descriptor is given back. -/
theorem free (hO : Owned h O) {x : Nat ⊕ Nat} (hx : h.block x = some (pfnToPa p, k)) (hb : h'.block = Function.update h.block x none)
    (hF : FreedAt h.buddy h'.buddy p) : Owned h' O := by
  have howns : ∀ q j, h'.Owns q j ↔ h.Owns q j ∧ q ≠ p := by
    intro q j
    rw [Heap.Owns, Heap.Owns, hb]
    constructor
    · intro ⟨y, hy⟩
      by_cases hxy : y = x
      · rw [hxy, Function.update_self] at hy
        cases hy
      · rw [Function.update_of_ne hxy] at hy
        refine ⟨⟨y, hy⟩, fun e => hxy ?_⟩
        subst e
        exact hO.inj y x _ _ _ hy hx
    · intro ⟨⟨y, hy⟩, hne⟩
      have hxy : y ≠ x := fun e => hne (by
        rw [e, hx] at hy
        exact (pfnToPa_inj (Prod.mk.inj (Option.some.inj hy)).1).symm)
      exact ⟨y, by rwa [Function.update_of_ne hxy]⟩
  refine ⟨hF.sound, fun q j => ?_, fun q j j' hq hown => hO.outside q j j' hq ((howns q j').mp hown).1, fun y z q j j' hy hz => ?_⟩
  · rw [hF.used, hO.used, howns]
    constructor
    · intro ⟨hq, hne⟩
      exact hq.imp_right fun ho => ⟨ho, hne⟩
    · intro hq
      rcases hq with hq | ⟨ho, hne⟩
      · exact ⟨Or.inl hq, fun e => hO.outside q j k hq (e ▸ ⟨x, hx⟩)⟩
      · exact ⟨Or.inr ho, hne⟩
  · rw [hb] at hy hz
    by_cases hyx : y = x
    · rw [hyx, Function.update_self] at hy
      cases hy
    · by_cases hzx : z = x
      · rw [hzx, Function.update_self] at hz
        cases hz
      · rw [Function.update_of_ne hyx] at hy
        rw [Function.update_of_ne hzx] at hz
        exact hO.inj y z q j j' hy hz

end Owned

/-- The block of a slab, and where it is mapped. -/
theorem SlabOk.own (hs : SlabOk h L i sp) (hi : h.slabPages i = some sp) :
    ∃ p, sp.pa = pfnToPa p ∧ h.block (.inl i) = some (pfnToPa p, sp.order) ∧ sp.va = h.physToVirt (pfnToPa p) := by
  obtain ⟨p, hp⟩ := hs.block
  exact ⟨p, hp, by rw [Heap.block, hi, Option.map_some, hp], hs.va.trans (by rw [hp]; rfl)⟩

theorem LargeOk.own (hl : LargeOk h L la) (hj : h.largeAllocs j = some la) :
    ∃ p, la.pa = pfnToPa p ∧ h.block (.inr j) = some (pfnToPa p, la.order) ∧ la.va = h.physToVirt (pfnToPa p) := by
  obtain ⟨p, hp⟩ := hl.block
  exact ⟨p, hp, by rw [Heap.block, hj, Option.map_some, hp], hl.va.trans (by rw [hp]; rfl)⟩

namespace Inv

/-- An address has one owner. -/
theorem unique (hI : Inv h L O) {x y : Nat ⊕ Nat} (hx : h.At x a) (hy : h.At y a) : x = y := by
  obtain ⟨p, k, hbx, -, hpx⟩ := hx
  obtain ⟨q, j, hby, -, hqy⟩ := hy
  obtain ⟨rfl, rfl⟩ := used_apart hI.sound (hI.used_of hbx) (hI.used_of hby) hpx hqy
  exact hI.inj x y _ _ _ hbx hby

theorem at_slab (hI : Inv h L O) (hi : h.slabPages i = some sp) : sp.Has a ↔ h.At (.inl i) a := by
  have hs := (hI.slab i sp hi).2
  obtain ⟨p, -, hb, hva⟩ := hs.own hi
  rw [has_iff hva]
  constructor
  · intro ⟨h1, h2⟩
    exact ⟨p, sp.order, hb, h1, h2⟩
  · intro ⟨q, k, hq, h1, h2⟩
    rw [hb] at hq
    obtain ⟨he, rfl⟩ := Prod.mk.inj (Option.some.inj hq)
    exact ⟨h1, pfnToPa_inj he ▸ h2⟩

theorem at_large (hI : Inv h L O) (hj : h.largeAllocs j = some la) : h.At (.inr j) la.va := by
  have hl := (hI.large j la hj).2
  obtain ⟨p, -, hb, hva⟩ := hl.own hj
  refine ⟨p, la.order, hb, ?_⟩
  rw [hva, Heap.physToVirt, (pageOf_va p).2]
  exact ⟨(pageOf_va p).1, covers_self p _⟩

theorem not_has (hI : Inv h L O) (hi : h.slabPages i = some sp) (hj : h.slabPages j = some sp') (hne : j ≠ i) (ha : sp.Has a) :
    ¬ sp'.Has a := fun ha' =>
  hne (Sum.inl.inj (hI.unique ((hI.at_slab hj).mp ha') ((hI.at_slab hi).mp ha)))

theorem not_has_large (hI : Inv h L O) (hi : h.slabPages i = some sp) (hj : h.largeAllocs j = some la) : ¬ sp.Has la.va := fun ha => by
  cases hI.unique ((hI.at_slab hi).mp ha) (hI.at_large hj)

theorem at_live (hI : Inv h L O) (ha : a ∈ L) : ∃ x, h.At x a := by
  rcases hI.live a ha with ⟨i, sp, hi, hs⟩ | ⟨j, la, hj, rfl⟩
  · exact ⟨_, (hI.at_slab hi).mp hs⟩
  · exact ⟨_, hI.at_large hj⟩

/-- A slot that is on the free list is not live. -/
theorem free_not_live (hI : Inv h L O) (hi : h.slabPages i = some sp) {fl : List Nat}
    (hp : (fl ++ L.filter fun a => sp.Has a).Perm sp.slots) (ha : a ∈ fl) : a ∉ L ∧ sp.Has a := by
  have hs := (hI.slab i sp hi).2
  have hhas := (hs.shape.has (hp.mem_iff.mp (List.mem_append_left _ ha))).1
  refine ⟨fun hl => ?_, hhas⟩
  have hnd := hp.nodup_iff.mpr hs.shape.nodup
  exact (List.nodup_append.mp hnd).2.2 a ha a (List.mem_filter.mpr ⟨hl, decide_eq_true hhas⟩) rfl

end Inv

/-! ## Taking an object -/

@[simp] theorem setSlab_self (h : Heap) (i : Nat) (o : Option SlabPage) : (h.setSlab i o).slabPages i = o := Function.update_self ..

theorem setSlab_of_ne (hne : j ≠ i) (h : Heap) (o : Option SlabPage) : (h.setSlab i o).slabPages j = h.slabPages j :=
  Function.update_of_ne hne _ _

/-- A descriptor changes, but not the block it owns. -/
theorem block_setSlab (hi : h.slabPages i = some sp) (hpa : sp'.pa = sp.pa) (ho : sp'.order = sp.order) :
    (h.setSlab i (some sp')).block = h.block := by
  funext x
  cases x with
  | inl j =>
    by_cases hj : j = i
    · subst hj
      rw [Heap.block, Heap.block, setSlab_self, hi, Option.map_some, Option.map_some, hpa, ho]
    · rw [Heap.block, Heap.block, setSlab_of_ne hj]
  | inr j => rfl

/-- What keeps a slab whose descriptor, list and free slots do not change. -/
theorem SlabOk.keep (hs : SlabOk h L i sp) {L' : List Nat} (hb : h'.linearMapBase = h.linearMapBase)
    (hl : i ∈ h.partialOf sp.cache → i ∈ h'.partialOf sp.cache) (hf : L'.filter (fun a => sp.Has a) = L.filter fun a => sp.Has a)
    (hm : ∀ a, sp.Has a → a ∉ L → h'.mem a = h.mem a) : SlabOk h' L' i sp := by
  obtain ⟨fl, hc, hp⟩ := hs.free
  have hnd := hp.nodup_iff.mpr hs.shape.nodup
  refine ⟨hs.shape, hs.va.trans (by rw [hb]), hs.block, hl hs.listed, ⟨fl, hc.congr fun x hx => ?_, hf ▸ hp⟩, hf ▸ hs.inuse⟩
  have hhas := (hs.shape.has (hp.mem_iff.mp (List.mem_append_left _ hx))).1
  refine hm x hhas fun hl => ?_
  exact (List.nodup_append.mp hnd).2.2 x hx x (List.mem_filter.mpr ⟨hl, decide_eq_true hhas⟩) rfl

theorem LargeOk.keep (hl : LargeOk h L la) {L' : List Nat} (hb : h'.linearMapBase = h.linearMapBase) (hm : la.va ∈ L') : LargeOk h' L' la :=
  ⟨hl.va.trans (by rw [hb]), hl.block, hl.order, hl.size, hm⟩

theorem filter_has_cons_of_not (hn : ¬ sp.Has a) : (a :: L).filter (fun a => sp.Has a) = L.filter fun a => sp.Has a :=
  List.filter_cons_of_neg (by simpa using hn)

/-- `kmalloc` takes a free slot. -/
structure Taken (h : Heap) (L : List Nat) (O : Set (Nat × Nat)) (i a : Nat) (h' : Heap) : Prop where
  inv : Inv h' (a :: L) O
  pos : a ≠ 0
  fresh : a ∉ L
  slot : ∃ sp sp', h.slabPages i = some sp ∧ h'.slabPages i = some sp' ∧ a ∈ sp.slots ∧
    sp' = { sp with freelist := sp'.freelist, inuse := sp.inuse + 1 }
  others : ∀ j, j ≠ i → h'.slabPages j = h.slabPages j
  larges : h'.largeAllocs = h.largeAllocs
  base : h'.linearMapBase = h.linearMapBase
  buddy : h'.buddy = h.buddy

theorem Inv.take (hI : Inv h L O) (hi : h.slabPages i = some sp) (hne : sp.freelist ≠ 0) :
    Taken h L O i (h.takeObj i).1 (h.takeObj i).2 := by
  have hs := (hI.slab i sp hi).2
  obtain ⟨fl, hc, hp⟩ := hs.free
  obtain ⟨fl, rfl, hc'⟩ := hc.eq_cons hne
  obtain ⟨hfresh, hhas⟩ := hI.free_not_live hi hp (List.mem_cons_self ..)
  have hslot : sp.freelist ∈ sp.slots := hp.mem_iff.mp (List.mem_append_left _ (List.mem_cons_self ..))
  unfold Heap.takeObj
  rw [hi]
  dsimp only
  generalize hsp' : ({ sp with freelist := h.mem sp.freelist, inuse := sp.inuse + 1 } : SlabPage) = sp'
  have hpa : sp'.pa = sp.pa := by rw [← hsp']
  have hord : sp'.order = sp.order := by rw [← hsp']
  have hhas' : sp'.Has = sp.Has := by rw [← hsp']; rfl
  have hblock := block_setSlab (h := h) hi hpa hord
  refine ⟨⟨hI.toOwned.same hblock rfl, fun j spj hj => ?_, fun j la hj => ?_, fun c j hjm => ?_, hI.listNodup,
    List.nodup_cons.mpr ⟨hfresh, hI.nodup⟩, fun x hx => ?_⟩, hne, hfresh, ⟨sp, sp', hi, setSlab_self .., hslot, ?_⟩, fun j hj => setSlab_of_ne hj h _, rfl, rfl, rfl⟩
  · by_cases hji : j = i
    · subst hji
      rw [setSlab_self] at hj
      cases hj
      have hfilter : (sp.freelist :: L).filter (fun a => sp'.Has a) = sp.freelist :: L.filter fun a => sp.Has a := by
        simp only [hhas']
        exact List.filter_cons_of_pos (decide_eq_true hhas)
      refine ⟨(hI.slab j sp hi).1, ?_⟩
      rw [← hsp'] at hfilter ⊢
      refine ⟨⟨hs.shape.cache, hs.shape.objSize, hs.shape.order, hs.shape.capacity⟩, hs.va, hs.block, hs.listed, ⟨fl, hc', ?_⟩, ?_⟩
      · rw [hfilter]
        exact List.perm_middle.trans hp
      · rw [hfilter, List.length_cons, ← hs.inuse]
    · rw [setSlab_of_ne hji] at hj
      obtain ⟨hlt, hok⟩ := hI.slab j spj hj
      exact ⟨hlt, hok.keep rfl id (filter_has_cons_of_not (hI.not_has hi hj hji hhas)) fun _ _ _ => rfl⟩
  · obtain ⟨hlt, hok⟩ := hI.large j la hj
    exact ⟨hlt, hok.keep rfl (List.mem_cons_of_mem _ hok.live)⟩
  · obtain ⟨spj, hj, hcj⟩ := hI.lists c j hjm
    by_cases hji : j = i
    · subst hji
      rw [hi] at hj
      cases hj
      exact ⟨sp', setSlab_self .., by rw [← hsp']; exact hcj⟩
    · exact ⟨spj, by rw [setSlab_of_ne hji]; exact hj, hcj⟩
  · have hold : ∀ j spj, h.slabPages j = some spj → spj.Has x → ∃ j spj, (h.setSlab i (some sp')).slabPages j = some spj ∧ spj.Has x := by
      intro j spj hj hx
      by_cases hji : j = i
      · subst hji
        rw [hi] at hj
        cases hj
        exact ⟨j, sp', setSlab_self .., by rw [hhas']; exact hx⟩
      · exact ⟨j, spj, by rw [setSlab_of_ne hji]; exact hj, hx⟩
    rcases List.mem_cons.mp hx with rfl | hx
    · exact Or.inl (hold i sp hi hhas)
    · exact (hI.live x hx).imp_left fun ⟨j, spj, hj, hx⟩ => hold j spj hj hx
  · rw [← hsp']

/-! ## New blocks -/

/-- A call that fails leaves an error code at most. -/
def Fails (h h' : Heap) : Prop := h' = h ∨ ∃ e, h' = { h with buddy := setError h.buddy e }

theorem findUnused {α : Type} {f : Nat → Option α} {n : Nat} (h : (List.range n).find? (fun i => (f i).isNone) = some i) :
    i < n ∧ f i = none :=
  ⟨List.mem_range.mp (List.mem_of_find?_eq_some h), Option.isNone_iff_eq_none.mp (by simpa using List.find?_some h)⟩

/-- No live object is in a new block. -/
theorem Inv.not_live (hI : Inv h L O) {s : Pmm.State} (hA : AllocAt h.buddy s p k) (ha : a ∈ L)
    (hx : Covers p k (h.pageOf a)) : False := by
  obtain ⟨x, q, j, hb, -, hq⟩ := hI.at_live ha
  exact hA.fresh q j _ (hI.used_of hb) hq hx

theorem setPartial_cons (c i : Nat) (h : Heap) (c' : Nat) :
    (h.setPartial c (i :: h.partialOf c)).partialOf c' = if c' = c then i :: h.partialOf c' else h.partialOf c' := by
  show Function.update h.partialOf c _ c' = _
  by_cases hc : c' = c
  · subst hc
    rw [Function.update_self, if_pos rfl]
  · rw [Function.update_of_ne hc, if_neg hc]

/-- A new slab, all of it free. -/
structure Grown (h : Heap) (L : List Nat) (O : Set (Nat × Nat)) (c i : Nat) (h' : Heap) : Prop where
  inv : Inv h' L O
  unused : h.slabPages i = none
  page : ∃ sp, h'.slabPages i = some sp ∧ sp.cache = c ∧ sp.freelist ≠ 0 ∧ sp.inuse = 0
  others : ∀ j, j ≠ i → h'.slabPages j = h.slabPages j
  larges : h'.largeAllocs = h.largeAllocs
  base : h'.linearMapBase = h.linearMapBase

theorem Inv.newSlab (hI : Inv h L O) (hc : c < slabCacheCount) (hi : i < maxSlabPages) (hnone : h.slabPages i = none) {s : Pmm.State}
    (hA : AllocAt h.buddy s p (slabOrderForSize (slabSize c))) :
    Grown h L O c i ({ h with buddy := s }.newSlab i c (pfnToPa p)) := by
  generalize hh' : ({ h with buddy := s } : Heap).newSlab i c (pfnToPa p) = h'
  generalize hsp : ({ h with buddy := s } : Heap).freshPage c (pfnToPa p) = sp
  have hpages : h'.slabPages = Function.update h.slabPages i (some sp) := by rw [← hh', ← hsp]; rfl
  have hself : h'.slabPages i = some sp := by rw [hpages, Function.update_self]
  have hothers : ∀ j, j ≠ i → h'.slabPages j = h.slabPages j := fun j hj => by rw [hpages, Function.update_of_ne hj]
  have hlarge : h'.largeAllocs = h.largeAllocs := by rw [← hh']; rfl
  have hbase : h'.linearMapBase = h.linearMapBase := by rw [← hh']; rfl
  have hbuddy : h'.buddy = s := by rw [← hh']; rfl
  have hpart : ∀ c', h'.partialOf c' = if c' = c then i :: h.partialOf c' else h.partialOf c' := by
    intro c'
    rw [← hh']
    exact setPartial_cons c i h c'
  have hshape : sp.Shape := by
    rw [← hsp]
    exact ⟨hc, rfl, rfl, rfl⟩
  have hpa : sp.pa = pfnToPa p := by rw [← hsp]; rfl
  have hva : sp.va = h.linearMapBase + pfnToPa p := by rw [← hsp]; rfl
  have hcache : sp.cache = c := by rw [← hsp]; rfl
  have hinuse : sp.inuse = 0 := by rw [← hsp]; rfl
  have hord : sp.order = slabOrderForSize (slabSize c) := by rw [← hsp]; rfl
  have hfl : sp.freelist = (Heap.freshList sp.va sp.objSize sp.capacity h.mem).1 := by rw [← hsp]; rfl
  have hm' : h'.mem = (Heap.freshList sp.va sp.objSize sp.capacity h.mem).2 := by rw [← hh', ← hsp]; rfl
  have hpos : 0 < sp.va := hva ▸ Nat.add_pos_right _ (Nat.pos_of_ne_zero (pfnToPa_ne_zero p))
  obtain ⟨fl, hchain, hperm, hmem⟩ := freshList_spec hpos hshape.objSize_pos sp.capacity h.mem
  rw [← hm', ← hfl] at hchain
  rw [← hm'] at hmem
  -- nobody has an address of the block
  have hempty : ∀ a ∈ L, ¬ sp.Has a := by
    intro a ha hhas
    exact hI.not_live hA ha (hord ▸ ((has_iff hva).mp hhas).2)
  have hblock : h'.block = Function.update h.block (.inl i) (some (pfnToPa p, slabOrderForSize (slabSize c))) := by
    funext x
    cases x with
    | inl j =>
      by_cases hj : j = i
      · rw [hj, Function.update_self, Heap.block, hself, Option.map_some, hpa, hord]
      · rw [Function.update_of_ne fun e => hj (Sum.inl.inj e), Heap.block, hothers j hj]
        rfl
    | inr j =>
      rw [Function.update_of_ne Sum.inr_ne_inl, Heap.block, hlarge]
      rfl
  have hnone' : h.block (.inl i) = none := by rw [Heap.block, hnone, Option.map_none]
  refine ⟨⟨hI.toOwned.alloc hnone' hblock (hbuddy ▸ hA), fun j spj hj => ?_, fun j la hj => ?_, fun c' j hjm => ?_, fun c' => ?_, hI.nodup,
    fun x hx => ?_⟩, hnone, ⟨sp, hself, hcache, ?_, hinuse⟩, hothers, hlarge, hbase⟩
  · by_cases hji : j = i
    · subst hji
      rw [hself] at hj
      cases hj
      have hf : L.filter (fun a => sp.Has a) = [] := List.filter_eq_nil_iff.mpr fun a ha => by simpa using hempty a ha
      refine ⟨hi, hshape, by rw [hva, hbase, hpa], ⟨p, hpa⟩, ?_, ⟨fl, hchain, ?_⟩, ?_⟩
      · rw [hpart, if_pos hcache]
        exact List.mem_cons_self ..
      · rw [hf, List.append_nil]
        exact hperm
      · rw [hf]
        exact hinuse
    · rw [hothers j hji] at hj
      obtain ⟨hlt, hok⟩ := hI.slab j spj hj
      refine ⟨hlt, hok.keep hbase (fun hm => ?_) rfl fun a ha _ => hmem a fun hslot => ?_⟩
      · rw [hpart]
        split
        · exact List.mem_cons_of_mem _ hm
        · exact hm
      · -- an address of another slab is not in the new block
        obtain ⟨-, q, k, hb, -, hq⟩ := And.intro trivial ((hI.at_slab hj).mp ha)
        have hhas := (hshape.has hslot).1
        exact hA.fresh q k _ (hI.used_of hb) hq (hord ▸ ((has_iff hva).mp hhas).2)
  · rw [hlarge] at hj
    obtain ⟨hlt, hok⟩ := hI.large j la hj
    exact ⟨hlt, hok.keep hbase hok.live⟩
  · rw [hpart] at hjm
    have hold : j ∈ h.partialOf c' → ∃ sp, h'.slabPages j = some sp ∧ sp.cache = c' := by
      intro hm
      obtain ⟨spj, hj, hcj⟩ := hI.lists c' j hm
      have hji : j ≠ i := fun e => by
        rw [e, hnone] at hj
        cases hj
      exact ⟨spj, by rw [hothers j hji]; exact hj, hcj⟩
    split at hjm
    · next hcc =>
      rcases List.mem_cons.mp hjm with rfl | hm
      · exact ⟨sp, hself, by rw [hcache, hcc]⟩
      · exact hold hm
    · exact hold hjm
  · rw [hpart]
    split
    · refine List.nodup_cons.mpr ⟨fun hm => ?_, hI.listNodup c'⟩
      obtain ⟨spj, hj, -⟩ := hI.lists c' i hm
      rw [hnone] at hj
      cases hj
    · exact hI.listNodup c'
  · rcases hI.live x hx with ⟨j, spj, hj, hxj⟩ | ⟨j, la, hj, hxj⟩
    · have hji : j ≠ i := fun e => by
        rw [e, hnone] at hj
        cases hj
      exact Or.inl ⟨j, spj, by rw [hothers j hji]; exact hj, hxj⟩
    · exact Or.inr ⟨j, la, by rw [hlarge]; exact hj, hxj⟩
  · intro h0
    rw [h0] at hchain
    have hl : fl = [] := hchain.eq_nil rfl
    have hlen := hperm.length_eq
    rw [hl, List.length_map, List.length_range, List.length_nil] at hlen
    have := hshape.capacity_pos
    omega

theorem Inv.grow (hI : Inv h L O) (hc : c < slabCacheCount) (flags : Nat) :
    (∃ h', h.slabGrow c flags = (none, h') ∧ Fails h h') ∨ ∃ i h', h.slabGrow c flags = (some i, h') ∧ Grown h L O c i h' := by
  have hsize := slabSize_pos hc
  have hcap : 0 < pageSize * 2 ^ slabOrderForSize (slabSize c) / slabSize c := Nat.div_pos (slabSize_le_span c) hsize
  unfold Heap.slabGrow
  dsimp only
  rw [if_neg (Nat.pos_iff_ne_zero.mp hcap)]
  cases hm : h.allocSlabPageMeta with
  | none => exact Or.inl ⟨h, rfl, Or.inl rfl⟩
  | some i =>
    obtain ⟨hlt, hnone⟩ := findUnused hm
    dsimp only
    rcases alloc_spec hI.sound (slabOrderForSize (slabSize c)) flags with ⟨⟨e, he⟩, -⟩ | ⟨p, hp, hA⟩
    · rw [he]
      exact Or.inl ⟨_, if_pos rfl, Or.inr ⟨e, rfl⟩⟩
    · rw [hp, if_neg (pfnToPa_ne_zero p)]
      refine Or.inr ⟨i, _, rfl, ?_⟩
      exact hI.newSlab hc hlt hnone hA

end Myos.Slab
