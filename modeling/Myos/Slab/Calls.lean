/-
  Myos.Slab.Calls — what a call of `kmalloc` and one of `kfree` does to the heap.

  Proved: a call of `kmalloc` that answers NULL leaves an error code in the buddy at most
  (`kmalloc_spec`), and any other hands out an object that nobody has, with room for the size;
  `kfree` of a live object takes back that object and no other (`kfree_spec`), and with the last
  object of a slab its block. Every object stands at a multiple of its size (`Inv.aligned`).
-/

import Myos.Slab.Objects

namespace Myos.Slab

open Lib Pmm Lib.Dyadic

variable {h h' : Heap} {L : List Nat} {O : Set (Nat × Nat)} {a b p k i j c n : Nat} {sp sp' : SlabPage} {la : LargeAlloc}
  {x y : Nat ⊕ Nat}

/-! ## Objects -/

/-- The object of `n` bytes at `a`, in the block of a slab or that of a large allocation. -/
def Heap.Occupies (h : Heap) : Nat ⊕ Nat → Nat → Nat → Prop
  | .inl i, a, n => ∃ sp, h.slabPages i = some sp ∧ a ∈ sp.slots ∧ n = sp.objSize
  | .inr j, a, n => ∃ la, h.largeAllocs j = some la ∧ a = la.va ∧ n = pageSize * 2 ^ la.order

/-- An object is within the block of its owner. -/
theorem Inv.within (hI : Inv h L O) (hx : h.Occupies x a n) : ∃ p k, h.block x = some (pfnToPa p, k) ∧ Used h.buddy p k ∧
    h.physToVirt (pfnToPa p) ≤ a ∧ a + n ≤ h.physToVirt (pfnToPa p) + pageSize * 2 ^ k := by
  cases x with
  | inl i =>
    obtain ⟨sp, hi, ha, rfl⟩ := hx
    have hs := (hI.slab i sp hi).2
    obtain ⟨p, -, hb, hva⟩ := hs.own hi
    obtain ⟨hhas, hend⟩ := hs.shape.has ha
    exact ⟨p, sp.order, hb, hI.used_of hb, hva ▸ hhas.1, hva ▸ hend⟩
  | inr j =>
    obtain ⟨la, hj, rfl, rfl⟩ := hx
    have hl := (hI.large j la hj).2
    obtain ⟨p, -, hb, hva⟩ := hl.own hj
    exact ⟨p, la.order, hb, hI.used_of hb, hva.ge, hva ▸ Nat.le_refl _⟩

theorem used_disjoint {s : Pmm.State} {q m : Nat} (hs : Sound s) (hp : Used s p k) (hq : Used s q m) (hne : p ≠ q) :
    p + 2 ^ k ≤ q ∨ q + 2 ^ m ≤ p := by
  by_contra hn
  have hk := Nat.two_pow_pos k
  have hm := Nat.two_pow_pos m
  have hpq : Covers p k (max p q) ∧ Covers q m (max p q) := by unfold Covers; omega
  exact hne (used_apart hs hp hq hpq.1 hpq.2).1

/-- Blocks of two owners do not overlap. -/
theorem Inv.blocks_apart (hI : Inv h L O) {q m : Nat} (hx : h.block x = some (pfnToPa p, k)) (hy : h.block y = some (pfnToPa q, m))
    (hne : x ≠ y) : p + 2 ^ k ≤ q ∨ q + 2 ^ m ≤ p := by
  refine used_disjoint hI.sound (hI.used_of hx) (hI.used_of hy) fun e => ?_
  subst e
  exact hne (hI.inj x y _ _ _ hx hy)

/-- Two objects do not overlap. -/
theorem Inv.apart (hI : Inv h L O) {m : Nat} (hx : h.Occupies x a n) (hy : h.Occupies y b m) (hne : a ≠ b) : a + n ≤ b ∨ b + m ≤ a := by
  by_cases hxy : x = y
  · subst hxy
    cases x with
    | inl i =>
      obtain ⟨sp, hi, ha, rfl⟩ := hx
      obtain ⟨sp', hi', hb, rfl⟩ := hy
      rw [hi] at hi'
      cases hi'
      exact slots_apart ha hb hne
    | inr j =>
      obtain ⟨la, hj, rfl, -⟩ := hx
      obtain ⟨la', hj', rfl, -⟩ := hy
      rw [hj] at hj'
      cases hj'
      exact absurd rfl hne
  · obtain ⟨p, k, hbx, -, hp1, hp2⟩ := hI.within hx
    obtain ⟨q, l, hby, -, hq1, hq2⟩ := hI.within hy
    have hapart := hI.blocks_apart hbx hby hxy
    rw [Heap.physToVirt, pfnToPa_eq] at hp1 hp2 hq1 hq2
    generalize 2 ^ k = u at *
    generalize 2 ^ l = v at *
    unfold pageSize at *
    omega

/-- A live object is in one place. -/
theorem Inv.occupies (hI : Inv h L O) (ha : a ∈ L) : ∃ x n, h.Occupies x a n := by
  rcases hI.live a ha with ⟨i, sp, hi, hs⟩ | ⟨j, la, hj, rfl⟩
  · obtain ⟨fl, -, hp⟩ := (hI.slab i sp hi).2.free
    exact ⟨.inl i, sp.objSize, sp, hi, hp.mem_iff.mp (List.mem_append_right _ (List.mem_filter.mpr ⟨ha, decide_eq_true hs⟩)), rfl⟩
  · exact ⟨.inr j, _, la, hj, rfl, rfl⟩

theorem used_aligned {s : Pmm.State} (hs : Sound s) (hu : Used s p k) : 2 ^ k ∣ p ∧ k ≤ maxOrder := by
  obtain ⟨-, T, fl, hI, -⟩ := hs
  have hT := (hI.used_iff p k).mp hu
  exact ⟨hI.tiling.aligned hT, hI.order p k _ hT⟩

theorem block_aligned {base : Nat} (hbase : sz4M ∣ base) (hp : 2 ^ k ∣ p) (hk : k ≤ maxOrder) : 2 ^ (k + 12) ∣ base + pfnToPa p := by
  have h22 : 2 ^ (k + 12) ∣ 2 ^ 22 := Nat.pow_dvd_pow 2 (by unfold maxOrder at hk; omega)
  rw [pfnToPa_eq, Nat.pow_add]
  refine Nat.dvd_add ?_ (Nat.dvd_add ?_ (Nat.mul_dvd_mul hp (Nat.dvd_refl _)))
  · exact (Nat.pow_add 2 k 12 ▸ h22).trans hbase
  · exact (Nat.pow_add 2 k 12 ▸ h22).trans (by decide)

/-- Every object has a power of two of bytes and stands at a multiple of it. -/
theorem Inv.aligned (hI : Inv h L O) (hbase : sz4M ∣ h.linearMapBase) (hx : h.Occupies x a n) : ∃ t, n = 2 ^ t ∧ 2 ^ t ∣ a := by
  cases x with
  | inl i =>
    obtain ⟨sp, hi, ha, rfl⟩ := hx
    have hs := (hI.slab i sp hi).2
    obtain ⟨p, -, hb, hva⟩ := hs.own hi
    obtain ⟨hal, hord⟩ := used_aligned hI.sound (hI.used_of hb)
    have hsize : sp.objSize = 2 ^ (sp.cache + 3) := hs.shape.objSize.trans (slabSize_eq hs.shape.cache)
    have hle : 2 ^ (sp.cache + 3) ≤ 2 ^ (sp.order + 12) := by
      have := slabSize_le_span sp.cache
      rw [← hs.shape.objSize, ← hs.shape.order, hsize] at this
      rw [Nat.pow_add 2 sp.order 12, Nat.mul_comm]
      exact this
    obtain ⟨m, -, rfl⟩ := mem_slots.mp ha
    refine ⟨sp.cache + 3, hsize, Nat.dvd_add ?_ (hsize ▸ Nat.dvd_mul_left _ _)⟩
    rw [hva]
    exact (Nat.pow_dvd_pow 2 ((Nat.pow_le_pow_iff_right (by decide)).mp hle)).trans (block_aligned hbase hal hord)
  | inr j =>
    obtain ⟨la, hj, rfl, rfl⟩ := hx
    have hl := (hI.large j la hj).2
    obtain ⟨p, -, hb, hva⟩ := hl.own hj
    obtain ⟨hal, hord⟩ := used_aligned hI.sound (hI.used_of hb)
    refine ⟨la.order + 12, by rw [Nat.pow_add, Nat.mul_comm]; rfl, ?_⟩
    rw [hva]
    exact block_aligned hbase hal hord

/-! ## The empty heap, and calls that fail -/

theorem Inv.init {base : Nat} {s : Pmm.State} (hs : Sound s) (mem : Nat → Nat) : Inv (Heap.slabInit base mem s) [] (usedBlocks s) := by
  have hnone : ∀ x, (Heap.slabInit base mem s).block x = none := fun x => by cases x <;> rfl
  have howns : ∀ p k, ¬ (Heap.slabInit base mem s).Owns p k := by
    intro p k ⟨x, hx⟩
    rw [hnone] at hx
    cases hx
  refine ⟨⟨hs, fun p k => ?_, fun p k k' _ => howns p k', fun x y q k k' hx => ?_⟩, fun i sp hi => ?_, fun j la hj => ?_, fun c i hi => ?_,
    fun c => List.nodup_nil, List.nodup_nil, fun a ha => ?_⟩
  · exact (or_iff_left (howns p k)).symm
  · rw [hnone] at hx
    cases hx
  · cases hi
  · cases hj
  · cases hi
  · cases ha

/-- Only the buddy has changed, and its books still agree with the descriptors. -/
theorem Inv.rebuddy (hI : Inv h L O) {s : Pmm.State} {O' : Set (Nat × Nat)} (hO : Owned { h with buddy := s } O') : Inv { h with buddy := s } L O' := by
  refine ⟨hO, fun i sp hi => ?_, fun j la hj => ?_, hI.lists, hI.listNodup, hI.nodup, hI.live⟩
  · obtain ⟨hlt, hok⟩ := hI.slab i sp hi
    exact ⟨hlt, hok.keep rfl id rfl fun _ _ _ => rfl⟩
  · obtain ⟨hlt, hok⟩ := hI.large j la hj
    exact ⟨hlt, hok.keep rfl hok.live⟩

theorem Inv.setError (hI : Inv h L O) (e : BuddyError) : Inv { h with buddy := Pmm.setError h.buddy e } L O :=
  hI.rebuddy ⟨hI.sound.setError e, hI.used, hI.outside, hI.inj⟩

theorem Inv.fails (hI : Inv h L O) (hf : Fails h h') : Inv h' L O := by
  rcases hf with rfl | ⟨e, rfl⟩
  · exact hI
  · exact hI.setError e

theorem Fails.busy (hf : Fails h h') (hb : h.Busy) : h'.Busy := by
  rcases hf with rfl | ⟨e, rfl⟩ <;> exact hb

theorem Fails.occupies (hf : Fails h h') : h'.Occupies x a n ↔ h.Occupies x a n := by
  rcases hf with rfl | ⟨e, rfl⟩ <;> cases x <;> exact Iff.rfl

/-- Somebody else gets a block. -/
theorem Inv.lend (hI : Inv h L O) {s : Pmm.State} (hA : AllocAt h.buddy s p k) : Inv { h with buddy := s } L (insert (p, k) O) := by
  refine hI.rebuddy ⟨hA.sound, fun q j => ?_, fun q j j' hq hown => ?_, hI.inj⟩
  · rw [hA.used, hI.used, Set.mem_insert_iff, Prod.mk.injEq]
    exact or_comm.trans or_assoc.symm
  · obtain ⟨x, hx⟩ := hown
    rcases Set.mem_insert_iff.mp hq with he | hq
    · obtain ⟨rfl, rfl⟩ := Prod.mk.inj he
      exact hA.fresh q j' q (hI.used_of hx) (covers_self q j') (covers_self q j)
    · exact hI.outside q j j' hq ⟨x, hx⟩

/-- Somebody else gives a block back. -/
theorem Inv.reclaim (hI : Inv h L O) {s : Pmm.State} (hb : (p, k) ∈ O) (hF : FreedAt h.buddy s p) : Inv { h with buddy := s } L (O \ {(p, k)}) := by
  refine hI.rebuddy ⟨hF.sound, fun q j => ?_, fun q j j' hq hown => hI.outside q j j' hq.1 hown, hI.inj⟩
  rw [hF.used, hI.used]
  constructor
  · intro ⟨hq, hne⟩
    exact hq.imp_left fun hO => ⟨hO, fun he => hne (Prod.mk.inj he).1⟩
  · intro hq
    rcases hq with ⟨hO, hne⟩ | hown
    · refine ⟨Or.inl hO, fun e => hne ?_⟩
      subst e
      have hu := (used_apart hI.sound ((hI.used q j).mpr (Or.inl hO)) ((hI.used q k).mpr (Or.inl hb)) (covers_self q j) (covers_self q k)).2
      rw [hu, Set.mem_singleton_iff]
    · exact ⟨Or.inr hown, fun e => hI.outside p k j hb (e ▸ hown)⟩

/-- What a descriptor has is not in the blocks of others. -/
theorem Inv.foreign (hI : Inv h L O) (hb : (p, k) ∈ O) (hx : h.At x a) : ¬ Covers p k (h.pageOf a) := by
  obtain ⟨q, j, hbx, -, hq⟩ := hx
  intro hp
  obtain ⟨rfl, -⟩ := used_apart hI.sound ((hI.used p k).mpr (Or.inl hb)) (hI.used_of hbx) hp hq
  exact hI.outside p k j hb ⟨x, hbx⟩

/-- Words of an object that is not on a free list may change. -/
theorem Inv.rewrite (hI : Inv h L O) {mem : Nat → Nat} (hm : ∀ i sp a, h.slabPages i = some sp → a ∈ sp.slots → a ∉ L → mem a = h.mem a) :
    Inv { h with mem := mem } L O := by
  refine ⟨hI.toOwned.same rfl rfl, fun i sp hi => ?_, fun j la hj => ?_, hI.lists, hI.listNodup, hI.nodup, hI.live⟩
  · obtain ⟨hlt, hok⟩ := hI.slab i sp hi
    obtain ⟨fl, hc, hp⟩ := hok.free
    refine ⟨hlt, hok.shape, hok.va, hok.block, hok.listed, ⟨fl, hc.congr fun a ha => ?_, hp⟩, hok.inuse⟩
    exact hm i sp a hi (hp.mem_iff.mp (List.mem_append_left _ ha)) (hI.free_not_live hi hp ha).1
  · obtain ⟨hlt, hok⟩ := hI.large j la hj
    exact ⟨hlt, hok.keep rfl hok.live⟩

theorem SlabPage.Shape.eight_le (h : sp.Shape) : 8 ≤ sp.objSize := by
  have h2 := Nat.two_pow_pos sp.cache
  rw [h.objSize, slabSize_eq h.cache, Nat.pow_add]
  omega

/-! ## Allocation -/

/-- `kmalloc` made the object at `a`. -/
structure Made (h : Heap) (L : List Nat) (O : Set (Nat × Nat)) (size a : Nat) (h' : Heap) : Prop where
  inv : Inv h' (a :: L) O
  pos : a ≠ 0
  fresh : a ∉ L
  room : ∃ x n, h'.Occupies x a n ∧ size ≤ n
  keeps : ∀ x b n, h.Occupies x b n → h'.Occupies x b n
  busy : h.Busy → h'.Busy
  base : h'.linearMapBase = h.linearMapBase

theorem Taken.keeps (hT : Taken h L O i a h') (hx : h.Occupies x b n) : h'.Occupies x b n := by
  obtain ⟨sp, sp', hi, hi', -, hsp⟩ := hT.slot
  cases x with
  | inl j =>
    obtain ⟨spj, hj, hb, rfl⟩ := hx
    by_cases hji : j = i
    · subst hji
      rw [hi] at hj
      cases hj
      exact ⟨sp', hi', by rw [hsp]; exact hb, by rw [hsp]⟩
    · exact ⟨spj, by rw [hT.others j hji]; exact hj, hb, rfl⟩
  | inr j =>
    obtain ⟨la, hj, hb⟩ := hx
    exact ⟨la, by rw [hT.larges]; exact hj, hb⟩

theorem Taken.busy (hT : Taken h L O i a h') (hb : ∀ j, j ≠ i → ∀ sp, h.slabPages j = some sp → 0 < sp.inuse) : h'.Busy := by
  obtain ⟨sp, sp', -, hi', -, hsp⟩ := hT.slot
  intro j spj hj
  by_cases hji : j = i
  · subst hji
    rw [hi'] at hj
    cases hj
    rw [hsp]
    exact Nat.succ_pos _
  · rw [hT.others j hji] at hj
    exact hb j hji spj hj

theorem Taken.room (hT : Taken h L O i a h') (hi : h.slabPages i = some sp) : h'.Occupies (.inl i) a sp.objSize := by
  obtain ⟨sp0, sp', hi0, hi', ha, hsp⟩ := hT.slot
  rw [hi] at hi0
  cases hi0
  exact ⟨sp', hi', by rw [hsp]; exact ha, by rw [hsp]⟩

/-- An object of the class `c`. -/
theorem slabAlloc_spec (hI : Inv h L O) {size : Nat} (hc : c < slabCacheCount) (hsize : size ≤ slabSize c) (flags : Nat) :
    ((h.slabAlloc c flags).1 = 0 ∧ Fails h (h.slabAlloc c flags).2) ∨
    Made h L O size (h.slabAlloc c flags).1 (h.slabAlloc c flags).2 := by
  unfold Heap.slabAlloc
  cases hf : h.findPartial c with
  | some i =>
    dsimp only
    obtain ⟨sp0, hi0, hcache⟩ := hI.lists c i (List.mem_of_find?_eq_some hf)
    have hany := List.find?_some hf
    rw [hi0] at hany
    have hne : sp0.freelist ≠ 0 := by simpa using hany
    have hT := hI.take hi0 hne
    have hobj : sp0.objSize = slabSize c := by rw [(hI.slab i sp0 hi0).2.shape.objSize, hcache]
    refine Or.inr ⟨hT.inv, hT.pos, hT.fresh, ⟨.inl i, sp0.objSize, hT.room hi0, hobj ▸ hsize⟩, fun x b n => hT.keeps, fun hb => ?_, hT.base⟩
    exact hT.busy fun j _ sp => hb j sp
  | none =>
    dsimp only
    rcases hI.grow hc flags with ⟨h1, he, hfail⟩ | ⟨i, h1, he, hG⟩
    · rw [he]
      exact Or.inl ⟨rfl, hfail⟩
    · rw [he]
      obtain ⟨sp1, hi1, hcache, hne, -⟩ := hG.page
      have hT := hG.inv.take hi1 hne
      have hobj : sp1.objSize = slabSize c := by rw [(hG.inv.slab i sp1 hi1).2.shape.objSize, hcache]
      refine Or.inr ⟨hT.inv, hT.pos, hT.fresh, ⟨.inl i, sp1.objSize, hT.room hi1, hobj ▸ hsize⟩, fun x b n hx => hT.keeps ?_, fun hb => ?_,
        hT.base.trans hG.base⟩
      · cases x with
        | inl j =>
          obtain ⟨spj, hj, hrest⟩ := hx
          have hji : j ≠ i := fun e => by
            rw [e, hG.unused] at hj
            cases hj
          exact ⟨spj, by rw [hG.others j hji]; exact hj, hrest⟩
        | inr j =>
          obtain ⟨la, hj, hrest⟩ := hx
          exact ⟨la, by rw [hG.larges]; exact hj, hrest⟩
      · refine hT.busy fun j hj sp hsp => hb j sp ?_
        rwa [hG.others j hj] at hsp

@[simp] theorem setLarge_self (h : Heap) (j : Nat) (o : Option LargeAlloc) : (h.setLarge j o).largeAllocs j = o := Function.update_self ..

theorem setLarge_of_ne (hne : i ≠ j) (h : Heap) (o : Option LargeAlloc) : (h.setLarge j o).largeAllocs i = h.largeAllocs i :=
  Function.update_of_ne hne _ _

theorem block_setLarge (h : Heap) (j : Nat) (o : Option LargeAlloc) :
    (h.setLarge j o).block = Function.update h.block (.inr j) (o.map fun la => (la.pa, la.order)) := by
  funext x
  cases x with
  | inl i =>
    rw [Function.update_of_ne Sum.inl_ne_inr]
    rfl
  | inr i =>
    by_cases hij : i = j
    · subst hij
      rw [Function.update_self, Heap.block, setLarge_self]
    · rw [Function.update_of_ne fun e => hij (Sum.inr.inj e), Heap.block, setLarge_of_ne hij]
      rfl

theorem Inv.newLarge (hI : Inv h L O) {size : Nat} (hj : j < maxLargeAllocs) (hnone : h.largeAllocs j = none) (hsize : sz8K < size)
    {s : Pmm.State} (hA : AllocAt h.buddy s p (getOrderUl size)) :
    Made h L O size (h.physToVirt (pfnToPa p))
      ({ h with buddy := s }.setLarge j (some ⟨h.physToVirt (pfnToPa p), pfnToPa p, size, getOrderUl size⟩)) := by
  generalize hla : (⟨h.physToVirt (pfnToPa p), pfnToPa p, size, getOrderUl size⟩ : LargeAlloc) = la
  have hva : la.va = h.physToVirt (pfnToPa p) := by rw [← hla]
  have hpa : la.pa = pfnToPa p := by rw [← hla]
  have hord : la.order = getOrderUl size := by rw [← hla]
  have hlasize : la.size = size := by rw [← hla]
  rw [← hva]
  have hpage : h.pageOf la.va = p := hva ▸ (pageOf_va p).2
  have hfresh : la.va ∉ L := fun hl => hI.not_live hA hl (hpage ▸ covers_self p _)
  have hnone' : h.block (.inr j) = none := by rw [Heap.block, hnone, Option.map_none]
  have hblock : ({ h with buddy := s }.setLarge j (some la)).block = Function.update h.block (.inr j) (some (pfnToPa p, getOrderUl size)) := by
    rw [block_setLarge, Option.map_some, hpa, hord]
    rfl
  have hother : ∀ m l, h.largeAllocs m = some l → m ≠ j := fun m l hm e => by
    rw [e, hnone] at hm
    cases hm
  refine ⟨⟨hI.toOwned.alloc hnone' hblock hA, fun i sp hi => ?_, fun m l hm => ?_, hI.lists, hI.listNodup, List.nodup_cons.mpr ⟨hfresh, hI.nodup⟩,
    fun x hx => ?_⟩, hva ▸ ?_, hfresh, ⟨.inr j, pageSize * 2 ^ la.order, ⟨la, setLarge_self .., rfl, rfl⟩, ?_⟩, fun x b n hx => ?_,
    fun hb => hb, rfl⟩
  · obtain ⟨hlt, hok⟩ := hI.slab i sp hi
    refine ⟨hlt, hok.keep rfl id (filter_has_cons_of_not fun hhas => ?_) fun _ _ _ => rfl⟩
    -- the new block is in no slab
    obtain ⟨q, k, hb, -, hq⟩ := (hI.at_slab hi).mp hhas
    exact hA.fresh q k _ (hI.used_of hb) hq (hpage ▸ covers_self p _)
  · by_cases hmj : m = j
    · subst hmj
      rw [setLarge_self] at hm
      cases hm
      refine ⟨hj, hva.trans (by rw [hpa]; rfl), ⟨p, hpa⟩, by rw [hord, hlasize], by rw [hlasize]; exact hsize, List.mem_cons_self ..⟩
    · rw [setLarge_of_ne hmj] at hm
      obtain ⟨hlt, hok⟩ := hI.large m l hm
      exact ⟨hlt, hok.keep rfl (List.mem_cons_of_mem _ hok.live)⟩
  · rcases List.mem_cons.mp hx with rfl | hx
    · exact Or.inr ⟨j, la, setLarge_self .., rfl⟩
    · rcases hI.live x hx with hs | ⟨m, l, hm, hl⟩
      · exact Or.inl hs
      · exact Or.inr ⟨m, l, by rw [setLarge_of_ne (hother m l hm)]; exact hm, hl⟩
  · exact (Nat.add_pos_right _ (Nat.pos_of_ne_zero (pfnToPa_ne_zero p))).ne'
  · rw [hord]
    exact le_getOrderUl (Nat.zero_lt_of_lt hsize)
  · cases x with
    | inl i => exact hx
    | inr m =>
      obtain ⟨l, hm, hrest⟩ := hx
      exact ⟨l, by rw [setLarge_of_ne (hother m l hm)]; exact hm, hrest⟩

theorem largeAlloc_spec (hI : Inv h L O) {size : Nat} (hsize : sz8K < size) (flags : Nat) :
    ((h.largeAlloc size flags).1 = 0 ∧ Fails h (h.largeAlloc size flags).2) ∨
    Made h L O size (h.largeAlloc size flags).1 (h.largeAlloc size flags).2 := by
  unfold Heap.largeAlloc
  dsimp only
  cases hm : h.allocLargeMeta with
  | none => exact Or.inl ⟨rfl, Or.inl rfl⟩
  | some j =>
    obtain ⟨hlt, hnone⟩ := findUnused hm
    dsimp only
    rcases alloc_spec hI.sound (getOrderUl size) flags with ⟨⟨e, he⟩, -⟩ | ⟨p, hp, hA⟩
    · rw [he, if_pos rfl]
      exact Or.inl ⟨rfl, Or.inr ⟨e, rfl⟩⟩
    · rw [hp, if_neg (pfnToPa_ne_zero p)]
      exact Or.inr (hI.newLarge hlt hnone hsize hA)

theorem kmalloc_spec (hI : Inv h L O) (size flags : Nat) :
    ((h.kmalloc size flags).1 = 0 ∧ Fails h (h.kmalloc size flags).2) ∨
    Made h L O size (h.kmalloc size flags).1 (h.kmalloc size flags).2 := by
  unfold Heap.kmalloc
  split
  · exact Or.inl ⟨rfl, Or.inl rfl⟩
  split
  · exact Or.inl ⟨rfl, Or.inl rfl⟩
  split
  · next hle =>
    obtain ⟨c, hc, hlt, hsize, -⟩ := findSlabCache_spec hle
    rw [hc]
    exact slabAlloc_spec hI hlt hsize flags
  · next hgt => exact largeAlloc_spec hI (Nat.not_le.mp hgt) flags

theorem allocPhysPages_start {s : Pmm.State} (hs : Sound s) (order flags : Nat) : (allocPhysPages s order flags).1.buddyMemStart = s.buddyMemStart :=
  step_start hs (.alloc order flags)

theorem takeObj_buddy (h : Heap) (i : Nat) : (h.takeObj i).2.buddy = h.buddy := by
  unfold Heap.takeObj
  split <;> rfl

/-- The managed range of the buddy stays. -/
theorem kmalloc_start (hs : Sound h.buddy) (size flags : Nat) : (h.kmalloc size flags).2.buddy.buddyMemStart = h.buddy.buddyMemStart := by
  have hgrow : ∀ c, (h.slabGrow c flags).2.buddy.buddyMemStart = h.buddy.buddyMemStart := by
    intro c
    unfold Heap.slabGrow
    dsimp only
    split
    · rfl
    split
    · rfl
    split <;> exact allocPhysPages_start hs _ _
  unfold Heap.kmalloc
  split
  · rfl
  split
  · rfl
  split
  · split
    · rfl
    · next c _ =>
      have hg := hgrow c
      unfold Heap.slabAlloc
      split
      · rw [takeObj_buddy]
      · split
        · next heq => rwa [heq] at hg
        · next heq =>
          rw [takeObj_buddy]
          rwa [heq] at hg
  · unfold Heap.largeAlloc
    dsimp only
    split
    · rfl
    split <;> exact allocPhysPages_start hs _ _

/-! ## Release -/

/-- `kfree` took back the object at `a`. -/
structure Freed (h : Heap) (L : List Nat) (O : Set (Nat × Nat)) (a : Nat) (h' : Heap) : Prop where
  inv : Inv h' (L.erase a) O
  keeps : ∀ x b n, b ∈ L.erase a → h.Occupies x b n → h'.Occupies x b n
  busy : h.Busy → h'.Busy
  base : h'.linearMapBase = h.linearMapBase

theorem find?_range_unique {p : Nat → Bool} {n : Nat} (hi : i < n) (hp : p i = true) (hu : ∀ j, p j = true → j = i) :
    (List.range n).find? p = some i := by
  have hsome : ((List.range n).find? p).isSome = true := List.find?_isSome.mpr ⟨i, List.mem_range.mpr hi, hp⟩
  obtain ⟨j, hj⟩ := Option.isSome_iff_exists.mp hsome
  rw [hj, hu j (List.find?_some hj)]

theorem Inv.findLarge (hI : Inv h L O) (hj : h.largeAllocs j = some la) : h.largeFindByVa la.va = some j := by
  refine find?_range_unique (hI.large j la hj).1 (by rw [hj]; simp) fun m hm => ?_
  cases hl : h.largeAllocs m with
  | none =>
    rw [hl] at hm
    cases hm
  | some l =>
    rw [hl] at hm
    have hva : l.va = la.va := by simpa using hm
    exact Sum.inr.inj (hI.unique (hva ▸ hI.at_large hl) (hI.at_large hj))

theorem Inv.findLarge_none (hI : Inv h L O) (hi : h.slabPages i = some sp) (ha : sp.Has a) : h.largeFindByVa a = none := by
  refine List.find?_eq_none.mpr fun m _ hm => ?_
  cases hl : h.largeAllocs m with
  | none =>
    rw [hl] at hm
    cases hm
  | some l =>
    rw [hl] at hm
    have hva : l.va = a := by simpa using hm
    exact hI.not_has_large hi hl (hva ▸ ha)

theorem Inv.findPage (hI : Inv h L O) (hi : h.slabPages i = some sp) (ha : sp.Has a) : h.slabFindPageByVa a = some i := by
  refine find?_range_unique (hI.slab i sp hi).1 (by rw [hi]; simpa using ha) fun m hm => ?_
  by_contra hne
  cases hl : h.slabPages m with
  | none =>
    rw [hl] at hm
    cases hm
  | some l =>
    rw [hl] at hm
    exact hI.not_has hi hl hne ha (by simpa using hm)

theorem filter_has_erase (ha : a ∈ L) (hhas : sp.Has a) :
    (L.filter fun a => sp.Has a).Perm (a :: (L.erase a).filter fun a => sp.Has a) := by
  have h := (List.perm_cons_erase ha).filter fun a => decide (sp.Has a)
  rwa [List.filter_cons_of_pos (p := fun a => decide (sp.Has a)) (decide_eq_true hhas)] at h

theorem filter_has_erase_of_not (hL : L.Nodup) (hn : ¬ sp.Has a) : (L.erase a).filter (fun a => sp.Has a) = L.filter fun a => sp.Has a := by
  rw [hL.erase_eq_filter, List.filter_filter]
  refine List.filter_congr fun x _ => ?_
  by_cases hx : sp.Has x
  · have hne : x ≠ a := fun e => hn (e ▸ hx)
    simp [hx, hne]
  · simp [hx]

theorem Inv.put (hI : Inv h L O) (hi : h.slabPages i = some sp) (ha : a ∈ L) (hhas : sp.Has a)
    (hsp : sp' = { sp with freelist := a, inuse := sp.inuse - 1 }) :
    Inv ({ h with mem := Function.update h.mem a sp.freelist }.setSlab i (some sp')) (L.erase a) O := by
  generalize hh' : ({ h with mem := Function.update h.mem a sp.freelist } : Heap).setSlab i (some sp') = h'
  have hself : h'.slabPages i = some sp' := by rw [← hh', setSlab_self]
  have hothers : ∀ j, j ≠ i → h'.slabPages j = h.slabPages j := fun j hj => by
    rw [← hh', setSlab_of_ne hj]
  have hlarge : h'.largeAllocs = h.largeAllocs := by rw [← hh']; rfl
  have hbase : h'.linearMapBase = h.linearMapBase := by rw [← hh']; rfl
  have hpart : h'.partialOf = h.partialOf := by rw [← hh']; rfl
  have hmem : h'.mem = Function.update h.mem a sp.freelist := by rw [← hh']; rfl
  have hhas' : sp'.Has = sp.Has := by rw [hsp]; rfl
  have hs := (hI.slab i sp hi).2
  obtain ⟨fl, hc, hp⟩ := hs.free
  have hnd := hp.nodup_iff.mpr hs.shape.nodup
  have hafl : a ∉ fl := fun hm => (List.nodup_append.mp hnd).2.2 a hm a (List.mem_filter.mpr ⟨ha, decide_eq_true hhas⟩) rfl
  have hpos : a ≠ 0 := by
    obtain ⟨p, hpa⟩ := hs.block
    have hva := hhas.1
    have hp0 := pfnToPa_ne_zero p
    rw [hs.va, hpa] at hva
    omega
  have hblock : h'.block = h.block := by
    rw [← hh']
    exact block_setSlab (h := { h with mem := Function.update h.mem a sp.freelist }) hi (by rw [hsp]) (by rw [hsp])
  have hperm := filter_has_erase ha hhas
  refine ⟨hI.toOwned.same hblock (by rw [← hh']; rfl), fun j spj hj => ?_, fun j la hj => ?_, fun c j hjm => ?_, fun c => hpart ▸ hI.listNodup c,
    hI.nodup.erase a, fun x hx => ?_⟩
  · by_cases hji : j = i
    · subst hji
      rw [hself] at hj
      cases hj
      refine ⟨(hI.slab j sp hi).1, ?_⟩
      rw [hsp]
      refine ⟨⟨hs.shape.cache, hs.shape.objSize, hs.shape.order, hs.shape.capacity⟩, by rw [hbase]; exact hs.va, hs.block,
        by rw [hpart]; exact hs.listed, ⟨a :: fl, .cons hpos ?_, ?_⟩, ?_⟩
      · rw [hmem, Function.update_self]
        exact hc.congr fun x hx => Function.update_of_ne (fun e : x = a => hafl (e ▸ hx)) _ _
      · exact (List.perm_middle.symm.trans (hperm.symm.append_left fl)).trans hp
      · show sp.inuse - 1 = _
        rw [hs.inuse, hperm.length_eq, List.length_cons, Nat.add_sub_cancel]
        rfl
    · rw [hothers j hji] at hj
      obtain ⟨hlt, hok⟩ := hI.slab j spj hj
      have hnot := hI.not_has hi hj hji hhas
      refine ⟨hlt, hok.keep hbase (fun hm => hpart ▸ hm) (filter_has_erase_of_not hI.nodup hnot) fun x hx _ => ?_⟩
      rw [hmem, Function.update_of_ne fun e : x = a => hnot (e ▸ hx)]
  · rw [hlarge] at hj
    obtain ⟨hlt, hok⟩ := hI.large j la hj
    refine ⟨hlt, hok.keep hbase ?_⟩
    exact (List.mem_erase_of_ne fun e => hI.not_has_large hi hj (by rw [e]; exact hhas)).mpr hok.live
  · rw [hpart] at hjm
    obtain ⟨spj, hj, hcj⟩ := hI.lists c j hjm
    by_cases hji : j = i
    · subst hji
      rw [hi] at hj
      cases hj
      exact ⟨sp', hself, by rw [hsp]; exact hcj⟩
    · exact ⟨spj, by rw [hothers j hji]; exact hj, hcj⟩
  · refine (hI.live x (List.mem_of_mem_erase hx)).imp (fun ⟨j, spj, hj, hxj⟩ => ?_) fun ⟨j, la, hj, hxj⟩ => ⟨j, la, by rw [hlarge]; exact hj, hxj⟩
    by_cases hji : j = i
    · subst hji
      rw [hi] at hj
      cases hj
      exact ⟨j, sp', hself, by rw [hhas']; exact hxj⟩
    · exact ⟨j, spj, by rw [hothers j hji]; exact hj, hxj⟩

theorem setPartial_erase (c i : Nat) (h : Heap) (c' : Nat) :
    (h.setPartial c ((h.partialOf c).erase i)).partialOf c' = if c' = c then (h.partialOf c').erase i else h.partialOf c' := by
  show Function.update h.partialOf c _ c' = _
  by_cases hc : c' = c
  · subst hc
    rw [Function.update_self, if_pos rfl]
  · rw [Function.update_of_ne hc, if_neg hc]

/-- A slab without a live object is given back. -/
theorem Inv.destroy (hI : Inv h L O) (hi : h.slabPages i = some sp) (h0 : sp.inuse = 0) : Inv (h.slabDestroyPage i sp) L O := by
  have hs := (hI.slab i sp hi).2
  obtain ⟨p, hp, hb, -⟩ := hs.own hi
  have hF := free_used hI.sound (hI.used_of hb)
  rw [← hp] at hF
  generalize hh' : h.slabDestroyPage i sp = h'
  have hpages : h'.slabPages = Function.update h.slabPages i none := by rw [← hh']; rfl
  have hothers : ∀ j, j ≠ i → h'.slabPages j = h.slabPages j := fun j hj => by rw [hpages, Function.update_of_ne hj]
  have hlarge : h'.largeAllocs = h.largeAllocs := by rw [← hh']; rfl
  have hbase : h'.linearMapBase = h.linearMapBase := by rw [← hh']; rfl
  have hpart : ∀ c, h'.partialOf c = if c = sp.cache then (h.partialOf c).erase i else h.partialOf c := fun c => by
    rw [← hh']
    exact setPartial_erase sp.cache i h c
  have hblock : h'.block = Function.update h.block (.inl i) none := by
    funext x
    cases x with
    | inl j =>
      by_cases hj : j = i
      · rw [hj, Function.update_self, Heap.block, hpages, Function.update_self, Option.map_none]
      · rw [Function.update_of_ne fun e => hj (Sum.inl.inj e), Heap.block, hothers j hj]
        rfl
    | inr j =>
      rw [Function.update_of_ne Sum.inr_ne_inl, Heap.block, hlarge]
      rfl
  have hempty : ∀ x ∈ L, ¬ sp.Has x := by
    intro x hx hhas
    have hm : x ∈ L.filter fun a => sp.Has a := List.mem_filter.mpr ⟨hx, decide_eq_true hhas⟩
    have := List.length_pos_of_mem hm
    rw [← hs.inuse] at this
    omega
  have hmemPart : ∀ c j, j ∈ h'.partialOf c ↔ j ∈ h.partialOf c ∧ j ≠ i := by
    intro c j
    rw [hpart]
    split
    · rw [(hI.listNodup c).mem_erase_iff, and_comm]
    · next hc =>
      refine ⟨fun hm => ⟨hm, fun e => ?_⟩, And.left⟩
      obtain ⟨spj, hj, hcj⟩ := hI.lists c j hm
      rw [e, hi] at hj
      cases hj
      exact hc hcj.symm
  refine ⟨hI.toOwned.free hb hblock (by rw [← hh']; exact hF), fun j spj hj => ?_, fun j la hj => ?_, fun c j hjm => ?_, fun c => ?_, hI.nodup,
    fun x hx => ?_⟩
  · have hji : j ≠ i := fun e => by
      rw [e, hpages, Function.update_self] at hj
      cases hj
    rw [hothers j hji] at hj
    obtain ⟨hlt, hok⟩ := hI.slab j spj hj
    exact ⟨hlt, hok.keep hbase (fun hm => (hmemPart _ j).mpr ⟨hm, hji⟩) rfl fun x _ _ => by rw [← hh']; rfl⟩
  · rw [hlarge] at hj
    obtain ⟨hlt, hok⟩ := hI.large j la hj
    exact ⟨hlt, hok.keep hbase hok.live⟩
  · obtain ⟨hm, hji⟩ := (hmemPart c j).mp hjm
    obtain ⟨spj, hj, hcj⟩ := hI.lists c j hm
    exact ⟨spj, by rw [hothers j hji]; exact hj, hcj⟩
  · rw [hpart]
    split
    · exact (hI.listNodup c).erase i
    · exact hI.listNodup c
  · rcases hI.live x hx with ⟨j, spj, hj, hxj⟩ | ⟨j, la, hj, hxj⟩
    · have hji : j ≠ i := fun e => by
        rw [e, hi] at hj
        cases hj
        exact hempty x hx hxj
      exact Or.inl ⟨j, spj, by rw [hothers j hji]; exact hj, hxj⟩
    · exact Or.inr ⟨j, la, by rw [hlarge]; exact hj, hxj⟩

theorem slabFreeObj_spec (hI : Inv h L O) (hi : h.slabPages i = some sp) (ha : a ∈ L) (hhas : sp.Has a) : Freed h L O a (h.slabFreeObj a) := by
  obtain ⟨sp', hsp⟩ : ∃ sp' : SlabPage, { sp with freelist := a, inuse := sp.inuse - 1 } = sp' := ⟨_, rfl⟩
  obtain ⟨h1, hh1⟩ : ∃ h1 : Heap, ({ h with mem := Function.update h.mem a sp.freelist } : Heap).setSlab i (some sp') = h1 := ⟨_, rfl⟩
  have heq : h.slabFreeObj a = if sp'.inuse = 0 then h1.slabDestroyPage i sp' else h1 := by
    have hinuse : sp'.inuse = sp.inuse - 1 := by rw [← hsp]
    unfold Heap.slabFreeObj
    simp only [hI.findPage hi hhas, hi, hsp, hh1, hinuse]
  have hput := hI.put hi ha hhas hsp.symm
  rw [hh1] at hput
  rw [heq]
  have hi1 : h1.slabPages i = some sp' := by rw [← hh1, setSlab_self]
  have hothers : ∀ j, j ≠ i → h1.slabPages j = h.slabPages j := fun j hj => by rw [← hh1, setSlab_of_ne hj]
  have hlarge : h1.largeAllocs = h.largeAllocs := by rw [← hh1]; rfl
  have hbase : h1.linearMapBase = h.linearMapBase := by rw [← hh1]; rfl
  have hslots : sp'.slots = sp.slots ∧ sp'.objSize = sp.objSize := by rw [← hsp]; exact ⟨rfl, rfl⟩
  have hkeep : ∀ x b n, h.Occupies x b n → h1.Occupies x b n := by
    intro x b n hx
    cases x with
    | inl j =>
      obtain ⟨spj, hj, hb, rfl⟩ := hx
      by_cases hji : j = i
      · subst hji
        rw [hi] at hj
        cases hj
        exact ⟨sp', hi1, by rw [hslots.1]; exact hb, hslots.2.symm⟩
      · exact ⟨spj, by rw [hothers j hji]; exact hj, hb, rfl⟩
    | inr j =>
      obtain ⟨la, hj, hb⟩ := hx
      exact ⟨la, by rw [hlarge]; exact hj, hb⟩
  split
  · next h0 =>
    have hD := hput.destroy hi1 h0
    have hpages : ∀ j, j ≠ i → (h1.slabDestroyPage i sp').slabPages j = h.slabPages j := fun j hj => by
      rw [← hothers j hj]
      exact Function.update_of_ne hj _ _
    refine ⟨hD, fun x b n hb hx => ?_, fun hbusy j spj hj => ?_, hbase⟩
    · -- nobody else is in the slab
      have hx1 := hkeep x b n hx
      cases x with
      | inl j =>
        obtain ⟨spj, hj, hbs, rfl⟩ := hx1
        by_cases hji : j = i
        · subst hji
          rw [hi1] at hj
          cases hj
          have hs := (hput.slab j sp' hi1).2
          have hm : b ∈ (L.erase a).filter fun a => sp'.Has a := List.mem_filter.mpr ⟨hb, decide_eq_true (hs.shape.has hbs).1⟩
          have := List.length_pos_of_mem hm
          rw [← hs.inuse] at this
          omega
        · exact ⟨spj, by rw [hpages j hji, ← hothers j hji]; exact hj, hbs, rfl⟩
      | inr j => exact hx1
    · have hji : j ≠ i := fun e => by
        rw [e] at hj
        have hn : (h1.slabDestroyPage i sp').slabPages i = none := Function.update_self ..
        rw [hn] at hj
        cases hj
      rw [hpages j hji] at hj
      exact hbusy j spj hj
  · next h0 =>
    refine ⟨hput, fun x b n _ => hkeep x b n, fun hbusy j spj hj => ?_, hbase⟩
    by_cases hji : j = i
    · subst hji
      rw [hi1] at hj
      cases hj
      exact Nat.pos_of_ne_zero h0
    · rw [hothers j hji] at hj
      exact hbusy j spj hj

theorem largeFree_spec (hI : Inv h L O) (hj : h.largeAllocs j = some la) : Freed h L O la.va (h.largeFree j la) := by
  have hl := (hI.large j la hj).2
  obtain ⟨p, hp, hb, -⟩ := hl.own hj
  have hF := free_used hI.sound (hI.used_of hb)
  rw [← hp] at hF
  have hother : ∀ m l, h.largeAllocs m = some l → m ≠ j → l.va ≠ la.va := fun m l hm hne e =>
    hne (Sum.inr.inj (hI.unique (e ▸ hI.at_large hm) (hI.at_large hj)))
  have hblock : (h.largeFree j la).block = Function.update h.block (.inr j) none := block_setLarge ..
  refine ⟨⟨hI.toOwned.free hb hblock hF, fun i sp hi => ?_, fun m l hm => ?_, hI.lists, hI.listNodup, hI.nodup.erase _, fun x hx => ?_⟩,
    fun x b n hb hx => ?_, fun hbusy => hbusy, rfl⟩
  · obtain ⟨hlt, hok⟩ := hI.slab i sp hi
    exact ⟨hlt, hok.keep rfl id (filter_has_erase_of_not hI.nodup (hI.not_has_large hi hj)) fun _ _ _ => rfl⟩
  · have hmj : m ≠ j := fun e => by
      rw [e, Heap.largeFree, setLarge_self] at hm
      cases hm
    rw [Heap.largeFree, setLarge_of_ne hmj] at hm
    obtain ⟨hlt, hok⟩ := hI.large m l hm
    exact ⟨hlt, hok.keep rfl ((List.mem_erase_of_ne (hother m l hm hmj)).mpr hok.live)⟩
  · rcases hI.live x (List.mem_of_mem_erase hx) with hs | ⟨m, l, hm, hlx⟩
    · exact Or.inl hs
    · have hmj : m ≠ j := fun e => by
        rw [e, hj] at hm
        cases hm
        exact hI.nodup.not_mem_erase (hlx ▸ hx)
      exact Or.inr ⟨m, l, by rw [Heap.largeFree, setLarge_of_ne hmj]; exact hm, hlx⟩
  · cases x with
    | inl i => exact hx
    | inr m =>
      obtain ⟨l, hm, hbl, hn⟩ := hx
      have hmj : m ≠ j := fun e => by
        rw [e, hj] at hm
        cases hm
        exact hI.nodup.not_mem_erase (hbl ▸ hb)
      exact ⟨l, by rw [Heap.largeFree, setLarge_of_ne hmj]; exact hm, hbl, hn⟩

/-- `kfree` of a block of somebody else does nothing. -/
theorem kfree_foreign (hI : Inv h L O) (hb : (p, k) ∈ O) : h.kfree (h.physToVirt (pfnToPa p)) = h := by
  have hat : ∀ x, ¬ h.At x (h.physToVirt (pfnToPa p)) := fun x hx => hI.foreign hb hx (by
    rw [Heap.physToVirt, (pageOf_va p).2]
    exact covers_self p k)
  have hlarge : h.largeFindByVa (h.physToVirt (pfnToPa p)) = none := by
    refine List.find?_eq_none.mpr fun m _ hm => ?_
    cases hl : h.largeAllocs m with
    | none =>
      rw [hl] at hm
      cases hm
    | some l =>
      rw [hl] at hm
      have hva : l.va = h.physToVirt (pfnToPa p) := by simpa using hm
      exact hat _ (hva ▸ hI.at_large hl)
  have hslab : h.slabFindPageByVa (h.physToVirt (pfnToPa p)) = none := by
    refine List.find?_eq_none.mpr fun m _ hm => ?_
    cases hl : h.slabPages m with
    | none =>
      rw [hl] at hm
      cases hm
    | some l =>
      rw [hl] at hm
      exact hat _ ((hI.at_slab hl).mp (by simpa using hm))
  unfold Heap.kfree Heap.slabFreeObj
  simp only [hlarge, hslab, ite_self]

theorem kfree_start (h : Heap) (a : Nat) : (h.kfree a).buddy.buddyMemStart = h.buddy.buddyMemStart := by
  unfold Heap.kfree
  split
  · rfl
  split
  · rfl
  split
  · split
    · exact freePhysPages_start ..
    · rfl
  · unfold Heap.slabFreeObj
    split
    · rfl
    split
    · rfl
    · dsimp only
      split
      · exact freePhysPages_start ..
      · rfl

theorem kfree_spec (hI : Inv h L O) (ha : a ∈ L) : Freed h L O a (h.kfree a) := by
  have hlo : h.linearMapBase + physMemStart ≤ a := by
    obtain ⟨x, p, k, -, hlo, -⟩ := hI.at_live ha
    exact hlo
  have hpos : 0 < physMemStart := by decide
  unfold Heap.kfree
  rw [if_neg (by omega), if_neg (by omega)]
  rcases hI.live a ha with ⟨i, sp, hi, hhas⟩ | ⟨j, la, hj, rfl⟩
  · rw [hI.findLarge_none hi hhas]
    exact slabFreeObj_spec hI hi ha hhas
  · rw [hI.findLarge hj]
    dsimp only
    rw [hj]
    exact largeFree_spec hI hj

end Myos.Slab
