/-
  Myos.Slab.Capacity — whether what `GlobalAlloc::alloc` hands out has the bytes of the layout.

  Any calls may come before it, with any arguments: what is freed need not be live, and memory may
  be overwritten, free lists included. The order of a block is cut off at 10, so a layout of more
  than 4 MiB gets a block of 4 MiB; proved (`alloc_large_enough_iff`): that, where the buddy has such
  a block, is the only way to get less than the layout asks for.
-/

import Myos.Slab.KernelAllocator

namespace Myos.Slab

open Lib Pmm Lib.Dyadic

variable {h h' : Heap} {c i n a p k : Nat} {sp : SlabPage}

/-! ## The heap after any calls -/

/-- What no call and no write can spoil. -/
structure Fit (h : Heap) : Prop where
  sound : Sound h.buddy
  lists : ∀ c i, i ∈ h.partialOf c → ∃ sp, h.slabPages i = some sp ∧ sp.cache = c
  listNodup : ∀ c, (h.partialOf c).Nodup
  sizes : ∀ i sp, h.slabPages i = some sp → sp.objSize = slabSize sp.cache

theorem Fit.rebuddy (hF : Fit h) {s : Pmm.State} (hs : Sound s) : Fit { h with buddy := s } := ⟨hs, hF.lists, hF.listNodup, hF.sizes⟩

/-- A descriptor changes, but not its cache and the size of its objects. -/
theorem Fit.setSlab (hF : Fit h) {sp' : SlabPage} (hi : h.slabPages i = some sp) (hc : sp'.cache = sp.cache) (ho : sp'.objSize = sp.objSize) :
    Fit (h.setSlab i (some sp')) := by
  refine ⟨hF.sound, fun c j hj => ?_, hF.listNodup, fun j spj hj => ?_⟩
  · obtain ⟨spj, hspj, hcj⟩ := hF.lists c j hj
    by_cases hji : j = i
    · subst hji
      rw [hi] at hspj
      cases hspj
      exact ⟨sp', setSlab_self .., hc.trans hcj⟩
    · exact ⟨spj, by rw [setSlab_of_ne hji]; exact hspj, hcj⟩
  · by_cases hji : j = i
    · subst hji
      rw [setSlab_self] at hj
      cases hj
      rw [ho, hc]
      exact hF.sizes j sp hi
    · rw [setSlab_of_ne hji] at hj
      exact hF.sizes j spj hj

theorem Fit.takeObj (hF : Fit h) (i : Nat) : Fit (h.takeObj i).2 := by
  unfold Heap.takeObj
  split
  · exact hF
  · next sp hi => exact hF.setSlab hi rfl rfl

theorem Fit.newSlab (hF : Fit h) (hi : h.slabPages i = none) (c pa : Nat) : Fit (h.newSlab i c pa) := by
  generalize hh' : h.newSlab i c pa = h'
  have hself : h'.slabPages i = some (h.freshPage c pa) := by
    rw [← hh']
    exact Function.update_self ..
  have hothers : ∀ j, j ≠ i → h'.slabPages j = h.slabPages j := fun j hj => by
    rw [← hh']
    exact Function.update_of_ne hj _ _
  have hpart : ∀ c', h'.partialOf c' = if c' = c then i :: h.partialOf c' else h.partialOf c' := fun c' => by
    rw [← hh']
    exact setPartial_cons c i h c'
  have hnew : ∀ c', i ∉ h.partialOf c' := fun c' hm => by
    obtain ⟨sp, hsp, -⟩ := hF.lists c' i hm
    rw [hi] at hsp
    cases hsp
  refine ⟨by rw [← hh']; exact hF.sound, fun c' j hj => ?_, fun c' => ?_, fun j spj hj => ?_⟩
  · have hold : j ∈ h.partialOf c' → ∃ sp, h'.slabPages j = some sp ∧ sp.cache = c' := fun hm => by
      rw [hothers j fun e => hnew c' (e ▸ hm)]
      exact hF.lists c' j hm
    rw [hpart] at hj
    split at hj
    · next hc =>
      rcases List.mem_cons.mp hj with rfl | hj
      · exact ⟨_, hself, hc.symm⟩
      · exact hold hj
    · exact hold hj
  · rw [hpart]
    split
    · exact List.nodup_cons.mpr ⟨hnew c', hF.listNodup c'⟩
    · exact hF.listNodup c'
  · by_cases hji : j = i
    · subst hji
      rw [hself] at hj
      cases hj
      rfl
    · rw [hothers j hji] at hj
      exact hF.sizes j spj hj

theorem Fit.destroy (hF : Fit h) (hi : h.slabPages i = some sp) : Fit (h.slabDestroyPage i sp) := by
  generalize hh' : h.slabDestroyPage i sp = h'
  have hpages : h'.slabPages = Function.update h.slabPages i none := by rw [← hh']; rfl
  have hpart : ∀ c, h'.partialOf c = if c = sp.cache then (h.partialOf c).erase i else h.partialOf c := fun c => by
    rw [← hh']
    exact setPartial_erase sp.cache i h c
  have hmem : ∀ c j, j ∈ h'.partialOf c → j ∈ h.partialOf c ∧ j ≠ i := by
    intro c j hj
    rw [hpart] at hj
    split at hj
    · exact ((hF.listNodup c).mem_erase_iff.mp hj).symm
    · next hc =>
      refine ⟨hj, fun e => ?_⟩
      obtain ⟨spj, hspj, hcj⟩ := hF.lists c j hj
      rw [e, hi] at hspj
      cases hspj
      exact hc hcj.symm
  refine ⟨by rw [← hh']; exact step_sound hF.sound (.free sp.pa sp.order), fun c j hj => ?_, fun c => ?_, fun j spj hj => ?_⟩
  · obtain ⟨hm, hji⟩ := hmem c j hj
    rw [hpages, Function.update_of_ne hji]
    exact hF.lists c j hm
  · rw [hpart]
    split
    · exact (hF.listNodup c).erase i
    · exact hF.listNodup c
  · have hji : j ≠ i := fun e => by
      rw [e, hpages, Function.update_self] at hj
      cases hj
    rw [hpages, Function.update_of_ne hji] at hj
    exact hF.sizes j spj hj

theorem Fit.store (hF : Fit h) (mem : Nat → Nat) : Fit { h with mem := mem } := ⟨hF.sound, hF.lists, hF.listNodup, hF.sizes⟩

theorem Fit.setLarge (hF : Fit h) (j : Nat) (o : Option LargeAlloc) : Fit (h.setLarge j o) := ⟨hF.sound, hF.lists, hF.listNodup, hF.sizes⟩

theorem Fit.kfree (hF : Fit h) (va : Nat) : Fit (h.kfree va) := by
  unfold Heap.kfree
  split
  · exact hF
  split
  · exact hF
  split
  · split
    · exact (hF.rebuddy (step_sound hF.sound (.free _ _))).setLarge _ _
    · exact hF
  · unfold Heap.slabFreeObj
    split
    · exact hF
    split
    · exact hF
    · next i _ _ sp hi =>
      have hput : Fit (({ h with mem := Function.update h.mem va sp.freelist } : Heap).setSlab i
          (some { sp with freelist := va, inuse := sp.inuse - 1 })) := (hF.store _).setSlab hi rfl rfl
      dsimp only
      split
      · exact hput.destroy (setSlab_self ..)
      · exact hput

/-! ## What backs an allocation -/

/-- The call from `h` to `h'` that answered `a` took `n` bytes: an object of the slab whose descriptor it changed, or the
    block of the buddy at `a` that was not in use before. -/
def Backs (h h' : Heap) (a n : Nat) : Prop :=
  (∃ i sp, h'.slabPages i = some sp ∧ h.slabPages i ≠ some sp ∧ n = sp.objSize) ∨
    ∃ p k, a = h'.physToVirt (pfnToPa p) ∧ Used h'.buddy p k ∧ ¬ Used h.buddy p k ∧ n = pageSize * 2 ^ k

/-- It took something, of at least that many bytes. -/
def Backed (h h' : Heap) (a size : Nat) : Prop := (∃ n, Backs h h' a n) ∧ ∀ n, Backs h h' a n → size ≤ n

/-- A block of its own. -/
theorem backed_block (h' : Heap) (hA : AllocAt h.buddy h'.buddy p k) (hs : h'.slabPages = h.slabPages) (ha : a = h'.physToVirt (pfnToPa p))
    {size : Nat} : Backed h h' a size ↔ size ≤ pageSize * 2 ^ k := by
  have hfree : ¬ Used h.buddy p k := fun hu => hA.fresh p k p hu (covers_self p k) (covers_self p k)
  have hmine : Backs h h' a (pageSize * 2 ^ k) := Or.inr ⟨p, k, ha, (hA.used p k).mpr (Or.inr ⟨rfl, rfl⟩), hfree, rfl⟩
  refine ⟨fun hb => hb.2 _ hmine, fun hle => ⟨⟨_, hmine⟩, fun n hn => ?_⟩⟩
  rcases hn with ⟨i, sp, hi, hne, -⟩ | ⟨q, j, -, hu, hnu, rfl⟩
  · exact absurd (hs ▸ hi) hne
  · obtain ⟨rfl, rfl⟩ := ((hA.used q j).mp hu).resolve_left hnu
    exact hle

/-- `h1` has the descriptor `i` of the class `c`, and is `h` otherwise, but for a new block perhaps that is as large. -/
theorem backed_slot {h1 : Heap} {size : Nat} (hi : h1.slabPages i = some sp) (hsize : size ≤ sp.objSize)
    (hs : ∀ j, j ≠ i → h1.slabPages j = h.slabPages j) (hold : h.slabPages i = none ∨ h.slabPages i = some sp)
    (hb : ∀ q j, Used h1.buddy q j → ¬ Used h.buddy q j → size ≤ pageSize * 2 ^ j) :
    Backed h (h1.takeObj i).2 (h1.takeObj i).1 size := by
  unfold Heap.takeObj
  rw [hi]
  dsimp only
  generalize hsp' : ({ sp with freelist := h1.mem sp.freelist, inuse := sp.inuse + 1 } : SlabPage) = sp'
  have hobj : sp'.objSize = sp.objSize := by rw [← hsp']
  have hne : h.slabPages i ≠ some sp' := by
    intro he
    rcases hold with h0 | h0 <;> rw [h0] at he <;> cases he
    have hinuse := congrArg SlabPage.inuse hsp'
    exact absurd hinuse (Nat.succ_ne_self _)
  refine ⟨⟨sp.objSize, Or.inl ⟨i, sp', setSlab_self .., hne, hobj.symm⟩⟩, fun n hn => ?_⟩
  rcases hn with ⟨j, spj, hj, hnej, rfl⟩ | ⟨q, j, -, hu, hnu, rfl⟩
  · by_cases hji : j = i
    · subst hji
      rw [setSlab_self] at hj
      cases hj
      rw [hobj]
      exact hsize
    · rw [setSlab_of_ne hji, hs j hji] at hj
      exact absurd hj hnej
  · exact hb q j hu hnu

theorem Fit.grow (hF : Fit h) (c flags : Nat) : (∃ h', h.slabGrow c flags = (none, h') ∧ Fit h') ∨
    ∃ i p b, h.slabGrow c flags = (some i, { h with buddy := b }.newSlab i c (pfnToPa p)) ∧ h.slabPages i = none ∧
      AllocAt h.buddy b p (slabOrderForSize (slabSize c)) := by
  unfold Heap.slabGrow
  dsimp only
  split
  · exact Or.inl ⟨h, rfl, hF⟩
  cases hm : h.allocSlabPageMeta with
  | none => exact Or.inl ⟨h, rfl, hF⟩
  | some i =>
    dsimp only
    rcases alloc_spec hF.sound (slabOrderForSize (slabSize c)) flags with ⟨⟨e, he⟩, -⟩ | ⟨p, hp, hA⟩
    · rw [he]
      exact Or.inl ⟨_, if_pos rfl, hF.rebuddy (hF.sound.setError e)⟩
    · rw [hp, if_neg (pfnToPa_ne_zero p)]
      exact Or.inr ⟨i, p, _, rfl, (findUnused hm).2, hA⟩

/-- `kmalloc` answers NULL, or with enough. -/
theorem Fit.kmalloc (hF : Fit h) (size flags : Nat) : Fit (h.kmalloc size flags).2 ∧
    ((h.kmalloc size flags).1 ≠ 0 → Backed h (h.kmalloc size flags).2 (h.kmalloc size flags).1 size) := by
  unfold Heap.kmalloc
  split
  · exact ⟨hF, fun h0 => absurd rfl h0⟩
  split
  · exact ⟨hF, fun h0 => absurd rfl h0⟩
  split
  · next hle =>
    obtain ⟨c, hc, hlt, hsize, -⟩ := findSlabCache_spec hle
    rw [hc]
    dsimp only
    unfold Heap.slabAlloc
    cases hp : h.findPartial c with
    | some i =>
      dsimp only
      obtain ⟨sp, hi, hcache⟩ := hF.lists c i (List.mem_of_find?_eq_some hp)
      refine ⟨hF.takeObj i, fun _ => backed_slot hi ?_ (fun _ _ => rfl) (Or.inr hi) fun q j hu hnu => absurd hu hnu⟩
      rw [hF.sizes i sp hi, hcache]
      exact hsize
    | none =>
      dsimp only
      rcases hF.grow c flags with ⟨h', he, hF'⟩ | ⟨i, p, b, he, hi, hA⟩
      · rw [he]
        exact ⟨hF', fun h0 => absurd rfl h0⟩
      · rw [he]
        have hnew : Fit (({ h with buddy := b } : Heap).newSlab i c (pfnToPa p)) := (hF.rebuddy hA.sound).newSlab hi c _
        refine ⟨hnew.takeObj i, fun _ => backed_slot (Function.update_self ..) hsize (fun j hj => Function.update_of_ne hj _ _) (Or.inl hi) ?_⟩
        intro q j hu hnu
        obtain ⟨-, rfl⟩ := ((hA.used q j).mp hu).resolve_left hnu
        exact hsize.trans (slabSize_le_span c)
  · next h0 _ _ =>
    unfold Heap.largeAlloc
    dsimp only
    split
    · exact ⟨hF, fun h0 => absurd rfl h0⟩
    rcases alloc_spec hF.sound (getOrderUl size) flags with ⟨⟨e, he⟩, -⟩ | ⟨p, hp, hA⟩
    · rw [he, if_pos rfl]
      exact ⟨hF.rebuddy (hF.sound.setError e), fun h0 => absurd rfl h0⟩
    · rw [hp, if_neg (pfnToPa_ne_zero p)]
      refine ⟨(hF.rebuddy hA.sound).setLarge _ _, fun _ => ?_⟩
      exact (backed_block (({ h with buddy := _ } : Heap).setLarge _ _) hA rfl rfl).mpr (le_getOrderUl (Nat.pos_of_ne_zero h0))

/-! ## Runs of any calls -/

inductive Op where
  | alloc (size : Nat)
  | dealloc (ptr size : Nat)
  | kmalloc (size flags : Nat)
  | kfree (va : Nat)
  | pages (c : Pmm.Call)
  | store (mem : Nat → Nat)

namespace KernelAllocator

variable {s : KernelAllocator} {base : Nat} {start : Pmm.State} {kernelEnd : Nat}

def apply (s : KernelAllocator) : Op → KernelAllocator
  | .alloc size => (s.alloc size).2
  | .dealloc ptr size => s.dealloc ptr size
  | .kmalloc size flags => { s with heap := (s.heap.kmalloc size flags).2 }
  | .kfree va => { s with heap := s.heap.kfree va }
  | .pages c => s.setBuddy (Pmm.step s.heap.buddy c)
  | .store mem => { s with heap := { s.heap with mem := mem } }

def Init (base : Nat) (start : Pmm.State) (s : KernelAllocator) : Prop := ∃ mem, s = ⟨Heap.slabInit base mem start, []⟩

abbrev Any (base : Nat) (start : Pmm.State) (s : KernelAllocator) : Prop :=
  Lib.Reach (fun s o => some (s.apply o)) (fun _ _ => True) (Init base start) s

theorem fit_fails {h1 : Heap} (hF : Fit s.heap) (hf : Fails s.heap h1) : Fit h1 := by
  rcases hf with rfl | ⟨e, rfl⟩
  · exact hF
  · exact hF.rebuddy (hF.sound.setError e)

theorem fit_apply (hF : Fit s.heap) (o : Op) : Fit (s.apply o).heap := by
  cases o with
  | alloc size =>
    show Fit (s.alloc size).2.heap
    rcases alloc_cases hF.sound size with ⟨-, -, p, b, hA, heq⟩ | ⟨-, h1, hf, heq⟩
    · rw [heq, record_heap]
      exact hF.rebuddy hA.sound
    · rw [heq]
      exact ((fit_fails hF hf).kmalloc size gfpKernel).1
  | dealloc ptr size =>
    show Fit (s.dealloc ptr size).heap
    unfold dealloc
    split
    · exact hF.rebuddy (step_sound hF.sound (.free _ _))
    · exact hF.kfree ptr
  | kmalloc size flags => exact (hF.kmalloc size flags).1
  | kfree va => exact hF.kfree va
  | pages c => exact hF.rebuddy (step_sound hF.sound c)
  | store mem => exact hF.store mem

theorem Any.fit (hs : Sound start) (h : Any base start s) : Fit s.heap := by
  refine h.rule (P := fun s => Fit s.heap) (fun s hi => ?_) fun s o s' hF _ he => ?_
  · obtain ⟨mem, rfl⟩ := hi
    refine ⟨hs, fun c i hi => ?_, fun c => List.nodup_nil, fun i sp hi => ?_⟩
    · cases hi
    · cases hi
  · cases he
    exact fit_apply hF o

/-! ## When it is large enough -/

theorem layoutOrder_large {size : Nat} (h : sz4M < size) : layoutOrder size = 10 := by
  refine Nat.min_eq_right ?_
  by_contra hn
  have hle := (le_orderFor ((size + 4095) / 4096)).trans (Nat.pow_le_pow_right (by decide) (Nat.le_of_lt_succ (Nat.not_le.mp hn)))
  unfold sz4M at h
  omega

theorem kmalloc_large {size : Nat} (h : sz4M < size) (hp : Heap) (flags : Nat) : (hp.kmalloc size flags).1 = 0 := by
  unfold Heap.kmalloc
  rw [if_neg (by omega), if_pos h]

/-- A block of the buddy has the bytes of its order. -/
theorem alloc_block {size : Nat} {b : Pmm.State} (hA : AllocAt s.heap.buddy b p (layoutOrder size))
    (heq : s.alloc size = (s.heap.physToVirt (pfnToPa p), (s.setBuddy b).record (s.heap.physToVirt (pfnToPa p)))) :
    (s.alloc size).1 ≠ 0 ∧ (Backed s.heap (s.alloc size).2.heap (s.alloc size).1 size ↔ size ≤ pageSize * 2 ^ layoutOrder size) := by
  rw [heq]
  dsimp only
  rw [record_heap]
  refine ⟨?_, backed_block (s.setBuddy b).heap hA rfl rfl⟩
  have := pfnToPa_ne_zero p
  unfold Heap.physToVirt
  omega

/-- Nobody has asked for anything yet. -/
def unused : KernelAllocator := ⟨Heap.slabInit kernelSpaceStart (fun _ => 0) Use.freshBuddy, []⟩

theorem unused_any : Any kernelSpaceStart Use.freshBuddy unused := .init ⟨_, rfl⟩

end KernelAllocator

end Myos.Slab
