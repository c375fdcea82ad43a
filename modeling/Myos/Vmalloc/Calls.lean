/-
  Myos.Vmalloc.Calls — the allocating calls of `kernel/vmalloc.c` against the ledger.

  Proved: an allocating call is refused and leaves areas, blocks, mappings and records as they
  were, or it hands out one range, changes no entry outside it, and maps every page of it if a
  page is free for every missing table.
-/

import Myos.Vmalloc.Ledger

namespace Myos.Vmalloc

open Mm Pmm Lib.Dyadic
open Vmap (Word VmapManager Orderly vmallocStart vmallocEnd)

theorem pageKernelRw_ok : ProtOk pageKernelRw := ⟨by decide, by decide, by decide⟩
theorem pageDevice_ok : ProtOk pageDevice := ⟨by decide, by decide, by decide⟩
theorem pageDma_ok : ProtOk pageDma := ⟨by decide, by decide, by decide⟩

theorem pagesOf_pos {n : Nat} (h : 0 < n) : 0 < pagesOf n := by
  unfold pagesOf
  omega

theorem toNat_nrPages {size : Word} (h : size.toNat + 4095 < 2 ^ 64) : nrPages size = pagesOf size.toNat := by
  unfold nrPages pagesOf
  rw [BitVec.toNat_udiv, BitVec.toNat_add, show (4095 : Word).toNat = 4095 from rfl, show (4096 : Word).toNat = 4096 from rfl,
    Nat.mod_eq_of_lt h]

/-- The pages of an allocation are mapped to its frames. -/
def Translates (m : Machine) (a : Alloc) : Prop :=
  ∀ i pa, a.pages[i]? = some pa → ptePresent (m.translate (a.va.toNat + i * pageSize)) = true ∧
    pteToPhys (m.translate (a.va.toNat + i * pageSize)) = pa

/-- Where the call gets a range, its frames have addresses that an entry can hold, and besides its own
    pages a page is free for every table that is missing on the way to the range. -/
def Ample (s : Sys) : Op → Prop
  | .vmalloc size before remain .. =>
    ∀ mgr va, s.mgr.vaAlloc size 0x1000 vaFlagVmalloc before remain = some (mgr, va) → va ≠ 0 → Room s.machine.pmm (nrPages size) →
      Room s.machine.pmm ((missing s.machine s.machine.ttbr1 (pagePaths va.toNat (nrPages size))).card + nrPages size)
  | .ioremap phys size before remain _ =>
    let mapSize := size + (phys &&& 0xFFF)
    ∀ mgr va, s.mgr.vaAlloc mapSize 0x1000 vaFlagIoremap before remain = some (mgr, va) → va ≠ 0 →
      phys.toNat / pageSize * pageSize + nrPages mapSize * pageSize ≤ 2 ^ 48 ∧
      Room s.machine.pmm (missing s.machine s.machine.ttbr1 (pagePaths va.toNat (nrPages mapSize))).card
  | .dmaAllocCoherent size before remain _ =>
    let pages := nrPages size
    ∀ mgr va, s.mgr.vaAlloc (BitVec.ofNat 64 (pages * 4096)) 0x1000 vaFlagIoremap before remain = some (mgr, va) → va ≠ 0 →
      (allocPhysPages s.machine.pmm (dmaOrder pages) gfpDma).2 ≠ 0 →
      Room s.machine.pmm ((missing s.machine s.machine.ttbr1 (pagePaths va.toNat pages)).card + 2 ^ dmaOrder pages)
  | _ => True

/-- The call `e` handed out the allocation `a`. -/
structure Acquired (s s' : Sys) (e : Op) (a : Alloc) : Prop where
  area : NewArea s.mgr s'.mgr a.va
  other : ∀ x, InRange x → ¬ InPages a.va.toNat a.pages.length x → s'.machine.translate x = s.machine.translate x
  mapped : Ample s e → Translates s'.machine a

section

variable {R : Set Nat} {K X : Set (Nat × Nat)} {rf : Nat → Nat} {m m1 : Machine} {va prot : Nat}

/-- The pages `pas` are mapped one after the other from `va` on. -/
theorem mapPages_spec (pas : List Nat) (hO : Owned m1 R K rf) (hS : SameTables m m1) (hr : m.ttbr1 ∈ R) (h0 : m.ttbr1 ≠ 0) (hp : ProtOk prot)
    (hin : Inside va pas.length) : Remapped R K rf va pas.length m1 (mapPages m1 va prot pas) ∧
      (∀ x, InRange x → ¬ InPages va pas.length x → (mapPages m1 va prot pas).translate x = m.translate x) ∧
      (Room m1.pmm (missing m m.ttbr1 (pagePaths va pas.length)).card → ∀ i pa, pas[i]? = some pa →
        (mapPages m1 va prot pas).translate (va + i * pageSize) = mkPte prot pa) := by
  have hr1 : m1.ttbr1 ∈ R := hS.ttbr1 ▸ hr
  have hR := mapPages_remapped hp hO hr1 hin
  refine ⟨hR, fun x hx hn => (hR.other x hx hn).trans (hS.translate x), fun hroom => ?_⟩
  have hm : missing m1 m1.ttbr1 (pagePaths va pas.length) = missing m m.ttbr1 (pagePaths va pas.length) := by
    rw [missing, missing, hS.mem, hS.ttbr1]
  refine mapPages_room hp (k := 0) (S := pagePaths va pas.length) (fun q hq => length_pagePaths hq) hO hr1 (hS.ttbr1 ▸ h0) hin (fun i hi => ?_) ?_
  · exact Finset.subset_biUnion_of_mem (fun i => tablePaths (va + i * pageSize)) (Finset.mem_range.mpr hi)
  · rw [Nat.zero_add, hm]
    exact hroom

end

section

variable {R : Set Nat} {X : Set (Nat × Nat)} {rf : Nat → Nat} {lost lost' : List (Nat × Nat)} {s s' : Sys} {live live' : List Alloc}
  {before remain : Option Word} {size : Word}

/-! ## vmalloc -/

theorem Refused.refl (s : Sys) : Refused s s := ⟨fun _ => Iff.rfl, fun _ _ => rfl, SameTables.refl _, fun _ _ => Iff.rfl, rfl⟩

/-- The end of a `vmalloc` that fails: the memory of the record and the range are given back. -/
theorem vmalloc_fail (h : Ledger R X rf lost ⟨s, live⟩) {mgr : VmapManager} {va : Word} (hO : Orderly ⟨mgr, (va, size) :: live.map fun a => (a.va, a.size)⟩)
    (hN : NewArea s.mgr mgr va) {machine : Machine} (hM : Owned machine R (X ∪ {b | b ∈ held live ++ lost}) rf)
    (hS : SameTables s.machine machine) (hu : ∀ p k, Used machine.pmm p k ↔ Used s.machine.pmm p k) (link link' : Word) :
    ∃ s', ({ s with mgr := mgr, machine := machine } : Sys).vaFree va link link' = some s' ∧ Refused s s' ∧
      Ledger R X rf lost ⟨s', live⟩ := by
  obtain ⟨mgr', he, hO', hF⟩ := vaFree_spec hO va link link'
  obtain ⟨hb, ha⟩ := hN.freed hO hF
  have hR : Refused s { s with mgr := mgr', machine := machine } := ⟨hb, ha, hS, hu, rfl⟩
  refine ⟨_, by rw [Sys.vaFree]; dsimp only; rw [he]; rfl, hR, h.refused hR rfl hM ?_⟩
  refine Orderly.anti hO' fun e hm => List.mem_filter.mpr ⟨List.mem_cons_of_mem _ hm, ?_⟩
  exact decide_eq_true (hN.not_live hO h.ranges hm)

section

variable {vm array : Option Nat} {link link' va : Word} {mgr : VmapManager} {machine : Machine}

theorem kmalloc_machine (s : Sys) (answer : Option Nat) : (s.kmalloc answer).machine = s.machine := rfl

/-- Memory that was just handed out is given back. -/
theorem vmallocFail_eq (s : Sys) (mgr : VmapManager) (machine : Machine) (vm array : Option Nat) (va link link' : Word) :
    ({ (({ s with mgr := mgr } : Sys).kmalloc vm).kmalloc array with machine := machine } : Sys).vmallocFail vm array va link link' =
      (({ s with mgr := mgr, machine := machine } : Sys).vaFree va link link').map fun s => (s, 0) := by
  cases vm <;> cases array <;> simp [Sys.vmallocFail, Sys.kmalloc, Sys.kfree]

theorem vmalloc_none (h : s.mgr.vaAlloc size 0x1000 vaFlagVmalloc before remain = some (mgr, 0)) :
    s.vmalloc size before remain vm array link link' = some ({ s with mgr := mgr }, 0) := by
  unfold Sys.vmalloc Sys.vmallocNodeRange
  rw [h, Option.bind_some]
  rfl

theorem vmalloc_failed (h : s.mgr.vaAlloc size 0x1000 vaFlagVmalloc before remain = some (mgr, va)) (hne : va ≠ 0)
    (hno : (vm = none ∨ array = none) ∧ machine = s.machine ∨
      vm ≠ none ∧ array ≠ none ∧ allocPages s.machine [] (nrPages size) = (machine, none)) :
    s.vmalloc size before remain vm array link link' =
      (({ s with mgr := mgr, machine := machine } : Sys).vaFree va link link').map fun s => (s, 0) := by
  rw [← vmallocFail_eq s mgr machine vm array]
  unfold Sys.vmalloc Sys.vmallocNodeRange
  rw [h, Option.bind_some]
  dsimp only
  rw [if_neg hne]
  rcases hno with ⟨hno, rfl⟩ | ⟨hv, ha, hno⟩
  · cases vm with
    | none => rfl
    | some vm =>
      cases array with
      | none => rfl
      | some array => simp at hno
  · obtain ⟨v, rfl⟩ := Option.ne_none_iff_exists'.mp hv
    obtain ⟨a, rfl⟩ := Option.ne_none_iff_exists'.mp ha
    dsimp only
    rw [kmalloc_machine, kmalloc_machine, hno]

theorem vmalloc_ok (h : s.mgr.vaAlloc size 0x1000 vaFlagVmalloc before remain = some (mgr, va)) (hne : va ≠ 0) {self pagesArray : Nat}
    {pages : List Nat} (hp : allocPages s.machine [] (nrPages size) = (machine, some pages)) :
    s.vmalloc size before remain (some self) (some pagesArray) link link' =
      some ({ s with machine := mapPages machine va.toNat pageKernelRw pages, mgr := mgr, heap := pagesArray :: self :: s.heap,
                     vmList := s.vmList ++ [⟨self, pagesArray, va, pages⟩] }, va) := by
  unfold Sys.vmalloc Sys.vmallocNodeRange
  rw [h, Option.bind_some]
  dsimp only
  rw [if_neg hne, kmalloc_machine, kmalloc_machine, hp]
  rfl

end

/-- What an allocating call does: it is refused, or it hands out an allocation. -/
inductive Outcome (R : Set Nat) (X : Set (Nat × Nat)) (rf : Nat → Nat) (lost : List (Nat × Nat)) (s : Sys) (live : List Alloc) (e : Op) :
    Option (Sys × Word × Nat) → Prop where
  | refused {s' : Sys} {pa : Nat} : Refused s s' → Ledger R X rf lost ⟨s', live⟩ → Outcome R X rf lost s live e (some (s', 0, pa))
  | acquired {s' : Sys} {r : Word} {pa : Nat} {a : Alloc} : r ≠ 0 → e.promises s.machine r pa = [a] → Acquired s s' e a →
      Ledger R X rf lost ⟨s', a :: live⟩ → Outcome R X rf lost s live e (some (s', r, pa))

theorem mem_held_cons {a : Alloc} {b : Nat × Nat} : b ∈ held (a :: live) ++ lost ↔ b ∈ a.blocks ∨ b ∈ held live ++ lost := by
  rw [held, List.flatMap_cons, List.append_assoc, List.mem_append]

/-- Blocks that come to those of the ledger. -/
theorem Ledger.blocks_nodup (h : Ledger R X rf lost ⟨s, live⟩) {a : Alloc} (hnd : a.blocks.Nodup)
    (ha : ∀ b ∈ a.blocks, b ∉ X ∪ {b | b ∈ held live ++ lost}) : (held (a :: live) ++ lost).Nodup := by
  rw [held, List.flatMap_cons, List.append_assoc, List.nodup_append]
  refine ⟨hnd, h.nodup, fun b hb c hc e => ha b hb (Or.inr ?_)⟩
  rw [e]
  exact hc

theorem blocks_union (a : Alloc) : X ∪ {b | b ∈ held (a :: live) ++ lost} = X ∪ {b | b ∈ held live ++ lost} ∪ {b | b ∈ a.blocks} := by
  ext b
  simp only [Set.mem_union, Set.mem_ofPred_eq, mem_held_cons]
  tauto

/-- The frames of an allocation, where each of its pages has been mapped to one. -/
theorem Translates.of_mkPte {m : Machine} {a : Alloc} {prot : Nat} (hp : ProtOk prot)
    (h : ∀ i pa, a.pages[i]? = some pa → PageAddr pa ∧ m.translate (a.va.toNat + i * pageSize) = mkPte prot pa) : Translates m a := by
  intro i pa hi
  obtain ⟨hpa, he⟩ := h i pa hi
  rw [he]
  exact ⟨mkPte_present hp.valid, mkPte_pteToPhys hp hpa⟩

theorem Ledger.vmalloc (h : Ledger R X rf lost ⟨s, live⟩) (hf : Answers s.mgr before remain) (hs : size.toNat + 4095 < 2 ^ 64)
    (vm array : Option Nat) (link link' : Word) :
    Outcome R X rf lost s live (.vmalloc size before remain vm array link link')
      (s.call (.vmalloc size before remain vm array link link')) := by
  unfold Sys.call
  dsimp only
  rcases vaAlloc_spec h.ranges vaFlagVmalloc hf hs with he | ⟨mgr, va, he, hne, hpos, hO, hN⟩
  · rw [vmalloc_none he]
    exact .refused (Refused.refl s) h
  have hlen := toNat_nrPages hs
  have hin : Inside va.toNat (pagesOf size.toNat) := Orderly.inside hO (List.mem_cons_self ..)
  by_cases hno : vm = none ∨ array = none
  · obtain ⟨s', hv, hR, hL⟩ := vmalloc_fail h hO hN h.owned (SameTables.refl _) (fun _ _ => Iff.rfl) link link'
    rw [vmalloc_failed he hne (Or.inl ⟨hno, rfl⟩), hv]
    exact .refused hR hL
  rw [not_or] at hno
  rcases allocPages_cases h.owned (nrPages size) with ⟨m1, ha, hM, hS, hu⟩ | ⟨m1, ps, ha, hps, hM, hnd, hapart, hS, hroom⟩
  · obtain ⟨s', hv, hR, hL⟩ := vmalloc_fail h hO hN hM hS hu link link'
    rw [vmalloc_failed he hne (Or.inr ⟨hno.1, hno.2, ha⟩), hv]
    exact .refused hR hL
  obtain ⟨self, rfl⟩ := Option.ne_none_iff_exists'.mp hno.1
  obtain ⟨pagesArray, rfl⟩ := Option.ne_none_iff_exists'.mp hno.2
  rw [vmalloc_ok he hne ha]
  rw [← hlen, ← hps] at hin
  have hlt : ∀ p ∈ ps, p < totalPages := fun p hp => (hM.block p 0 (Or.inr (mem_pageBlocks.mpr ⟨hp, rfl⟩))).1
  have hblocks : (ps.map pfnToPa).map (fun pa => (paToPfn pa, 0)) = ps.map fun p => (p, 0) := by
    rw [List.map_map]
    exact List.map_congr_left fun p hp => Prod.ext (paToPfn_pfnToPa (hlt p hp)) rfl
  let a : Alloc := ⟨.vmalloc, va, size, ps.map pfnToPa, (ps.map pfnToPa).map fun pa => (paToPfn pa, 0)⟩
  have hab : a.blocks = ps.map fun p => (p, 0) := hblocks
  have hpl : a.pages.length = ps.length := List.length_map ..
  obtain ⟨hR, hother, hmap⟩ := mapPages_spec a.pages hM hS h.root h.enabled pageKernelRw_ok (hpl ▸ hin)
  have hX : ∀ b ∈ a.blocks, b ∉ X ∪ {b | b ∈ held live ++ lost} := by
    intro b hb
    rw [hab] at hb
    obtain ⟨p, hp, rfl⟩ := List.mem_map.mp hb
    exact hapart p hp
  refine .acquired (a := a) hne (by simp only [Op.promises, ha]; rfl) ⟨hN, hother, fun hA => ?_⟩ ?_
  · refine Translates.of_mkPte pageKernelRw_ok fun i pa hi => ⟨?_, hmap ?_ i pa hi⟩
    · obtain ⟨p, hp, rfl⟩ := List.mem_map.mp (List.mem_of_getElem? hi)
      exact pfnToPa_pageAddr (hlt p hp)
    · have hr := (hroom 0).mp (Room.zero _)
      rw [Nat.zero_add] at hr
      rw [hroom, hpl, hps]
      exact hA mgr va he hne hr
  · refine h.acquired ([VmStruct.record ⟨self, pagesArray, va, a.pages⟩]) ?_ (h.blocks_nodup ?_ hX)
      (fun b hb hm => hX b hb (Or.inl hm)) (hR.ttbr1.trans hS.ttbr1) hO hN ?_ ?_ ?_ (Or.inr ⟨_, rfl, ?_⟩) (List.Perm.refl _)
      (fun e => by cases e)
    · rw [blocks_union, hab]
      exact hR.owned
    · rw [hab]
      exact hnd.map fun p q e => (Prod.mk.inj e).1
    · rw [hpl, hps, hlen]
    · rw [hpl, hps, hlen]
      exact pagesOf_pos hpos
    · show ((s.vmList ++ [_]).map VmStruct.record ++ _).Perm _
      rw [List.map_append]
      exact List.perm_append_comm.append_right _
    · refine ⟨rfl, rfl, rfl, rfl, fun pa hpa => ?_⟩
      obtain ⟨p, hp, rfl⟩ := List.mem_map.mp hpa
      exact ⟨p, hlt p hp, rfl⟩

/-! ## ioremap -/

theorem NewArea.onPage {m m' : VmapManager} {va : Word} {L : List (Word × Word)} (h : NewArea m m' va) (hO : Orderly ⟨m', L⟩) :
    pageSize ∣ va.toNat ∧ InRange va.toNat := by
  obtain ⟨d, -, hb, rfl⟩ := h.busy
  have hin := Orderly.busy_inside hO (hb ▸ List.mem_cons_self ..)
  have h1 : (m'.areas d).vaStart.toNat < (m'.areas d).vaEnd.toNat := hin.nonempty
  have h2 : (m'.areas d).vaEnd.toNat ≤ vmallocEnd.toNat := hin.upper
  exact ⟨hin.start, hin.lower, by omega⟩

theorem toNat_offset (x : Word) : (x &&& 0xFFF).toNat = x.toNat % pageSize := by
  rw [BitVec.toNat_and]
  exact Nat.and_two_pow_sub_one_eq_mod x.toNat 12

theorem toNat_pageMask (x : Word) : (x &&& pageMask).toNat = x.toNat / pageSize * pageSize :=
  Vmap.toNat_and_not_low x 0xFFF (k := 12) rfl

theorem ioremap_eq (size phys : Word) (io : Option Nat) {mgr : VmapManager} {va : Word}
    (h : s.mgr.vaAlloc (size + (phys &&& 0xFFF)) 0x1000 vaFlagIoremap before remain = some (mgr, va)) (hne : va ≠ 0) :
    let n := nrPages (size + (phys &&& 0xFFF))
    s.ioremap phys size before remain io =
      some ({ s with
        mgr := mgr
        machine := mapPages s.machine va.toNat pageDevice
          ((List.range n).map fun i => ((phys &&& pageMask) + BitVec.ofNat 64 (i * 4096)).toNat)
        heap := io.toList ++ s.heap
        ioMapList := (io.map fun self => (⟨self, va, n⟩ : IoMapping)).toList ++ s.ioMapList }, va + (phys &&& 0xFFF)) := by
  unfold Sys.ioremap
  dsimp only
  rw [h, Option.map_some, if_neg hne]
  rfl

/-- The frames of a range of physical memory that does not reach the end of what an entry can hold. -/
theorem framesFrom_eq {phys : Word} {n : Nat} (h : phys.toNat / pageSize * pageSize + n * pageSize ≤ 2 ^ 48) :
    ((List.range n).map fun i => ((phys &&& pageMask) + BitVec.ofNat 64 (i * 4096)).toNat) =
      framesFrom (phys.toNat / pageSize * pageSize) n := by
  refine List.map_congr_left fun i hi => ?_
  have hi := List.mem_range.mp hi
  unfold pageSize at *
  rw [BitVec.toNat_add, toNat_pageMask, BitVec.toNat_ofNat]
  unfold pageSize
  omega

theorem getElem?_framesFrom {pa n i x : Nat} (h : (framesFrom pa n)[i]? = some x) : i < n ∧ x = pa + i * pageSize := by
  unfold framesFrom at h
  rw [List.getElem?_map] at h
  obtain ⟨j, hj, rfl⟩ := Option.map_eq_some_iff.mp h
  obtain ⟨hi, rfl⟩ := List.getElem?_eq_some_iff.mp hj
  rw [List.length_range] at hi
  rw [List.getElem_range]
  exact ⟨hi, rfl⟩

theorem length_framesFrom (pa n : Nat) : (framesFrom pa n).length = n := by rw [framesFrom, List.length_map, List.length_range]

theorem Ledger.ioremap (h : Ledger R X rf lost ⟨s, live⟩) (hf : Answers s.mgr before remain) {phys : Word}
    (hs : phys.toNat % pageSize + size.toNat + 4095 < 2 ^ 64) (io : Option Nat) :
    Outcome R X rf lost s live (.ioremap phys size before remain io) (s.call (.ioremap phys size before remain io)) := by
  have hsum : (size + (phys &&& 0xFFF)).toNat = phys.toNat % pageSize + size.toNat := by
    rw [BitVec.toNat_add, toNat_offset, Nat.mod_eq_of_lt (by omega), Nat.add_comm]
  have hs' : (size + (phys &&& 0xFFF)).toNat + 4095 < 2 ^ 64 := hsum ▸ hs
  unfold Sys.call
  dsimp only
  rcases vaAlloc_spec h.ranges vaFlagIoremap hf hs' with he | ⟨mgr, va, he, hne, hpos, hO, hN⟩
  · have hv : s.ioremap phys size before remain io = some (s, 0) := by
      unfold Sys.ioremap
      dsimp only
      rw [he]
      rfl
    rw [hv]
    exact .refused (Refused.refl s) h
  have hlen := toNat_nrPages hs'
  have hin : Inside va.toNat (pagesOf (size + (phys &&& 0xFFF)).toNat) := Orderly.inside hO (List.mem_cons_self ..)
  rw [ioremap_eq size phys io he hne]
  rw [← hlen] at hin
  obtain ⟨hpage, hrange⟩ := hN.onPage hO
  have hoff := toNat_offset phys
  generalize hn : nrPages (size + (phys &&& 0xFFF)) = n at *
  let pas := (List.range n).map fun i => ((phys &&& pageMask) + BitVec.ofNat 64 (i * 4096)).toNat
  let a : Alloc := ⟨.ioremap, va, size + (phys &&& 0xFFF), framesFrom (phys.toNat / pageSize * pageSize) n, []⟩
  have hpl : pas.length = n := by rw [List.length_map, List.length_range]
  have hal : a.pages.length = n := length_framesFrom ..
  have hK : X ∪ {b | b ∈ held (a :: live) ++ lost} = X ∪ {b | b ∈ held live ++ lost} := rfl
  obtain ⟨hR, hother, hmap⟩ := mapPages_spec pas h.owned (SameTables.refl _) h.root h.enabled pageDevice_ok
    (hpl.symm ▸ hin)
  rw [hpl] at hR hother hmap
  refine .acquired (a := a) ?_ ?_ ⟨hN, fun x hx hx' => hother x hx (hal ▸ hx'), fun hA => ?_⟩ ?_
  · intro h0
    have h1 := congrArg BitVec.toNat h0
    have h2 : vmallocStart.toNat ≤ va.toNat := hrange.1
    have h3 : va.toNat < vmallocEnd.toNat := hrange.2
    have h4 : (0 : Word).toNat = 0 := rfl
    have h5 : 0 < vmallocStart.toNat := by decide
    have h6 : vmallocEnd.toNat + 4096 < 2 ^ 64 := by decide
    rw [BitVec.toNat_add, hoff, h4] at h1
    unfold pageSize at h1
    omega
  · simp only [Op.promises, add_sub_cancel_right]
    rw [← hsum, ← hlen]
  · obtain ⟨hlow, hroom⟩ := hA mgr va he hne
    rw [hn] at hlow hroom
    refine Translates.of_mkPte pageDevice_ok fun i pa hi => ?_
    obtain ⟨hi', rfl⟩ := getElem?_framesFrom hi
    refine ⟨⟨Nat.dvd_add (Nat.dvd_mul_left ..) (Nat.dvd_mul_left ..), ?_⟩, hmap hroom i _ ?_⟩
    · unfold pageSize at *
      omega
    · show ((List.range n).map _)[i]? = _
      rw [framesFrom_eq hlow]
      exact hi
  · refine h.acquired ((io.map fun self => IoMapping.record ⟨self, va, n⟩).toList) ?_ (h.blocks_nodup List.nodup_nil ?_) ?_
      hR.ttbr1 hO hN (hal.trans hlen) (hal.trans hlen ▸ pagesOf_pos hpos) ?_ ?_ ?_ (fun _ => rfl)
    · rw [hK]
      exact hR.owned
    · exact fun b hb => by cases hb
    · exact fun b hb => by cases hb
    · cases io with
      | none => exact List.Perm.refl _
      | some self => exact List.perm_middle
    · cases io with
      | none => exact Or.inl ⟨rfl, fun e => by cases e⟩
      | some self => exact Or.inr ⟨_, rfl, rfl, rfl, hal.symm, rfl, fun pa hpa => by cases hpa⟩
    · cases io <;> exact List.Perm.refl _

/-! ## dma_alloc_coherent -/

theorem le_orderFrom {pages : Nat} : ∀ {fuel order : Nat}, pages ≤ 2 ^ (order + fuel) → pages ≤ 2 ^ orderFrom pages fuel order := by
  intro fuel
  induction fuel with
  | zero => exact fun h => h
  | succ fuel ih =>
    intro order h
    unfold orderFrom
    split
    · exact ih (by rwa [Nat.add_right_comm])
    · next hlt =>
      rw [Nat.one_shiftLeft] at hlt
      exact Nat.not_lt.mp hlt

/-- The block is large enough. -/
theorem le_dmaOrder {pages : Nat} (h : pages ≤ 2 ^ 64) : pages ≤ 2 ^ dmaOrder pages := le_orderFrom (by rwa [Nat.zero_add])

theorem nrPages_lt (size : Word) : nrPages size < 2 ^ 52 := by
  unfold nrPages
  rw [BitVec.toNat_udiv]
  have := (size + 4095).isLt
  show _ / 4096 < _
  omega

/-- A size that wraps has no pages. -/
theorem no_wrap {size : Word} (h : nrPages size ≠ 0) : size.toNat + 4095 < 2 ^ 64 := by
  by_contra hlt
  refine h ?_
  unfold nrPages
  rw [BitVec.toNat_udiv, BitVec.toNat_add, show (4095 : Word).toNat = 4095 from rfl, show (4096 : Word).toNat = 4096 from rfl]
  have := size.isLt
  omega

theorem toNat_pageBytes {n : Nat} (h : n < 2 ^ 52) : (BitVec.ofNat 64 (n * 4096)).toNat = n * 4096 := by
  rw [BitVec.toNat_ofNat]
  exact Nat.mod_eq_of_lt (by omega)

/-- A range that was large enough for more bytes. -/
theorem Orderly.shrink {m : VmapManager} {L : List (Word × Word)} {va big size : Word} (h : Orderly ⟨m, (va, big) :: L⟩)
    (hle : size.toNat ≤ big.toNat) : Orderly ⟨m, (va, size) :: L⟩ := by
  refine ⟨h.linked, h.tidy, fun e he => ?_⟩
  rcases List.mem_cons.mp he with rfl | he
  · obtain ⟨d, hd, h1, h2⟩ := h.serves _ (List.mem_cons_self ..)
    exact ⟨d, hd, h1, BitVec.le_trans hle h2⟩
  · exact h.serves e (List.mem_cons_of_mem _ he)

section

variable {dma : Option Nat} {mgr : VmapManager} {va : Word}

theorem dmaAlloc_noBlock (h : (allocPhysPages s.machine.pmm (dmaOrder (nrPages size)) gfpDma).2 = 0) :
    s.dmaAllocCoherent size before remain dma =
      some ({ s with machine := { s.machine with pmm := (allocPhysPages s.machine.pmm (dmaOrder (nrPages size)) gfpDma).1 } }, 0, 0) := by
  unfold Sys.dmaAllocCoherent
  dsimp only
  rw [if_pos h]

theorem dmaAlloc_noRange {pa : Nat} (h : (allocPhysPages s.machine.pmm (dmaOrder (nrPages size)) gfpDma).2 = pa) (hne : pa ≠ 0)
    (he : s.mgr.vaAlloc (BitVec.ofNat 64 (nrPages size * 4096)) 0x1000 vaFlagIoremap before remain = some (mgr, 0)) :
    s.dmaAllocCoherent size before remain dma =
      some ({ s with
        mgr := mgr
        machine := { s.machine with
          pmm := (allocPhysPages s.machine.pmm (dmaOrder (nrPages size)) gfpDma).1 }.freePhysPages pa (dmaOrder (nrPages size)) },
        0, pa) := by
  subst h
  unfold Sys.dmaAllocCoherent
  dsimp only
  rw [if_neg hne, he]
  rfl

theorem dmaAlloc_ok {pa : Nat} (h : (allocPhysPages s.machine.pmm (dmaOrder (nrPages size)) gfpDma).2 = pa) (hne : pa ≠ 0)
    (he : s.mgr.vaAlloc (BitVec.ofNat 64 (nrPages size * 4096)) 0x1000 vaFlagIoremap before remain = some (mgr, va)) (hva : va ≠ 0) :
    s.dmaAllocCoherent size before remain dma =
      some ({ s with
        mgr := mgr
        machine := mapPages { s.machine with pmm := (allocPhysPages s.machine.pmm (dmaOrder (nrPages size)) gfpDma).1 } va.toNat
          pageDma (framesFrom pa (nrPages size))
        heap := dma.toList ++ s.heap
        dmaMapList :=
          (dma.map fun self => (⟨self, va, pa, nrPages size, dmaOrder (nrPages size)⟩ : DmaMapping)).toList ++ s.dmaMapList },
        va, pa) := by
  subst h
  unfold Sys.dmaAllocCoherent
  dsimp only
  rw [if_neg hne, he, Option.map_some, if_neg hva]
  rfl

end

theorem NewBlock.used_freed {m m' : Machine} {R : Set Nat} {K : Set (Nat × Nat)} {rf : Nat → Nat} {p k : Nat}
    (h : NewBlock m m' R K rf p k) (q j : Nat) : (Used m'.pmm q j ∧ q ≠ p) ↔ Used m.pmm q j := by
  rw [h.alloc.used]
  constructor
  · intro hq
    exact hq.1.resolve_right fun e => hq.2 e.1
  · intro hq
    refine ⟨Or.inl hq, fun e => ?_⟩
    subst e
    exact h.alloc.fresh q j q hq (by have := Nat.two_pow_pos j; unfold Covers; omega)
      (by have := Nat.two_pow_pos k; unfold Covers; omega)

theorem insert_block {a : Alloc} {b : Nat × Nat} (hab : a.blocks = [b]) :
    X ∪ {b | b ∈ held (a :: live) ++ lost} = insert b (X ∪ {b | b ∈ held live ++ lost}) := by
  rw [blocks_union, hab]
  ext c
  simp only [Set.mem_union, Set.mem_ofPred_eq, List.mem_singleton, Set.mem_insert_iff]
  exact or_comm

/-- The buffer of a call that gets a block and a range. -/
theorem Ledger.dmaMapped (h : Ledger R X rf lost ⟨s, live⟩) {m1 : Machine} {p k n : Nat} {mgr : VmapManager} {va : Word}
    (hB : NewBlock s.machine m1 R (X ∪ {b | b ∈ held live ++ lost}) rf p k) (hnk : n ≤ 2 ^ k) (hn : n = pagesOf size.toNat) (hpos : 0 < n)
    (hO : Orderly ⟨mgr, (va, size) :: live.map fun a => (a.va, a.size)⟩) (hN : NewArea s.mgr mgr va) (dma : Option Nat) :
    let a : Alloc := ⟨.dma, va, size, framesFrom (pfnToPa p) n, [(paToPfn (pfnToPa p), k)]⟩
    let s' : Sys := { s with
      mgr := mgr
      machine := mapPages m1 va.toNat pageDma (framesFrom (pfnToPa p) n)
      heap := dma.toList ++ s.heap
      dmaMapList := (dma.map fun self => (⟨self, va, pfnToPa p, n, k⟩ : DmaMapping)).toList ++ s.dmaMapList }
    (∀ x, InRange x → ¬ InPages a.va.toNat a.pages.length x → s'.machine.translate x = s.machine.translate x) ∧
      (Room s.machine.pmm ((missing s.machine s.machine.ttbr1 (pagePaths va.toNat n)).card + 2 ^ k) → Translates s'.machine a) ∧
      Ledger R X rf lost ⟨s', a :: live⟩ := by
  intro a s'
  have hS : SameTables s.machine m1 := NewBlock.tables hB
  have hused := hB.owned.block p k (Set.mem_insert _ _)
  have hab : a.blocks = [(p, k)] := by
    show [(paToPfn (pfnToPa p), k)] = _
    rw [paToPfn_pfnToPa hused.1]
  have hal : a.pages.length = n := length_framesFrom ..
  have hX : ∀ b ∈ a.blocks, b ∉ X ∪ {b | b ∈ held live ++ lost} := by
    intro b hb
    rw [hab, List.mem_singleton] at hb
    exact hb ▸ hB.fresh
  have hin : Inside va.toNat (pagesOf size.toNat) := Orderly.inside hO (List.mem_cons_self ..)
  obtain ⟨hR, hother, hmap⟩ := mapPages_spec a.pages hB.owned hS h.root h.enabled pageDma_ok
    (hal.symm ▸ hn.symm ▸ hin)
  refine ⟨hother, fun hroom => Translates.of_mkPte pageDma_ok fun i pa hi => ?_, ?_⟩
  · obtain ⟨hi', rfl⟩ := getElem?_framesFrom hi
    refine ⟨?_, hmap (room_allocAt (hal.symm ▸ hroom) hB.alloc) i _ hi⟩
    have hpi : pfnToPa p + i * pageSize = pfnToPa (p + i) := by
      rw [pfnToPa_eq, pfnToPa_eq, Nat.add_mul, Nat.add_assoc]
    have := hB.alloc.hi
    exact hpi ▸ pfnToPa_pageAddr (by omega)
  · refine h.acquired ((dma.map fun self => DmaMapping.record ⟨self, va, pfnToPa p, n, k⟩).toList) ?_ (h.blocks_nodup ?_ hX)
      (fun b hb hm => hX b hb (Or.inl hm)) (hR.ttbr1.trans hS.ttbr1) hO hN (hal.trans hn) (hal.symm ▸ hpos) ?_ ?_ ?_ (fun e => by cases e)
    · rw [insert_block hab]
      exact hR.owned
    · rw [hab]
      exact List.nodup_singleton _
    · cases dma with
      | none => exact List.Perm.refl _
      | some self =>
        show (s.vmList.map VmStruct.record ++ (s.ioMapList.map IoMapping.record ++ _ :: s.dmaMapList.map DmaMapping.record)).Perm
          (_ :: (s.vmList.map VmStruct.record ++ (s.ioMapList.map IoMapping.record ++ s.dmaMapList.map DmaMapping.record)))
        rw [← List.append_assoc, ← List.append_assoc]
        exact List.perm_middle
    · cases dma with
      | none => exact Or.inl ⟨rfl, fun e => by cases e⟩
      | some self =>
        refine Or.inr ⟨_, rfl, rfl, rfl, hal.symm, rfl, fun pa hpa => ?_⟩
        exact ⟨p, hused.1, List.mem_singleton.mp hpa⟩
    · cases dma <;> exact List.Perm.refl _

theorem Ledger.dmaAllocCoherent (h : Ledger R X rf lost ⟨s, live⟩) (hf : Answers s.mgr before remain) (dma : Option Nat) :
    Outcome R X rf lost s live (.dmaAllocCoherent size before remain dma) (s.call (.dmaAllocCoherent size before remain dma)) := by
  unfold Sys.call
  dsimp only
  rcases h.owned.alloc (dmaOrder (nrPages size)) gfpDma with ⟨⟨e, he⟩, -⟩ | ⟨p, hpa, hB⟩
  · have hz : (allocPhysPages s.machine.pmm (dmaOrder (nrPages size)) gfpDma).2 = 0 := congrArg Prod.snd he
    have hR : Refused s { s with machine := { s.machine with pmm := Pmm.setError s.machine.pmm e } } :=
      ⟨fun _ => Iff.rfl, fun _ _ => rfl, ⟨rfl, rfl, rfl, rfl⟩, fun _ _ => Iff.rfl, rfl⟩
    rw [dmaAlloc_noBlock hz, he]
    exact .refused hR (h.refused hR rfl (h.owned.setError e) h.ranges)
  have hp0 := pfnToPa_ne_zero p
  have hlt := nrPages_lt size
  have hbytes := toNat_pageBytes hlt
  have hfit : (BitVec.ofNat 64 (nrPages size * 4096)).toNat + 4095 < 2 ^ 64 := by omega
  rcases vaAlloc_spec h.ranges vaFlagIoremap hf hfit with
    he | ⟨mgr, va, he, hne, hpos, hO, hN⟩
  · rw [dmaAlloc_noRange hpa hp0 he]
    obtain ⟨ho, hS', hu⟩ := freeBlock_tables hB.owned hB.fresh
    have hR : Refused s { s with machine := { s.machine with
        pmm := (allocPhysPages s.machine.pmm (dmaOrder (nrPages size)) gfpDma).1 }.freePhysPages (pfnToPa p) (dmaOrder (nrPages size)) } :=
      ⟨fun _ => Iff.rfl, fun _ _ => rfl, (NewBlock.tables hB).trans hS', fun q k => (hu q k).trans (NewBlock.used_freed hB q k), rfl⟩
    exact .refused hR (h.refused hR rfl ho h.ranges)
  have hsz : size.toNat + 4095 < 2 ^ 64 := no_wrap fun h0 => by
    rw [h0, Nat.zero_mul] at he
    exact hne (Prod.mk.inj (Option.some.inj he)).2.symm
  have hlen := toNat_nrPages hsz
  have hO' : Orderly ⟨mgr, (va, size) :: live.map fun a => (a.va, a.size)⟩ := Orderly.shrink hO (by
    rw [hbytes, hlen]
    unfold pagesOf
    omega)
  obtain ⟨hother, hmap, hL⟩ := h.dmaMapped hB (le_dmaOrder (by omega)) hlen (by omega) hO' hN dma
  rw [dmaAlloc_ok hpa hp0 he hne]
  refine .acquired hne ?_ ⟨hN, hother, fun hA => hmap (hA mgr va he hne (hpa ▸ hp0))⟩ hL
  simp only [Op.promises, ← hlen]

end

end Myos.Vmalloc
