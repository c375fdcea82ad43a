/-
  Myos.Vmap.Manager — the manager of the vmalloc range (vmap.c): free areas on a list by
  address and in a tree by size, busy areas on a list of their own.

  A descriptor is named by its address. `kmalloc` is an answer that comes with the call (NULL
  or a descriptor in no list), `kfree` overwrites the first word of the descriptor, `va_start`,
  with the link it gets in its slab. An operation is `none` where the tree's loops would leave
  the tree (`RedBlack`).

  Proved: as long as `kmalloc` hands out descriptors in no list, no operation does, and the tree
  and the list keep holding the same areas, the tree in its order, whatever sizes, alignments
  and addresses the calls get.
-/

import Myos.Lib.RedBlack

namespace Myos.Vmap

open Lib

abbrev Word := BitVec 64

def vmallocStart : Word := 0xffff000000000000#64
def vmallocEnd : Word := 0xffff001000000000#64
def vaAlignDefault : Word := 0x1000#64

structure VmapArea where
  vaStart : Word
  vaEnd : Word
  flags : Word
  deriving DecidableEq, Repr

structure VmapManager where
  areas : Word → VmapArea
  freeTree : RedBlack.Tree Word
  freeList : List Word
  busyList : List Word
  totalFree : Word
  nrBusy : Word

def vaSize (va : VmapArea) : Word := va.vaEnd - va.vaStart

/-- By size, then by address. -/
def vaCompareSize (a b : VmapArea) : Ordering :=
  if vaSize a < vaSize b then .lt
  else if vaSize a > vaSize b then .gt
  else if a.vaStart < b.vaStart then .lt
  else if a.vaStart > b.vaStart then .gt
  else .eq

def treeLt (areas : Word → VmapArea) (a b : Word) : Bool := vaCompareSize (areas a) (areas b) = .lt

/-- In front of the first area that starts higher. -/
def listInsert (areas : Word → VmapArea) (va : Word) : List Word → List Word
  | [] => [va]
  | tmp :: l => if (areas tmp).vaStart > (areas va).vaStart then va :: tmp :: l else tmp :: listInsert areas va l

namespace VmapManager

def vaInsertFree (m : VmapManager) (va : Word) : Option VmapManager :=
  (RedBlack.insert (treeLt m.areas) va m.freeTree).map fun t =>
    { m with freeTree := t, freeList := listInsert m.areas va m.freeList }

def vaRemoveFree (m : VmapManager) (va : Word) : Option VmapManager :=
  (RedBlack.delete va m.freeTree).map fun t => { m with freeTree := t, freeList := m.freeList.erase va }

/-- The smallest area of the list that is large enough, the first of its size. -/
def bestFit (areas : Word → VmapArea) (size : Word) : Option Word → List Word → Option Word
  | best, [] => best
  | best, va :: l =>
    if vaSize (areas va) ≥ size ∧ best.all (fun b => vaSize (areas va) < vaSize (areas b)) then bestFit areas size (some va) l
    else bestFit areas size best l

def vaFindBestFit (m : VmapManager) (size : Word) : Option Word :=
  match RedBlack.search (fun va => vaCompareSize ⟨0, size, 0⟩ (m.areas va)) m.freeTree with
  | some va => some va
  | none => bestFit m.areas size none m.freeList

def vaFindByAddr (m : VmapManager) (addr : Word) : Option Word :=
  m.busyList.find? fun va => (m.areas va).vaStart = addr

def vaFindPrevFree (m : VmapManager) (addr : Word) : Option Word :=
  (m.freeList.takeWhile fun va => (m.areas va).vaEnd ≤ addr).getLast?

def vaFindNextFree (m : VmapManager) (addr : Word) : Option Word :=
  m.freeList.find? fun va => (m.areas va).vaStart > addr

def setArea (m : VmapManager) (va : Word) (a : VmapArea) : VmapManager :=
  { m with areas := Function.update m.areas va a }

def kfree (m : VmapManager) (va link : Word) : VmapManager := m.setArea va { m.areas va with vaStart := link }

/-! ## Init -/

def vaManagerInit (initArea : Word) : Option VmapManager :=
  let m : VmapManager := ⟨fun _ => ⟨0, 0, 0⟩, .nil, [], [], vmallocEnd - vmallocStart, 0⟩
  (m.setArea initArea ⟨vmallocStart, vmallocEnd, 0⟩).vaInsertFree initArea

/-! ## Allocation -/

def alignUp (x align : Word) : Word := (x + align - 1) &&& ~~~(align - 1)

/-- The piece in front of the first aligned address goes back, if it gets a descriptor. -/
def splitFront (m : VmapManager) (va align : Word) (before : Option Word) : Option VmapManager :=
  let a := m.areas va
  let alignedStart := alignUp a.vaStart align
  if alignedStart - a.vaStart > 0 then
    (match before with
      | none => some m
      | some b => (m.setArea b ⟨a.vaStart, alignedStart, 0⟩).vaInsertFree b).map fun (m : VmapManager) =>
      m.setArea va { m.areas va with vaStart := alignedStart }
  else some m

/-- The piece behind goes back, if it is worth it and gets a descriptor. -/
def splitBack (m : VmapManager) (va size : Word) (remain : Option Word) : Option VmapManager :=
  let a := m.areas va
  if vaSize a > size + vaAlignDefault then
    match remain with
    | none => some m
    | some r =>
      ((m.setArea r ⟨a.vaStart + size, a.vaEnd, 0⟩).setArea va { a with vaEnd := a.vaStart + size }).vaInsertFree r
  else some m

def markBusy (m : VmapManager) (va flags : Word) : VmapManager :=
  let m := m.setArea va { m.areas va with flags := flags }
  { m with
    busyList := va :: m.busyList
    nrBusy := m.nrBusy + 1
    totalFree := m.totalFree - vaSize (m.areas va) }

/-- `before` and `remain` are what `kmalloc` answers where it is called; 0 is NULL. -/
def vaAlloc (m : VmapManager) (size align flags : Word) (before remain : Option Word) : Option (VmapManager × Word) :=
  if size = 0 then some (m, 0)
  else
    let align := if align < vaAlignDefault then vaAlignDefault else align
    let size := alignUp size vaAlignDefault
    match m.vaFindBestFit size with
    | none => some (m, 0)
    | some va =>
      (((m.vaRemoveFree va).bind fun m => m.splitFront va align before).bind fun m => m.splitBack va size remain).map
        fun m => (m.markBusy va flags, (m.areas va).vaStart)

/-! ## Freeing -/

/-- Merges the area in hand into the free area in front of it, whose descriptor is then the
    one in hand. -/
def mergePrev (m : VmapManager) (va link : Word) : Option (VmapManager × Word) :=
  match m.vaFindPrevFree (m.areas va).vaStart with
  | none => some (m, va)
  | some prev =>
    if (m.areas prev).vaEnd = (m.areas va).vaStart then
      (m.vaRemoveFree prev).map fun m =>
        ((m.setArea prev { m.areas prev with vaEnd := (m.areas va).vaEnd }).kfree va link, prev)
    else some (m, va)

def mergeNext (m : VmapManager) (va link : Word) : Option VmapManager :=
  match m.vaFindNextFree (m.areas va).vaEnd with
  | none => some m
  | some next =>
    if (m.areas va).vaEnd = (m.areas next).vaStart then
      (m.vaRemoveFree next).map fun m =>
        (m.setArea va { m.areas va with vaEnd := (m.areas next).vaEnd }).kfree next link
    else some m

/-- `link` and `link'` are what the two calls of `kfree` write. -/
def vaFree (m : VmapManager) (addr link link' : Word) : Option VmapManager :=
  if addr = 0 then some m
  else
    match m.vaFindByAddr addr with
    | none => some m
    | some va =>
      (mergePrev { m with busyList := m.busyList.erase va, nrBusy := m.nrBusy - 1 } va link).bind fun (m, toInsert) =>
        (m.mergeNext toInsert link').bind fun m =>
          { m with totalFree := m.totalFree + vaSize (m.areas va) }.vaInsertFree toInsert

end VmapManager

/-! ## Runs -/

inductive Op where
  | alloc (size align flags : Word) (before remain : Option Word)
  | free (addr link link' : Word)
  deriving DecidableEq, Repr

/-- The manager with the addresses it has returned and not got back, and the size each was
    asked for. -/
structure State where
  mgr : VmapManager
  live : List (Word × Word)

def step (s : State) : Op → Option State
  | .alloc size align flags before remain =>
    (s.mgr.vaAlloc size align flags before remain).map fun (m, r) =>
      ⟨m, if r = 0 then s.live else (r, size) :: s.live⟩
  | .free addr link link' =>
    (s.mgr.vaFree addr link link').map fun m => ⟨m, s.live.filter fun e => e.1 ≠ addr⟩

/-- After `va_manager_init`, whose `kmalloc` has answered `initArea`. -/
def Boot (s : State) : Prop := ∃ initArea, initArea ≠ 0 ∧ VmapManager.vaManagerInit initArea = some s.mgr ∧ s.live = []

/-- A descriptor that `kmalloc` hands out is in no list; NULL is none. -/
def VmapManager.Fresh (m : VmapManager) (d : Word) : Prop := d ≠ 0 ∧ d ∉ m.freeList ∧ d ∉ m.busyList

def Fresh (s : State) : Op → Prop
  | .alloc _ _ _ before remain =>
    (∀ d, before = some d → s.mgr.Fresh d) ∧ ∀ d, remain = some d → s.mgr.Fresh d ∧ before ≠ remain
  | .free _ _ _ => True


namespace VmapManager

variable {m m' : VmapManager} {hand : List Word} {va : Word}

/-! ## The order of the tree -/

theorem vaCompareSize_lt {a b : VmapArea} : vaCompareSize a b = .lt ↔
    (vaSize a).toNat < (vaSize b).toNat ∨ (vaSize a).toNat = (vaSize b).toNat ∧ a.vaStart.toNat < b.vaStart.toNat := by
  simp only [vaCompareSize, BitVec.lt_def, gt_iff_lt]
  split
  · simp [*]
  · split
    · simp; omega
    · split
      · simp; omega
      · split <;> simp <;> omega

/-- The order that insertion keeps: not behind. -/
def treeLe (areas : Word → VmapArea) (a b : Word) : Prop := vaCompareSize (areas b) (areas a) ≠ .lt

theorem treeLe_trans (areas : Word → VmapArea) (a b c : Word) (h1 : treeLe areas a b) (h2 : treeLe areas b c) :
    treeLe areas a c := by
  simp only [treeLe, ne_eq, vaCompareSize_lt] at *
  omega

theorem treeLe_of (areas : Word → VmapArea) (z k : Word) :
    if treeLt areas z k then treeLe areas z k else treeLe areas k z := by
  simp only [treeLt, treeLe, ne_eq, vaCompareSize_lt, decide_eq_true_eq]
  split <;> omega

/-! ## The list by address -/

theorem listInsert_perm (areas : Word → VmapArea) (va : Word) (l : List Word) : (listInsert areas va l).Perm (va :: l) := by
  induction l with
  | nil => exact List.Perm.refl _
  | cons tmp l ih =>
    rw [listInsert]
    split
    · exact List.Perm.refl _
    · exact (ih.cons tmp).trans (List.Perm.swap ..)

theorem mem_listInsert {areas : Word → VmapArea} {va d : Word} {l : List Word} : d ∈ listInsert areas va l ↔ d = va ∨ d ∈ l := by
  rw [(listInsert_perm areas va l).mem_iff, List.mem_cons]

/-! ## List and tree -/

/-- The free list and the tree hold the same areas, and no area is in two places. `hand` are
    the areas an operation has taken out and not put back yet. -/
structure Linked (m : VmapManager) (hand : List Word) : Prop where
  tree : RedBlack.Ordered (treeLe m.areas) m.freeTree
  same : m.freeTree.toList.Perm m.freeList
  nodup : (hand ++ (m.freeList ++ m.busyList)).Nodup

theorem Linked.insertFree (h : Linked m (va :: hand)) : ∃ t,
    m.vaInsertFree va = some { m with freeTree := t, freeList := listInsert m.areas va m.freeList } ∧
      Linked { m with freeTree := t, freeList := listInsert m.areas va m.freeList } hand := by
  obtain ⟨t, ht, ho, hp⟩ := h.tree.insert (treeLe_trans m.areas) fun k _ => treeLe_of m.areas va k
  have hl := listInsert_perm m.areas va m.freeList
  refine ⟨t, by rw [vaInsertFree, ht]; rfl, ho, hp.trans ((h.same.cons va).trans hl.symm), ?_⟩
  refine (List.Perm.nodup_iff ?_).mpr h.nodup
  exact ((hl.append_right _).append_left _).trans List.perm_middle

theorem Linked.removeFree (h : Linked m hand) (hm : va ∈ m.freeList) : ∃ t,
    m.vaRemoveFree va = some { m with freeTree := t, freeList := m.freeList.erase va } ∧
      Linked { m with freeTree := t, freeList := m.freeList.erase va } (va :: hand) := by
  obtain ⟨t, ht, ho, hp⟩ := h.tree.delete (h.same.mem_iff.mpr hm)
  have hl := List.perm_cons_erase hm
  refine ⟨t, by rw [vaRemoveFree, ht]; rfl, ho, ?_, ?_⟩
  · exact (hp.symm.trans (h.same.trans hl)).cons_inv
  · refine (List.Perm.nodup_iff ?_).mpr h.nodup
    exact List.perm_middle.symm.trans ((hl.symm.append_right _).append_left _)

theorem Linked.not_free (h : Linked m (va :: hand)) : va ∉ m.freeList := fun hm => by
  have := h.nodup
  rw [List.cons_append, List.nodup_cons] at this
  exact this.1 (List.mem_append_right _ (List.mem_append_left _ hm))

theorem Linked.not_busy (h : Linked m (va :: hand)) : va ∉ m.busyList := fun hm => by
  have := h.nodup
  rw [List.cons_append, List.nodup_cons] at this
  exact this.1 (List.mem_append_right _ (List.mem_append_right _ hm))

/-- What an area outside the tree holds does not matter to it. -/
theorem Linked.setArea (h : Linked m hand) (hm : va ∉ m.freeList) (a : VmapArea) : Linked (m.setArea va a) hand := by
  have hr : ∀ d ∈ m.freeTree.toList, Function.update m.areas va a d = m.areas d := fun d hd =>
    Function.update_of_ne (by rintro rfl; exact hm (h.same.mem_iff.mp hd)) _ _
  refine ⟨⟨h.tree.balanced, ?_⟩, h.same, h.nodup⟩
  refine h.tree.sorted.imp_of_mem fun {c d} hc hd hcd => ?_
  show vaCompareSize (Function.update m.areas va a d) (Function.update m.areas va a c) ≠ .lt
  rw [hr c hc, hr d hd]
  exact hcd

theorem Linked.take (h : Linked m hand) {d : Word} (hf : m.Fresh d) (hh : d ∉ hand) : Linked m (d :: hand) := by
  refine ⟨h.tree, h.same, ?_⟩
  rw [List.cons_append, List.nodup_cons]
  refine ⟨fun hm => ?_, h.nodup⟩
  rcases List.mem_append.mp hm with hm | hm
  · exact hh hm
  · exact (List.mem_append.mp hm).elim hf.2.1 hf.2.2

theorem Linked.drop (h : Linked m (va :: hand)) : Linked m hand :=
  ⟨h.tree, h.same, (List.nodup_cons.mp h.nodup).2⟩

@[simp] theorem setArea_freeList (m : VmapManager) (va : Word) (a : VmapArea) : (m.setArea va a).freeList = m.freeList := rfl
@[simp] theorem setArea_busyList (m : VmapManager) (va : Word) (a : VmapArea) : (m.setArea va a).busyList = m.busyList := rfl
@[simp] theorem setArea_totalFree (m : VmapManager) (va : Word) (a : VmapArea) : (m.setArea va a).totalFree = m.totalFree := rfl
@[simp] theorem setArea_nrBusy (m : VmapManager) (va : Word) (a : VmapArea) : (m.setArea va a).nrBusy = m.nrBusy := rfl
@[simp] theorem setArea_areas (m : VmapManager) (va : Word) (a : VmapArea) :
    (m.setArea va a).areas = Function.update m.areas va a := rfl

/-! ## What the steps of an operation do -/

/-- A descriptor gets its bounds and goes on the list and into the tree; nothing else changes. -/
structure Inserted (m : VmapManager) (d : Word) (a : VmapArea) (m' : VmapManager) : Prop where
  areas : m'.areas = Function.update m.areas d a
  freeList : m'.freeList = listInsert m'.areas d m.freeList
  busyList : m'.busyList = m.busyList
  totalFree : m'.totalFree = m.totalFree
  nrBusy : m'.nrBusy = m.nrBusy

/-- An area is taken off the list and out of the tree. -/
structure Removed (m : VmapManager) (d : Word) (m' : VmapManager) : Prop where
  mem : d ∈ m.freeList
  areas : m'.areas = m.areas
  freeList : m'.freeList = m.freeList.erase d
  busyList : m'.busyList = m.busyList
  totalFree : m'.totalFree = m.totalFree
  nrBusy : m'.nrBusy = m.nrBusy

theorem Linked.inserted (h : Linked m (va :: hand)) (a : VmapArea) : ∃ m', (m.setArea va a).vaInsertFree va = some m' ∧
    Linked m' hand ∧ Inserted m va a m' := by
  obtain ⟨t, ht, h'⟩ := (h.setArea h.not_free a).insertFree
  exact ⟨_, ht, h', rfl, rfl, rfl, rfl, rfl⟩

theorem Linked.removed (h : Linked m hand) (hm : va ∈ m.freeList) : ∃ m', m.vaRemoveFree va = some m' ∧
    Linked m' (va :: hand) ∧ Removed m va m' := by
  obtain ⟨t, ht, h'⟩ := h.removeFree hm
  exact ⟨_, ht, h', hm, rfl, rfl, rfl, rfl, rfl⟩

/-- Nothing to do, or the front is cut off, and lost without a descriptor. -/
def SplitFront (m : VmapManager) (va align : Word) (before : Option Word) (m' : VmapManager) : Prop :=
  alignUp (m.areas va).vaStart align = (m.areas va).vaStart ∧ m' = m ∨
    alignUp (m.areas va).vaStart align ≠ (m.areas va).vaStart ∧
    ∃ m1, m' = m1.setArea va { m.areas va with vaStart := alignUp (m.areas va).vaStart align } ∧
      (before = none ∧ m1 = m ∨ ∃ b, before = some b ∧ m.Fresh b ∧ b ≠ va ∧
        Inserted m b ⟨(m.areas va).vaStart, alignUp (m.areas va).vaStart align, 0⟩ m1)

/-- Nothing to do, or the rest becomes an area of its own. -/
def SplitBack (m : VmapManager) (va size : Word) (remain : Option Word) (m' : VmapManager) : Prop :=
  m' = m ∧ (vaSize (m.areas va) ≤ size + vaAlignDefault ∨ remain = none) ∨
    ∃ r, remain = some r ∧ m.Fresh r ∧ r ≠ va ∧ vaSize (m.areas va) > size + vaAlignDefault ∧
      Inserted (m.setArea va { m.areas va with vaEnd := (m.areas va).vaStart + size }) r
        ⟨(m.areas va).vaStart + size, (m.areas va).vaEnd, 0⟩ m'

theorem Linked.splitFront (h : Linked m (va :: hand)) (align : Word) {before : Option Word}
    (hb : ∀ b, before = some b → m.Fresh b ∧ b ∉ va :: hand) : ∃ m', m.splitFront va align before = some m' ∧
    Linked m' (va :: hand) ∧ SplitFront m va align before m' := by
  unfold VmapManager.splitFront
  by_cases hw : alignUp (m.areas va).vaStart align - (m.areas va).vaStart > 0
  · rw [if_pos hw]
    have hn : alignUp (m.areas va).vaStart align ≠ (m.areas va).vaStart := fun e => by
      rw [e, BitVec.sub_self] at hw
      exact absurd hw (by decide)
    cases before with
    | none => exact ⟨_, rfl, h.setArea h.not_free _, Or.inr ⟨hn, m, rfl, Or.inl ⟨rfl, rfl⟩⟩⟩
    | some b =>
      obtain ⟨hf, hh⟩ := hb b rfl
      obtain ⟨m1, hi, h1, hI⟩ := (h.take hf hh).inserted ⟨(m.areas va).vaStart, alignUp (m.areas va).vaStart align, 0⟩
      have hne : b ≠ va := by
        rintro rfl
        exact hh (List.mem_cons_self ..)
      have hva : m1.areas va = m.areas va := by rw [hI.areas, Function.update_of_ne hne.symm]
      refine ⟨_, by dsimp only; rw [hi]; rfl, h1.setArea h1.not_free _, Or.inr ⟨hn, m1, by rw [hva], Or.inr ⟨b, rfl, hf, hne, hI⟩⟩⟩
  · rw [if_neg hw]
    refine ⟨m, rfl, h, Or.inl ⟨?_, rfl⟩⟩
    bv_omega

theorem Linked.splitBack (h : Linked m (va :: hand)) (size : Word) {remain : Option Word}
    (hr : ∀ r, remain = some r → m.Fresh r ∧ r ∉ va :: hand) : ∃ m', m.splitBack va size remain = some m' ∧
    Linked m' (va :: hand) ∧ SplitBack m va size remain m' := by
  unfold VmapManager.splitBack
  by_cases hw : vaSize (m.areas va) > size + vaAlignDefault
  · rw [if_pos hw]
    cases remain with
    | none => exact ⟨m, rfl, h, Or.inl ⟨rfl, Or.inr rfl⟩⟩
    | some r =>
      obtain ⟨hf, hh⟩ := hr r rfl
      have hne : r ≠ va := by
        rintro rfl
        exact hh (List.mem_cons_self ..)
      have h0 : Linked (m.setArea va { m.areas va with vaEnd := (m.areas va).vaStart + size }) (r :: va :: hand) :=
        (h.setArea h.not_free _).take hf hh
      obtain ⟨m1, hi, h1, hI⟩ := h0.inserted ⟨(m.areas va).vaStart + size, (m.areas va).vaEnd, 0⟩
      refine ⟨m1, ?_, h1, Or.inr ⟨r, rfl, hf, hne, hw, hI⟩⟩
      rw [← hi]
      dsimp only
      congr 1
      simp only [VmapManager.setArea, Function.update_comm hne]
  · rw [if_neg hw]
    exact ⟨m, rfl, h, Or.inl ⟨rfl, Or.inl (BitVec.not_lt.mp hw)⟩⟩

theorem bestFit_mem {areas : Word → VmapArea} {size : Word} {l : List Word} : ∀ {best : Option Word},
    bestFit areas size best l = some va → best = some va ∨ va ∈ l ∧ size ≤ vaSize (areas va) := by
  induction l with
  | nil => intro best h; exact Or.inl h
  | cons d l ih =>
    intro best h
    rw [bestFit] at h
    split at h
    · next hd =>
      rcases ih h with h | h
      · cases h
        exact Or.inr ⟨List.mem_cons_self .., hd.1⟩
      · exact Or.inr ⟨List.mem_cons_of_mem _ h.1, h.2⟩
    · rcases ih h with h | h
      · exact Or.inl h
      · exact Or.inr ⟨List.mem_cons_of_mem _ h.1, h.2⟩

/-- The area that is chosen is free and large enough. -/
theorem Linked.bestFit (h : Linked m hand) {size : Word} (hv : m.vaFindBestFit size = some va) :
    va ∈ m.freeList ∧ size ≤ vaSize (m.areas va) := by
  unfold vaFindBestFit at hv
  split at hv
  · next hs =>
    cases hv
    obtain ⟨hm, he⟩ := RedBlack.search_mem hs
    refine ⟨h.same.mem_iff.mp hm, ?_⟩
    have h1 : ¬ vaSize ⟨0, size, 0⟩ > vaSize (m.areas va) := fun hgt => by
      rw [vaCompareSize, if_neg (by bv_omega), if_pos hgt] at he
      cases he
    have h0 : vaSize ⟨0, size, 0⟩ = size := by simp [vaSize]
    rw [h0] at h1
    bv_omega
  · exact (bestFit_mem hv).resolve_left fun e => by cases e

theorem Linked.markBusy (h : Linked m (va :: hand)) (flags : Word) : Linked (m.markBusy va flags) hand := by
  have h' := h.setArea h.not_free { m.areas va with flags := flags }
  refine ⟨h'.tree, h'.same, (List.Perm.nodup_iff ?_).mpr h.nodup⟩
  show (hand ++ (m.freeList ++ va :: m.busyList)).Perm _
  exact (List.perm_middle.append_left _).trans List.perm_middle

/-- The search for the area in front looks at areas that end below. -/
theorem prevFree_mem {addr prev : Word} (h : m.vaFindPrevFree addr = some prev) :
    prev ∈ m.freeList ∧ (m.areas prev).vaEnd ≤ addr := by
  have hm := List.mem_of_getLast? h
  exact ⟨List.takeWhile_subset _ hm, by simpa using List.mem_takeWhile_imp hm⟩

/-- The search for the area behind passes over the one that starts where this one ends. -/
theorem mergeNext_eq (m : VmapManager) (va link : Word) : m.mergeNext va link = some m := by
  unfold mergeNext
  split
  · rfl
  · next next hn =>
    have hgt : (m.areas next).vaStart > (m.areas va).vaEnd := by simpa using List.find?_some hn
    rw [if_neg (by bv_omega)]

/-- The area in hand `va` stays as it is, or the one in front grows over it and is then the one
    in hand, the descriptor of `va` being freed. -/
def MergedPrev (m : VmapManager) (va link : Word) (m' : VmapManager) (dst : Word) : Prop :=
  m' = m ∧ dst = va ∧ (∀ prev, m.vaFindPrevFree (m.areas va).vaStart = some prev → (m.areas prev).vaEnd ≠ (m.areas va).vaStart) ∨
    m.vaFindPrevFree (m.areas va).vaStart = some dst ∧ (m.areas dst).vaEnd = (m.areas va).vaStart ∧ dst ≠ va ∧
      ∃ m1, Removed m dst m1 ∧
        m' = (m1.setArea dst { m.areas dst with vaEnd := (m.areas va).vaEnd }).setArea va { m.areas va with vaStart := link }

theorem Linked.mergePrev (h : Linked m (va :: hand)) (link : Word) : ∃ m' dst, m.mergePrev va link = some (m', dst) ∧
    Linked m' (dst :: hand) ∧ MergedPrev m va link m' dst := by
  unfold VmapManager.mergePrev
  cases hp : m.vaFindPrevFree (m.areas va).vaStart with
  | none => exact ⟨m, va, rfl, h, Or.inl ⟨rfl, rfl, fun prev e => by rw [hp] at e; cases e⟩⟩
  | some prev =>
    by_cases he : (m.areas prev).vaEnd = (m.areas va).vaStart
    · obtain ⟨hm, -⟩ := prevFree_mem hp
      have hne : prev ≠ va := by
        rintro rfl
        exact h.not_free hm
      obtain ⟨m1, hr, h1, hR⟩ := h.removed hm
      have h2 := h1.setArea h1.not_free { m.areas prev with vaEnd := (m.areas va).vaEnd }
      have hva : va ∉ m1.freeList := fun hm' => h.not_free (by rw [hR.freeList] at hm'; exact List.mem_of_mem_erase hm')
      have h3 := h2.setArea hva { m.areas va with vaStart := link }
      refine ⟨_, prev, by dsimp only; rw [if_pos he, hr]; rfl, ?_, Or.inr ⟨hp, he, hne, m1, hR, ?_⟩⟩
      · simp only [VmapManager.kfree, setArea_areas, Function.update_of_ne hne.symm, hR.areas]
        refine ⟨h3.tree, h3.same, ?_⟩
        have := h3.nodup
        rw [List.cons_append, List.cons_append, List.nodup_cons, List.nodup_cons] at this
        rw [List.cons_append, List.nodup_cons]
        exact ⟨fun hm => this.1 (List.mem_cons_of_mem _ hm), this.2.2⟩
      · simp only [VmapManager.kfree, setArea_areas, Function.update_of_ne hne.symm, hR.areas]
    · dsimp only
      rw [if_neg he]
      refine ⟨m, va, rfl, h, Or.inl ⟨rfl, rfl, fun p e => ?_⟩⟩
      rw [hp] at e
      cases e
      exact he

/-! ## What an operation does -/

/-- The steps of an allocation that finds an area. -/
structure Allocated (m : VmapManager) (size align flags : Word) (before remain : Option Word) (va : Word)
    (m' : VmapManager) : Prop where
  chosen : m.vaFindBestFit size = some va
  steps : ∃ m1 m2 m3, Removed m va m1 ∧ SplitFront m1 va align before m2 ∧ SplitBack m2 va size remain m3 ∧
    m' = m3.markBusy va flags

/-- The steps of freeing a busy area. -/
structure Freed (m : VmapManager) (va link : Word) (m' : VmapManager) : Prop where
  mem : va ∈ m.busyList
  steps : ∃ m1 dst, MergedPrev { m with busyList := m.busyList.erase va, nrBusy := m.nrBusy - 1 } va link m1 dst ∧
    Inserted { m1 with totalFree := m1.totalFree + vaSize (m1.areas va) } dst (m1.areas dst) m'

/-- The alignment and the size `va_alloc` works with. -/
def clampAlign (align : Word) : Word := if align < vaAlignDefault then vaAlignDefault else align

theorem Linked.vaAlloc (h : Linked m [0]) (size align flags : Word) {before remain : Option Word}
    (hb : ∀ d, before = some d → m.Fresh d) (hr : ∀ d, remain = some d → m.Fresh d ∧ before ≠ remain) :
    ∃ m' r, m.vaAlloc size align flags before remain = some (m', r) ∧ Linked m' [0] ∧
      (m' = m ∧ r = 0 ∧ (size = 0 ∨ m.vaFindBestFit (alignUp size vaAlignDefault) = none) ∨ size ≠ 0 ∧ ∃ va, r = (m'.areas va).vaStart ∧
        Allocated m (alignUp size vaAlignDefault) (clampAlign align) flags before remain va m') := by
  unfold VmapManager.vaAlloc
  by_cases h0 : size = 0
  · exact ⟨m, 0, by rw [if_pos h0], h, Or.inl ⟨rfl, rfl, Or.inl h0⟩⟩
  rw [if_neg h0]
  dsimp only
  rw [← clampAlign]
  cases hv : m.vaFindBestFit (alignUp size vaAlignDefault) with
  | none => exact ⟨m, 0, rfl, h, Or.inl ⟨rfl, rfl, Or.inr rfl⟩⟩
  | some va =>
    obtain ⟨hm, -⟩ := h.bestFit hv
    obtain ⟨m1, h1, hL1, hR1⟩ := h.removed hm
    have hf1 : ∀ d, m.Fresh d → m1.Fresh d ∧ d ∉ [va, 0] := fun d hd => by
      refine ⟨⟨hd.1, ?_, by rw [hR1.busyList]; exact hd.2.2⟩, fun hm' => ?_⟩
      · rw [hR1.freeList]
        exact fun hm' => hd.2.1 (List.mem_of_mem_erase hm')
      · rcases List.mem_cons.mp hm' with rfl | hm'
        · exact hd.2.1 hm
        · exact hd.1 (List.mem_singleton.mp hm')
    obtain ⟨m2, h2, hL2, hS2⟩ := hL1.splitFront (clampAlign align) fun b e => hf1 b (hb b e)
    have hf2 : ∀ d, remain = some d → m2.Fresh d ∧ d ∉ [va, 0] := fun d e => by
      obtain ⟨⟨hd0, hfr, hbu⟩, hh⟩ := hf1 d (hr d e).1
      refine ⟨?_, hh⟩
      rcases hS2 with ⟨-, rfl⟩ | ⟨-, m3, rfl, ⟨-, rfl⟩ | ⟨b, e', -, -, hI⟩⟩
      · exact ⟨hd0, hfr, hbu⟩
      · exact ⟨hd0, hfr, hbu⟩
      · refine ⟨hd0, ?_, by rw [setArea_busyList, hI.busyList]; exact hbu⟩
        rw [setArea_freeList, hI.freeList, mem_listInsert]
        rintro (rfl | hm')
        · exact (hr d e).2 (e'.trans e.symm)
        · exact hfr hm'
    obtain ⟨m3, h3, hL3, hS3⟩ := hL2.splitBack (alignUp size vaAlignDefault) hf2
    refine ⟨m3.markBusy va flags, (m3.areas va).vaStart, ?_, hL3.markBusy flags, Or.inr ⟨h0, va, ?_, hv, m1, m2, m3, hR1, hS2,
      hS3, rfl⟩⟩
    · dsimp only
      rw [h1, Option.bind_some, h2, Option.bind_some, h3, Option.map_some]
    · simp [VmapManager.markBusy]

theorem Linked.vaFree (h : Linked m [0]) (addr link link' : Word) : ∃ m', m.vaFree addr link link' = some m' ∧ Linked m' [0] ∧
    (m' = m ∧ (addr = 0 ∨ m.vaFindByAddr addr = none) ∨ addr ≠ 0 ∧ ∃ va, m.vaFindByAddr addr = some va ∧ Freed m va link m') := by
  unfold VmapManager.vaFree
  by_cases h0 : addr = 0
  · exact ⟨m, by rw [if_pos h0], h, Or.inl ⟨rfl, Or.inl h0⟩⟩
  rw [if_neg h0]
  cases hv : m.vaFindByAddr addr with
  | none => exact ⟨m, rfl, h, Or.inl ⟨rfl, Or.inr rfl⟩⟩
  | some va =>
    have hm : va ∈ m.busyList := List.mem_of_find?_eq_some hv
    have hL : Linked { m with busyList := m.busyList.erase va, nrBusy := m.nrBusy - 1 } [va, 0] := by
      refine ⟨h.tree, h.same, (List.Perm.nodup_iff ?_).mpr h.nodup⟩
      show (va :: 0 :: (m.freeList ++ m.busyList.erase va)).Perm (0 :: (m.freeList ++ m.busyList))
      refine (List.Perm.swap ..).trans (List.Perm.cons 0 ?_)
      exact List.perm_middle.symm.trans ((List.perm_cons_erase hm).symm.append_left _)
    obtain ⟨m1, dst, h1, hL1, hM⟩ := hL.mergePrev link
    have hL2 : Linked { m1 with totalFree := m1.totalFree + vaSize (m1.areas va) } [dst, 0] :=
      ⟨hL1.tree, hL1.same, hL1.nodup⟩
    obtain ⟨m2, h2, hL3, hI⟩ := hL2.inserted (m1.areas dst)
    have hself : VmapManager.setArea { m1 with totalFree := m1.totalFree + vaSize (m1.areas va) } dst (m1.areas dst) =
        { m1 with totalFree := m1.totalFree + vaSize (m1.areas va) } := by
      simp only [VmapManager.setArea, Function.update_eq_self]
    rw [hself] at h2
    refine ⟨m2, ?_, hL3, Or.inr ⟨h0, va, rfl, hm, m1, dst, hM, hI⟩⟩
    dsimp only
    rw [h1, Option.bind_some]
    dsimp only
    rw [mergeNext_eq, Option.bind_some]
    exact h2

end VmapManager

/-! ## Every run -/

theorem Boot.linked {s : State} (h : Boot s) : s.mgr.Linked [0] := by
  obtain ⟨d, h0, hi, -⟩ := h
  have hL : VmapManager.Linked ⟨fun _ => ⟨0, 0, 0⟩, .nil, [], [], vmallocEnd - vmallocStart, 0⟩ [d, 0] :=
    ⟨RedBlack.Ordered.nil _, List.Perm.refl _, by simpa using h0⟩
  obtain ⟨m', hm, h', -⟩ := hL.inserted ⟨vmallocStart, vmallocEnd, 0⟩
  cases hm.symm.trans hi
  exact h'

/-- What a step does to the manager, with the tree out of sight. -/
inductive Moved (s : State) : Op → State → Prop where
  | refused {size align flags : Word} {before remain : Option Word} :
      size = 0 ∨ s.mgr.vaFindBestFit (VmapManager.alignUp size vaAlignDefault) = none →
      Moved s (.alloc size align flags before remain) s
  | allocated {size align flags : Word} {before remain : Option Word} {va : Word} {m' : VmapManager} : size ≠ 0 →
      VmapManager.Allocated s.mgr (VmapManager.alignUp size vaAlignDefault) (VmapManager.clampAlign align) flags before remain va m' →
      Moved s (.alloc size align flags before remain)
        ⟨m', if (m'.areas va).vaStart = 0 then s.live else ((m'.areas va).vaStart, size) :: s.live⟩
  | ignored {addr link link' : Word} : addr = 0 ∨ s.mgr.vaFindByAddr addr = none →
      Moved s (.free addr link link') ⟨s.mgr, s.live.filter fun e => e.1 ≠ addr⟩
  | freed {addr link link' va : Word} {m' : VmapManager} : addr ≠ 0 → s.mgr.vaFindByAddr addr = some va →
      VmapManager.Freed s.mgr va link m' → Moved s (.free addr link link') ⟨m', s.live.filter fun e => e.1 ≠ addr⟩

/-- No call leaves the tree, and list and tree stay in step. -/
theorem step_moved {s : State} (h : s.mgr.Linked [0]) {e : Op} (hf : Fresh s e) :
    ∃ s', step s e = some s' ∧ s'.mgr.Linked [0] ∧ Moved s e s' := by
  cases e with
  | alloc size align flags before remain =>
    obtain ⟨m', r, he, h', hc⟩ := h.vaAlloc size align flags hf.1 hf.2
    refine ⟨_, by rw [step, he]; rfl, h', ?_⟩
    rcases hc with ⟨rfl, rfl, hc⟩ | ⟨h0, va, rfl, hA⟩
    · exact .refused hc
    · exact .allocated h0 hA
  | free addr link link' =>
    obtain ⟨m', he, h', hc⟩ := h.vaFree addr link link'
    refine ⟨_, by rw [step, he]; rfl, h', ?_⟩
    rcases hc with ⟨rfl, hc⟩ | ⟨h0, va, hv, hF⟩
    · exact .ignored hc
    · exact .freed h0 hv hF

/-! ## Evaluated runs -/

instance (m : VmapManager) (d : Word) : Decidable (m.Fresh d) := by
  delta VmapManager.Fresh
  infer_instance

theorem fresh_alloc_iff {s : State} {size align flags : Word} {before remain : Option Word} :
    (before.all (fun d => decide (s.mgr.Fresh d)) = true ∧
      remain.all (fun d => decide (s.mgr.Fresh d ∧ before ≠ remain)) = true) ↔
      Fresh s (.alloc size align flags before remain) := by
  simp only [Fresh, Option.all_eq_true, decide_eq_true_eq]

instance (s : State) : ∀ e, Decidable (Fresh s e)
  | .alloc .. => decidable_of_iff _ fresh_alloc_iff
  | .free .. => .isTrue trivial

def bootState : Option State := (VmapManager.vaManagerInit 1).map fun m => ⟨m, []⟩

theorem bootState_boot (s : State) (h : bootState = some s) : Boot s := by
  obtain ⟨m, hm, rfl⟩ := Option.map_eq_some_iff.mp h
  exact ⟨1, by decide, hm, rfl⟩

end Myos.Vmap
