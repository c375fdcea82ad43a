/-
  Myos.Mm.PageDemand — how many frames a row of pages takes.

  The loader maps one page after the other. Each takes a frame of its own and one for each
  table that is not there yet; a table made for one page is there for the next. `known`
  tells which tables there are: a table is given by the half of the addresses it is for
  and the indices on the way to it.

  Proved: a page of the loader is mapped exactly if as many frames are free, and the
  others are free afterwards.
-/

import Myos.Mm.Elf
import Myos.Mm.Shortage

namespace Myos.Mm

open Pmm Lib.Walk Lib.Dyadic

/-- The tables on the way to `va`, without the root. -/
def tablesTo (va : Nat) : List (Bool × List Idx) := [1, 2, 3].map fun n => (isUserAddr va, (dirs va).take n)

/-- The tables there are once `va` is mapped. -/
def after (known : Bool × List Idx → Bool) (va : Nat) : Bool × List Idx → Bool := fun t => known t || decide (t ∈ tablesTo va)

/-- The frames that mapping a new page at `va` takes. -/
def framesAt (known : Bool × List Idx → Bool) (va : Nat) : Nat := ((tablesTo va).filter fun t => !known t).length + 1

def framesFor (known : Bool × List Idx → Bool) : List Nat → Nat
  | [] => 0
  | va :: vas => framesAt known va + framesFor (after known va) vas

def afterAll (known : Bool × List Idx → Bool) (vas : List Nat) : Bool × List Idx → Bool := vas.foldl after known

/-- The trees are those of `new` and of the kernel, and `known` tells their tables. -/
structure Building (R : Set Nat) (K : Set (Nat × Nat)) (new : Nat) (rf : Nat → Nat) (known : Bool × List Idx → Bool) (m : Machine) :
    Prop where
  owned : Owned m R K rf
  mem : ∀ va, (m.switch new).l0Table va ∈ R
  nonzero : ∀ va, (m.switch new).l0Table va ≠ 0
  distinct : new ≠ m.ttbr1
  knows : ∀ t, t.2 ≠ [] → t.2.length ≤ 3 → known t = (walk (child m.mem) (if t.1 then new else m.ttbr1) t.2).isSome

section

variable {m m' : Machine} {R : Set Nat} {K : Set (Nat × Nat)} {rf : Nat → Nat} {new va prot : Nat}
  {known : Bool × List Idx → Bool}

theorem framesFor_append (vas vas' : List Nat) : ∀ {known : Bool × List Idx → Bool},
    framesFor known (vas ++ vas') = framesFor known vas + framesFor (afterAll known vas) vas' := by
  induction vas with
  | nil =>
    intro known
    simp [framesFor, afterAll]
  | cons va vas ih =>
    intro known
    rw [List.cons_append, framesFor, framesFor, ih, Nat.add_assoc]
    rfl

theorem mem_tablesTo {t : Bool × List Idx} (h0 : t.2 ≠ []) (h3 : t.2.length ≤ 3) :
    t ∈ tablesTo va ↔ t.1 = isUserAddr va ∧ t.2 <+: dirs va := by
  obtain ⟨u, q⟩ := t
  dsimp only at h0 h3 ⊢
  unfold tablesTo
  rw [List.mem_map]
  constructor
  · rintro ⟨n, -, he⟩
    cases he
    exact ⟨rfl, List.take_prefix _ _⟩
  · intro ⟨hu, hq⟩
    refine ⟨q.length, ?_, by rw [hu, ← List.prefix_iff_eq_take.mp hq]⟩
    have := List.length_pos_of_ne_nil h0
    simp only [List.mem_cons, List.not_mem_nil, or_false]
    omega

theorem walk_one (child : Nat → Idx → Option Nat) (r : Nat) (i : Idx) : walk child r [i] = child r i := by
  rw [walk]
  cases child r i <;> rfl

/-- What is missing on a way of three are the tables that are not there. -/
theorem missing_three (m : Machine) (r : Nat) (i j k : Idx) :
    missing m r [i, j, k] = ([[i], [i, j], [i, j, k]].filter fun q => !(walk (child m.mem) r q).isSome).length := by
  have none_of : ∀ q : List Idx, child m.mem r i = none → walk (child m.mem) r (i :: q) = none := by
    intro q h
    rw [walk, h, Option.bind_none]
  cases h1 : child m.mem r i with
  | none =>
    rw [missing_none h1]
    simp only [List.filter_cons, none_of _ h1, Option.isSome_none, Bool.not_false, if_true, List.filter_nil, List.length_cons,
      List.length_nil]
  | some a =>
    rw [missing_some h1]
    have hw : ∀ q : List Idx, walk (child m.mem) r (i :: q) = walk (child m.mem) a q := walk_cons h1
    cases h2 : child m.mem a j with
    | none =>
      rw [missing_none h2]
      have : ∀ q : List Idx, walk (child m.mem) a (j :: q) = none := fun q => by rw [walk, h2, Option.bind_none]
      simp only [List.filter_cons, hw, walk_nil, this, Option.isSome_none, Option.isSome_some, Bool.not_false, Bool.not_true,
        if_true, Bool.false_eq_true, if_false, List.filter_nil, List.length_cons, List.length_nil]
    | some b =>
      rw [missing_some h2]
      have hw2 : ∀ q : List Idx, walk (child m.mem) a (j :: q) = walk (child m.mem) b q := walk_cons h2
      simp only [List.filter_cons, hw, hw2, walk_nil, walk_one, Option.isSome_some, Bool.not_true, Bool.false_eq_true, if_false,
        List.filter_nil]
      cases h3 : child m.mem b k with
      | none => rw [missing_none h3]; rfl
      | some c => rw [missing_some h3]; rfl

theorem Building.framesAt (h : Building R K new rf known m) (va : Nat) :
    framesAt known va = missing (m.switch new) ((m.switch new).l0Table va) (dirs va) + 1 := by
  have hk : ∀ q : List Idx, q ≠ [] → q.length ≤ 3 →
      known (isUserAddr va, q) = (walk (child m.mem) ((m.switch new).l0Table va) q).isSome := fun q h0 h3 => h.knows (isUserAddr va, q) h0 h3
  have ht : tablesTo va = [(isUserAddr va, [l0Index va]), (isUserAddr va, [l0Index va, l1Index va]), (isUserAddr va, dirs va)] := rfl
  rw [Mm.framesAt, ht, dirs, missing_three, switch_mem]
  have h1 := hk [l0Index va] (by simp) (by simp)
  have h2 := hk [l0Index va, l1Index va] (by simp) (by simp)
  have h3 := hk [l0Index va, l1Index va, l2Index va] (by simp) (by simp)
  simp only [List.filter_cons, List.filter_nil, h1, h2, h3]
  split_ifs <;> rfl

theorem missing_zero {d q : List Idx} : ∀ {r : Nat}, missing m r d = 0 → q <+: d → walk (child m.mem) r q ≠ none := by
  induction d generalizing q with
  | nil =>
    intro r _ hq
    rw [List.prefix_nil.mp hq, walk_nil]
    exact Option.some_ne_none _
  | cons i d ih =>
    intro r h0 hq
    cases hc : child m.mem r i with
    | none => rw [missing_none hc] at h0; cases h0
    | some c =>
      rw [missing_some hc] at h0
      cases q with
      | nil => exact Option.some_ne_none _
      | cons j q =>
        obtain ⟨rfl, hq'⟩ := List.cons_prefix_cons.mp hq
        rw [walk_cons hc]
        exact ih h0 hq'

/-- A page of the loader is put at its address as for a fault in the tree `new`. -/
theorem allocAndMapPage_cases (m : Machine) (new va prot : Nat) :
    ((demandPage (m.switch new) va prot).2 = .handled ∧ allocAndMapPage m new va prot =
      ((demandPage (m.switch new) va prot).1.switch m.ttbr0, .ok ((m.switch new).allocPage gfpKernel).2)) ∨
    (demandPage (m.switch new) va prot).2 ≠ .handled ∧ ∃ m' e, allocAndMapPage m new va prot = (m', .error e) := by
  have he : (m.switch new).allocPage gfpKernel = ((m.allocPage gfpKernel).1.switch new, (m.allocPage gfpKernel).2) := rfl
  have hc : ∀ x, ((m.allocPage gfpKernel).1.switch new).clearPage x = ((m.allocPage gfpKernel).1.clearPage x).switch new :=
    fun _ => rfl
  unfold allocAndMapPage demandPage
  rw [he]
  dsimp only
  rw [hc]
  by_cases h0 : (m.allocPage gfpKernel).2 = 0
  · rw [if_pos h0, if_pos h0]
    exact Or.inr ⟨nofun, _, _, rfl⟩
  rw [if_neg h0, if_neg h0]
  by_cases h1 : (mapPage (((m.allocPage gfpKernel).1.clearPage (m.allocPage gfpKernel).2).switch new) va (m.allocPage gfpKernel).2 prot).2 = 0
  · rw [if_neg (not_not.mpr h1), if_pos h1]
    exact Or.inl ⟨rfl, rfl⟩
  · rw [if_pos h1, if_neg h1]
    exact Or.inr ⟨nofun, _, _, rfl⟩

/-- The two roots. -/
theorem Building.root_mem (h : Building R K new rf known m) (u : Bool) : (if u = true then new else m.ttbr1) ∈ R := by
  have h1 : new ∈ R := h.mem 0
  have h2 : m.ttbr1 ∈ R := by
    have := h.mem (2 ^ 47)
    rwa [Machine.l0Table, if_neg (by decide)] at this
  split
  · exact h1
  · exact h2

theorem Building.root_inj (h : Building R K new rf known m) {u u' : Bool}
    (he : (if u = true then new else m.ttbr1) = if u' = true then new else m.ttbr1) : u = u' := by
  have := h.distinct
  have := this.symm
  cases u <;> cases u' <;> simp_all

theorem Building.switch (h : Building R K new rf known m) (r : Nat) : Building R K new rf known (m.switch r) :=
  ⟨h.owned.switch r, h.mem, h.nonzero, h.distinct, h.knows⟩

/-- Filling a frame in use makes no table. -/
theorem Building.fill (h : Building R K new rf known m) {p : Nat} (hp : 0 < rf p) {mem : Mem}
    (hm : ∀ x, x < pfnToPa p ∨ pfnToPa p + pageSize ≤ x → mem x = m.mem x) :
    Building R K new rf known { m with mem := mem } := by
  obtain ⟨ho, hwalk, -⟩ := h.owned.fill hp hm
  refine ⟨ho, h.mem, h.nonzero, h.distinct, fun t h0 h3 => ?_⟩
  rw [h.knows t h0 h3]
  exact congrArg Option.isSome (hwalk _ (h.root_mem t.1) _ h3).symm

/-- A page is mapped exactly if a frame is free for it and for each table it lacks. -/
theorem Building.page (h : Building R K new rf known m) (hp : ProtOk prot) (va : Nat) :
    ((∃ m' e, allocAndMapPage m new va prot = (m', .error e)) ∧ ¬ Room m.pmm (Mm.framesAt known va)) ∨
    ∃ m' p, allocAndMapPage m new va prot = (m', .ok (pfnToPa p)) ∧
      Building R K new (Function.update rf p 1) (after known va) m' ∧
      ∀ n, Room m.pmm (Mm.framesAt known va + n) ↔ Room m'.pmm n := by
  have ho := h.owned.switch new
  obtain ⟨hiff, -⟩ := demandPage_room_iff ho (h.mem va) (h.nonzero va) hp
  rw [h.framesAt va]
  rcases allocAndMapPage_cases m new va prot with ⟨hd, he⟩ | ⟨hd, he⟩
  · obtain ⟨htakes, hgrew, hzero⟩ := demandPage_takes ho (h.mem va) (h.nonzero va) hp hd
    rcases demandPage_spec ho (h.mem va) hp with ⟨hn, -⟩ | ⟨p, hpa, -, hI⟩
    · exact absurd hd hn
    rw [hpa] at he
    refine Or.inr ⟨_, p, he, ?_, fun n => htakes n⟩
    generalize (demandPage (m.switch new) va prot).1 = m2 at *
    have hk1 : m2.ttbr1 = m.ttbr1 := hI.wrote.ttbr1
    have hl : ∀ va', ((m2.switch m.ttbr0).switch new).l0Table va' = (m.switch new).l0Table va' := by
      intro va'
      unfold Machine.l0Table
      rw [switch_ttbr0, switch_ttbr0, switch_ttbr1, switch_ttbr1, switch_ttbr1, hk1]
    refine ⟨hI.owned.switch _, fun va' => by rw [hl]; exact h.mem va', fun va' => by rw [hl]; exact h.nonzero va',
      fun e => h.distinct (e.trans hk1), fun t h0 h3 => ?_⟩
    have hroot : (if t.1 = true then new else m2.ttbr1) = if t.1 = true then new else (m.switch new).ttbr1 := by rw [hI.wrote.ttbr1]
    have hmem : (if t.1 = true then new else (m.switch new).ttbr1) ∈ R := h.root_mem t.1
    rw [switch_mem, switch_ttbr1, hroot]
    unfold after
    by_cases ht : t ∈ tablesTo va
    · obtain ⟨hu, hq⟩ := (mem_tablesTo h0 h3).mp ht
      rw [decide_eq_true ht, Bool.or_true, hu]
      exact (Option.isSome_iff_ne_none.mpr (missing_zero hzero hq)).symm
    · rw [decide_eq_false ht, Bool.or_false, h.knows t h0 h3]
      refine congrArg Option.isSome (hgrew _ hmem _ h3 fun ⟨hr, _, hq⟩ => ht ((mem_tablesTo h0 h3).mpr ⟨?_, hq⟩)).symm
      exact h.root_inj hr
  · exact Or.inl ⟨he, fun hR => hd (hiff.mpr hR)⟩

end

end Myos.Mm
