/-
  Myos.Lib.Spans — pieces of a range of a linear order: non-empty half-open intervals that do
  not overlap.

  Proved: cutting a piece in two and growing a piece over the next one keep the pieces apart and
  what they cover; pieces that cover the range, no two of which touch, are one piece.
-/

import Mathlib

namespace Myos.Lib

structure Span (α : Type*) where
  start : α
  stop : α
  deriving DecidableEq

namespace Span

variable {α : Type*} [LinearOrder α] {a b : Span α} {lo hi : α} {on : α → Prop} {l l' : List (Span α)}

def Apart (a b : Span α) : Prop := a.stop ≤ b.start ∨ b.stop ≤ a.start

theorem Apart.symm (h : Apart a b) : Apart b a := Or.symm h

/-- A piece of the range, its ends where they may be. -/
structure Inside (on : α → Prop) (lo hi : α) (a : Span α) : Prop where
  lower : lo ≤ a.start
  nonempty : a.start < a.stop
  upper : a.stop ≤ hi
  start : on a.start
  stop : on a.stop

theorem Inside.start_ne (ha : Inside on lo hi a) (hb : Inside on lo hi b) (h : Apart a b) : a.start ≠ b.start := by
  intro he
  rcases h with h | h
  · exact absurd ha.nonempty (not_lt.mpr (he ▸ h))
  · exact absurd hb.nonempty (not_lt.mpr (he ▸ h))

theorem Inside.stop_ne (ha : Inside on lo hi a) (hb : Inside on lo hi b) (h : Apart a b) : a.stop ≠ b.stop := by
  intro he
  rcases h with h | h
  · exact absurd hb.nonempty (not_lt.mpr (he ▸ h))
  · exact absurd ha.nonempty (not_lt.mpr (he ▸ h))

structure Packed (on : α → Prop) (lo hi : α) (l : List (Span α)) : Prop where
  inside : ∀ a ∈ l, Inside on lo hi a
  apart : l.Pairwise Apart

namespace Packed

theorem perm (h : Packed on lo hi l) (hp : l.Perm l') : Packed on lo hi l' :=
  ⟨fun a ha => h.inside a (hp.mem_iff.mpr ha), h.apart.perm hp Apart.symm⟩

theorem head (h : Packed on lo hi (a :: l)) : Inside on lo hi a := h.inside a (List.mem_cons_self ..)

theorem tail (h : Packed on lo hi (a :: l)) : Packed on lo hi l :=
  ⟨fun b hb => h.inside b (List.mem_cons_of_mem _ hb), (List.pairwise_cons.mp h.apart).2⟩

theorem cons (h : Packed on lo hi l) (ha : Inside on lo hi a) (hd : ∀ b ∈ l, Apart a b) : Packed on lo hi (a :: l) := by
  refine ⟨fun b hb => ?_, List.pairwise_cons.mpr ⟨hd, h.apart⟩⟩
  rcases List.mem_cons.mp hb with rfl | hb
  · exact ha
  · exact h.inside b hb

/-- A smaller piece in the place of one. -/
theorem shrink {s e : α} (h : Packed on lo hi (a :: l)) (hs : on s) (he : on e) (h1 : a.start ≤ s) (h2 : s < e)
    (h3 : e ≤ a.stop) : Packed on lo hi (⟨s, e⟩ :: l) := by
  have ha := h.head
  refine h.tail.cons ⟨ha.lower.trans h1, h2, h3.trans ha.upper, hs, he⟩ fun b hb => ?_
  exact ((List.pairwise_cons.mp h.apart).1 b hb).imp h3.trans fun h => h.trans h1

/-- The two halves in the place of a piece. -/
theorem split {x : α} (h : Packed on lo hi (a :: l)) (hx : on x) (h1 : a.start < x) (h2 : x < a.stop) :
    Packed on lo hi (⟨a.start, x⟩ :: ⟨x, a.stop⟩ :: l) := by
  have ha := h.head
  have hr := h.shrink hx ha.stop h1.le h2 le_rfl
  refine hr.cons ⟨ha.lower, h1, h2.le.trans ha.upper, ha.start, hx⟩ fun b hb => ?_
  rcases List.mem_cons.mp hb with rfl | hb
  · exact Or.inl le_rfl
  · exact ((List.pairwise_cons.mp h.apart).1 b hb).imp h2.le.trans id

/-- One piece in the place of two that touch. -/
theorem merge (h : Packed on lo hi (a :: b :: l)) (he : a.stop = b.start) : Packed on lo hi (⟨a.start, b.stop⟩ :: l) := by
  have ha := h.head
  have hb := h.tail.head
  have h1 := (List.pairwise_cons.mp h.apart).1
  have h2 := (List.pairwise_cons.mp h.tail.apart).1
  refine h.tail.tail.cons
    ⟨ha.lower, ha.nonempty.trans (he ▸ hb.nonempty), hb.upper, ha.start, hb.stop⟩ fun c hc => ?_
  have hca := h1 c (List.mem_cons_of_mem _ hc)
  have hcb := h2 c hc
  have hc0 := (h.tail.tail.inside c hc).nonempty
  rcases hca with hca | hca
  · refine hcb.imp id fun hcb => ?_
    rw [← he] at hcb
    exact absurd (hca.trans_lt (hc0.trans_le hcb)) (lt_irrefl _)
  · exact Or.inr hca

end Packed

/-! ## Covering the range -/

def Covers (lo hi : α) (l : List (Span α)) : Prop := ∀ x, lo ≤ x → x < hi → ∃ a ∈ l, a.start ≤ x ∧ x < a.stop

theorem Covers.perm (h : Covers lo hi l) (hp : l.Perm l') : Covers lo hi l' := fun x h1 h2 => by
  obtain ⟨a, ha, hx⟩ := h x h1 h2
  exact ⟨a, hp.mem_iff.mp ha, hx⟩

theorem Covers.split (h : Covers lo hi (a :: l)) (y : α) : Covers lo hi (⟨a.start, y⟩ :: ⟨y, a.stop⟩ :: l) := fun x h1 h2 => by
  obtain ⟨b, hb, hx⟩ := h x h1 h2
  rcases List.mem_cons.mp hb with rfl | hb
  · rcases lt_or_ge x y with hy | hy
    · exact ⟨_, List.mem_cons_self .., hx.1, hy⟩
    · exact ⟨_, List.mem_cons_of_mem _ (List.mem_cons_self ..), hy, hx.2⟩
  · exact ⟨b, List.mem_cons_of_mem _ (List.mem_cons_of_mem _ hb), hx⟩

theorem Covers.merge (h : Covers lo hi (a :: b :: l)) (he : a.stop = b.start) (ha : a.start ≤ a.stop) (hb : b.start ≤ b.stop) :
    Covers lo hi (⟨a.start, b.stop⟩ :: l) := fun x h1 h2 => by
  obtain ⟨c, hc, hx⟩ := h x h1 h2
  rcases List.mem_cons.mp hc with rfl | hc
  · exact ⟨_, List.mem_cons_self .., hx.1, hx.2.trans_le (he ▸ hb)⟩
  rcases List.mem_cons.mp hc with rfl | hc
  · exact ⟨_, List.mem_cons_self .., (he ▸ ha).trans hx.1, hx.2⟩
  · exact ⟨c, List.mem_cons_of_mem _ hc, hx⟩

/-- The range, cut into pieces. -/
structure Tiled (on : α → Prop) (lo hi : α) (l : List (Span α)) : Prop extends Packed on lo hi l where
  covers : Covers lo hi l

namespace Tiled

theorem perm (h : Tiled on lo hi l) (hp : l.Perm l') : Tiled on lo hi l' := ⟨h.toPacked.perm hp, h.covers.perm hp⟩

theorem split {x : α} (h : Tiled on lo hi (a :: l)) (hx : on x) (h1 : a.start < x) (h2 : x < a.stop) :
    Tiled on lo hi (⟨a.start, x⟩ :: ⟨x, a.stop⟩ :: l) :=
  ⟨h.toPacked.split hx h1 h2, h.covers.split x⟩

theorem merge (h : Tiled on lo hi (a :: b :: l)) (he : a.stop = b.start) : Tiled on lo hi (⟨a.start, b.stop⟩ :: l) :=
  ⟨h.toPacked.merge he, h.covers.merge he h.head.nonempty.le h.tail.head.nonempty.le⟩

theorem whole_range (h : Inside on lo hi ⟨lo, hi⟩) : Tiled on lo hi [⟨lo, hi⟩] := by
  refine ⟨⟨fun a ha => ?_, List.pairwise_singleton ..⟩, fun x h1 h2 => ⟨_, List.mem_singleton_self _, h1, h2⟩⟩
  rw [List.mem_singleton.mp ha]
  exact h

/-- Pieces of which no two touch are the whole range. -/
theorem whole (h : Tiled on lo hi l) (hlt : lo < hi) (ht : ∀ a ∈ l, ∀ b ∈ l, a.stop ≠ b.start) : l = [⟨lo, hi⟩] := by
  obtain ⟨a, ha, hx⟩ := h.covers lo le_rfl hlt
  have hp := h.toPacked.perm (List.perm_cons_erase ha)
  have hI := hp.head
  have hd := (List.pairwise_cons.mp hp.apart).1
  have hs : a.start = lo := le_antisymm hx.1 hI.lower
  have he : a.stop = hi := by
    by_contra hne
    -- the piece with the point behind `a` would touch it
    obtain ⟨b, hb, hy⟩ := h.covers a.stop (hI.lower.trans hI.nonempty.le) (lt_of_le_of_ne hI.upper hne)
    rcases List.mem_cons.mp ((List.perm_cons_erase ha).mem_iff.mp hb) with rfl | hb'
    · exact lt_irrefl _ hy.2
    · rcases hd b hb' with h1 | h1
      · exact ht a ha b hb (le_antisymm h1 hy.1)
      · exact lt_irrefl _ (hI.nonempty.trans (hy.2.trans_le h1))
  have hnil : l.erase a = [] := by
    refine List.eq_nil_iff_forall_not_mem.mpr fun b hb => ?_
    have hb' := hp.inside b (List.mem_cons_of_mem _ hb)
    rcases hd b hb with h1 | h1
    · exact lt_irrefl _ ((he ▸ h1).trans_lt (hb'.nonempty.trans_le hb'.upper))
    · exact lt_irrefl _ (hb'.nonempty.trans_le (h1.trans (hs ▸ hb'.lower)))
  have hl := List.perm_cons_erase ha
  rw [hnil] at hl
  rw [List.perm_singleton.mp hl, ← hs, ← he]

end Tiled

end Span

end Myos.Lib
