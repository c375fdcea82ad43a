/-
  Myos.Lib.Fifo — who is next to whom in a queue.

  Proved: in a queue without repetitions everyone but the head has one predecessor,
  everyone but the last has one successor; what joining at the end and leaving at the
  head change.
-/

import Mathlib.Data.List.Basic

namespace Myos.Lib.Fifo

variable {α : Type*} {q : List α} {x y z c : α}

/-- `y` stands right behind `x`. -/
def Next : List α → α → α → Prop
  | a :: b :: q, x, y => (x = a ∧ y = b) ∨ Next (b :: q) x y
  | _, _, _ => False

@[simp] theorem not_next_nil : ¬ Next [] x y := id

theorem next_cons : Next (c :: q) x y ↔ (x = c ∧ q.head? = some y) ∨ Next q x y := by
  cases q with
  | nil => simp [Next]
  | cons b q => simp only [Next, List.head?_cons, Option.some.injEq, eq_comm (a := b)]

theorem Next.mem (h : Next q x y) : x ∈ q ∧ y ∈ q := by
  induction q with
  | nil => exact h.elim
  | cons a q ih =>
    rcases next_cons.1 h with ⟨rfl, hy⟩ | h
    · exact ⟨List.mem_cons_self .., List.mem_cons_of_mem _ (List.mem_of_mem_head? hy)⟩
    · exact ⟨List.mem_cons_of_mem _ (ih h).1, List.mem_cons_of_mem _ (ih h).2⟩

theorem next_append : Next (q ++ [z]) x y ↔ Next q x y ∨ (q.getLast? = some x ∧ y = z) := by
  induction q with
  | nil => simp [Next]
  | cons a q ih =>
    rw [List.cons_append, next_cons, ih, next_cons, or_assoc]
    cases q with
    | nil => simp [eq_comm]
    | cons b q => simp

theorem Next.not_head (hq : q.Nodup) (h : Next q x y) : q.head? ≠ some y := by
  cases q with
  | nil => exact h.elim
  | cons a q =>
    rw [List.nodup_cons] at hq
    rintro ⟨⟩
    rcases next_cons.1 h with ⟨rfl, hy⟩ | h
    · exact hq.1 (List.mem_of_mem_head? hy)
    · exact hq.1 h.mem.2

theorem Next.ne (hq : q.Nodup) (h : Next q x y) : x ≠ y := by
  induction q with
  | nil => exact h.elim
  | cons a q ih =>
    rw [List.nodup_cons] at hq
    rcases next_cons.1 h with ⟨rfl, hy⟩ | h
    · rintro rfl
      exact hq.1 (List.mem_of_mem_head? hy)
    · exact ih hq.2 h

theorem Next.not_last (hq : q.Nodup) (h : Next q x y) : q.getLast? ≠ some x := by
  induction q with
  | nil => exact h.elim
  | cons a q ih =>
    rw [List.nodup_cons] at hq
    cases q with
    | nil => exact fun _ => h
    | cons b q =>
      rw [List.getLast?_cons_cons]
      rcases next_cons.1 h with ⟨rfl, -⟩ | h
      · exact fun e => hq.1 (List.mem_of_getLast? e)
      · exact ih hq.2 h

theorem Next.right_unique (hq : q.Nodup) (h : Next q x y) (h' : Next q x z) : y = z := by
  induction q with
  | nil => exact h.elim
  | cons a q ih =>
    rw [List.nodup_cons] at hq
    rcases next_cons.1 h with ⟨rfl, hy⟩ | h <;> rcases next_cons.1 h' with ⟨e, hz⟩ | h'
    · exact Option.some.inj (hy.symm.trans hz)
    · exact absurd h'.mem.1 hq.1
    · exact absurd (e ▸ h.mem.1) hq.1
    · exact ih hq.2 h h'

theorem Next.left_unique (hq : q.Nodup) (h : Next q x z) (h' : Next q y z) : x = y := by
  induction q with
  | nil => exact h.elim
  | cons a q ih =>
    rw [List.nodup_cons] at hq
    rcases next_cons.1 h with ⟨e, hz⟩ | h <;> rcases next_cons.1 h' with ⟨e', hz'⟩ | h'
    · rw [e, e']
    · exact absurd hz (h'.not_head hq.2)
    · exact absurd hz' (h.not_head hq.2)
    · exact ih hq.2 h h'

theorem exists_next (hx : x ∈ q) (hl : q.getLast? ≠ some x) : ∃ y, Next q x y := by
  induction q with
  | nil => cases hx
  | cons a q ih =>
    cases q with
    | nil =>
      rw [List.mem_singleton] at hx
      exact absurd (by rw [hx]; rfl) hl
    | cons b q =>
      rw [List.getLast?_cons_cons] at hl
      rcases List.mem_cons.mp hx with rfl | hx
      · exact ⟨b, next_cons.2 (Or.inl ⟨rfl, rfl⟩)⟩
      · obtain ⟨y, h⟩ := ih hx hl
        exact ⟨y, next_cons.2 (Or.inr h)⟩

theorem exists_prev (hy : y ∈ q) (hh : q.head? ≠ some y) : ∃ x, Next q x y := by
  induction q with
  | nil => cases hy
  | cons a q ih =>
    rcases List.mem_cons.mp hy with rfl | hy
    · exact absurd rfl hh
    · by_cases e : q.head? = some y
      · exact ⟨a, next_cons.2 (Or.inl ⟨rfl, e⟩)⟩
      · obtain ⟨x, h⟩ := ih hy e
        exact ⟨x, next_cons.2 (Or.inr h)⟩

end Myos.Lib.Fifo
