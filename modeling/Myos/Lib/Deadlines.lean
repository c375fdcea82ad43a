/-
  Myos.Lib.Deadlines — a queue in the order of what its entries wait for.

  Proved: in an ordered queue the entries that a downward closed test accepts are a front part,
  and putting an entry behind those that may stand before it keeps the order.
-/

import Mathlib.Data.List.TakeWhile

namespace Myos.Lib.Deadlines

variable {α : Type*} {r : α → α → Prop} {p : α → Bool} {l : List α} {x : α}

theorem filter_eq_nil (h : (x :: l).Pairwise r) (hp : ∀ a b, r a b → p b = true → p a = true) (hx : ¬ p x = true) :
    l.filter p = [] := by
  apply List.filter_eq_nil_iff.mpr
  intro b hb hpb
  exact hx (hp x b (List.rel_of_pairwise_cons h hb) hpb)

theorem takeWhile_eq_filter (h : l.Pairwise r) (hp : ∀ a b, r a b → p b = true → p a = true) :
    l.takeWhile p = l.filter p := by
  induction l with
  | nil => rfl
  | cons a l ih =>
    by_cases ha : p a = true
    · rw [List.takeWhile_cons_of_pos ha, List.filter_cons_of_pos ha, ih h.of_cons]
    · rw [List.takeWhile_cons_of_neg ha, List.filter_cons_of_neg ha, filter_eq_nil h hp ha]

theorem dropWhile_eq_filter (h : l.Pairwise r) (hp : ∀ a b, r a b → p b = true → p a = true) :
    l.dropWhile p = l.filter fun a => !p a := by
  induction l with
  | nil => rfl
  | cons a l ih =>
    by_cases ha : p a = true
    · rw [List.dropWhile_cons_of_pos ha, List.filter_cons_of_neg (by simp [ha]), ih h.of_cons]
    · rw [List.dropWhile_cons_of_neg ha]
      apply Eq.symm
      apply List.filter_eq_self.mpr
      intro b hb
      rcases List.mem_cons.mp hb with rfl | hb
      · simp [ha]
      · have hn := List.filter_eq_nil_iff.mp (filter_eq_nil h hp ha) b hb
        simp [hn]

/-- An entry behind those the test accepts. -/
def insertAt (p : α → Bool) (x : α) (l : List α) : List α := l.takeWhile p ++ x :: l.dropWhile p

theorem insertAt_perm (p : α → Bool) (x : α) (l : List α) : (insertAt p x l).Perm (x :: l) := by
  have h : (insertAt p x l).Perm (x :: (l.takeWhile p ++ l.dropWhile p)) := List.perm_middle
  rwa [List.takeWhile_append_dropWhile] at h

theorem insertAt_pairwise (h : l.Pairwise r) (hp : ∀ a b, r a b → p b = true → p a = true) (h1 : ∀ a ∈ l, p a = true → r a x)
    (h2 : ∀ a ∈ l, ¬ p a = true → r x a) : (insertAt p x l).Pairwise r := by
  have hdrop : ∀ b ∈ l.dropWhile p, b ∈ l ∧ ¬ p b = true := by
    intro b hb
    rw [dropWhile_eq_filter h hp] at hb
    simpa using hb
  obtain ⟨ht, hd, htd⟩ := List.pairwise_append.mp ((List.takeWhile_append_dropWhile (p := p) (l := l)).symm ▸ h)
  apply List.pairwise_append.mpr
  refine ⟨ht, List.pairwise_cons.mpr ⟨fun b hb => ?_, hd⟩, fun a ha b hb => ?_⟩
  · exact h2 b (hdrop b hb).1 (hdrop b hb).2
  · rcases List.mem_cons.mp hb with rfl | hb
    · exact h1 a (List.takeWhile_subset _ ha) (List.mem_takeWhile_imp ha)
    · exact htd a ha b hb

end Myos.Lib.Deadlines
