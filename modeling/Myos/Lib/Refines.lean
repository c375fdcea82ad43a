/-
  Myos.Lib.Refines — a step function that follows an abstract step relation.

  `Runs astep a es b`: the abstract machine gets from `a` to `b` by the events `es`.
  `Allowed step ok s es`: each event of the run from `s` meets `ok` when its turn comes.
  An invariant may carry a budget, the number of events it still allows.

  Proved: what a step keeps a run keeps; a step function whose every step is one of the
  abstract machine, under an abstraction function, has abstract runs only.
-/

import Mathlib.Tactic.TypeStar
import Mathlib.Data.List.Basic

namespace Myos.Lib

variable {σ τ ε : Type*} {step : σ → ε → σ} {ok : σ → ε → Prop} {astep : τ → ε → τ → Prop}

inductive Runs (astep : τ → ε → τ → Prop) : τ → List ε → τ → Prop where
  | nil {a : τ} : Runs astep a [] a
  | cons {a b c : τ} {e : ε} {es : List ε} : astep a e b → Runs astep b es c → Runs astep a (e :: es) c

def Allowed (step : σ → ε → σ) (ok : σ → ε → Prop) : σ → List ε → Prop
  | _, [] => True
  | s, e :: es => ok s e ∧ Allowed step ok (step s e) es

/-- A condition on the events alone. -/
theorem Allowed.of_mem : ∀ {es : List ε}, (∀ e ∈ es, ∀ s, ok s e) → ∀ s : σ, Allowed step ok s es
  | [], _, _ => trivial
  | e :: _, h, s => ⟨h e List.mem_cons_self s, Allowed.of_mem (fun e' he' => h e' (List.mem_cons_of_mem e he')) (step s e)⟩

theorem Allowed.of_all (h : ∀ s e, ok s e) (es : List ε) (s : σ) : Allowed step ok s es :=
  Allowed.of_mem (fun e _ s => h s e) s

theorem Allowed.weaken {ok' : σ → ε → Prop} (hw : ∀ s e, ok s e → ok' s e) :
    ∀ {es : List ε} {s : σ}, Allowed step ok s es → Allowed step ok' s es
  | [], _, _ => trivial
  | _ :: _, _, h => ⟨hw _ _ h.1, Allowed.weaken hw h.2⟩

/-- An invariant with a budget of events is kept by a run within the budget. -/
theorem run_keeps (I : Nat → σ → Prop) (ok : σ → ε → Prop) (h : ∀ n s e, I (n + 1) s → ok s e → I n (step s e)) :
    ∀ (es : List ε) {n : Nat} {s : σ}, I (es.length + n) s → Allowed step ok s es → I n (es.foldl step s) := by
  intro es
  induction es with
  | nil =>
    intro n s hi _
    rw [List.length_nil, Nat.zero_add] at hi
    exact hi
  | cons e es ih =>
    intro n s hi ha
    rw [List.length_cons, Nat.add_right_comm] at hi
    exact ih (h _ s e hi ha.1) ha.2

theorem Runs.append {a b c : τ} {es fs : List ε} (h1 : Runs astep a es b) (h2 : Runs astep b fs c) :
    Runs astep a (es ++ fs) c := by
  induction h1 with
  | nil => exact h2
  | cons hs _ ih => exact .cons hs (ih h2)

/-- What an abstract step keeps an abstract run keeps. -/
theorem Runs.keeps {P : τ → Prop} (h : ∀ a e b, P a → astep a e b → P b) {a b : τ} {es : List ε} (hr : Runs astep a es b)
    (ha : P a) : P b := by
  induction hr with
  | nil => exact ha
  | cons hs _ ih => exact ih (h _ _ _ ha hs)

/-- A run seen through a function of the states, where every event of the run is a step of another relation. -/
theorem Runs.map {τ' : Type*} {bstep : τ' → ε → τ' → Prop} (f : τ → τ') {a b : τ} {es : List ε} (hr : Runs astep a es b)
    (h : ∀ e ∈ es, ∀ a b, astep a e b → bstep (f a) e (f b)) : Runs bstep (f a) es (f b) := by
  induction hr with
  | nil => exact .nil
  | cons hs _ ih => exact .cons (h _ List.mem_cons_self _ _ hs) (ih fun e he => h e (List.mem_cons_of_mem _ he))

/-- A step function that follows the abstract relation while an invariant holds. -/
theorem Runs.follow (I : Nat → σ → Prop) (ok : σ → ε → Prop) (abs : σ → τ)
    (h : ∀ n s e, I (n + 1) s → ok s e → I n (step s e) ∧ astep (abs s) e (abs (step s e))) :
    ∀ (es : List ε) {n : Nat} {s : σ}, I (es.length + n) s → Allowed step ok s es →
      Runs astep (abs s) es (abs (es.foldl step s)) := by
  intro es
  induction es with
  | nil => intro n s _ _; exact .nil
  | cons e es ih =>
    intro n s hi ha
    rw [List.length_cons, Nat.add_right_comm] at hi
    obtain ⟨hi', hs⟩ := h _ s e hi ha.1
    exact .cons hs (ih hi' ha.2)

end Myos.Lib
