/-
  Myos.Lib.Runs — the runs of a deterministic step function whose steps meet a
  condition: the states they reach, and a way to evaluate one.
-/

import Mathlib.Tactic.TypeStar

namespace Myos.Lib

variable {σ ε : Type*} {step : σ → ε → Option σ} {ok : σ → ε → Prop} {init : σ → Prop}

/-- The states of the runs from `init` whose steps all meet `ok`. -/
inductive Reach (step : σ → ε → Option σ) (ok : σ → ε → Prop) (init : σ → Prop) : σ → Prop where
  | init {s : σ} : init s → Reach step ok init s
  | step {s s' : σ} {e : ε} : Reach step ok init s → ok s e → step s e = some s' → Reach step ok init s'

/-- What holds at the start and is kept by every step that meets the condition. -/
theorem Reach.rule {P : σ → Prop} (h0 : ∀ s, init s → P s)
    (hs : ∀ s e s', P s → ok s e → step s e = some s' → P s') {s : σ} (h : Reach step ok init s) : P s := by
  induction h with
  | init h => exact h0 _ h
  | step _ hok he ih => exact hs _ _ _ ih hok he

theorem Reach.weaken {ok' : σ → ε → Prop} (hw : ∀ s e, ok s e → ok' s e) {s : σ} (h : Reach step ok init s) :
    Reach step ok' init s := by
  induction h with
  | init h => exact .init h
  | step _ hok he ih => exact ih.step (hw _ _ hok) he

/-- The state a list of events leads to. -/
def trace (step : σ → ε → Option σ) (s : σ) : List ε → Option σ
  | [] => some s
  | e :: es => (step s e).bind fun s => trace step s es

/-- Every event of the list meets `ok` when its turn comes. -/
def Meets (step : σ → ε → Option σ) (ok : σ → ε → Prop) (s : σ) : List ε → Prop
  | [] => True
  | e :: es => ok s e ∧ ∀ s' ∈ step s e, Meets step ok s' es

instance (step : σ → ε → Option σ) (ok : σ → ε → Prop) [∀ s e, Decidable (ok s e)] :
    ∀ (es : List ε) (s : σ), Decidable (Meets step ok s es)
  | [], _ => isTrue trivial
  | e :: es, s =>
    match h : step s e with
    | none => decidable_of_iff (ok s e) (by simp [Meets, h])
    | some s' =>
      have := instDecidableMeets step ok es s'
      decidable_of_iff (ok s e ∧ Meets step ok s' es) (by simp [Meets, h])

theorem Reach.of_trace : ∀ {es : List ε} {s s' : σ}, Reach step ok init s → Meets step ok s es →
    trace step s es = some s' → Reach step ok init s' := by
  intro es
  induction es with
  | nil => intro s s' h _ he; cases he; exact h
  | cons e es ih =>
    intro s s' h hok he
    obtain ⟨s1, h1, h2⟩ := Option.bind_eq_some_iff.mp he
    exact ih (h.step hok.1 h1) (hok.2 s1 h1) h2

/-- A condition on the events alone. -/
theorem Meets.of_mem : ∀ {es : List ε}, (∀ e ∈ es, ∀ s, ok s e) → ∀ s : σ, Meets step ok s es
  | [], _, _ => trivial
  | e :: _, h, s => ⟨h e List.mem_cons_self s, fun s' _ => Meets.of_mem (fun e' he' => h e' (List.mem_cons_of_mem e he')) s'⟩

theorem meets_true (step : σ → ε → Option σ) : ∀ (es : List ε) (s : σ), Meets step (fun _ _ => True) s es
  | [], _ => trivial
  | _ :: es, _ => ⟨trivial, fun s' _ => meets_true step es s'⟩

/-- A run that was evaluated: a decidable fact about its last state holds of a state reached. -/
theorem Reach.of_any (p : σ → Bool) {es : List ε} {s : σ} (h : Reach step ok init s) (hok : Meets step ok s es)
    (he : (trace step s es).any p = true) : ∃ s', Reach step ok init s' ∧ trace step s es = some s' ∧ p s' = true := by
  cases ht : trace step s es with
  | none => rw [ht] at he; cases he
  | some s' =>
    rw [ht] at he
    exact ⟨s', h.of_trace hok ht, rfl, he⟩

/-- The same for a run from a start that was evaluated too. -/
theorem exists_run (step : σ → ε → Option σ) (ok : σ → ε → Prop) (es : List ε) (p : σ → Bool) {o : Option σ}
    [∀ s, Decidable (Meets step ok s es)] (hi : ∀ s, o = some s → init s) (hok : (o.all fun s => decide (Meets step ok s es)) = true)
    (he : (o.bind fun s => trace step s es).any p = true) :
    ∃ s', Reach step ok init s' ∧ (o.bind fun s => trace step s es) = some s' ∧ p s' = true := by
  cases ho : o with
  | none => rw [ho] at he; cases he
  | some s =>
    rw [ho] at hok he
    exact (Reach.init (hi s ho)).of_any p (of_decide_eq_true hok) he

/-! ## Progress -/

/-- The runs from `s` whose steps all meet `ok`, with the number of their steps that are marked. -/
inductive Marked (step : σ → ε → Option σ) (ok mark : σ → ε → Prop) (s : σ) : Nat → σ → Prop where
  | refl : Marked step ok mark s 0 s
  | other {n : Nat} {s' s'' : σ} {e : ε} : Marked step ok mark s n s' → ok s' e → step s' e = some s'' →
      Marked step ok mark s n s''
  | mark {n : Nat} {s' s'' : σ} {e : ε} : Marked step ok mark s n s' → ok s' e → step s' e = some s'' → mark s' e →
      Marked step ok mark s (n + 1) s''

/-- A goal that is kept, and a rank that no step raises and every marked step lowers until the
    goal is there: with more marked steps than the rank the goal is reached. -/
theorem Marked.progress {mark : σ → ε → Prop} {P G : σ → Prop} {r : σ → Nat} {s : σ} {n : Nat} {s' : σ}
    (h : Marked step ok mark s n s') (h0 : P s) (hp : ∀ s e s', P s → ok s e → step s e = some s' → P s')
    (hg : ∀ s e s', P s → ok s e → step s e = some s' → G s → G s')
    (hr : ∀ s e s', P s → ok s e → step s e = some s' → ¬ G s →
      G s' ∨ r s' ≤ r s ∧ (mark s e → r s' < r s)) : P s' ∧ (G s' ∨ r s' + n ≤ r s) := by
  induction h with
  | refl => exact ⟨h0, Or.inr (Nat.le_refl _)⟩
  | @other n s1 s2 e _ hok hs ih =>
    obtain ⟨h1, h2⟩ := ih
    refine ⟨hp _ _ _ h1 hok hs, ?_⟩
    by_cases hG : G s1
    · exact Or.inl (hg _ _ _ h1 hok hs hG)
    · refine (hr _ _ _ h1 hok hs hG).imp_right fun h3 => ?_
      have h4 := h2.resolve_left hG
      have h5 := h3.1
      omega
  | @mark n s1 s2 e _ hok hs hm ih =>
    obtain ⟨h1, h2⟩ := ih
    refine ⟨hp _ _ _ h1 hok hs, ?_⟩
    by_cases hG : G s1
    · exact Or.inl (hg _ _ _ h1 hok hs hG)
    · refine (hr _ _ _ h1 hok hs hG).imp_right fun h3 => ?_
      have h4 := h2.resolve_left hG
      have h5 := h3.2 hm
      omega

end Myos.Lib
