/-
  Myos.Lib.Dyadic — blocks of `2 ^ k` consecutive units at a multiple of `2 ^ k`.

  Two such blocks are nested or disjoint (`covers_nested`), so an interval cut into
  labelled blocks (`Tiling`) is changed only by splitting a block into its halves,
  joining two buddies, relabelling, or extending the interval at its end.

  A family of disjoint blocks of order at most `M` without a pair of buddies below
  `M` is determined by the set of units it covers (`canonical_ext`): its blocks are
  the maximal aligned runs of covered units (`mem_iff_maximal`).
-/

import Mathlib.Data.Nat.Bitwise
import Mathlib.Data.Set.Lattice
import Mathlib.Logic.Function.Basic
import Mathlib.Tactic.Ring

namespace Myos.Lib.Dyadic

/-- Unit `x` lies in the block of `2 ^ k` units at `p`. -/
def Covers (p k x : Nat) : Prop := p ≤ x ∧ x < p + 2 ^ k

instance (p k x : Nat) : Decidable (Covers p k x) := by unfold Covers; infer_instance

/-- The other half of the block of order `k + 1` around `p`. -/
def buddy (p k : Nat) : Nat := p ^^^ 2 ^ k

/-! ## Alignment -/

theorem pow_dvd_of_le {p k j : Nat} (h : 2 ^ k ∣ p) (hj : j ≤ k) : 2 ^ j ∣ p :=
  (Nat.pow_dvd_pow 2 hj).trans h

theorem covers_self (p k : Nat) : Covers p k p := ⟨Nat.le_refl _, by have := Nat.two_pow_pos k; omega⟩

theorem covers_iff_div {p k : Nat} (h : 2 ^ k ∣ p) (x : Nat) : Covers p k x ↔ x / 2 ^ k = p / 2 ^ k := by
  obtain ⟨a, rfl⟩ := h
  have hp := Nat.two_pow_pos k
  rw [Nat.mul_div_cancel_left _ hp, Nat.div_eq_iff hp]
  unfold Covers
  rw [Nat.mul_comm a]
  omega

/-- Of two aligned blocks that share a unit, the larger contains the smaller. -/
theorem covers_nested {p k q j x : Nat} (hp : 2 ^ k ∣ p) (hq : 2 ^ j ∣ q) (hkj : k ≤ j)
    (h1 : Covers p k x) (h2 : Covers q j x) : ∀ y, Covers p k y → Covers q j y := by
  intro y hy
  rw [covers_iff_div hp] at h1 hy
  rw [covers_iff_div hq] at h2 ⊢
  obtain ⟨d, rfl⟩ := Nat.exists_eq_add_of_le hkj
  rw [Nat.pow_add, ← Nat.div_div_eq_div_mul] at h2 ⊢
  rw [hy, ← h1, h2]

theorem covers_same {p q k x : Nat} (hp : 2 ^ k ∣ p) (hq : 2 ^ k ∣ q) (h1 : Covers p k x) (h2 : Covers q k x) :
    p = q := by
  rw [covers_iff_div hp] at h1
  rw [covers_iff_div hq] at h2
  have := h1.symm.trans h2
  rw [← Nat.div_mul_cancel hp, ← Nat.div_mul_cancel hq, this]

theorem covers_halves (p k x : Nat) : Covers p (k + 1) x ↔ Covers p k x ∨ Covers (p + 2 ^ k) k x := by
  unfold Covers
  rw [Nat.pow_succ]
  omega

/-! ## Buddies -/

theorem buddy_of_even {p k : Nat} (h : 2 ^ (k + 1) ∣ p) : buddy p k = p + 2 ^ k := by
  obtain ⟨a, rfl⟩ := h
  have he : Even (2 * a) := even_two_mul a
  have := Nat.xor_one_of_even he
  have h2 : 2 ^ (k + 1) * a = 2 * a * 2 ^ k := by ring
  unfold buddy
  rw [h2, ← Nat.shiftLeft_eq, ← Nat.one_shiftLeft, ← Nat.shiftLeft_xor_distrib, this, Nat.shiftLeft_eq,
    Nat.shiftLeft_eq, Nat.shiftLeft_eq]
  ring

theorem buddy_of_odd {p k : Nat} (h : 2 ^ k ∣ p) (hn : ¬ 2 ^ (k + 1) ∣ p) : buddy p k + 2 ^ k = p := by
  obtain ⟨a, rfl⟩ := h
  have ho : Odd a := by
    rcases Nat.even_or_odd a with ⟨b, rfl⟩ | ho
    · exact absurd ⟨b, by ring⟩ hn
    · exact ho
  have hx := Nat.xor_one_of_odd ho
  obtain ⟨b, rfl⟩ := ho
  unfold buddy
  rw [Nat.mul_comm, ← Nat.shiftLeft_eq, ← Nat.one_shiftLeft, ← Nat.shiftLeft_xor_distrib, hx, Nat.shiftLeft_eq,
    Nat.shiftLeft_eq, Nat.shiftLeft_eq]
  rw [Nat.add_sub_cancel]
  ring

theorem buddy_buddy (p k : Nat) : buddy (buddy p k) k = p := by simp [buddy]

theorem buddy_ne (p k : Nat) : buddy p k ≠ p := by
  intro h
  have := congrArg (fun x => p ^^^ x) h
  simp [buddy] at this

theorem buddy_aligned {p k : Nat} (h : 2 ^ k ∣ p) : 2 ^ k ∣ buddy p k := by
  by_cases he : 2 ^ (k + 1) ∣ p
  · rw [buddy_of_even he]; exact Nat.dvd_add h (Nat.dvd_refl _)
  · rw [← Nat.dvd_add_left (Nat.dvd_refl (2 ^ k)), buddy_of_odd h he]
    exact h

/-- The lower of two buddies starts their union. -/
theorem min_buddy_aligned {p k : Nat} (h : 2 ^ k ∣ p) : 2 ^ (k + 1) ∣ min p (buddy p k) := by
  by_cases he : 2 ^ (k + 1) ∣ p
  · rw [buddy_of_even he, Nat.min_eq_left (by omega)]; exact he
  · have hb := buddy_of_odd h he
    rw [Nat.min_eq_right (by omega)]
    obtain ⟨a, rfl⟩ := h
    have hk := Nat.two_pow_pos k
    obtain ⟨b, rfl | rfl⟩ := Nat.even_or_odd' a
    · exact absurd ⟨b, by ring⟩ he
    · refine ⟨b, ?_⟩
      have : 2 ^ k * (2 * b + 1) = 2 ^ (k + 1) * b + 2 ^ k := by ring
      omega

theorem max_eq_min_add {p k : Nat} (h : 2 ^ k ∣ p) : max p (buddy p k) = min p (buddy p k) + 2 ^ k := by
  by_cases he : 2 ^ (k + 1) ∣ p
  · rw [buddy_of_even he]; omega
  · have hb := buddy_of_odd h he; omega

/-- The start of the block of order `k + 1` around `p`. -/
def parent (p k : Nat) : Nat := p / 2 ^ (k + 1) * 2 ^ (k + 1)

theorem parent_aligned (p k : Nat) : 2 ^ (k + 1) ∣ parent p k := Nat.dvd_mul_left _ _

theorem parent_eq_min {p k : Nat} (h : 2 ^ k ∣ p) : parent p k = min p (buddy p k) := by
  have hm := min_buddy_aligned h
  have hx := max_eq_min_add h
  have hc : Covers (min p (buddy p k)) (k + 1) p := by
    unfold Covers; have := Nat.two_pow_pos k; rw [Nat.pow_succ]; omega
  rw [covers_iff_div hm] at hc
  unfold parent
  rw [hc, Nat.div_mul_cancel hm]

theorem covers_parent {p k : Nat} (h : 2 ^ k ∣ p) (x : Nat) :
    Covers (parent p k) (k + 1) x ↔ Covers p k x ∨ Covers (buddy p k) k x := by
  rw [parent_eq_min h, covers_halves, ← max_eq_min_add h]
  rcases Nat.le_total p (buddy p k) with hle | hle
  · rw [Nat.min_eq_left hle, Nat.max_eq_right hle]
  · rw [Nat.min_eq_right hle, Nat.max_eq_left hle, or_comm]

/-! ## Canonical families -/

section Canonical

variable (M : Nat) (F : Set (Nat × Nat))

/-- Disjoint aligned blocks of order at most `M`, no two of which are buddies below `M`. -/
structure Canonical : Prop where
  aligned : ∀ {p k}, (p, k) ∈ F → 2 ^ k ∣ p
  bounded : ∀ {p k}, (p, k) ∈ F → k ≤ M
  apart : ∀ {p k q j x}, (p, k) ∈ F → (q, j) ∈ F → Covers p k x → Covers q j x → p = q ∧ k = j
  noBuddies : ∀ {p k}, k < M → (p, k) ∈ F → (buddy p k, k) ∉ F

/-- The units a family covers. -/
def cover : Set Nat := {x | ∃ p k, (p, k) ∈ F ∧ Covers p k x}

/-- Every unit of the block of order `k` at `p` is covered. -/
def Full (p k : Nat) : Prop := ∀ x, Covers p k x → x ∈ cover F

variable {M F}

/-- An aligned run of covered units lies in one block. -/
theorem full_in_block (h : Canonical M F) : ∀ {k p : Nat}, k ≤ M → 2 ^ k ∣ p → Full F p k →
    ∃ q j, (q, j) ∈ F ∧ k ≤ j ∧ ∀ x, Covers p k x → Covers q j x := by
  intro k
  induction k with
  | zero =>
    intro p _ hp hf
    obtain ⟨q, j, hm, hc⟩ := hf p (covers_self p 0)
    exact ⟨q, j, hm, Nat.zero_le _, covers_nested hp (h.aligned hm) (Nat.zero_le _) (covers_self p 0) hc⟩
  | succ k ih =>
    intro p hk hp hf
    have hp' := pow_dvd_of_le hp (Nat.le_succ k)
    have hb := buddy_of_even hp
    have hlo : Full F p k := fun x hx => hf x ((covers_halves p k x).mpr (Or.inl hx))
    have hhi : Full F (p + 2 ^ k) k := fun x hx => hf x ((covers_halves p k x).mpr (Or.inr hx))
    have hpb : 2 ^ k ∣ p + 2 ^ k := Nat.dvd_add hp' (Nat.dvd_refl _)
    obtain ⟨q, j, hm, hkj, hc⟩ := ih (by omega) hp' hlo
    obtain ⟨r, i, hn, hki, hd⟩ := ih (by omega) hpb hhi
    -- a half that lies in a larger block drags the whole block in with it
    have grow : ∀ {q j x}, (q, j) ∈ F → k + 1 ≤ j → Covers p (k + 1) x → Covers q j x →
        ∃ q j, (q, j) ∈ F ∧ k + 1 ≤ j ∧ ∀ x, Covers p (k + 1) x → Covers q j x :=
      fun {q j x} hm hj h1 h2 => ⟨q, j, hm, hj, covers_nested hp (h.aligned hm) hj h1 h2⟩
    rcases Nat.lt_or_ge k j with hj | hj
    · exact grow hm hj (covers_self p _) (hc p (covers_self p k))
    rcases Nat.lt_or_ge k i with hi | hi
    · exact grow hn hi ((covers_halves p k _).mpr (Or.inr (covers_self _ k))) (hd _ (covers_self _ k))
    obtain rfl : j = k := by omega
    obtain rfl : i = j := by omega
    have e1 := covers_same hp' (h.aligned hm) (covers_self p i) (hc p (covers_self p i))
    have e2 := covers_same hpb (h.aligned hn) (covers_self _ i) (hd _ (covers_self _ i))
    subst e1 e2
    exact absurd (hb ▸ hn) (h.noBuddies (by omega) hm)

/-- The blocks are the maximal aligned runs of covered units. -/
theorem mem_iff_maximal (h : Canonical M F) (p k : Nat) :
    (p, k) ∈ F ↔ 2 ^ k ∣ p ∧ k ≤ M ∧ Full F p k ∧ (k < M → ¬ Full F (parent p k) (k + 1)) := by
  constructor
  · intro hm
    refine ⟨h.aligned hm, h.bounded hm, fun x hx => ⟨p, k, hm, hx⟩, fun hk hf => ?_⟩
    obtain ⟨q, j, hn, hj, hc⟩ := full_in_block h hk (parent_aligned p k) hf
    have hp := hc p ((covers_parent (h.aligned hm) p).mpr (Or.inl (covers_self p k)))
    have := (h.apart hm hn (covers_self p k) hp).2
    omega
  · rintro ⟨ha, hk, hf, hmax⟩
    obtain ⟨q, j, hn, hj, hc⟩ := full_in_block h hk ha hf
    have hq := hc p (covers_self p k)
    rcases Nat.lt_or_ge k j with hlt | hge
    · exfalso
      have hkM : k < M := Nat.lt_of_lt_of_le hlt (h.bounded hn)
      have hpar : Covers (parent p k) (k + 1) p := (covers_parent ha p).mpr (Or.inl (covers_self p k))
      exact hmax hkM fun x hx =>
        ⟨q, j, hn, covers_nested (parent_aligned p k) (h.aligned hn) hlt hpar hq x hx⟩
    · obtain rfl : j = k := by omega
      rw [covers_same ha (h.aligned hn) (covers_self p j) hq]
      exact hn

/-- A canonical family is determined by the units it covers. -/
theorem canonical_ext {G : Set (Nat × Nat)} (hF : Canonical M F) (hG : Canonical M G) (hc : cover F = cover G) :
    F = G := by
  have hfull : ∀ p k, Full F p k ↔ Full G p k := fun p k => by unfold Full; rw [hc]
  ext ⟨p, k⟩
  rw [mem_iff_maximal hF, mem_iff_maximal hG, hfull p k, hfull (parent p k) (k + 1)]

end Canonical

/-! ## Tilings -/

section Tiling

variable {τ : Type}

/-- `T` cuts `[lo, hi)` into labelled aligned blocks: `T p = some (k, t)` says a block
    of order `k` with label `t` starts at `p`. -/
structure Tiling (lo hi : Nat) (T : Nat → Option (Nat × τ)) : Prop where
  aligned : ∀ {p k t}, T p = some (k, t) → 2 ^ k ∣ p
  inside : ∀ {p k t}, T p = some (k, t) → lo ≤ p ∧ p + 2 ^ k ≤ hi
  covered : ∀ x, lo ≤ x → x < hi → ∃ p k t, T p = some (k, t) ∧ Covers p k x
  apart : ∀ {p k t q j u x}, T p = some (k, t) → T q = some (j, u) → Covers p k x → Covers q j x → p = q

theorem tiling_empty (lo : Nat) : Tiling lo lo (fun _ => (none : Option (Nat × τ))) := by
  constructor
  · intro _ _ _ h; cases h
  · intro _ _ _ h; cases h
  · intro x h1 h2; omega
  · intro _ _ _ _ _ _ _ h; cases h

variable {lo hi : Nat} {T : Nat → Option (Nat × τ)}

/-- No block starts inside another. -/
theorem Tiling.inner (h : Tiling lo hi T) {p k t x} (hp : T p = some (k, t)) (hx : Covers p k x) (hne : x ≠ p) :
    T x = none := by
  cases hT : T x with
  | none => rfl
  | some b =>
    obtain ⟨j, u⟩ := b
    exact absurd (h.apart hp hT hx (covers_self x j)).symm hne

theorem Tiling.relabel (h : Tiling lo hi T) {p k t} (hp : T p = some (k, t)) (u : τ) :
    Tiling lo hi (Function.update T p (some (k, u))) := by
  have key : ∀ {q j v}, Function.update T p (some (k, u)) q = some (j, v) → ∃ v', T q = some (j, v') := by
    intro q j v hq
    by_cases e : q = p
    · subst e; simp at hq; exact ⟨t, by rw [hp, hq.1]⟩
    · rw [Function.update_of_ne e] at hq; exact ⟨v, hq⟩
  refine ⟨fun hq => ?_, fun hq => ?_, fun x h1 h2 => ?_, fun hq hr hx hy => ?_⟩
  · obtain ⟨_, hq⟩ := key hq; exact h.aligned hq
  · obtain ⟨_, hq⟩ := key hq; exact h.inside hq
  · obtain ⟨q, j, v, hq, hx⟩ := h.covered x h1 h2
    by_cases e : q = p
    · subst e
      rw [hp] at hq; cases hq
      exact ⟨q, k, u, by simp, hx⟩
    · exact ⟨q, j, v, by rw [Function.update_of_ne e]; exact hq, hx⟩
  · obtain ⟨_, hq⟩ := key hq; obtain ⟨_, hr⟩ := key hr; exact h.apart hq hr hx hy

/-- Cut the block at `p` into its halves. -/
theorem Tiling.split (h : Tiling lo hi T) {p k t} (hp : T p = some (k + 1, t)) (u v : τ) :
    Tiling lo hi (Function.update (Function.update T p (some (k, u))) (p + 2 ^ k) (some (k, v))) := by
  have hk := Nat.two_pow_pos k
  have hal := h.aligned hp
  have hins := h.inside hp
  rw [Nat.pow_succ] at hins
  -- a block of the new tiling is a half of the old one or an old block elsewhere
  have key : ∀ {q j w}, Function.update (Function.update T p (some (k, u))) (p + 2 ^ k) (some (k, v)) q = some (j, w) →
      (q = p ∧ j = k) ∨ (q = p + 2 ^ k ∧ j = k) ∨ (q ≠ p ∧ T q = some (j, w)) := by
    intro q j w hq
    by_cases e : q = p + 2 ^ k
    · subst e; simp at hq; exact Or.inr (Or.inl ⟨rfl, hq.1.symm⟩)
    · rw [Function.update_of_ne e] at hq
      by_cases e' : q = p
      · subst e'; simp at hq; exact Or.inl ⟨rfl, hq.1.symm⟩
      · rw [Function.update_of_ne e'] at hq; exact Or.inr (Or.inr ⟨e', hq⟩)
  have old : ∀ {q j w x}, q ≠ p → T q = some (j, w) → Covers q j x → ¬ Covers p (k + 1) x :=
    fun hne hq hx hx' => hne (h.apart hq hp hx hx')
  refine ⟨fun hq => ?_, fun hq => ?_, fun x h1 h2 => ?_, fun hq hr hx hy => ?_⟩
  · rcases key hq with ⟨rfl, rfl⟩ | ⟨rfl, rfl⟩ | ⟨_, hq⟩
    · exact pow_dvd_of_le hal (Nat.le_succ _)
    · exact Nat.dvd_add (pow_dvd_of_le hal (Nat.le_succ _)) (Nat.dvd_refl _)
    · exact h.aligned hq
  · rcases key hq with ⟨rfl, rfl⟩ | ⟨rfl, rfl⟩ | ⟨_, hq⟩
    · omega
    · omega
    · exact h.inside hq
  · obtain ⟨q, j, w, hq, hx⟩ := h.covered x h1 h2
    by_cases e : q = p
    · subst e
      rw [hp] at hq; cases hq
      rcases (covers_halves q k x).mp hx with hx | hx
      · exact ⟨q, k, u, by rw [Function.update_of_ne (by omega)]; simp, hx⟩
      · exact ⟨q + 2 ^ k, k, v, by simp, hx⟩
    · have e2 : q ≠ p + 2 ^ k := by
        intro e2
        exact old e hq (covers_self q j) (by rw [e2, covers_halves]; exact Or.inr (covers_self _ k))
      exact ⟨q, j, w, by rw [Function.update_of_ne e2, Function.update_of_ne e]; exact hq, hx⟩
  · have lo' : ∀ x, Covers p k x → Covers p (k + 1) x := fun x hx => (covers_halves p k x).mpr (Or.inl hx)
    have hi' : ∀ x, Covers (p + 2 ^ k) k x → Covers p (k + 1) x := fun x hx => (covers_halves p k x).mpr (Or.inr hx)
    rcases key hq with ⟨rfl, rfl⟩ | ⟨rfl, rfl⟩ | ⟨hne, hq0⟩ <;>
      rcases key hr with ⟨rfl, rfl⟩ | ⟨rfl, rfl⟩ | ⟨hne', hr0⟩
    · rfl
    · unfold Covers at hx hy; omega
    · exact absurd (lo' _ hx) (old hne' hr0 hy)
    · unfold Covers at hx hy; omega
    · rfl
    · exact absurd (hi' _ hx) (old hne' hr0 hy)
    · exact absurd (lo' _ hy) (old hne hq0 hx)
    · exact absurd (hi' _ hy) (old hne hq0 hx)
    · exact h.apart hq0 hr0 hx hy

/-- Join the block at `p` with the block after it, its upper half. -/
theorem Tiling.join (h : Tiling lo hi T) {p k t u} (hal : 2 ^ (k + 1) ∣ p) (hp : T p = some (k, t))
    (hb : T (p + 2 ^ k) = some (k, u)) (v : τ) :
    Tiling lo hi (Function.update (Function.update T (p + 2 ^ k) none) p (some (k + 1, v))) := by
  have hk := Nat.two_pow_pos k
  have hlo := (h.inside hp).1
  have hhi := (h.inside hb).2
  have key : ∀ {q j w}, Function.update (Function.update T (p + 2 ^ k) none) p (some (k + 1, v)) q = some (j, w) →
      (q = p ∧ j = k + 1) ∨ (q ≠ p ∧ q ≠ p + 2 ^ k ∧ T q = some (j, w)) := by
    intro q j w hq
    by_cases e : q = p
    · subst e; simp at hq; exact Or.inl ⟨rfl, hq.1.symm⟩
    · rw [Function.update_of_ne e] at hq
      by_cases e' : q = p + 2 ^ k
      · subst e'; simp at hq
      · rw [Function.update_of_ne e'] at hq; exact Or.inr ⟨e, e', hq⟩
  have old : ∀ {q j w x}, q ≠ p → q ≠ p + 2 ^ k → T q = some (j, w) → Covers q j x → ¬ Covers p (k + 1) x := by
    intro q j w x hne hne' hq hx hx'
    rcases (covers_halves p k x).mp hx' with hx' | hx'
    · exact hne (h.apart hq hp hx hx')
    · exact hne' (h.apart hq hb hx hx')
  refine ⟨fun hq => ?_, fun hq => ?_, fun x h1 h2 => ?_, fun hq hr hx hy => ?_⟩
  · rcases key hq with ⟨rfl, rfl⟩ | ⟨_, _, hq⟩
    · exact hal
    · exact h.aligned hq
  · rcases key hq with ⟨rfl, rfl⟩ | ⟨_, _, hq⟩
    · rw [Nat.pow_succ]; omega
    · exact h.inside hq
  · obtain ⟨q, j, w, hq, hx⟩ := h.covered x h1 h2
    by_cases e : q = p
    · subst e
      rw [hp] at hq; cases hq
      exact ⟨q, k + 1, v, by simp, (covers_halves q k x).mpr (Or.inl hx)⟩
    · by_cases e' : q = p + 2 ^ k
      · subst e'
        rw [hb] at hq; cases hq
        exact ⟨p, k + 1, v, by simp, (covers_halves p k x).mpr (Or.inr hx)⟩
      · exact ⟨q, j, w, by rw [Function.update_of_ne e, Function.update_of_ne e']; exact hq, hx⟩
  · rcases key hq with ⟨rfl, rfl⟩ | ⟨hne, hne2, hq0⟩ <;> rcases key hr with ⟨rfl, rfl⟩ | ⟨hne', hne2', hr0⟩
    · rfl
    · exact absurd hx (old hne' hne2' hr0 hy)
    · exact absurd hy (old hne hne2 hq0 hx)
    · exact h.apart hq0 hr0 hx hy

/-- Lay one more block at the end of the interval. -/
theorem Tiling.extend (h : Tiling lo hi T) {k : Nat} (hle : lo ≤ hi) (hal : 2 ^ k ∣ hi) (t : τ) :
    Tiling lo (hi + 2 ^ k) (Function.update T hi (some (k, t))) := by
  have hk := Nat.two_pow_pos k
  have key : ∀ {q j w}, Function.update T hi (some (k, t)) q = some (j, w) →
      (q = hi ∧ j = k) ∨ (q ≠ hi ∧ T q = some (j, w)) := by
    intro q j w hq
    by_cases e : q = hi
    · subst e; simp at hq; exact Or.inl ⟨rfl, hq.1.symm⟩
    · rw [Function.update_of_ne e] at hq; exact Or.inr ⟨e, hq⟩
  refine ⟨fun hq => ?_, fun hq => ?_, fun x h1 h2 => ?_, fun hq hr hx hy => ?_⟩
  · rcases key hq with ⟨rfl, rfl⟩ | ⟨_, hq⟩
    · exact hal
    · exact h.aligned hq
  · rcases key hq with ⟨rfl, rfl⟩ | ⟨_, hq⟩
    · omega
    · have := h.inside hq; omega
  · by_cases hx : x < hi
    · obtain ⟨q, j, w, hq, hc⟩ := h.covered x h1 hx
      have := (h.inside hq).2
      have := Nat.two_pow_pos j
      exact ⟨q, j, w, by rw [Function.update_of_ne (by omega)]; exact hq, hc⟩
    · exact ⟨hi, k, t, by simp, by unfold Covers; omega⟩
  · rcases key hq with ⟨rfl, rfl⟩ | ⟨hne, hq0⟩ <;> rcases key hr with ⟨rfl, rfl⟩ | ⟨hne', hr0⟩
    · rfl
    · have := (h.inside hr0).2; unfold Covers at hx hy; omega
    · have := (h.inside hq0).2; unfold Covers at hx hy; omega
    · exact h.apart hq0 hr0 hx hy

end Tiling

end Myos.Lib.Dyadic
