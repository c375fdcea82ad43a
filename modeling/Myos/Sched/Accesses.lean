/-
  Myos.Sched.Accesses — `schedule()` access by access, and the rule for what every step
  keeps, interrupts inside `schedule()` included.
-/

import Mathlib
import Myos.Sched.Stacks

namespace Myos.Sched.Kernel

variable {Q S : Type*} {k k' k1 : Kernel Q S} {pc pc' : SchedPc} {f : Frame Q S} {fs : List (Frame Q S)}

/-- The kernel after an access of `schedule()`, with the next place in its frame. -/
def accessed (k : Kernel Q S) (fs : List (Frame Q S)) : Option SchedPc → Kernel Q S
  | some pc => k.setFrames (.schedule pc :: fs)
  | none => k

theorem setFrames_setFrames (k : Kernel Q S) (fs gs : List (Frame Q S)) : (k.setFrames fs).setFrames gs = k.setFrames gs := by
  simp [setFrames]

theorem setFrames_self (h : k.frames = fs) : k.setFrames fs = k := by
  simp [setFrames, ← h, frames]

theorem popReady_setFrames (k : Kernel Q S) (fs : List (Frame Q S)) :
    (k.setFrames fs).popReady = k.popReady.map fun r => (r.1, r.2.setFrames fs) := by
  unfold popReady
  simp only [setFrames]
  cases (List.finRange prioNr).reverse.findSome? fun prio => k.ready.find? fun e => e.1 = prio <;> rfl

/-- An access but the last leaves the stack alone. -/
theorem schedStep_frames (h : k.schedStep pc = some (k1, some pc')) : k1.frames = k.frames := by
  cases pc with
  | pick cur =>
    obtain ⟨⟨n, k2⟩, hp, h⟩ := Option.map_eq_some_iff.mp h
    obtain ⟨e, -, -, rfl⟩ := popReady_eq hp
    cases h
    rfl
  | _ => cases h <;> rfl

/-- No access looks at the frame on top. -/
theorem schedStep_setFrames (k : Kernel Q S) (hf : k.frames.tail = fs) : (k.setFrames (f :: fs)).schedStep pc =
    (k.schedStep pc).map fun r => (if r.2 = none then r.1 else r.1.setFrames (f :: fs), r.2) := by
  cases pc with
  | pick cur =>
    simp only [schedStep, popReady_setFrames, Option.map_map]
    congr 1
  | switch cur next =>
    subst hf
    simp [schedStep, setFrames, frames]
  | _ => rfl

theorem schedFor_setFrames (n : Nat) : ∀ (k : Kernel Q S) (pc : SchedPc) (f : Frame Q S), k.frames.tail = fs →
    (k.setFrames (f :: fs)).schedFor n pc = k.schedFor n pc := by
  induction n with
  | zero =>
    intro k pc f hf
    simp only [schedFor, setFrames_frames, setFrames_setFrames, List.tail_cons, hf]
  | succ n ih =>
    intro k pc f hf
    rw [schedFor, schedFor, schedStep_setFrames k hf]
    cases hs : k.schedStep pc with
    | none => rfl
    | some r =>
      obtain ⟨k1, o⟩ := r
      cases o with
      | none => rfl
      | some pc' =>
        have hf1 : k1.frames.tail = fs := by rw [schedStep_frames hs, hf]
        exact ih k1 pc' f hf1

/-- Nothing but the frame of `schedule()` changes on the stacks. -/
theorem accessed_stack {o : Option SchedPc} (hf : k.frames = .schedule pc :: fs) (h : k.schedStep pc = some (k1, o)) :
    ∃ g, (k1.accessed fs o).stack = Function.update k.stack k.running (g ++ fs) ∧ ∀ f ∈ g, ∃ pc, f = .schedule pc := by
  have hone : ∀ pc' : SchedPc, ∀ f ∈ [(.schedule pc' : Frame Q S)], ∃ pc, f = .schedule pc := fun pc' f hm =>
    ⟨pc', List.mem_singleton.mp hm⟩
  cases pc with
  | pick cur =>
    obtain ⟨⟨n, k2⟩, hp, h⟩ := Option.map_eq_some_iff.mp h
    obtain ⟨e, -, -, rfl⟩ := popReady_eq hp
    cases h
    exact ⟨_, rfl, hone _⟩
  | switch cur next =>
    cases h
    refine ⟨[], ?_, fun f hm => absurd hm List.not_mem_nil⟩
    show Function.update k.stack k.running k.frames.tail = _
    rw [hf]
    rfl
  | _ =>
    cases h
    exact ⟨_, rfl, hone _⟩

theorem accessed_eq (k : Kernel Q S) (fs : List (Frame Q S)) (o : Option SchedPc) :
    ∃ stack, k.accessed fs o = { k with stack := stack } := by
  cases o with
  | none => exact ⟨_, rfl⟩
  | some pc => exact ⟨_, rfl⟩

section

variable {P : Kernel Q S → Prop}
  (hP : ∀ k pc fs k1 o, P k → k.frames = .schedule pc :: fs → k.schedStep pc = some (k1, o) → P (k1.accessed fs o))

include hP

/-- What every access keeps, `schedule()` keeps, however far it gets. -/
theorem schedFor_rule (n : Nat) : ∀ (k : Kernel Q S) (pc : SchedPc) (b : Bool) (k' : Kernel Q S), P k →
    k.frames = .schedule pc :: fs → k.schedFor n pc = some (b, k') → P k' := by
  induction n with
  | zero =>
    intro k pc b k' hk hf h
    cases h
    rwa [hf, List.tail_cons, setFrames_self hf]
  | succ n ih =>
    intro k pc b k' hk hf h
    rw [schedFor] at h
    cases hs : k.schedStep pc with
    | none => rw [hs] at h; cases h
    | some r =>
      obtain ⟨k1, o⟩ := r
      have h1 := hP k pc fs k1 o hk hf hs
      rw [hs] at h
      cases o with
      | none => cases h; exact h1
      | some pc' =>
        have hf1 : k1.frames.tail = fs := by rw [schedStep_frames hs, hf, List.tail_cons]
        dsimp only at h
        rw [← schedFor_setFrames n k1 pc' (.schedule pc') hf1] at h
        exact ih _ pc' b k' h1 (setFrames_frames ..) h

/-- What every access of `schedule()`, every other frame, every call and every interrupt keeps
    is kept by a step. -/
theorem step_rule [DecidableEq Q] [DecidableEq S] {e : Event Q S}
    (hcall : ∀ c, e = .call c → k.frames = [] → P k → P (k.enter c))
    (hrun : ∀ b f fs k', e = .run b → k.frames = f :: fs → (∀ pc, f ≠ .schedule pc) → P k → k.resume b fs f = some k' → P k')
    (hirq : ∀ k i, (e = .irq i ∨ ∃ n, e = .irqInside n i) → P k → P (k.interrupt i)) (hk : P k) (h : step k e = some k') : P k' := by
  cases e with
  | call c =>
    simp only [step] at h
    split at h
    · next h0 => cases h; exact hcall c rfl h0 hk
    · cases h
  | run b =>
    simp only [step] at h
    split at h
    · cases h
    · next f fs hf =>
      by_cases hs : ∃ pc, f = .schedule pc
      · obtain ⟨pc, rfl⟩ := hs
        obtain ⟨⟨b', k1⟩, h1, rfl⟩ := Option.map_eq_some_iff.mp h
        exact schedFor_rule hP 6 k pc b' k1 hk hf h1
      · exact hrun b f fs k' rfl hf (fun pc e => hs ⟨pc, e⟩) hk h
  | irq i =>
    cases h
    exact hirq k i (Or.inl rfl) hk
  | irqInside n i =>
    simp only [step] at h
    split at h
    · next pc fs hf =>
      split at h
      · next k1 hs =>
        split at h
        · cases h
        · cases h
          exact hirq k1 i (Or.inr ⟨n, rfl⟩) (schedFor_rule hP n k pc false k1 hk hf hs)
      · cases h
    · cases h

end

end Myos.Sched.Kernel
