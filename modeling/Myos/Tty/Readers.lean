/-
  Myos.Tty.Readers — the tasks that wait for a line, and the signals that should interrupt them
  (`rust/src/kernel/tty.rs`, `signal.rs`, `do_kill`).

  The machine of `Myos.Sched.Machine` with a terminal: `tty` is its wait queue, the condition
  of `wait_event` there is the one of `read_line`, and the interrupts of the UART are bytes.
  A byte that is neither Ctrl-C, Ctrl-Z nor the end of a line signals and wakes nobody.

  Proved: if no fatal signal is sent to a task asleep in the queue, but by Ctrl-C or Ctrl-Z to
  the very task that is interrupted, and no task in the queue with one pending is stopped or
  sleeps elsewhere, then nobody sleeps in the queue with a fatal signal pending once the
  interrupt is through. Neither `input_char` nor `do_kill` wakes the queue.
-/

import Mathlib
import Myos.Sched.Registration
import Myos.Tty.Line

namespace Myos.Sched

/-- The default actions that end or stop a task. -/
def SigAction.fatal : SigAction → Bool
  | .terminate | .core | .stop => true
  | .ignore | .cont | .handler => false

def SignalState.hasFatalPending (s : SignalState) : Bool :=
  (List.range maxSignals).any fun sig => (s.pending &&& ~~~s.blocked).getLsbD sig && (defaultAction sig).fatal

/-- The console: the scheduler's machine, whether a line is ready, the foreground process. -/
structure Console (Q S : Type*) where
  k : Kernel Q S
  lineReady : Bool
  foreground : Pid

/-- `input`: a byte, at any place or after so many accesses of `schedule()`. `collect`: `read_line`
    takes the line. -/
inductive ConsoleEvent (Q S : Type*) where
  | kernel (e : Event Q S)
  | input (inside : Option Nat) (ch : UInt8)
  | collect
  | setForeground (pid : Pid)
  deriving DecidableEq, Repr

variable {Q S : Type*}

namespace Console

/-- What the condition of `read_line` says. -/
def wakes (c : Console Q S) : Bool := c.lineReady || (c.k.task c.k.current).signals.hasFatalPending

/-- The wait condition of the terminal's queue is the one of `read_line`. -/
def Honest (tty : Q) (c : Console Q S) : Event Q S → Prop
  | .run b =>
    match c.k.frames with
    | .waitEvent q :: _ => q = tty → b = c.wakes
    | _ => True
  | _ => True

/-- What `input_char` does to the tasks. There is no task 0. -/
def inputIrq (tty : Q) (c : Console Q S) (ch : UInt8) : Irq Q :=
  if ch = Terminal.ctrlC then .ctrlC c.foreground
  else if ch = Terminal.ctrlZ then .ctrlZ c.foreground
  else if Terminal.submits ch then .wake tty
  else .ctrlC 0

def interruptBy (i : Irq Q) : Option Nat → Event Q S
  | none => .irq i
  | some n => .irqInside n i

instance honestDecidable [DecidableEq Q] (tty : Q) (c : Console Q S) (e : Event Q S) : Decidable (Honest tty c e) := by
  delta Honest
  exact match e with
    | .call _ | .irq _ | .irqInside _ _ => isTrue trivial
    | .run b => by
      generalize c.k.frames = gs
      exact match gs with
        | .waitEvent q :: _ => inferInstanceAs (Decidable (q = tty → b = c.wakes))
        | [] | .down _ :: _ | .waitTest _ :: _ | .sleep _ :: _ | .schedule _ :: _ | .rouse _ :: _ | .add _ :: _
        | .exitWith _ :: _ | .exitNotify :: _ | .wait4 _ :: _ | .waitAlive :: _ | .checkDead :: _ | .checkSignals :: _
        | .checkSchedule :: _ => isTrue trivial

def step [DecidableEq Q] [DecidableEq S] (tty : Q) (c : Console Q S) : ConsoleEvent Q S → Option (Console Q S)
  | .kernel e => if Honest tty c e then (c.k.step e).map fun k => { c with k := k } else none
  | .input inside ch =>
    (c.k.step (interruptBy (c.inputIrq tty ch) inside)).map fun k =>
      { c with k := k, lineReady := c.lineReady || Terminal.submits ch }
  | .collect => if c.k.frames = [] then some { c with lineReady := false } else none
  | .setForeground pid => some { c with foreground := pid }

def Boot (c : Console Q S) : Prop := c.k.Boot ∧ c.lineReady = false

/-- Nobody sleeps in the terminal's queue with a fatal signal pending, unless an interrupt's check
    of the signals is to come. -/
def Heard (tty : Q) (c : Console Q S) : Prop :=
  (∀ fs, c.k.frames ≠ .checkSignals :: fs) →
    ∀ p, (tty, p) ∈ c.k.waitq → (c.k.task p).state = .sleeping → (c.k.task p).signals.hasFatalPending = false

end Console

/-! ## Signals -/

/-- Nothing is blocked, and there is no signal 0. -/
def SignalState.Clean (s : SignalState) : Prop := s.blocked = 0 ∧ s.pending.getLsbD 0 = false

namespace SignalState

variable {s : SignalState} {sig i : Nat}

theorem Clean.ready (h : s.Clean) (i : Nat) (hi : i < maxSignals) : (s.pending &&& ~~~s.blocked).getLsbD i = s.pending.getLsbD i := by
  have hi : i < 64 := hi
  rw [h.1, BitVec.getLsbD_and, BitVec.getLsbD_not]
  simp [hi]

theorem Clean.fatal_iff (h : s.Clean) : s.hasFatalPending = true ↔ ∃ i < maxSignals, s.pending.getLsbD i = true ∧ (defaultAction i).fatal = true := by
  unfold hasFatalPending
  rw [List.any_eq_true]
  constructor
  · intro ⟨i, hi, hb⟩
    have hi := List.mem_range.mp hi
    rw [Bool.and_eq_true, h.ready i hi] at hb
    exact ⟨i, hi, hb⟩
  · intro ⟨i, hi, hb⟩
    refine ⟨i, List.mem_range.mpr hi, ?_⟩
    rw [Bool.and_eq_true, h.ready i hi]
    exact hb

theorem Clean.send (h : s.Clean) (sig : Nat) : (s.send sig).Clean := by
  by_cases hs : sig = 0 ∨ maxSignals ≤ sig
  · rw [SignalState.send, if_pos hs]
    exact h
  · refine ⟨?_, ?_⟩
    · rw [SignalState.send, if_neg hs]
      exact h.1
    · have hb : ∀ b : Bool, (b = true → False) → b = false := fun b hb => Bool.eq_false_iff.mpr fun e => hb e
      apply hb
      intro hp
      rcases send_pending s sig 0 hp with hp | hp
      · rw [h.2] at hp
        cases hp
      · exact hs (Or.inl hp.symm)

theorem Clean.clear (h : s.Clean) (sig : Nat) : (s.clearPending sig).Clean := by
  have hp : (s.clearPending sig).pending.getLsbD 0 = false := by
    by_contra hne
    have := clearPending_pending s sig 0 (by simpa using hne)
    rw [h.2] at this
    cases this
  refine ⟨?_, hp⟩
  unfold clearPending
  split <;> exact h.1

theorem Clean.clearAll (h : s.Clean) : s.clearAllPending.Clean := ⟨h.1, by simp [SignalState.clearAllPending]⟩

/-- Sending makes nobody have a fatal signal pending but by a fatal one. -/
theorem Clean.send_fatal (h : s.Clean) (hf : (s.send sig).hasFatalPending = true) :
    s.hasFatalPending = true ∨ 0 < sig ∧ sig < maxSignals ∧ (defaultAction sig).fatal = true := by
  by_cases hs : sig = 0 ∨ maxSignals ≤ sig
  · rw [SignalState.send, if_pos hs] at hf
    exact Or.inl hf
  · obtain ⟨i, hi, hp, ha⟩ := (h.send sig).fatal_iff.mp hf
    rcases send_pending s sig i hp with hp | rfl
    · exact Or.inl (h.fatal_iff.mpr ⟨i, hi, hp, ha⟩)
    · exact Or.inr ⟨Nat.pos_of_ne_zero fun e => hs (Or.inl e), hi, ha⟩

theorem Clean.clear_fatal (h : s.Clean) (hf : (s.clearPending sig).hasFatalPending = true) : s.hasFatalPending = true := by
  obtain ⟨i, hi, hp, ha⟩ := (h.clear sig).fatal_iff.mp hf
  exact h.fatal_iff.mpr ⟨i, hi, clearPending_pending s sig i hp, ha⟩

theorem clearAll_fatal (s : SignalState) : s.clearAllPending.hasFatalPending = false := by
  simp [hasFatalPending, clearAllPending]

/-- The check finds the lowest signal. -/
theorem Clean.checkPending_le (h : s.Clean) (hi : i < maxSignals) (hp : s.pending.getLsbD i = true) : s.checkPending ≤ i := by
  unfold checkPending
  cases hf : (List.range maxSignals).find? fun sig => (s.pending &&& ~~~s.blocked).getLsbD sig with
  | none =>
    have := List.find?_eq_none.mp hf i (List.mem_range.mpr hi)
    rw [h.ready i hi] at this
    exact absurd hp this
  | some j =>
    rw [Option.getD_some]
    by_contra hlt
    obtain ⟨-, as, bs, hl, hbefore⟩ := List.find?_eq_some_iff_append.mp hf
    have hsorted : (List.range maxSignals).Pairwise (· < ·) := List.pairwise_lt_range
    have hm : i ∈ as ++ j :: bs := hl ▸ List.mem_range.mpr hi
    rw [hl] at hsorted
    rcases List.mem_append.mp hm with hm | hm
    · have := hbefore i hm
      rw [h.ready i hi, hp] at this
      cases this
    · rcases List.mem_cons.mp hm with rfl | hm
      · exact hlt (Nat.le_refl _)
      · exact hlt (Nat.le_of_lt ((List.pairwise_cons.mp (List.pairwise_append.mp hsorted).2.1).1 i hm))

theorem Clean.checkPending_ne (h : s.Clean) (hf : s.hasFatalPending = true) : s.checkPending ≠ 0 := by
  intro h0
  obtain ⟨i, hi, hp, -⟩ := h.fatal_iff.mp hf
  unfold checkPending at h0
  cases hs : (List.range maxSignals).find? fun sig => (s.pending &&& ~~~s.blocked).getLsbD sig with
  | none =>
    have := List.find?_eq_none.mp hs i (List.mem_range.mpr hi)
    rw [h.ready i hi] at this
    exact absurd hp this
  | some j =>
    rw [hs, Option.getD_some] at h0
    subst h0
    have := List.find?_some hs
    rw [h.ready 0 (by decide), h.2] at this
    cases this

end SignalState

/-! ## Who is not heard -/

/-- Asleep, with a fatal signal pending. -/
def Task.Unheard (t : Task) : Prop := t.state = .sleeping ∧ t.signals.hasFatalPending = true

namespace Kernel

variable {k k' k1 : Kernel Q S} {p : Pid} {tty : Q}

def Unheard (k : Kernel Q S) (tty : Q) (p : Pid) : Prop := (tty, p) ∈ k.waitq ∧ (k.task p).Unheard

/-- The current task may go to sleep outside the queue. -/
def MaySleep (tty : Q) (k : Kernel Q S) : Prop :=
  (tty, k.current) ∈ k.waitq → (k.task k.current).signals.hasFatalPending = false

/-- `do_kill` stops nobody in the queue with a fatal signal pending, and sends none to a task asleep
    there. -/
def HeedsKill (tty : Q) (k : Kernel Q S) (pid sig : Nat) : Prop :=
  pid ∈ k.all → (tty, pid) ∈ k.waitq →
    (sig = sigStop → (k.task pid).signals.hasFatalPending = false) ∧
    (0 < sig → sig < maxSignals → sig ≠ sigKill → sig ≠ sigStop → (defaultAction sig).fatal = true → (k.task pid).state ≠ .sleeping)

/-- Ctrl-C and Ctrl-Z come for a task asleep in the queue only if it is the one interrupted, and
    `SIGCHLD` does not keep the check from Ctrl-Z. -/
def HeedsIrq (tty : Q) (k : Kernel Q S) : Irq Q → Prop
  | .ctrlC pid => pid ∈ k.all → (tty, pid) ∈ k.waitq → (k.task pid).state = .sleeping → pid = k.current
  | .ctrlZ pid => pid ∈ k.all → (tty, pid) ∈ k.waitq → (k.task pid).state = .sleeping →
      pid = k.current ∧ (k.task pid).signals.pending.getLsbD sigChld = false
  | _ => True

def Heeds (tty : Q) (k : Kernel Q S) : Event Q S → Prop
  | .call (.kill pid sig) => k.HeedsKill tty pid sig
  | .call (.fault sig) => k.HeedsKill tty k.current sig
  | .run b =>
    match k.frames with
    | .waitEvent _ :: _ => b = false → k.MaySleep tty
    | .sleep _ :: _ => k.MaySleep tty
    | .down s :: _ => k.count s ≤ 0 → k.MaySleep tty
    | .checkSignals :: _ => (tty, k.current) ∈ k.waitq → (k.task k.current).signals.checkPending = sigStop →
        ((k.task k.current).signals.clearPending sigStop).hasFatalPending = false
    | _ => True
  | .irq i => k.HeedsIrq tty i
  | .irqInside n i =>
    match k.frames with
    | .schedule pc :: _ => ∀ k1, k.schedFor n pc = some (false, k1) → k1.HeedsIrq tty i
    | _ => True
  | _ => True

/-- Who is not heard is the current task, on the way out of an interrupt, and the check ends it or
    takes the signal. -/
structure Attends (tty : Q) (k : Kernel Q S) : Prop where
  clean : ∀ p, (k.task p).signals.Clean
  heard : ∀ p, k.Unheard tty p → p = k.current ∧ (k.task p).signals.checkPending ≠ sigChld ∧ ∃ fs, k.frames = .checkSignals :: fs

/-- Nobody gets unheard. -/
structure Spares (tty : Q) (k k' : Kernel Q S) : Prop where
  clean : ∀ p, (k.task p).signals.Clean → (k'.task p).signals.Clean
  unheard : ∀ p, k'.Unheard tty p → k.Unheard tty p

theorem Spares.refl (k : Kernel Q S) : k.Spares tty k := ⟨fun _ h => h, fun _ h => h⟩

theorem Spares.trans (h : k.Spares tty k1) (h1 : k1.Spares tty k') : k.Spares tty k' :=
  ⟨fun p hp => h1.clean p (h.clean p hp), fun p hp => h.unheard p (h1.unheard p hp)⟩

/-- The queue loses entries at most; of each task the state and the signals stay, or it is awake. -/
theorem Spares.of_eq (hw : ∀ e ∈ k'.waitq, e ∈ k.waitq) (hs : ∀ p, (k'.task p).signals = (k.task p).signals)
    (ht : ∀ p, (k'.task p).state = (k.task p).state ∨ (k'.task p).state ≠ .sleeping) : k.Spares tty k' := by
  refine ⟨fun p hp => ?_, fun p ⟨hq, hst, hf⟩ => ?_⟩
  · rw [hs]
    exact hp
  · rw [hs] at hf
    refine ⟨hw _ hq, ?_, hf⟩
    rcases ht p with ht | ht
    · exact ht ▸ hst
    · exact absurd hst ht

/-- The current task goes to sleep. -/
theorem Spares.sleep {q : Q} (hw : ∀ e ∈ k'.waitq, e ∈ k.waitq ∨ e = (q, k.current)) (hs : ∀ p, (k'.task p).signals = (k.task p).signals)
    (ht : ∀ p, p ≠ k.current → (k'.task p).state = (k.task p).state)
    (hc : (tty, k.current) ∈ k'.waitq → (k.task k.current).signals.hasFatalPending = false) : k.Spares tty k' := by
  refine ⟨fun p hp => ?_, fun p ⟨hq, hst, hf⟩ => ?_⟩
  · rw [hs]
    exact hp
  · rw [hs] at hf
    by_cases hp : p = k.current
    · subst hp
      rw [hc hq] at hf
      cases hf
    · refine ⟨?_, ht p hp ▸ hst, hf⟩
      rcases hw _ hq with hq | hq
      · exact hq
      · cases hq
        exact absurd rfl hp

theorem Spares.modify {u : Pid} {f : Task → Task} (hs : ∀ t, (f t).signals = t.signals)
    (ht : ∀ t, (f t).state = t.state ∨ (f t).state ≠ .sleeping) : k.Spares tty (k.modify u f) := by
  refine Spares.of_eq (fun e he => he) (modify_signals k u f hs) fun p => ?_
  rw [modify_task]
  split
  · exact ht _
  · exact Or.inl rfl

theorem spares_setFrames (k : Kernel Q S) (fs : List (Frame Q S)) : k.Spares tty (k.setFrames fs) :=
  Spares.of_eq (fun _ he => he) (fun _ => rfl) fun _ => Or.inl rfl

theorem spares_doKill {pid sig : Nat} (hc : ∀ p, (k.task p).signals.Clean) (h : k.HeedsKill tty pid sig) :
    k.Spares tty (k.doKill pid sig).2 := by
  rcases doKill_eq k pid sig with e | ⟨hall, -, e⟩ <;> rw [e]
  · exact Spares.refl k
  · refine ⟨fun p hp => ?_, fun p ⟨hq, hst, hf⟩ => ?_⟩
    · rw [modify_task]
      split
      · rcases killed_signals sig (k.task p) with e | e <;> rw [e]
        · exact hp.send sig
        · exact hp
      · exact hp
    · rw [modify_task] at hst hf
      split at hst
      · next hpid =>
        subst hpid
        rw [if_pos rfl] at hf
        obtain ⟨hstop, hsend⟩ := h hall hq
        refine ⟨hq, ?_⟩
        unfold killed at hst hf
        split at hst
        · cases hst
        · next hk =>
          rw [if_neg hk] at hf
          split at hst
          · next hs =>
            rw [if_pos hs, hstop hs] at hf
            cases hf
          · next hs =>
            rw [if_neg hs] at hf
            split at hst
            · cases hst
            · next hcont =>
              rw [if_neg hcont] at hf
              refine ⟨hst, ?_⟩
              rcases (hc p).send_fatal hf with hf | ⟨h0, h64, hfatal⟩
              · exact hf
              · exact absurd hst (hsend h0 h64 hk hs hfatal)
      · next hpid =>
        rw [if_neg hpid] at hf
        exact ⟨hq, hst, hf⟩

theorem heedsKill_sigChld (k : Kernel Q S) (pid : Nat) : k.HeedsKill tty pid sigChld :=
  fun _ _ => ⟨fun h => absurd h (by decide), fun _ _ _ _ h => absurd h (by decide)⟩

theorem spares_access {pc : SchedPc} {fs : List (Frame Q S)} {o : Option SchedPc} (h : k.schedStep pc = some (k1, o)) :
    k.Spares tty (k1.accessed fs o) := by
  have hk : k.Spares tty k1 := by
    cases pc with
    | pick cur =>
      obtain ⟨⟨n, k2⟩, hp, h⟩ := Option.map_eq_some_iff.mp h
      obtain ⟨e, -, -, rfl⟩ := popReady_eq hp
      cases h
      exact Spares.of_eq (fun e he => he) (fun p => rfl) fun p => Or.inl rfl
    | enqueue cur =>
      cases h
      exact (Spares.modify (f := fun t => { t with strong := t.strong + 1 }) (fun t => rfl) fun t => Or.inl rfl).trans
        (Spares.of_eq (fun e he => he) (fun p => rfl) fun p => Or.inl rfl)
    | drop cur next =>
      cases h
      exact Spares.modify (f := fun t => { t with strong := t.strong - 1 }) (fun t => rfl) fun t => Or.inl rfl
    | _ =>
      cases h
      exact Spares.of_eq (fun e he => he) (fun p => rfl) fun p => Or.inl rfl
  cases o with
  | none => exact hk
  | some pc' => exact hk.trans (spares_setFrames k1 _)

/-- The frames other than the check of the signals. -/
theorem resume_spares [DecidableEq S] {f : Frame Q S} {fs : List (Frame Q S)} {b : Bool} (hc : ∀ p, (k.task p).signals.Clean)
    (hf : k.frames = f :: fs) (hn : ∀ pc, f ≠ .schedule pc) (hcheck : f ≠ .checkSignals) (hh : k.Heeds tty (.run b))
    (hb : ∀ q, f = .waitEvent q → q = tty → b = false → (k.task k.current).signals.hasFatalPending = false)
    (h : k.resume b fs f = some k') : k.Spares tty k' := by
  have hself : ∀ gs, k.Spares tty (k.setFrames gs) := spares_setFrames k
  have hmod : ∀ (u : Pid) (g : Task → Task) gs, (∀ t, (g t).signals = t.signals) →
      (∀ t, (g t).state = t.state ∨ (g t).state ≠ .sleeping) → k.Spares tty ((k.modify u g).setFrames gs) := fun u g gs hs ht =>
    (Spares.modify hs ht).trans (spares_setFrames _ gs)
  have hsleep : ∀ p, (((k.cloneArc k.current).setState k.current .sleeping).task p).signals = (k.task p).signals := fun p =>
    (modify_signals (k.cloneArc k.current) k.current (fun t => { t with state := .sleeping }) (fun t => rfl) p).trans
      (modify_signals k k.current (fun t => { t with strong := t.strong + 1 }) (fun t => rfl) p)
  have hother : ∀ p, p ≠ k.current → (((k.cloneArc k.current).setState k.current .sleeping).task p).state = (k.task p).state := by
    intro p hp
    rw [setState_task, if_neg hp, cloneArc, modify_task, if_neg hp]
  cases f with
  | schedule pc => exact absurd rfl (hn pc)
  | checkSignals => exact absurd rfl hcheck
  | waitEvent q =>
    simp only [Heeds, hf] at hh
    simp only [resume] at h
    split at h
    · cases h; exact hself _
    · next hfalse =>
      have hfalse : b = false := by simpa using hfalse
      obtain ⟨k1, h1, rfl⟩ := Option.map_eq_some_iff.mp h
      obtain ⟨rfl, -⟩ := upgrade_eq h1
      refine Spares.sleep (q := q) (fun e he => ?_) hsleep hother fun hq => ?_
      · rcases List.mem_append.mp he with he | he
        · exact Or.inl he
        · exact Or.inr (List.mem_singleton.mp he)
      · rcases List.mem_append.mp hq with hq | hq
        · exact hh hfalse hq
        · exact hb q rfl ((Prod.mk.injEq ..).mp (List.mem_singleton.mp hq)).1.symm hfalse
  | waitTest q =>
    simp only [resume] at h
    split at h <;> cases h <;> exact hself _
  | sleep t =>
    simp only [Heeds, hf] at hh
    obtain ⟨k1, h1, rfl⟩ := Option.map_eq_some_iff.mp h
    obtain ⟨rfl, -⟩ := upgrade_eq h1
    exact Spares.sleep (q := tty) (fun e he => Or.inl he) hsleep hother hh
  | down s =>
    simp only [Heeds, hf] at hh
    simp only [resume] at h
    split at h
    · cases h
    · next hd =>
      obtain ⟨-, -, rfl⟩ := downSection_true hd
      cases h
      exact Spares.of_eq (fun e he => he) (fun p => rfl) fun p => Or.inl rfl
    · next hd =>
      obtain ⟨-, -, hle, task, rfl, hr⟩ := downSection_false hd
      cases h
      refine Spares.sleep (q := tty) (fun e he => Or.inl he) (fun p => ?_) (fun p hp => ?_) (hh hle)
      · obtain ⟨x, y, e⟩ := hr p
        show (task p).signals = _
        rw [e]
      · obtain ⟨x, y, e⟩ := hr p
        show (task p).state = _
        rw [e]
        exact if_neg hp
  | rouse t =>
    cases h
    exact hmod t (fun t => { t with state := .running }) _ (fun t => rfl) fun t => Or.inr fun e => by cases e
  | add t =>
    cases h
    exact (Spares.modify (f := fun t => { t with strong := t.strong + 1 }) (fun t => rfl) fun t => Or.inl rfl).trans
      (Spares.of_eq (fun e he => he) (fun p => rfl) fun p => Or.inl rfl)
  | exitWith code =>
    cases h
    exact hmod k.current (exited code) _ (fun t => rfl) fun t => Or.inr (by simp [exited])
  | exitNotify =>
    simp only [resume] at h
    cases h
    split
    · exact (spares_doKill hc (heedsKill_sigChld k _)).trans (spares_setFrames _ _)
    · exact hself _
  | wait4 t =>
    have hpurge : k.Spares tty k.purge := by
      rw [purge_eq]
      exact Spares.of_eq (fun e he => he) (fun p => rfl) fun p => Or.inl rfl
    rcases resume_wait4 h with ⟨rfl, -⟩ | ⟨u, -, -, rfl, -⟩
    · exact hpurge.trans (spares_setFrames _ _)
    · exact (hpurge.trans (Spares.modify (f := reaped) (fun t => rfl) fun t => Or.inr (by simp [reaped]))).trans
        (Spares.of_eq (fun e he => he) (fun p => rfl) fun p => Or.inl rfl)
  | waitAlive =>
    simp only [resume] at h
    split at h <;> cases h <;> exact Spares.of_eq (fun e he => he) (fun p => rfl) fun p => Or.inl rfl
  | checkDead =>
    simp only [resume] at h
    split at h <;> cases h <;> exact hself _
  | checkSchedule =>
    simp only [resume] at h
    split at h <;> cases h <;> exact Spares.of_eq (fun e he => he) (fun p => rfl) fun p => Or.inl rfl

theorem checked_clean (t : Task) (h : t.signals.Clean) : (checked t).2.signals.Clean := by
  by_cases h0 : t.signals.checkPending = 0
  · simpa [checked, h0] using h
  · cases ha : defaultAction t.signals.checkPending <;> simp only [checked, h0, ha, if_false]
    · exact h.clearAll
    · exact h.clear _
    · exact h.clearAll
    · exact h.clear _
    · exact h.clear _
    · exact h.clear _

theorem defaultAction_stop {sig : Nat} (h : defaultAction sig = .stop) : sig = sigStop := by
  unfold defaultAction at h
  repeat' split at h
  all_goals first | assumption | cases h

theorem defaultAction_ignore {sig : Nat} (h : defaultAction sig = .ignore) : sig = sigChld := by
  unfold defaultAction at h
  repeat' split at h
  all_goals first | assumption | cases h

theorem defaultAction_ne_handler (sig : Nat) : defaultAction sig ≠ .handler := by
  unfold defaultAction
  repeat' split
  all_goals decide

/-- A task that the check leaves asleep with a fatal signal pending was so before, with `SIGCHLD` the
    lowest signal, or it has just been stopped. -/
theorem checked_unheard {t : Task} (hc : t.signals.Clean) (h : (checked t).2.Unheard) :
    (t.Unheard ∧ t.signals.checkPending = sigChld) ∨
      (t.signals.checkPending = sigStop ∧ (t.signals.clearPending sigStop).hasFatalPending = true) := by
  obtain ⟨hst, hf⟩ := h
  by_cases h0 : t.signals.checkPending = 0
  · rw [show (checked t).2 = t by simp [checked, h0]] at hf
    exact absurd h0 (hc.checkPending_ne hf)
  · cases ha : defaultAction t.signals.checkPending <;> simp only [checked, h0, ha, if_false] at hst hf
    · cases hst
    · exact Or.inl ⟨⟨hst, hc.clear_fatal hf⟩, defaultAction_ignore ha⟩
    · cases hst
    · have hstop := defaultAction_stop ha
      exact Or.inr ⟨hstop, hstop ▸ hf⟩
    · cases hst
    · exact absurd ha (defaultAction_ne_handler _)

/-- After the check nobody is unheard. -/
theorem Attends.check [DecidableEq S] (h : k.Attends tty) {b : Bool} {fs : List (Frame Q S)} (hf : k.frames = .checkSignals :: fs)
    (hh : k.Heeds tty (.run b : Event Q S)) (hr : k.resume b fs .checkSignals = some k') : k'.Attends tty := by
  simp only [Heeds, hf] at hh
  have hk : ∃ gs, k' = (k.modify k.current fun t => (checked t).2).setFrames gs := by
    simp only [resume, doCheckSignals_eq] at hr
    split at hr
    · next hc =>
      obtain rfl := congrArg Prod.snd hc
      cases hr
      exact ⟨_, rfl⟩
    · next hc =>
      obtain rfl := congrArg Prod.snd hc
      cases hr
      exact ⟨_, rfl⟩
  obtain ⟨gs, rfl⟩ := hk
  have htask : ∀ p, ((k.modify k.current fun t => (checked t).2).setFrames gs).task p =
      if p = k.current then (checked (k.task p)).2 else k.task p := fun p =>
    modify_task k k.current p fun t => (checked t).2
  refine ⟨fun p => ?_, fun p hp => ?_⟩
  · rw [htask]
    split
    · exact checked_clean _ (h.clean p)
    · exact h.clean p
  · obtain ⟨hq, hu⟩ := hp
    rw [htask] at hu
    split at hu
    · next hp =>
      subst hp
      rcases checked_unheard (h.clean k.current) hu with ⟨hold, hchld⟩ | ⟨hstop, hfatal⟩
      · exact absurd hchld (h.heard _ ⟨hq, hold⟩).2.1
      · rw [hh hq hstop] at hfatal
        cases hfatal
    · next hp => exact absurd (h.heard p ⟨hq, hu⟩).1 hp

/-- What spares everybody keeps the invariant, outside the way out of an interrupt. -/
theorem Attends.spared (h : k.Attends tty) (hf : ∀ fs, k.frames ≠ .checkSignals :: fs) (hs : k.Spares tty k') : k'.Attends tty := by
  refine ⟨fun p => hs.clean p (h.clean p), fun p hp => ?_⟩
  obtain ⟨-, -, fs, he⟩ := h.heard p (hs.unheard p hp)
  exact absurd he (hf fs)

theorem new_spares {t : Task} (hs : t.signals = .new) (ht : t.state = .running) : k.Spares tty (k.create t) := by
  refine ⟨fun p hp => ?_, fun p ⟨hq, hst, hf⟩ => ?_⟩
  · rw [create_task]
    split
    · rw [hs]
      exact ⟨rfl, by simp [SignalState.new]⟩
    · exact hp
  · rw [create_task] at hst hf
    split at hst
    · rw [ht] at hst
      cases hst
    · next hp =>
      rw [if_neg hp] at hf
      exact ⟨hq, hst, hf⟩

theorem wakeUp_spares [DecidableEq Q] (k : Kernel Q S) (q : Q) : k.Spares tty (k.wakeUp q) := by
  rw [wakeUp_eq]
  refine Spares.of_eq (fun e he => List.mem_of_mem_filter he) (fun p => ?_) fun p => ?_
  · dsimp only
    split <;> rfl
  · dsimp only
    split
    · exact Or.inr fun e => by cases e
    · exact Or.inl rfl

theorem enter_spares [DecidableEq Q] [DecidableEq S] (hc : ∀ p, (k.task p).signals.Clean) {c : Call Q S} (hh : k.Heeds tty (.call c)) :
    k.Spares tty (k.enter c) := by
  have hself : ∀ gs, k.Spares tty (k.setFrames gs) := spares_setFrames k
  cases c with
  | wakeUp q => exact wakeUp_spares k q
  | sleep ms =>
    simp only [enter]
    split
    · exact Spares.refl k
    · exact hself _
  | schedYield => exact Spares.of_eq (fun e he => he) (fun p => rfl) fun p => Or.inl rfl
  | tryDown s =>
    simp only [enter, tryDown]
    split <;> exact Spares.of_eq (fun e he => he) (fun p => rfl) fun p => Or.inl rfl
  | up s =>
    obtain ⟨task, ht, hu⟩ := upSection_eq k s
    have hsame : ∀ p, (task p).signals = (k.task p).signals ∧ (task p).state = (k.task p).state := fun p => by
      obtain ⟨x, y, e⟩ := ht p
      rw [e]
      exact ⟨rfl, rfl⟩
    simp only [enter, hu]
    cases k.semq.find? fun e => e.1 = s <;>
      exact Spares.of_eq (fun e he => he) (fun p => (hsame p).1) fun p => Or.inl (hsame p).2
  | kill pid sig => exact spares_doKill hc hh
  | fork =>
    simp only [enter, doFork]
    split
    · exact new_spares rfl rfl
    · exact Spares.refl k
  | createKernelThread prio => exact new_spares rfl rfl
  | fault sig => exact (spares_doKill hc hh).trans (spares_setFrames _ _)
  | _ => exact hself _

/-- The handler sent `sig` to `pid`, and the check on the way out will see it. -/
theorem Attends.signalled (h : k.Attends tty) (pid sig : Nat)
    (ht : pid ∈ k.all → (tty, pid) ∈ k.waitq → (k.task pid).state = .sleeping →
      pid = k.current ∧ ((k.task pid).signals.send sig).checkPending ≠ sigChld) (gs : List (Frame Q S)) :
    ((k.tty pid sig).setFrames (.checkSignals :: gs)).Attends tty := by
  unfold Kernel.tty
  split
  · next hp =>
    have htask : ∀ p, (((k.send pid sig).setFrames (.checkSignals :: gs)).task p) =
        if p = pid then { k.task p with signals := (k.task p).signals.send sig } else k.task p :=
      fun p => modify_task k pid p fun t => { t with signals := t.signals.send sig }
    refine ⟨fun p => ?_, fun p ⟨hq, hu⟩ => ?_⟩
    · rw [htask]
      split
      · exact (h.clean p).send sig
      · exact h.clean p
    · rw [htask] at hu ⊢
      split at hu
      · next he =>
        subst he
        obtain ⟨hcur, hne⟩ := ht hp.2 hq hu.1
        rw [if_pos rfl]
        exact ⟨hcur, hne, gs, setFrames_frames ..⟩
      · next he =>
        obtain ⟨hcur, hne, -⟩ := h.heard p ⟨hq, hu⟩
        rw [if_neg he]
        exact ⟨hcur, hne, gs, setFrames_frames ..⟩
  · refine ⟨h.clean, fun p hu => ?_⟩
    obtain ⟨hcur, hne, -⟩ := h.heard p hu
    exact ⟨hcur, hne, gs, setFrames_frames ..⟩

theorem Attends.interrupt [DecidableEq Q] (h : k.Attends tty) {i : Irq Q} (hh : k.HeedsIrq tty i) : (k.interrupt i).Attends tty := by
  have hsame : ∀ (k1 : Kernel Q S) gs, k.Spares tty k1 → (∀ p, (k1.task p).signals = (k.task p).signals) → k1.current = k.current →
      (k1.setFrames (.checkSignals :: gs)).Attends tty := by
    intro k1 gs hs hsig hcur
    refine ⟨fun p => hs.clean p (h.clean p), fun p hp => ?_⟩
    obtain ⟨he, hne, -⟩ := h.heard p (hs.unheard p hp)
    refine ⟨he.trans hcur.symm, ?_, gs, setFrames_frames ..⟩
    show (k1.task p).signals.checkPending ≠ sigChld
    rw [hsig]
    exact hne
  cases i with
  | timer expired =>
    have hsig : ∀ p, (({ k with tick := k.tick + 1 } : Kernel Q S).checkSleepers.task p).signals = (k.task p).signals := fun p => by
      rw [checkSleepers_eq]
      dsimp only
      split <;> rfl
    have hs : k.Spares tty ({ k with tick := k.tick + 1 } : Kernel Q S).checkSleepers := by
      refine Spares.of_eq (fun e he => ?_) hsig fun p => ?_
      · rw [checkSleepers_eq] at he
        exact he
      · rw [checkSleepers_eq]
        dsimp only
        split
        · exact Or.inr fun e => by cases e
        · exact Or.inl rfl
    have hcur : ({ k with tick := k.tick + 1 } : Kernel Q S).checkSleepers.current = k.current := by rw [checkSleepers_eq]
    exact hsame _ _ (hs.trans (Spares.of_eq (fun e he => he) (fun p => rfl) fun p => Or.inl rfl)) hsig hcur
  | wake q =>
    have hsig : ∀ p, ((k.wakeUp q).task p).signals = (k.task p).signals := fun p => by
      rw [wakeUp_eq]
      dsimp only
      split <;> rfl
    have hcur : (k.wakeUp q).current = k.current := by rw [wakeUp_eq]
    exact hsame _ _ (wakeUp_spares k q) hsig hcur
  | ctrlC pid =>
    refine h.signalled pid sigInt (fun hall hq hst => ⟨hh hall hq hst, fun he => ?_⟩) _
    have hp : ((k.task pid).signals.send sigInt).pending.getLsbD sigInt = true := by
      simp [SignalState.send, sigInt, maxSignals]
    have hle := ((h.clean pid).send sigInt).checkPending_le (by decide) hp
    rw [he] at hle
    exact absurd hle (by decide)
  | ctrlZ pid =>
    refine h.signalled pid sigStop (fun hall hq hst => ?_) _
    obtain ⟨hcur, hchld⟩ := hh hall hq hst
    refine ⟨hcur, fun he => ?_⟩
    have hp := SignalState.checkPending_pending (s := (k.task pid).signals.send sigStop) (by rw [he]; decide)
    rw [he] at hp
    rcases SignalState.send_pending _ _ _ hp with hp | hp
    · rw [hchld] at hp
      cases hp
    · exact absurd hp (by decide)

theorem Attends.step [DecidableEq Q] [DecidableEq S] (h : k.Attends tty) {e : Event Q S} (hh : k.Heeds tty e)
    (hw : ∀ b q fs, e = .run b → k.frames = .waitEvent q :: fs → q = tty → b = false → (k.task k.current).signals.hasFatalPending = false)
    (hs : Kernel.step k e = some k') : k'.Attends tty := by
  have haccess : ∀ (k : Kernel Q S) pc fs k1 o, k.Attends tty → k.frames = .schedule pc :: fs → k.schedStep pc = some (k1, o) →
      (k1.accessed fs o).Attends tty :=
    fun k pc fs k1 o hk hf hs => hk.spared (fun gs hg => by rw [hf] at hg; cases hg) (spares_access hs)
  cases e with
  | call c =>
    simp only [Kernel.step] at hs
    split at hs
    · next h0 =>
      cases hs
      exact h.spared (fun gs hg => by rw [h0] at hg; cases hg) (enter_spares h.clean hh)
    · cases hs
  | run b =>
    refine step_rule haccess (fun c ec => by cases ec) (fun b' f fs k2 eb hf hn hk hr => ?_)
      (fun k1 i hi => by rcases hi with hi | ⟨n, hi⟩ <;> cases hi) h hs
    cases eb
    by_cases hcheck : f = .checkSignals
    · subst hcheck
      exact hk.check hf hh hr
    · refine hk.spared (fun gs hg => ?_) (resume_spares hk.clean hf hn hcheck hh (fun q hq => ?_) hr)
      · rw [hf] at hg
        exact hcheck (List.cons.inj hg).1
      · subst hq
        exact hw b q fs rfl hf
  | irq i =>
    cases hs
    exact h.interrupt hh
  | irqInside n i =>
    simp only [Kernel.step] at hs
    split at hs
    · next pc fs hf =>
      split at hs
      · next k1 hsch =>
        split at hs
        · cases hs
        · cases hs
          simp only [Heeds, hf] at hh
          exact (schedFor_rule haccess n k pc false k1 h hf hsch).interrupt (hh k1 hsch)
      · cases hs
    · cases hs

end Kernel

namespace Console

variable {tty : Q} {c c' : Console Q S}

/-- No signal is sent that a reader does not hear. -/
def Heeds (tty : Q) (c : Console Q S) : ConsoleEvent Q S → Prop
  | .kernel e => c.k.Heeds tty e
  | .input inside ch => c.k.Heeds tty (interruptBy (c.inputIrq tty ch) inside)
  | _ => True

theorem boot_attends (h : c.Boot) : c.k.Attends tty := by
  obtain ⟨⟨count, ts, hk⟩, -⟩ := h
  have hclean : SignalState.new.Clean := ⟨rfl, by simp [SignalState.new]⟩
  have hcreate : ∀ (k : Kernel Q S) prio user, ((∀ p, (k.task p).signals.Clean) ∧ k.waitq = []) →
      (∀ p, ((k.create (Task.new 0 prio user)).task p).signals.Clean) ∧ (k.create (Task.new 0 prio user)).waitq = [] := by
    intro k prio user hk
    have hs : k.Spares tty (k.create (Task.new 0 prio user)) := Kernel.new_spares rfl rfl
    exact ⟨fun p => hs.clean p (hk.1 p), hk.2⟩
  have hidle := hcreate (Kernel.empty count) 0 false ⟨fun _ => hclean, rfl⟩
  have h0 : (∀ p, ((Kernel.empty count : Kernel Q S).createIdle.task p).signals.Clean) ∧
      (Kernel.empty count : Kernel Q S).createIdle.waitq = [] := by
    refine ⟨fun p => ?_, hidle.2⟩
    have hs : ((Kernel.empty count : Kernel Q S).createIdle.task p).signals = _ := Kernel.modify_signals ((Kernel.empty count : Kernel Q S).create (Task.new 0 0 false)) 1 (fun t => { t with strong := t.strong + 1 })
      (fun t => rfl) p
    rw [hs]
    exact hidle.1 p
  obtain ⟨k1, e, h1, -, he⟩ := Kernel.start_rule h0 hcreate hk
  rw [he]
  exact ⟨h1.1, fun p hp => by have := hp.1; rw [h1.2] at this; cases this⟩

theorem step_attends [DecidableEq Q] [DecidableEq S] (h : c.k.Attends tty) {e : ConsoleEvent Q S} (hh : Heeds tty c e)
    (hs : step tty c e = some c') : c'.k.Attends tty := by
  cases e with
  | kernel e =>
    simp only [step] at hs
    split at hs
    · next hhon =>
      obtain ⟨k', hk, rfl⟩ := Option.map_eq_some_iff.mp hs
      refine h.step hh (fun b q fs he hf hq hb => ?_) hk
      subst he
      simp only [Honest, hf] at hhon
      have hw := hhon hq
      rw [hb] at hw
      exact (Bool.or_eq_false_iff.mp hw.symm).2
    · cases hs
  | input inside ch =>
    obtain ⟨k', hk, rfl⟩ := Option.map_eq_some_iff.mp hs
    exact h.step hh (fun b q fs he => by cases inside <;> cases he) hk
  | collect =>
    simp only [step] at hs
    split at hs
    · cases hs
      exact h
    · cases hs
  | setForeground pid =>
    cases hs
    exact h

/-- Under that condition no reader sleeps through a fatal signal. -/
theorem heard_reach [DecidableEq Q] [DecidableEq S] (h : Lib.Reach (step tty) (Heeds tty) Boot c) : c.Heard tty := by
  have ha := h.rule (P := fun c => c.k.Attends tty) (fun _ h => boot_attends h) fun _ _ _ hk hh hs => step_attends hk hh hs
  intro hfs p hq hst
  by_contra hf
  obtain ⟨-, -, fs, he⟩ := ha.heard p ⟨hq, hst, by simpa using hf⟩
  exact hfs fs he

instance heedsKillDecidable [DecidableEq Q] (tty : Q) (k : Kernel Q S) (pid sig : Nat) : Decidable (k.HeedsKill tty pid sig) :=
  inferInstanceAs (Decidable (pid ∈ k.all → (tty, pid) ∈ k.waitq → _ ∧ _))

instance heedsIrqDecidable [DecidableEq Q] (tty : Q) (k : Kernel Q S) (i : Irq Q) : Decidable (k.HeedsIrq tty i) := by
  delta Kernel.HeedsIrq
  exact match i with
    | .ctrlC pid => inferInstanceAs (Decidable (pid ∈ k.all → (tty, pid) ∈ k.waitq → (k.task pid).state = .sleeping → pid = k.current))
    | .ctrlZ pid => inferInstanceAs (Decidable (pid ∈ k.all → (tty, pid) ∈ k.waitq → (k.task pid).state = .sleeping → _ ∧ _))
    | .timer _ | .wake _ => isTrue trivial

instance maySleepDecidable [DecidableEq Q] (tty : Q) (k : Kernel Q S) : Decidable (k.MaySleep tty) :=
  inferInstanceAs (Decidable ((tty, k.current) ∈ k.waitq → _))

instance kernelHeedsDecidable [DecidableEq Q] (tty : Q) (k : Kernel Q S) (e : Event Q S) : Decidable (k.Heeds tty e) := by
  delta Kernel.Heeds
  exact match e with
    | .call (.kill pid sig) => inferInstanceAs (Decidable (k.HeedsKill tty pid sig))
    | .call (.fault sig) => inferInstanceAs (Decidable (k.HeedsKill tty k.current sig))
    | .call (.waitEvent _) | .call (.wakeUp _) | .call (.sleep _) | .call .yieldNow | .call .schedYield | .call (.down _)
    | .call (.tryDown _) | .call (.up _) | .call (.exit _) | .call (.wait4 _) | .call .fork | .call (.createKernelThread _)
    | .call .checkSignals => isTrue trivial
    | .irq i => inferInstanceAs (Decidable (k.HeedsIrq tty i))
    | .irqInside n i => by
      generalize k.frames = gs
      exact match gs with
        | .schedule pc :: _ => by
          dsimp only
          generalize k.schedFor n pc = r
          exact match r with
            | some (false, k1) => decidable_of_iff (k1.HeedsIrq tty i)
                ⟨fun h _ e => (Prod.mk.injEq ..).mp (Option.some.inj e) |>.2 ▸ h, fun h => h k1 rfl⟩
            | some (true, _) | none => isTrue fun _ e => by cases e
        | [] | .waitEvent _ :: _ | .waitTest _ :: _ | .sleep _ :: _ | .down _ :: _ | .rouse _ :: _ | .add _ :: _
        | .exitWith _ :: _ | .exitNotify :: _ | .wait4 _ :: _ | .waitAlive :: _ | .checkDead :: _ | .checkSignals :: _
        | .checkSchedule :: _ => isTrue trivial
    | .run b => by
      generalize k.frames = gs
      exact match gs with
        | .waitEvent _ :: _ => inferInstanceAs (Decidable (b = false → k.MaySleep tty))
        | .sleep _ :: _ => inferInstanceAs (Decidable (k.MaySleep tty))
        | .down s :: _ => inferInstanceAs (Decidable (k.count s ≤ 0 → k.MaySleep tty))
        | .checkSignals :: _ => inferInstanceAs (Decidable ((tty, k.current) ∈ k.waitq →
            (k.task k.current).signals.checkPending = sigStop → ((k.task k.current).signals.clearPending sigStop).hasFatalPending = false))
        | [] | .waitTest _ :: _ | .schedule _ :: _ | .rouse _ :: _ | .add _ :: _
        | .exitWith _ :: _ | .exitNotify :: _ | .wait4 _ :: _ | .waitAlive :: _ | .checkDead :: _
        | .checkSchedule :: _ => isTrue trivial

instance heedsDecidable [DecidableEq Q] (tty : Q) (c : Console Q S) (e : ConsoleEvent Q S) : Decidable (Heeds tty c e) := by
  delta Heeds
  exact match e with
    | .kernel e => inferInstanceAs (Decidable (c.k.Heeds tty e))
    | .input inside ch => inferInstanceAs (Decidable (c.k.Heeds tty (interruptBy (c.inputIrq tty ch) inside)))
    | .collect | .setForeground _ => isTrue trivial

/-- The idle task, a shell and another task. -/
def shellAndTask : Option (Console Unit Unit) :=
  (Kernel.start (fun _ => 1) [(5, true), (5, true)]).map fun k => { k := k, lineReady := false, foreground := 0 }

theorem shellAndTask_boot : ∀ c, shellAndTask = some c → c.Boot := by
  intro c hc
  obtain ⟨k, hk, rfl⟩ := Option.map_eq_some_iff.mp hc
  exact ⟨⟨_, _, hk⟩, rfl⟩

/-- The shell waits for a line, a byte and the end of the line are typed, and it reads the line. -/
def readOneLine : List (ConsoleEvent Unit Unit) :=
  [.setForeground 2, .kernel (.call (.waitEvent ())), .kernel (.run false), .kernel (.run true), .kernel (.run true),
    .input none 97, .kernel (.run true), .kernel (.run true), .input none Terminal.cr, .kernel (.run true), .kernel (.run true),
    .kernel (.call .yieldNow), .kernel (.run true), .kernel (.run true), .collect]

theorem heard_reach_readOneLine : ∃ c, (shellAndTask.bind fun c => Lib.trace (step ()) c readOneLine) = some c ∧
    c.k.current = 2 ∧ c.k.frames = [] ∧ c.Heard () := by
  obtain ⟨c, hc, ht, hd⟩ := Lib.exists_run (step ()) (Heeds ()) readOneLine
    (fun c : Console Unit Unit => decide (c.k.current = 2 ∧ c.k.frames = [])) shellAndTask_boot (by decide +kernel) (by decide +kernel)
  obtain ⟨hcur, hf⟩ := of_decide_eq_true hd
  exact ⟨c, ht, hcur, hf, heard_reach hc⟩

/-- Ctrl-C is typed while the shell waits for a line and the other task runs. -/
def ctrlCWhileReading : List (ConsoleEvent Unit Unit) :=
  [.setForeground 2, .kernel (.call (.waitEvent ())), .kernel (.run false), .kernel (.run true), .kernel (.run true),
    .input none Terminal.ctrlC, .kernel (.run true), .kernel (.run true)]

theorem ctrlC_unheard : ¬ ∀ c : Console Unit Unit, Lib.Reach (step ()) (fun _ _ => True) Boot c → c.Heard () := by
  intro h
  obtain ⟨c, hc, -, hd⟩ := Lib.exists_run (step ()) (fun _ _ => True) ctrlCWhileReading
    (fun c : Console Unit Unit => decide (c.k.frames = [] ∧ ((), 2) ∈ c.k.waitq ∧ (c.k.task 2).state = .sleeping ∧
      (c.k.task 2).signals.hasFatalPending = true)) shellAndTask_boot rfl rfl
  obtain ⟨hf, hq, hst, hp⟩ := of_decide_eq_true hd
  have := h c hc (fun fs he => by rw [hf] at he; cases he) 2 hq hst
  rw [hp] at this
  cases this

end Console

end Myos.Sched
