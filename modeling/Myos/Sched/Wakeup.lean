/-
  Myos.Sched.Wakeup — `wait_event` and `wake_up` on one wait queue (`rust/src/kernel/wait.rs`),
  each access a step of its own.

  The tasks and the wakers interleave freely; a task may be preempted wherever it does not
  hold the queue's lock, and then goes through `schedule` to its ready queue push and the
  switch. The environment changes the condition at will until a waker has made it true for
  good. A waker may also call `wake_up` without having touched the condition.

  Proved:
  - `no_lost_wakeup`: when the `wake_up` of a waker that made the condition true is complete,
    the wait queue is empty, no task is SLEEPING, each was pushed on a ready queue since it
    last queued up here, and whoever still checks the condition finds it true and leaves.
-/

import Mathlib.Logic.Function.Basic
import Myos.Lib.Runs
import Myos.Sched.Task

namespace Myos.Sched.Wakeup

/-- The access a task makes next. `outside`: not in `wait_event`. From `requeue` on the task
    is in `schedule` and goes on at `back` when it is switched to again. -/
inductive Pc where
  | outside
  | lock
  | check
  | leave
  | sleep
  | push
  | unlock
  | test
  | requeue (back : Pc)
  | enqueue (back : Pc)
  | pick (back : Pc)
  | off (back : Pc)
  deriving DecidableEq, Repr

/-- The access a waker makes next. `b`: this `wake_up` follows the store that made the
    condition true. -/
inductive WakerPc (T : Type*) where
  | idle
  | raised
  | lock (b : Bool)
  | pop (b : Bool)
  | rouse (b : Bool) (t : T)
  | enqueue (b : Bool) (t : T)
  | done
  deriving DecidableEq, Repr

/-- `fixed`: a waker made the condition true and it stays so. `moved t`: `t` was pushed on a
    ready queue by a waker since its last push on the wait queue. -/
structure Machine (T W : Type*) where
  cond : Bool
  fixed : Bool
  holder : Option (T ⊕ W)
  queue : List T
  ready : List T
  state : T → TaskState
  moved : T → Bool
  pc : T → Pc
  waker : W → WakerPc T

inductive Act (T W : Type*) where
  | flip (b : Bool)
  | waitEvent (t : T)
  | go (t : T)
  | preempt (t : T)
  | raise (w : W)
  | wakeUp (w : W)
  | wake (w : W)
  deriving DecidableEq, Repr

/-- The accesses between `lock()` and the end of the guard. -/
def Pc.locked : Pc → Bool
  | .check | .leave | .sleep | .push | .unlock => true
  | _ => false

def WakerPc.locked {T : Type*} : WakerPc T → Bool
  | .pop _ | .rouse _ _ | .enqueue _ _ => true
  | _ => false

variable {T W : Type*}

def boot (m : Machine T W) : Prop :=
  m.fixed = false ∧ m.holder = none ∧ m.queue = [] ∧ (∀ t, m.state t = .running) ∧ (∀ t, m.moved t = true) ∧
    (∀ t, m.pc t = .outside) ∧ ∀ w, m.waker w = .idle

namespace Machine

section

variable [DecidableEq T]

def goto (m : Machine T W) (t : T) (pc : Pc) : Machine T W := { m with pc := Function.update m.pc t pc }

def setState (m : Machine T W) (t : T) (s : TaskState) : Machine T W :=
  { m with state := Function.update m.state t s }

/-- The switch to `u`, which goes on where it left off. -/
def resume (m : Machine T W) (u : T) : Machine T W :=
  match m.pc u with
  | .off back => m.goto u back
  | _ => m

/-- One access of `t` in `wait_event` or in `schedule`. -/
def go (m : Machine T W) (t : T) : Option (Machine T W) :=
  match m.pc t with
  | .outside | .off _ => none
  | .lock => some (if m.holder = none then { m with holder := some (.inl t) }.goto t .check else m)
  | .check => some (m.goto t (if m.cond then .leave else .sleep))
  | .leave => some ({ m with holder := none }.goto t .outside)
  | .sleep => some ((m.setState t .sleeping).goto t .push)
  | .push => some ({ m with queue := m.queue ++ [t], moved := Function.update m.moved t false }.goto t .unlock)
  | .unlock => some ({ m with holder := none }.goto t .test)
  | .test => some (m.goto t (if m.state t = .sleeping then .requeue .lock else .lock))
  | .requeue back => some (m.goto t (if m.state t = .running then .enqueue back else .pick back))
  | .enqueue back => some ({ m with ready := m.ready ++ [t] }.goto t (.pick back))
  | .pick back =>
    match m.ready with
    | [] => none
    | u :: r => some (({ m with ready := r }.goto t (.off back)).resume u)

end

variable [DecidableEq W]

def wakerAt (m : Machine T W) (w : W) (pc : WakerPc T) : Machine T W :=
  { m with waker := Function.update m.waker w pc }

/-- One access of `w` in `wake_up`. -/
def wake [DecidableEq T] (m : Machine T W) (w : W) : Option (Machine T W) :=
  match m.waker w with
  | .idle | .raised | .done => none
  | .lock b => some (if m.holder = none then { m with holder := some (.inr w) }.wakerAt w (.pop b) else m)
  | .pop b =>
    match m.queue with
    | [] => some ({ m with holder := none }.wakerAt w (if b then .done else .idle))
    | t :: q => some ({ m with queue := q }.wakerAt w (.rouse b t))
  | .rouse b t => some ((m.setState t .running).wakerAt w (.enqueue b t))
  | .enqueue b t =>
    some ({ m with ready := m.ready ++ [t], moved := Function.update m.moved t true }.wakerAt w (.pop b))

end Machine

def step [DecidableEq T] [DecidableEq W] (m : Machine T W) : Act T W → Option (Machine T W)
  | .flip b => if m.fixed then none else some { m with cond := b }
  | .waitEvent t => if m.pc t = .outside then some (m.goto t .lock) else none
  | .go t => m.go t
  | .preempt t =>
    match m.pc t with
    | .off _ => none
    | pc => if pc.locked then none else some (m.goto t (.requeue pc))
  | .raise w => if m.waker w = .idle then some ({ m with cond := true, fixed := true }.wakerAt w .raised) else none
  | .wakeUp w =>
    match m.waker w with
    | .idle => some (m.wakerAt w (.lock false))
    | .raised => some (m.wakerAt w (.lock true))
    | _ => none
  | .wake w => m.wake w

/-! ## The invariant -/

/-- From the store of SLEEPING to the end of the guard. -/
def Pc.falling : Pc → Bool
  | .sleep | .push | .unlock => true
  | _ => false

/-- A task in `schedule` goes on where it held no lock. -/
def Pc.sound : Pc → Bool
  | .requeue back | .enqueue back | .pick back | .off back => !back.locked && back.sound
  | _ => true

/-- The waker made the condition true before this call. -/
def WakerPc.after : WakerPc T → Bool
  | .raised | .done => true
  | .lock b | .pop b | .rouse b _ | .enqueue b _ => b
  | .idle => false

/-- Such a waker has had the lock. -/
def WakerPc.swept : WakerPc T → Bool
  | .done => true
  | .pop b | .rouse b _ | .enqueue b _ => b
  | _ => false

/-- The waker has `t` in hand. -/
def WakerPc.holds (t : T) : WakerPc T → Prop
  | .rouse _ u | .enqueue _ u => u = t
  | _ => False

structure Inv (m : Machine T W) : Prop where
  task : ∀ t, (m.pc t).locked = true ↔ m.holder = some (.inl t)
  lock : ∀ w, (m.waker w).locked = true ↔ m.holder = some (.inr w)
  sound : ∀ t, (m.pc t).sound = true
  asleep : ∀ t, m.state t = .sleeping → t ∈ m.queue ∨ m.pc t = .push ∨ ∃ w b, m.waker w = .rouse b t
  moved : ∀ t, m.moved t = false → t ∈ m.queue ∨ ∃ w, (m.waker w).holds t
  fixed : m.fixed = true → m.cond = true
  after : ∀ w, (m.waker w).after = true → m.fixed = true
  swept : ∀ w, (m.waker w).swept = true → ∀ t, (m.pc t).falling = false
  done : ∀ w, m.waker w = .done → m.queue = [] ∧ ∀ w' t, ¬ (m.waker w').holds t

theorem boot_inv {m : Machine T W} (h : boot m) : Inv m := by
  obtain ⟨hf, hh, hq, hs, hm, hp, hw⟩ := h
  constructor <;> simp [hf, hh, hq, hs, hm, hp, hw, Pc.locked, WakerPc.locked, Pc.sound, WakerPc.after, WakerPc.swept]

theorem falling_locked {pc : Pc} (h : pc.falling = true) : pc.locked = true := by
  cases pc <;> first | rfl | cases h

theorem swept_after {pc : WakerPc T} (h : pc.swept = true) : pc.after = true := by
  cases pc <;> first | exact h | cases h

theorem holds_locked {pc : WakerPc T} {t : T} (h : pc.holds t) : pc.locked = true := by
  cases pc <;> first | rfl | cases h

section

variable {m : Machine T W} {t u : T} {w v : W}

/-- One task at most is between `lock()` and the end of the guard. -/
theorem Inv.task_eq (h : Inv m) (ht : (m.pc t).locked = true) (hu : (m.pc u).locked = true) : u = t :=
  Sum.inl.inj (Option.some.inj (((h.task u).mp hu).symm.trans ((h.task t).mp ht)))

theorem Inv.waker_eq (h : Inv m) (hw : (m.waker w).locked = true) (hv : (m.waker v).locked = true) : v = w :=
  Sum.inr.inj (Option.some.inj (((h.lock v).mp hv).symm.trans ((h.lock w).mp hw)))

theorem Inv.not_both (h : Inv m) (ht : (m.pc t).locked = true) : (m.waker w).locked = false := by
  cases hw : (m.waker w).locked
  · rfl
  · cases ((h.task t).mp ht).symm.trans ((h.lock w).mp hw)

theorem Inv.not_swept (h : Inv m) (ht : (m.pc t).falling = true) (w : W) : (m.waker w).swept = false := by
  cases e : (m.waker w).swept
  · rfl
  · cases (h.swept w e t).symm.trans ht

theorem Inv.free (h : Inv m) (hh : m.holder = none) :
    (∀ t, (m.pc t).locked = false) ∧ ∀ w, (m.waker w).locked = false := by
  refine ⟨fun t => ?_, fun w => ?_⟩
  · cases e : (m.pc t).locked
    · rfl
    · cases hh.symm.trans ((h.task t).mp e)
  · cases e : (m.waker w).locked
    · rfl
    · cases hh.symm.trans ((h.lock w).mp e)

theorem Inv.unqueue (h : Inv m) {q : List T} {b : Bool} (hw : m.waker w = .rouse b t) (hq : m.queue = t :: q) :
    Inv { m with queue := q } := by
  refine ⟨h.task, h.lock, h.sound, fun u hu => ?_, fun u hu => ?_, h.fixed, h.after, h.swept, fun v hv => ?_⟩
  · rcases h.asleep u hu with hm | hp
    · rw [hq] at hm
      rcases List.mem_cons.mp hm with e | hm
      · exact Or.inr (Or.inr ⟨w, b, e ▸ hw⟩)
      · exact Or.inl hm
    · exact Or.inr hp
  · rcases h.moved u hu with hm | hv
    · rw [hq] at hm
      rcases List.mem_cons.mp hm with e | hm
      · exact Or.inr ⟨w, by rw [show m.waker w = .rouse b t from hw]; exact e.symm⟩
      · exact Or.inl hm
    · exact Or.inr hv
  · cases hq.symm.trans (h.done v hv).1

end

/-! ## The steps of a task -/

section

variable [DecidableEq T] {m m' : Machine T W} {t u : T} {w : W}

theorem Machine.goto_pc (m : Machine T W) (t u : T) (pc : Pc) :
    (m.goto t pc).pc u = if u = t then pc else m.pc u := Function.update_apply ..

/-- A step of a task outside the lock. -/
theorem Inv.goto (h : Inv m) {pc : Pc} (h0 : (m.pc t).locked = false) (h1 : pc.locked = false)
    (h2 : pc.sound = true) : Inv (m.goto t pc) := by
  refine ⟨fun u => ?_, h.lock, fun u => ?_, fun u hu => ?_, h.moved, h.fixed, h.after, fun w hw u => ?_, h.done⟩
  · rw [Machine.goto_pc]
    by_cases e : u = t
    · subst e
      rw [if_pos rfl, h1]
      exact ⟨fun e => (Bool.false_ne_true e).elim, fun e => by rw [(h.task u).mpr e] at h0; cases h0⟩
    · rw [if_neg e]
      exact h.task u
  · rw [Machine.goto_pc]
    split
    · exact h2
    · exact h.sound u
  · rcases h.asleep u hu with hq | hp | hw
    · exact Or.inl hq
    · refine Or.inr (Or.inl ?_)
      rw [Machine.goto_pc, if_neg]
      · exact hp
      · intro e
        rw [← e, hp] at h0
        cases h0
    · exact Or.inr (Or.inr hw)
  · rw [Machine.goto_pc]
    split
    · cases hf : pc.falling
      · rfl
      · rw [falling_locked hf] at h1; cases h1
    · exact h.swept w hw u

/-- A step of the task that has the lock. -/
theorem Inv.goto_locked (h : Inv m) {pc : Pc} (h0 : (m.pc t).locked = true) (h1 : pc.locked = true)
    (h2 : pc.sound = true) (hp : m.pc t = .push → t ∈ m.queue)
    (hf : pc.falling = true → ∀ w, (m.waker w).swept = false) : Inv (m.goto t pc) := by
  refine ⟨fun u => ?_, h.lock, fun u => ?_, fun u hu => ?_, h.moved, h.fixed, h.after, fun w hw u => ?_, h.done⟩
  · rw [Machine.goto_pc]
    by_cases e : u = t
    · subst e
      rw [if_pos rfl, h1]
      exact ⟨fun _ => (h.task u).mp h0, fun _ => rfl⟩
    · rw [if_neg e]
      exact h.task u
  · rw [Machine.goto_pc]
    split
    · exact h2
    · exact h.sound u
  · rcases h.asleep u hu with hq | hpush | hw
    · exact Or.inl hq
    · have e : u = t := h.task_eq h0 (by rw [hpush]; rfl)
      rw [e] at hpush ⊢
      exact Or.inl (hp hpush)
    · exact Or.inr (Or.inr hw)
  · rw [Machine.goto_pc]
    split
    · cases e : pc.falling
      · rfl
      · cases (hf e w).symm.trans hw
    · exact h.swept w hw u

theorem Inv.lock_task (h : Inv m) (ht : m.pc t = .lock) (hh : m.holder = none) :
    Inv ({ m with holder := some (.inl t) }.goto t .check) := by
  obtain ⟨hn, hw⟩ := h.free hh
  refine ⟨fun u => ?_, fun w => ?_, fun u => ?_, fun u hu => ?_, h.moved, h.fixed, h.after, fun w hw u => ?_, h.done⟩
  · rw [Machine.goto_pc]
    by_cases e : u = t
    · subst e
      rw [if_pos rfl]
      exact ⟨fun _ => rfl, fun _ => rfl⟩
    · rw [if_neg e]
      exact ⟨fun hu => ((hn u).symm.trans hu |> Bool.false_ne_true).elim, fun hu => (e (Sum.inl.inj (Option.some.inj hu)).symm).elim⟩
  · show (m.waker w).locked = true ↔ some (Sum.inl t) = some (Sum.inr w)
    rw [hw w]
    exact ⟨fun e => (Bool.false_ne_true e).elim, fun e => by cases e⟩
  · rw [Machine.goto_pc]
    split
    · rfl
    · exact h.sound u
  · rcases h.asleep u hu with hq | hp | hr
    · exact Or.inl hq
    · have := hn u
      rw [hp] at this
      cases this
    · exact Or.inr (Or.inr hr)
  · rw [Machine.goto_pc]
    split
    · rfl
    · exact h.swept w hw u

theorem Inv.unlock_task (h : Inv m) {pc : Pc} (h0 : (m.pc t).locked = true) (hp : m.pc t ≠ .push)
    (h1 : pc.locked = false) (h2 : pc.sound = true) : Inv ({ m with holder := none }.goto t pc) := by
  refine ⟨fun u => ?_, fun w => ?_, fun u => ?_, fun u hu => ?_, h.moved, h.fixed, h.after, fun w hw u => ?_, h.done⟩
  · rw [Machine.goto_pc]
    by_cases e : u = t
    · rw [if_pos e, h1]
      exact ⟨fun e => (Bool.false_ne_true e).elim, fun e => by cases e⟩
    · rw [if_neg e]
      exact ⟨fun hu => (e (h.task_eq h0 hu)).elim, fun e => by cases e⟩
  · show (m.waker w).locked = true ↔ none = some (Sum.inr w)
    rw [h.not_both h0]
    exact ⟨fun e => (Bool.false_ne_true e).elim, fun e => by cases e⟩
  · rw [Machine.goto_pc]
    split
    · exact h2
    · exact h.sound u
  · rcases h.asleep u hu with hq | hu | hr
    · exact Or.inl hq
    · have e : u = t := h.task_eq h0 (by rw [hu]; rfl)
      exact (hp (e ▸ hu)).elim
    · exact Or.inr (Or.inr hr)
  · rw [Machine.goto_pc]
    split
    · cases hf : pc.falling
      · rfl
      · rw [falling_locked hf] at h1; cases h1
    · exact h.swept w hw u

theorem Inv.fall (h : Inv m) (ht : m.pc t = .push) : Inv (m.setState t .sleeping) := by
  refine ⟨h.task, h.lock, h.sound, fun u hu => ?_, h.moved, h.fixed, h.after, h.swept, h.done⟩
  by_cases e : u = t
  · exact Or.inr (Or.inl (e ▸ ht))
  · refine h.asleep u ?_
    rw [← hu]
    exact (Function.update_of_ne e _ _).symm

theorem Inv.push (h : Inv m) (ht : m.pc t = .push) :
    Inv { m with queue := m.queue ++ [t], moved := Function.update m.moved t false } := by
  refine ⟨h.task, h.lock, h.sound, fun u hu => ?_, fun u hu => ?_, h.fixed, h.after, h.swept, fun w hw => ?_⟩
  · rcases h.asleep u hu with hq | hp
    · exact Or.inl (List.mem_append_left _ hq)
    · exact Or.inr hp
  · by_cases e : u = t
    · exact Or.inl (List.mem_append_right _ (by rw [e]; exact List.mem_singleton_self t))
    · have hu : m.moved u = false := by rw [← hu]; exact (Function.update_of_ne e _ _).symm
      rcases h.moved u hu with hq | hw
      · exact Or.inl (List.mem_append_left _ hq)
      · exact Or.inr hw
  · have := h.swept w (by rw [show m.waker w = .done from hw]; rfl) t
    rw [ht] at this
    cases this

/-- The switch to another task. -/
theorem Inv.resume (h : Inv m) : Inv (m.resume u) := by
  unfold Machine.resume
  split
  · next back hu =>
    have hs := h.sound u
    rw [hu] at hs
    obtain ⟨h1, h2⟩ := Bool.and_eq_true_iff.mp hs
    exact h.goto (by rw [hu]; rfl) (by simpa using h1) h2
  · exact h

theorem Inv.go (h : Inv m) (hs : m.go t = some m') : Inv m' := by
  have hsound := h.sound t
  unfold Machine.go at hs
  split at hs
  · cases hs
  · cases hs
  · next ht =>
    split at hs
    · next hh => cases hs; exact h.lock_task ht hh
    · cases hs; exact h
  · next ht =>
    cases hs
    split
    · exact h.goto_locked (by rw [ht]; rfl) rfl rfl (by rw [ht]; nofun) nofun
    · next hc =>
      -- the condition is not fixed yet, so no waker is past its lock
      have hn : ∀ w, (m.waker w).swept = false := fun w => by
        cases e : (m.waker w).swept
        · rfl
        · exact (hc (h.fixed (h.after w (swept_after e)))).elim
      exact h.goto_locked (by rw [ht]; rfl) rfl rfl (by rw [ht]; nofun) fun _ => hn
  · next ht => cases hs; exact h.unlock_task (by rw [ht]; rfl) (by rw [ht]; nofun) rfl rfl
  · next ht =>
    cases hs
    have hn : ∀ w, (m.waker w).swept = false := h.not_swept (by rw [ht]; rfl)
    have hg : Inv (m.goto t .push) :=
      h.goto_locked (by rw [ht]; rfl) rfl rfl (by rw [ht]; nofun) fun _ => hn
    exact hg.fall (by rw [Machine.goto_pc, if_pos rfl])
  · next ht =>
    cases hs
    have hn : ∀ w, (m.waker w).swept = false := h.not_swept (by rw [ht]; rfl)
    exact (h.push ht).goto_locked (by rw [ht]; rfl) rfl rfl
      (fun _ => List.mem_append_right _ (List.mem_singleton_self t)) fun _ => hn
  · next ht => cases hs; exact h.unlock_task (by rw [ht]; rfl) (by rw [ht]; nofun) rfl rfl
  · next ht => cases hs; split <;> exact h.goto (by rw [ht]; rfl) rfl rfl
  · next back ht =>
    cases hs
    rw [ht] at hsound
    split <;> exact h.goto (by rw [ht]; rfl) rfl hsound
  · next back ht =>
    cases hs
    rw [ht] at hsound
    have hr : Inv { m with ready := m.ready ++ [t] } :=
      ⟨h.task, h.lock, h.sound, h.asleep, h.moved, h.fixed, h.after, h.swept, h.done⟩
    exact hr.goto (by rw [ht]; rfl) rfl hsound
  · next back ht =>
    rw [ht] at hsound
    split at hs
    · cases hs
    · next r hr =>
      cases hs
      have hr : Inv { m with ready := r } :=
        ⟨h.task, h.lock, h.sound, h.asleep, h.moved, h.fixed, h.after, h.swept, h.done⟩
      have hback : (Pc.off back).sound = true := hsound
      exact (hr.goto (by rw [ht]; rfl) rfl hback).resume

end

/-! ## The steps of a waker -/

section

variable [DecidableEq W] {m : Machine T W} {t : T} {w : W} {b : Bool}

theorem Machine.wakerAt_waker (m : Machine T W) (w v : W) (pc : WakerPc T) :
    (m.wakerAt w pc).waker v = if v = w then pc else m.waker v := Function.update_apply ..

/-- A step of a waker outside the lock. -/
theorem Inv.wakerAt (h : Inv m) {pc : WakerPc T} (h0 : (m.waker w).locked = false) (h1 : pc.locked = false)
    (h2 : pc.after = true → m.fixed = true) (h3 : pc ≠ .done) : Inv (m.wakerAt w pc) := by
  have hsw : pc.swept = false := by
    cases pc <;> first | exact (h3 rfl).elim | rfl | cases h1
  have hne : ∀ v b u, m.waker v = .rouse b u → v ≠ w := fun v b u hv e => by
    rw [← e, hv] at h0; cases h0
  refine ⟨h.task, fun v => ?_, h.sound, fun u hu => ?_, fun u hu => ?_, h.fixed, fun v => ?_, fun v hv => ?_,
    fun v hv => ?_⟩
  · rw [Machine.wakerAt_waker]
    by_cases e : v = w
    · rw [if_pos e, h1, e]
      exact ⟨fun e => (Bool.false_ne_true e).elim, fun e => by rw [(h.lock w).mpr e] at h0; cases h0⟩
    · rw [if_neg e]
      exact h.lock v
  · rcases h.asleep u hu with hq | hp | ⟨v, b, hv⟩
    · exact Or.inl hq
    · exact Or.inr (Or.inl hp)
    · exact Or.inr (Or.inr ⟨v, b, by rw [Machine.wakerAt_waker, if_neg (hne v b u hv), hv]⟩)
  · rcases h.moved u hu with hq | ⟨v, hv⟩
    · exact Or.inl hq
    · refine Or.inr ⟨v, ?_⟩
      rw [Machine.wakerAt_waker, if_neg]
      · exact hv
      · intro e
        have := holds_locked hv
        rw [e, h0] at this
        cases this
  · rw [Machine.wakerAt_waker]
    split
    · exact h2
    · exact h.after v
  · rw [Machine.wakerAt_waker] at hv
    split at hv
    · rw [hsw] at hv; cases hv
    · exact h.swept v hv
  · rw [Machine.wakerAt_waker] at hv
    split at hv
    · exact (h3 hv).elim
    · next e =>
      obtain ⟨hq, hn⟩ := h.done v hv
      refine ⟨hq, fun v' u => ?_⟩
      rw [Machine.wakerAt_waker]
      split
      · intro hu
        have := holds_locked hu
        rw [h1] at this
        cases this
      · exact hn v' u

theorem Inv.lock_waker (h : Inv m) (hw : m.waker w = .lock b) (hh : m.holder = none) :
    Inv ({ m with holder := some (.inr w) }.wakerAt w (.pop b)) := by
  obtain ⟨ht, hv⟩ := h.free hh
  have hf : ∀ t, (m.pc t).falling = false := fun t => by
    cases e : (m.pc t).falling
    · rfl
    · cases (ht t).symm.trans (falling_locked e)
  refine ⟨fun t => ?_, fun v => ?_, h.sound, fun u hu => ?_, fun u hu => ?_, h.fixed, fun v => ?_, fun v _ => hf,
    fun v hv' => ?_⟩
  · show (m.pc t).locked = true ↔ some (Sum.inr w) = some (Sum.inl t)
    rw [ht t]
    exact ⟨fun e => (Bool.false_ne_true e).elim, fun e => by cases e⟩
  · rw [Machine.wakerAt_waker]
    by_cases e : v = w
    · subst e
      rw [if_pos rfl]
      exact ⟨fun _ => rfl, fun _ => rfl⟩
    · rw [if_neg e]
      exact ⟨fun e => ((hv v).symm.trans e |> Bool.false_ne_true).elim,
        fun e' => (e (Sum.inr.inj (Option.some.inj e')).symm).elim⟩
  · rcases h.asleep u hu with hq | hp | ⟨v, b', e⟩
    · exact Or.inl hq
    · exact Or.inr (Or.inl hp)
    · have := hv v
      rw [e] at this
      cases this
  · rcases h.moved u hu with hq | ⟨v, e⟩
    · exact Or.inl hq
    · cases (hv v).symm.trans (holds_locked e)
  · rw [Machine.wakerAt_waker]
    split
    · intro hb
      exact h.after w (by rw [hw]; exact hb)
    · exact h.after v
  · rw [Machine.wakerAt_waker] at hv'
    split at hv'
    · cases hv'
    · obtain ⟨hq, hn⟩ := h.done v hv'
      refine ⟨hq, fun v' u => ?_⟩
      rw [Machine.wakerAt_waker]
      split
      · exact id
      · exact hn v' u

/-- The queue is empty: the waker is through. -/
theorem Inv.empty (h : Inv m) (hw : m.waker w = .pop b) (hq : m.queue = []) :
    Inv ({ m with holder := none }.wakerAt w (if b then .done else .idle)) := by
  have hl : (m.waker w).locked = true := by rw [hw]; rfl
  have hne : ∀ v b u, m.waker v = .rouse b u → v ≠ w := fun v b u hv e => by
    rw [← e, hv] at hw; cases hw
  refine ⟨fun t => ?_, fun v => ?_, h.sound, fun u hu => ?_, fun u hu => ?_, h.fixed, fun v => ?_, fun v hv => ?_,
    fun v hv => ⟨hq, fun v' u => ?_⟩⟩
  · show (m.pc t).locked = true ↔ none = some (Sum.inl t)
    refine ⟨fun ht => ?_, fun e => by cases e⟩
    cases (h.not_both ht).symm.trans hl
  · rw [Machine.wakerAt_waker]
    by_cases e : v = w
    · rw [if_pos e]
      refine ⟨fun e => ?_, fun e => by cases e⟩
      cases b <;> cases e
    · rw [if_neg e]
      exact ⟨fun hv => (e (h.waker_eq hl hv)).elim, fun e => by cases e⟩
  · rcases h.asleep u hu with hm | hp | ⟨v, b', hv⟩
    · exact Or.inl hm
    · exact Or.inr (Or.inl hp)
    · exact Or.inr (Or.inr ⟨v, b', by rw [Machine.wakerAt_waker, if_neg (hne v b' u hv)]; exact hv⟩)
  · rcases h.moved u hu with hm | ⟨v, hv⟩
    · exact Or.inl hm
    · refine Or.inr ⟨v, ?_⟩
      rw [Machine.wakerAt_waker, if_neg]
      · exact hv
      · intro e
        rw [e, hw] at hv
        exact hv
  · rw [Machine.wakerAt_waker]
    split
    · intro hb
      refine h.after w ?_
      rw [hw]
      cases b
      · cases hb
      · rfl
    · exact h.after v
  · rw [Machine.wakerAt_waker] at hv
    split at hv
    · refine h.swept w ?_
      rw [hw]
      cases b
      · cases hv
      · rfl
    · exact h.swept v hv
  · rw [Machine.wakerAt_waker]
    split
    · cases b <;> exact id
    · next e => exact fun hu => e (h.waker_eq hl (holds_locked hu))

/-- A step of the waker that has the lock. -/
theorem Inv.wakerAt_locked (h : Inv m) {pc : WakerPc T} (h0 : (m.waker w).locked = true) (h1 : pc.locked = true)
    (ha : pc.after = (m.waker w).after) (hs : pc.swept = (m.waker w).swept)
    (hr : ∀ b u, m.waker w = .rouse b u → m.state u ≠ .sleeping)
    (hm : ∀ u, (m.waker w).holds u → m.moved u = true ∨ pc.holds u)
    (hd : ∀ u, pc.holds u → (m.waker w).holds u ∨ m.queue ≠ []) : Inv (m.wakerAt w pc) := by
  refine ⟨h.task, fun v => ?_, h.sound, fun u hu => ?_, fun u hu => ?_, h.fixed, fun v => ?_, fun v hv => ?_,
    fun v hv => ?_⟩
  · rw [Machine.wakerAt_waker]
    split
    · next e => rw [e, h1]; exact ⟨fun _ => (h.lock w).mp h0, fun _ => rfl⟩
    · exact h.lock v
  · rcases h.asleep u hu with hq | hp | ⟨v, b, hv⟩
    · exact Or.inl hq
    · exact Or.inr (Or.inl hp)
    · refine Or.inr (Or.inr ⟨v, b, ?_⟩)
      rw [Machine.wakerAt_waker, if_neg]
      · exact hv
      · intro e
        exact hr b u (e ▸ hv) hu
  · rcases h.moved u hu with hq | ⟨v, hv⟩
    · exact Or.inl hq
    · refine Or.inr ⟨v, ?_⟩
      rw [Machine.wakerAt_waker]
      split
      · next e =>
        rcases hm u (e ▸ hv) with he | he
        · cases hu.symm.trans he
        · exact he
      · exact hv
  · rw [Machine.wakerAt_waker]
    split
    · rw [ha]; exact h.after w
    · exact h.after v
  · rw [Machine.wakerAt_waker] at hv
    split at hv
    · exact h.swept w (hs.symm.trans hv)
    · exact h.swept v hv
  · rw [Machine.wakerAt_waker] at hv
    split at hv
    · rw [hv] at h1; cases h1
    · obtain ⟨hq, hn⟩ := h.done v hv
      refine ⟨hq, fun v' u => ?_⟩
      rw [Machine.wakerAt_waker]
      split
      · intro hu
        rcases hd u hu with hu | he
        · exact hn w u hu
        · exact he hq
      · exact hn v' u

/-- The waker takes the next task off the queue. -/
theorem Inv.pop (h : Inv m) {q : List T} (hw : m.waker w = .pop b) (hq : m.queue = t :: q) :
    Inv ({ m with queue := q }.wakerAt w (.rouse b t)) := by
  have hg : Inv (m.wakerAt w (.rouse b t)) := by
    refine h.wakerAt_locked (by rw [hw]; rfl) rfl (by rw [hw]; rfl) (by rw [hw]; rfl) (fun b' u e => ?_)
      (fun u e => ?_) fun u _ => Or.inr (by rw [hq]; nofun)
    · rw [hw] at e; cases e
    · rw [hw] at e; exact e.elim
  exact hg.unqueue (by rw [Machine.wakerAt_waker, if_pos rfl]) hq

theorem Inv.rouse (h : Inv m) [DecidableEq T] (hw : m.waker w = .rouse b t) :
    Inv ((m.setState t .running).wakerAt w (.enqueue b t)) := by
  have hg : Inv (m.setState t .running) := by
    refine ⟨h.task, h.lock, h.sound, fun u hu => ?_, h.moved, h.fixed, h.after, h.swept, h.done⟩
    refine h.asleep u ?_
    have hu : Function.update m.state t .running u = .sleeping := hu
    rw [Function.update_apply] at hu
    split at hu
    · cases hu
    · exact hu
  have hw : (m.setState t .running).waker w = .rouse b t := hw
  refine hg.wakerAt_locked (by rw [hw]; rfl) rfl (by rw [hw]; rfl) (by rw [hw]; rfl) (fun b' u e => ?_)
    (fun u e => ?_) fun u e => ?_
  · rw [hw] at e
    cases e
    show Function.update m.state t .running t ≠ .sleeping
    rw [Function.update_self]
    nofun
  · rw [hw] at e
    exact Or.inr e
  · rw [hw]
    exact Or.inl e

theorem Inv.enqueue (h : Inv m) [DecidableEq T] (hw : m.waker w = .enqueue b t) :
    Inv ({ m with ready := m.ready ++ [t], moved := Function.update m.moved t true }.wakerAt w (.pop b)) := by
  have hg : Inv { m with ready := m.ready ++ [t], moved := Function.update m.moved t true } := by
    refine ⟨h.task, h.lock, h.sound, h.asleep, fun u hu => ?_, h.fixed, h.after, h.swept, h.done⟩
    refine h.moved u ?_
    have hu : Function.update m.moved t true u = false := hu
    rw [Function.update_apply] at hu
    split at hu
    · cases hu
    · exact hu
  refine hg.wakerAt_locked (by rw [hw]; rfl) rfl (by rw [hw]; rfl) (by rw [hw]; rfl) (fun b' u e => ?_)
    (fun u e => ?_) fun u e => e.elim
  · cases hw.symm.trans e
  · rw [hw] at e
    refine Or.inl ?_
    show Function.update m.moved t true u = true
    rw [show t = u from e, Function.update_self]

end

/-! ## Every run -/

section

variable [DecidableEq T] [DecidableEq W] {m m' : Machine T W}

theorem Inv.wake (h : Inv m) {w : W} (hs : m.wake w = some m') : Inv m' := by
  unfold Machine.wake at hs
  split at hs
  · cases hs
  · cases hs
  · cases hs
  · next hw =>
    split at hs
    · next hh => cases hs; exact h.lock_waker hw hh
    · cases hs; exact h
  · next hw =>
    split at hs
    · next hq => cases hs; exact h.empty hw hq
    · next hq => cases hs; exact h.pop hw hq
  · next hw => cases hs; exact h.rouse hw
  · next hw => cases hs; exact h.enqueue hw

theorem step_inv (h : Inv m) {a : Act T W} (hs : step m a = some m') : Inv m' := by
  cases a with
  | flip b =>
    simp only [step] at hs
    split at hs
    · cases hs
    · next hf =>
      cases hs
      exact ⟨h.task, h.lock, h.sound, h.asleep, h.moved, fun e => (hf e).elim, h.after, h.swept, h.done⟩
  | waitEvent t =>
    simp only [step] at hs
    split at hs
    · next ht => cases hs; exact h.goto (by rw [ht]; rfl) rfl rfl
    · cases hs
  | go t => exact h.go hs
  | preempt t =>
    simp only [step] at hs
    split at hs
    · cases hs
    · split at hs
      · cases hs
      · next hl =>
        cases hs
        refine h.goto (by simpa using hl) rfl ?_
        rw [Pc.sound, h.sound t]
        simpa using hl
  | raise w =>
    simp only [step] at hs
    split at hs
    · next hw =>
      cases hs
      have hf : Inv { m with cond := true, fixed := true } :=
        ⟨h.task, h.lock, h.sound, h.asleep, h.moved, fun _ => rfl, fun _ _ => rfl, h.swept, h.done⟩
      exact hf.wakerAt (by rw [hw]; rfl) rfl (fun _ => rfl) nofun
    · cases hs
  | wakeUp w =>
    simp only [step] at hs
    split at hs
    · next hw => cases hs; exact h.wakerAt (by rw [hw]; rfl) rfl nofun nofun
    · next hw => cases hs; exact h.wakerAt (by rw [hw]; rfl) rfl (fun _ => h.after w (by rw [hw]; rfl)) nofun
    · cases hs
  | wake w => exact h.wake hs

theorem reach_inv (h : Lib.Reach step (fun _ _ => True) boot m) : Inv m :=
  h.rule (fun _ => boot_inv) fun _ _ _ hi _ hs => step_inv hi hs

/-- Once the `wake_up` of a waker that made the condition true for good is complete, no task
    sleeps in the queue: each was moved to a ready queue since it last queued up, and each
    check of the condition leads out of `wait_event`. -/
theorem no_lost_wakeup (h : Lib.Reach step (fun _ _ => True) boot m) {w : W} (hw : m.waker w = .done) :
    m.queue = [] ∧ ∀ t, m.state t ≠ .sleeping ∧ m.moved t = true ∧
      ∀ m', step m (.go t) = some m' → m.pc t = .check → m'.pc t = .leave := by
  have hi := reach_inv h
  have hsw : (m.waker w).swept = true := by rw [hw]; rfl
  obtain ⟨hq, hn⟩ := hi.done w hw
  refine ⟨hq, fun t => ⟨fun hs => ?_, ?_, fun m' hm ht => ?_⟩⟩
  · rcases hi.asleep t hs with hm | hp | ⟨v, b, hv⟩
    · rw [hq] at hm
      cases hm
    · have := hi.swept w hsw t
      rw [hp] at this
      cases this
    · exact hn v t (by rw [hv]; rfl)
  · cases e : m.moved t
    · rcases hi.moved t e with hm | ⟨v, hv⟩
      · rw [hq] at hm
        cases hm
      · exact (hn v t hv).elim
    · rfl
  · have hc : m.cond = true := hi.fixed (hi.after w (swept_after hsw))
    simp only [step, Machine.go, ht] at hm
    cases hm
    rw [Machine.goto_pc, if_pos rfl, if_pos hc]

end

/-! ## The window between the unlock and the test -/

def start : Machine (Fin 2) Unit where
  cond := false
  fixed := false
  holder := none
  queue := []
  ready := []
  state := fun _ => .running
  moved := fun _ => true
  pc := fun _ => .outside
  waker := fun _ => .idle

/-- Task 0 finds the condition false and queues up; the whole `wake_up` comes before its test. -/
def window : List (Act (Fin 2) Unit) :=
  [.waitEvent 0, .go 0, .go 0, .go 0, .go 0, .go 0, .raise (), .wakeUp (), .wake (), .wake (), .wake (), .wake (),
   .wake ()]

theorem no_lost_wakeup_window : ∃ m, Lib.trace step start window = some m ∧ m.pc 0 = .test ∧ m.queue = [] ∧
    m.state 0 ≠ .sleeping := by
  have hs : Lib.Reach step (fun _ _ => True) boot start := .init ⟨rfl, rfl, rfl, fun _ => rfl, fun _ => rfl,
    fun _ => rfl, fun _ => rfl⟩
  obtain ⟨m, hm, ht, he⟩ := hs.of_any (fun m : Machine (Fin 2) Unit => decide (m.pc 0 = .test ∧ m.waker () = .done))
    (Lib.meets_true step window start) (by decide)
  obtain ⟨h0, hw⟩ := of_decide_eq_true he
  obtain ⟨hq, hn⟩ := no_lost_wakeup hm hw
  exact ⟨m, ht, h0, hq, (hn 0).1⟩

end Myos.Sched.Wakeup
