/-
  Myos.Sched.Task — a task, its state and its signals (`rust/src/kernel/task.rs`,
  `signal.rs`).

  Of a task only what the scheduler, the queues and the signals read is here. No function
  of the kernel calls `block`, so the mask of blocked signals stays empty.
-/

import Mathlib

namespace Myos.Sched

inductive TaskState where
  | running
  | sleeping
  | dead
  | zombie
  deriving DecidableEq, Repr

abbrev prioNr : Nat := 10

abbrev Prio := Fin prioNr

instance : NeZero prioNr := ⟨by decide⟩

abbrev Pid := Nat

/-! ## Signals -/

def maxSignals : Nat := 64

def sigHup : Nat := 1
def sigInt : Nat := 2
def sigQuit : Nat := 3
def sigKill : Nat := 9
def sigUsr1 : Nat := 10
def sigSegv : Nat := 11
def sigUsr2 : Nat := 12
def sigTerm : Nat := 15
def sigChld : Nat := 17
def sigCont : Nat := 18
def sigStop : Nat := 19

inductive SigAction where
  | terminate
  | ignore
  | core
  | stop
  | cont
  | handler
  deriving DecidableEq, Repr

def defaultAction (sig : Nat) : SigAction :=
  if sig ∈ [sigHup, sigInt, sigKill, sigTerm, sigUsr1, sigUsr2] then .terminate
  else if sig ∈ [sigQuit, sigSegv] then .core
  else if sig = sigStop then .stop
  else if sig = sigCont then .cont
  else if sig = sigChld then .ignore
  else .terminate

structure SignalState where
  pending : BitVec 64
  blocked : BitVec 64
  deriving DecidableEq, Repr

namespace SignalState

def new : SignalState := ⟨0, 0⟩

def send (s : SignalState) (sig : Nat) : SignalState :=
  if sig = 0 ∨ maxSignals ≤ sig then s else { s with pending := s.pending ||| BitVec.twoPow 64 sig }

/-- The lowest signal that is pending and not blocked, 0 when there is none. -/
def checkPending (s : SignalState) : Nat :=
  ((List.range maxSignals).find? fun sig => (s.pending &&& ~~~s.blocked).getLsbD sig).getD 0

theorem checkPending_pending {s : SignalState} (h : s.checkPending ≠ 0) : s.pending.getLsbD s.checkPending = true := by
  unfold checkPending at h ⊢
  cases hf : (List.range maxSignals).find? fun sig => (s.pending &&& ~~~s.blocked).getLsbD sig with
  | none => rw [hf] at h; exact (h rfl).elim
  | some sig =>
    have := List.find?_some hf
    rw [BitVec.getLsbD_and, Bool.and_eq_true] at this
    exact this.1

def clearPending (s : SignalState) (sig : Nat) : SignalState :=
  if sig < maxSignals then { s with pending := s.pending &&& ~~~BitVec.twoPow 64 sig } else s

def clearAllPending (s : SignalState) : SignalState := { s with pending := 0 }

theorem send_pending (s : SignalState) (sig i : Nat) :
    (s.send sig).pending.getLsbD i = true → s.pending.getLsbD i = true ∨ i = sig := by
  unfold send
  split
  · exact Or.inl
  · intro h
    rw [BitVec.getLsbD_or, Bool.or_eq_true, BitVec.getLsbD_twoPow] at h
    refine h.imp_right fun h => ?_
    simp only [Bool.and_eq_true, decide_eq_true_eq] at h
    exact h.2.symm

theorem clearPending_pending (s : SignalState) (sig i : Nat) (h : (s.clearPending sig).pending.getLsbD i = true) :
    s.pending.getLsbD i = true := by
  unfold clearPending at h
  split at h
  · rw [BitVec.getLsbD_and, Bool.and_eq_true] at h
    exact h.1
  · exact h

end SignalState

/-! ## The task -/

/-- `arcSelf`: the weak reference to itself is there. `strong`: the count of its `Arc`, the
    task is destroyed when it gets to 0. `user`: it has a page table of its own. -/
structure Task where
  ppid : Pid
  prio : Prio
  originalPrio : Prio
  state : TaskState
  exitCode : Int
  signals : SignalState
  user : Bool
  arcSelf : Bool
  strong : Nat
  deriving DecidableEq, Repr

/-- A task as `create_kernel_thread`, `create_user_process` and `do_fork` make it. -/
def Task.new (ppid : Pid) (prio : Prio) (user : Bool) : Task where
  ppid := ppid
  prio := prio
  originalPrio := prio
  state := .running
  exitCode := 0
  signals := .new
  user := user
  arcSelf := true
  strong := 1

end Myos.Sched
