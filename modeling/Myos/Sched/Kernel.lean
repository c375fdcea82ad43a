/-
  Myos.Sched.Kernel — the scheduler's queues and the operations on them
  (`rust/src/kernel/scheduler.rs`, `wait.rs`, `task.rs`, `sync/semaphore.rs`).

  A task is its pid. The queues of all priorities, wait queues and semaphores are one list
  each, an entry with its priority, queue or semaphore, in order of arrival. Each entry of a
  queue, of ALL_TASKS and CURRENT_TASK holds a strong reference to its task.
-/

import Mathlib.Logic.Function.Basic
import Myos.Sched.Task

namespace Myos.Sched

/-- The places of `schedule()` between two accesses, with its local variables. -/
inductive SchedPc where
  | start
  | enqueue (cur : Pid)
  | pick (cur : Pid)
  | store (cur next : Pid)
  | drop (cur next : Pid)
  | switch (cur next : Pid)
  deriving DecidableEq, Repr

/-- What is left to do on a kernel stack, one frame for each call that is not through. -/
inductive Frame (Q S : Type*) where
  | waitEvent (q : Q)
  | waitTest (q : Q)
  | sleep (expireTick : Nat)
  | schedule (pc : SchedPc)
  | down (s : S)
  | rouse (t : Pid)
  | add (t : Pid)
  | exitWith (code : Int)
  | exitNotify
  | wait4 (pid : Int)
  | waitAlive
  | checkSignals
  | checkDead
  | checkSchedule
  deriving DecidableEq, Repr

/-- What `do_wait4` reports. -/
inductive WaitResult where
  | child (pid : Pid) (status : Int)
  | alive
  | noChild
  deriving DecidableEq, Repr

def echild : Int := 10

/-- The value `do_wait4` returns. `neg_errno` negates nothing. -/
def WaitResult.value : WaitResult → Int
  | .child pid _ => pid
  | .alive => 0
  | .noChild => echild

/-- `running`: the task whose stack the CPU is on. `context p`: the stack that the saved
    context of `p` is on. `waits`: what the calls of `do_wait4` returned, and to whom. -/
structure Kernel (Q S : Type*) where
  task : Pid → Task
  nextPid : Pid
  ready : List (Prio × Pid)
  waitq : List (Q × Pid)
  sleepq : List (Pid × Nat)
  semq : List (S × Pid)
  count : S → Int
  owner : List (S × Pid)
  all : List Pid
  current : Pid
  running : Pid
  stack : Pid → List (Frame Q S)
  context : Pid → Pid
  tick : Nat
  needResched : Bool
  waits : List (Pid × WaitResult)

namespace Kernel

variable {Q S : Type*}

def modify (k : Kernel Q S) (p : Pid) (f : Task → Task) : Kernel Q S :=
  { k with task := Function.update k.task p (f (k.task p)) }

def setState (k : Kernel Q S) (p : Pid) (s : TaskState) : Kernel Q S := k.modify p fun t => { t with state := s }

def send (k : Kernel Q S) (p : Pid) (sig : Nat) : Kernel Q S :=
  k.modify p fun t => { t with signals := t.signals.send sig }

/-- `Arc::clone`. -/
def cloneArc (k : Kernel Q S) (p : Pid) : Kernel Q S := k.modify p fun t => { t with strong := t.strong + 1 }

/-- The end of an `Arc`. -/
def dropArc (k : Kernel Q S) (p : Pid) : Kernel Q S := k.modify p fun t => { t with strong := t.strong - 1 }

/-- `arc_self.upgrade()`; both `unwrap`s panic when there is nothing. -/
def upgrade (k : Kernel Q S) (p : Pid) : Option (Kernel Q S) :=
  if (k.task p).arcSelf ∧ 0 < (k.task p).strong then some (k.cloneArc p) else none

/-- What the CPU does next on the stack it is on. -/
def frames (k : Kernel Q S) : List (Frame Q S) := k.stack k.running

def setFrames (k : Kernel Q S) (fs : List (Frame Q S)) : Kernel Q S :=
  { k with stack := Function.update k.stack k.running fs }

/-! ## Ready queues -/

def pushReady (k : Kernel Q S) (p : Pid) : Kernel Q S := { k with ready := k.ready ++ [((k.task p).prio, p)] }

/-- The front of the highest queue that is not empty. -/
def popReady (k : Kernel Q S) : Option (Pid × Kernel Q S) :=
  match (List.finRange prioNr).reverse.findSome? fun prio => k.ready.find? fun e => e.1 = prio with
  | none => none
  | some e => some (e.2, { k with ready := k.ready.erase e })

def registerTask (k : Kernel Q S) (p : Pid) : Kernel Q S := { k with all := k.all ++ [p] }

def addTask (k : Kernel Q S) (p : Pid) : Kernel Q S := ((k.cloneArc p).pushReady p).registerTask p

def addTaskReady (k : Kernel Q S) (p : Pid) : Kernel Q S := k.pushReady p

/-! ## Waking -/

/-- One turn of the loops of `wake_up` and `rust_check_sleepers`. -/
def rouseTask (k : Kernel Q S) (p : Pid) : Kernel Q S := (k.setState p .running).addTaskReady p

def waiters [DecidableEq Q] (k : Kernel Q S) (q : Q) : List Pid := (k.waitq.filter fun e => e.1 = q).map Prod.snd

def wakeUp [DecidableEq Q] (k : Kernel Q S) (q : Q) : Kernel Q S :=
  (k.waiters q).foldl rouseTask { k with waitq := k.waitq.filter fun e => e.1 ≠ q }

def sleepers (k : Kernel Q S) : List Pid := (k.sleepq.takeWhile fun e => e.2 ≤ k.tick).map Prod.fst

def checkSleepers (k : Kernel Q S) : Kernel Q S :=
  k.sleepers.foldl rouseTask { k with sleepq := k.sleepq.dropWhile fun e => e.2 ≤ k.tick }

/-- In front of the first entry that expires later. -/
def sleepInsert (k : Kernel Q S) (p : Pid) (expireTick : Nat) : Kernel Q S :=
  { k with sleepq := (k.sleepq.takeWhile fun e => e.2 ≤ expireTick) ++
      (p, expireTick) :: k.sleepq.dropWhile fun e => e.2 ≤ expireTick }

/-! ## Semaphores -/

def ownerOf [DecidableEq S] (k : Kernel Q S) (s : S) : Option Pid := (k.owner.find? fun e => e.1 = s).map Prod.snd

/-- The assignment to `owner`, which ends the reference that was there. -/
def setOwner [DecidableEq S] (k : Kernel Q S) (s : S) (o : Option Pid) : Kernel Q S :=
  let k := match k.ownerOf s with
    | some p => k.dropArc p
    | none => k
  { k with owner := (o.map fun p => (s, p)).toList ++ k.owner.eraseP fun e => e.1 = s }

def setCount [DecidableEq S] (k : Kernel Q S) (s : S) (c : Int) : Kernel Q S :=
  { k with count := Function.update k.count s c }

/-- The owner takes the priority of the task that blocks on it. -/
def inheritPrio [DecidableEq S] (k : Kernel Q S) (s : S) (p : Pid) : Kernel Q S :=
  match k.ownerOf s with
  | some o =>
    if (k.task o).prio < (k.task p).prio then
      k.modify o fun t => { t with originalPrio := t.prio, prio := (k.task p).prio }
    else k
  | none => k

def restorePrio [DecidableEq S] (k : Kernel Q S) (s : S) : Kernel Q S :=
  match k.ownerOf s with
  | some o => k.modify o fun t => { t with prio := t.originalPrio }
  | none => k

/-- The part of `down` under the lock. `true`: the semaphore was taken. -/
def downSection [DecidableEq S] (k : Kernel Q S) (s : S) : Option (Bool × Kernel Q S) :=
  let p := k.current
  if 0 < k.count s then
    ((k.setCount s (k.count s - 1)).upgrade p).map fun k => (true, k.setOwner s (some p))
  else
    (k.upgrade p).map fun k =>
      let k := k.inheritPrio s p
      (false, { k with semq := k.semq ++ [(s, p)] }.setState p .sleeping)

/-- The part of `up` under the lock: the waiter it took off the queue. -/
def upSection [DecidableEq S] (k : Kernel Q S) (s : S) : Option Pid × Kernel Q S :=
  let k := ((k.setCount s (k.count s + 1)).restorePrio s).setOwner s none
  match k.semq.find? fun e => e.1 = s with
  | none => (none, k)
  | some e => (some e.2, { k with semq := k.semq.eraseP fun e => e.1 = s })

def tryDown [DecidableEq S] (k : Kernel Q S) (s : S) : Bool × Kernel Q S :=
  if 0 < k.count s then (true, k.setCount s (k.count s - 1)) else (false, k)

/-! ## Signals -/

def usizeMax : Nat := 2 ^ 64 - 1

/-- `do_kill` and what it returns. -/
def doKill (k : Kernel Q S) (pid sig : Nat) : Nat × Kernel Q S :=
  if maxSignals ≤ sig then (usizeMax, k)
  else if pid = 0 ∨ pid = usizeMax then (usizeMax, k)
  else if pid ∉ k.all then (usizeMax, k)
  else if sig = sigKill then (0, (k.setState pid .dead).send pid sig)
  else if sig = sigStop then (0, k.setState pid .sleeping)
  else if sig = sigCont then (0, k.setState pid .running)
  else (0, k.send pid sig)

/-- `rust_check_signals`. `true`: the task was terminated. -/
def doCheckSignals (k : Kernel Q S) : Bool × Kernel Q S :=
  let p := k.current
  let sig := (k.task p).signals.checkPending
  let clear (k : Kernel Q S) := k.modify p fun t => { t with signals := t.signals.clearPending sig }
  if sig = 0 then (false, k)
  else match defaultAction sig with
    | .terminate | .core =>
      (true, (k.setState p .dead).modify p fun t => { t with signals := t.signals.clearAllPending })
    | .ignore | .handler => (false, clear k)
    | .stop => (false, clear (k.setState p .sleeping))
    | .cont => (false, clear (k.setState p .running))

/-! ## Life of a task -/

/-- A new task, added to the ready queue and to ALL_TASKS. -/
def create (k : Kernel Q S) (t : Task) : Kernel Q S :=
  addTask { k with
    task := Function.update k.task k.nextPid t
    stack := Function.update k.stack k.nextPid []
    context := Function.update k.context k.nextPid k.nextPid
    nextPid := k.nextPid + 1 } k.nextPid

/-- `do_fork` and what it returns: 0 to a task that is no user process. -/
def doFork (k : Kernel Q S) : Pid × Kernel Q S :=
  let parent := k.task k.current
  if parent.user then (k.nextPid, k.create (Task.new k.current parent.prio true)) else (0, k)

/-- `tasks.retain(|t| t.state != TASK_DEAD)`: the entries dropped lose their reference. -/
def purge (k : Kernel Q S) : Kernel Q S :=
  (k.all.filter fun p => (k.task p).state = .dead).foldl dropArc
    { k with all := k.all.filter fun p => (k.task p).state ≠ .dead }

def findZombieChild (k : Kernel Q S) (parent : Pid) (target : Int) : Option (Int × Pid) × Kernel Q S :=
  let k := k.purge
  match k.all.find? fun p => (k.task p).ppid = parent ∧ (k.task p).state = .zombie ∧ (target < 0 ∨ p = target.toNat) with
  | none => (none, k)
  | some p => (some ((k.task p).exitCode, p), k.modify p fun t => { t with state := .dead, arcSelf := false })

/-- The second pass of `do_wait4`. -/
def hasAlive (k : Kernel Q S) (parent : Pid) : Bool :=
  k.all.any fun p => (k.task p).ppid = parent ∧ (k.task p).state ≠ .dead ∧ (k.task p).state ≠ .zombie

def returns (k : Kernel Q S) (r : WaitResult) : Kernel Q S := { k with waits := k.waits ++ [(k.current, r)] }

/-! ## schedule -/

/-- One access of `schedule()`; `none` for the place: the switch is done. -/
def schedStep (k : Kernel Q S) : SchedPc → Option (Kernel Q S × Option SchedPc)
  | .start => some (k, some (if (k.task k.current).state = .running then .enqueue k.current else .pick k.current))
  | .enqueue cur => some ((k.cloneArc cur).pushReady cur, some (.pick cur))
  -- an empty ready queue is a panic
  | .pick cur => k.popReady.map fun (next, k) => (k, some (.store cur next))
  | .store cur next => some ({ k with current := next }, some (.drop cur next))
  | .drop cur next => some (k.dropArc cur, some (.switch cur next))
  | .switch cur next =>
    let k := k.setFrames k.frames.tail
    some ({ k with context := Function.update k.context cur k.running, running := k.context next }, none)

/-- At most `n` accesses of `schedule()`, whose frame is on top of the stack. -/
def schedFor : Nat → SchedPc → Kernel Q S → Option (Bool × Kernel Q S)
  | 0, pc, k => some (false, k.setFrames (.schedule pc :: k.frames.tail))
  | n + 1, pc, k =>
    match k.schedStep pc with
    | none => none
    | some (k, none) => some (true, k)
    | some (k, some pc) => schedFor n pc k

end Kernel

end Myos.Sched
