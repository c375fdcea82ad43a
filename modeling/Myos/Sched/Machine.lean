/-
  Myos.Sched.Machine — one CPU running the tasks: calls into the kernel, the frames they
  leave, and interrupts (`rust/src/kernel`, `exception/handler.c`).

  An event is a call a task makes from its own code, one access of the frame on top of the
  stack, or an interrupt. The parts under a lock are one access, the CPU takes no interrupt
  there. `schedule()` runs to the switch in one event, unless an interrupt arrives inside it.
  An interrupt's handler is one event; it leaves the check of the signals and of the reschedule
  flag as frames. Reaching a panic of the kernel is no step.
-/

import Myos.Lib.Runs
import Myos.Sched.Kernel

namespace Myos.Sched

inductive Call (Q S : Type*) where
  | waitEvent (q : Q)
  | wakeUp (q : Q)
  | sleep (ms : Nat)
  | yieldNow
  | schedYield
  | down (s : S)
  | tryDown (s : S)
  | up (s : S)
  | kill (pid sig : Nat)
  | exit (code : Int)
  | wait4 (pid : Int)
  | fork
  | createKernelThread (prio : Prio)
  | checkSignals
  | fault (sig : Nat)
  deriving DecidableEq, Repr

/-- The interrupts: the timer (`expired`: the time slice is used up), a device or a line of
    input that wakes a wait queue, Ctrl-C and Ctrl-Z for the foreground task. -/
inductive Irq (Q : Type*) where
  | timer (expired : Bool)
  | wake (q : Q)
  | ctrlC (pid : Pid)
  | ctrlZ (pid : Pid)
  deriving DecidableEq, Repr

/-- `run b`: `b` is what the condition of `wait_event` says. `irqInside n`: an interrupt after
    `n` accesses of `schedule()`. -/
inductive Event (Q S : Type*) where
  | call (c : Call Q S)
  | run (b : Bool)
  | irq (i : Irq Q)
  | irqInside (n : Nat) (i : Irq Q)
  deriving DecidableEq, Repr

namespace Kernel

variable {Q S : Type*}

/-- A call from the task's own code. -/
def enter [DecidableEq Q] [DecidableEq S] (k : Kernel Q S) : Call Q S → Kernel Q S
  | .waitEvent q => k.setFrames [.waitEvent q]
  | .wakeUp q => k.wakeUp q
  | .sleep ms => if ms = 0 then k else k.setFrames [.sleep (k.tick + ms * 1000 / 1000)]
  | .yieldNow => k.setFrames [.schedule .start]
  | .schedYield => { k with needResched := true }
  | .down s => k.setFrames [.down s]
  | .tryDown s => (k.tryDown s).2
  | .up s =>
    match k.upSection s with
    | (none, k) => k
    | (some t, k) => k.setFrames [.rouse t]
  | .kill pid sig => (k.doKill pid sig).2
  | .exit code => k.setFrames [.exitWith code]
  | .wait4 pid => k.setFrames [.wait4 pid]
  | .fork => k.doFork.2
  | .createKernelThread prio => k.create (Task.new 0 prio false)
  | .checkSignals => k.setFrames [.checkSignals]
  | .fault sig => (k.doKill k.current sig).2.setFrames [.checkDead, .checkSignals]

/-- The frame on top of the stack goes on; `fs` is what is below it. -/
def resume [DecidableEq S] (k : Kernel Q S) (b : Bool) (fs : List (Frame Q S)) : Frame Q S → Option (Kernel Q S)
  | .waitEvent q =>
    if b then some (k.setFrames fs)
    else (k.upgrade k.current).map fun k =>
      { k.setState k.current .sleeping with waitq := k.waitq ++ [(q, k.current)] }.setFrames (.waitTest q :: fs)
  | .waitTest q =>
    if (k.task k.current).state = .sleeping then some (k.setFrames (.schedule .start :: .waitEvent q :: fs))
    else some (k.setFrames (.waitEvent q :: fs))
  | .sleep e =>
    (k.upgrade k.current).map fun k =>
      ((k.setState k.current .sleeping).sleepInsert k.current e).setFrames (.schedule .start :: fs)
  | .schedule pc => (k.schedFor 6 pc).map Prod.snd
  | .down s =>
    match k.downSection s with
    | none => none
    | some (true, k) => some (k.setFrames fs)
    | some (false, k) => some (k.setFrames (.schedule .start :: .down s :: fs))
  | .rouse t => some ((k.setState t .running).setFrames (.add t :: fs))
  | .add t => some ((k.addTask t).setFrames fs)
  | .exitWith code =>
    some ((k.modify k.current fun t => { t with exitCode := code, state := .zombie }).setFrames (.exitNotify :: fs))
  | .exitNotify =>
    let ppid := (k.task k.current).ppid
    let k := if ppid ≠ 0 then (k.doKill ppid sigChld).2 else k
    some (k.setFrames (.schedule .start :: fs))
  | .wait4 pid =>
    match k.findZombieChild k.current pid with
    | (some (code, p), k) => some ((k.returns (.child p code)).setFrames fs)
    | (none, k) => some (k.setFrames (.waitAlive :: fs))
  | .waitAlive =>
    if k.hasAlive k.current then some (({ k with needResched := true }.returns .alive).setFrames fs)
    else some ((k.returns .noChild).setFrames fs)
  | .checkSignals =>
    match k.doCheckSignals with
    | (true, k) => some (k.setFrames (.exitWith 0 :: fs))
    | (false, k) => some (k.setFrames fs)
  | .checkDead =>
    if (k.task k.current).state = .dead then some (k.setFrames (.exitWith 0 :: fs)) else some (k.setFrames fs)
  | .checkSchedule =>
    if k.needResched then some ({ k with needResched := false }.setFrames (.schedule .start :: fs))
    else some (k.setFrames fs)

def tty (k : Kernel Q S) (pid : Pid) (sig : Nat) : Kernel Q S :=
  if pid ≠ 0 ∧ pid ∈ k.all then k.send pid sig else k

/-- An interrupt: its handler, and the checks on the way out. -/
def interrupt [DecidableEq Q] (k : Kernel Q S) (i : Irq Q) : Kernel Q S :=
  let k := match i with
    | .timer expired =>
      let k := { k with tick := k.tick + 1 }.checkSleepers
      { k with needResched := k.needResched || expired }
    | .wake q => k.wakeUp q
    | .ctrlC pid => k.tty pid sigInt
    | .ctrlZ pid => k.tty pid sigStop
  k.setFrames (.checkSignals :: .checkSchedule :: k.frames)

def step [DecidableEq Q] [DecidableEq S] (k : Kernel Q S) : Event Q S → Option (Kernel Q S)
  | .call c => if k.frames = [] then some (k.enter c) else none
  | .run b =>
    match k.frames with
    | [] => none
    | f :: fs => k.resume b fs f
  | .irq i => some (k.interrupt i)
  | .irqInside n i =>
    match k.frames with
    | .schedule pc :: _ =>
      match k.schedFor n pc with
      | some (false, k) => if n = 0 then none else some (k.interrupt i)
      | _ => none
    | _ => none

/-! ## Boot -/

def noTask : Task := { Task.new 0 0 false with strong := 0 }

/-- `rust_main` has created nothing yet. -/
def empty (count : S → Int) : Kernel Q S where
  task := fun _ => noTask
  nextPid := 1
  ready := []
  waitq := []
  sleepq := []
  semq := []
  count := count
  owner := []
  all := []
  current := 0
  running := 0
  stack := fun _ => []
  context := id
  tick := 0
  needResched := false
  waits := []

/-- The idle thread; one reference to it is leaked, so that it lives forever. -/
def createIdle (k : Kernel Q S) : Kernel Q S := (k.create (Task.new 0 0 false)).cloneArc k.nextPid

/-- `rust_main`: the idle thread, the other first tasks (`true`: a user process), and the
    switch to the first of them. -/
def start (count : S → Int) (ts : List (Prio × Bool)) : Option (Kernel Q S) :=
  let k := ts.foldl (fun k t => k.create (Task.new 0 t.1 t.2)) (empty count).createIdle
  k.popReady.map fun (first, k) => { k with current := first, running := first }

def Boot (k : Kernel Q S) : Prop := ∃ count ts, start count ts = some k

end Kernel

end Myos.Sched
