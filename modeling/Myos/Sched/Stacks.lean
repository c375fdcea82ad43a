/-
  Myos.Sched.Stacks — `schedule()` in one step, and what a step does to the kernel stacks.

  Proved: in a run without an interrupt inside `schedule()` the CPU is always on the stack of
  the current task, and every saved context is on the task's own stack (`Straight`).
-/

import Myos.Sched.Steps

namespace Myos.Sched.Kernel

variable {Q S : Type*} {k k' : Kernel Q S} {p n : Pid}

/-! ## schedule -/

/-- The CPU is on the stack of the current task, and nobody is stopped inside `schedule()`. -/
structure Straight (k : Kernel Q S) : Prop where
  running : k.running = k.current
  context : ∀ p, k.context p = p
  start : ∀ p pc, .schedule pc ∈ k.stack p → pc = .start

/-- The ready queue when `schedule()` takes the next task. -/
def requeued (k : Kernel Q S) : List (Prio × Pid) :=
  if (k.task k.current).state = .running then k.ready ++ [((k.task k.current).prio, k.current)] else k.ready

/-- The reference of CURRENT_TASK goes to the ready queue or ends. -/
def released (t : Task) : Task := if t.state = .running then t else { t with strong := t.strong - 1 }

/-- `schedule()` from the choice of the next task to the switch. -/
theorem pick_eq {c : Pid} (hc : ∀ p, k.context p = p) (hr : k.running = c) {m : Nat} {b : Bool}
    (h : k.schedFor (m + 4) (.pick c) = some (b, k')) :
    ∃ e ∈ k.ready, k' = { k with
      ready := k.ready.erase e
      task := Function.update k.task c { k.task c with strong := (k.task c).strong - 1 }
      current := e.2
      running := e.2
      stack := Function.update k.stack c k.frames.tail } := by
  cases hp : k.popReady with
  | none => simp [schedFor, schedStep, hp] at h
  | some r =>
    obtain ⟨n, k1⟩ := r
    obtain ⟨e, he, rfl, rfl⟩ := popReady_eq hp
    simp only [schedFor, schedStep, hp, Option.map_some, Option.some.injEq, Prod.mk.injEq] at h
    refine ⟨e, he, h.2.symm.trans ?_⟩
    have hctx : Function.update k.context c c = k.context := Function.update_eq_self_iff.mpr (hc c).symm
    simp only [dropArc, modify, setFrames, frames, hr, hctx, hc]

theorem schedFor_start (n : Nat) (k : Kernel Q S) : k.schedFor (n + 1) .start =
    k.schedFor n (if (k.task k.current).state = .running then .enqueue k.current else .pick k.current) := rfl

theorem schedFor_enqueue (n : Nat) (k : Kernel Q S) (c : Pid) :
    k.schedFor (n + 1) (.enqueue c) = ((k.cloneArc c).pushReady c).schedFor n (.pick c) := rfl

/-- `schedule()` from its start to the switch. -/
theorem Straight.schedule_eq (hs : k.Straight) {fs : List (Frame Q S)} (hf : k.frames = .schedule .start :: fs)
    {b : Bool} (h : k.schedFor 6 .start = some (b, k')) :
    ∃ e ∈ k.requeued, k' = { k with
      ready := k.requeued.erase e
      task := Function.update k.task k.current (released (k.task k.current))
      current := e.2
      running := e.2
      stack := Function.update k.stack k.current fs } := by
  by_cases hr : (k.task k.current).state = .running
  · rw [schedFor_start, if_pos hr, schedFor_enqueue] at h
    have hc : ∀ p, ((k.cloneArc k.current).pushReady k.current).context p = p := hs.context
    have hk : ((k.cloneArc k.current).pushReady k.current).running = k.current := hs.running
    obtain ⟨e, he, rfl⟩ := pick_eq hc hk h
    have ht : (k.cloneArc k.current).task k.current = { k.task k.current with strong := (k.task k.current).strong + 1 } :=
      modify_task_self ..
    have hq : ((k.cloneArc k.current).pushReady k.current).ready = k.requeued := by
      show k.ready ++ [(((k.cloneArc k.current).task k.current).prio, k.current)] = _
      rw [requeued, if_pos hr, ht]
    refine ⟨e, hq ▸ he, ?_⟩
    have htask : Function.update ((k.cloneArc k.current).pushReady k.current).task k.current
        { ((k.cloneArc k.current).pushReady k.current).task k.current with
          strong := (((k.cloneArc k.current).pushReady k.current).task k.current).strong - 1 } =
        Function.update k.task k.current (released (k.task k.current)) := by
      show Function.update (Function.update k.task k.current _) k.current
        { (k.cloneArc k.current).task k.current with strong := ((k.cloneArc k.current).task k.current).strong - 1 } = _
      rw [Function.update_idem, ht, released, if_pos hr]
      rfl
    rw [htask, hq, show ((k.cloneArc k.current).pushReady k.current).frames = k.frames from rfl, hf]
    rfl
  · rw [schedFor_start, if_neg hr] at h
    obtain ⟨e, he, rfl⟩ := pick_eq hs.context hs.running h
    refine ⟨e, ?_, ?_⟩
    · rw [requeued, if_neg hr]
      exact he
    · rw [requeued, if_neg hr, released, if_neg hr, hf]
      rfl

/-! ## The stacks -/

/-- What a frame leaves in its place when it is not through. -/
def next : Frame Q S → List (Frame Q S)
  | .waitEvent q => [.waitTest q]
  | .waitTest q => [.schedule .start, .waitEvent q]
  | .sleep _ => [.schedule .start]
  | .schedule _ => []
  | .down s => [.schedule .start, .down s]
  | .rouse t => [.add t]
  | .add _ => []
  | .exitWith _ => [.exitNotify]
  | .exitNotify => [.schedule .start]
  | .wait4 _ => [.waitAlive]
  | .waitAlive => []
  | .checkSignals => [.exitWith 0]
  | .checkDead => [.exitWith 0]
  | .checkSchedule => [.schedule .start]

/-- `k'` differs from `k` in the stack the CPU is on, which is `fs` now, but is on it still. -/
structure OnStack (k : Kernel Q S) (fs : List (Frame Q S)) (k' : Kernel Q S) : Prop where
  context : k'.context = k.context
  running : k'.running = k.running
  current : k'.current = k.current
  nextPid : k'.nextPid = k.nextPid
  stack : k'.stack = Function.update k.stack k.running fs

theorem onStack_setFrames (k : Kernel Q S) (fs : List (Frame Q S)) : OnStack k fs (k.setFrames fs) := ⟨rfl, rfl, rfl, rfl, rfl⟩

theorem OnStack.straight {fs : List (Frame Q S)} (h : OnStack k fs k') (hs : k.Straight)
    (hfs : ∀ pc, .schedule pc ∈ fs → pc = .start) : k'.Straight := by
  refine ⟨by rw [h.running, h.current, hs.running], fun p => by rw [h.context]; exact hs.context p, fun p pc hm => ?_⟩
  rw [h.stack, Function.update_apply] at hm
  split at hm
  · exact hfs pc hm
  · exact hs.start p pc hm

theorem doKill_fields (k : Kernel Q S) (pid sig : Nat) : ∃ task, (k.doKill pid sig).2 = { k with task := task } := by
  rcases doKill_eq k pid sig with h | ⟨-, -, h⟩ <;> rw [h] <;> exact ⟨_, rfl⟩

/-- A frame that is not `schedule()` goes on in place. -/
theorem resume_onStack [DecidableEq S] {f : Frame Q S} {fs : List (Frame Q S)} {b : Bool}
    (hf : ∀ pc, f ≠ .schedule pc) (h : k.resume b fs f = some k') : ∃ g, g <:+ next f ∧ OnStack k (g ++ fs) k' := by
  have hnil : ∀ {k'}, OnStack k fs k' → ∃ g, g <:+ next f ∧ OnStack k (g ++ fs) k' :=
    fun h => ⟨[], List.nil_suffix, h⟩
  have hall : ∀ {k'}, OnStack k (next f ++ fs) k' → ∃ g, g <:+ next f ∧ OnStack k (g ++ fs) k' :=
    fun h => ⟨_, List.suffix_rfl, h⟩
  cases f with
  | schedule pc => exact (hf pc rfl).elim
  | waitEvent q =>
    simp only [resume] at h
    split at h
    · cases h; exact hnil (onStack_setFrames k fs)
    · obtain ⟨k1, h1, rfl⟩ := Option.map_eq_some_iff.mp h
      obtain ⟨rfl, -⟩ := upgrade_eq h1
      exact hall ⟨rfl, rfl, rfl, rfl, rfl⟩
  | waitTest q =>
    simp only [resume] at h
    split at h <;> cases h
    · exact hall ⟨rfl, rfl, rfl, rfl, rfl⟩
    · exact ⟨[.waitEvent q], List.suffix_cons _ _, ⟨rfl, rfl, rfl, rfl, rfl⟩⟩
  | sleep e =>
    obtain ⟨k1, h1, rfl⟩ := Option.map_eq_some_iff.mp h
    obtain ⟨rfl, -⟩ := upgrade_eq h1
    exact hall ⟨rfl, rfl, rfl, rfl, rfl⟩
  | down s =>
    simp only [resume] at h
    split at h
    · cases h
    · next hd =>
      obtain ⟨-, -, rfl⟩ := downSection_true hd
      cases h
      exact hnil ⟨rfl, rfl, rfl, rfl, rfl⟩
    · next hd =>
      obtain ⟨-, -, -, task, rfl, -⟩ := downSection_false hd
      cases h
      exact hall ⟨rfl, rfl, rfl, rfl, rfl⟩
  | rouse t => cases h; exact hall ⟨rfl, rfl, rfl, rfl, rfl⟩
  | add t => cases h; exact hnil ⟨rfl, rfl, rfl, rfl, rfl⟩
  | exitWith c => cases h; exact hall ⟨rfl, rfl, rfl, rfl, rfl⟩
  | exitNotify =>
    simp only [resume] at h
    cases h
    obtain ⟨task, ht⟩ := doKill_fields k (k.task k.current).ppid sigChld
    rw [ht]
    split <;> exact hall ⟨rfl, rfl, rfl, rfl, rfl⟩
  | wait4 pid =>
    simp only [resume] at h
    split at h
    · next hz =>
      obtain ⟨rfl, -⟩ := findZombieChild_some hz
      cases h
      rw [purge_eq]
      exact hnil ⟨rfl, rfl, rfl, rfl, rfl⟩
    · next hz =>
      obtain ⟨rfl, -⟩ := findZombieChild_none hz
      cases h
      rw [purge_eq]
      exact hall ⟨rfl, rfl, rfl, rfl, rfl⟩
  | waitAlive =>
    simp only [resume] at h
    split at h <;> cases h <;> exact hnil ⟨rfl, rfl, rfl, rfl, rfl⟩
  | checkSignals =>
    simp only [resume, doCheckSignals_eq] at h
    split at h
    · next hc =>
      obtain rfl := congrArg Prod.snd hc
      cases h
      exact hall ⟨rfl, rfl, rfl, rfl, rfl⟩
    · next hc =>
      obtain rfl := congrArg Prod.snd hc
      cases h
      exact hnil ⟨rfl, rfl, rfl, rfl, rfl⟩
  | checkDead =>
    simp only [resume] at h
    split at h <;> cases h
    · exact hall ⟨rfl, rfl, rfl, rfl, rfl⟩
    · exact hnil ⟨rfl, rfl, rfl, rfl, rfl⟩
  | checkSchedule =>
    simp only [resume] at h
    split at h <;> cases h
    · exact hall ⟨rfl, rfl, rfl, rfl, rfl⟩
    · exact hnil ⟨rfl, rfl, rfl, rfl, rfl⟩

/-- The frames a call starts with, if it leaves any. -/
def entered [DecidableEq S] (k : Kernel Q S) : Call Q S → List (Frame Q S)
  | .waitEvent q => [.waitEvent q]
  | .sleep ms => [.sleep (k.tick + ms * 1000 / 1000)]
  | .yieldNow => [.schedule .start]
  | .down s => [.down s]
  | .up s => (k.upSection s).1.toList.map .rouse
  | .exit code => [.exitWith code]
  | .wait4 pid => [.wait4 pid]
  | .checkSignals => [.checkSignals]
  | .fault _ => [.checkDead, .checkSignals]
  | _ => []

theorem enter_onStack [DecidableEq Q] [DecidableEq S] (h0 : k.frames = []) (c : Call Q S) :
    (OnStack k (k.entered c) (k.enter c) ∨ OnStack k [] (k.enter c)) ∨
      ∃ t, k.enter c = k.create t ∧ t.signals = .new ∧ t.state = .running := by
  have hnil : Function.update k.stack k.running [] = k.stack := Function.update_eq_self_iff.mpr h0.symm
  cases c with
  | wakeUp q =>
    refine Or.inl (Or.inr ?_)
    simp only [enter, wakeUp_eq]
    exact ⟨rfl, rfl, rfl, rfl, hnil.symm⟩
  | sleep ms =>
    simp only [enter]
    split
    · exact Or.inl (Or.inr ⟨rfl, rfl, rfl, rfl, hnil.symm⟩)
    · exact Or.inl (Or.inl ⟨rfl, rfl, rfl, rfl, rfl⟩)
  | tryDown s =>
    refine Or.inl (Or.inr ?_)
    simp only [enter, tryDown]
    split <;> exact ⟨rfl, rfl, rfl, rfl, hnil.symm⟩
  | up s =>
    obtain ⟨task, -, hu⟩ := upSection_eq k s
    simp only [enter, entered, hu]
    cases k.semq.find? fun e => e.1 = s with
    | none => exact Or.inl (Or.inr ⟨rfl, rfl, rfl, rfl, hnil.symm⟩)
    | some e => exact Or.inl (Or.inl ⟨rfl, rfl, rfl, rfl, rfl⟩)
  | kill pid sig =>
    obtain ⟨task, ht⟩ := doKill_fields k pid sig
    simp only [enter, ht]
    exact Or.inl (Or.inr ⟨rfl, rfl, rfl, rfl, hnil.symm⟩)
  | fork =>
    simp only [enter, doFork]
    split
    · exact Or.inr ⟨_, rfl, rfl, rfl⟩
    · exact Or.inl (Or.inr ⟨rfl, rfl, rfl, rfl, hnil.symm⟩)
  | createKernelThread prio => exact Or.inr ⟨_, rfl, rfl, rfl⟩
  | fault sig =>
    obtain ⟨task, ht⟩ := doKill_fields k k.current sig
    simp only [enter, ht]
    exact Or.inl (Or.inl ⟨rfl, rfl, rfl, rfl, rfl⟩)
  | schedYield => exact Or.inl (Or.inr ⟨rfl, rfl, rfl, rfl, hnil.symm⟩)
  | _ => exact Or.inl (Or.inl ⟨rfl, rfl, rfl, rfl, rfl⟩)

theorem tty_fields (k : Kernel Q S) (pid : Pid) (sig : Nat) : ∃ task, k.tty pid sig = { k with task := task } := by
  unfold tty
  split <;> exact ⟨_, rfl⟩

theorem interrupt_onStack [DecidableEq Q] (k : Kernel Q S) (i : Irq Q) :
    OnStack k (.checkSignals :: .checkSchedule :: k.frames) (k.interrupt i) := by
  cases i with
  | timer expired =>
    simp only [interrupt, checkSleepers_eq]
    exact ⟨rfl, rfl, rfl, rfl, rfl⟩
  | wake q =>
    simp only [interrupt, wakeUp_eq]
    exact ⟨rfl, rfl, rfl, rfl, rfl⟩
  | ctrlC pid =>
    obtain ⟨task, ht⟩ := tty_fields k pid sigInt
    simp only [interrupt, ht]
    exact ⟨rfl, rfl, rfl, rfl, rfl⟩
  | ctrlZ pid =>
    obtain ⟨task, ht⟩ := tty_fields k pid sigStop
    simp only [interrupt, ht]
    exact ⟨rfl, rfl, rfl, rfl, rfl⟩

theorem create_straight (hs : k.Straight) (t : Task) : (k.create t).Straight := by
  refine ⟨hs.running, fun p => ?_, fun p pc hm => ?_⟩
  · show Function.update k.context k.nextPid k.nextPid p = p
    rw [Function.update_apply]
    split
    · next e => exact e.symm
    · exact hs.context p
  · have hm : .schedule pc ∈ Function.update k.stack k.nextPid [] p := hm
    rw [Function.update_apply] at hm
    split at hm
    · cases hm
    · exact hs.start p pc hm

/-- No interrupt arrives inside `schedule()`. -/
def Outside : Event Q S → Prop
  | .irqInside _ _ => False
  | _ => True

theorem createIdle_straight (count : S → Int) : (empty count : Kernel Q S).createIdle.Straight :=
  have hc := create_straight (k := empty count) ⟨rfl, fun p => rfl, fun p pc hm => by cases hm⟩ (Task.new 0 0 false)
  ⟨hc.running, hc.context, hc.start⟩

theorem start_straight {count : S → Int} {ts : List (Prio × Bool)} (h : start count ts = some k) : k.Straight := by
  obtain ⟨k1, e, h1, -, rfl⟩ := start_rule (createIdle_straight count) (fun k _ _ hk => create_straight hk _) h
  exact ⟨rfl, h1.context, h1.start⟩

theorem Straight.step [DecidableEq Q] [DecidableEq S] (hs : k.Straight) {e : Event Q S} (he : Outside e)
    (h : step k e = some k') : k'.Straight := by
  have hmem : ∀ pc, .schedule pc ∈ k.frames → pc = .start := fun pc => hs.start k.running pc
  cases e with
  | irqInside n i => exact he.elim
  | irq i =>
    cases h
    refine (interrupt_onStack k i).straight hs fun pc hm => ?_
    rcases List.mem_cons.mp hm with e | hm
    · cases e
    · rcases List.mem_cons.mp hm with e | hm
      · cases e
      · exact hmem pc hm
  | call c =>
    simp only [Kernel.step] at h
    split at h
    · next h0 =>
      cases h
      rcases enter_onStack h0 c with (h | h) | ⟨t, h, -⟩
      · refine h.straight hs fun pc hm => ?_
        cases c <;> simp [entered] at hm
        exact hm
      · exact h.straight hs fun pc hm => by cases hm
      · rw [h]; exact create_straight hs t
    · cases h
  | run b =>
    simp only [Kernel.step] at h
    split at h
    · cases h
    · next f fs hf =>
      rw [hf] at hmem
      by_cases hsch : ∃ pc, f = .schedule pc
      · obtain ⟨pc, rfl⟩ := hsch
        obtain rfl := hmem pc List.mem_cons_self
        obtain ⟨r, hr, rfl⟩ := Option.map_eq_some_iff.mp h
        obtain ⟨e, -, he⟩ := hs.schedule_eq hf hr
        rw [he]
        refine ⟨rfl, hs.context, fun p pc hm => ?_⟩
        have hm : .schedule pc ∈ Function.update k.stack k.current fs p := hm
        rw [Function.update_apply] at hm
        split at hm
        · exact hmem pc (List.mem_cons_of_mem _ hm)
        · exact hs.start p pc hm
      · obtain ⟨g, hg, ho⟩ := resume_onStack (fun pc e => hsch ⟨pc, e⟩) h
        refine ho.straight hs fun pc hm => ?_
        rcases List.mem_append.mp hm with hm | hm
        · have := hg.subset hm
          cases f <;> simp [next] at this <;> exact this
        · exact hmem pc (List.mem_cons_of_mem _ hm)

end Myos.Sched.Kernel
