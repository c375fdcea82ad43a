/-
  Myos.Sched.Idle — the idle task, which is there so that `schedule()` always finds a task.

  Proved:
  - `idle_reach`: while no step stops or ends the idle task, and no interrupt arrives inside
    `schedule()`, the idle task is current or in a ready queue, and `schedule()` finds a task.
  - `idle_stopped`: SIGSTOP to pid 1 takes the last task away.
-/

import Myos.Sched.Occupancy

namespace Myos.Sched

variable {Q S : Type*}

/-- The first task `rust_main` creates. -/
def idlePid : Pid := 1

/-- A running task whose pending signals are ignored. -/
structure Calm (t : Task) : Prop where
  state : t.state = .running
  pending : ∀ i, t.signals.pending.getLsbD i = true → i = sigChld

/-- What the stack of the idle task may hold: what interrupts leave there. -/
def Frame.fromIrq : Frame Q S → Bool
  | .checkSignals | .checkSchedule | .schedule _ => true
  | _ => false

namespace Calm

variable {t t' : Task}

theorem congr (h : Calm t) (hs : t'.state = t.state) (hp : t'.signals = t.signals) : Calm t' :=
  ⟨hs.trans h.state, fun i hi => h.pending i (hp ▸ hi)⟩

theorem send (h : Calm t) : Calm { t with signals := t.signals.send sigChld } :=
  ⟨h.state, fun i hi => (SignalState.send_pending _ _ _ hi).elim (h.pending i) id⟩

/-- The signals that `do_kill` may send to the idle task. -/
def harmless (sig : Nat) : Bool := sig = 0 ∨ sig = sigChld ∨ sig = sigCont

theorem killed (h : Calm t) {sig : Nat} (hs : harmless sig = true) : Calm (Kernel.killed sig t) := by
  unfold harmless at hs
  rw [decide_eq_true_eq] at hs
  rcases hs with rfl | rfl | rfl
  · exact h
  · exact h.send
  · exact ⟨rfl, h.pending⟩

/-- The check of the signals does not end it. -/
theorem checked (h : Calm t) : (Kernel.checked t).1 = false ∧ Calm (Kernel.checked t).2 := by
  by_cases h0 : t.signals.checkPending = 0
  · have hc : Kernel.checked t = (false, t) := by simp [Kernel.checked, h0]
    rw [hc]
    exact ⟨rfl, h⟩
  · have hsig := h.pending _ (SignalState.checkPending_pending h0)
    have hc : Kernel.checked t = (false, { t with signals := t.signals.clearPending sigChld }) := by
      unfold Kernel.checked
      rw [hsig]
      rfl
    rw [hc]
    exact ⟨rfl, h.state, fun i hi => h.pending i (SignalState.clearPending_pending _ _ _ hi)⟩

end Calm

namespace Kernel

variable {k k' : Kernel Q S} {p : Pid}

structure IdleKept (k : Kernel Q S) : Prop where
  straight : k.Straight
  next : idlePid < k.nextPid
  calm : Calm (k.task idlePid)
  frames : ∀ f ∈ k.stack idlePid, f.fromIrq = true
  there : k.current = idlePid ∨ idlePid ∈ k.readyPids

theorem Calm.modify (h : Calm (k.task idlePid)) {f : Task → Task} (hf : p = idlePid → Calm (f (k.task idlePid))) :
    Calm ((k.modify p f).task idlePid) := by
  rw [modify_task]
  split
  · next e => exact hf e.symm
  · exact h

theorem Calm.doKill (h : Calm (k.task idlePid)) {pid sig : Nat} (hs : pid = idlePid → Calm.harmless sig = true) :
    Calm ((k.doKill pid sig).2.task idlePid) := by
  rcases doKill_eq k pid sig with e | ⟨-, -, e⟩
  · rw [e]
    exact h
  · rw [e]
    exact Calm.modify h fun e => h.killed (hs e)

/-- A frame that goes on, of a task that is not the idle task. -/
theorem resume_calm [DecidableEq S] (h : Calm (k.task idlePid)) (hc : k.current ≠ idlePid) {f : Frame Q S} {fs : List (Frame Q S)} {b : Bool}
    (hf : ∀ pc, f ≠ .schedule pc) (hr : k.resume b fs f = some k') :
    Calm (k'.task idlePid) ∧ (idlePid ∈ k.readyPids → idlePid ∈ k'.readyPids) := by
  have hmod : ∀ g : Task → Task, Calm ((k.modify k.current g).task idlePid) := fun g => Calm.modify h fun e => absurd e hc
  have hsleep : Calm (((k.cloneArc k.current).modify k.current fun t => { t with state := .sleeping }).task idlePid) :=
    Calm.modify (hmod _) fun e => absurd e hc
  cases f with
  | schedule pc => exact absurd rfl (hf pc)
  | waitEvent q =>
    simp only [resume] at hr
    split at hr
    · cases hr
      exact ⟨h, id⟩
    · obtain ⟨k1, h1, rfl⟩ := Option.map_eq_some_iff.mp hr
      obtain ⟨rfl, -⟩ := upgrade_eq h1
      exact ⟨hsleep, id⟩
  | waitTest q =>
    simp only [resume] at hr
    split at hr <;> cases hr <;> exact ⟨h, id⟩
  | sleep e =>
    obtain ⟨k1, h1, rfl⟩ := Option.map_eq_some_iff.mp hr
    obtain ⟨rfl, -⟩ := upgrade_eq h1
    exact ⟨hsleep, id⟩
  | down s =>
    simp only [resume] at hr
    split at hr
    · cases hr
    · next hd =>
      obtain ⟨-, -, rfl⟩ := downSection_true hd
      cases hr
      exact ⟨h.congr rfl rfl, id⟩
    · next hd =>
      obtain ⟨-, -, -, task, rfl, ht⟩ := downSection_false hd
      cases hr
      refine ⟨?_, id⟩
      obtain ⟨a, b, e⟩ := ht idlePid
      show Calm (task idlePid)
      rw [e]
      refine h.congr ?_ rfl
      show (if idlePid = k.current then TaskState.sleeping else (k.task idlePid).state) = _
      rw [if_neg (Ne.symm hc)]
  | rouse t =>
    cases hr
    have hrun : Calm ((k.modify t fun t => { t with state := .running }).task idlePid) := Calm.modify h fun _ => ⟨rfl, h.pending⟩
    exact ⟨hrun, id⟩
  | add t =>
    cases hr
    have hclone : Calm ((k.modify t fun t => { t with strong := t.strong + 1 }).task idlePid) := Calm.modify h fun _ => h.congr rfl rfl
    refine ⟨hclone, fun hm => ?_⟩
    show idlePid ∈ (k.ready ++ [_]).map Prod.snd
    rw [List.map_append]
    exact List.mem_append_left _ hm
  | exitWith code =>
    cases hr
    exact ⟨hmod (exited code), id⟩
  | exitNotify =>
    simp only [resume] at hr
    cases hr
    split
    · refine ⟨Calm.doKill h fun _ => by decide, ?_⟩
      obtain ⟨task, ht⟩ := doKill_fields k (k.task k.current).ppid sigChld
      rw [ht]
      exact id
    · exact ⟨h, id⟩
  | wait4 pid =>
    have hpurge : Calm (k.purge.task idlePid) := by
      rw [purge_eq]
      exact h.congr rfl rfl
    have hready : k.purge.readyPids = k.readyPids := by
      rw [purge_eq]
      rfl
    simp only [resume] at hr
    split at hr
    · next u k1 hz =>
      obtain ⟨rfl, -, hm, -⟩ := findZombieChild_some hz
      cases hr
      refine ⟨Calm.modify hpurge fun e => ?_, fun hm => hready ▸ hm⟩
      -- a child that is reaped is a zombie
      have := hm.2.1
      rw [e, h.state] at this
      cases this
    · next k1 hz =>
      obtain ⟨rfl, -⟩ := findZombieChild_none hz
      cases hr
      exact ⟨hpurge, fun hm => hready ▸ hm⟩
  | waitAlive =>
    simp only [resume] at hr
    split at hr <;> cases hr <;> exact ⟨h, id⟩
  | checkSignals =>
    simp only [resume, doCheckSignals_eq] at hr
    split at hr
    · next hk =>
      obtain rfl := congrArg Prod.snd hk
      cases hr
      exact ⟨hmod fun t => (checked t).2, id⟩
    · next hk =>
      obtain rfl := congrArg Prod.snd hk
      cases hr
      exact ⟨hmod fun t => (checked t).2, id⟩
  | checkDead =>
    simp only [resume] at hr
    split at hr <;> cases hr <;> exact ⟨h, id⟩
  | checkSchedule =>
    simp only [resume] at hr
    split at hr <;> cases hr <;> exact ⟨h, id⟩

/-- The idle task is asked to do nothing but go on: no signal that stops or ends it, no call of its
    own, and no interrupt inside `schedule()`. -/
def SparesIdle (k : Kernel Q S) : Event Q S → Prop
  | .call (.kill pid sig) => k.current ≠ idlePid ∧ (pid = idlePid → Calm.harmless sig = true)
  | .call _ => k.current ≠ idlePid
  | .irq (.ctrlC pid) | .irq (.ctrlZ pid) => pid ≠ idlePid
  | .irqInside _ _ => False
  | .irq _ | .run _ => True

instance sparesIdleDecidable (k : Kernel Q S) (e : Event Q S) : Decidable (k.SparesIdle e) := by
  delta SparesIdle
  exact match e with
    | .call (.kill _ _) => inferInstance
    | .call (.waitEvent _) | .call (.wakeUp _) | .call (.sleep _) | .call .yieldNow | .call .schedYield | .call (.down _)
    | .call (.tryDown _) | .call (.up _) | .call (.exit _) | .call (.wait4 _) | .call .fork
    | .call (.createKernelThread _) | .call .checkSignals | .call (.fault _) => inferInstance
    | .irq (.ctrlC _) | .irq (.ctrlZ _) => inferInstance
    | .irqInside _ _ => inferInstance
    | .irq (.timer _) | .irq (.wake _) | .run _ => inferInstance

theorem SparesIdle.outside {e : Event Q S} (h : k.SparesIdle e) : Outside e := by
  cases e with
  | irqInside n i => exact h
  | _ => trivial

theorem SparesIdle.call {c : Call Q S} (h : k.SparesIdle (.call c)) : k.current ≠ idlePid := by
  cases c with
  | kill pid sig => exact h.1
  | _ => exact h

namespace IdleKept

/-- `schedule()` from the idle task or with it in a ready queue. -/
theorem schedule (h : k.IdleKept) : idlePid ∈ k.requeued.map Prod.snd := by
  unfold requeued
  rcases h.there with hc | hm
  · rw [hc, if_pos h.calm.state, List.map_append]
    exact List.mem_append_right _ (List.mem_singleton_self _)
  · split
    · rw [List.map_append]
      exact List.mem_append_left _ hm
    · exact hm

/-- `schedule()` finds a task. -/
theorem finds (h : k.IdleKept) : (k.schedFor 6 .start).isSome = true := by
  have hne : k.requeued ≠ [] := fun e => by
    have := h.schedule
    rw [e] at this
    cases this
  have hpick : ∀ (n : Nat) (k : Kernel Q S) (c : Pid), k.ready ≠ [] → (k.schedFor (n + 4) (.pick c)).isSome = true := by
    intro n k c hk
    obtain ⟨r, hr⟩ := Option.isSome_iff_exists.mp (popReady_isSome hk)
    simp [schedFor, schedStep, hr]
  rw [schedFor_start]
  unfold requeued at hne
  split
  · next hr =>
    rw [if_pos hr] at hne
    rw [schedFor_enqueue]
    exact hpick 0 _ _ (List.append_ne_nil_of_right_ne_nil _ (List.cons_ne_nil _ _))
  · next hr =>
    rw [if_neg hr] at hne
    exact hpick 1 _ _ hne

theorem resume [DecidableEq S] (h : k.IdleKept) (hs : k'.Straight) {f : Frame Q S} {fs : List (Frame Q S)} {b : Bool} (hf : k.frames = f :: fs)
    (hr : k.resume b fs f = some k') : k'.IdleKept := by
  by_cases hsch : ∃ pc, f = .schedule pc
  · obtain ⟨pc, rfl⟩ := hsch
    obtain rfl := h.straight.start k.running pc (by rw [show k.stack k.running = k.frames from rfl, hf]; exact List.mem_cons_self)
    obtain ⟨⟨r, k1⟩, hk, rfl⟩ := Option.map_eq_some_iff.mp hr
    obtain ⟨e, he, rfl⟩ := h.straight.schedule_eq hf hk
    refine ⟨hs, h.next, ?_, fun g hg => ?_, ?_⟩
    · show Calm (Function.update k.task k.current (released (k.task k.current)) idlePid)
      rw [Function.update_apply]
      split
      · next hc =>
        rw [← hc, released, if_pos h.calm.state]
        exact h.calm
      · exact h.calm
    · have hg : g ∈ Function.update k.stack k.current fs idlePid := hg
      rw [Function.update_apply] at hg
      split at hg
      · next hc =>
        refine h.frames g ?_
        rw [hc, ← h.straight.running, show k.stack k.running = k.frames from rfl, hf]
        exact List.mem_cons_of_mem _ hg
      · exact h.frames g hg
    · by_cases hi : e.2 = idlePid
      · exact Or.inl hi
      · right
        obtain ⟨a, ha, hai⟩ := List.mem_map.mp h.schedule
        have hne : a ≠ e := fun e1 => hi (by rw [← e1, hai])
        exact List.mem_map.mpr ⟨a, (List.mem_erase_of_ne hne).mpr ha, hai⟩
  · obtain ⟨g, hg, ho⟩ := resume_onStack (fun pc e => hsch ⟨pc, e⟩) hr
    have hnext : idlePid < k'.nextPid := ho.nextPid ▸ h.next
    by_cases hc : k.current = idlePid
    · -- on the idle task's stack only the checks of an interrupt go on
      have hstack : k.stack idlePid = f :: fs := by
        rw [← hc, ← h.straight.running]
        exact hf
      have hfs : ∀ g ∈ f :: fs, g.fromIrq = true := hstack ▸ h.frames
      have hfirst := hfs f List.mem_cons_self
      have hrest : ∀ gs : List (Frame Q S), (∀ g ∈ gs, g.fromIrq = true) → ∀ g ∈ gs ++ fs, g.fromIrq = true := fun gs hgs g hg =>
        (List.mem_append.mp hg).elim (hgs g) fun hg => hfs g (List.mem_cons_of_mem _ hg)
      have hset : ∀ k1 : Kernel Q S, ∀ gs, k1.running = idlePid → (∀ g ∈ gs, g.fromIrq = true) → ∀ g ∈ (k1.setFrames gs).stack idlePid,
          g.fromIrq = true := fun k1 gs hk1 hgs g hg => by
        rw [setFrames_stack, if_pos hk1.symm] at hg
        exact hgs g hg
      have hrun : k.running = idlePid := h.straight.running.trans hc
      cases f with
      | checkSignals =>
        obtain ⟨hno, hcalm⟩ := Calm.checked h.calm
        simp only [Kernel.resume, doCheckSignals_eq, hc, hno] at hr
        cases hr
        refine ⟨hs, hnext, ?_, hset _ _ hrun (hrest [] fun _ hg => by cases hg), Or.inl hc⟩
        have hm : Calm ((k.modify idlePid fun t => (Kernel.checked t).2).task idlePid) := by
          rw [modify_task_self]
          exact hcalm
        exact hm
      | checkSchedule =>
        simp only [Kernel.resume] at hr
        split at hr
        · cases hr
          exact ⟨hs, hnext, h.calm, hset _ _ hrun (hrest [.schedule .start] fun g hg => by rw [List.mem_singleton.mp hg]; rfl), Or.inl hc⟩
        · cases hr
          exact ⟨hs, hnext, h.calm, hset _ _ hrun (hrest [] fun _ hg => by cases hg), Or.inl hc⟩
      | schedule pc => exact absurd ⟨pc, rfl⟩ hsch
      | _ => cases hfirst
    · obtain ⟨hcalm, hready⟩ := resume_calm h.calm hc (fun pc e => hsch ⟨pc, e⟩) hr
      refine ⟨hs, hnext, hcalm, fun g' hg' => ?_, Or.inr (hready (h.there.resolve_left hc))⟩
      rw [ho.stack, Function.update_of_ne fun e => hc (h.straight.running ▸ e.symm)] at hg'
      exact h.frames g' hg'

end IdleKept

theorem create_calm (h : Calm (k.task idlePid)) (hn : idlePid < k.nextPid) (t : Task) :
    Calm ((k.create t).task idlePid) ∧ (idlePid ∈ k.readyPids → idlePid ∈ (k.create t).readyPids) := by
  refine ⟨?_, fun hm => ?_⟩
  · rw [create_task, if_neg (Nat.ne_of_lt hn)]
    exact h
  · rw [create_readyPids]
    exact List.mem_append_left _ hm

/-- What waking does to the idle task. -/
theorem roused_calm (h : Calm (k.task idlePid)) {l : List Pid} {r : List (Prio × Pid)} (hk : k'.task idlePid =
      if idlePid ∈ l then { k.task idlePid with state := .running } else k.task idlePid) (hr : k'.ready = k.ready ++ r) :
    Calm (k'.task idlePid) ∧ (idlePid ∈ k.readyPids → idlePid ∈ k'.readyPids) := by
  refine ⟨?_, fun hm => ?_⟩
  · rw [hk]
    split
    · exact ⟨rfl, h.pending⟩
    · exact h
  · unfold readyPids
    rw [hr, List.map_append]
    exact List.mem_append_left _ hm

theorem wakeUp_calm [DecidableEq Q] (h : Calm (k.task idlePid)) (q : Q) :
    Calm ((k.wakeUp q).task idlePid) ∧ (idlePid ∈ k.readyPids → idlePid ∈ (k.wakeUp q).readyPids) := by
  have hw := wakeUp_eq k q
  exact roused_calm h (by rw [hw]) (by rw [hw])

/-- A call of another task. -/
theorem enter_calm [DecidableEq Q] [DecidableEq S] (h : Calm (k.task idlePid)) (hn : idlePid < k.nextPid) {c : Call Q S}
    (hc : k.SparesIdle (.call c)) :
    Calm ((k.enter c).task idlePid) ∧ (idlePid ∈ k.readyPids → idlePid ∈ (k.enter c).readyPids) := by
  cases c with
  | wakeUp q => exact wakeUp_calm h q
  | sleep ms =>
    simp only [enter]
    split <;> exact ⟨h, id⟩
  | tryDown s =>
    simp only [enter, tryDown]
    split <;> exact ⟨h, id⟩
  | up s =>
    obtain ⟨task, ht, hu⟩ := upSection_eq k s
    have hcalm : Calm (task idlePid) := by
      obtain ⟨a, b, e⟩ := ht idlePid
      rw [e]
      exact h.congr rfl rfl
    simp only [enter, hu]
    cases k.semq.find? fun e => e.1 = s <;> exact ⟨hcalm, id⟩
  | kill pid sig =>
    refine ⟨Calm.doKill h hc.2, ?_⟩
    obtain ⟨task, ht⟩ := doKill_fields k pid sig
    simp only [enter, ht]
    exact id
  | fork =>
    simp only [enter, doFork]
    split
    · exact create_calm h hn _
    · exact ⟨h, id⟩
  | createKernelThread prio => exact create_calm h hn _
  | fault sig =>
    refine ⟨Calm.doKill h fun e => absurd e hc.call, ?_⟩
    obtain ⟨task, ht⟩ := doKill_fields k k.current sig
    simp only [enter, ht]
    exact id
  | _ => exact ⟨h, id⟩

theorem interrupt_calm [DecidableEq Q] (h : Calm (k.task idlePid)) {i : Irq Q} (hi : k.SparesIdle (.irq i)) :
    Calm ((k.interrupt i).task idlePid) ∧ (idlePid ∈ k.readyPids → idlePid ∈ (k.interrupt i).readyPids) := by
  have htty : ∀ pid sig, pid ≠ idlePid → Calm ((k.tty pid sig).task idlePid) ∧ (idlePid ∈ k.readyPids → idlePid ∈ (k.tty pid sig).readyPids) := by
    intro pid sig hp
    unfold tty
    split
    · have hs : Calm ((k.modify pid fun t => { t with signals := t.signals.send sig }).task idlePid) := Calm.modify h fun e => absurd e hp
      exact ⟨hs, id⟩
    · exact ⟨h, id⟩
  cases i with
  | timer expired =>
    have hw := checkSleepers_eq { k with tick := k.tick + 1 }
    exact roused_calm h (by simp only [interrupt, hw]; rfl) (by simp only [interrupt, hw]; rfl)
  | wake q => exact wakeUp_calm h q
  | ctrlC pid => exact htty pid sigInt hi
  | ctrlZ pid => exact htty pid sigStop hi

theorem IdleKept.step [DecidableEq Q] [DecidableEq S] (h : k.IdleKept) {e : Event Q S} (he : k.SparesIdle e)
    (hs : step k e = some k') : k'.IdleKept := by
  have hst := h.straight.step he.outside hs
  cases e with
  | irqInside n i => exact he.elim
  | irq i =>
    cases hs
    obtain ⟨hcalm, hready⟩ := interrupt_calm h.calm he
    have ho := interrupt_onStack k i
    refine ⟨hst, ho.nextPid ▸ h.next, hcalm, fun g hg => ?_, h.there.imp (fun hc => ho.current ▸ hc) hready⟩
    rw [ho.stack, Function.update_apply] at hg
    split at hg
    · next hc =>
      rcases List.mem_cons.mp hg with rfl | hg
      · rfl
      · rcases List.mem_cons.mp hg with rfl | hg
        · rfl
        · exact h.frames g (by rw [hc]; exact hg)
    · exact h.frames g hg
  | call c =>
    simp only [Kernel.step] at hs
    split at hs
    · next h0 =>
      cases hs
      have hc := he.call
      obtain ⟨hcalm, hready⟩ := enter_calm h.calm h.next he
      have hin := hready (h.there.resolve_left hc)
      have hstack : ∀ {fs}, OnStack k fs (k.enter c) → (k.enter c).IdleKept := fun {fs} ho => by
        refine ⟨hst, ho.nextPid ▸ h.next, hcalm, fun g hg => ?_, Or.inr hin⟩
        rw [ho.stack, Function.update_of_ne fun e => hc (h.straight.running ▸ e.symm)] at hg
        exact h.frames g hg
      rcases enter_onStack h0 c with (ho | ho) | ⟨t, ht, -⟩
      · exact hstack ho
      · exact hstack ho
      · rw [ht] at hst hcalm hin ⊢
        refine ⟨hst, Nat.lt_succ_of_lt h.next, hcalm, fun g hg => ?_, Or.inr hin⟩
        have hg : g ∈ Function.update k.stack k.nextPid [] idlePid := hg
        rw [Function.update_of_ne (Nat.ne_of_lt h.next)] at hg
        exact h.frames g hg
    · cases hs
  | run b =>
    simp only [Kernel.step] at hs
    split at hs
    · cases hs
    · next f fs hf => exact h.resume hst hf hs

theorem start_idleKept {count : S → Int} {ts : List (Prio × Bool)} (h : start count ts = some k) : k.IdleKept := by
  have hst := start_straight h
  obtain ⟨k1, e, ⟨hn, hcalm, hframes, hin⟩, he, rfl⟩ := start_rule
    (P := fun k : Kernel Q S => idlePid < k.nextPid ∧ Calm (k.task idlePid) ∧ (∀ f ∈ k.stack idlePid, f.fromIrq = true) ∧
      idlePid ∈ k.readyPids)
    (by
      refine ⟨Nat.lt_succ_self 1, ⟨rfl, fun i hi => ?_⟩, fun f hf => (by cases hf), List.mem_singleton_self idlePid⟩
      have : (0 : BitVec 64).getLsbD i = true := hi
      simp at this)
    (fun k prio user ⟨hn, hcalm, hframes, hin⟩ => by
      obtain ⟨h1, h2⟩ := create_calm hcalm hn (Task.new 0 prio user)
      refine ⟨Nat.lt_succ_of_lt hn, h1, fun f hf => ?_, h2 hin⟩
      have hf : f ∈ Function.update k.stack k.nextPid [] idlePid := hf
      rw [Function.update_of_ne (Nat.ne_of_lt hn)] at hf
      exact hframes f hf) h
  refine ⟨hst, hn, hcalm, hframes, ?_⟩
  by_cases hi : e.2 = idlePid
  · exact Or.inl hi
  · right
    obtain ⟨a, ha, hai⟩ := List.mem_map.mp hin
    exact List.mem_map.mpr ⟨a, (List.mem_erase_of_ne fun e1 => hi (by rw [← e1, hai])).mpr ha, hai⟩

/-- The idle task is current or queued, and `schedule()` does not panic. -/
structure Runnable [DecidableEq Q] [DecidableEq S] (k : Kernel Q S) : Prop where
  idle : k.current = idlePid ∨ idlePid ∈ k.readyPids
  schedule : ∀ pc fs b, k.frames = .schedule pc :: fs → (step k (.run b)).isSome = true

/-- In every run whose steps spare the idle task there is always a task to run. -/
theorem idle_reach [DecidableEq Q] [DecidableEq S] (h : Lib.Reach step SparesIdle Boot k) : k.Runnable := by
  have hk : k.IdleKept := h.rule (fun k hk => let ⟨_, _, hb⟩ := hk; start_idleKept hb) fun k e k' h he hs => h.step he hs
  refine ⟨hk.there, fun pc fs b hf => ?_⟩
  obtain rfl := hk.straight.start k.running pc (by rw [show k.stack k.running = k.frames from rfl, hf]; exact List.mem_cons_self)
  simp only [Kernel.step, hf, Kernel.resume, Option.isSome_map]
  exact hk.finds

/-- The first user process waits, the idle task is not asked to. -/
theorem idle_waitAndWake : ∃ k, (twoTasks.bind fun k => Lib.trace step k waitAndWake) = some k ∧ k.Runnable := by
  obtain ⟨k, hk, ht, -⟩ := Lib.exists_run step SparesIdle waitAndWake (fun _ : Kernel Unit Unit => true) twoTasks_boot (by decide) (by decide)
  exact ⟨k, ht, idle_reach hk⟩

/-- The first process stops the idle task; both processes wait, and an interrupt preempts the idle
    task, which does not come back. -/
def stopIdle : List (Event Unit Unit) :=
  [.call (.kill 1 sigStop), .call (.waitEvent ()), .run false, .run true, .run true,
    .call (.waitEvent ()), .run false, .run true, .run true, .irq (.timer true), .run true, .run true]

theorem idle_stopped : ¬ ∀ k : Kernel Unit Unit, Lib.Reach step (fun _ _ => True) Boot k → k.Runnable := by
  intro h
  obtain ⟨k, hk, -, hd⟩ := Lib.exists_run step (fun _ _ => True) stopIdle
    (fun k : Kernel Unit Unit => decide (k.frames.head? = some (.schedule .start)) && (step k (.run true)).isNone)
    twoTasks_boot (by decide +kernel) (by decide +kernel)
  obtain ⟨hf, hn⟩ := Bool.and_eq_true_iff.mp hd
  obtain ⟨fs, hfs⟩ := List.head?_eq_some_iff.mp (of_decide_eq_true hf)
  have := (h k hk).schedule _ _ true hfs
  rw [Option.isNone_iff_eq_none] at hn
  rw [hn] at this
  cases this

end Kernel

end Myos.Sched
