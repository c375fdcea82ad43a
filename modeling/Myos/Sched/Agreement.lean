/-
  Myos.Sched.Agreement — the ready queues and the states of the tasks agree while no signal
  changes a state behind the queues' back.

  Proved:
  - `agreement_reach`: while SIGKILL and SIGSTOP are not sent to a task in a ready queue, nor
    SIGCONT to one that waits, every RUNNING task but the current one is in a ready queue and
    `schedule()` switches to RUNNING tasks only.
  - `dead_resumed`: a SIGKILL for a task in a ready queue, and `schedule()` switches to it.
-/

import Myos.Sched.Occupancy

namespace Myos.Sched.Kernel

variable {Q S : Type*} {k k' : Kernel Q S}

structure Agreement (k : Kernel Q S) : Prop where
  running : ∀ p ∈ k.readyPids, (k.task p).state = .running
  ready : ∀ p, 0 < p → p < k.nextPid → (k.task p).state = .running → p = k.current ∨ p ∈ k.readyPids

/-- A step that leaves the ready queues alone and changes the state of the current task, or
    of others that are in no ready queue and do not run on. -/
theorem Agreement.keep (h : k.Agreement) (ho : k.Occupancy) (hr : k'.ready = k.ready) (hn : k'.nextPid = k.nextPid)
    (hc : k'.current = k.current) (hs : ∀ p, (k'.task p).state = (k.task p).state ∨ p = k.current ∨
      (p ∉ k.readyPids ∧ (k'.task p).state ≠ .running)) : k'.Agreement := by
  have hr : k'.readyPids = k.readyPids := by rw [readyPids, hr]; rfl
  refine ⟨fun p hp => ?_, fun p h0 hp hst => ?_⟩
  · rw [hr] at hp
    rcases hs p with e | rfl | ⟨hn, -⟩
    · rw [e]; exact h.running p hp
    · exact (ho.current hp).elim
    · exact (hn hp).elim
  · rw [hr, hc]
    rcases hs p with e | rfl | ⟨-, hn⟩
    · exact h.ready p h0 (hn ▸ hp) (e ▸ hst)
    · exact Or.inl rfl
    · exact (hn hst).elim

/-- The tasks `l` are woken. -/
theorem Agreement.wake (h : k.Agreement) {l : List Pid} (hr : k'.readyPids = k.readyPids ++ l)
    (hn : k'.nextPid = k.nextPid) (hc : k'.current = k.current)
    (hs : ∀ p, (k'.task p).state = if p ∈ l then .running else (k.task p).state) : k'.Agreement := by
  refine ⟨fun p hp => ?_, fun p h0 hp hst => ?_⟩
  · rw [hs]
    split
    · rfl
    · next hl =>
      rw [hr, List.mem_append] at hp
      exact h.running p (hp.resolve_right hl)
  · rw [hs] at hst
    rw [hr, hc, List.mem_append]
    split at hst
    · next hl => exact Or.inr (Or.inr hl)
    · exact (h.ready p h0 (hn ▸ hp) hst).imp_right Or.inl

/-- `schedule()`. -/
theorem Agreement.switch (h : k.Agreement) {e : Prio × Pid} (he : e ∈ k.requeued) (hr : k'.ready = k.requeued.erase e)
    (hn : k'.nextPid = k.nextPid) (hc : k'.current = e.2) (hs : ∀ p, (k'.task p).state = (k.task p).state) :
    k'.Agreement ∧ (k'.task k'.current).state = .running := by
  have hmem : ∀ p, p ∈ k.requeued.map Prod.snd ↔ p ∈ k.readyPids ∨ (p = k.current ∧ (k.task p).state = .running) := by
    intro p
    unfold requeued
    split
    · next hrun =>
      rw [List.map_append, List.mem_append]
      refine or_congr_right ⟨fun hp => ?_, fun hp => ?_⟩
      · rw [List.mem_singleton.mp hp]; exact ⟨rfl, hrun⟩
      · exact List.mem_singleton.mpr hp.1
    · next hrun =>
      refine ⟨Or.inl, fun hp => hp.elim id fun hp => ?_⟩
      rw [hp.1] at hp
      exact (hrun hp.2).elim
  have hrun : ∀ p ∈ k.requeued.map Prod.snd, (k.task p).state = .running := fun p hp => by
    rcases (hmem p).mp hp with hp | ⟨-, hp⟩
    · exact h.running p hp
    · exact hp
  refine ⟨⟨fun p hp => ?_, fun p h0 hp hst => ?_⟩, ?_⟩
  · rw [hs]
    rw [readyPids, hr] at hp
    exact hrun p (List.map_subset _ (List.erase_subset) hp)
  · rw [hs] at hst
    have hp : p ∈ k.requeued.map Prod.snd := (hmem p).mpr ((h.ready p h0 (hn ▸ hp) hst).symm.imp_right fun e => ⟨e, hst⟩)
    rw [((List.perm_cons_erase he).map Prod.snd).mem_iff, List.map_cons, List.mem_cons] at hp
    rw [hc, readyPids, hr]
    exact hp
  · rw [hs, hc]
    exact hrun e.2 (List.mem_map_of_mem he)

theorem Agreement.create (h : k.Agreement) {t : Task} (ht : t.state = .running) :
    (k.create t).Agreement := by
  have hready := k.create_readyPids t
  refine ⟨fun p hp => ?_, fun p h0 hp hst => ?_⟩
  · rw [create_task]
    split
    · exact ht
    · next hne =>
      rw [hready, List.mem_append, List.mem_singleton] at hp
      exact h.running p (hp.resolve_right hne)
  · rw [create_task] at hst
    rw [hready, List.mem_append, List.mem_singleton]
    split at hst
    · next e => exact Or.inr (Or.inr e)
    · next hne => exact (h.ready p h0 (Nat.lt_of_le_of_ne (Nat.lt_succ_iff.mp hp) hne) hst).imp_right Or.inl

/-! ## The steps -/

theorem Agreement.resume [DecidableEq S] (h : k.Agreement) (hk : k.Settled) {f : Frame Q S} {fs : List (Frame Q S)}
    (hf : k.frames = f :: fs) {b : Bool} (hres : k.resume b fs f = some k') :
    k'.Agreement ∧ (f = .schedule .start → (k'.task k'.current).state = .running) := by
  have ho := hk.occupancy
  have hm : f ∈ k.stack k.running := by rw [show k.stack k.running = _ from hf]; exact List.mem_cons_self
  have hblock : ∀ p, (((k.cloneArc k.current).setState k.current .sleeping).task p).state = (k.task p).state ∨
      p = k.current ∨ (p ∉ k.readyPids ∧
        (((k.cloneArc k.current).setState k.current .sleeping).task p).state ≠ .running) := fun p => by
    by_cases e : p = k.current
    · exact Or.inr (Or.inl e)
    · refine Or.inl ?_
      rw [setState_task, if_neg e, cloneArc, modify_task, if_neg e]
  have hmod : ∀ g : Task → Task, ∀ p, ((k.modify k.current g).task p).state = (k.task p).state ∨
      p = k.current ∨ (p ∉ k.readyPids ∧ ((k.modify k.current g).task p).state ≠ .running) := fun g p => by
    by_cases e : p = k.current
    · exact Or.inr (Or.inl e)
    · exact Or.inl (by rw [modify_task, if_neg e])
  cases f with
  | waitEvent q =>
    simp only [Kernel.resume] at hres
    split at hres
    · cases hres
      exact ⟨h.keep ho rfl rfl rfl fun p => Or.inl rfl, fun e => by cases e⟩
    · obtain ⟨k1, h1, rfl⟩ := Option.map_eq_some_iff.mp hres
      obtain ⟨rfl, -⟩ := upgrade_eq h1
      exact ⟨h.keep ho rfl rfl rfl hblock, fun e => by cases e⟩
  | waitTest q =>
    simp only [Kernel.resume] at hres
    split at hres <;> cases hres <;> exact ⟨h.keep ho rfl rfl rfl fun p => Or.inl rfl, fun e => by cases e⟩
  | sleep e =>
    obtain ⟨k1, h1, rfl⟩ := Option.map_eq_some_iff.mp hres
    obtain ⟨rfl, -⟩ := upgrade_eq h1
    exact ⟨h.keep ho rfl rfl rfl hblock, fun e => by cases e⟩
  | schedule pc =>
    obtain rfl := hk.straight.start _ pc hm
    obtain ⟨r, hr, rfl⟩ := Option.map_eq_some_iff.mp hres
    obtain ⟨e, he, hk'⟩ := hk.straight.schedule_eq hf hr
    have hst : ∀ p, (Function.update k.task k.current (released (k.task k.current)) p).state = (k.task p).state := by
      intro p
      rw [Function.update_apply]
      split
      · next e => rw [e, released]; split <;> rfl
      · rfl
    have h' : r.2.Agreement ∧ (r.2.task r.2.current).state = .running := by
      rw [hk']
      exact h.switch he rfl rfl rfl hst
    exact ⟨h'.1, fun _ => h'.2⟩
  | down s => cases hk.plain _ _ hm
  | rouse t => cases hk.plain _ _ hm
  | add t => cases hk.plain _ _ hm
  | exitWith code =>
    rw [resume_exitWith] at hres
    cases hres
    exact ⟨h.keep ho rfl rfl rfl (hmod _), fun e => by cases e⟩
  | exitNotify =>
    simp only [Kernel.resume] at hres
    cases hres
    have ht : ∀ p, ((k.doKill (k.task k.current).ppid sigChld).2.task p).state = (k.task p).state := fun p => by
      rcases doKill_eq k (k.task k.current).ppid sigChld with e | ⟨-, -, e⟩ <;> rw [e]
      rw [modify_task]
      split
      · exact killed_state _ _
      · rfl
    obtain ⟨task, hd⟩ := doKill_fields k (k.task k.current).ppid sigChld
    rw [hd] at ht ⊢
    split
    · exact ⟨h.keep ho rfl rfl rfl fun p => Or.inl (ht p), fun e => by cases e⟩
    · exact ⟨h.keep ho rfl rfl rfl fun p => Or.inl rfl, fun e => by cases e⟩
  | wait4 pid =>
    have hp : ∀ p, (k.purge.task p).state = (k.task p).state := fun p => by rw [purge_eq]
    simp only [Kernel.resume] at hres
    split at hres
    · next p k1 hz =>
      obtain ⟨rfl, -, hmt, -⟩ := findZombieChild_some hz
      cases hres
      have ht : ∀ u, ((k.purge.modify p reaped).task u).state = (k.task u).state ∨ u = k.current ∨
          (u ∉ k.readyPids ∧ ((k.purge.modify p reaped).task u).state ≠ .running) := fun u => by
        rw [modify_task]
        split
        · next e =>
          subst e
          refine Or.inr (Or.inr ⟨fun hr => ?_, fun e => by cases e⟩)
          cases (h.running u hr).symm.trans hmt.2.1
        · exact Or.inl (hp u)
      rw [purge_eq] at ht ⊢
      exact ⟨h.keep ho rfl rfl rfl ht, fun e => by cases e⟩
    · next k1 hz =>
      obtain ⟨rfl, -⟩ := findZombieChild_none hz
      cases hres
      rw [purge_eq] at hp ⊢
      exact ⟨h.keep ho rfl rfl rfl fun p => Or.inl (hp p), fun e => by cases e⟩
  | waitAlive =>
    simp only [Kernel.resume] at hres
    split at hres <;> cases hres <;> exact ⟨h.keep ho rfl rfl rfl fun p => Or.inl rfl, fun e => by cases e⟩
  | checkSignals =>
    simp only [Kernel.resume, doCheckSignals_eq] at hres
    split at hres
    · next hc =>
      obtain rfl := congrArg Prod.snd hc
      cases hres
      exact ⟨h.keep ho rfl rfl rfl (hmod fun t => (checked t).2), fun e => by cases e⟩
    · next hc =>
      obtain rfl := congrArg Prod.snd hc
      cases hres
      exact ⟨h.keep ho rfl rfl rfl (hmod fun t => (checked t).2), fun e => by cases e⟩
  | checkDead =>
    simp only [Kernel.resume] at hres
    split at hres <;> cases hres <;> exact ⟨h.keep ho rfl rfl rfl fun p => Or.inl rfl, fun e => by cases e⟩
  | checkSchedule =>
    simp only [Kernel.resume] at hres
    split at hres <;> cases hres <;> exact ⟨h.keep ho rfl rfl rfl fun p => Or.inl rfl, fun e => by cases e⟩

/-- A signal that changes a state does so where the queues agree already: SIGKILL and
    SIGSTOP for a task in no ready queue, SIGCONT for one in a ready queue or for the caller. -/
def Obeyed [DecidableEq Q] (k : Kernel Q S) (e : Event Q S) : Prop :=
  k.Undisturbed e ∧ match e with
    | .call (.kill pid sig) => pid ∈ k.all →
        (sig = sigKill ∨ sig = sigStop → pid ∉ k.readyPids) ∧ (sig = sigCont → pid ∈ k.readyPids ∨ pid = k.current)
    | _ => True

theorem Agreement.wakeUp [DecidableEq Q] (h : k.Agreement) (q : Q) : (k.wakeUp q).Agreement := by
  have hr := k.wakeUp_readyPids q
  rw [wakeUp_eq] at hr ⊢
  refine h.wake hr rfl rfl fun p => ?_
  show (if p ∈ k.waiters q then _ else _ : Task).state = _
  split <;> rfl

theorem Agreement.checkSleepers (h : k.Agreement) : k.checkSleepers.Agreement := by
  have hr := k.checkSleepers_readyPids
  rw [checkSleepers_eq] at hr ⊢
  refine h.wake hr rfl rfl fun p => ?_
  show (if p ∈ k.sleepers then _ else _ : Task).state = _
  split <;> rfl

theorem Agreement.kill (h : k.Agreement) (ho : k.Occupancy) (pid sig : Nat)
    (h1 : pid ∈ k.all → (sig = sigKill ∨ sig = sigStop → pid ∉ k.readyPids))
    (h2 : pid ∈ k.all → sig = sigCont → pid ∈ k.readyPids ∨ pid = k.current) : (k.doKill pid sig).2.Agreement := by
  rcases doKill_eq k pid sig with e | ⟨hm, -, e⟩ <;> rw [e]
  · exact h
  · refine h.keep ho rfl rfl rfl fun p => ?_
    rw [modify_task]
    split
    · next hp =>
      subst hp
      rw [killed_state]
      split
      · next hs => exact Or.inr (Or.inr ⟨h1 hm (Or.inl hs), nofun⟩)
      · split
        · next hs => exact Or.inr (Or.inr ⟨h1 hm (Or.inr hs), nofun⟩)
        · split
          · next hs =>
            rcases h2 hm hs with hp | hp
            · exact Or.inl (h.running p hp).symm
            · exact Or.inr (Or.inl hp)
          · exact Or.inl rfl
    · exact Or.inl rfl

theorem Agreement.enter [DecidableEq Q] [DecidableEq S] (h : k.Agreement) (ho : k.Occupancy) {c : Call Q S}
    (he : k.Obeyed (.call c)) : (k.enter c).Agreement := by
  have hkeep : ∀ fs, (k.setFrames fs).Agreement := fun fs => h.keep ho rfl rfl rfl fun p => Or.inl rfl
  cases c with
  | wakeUp q => exact h.wakeUp q
  | sleep ms =>
    simp only [Kernel.enter]
    split
    · exact h
    · exact hkeep _
  | schedYield => exact h.keep ho rfl rfl rfl fun p => Or.inl rfl
  | down s => cases he.1
  | tryDown s => cases he.1
  | up s => cases he.1
  | kill pid sig => exact h.kill ho pid sig (fun hm => (he.2 hm).1) fun hm => (he.2 hm).2
  | fork =>
    simp only [Kernel.enter, doFork]
    split
    · exact h.create rfl
    · exact h
  | createKernelThread prio => exact h.create rfl
  | fault sig =>
    have h1 := h.kill ho k.current sig (fun _ _ => ho.current) fun _ _ => Or.inr rfl
    obtain ⟨task, ht⟩ := doKill_fields k k.current sig
    simp only [Kernel.enter]
    rw [ht] at h1 ⊢
    exact ⟨h1.running, h1.ready⟩
  | _ => exact hkeep _

theorem Agreement.interrupt [DecidableEq Q] (h : k.Agreement) (ho : k.Occupancy) (i : Irq Q) :
    (k.interrupt i).Agreement := by
  have htty : ∀ pid sig, (k.tty pid sig).Agreement := fun pid sig => by
    unfold tty
    split
    · refine h.keep ho rfl rfl rfl fun p => Or.inl ?_
      rw [Kernel.send, modify_task]
      split <;> rfl
    · exact h
  have hframes : ∀ {k1 : Kernel Q S} fs, k1.Agreement → (k1.setFrames fs).Agreement := fun fs h => ⟨h.running, h.ready⟩
  cases i with
  | timer expired =>
    have hk : Agreement { k with tick := k.tick + 1 } := ⟨h.running, h.ready⟩
    exact ⟨hk.checkSleepers.running, hk.checkSleepers.ready⟩
  | wake q => exact hframes _ (h.wakeUp q)
  | ctrlC pid => exact hframes _ (htty pid sigInt)
  | ctrlZ pid => exact hframes _ (htty pid sigStop)

/-! ## Every run -/

theorem createIdle_agreement (count : S → Int) : (empty count : Kernel Q S).createIdle.Agreement := by
  have h0 : (empty count : Kernel Q S).Agreement :=
    ⟨nofun, fun p h0 hp _ => (Nat.lt_irrefl 1 (Nat.lt_of_le_of_lt h0 hp)).elim⟩
  have h1 := h0.create (t := Task.new 0 0 false) rfl
  have hs : ∀ p, ((empty count : Kernel Q S).createIdle.task p).state =
      (((empty count : Kernel Q S).create (Task.new 0 0 false)).task p).state := fun p => by
    rw [createIdle, cloneArc, modify_task]
    split <;> rfl
  exact ⟨fun p hp => (hs p).trans (h1.running p hp), fun p h0 hp hst => h1.ready p h0 hp ((hs p).symm.trans hst)⟩

theorem start_agreement {count : S → Int} {ts : List (Prio × Bool)} (h : start count ts = some k) : k.Agreement := by
  obtain ⟨k1, e, ⟨h1, h0⟩, he, rfl⟩ := start_rule (P := fun k => k.Agreement ∧ k.current = 0)
    ⟨createIdle_agreement count, rfl⟩ (fun k _ _ hk => ⟨hk.1.create rfl, hk.2⟩) h
  refine ⟨fun p hp => h1.running p (List.map_subset _ List.erase_subset hp), fun p hp0 hp hst => ?_⟩
  rcases h1.ready p hp0 hp hst with e' | hp
  · rw [e', h0] at hp0
    cases hp0
  · have hperm := ((List.perm_cons_erase he).map Prod.snd).mem_iff (a := p)
    rw [List.map_cons, List.mem_cons] at hperm
    exact hperm.mp hp

theorem Agreement.step [DecidableEq Q] [DecidableEq S] (h : k.Agreement) (hk : k.Settled) {e : Event Q S}
    (he : k.Obeyed e) (hs : step k e = some k') : k'.Agreement := by
  cases e with
  | irqInside n i => exact he.1.elim
  | irq i => cases hs; exact h.interrupt hk.occupancy i
  | call c =>
    simp only [Kernel.step] at hs
    split at hs
    · cases hs; exact h.enter hk.occupancy he
    · cases hs
  | run b =>
    simp only [Kernel.step] at hs
    split at hs
    · cases hs
    · next f fs hf => exact (h.resume hk hf hs).1

/-- While the signals that change a state do it where the queues agree, every RUNNING task but
    the current one is in a ready queue, and `schedule()` switches to RUNNING tasks. -/
theorem agreement_reach [DecidableEq Q] [DecidableEq S] (h : Lib.Reach step Obeyed Boot k) :
    (∀ p, 0 < p → p < k.nextPid → (k.task p).state = .running → p ≠ k.current → p ∈ k.readyPids) ∧
      ∀ fs b k', k.frames = .schedule .start :: fs → step k (.run b) = some k' →
        (k'.task k'.current).state = .running := by
  obtain ⟨hs, ha⟩ := h.rule (P := fun k => k.Settled ∧ k.Agreement)
    (fun _ ⟨_, _, hk⟩ => ⟨start_settled hk, start_agreement hk⟩)
    fun _ _ _ ⟨hs, ha⟩ he hk => ⟨hs.step he.1 hk, ha.step hs he hk⟩
  refine ⟨fun p h0 hp hst hne => (ha.ready p h0 hp hst).resolve_left hne, fun fs b k' hf hk => ?_⟩
  simp only [Kernel.step, hf] at hk
  exact (ha.resume hs hf hk).2 rfl

instance [DecidableEq Q] (k : Kernel Q S) (e : Event Q S) : Decidable (k.Obeyed e) := by
  delta Obeyed
  refine @instDecidableAnd _ _ _ ?_
  exact match e with
    | .call (.waitEvent _) | .call (.wakeUp _) | .call (.sleep _) | .call .yieldNow | .call .schedYield | .call (.down _)
    | .call (.tryDown _) | .call (.up _) | .call (.kill _ _) | .call (.exit _) | .call (.wait4 _) | .call .fork
    | .call (.createKernelThread _) | .call .checkSignals | .call (.fault _) | .run _ | .irq _ | .irqInside _ _ =>
      inferInstance

/-- The first task waits, is stopped and woken while the second runs. -/
def stopAndWake : List (Event Unit Unit) :=
  [.call (.waitEvent ()), .run false, .run true, .run true, .call (.kill 2 sigStop), .call (.wakeUp ()), .call .yieldNow]

theorem agreement_stopAndWake : ∃ k, (twoTasks.bind fun k => Lib.trace step k stopAndWake) = some k ∧
    k.current = 3 ∧ (k.task 2).state = .running ∧ 2 ∈ k.readyPids := by
  obtain ⟨k, hk, ht, hd⟩ := Lib.exists_run step Obeyed stopAndWake
    (fun k : Kernel Unit Unit => decide (k.current = 3 ∧ (k.task 2).state = .running ∧ 2 < k.nextPid)) twoTasks_boot
    (by decide) (by decide)
  obtain ⟨hc, hr, hn⟩ := of_decide_eq_true hd
  exact ⟨k, ht, hc, hr, (agreement_reach hk).1 2 (by decide) hn hr (by rw [hc]; decide)⟩

/-- The first task kills the second one, which is in a ready queue, and yields. -/
def killReady : List (Event Unit Unit) := [.call (.kill 3 sigKill), .call .yieldNow]

theorem dead_resumed : ¬ ∀ k : Kernel Unit Unit, Lib.Reach step (fun _ _ => True) Boot k →
    (∀ p, 0 < p → p < k.nextPid → (k.task p).state = .running → p ≠ k.current → p ∈ k.readyPids) ∧
      ∀ fs b k', k.frames = .schedule .start :: fs → step k (.run b) = some k' →
        (k'.task k'.current).state = .running := by
  intro h
  obtain ⟨k, hk, -, hd⟩ := Lib.exists_run step (fun _ _ => True) killReady
    (fun k : Kernel Unit Unit => decide (k.frames = [.schedule .start]) &&
      (step k (.run true)).any fun k' : Kernel Unit Unit => decide ((k'.task k'.current).state = .dead)) twoTasks_boot (by decide) (by decide)
  obtain ⟨hf, he⟩ := Bool.and_eq_true_iff.mp hd
  cases hs : step k (.run true) with
  | none => rw [hs] at he; cases he
  | some k' =>
    rw [hs] at he
    cases ((h k hk).2 [] true k' (of_decide_eq_true hf) hs).symm.trans (of_decide_eq_true he)

end Myos.Sched.Kernel
