/-
  Myos.Sched.Occupancy — where a task may be while no interrupt arrives inside `schedule()`
  and none wakes the task the CPU is on.

  Proved:
  - `occupancy_reach`: under that condition a task is in one queue at most, the current task
    is in no ready queue, and while it is on a wait queue or asleep it is on its way to
    `schedule()` and not RUNNING.
-/

import Mathlib.Data.List.Nodup
import Mathlib.Data.List.Perm.Basic
import Myos.Sched.Stacks

namespace Myos.Sched

variable {Q S : Type*}

/-- Nothing of a semaphore. -/
def Frame.plain : Frame Q S → Bool
  | .down _ | .rouse _ | .add _ => false
  | _ => true

def Call.plain : Call Q S → Bool
  | .down _ | .tryDown _ | .up _ => false
  | _ => true

/-- A task in state `s` with these frames gets to `schedule()` before it does anything else. -/
def Parked (s : TaskState) : List (Frame Q S) → Prop
  | .schedule _ :: _ | .exitWith _ :: _ | .exitNotify :: _ => True
  | .waitTest _ :: _ => s = .sleeping
  | .checkSignals :: fs | .checkSchedule :: fs => Parked s fs
  | _ => False

theorem Parked.sleeping {s : TaskState} {fs : List (Frame Q S)} (h : Parked s fs) : Parked .sleeping fs := by
  induction fs with
  | nil => exact h
  | cons f fs ih =>
    cases f with
    | waitTest q => rfl
    | checkSignals => exact ih h
    | checkSchedule => exact ih h
    | _ => exact h

/-! ## Signals -/

/-- `SIGCONT` is never left pending. -/
def NoCont (t : Task) : Prop := t.signals.pending.getLsbD sigCont = false

theorem NoCont.send {t : Task} (h : NoCont t) {sig : Nat} (hs : sig ≠ sigCont) :
    (t.signals.send sig).pending.getLsbD sigCont = false := by
  cases e : (t.signals.send sig).pending.getLsbD sigCont
  · rfl
  · rcases SignalState.send_pending _ _ _ e with e | e
    · cases h.symm.trans e
    · exact (hs e.symm).elim

theorem NoCont.clear {t : Task} (h : NoCont t) (sig : Nat) :
    (t.signals.clearPending sig).pending.getLsbD sigCont = false := by
  cases e : (t.signals.clearPending sig).pending.getLsbD sigCont
  · rfl
  · cases h.symm.trans (SignalState.clearPending_pending _ _ _ e)

theorem NoCont.killed {t : Task} (h : NoCont t) (sig : Nat) : NoCont (Kernel.killed sig t) := by
  unfold Kernel.killed
  split
  · next e => exact h.send (by rw [e]; decide)
  · split
    · exact h
    · split
      · exact h
      · next e => exact h.send e

theorem defaultAction_cont {sig : Nat} (h : defaultAction sig = .cont) : sig = sigCont := by
  unfold defaultAction at h
  split at h
  · cases h
  · split at h
    · cases h
    · split at h
      · cases h
      · split at h
        · assumption
        · split at h <;> cases h

theorem defaultAction_handler (sig : Nat) : defaultAction sig ≠ .handler := by
  unfold defaultAction
  split
  · nofun
  · split
    · nofun
    · split
      · nofun
      · split
        · nofun
        · split <;> nofun

/-- `rust_check_signals` kills the task, stops it or leaves its state. -/
theorem NoCont.checked {t : Task} (h : NoCont t) : NoCont (Kernel.checked t).2 ∧
    if (Kernel.checked t).1 then (Kernel.checked t).2.state = .dead
    else (Kernel.checked t).2.state = t.state ∨ (Kernel.checked t).2.state = .sleeping := by
  unfold Kernel.checked
  by_cases h0 : t.signals.checkPending = 0
  · simpa [h0] using h
  · simp only [h0, if_false]
    cases ha : defaultAction t.signals.checkPending with
    | terminate => exact ⟨BitVec.getLsbD_zero, rfl⟩
    | core => exact ⟨BitVec.getLsbD_zero, rfl⟩
    | ignore => exact ⟨h.clear _, Or.inl rfl⟩
    | handler => exact ⟨h.clear _, Or.inl rfl⟩
    | stop => exact ⟨h.clear _, Or.inr rfl⟩
    | cont =>
      have := SignalState.checkPending_pending h0
      rw [defaultAction_cont ha] at this
      cases h.symm.trans this

namespace Kernel

/-! ## The invariant -/

/-- The tasks that wait, on a wait queue or for a time. -/
def queued (k : Kernel Q S) : List Pid := k.waitq.map Prod.snd ++ k.sleepq.map Prod.fst

def readyPids (k : Kernel Q S) : List Pid := k.ready.map Prod.snd

theorem create_readyPids (k : Kernel Q S) (t : Task) : (k.create t).readyPids = k.readyPids ++ [k.nextPid] := by
  show (k.ready ++ [(_, k.nextPid)]).map Prod.snd = _
  rw [List.map_append]
  rfl

theorem wakeUp_readyPids [DecidableEq Q] (k : Kernel Q S) (q : Q) :
    (k.wakeUp q).readyPids = k.readyPids ++ k.waiters q := by
  rw [wakeUp_eq, readyPids, List.map_append, List.map_map]
  exact congrArg (k.readyPids ++ ·) (List.map_id _)

theorem checkSleepers_readyPids (k : Kernel Q S) : k.checkSleepers.readyPids = k.readyPids ++ k.sleepers := by
  rw [checkSleepers_eq, readyPids, List.map_append, List.map_map]
  exact congrArg (k.readyPids ++ ·) (List.map_id _)

structure Occupancy (k : Kernel Q S) : Prop where
  nodup : (k.readyPids ++ k.queued).Nodup
  current : k.current ∉ k.readyPids
  parked : k.current ∈ k.queued → (k.task k.current).state ≠ .running ∧ Parked (k.task k.current).state k.frames
  bound : ∀ p ∈ k.readyPids ++ k.queued, p < k.nextPid
  currentLt : k.current < k.nextPid
  noCont : ∀ p, NoCont (k.task p)

variable {k k' : Kernel Q S}

/-- A step that leaves the queues alone. -/
theorem Occupancy.keep (h : k.Occupancy) (hr : k'.ready = k.ready) (hw : k'.waitq = k.waitq)
    (hsl : k'.sleepq = k.sleepq) (hn : k'.nextPid = k.nextPid) (hc : k'.current = k.current)
    (ht : ∀ p, NoCont (k'.task p))
    (hp : k.current ∈ k.queued → (k'.task k.current).state ≠ .running ∧ Parked (k'.task k.current).state k'.frames) :
    k'.Occupancy := by
  have hr : k'.readyPids = k.readyPids := by rw [readyPids, hr]; rfl
  have hq : k'.queued = k.queued := by rw [queued, hw, hsl]; rfl
  refine ⟨?_, ?_, ?_, ?_, ?_, ht⟩
  · rw [hr, hq]; exact h.nodup
  · rw [hr, hc]; exact h.current
  · rw [hq, hc]; exact hp
  · rw [hr, hq, hn]; exact h.bound
  · rw [hn, hc]; exact h.currentLt

/-- The current task goes to sleep. -/
theorem Occupancy.block (h : k.Occupancy) (h0 : k.current ∉ k.queued) (hr : k'.ready = k.ready)
    (hq : List.Perm k'.queued (k.current :: k.queued)) (hn : k'.nextPid = k.nextPid) (hc : k'.current = k.current)
    (ht : ∀ p, NoCont (k'.task p)) (hs : (k'.task k.current).state = .sleeping) (hp : Parked .sleeping k'.frames) :
    k'.Occupancy := by
  have hr : k'.readyPids = k.readyPids := by rw [readyPids, hr]; rfl
  have hperm : List.Perm (k'.readyPids ++ k'.queued) (k.current :: (k.readyPids ++ k.queued)) := by
    rw [hr]
    exact (hq.append_left _).trans List.perm_middle
  refine ⟨?_, ?_, fun _ => ?_, fun p hm => ?_, ?_, ht⟩
  · rw [hperm.nodup_iff, List.nodup_cons, List.mem_append, not_or]
    exact ⟨⟨h.current, h0⟩, h.nodup⟩
  · rw [hr, hc]; exact h.current
  · rw [hc, hs]
    exact ⟨nofun, hp⟩
  · rw [hn]
    rcases List.mem_cons.mp (hperm.mem_iff.mp hm) with rfl | hm
    · exact h.currentLt
    · exact h.bound p hm
  · rw [hn, hc]; exact h.currentLt

/-- Tasks other than the current one go from a queue to the ready queues. -/
theorem Occupancy.wake (h : k.Occupancy) {l : List Pid} (h0 : k.current ∉ l)
    (hr : k'.readyPids = k.readyPids ++ l) (hq : List.Perm k.queued (l ++ k'.queued)) (hn : k'.nextPid = k.nextPid)
    (hc : k'.current = k.current) (ht : ∀ p, NoCont (k'.task p))
    (hs : (k'.task k.current).state = (k.task k.current).state)
    (hp : Parked (k.task k.current).state k.frames → Parked (k.task k.current).state k'.frames) : k'.Occupancy := by
  have hperm : List.Perm (k'.readyPids ++ k'.queued) (k.readyPids ++ k.queued) := by
    rw [hr, List.append_assoc]
    exact hq.symm.append_left _
  refine ⟨hperm.nodup_iff.mpr h.nodup, ?_, fun hm => ?_, fun p hm => ?_, ?_, ht⟩
  · rw [hr, hc, List.mem_append, not_or]
    exact ⟨h.current, h0⟩
  · rw [hc] at hm ⊢
    rw [hs]
    obtain ⟨h1, h2⟩ := h.parked (hq.mem_iff.mpr (List.mem_append_right _ hm))
    exact ⟨h1, hp h2⟩
  · rw [hn]
    exact h.bound p (hperm.mem_iff.mp hm)
  · rw [hn, hc]; exact h.currentLt

/-- The next task is taken off the ready queues `r`. -/
theorem take_occupancy {r : List (Prio × Pid)} (hnodup : (r.map Prod.snd ++ k.queued).Nodup)
    (hb : ∀ p ∈ r.map Prod.snd ++ k.queued, p < k.nextPid) {e : Prio × Pid} (he : e ∈ r) (hr : k'.ready = r.erase e)
    (hw : k'.waitq = k.waitq) (hsl : k'.sleepq = k.sleepq) (hn : k'.nextPid = k.nextPid) (hc : k'.current = e.2)
    (ht : ∀ p, NoCont (k'.task p)) : k'.Occupancy := by
  have hq : k'.queued = k.queued := by rw [queued, hw, hsl]; rfl
  have hperm : List.Perm (r.map Prod.snd ++ k.queued) (e.2 :: (k'.readyPids ++ k'.queued)) := by
    rw [hq, readyPids, hr, ← List.cons_append]
    exact ((List.perm_cons_erase he).map Prod.snd).append_right _
  obtain ⟨h1, h2⟩ := List.nodup_cons.mp (hperm.nodup_iff.mp hnodup)
  rw [List.mem_append, not_or] at h1
  refine ⟨h2, hc ▸ h1.1, fun hm => (h1.2 (hc ▸ hm)).elim, fun p hp => ?_, ?_, ht⟩
  · rw [hn]
    exact hb p (hperm.mem_iff.mpr (List.mem_cons_of_mem _ hp))
  · rw [hn, hc]
    exact hb e.2 (hperm.mem_iff.mpr List.mem_cons_self)

/-- `schedule()`: the current task is queued again if it is RUNNING, the next one is taken. -/
theorem Occupancy.switch (h : k.Occupancy) {e : Prio × Pid} (he : e ∈ k.requeued) (hr : k'.ready = k.requeued.erase e)
    (hw : k'.waitq = k.waitq) (hsl : k'.sleepq = k.sleepq) (hn : k'.nextPid = k.nextPid) (hc : k'.current = e.2)
    (ht : ∀ p, NoCont (k'.task p)) : k'.Occupancy := by
  have hnodup : (k.requeued.map Prod.snd ++ k.queued).Nodup ∧
      ∀ p ∈ k.requeued.map Prod.snd ++ k.queued, p < k.nextPid := by
    unfold requeued
    split
    · next hrun =>
      have h0 : k.current ∉ k.queued := fun hm => (h.parked hm).1 hrun
      have hperm : List.Perm ((k.ready ++ [((k.task k.current).prio, k.current)]).map Prod.snd ++ k.queued)
          (k.current :: (k.readyPids ++ k.queued)) := by
        rw [List.map_append, List.append_assoc]
        exact List.perm_middle
      refine ⟨?_, fun p hp => ?_⟩
      · rw [hperm.nodup_iff, List.nodup_cons, List.mem_append, not_or]
        exact ⟨⟨h.current, h0⟩, h.nodup⟩
      · rcases List.mem_cons.mp (hperm.mem_iff.mp hp) with rfl | hp
        · exact h.currentLt
        · exact h.bound p hp
    · exact ⟨h.nodup, h.bound⟩
  exact take_occupancy hnodup.1 hnodup.2 he hr hw hsl hn hc ht

theorem Occupancy.create (h : k.Occupancy) (hs : k.Straight) {t : Task} (ht : t.signals = .new) :
    (k.create t).Occupancy := by
  have hf : k.nextPid ∉ k.readyPids ++ k.queued := fun hm => Nat.lt_irrefl _ (h.bound _ hm)
  have hne : k.current ≠ k.nextPid := fun e => Nat.lt_irrefl _ (e ▸ h.currentLt)
  have hready := k.create_readyPids t
  have hperm : List.Perm ((k.create t).readyPids ++ (k.create t).queued) (k.nextPid :: (k.readyPids ++ k.queued)) := by
    rw [hready, List.append_assoc]
    exact List.perm_middle
  have hframes : (k.create t).frames = k.frames := by
    show Function.update k.stack k.nextPid [] k.running = k.stack k.running
    rw [Function.update_of_ne (by rw [hs.running]; exact hne)]
  refine ⟨?_, ?_, fun hm => ?_, fun p hp => ?_, Nat.lt_succ_of_lt h.currentLt, fun p => ?_⟩
  · rw [hperm.nodup_iff, List.nodup_cons]
    exact ⟨hf, h.nodup⟩
  · show k.current ∉ (k.create t).readyPids
    rw [hready, List.mem_append, not_or, List.mem_singleton]
    exact ⟨h.current, hne⟩
  · rw [hframes]
    show ((k.create t).task k.current).state ≠ .running ∧ Parked ((k.create t).task k.current).state k.frames
    rw [create_task, if_neg hne]
    exact h.parked hm
  · rcases List.mem_cons.mp (hperm.mem_iff.mp hp) with rfl | hp
    · exact Nat.lt_succ_self _
    · exact Nat.lt_succ_of_lt (h.bound p hp)
  · rw [create_task]
    split
    · show t.signals.pending.getLsbD sigCont = false
      rw [ht]
      exact BitVec.getLsbD_zero
    · exact h.noCont p

/-! ## Every run -/

theorem Occupancy.resume [DecidableEq S] (h : k.Occupancy) (hs : k.Straight) {f : Frame Q S} {fs : List (Frame Q S)}
    (hf : k.frames = f :: fs) (hpl : f.plain = true) (hst : ∀ pc, f = .schedule pc → pc = .start) {b : Bool}
    (hres : k.resume b fs f = some k') : k'.Occupancy := by
  have hpark := h.parked
  rw [hf] at hpark
  have hclone : ∀ p, NoCont ((k.cloneArc k.current).task p) := fun p => by
    rw [cloneArc, modify_task]
    split <;> exact h.noCont p
  have hset : ∀ s p, NoCont (((k.cloneArc k.current).setState k.current s).task p) := fun s p => by
    rw [setState_task]
    split <;> exact hclone p
  cases f with
  | waitEvent q =>
    have h0 : k.current ∉ k.queued := fun hm => (hpark hm).2
    simp only [Kernel.resume] at hres
    split at hres
    · cases hres
      exact h.keep rfl rfl rfl rfl rfl h.noCont fun hm => (h0 hm).elim
    · obtain ⟨k1, h1, rfl⟩ := Option.map_eq_some_iff.mp hres
      obtain ⟨rfl, -⟩ := upgrade_eq h1
      refine h.block h0 rfl ?_ rfl rfl (hset _) ?_ ?_
      · show List.Perm ((k.waitq ++ [(q, k.current)]).map Prod.snd ++ k.sleepq.map Prod.fst) _
        rw [List.map_append, List.append_assoc]
        exact List.perm_middle
      · show (((k.cloneArc k.current).setState k.current .sleeping).task k.current).state = _
        rw [setState_task, if_pos rfl]
      · rw [setFrames_frames]
        exact rfl
  | waitTest q =>
    simp only [Kernel.resume] at hres
    split at hres <;> cases hres
    · exact h.keep rfl rfl rfl rfl rfl h.noCont fun hm => ⟨(hpark hm).1, by rw [setFrames_frames]; trivial⟩
    · next hne => exact h.keep rfl rfl rfl rfl rfl h.noCont fun hm => (hne (hpark hm).2).elim
  | sleep e =>
    have h0 : k.current ∉ k.queued := fun hm => (hpark hm).2
    obtain ⟨k1, h1, rfl⟩ := Option.map_eq_some_iff.mp hres
    obtain ⟨rfl, -⟩ := upgrade_eq h1
    refine h.block h0 rfl ?_ rfl rfl (hset _) ?_ ?_
    · show List.Perm (k.waitq.map Prod.snd ++ ((k.sleepq.takeWhile fun x => x.2 ≤ e) ++
          (k.current, e) :: k.sleepq.dropWhile fun x => x.2 ≤ e).map Prod.fst) _
      have hp : List.Perm (((k.sleepq.takeWhile fun x => x.2 ≤ e) ++
          (k.current, e) :: k.sleepq.dropWhile fun x => x.2 ≤ e).map Prod.fst) (k.current :: k.sleepq.map Prod.fst) := by
        have hm : List.Perm ((k.sleepq.takeWhile fun x => x.2 ≤ e) ++ (k.current, e) :: k.sleepq.dropWhile fun x => x.2 ≤ e)
            ((k.current, e) :: ((k.sleepq.takeWhile fun x => x.2 ≤ e) ++ k.sleepq.dropWhile fun x => x.2 ≤ e)) :=
          List.perm_middle
        have := hm.map Prod.fst
        rwa [List.map_cons, List.takeWhile_append_dropWhile] at this
      exact (hp.append_left _).trans List.perm_middle
    · show (((k.cloneArc k.current).setState k.current .sleeping).task k.current).state = _
      rw [setState_task, if_pos rfl]
    · rw [setFrames_frames]
      trivial
  | schedule pc =>
    obtain rfl := hst pc rfl
    obtain ⟨r, hr, rfl⟩ := Option.map_eq_some_iff.mp hres
    obtain ⟨e, he, hk⟩ := hs.schedule_eq hf hr
    rw [hk]
    refine h.switch he rfl rfl rfl rfl rfl fun p => ?_
    show NoCont (Function.update k.task k.current (released (k.task k.current)) p)
    rw [Function.update_apply]
    split
    · unfold released
      split <;> exact h.noCont _
    · exact h.noCont p
  | down s => cases hpl
  | rouse t => cases hpl
  | add t => cases hpl
  | exitWith code =>
    rw [resume_exitWith] at hres
    cases hres
    have ht : ∀ p, (k.modify k.current (exited code)).task p =
        if p = k.current then exited code (k.task p) else k.task p := fun p => modify_task ..
    refine h.keep rfl rfl rfl rfl rfl (fun p => ?_) fun _ => ⟨?_, by rw [setFrames_frames]; trivial⟩
    · show NoCont ((k.modify k.current (exited code)).task p)
      rw [ht]
      split <;> exact h.noCont p
    · show ((k.modify k.current (exited code)).task k.current).state ≠ .running
      rw [ht, if_pos rfl]
      exact fun e => by cases e
  | exitNotify =>
    simp only [Kernel.resume] at hres
    cases hres
    have hk : ∀ p, NoCont ((k.doKill (k.task k.current).ppid sigChld).2.task p) ∧
        ((k.doKill (k.task k.current).ppid sigChld).2.task p).state = (k.task p).state := fun p => by
      rcases doKill_eq k (k.task k.current).ppid sigChld with e | ⟨-, -, e⟩
      · rw [e]; exact ⟨h.noCont p, rfl⟩
      · rw [e, modify_task]
        split
        · exact ⟨(h.noCont p).killed _, rfl⟩
        · exact ⟨h.noCont p, rfl⟩
    obtain ⟨task, ht⟩ := doKill_fields k (k.task k.current).ppid sigChld
    rw [ht] at hk ⊢
    split
    · refine h.keep rfl rfl rfl rfl rfl (fun p => (hk p).1) fun hm => ⟨?_, by rw [setFrames_frames]; trivial⟩
      show (task k.current).state ≠ .running
      rw [(hk k.current).2]
      exact (hpark hm).1
    · exact h.keep rfl rfl rfl rfl rfl h.noCont fun hm => ⟨(hpark hm).1, by rw [setFrames_frames]; trivial⟩
  | wait4 pid =>
    have h0 : k.current ∉ k.queued := fun hm => (hpark hm).2
    have hp : ∀ p, NoCont (k.purge.task p) := fun p => by rw [purge_eq]; exact h.noCont p
    simp only [Kernel.resume] at hres
    split at hres
    · next p k1 hz =>
      obtain ⟨rfl, -⟩ := findZombieChild_some hz
      cases hres
      have ht : ∀ u, NoCont ((k.purge.modify p reaped).task u) := fun u => by
        rw [modify_task]
        split <;> exact hp u
      rw [purge_eq] at ht ⊢
      exact h.keep rfl rfl rfl rfl rfl ht fun hm => (h0 hm).elim
    · next k1 hz =>
      obtain ⟨rfl, -⟩ := findZombieChild_none hz
      cases hres
      rw [purge_eq] at hp ⊢
      exact h.keep rfl rfl rfl rfl rfl hp fun hm => (h0 hm).elim
  | waitAlive =>
    have h0 : k.current ∉ k.queued := fun hm => (hpark hm).2
    simp only [Kernel.resume] at hres
    split at hres <;> cases hres <;> exact h.keep rfl rfl rfl rfl rfl h.noCont fun hm => (h0 hm).elim
  | checkSignals =>
    obtain ⟨hc, hst⟩ := (h.noCont k.current).checked
    have ht : ∀ p, (k.modify k.current fun t => (checked t).2).task p =
        if p = k.current then (checked (k.task p)).2 else k.task p := fun p => modify_task ..
    have hn : ∀ p, NoCont ((k.modify k.current fun t => (checked t).2).task p) := fun p => by
      rw [ht]
      split
      · exact (h.noCont p).checked.1
      · exact h.noCont p
    have hcur := ht k.current
    rw [if_pos rfl] at hcur
    simp only [Kernel.resume, doCheckSignals_eq] at hres
    split at hres
    · next hk =>
      obtain ⟨h1, rfl⟩ := Prod.ext_iff.mp hk
      rw [if_pos h1] at hst
      cases hres
      refine h.keep rfl rfl rfl rfl rfl hn fun _ => ⟨?_, by rw [setFrames_frames]; trivial⟩
      show ((k.modify k.current fun t => (checked t).2).task k.current).state ≠ .running
      rw [hcur, hst]
      exact fun e => by cases e
    · next hk =>
      obtain ⟨h1, rfl⟩ := Prod.ext_iff.mp hk
      rw [if_neg (by rw [show (checked (k.task k.current)).1 = false from h1]; exact fun e => by cases e)] at hst
      cases hres
      refine h.keep rfl rfl rfl rfl rfl hn fun hm => ?_
      rw [setFrames_frames]
      show ((k.modify k.current fun t => (checked t).2).task k.current).state ≠ .running ∧
        Parked ((k.modify k.current fun t => (checked t).2).task k.current).state fs
      obtain ⟨hr, hfs⟩ := hpark hm
      have hfs : Parked (k.task k.current).state fs := hfs
      rw [hcur]
      rcases hst with e | e <;> rw [e]
      · exact ⟨hr, hfs⟩
      · exact ⟨fun e => (by cases e), hfs.sleeping⟩
  | checkDead =>
    have h0 : k.current ∉ k.queued := fun hm => (hpark hm).2
    simp only [Kernel.resume] at hres
    split at hres <;> cases hres <;> exact h.keep rfl rfl rfl rfl rfl h.noCont fun hm => (h0 hm).elim
  | checkSchedule =>
    simp only [Kernel.resume] at hres
    split at hres <;> cases hres <;> refine h.keep rfl rfl rfl rfl rfl h.noCont fun hm => ⟨(hpark hm).1, ?_⟩ <;>
      rw [setFrames_frames]
    · trivial
    · exact (hpark hm).2

theorem Occupancy.send (h : k.Occupancy) (pid : Nat) {sig : Nat} (hsig : sig ≠ sigCont) :
    ∀ p, NoCont ((k.tty pid sig).task p) ∧ ((k.tty pid sig).task p).state = (k.task p).state := by
  intro p
  unfold tty
  split
  · rw [Kernel.send, modify_task]
    split
    · exact ⟨(h.noCont p).send hsig, rfl⟩
    · exact ⟨h.noCont p, rfl⟩
  · exact ⟨h.noCont p, rfl⟩

theorem filter_eq_perm_filter_ne {α : Type*} [DecidableEq Q] (l : List (Q × α)) (q : Q) :
    List.Perm l ((l.filter fun e => e.1 = q) ++ l.filter fun e => e.1 ≠ q) := by
  have := List.filter_append_perm (fun e : Q × α => decide (e.1 = q)) l
  simpa using this.symm

/-- The loop of `wake_up`, from a call or an interrupt. -/
theorem Occupancy.wakeUp [DecidableEq Q] (h : k.Occupancy) {q : Q} (h0 : k.current ∉ k.waiters q) :
    (k.wakeUp q).Occupancy := by
  have hr := k.wakeUp_readyPids q
  rw [wakeUp_eq] at hr ⊢
  refine h.wake h0 hr ?_ rfl rfl (fun p => ?_) ?_ id
  · show List.Perm (k.waitq.map Prod.snd ++ k.sleepq.map Prod.fst) _
    rw [waiters, queued, ← List.append_assoc, ← List.map_append]
    exact ((filter_eq_perm_filter_ne k.waitq q).map Prod.snd).append_right _
  · show NoCont (if p ∈ k.waiters q then _ else _)
    split <;> exact h.noCont p
  · show (if k.current ∈ k.waiters q then _ else _ : Task).state = _
    rw [if_neg h0]

theorem Occupancy.checkSleepers (h : k.Occupancy) (h0 : k.current ∉ k.sleepers) : k.checkSleepers.Occupancy := by
  have hr := k.checkSleepers_readyPids
  rw [checkSleepers_eq] at hr ⊢
  refine h.wake h0 hr ?_ rfl rfl (fun p => ?_) ?_ id
  · show List.Perm (k.waitq.map Prod.snd ++ k.sleepq.map Prod.fst) _
    rw [queued, sleepers]
    conv_lhs => rw [← List.takeWhile_append_dropWhile (p := fun e => e.2 ≤ k.tick) (l := k.sleepq), List.map_append]
    exact List.perm_append_comm_assoc _ _ _
  · show NoCont (if p ∈ k.sleepers then _ else _)
    split <;> exact h.noCont p
  · show (if k.current ∈ k.sleepers then _ else _ : Task).state = _
    rw [if_neg h0]

theorem Occupancy.interrupt [DecidableEq Q] (h : k.Occupancy) {i : Irq Q}
    (hi : match i with
      | .wake q => k.current ∉ k.waiters q
      | .timer _ => k.current ∉ { k with tick := k.tick + 1 }.sleepers
      | _ => True) : (k.interrupt i).Occupancy := by
  have hpark : ∀ {k1 : Kernel Q S}, k1.Occupancy → (k1.setFrames (.checkSignals :: .checkSchedule :: k1.frames)).Occupancy :=
    fun h => h.keep rfl rfl rfl rfl rfl h.noCont fun hm => ⟨(h.parked hm).1, by rw [setFrames_frames]; exact (h.parked hm).2⟩
  have htty : ∀ pid sig, sig ≠ sigCont → (k.tty pid sig).Occupancy := fun pid sig hsig => by
    obtain ⟨task, ht⟩ := tty_fields k pid sig
    have hs := h.send pid hsig
    rw [ht] at hs ⊢
    refine h.keep rfl rfl rfl rfl rfl (fun p => (hs p).1) fun hm => ?_
    show (task k.current).state ≠ .running ∧ Parked (task k.current).state k.frames
    rw [(hs k.current).2]
    exact h.parked hm
  cases i with
  | timer expired =>
    have h1 : Occupancy { k with tick := k.tick + 1 } := h.keep rfl rfl rfl rfl rfl h.noCont h.parked
    have h2 := h1.checkSleepers hi
    have h3 : Occupancy { { k with tick := k.tick + 1 }.checkSleepers with
        needResched := { k with tick := k.tick + 1 }.checkSleepers.needResched || expired } :=
      h2.keep rfl rfl rfl rfl rfl h2.noCont h2.parked
    exact hpark h3
  | wake q => exact hpark (h.wakeUp hi)
  | ctrlC pid => exact hpark (htty pid sigInt (by decide))
  | ctrlZ pid => exact hpark (htty pid sigStop (by decide))

theorem Occupancy.enter [DecidableEq Q] [DecidableEq S] (h : k.Occupancy) (hs : k.Straight) (hf : k.frames = [])
    {c : Call Q S} (hc : c.plain = true) : (k.enter c).Occupancy := by
  have h0 : k.current ∉ k.queued := fun hm => by
    have := (h.parked hm).2
    rw [hf] at this
    exact this
  have hkeep : ∀ fs, (k.setFrames fs).Occupancy := fun fs => h.keep rfl rfl rfl rfl rfl h.noCont fun hm => (h0 hm).elim
  have hkill : ∀ pid sig, (k.doKill pid sig).2.Occupancy := fun pid sig => by
    rcases doKill_eq k pid sig with e | ⟨-, -, e⟩ <;> rw [e]
    · exact h
    · refine h.keep rfl rfl rfl rfl rfl (fun p => ?_) fun hm => (h0 hm).elim
      rw [modify_task]
      split
      · exact NoCont.killed (h.noCont p) _
      · exact h.noCont p
  cases c with
  | waitEvent q => exact hkeep _
  | wakeUp q => exact h.wakeUp fun hm => h0 (List.mem_append_left _ (List.map_subset _ (List.filter_subset_self _) hm))
  | sleep ms =>
    simp only [Kernel.enter]
    split
    · exact h
    · exact hkeep _
  | yieldNow => exact hkeep _
  | schedYield => exact h.keep rfl rfl rfl rfl rfl h.noCont fun hm => (h0 hm).elim
  | down s => cases hc
  | tryDown s => cases hc
  | up s => cases hc
  | kill pid sig => exact hkill pid sig
  | exit code => exact hkeep _
  | wait4 pid => exact hkeep _
  | fork =>
    simp only [Kernel.enter, doFork]
    split
    · exact h.create hs rfl
    · exact h
  | createKernelThread prio => exact h.create hs rfl
  | checkSignals => exact hkeep _
  | fault sig =>
    have h1 := hkill k.current sig
    have h2 := doKill_fields k k.current sig
    obtain ⟨task, ht⟩ := h2
    simp only [Kernel.enter]
    rw [ht] at h1 ⊢
    exact h1.keep rfl rfl rfl rfl rfl h1.noCont fun hm => (h0 hm).elim

/-- Only frames of plain calls are left. -/
def Plain (k : Kernel Q S) : Prop := ∀ p, ∀ f ∈ k.stack p, f.plain = true

theorem OnStack.plain {fs : List (Frame Q S)} (h : OnStack k fs k') (hp : k.Plain) (hfs : ∀ f ∈ fs, f.plain = true) :
    k'.Plain := by
  intro p f hm
  rw [h.stack, Function.update_apply] at hm
  split at hm
  · exact hfs f hm
  · exact hp p f hm

theorem Plain.create (hp : k.Plain) (t : Task) : (k.create t).Plain := by
  intro p f hm
  have hm : f ∈ Function.update k.stack k.nextPid [] p := hm
  rw [Function.update_apply] at hm
  split at hm
  · cases hm
  · exact hp p f hm

/-- No semaphore is used, no interrupt arrives inside `schedule()`, and none wakes the task
    the CPU is on. -/
def Undisturbed [DecidableEq Q] (k : Kernel Q S) : Event Q S → Prop
  | .irqInside _ _ => False
  | .irq (.wake q) => k.current ∉ k.waiters q
  | .irq (.timer _) => k.current ∉ { k with tick := k.tick + 1 }.sleepers
  | .call c => c.plain = true
  | _ => True

structure Settled (k : Kernel Q S) : Prop where
  straight : k.Straight
  plain : k.Plain
  occupancy : k.Occupancy

theorem next_plain {f : Frame Q S} (h : f.plain = true) : ∀ g ∈ next f, g.plain = true := by
  cases f <;> simp_all [next, Frame.plain]

theorem entered_plain [DecidableEq S] {c : Call Q S} (h : c.plain = true) : ∀ f ∈ k.entered c, f.plain = true := by
  cases c <;> simp_all [entered, Frame.plain, Call.plain]

theorem Plain.step [DecidableEq Q] [DecidableEq S] (hp : k.Plain) (hs : k.Straight) {e : Event Q S}
    (he : k.Undisturbed e) (h : step k e = some k') : k'.Plain := by
  have hmem : ∀ f ∈ k.frames, f.plain = true := hp k.running
  cases e with
  | irqInside n i => exact he.elim
  | irq i =>
    cases h
    refine (interrupt_onStack k i).plain hp fun f hm => ?_
    rcases List.mem_cons.mp hm with rfl | hm
    · rfl
    · rcases List.mem_cons.mp hm with rfl | hm
      · rfl
      · exact hmem f hm
  | call c =>
    have hc : c.plain = true := he
    simp only [Kernel.step] at h
    split at h
    · next h0 =>
      cases h
      rcases enter_onStack h0 c with (h | h) | ⟨t, h, -⟩
      · refine h.plain hp fun f hm => ?_
        exact entered_plain hc f hm
      · exact h.plain hp fun f hm => by cases hm
      · rw [h]
        exact hp.create t
    · cases h
  | run b =>
    simp only [Kernel.step] at h
    split at h
    · cases h
    · next f fs hf =>
      rw [hf] at hmem
      by_cases hsch : ∃ pc, f = .schedule pc
      · obtain ⟨pc, rfl⟩ := hsch
        obtain rfl := hs.start k.running pc (by rw [show k.stack k.running = _ from hf]; exact List.mem_cons_self)
        obtain ⟨r, hr, rfl⟩ := Option.map_eq_some_iff.mp h
        obtain ⟨e, -, he⟩ := hs.schedule_eq hf hr
        rw [he]
        intro p g hm
        have hm : g ∈ Function.update k.stack k.current fs p := hm
        rw [Function.update_apply] at hm
        split at hm
        · exact hmem g (List.mem_cons_of_mem _ hm)
        · exact hp p g hm
      · obtain ⟨g, hg, ho⟩ := resume_onStack (fun pc e => hsch ⟨pc, e⟩) h
        refine ho.plain hp fun u hm => ?_
        rcases List.mem_append.mp hm with hm | hm
        · exact next_plain (hmem f List.mem_cons_self) u (hg.subset hm)
        · exact hmem u (List.mem_cons_of_mem _ hm)

theorem Settled.step [DecidableEq Q] [DecidableEq S] (h : k.Settled) {e : Event Q S} (he : k.Undisturbed e)
    (hk : step k e = some k') : k'.Settled := by
  refine ⟨h.straight.step (by cases e <;> first | exact he | trivial) hk, h.plain.step h.straight he hk, ?_⟩
  cases e with
  | irqInside n i => exact he.elim
  | irq i =>
    cases hk
    exact h.occupancy.interrupt (by cases i <;> exact he)
  | call c =>
    simp only [Kernel.step] at hk
    split at hk
    · next h0 => cases hk; exact h.occupancy.enter h.straight h0 he
    · cases hk
  | run b =>
    simp only [Kernel.step] at hk
    split at hk
    · cases hk
    · next f fs hf =>
      have hm : f ∈ k.stack k.running := by rw [show k.stack k.running = _ from hf]; exact List.mem_cons_self
      exact h.occupancy.resume h.straight hf (h.plain _ f hm) (fun pc e => h.straight.start _ pc (e ▸ hm)) hk

theorem createIdle_settled (count : S → Int) : (empty count : Kernel Q S).createIdle.Settled := by
  have h0 : (empty count : Kernel Q S).Occupancy :=
    ⟨List.nodup_nil, nofun, nofun, nofun, Nat.zero_lt_one, fun p => BitVec.getLsbD_zero⟩
  have hst : (empty count : Kernel Q S).Straight := ⟨rfl, fun p => rfl, nofun⟩
  have h1 := h0.create hst (t := Task.new 0 0 false) rfl
  have hpl : (empty count : Kernel Q S).Plain := nofun
  refine ⟨createIdle_straight count, hpl.create (Task.new 0 0 false), ?_⟩
  refine h1.keep rfl rfl rfl rfl rfl (fun p => ?_) nofun
  rw [createIdle, cloneArc, modify_task]
  split <;> exact h1.noCont p

theorem start_settled {count : S → Int} {ts : List (Prio × Bool)} (h : start count ts = some k) : k.Settled := by
  obtain ⟨k1, e, h1, he, rfl⟩ := start_rule (createIdle_settled count)
    (fun k _ _ hk => ⟨create_straight hk.straight _, hk.plain.create _, hk.occupancy.create hk.straight rfl⟩) h
  have ho := h1.occupancy
  exact ⟨start_straight h, h1.plain, take_occupancy ho.nodup ho.bound he rfl rfl rfl rfl rfl ho.noCont⟩

theorem settled_reach [DecidableEq Q] [DecidableEq S] (h : Lib.Reach step Undisturbed Boot k) : k.Settled :=
  h.rule (fun _ ⟨_, _, hk⟩ => start_settled hk) fun _ _ _ hi he hk => hi.step he hk

/-- While no interrupt arrives inside `schedule()` and none wakes the task the CPU is on, no
    task is twice in the ready queues and the current one is in none. -/
theorem occupancy_reach [DecidableEq Q] [DecidableEq S] (h : Lib.Reach step Undisturbed Boot k) :
    k.readyPids.Nodup ∧ k.current ∉ k.readyPids :=
  have ho := (settled_reach h).occupancy
  ⟨ho.nodup.of_append_left, ho.current⟩

instance [DecidableEq Q] (k : Kernel Q S) (e : Event Q S) : Decidable (k.Undisturbed e) := by
  delta Undisturbed
  exact match e with
    | .irq (.timer _) | .irq (.wake _) | .irq (.ctrlC _) | .irq (.ctrlZ _) | .call _ | .run _ | .irqInside _ _ => inferInstance

/-- Two user processes: the first waits, its test sends it to `schedule()`, a device wakes it
    while the second runs. -/
def waitAndWake : List (Event Unit Unit) :=
  [.call (.waitEvent ()), .run false, .run true, .run true, .irq (.wake ())]

def twoTasks : Option (Kernel Unit Unit) := start (fun _ => 1) [(5, true), (5, true)]

theorem twoTasks_boot (k : Kernel Unit Unit) (h : twoTasks = some k) : Boot k := ⟨_, _, h⟩

theorem occupancy_waitAndWake : ∃ k, (twoTasks.bind fun k => Lib.trace step k waitAndWake) = some k ∧
    k.current = 3 ∧ k.readyPids.Nodup ∧ k.current ∉ k.readyPids := by
  obtain ⟨k, hk, ht, h3⟩ := Lib.exists_run step Undisturbed waitAndWake
    (fun k : Kernel Unit Unit => decide (k.current = 3)) twoTasks_boot (by decide) (by decide)
  exact ⟨k, ht, of_decide_eq_true h3, occupancy_reach hk⟩

/-- The first task is about to test its state, its time slice is used up, and a device wakes
    it: the interrupt puts it on the ready queue, `schedule()` on the way out once more. -/
def wokenInWindow : List (Event Unit Unit) :=
  [.call (.waitEvent ()), .run false, .irq (.timer true), .irq (.wake ()), .run true, .run true, .run true]

theorem queued_twice : ¬ ∀ k : Kernel Unit Unit, Lib.Reach step (fun _ _ => True) Boot k →
    k.readyPids.Nodup ∧ k.current ∉ k.readyPids := by
  intro h
  obtain ⟨k, hk, -, hd⟩ := Lib.exists_run step (fun _ _ => True) wokenInWindow
    (fun k : Kernel Unit Unit => decide (¬ k.readyPids.Nodup)) twoTasks_boot (by decide) (by decide)
  exact of_decide_eq_true hd (h k hk).1

end Kernel

end Myos.Sched
