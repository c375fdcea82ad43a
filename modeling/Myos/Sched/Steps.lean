/-
  Myos.Sched.Steps — what the operations of `Myos.Sched.Kernel` change, each in one
  equation or one list of cases.
-/

import Mathlib.Data.List.Basic
import Myos.Sched.Machine

namespace Myos.Sched.Kernel

variable {Q S : Type*} {k k' : Kernel Q S} {p n : Pid}

theorem modify_task (k : Kernel Q S) (p u : Pid) (f : Task → Task) :
    (k.modify p f).task u = if u = p then f (k.task u) else k.task u := by
  show Function.update k.task p _ u = _
  rw [Function.update_apply]
  split
  · next e => rw [e]
  · rfl

theorem modify_task_self (k : Kernel Q S) (p : Pid) (f : Task → Task) : (k.modify p f).task p = f (k.task p) := by
  rw [modify_task, if_pos rfl]

theorem setState_task (k : Kernel Q S) (p u : Pid) (s : TaskState) :
    (k.setState p s).task u = if u = p then { k.task u with state := s } else k.task u :=
  modify_task k p u fun t => { t with state := s }

theorem modify_modify (k : Kernel Q S) (p : Pid) (f g : Task → Task) :
    (k.modify p f).modify p g = k.modify p fun t => g (f t) := by
  simp [modify]

theorem modify_congr (f g : Task → Task) (h : f (k.task p) = g (k.task p)) : k.modify p f = k.modify p g := by
  unfold modify
  rw [h]

theorem modify_id (f : Task → Task) (h : f (k.task p) = k.task p) : k.modify p f = k := by
  simp [modify, h]

theorem create_task (k : Kernel Q S) (t : Task) (p : Pid) :
    (k.create t).task p = if p = k.nextPid then { t with strong := t.strong + 1 } else k.task p := by
  show ((Kernel.mk (Function.update k.task k.nextPid t) _ _ _ _ _ _ _ _ _ _ _ _ _ _ _ : Kernel Q S).cloneArc _).task p = _
  rw [cloneArc, modify_task]
  split
  · next e => rw [e]; simp
  · next e => simp [e]

theorem setFrames_stack (k : Kernel Q S) (fs : List (Frame Q S)) (u : Pid) :
    (k.setFrames fs).stack u = if u = k.running then fs else k.stack u := Function.update_apply ..

theorem setFrames_frames (k : Kernel Q S) (fs : List (Frame Q S)) : (k.setFrames fs).frames = fs :=
  Function.update_self ..

theorem upgrade_eq (h : k.upgrade p = some k') : k' = k.cloneArc p ∧ (k.task p).arcSelf = true ∧ 0 < (k.task p).strong := by
  unfold upgrade at h
  split at h
  · next hc => exact ⟨(Option.some.inj h).symm, hc⟩
  · cases h

/-! ## The ready queue -/

theorem popReady_eq (h : k.popReady = some (n, k')) :
    ∃ e ∈ k.ready, e.2 = n ∧ k' = { k with ready := k.ready.erase e } := by
  unfold popReady at h
  split at h
  · cases h
  · next e he =>
    cases h
    obtain ⟨prio, -, hp⟩ := List.exists_of_findSome?_eq_some he
    exact ⟨e, List.mem_of_find?_eq_some hp, rfl, rfl⟩

theorem popReady_isSome (h : k.ready ≠ []) : k.popReady.isSome = true := by
  unfold popReady
  split
  · next hn =>
    obtain ⟨e, he⟩ := List.exists_mem_of_ne_nil _ h
    rw [List.findSome?_eq_none_iff] at hn
    have := hn e.1 (List.mem_reverse.mpr (List.mem_finRange _))
    rw [List.find?_eq_none] at this
    exact (this e he (decide_eq_true rfl)).elim
  · rfl

/-! ## Waking -/

/-- The loops of `wake_up` and `rust_check_sleepers` on the tasks `l`. -/
theorem rouseTask_foldl (l : List Pid) : ∀ k : Kernel Q S, l.foldl rouseTask k = { k with
    ready := k.ready ++ l.map fun p => ((k.task p).prio, p)
    task := fun p => if p ∈ l then { k.task p with state := .running } else k.task p } := by
  induction l with
  | nil => intro k; simp
  | cons t l ih =>
    intro k
    have ht : ∀ p, (k.rouseTask t).task p = if p = t then { k.task p with state := .running } else k.task p :=
      fun p => setState_task k t p .running
    have hp : ∀ p, ((k.rouseTask t).task p).prio = (k.task p).prio := fun p => by
      rw [ht]
      split <;> rfl
    have hr : (k.rouseTask t).ready = k.ready ++ [((k.task t).prio, t)] := by
      show k.ready ++ [(((k.setState t .running).task t).prio, t)] = _
      rw [setState_task, if_pos rfl]
    rw [List.foldl_cons, ih]
    show Kernel.mk _ _ _ _ _ _ _ _ _ _ _ _ _ _ _ _ = _
    congr 1
    · funext p
      rw [ht]
      by_cases e : p = t
      · simp [e]
      · simp [e]
    · rw [hr, List.append_assoc]
      simp [hp]

theorem wakeUp_eq [DecidableEq Q] (k : Kernel Q S) (q : Q) : k.wakeUp q = { k with
    waitq := k.waitq.filter fun e => e.1 ≠ q
    ready := k.ready ++ (k.waiters q).map fun p => ((k.task p).prio, p)
    task := fun p => if p ∈ k.waiters q then { k.task p with state := .running } else k.task p } :=
  rouseTask_foldl _ _

theorem checkSleepers_eq (k : Kernel Q S) : k.checkSleepers = { k with
    sleepq := k.sleepq.dropWhile fun e => e.2 ≤ k.tick
    ready := k.ready ++ k.sleepers.map fun p => ((k.task p).prio, p)
    task := fun p => if p ∈ k.sleepers then { k.task p with state := .running } else k.task p } :=
  rouseTask_foldl _ _

/-! ## Signals -/

/-- What a signal that was accepted does to its target. -/
def killed (sig : Nat) (t : Task) : Task :=
  if sig = sigKill then { t with state := .dead, signals := t.signals.send sig }
  else if sig = sigStop then { t with state := .sleeping }
  else if sig = sigCont then { t with state := .running }
  else { t with signals := t.signals.send sig }

theorem doKill_eq (k : Kernel Q S) (pid sig : Nat) : (k.doKill pid sig).2 = k ∨
    (pid ∈ k.all ∧ pid ≠ 0 ∧ (k.doKill pid sig).2 = k.modify pid (killed sig)) := by
  unfold doKill
  split
  · exact Or.inl rfl
  · split
    · exact Or.inl rfl
    · next h0 =>
      split
      · exact Or.inl rfl
      · next hm =>
        refine Or.inr ⟨not_not.mp hm, fun e => h0 (Or.inl e), ?_⟩
        unfold killed
        split
        · exact modify_modify k pid (fun t => { t with state := .dead }) fun t => { t with signals := t.signals.send sig }
        · split
          · rfl
          · split <;> rfl

theorem killed_state (sig : Nat) (t : Task) : (killed sig t).state =
    if sig = sigKill then .dead else if sig = sigStop then .sleeping else if sig = sigCont then .running
    else t.state := by
  unfold killed
  split
  · rfl
  · split
    · rfl
    · split <;> rfl

/-- What `rust_check_signals` does to the current task. -/
def checked (t : Task) : Bool × Task :=
  let sig := t.signals.checkPending
  if sig = 0 then (false, t)
  else match defaultAction sig with
    | .terminate | .core => (true, { t with state := .dead, signals := t.signals.clearAllPending })
    | .ignore | .handler => (false, { t with signals := t.signals.clearPending sig })
    | .stop => (false, { t with state := .sleeping, signals := t.signals.clearPending sig })
    | .cont => (false, { t with state := .running, signals := t.signals.clearPending sig })

/-- The task is left in its state, terminated, or stopped or continued. -/
theorem checked_cases (t : Task) :
    ((checked t).1 = false ∧ (checked t).2.state = t.state) ∨
    (t.signals.checkPending ≠ 0 ∧ (defaultAction t.signals.checkPending = .terminate ∨
      defaultAction t.signals.checkPending = .core) ∧ (checked t).2.state = .dead) ∨
    ((checked t).1 = false ∧ (defaultAction t.signals.checkPending = .stop ∨
      defaultAction t.signals.checkPending = .cont) ∧
      ((checked t).2.state = .sleeping ∨ (checked t).2.state = .running)) := by
  by_cases h0 : t.signals.checkPending = 0
  · exact Or.inl (by simp [checked, h0])
  · cases ha : defaultAction t.signals.checkPending <;> simp [checked, h0, ha]

theorem doCheckSignals_eq (k : Kernel Q S) :
    k.doCheckSignals = ((checked (k.task k.current)).1, k.modify k.current fun t => (checked t).2) := by
  by_cases h0 : (k.task k.current).signals.checkPending = 0
  · have hc : checked (k.task k.current) = (false, k.task k.current) := by simp [checked, h0]
    unfold doCheckSignals
    rw [if_pos h0, hc, modify_id (fun t => (checked t).2)]
    exact congrArg Prod.snd hc
  · unfold doCheckSignals
    rw [if_neg h0]
    have hc : ∀ r f, checked (k.task k.current) = (r, f (k.task k.current)) →
        (r, k.modify k.current f) = ((checked (k.task k.current)).1, k.modify k.current fun t => (checked t).2) :=
      fun r f h => Prod.ext (congrArg Prod.fst h).symm
        (modify_congr (fun t => (checked t).2) f (congrArg Prod.snd h)).symm
    cases ha : defaultAction (k.task k.current).signals.checkPending <;>
      simp only [setState, modify_modify] <;> exact hc _ _ (by simp [checked, h0, ha])

/-! ## The end of a task -/

theorem dropArc_foldl (l : List Pid) : ∀ k : Kernel Q S, l.foldl dropArc k = { k with
    task := fun p => { k.task p with strong := (k.task p).strong - l.count p } } := by
  induction l with
  | nil => intro k; rfl
  | cons t l ih =>
    intro k
    rw [List.foldl_cons, ih]
    show Kernel.mk _ _ _ _ _ _ _ _ _ _ _ _ _ _ _ _ = _
    congr 1
    funext p
    have ht : (k.dropArc t).task p = if p = t then { k.task p with strong := (k.task p).strong - 1 } else k.task p :=
      modify_task k t p fun t => { t with strong := t.strong - 1 }
    rw [ht]
    by_cases e : p = t
    · subst e
      simp [Nat.sub_sub, Nat.add_comm]
    · simp [e, Ne.symm e]

theorem purge_eq (k : Kernel Q S) : k.purge = { k with
    all := k.all.filter fun p => (k.task p).state ≠ .dead
    task := fun p => { k.task p with
      strong := (k.task p).strong - (k.all.filter fun p => (k.task p).state = .dead).count p } } :=
  dropArc_foldl _ _

/-- What `do_exit_with` does to the current task. -/
def exited (code : Int) (t : Task) : Task := { t with exitCode := code, state := .zombie }

theorem resume_exitWith [DecidableEq S] (k : Kernel Q S) (b : Bool) (fs : List (Frame Q S)) (code : Int) :
    k.resume b fs (.exitWith code) = some ((k.modify k.current (exited code)).setFrames (.exitNotify :: fs)) := rfl

/-- What `find_zombie_child` does to the child it returns. -/
def reaped (t : Task) : Task := { t with state := .dead, arcSelf := false }

/-- A child that `find_zombie_child` may return. -/
def Matches (k : Kernel Q S) (parent : Pid) (target : Int) (p : Pid) : Prop :=
  (k.task p).ppid = parent ∧ (k.task p).state = .zombie ∧ (target < 0 ∨ p = target.toNat)

instance (k : Kernel Q S) (parent : Pid) (target : Int) (p : Pid) : Decidable (k.Matches parent target p) :=
  inferInstanceAs (Decidable (_ ∧ _))

theorem findZombieChild_eq (k : Kernel Q S) (parent : Pid) (target : Int) :
    k.findZombieChild parent target =
      match (k.all.filter fun p => (k.task p).state ≠ .dead).find? fun p => k.Matches parent target p with
      | none => (none, k.purge)
      | some p => (some ((k.task p).exitCode, p), k.purge.modify p reaped) := by
  show (match k.purge.all.find? fun p => (k.purge.task p).ppid = parent ∧ (k.purge.task p).state = .zombie ∧
      (target < 0 ∨ p = target.toNat) with
    | none => (none, k.purge)
    | some p => (some ((k.purge.task p).exitCode, p), k.purge.modify p reaped)) = _
  have ht : ∀ p, (k.purge.task p).ppid = (k.task p).ppid ∧ (k.purge.task p).state = (k.task p).state ∧
      (k.purge.task p).exitCode = (k.task p).exitCode := fun p => by rw [purge_eq]; exact ⟨rfl, rfl, rfl⟩
  have ha : k.purge.all = k.all.filter fun p => (k.task p).state ≠ .dead := by rw [purge_eq]
  simp only [fun p => (ht p).1, fun p => (ht p).2.1, fun p => (ht p).2.2, ha]
  rfl

theorem findZombieChild_none {parent : Pid} {target : Int} (h : k.findZombieChild parent target = (none, k')) :
    k' = k.purge ∧ ∀ p ∈ k.all, ¬ k.Matches parent target p := by
  rw [findZombieChild_eq] at h
  split at h
  · next hn =>
    refine ⟨(congrArg Prod.snd h).symm, fun p hp hm => ?_⟩
    rw [List.find?_eq_none] at hn
    exact hn p (List.mem_filter.mpr ⟨hp, by simp [hm.2.1]⟩) (decide_eq_true hm)
  · cases h

theorem findZombieChild_some {parent : Pid} {target code : Int} {p : Pid}
    (h : k.findZombieChild parent target = (some (code, p), k')) :
    k' = k.purge.modify p reaped ∧ code = (k.task p).exitCode ∧ k.Matches parent target p ∧
      ∃ l₁ l₂, k.all = l₁ ++ p :: l₂ ∧ ∀ u ∈ l₁, ¬ k.Matches parent target u := by
  rw [findZombieChild_eq] at h
  split at h
  · cases h
  · next u hu =>
    cases h
    obtain ⟨hm, l₁, l₂, hl, hn⟩ := List.find?_eq_some_iff_append.mp hu
    refine ⟨rfl, rfl, of_decide_eq_true hm, ?_⟩
    obtain ⟨m₁, m₂, h12, rfl, hm2⟩ := List.filter_eq_append_iff.mp hl
    obtain ⟨m₃, m₄, rfl, h3, -, -⟩ := List.filter_eq_cons_iff.mp hm2
    refine ⟨m₁ ++ m₃, m₄, by rw [h12, List.append_assoc], fun v hv hmv => ?_⟩
    have hd : decide ((k.task v).state ≠ .dead) = true := by simp [hmv.2.1]
    rcases List.mem_append.mp hv with hv | hv
    · have := hn v (List.mem_filter.mpr ⟨hv, hd⟩)
      rw [decide_eq_true hmv] at this
      cases this
    · exact h3 v hv hd

/-! ## Semaphores -/

/-- The same task up to its priorities. -/
def Reprio (t t' : Task) : Prop := ∃ prio originalPrio, t' = { t with prio := prio, originalPrio := originalPrio }

theorem Reprio.refl (t : Task) : Reprio t t := ⟨t.prio, t.originalPrio, rfl⟩

theorem modify_prio (k : Kernel Q S) (p : Pid) (f : Task → Task) (hf : ∀ t, Reprio t (f t)) :
    ∃ task, k.modify p f = { k with task := task } ∧ ∀ u, Reprio (k.task u) (task u) := by
  refine ⟨(k.modify p f).task, rfl, fun u => ?_⟩
  rw [modify_task]
  split
  · exact hf _
  · exact Reprio.refl _

section

variable [DecidableEq S]

/-- The reference that an assignment to `owner` ends. -/
def ownerRef (k : Kernel Q S) (s : S) (p : Pid) : Nat := if k.ownerOf s = some p then 1 else 0

theorem setOwner_eq (k : Kernel Q S) (s : S) (o : Option Pid) : k.setOwner s o = { k with
    task := fun p => { k.task p with strong := (k.task p).strong - k.ownerRef s p }
    owner := (o.map fun p => (s, p)).toList ++ k.owner.eraseP fun e => e.1 = s } := by
  unfold setOwner ownerRef
  cases k.ownerOf s with
  | none => simp
  | some u =>
    have ht : (k.dropArc u).task = fun p =>
        { k.task p with strong := (k.task p).strong - if some u = some p then 1 else 0 } := by
      funext p
      rw [dropArc, modify_task]
      by_cases e : p = u
      · simp [e]
      · simp [e, Ne.symm e]
    rw [← ht]
    rfl

theorem restorePrio_eq (k : Kernel Q S) (s : S) :
    ∃ task, k.restorePrio s = { k with task := task } ∧ ∀ u, Reprio (k.task u) (task u) := by
  unfold restorePrio
  cases k.ownerOf s with
  | none => exact ⟨k.task, rfl, fun u => Reprio.refl _⟩
  | some o => exact modify_prio k o _ fun t => ⟨_, _, rfl⟩

theorem inheritPrio_eq (k : Kernel Q S) (s : S) (p : Pid) :
    ∃ task, k.inheritPrio s p = { k with task := task } ∧ ∀ u, Reprio (k.task u) (task u) := by
  unfold inheritPrio
  cases k.ownerOf s with
  | none => exact ⟨k.task, rfl, fun u => Reprio.refl _⟩
  | some o =>
    simp only
    split
    · exact modify_prio k o _ fun t => ⟨_, _, rfl⟩
    · exact ⟨k.task, rfl, fun u => Reprio.refl _⟩

/-- `down` took the semaphore. -/
theorem downSection_true {s : S} (h : k.downSection s = some (true, k')) :
    (k.task k.current).arcSelf = true ∧ 0 < (k.task k.current).strong ∧ k' = { k with
      count := Function.update k.count s (k.count s - 1)
      task := fun p => { k.task p with
        strong := (k.task p).strong + (if p = k.current then 1 else 0) - k.ownerRef s p }
      owner := (s, k.current) :: k.owner.eraseP fun e => e.1 = s } := by
  unfold downSection at h
  split at h
  · obtain ⟨k1, h1, h2⟩ := Option.map_eq_some_iff.mp h
    obtain ⟨rfl, ha, hs⟩ := upgrade_eq h1
    refine ⟨ha, hs, ?_⟩
    obtain rfl : _ = k' := congrArg Prod.snd h2
    rw [setOwner_eq]
    have ht : ∀ p, ((k.setCount s (k.count s - 1)).cloneArc k.current).task p =
        { k.task p with strong := (k.task p).strong + if p = k.current then 1 else 0 } := fun p => by
      rw [cloneArc, modify_task]
      split <;> rfl
    simp only [ht]
    rfl
  · obtain ⟨k1, -, h2⟩ := Option.map_eq_some_iff.mp h
    cases h2

/-- `down` blocks. -/
theorem downSection_false {s : S} (h : k.downSection s = some (false, k')) :
    (k.task k.current).arcSelf = true ∧ 0 < (k.task k.current).strong ∧ k.count s ≤ 0 ∧ ∃ task, k' = { k with
      semq := k.semq ++ [(s, k.current)]
      task := task } ∧ ∀ p, Reprio { k.task p with
        state := if p = k.current then .sleeping else (k.task p).state
        strong := (k.task p).strong + if p = k.current then 1 else 0 } (task p) := by
  unfold downSection at h
  split at h
  · obtain ⟨k1, -, h2⟩ := Option.map_eq_some_iff.mp h
    cases h2
  · next hc =>
    obtain ⟨k1, h1, h2⟩ := Option.map_eq_some_iff.mp h
    obtain ⟨rfl, ha, hs⟩ := upgrade_eq h1
    refine ⟨ha, hs, not_lt.mp hc, ?_⟩
    obtain ⟨task, ht, hr⟩ := inheritPrio_eq (k.cloneArc k.current) s k.current
    obtain rfl : _ = k' := congrArg Prod.snd h2
    simp only [ht]
    refine ⟨_, rfl, fun p => ?_⟩
    obtain ⟨a, b, he⟩ := hr p
    refine ⟨a, b, ?_⟩
    show Function.update task k.current _ p = _
    rw [Function.update_apply, he]
    have hc : (k.cloneArc k.current).task p =
        { k.task p with strong := (k.task p).strong + if p = k.current then 1 else 0 } := by
      rw [cloneArc, modify_task]
      split <;> rfl
    split
    · next e =>
      subst e
      show { task k.current with state := .sleeping } = _
      rw [he, hc]
      simp
    · next e => rw [hc]; simp [e]

/-- What `up` does before it takes a waiter off the queue. -/
theorem upSection_eq (k : Kernel Q S) (s : S) : ∃ task, (∀ p, Reprio { k.task p with
      strong := (k.task p).strong - k.ownerRef s p } (task p)) ∧
    k.upSection s = ((k.semq.find? fun e => e.1 = s).map Prod.snd, { k with
      count := Function.update k.count s (k.count s + 1)
      owner := k.owner.eraseP fun e => e.1 = s
      semq := k.semq.eraseP fun e => e.1 = s
      task := task }) := by
  obtain ⟨task, ht, hr⟩ := restorePrio_eq (k.setCount s (k.count s + 1)) s
  refine ⟨fun p => { task p with strong := (task p).strong - k.ownerRef s p }, fun p => ?_, ?_⟩
  · obtain ⟨a, b, he⟩ := hr p
    refine ⟨a, b, ?_⟩
    show { task p with strong := (task p).strong - k.ownerRef s p } = _
    rw [he]
    rfl
  · have hq : (((k.setCount s (k.count s + 1)).restorePrio s).setOwner s none).semq = k.semq := by
      rw [ht, setOwner_eq]
      rfl
    unfold upSection
    dsimp only
    rw [hq]
    cases hf : k.semq.find? fun e => e.1 = s with
    | none =>
      have he : (k.semq.eraseP fun e => e.1 = s) = k.semq :=
        List.eraseP_of_forall_not fun e he => List.find?_eq_none.mp hf e he
      rw [he, ht, setOwner_eq]
      rfl
    | some e =>
      rw [ht, setOwner_eq]
      rfl

end

/-! ## Boot -/

/-- What holds once the idle thread is there, and after every further first task, holds when
    the first of them is taken. -/
theorem start_rule {P : Kernel Q S → Prop} {count : S → Int} {ts : List (Prio × Bool)}
    (h0 : P (empty count).createIdle) (hc : ∀ k prio user, P k → P (k.create (Task.new 0 prio user)))
    (h : start count ts = some k) :
    ∃ k1 e, P k1 ∧ e ∈ k1.ready ∧ k = { k1 with ready := k1.ready.erase e, current := e.2, running := e.2 } := by
  obtain ⟨r, hr, rfl⟩ := Option.map_eq_some_iff.mp h
  obtain ⟨n, k1⟩ := r
  obtain ⟨e, he, rfl, rfl⟩ := popReady_eq hr
  have hfold : ∀ (ts : List (Prio × Bool)) (k : Kernel Q S), P k →
      P (ts.foldl (fun k t => k.create (Task.new 0 t.1 t.2)) k) := by
    intro ts
    induction ts with
    | nil => exact fun k hk => hk
    | cons t ts ih => exact fun k hk => ih _ (hc k _ _ hk)
  exact ⟨_, e, hfold ts _ h0, he, rfl⟩

end Myos.Sched.Kernel
