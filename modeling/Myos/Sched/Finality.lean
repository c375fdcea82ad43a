/-
  Myos.Sched.Finality — a task that is ZOMBIE or DEAD stays so, while no task ends in a
  queue that will wake it.

  Proved:
  - `final_reach`: in a run where no task ends while it waits, no signal stops or continues a
    task that has ended, and none that has ended goes to sleep, ZOMBIE and DEAD are final; a
    DEAD task becomes ZOMBIE in its own `do_exit_with` only.
  - `killed_sleeper_wakes`: a SIGKILL for a task in a wait queue, and `wake_up` makes it
    RUNNING again.
-/

import Myos.Sched.Occupancy

namespace Myos.Sched

variable {Q S : Type*}

def Task.Final (t : Task) : Prop := t.state = .dead ∨ t.state = .zombie

instance (t : Task) : Decidable t.Final := inferInstanceAs (Decidable (_ ∨ _))

namespace Kernel

variable {k k' : Kernel Q S} {p : Pid}

/-- The task is where some wake-up will find it: in a wait queue, asleep for a time, in the
    queue of a semaphore, or just taken off that by `up`. -/
def Blocked (k : Kernel Q S) (p : Pid) : Prop :=
  p ∈ k.waitq.map Prod.snd ∨ p ∈ k.sleepq.map Prod.fst ∨ p ∈ k.semq.map Prod.snd ∨ ∃ u, .rouse p ∈ k.stack u

/-- What a step may do to the end of task `p`. -/
structure Orderly (k k' : Kernel Q S) (p : Pid) : Prop where
  blocked : k'.Blocked p → k.Blocked p ∨ ¬ (k'.task p).Final
  keeps : p < k.nextPid → (k.task p).Final → (k'.task p).Final
  ends : (k'.task p).Final → (k.task p).Final ∨ ¬ k.Blocked p

/-- No task that has ended is blocked. -/
def Quiet (k : Kernel Q S) : Prop := ∀ p, (k.task p).Final → ¬ k.Blocked p

theorem Quiet.of_orderly (h : k.Quiet) (ho : ∀ p, k.Orderly k' p) : k'.Quiet := by
  intro p hf hb
  rcases (ho p).blocked hb with hb | hn
  · rcases (ho p).ends hf with hf | hn
    · exact h p hf hb
    · exact hn hb
  · exact hn hf

/-- No queue grows and no task is taken in hand. -/
structure Shrinks (k k' : Kernel Q S) : Prop where
  waitq : k'.waitq ⊆ k.waitq
  sleepq : k'.sleepq ⊆ k.sleepq
  semq : k'.semq ⊆ k.semq
  rouse : ∀ u p, .rouse p ∈ k'.stack u → ∃ v, .rouse p ∈ k.stack v

theorem Shrinks.blocked (h : k.Shrinks k') : k'.Blocked p → k.Blocked p := by
  rintro (hb | hb | hb | ⟨u, hb⟩)
  · exact Or.inl (List.map_subset _ h.waitq hb)
  · exact Or.inr (Or.inl (List.map_subset _ h.sleepq hb))
  · exact Or.inr (Or.inr (Or.inl (List.map_subset _ h.semq hb)))
  · exact Or.inr (Or.inr (Or.inr (h.rouse u p hb)))

/-- A step that makes no task blocked. -/
theorem Shrinks.orderly (h : k.Shrinks k') (hk : (k.task p).Final → (k'.task p).Final)
    (he : (k'.task p).Final → (k.task p).Final ∨ ¬ k.Blocked p) : k.Orderly k' p :=
  ⟨fun hb => Or.inl (h.blocked hb), fun _ => hk, he⟩

theorem final_congr {t t' : Task} (h : t'.state = t.state) : t'.Final ↔ t.Final := by
  rw [Task.Final, Task.Final, h]

theorem Shrinks.orderly_of_state (h : k.Shrinks k') (hs : (k'.task p).state = (k.task p).state) : k.Orderly k' p :=
  h.orderly (final_congr hs).mpr fun hf => Or.inl ((final_congr hs).mp hf)

theorem OnStack.shrinks {fs : List (Frame Q S)} (h : OnStack k fs k') (hfs : ∀ p, .rouse p ∈ fs → .rouse p ∈ k.frames)
    (hw : k'.waitq ⊆ k.waitq) (hsl : k'.sleepq ⊆ k.sleepq) (hse : k'.semq ⊆ k.semq) : k.Shrinks k' := by
  refine ⟨hw, hsl, hse, fun u p hm => ?_⟩
  rw [h.stack, Function.update_apply] at hm
  split at hm
  · exact ⟨k.running, hfs p hm⟩
  · exact ⟨u, hm⟩

/-! ## schedule, wherever it is -/

/-- `schedule()` changes no state and fills no queue but the ready queues. -/
theorem schedStep_quiet {pc : SchedPc} {r : Option SchedPc} (h : k.schedStep pc = some (k', r)) :
    (∀ p, (k'.task p).state = (k.task p).state) ∧ k'.nextPid = k.nextPid ∧ k.Shrinks k' := by
  have hsub : ∀ (k k' : Kernel Q S), k'.stack = k.stack → k'.waitq = k.waitq → k'.sleepq = k.sleepq →
      k'.semq = k.semq → k.Shrinks k' := fun k k' h1 h2 h3 h4 =>
    ⟨by rw [h2]; exact List.Subset.refl _, by rw [h3]; exact List.Subset.refl _,
      by rw [h4]; exact List.Subset.refl _, fun u p hm => ⟨u, by rw [← h1]; exact hm⟩⟩
  cases pc with
  | start => cases h; exact ⟨fun p => rfl, rfl, hsub _ _ rfl rfl rfl rfl⟩
  | enqueue cur =>
    cases h
    refine ⟨fun p => ?_, rfl, hsub _ _ rfl rfl rfl rfl⟩
    show ((k.cloneArc cur).task p).state = _
    rw [cloneArc, modify_task]
    split <;> rfl
  | pick cur =>
    obtain ⟨⟨n, k1⟩, h1, h2⟩ := Option.map_eq_some_iff.mp h
    obtain ⟨e, -, rfl, rfl⟩ := popReady_eq h1
    cases h2
    exact ⟨fun p => rfl, rfl, hsub _ _ rfl rfl rfl rfl⟩
  | store cur next => cases h; exact ⟨fun p => rfl, rfl, hsub _ _ rfl rfl rfl rfl⟩
  | drop cur next =>
    cases h
    refine ⟨fun p => ?_, rfl, hsub _ _ rfl rfl rfl rfl⟩
    rw [dropArc, modify_task]
    split <;> rfl
  | switch cur next =>
    cases h
    refine ⟨fun p => rfl, rfl, List.Subset.refl _, List.Subset.refl _, List.Subset.refl _, fun u p hm => ?_⟩
    have hm : .rouse p ∈ (k.setFrames k.frames.tail).stack u := hm
    rw [setFrames_stack] at hm
    split at hm
    · exact ⟨k.running, List.mem_of_mem_tail hm⟩
    · exact ⟨u, hm⟩

theorem Shrinks.trans {k'' : Kernel Q S} (h : k.Shrinks k') (h' : k'.Shrinks k'') : k.Shrinks k'' :=
  ⟨List.Subset.trans h'.waitq h.waitq, List.Subset.trans h'.sleepq h.sleepq, List.Subset.trans h'.semq h.semq, fun u p hm => by
    obtain ⟨v, hv⟩ := h'.rouse u p hm
    exact h.rouse v p hv⟩

theorem schedFor_quiet : ∀ (n : Nat) {pc : SchedPc} {k : Kernel Q S} {b : Bool}, k.schedFor n pc = some (b, k') →
    (∀ p, (k'.task p).state = (k.task p).state) ∧ k'.nextPid = k.nextPid ∧ k.Shrinks k' := by
  intro n
  induction n with
  | zero =>
    intro pc k b h
    cases h
    refine ⟨fun p => rfl, rfl, (onStack_setFrames k _).shrinks (fun p hm => ?_) (List.Subset.refl _)
      (List.Subset.refl _) (List.Subset.refl _)⟩
    rcases List.mem_cons.mp hm with e | hm
    · cases e
    · exact List.mem_of_mem_tail hm
  | succ n ih =>
    intro pc k b h
    simp only [schedFor] at h
    split at h
    · cases h
    · next k1 h1 => cases h; exact schedStep_quiet h1
    · next k1 pc1 h1 =>
      obtain ⟨h2, h3, h4⟩ := schedStep_quiet h1
      obtain ⟨h5, h6, h7⟩ := ih h
      exact ⟨fun p => (h5 p).trans (h2 p), h6.trans h3, h4.trans h7⟩

/-! ## The condition -/

def KillOk (k : Kernel Q S) (blocked : Pid → Prop) (pid sig : Nat) : Prop :=
  pid ∈ k.all → (sig = sigKill → ¬ blocked pid) ∧ (sig = sigStop ∨ sig = sigCont → ¬ (k.task pid).Final)

/-- `Lawful`, where `blocked` are the tasks that a wake-up will find. -/
def LawfulAt (k : Kernel Q S) (blocked : Pid → Prop) : Event Q S → Prop
  | .call (.kill pid sig) => k.KillOk blocked pid sig
  | .call (.fault sig) => k.KillOk blocked k.current sig
  | .run b =>
    match k.frames with
    | .waitEvent _ :: _ => b = false → ¬ (k.task k.current).Final
    | .sleep _ :: _ => ¬ (k.task k.current).Final
    | .down s :: _ => k.count s ≤ 0 → ¬ (k.task k.current).Final
    | .exitWith _ :: _ => ¬ blocked k.current
    | .checkSignals :: _ =>
      match defaultAction (k.task k.current).signals.checkPending with
      | .terminate | .core => (k.task k.current).signals.checkPending ≠ 0 → ¬ blocked k.current
      | .stop | .cont => ¬ (k.task k.current).Final
      | _ => True
    | _ => True
  | _ => True

/-- SIGKILL does not find its target blocked, nor does a task exit or is terminated while it
    is blocked; SIGSTOP and SIGCONT do not meet a task that has ended, and none that has ended
    goes to sleep. -/
def Lawful (k : Kernel Q S) (e : Event Q S) : Prop := k.LawfulAt k.Blocked e

/-- The current task puts itself in a queue. -/
theorem orderly_block (hn : ¬ (k.task k.current).Final) (hs : (k'.task k.current).state = .sleeping)
    (ht : ∀ p, p ≠ k.current → (k'.task p).state = (k.task p).state)
    (hb : k'.Blocked p → k.Blocked p ∨ p = k.current) : k.Orderly k' p := by
  have hn' : ¬ (k'.task k.current).Final := by rw [Task.Final, hs]; nofun
  by_cases e : p = k.current
  · subst e
    exact ⟨fun _ => Or.inr hn', fun _ h => (hn h).elim, fun h => (hn' h).elim⟩
  · have hf := final_congr (ht p e)
    exact ⟨fun h => Or.inl ((hb h).resolve_right e), fun _ => hf.mpr, fun h => Or.inl (hf.mp h)⟩

theorem orderly_modify (hs : k.Shrinks k') (f : Task → Task) {u : Pid} (ht : ∀ p, k'.task p = (k.modify u f).task p)
    (hk : (k.task u).Final → (f (k.task u)).Final) (he : (f (k.task u)).Final → (k.task u).Final ∨ ¬ k.Blocked u) :
    k.Orderly k' p := by
  have hp := (ht p).trans (modify_task ..)
  split at hp
  · next e => subst e; exact hs.orderly (by rw [hp]; exact hk) (by rw [hp]; exact he)
  · exact hs.orderly_of_state (by rw [hp])

theorem orderly_kill (hs : k.Shrinks k') {pid sig : Nat} (hok : k.KillOk k.Blocked pid sig)
    (ht : ∀ p, k'.task p = (k.doKill pid sig).2.task p) : k.Orderly k' p := by
  rcases doKill_eq k pid sig with e | ⟨hm, -, e⟩
  · exact hs.orderly_of_state (by rw [ht, e])
  · obtain ⟨h1, h2⟩ := hok hm
    refine orderly_modify hs (killed sig) (fun p => by rw [ht, e]) (fun hf => ?_) fun hf => ?_
    · unfold Task.Final
      rw [killed_state]
      split
      · exact Or.inl rfl
      · split
        · next e => exact (h2 (Or.inl e) hf).elim
        · split
          · next e => exact (h2 (Or.inr e) hf).elim
          · exact hf
    · unfold Task.Final at hf
      rw [killed_state] at hf
      split at hf
      · next e => exact Or.inr (h1 e)
      · split at hf
        · rcases hf with hf | hf <;> cases hf
        · split at hf
          · rcases hf with hf | hf <;> cases hf
          · exact Or.inl hf

theorem Quiet.resume [DecidableEq S] (hq : k.Quiet) {f : Frame Q S} {fs : List (Frame Q S)} {b : Bool}
    (hf : k.frames = f :: fs) (hok : k.Lawful (.run b)) (h : k.resume b fs f = some k') (p : Pid) : k.Orderly k' p := by
  simp only [Lawful, LawfulAt, hf] at hok
  have hfs : ∀ p, .rouse p ∈ fs → .rouse p ∈ k.frames := fun p hm => by rw [hf]; exact List.mem_cons_of_mem _ hm
  -- every frame but `schedule()` goes on in place, and none takes a task in hand
  have hst : (∀ pc, f ≠ .schedule pc) → ∀ u p, .rouse p ∈ k'.stack u → ∃ v, .rouse p ∈ k.stack v := by
    intro hne u p hm
    obtain ⟨g, hg, ho⟩ := resume_onStack hne h
    rw [ho.stack, Function.update_apply] at hm
    split at hm
    · refine ⟨k.running, (List.mem_append.mp hm).elim (fun hu => ?_) (hfs p)⟩
      have := hg.subset hu
      cases f <;> simp [next] at this
    · exact ⟨u, hm⟩
  have hsh : (∀ pc, f ≠ .schedule pc) → k'.waitq = k.waitq → k'.sleepq = k.sleepq → k'.semq = k.semq →
      k.Shrinks k' := fun hne hw hsl hse =>
    ⟨by rw [hw]; exact List.Subset.refl _, by rw [hsl]; exact List.Subset.refl _,
      by rw [hse]; exact List.Subset.refl _, hst hne⟩
  cases f with
  | schedule pc =>
    obtain ⟨⟨r, k1⟩, hr, rfl⟩ := Option.map_eq_some_iff.mp h
    obtain ⟨h1, -, h2⟩ := schedFor_quiet 6 hr
    exact h2.orderly_of_state (h1 p)
  | waitEvent q =>
    simp only [Kernel.resume] at h
    split at h
    · cases h
      exact (hsh (fun _ e => by cases e) rfl rfl rfl).orderly_of_state rfl
    · next hb =>
      obtain ⟨k1, h1, rfl⟩ := Option.map_eq_some_iff.mp h
      obtain ⟨rfl, -⟩ := upgrade_eq h1
      refine orderly_block (hok (by simpa using hb)) ?_ (fun p hp => ?_) ?_
      · show (((k.cloneArc k.current).setState k.current .sleeping).task k.current).state = _
        rw [setState_task, if_pos rfl]
      · show (((k.cloneArc k.current).setState k.current .sleeping).task p).state = _
        rw [setState_task, if_neg hp, cloneArc, modify_task, if_neg hp]
      · rintro (hw | hs | hm | ⟨u, hu⟩)
        · have hw : p ∈ (k.waitq ++ [(q, k.current)]).map Prod.snd := hw
          rw [List.map_append, List.mem_append] at hw
          exact hw.imp Or.inl List.mem_singleton.mp
        · exact Or.inl (Or.inr (Or.inl hs))
        · exact Or.inl (Or.inr (Or.inr (Or.inl hm)))
        · exact Or.inl (Or.inr (Or.inr (Or.inr (hst (fun _ e => by cases e) u p hu))))
  | waitTest q =>
    simp only [Kernel.resume] at h
    split at h <;> cases h <;> exact (hsh (fun _ e => by cases e) rfl rfl rfl).orderly_of_state rfl
  | sleep e =>
    obtain ⟨k1, h1, rfl⟩ := Option.map_eq_some_iff.mp h
    obtain ⟨rfl, -⟩ := upgrade_eq h1
    refine orderly_block hok ?_ (fun p hp => ?_) ?_
    · show (((k.cloneArc k.current).setState k.current .sleeping).task k.current).state = _
      rw [setState_task, if_pos rfl]
    · show (((k.cloneArc k.current).setState k.current .sleeping).task p).state = _
      rw [setState_task, if_neg hp, cloneArc, modify_task, if_neg hp]
    · rintro (hw | hs | hm | ⟨u, hu⟩)
      · exact Or.inl (Or.inl hw)
      · have hs : p ∈ ((k.sleepq.takeWhile fun x => x.2 ≤ e) ++
            (k.current, e) :: k.sleepq.dropWhile fun x => x.2 ≤ e).map Prod.fst := hs
        rw [List.map_append, List.map_cons, List.mem_append, List.mem_cons] at hs
        rcases hs with hs | rfl | hs
        · exact Or.inl (Or.inr (Or.inl (List.map_subset _ (List.takeWhile_subset _) hs)))
        · exact Or.inr rfl
        · exact Or.inl (Or.inr (Or.inl (List.map_subset _ (List.dropWhile_suffix _).subset hs)))
      · exact Or.inl (Or.inr (Or.inr (Or.inl hm)))
      · exact Or.inl (Or.inr (Or.inr (Or.inr (hst (fun _ e => by cases e) u p hu))))
  | down s =>
    simp only [Kernel.resume] at h
    split at h
    · cases h
    · next hd =>
      obtain ⟨-, -, rfl⟩ := downSection_true hd
      cases h
      exact (hsh (fun _ e => by cases e) rfl rfl rfl).orderly_of_state rfl
    · next hd =>
      obtain ⟨-, -, hc, task, rfl, hr⟩ := downSection_false hd
      cases h
      refine orderly_block (hok hc) ?_ (fun p hp => ?_) ?_
      · obtain ⟨a, b, e⟩ := hr k.current
        show (task k.current).state = _
        rw [e]
        exact if_pos rfl
      · obtain ⟨a, b, e⟩ := hr p
        show (task p).state = _
        rw [e]
        exact if_neg hp
      · rintro (hw | hs | hm | ⟨u, hu⟩)
        · exact Or.inl (Or.inl hw)
        · exact Or.inl (Or.inr (Or.inl hs))
        · have hm : p ∈ (k.semq ++ [(s, k.current)]).map Prod.snd := hm
          rw [List.map_append, List.mem_append] at hm
          exact hm.imp (fun h => Or.inr (Or.inr (Or.inl h))) List.mem_singleton.mp
        · exact Or.inl (Or.inr (Or.inr (Or.inr (hst (fun _ e => by cases e) u p hu))))
  | rouse t =>
    have ht : ¬ (k.task t).Final := fun hfin =>
      hq t hfin (Or.inr (Or.inr (Or.inr ⟨k.running, by rw [show k.stack k.running = _ from hf]; exact List.mem_cons_self⟩)))
    cases h
    have hs := hsh (fun _ e => by cases e) rfl rfl rfl
    refine orderly_modify hs (fun t => { t with state := .running }) (fun p => rfl) (fun h => (ht h).elim) fun h => ?_
    rcases h with h | h <;> cases h
  | add t =>
    cases h
    refine (hsh (fun _ e => by cases e) rfl rfl rfl).orderly_of_state ?_
    show ((k.cloneArc t).task p).state = _
    rw [cloneArc, modify_task]
    split <;> rfl
  | exitWith code =>
    rw [resume_exitWith] at h
    cases h
    exact orderly_modify (hsh (fun _ e => by cases e) rfl rfl rfl) (exited code) (fun p => rfl) (fun _ => Or.inr rfl) fun _ => Or.inr hok
  | exitNotify =>
    simp only [Kernel.resume] at h
    cases h
    obtain ⟨task, hd⟩ := doKill_fields k (k.task k.current).ppid sigChld
    have hok : k.KillOk k.Blocked (k.task k.current).ppid sigChld :=
      fun _ => ⟨fun e => absurd e (by decide), fun e => absurd e (by decide)⟩
    by_cases h0 : (k.task k.current).ppid ≠ 0
    · rw [if_pos h0] at hsh ⊢
      refine orderly_kill (hsh (fun _ e => by cases e) ?_ ?_ ?_) hok fun p => rfl <;> rw [hd] <;> rfl
    · rw [if_neg h0] at hsh ⊢
      exact (hsh (fun _ e => by cases e) rfl rfl rfl).orderly_of_state rfl
  | wait4 pid =>
    simp only [Kernel.resume] at h
    split at h
    · next u k1 hz =>
      obtain ⟨rfl, -, hmt, -⟩ := findZombieChild_some hz
      cases h
      have ht : ((k.purge.modify u reaped).task p).state = if p = u then .dead else (k.task p).state := by
        rw [modify_task, purge_eq]
        split <;> rfl
      rw [purge_eq] at hsh ht ⊢
      have hs := hsh (fun _ e => by cases e) rfl rfl rfl
      split at ht
      · next e =>
        subst e
        exact hs.orderly (fun _ => Or.inl ht) fun _ => Or.inl (Or.inr hmt.2.1)
      · exact hs.orderly_of_state ht
    · next k1 hz =>
      obtain ⟨rfl, -⟩ := findZombieChild_none hz
      cases h
      rw [purge_eq] at hsh ⊢
      exact (hsh (fun _ e => by cases e) rfl rfl rfl).orderly_of_state rfl
  | waitAlive =>
    simp only [Kernel.resume] at h
    split at h <;> cases h <;> exact (hsh (fun _ e => by cases e) rfl rfl rfl).orderly_of_state rfl
  | checkSignals =>
    have hc : ∀ fs, k.Shrinks ((k.modify k.current fun t => (checked t).2).setFrames fs) →
        k.Orderly ((k.modify k.current fun t => (checked t).2).setFrames fs) p := fun fs hs => by
      refine orderly_modify hs (fun t => (checked t).2) (fun p => rfl) (fun hfin => ?_) fun hfin => ?_
      · rcases checked_cases (k.task k.current) with ⟨-, e⟩ | ⟨-, -, e⟩ | ⟨-, ha, -⟩
        · exact (final_congr e).mpr hfin
        · exact Or.inl e
        · rcases ha with ha | ha <;> rw [ha] at hok <;> exact (hok hfin).elim
      · rcases checked_cases (k.task k.current) with ⟨-, e⟩ | ⟨h0, ha, -⟩ | ⟨-, -, e⟩
        · exact Or.inl ((final_congr e).mp hfin)
        · rcases ha with ha | ha <;> rw [ha] at hok <;> exact Or.inr (hok h0)
        · rcases hfin with hfin | hfin <;> rw [hfin] at e <;> rcases e with e | e <;> cases e
    simp only [Kernel.resume, doCheckSignals_eq] at h
    split at h
    · next hk =>
      obtain rfl := congrArg Prod.snd hk
      cases h
      exact hc _ (hsh (fun _ e => by cases e) rfl rfl rfl)
    · next hk =>
      obtain rfl := congrArg Prod.snd hk
      cases h
      exact hc _ (hsh (fun _ e => by cases e) rfl rfl rfl)
  | checkDead =>
    simp only [Kernel.resume] at h
    split at h <;> cases h <;> exact (hsh (fun _ e => by cases e) rfl rfl rfl).orderly_of_state rfl
  | checkSchedule =>
    simp only [Kernel.resume] at h
    split at h <;> cases h <;> exact (hsh (fun _ e => by cases e) rfl rfl rfl).orderly_of_state rfl

/-- Blocked tasks are woken; they had not ended. -/
theorem Quiet.wake (hq : k.Quiet) (hs : k.Shrinks k') {l : List Pid} (hl : ∀ p ∈ l, k.Blocked p)
    (ht : ∀ p, (k'.task p).state = if p ∈ l then .running else (k.task p).state) : k.Orderly k' p := by
  have hp := ht p
  split at hp
  · next hm =>
    refine hs.orderly (fun hf => (hq p hf (hl p hm)).elim) fun hf => ?_
    rcases hf with hf | hf <;> cases hp.symm.trans hf
  · exact hs.orderly_of_state hp

theorem wakeUp_state [DecidableEq Q] (k : Kernel Q S) (q : Q) (p : Pid) :
    ((k.wakeUp q).task p).state = if p ∈ k.waiters q then .running else (k.task p).state := by
  rw [wakeUp_eq]
  show (if p ∈ k.waiters q then _ else _ : Task).state = _
  split <;> rfl

theorem checkSleepers_state (k : Kernel Q S) (p : Pid) :
    (k.checkSleepers.task p).state = if p ∈ k.sleepers then .running else (k.task p).state := by
  rw [checkSleepers_eq]
  show (if p ∈ k.sleepers then _ else _ : Task).state = _
  split <;> rfl

theorem waiters_blocked [DecidableEq Q] {q : Q} (h : p ∈ k.waiters q) : k.Blocked p :=
  Or.inl (List.map_subset _ (List.filter_subset_self _) h)

theorem sleepers_blocked (h : p ∈ k.sleepers) : k.Blocked p :=
  Or.inr (Or.inl (List.map_subset _ (List.takeWhile_subset _) h))

theorem tty_state (k : Kernel Q S) (pid : Pid) (sig : Nat) (p : Pid) :
    ((k.tty pid sig).task p).state = (k.task p).state := by
  unfold tty
  split
  · rw [Kernel.send, modify_task]
    split <;> rfl
  · rfl

/-- An interrupt wakes or leaves the state alone. -/
theorem interrupt_state [DecidableEq Q] (k : Kernel Q S) (i : Irq Q) (p : Pid) :
    ((k.interrupt i).task p).state = .running ∨ ((k.interrupt i).task p).state = (k.task p).state := by
  cases i with
  | timer expired =>
    have h := checkSleepers_state { k with tick := k.tick + 1 } p
    split at h
    · exact Or.inl h
    · exact Or.inr h
  | wake q =>
    have h := wakeUp_state k q p
    split at h
    · exact Or.inl h
    · exact Or.inr h
  | ctrlC pid => exact Or.inr (tty_state k pid sigInt p)
  | ctrlZ pid => exact Or.inr (tty_state k pid sigStop p)

theorem Quiet.interrupt [DecidableEq Q] (hq : k.Quiet) (i : Irq Q) (p : Pid) : k.Orderly (k.interrupt i) p := by
  have hfs : ∀ p, .rouse p ∈ (.checkSignals :: .checkSchedule :: k.frames : List (Frame Q S)) →
      .rouse p ∈ k.frames := fun p hm => by
    rcases List.mem_cons.mp hm with e | hm
    · cases e
    · rcases List.mem_cons.mp hm with e | hm
      · cases e
      · exact hm
  have hsh := (interrupt_onStack k i).shrinks hfs
  cases i with
  | timer expired =>
    have hk : Kernel.Shrinks k (k.interrupt (.timer expired)) := by
      refine hsh ?_ ?_ ?_ <;> simp only [Kernel.interrupt, checkSleepers_eq]
      · exact List.Subset.refl _
      · exact (List.dropWhile_suffix _).subset
      · exact List.Subset.refl _
    have hsl : ∀ p ∈ { k with tick := k.tick + 1 }.sleepers, k.Blocked p := fun p hm =>
      sleepers_blocked (k := { k with tick := k.tick + 1 }) hm
    exact hq.wake hk hsl fun p => checkSleepers_state { k with tick := k.tick + 1 } p
  | wake q =>
    have hk : Kernel.Shrinks k (k.interrupt (.wake q)) := by
      refine hsh ?_ ?_ ?_ <;> simp only [Kernel.interrupt, wakeUp_eq]
      · exact List.filter_subset_self _
      · exact List.Subset.refl _
      · exact List.Subset.refl _
    exact hq.wake hk (fun p hm => waiters_blocked hm) fun p => wakeUp_state k q p
  | ctrlC pid =>
    refine Shrinks.orderly_of_state (hsh ?_ ?_ ?_) (tty_state k pid sigInt p) <;>
      obtain ⟨task, ht⟩ := tty_fields k pid sigInt <;> simp only [Kernel.interrupt, ht] <;> exact List.Subset.refl _
  | ctrlZ pid =>
    refine Shrinks.orderly_of_state (hsh ?_ ?_ ?_) (tty_state k pid sigStop p) <;>
      obtain ⟨task, ht⟩ := tty_fields k pid sigStop <;> simp only [Kernel.interrupt, ht] <;> exact List.Subset.refl _

theorem create_orderly (k : Kernel Q S) {t : Task} (ht : t.state = .running) (p : Pid) : k.Orderly (k.create t) p := by
  have hs : k.Shrinks (k.create t) := by
    refine ⟨List.Subset.refl _, List.Subset.refl _, List.Subset.refl _, fun u p hm => ?_⟩
    have hm : .rouse p ∈ Function.update k.stack k.nextPid [] u := hm
    rw [Function.update_apply] at hm
    split at hm
    · cases hm
    · exact ⟨u, hm⟩
  have hp := create_task k t p
  split at hp
  · next e =>
    have hn : ¬ ((k.create t).task p).Final := by
      rw [hp, Task.Final]
      show ¬ (t.state = .dead ∨ t.state = .zombie)
      rw [ht]
      nofun
    exact ⟨fun _ => Or.inr hn, fun h => (Nat.lt_irrefl _ (e ▸ h)).elim, fun h => (hn h).elim⟩
  · exact hs.orderly_of_state (by rw [hp])

theorem Quiet.enter [DecidableEq Q] [DecidableEq S] (hq : k.Quiet) {c : Call Q S}
    (hok : k.Lawful (.call c)) (p : Pid) : k.Orderly (k.enter c) p := by
  have hkeep : ∀ fs, (∀ p, .rouse p ∉ fs) → k.Orderly (k.setFrames fs) p := fun fs hfs =>
    Shrinks.orderly_of_state ((onStack_setFrames k fs).shrinks (fun p hm => (hfs p hm).elim) (List.Subset.refl _)
      (List.Subset.refl _) (List.Subset.refl _)) rfl
  have hself : k.Shrinks k := ⟨List.Subset.refl _, List.Subset.refl _, List.Subset.refl _, fun u p h => ⟨u, h⟩⟩
  have hrefl : k.Orderly k p := hself.orderly_of_state rfl
  cases c with
  | wakeUp q =>
    have hk : k.Shrinks (k.wakeUp q) := by
      rw [wakeUp_eq]
      exact ⟨List.filter_subset_self _, List.Subset.refl _, List.Subset.refl _, fun u p h => ⟨u, h⟩⟩
    exact hq.wake hk (fun p hm => waiters_blocked hm) fun p => wakeUp_state k q p
  | sleep ms =>
    simp only [Kernel.enter]
    split
    · exact hrefl
    · exact hkeep _ (by simp)
  | schedYield => exact Shrinks.orderly_of_state ⟨List.Subset.refl _, List.Subset.refl _, List.Subset.refl _, fun u p h => ⟨u, h⟩⟩ rfl
  | tryDown s =>
    simp only [Kernel.enter, tryDown]
    split
    · exact Shrinks.orderly_of_state ⟨List.Subset.refl _, List.Subset.refl _, List.Subset.refl _, fun u p h => ⟨u, h⟩⟩ rfl
    · exact hrefl
  | up s =>
    obtain ⟨task, ht, hu⟩ := upSection_eq k s
    have hs : ∀ p, (task p).state = (k.task p).state := fun p => by
      obtain ⟨a, b, e⟩ := ht p
      rw [e]
    have hf : ∀ p, (task p).Final ↔ (k.task p).Final := fun p => final_congr (hs p)
    simp only [Kernel.enter, hu]
    cases hfind : k.semq.find? fun e => e.1 = s with
    | none =>
      exact Shrinks.orderly_of_state ⟨List.Subset.refl _, List.Subset.refl _, List.eraseP_subset,
        fun u p h => ⟨u, h⟩⟩ (hs p)
    | some e =>
      refine ⟨?_, fun _ => (hf p).mpr, fun h => Or.inl ((hf p).mp h)⟩
      rintro (hw | hsl | hm | ⟨u, hr⟩)
      · exact Or.inl (Or.inl hw)
      · exact Or.inl (Or.inr (Or.inl hsl))
      · exact Or.inl (Or.inr (Or.inr (Or.inl (List.map_subset _ List.eraseP_subset hm))))
      · have hr : .rouse p ∈ Function.update k.stack k.running [.rouse e.2] u := hr
        rw [Function.update_apply] at hr
        split at hr
        · have hp : p = e.2 := by simpa using hr
          exact Or.inl (Or.inr (Or.inr (Or.inl (hp ▸ List.mem_map_of_mem (List.mem_of_find?_eq_some hfind)))))
        · exact Or.inl (Or.inr (Or.inr (Or.inr ⟨u, hr⟩)))
  | kill pid sig =>
    refine orderly_kill ?_ hok fun p => rfl
    obtain ⟨task, ht⟩ := doKill_fields k pid sig
    simp only [Kernel.enter, ht]
    exact ⟨List.Subset.refl _, List.Subset.refl _, List.Subset.refl _, fun u p h => ⟨u, h⟩⟩
  | fork =>
    simp only [Kernel.enter, doFork]
    split
    · exact create_orderly k rfl p
    · exact hrefl
  | createKernelThread prio => exact create_orderly k rfl p
  | fault sig =>
    refine orderly_kill ?_ hok fun p => rfl
    obtain ⟨task, ht⟩ := doKill_fields k k.current sig
    simp only [Kernel.enter, ht]
    have ho : OnStack k [.checkDead, .checkSignals]
        (({ k with task := task } : Kernel Q S).setFrames [.checkDead, .checkSignals]) := ⟨rfl, rfl, rfl, rfl, rfl⟩
    exact ho.shrinks (by simp) (List.Subset.refl _) (List.Subset.refl _) (List.Subset.refl _)
  | _ => exact hkeep _ (by simp)

/-! ## Every run -/

theorem Quiet.orderly [DecidableEq Q] [DecidableEq S] (hq : k.Quiet) {e : Event Q S} (he : k.Lawful e)
    (h : step k e = some k') (p : Pid) : k.Orderly k' p := by
  cases e with
  | irq i => cases h; exact hq.interrupt i p
  | irqInside n i =>
    simp only [Kernel.step] at h
    split at h
    · split at h
      · next k1 hs =>
        split at h
        · cases h
        · cases h
          obtain ⟨h1, h2, h3⟩ := schedFor_quiet n hs
          have hq1 : k1.Quiet := hq.of_orderly fun p => h3.orderly_of_state (h1 p)
          have ho := hq1.interrupt i p
          have hf := final_congr (h1 p)
          refine ⟨fun hb => (ho.blocked hb).imp_left h3.blocked, fun hp hfin => ho.keeps (h2.symm ▸ hp) (hf.mpr hfin),
            fun hfin => Or.inl (hf.mp ?_)⟩
          rcases interrupt_state k1 i p with e | e
          · rcases hfin with hfin | hfin <;> cases e.symm.trans hfin
          · exact (final_congr e).mp hfin
      · cases h
    · cases h
  | call c =>
    simp only [Kernel.step] at h
    split at h
    · cases h; exact hq.enter he p
    · cases h
  | run b =>
    simp only [Kernel.step] at h
    split at h
    · cases h
    · next f fs hf => exact hq.resume hf he h p

theorem start_quiet {count : S → Int} {ts : List (Prio × Bool)} (h : start count ts = some k) : k.Quiet := by
  have hc : ∀ (k : Kernel Q S) prio user, (∀ p, ¬ (k.task p).Final) →
      ∀ p, ¬ ((k.create (Task.new 0 prio user)).task p).Final := by
    intro k prio user hk p
    rw [create_task]
    split
    · nofun
    · exact hk p
  have h0 : ∀ p, ¬ ((empty count : Kernel Q S).createIdle.task p).Final := by
    intro p
    have he := hc (empty count : Kernel Q S) 0 false fun _ => nofun
    rw [createIdle, cloneArc, modify_task]
    split
    · exact he _
    · exact he p
  obtain ⟨k1, e, h1, -, rfl⟩ := start_rule h0 hc h
  exact fun p hp => (h1 p hp).elim

theorem quiet_reach [DecidableEq Q] [DecidableEq S] {init : Kernel Q S → Prop} (h0 : ∀ k, init k → k.Quiet)
    (h : Lib.Reach step Lawful init k) : k.Quiet :=
  h.rule h0 fun _ _ _ hq he hs => hq.of_orderly (hq.orderly he hs)

/-! ## How a task ends -/

theorem modify_state (k : Kernel Q S) (u : Pid) (f : Task → Task) (p : Pid) :
    ((k.modify u f).task p).state = (k.task p).state ∨
      p = u ∧ ((k.modify u f).task p).state = (f (k.task u)).state := by
  rw [modify_task]
  split
  · next e => subst e; exact Or.inr ⟨rfl, rfl⟩
  · exact Or.inl rfl

/-- The task keeps its state, or goes on with its life, or ends for the given reason. -/
def Becomes (k k' : Kernel Q S) (p : Pid) (reason : Prop) : Prop :=
  (k'.task p).state = (k.task p).state ∨ ¬ (k'.task p).Final ∨ reason

theorem becomes_of_eq {reason : Prop} (h : (k'.task p).state = (k.task p).state) : k.Becomes k' p reason := Or.inl h

theorem becomes_of_state {reason : Prop} {s : TaskState} (h : (k'.task p).state = s) (hs : s = .running ∨ s = .sleeping) :
    k.Becomes k' p reason :=
  Or.inr (Or.inl fun hf => by
    rcases hs with rfl | rfl <;> rcases hf with hf | hf <;> cases h.symm.trans hf)

theorem doKill_state (k : Kernel Q S) (pid sig : Nat) (p : Pid) :
    k.Becomes (k.doKill pid sig).2 p (p = pid ∧ sig = sigKill ∧ ((k.doKill pid sig).2.task p).state = .dead) := by
  rcases doKill_eq k pid sig with e | ⟨-, -, e⟩
  · exact becomes_of_eq (by rw [e])
  · rcases modify_state k pid (killed sig) p with h | ⟨rfl, h⟩
    · exact becomes_of_eq (by rw [e, h])
    · rw [killed_state, ← e] at h
      split at h
      · next hs => exact Or.inr (Or.inr ⟨rfl, hs, h⟩)
      · split at h
        · exact becomes_of_state h (Or.inr rfl)
        · split at h
          · exact becomes_of_state h (Or.inl rfl)
          · exact becomes_of_eq h

/-- A pending signal terminates the current task. -/
def Terminates (k : Kernel Q S) : Prop :=
  (k.task k.current).signals.checkPending ≠ 0 ∧
    (defaultAction (k.task k.current).signals.checkPending = .terminate ∨
      defaultAction (k.task k.current).signals.checkPending = .core)

/-- How a frame that goes on ends a task: `do_exit_with`, a signal, and the parent's
    `do_wait4`, which takes a ZOMBIE for DEAD. -/
def Ends (k k' : Kernel Q S) (f : Frame Q S) (p : Pid) : Prop :=
  (p = k.current ∧ (∃ code, f = .exitWith code) ∧ (k'.task p).state = .zombie) ∨
    (p = k.current ∧ f = .checkSignals ∧ k.Terminates ∧ (k'.task p).state = .dead) ∨
      (∃ t, f = .wait4 t) ∧ (k'.task p).state = .dead ∧ (k'.task p).arcSelf = false

theorem resume_state [DecidableEq S] {f : Frame Q S} {fs : List (Frame Q S)} {b : Bool}
    (h : k.resume b fs f = some k') (p : Pid) : k.Becomes k' p (k.Ends k' f p) := by
  -- the current task goes to sleep
  have hblock : ∀ {k' : Kernel Q S}, k'.task = ((k.cloneArc k.current).setState k.current .sleeping).task →
      k.Becomes k' p (k.Ends k' f p) := fun {k'} ht => by
    rcases modify_state (k.cloneArc k.current) k.current (fun t => { t with state := .sleeping }) p with e | ⟨-, e⟩
    · refine becomes_of_eq ?_
      rw [ht]
      refine e.trans ?_
      rw [cloneArc, modify_task]
      split <;> rfl
    · exact becomes_of_state (by rw [ht]; exact e) (Or.inr rfl)
  cases f with
  | schedule pc =>
    obtain ⟨⟨r, k1⟩, hr, rfl⟩ := Option.map_eq_some_iff.mp h
    exact becomes_of_eq ((schedFor_quiet 6 hr).1 p)
  | waitEvent q =>
    simp only [Kernel.resume] at h
    split at h
    · cases h; exact becomes_of_eq rfl
    · obtain ⟨k1, h1, rfl⟩ := Option.map_eq_some_iff.mp h
      obtain ⟨rfl, -⟩ := upgrade_eq h1
      exact hblock rfl
  | waitTest q =>
    simp only [Kernel.resume] at h
    split at h <;> cases h <;> exact becomes_of_eq rfl
  | sleep e =>
    obtain ⟨k1, h1, rfl⟩ := Option.map_eq_some_iff.mp h
    obtain ⟨rfl, -⟩ := upgrade_eq h1
    exact hblock rfl
  | down s =>
    simp only [Kernel.resume] at h
    split at h
    · cases h
    · next hd =>
      obtain ⟨-, -, rfl⟩ := downSection_true hd
      cases h
      exact becomes_of_eq rfl
    · next hd =>
      obtain ⟨-, -, -, task, rfl, hr⟩ := downSection_false hd
      cases h
      obtain ⟨a, b, e⟩ := hr p
      by_cases hp : p = k.current
      · refine becomes_of_state (s := .sleeping) ?_ (Or.inr rfl)
        show (task p).state = _
        rw [e]
        exact if_pos hp
      · refine becomes_of_eq ?_
        show (task p).state = _
        rw [e]
        exact if_neg hp
  | rouse t =>
    cases h
    rcases modify_state k t (fun t => { t with state := .running }) p with e | ⟨-, e⟩
    · exact becomes_of_eq e
    · exact becomes_of_state e (Or.inl rfl)
  | add t =>
    cases h
    refine becomes_of_eq ?_
    show ((k.cloneArc t).task p).state = _
    rw [cloneArc, modify_task]
    split <;> rfl
  | exitWith code =>
    rw [resume_exitWith] at h
    cases h
    rcases modify_state k k.current (exited code) p with e | ⟨hp, e⟩
    · exact becomes_of_eq e
    · exact Or.inr (Or.inr (Or.inl ⟨hp, ⟨code, rfl⟩, e⟩))
  | exitNotify =>
    simp only [Kernel.resume] at h
    cases h
    split
    · rcases doKill_state k (k.task k.current).ppid sigChld p with e | e | ⟨-, e, -⟩
      · exact becomes_of_eq e
      · exact Or.inr (Or.inl e)
      · cases e
    · exact becomes_of_eq rfl
  | wait4 t =>
    have hp : ∀ u, (k.purge.task u).state = (k.task u).state := fun u => by rw [purge_eq]
    simp only [Kernel.resume] at h
    split at h
    · next u k1 hf =>
      obtain ⟨rfl, -⟩ := findZombieChild_some hf
      cases h
      by_cases e : p = u
      · have ht : (k.purge.modify u reaped).task p = reaped (k.purge.task p) := by rw [modify_task, if_pos e]
        exact Or.inr (Or.inr (Or.inr (Or.inr ⟨⟨t, rfl⟩, congrArg Task.state ht, congrArg Task.arcSelf ht⟩)))
      · have ht : (k.purge.modify u reaped).task p = k.purge.task p := by rw [modify_task, if_neg e]
        exact becomes_of_eq ((congrArg Task.state ht).trans (hp p))
    · next k1 hf =>
      obtain ⟨rfl, -⟩ := findZombieChild_none hf
      cases h
      exact becomes_of_eq (hp p)
  | waitAlive =>
    simp only [Kernel.resume] at h
    split at h <;> cases h <;> exact becomes_of_eq rfl
  | checkSignals =>
    have hc : ∀ k', k'.task = (k.modify k.current fun t => (checked t).2).task → k.Becomes k' p (k.Ends k' .checkSignals p) := by
      intro k' ht
      rcases modify_state k k.current (fun t => (checked t).2) p with e | ⟨hp, e⟩ <;> rw [← ht] at e
      · exact becomes_of_eq e
      · rcases checked_cases (k.task k.current) with ⟨-, hc⟩ | ⟨h0, ha, hc⟩ | ⟨-, -, hc⟩
        · exact becomes_of_eq (by rw [e, hc, hp])
        · exact Or.inr (Or.inr (Or.inr (Or.inl ⟨hp, rfl, ⟨h0, ha⟩, e.trans hc⟩)))
        · exact becomes_of_state e hc.symm
    simp only [Kernel.resume, doCheckSignals_eq] at h
    split at h
    · next hk =>
      obtain rfl := congrArg Prod.snd hk
      cases h
      exact hc _ rfl
    · next hk =>
      obtain rfl := congrArg Prod.snd hk
      cases h
      exact hc _ rfl
  | checkDead =>
    simp only [Kernel.resume] at h
    split at h <;> cases h <;> exact becomes_of_eq rfl
  | checkSchedule =>
    simp only [Kernel.resume] at h
    split at h <;> cases h <;> exact becomes_of_eq rfl

/-- A call ends a task by SIGKILL only. -/
theorem enter_state [DecidableEq Q] [DecidableEq S] (k : Kernel Q S) (c : Call Q S) (p : Pid) :
    k.Becomes (k.enter c) p (((k.enter c).task p).state = .dead ∧
      (c = .kill p sigKill ∨ p = k.current ∧ c = .fault sigKill)) := by
  have hcreate : ∀ t : Task, t.state = .running → k.Becomes (k.create t) p (((k.create t).task p).state = .dead ∧
      (c = .kill p sigKill ∨ p = k.current ∧ c = .fault sigKill)) := fun t ht => by
    by_cases e : p = k.nextPid
    · exact becomes_of_state (by rw [create_task, if_pos e]; exact ht) (Or.inl rfl)
    · exact becomes_of_eq (by rw [create_task, if_neg e])
  cases c with
  | wakeUp q =>
    have e := wakeUp_state k q p
    split at e
    · exact becomes_of_state e (Or.inl rfl)
    · exact becomes_of_eq e
  | sleep ms =>
    simp only [Kernel.enter]
    split <;> exact becomes_of_eq rfl
  | tryDown s =>
    simp only [Kernel.enter, tryDown]
    split <;> exact becomes_of_eq rfl
  | up s =>
    obtain ⟨task, ht, hu⟩ := upSection_eq k s
    obtain ⟨a, b, e⟩ := ht p
    have hs : (task p).state = (k.task p).state := by rw [e]
    simp only [Kernel.enter, hu]
    cases k.semq.find? fun e => e.1 = s <;> exact becomes_of_eq hs
  | kill pid sig =>
    rcases doKill_state k pid sig p with e | e | ⟨rfl, rfl, e⟩
    · exact becomes_of_eq e
    · exact Or.inr (Or.inl e)
    · exact Or.inr (Or.inr ⟨e, Or.inl rfl⟩)
  | fork =>
    simp only [Kernel.enter, doFork]
    split
    · exact hcreate _ rfl
    · exact becomes_of_eq rfl
  | createKernelThread prio => exact hcreate _ rfl
  | fault sig =>
    rcases doKill_state k k.current sig p with e | e | ⟨hp, rfl, e⟩
    · exact becomes_of_eq e
    · exact Or.inr (Or.inl e)
    · exact Or.inr (Or.inr ⟨e, Or.inr ⟨hp, rfl⟩⟩)
  | _ => exact becomes_of_eq rfl

theorem interrupt_zombie [DecidableEq Q] {i : Irq Q} (hz : ((k.interrupt i).task p).state = .zombie) :
    (k.task p).state = .zombie := by
  rcases interrupt_state k i p with e | e
  · cases e.symm.trans hz
  · exact e.symm.trans hz

theorem Becomes.zombie {reason : Prop} (h : k.Becomes k' p reason) (hz : (k'.task p).state = .zombie) :
    (k.task p).state = .zombie ∨ reason := by
  rcases h with h | h | h
  · exact Or.inl (h.symm.trans hz)
  · exact (h (Or.inr hz)).elim
  · exact Or.inr h

theorem enter_zombie [DecidableEq Q] [DecidableEq S] {c : Call Q S} (hz : ((k.enter c).task p).state = .zombie) :
    (k.task p).state = .zombie :=
  ((enter_state k c p).zombie hz).resolve_right fun ⟨h, _⟩ => by cases h.symm.trans hz

/-- A task becomes ZOMBIE in its own `do_exit_with`, whatever it was. -/
theorem step_zombie [DecidableEq Q] [DecidableEq S] {e : Event Q S} (h : step k e = some k')
    (hz : (k'.task p).state = .zombie) : (k.task p).state = .zombie ∨
      p = k.current ∧ ∃ code fs b, k.frames = .exitWith code :: fs ∧ e = .run b := by
  cases e with
  | irq i => cases h; exact Or.inl (interrupt_zombie hz)
  | irqInside n i =>
    simp only [Kernel.step] at h
    split at h
    · split at h
      · next k1 hs =>
        split at h
        · cases h
        · cases h
          exact Or.inl (((schedFor_quiet n hs).1 p).symm.trans (interrupt_zombie hz))
      · cases h
    · cases h
  | call c =>
    simp only [Kernel.step] at h
    split at h
    · cases h; exact Or.inl (enter_zombie hz)
    · cases h
  | run b =>
    simp only [Kernel.step] at h
    split at h
    · cases h
    · next f fs hf =>
      refine ((resume_state h p).zombie hz).imp_right fun hends => ?_
      rcases hends with ⟨hp, ⟨code, rfl⟩, -⟩ | ⟨-, -, -, hd⟩ | ⟨-, hd, -⟩
      · exact ⟨hp, code, fs, b, hf, rfl⟩
      · cases hd.symm.trans hz
      · cases hd.symm.trans hz

theorem step_nextPid [DecidableEq Q] [DecidableEq S] {e : Event Q S} (h : step k e = some k') :
    k.nextPid ≤ k'.nextPid := by
  cases e with
  | irq i => cases h; exact (interrupt_onStack k i).nextPid.ge
  | irqInside n i =>
    simp only [Kernel.step] at h
    split at h
    · split at h
      · next k1 hs =>
        split at h
        · cases h
        · cases h
          exact ((interrupt_onStack k1 i).nextPid.trans (schedFor_quiet n hs).2.1).ge
      · cases h
    · cases h
  | call c =>
    simp only [Kernel.step] at h
    split at h
    · next h0 =>
      cases h
      rcases enter_onStack h0 c with (h | h) | ⟨t, h, -⟩
      · exact h.nextPid.ge
      · exact h.nextPid.ge
      · rw [h]; exact Nat.le_succ _
    · cases h
  | run b =>
    simp only [Kernel.step] at h
    split at h
    · cases h
    · next f fs hf =>
      by_cases hsch : ∃ pc, f = .schedule pc
      · obtain ⟨pc, rfl⟩ := hsch
        obtain ⟨⟨r, k1⟩, hr, rfl⟩ := Option.map_eq_some_iff.mp h
        exact (schedFor_quiet 6 hr).2.1.ge
      · obtain ⟨g, -, ho⟩ := resume_onStack (fun pc e => hsch ⟨pc, e⟩) h
        exact ho.nextPid.ge

/-- While the steps are lawful, a task that is ZOMBIE or DEAD stays so; and a DEAD task
    becomes ZOMBIE in its own `do_exit_with` only. -/
theorem final_reach [DecidableEq Q] [DecidableEq S] (h : Lib.Reach step Lawful Boot k) :
    (∀ k', Lib.Reach step Lawful (· = k) k' → ∀ p < k.nextPid, (k.task p).Final → (k'.task p).Final) ∧
      ∀ e k', step k e = some k' → ∀ p, (k.task p).state = .dead → (k'.task p).state = .zombie →
        p = k.current ∧ ∃ code fs b, k.frames = .exitWith code :: fs ∧ e = .run b := by
  have hq : k.Quiet := quiet_reach (fun _ ⟨_, _, hk⟩ => start_quiet hk) h
  refine ⟨fun k' hk' => ?_, fun e k' hs p hd hz => (step_zombie hs hz).resolve_left fun hz => ?_⟩
  · have hrun := hk'.rule (P := fun k' => k'.Quiet ∧ k.nextPid ≤ k'.nextPid ∧
        ∀ p < k.nextPid, (k.task p).Final → (k'.task p).Final)
      (fun k1 e => by subst e; exact ⟨hq, Nat.le_refl _, fun _ _ hf => hf⟩)
      fun k1 e k2 ⟨hq1, hn, hf⟩ he hs => ⟨hq1.of_orderly (hq1.orderly he hs), hn.trans (step_nextPid hs),
        fun p hp hfin => (hq1.orderly he hs p).keeps (Nat.lt_of_lt_of_le hp hn) (hf p hp hfin)⟩
    exact hrun.2.2
  · cases hd.symm.trans hz

instance (k : Kernel Q S) (blocked : Pid → Prop) [DecidablePred blocked] (e : Event Q S) :
    Decidable (k.LawfulAt blocked e) := by
  delta LawfulAt KillOk
  exact match e with
    | .call (.waitEvent _) | .call (.wakeUp _) | .call (.sleep _) | .call .yieldNow | .call .schedYield | .call (.down _)
    | .call (.tryDown _) | .call (.up _) | .call (.kill _ _) | .call (.exit _) | .call (.wait4 _) | .call .fork
    | .call (.createKernelThread _) | .call .checkSignals | .call (.fault _) | .irq _ | .irqInside _ _ =>
      inferInstance
    | .run b => by
      generalize k.frames = gs
      exact match gs with
        | [] | .waitEvent _ :: _ | .waitTest _ :: _ | .sleep _ :: _ | .schedule _ :: _ | .down _ :: _ | .rouse _ :: _
        | .add _ :: _ | .exitWith _ :: _ | .exitNotify :: _ | .wait4 _ :: _ | .waitAlive :: _ | .checkDead :: _
        | .checkSchedule :: _ => inferInstance
        | .checkSignals :: _ => by
          generalize defaultAction (k.task k.current).signals.checkPending = a
          exact match a with
            | .terminate | .ignore | .core | .stop | .cont | .handler => inferInstance

theorem LawfulAt.mono {blocked blocked' : Pid → Prop} (h : ∀ p, blocked' p → blocked p) {e : Event Q S}
    (he : k.LawfulAt blocked e) : k.LawfulAt blocked' e := by
  unfold LawfulAt KillOk at he ⊢
  split <;> simp only at he ⊢
  · exact fun hm => ⟨fun hs hb => (he hm).1 hs (h _ hb), (he hm).2⟩
  · exact fun hm => ⟨fun hs hb => (he hm).1 hs (h _ hb), (he hm).2⟩
  · split <;> simp_all
    · exact fun hb => he (h _ hb)
    · split <;> simp_all
      · exact fun h0 hb => he h0 (h _ hb)
      · exact fun h0 hb => he h0 (h _ hb)

/-- On plain stacks no task is taken in hand. -/
theorem lawful_of_plain (hp : k.Plain) {e : Event Q S} (h : k.LawfulAt (· ∈ k.queued ++ k.semq.map Prod.snd) e) :
    k.Lawful e := by
  refine h.mono fun p hb => ?_
  rw [queued, List.mem_append, List.mem_append]
  rcases hb with hb | hb | hb | ⟨u, hb⟩
  · exact Or.inl (Or.inl hb)
  · exact Or.inl (Or.inr hb)
  · exact Or.inr hb
  · cases hp u _ hb

/-- The first task exits, and the second runs. -/
def exitAndLeave : List (Event Unit Unit) := [.call (.exit 7), .run true, .run true, .run true]

theorem final_exitAndLeave : ∃ k, (twoTasks.bind fun k => Lib.trace step k exitAndLeave) = some k ∧ k.current = 3 ∧
    (k.task 2).state = .zombie ∧ ∀ k', Lib.Reach step Lawful (· = k) k' → (k'.task 2).Final := by
  obtain ⟨k, hk, ht, hd⟩ := Lib.exists_run step
    (fun (k : Kernel Unit Unit) e => k.Undisturbed e ∧ k.LawfulAt (· ∈ k.queued ++ k.semq.map Prod.snd) e) exitAndLeave
    (fun k : Kernel Unit Unit => decide (k.current = 3 ∧ (k.task 2).state = .zombie ∧ 2 < k.nextPid)) twoTasks_boot
    (by decide) (by decide)
  have hlaw : k.Settled ∧ Lib.Reach step Lawful Boot k :=
    hk.rule (P := fun k => k.Settled ∧ Lib.Reach step Lawful Boot k)
      (fun k h => ⟨let ⟨_, _, hb⟩ := h; start_settled hb, .init h⟩) fun k1 e k2 ⟨hs, hr⟩ ⟨he, hl⟩ h =>
        ⟨hs.step he h, hr.step (lawful_of_plain hs.plain hl) h⟩
  obtain ⟨hc, hz, hn⟩ := of_decide_eq_true hd
  exact ⟨k, ht, hc, hz, fun k' hk' => (final_reach hlaw.2).1 k' hk' 2 hn (Or.inr hz)⟩

/-- The first task waits, and the second kills it. -/
def killSleeper : List (Event Unit Unit) :=
  [.call (.waitEvent ()), .run false, .run true, .run true, .call (.kill 2 sigKill)]

theorem killed_sleeper_wakes : ¬ ∀ k : Kernel Unit Unit, Lib.Reach step (fun _ _ => True) Boot k →
    (∀ k', Lib.Reach step (fun _ _ => True) (· = k) k' → ∀ p < k.nextPid, (k.task p).Final → (k'.task p).Final) ∧
      ∀ e k', step k e = some k' → ∀ p, (k.task p).state = .dead → (k'.task p).state = .zombie →
        p = k.current ∧ ∃ code fs b, k.frames = .exitWith code :: fs ∧ e = .run b := by
  intro h
  obtain ⟨k, hk, -, hd⟩ := Lib.exists_run step (fun _ _ => True) killSleeper
    (fun k : Kernel Unit Unit => decide ((k.task 2).state = .dead) && decide (2 < k.nextPid) &&
      (step k (.call (.wakeUp ()))).any fun k' : Kernel Unit Unit => decide ((k'.task 2).state = .running))
    twoTasks_boot (by decide) (by decide)
  obtain ⟨hd, he⟩ := Bool.and_eq_true_iff.mp hd
  obtain ⟨hd, hn⟩ := Bool.and_eq_true_iff.mp hd
  cases hs : step k (.call (.wakeUp ())) with
  | none => rw [hs] at he; cases he
  | some k' =>
    rw [hs] at he
    have hr : (k'.task 2).state = .running := of_decide_eq_true he
    have hfin := (h k hk).1 k' (.step (.init rfl) trivial hs) 2 (of_decide_eq_true hn) (Or.inl (of_decide_eq_true hd))
    rcases hfin with hfin | hfin <;> cases hr.symm.trans hfin

end Kernel

end Myos.Sched
