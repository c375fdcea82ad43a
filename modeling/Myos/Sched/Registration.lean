/-
  Myos.Sched.Registration — who is in ALL_TASKS, and how often.

  Proved: in a run without signals in which no `up` takes a waiter off a semaphore's
  queue, each task is in ALL_TASKS once from its creation until `do_wait4` has reported it,
  and never more than once. `up` makes its waiter ready by `add_task`, which registers it
  again.
-/

import Mathlib
import Myos.Sched.Accesses
import Myos.Sched.Reaping

namespace Myos.Sched

variable {Q S : Type*}

/-- A frame of `up` on its way to make a task ready. -/
def Frame.wakes : Frame Q S → Bool
  | .rouse _ | .add _ => true
  | _ => false

namespace Kernel

variable {k k' : Kernel Q S} {p : Pid}

/-- Each task is registered once at most, and once as long as it was not reaped. -/
def RegisteredOnce (k : Kernel Q S) : Prop :=
  ∀ p, k.all.count p ≤ 1 ∧ (0 < p → p < k.nextPid → p ∉ k.reported → k.all.count p = 1)

/-- No signal is sent but by `do_exit_with`. -/
def Unsignalled : Event Q S → Prop
  | .call (.kill _ _) | .call (.fault _) => False
  | .irq (.ctrlC _) | .irq (.ctrlZ _) | .irqInside _ (.ctrlC _) | .irqInside _ (.ctrlZ _) => False
  | _ => True

/-- And `up` finds nobody in the semaphore's queue. -/
def WakesNobody (k : Kernel Q S) : Event Q S → Prop
  | .call (.up s) => ∀ w ∈ k.semq, w.1 ≠ s
  | e => Unsignalled e

theorem WakesNobody.unsignalled {e : Event Q S} (h : k.WakesNobody e) : Unsignalled e := by
  unfold WakesNobody at h
  split at h
  · trivial
  · exact h

structure Register (k : Kernel Q S) : Prop where
  nodup : k.all.Nodup
  known : ∀ p ∈ k.all, p < k.nextPid
  there : ∀ p, ¬ k.Vacant p → p ∉ k.reported → p ∈ k.all
  dead : ∀ p, (k.task p).state = .dead → p ∈ k.reported
  calm : ∀ p i, (k.task p).signals.pending.getLsbD i = true → i = sigChld
  frames : ∀ u, ∀ f ∈ k.stack u, f.wakes = false

theorem Register.once (h : k.Register) : k.RegisteredOnce := by
  intro p
  refine ⟨List.nodup_iff_count_le_one.mp h.nodup p, fun h0 hp hr => ?_⟩
  exact List.count_eq_one_of_mem h.nodup (h.there p (not_vacant h0 hp) hr)

/-! ## Signals -/

theorem modify_signals (k : Kernel Q S) (u : Pid) (f : Task → Task) (hf : ∀ t, (f t).signals = t.signals) (p : Pid) :
    ((k.modify u f).task p).signals = (k.task p).signals := by
  rw [modify_task]
  split
  · exact hf _
  · rfl

theorem killed_signals (sig : Nat) (t : Task) :
    (killed sig t).signals = t.signals.send sig ∨ (killed sig t).signals = t.signals := by
  unfold killed
  split
  · exact Or.inl rfl
  · split
    · exact Or.inr rfl
    · split
      · exact Or.inr rfl
      · exact Or.inl rfl

/-- A signal left pending by `do_kill` was pending, or is the one sent. -/
theorem doKill_pending (k : Kernel Q S) (pid sig : Nat) (p i : Nat) (h : ((k.doKill pid sig).2.task p).signals.pending.getLsbD i = true) :
    (k.task p).signals.pending.getLsbD i = true ∨ i = sig := by
  rcases doKill_eq k pid sig with e | ⟨-, -, e⟩ <;> rw [e] at h
  · exact Or.inl h
  · rw [modify_task] at h
    split at h
    · rcases killed_signals sig (k.task p) with e | e <;> rw [e] at h
      · exact SignalState.send_pending _ _ _ h
      · exact Or.inl h
    · exact Or.inl h

theorem checked_pending (t : Task) (i : Nat) (h : (checked t).2.signals.pending.getLsbD i = true) :
    t.signals.pending.getLsbD i = true := by
  by_cases h0 : t.signals.checkPending = 0
  · simpa [checked, h0] using h
  · cases ha : defaultAction t.signals.checkPending <;> simp only [checked, h0, ha, if_false] at h
    · simp [SignalState.clearAllPending] at h
    · exact SignalState.clearPending_pending _ _ _ h
    · simp [SignalState.clearAllPending] at h
    · exact SignalState.clearPending_pending _ _ _ h
    · exact SignalState.clearPending_pending _ _ _ h
    · exact SignalState.clearPending_pending _ _ _ h

/-- No signal is left pending that was not, but for `SIGCHLD`. -/
def Mild (k k' : Kernel Q S) : Prop :=
  ∀ p i, (k'.task p).signals.pending.getLsbD i = true → (k.task p).signals.pending.getLsbD i = true ∨ i = sigChld

theorem Mild.of_eq (h : ∀ p, (k'.task p).signals = (k.task p).signals) : k.Mild k' := fun p _ hi => Or.inl (h p ▸ hi)

theorem schedStep_mild {pc : SchedPc} {o : Option SchedPc} (h : k.schedStep pc = some (k', o)) : k.Mild k' := by
  apply Mild.of_eq
  cases pc with
  | enqueue cur => cases h; exact modify_signals k cur (fun t => { t with strong := t.strong + 1 }) fun t => rfl
  | pick cur =>
    obtain ⟨⟨n, k1⟩, hp, h⟩ := Option.map_eq_some_iff.mp h
    obtain ⟨e, -, -, rfl⟩ := popReady_eq hp
    cases h
    exact fun p => rfl
  | drop cur next => cases h; exact modify_signals k cur (fun t => { t with strong := t.strong - 1 }) fun t => rfl
  | _ =>
    cases h
    exact fun p => rfl

theorem resume_mild [DecidableEq S] {f : Frame Q S} {fs : List (Frame Q S)} {b : Bool} (hf : ∀ pc, f ≠ .schedule pc)
    (h : k.resume b fs f = some k') : k.Mild k' := by
  have hself : ∀ gs, k.Mild (k.setFrames gs) := fun gs => Mild.of_eq fun p => rfl
  have hsleep : ∀ p, (((k.cloneArc k.current).setState k.current .sleeping).task p).signals = (k.task p).signals := fun p =>
    (modify_signals (k.cloneArc k.current) k.current (fun t => { t with state := .sleeping }) (fun t => rfl) p).trans
      (modify_signals k k.current (fun t => { t with strong := t.strong + 1 }) (fun t => rfl) p)
  have hcheck : ∀ k1 : Kernel Q S, k1.task = (k.modify k.current fun t => (checked t).2).task → k.Mild k1 := by
    intro k1 ht p i hi
    rw [ht, modify_task] at hi
    split at hi
    · exact Or.inl (checked_pending _ i hi)
    · exact Or.inl hi
  cases f with
  | schedule pc => exact absurd rfl (hf pc)
  | waitEvent q =>
    simp only [resume] at h
    split at h
    · cases h; exact hself _
    · obtain ⟨k1, h1, rfl⟩ := Option.map_eq_some_iff.mp h
      obtain ⟨rfl, -⟩ := upgrade_eq h1
      exact Mild.of_eq hsleep
  | waitTest q =>
    simp only [resume] at h
    split at h <;> cases h <;> exact hself _
  | sleep e =>
    obtain ⟨k1, h1, rfl⟩ := Option.map_eq_some_iff.mp h
    obtain ⟨rfl, -⟩ := upgrade_eq h1
    exact Mild.of_eq hsleep
  | down s =>
    simp only [resume] at h
    split at h
    · cases h
    · next hd =>
      obtain ⟨-, -, rfl⟩ := downSection_true hd
      cases h
      exact Mild.of_eq fun p => rfl
    · next hd =>
      obtain ⟨-, -, -, task, rfl, hr⟩ := downSection_false hd
      cases h
      refine Mild.of_eq fun p => ?_
      obtain ⟨a, b, e⟩ := hr p
      show (task p).signals = _
      rw [e]
  | rouse t => cases h; exact Mild.of_eq (modify_signals k t (fun t => { t with state := .running }) fun t => rfl)
  | add t => cases h; exact Mild.of_eq (modify_signals k t (fun t => { t with strong := t.strong + 1 }) fun t => rfl)
  | exitWith code => cases h; exact Mild.of_eq (modify_signals k k.current (exited code) fun t => rfl)
  | exitNotify =>
    simp only [resume] at h
    cases h
    split
    · exact fun p i => doKill_pending k _ sigChld p i
    · exact hself _
  | wait4 t =>
    rcases resume_wait4 h with ⟨rfl, -⟩ | ⟨u, -, -, rfl, -⟩
    · exact Mild.of_eq fun p => by rw [purge_eq]; rfl
    · refine Mild.of_eq fun p => (modify_signals k.purge u reaped (fun t => rfl) p).trans ?_
      rw [purge_eq]
  | waitAlive =>
    simp only [resume] at h
    split at h <;> cases h <;> exact Mild.of_eq fun p => rfl
  | checkSignals =>
    simp only [resume, doCheckSignals_eq] at h
    split at h
    · next hk =>
      obtain rfl := congrArg Prod.snd hk
      cases h
      exact hcheck _ rfl
    · next hk =>
      obtain rfl := congrArg Prod.snd hk
      cases h
      exact hcheck _ rfl
  | checkDead =>
    simp only [resume] at h
    split at h <;> cases h <;> exact hself _
  | checkSchedule =>
    simp only [resume] at h
    split at h <;> cases h <;> exact Mild.of_eq fun p => rfl

theorem create_mild (k : Kernel Q S) {t : Task} (ht : t.signals = .new) : k.Mild (k.create t) := by
  intro p i hi
  rw [create_task] at hi
  split at hi
  · rw [ht] at hi
    simp [SignalState.new] at hi
  · exact Or.inl hi

/-- A call that sends no signal. -/
theorem enter_mild [DecidableEq Q] [DecidableEq S] (k : Kernel Q S) {c : Call Q S} (hc : Unsignalled (.call c)) : k.Mild (k.enter c) := by
  have hself : ∀ gs, k.Mild (k.setFrames gs) := fun gs => Mild.of_eq fun p => rfl
  have hcreate : ∀ t : Task, t.signals = .new → k.Mild (k.create t) := fun t => create_mild k
  cases c with
  | wakeUp q =>
    refine Mild.of_eq fun p => ?_
    simp only [enter, wakeUp_eq]
    split <;> rfl
  | sleep ms =>
    simp only [enter]
    split
    · exact Mild.of_eq fun p => rfl
    · exact hself _
  | schedYield => exact Mild.of_eq fun p => rfl
  | tryDown s =>
    simp only [enter, tryDown]
    split <;> exact Mild.of_eq fun p => rfl
  | up s =>
    obtain ⟨task, ht, hu⟩ := upSection_eq k s
    have hsig : ∀ p, (task p).signals = (k.task p).signals := fun p => by
      obtain ⟨a, b, e⟩ := ht p
      rw [e]
    simp only [enter, hu]
    cases k.semq.find? fun e => e.1 = s <;> exact Mild.of_eq hsig
  | kill pid sig => exact hc.elim
  | fork =>
    simp only [enter, doFork]
    split
    · exact hcreate _ rfl
    · exact Mild.of_eq fun p => rfl
  | createKernelThread prio => exact hcreate _ rfl
  | fault sig => exact hc.elim
  | _ => exact hself _

theorem interrupt_mild [DecidableEq Q] (k : Kernel Q S) {i : Irq Q} (hi : ∀ pid, i ≠ .ctrlC pid ∧ i ≠ .ctrlZ pid) :
    k.Mild (k.interrupt i) := by
  apply Mild.of_eq
  intro p
  cases i with
  | timer expired =>
    simp only [interrupt, checkSleepers_eq, setFrames]
    split <;> rfl
  | wake q =>
    simp only [interrupt, wakeUp_eq, setFrames]
    split <;> rfl
  | ctrlC pid => exact absurd rfl (hi pid).1
  | ctrlZ pid => exact absurd rfl (hi pid).2

/-! ## The register -/

/-- Nobody is registered or reported, nobody dies and nobody gets a signal. -/
theorem Register.keep (h : k.Register) (ha : k'.all = k.all) (hn : k'.nextPid = k.nextPid) (hrep : k'.reported = k.reported)
    (hm : k.Mild k') (hd : ∀ p, (k'.task p).state = .dead → (k.task p).state = .dead)
    (hf : ∀ u, ∀ f ∈ k'.stack u, f.wakes = false) : k'.Register := by
  have hv : ∀ p, k'.Vacant p ↔ k.Vacant p := fun p => by rw [Vacant, hn, Vacant]
  refine ⟨?_, ?_, fun p hp hr => ?_, fun p hp => ?_, fun p i hi => ?_, hf⟩
  · rw [ha]
    exact h.nodup
  · rw [ha, hn]
    exact h.known
  · rw [ha]
    exact h.there p (mt (hv p).mpr hp) (hrep ▸ hr)
  · rw [hrep]
    exact h.dead p (hd p hp)
  · exact (hm p i hi).elim (h.calm p i) id

theorem Keeps.reported (h : k.Keeps k') : k'.reported = k.reported := by
  rw [Kernel.reported, h.waits, Kernel.reported]

/-- The pending signals end nobody. -/
theorem Register.not_terminates (h : k.Register) : ¬ k.Terminates := by
  intro ⟨h0, ha⟩
  have hsig := h.calm _ _ (SignalState.checkPending_pending h0)
  rw [hsig] at ha
  rcases ha with ha | ha <;> cases ha

theorem OnStack.wakes {fs : List (Frame Q S)} (ho : OnStack k fs k') (h : ∀ u, ∀ f ∈ k.stack u, f.wakes = false)
    (hfs : ∀ f ∈ fs, f.wakes = false) : ∀ u, ∀ f ∈ k'.stack u, f.wakes = false := by
  intro u f hm
  rw [ho.stack, Function.update_apply] at hm
  split at hm
  · exact hfs f hm
  · exact h u f hm

theorem next_wakes {f g : Frame Q S} (h : f.wakes = false) (hg : g ∈ next f) : g.wakes = false := by
  cases f with
  | rouse t | add t => cases h
  | waitTest q | down q =>
    rcases List.mem_cons.mp hg with rfl | hg
    · rfl
    · rw [List.mem_singleton.mp hg]
      rfl
  | schedule pc | waitAlive => cases hg
  | _ =>
    rw [List.mem_singleton.mp hg]
    rfl

/-- A call with `up` on no waiter leaves no frame that makes a task ready. -/
theorem entered_wakes [DecidableEq S] {c : Call Q S} (h : ∀ s, c = .up s → ∀ w ∈ k.semq, w.1 ≠ s) {f : Frame Q S}
    (hf : f ∈ k.entered c) : f.wakes = false := by
  cases c with
  | up s =>
    obtain ⟨task, -, hu⟩ := upSection_eq k s
    have hnone : (k.semq.find? fun e => e.1 = s) = none := List.find?_eq_none.mpr fun w hw => by simpa using h s rfl w hw
    rw [entered, hu, hnone] at hf
    cases hf
  | fault sig =>
    rcases List.mem_cons.mp hf with rfl | hf
    · rfl
    · rw [List.mem_singleton.mp hf]
      rfl
  | waitEvent q | sleep ms | yieldNow | down s | exit code | wait4 pid | checkSignals =>
    rw [List.mem_singleton.mp hf]
    rfl
  | _ => cases hf

theorem Register.access {pc : SchedPc} {fs : List (Frame Q S)} {o : Option SchedPc} (h : k.Register) (hf : k.frames = .schedule pc :: fs)
    (hs : k.schedStep pc = some (k', o)) : (k'.accessed fs o).Register := by
  obtain ⟨g, hst, hg⟩ := accessed_stack hf hs
  have hfs : ∀ f ∈ g ++ fs, f.wakes = false := by
    intro f hm
    rcases List.mem_append.mp hm with hm | hm
    · obtain ⟨pc, rfl⟩ := hg f hm
      rfl
    · refine h.frames k.running f ?_
      rw [show k.stack k.running = _ from hf]
      exact List.mem_cons_of_mem _ hm
  have hd : ∀ p, (k'.task p).state = .dead → (k.task p).state = .dead := fun p hp => ((schedStep_quiet hs).1 p).symm.trans hp
  have hk := schedStep_keeps hs
  have hm := schedStep_mild hs
  obtain ⟨stack, he⟩ := accessed_eq k' fs o
  rw [he] at hst ⊢
  refine h.keep hk.all hk.nextPid hk.reported hm hd fun u f hmem => ?_
  rw [hst, Function.update_apply] at hmem
  split at hmem
  · exact hfs f hmem
  · exact h.frames u f hmem

theorem Register.create (h : k.Register) {t : Task} (ht : t.state = .running) (hm : k.Mild (k.create t)) : (k.create t).Register := by
  have hold : ∀ p, ¬ (k.create t).Vacant p → p ≠ k.nextPid → ¬ k.Vacant p := fun p hp e hv =>
    hp (hv.imp_right fun hle => Nat.lt_of_le_of_ne hle (Ne.symm e))
  refine ⟨?_, fun p hp => ?_, fun p hp hr => ?_, fun p hp => ?_, fun p i hi => ?_, fun u f hf => ?_⟩
  · refine List.nodup_append.mpr ⟨h.nodup, List.nodup_singleton _, fun a ha b hb e => ?_⟩
    have := h.known a ha
    rw [e, List.mem_singleton.mp hb] at this
    exact absurd this (Nat.lt_irrefl _)
  · rcases List.mem_append.mp hp with hp | hp
    · exact Nat.lt_succ_of_lt (h.known p hp)
    · rw [List.mem_singleton.mp hp]
      exact Nat.lt_succ_self _
  · by_cases e : p = k.nextPid
    · exact List.mem_append_right _ (List.mem_singleton.mpr e)
    · exact List.mem_append_left _ (h.there p (hold p hp e) hr)
  · rw [create_task] at hp
    split at hp
    · cases ht.symm.trans hp
    · exact h.dead p hp
  · exact (hm p i hi).elim (h.calm p i) id
  · have hf : f ∈ Function.update k.stack k.nextPid [] u := hf
    rw [Function.update_apply] at hf
    split at hf
    · cases hf
    · exact h.frames u f hf

theorem Register.enter [DecidableEq Q] [DecidableEq S] (h : k.Register) (h0 : k.frames = []) {c : Call Q S}
    (hc : k.WakesNobody (.call c)) : (k.enter c).Register := by
  have hu := hc.unsignalled
  have hm := enter_mild k hu
  rcases enter_keeps k c with hk | ⟨ppid, prio, user, e, -⟩
  · refine h.keep hk.all hk.nextPid hk.reported hm (fun p hp => ?_) ?_
    · rcases enter_state k c p with e | e | ⟨-, rfl | ⟨-, rfl⟩⟩
      · exact e.symm.trans hp
      · exact absurd (Or.inl hp) e
      · exact hu.elim
      · exact hu.elim
    · rcases enter_onStack h0 c with (ho | ho) | ⟨t, e, -, -⟩
      · exact ho.wakes h.frames fun f hf => entered_wakes (fun s e => by subst e; exact hc) hf
      · exact ho.wakes h.frames fun f hf => absurd hf List.not_mem_nil
      · have := hk.nextPid
        rw [e] at this
        exact absurd this (Nat.succ_ne_self _)
  · rw [e] at hm ⊢
    exact h.create rfl hm

theorem Register.interrupt [DecidableEq Q] (h : k.Register) {i : Irq Q} (hi : ∀ pid, i ≠ .ctrlC pid ∧ i ≠ .ctrlZ pid) :
    (k.interrupt i).Register := by
  have hk := Keeps.interrupt k i
  refine h.keep hk.all hk.nextPid hk.reported (interrupt_mild k hi) (fun p hp => ?_) ((interrupt_onStack k i).wakes h.frames fun f hf => ?_)
  · rcases interrupt_state k i p with e | e
    · cases e.symm.trans hp
    · exact e.symm.trans hp
  · rcases List.mem_cons.mp hf with rfl | hf
    · rfl
    · rcases List.mem_cons.mp hf with rfl | hf
      · rfl
      · exact h.frames k.running f hf

/-- The purge drops those that were reported. -/
theorem Register.purge (h : k.Register) : k.purge.Register := by
  rw [purge_eq]
  refine ⟨h.nodup.filter _, fun p hp => h.known p (List.mem_of_mem_filter hp), fun p hp hr => ?_, h.dead, h.calm, h.frames⟩
  exact List.mem_filter.mpr ⟨h.there p hp hr, decide_eq_true fun hd => hr (h.dead p hd)⟩

/-- A child is reported, and DEAD from now on. -/
theorem Register.reap (h : k.Register) (p : Pid) (code : Int) : ((k.modify p reaped).returns (.child p code)).Register := by
  have hrep : ((k.modify p reaped).returns (.child p code)).reported = k.reported ++ [p] := reported_append _ _
  refine ⟨h.nodup, h.known, fun u hu hr => ?_, fun u hu => ?_, fun u i hi => ?_, h.frames⟩
  · rw [hrep, List.mem_append, not_or] at hr
    exact h.there u hu hr.1
  · rw [hrep, List.mem_append, List.mem_singleton]
    by_cases e : u = p
    · exact Or.inr e
    · have hu : ((k.modify p reaped).task u).state = .dead := hu
      rw [modify_task, if_neg e] at hu
      exact Or.inl (h.dead u hu)
  · have hi : ((k.modify p reaped).task u).signals.pending.getLsbD i = true := hi
    rw [modify_signals k p reaped (fun t => rfl)] at hi
    exact h.calm u i hi

theorem Register.setFrames (h : k.Register) {fs : List (Frame Q S)} (hfs : ∀ f ∈ fs, f.wakes = false) : (k.setFrames fs).Register :=
  h.keep rfl rfl rfl (Mild.of_eq fun _ => rfl) (fun _ hp => hp) ((onStack_setFrames k fs).wakes h.frames hfs)

theorem Register.resume [DecidableEq S] (h : k.Register) {b : Bool} {f : Frame Q S} {fs : List (Frame Q S)} (hf : k.frames = f :: fs)
    (hn : ∀ pc, f ≠ .schedule pc) (hr : k.resume b fs f = some k') : k'.Register := by
  have hall : ∀ g ∈ f :: fs, g.wakes = false := fun g hg => h.frames k.running g (by rwa [show k.stack k.running = _ from hf])
  have hfs : ∀ g ∈ fs, g.wakes = false := fun g hg => hall g (List.mem_cons_of_mem _ hg)
  obtain ⟨g, hg, ho⟩ := resume_onStack hn hr
  have hst : ∀ u, ∀ f ∈ k'.stack u, f.wakes = false := by
    refine ho.wakes h.frames fun x hx => ?_
    rcases List.mem_append.mp hx with hx | hx
    · exact next_wakes (hall f List.mem_cons_self) (hg.subset hx)
    · exact hfs x hx
  have hm := resume_mild hn hr
  cases hrec : f.records with
  | false =>
    have hk := Keeps.resume hrec hr
    refine h.keep hk.all hk.nextPid hk.reported hm (fun p hp => ?_) hst
    rcases resume_state hr p with e | e | ⟨-, -, hz⟩ | ⟨-, rfl, ht, -⟩ | ⟨⟨t, rfl⟩, -, -⟩
    · exact e.symm.trans hp
    · exact absurd (Or.inl hp) e
    · cases hz.symm.trans hp
    · exact absurd ht h.not_terminates
    · cases hrec
  | true =>
    cases f with
    | add t => cases hall (.add t) List.mem_cons_self
    | exitWith code =>
      cases hr
      refine h.keep rfl rfl rfl hm (fun p hp => ?_) hst
      rcases modify_state k k.current (exited code) p with e | ⟨-, e⟩
      · exact e.symm.trans hp
      · cases e.symm.trans hp
    | wait4 t =>
      rcases resume_wait4 hr with ⟨rfl, -⟩ | ⟨p, -, -, rfl, -⟩
      · refine h.purge.setFrames fun f hf => ?_
        rcases List.mem_cons.mp hf with rfl | hf
        · rfl
        · exact hfs f hf
      · exact (h.purge.reap p _).setFrames hfs
    | waitAlive =>
      simp only [Kernel.resume] at hr
      have hrep : ∀ r : WaitResult, (∀ u c, r ≠ .child u c) → ((k.returns r).setFrames fs).reported = k.reported := by
        intro r hne
        refine (reported_append k r).trans ?_
        cases r with
        | child u c => exact absurd rfl (hne u c)
        | _ => exact List.append_nil _
      split at hr <;> cases hr
      · exact h.keep rfl rfl (hrep .alive (by simp)) hm (fun p hp => hp) hst
      · exact h.keep rfl rfl (hrep .noChild (by simp)) hm (fun p hp => hp) hst
    | _ => cases hrec

theorem Register.step [DecidableEq Q] [DecidableEq S] (h : k.Register) {e : Event Q S} (he : k.WakesNobody e)
    (hs : Kernel.step k e = some k') : k'.Register := by
  refine step_rule (fun k pc fs k1 o hk hf hs => hk.access hf hs) (fun c ec h0 hk => ?_) (fun b f fs k' _ hf hn hk hr => hk.resume hf hn hr)
    (fun k1 i ei hk => ?_) h hs
  · exact hk.enter h0 (ec ▸ he)
  · refine hk.interrupt fun pid => ⟨fun e => ?_, fun e => ?_⟩ <;> subst e <;> rcases ei with rfl | ⟨n, rfl⟩ <;> exact he

theorem start_register {count : S → Int} {ts : List (Prio × Bool)} (h : start count ts = some k) : k.Register := by
  have he : (empty count : Kernel Q S).Register := by
    refine ⟨List.nodup_nil, fun p hp => absurd hp List.not_mem_nil, fun p hp => ?_, fun p hp => (by cases hp), fun p i hi => ?_,
      fun u f hf => absurd hf List.not_mem_nil⟩
    · exact absurd (p.eq_zero_or_pos.imp_right fun h => h) hp
    · simp [empty, noTask, Task.new, SignalState.new] at hi
  have hc : ((empty count : Kernel Q S).create (Task.new 0 0 false)).Register := he.create rfl (create_mild _ rfl)
  have h0 : (empty count : Kernel Q S).createIdle.Register := by
    have hm := modify_signals ((empty count : Kernel Q S).create (Task.new 0 0 false)) 1 (fun t => { t with strong := t.strong + 1 })
      fun t => rfl
    refine hc.keep rfl rfl rfl (Mild.of_eq hm) (fun p hp => ?_) hc.frames
    rcases modify_state ((empty count : Kernel Q S).create (Task.new 0 0 false)) 1 (fun t => { t with strong := t.strong + 1 }) p
      with e | ⟨rfl, e⟩ <;> exact e.symm.trans hp
  obtain ⟨k1, e, h1, -, rfl⟩ := start_rule h0 (fun k prio user hk => hk.create rfl (create_mild k rfl)) h
  exact ⟨h1.nodup, h1.known, h1.there, h1.dead, h1.calm, h1.frames⟩

/-- While no `up` wakes a waiter and nobody is signalled, each task is in ALL_TASKS once from
    its creation until it was reaped. -/
theorem registered_reach [DecidableEq Q] [DecidableEq S] (h : Lib.Reach step WakesNobody Boot k) : k.RegisteredOnce := by
  refine Register.once (Lib.Reach.rule (P := Register) (fun k ⟨count, ts, h⟩ => start_register h) (fun k e k' hk he hs => hk.step he hs) h)

/-! ## A mutex -/

instance unsignalledDecidable : DecidablePred (Unsignalled : Event Q S → Prop) := fun e => by
  delta Unsignalled
  exact match e with
    | .call (.kill _ _) | .call (.fault _) | .irq (.ctrlC _) | .irq (.ctrlZ _) | .irqInside _ (.ctrlC _)
    | .irqInside _ (.ctrlZ _) => isFalse id
    | .call (.waitEvent _) | .call (.wakeUp _) | .call (.sleep _) | .call .yieldNow | .call .schedYield | .call (.down _)
    | .call (.tryDown _) | .call (.up _) | .call (.exit _) | .call (.wait4 _) | .call .fork | .call (.createKernelThread _)
    | .call .checkSignals | .run _ | .irq (.timer _) | .irq (.wake _) | .irqInside _ (.timer _)
    | .irqInside _ (.wake _) => isTrue trivial

instance wakesNobodyDecidable [DecidableEq S] (k : Kernel Q S) (e : Event Q S) : Decidable (k.WakesNobody e) := by
  delta WakesNobody
  exact match e with
    | .call (.up s) => inferInstanceAs (Decidable (∀ w ∈ k.semq, w.1 ≠ s))
    | .call (.kill pid sig) => unsignalledDecidable (.call (.kill pid sig))
    | .call (.fault sig) => unsignalledDecidable (.call (.fault sig))
    | .call (.waitEvent q) => unsignalledDecidable (.call (.waitEvent q))
    | .call (.wakeUp q) => unsignalledDecidable (.call (.wakeUp q))
    | .call (.sleep ms) => unsignalledDecidable (.call (.sleep ms))
    | .call .yieldNow => unsignalledDecidable (.call .yieldNow)
    | .call .schedYield => unsignalledDecidable (.call .schedYield)
    | .call (.down s) => unsignalledDecidable (.call (.down s))
    | .call (.tryDown s) => unsignalledDecidable (.call (.tryDown s))
    | .call (.exit code) => unsignalledDecidable (.call (.exit code))
    | .call (.wait4 pid) => unsignalledDecidable (.call (.wait4 pid))
    | .call .fork => unsignalledDecidable (.call .fork)
    | .call (.createKernelThread prio) => unsignalledDecidable (.call (.createKernelThread prio))
    | .call .checkSignals => unsignalledDecidable (.call .checkSignals)
    | .run b => unsignalledDecidable (.run b)
    | .irq i => unsignalledDecidable (.irq i)
    | .irqInside n i => unsignalledDecidable (.irqInside n i)

/-- The first task takes the mutex and releases it, forks, and reaps the child. -/
def lockAndReap : List (Event Unit Unit) :=
  [.call (.down ()), .run true, .call (.up ()), .call .fork, .call .yieldNow, .run true, .call .yieldNow, .run true,
    .call (.exit 7), .run true, .run true, .run true, .call (.wait4 (-1)), .run true]

theorem registered_reach_lockAndReap : ∃ k, (twoTasks.bind fun k => Lib.trace step k lockAndReap) = some k ∧
    4 ∈ k.reported ∧ k.RegisteredOnce := by
  obtain ⟨k, hk, ht, hd⟩ := Lib.exists_run step WakesNobody lockAndReap
    (fun k : Kernel Unit Unit => decide (4 ∈ k.reported)) twoTasks_boot (by decide +kernel) (by decide +kernel)
  exact ⟨k, ht, of_decide_eq_true hd, registered_reach hk⟩

/-- The second task waits for the mutex of the first, which then releases it. -/
def handOver : List (Event Unit Unit) :=
  [.call (.down ()), .run true, .call .yieldNow, .run true, .call (.down ()), .run true, .run true, .call (.up ()),
    .run true, .run true]

theorem waiter_registered_twice : ¬ ∀ k : Kernel Unit Unit, Lib.Reach step (fun _ => Unsignalled) Boot k → k.RegisteredOnce := by
  intro h
  obtain ⟨k, hk, -, hd⟩ := Lib.exists_run step (fun _ : Kernel Unit Unit => Unsignalled) handOver
    (fun k : Kernel Unit Unit => decide (k.all.count 3 = 2)) twoTasks_boot rfl rfl
  have := (h k hk 3).1
  rw [of_decide_eq_true hd] at this
  exact absurd this (by decide)

end Kernel

end Myos.Sched
