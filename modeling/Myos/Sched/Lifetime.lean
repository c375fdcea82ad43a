/-
  Myos.Sched.Lifetime — the strong references to a task, and when the last one ends.

  Proved:
  - `counted_reach`: while no interrupt arrives inside `schedule()`, the count of a task's
    `Arc` is the number of places that hold it.
  - `lifetime_reach`: if moreover `do_wait4` only drops DEAD tasks that were reaped and are
    queued nowhere, `schedule()` never ends the last reference to the task it leaves, and a
    task that is destroyed was reaped and is not the current one.
  - `freed_while_current`: a child is killed in the ready queue, dropped by `do_wait4`,
    switched to, and destroyed in its next `schedule()`.
-/

import Mathlib.Algebra.BigOperators.Group.Finset.Piecewise
import Mathlib.Algebra.Order.BigOperators.Group.Finset
import Myos.Sched.Occupancy

namespace Myos.Sched

open Finset

variable {Q S : Type*}

/-- A frame of `up` owns the task it took off the queue. -/
def Frame.holds (p : Pid) : Frame Q S → Bool
  | .rouse t | .add t => t = p
  | _ => false

/-- The frames that change who is registered, and what is known of the dead. -/
def Frame.records : Frame Q S → Bool
  | .add _ | .exitWith _ | .wait4 _ | .waitAlive => true
  | _ => false

namespace Kernel

variable {k k' : Kernel Q S} {p : Pid}

/-! ## Counting the references -/

def handed (k : Kernel Q S) (p : Pid) : Nat := ∑ u ∈ range k.nextPid, (k.stack u).countP (Frame.holds p)

/-- The references of the queues from which a task is switched to or queued again. -/
def listed (k : Kernel Q S) (p : Pid) : Nat :=
  k.readyPids.count p + (k.waitq.map Prod.snd).count p + (k.sleepq.map Prod.fst).count p + (k.semq.map Prod.snd).count p

def kept (k : Kernel Q S) (p : Pid) : Nat := (k.owner.map Prod.snd).count p + k.all.count p

/-- The references by which a task may still come to run. -/
def live (k : Kernel Q S) (p : Pid) : Nat := k.listed p + k.handed p + if p = k.current then 1 else 0

def idlePid : Pid := 1

/-- All references; the last is the one that `rust_main` leaks. -/
def refs (k : Kernel Q S) (p : Pid) : Nat := k.live p + k.kept p + if p = idlePid then 1 else 0

/-- No task has this pid. -/
def Vacant (k : Kernel Q S) (p : Pid) : Prop := p = 0 ∨ k.nextPid ≤ p

structure Counted (k : Kernel Q S) : Prop where
  strong : ∀ p, (k.task p).strong = k.refs p
  fresh : ∀ p, k.Vacant p → (k.task p).strong = 0

theorem Counted.current (h : k.Counted) : ¬ k.Vacant k.current := by
  intro hn
  have h0 := h.fresh k.current hn
  rw [h.strong, refs, live, if_pos rfl] at h0
  omega

theorem Counted.current_lt (h : k.Counted) : k.current < k.nextPid :=
  Nat.lt_of_not_le fun hn => h.current (Or.inr hn)

theorem sum_update {f : Pid → Nat} {n u c : Nat} (hu : u < n) :
    (∑ v ∈ range n, Function.update f u c v) + f u = (∑ v ∈ range n, f v) + c := by
  rw [sum_update_of_mem (mem_range.mpr hu), sum_eq_add_sum_sdiff_singleton_of_mem (mem_range.mpr hu) f]
  omega

theorem frames_le_handed (h : k.running < k.nextPid) (p : Pid) : k.frames.countP (Frame.holds p) ≤ k.handed p :=
  single_le_sum (f := fun u => (k.stack u).countP (Frame.holds p)) (fun _ _ => Nat.zero_le _) (mem_range.mpr h)

theorem OnStack.handed {fs : List (Frame Q S)} (h : OnStack k fs k') (hr : k.running < k.nextPid) (p : Pid) :
    k'.handed p + k.frames.countP (Frame.holds p) = k.handed p + fs.countP (Frame.holds p) := by
  have hf : (fun u => (k'.stack u).countP (Frame.holds p)) =
      Function.update (fun u => (k.stack u).countP (Frame.holds p)) k.running (fs.countP (Frame.holds p)) := by
    funext u
    rw [h.stack, Function.update_apply, Function.update_apply]
    split <;> rfl
  show (∑ u ∈ range k'.nextPid, (fun u => (k'.stack u).countP (Frame.holds p)) u) + _ = _
  rw [hf, h.nextPid]
  exact sum_update hr

/-- What a step that stays on the stack has to say of the references to `p`. -/
structure Balance (k k' : Kernel Q S) (p : Pid) (n n' : Nat) : Prop where
  strong : (k'.task p).strong + k.listed p + k.kept p + n = (k.task p).strong + k'.listed p + k'.kept p + n'
  listed : k'.listed p + n' ≤ k.listed p + n + if p = k.current then 1 else 0
  kept : k'.kept p ≤ k.kept p + n + if p = k.current then 1 else 0

/-- The count stays right, and who cannot run any more stays so. -/
structure Accounts (k k' : Kernel Q S) : Prop where
  counted : k'.Counted
  live : ∀ p, p < k.nextPid → k.live p = 0 → k'.live p = 0

theorem OnStack.accounts {fs : List (Frame Q S)} (h : OnStack k fs k') (hs : k.Straight) (hc : k.Counted)
    (hb : ∀ p, Balance k k' p (k.frames.countP (Frame.holds p)) (fs.countP (Frame.holds p))) : k.Accounts k' := by
  have hr : k.running < k.nextPid := hs.running ▸ hc.current_lt
  have hcur : ∀ p, (if p = k'.current then 1 else 0) = if p = k.current then 1 else 0 := fun p => by rw [h.current]
  refine ⟨⟨fun p => ?_, fun p hp => ?_⟩, fun p _ h0 => ?_⟩ <;>
    obtain ⟨h1, h2, h3⟩ := hb p <;> have h4 := h.handed hr p <;>
    have h5 := hc.strong p <;> have h6 := frames_le_handed hr p
  · rw [refs, live] at h5 ⊢
    rw [hcur]
    omega
  · have h0 := hc.fresh p (by rwa [Vacant, ← h.nextPid])
    rw [refs, live] at h5
    omega
  · rw [live] at h0 ⊢
    rw [hcur]
    omega

/-! ## The queues -/

theorem count_filter_add {α : Type*} (l : List α) (f : α → Pid) (q : α → Prop) [DecidablePred q] (p : Pid) :
    ((l.filter fun a => ¬ q a).map f).count p + ((l.filter fun a => q a).map f).count p = (l.map f).count p := by
  induction l with
  | nil => rfl
  | cons a l ih =>
    by_cases hq : q a <;> simp only [List.filter_cons, hq, not_true_eq_false, not_false_eq_true, decide_true,
      decide_false, if_true, List.map_cons, List.count_cons, Bool.false_eq_true, if_false] <;> omega

/-- The entry that `find?` finds is the one that `eraseP` takes away. -/
theorem count_eraseP {α : Type*} (l : List α) (f : α → Pid) (q : α → Bool) (p : Pid) :
    ((l.eraseP q).map f).count p + (if (l.find? q).map f = some p then 1 else 0) = (l.map f).count p := by
  induction l with
  | nil => rfl
  | cons a l ih =>
    cases hq : q a
    · simp only [List.eraseP_cons, hq, List.find?_cons, List.map_cons, List.count_cons, cond_false]
      omega
    · simp only [List.eraseP_cons, hq, List.find?_cons, List.map_cons, List.count_cons, cond_true, Option.map_some,
        Option.some.injEq, beq_iff_eq]

theorem count_single (p u : Pid) : [u].count p = if p = u then 1 else 0 := by
  rw [List.count_singleton]
  by_cases e : p = u
  · simp [e]
  · simp [e, Ne.symm e]

/-- The tasks that wait: every queue but the ready queues. -/
def waiting (k : Kernel Q S) (p : Pid) : Nat :=
  (k.waitq.map Prod.snd).count p + (k.sleepq.map Prod.fst).count p + (k.semq.map Prod.snd).count p

theorem listed_eq (k : Kernel Q S) (p : Pid) : k.listed p = k.readyPids.count p + k.waiting p := by
  rw [listed, waiting]
  omega

theorem waiting_wait (k : Kernel Q S) (q : Q) (u p : Pid) :
    ({ k with waitq := k.waitq ++ [(q, u)] } : Kernel Q S).waiting p = k.waiting p + if p = u then 1 else 0 := by
  simp only [waiting, List.map_append, List.count_append, List.map_cons, List.map_nil, count_single]
  omega

theorem waiting_sleep (k : Kernel Q S) (u : Pid) (e : Nat) (p : Pid) :
    (k.sleepInsert u e).waiting p = k.waiting p + if p = u then 1 else 0 := by
  have h : ((k.sleepq.takeWhile fun x => x.2 ≤ e).map Prod.fst).count p +
      ((k.sleepq.dropWhile fun x => x.2 ≤ e).map Prod.fst).count p = (k.sleepq.map Prod.fst).count p := by
    rw [← List.count_append, ← List.map_append, List.takeWhile_append_dropWhile]
  have h1 : (u :: (k.sleepq.dropWhile fun x => x.2 ≤ e).map Prod.fst).count p =
      ((k.sleepq.dropWhile fun x => x.2 ≤ e).map Prod.fst).count p + if p = u then 1 else 0 := by
    rw [← List.singleton_append, List.count_append, count_single, Nat.add_comm]
  simp only [waiting, sleepInsert, List.map_append, List.map_cons, List.count_append, h1]
  omega

theorem waiting_down (k : Kernel Q S) (s : S) (u p : Pid) :
    ({ k with semq := k.semq ++ [(s, u)] } : Kernel Q S).waiting p = k.waiting p + if p = u then 1 else 0 := by
  simp only [waiting, List.map_append, List.count_append, List.map_cons, List.map_nil, count_single]
  omega

theorem wakeUp_listed [DecidableEq Q] (k : Kernel Q S) (q : Q) (p : Pid) : (k.wakeUp q).listed p = k.listed p := by
  have h := count_filter_add k.waitq Prod.snd (fun e => e.1 = q) p
  rw [listed, wakeUp_readyPids, List.count_append, wakeUp_eq, listed]
  show _ + (k.waiters q).count p + ((k.waitq.filter fun e => e.1 ≠ q).map Prod.snd).count p + _ + _ = _
  rw [waiters]
  simp only [ne_eq] at h ⊢
  omega

theorem checkSleepers_listed (k : Kernel Q S) (p : Pid) : k.checkSleepers.listed p = k.listed p := by
  have h : (k.sleepq.map Prod.fst).count p = k.sleepers.count p +
      ((k.sleepq.dropWhile fun e => e.2 ≤ k.tick).map Prod.fst).count p := by
    rw [sleepers, ← List.count_append, ← List.map_append, List.takeWhile_append_dropWhile]
  rw [listed, checkSleepers_readyPids, List.count_append, checkSleepers_eq, listed, h]
  show _ + _ + (k.waitq.map Prod.snd).count p + ((k.sleepq.dropWhile fun e => e.2 ≤ k.tick).map Prod.fst).count p +
    (k.semq.map Prod.snd).count p = _
  omega

/-- A step that leaves all places but the stack as they are. -/
theorem Balance.of_eq {n : Nat} (hs : (k'.task p).strong = (k.task p).strong) (hl : k'.listed p = k.listed p)
    (hk : k'.kept p = k.kept p) : Balance k k' p n n :=
  ⟨by omega, by omega, by omega⟩

theorem modify_strong (k : Kernel Q S) (u : Pid) (f : Task → Task) (hf : ∀ t, (f t).strong = t.strong) (p : Pid) :
    ((k.modify u f).task p).strong = (k.task p).strong := by
  rw [modify_task]
  split
  · exact hf _
  · rfl

theorem cloneArc_strong (k : Kernel Q S) (u p : Pid) :
    ((k.cloneArc u).task p).strong = (k.task p).strong + if p = u then 1 else 0 := by
  rw [cloneArc, modify_task]
  split <;> rfl

theorem killed_strong (sig : Nat) (t : Task) : (killed sig t).strong = t.strong := by
  unfold killed
  split
  · rfl
  · split
    · rfl
    · split <;> rfl

theorem checked_strong (t : Task) : (checked t).2.strong = t.strong := by
  by_cases h0 : t.signals.checkPending = 0
  · simp [checked, h0]
  · cases ha : defaultAction t.signals.checkPending <;> simp [checked, h0, ha]

theorem doKill_strong (k : Kernel Q S) (pid sig : Nat) (p : Pid) :
    ((k.doKill pid sig).2.task p).strong = (k.task p).strong := by
  rcases doKill_eq k pid sig with e | ⟨-, -, e⟩ <;> rw [e]
  exact modify_strong k pid _ (killed_strong sig) p

/-! ## One step -/

theorem Accounts.resume [DecidableEq S] (hs : k.Straight) (hc : k.Counted) {f : Frame Q S} {fs : List (Frame Q S)}
    {b : Bool} (hf : k.frames = f :: fs) (hne : ∀ pc, f ≠ .schedule pc) (h : k.resume b fs f = some k') :
    k.Accounts k' := by
  -- what the frame on top holds, and what the frames that take its place hold
  have hcons : ∀ (g : Frame Q S) p, (g :: fs).countP (Frame.holds p) =
      fs.countP (Frame.holds p) + if g.holds p = true then 1 else 0 := fun g p => List.countP_cons
  have hpush : ∀ {g : List (Frame Q S)} {k' : Kernel Q S}, OnStack k (g ++ fs) k' → (∀ p, ∀ u ∈ g, u.holds p = false) →
      (∀ p, f.holds p = false) → (∀ p, (k'.task p).strong + k.listed p + k.kept p =
        (k.task p).strong + k'.listed p + k'.kept p) → (∀ p, k'.listed p ≤ k.listed p + if p = k.current then 1 else 0) →
      (∀ p, k'.kept p ≤ k.kept p + if p = k.current then 1 else 0) → k.Accounts k' := by
    intro g k' ho hg hff h1 h2 h3
    refine ho.accounts hs hc fun p => ?_
    have hg0 : g.countP (Frame.holds p) = 0 :=
      List.countP_eq_zero.mpr fun u hu => by rw [hg p u hu]; exact Bool.false_ne_true
    rw [hf, hcons, hff, List.countP_append, hg0]
    exact ⟨by have := h1 p; simp only [Bool.false_eq_true, if_false]; omega,
      by have := h2 p; simp only [Bool.false_eq_true, if_false]; omega,
      by have := h3 p; simp only [Bool.false_eq_true, if_false]; omega⟩
  have hsame : ∀ {g : List (Frame Q S)} {k' : Kernel Q S}, OnStack k (g ++ fs) k' → (∀ p, ∀ u ∈ g, u.holds p = false) →
      (∀ p, f.holds p = false) → (∀ p, (k'.task p).strong = (k.task p).strong) → (∀ p, k'.listed p = k.listed p) →
      (∀ p, k'.kept p = k.kept p) → k.Accounts k' := by
    intro g k' ho hg hff h1 h2 h3
    refine hpush ho hg hff (fun p => ?_) (fun p => ?_) (fun p => ?_)
    · rw [h1, h2, h3]
    · rw [h2]; exact Nat.le_add_right ..
    · rw [h3]; exact Nat.le_add_right ..
  -- the current task puts itself in a queue
  have hblock : ∀ {g : List (Frame Q S)} {k' : Kernel Q S}, OnStack k (g ++ fs) k' → (∀ p, ∀ u ∈ g, u.holds p = false) →
      (∀ p, f.holds p = false) → (∀ p, (k'.task p).strong = (k.task p).strong + if p = k.current then 1 else 0) →
      k'.ready = k.ready → (∀ p, k'.waiting p = k.waiting p + if p = k.current then 1 else 0) →
      (∀ p, k'.kept p = k.kept p) → k.Accounts k' := by
    intro g k' ho hg hff h1 hrd h2 h3
    have hl : ∀ p, k'.listed p = k.listed p + if p = k.current then 1 else 0 := fun p => by
      rw [listed_eq, listed_eq, h2, readyPids, hrd, readyPids, Nat.add_assoc]
    refine hpush ho hg hff (fun p => ?_) (fun p => ?_) (fun p => ?_)
    · rw [h1, hl, h3]; omega
    · rw [hl]
    · rw [h3]; exact Nat.le_add_right ..
  have hnil : ∀ p, ∀ u ∈ ([] : List (Frame Q S)), u.holds p = false := fun p u hu => by cases hu
  cases f with
  | schedule pc => exact (hne pc rfl).elim
  | waitEvent q =>
    simp only [Kernel.resume] at h
    split at h
    · cases h
      exact hsame (g := []) (onStack_setFrames k fs) hnil (fun p => rfl) (fun p => rfl) (fun p => rfl) fun p => rfl
    · obtain ⟨k1, h1, rfl⟩ := Option.map_eq_some_iff.mp h
      obtain ⟨rfl, -⟩ := upgrade_eq h1
      refine hblock (g := [.waitTest q]) ⟨rfl, rfl, rfl, rfl, rfl⟩ (by simp [Frame.holds]) (fun p => rfl)
        (fun p => ?_) rfl (waiting_wait k q k.current) fun p => rfl
      exact (modify_strong _ _ (fun t => { t with state := .sleeping }) (fun t => rfl) p).trans (cloneArc_strong k k.current p)
  | waitTest q =>
    simp only [Kernel.resume] at h
    split at h <;> cases h
    · exact hsame (g := [.schedule .start, .waitEvent q]) ⟨rfl, rfl, rfl, rfl, rfl⟩ (by simp [Frame.holds]) (fun p => rfl) (fun p => rfl) (fun p => rfl) fun p => rfl
    · exact hsame (g := [.waitEvent q]) ⟨rfl, rfl, rfl, rfl, rfl⟩ (by simp [Frame.holds]) (fun p => rfl) (fun p => rfl) (fun p => rfl) fun p => rfl
  | sleep e =>
    obtain ⟨k1, h1, rfl⟩ := Option.map_eq_some_iff.mp h
    obtain ⟨rfl, -⟩ := upgrade_eq h1
    refine hblock (g := [.schedule .start]) ⟨rfl, rfl, rfl, rfl, rfl⟩ (by simp [Frame.holds]) (fun p => rfl)
      (fun p => ?_) rfl (waiting_sleep k k.current e) fun p => rfl
    exact (modify_strong _ _ (fun t => { t with state := .sleeping }) (fun t => rfl) p).trans (cloneArc_strong k k.current p)
  | down s =>
    simp only [Kernel.resume] at h
    split at h
    · cases h
    · next hd =>
      obtain ⟨-, -, rfl⟩ := downSection_true hd
      cases h
      have ho : ∀ p, k.ownerRef s p + ((k.owner.eraseP fun e => e.1 = s).map Prod.snd).count p =
          (k.owner.map Prod.snd).count p := fun p => by
        rw [ownerRef, ownerOf, Nat.add_comm]
        exact count_eraseP k.owner Prod.snd (fun e => e.1 = s) p
      have ho' : ∀ p, (k.current :: (k.owner.eraseP fun e => e.1 = s).map Prod.snd).count p =
          ((k.owner.eraseP fun e => e.1 = s).map Prod.snd).count p + if p = k.current then 1 else 0 := fun p => by
        rw [← List.singleton_append, List.count_append, count_single, Nat.add_comm]
      refine hpush (g := []) ⟨rfl, rfl, rfl, rfl, rfl⟩ hnil (fun p => rfl) (fun p => ?_) (fun p => Nat.le_add_right ..)
        fun p => ?_ <;> have h1 := ho p <;> have h2 := ho' p
      · have h3 := hc.strong p
        simp only [refs, kept] at h3
        simp only [setFrames, listed, readyPids, kept, List.map_cons, h2]
        omega
      · simp only [setFrames, kept, List.map_cons, h2]
        omega
    · next hd =>
      obtain ⟨-, -, -, task, rfl, hr⟩ := downSection_false hd
      cases h
      refine hblock (g := [.schedule .start, .down s]) ⟨rfl, rfl, rfl, rfl, rfl⟩ (by simp [Frame.holds]) (fun p => rfl)
        (fun p => ?_) rfl (waiting_down k s k.current) fun p => rfl
      obtain ⟨a, b, e⟩ := hr p
      show (task p).strong = _
      rw [e]
  | rouse t =>
    cases h
    have ho : OnStack k (.add t :: fs) ((k.setState t .running).setFrames (.add t :: fs)) := ⟨rfl, rfl, rfl, rfl, rfl⟩
    refine ho.accounts hs hc fun p => ?_
    rw [hf, hcons, hcons]
    exact .of_eq (modify_strong k t (fun t => { t with state := .running }) (fun t => rfl) p) rfl rfl
  | add t =>
    cases h
    have ho : OnStack k fs ((k.addTask t).setFrames fs) := ⟨rfl, rfl, rfl, rfl, rfl⟩
    refine ho.accounts hs hc fun p => ?_
    have hst : ((k.addTask t).task p).strong = _ := cloneArc_strong k t p
    have hl : (k.addTask t).listed p = k.listed p + if p = t then 1 else 0 := by
      simp only [addTask, pushReady, registerTask, cloneArc, modify, listed, readyPids, List.map_append, List.map_cons,
        List.map_nil, List.count_append, count_single]
      omega
    have hk : (k.addTask t).kept p = k.kept p + if p = t then 1 else 0 := by
      simp only [addTask, pushReady, registerTask, cloneArc, modify, kept, List.count_append, count_single]
      omega
    have ht : (if (Frame.add t : Frame Q S).holds p = true then 1 else 0) = if p = t then 1 else 0 := by
      by_cases e : p = t
      · simp [Frame.holds, e]
      · simp [Frame.holds, e, Ne.symm e]
    rw [hf, hcons, ht]
    exact ⟨by show ((k.addTask t).task p).strong + _ + _ + _ = _ + (k.addTask t).listed p + (k.addTask t).kept p + _
              omega,
      by show (k.addTask t).listed p + _ ≤ _; omega, by show (k.addTask t).kept p ≤ _; omega⟩
  | exitWith code =>
    rw [resume_exitWith] at h
    cases h
    exact hsame (g := [.exitNotify]) ⟨rfl, rfl, rfl, rfl, rfl⟩ (by simp [Frame.holds]) (fun p => rfl)
      (modify_strong k k.current (exited code) fun t => rfl) (fun p => rfl) fun p => rfl
  | exitNotify =>
    simp only [Kernel.resume] at h
    cases h
    split
    · obtain ⟨task, ht⟩ := doKill_fields k (k.task k.current).ppid sigChld
      have hst := doKill_strong k (k.task k.current).ppid sigChld
      rw [ht] at hst ⊢
      exact hsame (g := [.schedule .start]) ⟨rfl, rfl, rfl, rfl, rfl⟩ (by simp [Frame.holds]) (fun p => rfl)
        hst (fun p => rfl) fun p => rfl
    · exact hsame (g := [.schedule .start]) ⟨rfl, rfl, rfl, rfl, rfl⟩ (by simp [Frame.holds]) (fun p => rfl)
        (fun p => rfl) (fun p => rfl) fun p => rfl
  | wait4 pid =>
    have hk : ∀ p, (k.all.filter fun p => (k.task p).state ≠ .dead).count p +
        (k.all.filter fun p => (k.task p).state = .dead).count p = k.all.count p := fun p => by
      have := count_filter_add k.all id (fun p => (k.task p).state = .dead) p
      rwa [List.map_id, List.map_id, List.map_id] at this
    have hst : ∀ p, (k.purge.task p).strong + (k.all.filter fun p => (k.task p).state = .dead).count p =
        (k.task p).strong := fun p => by
      have h1 := hk p
      have h2 := hc.strong p
      rw [purge_eq]
      simp only [refs, kept] at h2
      show (k.task p).strong - _ + _ = _
      omega
    have hpurge : ∀ {g : List (Frame Q S)} {k' : Kernel Q S}, OnStack k (g ++ fs) k' → (∀ p, ∀ u ∈ g, u.holds p = false) →
        (∀ p, (k'.task p).strong = (k.purge.task p).strong) → (∀ p, k'.listed p = k.listed p) →
        (∀ p, k'.kept p = k.purge.kept p) → k.Accounts k' := by
      intro g k' ho hg h1 h2 h3
      have h4 : ∀ p, k.purge.kept p + (k.all.filter fun p => (k.task p).state = .dead).count p = k.kept p := fun p => by
        have := hk p
        rw [purge_eq]
        simp only [kept]
        omega
      refine hpush ho hg (fun p => rfl) (fun p => ?_) (fun p => ?_) (fun p => ?_)
      · have := hst p
        have := h4 p
        rw [h1, h2, h3]
        omega
      · rw [h2]; exact Nat.le_add_right ..
      · have := h4 p
        rw [h3]
        omega
    simp only [Kernel.resume] at h
    split at h
    · next u k1 hz =>
      obtain ⟨rfl, -⟩ := findZombieChild_some hz
      cases h
      rw [purge_eq] at hpurge ⊢
      exact hpurge (g := []) ⟨rfl, rfl, rfl, rfl, rfl⟩ hnil
        (modify_strong _ u reaped fun t => rfl) (fun p => rfl) fun p => rfl
    · next k1 hz =>
      obtain ⟨rfl, -⟩ := findZombieChild_none hz
      cases h
      rw [purge_eq] at hpurge ⊢
      exact hpurge (g := [.waitAlive]) ⟨rfl, rfl, rfl, rfl, rfl⟩ (by simp [Frame.holds]) (fun p => rfl) (fun p => rfl) fun p => rfl
  | waitAlive =>
    simp only [Kernel.resume] at h
    split at h <;> cases h <;>
      exact hsame (g := []) ⟨rfl, rfl, rfl, rfl, rfl⟩ hnil (fun p => rfl) (fun p => rfl) (fun p => rfl) fun p => rfl
  | checkSignals =>
    simp only [Kernel.resume, doCheckSignals_eq] at h
    split at h
    · next hk =>
      obtain rfl := congrArg Prod.snd hk
      cases h
      exact hsame (g := [.exitWith 0]) ⟨rfl, rfl, rfl, rfl, rfl⟩ (by simp [Frame.holds]) (fun p => rfl)
        (modify_strong k k.current _ checked_strong) (fun p => rfl) fun p => rfl
    · next hk =>
      obtain rfl := congrArg Prod.snd hk
      cases h
      exact hsame (g := []) ⟨rfl, rfl, rfl, rfl, rfl⟩ hnil (fun p => rfl)
        (modify_strong k k.current _ checked_strong) (fun p => rfl) fun p => rfl
  | checkDead =>
    simp only [Kernel.resume] at h
    split at h <;> cases h
    · exact hsame (g := [.exitWith 0]) ⟨rfl, rfl, rfl, rfl, rfl⟩ (by simp [Frame.holds]) (fun p => rfl) (fun p => rfl) (fun p => rfl) fun p => rfl
    · exact hsame (g := []) ⟨rfl, rfl, rfl, rfl, rfl⟩ hnil (fun p => rfl) (fun p => rfl) (fun p => rfl) fun p => rfl
  | checkSchedule =>
    simp only [Kernel.resume] at h
    split at h <;> cases h
    · exact hsame (g := [.schedule .start]) ⟨rfl, rfl, rfl, rfl, rfl⟩ (by simp [Frame.holds]) (fun p => rfl) (fun p => rfl) (fun p => rfl) fun p => rfl
    · exact hsame (g := []) ⟨rfl, rfl, rfl, rfl, rfl⟩ hnil (fun p => rfl) (fun p => rfl) (fun p => rfl) fun p => rfl

/-- The reference of CURRENT_TASK ends, or the ready queue has one more. -/
theorem released_strong (h : 0 < (k.task k.current).strong) (p : Pid) :
    (Function.update k.task k.current (released (k.task k.current)) p).strong + k.readyPids.count p +
      (if p = k.current then 1 else 0) = (k.task p).strong + (k.requeued.map Prod.snd).count p := by
  rw [Function.update_apply, released, requeued]
  by_cases hst : (k.task k.current).state = .running
  · rw [if_pos hst, if_pos hst, List.map_append, List.count_append, List.map_singleton, count_single]
    split
    · next e => rw [e, readyPids]; omega
    · rw [readyPids]; omega
  · rw [if_neg hst, if_neg hst]
    split
    · next e =>
      rw [e, readyPids]
      show (k.task k.current).strong - 1 + _ + _ = _
      omega
    · rw [readyPids]; omega

/-- `schedule()` ends the reference of CURRENT_TASK, or moves it to the ready queue. -/
theorem schedule_live (hs : k.Straight) (hc : k.Counted) {fs : List (Frame Q S)} {b : Bool}
    (hf : k.frames = .schedule .start :: fs) (h : k.schedFor 6 .start = some (b, k')) (p : Pid) :
    k'.live p + (k.task p).strong = k.live p + (k'.task p).strong := by
  have hr : k.running < k.nextPid := hs.running ▸ hc.current_lt
  have hcur : 0 < (k.task k.current).strong := by
    have h1 := hc.strong k.current
    rw [refs, live, if_pos rfl] at h1
    omega
  have hrel := released_strong hcur p
  obtain ⟨e, he, hk⟩ := hs.schedule_eq hf h
  have hready : (k.requeued.map Prod.snd).count p = k'.readyPids.count p + if p = k'.current then 1 else 0 := by
    rw [hk, ((List.perm_cons_erase he).map Prod.snd).count_eq p, List.map_cons, ← List.singleton_append, List.count_append,
      count_single, Nat.add_comm]
    rfl
  have hstack : k'.stack = Function.update k.stack k.running fs := by rw [hk, hs.running]
  have ho : OnStack k fs { k' with current := k.current, running := k.running } := by
    rw [hk] at hstack ⊢
    exact ⟨rfl, rfl, rfl, rfl, hstack⟩
  have hh : k'.handed p = k.handed p := by
    have h1 : k'.handed p + _ = _ := ho.handed hr p
    rw [hf, List.countP_cons_of_neg (by exact Bool.false_ne_true)] at h1
    exact Nat.add_right_cancel h1
  have hw : k'.waiting p = k.waiting p := by rw [hk]; rfl
  have htask : k'.task = Function.update k.task k.current (released (k.task k.current)) := by rw [hk]
  rw [← htask] at hrel
  rw [live, live, listed_eq, listed_eq, hh, hw]
  omega

theorem Accounts.schedule (hs : k.Straight) (hc : k.Counted) {fs : List (Frame Q S)} {b : Bool}
    (hf : k.frames = .schedule .start :: fs) (h : k.schedFor 6 .start = some (b, k')) : k.Accounts k' := by
  have hlive := schedule_live hs hc hf h
  obtain ⟨e, -, hk⟩ := hs.schedule_eq hf h
  have hkept : ∀ p, k'.kept p = k.kept p := fun p => by rw [hk]; rfl
  have hn : k'.nextPid = k.nextPid := by rw [hk]
  have hst : ∀ p, (k'.task p).strong = k'.refs p := fun p => by
    have h1 := hc.strong p
    have h2 := hlive p
    rw [refs] at h1 ⊢
    rw [hkept]
    omega
  have hle : ∀ p, (k'.task p).strong ≤ (k.task p).strong := fun p => by
    rw [hk]
    show (Function.update k.task k.current (released (k.task k.current)) p).strong ≤ _
    rw [Function.update_apply]
    split
    · next e => rw [e, released]; split <;> simp
    · exact Nat.le_refl _
  refine ⟨⟨hst, fun p hp => Nat.le_zero.mp (hc.fresh p (by rwa [Vacant, ← hn]) ▸ hle p)⟩, fun p _ h0 => ?_⟩
  have h1 := hlive p
  have h2 := hle p
  omega

/-- The queues that an interrupt or a call fills are filled from others. -/
theorem Accounts.of_lists {fs : List (Frame Q S)} (h : OnStack k fs k') (hs : k.Straight) (hc : k.Counted)
    (hfs : ∀ p, fs.countP (Frame.holds p) = k.frames.countP (Frame.holds p))
    (hst : ∀ p, (k'.task p).strong = (k.task p).strong) (hl : ∀ p, k'.listed p = k.listed p)
    (hk : ∀ p, k'.kept p = k.kept p) : k.Accounts k' :=
  h.accounts hs hc fun p => by rw [hfs]; exact .of_eq (hst p) (hl p) (hk p)

theorem interrupt_listed [DecidableEq Q] (k : Kernel Q S) (i : Irq Q) (p : Pid) :
    (k.interrupt i).listed p = k.listed p := by
  cases i with
  | timer expired => exact checkSleepers_listed { k with tick := k.tick + 1 } p
  | wake q => exact wakeUp_listed k q p
  | ctrlC pid =>
    obtain ⟨task, ht⟩ := tty_fields k pid sigInt
    simp only [Kernel.interrupt, ht]
    rfl
  | ctrlZ pid =>
    obtain ⟨task, ht⟩ := tty_fields k pid sigStop
    simp only [Kernel.interrupt, ht]
    rfl

theorem interrupt_live [DecidableEq Q] (hs : k.Straight) (hc : k.Counted) (i : Irq Q) (p : Pid) :
    (k.interrupt i).live p = k.live p := by
  have ho := interrupt_onStack k i
  have h1 : (k.interrupt i).handed p + k.frames.countP (Frame.holds p) = k.handed p + k.frames.countP (Frame.holds p) :=
    ho.handed (hs.running ▸ hc.current_lt) p
  rw [live, live, interrupt_listed, ho.current, Nat.add_right_cancel h1]

theorem Accounts.interrupt [DecidableEq Q] (hs : k.Straight) (hc : k.Counted) (i : Irq Q) : k.Accounts (k.interrupt i) := by
  have htty : ∀ pid sig p, ((k.tty pid sig).task p).strong = (k.task p).strong := fun pid sig p => by
    unfold tty
    split
    · exact modify_strong k pid (fun t => { t with signals := t.signals.send sig }) (fun t => rfl) p
    · rfl
  refine Accounts.of_lists (interrupt_onStack k i) hs hc (fun p => rfl) (fun p => ?_) (interrupt_listed k i) fun p => ?_
  · cases i with
    | timer expired =>
      simp only [Kernel.interrupt, checkSleepers_eq]
      show (if p ∈ _ then _ else _ : Task).strong = _
      split <;> rfl
    | wake q =>
      simp only [Kernel.interrupt, wakeUp_eq]
      show (if p ∈ _ then _ else _ : Task).strong = _
      split <;> rfl
    | ctrlC pid => exact htty pid sigInt p
    | ctrlZ pid => exact htty pid sigStop p
  · cases i with
    | timer expired => simp only [Kernel.interrupt, checkSleepers_eq]; rfl
    | wake q => simp only [Kernel.interrupt, wakeUp_eq]; rfl
    | ctrlC pid =>
      obtain ⟨task, ht⟩ := tty_fields k pid sigInt
      simp only [Kernel.interrupt, ht]
      rfl
    | ctrlZ pid =>
      obtain ⟨task, ht⟩ := tty_fields k pid sigStop
      simp only [Kernel.interrupt, ht]
      rfl

theorem create_vacant (h0 : 0 < k.nextPid) {t : Task} (h : (k.create t).Vacant p) : k.Vacant p ∧ p ≠ k.nextPid := by
  rcases h with rfl | h
  · exact ⟨Or.inl rfl, Nat.ne_of_lt h0⟩
  · exact ⟨Or.inr (Nat.le_of_lt h), Nat.ne_of_gt h⟩

theorem create_strong {t : Task} (ht : t.strong = 1) (h : (k.task k.nextPid).strong = 0) (p : Pid) :
    ((k.create t).task p).strong = (k.task p).strong + 2 * if p = k.nextPid then 1 else 0 := by
  rw [create_task]
  split
  · next e => rw [e, h, ht]
  · rfl

theorem create_refs (k : Kernel Q S) (t : Task) (p : Pid) :
    (k.create t).live p = k.live p + (if p = k.nextPid then 1 else 0) ∧
      (k.create t).refs p = k.refs p + 2 * if p = k.nextPid then 1 else 0 := by
  have hh : (k.create t).handed p = k.handed p := by
    show (∑ u ∈ range (k.nextPid + 1), (Function.update k.stack k.nextPid [] u).countP (Frame.holds p)) = _
    rw [sum_range_succ, Function.update_self, List.countP_nil, Nat.add_zero]
    refine sum_congr rfl fun u hu => ?_
    rw [Function.update_of_ne (Nat.ne_of_lt (mem_range.mp hu))]
  have hl : (k.create t).listed p = k.listed p + if p = k.nextPid then 1 else 0 := by
    rw [listed_eq, listed_eq, create_readyPids, List.count_append, count_single]
    show _ + k.waiting p = _
    omega
  have hk : (k.create t).kept p = k.kept p + if p = k.nextPid then 1 else 0 := by
    show (k.owner.map Prod.snd).count p + (k.all ++ [k.nextPid]).count p = _
    rw [List.count_append, count_single, kept, Nat.add_assoc]
  have hlive : (k.create t).live p = k.live p + if p = k.nextPid then 1 else 0 := by
    show (k.create t).listed p + (k.create t).handed p + (if p = k.current then 1 else 0) = _
    rw [hl, hh, live]
    omega
  refine ⟨hlive, ?_⟩
  rw [refs, refs, hlive, hk]
  omega

theorem Accounts.create (hc : k.Counted) {t : Task} (ht : t.strong = 1) : k.Accounts (k.create t) := by
  have h0 := hc.fresh k.nextPid (Or.inr (Nat.le_refl _))
  refine ⟨⟨fun p => ?_, fun p hp => ?_⟩, fun p hp hl => ?_⟩
  · rw [create_strong ht h0, (create_refs k t p).2, hc.strong]
  · obtain ⟨h1, h2⟩ := create_vacant (Nat.zero_lt_of_lt hc.current_lt) hp
    rw [create_strong ht h0, hc.fresh p h1, if_neg h2]
  · rw [(create_refs k t p).1, if_neg (Nat.ne_of_lt hp), hl]

theorem Accounts.enter [DecidableEq Q] [DecidableEq S] (hs : k.Straight) (hc : k.Counted) (h0 : k.frames = [])
    (c : Call Q S) : k.Accounts (k.enter c) := by
  have hnil : Function.update k.stack k.running [] = k.stack := Function.update_eq_self_iff.mpr h0.symm
  have hz : ∀ fs : List (Frame Q S), (∀ p, ∀ u ∈ fs, u.holds p = false) →
      ∀ p, fs.countP (Frame.holds p) = k.frames.countP (Frame.holds p) := fun fs hfs p => by
    rw [h0, List.countP_nil]
    exact List.countP_eq_zero.mpr fun u hu => by rw [hfs p u hu]; exact Bool.false_ne_true
  have hself : ∀ {k' : Kernel Q S}, OnStack k [] k' → (∀ p, (k'.task p).strong = (k.task p).strong) →
      (∀ p, k'.listed p = k.listed p) → (∀ p, k'.kept p = k.kept p) → k.Accounts k' := fun ho =>
    Accounts.of_lists ho hs hc (hz [] (by simp))
  have hcall : ∀ fs : List (Frame Q S), (∀ p, ∀ u ∈ fs, u.holds p = false) → k.Accounts (k.setFrames fs) := fun fs hfs =>
    Accounts.of_lists (onStack_setFrames k fs) hs hc (hz fs hfs) (fun p => rfl) (fun p => rfl) fun p => rfl
  cases c with
  | wakeUp q =>
    refine @hself (k.wakeUp q) ?_ (fun p => ?_) (wakeUp_listed k q) fun p => ?_
    · rw [wakeUp_eq]; exact ⟨rfl, rfl, rfl, rfl, hnil.symm⟩
    · rw [wakeUp_eq]
      show (if p ∈ _ then _ else _ : Task).strong = _
      split <;> rfl
    · rw [wakeUp_eq]; rfl
  | sleep ms =>
    simp only [Kernel.enter]
    split
    · exact hself ⟨rfl, rfl, rfl, rfl, hnil.symm⟩ (fun p => rfl) (fun p => rfl) fun p => rfl
    · exact hcall _ (by simp [Frame.holds])
  | schedYield => exact hself ⟨rfl, rfl, rfl, rfl, hnil.symm⟩ (fun p => rfl) (fun p => rfl) fun p => rfl
  | tryDown s =>
    simp only [Kernel.enter, tryDown]
    split <;> exact hself ⟨rfl, rfl, rfl, rfl, hnil.symm⟩ (fun p => rfl) (fun p => rfl) fun p => rfl
  | up s =>
    obtain ⟨task, ht, hu⟩ := upSection_eq k s
    have hst : ∀ p, (task p).strong = (k.task p).strong - k.ownerRef s p := fun p => by
      obtain ⟨a, b, e⟩ := ht p
      rw [e]
    simp only [Kernel.enter, hu]
    have hbal : ∀ p (k' : Kernel Q S) n', k'.task = task → k'.ready = k.ready → k'.waitq = k.waitq → k'.sleepq = k.sleepq →
        k'.all = k.all → k'.semq = (k.semq.eraseP fun e => e.1 = s) → k'.owner = (k.owner.eraseP fun e => e.1 = s) →
        n' = (if (k.semq.find? fun e => e.1 = s).map Prod.snd = some p then 1 else 0) → Balance k k' p 0 n' := by
      intro p k' n' e1 e2 e3 e4 e5 e6 e7 e8
      have h1 := count_eraseP k.semq Prod.snd (fun e => e.1 = s) p
      have h2 := count_eraseP k.owner Prod.snd (fun e => e.1 = s) p
      have h3 := hc.strong p
      have h4 := hst p
      rw [ownerRef, ownerOf] at h4
      simp only [refs, kept] at h3
      refine ⟨?_, ?_, ?_⟩ <;> simp only [listed, readyPids, kept, e1, e2, e3, e4, e5, e6, e7, e8] <;> omega
    cases hfind : k.semq.find? fun e => e.1 = s with
    | none =>
      refine OnStack.accounts ⟨rfl, rfl, rfl, rfl, hnil.symm⟩ hs hc fun p => ?_
      rw [h0]
      exact hbal p _ _ rfl rfl rfl rfl rfl rfl rfl (by rw [hfind]; rfl)
    | some e =>
      refine OnStack.accounts ⟨rfl, rfl, rfl, rfl, rfl⟩ hs hc fun p => ?_
      rw [h0]
      refine hbal p _ _ rfl rfl rfl rfl rfl rfl rfl ?_
      rw [hfind, List.countP_singleton]
      simp [Frame.holds]
  | kill pid sig =>
    obtain ⟨task, ht⟩ := doKill_fields k pid sig
    have hst := doKill_strong k pid sig
    rw [ht] at hst
    simp only [Kernel.enter, ht]
    exact hself ⟨rfl, rfl, rfl, rfl, hnil.symm⟩ hst (fun p => rfl) fun p => rfl
  | fork =>
    simp only [Kernel.enter, doFork]
    split
    · exact Accounts.create hc rfl
    · exact hself ⟨rfl, rfl, rfl, rfl, hnil.symm⟩ (fun p => rfl) (fun p => rfl) fun p => rfl
  | createKernelThread prio => exact Accounts.create hc rfl
  | fault sig =>
    obtain ⟨task, ht⟩ := doKill_fields k k.current sig
    have hst := doKill_strong k k.current sig
    rw [ht] at hst
    simp only [Kernel.enter, ht]
    exact Accounts.of_lists ⟨rfl, rfl, rfl, rfl, rfl⟩ hs hc
      (hz _ (by simp [Frame.holds])) hst (fun p => rfl) fun p => rfl
  | _ => exact hcall _ (by simp [Frame.holds])

theorem Accounts.step [DecidableEq Q] [DecidableEq S] (hs : k.Straight) (hc : k.Counted) {e : Event Q S} (he : Outside e)
    (h : step k e = some k') : k.Accounts k' := by
  cases e with
  | irqInside n i => exact he.elim
  | irq i => cases h; exact Accounts.interrupt hs hc i
  | call c =>
    simp only [Kernel.step] at h
    split at h
    · next h0 => cases h; exact Accounts.enter hs hc h0 c
    · cases h
  | run b =>
    simp only [Kernel.step] at h
    split at h
    · cases h
    · next f fs hf =>
      by_cases hsch : ∃ pc, f = .schedule pc
      · obtain ⟨pc, rfl⟩ := hsch
        obtain rfl := hs.start k.running pc (by rw [show k.stack k.running = _ from hf]; exact List.mem_cons_self)
        obtain ⟨⟨r, k1⟩, hr, rfl⟩ := Option.map_eq_some_iff.mp h
        exact Accounts.schedule hs hc hf hr
      · exact Accounts.resume hs hc hf (fun pc e => hsch ⟨pc, e⟩) h

/-- At boot CURRENT_TASK holds nothing yet. -/
structure Booting (k : Kernel Q S) : Prop where
  strong : ∀ p, (k.task p).strong + (if p = k.current then 1 else 0) = k.refs p
  fresh : ∀ p, k.Vacant p → (k.task p).strong = 0
  pos : 0 < k.nextPid

theorem createIdle_booting (count : S → Int) : (empty count : Kernel Q S).createIdle.Booting := by
  have ht : ∀ p, ((empty count : Kernel Q S).createIdle.task p).strong = 3 * if p = idlePid then 1 else 0 := fun p => by
    rw [createIdle, cloneArc_strong, create_strong rfl rfl]
    show 0 + 2 * (if p = idlePid then 1 else 0) + (if p = idlePid then 1 else 0) = _
    omega
  refine ⟨fun p => ?_, fun p hp => ?_, Nat.zero_lt_succ _⟩
  · have h1 := (create_refs (empty count : Kernel Q S) (Task.new 0 0 false) p).2
    have h2 : (empty count : Kernel Q S).createIdle.refs p = ((empty count : Kernel Q S).create (Task.new 0 0 false)).refs p := rfl
    have h3 : (empty count : Kernel Q S).refs p = (if p = 0 then 1 else 0) + if p = idlePid then 1 else 0 := by
      have hh : (empty count : Kernel Q S).handed p = 0 := sum_eq_zero fun u _ => rfl
      show (0 + (empty count : Kernel Q S).handed p + _) + 0 + _ = _
      rw [hh]
      show 0 + 0 + (if p = 0 then 1 else 0) + 0 + _ = _
      omega
    rw [ht, h2, h1, h3]
    show _ + (if p = 0 then 1 else 0) = _ + 2 * (if p = idlePid then 1 else 0)
    omega
  · rw [ht, if_neg]
    exact (create_vacant (k := (empty count : Kernel Q S)) Nat.zero_lt_one (t := Task.new 0 0 false) hp).2

/-- The reference of the ready queue becomes that of CURRENT_TASK. -/
theorem take_refs {e : Prio × Pid} (he : e ∈ k.ready) (p : Pid) :
    ({ k with ready := k.ready.erase e, current := e.2, running := e.2 } : Kernel Q S).refs p +
      (if p = k.current then 1 else 0) = k.refs p := by
  have hr : k.readyPids.count p = ((k.ready.erase e).map Prod.snd).count p + if p = e.2 then 1 else 0 := by
    rw [readyPids, ((List.perm_cons_erase he).map Prod.snd).count_eq p, List.map_cons, ← List.singleton_append,
      List.count_append, count_single, Nat.add_comm]
  simp only [refs, live, listed_eq, hr]
  show ((k.ready.erase e).map Prod.snd).count p + k.waiting p + k.handed p + _ + k.kept p + _ + _ = _
  omega

theorem start_counted {count : S → Int} {ts : List (Prio × Bool)} (h : start count ts = some k) : k.Counted := by
  obtain ⟨k1, e, h1, he, rfl⟩ := start_rule (P := Booting) (createIdle_booting count) (fun k prio user hk => by
    have h0 := hk.fresh k.nextPid (Or.inr (Nat.le_refl _))
    refine ⟨fun p => ?_, fun p hp => ?_, Nat.zero_lt_succ _⟩
    · have := hk.strong p
      rw [create_strong rfl h0, (create_refs k _ p).2]
      show _ + _ + (if p = k.current then 1 else 0) = _
      omega
    · obtain ⟨h1, h2⟩ := create_vacant hk.pos hp
      rw [create_strong rfl h0, hk.fresh p h1, if_neg h2]) h
  refine ⟨fun p => ?_, h1.fresh⟩
  have h2 := h1.strong p
  have h3 := take_refs he p
  show (k1.task p).strong = _
  omega

/-- Each strong reference to a task is held somewhere, and each holder counts once. -/
theorem counted_reach [DecidableEq Q] [DecidableEq S] (h : Lib.Reach step (fun _ => Outside) Boot k) :
    k.Straight ∧ k.Counted :=
  h.rule (P := fun k => k.Straight ∧ k.Counted) (fun _ ⟨_, _, hk⟩ => ⟨start_straight hk, start_counted hk⟩)
    fun _ _ _ ⟨hs, hc⟩ he h => ⟨hs.step he h, (Accounts.step hs hc he h).counted⟩

/-! ## Who is in ALL_TASKS -/

/-- The same task up to what the scheduler and signals change. -/
def SameRecord (t t' : Task) : Prop := t'.ppid = t.ppid ∧ t'.arcSelf = t.arcSelf ∧ t'.exitCode = t.exitCode

theorem SameRecord.refl (t : Task) : SameRecord t t := ⟨rfl, rfl, rfl⟩

theorem modify_record (k : Kernel Q S) (u : Pid) (f : Task → Task) (hf : ∀ t, SameRecord t (f t)) (p : Pid) :
    SameRecord (k.task p) ((k.modify u f).task p) := by
  rw [modify_task]
  split
  · exact hf _
  · exact .refl _

/-- Nobody is registered, reaped or exits. -/
structure Keeps (k k' : Kernel Q S) : Prop where
  all : k'.all = k.all
  waits : k'.waits = k.waits
  nextPid : k'.nextPid = k.nextPid
  record : ∀ p, SameRecord (k.task p) (k'.task p)

theorem doKill_record (k : Kernel Q S) (pid sig : Nat) (p : Pid) :
    SameRecord (k.task p) ((k.doKill pid sig).2.task p) := by
  rcases doKill_eq k pid sig with e | ⟨-, -, e⟩ <;> rw [e]
  · exact .refl _
  · refine modify_record k pid _ (fun t => ?_) p
    unfold killed
    split
    · exact ⟨rfl, rfl, rfl⟩
    · split
      · exact ⟨rfl, rfl, rfl⟩
      · split <;> exact ⟨rfl, rfl, rfl⟩

theorem checked_record (t : Task) : SameRecord t (checked t).2 := by
  by_cases h0 : t.signals.checkPending = 0
  · simp [checked, h0, SameRecord]
  · cases ha : defaultAction t.signals.checkPending <;> simp [checked, h0, ha, SameRecord]

theorem Keeps.trans {k1 : Kernel Q S} (h : k.Keeps k1) (h' : k1.Keeps k') : k.Keeps k' := by
  refine ⟨h'.all.trans h.all, h'.waits.trans h.waits, h'.nextPid.trans h.nextPid, fun p => ?_⟩
  obtain ⟨a, b, c⟩ := h.record p
  obtain ⟨a', b', c'⟩ := h'.record p
  exact ⟨a'.trans a, b'.trans b, c'.trans c⟩

theorem schedStep_keeps {pc : SchedPc} {o : Option SchedPc} (h : k.schedStep pc = some (k', o)) : k.Keeps k' := by
  have hrec : ∀ p, SameRecord (k.task p) (k.task p) := fun p => .refl _
  cases pc with
  | start => cases h; exact ⟨rfl, rfl, rfl, hrec⟩
  | enqueue cur =>
    cases h
    exact ⟨rfl, rfl, rfl, modify_record k cur (fun t => { t with strong := t.strong + 1 }) fun t => ⟨rfl, rfl, rfl⟩⟩
  | pick cur =>
    obtain ⟨⟨n, k1⟩, hp, h⟩ := Option.map_eq_some_iff.mp h
    obtain ⟨e, -, -, rfl⟩ := popReady_eq hp
    cases h
    exact ⟨rfl, rfl, rfl, hrec⟩
  | store cur next => cases h; exact ⟨rfl, rfl, rfl, hrec⟩
  | drop cur next =>
    cases h
    exact ⟨rfl, rfl, rfl, modify_record k cur (fun t => { t with strong := t.strong - 1 }) fun t => ⟨rfl, rfl, rfl⟩⟩
  | switch cur next => cases h; exact ⟨rfl, rfl, rfl, hrec⟩

theorem Keeps.schedule (n : Nat) : ∀ {pc : SchedPc} {k : Kernel Q S} {b : Bool}, k.schedFor n pc = some (b, k') → k.Keeps k' := by
  induction n with
  | zero =>
    intro pc k b h
    cases h
    exact ⟨rfl, rfl, rfl, fun p => .refl _⟩
  | succ n ih =>
    intro pc k b h
    rw [schedFor] at h
    cases hs : k.schedStep pc with
    | none => rw [hs] at h; cases h
    | some r =>
      obtain ⟨k1, o⟩ := r
      rw [hs] at h
      cases o with
      | none => cases h; exact schedStep_keeps hs
      | some pc' => exact (schedStep_keeps hs).trans (ih h)

theorem Keeps.resume [DecidableEq S] {f : Frame Q S} {fs : List (Frame Q S)} {b : Bool} (hr : f.records = false) (h : k.resume b fs f = some k') : k.Keeps k' := by
  have hsleep : ∀ p, SameRecord (k.task p) (((k.cloneArc k.current).setState k.current .sleeping).task p) := fun p => by
    have h1 := modify_record k k.current (fun t => { t with strong := t.strong + 1 }) (fun t => ⟨rfl, rfl, rfl⟩) p
    have h2 := modify_record (k.cloneArc k.current) k.current (fun t => { t with state := .sleeping })
      (fun t => ⟨rfl, rfl, rfl⟩) p
    exact ⟨h2.1.trans h1.1, h2.2.1.trans h1.2.1, h2.2.2.trans h1.2.2⟩
  have hsame : ∀ gs, k.Keeps (k.setFrames gs) := fun gs => ⟨rfl, rfl, rfl, fun p => .refl _⟩
  cases f with
  | schedule pc =>
    obtain ⟨⟨r, k1⟩, hr, rfl⟩ := Option.map_eq_some_iff.mp h
    exact Keeps.schedule 6 hr
  | waitEvent q =>
    simp only [Kernel.resume] at h
    split at h
    · cases h; exact hsame _
    · obtain ⟨k1, h1, rfl⟩ := Option.map_eq_some_iff.mp h
      obtain ⟨rfl, -⟩ := upgrade_eq h1
      exact ⟨rfl, rfl, rfl, hsleep⟩
  | waitTest q =>
    simp only [Kernel.resume] at h
    split at h <;> cases h <;> exact hsame _
  | sleep e =>
    obtain ⟨k1, h1, rfl⟩ := Option.map_eq_some_iff.mp h
    obtain ⟨rfl, -⟩ := upgrade_eq h1
    exact ⟨rfl, rfl, rfl, hsleep⟩
  | down s =>
    simp only [Kernel.resume] at h
    split at h
    · cases h
    · next hd =>
      obtain ⟨-, -, rfl⟩ := downSection_true hd
      cases h
      exact ⟨rfl, rfl, rfl, fun p => ⟨rfl, rfl, rfl⟩⟩
    · next hd =>
      obtain ⟨-, -, -, task, rfl, hr⟩ := downSection_false hd
      cases h
      refine ⟨rfl, rfl, rfl, fun p => ?_⟩
      obtain ⟨a, b, e⟩ := hr p
      show SameRecord _ (task p)
      rw [e]
      exact ⟨rfl, rfl, rfl⟩
  | rouse t =>
    cases h
    exact ⟨rfl, rfl, rfl, modify_record k t (fun t => { t with state := .running }) fun t => ⟨rfl, rfl, rfl⟩⟩
  | exitNotify =>
    simp only [Kernel.resume] at h
    cases h
    split
    · obtain ⟨task, ht⟩ := doKill_fields k (k.task k.current).ppid sigChld
      have hrec := doKill_record k (k.task k.current).ppid sigChld
      rw [ht] at hrec ⊢
      exact ⟨rfl, rfl, rfl, hrec⟩
    · exact hsame _
  | checkSignals =>
    simp only [Kernel.resume, doCheckSignals_eq] at h
    split at h
    · next hk =>
      obtain rfl := congrArg Prod.snd hk
      cases h
      exact ⟨rfl, rfl, rfl, modify_record k k.current _ checked_record⟩
    · next hk =>
      obtain rfl := congrArg Prod.snd hk
      cases h
      exact ⟨rfl, rfl, rfl, modify_record k k.current _ checked_record⟩
  | checkDead =>
    simp only [Kernel.resume] at h
    split at h <;> cases h <;> exact hsame _
  | checkSchedule =>
    simp only [Kernel.resume] at h
    split at h <;> cases h
    · exact ⟨rfl, rfl, rfl, fun p => .refl _⟩
    · exact hsame _
  | _ => cases hr

theorem Keeps.interrupt [DecidableEq Q] (k : Kernel Q S) (i : Irq Q) : k.Keeps (k.interrupt i) := by
  have htty : ∀ pid sig, k.Keeps (k.tty pid sig) := fun pid sig => by
    unfold tty
    split
    · exact ⟨rfl, rfl, rfl, modify_record k pid (fun t => { t with signals := t.signals.send sig }) fun t => ⟨rfl, rfl, rfl⟩⟩
    · exact ⟨rfl, rfl, rfl, fun p => .refl _⟩
  cases i with
  | timer expired =>
    simp only [Kernel.interrupt, checkSleepers_eq]
    refine ⟨rfl, rfl, rfl, fun p => ?_⟩
    show SameRecord _ (if p ∈ _ then _ else _ : Task)
    split <;> exact ⟨rfl, rfl, rfl⟩
  | wake q =>
    simp only [Kernel.interrupt, wakeUp_eq]
    refine ⟨rfl, rfl, rfl, fun p => ?_⟩
    show SameRecord _ (if p ∈ _ then _ else _ : Task)
    split <;> exact ⟨rfl, rfl, rfl⟩
  | ctrlC pid => exact ⟨(htty pid sigInt).all, (htty pid sigInt).waits, (htty pid sigInt).nextPid, (htty pid sigInt).record⟩
  | ctrlZ pid => exact ⟨(htty pid sigStop).all, (htty pid sigStop).waits, (htty pid sigStop).nextPid, (htty pid sigStop).record⟩

theorem enter_keeps [DecidableEq Q] [DecidableEq S] (k : Kernel Q S) (c : Call Q S) : k.Keeps (k.enter c) ∨
    ∃ ppid prio user, k.enter c = k.create (Task.new ppid prio user) ∧ (ppid = 0 ∨ ppid = k.current) := by
  have hsame : ∀ gs, k.Keeps (k.setFrames gs) := fun gs => ⟨rfl, rfl, rfl, fun p => .refl _⟩
  have hself : k.Keeps k := ⟨rfl, rfl, rfl, fun p => .refl _⟩
  cases c with
  | wakeUp q =>
    left
    simp only [Kernel.enter, wakeUp_eq]
    refine ⟨rfl, rfl, rfl, fun p => ?_⟩
    show SameRecord _ (if p ∈ _ then _ else _ : Task)
    split <;> exact ⟨rfl, rfl, rfl⟩
  | sleep ms =>
    left
    simp only [Kernel.enter]
    split
    · exact hself
    · exact hsame _
  | schedYield => exact Or.inl ⟨rfl, rfl, rfl, fun p => .refl _⟩
  | tryDown s =>
    left
    simp only [Kernel.enter, tryDown]
    split
    · exact ⟨rfl, rfl, rfl, fun p => .refl _⟩
    · exact hself
  | up s =>
    left
    obtain ⟨task, ht, hu⟩ := upSection_eq k s
    have hrec : ∀ p, SameRecord (k.task p) (task p) := fun p => by
      obtain ⟨a, b, e⟩ := ht p
      rw [e]
      exact ⟨rfl, rfl, rfl⟩
    simp only [Kernel.enter, hu]
    cases k.semq.find? fun e => e.1 = s <;> exact ⟨rfl, rfl, rfl, hrec⟩
  | kill pid sig =>
    left
    obtain ⟨task, ht⟩ := doKill_fields k pid sig
    have hrec := doKill_record k pid sig
    rw [ht] at hrec
    simp only [Kernel.enter, ht]
    exact ⟨rfl, rfl, rfl, hrec⟩
  | fork =>
    simp only [Kernel.enter, doFork]
    split
    · exact Or.inr ⟨_, _, _, rfl, Or.inr rfl⟩
    · exact Or.inl hself
  | createKernelThread prio => exact Or.inr ⟨_, _, _, rfl, Or.inl rfl⟩
  | fault sig =>
    left
    obtain ⟨task, ht⟩ := doKill_fields k k.current sig
    have hrec := doKill_record k k.current sig
    rw [ht] at hrec
    simp only [Kernel.enter, ht]
    exact ⟨rfl, rfl, rfl, hrec⟩
  | _ => exact Or.inl (hsame _)

/-! ## Every run -/

/-- Who is not in ALL_TASKS was reaped and cannot run any more. -/
structure Rooted (k : Kernel Q S) : Prop where
  all : ∀ p, ¬ k.Vacant p → p ∈ k.all ∨ k.live p = 0 ∧ (k.task p).arcSelf = false
  returned : ∀ p, ¬ k.Vacant p → (k.task p).arcSelf = false → ∃ parent code, (parent, .child p code) ∈ k.waits

/-- No interrupt arrives inside `schedule()`; and when `do_wait4` runs, the DEAD entries of
    ALL_TASKS were reaped and can not come to run. -/
def Sparing (k : Kernel Q S) : Event Q S → Prop
  | .irqInside _ _ => False
  | .run _ =>
    match k.frames with
    | .wait4 _ :: _ => ∀ p ∈ k.all, (k.task p).state = .dead → (k.task p).arcSelf = false ∧ k.live p = 0
    | _ => True
  | _ => True

theorem Sparing.outside {e : Event Q S} (h : k.Sparing e) : Outside e := by
  cases e <;> first | exact h | trivial

theorem Rooted.keep (h : k.Rooted) (hn : k'.nextPid = k.nextPid) (hl : ∀ p, p < k.nextPid → k.live p = 0 → k'.live p = 0)
    (ha : k.all ⊆ k'.all) (hw : k.waits ⊆ k'.waits) (hs : ∀ p, (k'.task p).arcSelf = (k.task p).arcSelf) : k'.Rooted := by
  have hv : ∀ p, ¬ k'.Vacant p → ¬ k.Vacant p := fun p => by
    rw [Vacant, hn]
    exact id
  refine ⟨fun p hp => ?_, fun p hp h0 => ?_⟩
  · rcases h.all p (hv p hp) with hm | ⟨h1, h2⟩
    · exact Or.inl (ha hm)
    · exact Or.inr ⟨hl p (Nat.lt_of_not_le fun hle => hv p hp (Or.inr hle)) h1, (hs p).trans h2⟩
  · obtain ⟨u, c, hm⟩ := h.returned p (hv p hp) ((hs p).symm.trans h0)
    exact ⟨u, c, hw hm⟩

theorem Keeps.rooted (hk : k.Keeps k') (h : k.Rooted) (hl : ∀ p, p < k.nextPid → k.live p = 0 → k'.live p = 0) :
    k'.Rooted :=
  h.keep hk.nextPid hl (by rw [hk.all]; exact List.Subset.refl _) (by rw [hk.waits]; exact List.Subset.refl _)
    fun p => (hk.record p).2.1

theorem Rooted.create (h : k.Rooted) {t : Task} (ht : t.arcSelf = true) : (k.create t).Rooted := by
  have hp : ∀ p, ¬ (k.create t).Vacant p → p = k.nextPid ∨ p ≠ k.nextPid ∧ ¬ k.Vacant p := fun p hp => by
    by_cases e : p = k.nextPid
    · exact Or.inl e
    · refine Or.inr ⟨e, fun hv => hp (hv.imp_right fun hle => ?_)⟩
      exact Nat.lt_of_le_of_ne hle (Ne.symm e)
  refine ⟨fun p hv => ?_, fun p hv h0 => ?_⟩ <;> rcases hp p hv with e | ⟨e, hv⟩
  · exact Or.inl (List.mem_append_right _ (List.mem_singleton.mpr e))
  · rw [create_task, if_neg e, (create_refs k t p).1, if_neg e]
    exact (h.all p hv).imp_left (List.mem_append_left _)
  · rw [create_task, if_pos e] at h0
    cases ht.symm.trans h0
  · rw [create_task, if_neg e] at h0
    exact h.returned p hv h0

theorem Rooted.resume [DecidableEq S] (h : k.Rooted) {f : Frame Q S} {fs : List (Frame Q S)} {b : Bool}
    (hf : k.frames = f :: fs) (hok : k.Sparing (.run b))
    (hr : k.resume b fs f = some k') (hl : ∀ p, p < k.nextPid → k.live p = 0 → k'.live p = 0) : k'.Rooted := by
  simp only [Sparing, hf] at hok
  have harc : ∀ u, ∀ f : Task → Task, (∀ t, (f t).arcSelf = t.arcSelf) → ∀ p, ((k.modify u f).task p).arcSelf =
      (k.task p).arcSelf := fun u f hf p => by
    rw [modify_task]
    split
    · exact hf _
    · rfl
  cases hrec : f.records with
  | false => exact (Keeps.resume hrec hr).rooted h hl
  | true =>
    cases f with
    | add t =>
      cases hr
      exact h.keep rfl hl (List.subset_append_left _ _) (List.Subset.refl _)
        (harc t (fun t => { t with strong := t.strong + 1 }) fun t => rfl)
    | exitWith code =>
      rw [resume_exitWith] at hr
      cases hr
      exact h.keep rfl hl (List.Subset.refl _) (List.Subset.refl _) (harc k.current (exited code) fun t => rfl)
    | waitAlive =>
      simp only [Kernel.resume] at hr
      split at hr <;> cases hr <;>
        exact h.keep rfl hl (List.Subset.refl _) (List.subset_append_left _ _) fun p => rfl
    | wait4 pid =>
      -- who is dropped was reaped before; the child that is returned is reaped now
      have hall : ∀ p, p ∈ k.all → p ∈ k.purge.all ∨ k.live p = 0 ∧ (k.task p).arcSelf = false := fun p hm => by
        by_cases hd : (k.task p).state = .dead
        · exact Or.inr (hok p hm hd).symm
        · rw [purge_eq]
          exact Or.inl (List.mem_filter.mpr ⟨hm, decide_eq_true hd⟩)
      have hroot : ∀ k' : Kernel Q S, k'.nextPid = k.nextPid → k'.all = k.purge.all →
          (∀ p, (k.task p).arcSelf = false → (k'.task p).arcSelf = false) →
          (∀ p, p < k.nextPid → k.live p = 0 → k'.live p = 0) →
          ∀ p, ¬ k'.Vacant p → p ∈ k'.all ∨ k'.live p = 0 ∧ (k'.task p).arcSelf = false := by
        intro k' hn ha hs hl p hv
        have hv : ¬ k.Vacant p := by rwa [Vacant, ← hn]
        have hlt : p < k.nextPid := Nat.lt_of_not_le fun hle => hv (Or.inr hle)
        have hgone : k.live p = 0 ∧ (k.task p).arcSelf = false → k'.live p = 0 ∧ (k'.task p).arcSelf = false :=
          fun hg => ⟨hl p hlt hg.1, hs p hg.2⟩
        rw [ha]
        rcases h.all p hv with hm | hg
        · exact (hall p hm).imp_right hgone
        · exact Or.inr (hgone hg)
      simp only [Kernel.resume] at hr
      split at hr
      · next code u k1 hz =>
        obtain ⟨rfl, -, -, -⟩ := findZombieChild_some hz
        cases hr
        have harc' : ∀ p, (((k.purge.modify u reaped)).task p).arcSelf = if p = u then false else (k.task p).arcSelf :=
          fun p => by
            rw [modify_task]
            split
            · rfl
            · rw [purge_eq]
        refine ⟨hroot _ (by rw [purge_eq]; rfl) rfl (fun p h0 => (harc' p).trans ?_) hl, fun p hv h0 => ?_⟩
        · split
          · rfl
          · exact h0
        · have hv : ¬ k.Vacant p := by
            rw [purge_eq] at hv
            exact hv
          have h0 := (harc' p).symm.trans h0
          have hw : (((k.purge.modify u reaped).returns (.child u code)).setFrames fs).waits =
              k.waits ++ [(k.current, .child u code)] := by rw [purge_eq]; rfl
          rw [hw]
          by_cases e : p = u
          · exact ⟨_, code, List.mem_append_right _ (by rw [e]; exact List.mem_singleton_self _)⟩
          · rw [if_neg e] at h0
            obtain ⟨v, c, hm⟩ := h.returned p hv h0
            exact ⟨v, c, List.mem_append_left _ hm⟩
      · next k1 hz =>
        obtain ⟨rfl, -⟩ := findZombieChild_none hz
        cases hr
        refine ⟨hroot _ (by rw [purge_eq]; rfl) rfl (fun p h0 => ?_) hl, fun p hv h0 => ?_⟩
        · rw [purge_eq]; exact h0
        · rw [purge_eq] at hv h0 ⊢
          exact h.returned p hv h0
    | _ => cases hrec

theorem Rooted.step [DecidableEq Q] [DecidableEq S] (h : k.Rooted) (hs : k.Straight) (hc : k.Counted) {e : Event Q S}
    (he : k.Sparing e) (hk : step k e = some k') : k'.Rooted := by
  have hl := (Accounts.step hs hc he.outside hk).live
  cases e with
  | irqInside n i => exact he.elim
  | irq i => cases hk; exact (Keeps.interrupt k i).rooted h hl
  | call c =>
    simp only [Kernel.step] at hk
    split at hk
    · cases hk
      rcases enter_keeps k c with hk | ⟨ppid, prio, user, e, -⟩
      · exact hk.rooted h hl
      · rw [e]; exact h.create rfl
    · cases hk
  | run b =>
    simp only [Kernel.step] at hk
    split at hk
    · cases hk
    · next f fs hf => exact h.resume hf he hk hl

theorem start_registered {count : S → Int} {ts : List (Prio × Bool)} (h : start count ts = some k) :
    ∀ p, ¬ k.Vacant p → p ∈ k.all ∧ (k.task p).arcSelf = true ∧ (k.task p).state = .running := by
  have hc : ∀ (k : Kernel Q S) prio user, (∀ p, ¬ k.Vacant p → p ∈ k.all ∧ (k.task p).arcSelf = true ∧
      (k.task p).state = .running) → ∀ p, ¬ (k.create (Task.new 0 prio user)).Vacant p →
        p ∈ (k.create (Task.new 0 prio user)).all ∧ ((k.create (Task.new 0 prio user)).task p).arcSelf = true ∧
          ((k.create (Task.new 0 prio user)).task p).state = .running := by
    intro k prio user hk p hv
    rw [create_task]
    by_cases e : p = k.nextPid
    · rw [if_pos e]
      exact ⟨List.mem_append_right _ (List.mem_singleton.mpr e), rfl, rfl⟩
    · rw [if_neg e]
      have hv : ¬ k.Vacant p := fun hv' => hv (hv'.imp_right fun hle => Nat.lt_of_le_of_ne hle (Ne.symm e))
      exact ⟨List.mem_append_left _ (hk p hv).1, (hk p hv).2⟩
  have h0 : ∀ p, ¬ (empty count : Kernel Q S).createIdle.Vacant p → p ∈ (empty count : Kernel Q S).createIdle.all ∧
      ((empty count : Kernel Q S).createIdle.task p).arcSelf = true ∧
        ((empty count : Kernel Q S).createIdle.task p).state = .running := by
    intro p hv
    have h1 := hc (empty count) 0 false (fun p hv => (hv p.eq_zero_or_pos).elim) p hv
    refine ⟨h1.1, ?_⟩
    rw [createIdle, cloneArc, modify_task]
    split <;> exact h1.2
  obtain ⟨k1, e, h1, -, rfl⟩ := start_rule (P := fun k => ∀ p, ¬ k.Vacant p → p ∈ k.all ∧ (k.task p).arcSelf = true ∧
    (k.task p).state = .running) h0 hc h
  exact h1

theorem start_rooted {count : S → Int} {ts : List (Prio × Bool)} (h : start count ts = some k) : k.Rooted :=
  ⟨fun p hv => Or.inl (start_registered h p hv).1, fun p hv hf => by cases (start_registered h p hv).2.1.symm.trans hf⟩

/-- While `do_wait4` drops no DEAD task that is queued, running or was not reaped, the switch
    in `schedule()` leaves a reference to the task it switches away from, and a task with no
    reference left was reaped and is not the one the CPU is on. -/
theorem lifetime_reach [DecidableEq Q] [DecidableEq S] (h : Lib.Reach step Sparing Boot k) :
    (∀ p, (k.task p).strong = k.refs p) ∧
      (∀ fs b k', k.frames = .schedule .start :: fs → step k (.run b) = some k' → 0 < (k'.task k.current).strong) ∧
      ∀ p, 0 < p → p < k.nextPid → (k.task p).strong = 0 →
        p ≠ k.current ∧ p ≠ k.running ∧ ∃ parent code, (parent, .child p code) ∈ k.waits := by
  obtain ⟨hs, hc, hr⟩ := h.rule (P := fun k => k.Straight ∧ k.Counted ∧ k.Rooted)
    (fun _ ⟨_, _, hk⟩ => ⟨start_straight hk, start_counted hk, start_rooted hk⟩)
    fun _ _ _ ⟨hs, hc, hr⟩ he hk =>
      ⟨hs.step he.outside hk, (Accounts.step hs hc he.outside hk).counted, hr.step hs hc he hk⟩
  refine ⟨hc.strong, fun fs b k' hf hk => ?_, fun p h0 hp hz => ?_⟩
  · have hm : k.current ∈ k.all := (hr.all k.current hc.current).resolve_right fun hg => by
      have hlive := hg.1
      rw [live, if_pos rfl] at hlive
      omega
    have hc' := (Accounts.step hs hc (e := .run b) trivial hk).counted
    simp only [Kernel.step, hf] at hk
    obtain ⟨⟨r, k1⟩, hr, rfl⟩ := Option.map_eq_some_iff.mp hk
    have ha : k1.all = k.all := (Keeps.schedule 6 hr).all
    have hc' : k1.Counted := hc'
    have hcount : 0 < k1.all.count k.current := List.count_pos_iff.mpr (by rw [ha]; exact hm)
    show 0 < (k1.task k.current).strong
    rw [hc'.strong, refs, kept]
    omega
  · have hv : ¬ k.Vacant p := fun hv => hv.elim (Nat.ne_of_gt h0) (Nat.not_le_of_lt hp)
    have h1 := hc.strong p
    rw [hz, refs, live, kept] at h1
    have hne : p ≠ k.current := fun e => by rw [if_pos e] at h1; omega
    have hall : k.all.count p = 0 := by omega
    obtain ⟨-, harc⟩ := (hr.all p hv).resolve_left (List.count_eq_zero.mp hall)
    exact ⟨hne, by rw [hs.running]; exact hne, hr.returned p hv harc⟩

instance (k : Kernel Q S) (e : Event Q S) : Decidable (k.Sparing e) := by
  delta Sparing
  exact match e with
    | .call _ | .irq _ | .irqInside _ _ => inferInstance
    | .run _ => by
      generalize k.frames = gs
      exact match gs with
        | [] | .waitEvent _ :: _ | .waitTest _ :: _ | .sleep _ :: _ | .schedule _ :: _ | .down _ :: _ | .rouse _ :: _
        | .add _ :: _ | .exitWith _ :: _ | .exitNotify :: _ | .wait4 _ :: _ | .waitAlive :: _ | .checkDead :: _
        | .checkSignals :: _ | .checkSchedule :: _ => inferInstance

/-- The first task forks and lets its child exit, reaps it and waits once more. -/
def forkAndReap : List (Event Unit Unit) :=
  [.call .fork, .call .yieldNow, .run true, .call .yieldNow, .run true, .call (.exit 7), .run true, .run true, .run true,
    .call (.wait4 (-1)), .run true, .call (.wait4 (-1)), .run true, .run true]

theorem lifetime_forkAndReap : ∃ k, (twoTasks.bind fun k => Lib.trace step k forkAndReap) = some k ∧
    (k.task 4).strong = 0 ∧ k.current = 2 ∧ ∃ parent code, (parent, .child 4 code) ∈ k.waits := by
  obtain ⟨k, hk, ht, hd⟩ := Lib.exists_run step Sparing forkAndReap
    (fun k : Kernel Unit Unit => decide (k.current = 2 ∧ (k.task 4).strong = 0 ∧ 4 < k.nextPid)) twoTasks_boot
    (by decide) (by decide)
  obtain ⟨hc, hz, hn⟩ := of_decide_eq_true hd
  exact ⟨k, ht, hz, hc, ((lifetime_reach hk).2.2 4 (by decide) hn hz).2.2⟩

/-- The first task forks, kills its child, and waits for it; then the child gets the CPU. -/
def waitForKilled : List (Event Unit Unit) :=
  [.call .fork, .call (.kill 4 sigKill), .call (.wait4 (-1)), .run true, .run true, .call .yieldNow, .run true,
    .call .yieldNow, .run true, .call .yieldNow]

theorem freed_while_current : ¬ ∀ k : Kernel Unit Unit, Lib.Reach step (fun _ _ => True) Boot k →
    (∀ p, (k.task p).strong = k.refs p) ∧
      (∀ fs b k', k.frames = .schedule .start :: fs → step k (.run b) = some k' → 0 < (k'.task k.current).strong) ∧
      ∀ p, 0 < p → p < k.nextPid → (k.task p).strong = 0 →
        p ≠ k.current ∧ p ≠ k.running ∧ ∃ parent code, (parent, .child p code) ∈ k.waits := by
  intro h
  obtain ⟨k, hk, -, hd⟩ := Lib.exists_run step (fun _ _ => True) waitForKilled
    (fun k : Kernel Unit Unit => decide (k.frames = [.schedule .start]) &&
      (step k (.run true)).any fun k' : Kernel Unit Unit => decide ((k'.task k.current).strong = 0)) twoTasks_boot
    (by decide) (by decide)
  obtain ⟨hf, he⟩ := Bool.and_eq_true_iff.mp hd
  cases hs : step k (.run true) with
  | none => rw [hs] at he; cases he
  | some k' =>
    rw [hs] at he
    exact Nat.ne_of_gt ((h k hk).2.1 [] true k' (of_decide_eq_true hf) hs) (of_decide_eq_true he)

end Kernel

end Myos.Sched
