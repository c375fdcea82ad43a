/-
  Myos.Sched.Sleepers — who is woken when (wait.rs: sleep and rust_check_sleepers).

  `sleep` reads the tick before it turns the interrupts off, so ticks and checks may pass before
  its entry is in the queue. The history numbers the entries in the order they were put in.

  Proved: in every run the queue is in the order of expiry, and of insertion where that is the
  same; a check takes out the entries that have expired and makes their tasks ready in this
  order; so every entry is woken once, by the first check after its insertion that finds the
  tick at its expiry or behind it, or it waits and no check has.
-/

import Mathlib.Data.List.Range
import Myos.Lib.Deadlines
import Myos.Sched.Occupancy

namespace Myos.Sched

open Lib

/-- `sleep t ms`: the current task, after it read the tick `t`. `other k`: anything else that
    leaves the kernel at `k`. -/
inductive SleepEvent (Q S : Type*) where
  | sleep (t ms : Nat)
  | check
  | other (k : Kernel Q S)

/-- The kernel, and what happened to its sleep queue: the entries, their numbers in the order of
    the queue, which entry was woken by which check, and for every check how many entries there
    were and the tick. -/
structure SleepLog (Q S : Type*) where
  kernel : Kernel Q S
  slept : List (Pid × Nat)
  queue : List Nat
  woken : List (Nat × Nat)
  checks : List (Nat × Nat)

namespace SleepLog

variable {Q S : Type*}

def task (s : SleepLog Q S) (i : Nat) : Pid := (s.slept.getD i (0, 0)).1

def expire (s : SleepLog Q S) (i : Nat) : Nat := (s.slept.getD i (0, 0)).2

/-- The entries that have expired. -/
def due (s : SleepLog Q S) (i : Nat) : Bool := s.expire i ≤ s.kernel.tick

/-- `none`: the sum for the tick panics, the task is gone, or what else happened touched the
    queue or turned the clock back. -/
def step (s : SleepLog Q S) : SleepEvent Q S → Option (SleepLog Q S)
  | .sleep t ms =>
    if ms = 0 then some s
    else
      let e := t + ms * 1000 / 1000
      if t ≤ s.kernel.tick ∧ e < 2 ^ 64 then
        (s.kernel.upgrade s.kernel.current).map fun k =>
          { s with
            kernel := (k.setState k.current .sleeping).sleepInsert k.current e
            slept := s.slept ++ [(k.current, e)]
            queue := Deadlines.insertAt (fun i => s.expire i ≤ e) s.slept.length s.queue }
      else none
  | .check => some
      { s with
        kernel := s.kernel.checkSleepers
        queue := s.queue.dropWhile s.due
        woken := s.woken ++ (s.queue.takeWhile s.due).map fun i => (i, s.checks.length)
        checks := s.checks ++ [(s.slept.length, s.kernel.tick)] }
  | .other k => if k.sleepq = s.kernel.sleepq ∧ s.kernel.tick ≤ k.tick then some { s with kernel := k } else none

/-- Nobody sleeps. -/
def Start (s : SleepLog Q S) : Prop := s.kernel.sleepq = [] ∧ s.slept = [] ∧ s.queue = [] ∧ s.woken = [] ∧ s.checks = []

/-- First by expiry, then by insertion. -/
def Before (s : SleepLog Q S) (i j : Nat) : Prop := s.expire i < s.expire j ∨ s.expire i = s.expire j ∧ i < j

/-- The check `c` came after the insertion of `i` and found it expired. -/
def Finds (s : SleepLog Q S) (c i : Nat) : Prop := ∃ n t, s.checks[c]? = some (n, t) ∧ i < n ∧ s.expire i ≤ t

structure Punctual (s : SleepLog Q S) : Prop where
  entries : s.kernel.sleepq = s.queue.map fun i => (s.task i, s.expire i)
  order : s.queue.Pairwise s.Before
  once : (s.woken.map Prod.fst ++ s.queue).Perm (List.range s.slept.length)
  woken : ∀ i c, (i, c) ∈ s.woken → s.Finds c i ∧ ∀ c' < c, ¬ s.Finds c' i
  waiting : ∀ i ∈ s.queue, ∀ c, ¬ s.Finds c i
  bound : ∀ c n t : Nat, s.checks[c]? = some (n, t) → n ≤ s.slept.length

variable {s s' : SleepLog Q S} {e : SleepEvent Q S} {i : Nat}

theorem Start.punctual (h : s.Start) : s.Punctual := by
  obtain ⟨hk, hs, hq, hw, hc⟩ := h
  refine ⟨by simp [hk, hq], by simp [hq], by simp [hs, hq, hw], ?_, ?_, ?_⟩
  · intro i c hm
    simp [hw] at hm
  · intro i hm
    simp [hq] at hm
  · intro c n t hm
    simp [hc] at hm

/-- The queue is in the order of expiry. -/
theorem Punctual.sorted (h : s.Punctual) : s.kernel.sleepq.Pairwise fun a b => a.2 ≤ b.2 := by
  rw [h.entries]
  apply List.pairwise_map.mpr
  apply h.order.imp
  intro i j hij
  rcases hij with hij | ⟨hij, -⟩
  · exact Nat.le_of_lt hij
  · exact Nat.le_of_eq hij

theorem Before.due_mono {n : Nat} (i j : Nat) (h : s.Before i j) (hj : decide (s.expire j ≤ n) = true) :
    decide (s.expire i ≤ n) = true := by
  have hj := of_decide_eq_true hj
  apply decide_eq_true
  rcases h with h | ⟨h, -⟩ <;> omega

/-! ## Sleeping -/

theorem Punctual.lt (h : s.Punctual) (hi : i ∈ s.woken.map Prod.fst ++ s.queue) : i < s.slept.length :=
  List.mem_range.mp (h.once.mem_iff.mp hi)

theorem sleep_punctual (h : s.Punctual) {k : Kernel Q S} {p : Pid} {e : Nat} (hq : k.sleepq = s.kernel.sleepq) :
    Punctual { s with
      kernel := k.sleepInsert p e
      slept := s.slept ++ [(p, e)]
      queue := Deadlines.insertAt (fun i => s.expire i ≤ e) s.slept.length s.queue } := by
  generalize hs' : ({ s with
      kernel := k.sleepInsert p e
      slept := s.slept ++ [(p, e)]
      queue := Deadlines.insertAt (fun i => s.expire i ≤ e) s.slept.length s.queue } : SleepLog Q S) = s'
  have hslept : s'.slept = s.slept ++ [(p, e)] := by rw [← hs']
  have hqueue : s'.queue = Deadlines.insertAt (fun i => s.expire i ≤ e) s.slept.length s.queue := by rw [← hs']
  have hwoken : s'.woken = s.woken := by rw [← hs']
  have hchecks : s'.checks = s.checks := by rw [← hs']
  have hkq : s'.kernel.sleepq = Deadlines.insertAt (fun x => x.2 ≤ e) (p, e) s.kernel.sleepq := by
    rw [← hs', ← hq]
    rfl
  -- the old entries keep their numbers
  have hold : ∀ i, i < s.slept.length → s'.task i = s.task i ∧ s'.expire i = s.expire i := by
    intro i hi
    rw [task, expire, hslept, List.getD_append _ _ _ _ hi]
    exact ⟨rfl, rfl⟩
  have hnew : s'.task s.slept.length = p ∧ s'.expire s.slept.length = e := by
    rw [task, expire, hslept, List.getD_append_right _ _ _ _ (Nat.le_refl _), Nat.sub_self]
    exact ⟨rfl, rfl⟩
  have hle : ∀ i, s.expire i ≤ e → s'.expire i ≤ e := by
    intro i hi
    rcases Nat.lt_trichotomy i s.slept.length with h1 | rfl | h1
    · rwa [(hold i h1).2]
    · exact Nat.le_of_eq hnew.2
    · rw [expire, hslept, List.getD_eq_default _ _ (by rw [List.length_append, List.length_singleton]; exact h1)]
      exact Nat.zero_le e
  have hlt : ∀ i ∈ s.queue, i < s.slept.length := fun i hi => h.lt (List.mem_append_right _ hi)
  have hfinds : ∀ c i, i < s.slept.length → (s'.Finds c i ↔ s.Finds c i) := by
    intro c i hi
    rw [Finds, Finds, hchecks, (hold i hi).2]
  have hbound : ∀ c n t, s'.checks[c]? = some (n, t) → n ≤ s.slept.length := fun c n t hc => h.bound c n t (hchecks ▸ hc)
  refine ⟨?_, ?_, ?_, ?_, ?_, ?_⟩
  · have hmap : ∀ q : List Nat, (∀ i ∈ q, i < s.slept.length) →
        (q.map fun i => (s'.task i, s'.expire i)) = q.map fun i => (s.task i, s.expire i) := by
      intro q hq
      apply List.map_congr_left
      intro i hi
      rw [(hold i (hq i hi)).1, (hold i (hq i hi)).2]
    rw [hkq, hqueue, h.entries, Deadlines.insertAt, Deadlines.insertAt, List.takeWhile_map, List.dropWhile_map, List.map_append,
      List.map_cons, hnew.1, hnew.2, hmap _ fun i hi => hlt i (List.takeWhile_subset _ hi),
      hmap _ fun i hi => hlt i (List.dropWhile_subset _ hi)]
    rfl
  · have hbefore : ∀ {i j}, i < s.slept.length → j < s.slept.length → s.Before i j → s'.Before i j := by
      intro i j hi hj hij
      rw [Before, (hold i hi).2, (hold j hj).2]
      exact hij
    rw [hqueue]
    apply Deadlines.insertAt_pairwise
    · exact h.order.imp_of_mem fun hi hj => hbefore (hlt _ hi) (hlt _ hj)
    · intro i j hij hj
      by_cases hi : i < s.slept.length
      · have hje : s'.expire j ≤ e := hle j (of_decide_eq_true hj)
        rw [← (hold i hi).2]
        apply decide_eq_true
        rcases hij with hij | ⟨hij, -⟩ <;> omega
      · rw [expire, List.getD_eq_default _ _ (Nat.not_lt.mp hi)]
        exact decide_eq_true (Nat.zero_le e)
    · intro i hi hd
      have hlti := hlt i hi
      rw [Before, hnew.2, (hold i hlti).2]
      have hd := of_decide_eq_true hd
      omega
    · intro i hi hd
      have hlti := hlt i hi
      rw [Before, hnew.2, (hold i hlti).2]
      have hd : ¬ s.expire i ≤ e := fun hle => hd (decide_eq_true hle)
      omega
  · have hmid := Deadlines.insertAt_perm (fun i => s.expire i ≤ e) s.slept.length s.queue
    rw [hwoken, hqueue, hslept, List.length_append, List.length_singleton, List.range_succ]
    have hfront := (hmid.append_left (s.woken.map Prod.fst)).trans List.perm_middle
    exact hfront.trans ((h.once.cons _).trans (List.perm_append_singleton _ _).symm)
  · intro i c hm
    rw [hwoken] at hm
    have hlti : i < s.slept.length := h.lt (List.mem_append_left _ (List.mem_map_of_mem hm))
    obtain ⟨hf, hfirst⟩ := h.woken i c hm
    exact ⟨(hfinds c i hlti).mpr hf, fun c' hc' hf' => hfirst c' hc' ((hfinds c' i hlti).mp hf')⟩
  · intro i hm c hf
    rw [hqueue] at hm
    rcases List.mem_cons.mp ((Deadlines.insertAt_perm _ _ _).mem_iff.mp hm) with rfl | hm
    · -- every check was before the insertion
      obtain ⟨n, t, hc, hlt, -⟩ := hf
      exact absurd (hbound c n t hc) (Nat.not_le.mpr hlt)
    · exact h.waiting i hm c ((hfinds c i (hlt i hm)).mp hf)
  · intro c n t hc
    rw [hslept, List.length_append]
    exact (hbound c n t hc).trans (Nat.le_add_right ..)

/-! ## Checks -/

theorem Punctual.takeWhile_due (h : s.Punctual) : s.queue.takeWhile s.due = s.queue.filter s.due :=
  Deadlines.takeWhile_eq_filter h.order Before.due_mono

theorem Punctual.dropWhile_due (h : s.Punctual) : s.queue.dropWhile s.due = s.queue.filter fun i => !s.due i :=
  Deadlines.dropWhile_eq_filter h.order Before.due_mono

theorem Punctual.sleepers (h : s.Punctual) : s.kernel.sleepers = (s.queue.takeWhile s.due).map s.task := by
  rw [Kernel.sleepers, h.entries, List.takeWhile_map, List.map_map]
  rfl

theorem Punctual.check (h : s.Punctual) (hs : s.step .check = some s') : s'.Punctual := by
  cases hs
  generalize hs' : ({ s with
        kernel := s.kernel.checkSleepers
        queue := s.queue.dropWhile s.due
        woken := s.woken ++ (s.queue.takeWhile s.due).map fun i => (i, s.checks.length)
        checks := s.checks ++ [(s.slept.length, s.kernel.tick)] } : SleepLog Q S) = s'
  have hqueue : s'.queue = s.queue.dropWhile s.due := by rw [← hs']
  have hwoken : s'.woken = s.woken ++ (s.queue.takeWhile s.due).map fun i => (i, s.checks.length) := by rw [← hs']
  have hchecks : s'.checks = s.checks ++ [(s.slept.length, s.kernel.tick)] := by rw [← hs']
  have htask : s'.task = s.task := by rw [← hs']; rfl
  have hexp : s'.expire = s.expire := by rw [← hs']; rfl
  have hlen : s'.slept.length = s.slept.length := by rw [← hs']
  have hkq : s'.kernel.sleepq = s.kernel.sleepq.dropWhile fun x => x.2 ≤ s.kernel.tick := by
    rw [← hs']
    exact congrArg Kernel.sleepq (Kernel.checkSleepers_eq s.kernel)
  have hlt : ∀ i ∈ s.queue, i < s.slept.length := fun i hi => h.lt (List.mem_append_right _ hi)
  -- a check that was there before, and the one that is new
  have hold : ∀ c i, c < s.checks.length → (s'.Finds c i ↔ s.Finds c i) := by
    intro c i hc
    rw [Finds, Finds, hchecks, hexp, List.getElem?_append_left hc]
  have hnew : ∀ i, s'.Finds s.checks.length i ↔ i < s.slept.length ∧ s.expire i ≤ s.kernel.tick := by
    intro i
    rw [Finds, hchecks, hexp, List.getElem?_append_right (Nat.le_refl _), Nat.sub_self]
    constructor
    · intro ⟨n, t, hc, hn⟩
      cases hc
      exact hn
    · intro hn
      exact ⟨_, _, rfl, hn⟩
  have hpast : ∀ c i, s.checks.length < c → ¬ s'.Finds c i := by
    intro c i hc hf
    obtain ⟨n, t, hn, -⟩ := hf
    rw [hchecks, List.getElem?_eq_none (by rw [List.length_append, List.length_singleton]; omega)] at hn
    cases hn
  refine ⟨?_, ?_, ?_, ?_, ?_, ?_⟩
  · rw [hkq, hqueue, htask, hexp, h.entries, List.dropWhile_map]
    rfl
  · rw [hqueue]
    have hb : s'.Before = s.Before := by
      funext i j
      rw [Before, Before, hexp]
    rw [hb]
    exact h.order.sublist (List.dropWhile_sublist _)
  · rw [hwoken, hqueue, hlen, List.map_append, List.map_map, List.append_assoc]
    have hid : (s.queue.takeWhile s.due).map (Prod.fst ∘ fun i => (i, s.checks.length)) = s.queue.takeWhile s.due := List.map_id _
    rw [hid, List.takeWhile_append_dropWhile]
    exact h.once
  · intro i c hm
    rw [hwoken] at hm
    rcases List.mem_append.mp hm with hm | hm
    · obtain ⟨hf, hfirst⟩ := h.woken i c hm
      have hc : c < s.checks.length := by
        obtain ⟨n, t, hn, -⟩ := hf
        exact (List.getElem?_eq_some_iff.mp hn).1
      exact ⟨(hold c i hc).mpr hf, fun c' hc' hf' => hfirst c' hc' ((hold c' i (hc'.trans hc)).mp hf')⟩
    · obtain ⟨j, hj, he⟩ := List.mem_map.mp hm
      cases he
      have hjq : i ∈ s.queue := List.takeWhile_subset _ hj
      have hdue : s.due i = true := List.mem_takeWhile_imp hj
      exact ⟨(hnew i).mpr ⟨hlt i hjq, of_decide_eq_true hdue⟩, fun c' hc' hf' => h.waiting i hjq c' ((hold c' i hc').mp hf')⟩
  · intro i hm c hf
    rw [hqueue, h.dropWhile_due] at hm
    obtain ⟨hi, hnd⟩ := List.mem_filter.mp hm
    rcases Nat.lt_trichotomy c s.checks.length with hc | rfl | hc
    · exact h.waiting i hi c ((hold c i hc).mp hf)
    · have hdue : s.due i = true := decide_eq_true ((hnew i).mp hf).2
      simp [hdue] at hnd
    · exact hpast c i hc hf
  · intro c n t hc
    rw [hlen]
    rw [hchecks] at hc
    rcases Nat.lt_or_ge c s.checks.length with hlt | hge
    · rw [List.getElem?_append_left hlt] at hc
      exact h.bound c n t hc
    · have hm := List.mem_of_getElem? hc
      rcases List.mem_append.mp hm with hm | hm
      · obtain ⟨c', hc'⟩ := List.getElem?_of_mem hm
        exact h.bound c' n t hc'
      · cases List.mem_singleton.mp hm
        exact Nat.le_refl _

theorem Punctual.step (h : s.Punctual) (hs : s.step e = some s') : s'.Punctual := by
  cases e with
  | sleep t ms =>
    rw [SleepLog.step] at hs
    split at hs
    · cases hs
      exact h
    · dsimp only at hs
      split at hs
      · obtain ⟨k, hk, rfl⟩ := Option.map_eq_some_iff.mp hs
        obtain ⟨rfl, -⟩ := Kernel.upgrade_eq hk
        exact sleep_punctual h (k := (s.kernel.cloneArc s.kernel.current).setState _ .sleeping) rfl
      · cases hs
  | check => exact h.check hs
  | other k =>
    rw [SleepLog.step] at hs
    split at hs
    · next hk =>
      cases hs
      exact ⟨hk.1.trans h.entries, h.order, h.once, h.woken, h.waiting, h.bound⟩
    · cases hs

theorem Reach.punctual (h : Reach SleepLog.step (fun _ _ => True) Start s) : s.Punctual :=
  h.rule (P := Punctual) (fun _ h => h.punctual) fun _ _ _ hp _ hs => hp.step hs

/-- What a check of a punctual queue does. -/
theorem Punctual.wakes (h : s.Punctual) (hs : s.step .check = some s') :
    s'.kernel.sleepq = s.kernel.sleepq.filter (fun x => s.kernel.tick < x.2) ∧
      s'.kernel.readyPids = s.kernel.readyPids ++ (s.queue.filter s.due).map s.task ∧
      (∀ p ∈ (s.queue.filter s.due).map s.task, (s'.kernel.task p).state = .running) ∧
      s'.woken = s.woken ++ (s.queue.filter s.due).map fun i => (i, s.checks.length) := by
  cases hs
  have hsl : s.kernel.sleepers = (s.queue.filter s.due).map s.task := by rw [h.sleepers, h.takeWhile_due]
  refine ⟨?_, ?_, ?_, ?_⟩
  · show s.kernel.checkSleepers.sleepq = _
    rw [Kernel.checkSleepers_eq]
    show s.kernel.sleepq.dropWhile (fun x => x.2 ≤ s.kernel.tick) = _
    rw [Deadlines.dropWhile_eq_filter h.sorted fun a b hab hb =>
      decide_eq_true (hab.trans (of_decide_eq_true hb))]
    simp only [← decide_not, Nat.not_le]
  · show s.kernel.checkSleepers.readyPids = _
    rw [Kernel.checkSleepers_readyPids, hsl]
  · intro p hp
    show (s.kernel.checkSleepers.task p).state = _
    rw [Kernel.checkSleepers_eq]
    show (if p ∈ s.kernel.sleepers then _ else _ : Task).state = _
    rw [if_pos (hsl ▸ hp)]
  · show s.woken ++ (s.queue.takeWhile s.due).map (fun i => (i, s.checks.length)) = _
    rw [h.takeWhile_due]

/-- In every run the queue is sorted and in order, every entry waits or was woken once, by the
    first check that found it expired, and a check makes the tasks of the expired entries
    ready in order. -/
theorem sleep_queue_order (h : Reach SleepLog.step (fun _ _ => True) Start s) :
    s.kernel.sleepq.Pairwise (fun a b => a.2 ≤ b.2) ∧ s.Punctual ∧
      ∀ s', s.step .check = some s' →
        s'.kernel.sleepq = s.kernel.sleepq.filter (fun x => s.kernel.tick < x.2) ∧
        s'.kernel.readyPids = s.kernel.readyPids ++ (s.queue.filter s.due).map s.task ∧
        (∀ p ∈ (s.queue.filter s.due).map s.task, (s'.kernel.task p).state = .running) ∧
        s'.woken = s.woken ++ (s.queue.filter s.due).map fun i => (i, s.checks.length) := by
  have hp := Reach.punctual h
  exact ⟨hp.sorted, hp, fun s' hs => hp.wakes hs⟩

/-- Two sleeps that read the tick long ago, the longer one first. -/
def lateSleeps : List (SleepEvent Unit Unit) := [.sleep 0 7, .sleep 0 5, .check]

theorem sleep_queue_order_lateSleeps : ∃ s : SleepLog Unit Unit, s.woken = [(1, 0), (0, 0)] ∧ s.Punctual := by
  have hstart : ∀ s, (Kernel.start (fun _ => 0) [(1, false)]).map (fun k => ⟨{ k with sleepq := [], tick := 9 }, [], [], [], []⟩) = some s →
      (Start : SleepLog Unit Unit → Prop) s := by
    intro s hs
    obtain ⟨k, hk, rfl⟩ := Option.map_eq_some_iff.mp hs
    exact ⟨rfl, rfl, rfl, rfl, rfl⟩
  obtain ⟨s, hs, -, hd⟩ := Lib.exists_run SleepLog.step (fun _ _ => True) lateSleeps
    (o := (Kernel.start (fun _ => 0) [(1, false)]).map fun k => ⟨{ k with sleepq := [], tick := 9 }, [], [], [], []⟩)
    (fun s : SleepLog Unit Unit => decide (s.woken = [(1, 0), (0, 0)])) hstart (by decide) (by decide)
  exact ⟨s, of_decide_eq_true hd, (sleep_queue_order hs).2.1⟩

/-! ## The machine -/

/-- The handler of the timer. -/
theorem timer_checks [DecidableEq Q] (s : SleepLog Q S) (expired : Bool) : ∃ s1 s2 s3,
    s.step (.other { s.kernel with tick := s.kernel.tick + 1 }) = some s1 ∧ s1.step .check = some s2 ∧
      s2.step (.other (s.kernel.interrupt (.timer expired))) = some s3 ∧ s3.kernel = s.kernel.interrupt (.timer expired) := by
  refine ⟨_, _, _, if_pos ⟨rfl, Nat.le_succ _⟩, rfl, if_pos ⟨rfl, ?_⟩, rfl⟩
  show ({ s.kernel with tick := s.kernel.tick + 1 } : Kernel Q S).checkSleepers.tick ≤
    ({ s.kernel with tick := s.kernel.tick + 1 } : Kernel Q S).checkSleepers.tick
  exact Nat.le_refl _

/-- The frame that `sleep` leaves when it has read the tick. -/
theorem resume_sleeps [DecidableEq S] (s : SleepLog Q S) {t ms : Nat} (h0 : ms ≠ 0) (ht : t ≤ s.kernel.tick)
    (he : t + ms * 1000 / 1000 < 2 ^ 64) {b : Bool} {fs : List (Frame Q S)} {k : Kernel Q S}
    (hk : s.kernel.resume b fs (.sleep (t + ms * 1000 / 1000)) = some k) :
    ∃ s1 s2, s.step (.sleep t ms) = some s1 ∧ s1.step (.other k) = some s2 ∧ s2.kernel = k := by
  obtain ⟨k1, hu, rfl⟩ := Option.map_eq_some_iff.mp hk
  rw [SleepLog.step, if_neg h0]
  dsimp only
  rw [if_pos ⟨ht, he⟩, hu, Option.map_some]
  exact ⟨_, _, rfl, if_pos ⟨rfl, Nat.le_refl _⟩, rfl⟩

end SleepLog

end Myos.Sched
