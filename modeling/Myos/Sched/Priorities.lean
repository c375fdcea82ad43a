/-
  Myos.Sched.Priorities — the ready queues and the priorities of the tasks in them.

  Proved: while `down` and `up` write the priority of no task that is in a ready queue,
  every task in ready queue `k` has priority `k`, and `schedule()` takes a task of the
  highest priority, the one that has been ready longest among equals.
-/

import Mathlib
import Myos.Sched.Accesses

namespace Myos.Sched

variable {Q S : Type*}

/-- The tasks that the local variables of `schedule()` name. -/
def SchedPc.pids : SchedPc → List Pid
  | .start => []
  | .enqueue cur | .pick cur => [cur]
  | .store cur next | .drop cur next | .switch cur next => [cur, next]

def Frame.pids : Frame Q S → List Pid
  | .schedule pc => pc.pids
  | .rouse t | .add t => [t]
  | _ => []

namespace Kernel

variable {k k' k1 : Kernel Q S} {p : Pid}

/-! ## What `schedule()` picks -/

/-- The next task is the first of those with the highest priority, by their priorities now. -/
def PicksHighest (k : Kernel Q S) : Prop :=
  ∀ n k', k.popReady = some (n, k') → ∃ l₁ l₂ prio, k.ready = l₁ ++ (prio, n) :: l₂ ∧ k'.ready = l₁ ++ l₂ ∧
    (∀ e ∈ k.ready, (k.task e.2).prio ≤ (k.task n).prio) ∧ ∀ e ∈ l₁, (k.task e.2).prio < (k.task n).prio

/-- Each task in a ready queue has the priority of the queue, also while `schedule()` picks. -/
structure InOrder (k : Kernel Q S) : Prop where
  queues : ∀ e ∈ k.ready, (k.task e.2).prio = e.1
  picks : k.PicksHighest
  during : ∀ fs pc n k', k.frames = .schedule pc :: fs → k.schedFor n pc = some (false, k') →
    (∀ e ∈ k'.ready, (k'.task e.2).prio = e.1) ∧ k'.PicksHighest

/-- `down` and `up` change the priority of no task that is in a ready queue. -/
def Unqueued [DecidableEq S] (k : Kernel Q S) : Event Q S → Prop
  | .run _ =>
    match k.frames with
    | .down s :: _ => k.count s ≤ 0 → ∀ o ∈ k.ownerOf s, (k.task o).prio < (k.task k.current).prio → ∀ e ∈ k.ready, e.2 ≠ o
    | _ => True
  | .call (.up s) => ∀ o ∈ k.ownerOf s, (k.task o).prio ≠ (k.task o).originalPrio → ∀ e ∈ k.ready, e.2 ≠ o
  | _ => True

/-- The front of the highest queue that is not empty. -/
theorem popReady_front {n : Pid} (h : k.popReady = some (n, k')) : ∃ l₁ l₂ prio, k.ready = l₁ ++ (prio, n) :: l₂ ∧
    k' = { k with ready := l₁ ++ l₂ } ∧ (∀ e ∈ k.ready, e.1 ≤ prio) ∧ ∀ e ∈ l₁, e.1 < prio := by
  unfold popReady at h
  split at h
  · cases h
  · next e he =>
    cases h
    obtain ⟨ps, prio, qs, hps, hfind, hbefore⟩ := List.findSome?_eq_some_iff.mp he
    obtain ⟨hp, l₁, l₂, hl, hl1⟩ := List.find?_eq_some_iff_append.mp hfind
    have hp : e.1 = prio := of_decide_eq_true hp
    have hsorted : (List.finRange prioNr).reverse.Pairwise (· > ·) := List.pairwise_reverse.mpr (List.pairwise_lt_finRange _)
    -- a higher priority was tried before, and nobody was found
    have hmax : ∀ a ∈ k.ready, a.1 ≤ e.1 := by
      intro a ha
      by_contra hlt
      have hmem : a.1 ∈ ps ++ prio :: qs := hps ▸ List.mem_reverse.mpr (List.mem_finRange a.1)
      rw [hps] at hsorted
      have hafter := (List.pairwise_cons.mp (List.pairwise_append.mp hsorted).2.1).1
      rcases List.mem_append.mp hmem with hm | hm
      · exact List.find?_eq_none.mp (hbefore a.1 hm) a ha (decide_eq_true rfl)
      · rcases List.mem_cons.mp hm with hm | hm
        · exact hlt (by rw [hm, hp])
        · exact hlt (Fin.le_of_lt (by rw [hp]; exact hafter a.1 hm))
    have hne : ∀ a ∈ l₁, a.1 ≠ e.1 := fun a ha e1 => by simpa [e1, hp] using hl1 a ha
    refine ⟨l₁, l₂, e.1, hl, ?_, hmax, fun a ha => lt_of_le_of_ne (hmax a (hl ▸ List.mem_append_left _ ha)) (hne a ha)⟩
    have herase : k.ready.erase e = l₁ ++ l₂ := by
      rw [hl, List.erase_append_right _ fun hm => hne e hm rfl, List.erase_cons_head]
    rw [herase]

theorem picksHighest_of (h : ∀ e ∈ k.ready, (k.task e.2).prio = e.1) : k.PicksHighest := by
  intro n k' hp
  obtain ⟨l₁, l₂, prio, hl, rfl, hmax, hlt⟩ := popReady_front hp
  have hn : (k.task n).prio = prio := h (prio, n) (by rw [hl]; exact List.mem_append_right _ List.mem_cons_self)
  refine ⟨l₁, l₂, prio, hl, rfl, fun e he => ?_, fun e he => ?_⟩
  · rw [h e he, hn]
    exact hmax e he
  · rw [h e (hl ▸ List.mem_append_left _ he), hn]
    exact hlt e he

/-! ## Who is known -/

/-- The tasks in the queues, in the frames of the stacks, and the current one. -/
def Mentions (k : Kernel Q S) (p : Pid) : Prop :=
  p = k.current ∨ p ∈ k.ready.map Prod.snd ∨ p ∈ k.waitq.map Prod.snd ∨ p ∈ k.sleepq.map Prod.fst ∨ p ∈ k.semq.map Prod.snd ∨
    ∃ u, ∃ f ∈ k.stack u, p ∈ f.pids

theorem mentions_current (k : Kernel Q S) : k.Mentions k.current := Or.inl rfl

theorem mentions_ready {e : Prio × Pid} (h : e ∈ k.ready) : k.Mentions e.2 := Or.inr (Or.inl (List.mem_map_of_mem h))

theorem mentions_waitq {e : Q × Pid} (h : e ∈ k.waitq) : k.Mentions e.2 := Or.inr (Or.inr (Or.inl (List.mem_map_of_mem h)))

theorem mentions_sleepq {e : Pid × Nat} (h : e ∈ k.sleepq) : k.Mentions e.1 :=
  Or.inr (Or.inr (Or.inr (Or.inl (List.mem_map_of_mem h))))

theorem mentions_semq {e : S × Pid} (h : e ∈ k.semq) : k.Mentions e.2 :=
  Or.inr (Or.inr (Or.inr (Or.inr (Or.inl (List.mem_map_of_mem h)))))

theorem frames_pids (k : Kernel Q S) : ∀ u, ∀ f ∈ k.stack u, ∀ p ∈ f.pids, k.Mentions p :=
  fun u f hf _ hp => Or.inr (Or.inr (Or.inr (Or.inr (Or.inr ⟨u, f, hf, hp⟩))))

theorem mentions_frame {f : Frame Q S} (hf : f ∈ k.frames) (hp : p ∈ f.pids) : k.Mentions p :=
  frames_pids k k.running f hf p hp

/-- All tasks mentioned were created. -/
def Known (k : Kernel Q S) : Prop := ∀ p, k.Mentions p → p < k.nextPid

/-- Entries of a ready queue have its priority. -/
structure Filed (k : Kernel Q S) : Prop where
  queues : ∀ e ∈ k.ready, (k.task e.2).prio = e.1
  known : k.Known

/-- A step that writes no priority, uses no semaphore and creates nobody: who enters a queue was
    mentioned before, and enters the ready queue of its priority. -/
structure Files (k k' : Kernel Q S) : Prop where
  prio : ∀ p, (k'.task p).prio = (k.task p).prio ∧ (k'.task p).originalPrio = (k.task p).originalPrio
  nextPid : k'.nextPid = k.nextPid
  owner : k'.owner = k.owner
  count : k'.count = k.count
  semq : k'.semq = k.semq
  current : k.Mentions k'.current
  ready : ∀ e ∈ k'.ready, e ∈ k.ready ∨ e.1 = (k.task e.2).prio ∧ k.Mentions e.2
  waitq : ∀ e ∈ k'.waitq, k.Mentions e.2
  sleepq : ∀ e ∈ k'.sleepq, k.Mentions e.1
  frames : ∀ u, ∀ f ∈ k'.stack u, ∀ p ∈ f.pids, k.Mentions p

theorem Files.mentions (h : k.Files k') (hp : k'.Mentions p) : k.Mentions p := by
  rcases hp with rfl | hp | hp | hp | hp | ⟨u, f, hf, hp⟩
  · exact h.current
  · obtain ⟨e, he, rfl⟩ := List.mem_map.mp hp
    rcases h.ready e he with he | ⟨-, he⟩
    · exact mentions_ready he
    · exact he
  · obtain ⟨e, he, rfl⟩ := List.mem_map.mp hp
    exact h.waitq e he
  · obtain ⟨e, he, rfl⟩ := List.mem_map.mp hp
    exact h.sleepq e he
  · obtain ⟨e, he, rfl⟩ := List.mem_map.mp hp
    exact mentions_semq (h.semq ▸ he)
  · exact h.frames u f hf p hp

theorem Known.files (h : k.Known) (hf : k.Files k') : k'.Known := by
  intro p hp
  rw [hf.nextPid]
  exact h p (hf.mentions hp)

theorem Filed.files (h : k.Filed) (hf : k.Files k') : k'.Filed := by
  refine ⟨fun e he => ?_, h.known.files hf⟩
  rw [(hf.prio e.2).1]
  rcases hf.ready e he with he | ⟨he, -⟩
  · exact h.queues e he
  · exact he.symm

/-- Only the stack the CPU is on changes. -/
theorem stack_pids {fs : List (Frame Q S)} (hst : k'.stack = Function.update k.stack k.running fs)
    (hfs : ∀ f ∈ fs, ∀ p ∈ f.pids, k.Mentions p) : ∀ u, ∀ f ∈ k'.stack u, ∀ p ∈ f.pids, k.Mentions p := by
  intro u f hf p hp
  rw [hst, Function.update_apply] at hf
  split at hf
  · exact hfs f hf p hp
  · exact frames_pids k u f hf p hp

/-- The queues, the current task and the priorities stay as they are. -/
theorem Files.of_eq (hp : ∀ p, (k'.task p).prio = (k.task p).prio ∧ (k'.task p).originalPrio = (k.task p).originalPrio)
    (hn : k'.nextPid = k.nextPid) (ho : k'.owner = k.owner) (hc : k'.count = k.count) (hq : k'.semq = k.semq)
    (hcur : k'.current = k.current) (hr : k'.ready = k.ready) (hw : k'.waitq = k.waitq) (hl : k'.sleepq = k.sleepq)
    (hst : ∀ u, ∀ f ∈ k'.stack u, ∀ p ∈ f.pids, k.Mentions p) : k.Files k' where
  prio := hp
  nextPid := hn
  owner := ho
  count := hc
  semq := hq
  current := hcur ▸ mentions_current k
  ready _ he := Or.inl (hr ▸ he)
  waitq _ he := mentions_waitq (hw ▸ he)
  sleepq _ he := mentions_sleepq (hl ▸ he)
  frames := hst

theorem Files.refl (k : Kernel Q S) : k.Files k := Files.of_eq (fun _ => ⟨rfl, rfl⟩) rfl rfl rfl rfl rfl rfl rfl rfl (frames_pids k)

theorem Files.trans (h : k.Files k1) (h1 : k1.Files k') : k.Files k' where
  prio p := ⟨(h1.prio p).1.trans (h.prio p).1, (h1.prio p).2.trans (h.prio p).2⟩
  nextPid := h1.nextPid.trans h.nextPid
  owner := h1.owner.trans h.owner
  count := h1.count.trans h.count
  semq := h1.semq.trans h.semq
  current := h.mentions h1.current
  ready e he := by
    rcases h1.ready e he with he | ⟨hp, he⟩
    · exact h.ready e he
    · exact Or.inr ⟨hp.trans (h.prio e.2).1, h.mentions he⟩
  waitq e he := h.mentions (h1.waitq e he)
  sleepq e he := h.mentions (h1.sleepq e he)
  frames u f hf p hp := h.mentions (h1.frames u f hf p hp)

theorem modify_prio_eq (k : Kernel Q S) (u : Pid) (f : Task → Task) (hf : ∀ t, (f t).prio = t.prio ∧ (f t).originalPrio = t.originalPrio)
    (p : Pid) : ((k.modify u f).task p).prio = (k.task p).prio ∧ ((k.modify u f).task p).originalPrio = (k.task p).originalPrio := by
  rw [modify_task]
  split
  · exact hf _
  · exact ⟨rfl, rfl⟩

theorem files_modify (k : Kernel Q S) (u : Pid) (f : Task → Task) (hf : ∀ t, (f t).prio = t.prio ∧ (f t).originalPrio = t.originalPrio) :
    k.Files (k.modify u f) :=
  Files.of_eq (modify_prio_eq k u f hf) rfl rfl rfl rfl rfl rfl rfl rfl (frames_pids k)

theorem killed_prio (sig : Nat) (t : Task) : (killed sig t).prio = t.prio ∧ (killed sig t).originalPrio = t.originalPrio := by
  unfold killed
  split
  · exact ⟨rfl, rfl⟩
  · split
    · exact ⟨rfl, rfl⟩
    · split <;> exact ⟨rfl, rfl⟩

theorem checked_prio (t : Task) : (checked t).2.prio = t.prio ∧ (checked t).2.originalPrio = t.originalPrio := by
  by_cases h0 : t.signals.checkPending = 0
  · simp [checked, h0]
  · cases ha : defaultAction t.signals.checkPending <;> simp [checked, h0, ha]

theorem files_doKill (k : Kernel Q S) (pid sig : Nat) : k.Files (k.doKill pid sig).2 := by
  rcases doKill_eq k pid sig with e | ⟨-, -, e⟩ <;> rw [e]
  · exact Files.refl k
  · exact files_modify k pid (killed sig) (killed_prio sig)

theorem files_setFrames {fs : List (Frame Q S)} (hfs : ∀ f ∈ fs, ∀ p ∈ f.pids, k.Mentions p) : k.Files (k.setFrames fs) :=
  Files.of_eq (fun _ => ⟨rfl, rfl⟩) rfl rfl rfl rfl rfl rfl rfl rfl (stack_pids rfl hfs)

/-- A task that was mentioned becomes ready. -/
theorem files_pushReady {u : Pid} (hu : k.Mentions u) : k.Files (k.pushReady u) := by
  refine ⟨fun p => ⟨rfl, rfl⟩, rfl, rfl, rfl, rfl, mentions_current k, fun e he => ?_, fun e he => mentions_waitq he,
    fun e he => mentions_sleepq he, frames_pids k⟩
  rcases List.mem_append.mp he with he | he
  · exact Or.inl he
  · rw [List.mem_singleton.mp he]
    exact Or.inr ⟨rfl, hu⟩

/-! ## schedule -/

theorem files_access {pc : SchedPc} {fs : List (Frame Q S)} {o : Option SchedPc} (hf : k.frames = .schedule pc :: fs)
    (hs : k.schedStep pc = some (k1, o)) : k.Files (k1.accessed fs o) := by
  have hpc : ∀ p ∈ pc.pids, k.Mentions p := fun p hp => mentions_frame (f := .schedule pc) (hf ▸ List.mem_cons_self) hp
  have hfs : ∀ f ∈ fs, ∀ p ∈ f.pids, k.Mentions p := fun f hm p hp => mentions_frame (hf ▸ List.mem_cons_of_mem _ hm) hp
  -- the frames below, under the place `schedule()` has got to
  have hat : ∀ pc' : SchedPc, (∀ p ∈ pc'.pids, k.Mentions p) → ∀ f ∈ (.schedule pc' : Frame Q S) :: fs, ∀ p ∈ f.pids, k.Mentions p := by
    intro pc' h f hm p hp
    rcases List.mem_cons.mp hm with rfl | hm
    · exact h p hp
    · exact hfs f hm p hp
  cases pc with
  | start =>
    cases hs
    refine files_setFrames (hat _ fun p hp => ?_)
    split at hp <;> rw [List.mem_singleton.mp hp] <;> exact mentions_current k
  | enqueue cur =>
    cases hs
    have hc : k.Files (k.cloneArc cur) := files_modify k cur (fun t => { t with strong := t.strong + 1 }) fun t => ⟨rfl, rfl⟩
    have hr := hc.trans (files_pushReady (k := k.cloneArc cur) (u := cur) (hpc cur List.mem_cons_self))
    exact ⟨hr.prio, rfl, rfl, rfl, rfl, mentions_current k, hr.ready, hr.waitq, hr.sleepq, stack_pids rfl (hat (.pick cur) hpc)⟩
  | pick cur =>
    obtain ⟨⟨n, k2⟩, hp, h⟩ := Option.map_eq_some_iff.mp hs
    obtain ⟨e, he, rfl, rfl⟩ := popReady_eq hp
    cases h
    refine ⟨fun p => ⟨rfl, rfl⟩, rfl, rfl, rfl, rfl, mentions_current k, fun a ha => Or.inl (List.mem_of_mem_erase ha),
      fun e he => mentions_waitq he, fun e he => mentions_sleepq he, stack_pids rfl (hat (.store cur e.2) fun p hp => ?_)⟩
    rcases List.mem_cons.mp hp with rfl | hp
    · exact hpc p List.mem_cons_self
    · rw [List.mem_singleton.mp hp]
      exact mentions_ready he
  | store cur next =>
    cases hs
    exact ⟨fun p => ⟨rfl, rfl⟩, rfl, rfl, rfl, rfl, hpc next (List.mem_cons_of_mem _ List.mem_cons_self), fun e he => Or.inl he,
      fun e he => mentions_waitq he, fun e he => mentions_sleepq he, stack_pids rfl (hat (.drop cur next) hpc)⟩
  | drop cur next =>
    cases hs
    exact (files_modify k cur (fun t => { t with strong := t.strong - 1 }) fun t => ⟨rfl, rfl⟩).trans
      (files_setFrames (hat (.switch cur next) hpc))
  | switch cur next =>
    cases hs
    have hst : Function.update k.stack k.running k.frames.tail = Function.update k.stack k.running fs := by rw [hf]; rfl
    exact Files.of_eq (fun _ => ⟨rfl, rfl⟩) rfl rfl rfl rfl rfl rfl rfl rfl (stack_pids hst hfs)

theorem Filed.inOrder (h : k.Filed) : k.InOrder := by
  refine ⟨h.queues, picksHighest_of h.queues, fun fs pc n k' hf hs => ?_⟩
  have hk := schedFor_rule (P := Filed) (fun k pc fs k1 o hk hf hs => hk.files (files_access hf hs)) n k pc false k' h hf hs
  exact ⟨hk.queues, picksHighest_of hk.queues⟩

/-! ## The other frames, calls and interrupts -/

theorem next_pids {f g : Frame Q S} (hg : g ∈ next f) (hp : p ∈ g.pids) : p ∈ f.pids := by
  cases f with
  | rouse t =>
    rw [List.mem_singleton.mp hg] at hp
    exact hp
  | waitTest q | down s =>
    rcases List.mem_cons.mp hg with rfl | hg
    · cases hp
    · rw [List.mem_singleton.mp hg] at hp
      cases hp
  | schedule pc | add t | waitAlive => cases hg
  | _ =>
    rw [List.mem_singleton.mp hg] at hp
    cases hp

/-- The frames after a step of one on top name nobody new. -/
theorem resume_pids [DecidableEq S] {b : Bool} {f : Frame Q S} {fs : List (Frame Q S)} (hf : k.frames = f :: fs)
    (hn : ∀ pc, f ≠ .schedule pc) (hr : k.resume b fs f = some k') : ∀ u, ∀ g ∈ k'.stack u, ∀ p ∈ g.pids, k.Mentions p := by
  have hall : ∀ g ∈ f :: fs, ∀ p ∈ g.pids, k.Mentions p := fun g hg p hp => mentions_frame (hf ▸ hg) hp
  obtain ⟨g, hg, hos⟩ := resume_onStack hn hr
  refine stack_pids hos.stack fun x hx p hp => ?_
  rcases List.mem_append.mp hx with hx | hx
  · exact hall f List.mem_cons_self p (next_pids (hg.subset hx) hp)
  · exact hall x (List.mem_cons_of_mem _ hx) p hp

theorem resume_files [DecidableEq S] {b : Bool} {f : Frame Q S} {fs : List (Frame Q S)} (hf : k.frames = f :: fs)
    (hn : ∀ pc, f ≠ .schedule pc) (hd : ∀ s, f ≠ .down s) (hr : k.resume b fs f = some k') : k.Files k' := by
  have hst := resume_pids hf hn hr
  have hself : k'.task = k.task → k'.nextPid = k.nextPid → k'.owner = k.owner → k'.count = k.count → k'.semq = k.semq →
      k'.current = k.current → k'.ready = k.ready → k'.waitq = k.waitq → k'.sleepq = k.sleepq → k.Files k' :=
    fun ht hn ho hc hq hcur hr hw hl => Files.of_eq (fun p => by rw [ht]; exact ⟨rfl, rfl⟩) hn ho hc hq hcur hr hw hl hst
  have hmod : ∀ (u : Pid) (g : Task → Task), (∀ t, (g t).prio = t.prio ∧ (g t).originalPrio = t.originalPrio) →
      k'.task = (k.modify u g).task → k'.nextPid = k.nextPid → k'.owner = k.owner → k'.count = k.count → k'.semq = k.semq →
      k'.current = k.current → k'.ready = k.ready → k'.waitq = k.waitq → k'.sleepq = k.sleepq → k.Files k' :=
    fun u g hg ht hn ho hc hq hcur hr hw hl =>
      Files.of_eq (fun p => by rw [ht]; exact modify_prio_eq k u g hg p) hn ho hc hq hcur hr hw hl hst
  have hsleep : k.Files ((k.cloneArc k.current).setState k.current .sleeping) :=
    (files_modify k k.current (fun t => { t with strong := t.strong + 1 }) fun t => ⟨rfl, rfl⟩).trans
      (files_modify _ k.current (fun t => { t with state := .sleeping }) fun t => ⟨rfl, rfl⟩)
  cases f with
  | schedule pc => exact absurd rfl (hn pc)
  | down s => exact absurd rfl (hd s)
  | waitEvent q =>
    simp only [Kernel.resume] at hr
    split at hr
    · cases hr
      exact hself rfl rfl rfl rfl rfl rfl rfl rfl rfl
    · obtain ⟨k1, h1, rfl⟩ := Option.map_eq_some_iff.mp hr
      obtain ⟨rfl, -⟩ := upgrade_eq h1
      refine ⟨hsleep.prio, rfl, rfl, rfl, rfl, mentions_current k, fun e he => Or.inl he, fun e he => ?_, fun e he => mentions_sleepq he, hst⟩
      rcases List.mem_append.mp he with he | he
      · exact mentions_waitq he
      · rw [List.mem_singleton.mp he]
        exact mentions_current k
  | waitTest q =>
    simp only [Kernel.resume] at hr
    split at hr <;> cases hr <;> exact hself rfl rfl rfl rfl rfl rfl rfl rfl rfl
  | sleep t =>
    obtain ⟨k1, h1, rfl⟩ := Option.map_eq_some_iff.mp hr
    obtain ⟨rfl, -⟩ := upgrade_eq h1
    refine ⟨hsleep.prio, rfl, rfl, rfl, rfl, mentions_current k, fun e he => Or.inl he, fun e he => mentions_waitq he, fun e he => ?_, hst⟩
    rcases List.mem_append.mp he with he | he
    · exact mentions_sleepq ((List.takeWhile_sublist _).mem he)
    · rcases List.mem_cons.mp he with rfl | he
      · exact mentions_current k
      · exact mentions_sleepq ((List.dropWhile_sublist _).mem he)
  | rouse t =>
    cases hr
    exact hmod t (fun t => { t with state := .running }) (fun _ => ⟨rfl, rfl⟩) rfl rfl rfl rfl rfl rfl rfl rfl rfl
  | add t =>
    cases hr
    have hc : k.Files (k.cloneArc t) := files_modify k t (fun t => { t with strong := t.strong + 1 }) fun t => ⟨rfl, rfl⟩
    have ht : (k.cloneArc t).Mentions t := mentions_frame (f := .add t) (hf ▸ List.mem_cons_self) List.mem_cons_self
    have hr := hc.trans (files_pushReady ht)
    exact ⟨hr.prio, rfl, rfl, rfl, rfl, mentions_current k, hr.ready, hr.waitq, hr.sleepq, hst⟩
  | exitWith code =>
    cases hr
    exact hmod k.current (exited code) (fun _ => ⟨rfl, rfl⟩) rfl rfl rfl rfl rfl rfl rfl rfl rfl
  | exitNotify =>
    have hp := (files_doKill k (k.task k.current).ppid sigChld).prio
    obtain ⟨task, ht⟩ := doKill_fields k (k.task k.current).ppid sigChld
    simp only [Kernel.resume] at hr
    rw [ht] at hp hr
    cases hr
    split
    · next h0 =>
      rw [if_pos h0] at hst
      exact Files.of_eq hp rfl rfl rfl rfl rfl rfl rfl rfl hst
    · next h0 =>
      rw [if_neg h0] at hst
      exact Files.of_eq (fun _ => ⟨rfl, rfl⟩) rfl rfl rfl rfl rfl rfl rfl rfl hst
  | wait4 t =>
    simp only [Kernel.resume] at hr
    split at hr
    · next code u k1 hz =>
      obtain ⟨rfl, -⟩ := findZombieChild_some hz
      have hp := modify_prio_eq k.purge u reaped (fun _ => ⟨rfl, rfl⟩)
      cases hr
      rw [purge_eq] at hp hst ⊢
      exact Files.of_eq hp rfl rfl rfl rfl rfl rfl rfl rfl hst
    · next k1 hz =>
      obtain ⟨rfl, -⟩ := findZombieChild_none hz
      cases hr
      rw [purge_eq] at hst ⊢
      exact Files.of_eq (fun _ => ⟨rfl, rfl⟩) rfl rfl rfl rfl rfl rfl rfl rfl hst
  | waitAlive =>
    simp only [Kernel.resume] at hr
    split at hr <;> cases hr <;> exact hself rfl rfl rfl rfl rfl rfl rfl rfl rfl
  | checkSignals =>
    have hc : ∀ k1 : Kernel Q S, k1 = (k.modify k.current fun t => (checked t).2) → ∀ gs, k' = k1.setFrames gs → k.Files k' := by
      intro k1 h1 gs hgs
      subst h1 hgs
      exact hmod k.current (fun t => (checked t).2) checked_prio rfl rfl rfl rfl rfl rfl rfl rfl rfl
    simp only [Kernel.resume, doCheckSignals_eq] at hr
    split at hr
    · next hk =>
      cases hr
      exact hc _ (congrArg Prod.snd hk).symm _ rfl
    · next hk =>
      cases hr
      exact hc _ (congrArg Prod.snd hk).symm _ rfl
  | checkDead =>
    simp only [Kernel.resume] at hr
    split at hr <;> cases hr <;> exact hself rfl rfl rfl rfl rfl rfl rfl rfl rfl
  | checkSchedule =>
    simp only [Kernel.resume] at hr
    split at hr <;> cases hr <;> exact hself rfl rfl rfl rfl rfl rfl rfl rfl rfl

theorem files_wakeUp [DecidableEq Q] (k : Kernel Q S) (q : Q) : k.Files (k.wakeUp q) := by
  rw [wakeUp_eq]
  refine ⟨fun p => ?_, rfl, rfl, rfl, rfl, mentions_current k, fun e he => ?_, fun e he => mentions_waitq (List.mem_of_mem_filter he),
    fun e he => mentions_sleepq he, frames_pids k⟩
  · dsimp only
    split <;> exact ⟨rfl, rfl⟩
  · rcases List.mem_append.mp he with he | he
    · exact Or.inl he
    · obtain ⟨p, hp, rfl⟩ := List.mem_map.mp he
      obtain ⟨w, hw, rfl⟩ := List.mem_map.mp hp
      exact Or.inr ⟨rfl, mentions_waitq (List.mem_of_mem_filter hw)⟩

theorem files_checkSleepers (k : Kernel Q S) : k.Files k.checkSleepers := by
  rw [checkSleepers_eq]
  refine ⟨fun p => ?_, rfl, rfl, rfl, rfl, mentions_current k, fun e he => ?_, fun e he => mentions_waitq he,
    fun e he => mentions_sleepq ((List.dropWhile_sublist _).mem he), frames_pids k⟩
  · dsimp only
    split <;> exact ⟨rfl, rfl⟩
  · rcases List.mem_append.mp he with he | he
    · exact Or.inl he
    · obtain ⟨p, hp, rfl⟩ := List.mem_map.mp he
      obtain ⟨w, hw, rfl⟩ := List.mem_map.mp hp
      exact Or.inr ⟨rfl, mentions_sleepq ((List.takeWhile_sublist _).mem hw)⟩

theorem files_tty (k : Kernel Q S) (pid : Pid) (sig : Nat) : k.Files (k.tty pid sig) := by
  unfold tty
  split
  · exact files_modify k pid (fun t => { t with signals := t.signals.send sig }) fun _ => ⟨rfl, rfl⟩
  · exact Files.refl k

/-- The handler ran, and leaves the checks on the way out. -/
theorem files_interrupt [DecidableEq Q] (k : Kernel Q S) (i : Irq Q) : k.Files (k.interrupt i) := by
  have hout : ∀ k1 : Kernel Q S, k.Files k1 → k.Files (k1.setFrames (.checkSignals :: .checkSchedule :: k1.frames)) := by
    intro k1 h1
    refine h1.trans (files_setFrames fun f hf p hp => ?_)
    rcases List.mem_cons.mp hf with rfl | hf
    · cases hp
    · rcases List.mem_cons.mp hf with rfl | hf
      · cases hp
      · exact mentions_frame hf hp
  have hkeep : ∀ (k1 : Kernel Q S) tick r, k1.Files { k1 with tick := tick, needResched := r } := fun k1 tick r =>
    Files.of_eq (fun _ => ⟨rfl, rfl⟩) rfl rfl rfl rfl rfl rfl rfl rfl (frames_pids k1)
  cases i with
  | timer expired => exact hout _ (((hkeep k (k.tick + 1) k.needResched).trans (files_checkSleepers _)).trans (hkeep _ _ _))
  | wake q => exact hout _ (files_wakeUp k q)
  | ctrlC pid => exact hout _ (files_tty k pid sigInt)
  | ctrlZ pid => exact hout _ (files_tty k pid sigStop)

theorem enter_files [DecidableEq Q] [DecidableEq S] {c : Call Q S} (hu : ∀ s, c ≠ .up s) (ht : ∀ s, c ≠ .tryDown s) :
    k.Files (k.enter c) ∨ ∃ t, t.originalPrio = t.prio ∧ k.enter c = k.create t := by
  have hset : ∀ (k1 : Kernel Q S) (fs : List (Frame Q S)), k.Files k1 → (∀ f ∈ fs, f.pids = []) → k.Files (k1.setFrames fs) := by
    intro k1 fs h1 hfs
    refine h1.trans (files_setFrames fun f hf p hp => ?_)
    rw [hfs f hf] at hp
    cases hp
  have hone : ∀ f : Frame Q S, f.pids = [] → k.Files (k.setFrames [f]) := fun f hf =>
    hset k [f] (Files.refl k) fun g hg => by rw [List.mem_singleton.mp hg]; exact hf
  cases c with
  | up s => exact absurd rfl (hu s)
  | tryDown s => exact absurd rfl (ht s)
  | wakeUp q => exact Or.inl (files_wakeUp k q)
  | sleep ms =>
    simp only [Kernel.enter]
    split
    · exact Or.inl (Files.refl k)
    · exact Or.inl (hone _ rfl)
  | schedYield => exact Or.inl (Files.of_eq (fun _ => ⟨rfl, rfl⟩) rfl rfl rfl rfl rfl rfl rfl rfl (frames_pids k))
  | kill pid sig => exact Or.inl (files_doKill k pid sig)
  | fork =>
    simp only [Kernel.enter, doFork]
    split
    · exact Or.inr ⟨_, rfl, rfl⟩
    · exact Or.inl (Files.refl k)
  | createKernelThread prio => exact Or.inr ⟨_, rfl, rfl⟩
  | fault sig =>
    refine Or.inl (hset _ _ (files_doKill k k.current sig) fun f hf => ?_)
    rcases List.mem_cons.mp hf with rfl | hf
    · rfl
    · rw [List.mem_singleton.mp hf]
      rfl
  | _ => exact Or.inl (hone _ rfl)

/-- The events that use a semaphore. -/
def Lends (k : Kernel Q S) : Event Q S → Prop
  | .run _ => ∃ s fs, k.frames = .down s :: fs
  | .call (.up _) | .call (.tryDown _) => True
  | _ => False

/-- Any other step files, or creates a task. -/
theorem step_files [DecidableEq Q] [DecidableEq S] {e : Event Q S} (he : ¬ k.Lends e) (h : step k e = some k') :
    k.Files k' ∨ ∃ t, t.originalPrio = t.prio ∧ k' = k.create t := by
  have haccess : ∀ (k1 : Kernel Q S) pc fs k2 o, k.Files k1 → k1.frames = .schedule pc :: fs → k1.schedStep pc = some (k2, o) →
      k.Files (k2.accessed fs o) := fun k1 pc fs k2 o h1 hf hs => h1.trans (files_access hf hs)
  cases e with
  | call c =>
    simp only [step] at h
    split at h
    · cases h
      exact enter_files (fun s hc => he (by rw [hc]; trivial)) fun s hc => he (by rw [hc]; trivial)
    · cases h
  | run b =>
    refine Or.inl (step_rule haccess (fun c ec => by cases ec) (fun b' f fs k2 eb hf hn h1 hr => ?_)
      (fun k1 i hi => by rcases hi with hi | ⟨n, hi⟩ <;> cases hi) (Files.refl k) h)
    exact resume_files hf hn (fun s ef => he ⟨s, fs, by rw [hf, ef]⟩) hr
  | irq i =>
    exact Or.inl (step_rule haccess (fun c ec => by cases ec) (fun b f fs k2 eb => by cases eb)
      (fun k1 i _ h1 => h1.trans (files_interrupt k1 i)) (Files.refl k) h)
  | irqInside n i =>
    exact Or.inl (step_rule haccess (fun c ec => by cases ec) (fun b f fs k2 eb => by cases eb)
      (fun k1 i _ h1 => h1.trans (files_interrupt k1 i)) (Files.refl k) h)

theorem create_mentions (t : Task) (hp : (k.create t).Mentions p) : k.Mentions p ∨ p = k.nextPid := by
  rcases hp with rfl | hp | hp | hp | hp | ⟨u, f, hf, hp⟩
  · exact Or.inl (mentions_current k)
  · obtain ⟨e, he, rfl⟩ := List.mem_map.mp hp
    rcases List.mem_append.mp he with he | he
    · exact Or.inl (mentions_ready he)
    · exact Or.inr (congrArg Prod.snd (List.mem_singleton.mp he))
  · exact Or.inl (Or.inr (Or.inr (Or.inl hp)))
  · exact Or.inl (Or.inr (Or.inr (Or.inr (Or.inl hp))))
  · exact Or.inl (Or.inr (Or.inr (Or.inr (Or.inr (Or.inl hp)))))
  · have hf : f ∈ Function.update k.stack k.nextPid [] u := hf
    rw [Function.update_apply] at hf
    split at hf
    · cases hf
    · exact Or.inl (frames_pids k u f hf p hp)

theorem Known.create (h : k.Known) (t : Task) : (k.create t).Known := by
  intro p hp
  show p < k.nextPid + 1
  rcases create_mentions t hp with hp | rfl
  · exact Nat.lt_succ_of_lt (h p hp)
  · exact Nat.lt_succ_self _

theorem Filed.create (h : k.Filed) (t : Task) : (k.create t).Filed := by
  refine ⟨fun e he => ?_, h.known.create t⟩
  rcases List.mem_append.mp he with he | he
  · rw [create_task, if_neg (Nat.ne_of_lt (h.known _ (mentions_ready he)))]
    exact h.queues e he
  · rw [List.mem_singleton.mp he]
    rfl

/-! ## Semaphores -/

section

variable [DecidableEq S] {s : S}

theorem inheritPrio_prio (k : Kernel Q S) (s : S) (c u : Pid) :
    ((k.inheritPrio s c).task u).prio =
      (if k.ownerOf s = some u ∧ (k.task u).prio < (k.task c).prio then (k.task c).prio else (k.task u).prio) ∧
    ((k.inheritPrio s c).task u).originalPrio =
      if k.ownerOf s = some u ∧ (k.task u).prio < (k.task c).prio then (k.task u).prio else (k.task u).originalPrio := by
  unfold Kernel.inheritPrio
  cases ho : k.ownerOf s with
  | none => simp
  | some o =>
    dsimp only
    split
    · next hlt =>
      rw [modify_task]
      by_cases e : u = o
      · subst e
        simp [hlt]
      · simp [e, Ne.symm e]
    · next hlt =>
      have hno : ¬ (some o = some u ∧ (k.task u).prio < (k.task c).prio) := by
        intro ⟨e, h⟩
        cases e
        exact hlt h
      rw [if_neg hno, if_neg hno]
      exact ⟨rfl, rfl⟩

theorem downSection_pos (h : k.downSection s = some (true, k')) : 0 < k.count s := by
  unfold downSection at h
  split at h
  · next hs => exact hs
  · obtain ⟨k1, -, h1⟩ := Option.map_eq_some_iff.mp h
    cases h1

/-- A `down` that blocks gives the owner the priority of the caller. -/
theorem downSection_prio (h : k.downSection s = some (false, k')) (u : Pid) :
    (k'.task u).prio =
      (if k.ownerOf s = some u ∧ (k.task u).prio < (k.task k.current).prio then (k.task k.current).prio else (k.task u).prio) ∧
    (k'.task u).originalPrio =
      if k.ownerOf s = some u ∧ (k.task u).prio < (k.task k.current).prio then (k.task u).prio else (k.task u).originalPrio := by
  unfold downSection at h
  split at h
  · obtain ⟨k1, -, h1⟩ := Option.map_eq_some_iff.mp h
    cases h1
  · obtain ⟨k1, h1, h2⟩ := Option.map_eq_some_iff.mp h
    obtain ⟨rfl, -⟩ := upgrade_eq h1
    obtain rfl : _ = k' := congrArg Prod.snd h2
    have hc := modify_prio_eq k k.current (fun t => { t with strong := t.strong + 1 }) fun t => ⟨rfl, rfl⟩
    have hi := inheritPrio_prio (k.cloneArc k.current) s k.current u
    rw [cloneArc, (hc u).1, (hc k.current).1, (hc u).2] at hi
    generalize hk2 : (k.cloneArc k.current).inheritPrio s k.current = k2 at h2 ⊢
    rw [cloneArc] at hk2
    rw [hk2] at hi
    have hs := modify_prio_eq { k2 with semq := k2.semq ++ [(s, k.current)] } k.current (fun t => { t with state := .sleeping })
      (fun t => ⟨rfl, rfl⟩) u
    exact ⟨hs.1.trans hi.1, hs.2.trans hi.2⟩

/-- `up` gives the owner its original priority. -/
theorem upSection_prio (k : Kernel Q S) (s : S) (u : Pid) :
    ((k.upSection s).2.task u).prio = (if k.ownerOf s = some u then (k.task u).originalPrio else (k.task u).prio) ∧
    ((k.upSection s).2.task u).originalPrio = (k.task u).originalPrio := by
  have hr : ((((k.setCount s (k.count s + 1)).restorePrio s).task u).prio =
        if k.ownerOf s = some u then (k.task u).originalPrio else (k.task u).prio) ∧
      (((k.setCount s (k.count s + 1)).restorePrio s).task u).originalPrio = (k.task u).originalPrio := by
    unfold Kernel.restorePrio
    have ho : (k.setCount s (k.count s + 1)).ownerOf s = k.ownerOf s := rfl
    rw [ho]
    cases k.ownerOf s with
    | none => simp [setCount]
    | some o =>
      dsimp only
      rw [modify_task]
      by_cases e : u = o
      · subst e
        simp [setCount]
      · simp [setCount, e, Ne.symm e]
  have hset : ((((k.setCount s (k.count s + 1)).restorePrio s).setOwner s none).task u).prio =
        (((k.setCount s (k.count s + 1)).restorePrio s).task u).prio ∧
      ((((k.setCount s (k.count s + 1)).restorePrio s).setOwner s none).task u).originalPrio =
        (((k.setCount s (k.count s + 1)).restorePrio s).task u).originalPrio := by
    rw [setOwner_eq]
    exact ⟨rfl, rfl⟩
  unfold upSection
  dsimp only
  split <;> exact ⟨hset.1.trans hr.1, hset.2.trans hr.2⟩

/-- `down` mentions nobody new. -/
theorem down_mentions {b : Bool} {fs : List (Frame Q S)} (hf : k.frames = .down s :: fs) (hr : k.resume b fs (.down s) = some k')
    (hp : k'.Mentions p) : k.Mentions p := by
  have hst := resume_pids hf (fun pc e => by cases e) hr
  have hq : k'.current = k.current ∧ k'.ready = k.ready ∧ k'.waitq = k.waitq ∧ k'.sleepq = k.sleepq ∧ ∀ e ∈ k'.semq, k.Mentions e.2 := by
    simp only [Kernel.resume] at hr
    split at hr
    · cases hr
    · next hd =>
      obtain ⟨-, -, rfl⟩ := downSection_true hd
      cases hr
      exact ⟨rfl, rfl, rfl, rfl, fun e he => mentions_semq he⟩
    · next hd =>
      obtain ⟨-, -, -, task, rfl, -⟩ := downSection_false hd
      cases hr
      refine ⟨rfl, rfl, rfl, rfl, fun e he => ?_⟩
      rcases List.mem_append.mp he with he | he
      · exact mentions_semq he
      · rw [List.mem_singleton.mp he]
        exact mentions_current k
  rcases hp with hp | hp | hp | hp | hp | ⟨u, f, hf, hp⟩
  · exact Or.inl (hq.1 ▸ hp)
  · exact Or.inr (Or.inl (hq.2.1 ▸ hp))
  · exact Or.inr (Or.inr (Or.inl (hq.2.2.1 ▸ hp)))
  · exact Or.inr (Or.inr (Or.inr (Or.inl (hq.2.2.2.1 ▸ hp))))
  · obtain ⟨e, he, rfl⟩ := List.mem_map.mp hp
    exact hq.2.2.2.2 e he
  · exact hst u f hf p hp

theorem down_nextPid {b : Bool} {fs : List (Frame Q S)} (hr : k.resume b fs (.down s) = some k') : k'.nextPid = k.nextPid := by
  obtain ⟨g, -, ho⟩ := resume_onStack (fun pc e => by cases e) hr
  exact ho.nextPid

theorem Known.down (h : k.Known) {b : Bool} {fs : List (Frame Q S)} (hf : k.frames = .down s :: fs)
    (hr : k.resume b fs (.down s) = some k') : k'.Known := by
  intro p hp
  rw [down_nextPid hr]
  exact h p (down_mentions hf hr hp)

theorem Filed.down (h : k.Filed) {b : Bool} {fs : List (Frame Q S)} (hf : k.frames = .down s :: fs)
    (ho : k.Unqueued (.run b : Event Q S)) (hr : k.resume b fs (.down s) = some k') : k'.Filed := by
  have ho : k.count s ≤ 0 → ∀ o ∈ k.ownerOf s, (k.task o).prio < (k.task k.current).prio → ∀ e ∈ k.ready, e.2 ≠ o := by
    simpa only [Unqueued, hf] using ho
  refine ⟨?_, h.known.down hf hr⟩
  simp only [Kernel.resume] at hr
  split at hr
  · cases hr
  · next hd =>
    obtain ⟨-, -, rfl⟩ := downSection_true hd
    cases hr
    exact h.queues
  · next k1 hd =>
    have hprio := downSection_prio hd
    obtain ⟨-, -, hc, task, rfl, -⟩ := downSection_false hd
    cases hr
    intro e he
    have hnot : ¬ (k.ownerOf s = some e.2 ∧ (k.task e.2).prio < (k.task k.current).prio) := fun hb => ho hc e.2 hb.1 hb.2 e he rfl
    have hp := (hprio e.2).1
    rw [if_neg hnot] at hp
    exact hp.trans (h.queues e he)

/-- `up` mentions nobody new. -/
theorem up_mentions [DecidableEq Q] (hp : (k.enter (.up s)).Mentions p) : k.Mentions p := by
  obtain ⟨task, -, hu⟩ := upSection_eq k s
  have hsem : ∀ e ∈ k.semq.eraseP fun e => e.1 = s, k.Mentions e.2 := fun e he => mentions_semq (List.mem_of_mem_eraseP he)
  simp only [Kernel.enter, hu] at hp
  cases hw : k.semq.find? fun e => e.1 = s with
  | none =>
    rw [hw] at hp
    rcases hp with hp | hp | hp | hp | hp | hp
    · exact Or.inl hp
    · exact Or.inr (Or.inl hp)
    · exact Or.inr (Or.inr (Or.inl hp))
    · exact Or.inr (Or.inr (Or.inr (Or.inl hp)))
    · obtain ⟨e, he, rfl⟩ := List.mem_map.mp hp
      exact hsem e he
    · exact Or.inr (Or.inr (Or.inr (Or.inr (Or.inr hp))))
  | some w =>
    rw [hw] at hp
    rcases hp with hp | hp | hp | hp | hp | ⟨u, f, hf, hp⟩
    · exact Or.inl hp
    · exact Or.inr (Or.inl hp)
    · exact Or.inr (Or.inr (Or.inl hp))
    · exact Or.inr (Or.inr (Or.inr (Or.inl hp)))
    · obtain ⟨e, he, rfl⟩ := List.mem_map.mp hp
      exact hsem e he
    · have hst : ∀ u, ∀ f ∈ (k.setFrames [.rouse w.2]).stack u, ∀ p ∈ f.pids, k.Mentions p := by
        refine stack_pids rfl fun f hf p hp => ?_
        rw [List.mem_singleton.mp hf] at hp
        rw [List.mem_singleton.mp hp]
        exact mentions_semq (List.mem_of_find?_eq_some hw)
      exact hst u f hf p hp

theorem up_nextPid [DecidableEq Q] (k : Kernel Q S) (s : S) : (k.enter (.up s)).nextPid = k.nextPid := by
  obtain ⟨task, -, hu⟩ := upSection_eq k s
  simp only [Kernel.enter, hu]
  cases k.semq.find? fun e => e.1 = s <;> rfl

theorem up_task [DecidableEq Q] (k : Kernel Q S) (s : S) : (k.enter (.up s)).task = (k.upSection s).2.task := by
  simp only [Kernel.enter]
  split
  · next k1 hu => rw [hu]
  · next t k1 hu => rw [hu]; rfl

theorem Known.up [DecidableEq Q] (h : k.Known) : (k.enter (.up s)).Known := by
  intro p hp
  rw [up_nextPid]
  exact h p (up_mentions hp)

theorem Filed.up [DecidableEq Q] (h : k.Filed)
    (ho : ∀ o ∈ k.ownerOf s, (k.task o).prio ≠ (k.task o).originalPrio → ∀ e ∈ k.ready, e.2 ≠ o) : (k.enter (.up s)).Filed := by
  refine ⟨fun e he => ?_, h.known.up⟩
  have he : e ∈ k.ready := by
    obtain ⟨task, -, hu⟩ := upSection_eq k s
    simp only [Kernel.enter, hu] at he
    cases hw : k.semq.find? fun e => e.1 = s <;> rw [hw] at he <;> exact he
  rw [up_task, (upSection_prio k s e.2).1]
  split
  · next hs =>
    by_cases hne : (k.task e.2).prio = (k.task e.2).originalPrio
    · exact hne.symm.trans (h.queues e he)
    · exact absurd rfl (ho e.2 hs hne e he)
  · exact h.queues e he

theorem tryDown_eq (k : Kernel Q S) (s : S) : (k.tryDown s).2 = { k with
    count := if 0 < k.count s then Function.update k.count s (k.count s - 1) else k.count } := by
  unfold tryDown
  split <;> rfl

end

/-! ## Every run -/

theorem Known.step [DecidableEq Q] [DecidableEq S] (h : k.Known) {e : Event Q S} (hs : Kernel.step k e = some k') : k'.Known := by
  by_cases he : k.Lends e
  · cases e with
    | run b =>
      obtain ⟨s, fs, hf⟩ := he
      simp only [Kernel.step, hf] at hs
      exact h.down hf hs
    | call c =>
      simp only [Kernel.step] at hs
      split at hs
      · cases hs
        cases c with
        | up s => exact h.up
        | tryDown s =>
          simp only [Kernel.enter, tryDown_eq]
          exact h
        | _ => exact he.elim
      · cases hs
    | _ => exact he.elim
  · rcases step_files he hs with hf | ⟨t, -, rfl⟩
    · exact h.files hf
    · exact h.create t

theorem Filed.step [DecidableEq Q] [DecidableEq S] (h : k.Filed) {e : Event Q S} (ho : k.Unqueued e) (hs : Kernel.step k e = some k') :
    k'.Filed := by
  by_cases he : k.Lends e
  · cases e with
    | run b =>
      obtain ⟨s, fs, hf⟩ := he
      simp only [Kernel.step, hf] at hs
      exact h.down hf ho hs
    | call c =>
      simp only [Kernel.step] at hs
      split at hs
      · cases hs
        cases c with
        | up s => exact h.up ho
        | tryDown s =>
          simp only [Kernel.enter, tryDown_eq]
          exact ⟨h.queues, h.known⟩
        | _ => exact he.elim
      · cases hs
    | _ => exact he.elim
  · rcases step_files he hs with hf | ⟨t, -, rfl⟩
    · exact h.files hf
    · exact h.create t

theorem start_filed {count : S → Int} {ts : List (Prio × Bool)} (h : start count ts = some k) : k.Filed := by
  have he : (empty count : Kernel Q S).Filed := by
    refine ⟨fun e he => absurd he List.not_mem_nil, fun p hp => ?_⟩
    rcases hp with rfl | hp | hp | hp | hp | ⟨u, f, hf, hp⟩
    · exact Nat.zero_lt_one
    · cases hp
    · cases hp
    · cases hp
    · cases hp
    · cases hf
  have h0 : (empty count : Kernel Q S).createIdle.Filed :=
    (he.create (Task.new 0 0 false)).files (files_modify _ 1 (fun t => { t with strong := t.strong + 1 }) fun _ => ⟨rfl, rfl⟩)
  obtain ⟨k1, e, h1, hm, rfl⟩ := start_rule h0 (fun k prio user hk => hk.create _) h
  exact h1.files ⟨fun _ => ⟨rfl, rfl⟩, rfl, rfl, rfl, rfl, mentions_ready hm, fun a ha => Or.inl (List.mem_of_mem_erase ha),
    fun e he => mentions_waitq he, fun e he => mentions_sleepq he, frames_pids k1⟩

/-- While no priority is written of a task that is in a ready queue, the queues are in order
    and `schedule()` picks a task of the highest priority. -/
theorem inOrder_reach [DecidableEq Q] [DecidableEq S] (h : Lib.Reach step Unqueued Boot k) : k.InOrder :=
  Filed.inOrder (Lib.Reach.rule (P := Filed) (fun _ ⟨_, _, h⟩ => start_filed h) (fun _ _ _ hk he hs => hk.step he hs) h)

instance unqueuedDecidable [DecidableEq S] (k : Kernel Q S) (e : Event Q S) : Decidable (k.Unqueued e) := by
  delta Unqueued
  exact match e with
    | .call (.up s) => inferInstanceAs (Decidable (∀ o ∈ k.ownerOf s, (k.task o).prio ≠ (k.task o).originalPrio → ∀ e ∈ k.ready, e.2 ≠ o))
    | .call (.waitEvent _) | .call (.wakeUp _) | .call (.sleep _) | .call .yieldNow | .call .schedYield | .call (.down _)
    | .call (.tryDown _) | .call (.kill _ _) | .call (.exit _) | .call (.wait4 _) | .call .fork | .call (.createKernelThread _)
    | .call .checkSignals | .call (.fault _) | .irq _ | .irqInside _ _ => isTrue trivial
    | .run _ => by
      generalize k.frames = gs
      exact match gs with
        | .down s :: _ => inferInstanceAs (Decidable (k.count s ≤ 0 → ∀ o ∈ k.ownerOf s, (k.task o).prio < (k.task k.current).prio →
            ∀ e ∈ k.ready, e.2 ≠ o))
        | [] | .waitEvent _ :: _ | .waitTest _ :: _ | .sleep _ :: _ | .schedule _ :: _ | .rouse _ :: _ | .add _ :: _
        | .exitWith _ :: _ | .exitNotify :: _ | .wait4 _ :: _ | .waitAlive :: _ | .checkDead :: _ | .checkSignals :: _
        | .checkSchedule :: _ => isTrue trivial

/-- The idle task and two tasks of different priority. -/
def lowAndHigh : Option (Kernel Unit Unit) := start (fun _ => 1) [(5, true), (6, true)]

theorem lowAndHigh_boot : ∀ k, lowAndHigh = some k → k.Boot := fun _ h => ⟨_, _, h⟩

/-- The high task waits for an event, the low one wakes it and yields. -/
def wakeAndYield : List (Event Unit Unit) :=
  [.call (.waitEvent ()), .run false, .run true, .run true, .call (.wakeUp ()), .call .yieldNow, .run true]

theorem inOrder_reach_wakeAndYield : ∃ k, (lowAndHigh.bind fun k => Lib.trace step k wakeAndYield) = some k ∧
    k.current = 3 ∧ k.InOrder := by
  obtain ⟨k, hk, ht, hd⟩ := Lib.exists_run step Unqueued wakeAndYield
    (fun k : Kernel Unit Unit => decide (k.current = 3)) lowAndHigh_boot rfl rfl
  exact ⟨k, ht, of_decide_eq_true hd, inOrder_reach hk⟩

/-- The low task takes the semaphore and is preempted; the high one blocks on it, and raises
    the priority of the low one in its ready queue. -/
def raiseQueued : List (Event Unit Unit) :=
  [.call (.sleep 1), .run true, .run true, .call (.down ()), .run true, .irq (.timer true), .run true, .run true, .run true,
    .call (.down ()), .run true]

theorem raised_in_queue : ¬ ∀ k : Kernel Unit Unit, Lib.Reach step (fun _ _ => True) Boot k → k.InOrder := by
  intro h
  obtain ⟨k, hk, -, hd⟩ := Lib.exists_run step (fun _ _ => True) raiseQueued
    (fun k : Kernel Unit Unit => decide ((5, 2) ∈ k.ready ∧ (k.task 2).prio = 6)) lowAndHigh_boot rfl rfl
  obtain ⟨hm, hp⟩ := of_decide_eq_true hd
  have := (h k hk).queues (5, 2) hm
  rw [hp] at this
  exact absurd this (by decide)

end Kernel

end Myos.Sched
