/-
  Myos.Sched.Reaping — a child that has ended is reported by one `do_wait4` of its parent.

  Proved:
  - `reaped_reach`: while ended tasks stay ended, no ZOMBIE is killed or terminated again,
    who exits is queued nowhere, and `do_wait4` meets no DEAD child that was not reaped, every
    child is reported at most once, to its parent and with its exit code; "no children" is
    reported when all were; and a child that has ended is reported once its parent has asked
    more often than there are children before it in ALL_TASKS.
  - `killed_child_lost`: a child is killed, and `do_wait4` drops it and reports "no children".
-/

import Myos.Sched.Finality
import Myos.Sched.Lifetime

namespace Myos.Sched.Kernel

open Finset

variable {Q S : Type*} {k k' : Kernel Q S} {p : Pid}

/-! ## The condition -/

/-- A ZOMBIE gets no further signal that changes its state or its exit code, who exits is in
    no queue, and the two passes of `do_wait4` meet no child that was killed, the second no
    ZOMBIE unless there is a child alive. -/
def Careful (k : Kernel Q S) : Event Q S → Prop
  | .irqInside _ _ => False
  | .call (.kill pid sig) => sig = sigKill → (k.task pid).state ≠ .zombie
  | .run _ =>
    match k.frames with
    | .exitWith _ :: _ => k.live k.current = 1
    | .checkSignals :: _ =>
      match defaultAction (k.task k.current).signals.checkPending with
      | .terminate | .core => (k.task k.current).signals.checkPending ≠ 0 → (k.task k.current).state ≠ .zombie
      | _ => True
    | .wait4 _ :: _ => ∀ p ∈ k.all, (k.task p).ppid ≠ 0 → (k.task p).state = .dead → (k.task p).arcSelf = false
    | .waitAlive :: _ => k.hasAlive k.current = true ∨
        ∀ p ∈ k.all, (k.task p).ppid = k.current → (k.task p).Final → (k.task p).arcSelf = false
    | _ => True
  | _ => True

def Reaping (k : Kernel Q S) (e : Event Q S) : Prop := k.Lawful e ∧ k.Careful e

theorem Careful.outside {e : Event Q S} (h : k.Careful e) : Outside e := by
  cases e <;> first | exact h | trivial

/-! ## The ledger -/

/-- The task is on its way from `do_exit_with` to its last `schedule()`. -/
def Leaving : List (Frame Q S) → Prop
  | .schedule _ :: _ | .exitNotify :: _ => True
  | .checkSignals :: fs | .checkSchedule :: fs => Leaving fs
  | _ => False

/-- The children that were reported. -/
def reported (k : Kernel Q S) : List Pid := k.waits.filterMap fun w =>
  match w.2 with
  | .child p _ => some p
  | _ => none

theorem mem_reported : p ∈ k.reported ↔ ∃ parent code, (parent, .child p code) ∈ k.waits := by
  simp only [reported, List.mem_filterMap]
  constructor
  · rintro ⟨⟨u, r⟩, hm, h⟩
    cases r with
    | child q code => cases h; exact ⟨u, code, hm⟩
    | _ => cases h
  · rintro ⟨u, code, hm⟩
    exact ⟨_, hm, rfl⟩

structure Ledger (k : Kernel Q S) : Prop where
  /-- Who was not reaped can be found. -/
  all : ∀ p, ¬ k.Vacant p → (k.task p).ppid ≠ 0 → (k.task p).arcSelf = true → p ∈ k.all
  nodup : k.reported.Nodup
  entry : ∀ parent p code, (parent, .child p code) ∈ k.waits →
    ¬ k.Vacant p ∧ (k.task p).arcSelf = false ∧ parent = (k.task p).ppid ∧ code = (k.task p).exitCode
  gone : ∀ p, ¬ k.Vacant p → (k.task p).arcSelf = false → p ∈ k.reported ∧ (k.task p).state = .dead ∧ k.live p = 0
  /-- A ZOMBIE leaves the CPU and is not queued again. -/
  zombie : ∀ p, ¬ k.Vacant p → (k.task p).state = .zombie → k.live p = if p = k.current then 1 else 0
  leaving : (k.task k.current).state = .zombie → Leaving k.frames

/-- What a step that reaps nobody has to do. -/
theorem Ledger.keep (h : k.Ledger) (ha : k.Accounts k') (hn : k'.nextPid = k.nextPid) (hall : k.all ⊆ k'.all)
    (hw : k'.reported = k.reported) (hc : ∀ parent p code, (parent, .child p code) ∈ k'.waits ↔ (parent, .child p code) ∈ k.waits)
    (hr : ∀ p, (k'.task p).ppid = (k.task p).ppid ∧ (k'.task p).arcSelf = (k.task p).arcSelf)
    (he : ∀ p, k.live p = 0 → (k'.task p).exitCode = (k.task p).exitCode)
    (hd : ∀ p, p < k.nextPid → k.live p = 0 → (k.task p).state = .dead → (k'.task p).state = .dead)
    (hz : ∀ p, ¬ k.Vacant p → (k'.task p).state = .zombie → k'.live p = if p = k'.current then 1 else 0)
    (hl : (k'.task k'.current).state = .zombie → Leaving k'.frames) : k'.Ledger := by
  have hv : ∀ p, k'.Vacant p ↔ k.Vacant p := fun p => by rw [Vacant, Vacant, hn]
  have hlt : ∀ p, ¬ k.Vacant p → p < k.nextPid := fun p hp => Nat.lt_of_not_le fun hle => hp (Or.inr hle)
  refine ⟨fun p hp h0 h1 => ?_, by rw [hw]; exact h.nodup, fun u p c hm => ?_, fun p hp h0 => ?_,
    fun p hp => hz p (fun h => hp ((hv p).mpr h)), hl⟩
  · rw [(hr p).1] at h0
    rw [(hr p).2] at h1
    exact hall (h.all p (fun h => hp ((hv p).mpr h)) h0 h1)
  · obtain ⟨h1, h2, h3, h4⟩ := h.entry u p c ((hc u p c).mp hm)
    rw [hv, (hr p).1, (hr p).2, he p (h.gone p h1 h2).2.2]
    exact ⟨h1, h2, h3, h4⟩
  · rw [(hr p).2] at h0
    have hp : ¬ k.Vacant p := fun h => hp ((hv p).mpr h)
    obtain ⟨h1, h2, h3⟩ := h.gone p hp h0
    exact ⟨by rw [hw]; exact h1, hd p (hlt p hp) h3 h2, ha.live p (hlt p hp) h3⟩

theorem live_current (k : Kernel Q S) : k.live k.current ≠ 0 := by
  rw [live, if_pos rfl]
  omega

/-- Who cannot run any more and is DEAD stays DEAD. -/
theorem dead_stays [DecidableEq Q] [DecidableEq S] (hq : k.Quiet) {e : Event Q S} (he : k.Lawful e)
    (h : step k e = some k') (hp : p < k.nextPid) (hl : k.live p = 0) (hd : (k.task p).state = .dead) :
    (k'.task p).state = .dead := by
  rcases (hq.orderly he h p).keeps hp (Or.inl hd) with hd' | hz
  · exact hd'
  · rcases step_zombie h hz with hz | ⟨e, -⟩
    · cases hd.symm.trans hz
    · exact (live_current k (e ▸ hl)).elim

theorem Ledger.of_keeps [DecidableEq Q] [DecidableEq S] (h : k.Ledger) (hq : k.Quiet) {e : Event Q S}
    (he : k.Lawful e) (hs : step k e = some k') (ha : k.Accounts k') (hk : k.Keeps k')
    (hz : ∀ p, ¬ k.Vacant p → (k'.task p).state = .zombie → k'.live p = if p = k'.current then 1 else 0)
    (hl : (k'.task k'.current).state = .zombie → Leaving k'.frames) : k'.Ledger :=
  h.keep ha hk.nextPid (by rw [hk.all]; exact List.Subset.refl _) (by rw [reported, hk.waits, reported])
    (fun u p c => by rw [hk.waits]) (fun p => ⟨(hk.record p).1, (hk.record p).2.1⟩) (fun p _ => (hk.record p).2.2)
    (fun p hp hl hd => dead_stays hq he hs hp hl hd) hz hl

/-- A ZOMBIE that has left the CPU. -/
theorem Ledger.zombie_left (h : k.Ledger) (ha : k.Accounts k') (hp : ¬ k.Vacant p) (hz : (k.task p).state = .zombie)
    (hne : p ≠ k.current) : k'.live p = if p = k'.current then 1 else 0 := by
  have h0 := h.zombie p hp hz
  rw [if_neg hne] at h0
  have h1 := ha.live p (Nat.lt_of_not_le fun hle => hp (Or.inr hle)) h0
  have hne' : p ≠ k'.current := fun e => live_current k' (by rw [← e]; exact h1)
  rw [if_neg hne']
  exact h1

theorem OnStack.live {fs : List (Frame Q S)} (h : OnStack k fs k') (hs : k.Straight) (hc : k.Counted)
    (hfs : ∀ p, fs.countP (Frame.holds p) = k.frames.countP (Frame.holds p)) (hl : ∀ p, k'.listed p = k.listed p) (p : Pid) :
    k'.live p = k.live p := by
  have h1 := h.handed (hs.running ▸ hc.current_lt) p
  rw [hfs] at h1
  rw [Kernel.live, Kernel.live, hl, h.current, Nat.add_right_cancel h1]

theorem Ledger.interrupt [DecidableEq Q] [DecidableEq S] (h : k.Ledger) (hs : k.Straight) (hc : k.Counted) (hq : k.Quiet)
    (i : Irq Q) : (k.interrupt i).Ledger := by
  have ha := Accounts.interrupt hs hc i
  have ho := interrupt_onStack k i
  refine h.of_keeps (S := S) (e := .irq i) hq trivial rfl ha (Keeps.interrupt k i) (fun p hp hz => ?_) fun hz => ?_
  · have hz := interrupt_zombie hz
    by_cases e : p = k.current
    · rw [interrupt_live hs hc, ho.current]
      exact h.zombie p hp hz
    · exact h.zombie_left ha hp hz e
  · rw [ho.current] at hz
    have hf : (k.interrupt i).frames = .checkSignals :: .checkSchedule :: k.frames := by
      rw [frames, ho.running, ho.stack, Function.update_self]
    rw [hf]
    exact h.leaving (interrupt_zombie hz)

theorem Ledger.create (h : k.Ledger) (hc : k.Counted) {t : Task} (hst : t.state = .running)
    (harc : t.arcSelf = true) (hz0 : (k.task k.current).state ≠ .zombie) : (k.create t).Ledger := by
  have hp : ∀ p, ¬ (k.create t).Vacant p → p = k.nextPid ∨ p ≠ k.nextPid ∧ ¬ k.Vacant p := fun p hp => by
    by_cases e : p = k.nextPid
    · exact Or.inl e
    · exact Or.inr ⟨e, fun hv => hp (hv.imp_right fun hle => Nat.lt_of_le_of_ne hle (Ne.symm e))⟩
  have hne : ∀ p, ¬ k.Vacant p → p ≠ k.nextPid := fun p hp e => hp (Or.inr (Nat.le_of_eq e.symm))
  have hcur : k.current ≠ k.nextPid := hne _ hc.current
  refine ⟨fun p hv h0 h1 => ?_, h.nodup, fun u p c hm => ?_, fun p hv h0 => ?_, fun p hv hz => ?_, fun hz => ?_⟩
  · rcases hp p hv with e | ⟨e, hv⟩
    · exact List.mem_append_right _ (List.mem_singleton.mpr e)
    · rw [create_task, if_neg e] at h0 h1
      exact List.mem_append_left _ (h.all p hv h0 h1)
  · obtain ⟨h1, h2⟩ := h.entry u p c hm
    rw [create_task, if_neg (hne p h1)]
    exact ⟨fun hv => hv.elim (fun e => h1 (Or.inl e)) fun hle => h1 (Or.inr (Nat.le_of_lt hle)), h2⟩
  · rcases hp p hv with e | ⟨e, hv⟩
    · rw [create_task, if_pos e] at h0
      cases harc.symm.trans h0
    · rw [create_task, if_neg e] at h0 ⊢
      rw [(create_refs k t p).1, if_neg e]
      exact h.gone p hv h0
  · rcases hp p hv with e | ⟨e, hv⟩
    · rw [create_task, if_pos e] at hz
      cases hst.symm.trans hz
    · rw [create_task, if_neg e] at hz
      rw [(create_refs k t p).1, if_neg e]
      exact h.zombie p hv hz
  · have hz : ((k.create t).task k.current).state = .zombie := hz
    rw [create_task, if_neg hcur] at hz
    exact (hz0 hz).elim

theorem Ledger.enter [DecidableEq Q] [DecidableEq S] (h : k.Ledger) (hs : k.Straight) (hc : k.Counted) (hq : k.Quiet)
    (h0 : k.frames = []) {c : Call Q S} (he : k.Lawful (.call c)) : (k.enter c).Ledger := by
  have hz0 : (k.task k.current).state ≠ .zombie := fun hz => by
    have hl := h.leaving hz
    rw [h0] at hl
    exact hl
  have hstep : step k (.call c) = some (k.enter c) := by simp only [Kernel.step, h0, if_true]
  have ha := Accounts.enter hs hc h0 c
  have hcur : (k.enter c).current = k.current := by
    rcases enter_onStack h0 c with (ho | ho) | ⟨t, e, -⟩
    · exact ho.current
    · exact ho.current
    · rw [e]; rfl
  rcases enter_keeps k c with hk | ⟨ppid, prio, user, e, -⟩
  · refine h.of_keeps hq he hstep ha hk (fun p hp hz => ?_) fun hz => ?_
    · have hz := enter_zombie hz
      exact h.zombie_left ha hp hz fun e => hz0 (e ▸ hz)
    · rw [hcur] at hz
      exact (hz0 (enter_zombie hz)).elim
  · rw [e]
    exact h.create hc rfl rfl hz0

theorem Ledger.schedule [DecidableEq Q] [DecidableEq S] (h : k.Ledger) (hs : k.Straight) (hc : k.Counted) (hq : k.Quiet)
    {fs : List (Frame Q S)} {b : Bool} (hf : k.frames = .schedule .start :: fs) (he : k.Lawful (.run b))
    (hstep : step k (.run b) = some k') : k'.Ledger := by
  have ha := Accounts.step hs hc (e := .run b) trivial hstep
  have hsch : ∃ r, k.schedFor 6 .start = some (r, k') := by
    simp only [Kernel.step, hf] at hstep
    obtain ⟨⟨r, k1⟩, hr, rfl⟩ := Option.map_eq_some_iff.mp hstep
    exact ⟨r, hr⟩
  obtain ⟨r, hr⟩ := hsch
  -- no ZOMBIE is left where it could run
  have hz : ∀ p, ¬ k.Vacant p → (k'.task p).state = .zombie → k'.live p = 0 := fun p hp hz => by
    have hz : (k.task p).state = .zombie := (step_zombie hstep hz).resolve_right fun hx => by
      obtain ⟨-, code, gs, b, e, -⟩ := hx
      cases hf.symm.trans e
    have h0 := h.zombie p hp hz
    by_cases e : p = k.current
    · have h1 := schedule_live hs hc hf hr p
      have h2 := hc.strong p
      obtain ⟨e', -, hk⟩ := hs.schedule_eq hf hr
      have h3 : (k'.task p).strong = (k.task p).strong - 1 := by
        rw [hk]
        show (Function.update k.task k.current (released (k.task k.current)) p).strong = _
        rw [e, Function.update_self, released, if_neg]
        rw [← e, hz]
        exact fun e => by cases e
      rw [if_pos e] at h0
      rw [refs] at h2
      omega
    · rw [if_neg e] at h0
      exact ha.live p (Nat.lt_of_not_le fun hle => hp (Or.inr hle)) h0
  have hk := Keeps.schedule 6 hr
  refine h.of_keeps hq he hstep ha hk (fun p hp h0 => ?_) fun h0 => ?_
  · have h1 := hz p hp h0
    have hne : p ≠ k'.current := fun e => live_current k' (by rw [← e]; exact h1)
    rw [if_neg hne]
    exact h1
  · have hv : ¬ k.Vacant k'.current := by
      have := ha.counted.current
      rwa [Vacant, hk.nextPid] at this
    exact (live_current k' (hz k'.current hv h0)).elim

/-- A frame of a ZOMBIE on its way out goes on. -/
theorem Ledger.leave [DecidableEq Q] [DecidableEq S] (h : k.Ledger) (hs : k.Straight) (hc : k.Counted) (hq : k.Quiet)
    {b : Bool} (he : k.Lawful (.run b)) (hstep : step k (.run b) = some k') (hk : k.Keeps k') {gs : List (Frame Q S)}
    (ho : OnStack k gs k') (hne : ∀ code fs, k.frames ≠ .exitWith code :: fs)
    (hlive : (k.task k.current).state = .zombie → ∀ p, k'.live p = k.live p)
    (hl : (k.task k.current).state = .zombie → Leaving gs) : k'.Ledger := by
  have ha := Accounts.step hs hc (e := .run b) trivial hstep
  have hold : ∀ p, (k'.task p).state = .zombie → (k.task p).state = .zombie := fun p hz =>
    (step_zombie hstep hz).resolve_right fun ⟨_, code, fs, b, e, _⟩ => hne code fs e
  refine h.of_keeps hq he hstep ha hk (fun p hp hz => ?_) fun hz => ?_
  · have hz := hold p hz
    by_cases e : p = k.current
    · rw [hlive (e ▸ hz), ho.current]
      exact h.zombie p hp hz
    · exact h.zombie_left ha hp hz e
  · rw [ho.current] at hz
    rw [frames, ho.running, ho.stack, Function.update_self]
    exact hl (hold _ hz)

/-- The frames on top of which a ZOMBIE leaves, but for `schedule()`. -/
theorem Ledger.resume_leaving [DecidableEq Q] [DecidableEq S] (h : k.Ledger) (hs : k.Straight) (hc : k.Counted)
    (hq : k.Quiet) {f : Frame Q S} {fs : List (Frame Q S)} {b : Bool} (hf : k.frames = f :: fs) (he : k.Lawful (.run b))
    (hok : k.Careful (.run b)) (hstep : step k (.run b) = some k') (hr : k.resume b fs f = some k')
    (hl : f = .checkSignals ∨ f = .checkSchedule ∨ f = .exitNotify) : k'.Ledger := by
  have hne : ∀ code fs, k.frames ≠ .exitWith code :: fs := fun code fs e => by
    rcases hl with rfl | rfl | rfl <;> cases hf.symm.trans e
  have hrec : f.records = false := by rcases hl with rfl | rfl | rfl <;> rfl
  have hfs : ∀ p, fs.countP (Frame.holds p) = k.frames.countP (Frame.holds p) := fun p => by
    rw [hf, List.countP_cons_of_neg]
    rcases hl with rfl | rfl | rfl <;> exact Bool.false_ne_true
  have hsch : ∀ p, (.schedule .start :: fs : List (Frame Q S)).countP (Frame.holds p) = k.frames.countP (Frame.holds p) :=
    fun p => (List.countP_cons_of_neg Bool.false_ne_true).trans (hfs p)
  have hk := Keeps.resume hrec hr
  have hleave : (k.task k.current).state = .zombie → Leaving (f :: fs) := fun hz => hf ▸ h.leaving hz
  rcases hl with rfl | rfl | rfl
  · simp only [Kernel.resume, doCheckSignals_eq] at hr
    split at hr
    · next hch =>
      obtain rfl := congrArg Prod.snd hch
      cases hr
      have ht : (checked (k.task k.current)).1 = true := congrArg Prod.fst hch
      -- a ZOMBIE is not terminated
      have hz : (k.task k.current).state ≠ .zombie := by
        simp only [Careful, hf] at hok
        rcases checked_cases (k.task k.current) with ⟨e, -⟩ | ⟨h0, ha, -⟩ | ⟨e, -⟩
        · cases ht.symm.trans e
        · rcases ha with ha | ha <;> rw [ha] at hok <;> exact hok h0
        · cases ht.symm.trans e
      have ho : OnStack k (.exitWith 0 :: fs)
          ((k.modify k.current fun t => (checked t).2).setFrames (.exitWith 0 :: fs)) := ⟨rfl, rfl, rfl, rfl, rfl⟩
      exact h.leave hs hc hq he hstep hk ho hne (fun e => (hz e).elim) fun e => (hz e).elim
    · next hch =>
      obtain rfl := congrArg Prod.snd hch
      cases hr
      have ho : OnStack k fs ((k.modify k.current fun t => (checked t).2).setFrames fs) := ⟨rfl, rfl, rfl, rfl, rfl⟩
      exact h.leave hs hc hq he hstep hk ho hne (fun _ => ho.live hs hc hfs fun p => rfl) hleave
  · simp only [Kernel.resume] at hr
    split at hr <;> cases hr
    · have ho : OnStack k (.schedule .start :: fs)
          (({ k with needResched := false } : Kernel Q S).setFrames (.schedule .start :: fs)) := ⟨rfl, rfl, rfl, rfl, rfl⟩
      exact h.leave hs hc hq he hstep hk ho hne (fun _ => ho.live hs hc hsch fun p => rfl) fun _ => trivial
    · have ho := onStack_setFrames k fs
      exact h.leave hs hc hq he hstep hk ho hne (fun _ => ho.live hs hc hfs fun p => rfl) hleave
  · simp only [Kernel.resume] at hr
    cases hr
    obtain ⟨task, ht⟩ := doKill_fields k (k.task k.current).ppid sigChld
    rw [ht] at hstep hk ⊢
    have ho : OnStack k (.schedule .start :: fs) (((if (k.task k.current).ppid ≠ 0 then { k with task := task } else k) :
        Kernel Q S).setFrames (.schedule .start :: fs)) := by
      split <;> exact ⟨rfl, rfl, rfl, rfl, rfl⟩
    refine h.leave hs hc hq he hstep hk ho hne (fun _ => ho.live hs hc hsch fun p => ?_) fun _ => trivial
    split <;> rfl

theorem Ledger.resume_exit [DecidableEq Q] [DecidableEq S] (h : k.Ledger) (hs : k.Straight) (hc : k.Counted) (hq : k.Quiet)
    {code : Int} {fs : List (Frame Q S)} {b : Bool} (hf : k.frames = .exitWith code :: fs) (he : k.Lawful (.run b))
    (hok : k.Careful (.run b)) (hstep : step k (.run b) = some k') : k'.Ledger := by
  have ha := Accounts.step hs hc (e := .run b) trivial hstep
  simp only [Careful, hf] at hok
  have hr : k' = (k.modify k.current (exited code)).setFrames (.exitNotify :: fs) := by
    simp only [Kernel.step, hf, resume_exitWith, Option.some.injEq] at hstep
    exact hstep.symm
  have hne : ∀ p, k.live p = 0 → p ≠ k.current := fun p hl e => live_current k (e ▸ hl)
  have ht : ∀ p, k'.task p = if p = k.current then exited code (k.task p) else k.task p := fun p => by
    rw [hr]
    exact modify_task k k.current p (exited code)
  have ho : OnStack k (.exitNotify :: fs) k' := by rw [hr]; exact ⟨rfl, rfl, rfl, rfl, rfl⟩
  refine h.keep ha ho.nextPid (by rw [hr]; exact List.Subset.refl _) (by rw [hr]; rfl) (fun u p c => by rw [hr]; rfl)
    (fun p => ?_) (fun p hl => by rw [ht, if_neg (hne p hl)]) (fun p hp hl hd => dead_stays hq he hstep hp hl hd)
    (fun p hp hz => ?_) fun hz => ?_
  · rw [ht]
    split <;> exact ⟨rfl, rfl⟩
  · by_cases e : p = k.current
    · have hlive := ho.live hs hc (fun p => by rw [hf]; rfl) (fun p => by rw [hr]; rfl) p
      rw [hlive, ho.current, e, if_pos rfl]
      exact hok
    · rw [ht, if_neg e] at hz
      exact h.zombie_left ha hp hz e
  · rw [frames, ho.running, ho.stack, Function.update_self]
    trivial

/-- A frame of a task that is no ZOMBIE. -/
theorem Ledger.not_zombie (h : k.Ledger) {f : Frame Q S} {fs : List (Frame Q S)} (hf : k.frames = f :: fs)
    (hl : ¬ Leaving (f :: fs)) : (k.task k.current).state ≠ .zombie := fun hz => hl (hf ▸ h.leaving hz)

theorem reported_append (k : Kernel Q S) (r : WaitResult) : (k.returns r).reported =
    k.reported ++ match r with | .child p _ => [p] | _ => [] := by
  rw [reported, returns, List.filterMap_append, reported]
  cases r <;> rfl

theorem Ledger.resume_alive [DecidableEq Q] [DecidableEq S] (h : k.Ledger) (hs : k.Straight) (hc : k.Counted)
    (hq : k.Quiet) {fs : List (Frame Q S)} {b : Bool} (hf : k.frames = .waitAlive :: fs) (he : k.Lawful (.run b))
    (hstep : step k (.run b) = some k') : k'.Ledger := by
  have ha := Accounts.step hs hc (e := .run b) trivial hstep
  have hz0 := h.not_zombie hf id
  have hr : ∃ r, (∀ p c, r ≠ .child p c) ∧ k'.waits = k.waits ++ [(k.current, r)] ∧ k'.task = k.task ∧ k'.all = k.all ∧
      k'.nextPid = k.nextPid ∧ k'.current = k.current := by
    simp only [Kernel.step, hf, Kernel.resume] at hstep
    split at hstep <;> cases hstep
    · exact ⟨.alive, fun _ _ e => (by cases e), rfl, rfl, rfl, rfl, rfl⟩
    · exact ⟨.noChild, fun _ _ e => (by cases e), rfl, rfl, rfl, rfl, rfl⟩
  obtain ⟨r, hr, hw, ht, hall, hn, hcur⟩ := hr
  refine h.keep ha hn (by rw [hall]; exact List.Subset.refl _) ?_ (fun u p c => ?_) (fun p => by rw [ht]; exact ⟨rfl, rfl⟩)
    (fun p _ => by rw [ht]) (fun p hp hl hd => dead_stays hq he hstep hp hl hd) (fun p hp hz => ?_) fun hz => ?_
  · rw [reported, hw, List.filterMap_append, reported]
    cases r with
    | child p c => exact (hr p c rfl).elim
    | _ => simp
  · rw [hw, List.mem_append, List.mem_singleton]
    refine ⟨fun hm => hm.resolve_right fun e => hr p c (Prod.ext_iff.mp e).2.symm, Or.inl⟩
  · rw [ht] at hz
    exact h.zombie_left ha hp hz fun e => hz0 (e ▸ hz)
  · rw [ht, hcur] at hz
    exact (hz0 hz).elim

theorem Ledger.resume_add [DecidableEq Q] [DecidableEq S] (h : k.Ledger) (hs : k.Straight) (hc : k.Counted)
    (hq : k.Quiet) {t : Pid} {fs : List (Frame Q S)} {b : Bool} (hf : k.frames = .add t :: fs) (he : k.Lawful (.run b))
    (hstep : step k (.run b) = some k') : k'.Ledger := by
  have ha := Accounts.step hs hc (e := .run b) trivial hstep
  have hz0 := h.not_zombie hf id
  have hr : k' = (k.addTask t).setFrames fs := by
    simp only [Kernel.step, hf, Kernel.resume, Option.some.injEq] at hstep
    exact hstep.symm
  have ht : ∀ p, SameRecord (k.task p) (k'.task p) ∧ (k'.task p).state = (k.task p).state := fun p => by
    rw [hr]
    show SameRecord _ ((k.cloneArc t).task p) ∧ ((k.cloneArc t).task p).state = _
    rw [cloneArc, modify_task]
    split <;> exact ⟨⟨rfl, rfl, rfl⟩, rfl⟩
  refine h.keep ha (by rw [hr]; rfl) (by rw [hr]; exact List.subset_append_left _ _) (by rw [hr]; rfl)
    (fun u p c => by rw [hr]; rfl) (fun p => ⟨(ht p).1.1, (ht p).1.2.1⟩) (fun p _ => (ht p).1.2.2)
    (fun p hp hl hd => dead_stays hq he hstep hp hl hd) (fun p hp hz => ?_) fun hz => ?_
  · rw [(ht p).2] at hz
    exact h.zombie_left ha hp hz fun e => hz0 (e ▸ hz)
  · rw [(ht _).2, show k'.current = k.current by rw [hr]; rfl] at hz
    exact (hz0 hz).elim

/-- `do_wait4` reports nobody in its first pass, or a child that is ZOMBIE. -/
theorem resume_wait4 [DecidableEq S] {t : Int} {fs : List (Frame Q S)} {b : Bool} (h : k.resume b fs (.wait4 t) = some k') :
    (k' = k.purge.setFrames (.waitAlive :: fs) ∧ ∀ p ∈ k.all, ¬ k.Matches k.current t p) ∨
      ∃ p l₁ l₂, k' = ((k.purge.modify p reaped).returns (.child p (k.task p).exitCode)).setFrames fs ∧
        k.Matches k.current t p ∧ k.all = l₁ ++ p :: l₂ ∧ ∀ u ∈ l₁, ¬ k.Matches k.current t u := by
  simp only [Kernel.resume] at h
  split at h
  · next code u k1 hz =>
    obtain ⟨rfl, rfl, hm, l₁, l₂, hl⟩ := findZombieChild_some hz
    cases h
    exact Or.inr ⟨u, l₁, l₂, rfl, hm, hl⟩
  · next k1 hz =>
    obtain ⟨rfl, hn⟩ := findZombieChild_none hz
    cases h
    exact Or.inl ⟨rfl, hn⟩

/-- The purge drops tasks that were reaped. -/
theorem purge_all (h : ∀ p ∈ k.all, (k.task p).ppid ≠ 0 → (k.task p).state = .dead → (k.task p).arcSelf = false)
    (hm : p ∈ k.all) (h0 : (k.task p).ppid ≠ 0) (h1 : (k.task p).arcSelf = true) : p ∈ k.purge.all := by
  rw [purge_eq]
  refine List.mem_filter.mpr ⟨hm, decide_eq_true fun hd => ?_⟩
  cases h1.symm.trans (h p hm h0 hd)

theorem purge_record (k : Kernel Q S) (p : Pid) : (k.purge.task p).ppid = (k.task p).ppid ∧
    (k.purge.task p).arcSelf = (k.task p).arcSelf ∧ (k.purge.task p).exitCode = (k.task p).exitCode ∧
      (k.purge.task p).state = (k.task p).state := by
  rw [purge_eq]
  exact ⟨rfl, rfl, rfl, rfl⟩

theorem Ledger.resume_wait [DecidableEq Q] [DecidableEq S] (h : k.Ledger) (hs : k.Straight) (hc : k.Counted)
    (hq : k.Quiet) {t : Int} {fs : List (Frame Q S)} {b : Bool} (hf : k.frames = .wait4 t :: fs) (he : k.Lawful (.run b))
    (hok : k.Careful (.run b)) (hstep : step k (.run b) = some k') : k'.Ledger := by
  have ha := Accounts.step hs hc (e := .run b) trivial hstep
  have hz0 := h.not_zombie hf id
  simp only [Careful, hf] at hok
  simp only [Kernel.step, hf] at hstep
  have hlt : ∀ p, ¬ k.Vacant p → p < k.nextPid := fun p hp => Nat.lt_of_not_le fun hle => hp (Or.inr hle)
  have hdead : ∀ p, p < k.nextPid → k.live p = 0 → (k.task p).state = .dead → (k'.task p).state = .dead :=
    fun p hp hl hd => dead_stays hq he (by simp only [Kernel.step, hf]; exact hstep) hp hl hd
  rcases resume_wait4 hstep with ⟨hr, -⟩ | ⟨u, l₁, l₂, hr, hm, hl, -⟩
  · have ht : ∀ p, (k'.task p) = k.purge.task p := fun p => by rw [hr]; rfl
    have hv : ∀ p, k'.Vacant p ↔ k.Vacant p := fun p => by rw [hr, purge_eq]; rfl
    have hw : k'.waits = k.waits := by rw [hr, purge_eq]; rfl
    have hcur : k'.current = k.current := by rw [hr, purge_eq]; rfl
    refine ⟨fun p hp h0 h1 => ?_, by rw [reported, hw]; exact h.nodup, fun u p c hm => ?_, fun p hp h0 => ?_,
      fun p hp hz => ?_, fun hz => ?_⟩
    · rw [ht, (purge_record k p).1] at h0
      rw [ht, (purge_record k p).2.1] at h1
      rw [show k'.all = k.purge.all by rw [hr]; rfl]
      exact purge_all hok (h.all p (fun hv' => hp ((hv p).mpr hv')) h0 h1) h0 h1
    · rw [hw] at hm
      rw [hv, ht, (purge_record k p).1, (purge_record k p).2.1, (purge_record k p).2.2.1]
      exact h.entry u p c hm
    · rw [hv] at hp
      rw [ht, (purge_record k p).2.1] at h0
      obtain ⟨h1, h2, h3⟩ := h.gone p hp h0
      rw [reported, hw]
      exact ⟨h1, hdead p (hlt p hp) h3 h2, ha.live p (hlt p hp) h3⟩
    · rw [hv] at hp
      rw [ht, (purge_record k p).2.2.2] at hz
      exact h.zombie_left ha hp hz fun e => hz0 (e ▸ hz)
    · rw [ht, (purge_record k _).2.2.2, hcur] at hz
      exact (hz0 hz).elim
  · have ht : ∀ p, k'.task p = if p = u then reaped (k.purge.task p) else k.purge.task p := fun p => by
      rw [hr]
      exact modify_task k.purge u p reaped
    have hrec : ∀ p, (k'.task p).ppid = (k.task p).ppid ∧ (k'.task p).exitCode = (k.task p).exitCode ∧
        (k'.task p).arcSelf = (if p = u then false else (k.task p).arcSelf) ∧
        (k'.task p).state = if p = u then .dead else (k.task p).state := fun p => by
      obtain ⟨h1, h2, h3, h4⟩ := purge_record k p
      rw [ht]
      split
      · exact ⟨h1, h3, rfl, rfl⟩
      · exact ⟨h1, h3, h2, h4⟩
    have hv : ∀ p, k'.Vacant p ↔ k.Vacant p := fun p => by rw [hr, purge_eq]; rfl
    have hw : k'.waits = k.waits ++ [(k.current, .child u (k.task u).exitCode)] := by rw [hr, purge_eq]; rfl
    have hrep : k'.reported = k.reported ++ [u] := by
      rw [reported, hw, List.filterMap_append, reported]
      rfl
    have hcur : k'.current = k.current := by rw [hr, purge_eq]; rfl
    -- the child was not reaped before: it is a ZOMBIE
    have hmem : u ∈ k.all := by rw [hl]; exact List.mem_append_right _ List.mem_cons_self
    have hvu : ¬ k.Vacant u := fun hvac => by
      have h1 := hc.fresh u hvac
      have h2 : 0 < k.all.count u := List.count_pos_iff.mpr hmem
      rw [hc.strong, refs, kept] at h1
      omega
    have harc : (k.task u).arcSelf = true := by
      rw [← Bool.not_eq_false]
      intro h0
      cases hm.2.1.symm.trans (h.gone u hvu h0).2.1
    have hnew : u ∉ k.reported := fun hu => by
      obtain ⟨v, c, hu⟩ := mem_reported.1 hu
      cases harc.symm.trans (h.entry v u c hu).2.1
    have hu : u ≠ k.current := fun e => hz0 (e ▸ hm.2.1)
    have hlive : k'.live u = 0 := by
      have h0 := h.zombie u hvu hm.2.1
      rw [if_neg hu] at h0
      exact ha.live u (hlt u hvu) h0
    refine ⟨fun p hp h0 h1 => ?_, ?_, fun v p c hmem => ?_, fun p hp h0 => ?_, fun p hp hz => ?_, fun hz => ?_⟩
    · rw [(hrec p).1] at h0
      rw [(hrec p).2.2.1] at h1
      rw [show k'.all = k.purge.all by rw [hr]; rfl]
      split at h1
      · cases h1
      · exact purge_all hok (h.all p (fun hv' => hp ((hv p).mpr hv')) h0 h1) h0 h1
    · rw [hrep]
      exact List.nodup_append.mpr ⟨h.nodup, List.nodup_singleton u, fun a ha b hb e => by
        rw [List.mem_singleton.mp hb] at e
        exact hnew (e ▸ ha)⟩
    · rw [hv, (hrec p).1, (hrec p).2.1, (hrec p).2.2.1]
      rw [hw, List.mem_append, List.mem_singleton] at hmem
      rcases hmem with hmem | e
      · obtain ⟨h1, h2, h3⟩ := h.entry v p c hmem
        refine ⟨h1, ?_, h3⟩
        split
        · rfl
        · exact h2
      · cases e
        exact ⟨hvu, if_pos rfl, hm.1.symm, rfl⟩
    · rw [hv] at hp
      rw [(hrec p).2.2.1] at h0
      rw [hrep, List.mem_append]
      by_cases e : p = u
      · subst e
        exact ⟨Or.inr List.mem_cons_self, by rw [(hrec p).2.2.2, if_pos rfl], hlive⟩
      · rw [if_neg e] at h0
        obtain ⟨h1, h2, h3⟩ := h.gone p hp h0
        exact ⟨Or.inl h1, hdead p (hlt p hp) h3 h2, ha.live p (hlt p hp) h3⟩
    · rw [hv] at hp
      rw [(hrec p).2.2.2] at hz
      split at hz
      · cases hz
      · exact h.zombie_left ha hp hz fun e => hz0 (e ▸ hz)
    · rw [(hrec _).2.2.2, hcur, if_neg (Ne.symm hu)] at hz
      exact (hz0 hz).elim

/-- The invariants of a run whose steps are careful. -/
structure Booked (k : Kernel Q S) : Prop where
  straight : k.Straight
  counted : k.Counted
  quiet : k.Quiet
  ledger : k.Ledger

theorem Ledger.run [DecidableEq Q] [DecidableEq S] (h : k.Ledger) (hs : k.Straight) (hc : k.Counted) (hq : k.Quiet)
    {f : Frame Q S} {fs : List (Frame Q S)} {b : Bool} (hf : k.frames = f :: fs) (he : k.Lawful (.run b))
    (hok : k.Careful (.run b)) (hstep : step k (.run b) = some k') : k'.Ledger := by
  have hr : k.resume b fs f = some k' := by
    simp only [Kernel.step, hf] at hstep
    exact hstep
  -- the other frames record nothing, and no ZOMBIE runs them
  have hother : f.records = false → (∀ pc, f ≠ .schedule pc) → ¬ Leaving (f :: fs) → k'.Ledger := fun hrec hsch hl => by
    obtain ⟨g, -, ho⟩ := resume_onStack hsch hr
    have hz := h.not_zombie hf hl
    refine h.leave hs hc hq he hstep (Keeps.resume hrec hr) ho (fun code fs e => ?_) (fun e => (hz e).elim)
      fun e => (hz e).elim
    cases hf.symm.trans e
    cases hrec
  cases f with
  | schedule pc =>
    obtain rfl := hs.start k.running pc (by rw [show k.stack k.running = _ from hf]; exact List.mem_cons_self)
    exact h.schedule hs hc hq hf he hstep
  | exitWith code => exact h.resume_exit hs hc hq hf he hok hstep
  | wait4 t => exact h.resume_wait hs hc hq hf he hok hstep
  | waitAlive => exact h.resume_alive hs hc hq hf he hstep
  | add t => exact h.resume_add hs hc hq hf he hstep
  | checkSignals => exact h.resume_leaving hs hc hq hf he hok hstep hr (Or.inl rfl)
  | checkSchedule => exact h.resume_leaving hs hc hq hf he hok hstep hr (Or.inr (Or.inl rfl))
  | exitNotify => exact h.resume_leaving hs hc hq hf he hok hstep hr (Or.inr (Or.inr rfl))
  | _ => exact hother rfl (fun _ e => by cases e) id

theorem Booked.step [DecidableEq Q] [DecidableEq S] (h : k.Booked) {e : Event Q S} (he : k.Reaping e)
    (hs : step k e = some k') : k'.Booked := by
  refine ⟨h.straight.step he.2.outside hs, (Accounts.step h.straight h.counted he.2.outside hs).counted,
    h.quiet.of_orderly (h.quiet.orderly he.1 hs), ?_⟩
  cases e with
  | irqInside n i => exact he.2.elim
  | irq i => cases hs; exact h.ledger.interrupt h.straight h.counted h.quiet i
  | call c =>
    simp only [Kernel.step] at hs
    split at hs
    · next h0 => cases hs; exact h.ledger.enter h.straight h.counted h.quiet h0 he.1
    · cases hs
  | run b =>
    have hs' := hs
    simp only [Kernel.step] at hs'
    split at hs'
    · cases hs'
    · next f fs hf => exact h.ledger.run h.straight h.counted h.quiet hf he.1 he.2 hs

theorem start_booked {count : S → Int} {ts : List (Prio × Bool)} (h : start count ts = some k) : k.Booked := by
  have hn := start_registered h
  have hc := start_counted h
  have hw : k.waits = [] := by
    obtain ⟨k1, e, h1, -, rfl⟩ := start_rule (P := fun k => k.waits = []) rfl (fun k prio user hk => hk) h
    exact h1
  refine ⟨start_straight h, hc, start_quiet h, fun p hp _ _ => (hn p hp).1, ?_, fun u p c hm => ?_, fun p hp h0 => ?_,
    fun p hp hz => ?_, fun hz => ?_⟩
  · rw [reported, hw]
    exact List.nodup_nil
  · rw [hw] at hm
    cases hm
  · cases (hn p hp).2.1.symm.trans h0
  · cases (hn p hp).2.2.symm.trans hz
  · cases (hn _ hc.current).2.2.symm.trans hz

theorem booked_reach [DecidableEq Q] [DecidableEq S] (h : Lib.Reach step Reaping Boot k) : k.Booked :=
  h.rule (fun _ ⟨_, _, hk⟩ => start_booked hk) fun _ _ _ hi he hs => hi.step he hs

/-! ## What stays in the books -/

/-- A ZOMBIE stays one until it is reaped. -/
theorem Booked.zombie_stays [DecidableEq Q] [DecidableEq S] (h : k.Booked) {e : Event Q S} (he : k.Reaping e)
    (hs : Kernel.step k e = some k') (hp : ¬ k.Vacant p) (hz : (k.task p).state = .zombie) :
    (k'.task p).state = .zombie ∨ (k'.task p).arcSelf = false := by
  have hfin := (h.quiet.orderly he.1 hs p).keeps (Nat.lt_of_not_le fun hle => hp (Or.inr hle)) (Or.inr hz)
  have hrun : (k'.task p).state ≠ .running := fun e => by rcases hfin with h | h <;> cases e.symm.trans h
  have hleave : p = k.current → Leaving k.frames := fun e => h.ledger.leaving (e ▸ hz)
  cases e with
  | irqInside n i => exact he.2.elim
  | irq i =>
    cases hs
    exact Or.inl (((interrupt_state k i p).resolve_left hrun).trans hz)
  | call c =>
    simp only [Kernel.step] at hs
    split at hs
    · next h0 =>
      cases hs
      rcases enter_state k c p with e | e | ⟨-, rfl | ⟨e, -⟩⟩
      · exact Or.inl (e.trans hz)
      · exact (e hfin).elim
      · exact (he.2 rfl hz).elim
      · have hl := hleave e
        rw [h0] at hl
        exact hl.elim
    · cases hs
  | run b =>
    simp only [Kernel.step] at hs
    split at hs
    · cases hs
    · next f fs hf =>
      rcases resume_state hs p with e | e | ⟨e, ⟨code, rfl⟩, -⟩ | ⟨e, rfl, ⟨h0, ha⟩, -⟩ | ⟨-, -, e⟩
      · exact Or.inl (e.trans hz)
      · exact (e hfin).elim
      · have hl := hleave e
        rw [hf] at hl
        exact hl.elim
      · have hok := he.2
        simp only [Careful, hf] at hok
        rcases ha with ha | ha <;> rw [ha] at hok <;> exact (hok h0 (e ▸ hz)).elim
      · exact Or.inr e

/-- The exit code is final, and the task is reported or will be. -/
def Closed (k : Kernel Q S) (p : Pid) : Prop := (k.task p).state = .zombie ∨ (k.task p).arcSelf = false

/-- What a step does to the books of the task `p`. -/
structure Moves (k k' : Kernel Q S) (p : Pid) : Prop where
  all : ∃ (f : Pid → Bool) (l : List Pid), k'.all = k.all.filter f ++ l ∧
    ((k.task p).ppid ≠ 0 → (k.task p).arcSelf = true → f p = true)
  arcs : ∀ q ∈ k.all, (k'.task q).arcSelf = true → (k.task q).arcSelf = true
  ppid : ∀ q, q = p ∨ q ∈ k.all → (k'.task q).ppid = (k.task q).ppid
  arcSelf : (k.task p).arcSelf = false → (k'.task p).arcSelf = false
  reported : k.reported ⊆ k'.reported
  exitCode : k.Closed p → (k'.task p).exitCode = (k.task p).exitCode

theorem Moves.of_append {l : List Pid} (ha : k'.all = k.all ++ l)
    (hr : ∀ q, q = p ∨ q ∈ k.all → (k'.task q).ppid = (k.task q).ppid ∧ (k'.task q).arcSelf = (k.task q).arcSelf)
    (hw : k.waits ⊆ k'.waits) (he : k.Closed p → (k'.task p).exitCode = (k.task p).exitCode) : k.Moves k' p := by
  refine ⟨⟨fun _ => true, l, by rw [ha, List.filter_true], fun _ _ => rfl⟩,
    fun q hq h1 => (hr q (Or.inr hq)).2.symm.trans h1, fun q hq => (hr q hq).1, fun h0 => (hr p (Or.inl rfl)).2.trans h0,
    fun q hq => ?_, he⟩
  obtain ⟨u, c, hm⟩ := mem_reported.mp hq
  exact mem_reported.mpr ⟨u, c, hw hm⟩

theorem Keeps.moves (hk : k.Keeps k') : k.Moves k' p :=
  Moves.of_append (by rw [hk.all, List.append_nil]) (fun q _ => ⟨(hk.record q).1, (hk.record q).2.1⟩)
    (by rw [hk.waits]; exact List.Subset.refl _) fun _ => (hk.record p).2.2

theorem Booked.vacant_all (h : k.Booked) {q : Pid} (hq : q ∈ k.all) : ¬ k.Vacant q := fun hv => by
  have h1 := h.counted.fresh q hv
  have h2 : 0 < k.all.count q := List.count_pos_iff.mpr hq
  rw [h.counted.strong, refs, kept] at h1
  omega

theorem Booked.moves [DecidableEq Q] [DecidableEq S] (h : k.Booked) {e : Event Q S} (he : k.Reaping e)
    (hs : Kernel.step k e = some k') (hp : ¬ k.Vacant p) : k.Moves k' p := by
  have hcreate : ∀ t, k.Moves (k.create t) p := fun t => by
    have hne : ∀ q, q = p ∨ q ∈ k.all → q ≠ k.nextPid := fun q hq e => by
      rcases hq with rfl | hq
      · exact hp (Or.inr (Nat.le_of_eq e.symm))
      · exact h.vacant_all hq (Or.inr (Nat.le_of_eq e.symm))
    refine Moves.of_append (l := [k.nextPid]) rfl (fun q hq => ?_) (List.Subset.refl _) fun _ => ?_
    · rw [create_task, if_neg (hne q hq)]
      exact ⟨rfl, rfl⟩
    · rw [create_task, if_neg (hne p (Or.inl rfl))]
  cases e with
  | irqInside n i => exact he.2.elim
  | irq i => cases hs; exact (Keeps.interrupt k i).moves
  | call c =>
    simp only [Kernel.step] at hs
    split at hs
    · cases hs
      rcases enter_keeps k c with hk | ⟨ppid, prio, user, e, -⟩
      · exact hk.moves
      · rw [e]; exact hcreate _
    · cases hs
  | run b =>
    simp only [Kernel.step] at hs
    split at hs
    · cases hs
    · next f fs hf =>
      cases hrec : f.records with
      | false => exact (Keeps.resume hrec hs).moves
      | true =>
        cases f with
        | add t =>
          cases hs
          have ht : ∀ q, SameRecord (k.task q) ((k.cloneArc t).task q) :=
            modify_record k t (fun t => { t with strong := t.strong + 1 }) fun t => ⟨rfl, rfl, rfl⟩
          exact Moves.of_append (l := [t]) rfl (fun q _ => ⟨(ht q).1, (ht q).2.1⟩) (List.Subset.refl _) fun _ => (ht p).2.2
        | exitWith code =>
          rw [resume_exitWith] at hs
          cases hs
          have ht : ∀ q, (k.modify k.current (exited code)).task q = if q = k.current then exited code (k.task q) else k.task q :=
            fun q => modify_task k k.current q (exited code)
          refine Moves.of_append (l := []) (List.append_nil _).symm (fun q _ => ?_) (List.Subset.refl _) fun hcl => ?_
          · show ((k.modify k.current (exited code)).task q).ppid = _ ∧ ((k.modify k.current (exited code)).task q).arcSelf = _
            rw [ht]
            split <;> exact ⟨rfl, rfl⟩
          · have hne : p ≠ k.current := fun e => by
              rcases hcl with hz | h0
              · have hl := h.ledger.leaving (e ▸ hz)
                rw [hf] at hl
                exact hl
              · exact live_current k (e ▸ (h.ledger.gone p hp h0).2.2)
            show ((k.modify k.current (exited code)).task p).exitCode = _
            rw [ht, if_neg hne]
        | waitAlive =>
          simp only [Kernel.resume] at hs
          split at hs <;> cases hs <;> exact Moves.of_append (l := []) (List.append_nil _).symm (fun q _ => ⟨rfl, rfl⟩)
            (List.subset_append_left _ _) fun _ => rfl
        | wait4 t =>
          have hok := he.2
          simp only [Careful, hf] at hok
          have hall : ∃ (f : Pid → Bool) (l : List Pid), k.purge.all = k.all.filter f ++ l ∧
              ((k.task p).ppid ≠ 0 → (k.task p).arcSelf = true → f p = true) := by
            refine ⟨fun p => (k.task p).state ≠ .dead, [], by rw [purge_eq, List.append_nil], fun h0 h1 => ?_⟩
            refine decide_eq_true fun hd => ?_
            have hm := h.ledger.all p hp h0 h1
            cases h1.symm.trans (hok p hm h0 hd)
          rcases resume_wait4 hs with ⟨hr, -⟩ | ⟨u, l₁, l₂, hr, -⟩
          · have ht : ∀ q, k'.task q = k.purge.task q := fun q => by rw [hr]; rfl
            refine ⟨by rw [hr]; exact hall, fun q _ h1 => ?_, fun q _ => ?_, fun h0 => ?_, fun q hq => ?_, fun _ => ?_⟩
            · rwa [ht, (purge_record k q).2.1] at h1
            · rw [ht, (purge_record k q).1]
            · rw [ht, (purge_record k p).2.1, h0]
            · rw [hr, purge_eq]; exact hq
            · rw [ht, (purge_record k p).2.2.1]
          · have ht : ∀ q, k'.task q = if q = u then reaped (k.purge.task q) else k.purge.task q := fun q => by
              rw [hr]
              exact modify_task k.purge u q reaped
            refine ⟨by rw [hr]; exact hall, fun q _ h1 => ?_, fun q _ => ?_, fun h0 => ?_, fun q hq => ?_, fun _ => ?_⟩
            · rw [ht] at h1
              split at h1
              · cases h1
              · rwa [(purge_record k q).2.1] at h1
            · rw [ht]
              split <;> exact (purge_record k q).1
            · rw [ht]
              split
              · rfl
              · rw [(purge_record k p).2.1, h0]
            · have hrep : k'.reported = k.reported ++ [u] := by
                rw [hr, purge_eq]
                exact reported_append k (.child u _)
              rw [hrep]
              exact List.mem_append_left _ hq
            · rw [ht]
              split <;> exact (purge_record k p).2.2.1
        | _ => cases hrec

/-! ## Who is next -/

/-- The siblings before `p` in ALL_TASKS that were not reaped. -/
def rank (k : Kernel Q S) (p : Pid) : Nat :=
  (k.all.takeWhile (· ≠ p)).countP fun q => (k.task q).arcSelf ∧ (k.task q).ppid = (k.task p).ppid

/-- The parent of `p` waits for any child, or for `p`. -/
def Asks (p : Pid) (k : Kernel Q S) (e : Event Q S) : Prop :=
  k.current = (k.task p).ppid ∧ ∃ t fs b, k.frames = .wait4 t :: fs ∧ (t < 0 ∨ t = p) ∧ e = .run b

/-- What is before `p` when some entries are gone and others came at the end. -/
theorem takeWhile_filter_append {f : Pid → Bool} {m : List Pid} (hf : f p = true) : ∀ {l : List Pid}, p ∈ l →
    (l.filter f ++ m).takeWhile (· ≠ p) = (l.takeWhile (· ≠ p)).filter f := by
  intro l
  induction l with
  | nil => intro hp; cases hp
  | cons q l ih =>
    intro hp
    by_cases e : q = p
    · simp [e, hf]
    · have ih := ih ((List.mem_cons.mp hp).resolve_left (Ne.symm e))
      rw [List.takeWhile_cons_of_pos (by simp [e])]
      cases hq : f q
      · rw [List.filter_cons_of_neg (by simp [hq]), List.filter_cons_of_neg (by simp [hq]), ih]
      · rw [List.filter_cons_of_pos hq, List.filter_cons_of_pos hq, List.cons_append,
          List.takeWhile_cons_of_pos (by simp [e]), ih]

theorem countP_le {a a' f : Pid → Bool} {l : List Pid} (h : ∀ q ∈ l, a' q = true → a q = true) :
    (l.filter f).countP a' ≤ l.countP a :=
  (List.filter_sublist.countP_le).trans (List.countP_mono_left h)

theorem countP_lt {a a' f : Pid → Bool} {l : List Pid} {u : Pid} (h : ∀ q ∈ l, a' q = true → a q = true) (hu : u ∈ l)
    (h1 : a u = true) (h2 : a' u = false) : (l.filter f).countP a' < l.countP a := by
  have hp := List.perm_cons_erase hu
  have hle : (l.erase u).countP a' ≤ (l.erase u).countP a :=
    List.countP_mono_left fun q hq => h q (List.mem_of_mem_erase hq)
  have h3 : l.countP a' = (l.erase u).countP a' := by
    rw [hp.countP_eq, List.countP_cons_of_neg (by rw [h2]; exact Bool.false_ne_true)]
  have h4 : l.countP a = (l.erase u).countP a + 1 := by rw [hp.countP_eq, List.countP_cons_of_pos h1]
  have h5 : (l.filter f).countP a' ≤ l.countP a' := List.filter_sublist.countP_le
  omega

theorem Booked.progress [DecidableEq Q] [DecidableEq S] (h : k.Booked) {e : Event Q S} (he : k.Reaping e)
    (hs : Kernel.step k e = some k') (hp : ¬ k.Vacant p) (h0 : (k.task p).ppid ≠ 0) (hfin : (k.task p).Final)
    (hn : p ∉ k.reported) : p ∈ k'.reported ∨ k'.rank p ≤ k.rank p ∧ (Asks p k e → k'.rank p < k.rank p) := by
  have harc : (k.task p).arcSelf = true := by
    rw [← Bool.not_eq_false]
    exact fun harc => hn (h.ledger.gone p hp harc).1
  have hm := h.ledger.all p hp h0 harc
  have hmv := h.moves he hs hp
  obtain ⟨f, l, hall, hf⟩ := hmv.all
  have hf := hf h0 harc
  have hmono : ∀ q ∈ k.all, decide ((k'.task q).arcSelf ∧ (k'.task q).ppid = (k'.task p).ppid) = true →
      decide ((k.task q).arcSelf ∧ (k.task q).ppid = (k.task p).ppid) = true := fun q hq hd => by
    rw [decide_eq_true_eq] at hd ⊢
    rw [hmv.ppid q (Or.inr hq), hmv.ppid p (Or.inl rfl)] at hd
    exact ⟨hmv.arcs q hq hd.1, hd.2⟩
  by_cases hask : Asks p k e
  · obtain ⟨hcur, t, fs, b, hfr, ht, rfl⟩ := hask
    have hok := he.2
    simp only [Careful, hfr] at hok
    -- the child is a ZOMBIE, so the first pass finds it or a sibling before it
    have hz : (k.task p).state = .zombie := hfin.resolve_left fun hd => by cases harc.symm.trans (hok p hm h0 hd)
    have hmatch : k.Matches k.current t p :=
      ⟨hcur.symm, hz, ht.imp_right fun e => by rw [e]; rfl⟩
    have hr : k.resume b fs (.wait4 t) = some k' := by
      simp only [Kernel.step, hfr] at hs
      exact hs
    rcases resume_wait4 hr with ⟨-, hnone⟩ | ⟨u, l₁, l₂, rfl, hu, hl, hpre⟩
    · exact (hnone p hm hmatch).elim
    · by_cases e : u = p
      · refine Or.inl (mem_reported.mpr ⟨k.current, (k.task u).exitCode, ?_⟩)
        show (k.current, WaitResult.child p (k.task u).exitCode) ∈ (k.purge.modify u reaped).waits ++ [((k.purge.modify u reaped).current, _)]
        rw [purge_eq, e]
        exact List.mem_append_right _ List.mem_cons_self
      · have hlt : rank (((k.purge.modify u reaped).returns (.child u (k.task u).exitCode)).setFrames fs) p < k.rank p := by
          have hum : u ∈ k.all := by rw [hl]; exact List.mem_append_right _ List.mem_cons_self
          have huarc : (k.task u).arcSelf = true := by
            rw [← Bool.not_eq_false]
            exact fun hu0 => by cases hu.2.1.symm.trans (h.ledger.gone u (h.vacant_all hum) hu0).2.1
          have hupre : u ∈ k.all.takeWhile (· ≠ p) := by
            have hl₁ : ∀ q ∈ l₁, decide (q ≠ p) = true := fun q hq =>
              decide_eq_true fun e => hpre q hq (e ▸ hmatch)
            rw [hl, List.takeWhile_append_of_pos hl₁, List.takeWhile_cons_of_pos (by simp [e])]
            exact List.mem_append_right _ List.mem_cons_self
          rw [rank, rank, hall, takeWhile_filter_append hf hm]
          refine countP_lt (fun q hq => hmono q (List.takeWhile_subset _ hq)) hupre ?_ ?_
          · rw [decide_eq_true_eq, huarc, hu.1, hcur]
            exact ⟨rfl, rfl⟩
          · have hgone : ((k.purge.modify u reaped).task u).arcSelf = false := by rw [modify_task, if_pos rfl]; rfl
            refine decide_eq_false fun hd => ?_
            cases hd.1.symm.trans hgone
        exact Or.inr ⟨Nat.le_of_lt hlt, fun _ => hlt⟩
  · refine Or.inr ⟨?_, fun ha => (hask ha).elim⟩
    rw [rank, rank, hall, takeWhile_filter_append hf hm]
    exact countP_le fun q hq => hmono q (List.takeWhile_subset _ hq)

/-! ## Every run -/

/-- Exactly one report of every child that has ended: at most one, to the parent, with the
    exit code; "no children" when all were reported; and one for a child that has ended, when
    the parent asks more often than there are siblings before it. -/
structure ReapedOnce (ok : Kernel Q S → Event Q S → Prop) [DecidableEq Q] [DecidableEq S] (k : Kernel Q S) : Prop where
  once : k.reported.Nodup
  child : ∀ parent p code, (parent, .child p code) ∈ k.waits →
    parent = (k.task p).ppid ∧ code = (k.task p).exitCode ∧ (k.task p).Final
  noChild : ∀ fs b k', k.frames = .waitAlive :: fs → ok k (.run b) → step k (.run b) = some k' →
    k'.waits = k.waits ++ [(k.current, .noChild)] →
      ∀ p, 0 < p → p < k.nextPid → (k.task p).ppid = k.current → p ∈ k.reported
  waited : ∀ p, 0 < p → p < k.nextPid → (k.task p).ppid ≠ 0 → (k.task p).Final →
    ∀ n k', Lib.Marked step ok (Asks p) k n k' → k.rank p < n → p ∈ k'.reported
  exitCode : ∀ p, 0 < p → p < k.nextPid → (k.task p).state = .zombie →
    ∀ k', Lib.Reach step ok (· = k) k' → (k'.task p).exitCode = (k.task p).exitCode

theorem not_vacant (h0 : 0 < p) (hp : p < k.nextPid) : ¬ k.Vacant p := fun hv =>
  hv.elim (Nat.ne_of_gt h0) (Nat.not_le_of_lt hp)

theorem vacant_step [DecidableEq Q] [DecidableEq S] {e : Event Q S} (hs : step k e = some k') (hp : ¬ k.Vacant p) :
    ¬ k'.Vacant p := fun hv => hp (hv.imp_right fun h => (step_nextPid hs).trans h)

theorem Ledger.no_child [DecidableEq S] (h : k.Ledger) (hc : k.Counted) {fs : List (Frame Q S)} {b : Bool}
    (hok : k.hasAlive k.current = true ∨
      ∀ p ∈ k.all, (k.task p).ppid = k.current → (k.task p).Final → (k.task p).arcSelf = false)
    (hr : k.resume b fs .waitAlive = some k') (hw : k'.waits = k.waits ++ [(k.current, .noChild)])
    (hp : ¬ k.Vacant p) (hpp : (k.task p).ppid = k.current) : p ∈ k.reported := by
  simp only [Kernel.resume] at hr
  split at hr
  · cases hr
    have hw : k.waits ++ [(k.current, WaitResult.alive)] = k.waits ++ [(k.current, .noChild)] := hw
    simp at hw
  · next halive =>
    -- every child that is registered has ended, and was reaped
    have harc : (k.task p).arcSelf = false := by
      rw [← Bool.not_eq_true]
      intro h1
      have h0 : (k.task p).ppid ≠ 0 := fun e => hc.current (Or.inl (hpp.symm.trans e))
      have hm := h.all p hp h0 h1
      have hfin : (k.task p).Final := by
        by_contra hn
        refine halive (List.any_eq_true.mpr ⟨p, hm, decide_eq_true ⟨hpp, fun hd => hn (Or.inl hd), fun hz => hn (Or.inr hz)⟩⟩)
      cases h1.symm.trans (hok.resolve_left halive p hm hpp hfin)
    exact (h.gone p hp harc).1

/-- While the steps are careful and ended tasks stay ended, every child that has ended is
    reported exactly once. -/
theorem reaped_reach [DecidableEq Q] [DecidableEq S] (h : Lib.Reach step Reaping Boot k) :
    k.ReapedOnce Reaping := by
  have hb := booked_reach h
  refine ⟨hb.ledger.nodup, fun u p c hm => ?_, fun fs b k' hf hok hs hw p h0 hp hpp => ?_,
    fun p h0 hp hpp hfin n k' hk' hn => ?_, fun p h0 hp hz k' hk' => ?_⟩
  · obtain ⟨h1, h2, h3, h4⟩ := hb.ledger.entry u p c hm
    exact ⟨h3, h4, Or.inl (hb.ledger.gone p h1 h2).2.1⟩
  · have hok := hok.2
    simp only [Careful, hf] at hok
    simp only [Kernel.step, hf] at hs
    exact hb.ledger.no_child hb.counted hok hs hw (not_vacant h0 hp) hpp
  · have hprog := hk'.progress (P := fun s => s.Booked ∧ ¬ s.Vacant p ∧ (s.task p).ppid ≠ 0 ∧ (s.task p).Final)
      (G := fun s => p ∈ s.reported) ⟨hb, not_vacant h0 hp, hpp, hfin⟩
      (fun s e s' h he hs => by
        obtain ⟨h1, h2, h3, h4⟩ := h
        exact ⟨h1.step he hs, vacant_step hs h2, by rw [(h1.moves he hs h2).ppid p (Or.inl rfl)]; exact h3,
          (h1.quiet.orderly he.1 hs p).keeps (Nat.lt_of_not_le fun hle => h2 (Or.inr hle)) h4⟩)
      (fun s e s' h he hs hg => (h.1.moves he hs h.2.1).reported hg)
      fun s e s' h he hs hg => h.1.progress he hs h.2.1 h.2.2.1 h.2.2.2 hg
    refine hprog.2.resolve_right fun hle => ?_
    omega
  · have hrun := hk'.rule (P := fun s => s.Booked ∧ ¬ s.Vacant p ∧ s.Closed p ∧ (s.task p).exitCode = (k.task p).exitCode)
      (fun s e => by subst e; exact ⟨hb, not_vacant h0 hp, Or.inl hz, rfl⟩)
      fun s e s' h he hs => by
        obtain ⟨h1, h2, h3, h4⟩ := h
        exact ⟨h1.step he hs, vacant_step hs h2,
          h3.elim (h1.zombie_stays he hs h2) fun h0 => Or.inr ((h1.moves he hs h2).arcSelf h0),
          ((h1.moves he hs h2).exitCode h3).trans h4⟩
    exact hrun.2.2.2

instance (k : Kernel Q S) (e : Event Q S) : Decidable (k.Careful e) := by
  delta Careful
  exact match e with
    | .call (.waitEvent _) | .call (.wakeUp _) | .call (.sleep _) | .call .yieldNow | .call .schedYield | .call (.down _)
    | .call (.tryDown _) | .call (.up _) | .call (.kill _ _) | .call (.exit _) | .call (.wait4 _) | .call .fork
    | .call (.createKernelThread _) | .call .checkSignals | .call (.fault _) | .irq _ | .irqInside _ _ =>
      inferInstance
    | .run b => by
      generalize k.frames = gs
      exact match gs with
        | [] | .waitEvent _ :: _ | .waitTest _ :: _ | .sleep _ :: _ | .schedule _ :: _ | .down _ :: _ | .rouse _ :: _
        | .add _ :: _ | .exitWith _ :: _ | .exitNotify :: _ | .wait4 _ :: _ | .waitAlive :: _ | .checkDead :: _
        | .checkSchedule :: _ => inferInstance
        | .checkSignals :: _ => by
          generalize defaultAction (k.task k.current).signals.checkPending = a
          exact match a with
            | .terminate | .ignore | .core | .stop | .cont | .handler => inferInstance

/-- What a run can be checked against: on plain stacks it is `Reaping`. -/
def Checked [DecidableEq Q] (k : Kernel Q S) (e : Event Q S) : Prop :=
  k.Undisturbed e ∧ k.LawfulAt (· ∈ k.queued ++ k.semq.map Prod.snd) e ∧ k.Careful e

instance [DecidableEq Q] (k : Kernel Q S) (e : Event Q S) : Decidable (k.Checked e) := inferInstanceAs (Decidable (_ ∧ _ ∧ _))

theorem checked_reach [DecidableEq Q] [DecidableEq S] (h : Lib.Reach step Checked Boot k) :
    k.Settled ∧ Lib.Reach step Reaping Boot k :=
  h.rule (P := fun k => k.Settled ∧ Lib.Reach step Reaping Boot k)
    (fun _ h => ⟨let ⟨_, _, hb⟩ := h; start_settled hb, .init h⟩) fun _ _ _ ⟨hs, hr⟩ ⟨hu, hl, hc⟩ h =>
      ⟨hs.step hu h, hr.step ⟨lawful_of_plain hs.plain hl, hc⟩ h⟩

/-- The first task forks, its child exits, and it gets the CPU back. -/
def forkAndExit : List (Event Unit Unit) :=
  [.call .fork, .call .yieldNow, .run true, .call .yieldNow, .run true, .call (.exit 7), .run true, .run true, .run true,
    .call (.wait4 (-1))]

theorem reaped_forkAndExit : ∃ k k' : Kernel Unit Unit, (twoTasks.bind fun k => Lib.trace step k forkAndExit) = some k ∧
    step k (.run true) = some k' ∧ (k.task 4).state = .zombie ∧ 4 ∈ k'.reported := by
  obtain ⟨k, hk, ht, hd⟩ := Lib.exists_run step Checked forkAndExit
    (fun k : Kernel Unit Unit => decide (k.current = 2 ∧ k.frames = [.wait4 (-1)] ∧ (k.task 4).ppid = 2 ∧
      (k.task 4).state = .zombie ∧ 4 < k.nextPid ∧ k.rank 4 = 0 ∧ k.Checked (.run true)) && (step k (.run true)).isSome)
    twoTasks_boot (by decide) (by decide)
  obtain ⟨hd, he⟩ := Bool.and_eq_true_iff.mp hd
  obtain ⟨hc, hf, hpp, hz, hn, hr, hu, hl, hok⟩ := of_decide_eq_true hd
  obtain ⟨k', hs⟩ := Option.isSome_iff_exists.mp he
  obtain ⟨hset, hreach⟩ := checked_reach hk
  have hasks : Asks 4 k (.run true) := ⟨hc.trans hpp.symm, -1, [], true, hf, Or.inl (by decide), rfl⟩
  refine ⟨k, k', ht, hs, hz, (reaped_reach hreach).waited 4 (by decide) hn (by rw [hpp]; decide) (Or.inr hz) 1 k'
    (.mark .refl ⟨lawful_of_plain hset.plain hl, hok⟩ hs hasks) (by rw [hr]; decide)⟩

/-- The first task forks, kills its child, and waits. -/
def waitForLost : List (Event Unit Unit) := [.call .fork, .call (.kill 4 sigKill), .call (.wait4 (-1)), .run true]

theorem killed_child_lost : ¬ ∀ k : Kernel Unit Unit, Lib.Reach step (fun _ _ => True) Boot k →
    k.ReapedOnce fun _ _ => True := by
  intro h
  obtain ⟨k, hk, -, hd⟩ := Lib.exists_run step (fun _ _ => True) waitForLost
    (fun k : Kernel Unit Unit => decide (k.frames = [.waitAlive] ∧ (k.task 4).ppid = k.current ∧ 4 < k.nextPid ∧
      4 ∉ k.reported) && (step k (.run true)).any fun k' : Kernel Unit Unit =>
        decide (k'.waits = k.waits ++ [(k.current, .noChild)])) twoTasks_boot (by decide) (by decide)
  obtain ⟨hd, he⟩ := Bool.and_eq_true_iff.mp hd
  obtain ⟨hf, hpp, hn, hrep⟩ := of_decide_eq_true hd
  cases hs : step k (.run true) with
  | none => rw [hs] at he; cases he
  | some k' =>
    rw [hs] at he
    exact hrep ((h k hk).noChild [] true k' hf trivial hs (of_decide_eq_true he) 4 (by decide) hn hpp)

end Myos.Sched.Kernel
