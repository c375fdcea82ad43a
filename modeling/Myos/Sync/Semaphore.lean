/-
  Myos.Sync.Semaphore — the counting semaphore and the mutex over it
  (`rust/src/sync/semaphore.rs`, `mutex.rs`).

  A critical section, under the semaphore's `KMutex`, is one step; between them the tasks
  interleave freely. `up` makes the task it took from the queue ready in a step of its own.

  Proved:
  - `semaphore_reach`: the count is what was there plus the ups less the acquisitions and never
    negative, and while it is positive enough of the tasks taken from the queue are on their
    way to try again.
  - `mutex_reach`: if a task only unlocks what it holds then a mutex has one holder at most.
-/

import Mathlib
import Myos.Lib.Runs

namespace Myos.Sync.Semaphore

/-- Where a task is. `rouse t`: in `up`, with `t` in hand. `parked`: in the queue; `popped`: taken
    from it; `ready`: in a ready queue, about to go round the loop of `down` again. -/
inductive Pc (T : Type*) where
  | outside
  | rouse (t : T)
  | parked
  | popped
  | ready
  deriving DecidableEq, Repr

structure SemInner (T : Type*) where
  count : Int
  queue : List T
  owner : Option T

/-- `acquired`, `ups`: how often that happened; `holders`: who acquired, less who called `up`. -/
structure Machine (T : Type*) where
  inner : SemInner T
  prio : T → Nat
  originalPrio : T → Nat
  pc : T → Pc T
  acquired : Nat
  ups : Nat
  holders : List T

inductive Act (T : Type*) where
  | down (t : T)
  | up (t : T)
  | wake (t : T)
  | tryDown (t : T)

variable {T : Type*} [DecidableEq T]

namespace Machine

variable (m : Machine T)

def goto (t : T) (pc : Pc T) : Machine T := { m with pc := Function.update m.pc t pc }

/-- The count goes to `t`. -/
def take (t : T) (owner : Option T) : Machine T :=
  { m with
    inner := { m.inner with count := m.inner.count - 1, owner := owner }
    acquired := m.acquired + 1
    holders := t :: m.holders }.goto t .outside

/-- The owner gets the priority of `t` if that is higher. -/
def inherit (t : T) : Machine T :=
  match m.inner.owner with
  | some owner =>
    if m.prio t > m.prio owner then
      { m with
        originalPrio := Function.update m.originalPrio owner (m.prio owner)
        prio := Function.update m.prio owner (m.prio t) }
    else m
  | none => m

def restore : Machine T :=
  match m.inner.owner with
  | some owner =>
    if m.prio owner ≠ m.originalPrio owner then { m with prio := Function.update m.prio owner (m.originalPrio owner) } else m
  | none => m

/-- One turn of the loop of `down`. -/
def down (t : T) : Machine T :=
  if m.inner.count > 0 then m.take t (some t)
  else
    let m := m.inherit t
    { m with inner := { m.inner with queue := m.inner.queue ++ [t] } }.goto t .parked

/-- The critical section of `up`. -/
def up (t : T) : Machine T :=
  let m := m.restore
  let m := { m with
    inner := { m.inner with count := m.inner.count + 1, owner := none, queue := m.inner.queue.tail }
    ups := m.ups + 1
    holders := m.holders.erase t }
  m

def tryDown (t : T) : Machine T := if m.inner.count > 0 then m.take t m.inner.owner else m

end Machine

def step (m : Machine T) : Act T → Option (Machine T)
  | .down t => if m.pc t = .outside ∨ m.pc t = .ready then some (m.down t) else none
  | .up t =>
    if m.pc t = .outside then
      match m.inner.queue with
      | [] => some (m.up t)
      | u :: _ => some (((m.up t).goto u .popped).goto t (.rouse u))
    else none
  | .wake t =>
    match m.pc t with
    | .rouse u => some ((m.goto u .ready).goto t .outside)
    | _ => none
  | .tryDown t => if m.pc t = .outside then some (m.tryDown t) else none

def boot (n : Int) (m : Machine T) : Prop :=
  m.inner = ⟨n, [], none⟩ ∧ (∀ t, m.pc t = .outside) ∧ m.acquired = 0 ∧ m.ups = 0 ∧ m.holders = []

/-! ## The invariant -/

/-- Taken from the queue, and ready or about to be made so. -/
def OnItsWay (m : Machine T) (t : T) : Prop := m.pc t = .ready ∨ m.pc t = .popped ∧ ∃ u, m.pc u = .rouse t

/-- `w`: the tasks on their way. -/
structure Inv (n : Int) (m : Machine T) (w : Finset T) : Prop where
  count : m.inner.count = n - m.acquired + m.ups
  nonneg : 0 ≤ m.inner.count
  queued : ∀ t, t ∈ m.inner.queue ↔ m.pc t = .parked
  nodup : m.inner.queue.Nodup
  way : ∀ t, t ∈ w ↔ m.pc t = .ready ∨ m.pc t = .popped
  popped : ∀ t, m.pc t = .popped ↔ ∃ u, m.pc u = .rouse t
  once : ∀ t u u', m.pc u = .rouse t → m.pc u' = .rouse t → u = u'
  enough : m.inner.queue = [] ∨ m.inner.count ≤ w.card

section

variable {n : Int} {m m' : Machine T} {w : Finset T} {t u : T}

theorem inherit_eq (m : Machine T) (t : T) : (m.inherit t).inner = m.inner ∧ (m.inherit t).pc = m.pc ∧
    (m.inherit t).acquired = m.acquired ∧ (m.inherit t).ups = m.ups ∧ (m.inherit t).holders = m.holders := by
  unfold Machine.inherit
  split
  · split
    · exact ⟨rfl, rfl, rfl, rfl, rfl⟩
    · exact ⟨rfl, rfl, rfl, rfl, rfl⟩
  · exact ⟨rfl, rfl, rfl, rfl, rfl⟩

theorem restore_eq (m : Machine T) : m.restore.inner = m.inner ∧ m.restore.pc = m.pc ∧ m.restore.acquired = m.acquired ∧
    m.restore.ups = m.ups ∧ m.restore.holders = m.holders := by
  unfold Machine.restore
  split
  · split
    · exact ⟨rfl, rfl, rfl, rfl, rfl⟩
    · exact ⟨rfl, rfl, rfl, rfl, rfl⟩
  · exact ⟨rfl, rfl, rfl, rfl, rfl⟩

namespace Inv

/-- A task outside or on its way leaves the semaphore or joins the queue. -/
theorem leave (h : Inv n m w) (ht : m.pc t = .outside ∨ m.pc t = .ready) {pc : Pc T} (hpc : pc = .outside ∨ pc = .parked) :
    (∀ s, s ∈ w.erase t ↔ Function.update m.pc t pc s = .ready ∨ Function.update m.pc t pc s = .popped) ∧
      (∀ s, Function.update m.pc t pc s = .popped ↔ ∃ u, Function.update m.pc t pc u = .rouse s) ∧
      (∀ s u u', Function.update m.pc t pc u = .rouse s → Function.update m.pc t pc u' = .rouse s → u = u') ∧
      ∀ s, s ≠ t → (s ∈ m.inner.queue ↔ Function.update m.pc t pc s = .parked) := by
  have hnr : ∀ s, pc ≠ .rouse s := by rcases hpc with rfl | rfl <;> simp
  have hold : ∀ s, m.pc t ≠ .rouse s := by rcases ht with e | e <;> simp [e]
  have hru : ∀ u s, Function.update m.pc t pc u = .rouse s ↔ m.pc u = .rouse s := by
    intro u s
    by_cases hu : u = t
    · subst hu
      rw [Function.update_self]
      exact iff_of_false (hnr s) (hold s)
    · rw [Function.update_of_ne hu]
  refine ⟨fun s => ?_, fun s => ?_, fun s u u' h1 h2 => h.once s u u' ((hru u s).mp h1) ((hru u' s).mp h2), fun s hs => ?_⟩
  · rw [Finset.mem_erase]
    by_cases hs : s = t
    · subst hs
      rw [Function.update_self]
      rcases hpc with rfl | rfl <;> simp
    · rw [Function.update_of_ne hs, ← h.way s]
      exact and_iff_right hs
  · simp only [hru]
    rw [← h.popped s]
    by_cases hs : s = t
    · subst hs
      rw [Function.update_self]
      refine iff_of_false ?_ ?_
      · rcases hpc with rfl | rfl <;> simp
      · rcases ht with e | e <;> simp [e]
    · rw [Function.update_of_ne hs]
  · rw [Function.update_of_ne hs]
    exact h.queued s

omit [DecidableEq T] in
theorem not_queued (h : Inv n m w) (ht : m.pc t = .outside ∨ m.pc t = .ready) : t ∉ m.inner.queue := by
  rw [h.queued]
  rcases ht with e | e <;> simp [e]

/-- An acquisition. -/
theorem take (h : Inv n m w) (ht : m.pc t = .outside ∨ m.pc t = .ready) (hc : m.inner.count > 0) (owner : Option T) :
    Inv n (m.take t owner) (w.erase t) := by
  obtain ⟨hway, hpop, honce, hq⟩ := h.leave ht (Or.inl rfl)
  have hcount := h.count
  refine ⟨?_, ?_, fun s => ?_, h.nodup, hway, hpop, honce, ?_⟩
  · show m.inner.count - 1 = n - ((m.acquired + 1 : Nat) : Int) + m.ups
    push_cast
    omega
  · show 0 ≤ m.inner.count - 1
    omega
  · show s ∈ m.inner.queue ↔ Function.update m.pc t .outside s = .parked
    by_cases hs : s = t
    · subst hs
      rw [Function.update_self]
      exact iff_of_false (h.not_queued ht) (by simp)
    · exact hq s hs
  · refine h.enough.imp id fun he => ?_
    show m.inner.count - 1 ≤ ((w.erase t).card : Int)
    have := Finset.pred_card_le_card_erase (s := w) (a := t)
    omega

/-- A turn of `down` that does not acquire. -/
theorem park (h : Inv n m w) (ht : m.pc t = .outside ∨ m.pc t = .ready) (hc : ¬ m.inner.count > 0) : Inv n (m.down t) (w.erase t) := by
  obtain ⟨hi, hp, ha, hu, -⟩ := inherit_eq m t
  obtain ⟨hway, hpop, honce, hq⟩ := h.leave ht (Or.inr rfl)
  have hnn := h.nonneg
  unfold Machine.down
  rw [if_neg hc]
  refine ⟨?_, ?_, fun s => ?_, ?_, ?_, ?_, ?_, Or.inr ?_⟩
  · show (m.inherit t).inner.count = n - ((m.inherit t).acquired : Int) + (m.inherit t).ups
    rw [hi, ha, hu]
    exact h.count
  · show 0 ≤ (m.inherit t).inner.count
    rw [hi]
    exact hnn
  · show s ∈ (m.inherit t).inner.queue ++ [t] ↔ Function.update (m.inherit t).pc t .parked s = .parked
    rw [hi, hp, List.mem_append, List.mem_singleton]
    by_cases hs : s = t
    · subst hs
      rw [Function.update_self]
      exact iff_of_true (Or.inr rfl) rfl
    · rw [← hq s hs]
      exact or_iff_left hs
  · show ((m.inherit t).inner.queue ++ [t]).Nodup
    rw [hi]
    exact List.nodup_append.mpr ⟨h.nodup, List.nodup_singleton t, fun a ha b hb e => h.not_queued ht (by
      rw [List.mem_singleton.mp hb] at e
      exact e ▸ ha)⟩
  · show ∀ s, s ∈ w.erase t ↔ Function.update (m.inherit t).pc t .parked s = .ready ∨ Function.update (m.inherit t).pc t .parked s = .popped
    rw [hp]
    exact hway
  · show ∀ s, Function.update (m.inherit t).pc t .parked s = .popped ↔ ∃ u, Function.update (m.inherit t).pc t .parked u = .rouse s
    rw [hp]
    exact hpop
  · show ∀ s u u', Function.update (m.inherit t).pc t .parked u = .rouse s → Function.update (m.inherit t).pc t .parked u' = .rouse s → u = u'
    rw [hp]
    exact honce
  · show (m.inherit t).inner.count ≤ ((w.erase t).card : Int)
    rw [hi]
    omega

theorem down (h : Inv n m w) (ht : m.pc t = .outside ∨ m.pc t = .ready) : Inv n (m.down t) (w.erase t) := by
  by_cases hc : m.inner.count > 0
  · unfold Machine.down
    rw [if_pos hc]
    exact h.take ht hc (some t)
  · exact h.park ht hc

theorem up_count (h : Inv n m w) (t : T) : (m.up t).inner.count = n - (m.up t).acquired + (m.up t).ups ∧ 0 ≤ (m.up t).inner.count := by
  obtain ⟨hi, -, ha, hu, -⟩ := restore_eq m
  have hc := h.count
  have hnn := h.nonneg
  constructor
  · show m.restore.inner.count + 1 = n - (m.restore.acquired : Int) + ((m.restore.ups + 1 : Nat) : Int)
    rw [hi, ha, hu]
    push_cast
    omega
  · show 0 ≤ m.restore.inner.count + 1
    rw [hi]
    omega

theorem up_nil (h : Inv n m w) (hq : m.inner.queue = []) (t : T) : Inv n (m.up t) w := by
  obtain ⟨hi, hp, -⟩ := restore_eq m
  have hqueue : (m.up t).inner.queue = m.inner.queue := by
    show m.restore.inner.queue.tail = m.inner.queue
    rw [hi, hq]
    rfl
  have hpc : (m.up t).pc = m.pc := hp
  refine ⟨(h.up_count t).1, (h.up_count t).2, ?_, ?_, ?_, ?_, ?_, Or.inl ?_⟩
  · rw [hqueue, hpc]
    exact h.queued
  · rw [hqueue]
    exact h.nodup
  · rw [hpc]
    exact h.way
  · rw [hpc]
    exact h.popped
  · rw [hpc]
    exact h.once
  · rw [hqueue]
    exact hq

/-- `up` takes the first task from the queue. -/
theorem up_cons (h : Inv n m w) (ht : m.pc t = .outside) {q : List T} (hq : m.inner.queue = u :: q) :
    Inv n (((m.up t).goto u .popped).goto t (.rouse u)) (insert u w) := by
  obtain ⟨hi, hp, -⟩ := restore_eq m
  have hup : m.pc u = .parked := (h.queued u).mp (by rw [hq]; exact List.mem_cons_self ..)
  have hut : u ≠ t := fun e => by rw [e, ht] at hup; cases hup
  have hnd := h.nodup
  rw [hq, List.nodup_cons] at hnd
  have hqueue : (m.up t).inner.queue = q := by
    show m.restore.inner.queue.tail = q
    rw [hi, hq]
    rfl
  have huw : u ∉ w := by
    rw [h.way]
    simp [hup]
  -- the places afterwards
  have hpc : ∀ s, (((m.up t).goto u .popped).goto t (.rouse u)).pc s = if s = t then .rouse u else if s = u then .popped else m.pc s := by
    intro s
    show Function.update (Function.update m.restore.pc u .popped) t (.rouse u) s = _
    rw [hp, Function.update_apply, Function.update_apply]
  have hnor : ∀ s, m.pc s ≠ .rouse u := fun s hs => by
    have := (h.popped u).mpr ⟨s, hs⟩
    rw [hup] at this
    cases this
  refine ⟨(h.up_count t).1, (h.up_count t).2, fun s => ?_, ?_, fun s => ?_, fun s => ?_, fun s a b ha hb => ?_, ?_⟩
  · show s ∈ (m.up t).inner.queue ↔ _
    rw [hpc, hqueue]
    have hs := h.queued s
    rw [hq, List.mem_cons] at hs
    split
    · next e =>
      subst e
      exact iff_of_false (fun hm => by rw [ht] at hs; exact absurd (hs.mp (Or.inr hm)) (by simp)) (by simp)
    · split
      · next e =>
        subst e
        exact iff_of_false hnd.1 (by simp)
      · next e => rw [← hs, or_iff_right e]
  · show (m.up t).inner.queue.Nodup
    rw [hqueue]
    exact hnd.2
  · rw [hpc, Finset.mem_insert, h.way]
    split
    · next e =>
      subst e
      simp [ht, hut.symm]
    · split
      · next e => simp [e]
      · next e => simp [e]
  · rw [hpc]
    simp only [hpc]
    by_cases hsu : s = u
    · subst hsu
      rw [if_neg hut, if_pos rfl]
      exact iff_of_true rfl ⟨t, by rw [if_pos rfl]⟩
    · have hiff : (∃ a, (if a = t then Pc.rouse u else if a = u then .popped else m.pc a) = .rouse s) ↔ ∃ a, m.pc a = .rouse s := by
        refine exists_congr fun a => ?_
        split
        · next e =>
          subst e
          simp [ht, Ne.symm hsu]
        · split
          · next e =>
            subst e
            simp [hup]
          · rfl
      rw [hiff, ← h.popped s]
      split
      · next e =>
        subst e
        simp [ht]
      · rfl
  · rw [hpc] at ha hb
    split at ha
    · next e =>
      subst e
      cases ha
      split at hb
      · next e => exact e.symm
      · split at hb
        · cases hb
        · exact absurd hb (hnor b)
    · split at ha
      · cases ha
      · split at hb
        · cases hb
          exact absurd ha (hnor a)
        · split at hb
          · cases hb
          · exact h.once s a b ha hb
  · right
    show (m.up t).inner.count ≤ _
    have hc : (m.up t).inner.count = m.inner.count + 1 := by
      show m.restore.inner.count + 1 = _
      rw [hi]
    have := h.enough.resolve_left (by rw [hq]; exact List.cons_ne_nil _ _)
    rw [hc, Finset.card_insert_of_notMem huw]
    push_cast
    omega

theorem wake (h : Inv n m w) (ht : m.pc t = .rouse u) : Inv n ((m.goto u .ready).goto t .outside) w := by
  have hup : m.pc u = .popped := (h.popped u).mpr ⟨t, ht⟩
  have hut : u ≠ t := fun e => by rw [e, ht] at hup; cases hup
  have hpc : ∀ s, ((m.goto u .ready).goto t .outside).pc s = if s = t then .outside else if s = u then .ready else m.pc s := by
    intro s
    show Function.update (Function.update m.pc u .ready) t .outside s = _
    rw [Function.update_apply, Function.update_apply]
  refine ⟨h.count, h.nonneg, fun s => ?_, h.nodup, fun s => ?_, fun s => ?_, fun s a b ha hb => ?_, h.enough⟩
  · rw [hpc]
    show s ∈ m.inner.queue ↔ _
    rw [h.queued s]
    split
    · next e => subst e; simp [ht]
    · split
      · next e => subst e; simp [hup]
      · rfl
  · rw [hpc, h.way]
    split
    · next e => subst e; simp [ht]
    · split
      · next e => subst e; simp [hup]
      · rfl
  · rw [hpc]
    simp only [hpc]
    have hiff : (∃ a, (if a = t then Pc.outside else if a = u then .ready else m.pc a) = .rouse s) ↔ s ≠ u ∧ ∃ a, m.pc a = .rouse s := by
      constructor
      · intro ⟨a, ha⟩
        split at ha
        · cases ha
        · next hat =>
          split at ha
          · cases ha
          · exact ⟨fun e => hat (h.once u a t (e ▸ ha) ht), a, ha⟩
      · intro ⟨hsu, a, ha⟩
        refine ⟨a, ?_⟩
        rw [if_neg fun e => hsu (by rw [e, ht] at ha; cases ha; rfl), if_neg fun e => by rw [e, hup] at ha; cases ha]
        exact ha
    rw [hiff, ← h.popped s]
    split
    · next e => subst e; simp [ht]
    · split
      · next e => simp [e]
      · next e => exact ⟨fun hp => ⟨e, hp⟩, fun hp => hp.2⟩
  · rw [hpc] at ha hb
    split at ha
    · cases ha
    · split at ha
      · cases ha
      · split at hb
        · cases hb
        · split at hb
          · cases hb
          · exact h.once s a b ha hb

theorem step {a : Act T} (h : Inv n m w) (hs : step m a = some m') : ∃ w, Inv n m' w := by
  cases a with
  | down t =>
    unfold Semaphore.step at hs
    dsimp only at hs
    split at hs
    · next ht =>
      cases hs
      exact ⟨_, h.down ht⟩
    · cases hs
  | up t =>
    unfold Semaphore.step at hs
    dsimp only at hs
    split at hs
    · next ht =>
      split at hs
      · next hq =>
        cases hs
        exact ⟨w, h.up_nil hq t⟩
      · next hq =>
        cases hs
        exact ⟨_, h.up_cons ht hq⟩
    · cases hs
  | wake t =>
    unfold Semaphore.step at hs
    dsimp only at hs
    split at hs
    · next ht =>
      cases hs
      exact ⟨w, h.wake ht⟩
    · cases hs
  | tryDown t =>
    unfold Semaphore.step Machine.tryDown at hs
    dsimp only at hs
    split at hs
    · next ht =>
      split at hs
      · next hc =>
        cases hs
        exact ⟨_, h.take (Or.inl ht) hc m.inner.owner⟩
      · cases hs
        exact ⟨w, h⟩
    · cases hs

omit [DecidableEq T] in
theorem boot {n : Nat} (h : boot (n : Int) m) : Inv n m ∅ := by
  obtain ⟨hi, hp, ha, hu, -⟩ := h
  refine ⟨?_, ?_, fun t => ?_, ?_, fun t => ?_, fun t => ?_, fun t a b he => ?_, Or.inl ?_⟩
  · rw [hi, ha, hu]
    simp
  · rw [hi]
    exact Int.natCast_nonneg n
  · rw [hi, hp]
    simp
  · rw [hi]
    exact List.nodup_nil
  · rw [hp]
    simp
  · simp [hp]
  · rw [hp] at he
    cases he
  · rw [hi]

end Inv

end

/-- In every run: the count is `n` less the acquisitions plus the ups, and not negative; so at most
    `n` and the ups acquired. While the count is positive and tasks are queued, as many tasks as
    the count could serve are on their way. -/
theorem semaphore_reach {n : Nat} {m : Machine T} (hr : Lib.Reach step (fun _ _ => True) (boot (n : Int)) m) :
    m.inner.count = n - m.acquired + m.ups ∧ 0 ≤ m.inner.count ∧ m.acquired ≤ n + m.ups ∧
      (0 < m.inner.count → m.inner.queue ≠ [] → ∃ w : Finset T, (∀ t ∈ w, OnItsWay m t) ∧
        min m.inner.count m.inner.queue.length ≤ w.card) := by
  obtain ⟨w, h⟩ : ∃ w, Inv n m w :=
    hr.rule (P := fun m => ∃ w, Inv n m w) (fun s hs => ⟨∅, .boot hs⟩) fun s a s' ⟨w, h⟩ _ hs => h.step hs
  have hc := h.count
  have hnn := h.nonneg
  refine ⟨hc, hnn, by omega, fun _ hq => ⟨w, fun t ht => ?_, ?_⟩⟩
  · rcases (h.way t).mp ht with hp | hp
    · exact Or.inl hp
    · exact Or.inr ⟨hp, (h.popped t).mp hp⟩
  · exact (min_le_left _ _).trans (h.enough.resolve_left hq)

/-! ## The mutex -/

/-- Who calls `up` holds the lock. -/
def Unlocks (m : Machine T) : Act T → Prop
  | .up t => t ∈ m.holders
  | _ => True

/-- `holders` accounts for the acquisitions. -/
theorem step_holders {m m' : Machine T} {a : Act T} (hu : Unlocks m a) (h : m.holders.length + m.ups = m.acquired)
    (hs : step m a = some m') : m'.holders.length + m'.ups = m'.acquired := by
  have htake : ∀ (m : Machine T) (t : T) o, m.holders.length + m.ups = m.acquired →
      (m.take t o).holders.length + (m.take t o).ups = (m.take t o).acquired := fun m t o h => by
    show (t :: m.holders).length + m.ups = m.acquired + 1
    rw [List.length_cons]
    omega
  cases a with
  | down t =>
    unfold step at hs
    dsimp only at hs
    split at hs
    · cases hs
      unfold Machine.down
      split
      · exact htake m t _ h
      · obtain ⟨-, -, ha, hup, hh⟩ := inherit_eq m t
        show (m.inherit t).holders.length + (m.inherit t).ups = (m.inherit t).acquired
        rw [ha, hup, hh]
        exact h
    · cases hs
  | up t =>
    have hup : (m.up t).holders.length + (m.up t).ups = (m.up t).acquired := by
      obtain ⟨-, -, ha, hups, hh⟩ := restore_eq m
      show (m.restore.holders.erase t).length + (m.restore.ups + 1) = m.restore.acquired
      rw [ha, hups, hh, List.length_erase_of_mem hu]
      have := List.length_pos_of_mem hu
      omega
    unfold step at hs
    dsimp only at hs
    split at hs
    · split at hs
      · cases hs
        exact hup
      · cases hs
        exact hup
    · cases hs
  | wake t =>
    unfold step at hs
    dsimp only at hs
    split at hs
    · cases hs
      exact h
    · cases hs
  | tryDown t =>
    unfold step Machine.tryDown at hs
    dsimp only at hs
    split at hs
    · split at hs
      · cases hs
        exact htake m t _ h
      · cases hs
        exact h
    · cases hs

/-- `Mutex::new`: a semaphore of count 1. -/
theorem mutex_reach {m : Machine T} (hr : Lib.Reach step Unlocks (boot 1) m) : m.holders.length ≤ 1 := by
  have hh : m.holders.length + m.ups = m.acquired :=
    hr.rule (P := fun m => m.holders.length + m.ups = m.acquired) (fun s hs => by
      obtain ⟨-, -, ha, hu, hl⟩ := hs
      rw [ha, hu, hl]
      rfl) fun s a s' h hu hs => step_holders hu h hs
  have h := semaphore_reach (n := 1) (hr.weaken fun _ _ _ => trivial)
  omega

/-- Both, over all interleavings of any number of tasks. -/
theorem semaphore_safe (T : Type*) [DecidableEq T] :
    (∀ (n : Nat) (m : Machine T), Lib.Reach step (fun _ _ => True) (boot (n : Int)) m →
      m.inner.count = n - m.acquired + m.ups ∧ 0 ≤ m.inner.count ∧ m.acquired ≤ n + m.ups ∧
        (0 < m.inner.count → m.inner.queue ≠ [] → ∃ w : Finset T, (∀ t ∈ w, OnItsWay m t) ∧
          min m.inner.count m.inner.queue.length ≤ w.card)) ∧
      ∀ m : Machine T, Lib.Reach step Unlocks (boot 1) m → m.holders.length ≤ 1 :=
  ⟨fun _ _ hr => semaphore_reach hr, fun _ hr => mutex_reach hr⟩

/-- Task 0 takes the lock, tasks 1 and 2 wait, task 0 lets it go: task 1 is on its way. -/
def waitTwo : List (Act Nat) := [.down 0, .down 1, .down 2, .up 0]

def fresh : Machine Nat := ⟨⟨1, [], none⟩, fun _ => 0, fun _ => 0, fun _ => .outside, 0, 0, []⟩

theorem semaphore_safe_waitTwo : ∃ m : Machine Nat, Lib.trace step fresh waitTwo = some m ∧ m.inner.count = 1 ∧ m.inner.queue = [2] ∧
    (∃ w : Finset Nat, (∀ t ∈ w, OnItsWay m t) ∧ 1 ≤ w.card) ∧ m.holders.length ≤ 1 := by
  refine ⟨_, rfl, rfl, rfl, ?_⟩
  have h0 : Lib.Reach step (fun _ _ => True) (boot ((1 : Nat) : Int)) fresh := .init ⟨rfl, fun _ => rfl, rfl, rfl, rfl⟩
  have h1 : Lib.Reach step Unlocks (boot 1) fresh := .init ⟨rfl, fun _ => rfl, rfl, rfl, rfl⟩
  have hm : Lib.Meets step Unlocks fresh waitTwo := by
    refine ⟨trivial, fun _ h => ?_⟩
    cases h
    refine ⟨trivial, fun _ h => ?_⟩
    cases h
    refine ⟨trivial, fun _ h => ?_⟩
    cases h
    exact ⟨List.mem_cons_self .., fun _ _ => trivial⟩
  obtain ⟨w, hw, hle⟩ := ((semaphore_safe Nat).1 1 _ (h0.of_trace (Lib.meets_true step waitTwo _) rfl)).2.2.2 (by decide) (List.cons_ne_nil _ _)
  refine ⟨⟨w, hw, ?_⟩, (semaphore_safe Nat).2 _ (h1.of_trace hm rfl)⟩
  exact Int.ofNat_le.mp hle

end Myos.Sync.Semaphore
