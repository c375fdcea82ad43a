/-
  Myos.Driver.Timers — the software timers (driver/timer.c).

  The list is singly linked through the timers, from `timer_list` on. The handler keeps a
  pointer `prev` to a link and a pointer `current` to a timer, and gives the lock up around a
  callback; what a callback does are the events between its call and its return. A timer is
  named by its number in the order of `timer_add`, an address that is used again has another.
  A timer that was fired is never freed.

  Proved: while no delay overflows the 32 bits it is converted in, no callback deletes the timer
  the handler will look at next, and none adds a timer without delay when that one is not due,
  the list is sorted and every timer is fired once, at the first tick it is due, unless it was
  deleted before.
-/

import Mathlib
import Myos.Lib.Deadlines
import Myos.Lib.Runs

namespace Myos.Driver.Timers

open Lib

def tickHz : Nat := 1000

structure Timer where
  id : Nat
  expireTick : Nat
  deriving DecidableEq, Repr

/-- `prev`: the timer whose link it points to, `none` for `timer_list`. `wild`: the handler used
    a timer that was freed. -/
inductive Handler where
  | idle
  | loop (prev current : Option Nat)
  | callback (prev current : Option Nat)
  | wild
  deriving DecidableEq, Repr

/-- A call of `timer_add`: the tick, the delay, and whether a callback made it. -/
structure Made where
  tick : Nat
  ms : Nat
  inside : Bool
  deriving DecidableEq, Repr

structure State where
  tick : Nat
  list : List Timer
  handler : Handler
  made : List Made
  fired : List (Nat × Nat)
  deleted : List Nat
  deriving DecidableEq, Repr

inductive Act where
  | add (ms : Nat)
  | del (i : Nat)
  | tick
  | go
  | ret
  deriving DecidableEq, Repr

/-- `system_tick + (expire_ms * TICK_HZ) / 1000`; the product has 32 bits. -/
def expireTick (tick ms : Nat) : Nat := (tick + ms * tickHz % 2 ^ 32 / 1000) % 2 ^ 64

/-- In front of the list, or behind its first timer and those that expire earlier. -/
def insert (x : Timer) : List Timer → List Timer
  | [] => [x]
  | h :: l => if x.expireTick < h.expireTick then x :: h :: l
      else h :: Deadlines.insertAt (fun y => y.expireTick < x.expireTick) x l

/-- The timers behind the timer `c`. -/
def behind (c : Nat) (l : List Timer) : List Timer := (l.dropWhile fun x => x.id ≠ c).drop 1

/-- `*prev = current->next`. -/
def unlink (prev : Option Nat) (c : Nat) (l : List Timer) : Option (List Timer) :=
  match prev with
  | none => some (behind c l)
  | some p => if l.any (·.id = p) then some ((l.takeWhile fun x => x.id ≠ p) ++ l.filter (·.id = p) ++ behind c l) else none

/-- One turn of the loop of `timer_irq_handler`, to the call of the callback if the timer is due. -/
def turn (s : State) (prev current : Option Nat) : State :=
  match current with
  | none => { s with handler := .idle }
  | some c =>
    match s.list.find? (·.id = c) with
    | none => { s with handler := .wild }
    | some x =>
      let next := (behind c s.list).head?.map Timer.id
      if x.expireTick ≤ s.tick then
        match unlink prev c s.list with
        | none => { s with handler := .wild }
        | some l => { s with list := l, handler := .callback prev next, fired := s.fired ++ [(c, s.tick)] }
      else { s with handler := .loop (some c) next }

/-- A thread or a callback is running. -/
def Handler.open? : Handler → Option Bool
  | .idle => some false
  | .callback _ _ => some true
  | _ => none

def step (s : State) : Act → Option State
  | .add ms => s.handler.open?.map fun inside =>
    { s with list := insert ⟨s.made.length, expireTick s.tick ms⟩ s.list, made := s.made ++ [⟨s.tick, ms, inside⟩] }
  | .del i => s.handler.open?.map fun _ =>
    if s.list.any (·.id = i) then { s with list := s.list.eraseP (·.id = i), deleted := s.deleted ++ [i] } else s
  | .tick =>
    if s.handler = .idle then
      some { s with tick := (s.tick + 1) % 2 ^ 64, handler := .loop none (s.list.head?.map Timer.id) }
    else none
  | .go =>
    match s.handler with
    | .loop prev current => some (turn s prev current)
    | _ => none
  | .ret =>
    match s.handler with
    | .callback prev current => some { s with handler := .loop prev current }
    | _ => none

/-- `timer_list` is `NULL`. -/
def init : State := ⟨0, [], .idle, [], [], []⟩

/-- The first tick at which a timer is due: a callback may still be served by the tick it is
    called in, a thread by the next one. -/
def Made.due (m : Made) : Nat := if m.inside then m.tick + m.ms else max (m.tick + m.ms) (m.tick + 1)

def madeAt (s : State) (i : Nat) : Made := s.made.getD i ⟨0, 0, true⟩

def dueAt (s : State) (i : Nat) : Nat := (madeAt s i).due

/-- What the timers are for. -/
structure Law (s : State) : Prop where
  safe : s.handler ≠ .wild
  sorted : s.list.Pairwise fun x y => x.expireTick ≤ y.expireTick
  fate : (s.fired.map Prod.fst ++ s.deleted ++ s.list.map Timer.id).Perm (List.range s.made.length)
  time : ∀ x ∈ s.fired, x.2 = dueAt s x.1
  pending : s.handler = .idle → ∀ x ∈ s.list, s.tick < dueAt s x.id

/-- The timer that the handler goes on with. -/
def Handler.current : Handler → Option Nat
  | .loop _ c => c
  | .callback _ c => c
  | _ => none

/-- The timer that the handler goes on with has expired. -/
def nextDue (s : State) : Bool := s.handler.current.any fun c => s.list.any fun x => x.id = c ∧ x.expireTick ≤ s.tick

/-- A delay that fits, none from a callback without delay unless the handler goes on with a timer
    that is due; no deletion of the timer it goes on with. -/
def Ok (s : State) : Act → Prop
  | .add ms => ms * tickHz < 2 ^ 32 ∧ s.tick + ms < 2 ^ 64 ∧
      (s.handler.open? = some true → ms = 0 → nextDue s = true)
  | .del i => s.handler.current ≠ some i
  | .tick => s.tick + 1 < 2 ^ 64
  | .go => True
  | .ret => True

instance (s : State) : ∀ e, Decidable (Ok s e)
  | .add ms => inferInstanceAs (Decidable (ms * tickHz < 2 ^ 32 ∧ s.tick + ms < 2 ^ 64 ∧
      (s.handler.open? = some true → ms = 0 → nextDue s = true)))
  | .del i => inferInstanceAs (Decidable (s.handler.current ≠ some i))
  | .tick => inferInstanceAs (Decidable (s.tick + 1 < 2 ^ 64))
  | .go => inferInstanceAs (Decidable True)
  | .ret => inferInstanceAs (Decidable True)

/-! ## The list -/

variable {s s' : State} {e : Act} {x y : Timer} {l : List Timer} {c i : Nat}

theorem insert_perm (x : Timer) (l : List Timer) : (insert x l).Perm (x :: l) := by
  cases l with
  | nil => exact List.Perm.refl _
  | cons h l =>
    rw [insert]
    split
    · exact List.Perm.refl _
    · exact ((Deadlines.insertAt_perm _ x l).cons h).trans (List.Perm.swap ..)

theorem insert_sorted (h : l.Pairwise fun x y => x.expireTick ≤ y.expireTick) :
    (insert x l).Pairwise fun x y => x.expireTick ≤ y.expireTick := by
  cases l with
  | nil => exact List.pairwise_singleton _ _
  | cons a l =>
    obtain ⟨ha, hl⟩ := List.pairwise_cons.mp h
    rw [insert]
    split
    · next hlt =>
      refine List.pairwise_cons.mpr ⟨fun y hy => ?_, h⟩
      rcases List.mem_cons.mp hy with rfl | hy
      · exact Nat.le_of_lt hlt
      · exact (Nat.le_of_lt hlt).trans (ha y hy)
    · next hge =>
      refine List.pairwise_cons.mpr ⟨fun y hy => ?_, ?_⟩
      · rcases List.mem_cons.mp ((Deadlines.insertAt_perm _ x l).mem_iff.mp hy) with rfl | hy
        · exact Nat.not_lt.mp hge
        · exact ha y hy
      · apply Deadlines.insertAt_pairwise hl
        · intro a b hab hb
          exact decide_eq_true (Nat.lt_of_le_of_lt hab (of_decide_eq_true hb))
        · intro a _ hp
          exact Nat.le_of_lt (of_decide_eq_true hp)
        · intro a _ hp
          exact Nat.not_lt.mp fun hlt => hp (decide_eq_true hlt)

/-- A timer that does not expire before the first one leaves it the first one. -/
theorem head_insert {h : Timer} (hle : h.expireTick ≤ x.expireTick) : (insert x (h :: l)).head? = some h := by
  rw [insert, if_neg (Nat.not_lt.mpr hle)]
  rfl

theorem find?_head (x : Timer) (l : List Timer) : (x :: l).find? (·.id = x.id) = some x := by simp

theorem behind_head (x : Timer) (l : List Timer) : behind x.id (x :: l) = l := by simp [behind]

theorem behind_sublist (c : Nat) (l : List Timer) : (behind c l).Sublist l :=
  (List.drop_sublist ..).trans (List.dropWhile_sublist _)

theorem expireTick_eq {tick ms : Nat} (h1 : ms * tickHz < 2 ^ 32) (h2 : tick + ms < 2 ^ 64) : expireTick tick ms = tick + ms := by
  rw [expireTick, Nat.mod_eq_of_lt h1, tickHz, Nat.mul_div_cancel _ (by decide), Nat.mod_eq_of_lt h2]

theorem Made.le_due (m : Made) : m.tick + m.ms ≤ m.due := by
  rw [Made.due]
  split
  · exact Nat.le_refl _
  · exact Nat.le_max_left ..

/-! ## What is known in every run -/

/-- While the handler runs no timer is overdue, and either none is due any more or the handler is
    at the front of the list, where one is. -/
structure Running (s : State) (prev current : Option Nat) : Prop where
  late : ∀ x ∈ s.list, s.tick ≤ dueAt s x.id
  here : ∀ c ∈ current, ∃ x ∈ s.list, x.id = c
  front : (∀ x ∈ s.list, s.tick < x.expireTick) ∨
    prev = none ∧ ∃ x, s.list.head? = some x ∧ current = some x.id ∧ x.expireTick ≤ s.tick
  outside : ∀ m ∈ s.made, m.inside = false → m.tick < s.tick

structure Inv (s : State) : Prop where
  sorted : s.list.Pairwise fun x y => x.expireTick ≤ y.expireTick
  fate : (s.fired.map Prod.fst ++ s.deleted ++ s.list.map Timer.id).Perm (List.range s.made.length)
  time : ∀ x ∈ s.fired, x.2 = dueAt s x.1
  expire : ∀ x ∈ s.list, x.expireTick = (madeAt s x.id).tick + (madeAt s x.id).ms
  born : ∀ m ∈ s.made, m.tick ≤ s.tick
  handler : match s.handler with
    | .idle => ∀ x ∈ s.list, s.tick < dueAt s x.id
    | .loop prev current => Running s prev current
    | .callback prev current => Running s prev current
    | .wild => False

theorem inv_init : Inv init := by
  refine ⟨List.Pairwise.nil, List.Perm.refl _, fun x hx => ?_, fun x hx => ?_, fun m hm => ?_, fun x hx => ?_⟩
  · cases hx
  · cases hx
  · cases hm
  · cases hx

theorem Inv.law (h : Inv s) : Law s := by
  have hh := h.handler
  refine ⟨fun he => ?_, h.sorted, h.fate, h.time, fun he => ?_⟩
  · rw [he] at hh
    exact hh
  · rw [he] at hh
    exact hh

theorem Inv.lt (h : Inv s) (hi : i ∈ s.fired.map Prod.fst ++ s.deleted ++ s.list.map Timer.id) : i < s.made.length :=
  List.mem_range.mp (h.fate.mem_iff.mp hi)

theorem Inv.madeAt_mem (h : Inv s) (hx : x ∈ s.list) : madeAt s x.id ∈ s.made := by
  have hlt := h.lt (List.mem_append_right _ (List.mem_map_of_mem hx))
  rw [madeAt, List.getD_eq_getElem _ _ hlt]
  exact List.getElem_mem _

/-- A timer that has expired is due in the tick the handler runs in. -/
theorem Running.due {prev current : Option Nat} (hr : Running s prev current) (h : Inv s) (hx : x ∈ s.list)
    (he : x.expireTick ≤ s.tick) : dueAt s x.id = s.tick := by
  have hexp := h.expire x hx
  refine Nat.le_antisymm ?_ (hr.late x hx)
  rw [dueAt, Made.due]
  split
  · rwa [← hexp]
  · next hin =>
    have hlt := hr.outside _ (h.madeAt_mem hx) (Bool.not_eq_true _ ▸ hin)
    rw [← hexp]
    exact Nat.max_le.mpr ⟨he, hlt⟩

/-- At the front of a sorted list: the first timer is due, or none is. -/
theorem front_of_sorted (tick : Nat) (h : l.Pairwise fun x y => x.expireTick ≤ y.expireTick) :
    (∀ x ∈ l, tick < x.expireTick) ∨ ∃ x, l.head? = some x ∧ l.head?.map Timer.id = some x.id ∧ x.expireTick ≤ tick := by
  cases l with
  | nil =>
    refine Or.inl fun x hx => ?_
    cases hx
  | cons a l =>
    obtain ⟨ha, -⟩ := List.pairwise_cons.mp h
    rcases Nat.lt_or_ge tick a.expireTick with hlt | hge
    · refine Or.inl fun x hx => ?_
      rcases List.mem_cons.mp hx with rfl | hx
      · exact hlt
      · exact hlt.trans_le (ha x hx)
    · exact Or.inr ⟨a, rfl, rfl, hge⟩

theorem head_id_mem (h : c ∈ l.head?.map Timer.id) : ∃ x ∈ l, x.id = c := by
  obtain ⟨x, hx, rfl⟩ := Option.map_eq_some_iff.mp h
  exact ⟨x, List.mem_of_mem_head? hx, rfl⟩

/-! ## The handler -/

theorem turn_inv (h : Inv s) {prev current : Option Nat} (hr : Running s prev current) : Inv (turn s prev current) := by
  unfold turn
  cases current with
  | none =>
    dsimp only
    refine ⟨h.sorted, h.fate, h.time, h.expire, h.born, fun x hx => ?_⟩
    rcases hr.front with hall | ⟨-, y, -, hy, -⟩
    · calc s.tick < x.expireTick := hall x hx
        _ = _ := h.expire x hx
        _ ≤ dueAt s x.id := Made.le_due _
    · cases hy
  | some c =>
    dsimp only
    obtain ⟨y, hy, hyc⟩ := hr.here c rfl
    cases hf : s.list.find? (·.id = c) with
    | none => exact absurd (decide_eq_true hyc) (List.find?_eq_none.mp hf y hy)
    | some x =>
      have hxc : x.id = c := by simpa using List.find?_some hf
      have hx := List.mem_of_find?_eq_some hf
      dsimp only
      split
      · next hdue =>
        -- it is the first of the list
        rcases hr.front with hall | ⟨rfl, z, hz, hzc, -⟩
        · exact absurd hdue (Nat.not_le.mpr (hall x hx))
        obtain ⟨l, hl⟩ := List.head?_eq_some_iff.mp hz
        obtain rfl := Option.some.inj hzc
        rw [hl, find?_head] at hf
        cases hf
        have hb : behind x.id s.list = l := by rw [hl, behind_head]
        have hsorted : l.Pairwise fun x y => x.expireTick ≤ y.expireTick := (hl ▸ h.sorted).of_cons
        have hsub : ∀ y ∈ l, y ∈ s.list := fun y hy => hl ▸ List.mem_cons_of_mem _ hy
        rw [unlink, hb]
        refine ⟨hsorted, ?_, fun w hw => ?_, fun y hy => h.expire y (hsub y hy), h.born, ?_⟩
        · have hp := h.fate
          rw [hl, List.map_cons] at hp
          refine List.Perm.trans ?_ hp
          rw [List.map_append, List.append_assoc, List.append_assoc, List.append_assoc]
          refine List.Perm.append_left _ ?_
          exact (List.perm_middle : (s.deleted ++ x.id :: l.map Timer.id).Perm (x.id :: (s.deleted ++ l.map Timer.id))).symm
        · rcases List.mem_append.mp hw with hw | hw
          · exact h.time w hw
          · cases List.mem_singleton.mp hw
            exact (hr.due h hx hdue).symm
        · refine ⟨fun y hy => hr.late y (hsub y hy), fun c hc => head_id_mem hc, ?_, hr.outside⟩
          exact (front_of_sorted s.tick hsorted).imp_right fun hz => ⟨rfl, hz⟩
      · next hdue =>
        refine ⟨h.sorted, h.fate, h.time, h.expire, h.born, ?_⟩
        refine ⟨hr.late, fun c' hc => ?_, Or.inl ?_, hr.outside⟩
        · obtain ⟨y, hy, hyc⟩ := head_id_mem hc
          exact ⟨y, (behind_sublist c _).subset hy, hyc⟩
        · rcases hr.front with hall | ⟨-, z, hz, hzc, hle⟩
          · exact hall
          · -- the first one is this one, which is not due
            obtain ⟨l, hl⟩ := List.head?_eq_some_iff.mp hz
            obtain rfl := Option.some.inj hzc
            rw [hl, find?_head] at hf
            cases hf
            exact absurd hle hdue

/-! ## Adding and deleting -/

theorem exists_of_nextDue (h : nextDue s = true) : ∃ x ∈ s.list, x.expireTick ≤ s.tick := by
  obtain ⟨c, -, hc⟩ := (Option.any_eq_true ..).mp h
  obtain ⟨x, hx, hp⟩ := List.any_eq_true.mp hc
  exact ⟨x, hx, (of_decide_eq_true hp).2⟩

/-- What the calls that are made while nothing holds the lock keep. -/
theorem open?_cases {b : Bool} (h : s.handler.open? = some b) :
    s.handler = .idle ∧ b = false ∨ ∃ prev current, s.handler = .callback prev current ∧ b = true := by
  cases hh : s.handler with
  | idle =>
    rw [hh] at h
    cases h
    exact Or.inl ⟨rfl, rfl⟩
  | callback prev current =>
    rw [hh] at h
    cases h
    exact Or.inr ⟨_, _, rfl, rfl⟩
  | loop prev current =>
    rw [hh] at h
    cases h
  | wild =>
    rw [hh] at h
    cases h

theorem add_inv (h : Inv s) {ms : Nat} (hok : Ok s (.add ms)) {b : Bool} (hb : s.handler.open? = some b) :
    Inv { s with list := insert ⟨s.made.length, expireTick s.tick ms⟩ s.list, made := s.made ++ [⟨s.tick, ms, b⟩] } := by
  obtain ⟨h1, h2, h3⟩ := hok
  rw [expireTick_eq h1 h2]
  generalize hs' : ({ s with list := insert ⟨s.made.length, s.tick + ms⟩ s.list, made := s.made ++ [⟨s.tick, ms, b⟩] } : State) = s'
  have hlist : s'.list = insert ⟨s.made.length, s.tick + ms⟩ s.list := by rw [← hs']
  have hmade : s'.made = s.made ++ [⟨s.tick, ms, b⟩] := by rw [← hs']
  have htick : s'.tick = s.tick := by rw [← hs']
  have hfired : s'.fired = s.fired := by rw [← hs']
  have hdel : s'.deleted = s.deleted := by rw [← hs']
  have hhand : s'.handler = s.handler := by rw [← hs']
  have hperm := insert_perm ⟨s.made.length, s.tick + ms⟩ s.list
  have hmem : ∀ x ∈ s'.list, x = ⟨s.made.length, s.tick + ms⟩ ∨ x ∈ s.list := by
    intro x hx
    rw [hlist] at hx
    exact List.mem_cons.mp (hperm.mem_iff.mp hx)
  -- the old timers, and the new one
  have hold : ∀ i, i < s.made.length → madeAt s' i = madeAt s i := by
    intro i hi
    rw [madeAt, madeAt, hmade, List.getD_append _ _ _ _ hi]
  have hnew : madeAt s' s.made.length = ⟨s.tick, ms, b⟩ := by
    rw [madeAt, hmade, List.getD_append_right _ _ _ _ (Nat.le_refl _), Nat.sub_self]
    rfl
  have hltl : ∀ x ∈ s.list, x.id < s.made.length := fun x hx => h.lt (List.mem_append_right _ (List.mem_map_of_mem hx))
  have hltf : ∀ x ∈ s.fired, x.1 < s.made.length := fun x hx =>
    h.lt (List.mem_append_left _ (List.mem_append_left _ (List.mem_map_of_mem hx)))
  have hdue : ∀ i, i < s.made.length → dueAt s' i = dueAt s i := fun i hi => congrArg Made.due (hold i hi)
  have hborn : ∀ m ∈ s'.made, m ∈ s.made ∨ m = ⟨s.tick, ms, b⟩ := by
    intro m hm
    rw [hmade] at hm
    exact (List.mem_append.mp hm).imp_right List.mem_singleton.mp
  refine ⟨hlist ▸ insert_sorted h.sorted, ?_, fun x hx => ?_, fun x hx => ?_, fun m hm => ?_, ?_⟩
  · have hids := hperm.map Timer.id
    rw [hfired, hdel, hlist, hmade, List.length_append, List.length_singleton, List.range_succ]
    have hfront := (hids.append_left (s.fired.map Prod.fst ++ s.deleted)).trans List.perm_middle
    exact hfront.trans ((h.fate.cons _).trans (List.perm_append_singleton _ _).symm)
  · rw [hfired] at hx
    rw [hdue _ (hltf x hx)]
    exact h.time x hx
  · rcases hmem x hx with rfl | hx
    · rw [hnew]
    · rw [hold _ (hltl x hx)]
      exact h.expire x hx
  · rw [htick]
    rcases hborn m hm with hm | rfl
    · exact h.born m hm
    · exact Nat.le_refl _
  · have hh := h.handler
    rw [hhand]
    rcases open?_cases hb with ⟨hi, rfl⟩ | ⟨prev, current, hc, rfl⟩
    · rw [hi] at hh ⊢
      intro x hx
      rw [htick]
      rcases hmem x hx with rfl | hx
      · rw [dueAt, hnew]
        exact Nat.lt_of_lt_of_le (Nat.lt_succ_self _) (Nat.le_max_right ..)
      · rw [hdue _ (hltl x hx)]
        exact hh x hx
    · rw [hc] at hh ⊢
      have hr : Running s prev current := hh
      refine ⟨fun x hx => ?_, fun c hcur => ?_, ?_, fun m hm hin => ?_⟩
      · rw [htick]
        rcases hmem x hx with rfl | hx
        · rw [dueAt, hnew]
          exact Nat.le_add_right ..
        · rw [hdue _ (hltl x hx)]
          exact hr.late x hx
      · obtain ⟨x, hx, he⟩ := hr.here c hcur
        exact ⟨x, hlist ▸ hperm.mem_iff.mpr (List.mem_cons_of_mem _ hx), he⟩
      · rw [htick]
        rcases hr.front with hall | ⟨hp, x, hx, hcur, hle⟩
        · refine Or.inl fun x hx => ?_
          rcases hmem x hx with rfl | hx
          · -- no timer is due, so this one has a delay
            have hms : ms ≠ 0 := fun h0 => by
              obtain ⟨y, hy, hle⟩ := exists_of_nextDue (h3 hb h0)
              exact absurd hle (Nat.not_le.mpr (hall y hy))
            exact Nat.lt_add_of_pos_right (Nat.pos_of_ne_zero hms)
          · exact hall x hx
        · obtain ⟨l, hl⟩ := List.head?_eq_some_iff.mp hx
          refine Or.inr ⟨hp, x, ?_, hcur, hle⟩
          rw [hlist, hl]
          exact head_insert (hle.trans (Nat.le_add_right ..))
      · rw [htick]
        rcases hborn m hm with hm | rfl
        · exact hr.outside m hm hin
        · cases hin

theorem del_inv (h : Inv s) (hok : Ok s (.del i)) {b : Bool} (hb : s.handler.open? = some b) (hi : s.list.any (·.id = i) = true) :
    Inv { s with list := s.list.eraseP (·.id = i), deleted := s.deleted ++ [i] } := by
  obtain ⟨a, ha, hai⟩ := List.any_eq_true.mp hi
  obtain ⟨x, l1, l2, h1, hx, hl, he⟩ := List.exists_of_eraseP (p := fun x : Timer => decide (x.id = i)) ha hai
  obtain rfl : x.id = i := of_decide_eq_true hx
  rw [he]
  have hsub : ∀ y ∈ l1 ++ l2, y ∈ s.list := by
    intro y hy
    rw [hl]
    rcases List.mem_append.mp hy with hy | hy
    · exact List.mem_append_left _ hy
    · exact List.mem_append_right _ (List.mem_cons_of_mem _ hy)
  have hkeep : ∀ y ∈ s.list, y.id ≠ x.id → y ∈ l1 ++ l2 := by
    intro y hy hne
    rw [hl] at hy
    rcases List.mem_append.mp hy with hy | hy
    · exact List.mem_append_left _ hy
    · rcases List.mem_cons.mp hy with rfl | hy
      · exact absurd rfl hne
      · exact List.mem_append_right _ hy
  refine ⟨?_, ?_, h.time, fun y hy => h.expire y (hsub y hy), h.born, ?_⟩
  · have hs := h.sorted
    rw [hl] at hs
    exact hs.sublist (List.Sublist.append_left (List.sublist_cons_self ..) _)
  · have hp := h.fate
    rw [hl, List.map_append, List.map_cons] at hp
    refine List.Perm.trans ?_ hp
    show (s.fired.map Prod.fst ++ (s.deleted ++ [x.id]) ++ (l1 ++ l2).map Timer.id).Perm _
    rw [← List.append_assoc (s.fired.map Prod.fst), List.append_assoc (s.fired.map Prod.fst ++ s.deleted), List.map_append]
    refine List.Perm.append_left _ ?_
    show (x.id :: (l1.map Timer.id ++ l2.map Timer.id)).Perm _
    exact List.perm_middle.symm
  · have hh := h.handler
    rcases open?_cases hb with ⟨hidle, -⟩ | ⟨prev, current, hc, -⟩
    · dsimp only
      rw [hidle] at hh ⊢
      exact fun y hy => hh y (hsub y hy)
    · have hcur : current ≠ some x.id := by
        rw [Ok, hc] at hok
        exact hok
      dsimp only
      rw [hc] at hh ⊢
      have hr : Running s prev current := hh
      refine ⟨fun y hy => hr.late y (hsub y hy), fun c hm => ?_, ?_, hr.outside⟩
      · obtain ⟨y, hy, rfl⟩ := hr.here c hm
        exact ⟨y, hkeep y hy fun e => hcur (e ▸ hm), rfl⟩
      · rcases hr.front with hall | ⟨hp, z, hz, hzc, hle⟩
        · exact Or.inl fun y hy => hall y (hsub y hy)
        · refine Or.inr ⟨hp, z, ?_, hzc, hle⟩
          rw [hl] at hz
          cases l1 with
          | nil =>
            cases hz
            exact absurd hzc hcur
          | cons w l1 => exact hz

theorem Inv.step (h : Inv s) (hok : Ok s e) (hs : step s e = some s') : Inv s' := by
  have hh := h.handler
  cases e with
  | add ms =>
    obtain ⟨b, hb, rfl⟩ := Option.map_eq_some_iff.mp hs
    exact add_inv h hok hb
  | del i =>
    obtain ⟨b, hb, rfl⟩ := Option.map_eq_some_iff.mp hs
    split
    · next hi => exact del_inv h hok hb hi
    · exact h
  | tick =>
    obtain ⟨hidle, he⟩ := Option.ite_none_right_eq_some.mp hs
    cases he
    rw [hidle] at hh
    have htick : (s.tick + 1) % 2 ^ 64 = s.tick + 1 := Nat.mod_eq_of_lt hok
    rw [htick]
    refine ⟨h.sorted, h.fate, h.time, h.expire, fun m hm => (h.born m hm).trans (Nat.le_succ _), ?_⟩
    refine ⟨fun x hx => hh x hx, fun c hc => head_id_mem hc, ?_, fun m hm _ => Nat.lt_succ_of_le (h.born m hm)⟩
    exact (front_of_sorted (s.tick + 1) h.sorted).imp_right fun hz => ⟨rfl, hz⟩
  | go =>
    rw [Timers.step] at hs
    split at hs
    · next prev current hc =>
      cases hs
      rw [hc] at hh
      exact turn_inv h hh
    · cases hs
  | ret =>
    rw [Timers.step] at hs
    split at hs
    · next prev current hc =>
      cases hs
      rw [hc] at hh
      exact ⟨h.sorted, h.fate, h.time, h.expire, h.born, ⟨hh.late, hh.here, hh.front, hh.outside⟩⟩
    · cases hs

/-- In every run whose calls meet the condition the timers do what they are for. -/
theorem timers_fire_once (h : Reach step Ok (· = init) s) : Law s := by
  refine Inv.law (h.rule (P := Inv) (fun s h => ?_) fun _ _ _ hi hok hs => hi.step hok hs)
  rw [h]
  exact inv_init

/-! ## Runs -/

/-- A callback that adds a timer, and a timer that is deleted. -/
def addInside : List Act := [.add 1, .add 2, .tick, .go, .add 1, .ret, .go, .go, .go, .del 1, .tick, .go]

theorem init_start : ∀ s, some init = some s → s = init := fun _ hs => (Option.some.inj hs).symm

theorem timers_fire_once_addInside : ∃ s, Law s ∧ s.fired = [(0, 1), (2, 2)] ∧ s.deleted = [1] := by
  obtain ⟨s, hs, -, hd⟩ := exists_run step Ok addInside (o := some init)
    (fun s : State => decide (s.fired = [(0, 1), (2, 2)] ∧ s.deleted = [1])) init_start
    (by decide) (by decide)
  exact ⟨s, timers_fire_once hs, of_decide_eq_true hd⟩

/-- A delay of 4294968 milliseconds is a product of 704 in 32 bits. -/
def longDelay : List Act := [.add 4294968, .tick, .go]

theorem long_delay_fires_early : ¬ ∀ s, Reach step (fun _ _ => True) (· = init) s → Law s := by
  intro h
  obtain ⟨s, hs, -, hd⟩ := exists_run step (fun _ _ => True) longDelay (o := some init)
    (fun s : State => decide (s.fired = [(0, 1)] ∧ dueAt s 0 = 4294968))
    init_start (by decide) (by decide)
  obtain ⟨hf, hdue⟩ := of_decide_eq_true hd
  have ht := (h s hs).time (0, 1) (hf ▸ List.mem_singleton_self _)
  rw [hdue] at ht
  cases ht

end Myos.Driver.Timers
