/-
  Myos.Sched.Inheritance — priority inheritance through semaphores
  (`rust/src/sync/semaphore.rs`).

  The machine of `Myos.Sched.Machine` is watched: the priority each task was created with,
  who holds which semaphore (from the `down` or `try_down` that took it until the holder's
  `up`), and whom a blocked `down` found as owner. `original_prio` is one saved value for all
  semaphores a task holds.

  Proved: while no boost is of a task that is boosted already or waits for a lower one, and no
  `up` takes back a boost that another waiting task still needs, a task that holds nothing has
  its own priority, and a holder has at least that of everyone who waits for it.
-/

import Mathlib
import Myos.Sched.Priorities

namespace Myos.Sched

/-- `found`: the tasks blocked in `down`, each with the owner it found there. -/
structure Watched (Q S : Type*) where
  k : Kernel Q S
  base : Pid → Prio
  holds : List (Pid × S)
  found : List (Pid × Pid)

namespace Watched

open Kernel

variable {Q S : Type*} {w w' : Watched Q S} {p o : Pid}

def Holding (l : List (Pid × S)) (p : Pid) : Prop := ∃ h ∈ l, h.1 = p

/-- The waiter that `up` takes off the queue. -/
def firstWaiter [DecidableEq S] (w : Watched Q S) (s : S) : Option Pid := (w.k.semq.find? fun e => e.1 = s).map Prod.snd

def holdsAfter [DecidableEq S] (w : Watched Q S) : Event Q S → List (Pid × S)
  | .run _ =>
    match w.k.frames with
    | .down s :: _ => if 0 < w.k.count s then (w.k.current, s) :: w.holds else w.holds
    | _ => w.holds
  | .call (.tryDown s) => if 0 < w.k.count s then (w.k.current, s) :: w.holds else w.holds
  | .call (.up s) => w.holds.erase (w.k.current, s)
  | _ => w.holds

def foundAfter [DecidableEq S] (w : Watched Q S) : Event Q S → List (Pid × Pid)
  | .run _ =>
    match w.k.frames with
    | .down s :: _ =>
      w.found.filter (fun e => e.1 ≠ w.k.current) ++
        if 0 < w.k.count s then [] else (w.k.ownerOf s).toList.map fun o => (w.k.current, o)
    | _ => w.found
  | .call (.up s) => w.found.filter fun e => w.firstWaiter s ≠ some e.1
  | _ => w.found

def step [DecidableEq Q] [DecidableEq S] (w : Watched Q S) (e : Event Q S) : Option (Watched Q S) :=
  (w.k.step e).map fun k =>
    { k := k
      base := fun p => if p < w.k.nextPid then w.base p else (k.task p).prio
      holds := w.holdsAfter e
      found := w.foundAfter e }

def Boot (w : Watched Q S) : Prop :=
  w.k.Boot ∧ (∀ p, w.base p = (w.k.task p).prio) ∧ w.holds = [] ∧ w.found = []

/-- A task that holds nothing has the priority it was created with, one that holds a semaphore
    at least that of each blocked task that found it as owner. -/
structure Undone (w : Watched Q S) : Prop where
  restored : ∀ p < w.k.nextPid, (∀ s, (p, s) ∉ w.holds) → (w.k.task p).prio = w.base p
  inherits : ∀ e ∈ w.found, (∃ s, (e.2, s) ∈ w.holds) → (w.k.task e.1).prio ≤ (w.k.task e.2).prio

/-- A blocked task of higher priority found `p` as owner. -/
def Outranked (w : Watched Q S) (p : Pid) : Prop := ∃ e ∈ w.found, e.2 = p ∧ (w.k.task p).prio < (w.k.task e.1).prio

/-- `down` raises the priority of `o`, which has its original one and waits for no holder of a
    lower priority than that of the current task. -/
def Raisable (w : Watched Q S) (o : Pid) : Prop :=
  (w.k.task o).prio = (w.k.task o).originalPrio ∧
    ∀ e ∈ w.found, e.1 = o → e.2 ≠ o → Holding w.holds e.2 → (w.k.task w.k.current).prio ≤ (w.k.task e.2).prio

/-- `up` takes back what `o` was raised by, and nobody else who found `o` and still waits is
    above its original priority, if `o` goes on holding a semaphore. -/
def Returnable [DecidableEq S] (w : Watched Q S) (s : S) (o : Pid) : Prop :=
  Holding (w.holds.erase (w.k.current, s)) o →
    ∀ e ∈ w.found, e.2 = o → e.1 ≠ o → w.firstWaiter s ≠ some e.1 → (w.k.task e.1).prio ≤ (w.k.task o).originalPrio

/-- Nobody takes a semaphore who is outranked, and boosts are raised and taken back as above. -/
def Orderly [DecidableEq S] (w : Watched Q S) : Event Q S → Prop
  | .run _ =>
    match w.k.frames with
    | .down s :: _ =>
      if 0 < w.k.count s then ¬ w.Outranked w.k.current
      else ∀ o ∈ w.k.ownerOf s, (w.k.task o).prio < (w.k.task w.k.current).prio → w.Raisable o
    | _ => True
  | .call (.tryDown s) => 0 < w.k.count s → ¬ w.Outranked w.k.current
  | .call (.up s) => ∀ o ∈ w.k.ownerOf s, (w.k.task o).prio ≠ (w.k.task o).originalPrio → w.Returnable s o
  | _ => True

/-! ## The owners -/

/-- In a list with one entry a key, that of the key goes. -/
theorem mem_eraseP_key {α β : Type*} [DecidableEq α] {l : List (α × β)} (h : (l.map Prod.fst).Nodup) (a : α) (e : α × β) :
    e ∈ (l.eraseP fun e => e.1 = a) ↔ e ∈ l ∧ e.1 ≠ a := by
  induction l with
  | nil => simp
  | cons x l ih =>
    rw [List.map_cons, List.nodup_cons] at h
    by_cases hx : x.1 = a
    · rw [List.eraseP_cons_of_pos (by simpa using hx)]
      constructor
      · intro he
        exact ⟨List.mem_cons_of_mem _ he, fun e1 => h.1 (hx.trans e1.symm ▸ List.mem_map_of_mem he)⟩
      · intro ⟨he, hne⟩
        rcases List.mem_cons.mp he with rfl | he
        · exact absurd hx hne
        · exact he
    · rw [List.eraseP_cons_of_neg (by simpa using hx), List.mem_cons, ih h.2, List.mem_cons]
      constructor
      · intro he
        rcases he with rfl | ⟨he, hne⟩
        · exact ⟨Or.inl rfl, hx⟩
        · exact ⟨Or.inr he, hne⟩
      · intro ⟨he, hne⟩
        exact he.imp_right fun he => ⟨he, hne⟩

/-- The entries of `owner` name a holder each, one a semaphore; who has not its own priority is
    in one of a semaphore that is taken. -/
structure Lent (w : Watched Q S) : Prop where
  known : w.k.Known
  holders : ∀ h ∈ w.holds, h.1 < w.k.nextPid
  finders : ∀ e ∈ w.found, e.1 < w.k.nextPid ∧ e.2 < w.k.nextPid
  single : (w.k.owner.map Prod.fst).Nodup
  owners : ∀ e ∈ w.k.owner, (e.2, e.1) ∈ w.holds
  original : ∀ p < w.k.nextPid, (w.k.task p).originalPrio = w.base p
  raised : ∀ p < w.k.nextPid, w.base p ≤ (w.k.task p).prio
  lent : ∀ p < w.k.nextPid, (w.k.task p).prio ≠ w.base p → ∃ s, (s, p) ∈ w.k.owner ∧ w.k.count s ≤ 0
  inherits : ∀ e ∈ w.found, Holding w.holds e.2 → (w.k.task e.1).prio ≤ (w.k.task e.2).prio

theorem Lent.undone (h : w.Lent) : w.Undone := by
  constructor
  · intro p hp hno
    by_contra hne
    obtain ⟨s, hs, -⟩ := h.lent p hp hne
    exact hno s (h.owners _ hs)
  · intro e he hh
    obtain ⟨s, hs⟩ := hh
    exact h.inherits e he ⟨_, hs, rfl⟩

theorem owner_mem [DecidableEq S] {k : Kernel Q S} {s : S} (h : k.ownerOf s = some o) : (s, o) ∈ k.owner := by
  obtain ⟨e, he, rfl⟩ := Option.map_eq_some_iff.mp h
  have hs := List.find?_some he
  rw [decide_eq_true_eq] at hs
  rw [← hs]
  exact List.mem_of_find?_eq_some he

theorem Lent.ownerOf [DecidableEq S] (h : w.Lent) {s : S} (hm : (s, o) ∈ w.k.owner) : w.k.ownerOf s = some o := by
  have hsome : (w.k.ownerOf s).isSome = true := by
    rw [Kernel.ownerOf, Option.isSome_map, List.find?_isSome]
    exact ⟨_, hm, decide_eq_true rfl⟩
  obtain ⟨o', ho⟩ := Option.isSome_iff_exists.mp hsome
  have heq := List.inj_on_of_nodup_map h.single hm (owner_mem ho) rfl
  rw [ho, (Prod.mk.injEq ..).mp heq |>.2]

/-! ## The steps -/

/-- A step that uses no semaphore and creates nobody. -/
theorem Lent.files (h : w.Lent) (hf : w.k.Files w'.k) (hb : ∀ p < w.k.nextPid, w'.base p = w.base p) (hh : w'.holds = w.holds)
    (hd : w'.found = w.found) : w'.Lent := by
  refine ⟨h.known.files hf, ?_, ?_, ?_, ?_, fun p hp => ?_, fun p hp => ?_, fun p hp hne => ?_, fun e he hhold => ?_⟩
  · rw [hf.nextPid, hh]; exact h.holders
  · rw [hf.nextPid, hd]; exact h.finders
  · rw [hf.owner]; exact h.single
  · rw [hf.owner, hh]; exact h.owners
  · rw [hf.nextPid] at hp
    rw [(hf.prio p).2, hb p hp]
    exact h.original p hp
  · rw [hf.nextPid] at hp
    rw [(hf.prio p).1, hb p hp]
    exact h.raised p hp
  · rw [hf.nextPid] at hp
    rw [(hf.prio p).1, hb p hp] at hne
    rw [hf.owner, hf.count]
    exact h.lent p hp hne
  · rw [hd] at he
    rw [hh] at hhold
    rw [(hf.prio e.1).1, (hf.prio e.2).1]
    exact h.inherits e he hhold

/-- A new task has its own priority and holds nothing. -/
theorem Lent.create (h : w.Lent) {t : Task} (ht : t.originalPrio = t.prio) (hk : w'.k = w.k.create t)
    (hb : ∀ p, w'.base p = if p < w.k.nextPid then w.base p else (w'.k.task p).prio) (hh : w'.holds = w.holds)
    (hd : w'.found = w.found) : w'.Lent := by
  have hn : w'.k.nextPid = w.k.nextPid + 1 := by rw [hk]; rfl
  have ho : w'.k.owner = w.k.owner := by rw [hk]; rfl
  have hold : ∀ p < w.k.nextPid, w'.k.task p = w.k.task p := fun p hp => by rw [hk, create_task, if_neg (Nat.ne_of_lt hp)]
  have hnew : (w'.k.task w.k.nextPid).originalPrio = (w'.k.task w.k.nextPid).prio := by
    rw [hk, create_task, if_pos rfl]
    exact ht
  have hcases : ∀ p < w'.k.nextPid, p < w.k.nextPid ∨ p = w.k.nextPid := by
    intro p hp
    rw [hn] at hp
    exact Nat.lt_succ_iff_lt_or_eq.mp hp
  refine ⟨?_, ?_, fun e he => ?_, ?_, ?_, fun p hp => ?_, fun p hp => ?_, fun p hp hne => ?_, fun e he hhold => ?_⟩
  · rw [hk]
    exact h.known.create t
  · rw [hn, hh]
    exact fun x hx => Nat.lt_succ_of_lt (h.holders x hx)
  · rw [hd] at he
    rw [hn]
    exact ⟨Nat.lt_succ_of_lt (h.finders e he).1, Nat.lt_succ_of_lt (h.finders e he).2⟩
  · rw [ho]; exact h.single
  · rw [ho, hh]; exact h.owners
  · rw [hb]
    rcases hcases p hp with hp | rfl
    · rw [if_pos hp, hold p hp]
      exact h.original p hp
    · rw [if_neg (Nat.lt_irrefl _)]
      exact hnew
  · rw [hb]
    rcases hcases p hp with hp | rfl
    · rw [if_pos hp, hold p hp]
      exact h.raised p hp
    · rw [if_neg (Nat.lt_irrefl _)]
  · rw [hb] at hne
    rcases hcases p hp with hp | rfl
    · rw [if_pos hp, hold p hp] at hne
      obtain ⟨s, hs, hc⟩ := h.lent p hp hne
      refine ⟨s, ho ▸ hs, ?_⟩
      rw [hk]
      exact hc
    · rw [if_neg (Nat.lt_irrefl _)] at hne
      exact absurd rfl hne
  · rw [hd] at he
    rw [hh] at hhold
    rw [hold _ (h.finders e he).1, hold _ (h.finders e he).2]
    exact h.inherits e he hhold

/-- `down` or `try_down` took the semaphore. -/
theorem Lent.take [DecidableEq S] (h : w.Lent) {s : S} (hs : 0 < w.k.count s) (ho : ¬ w.Outranked w.k.current) (hk : w'.k.Known)
    (hn : w'.k.nextPid = w.k.nextPid) (hp : ∀ p, (w'.k.task p).prio = (w.k.task p).prio)
    (hq : ∀ p, (w'.k.task p).originalPrio = (w.k.task p).originalPrio) (hb : ∀ p < w.k.nextPid, w'.base p = w.base p)
    (hh : w'.holds = (w.k.current, s) :: w.holds) (hd : ∀ e ∈ w'.found, e ∈ w.found)
    (hc : w'.k.count = Function.update w.k.count s (w.k.count s - 1))
    (how : w'.k.owner = w.k.owner ∨ w'.k.owner = (s, w.k.current) :: w.k.owner.eraseP fun e => e.1 = s) : w'.Lent := by
  have hcur : w.k.current < w.k.nextPid := h.known _ (Kernel.mentions_current _)
  have hcount : ∀ s1, w.k.count s1 ≤ 0 → w'.k.count s1 ≤ 0 ∧ s1 ≠ s := by
    intro s1 h1
    have hne : s1 ≠ s := fun e => absurd hs (not_lt.mpr (e ▸ h1))
    rw [hc, Function.update_of_ne hne]
    exact ⟨h1, hne⟩
  refine ⟨hk, ?_, ?_, ?_, ?_, fun p hlt => ?_, fun p hlt => ?_, fun p hlt hne => ?_, fun e he hhold => ?_⟩
  · rw [hh, hn]
    intro x hx
    rcases List.mem_cons.mp hx with rfl | hx
    · exact hcur
    · exact h.holders x hx
  · rw [hn]
    exact fun e he => h.finders e (hd e he)
  · rcases how with how | how <;> rw [how]
    · exact h.single
    · rw [List.map_cons, List.nodup_cons]
      refine ⟨fun hm => ?_, (List.eraseP_sublist.map _).nodup h.single⟩
      obtain ⟨e, he, hes⟩ := List.mem_map.mp hm
      exact ((mem_eraseP_key h.single s e).mp he).2 hes
  · rw [hh]
    intro e he
    rcases how with how | how <;> rw [how] at he
    · exact List.mem_cons_of_mem _ (h.owners e he)
    · rcases List.mem_cons.mp he with rfl | he
      · exact List.mem_cons_self
      · exact List.mem_cons_of_mem _ (h.owners e (List.mem_of_mem_eraseP he))
  · rw [hn] at hlt
    rw [hq, hb p hlt]
    exact h.original p hlt
  · rw [hn] at hlt
    rw [hp, hb p hlt]
    exact h.raised p hlt
  · rw [hn] at hlt
    rw [hp, hb p hlt] at hne
    obtain ⟨s1, hs1, h1⟩ := h.lent p hlt hne
    obtain ⟨hc1, hne1⟩ := hcount s1 h1
    refine ⟨s1, ?_, hc1⟩
    rcases how with how | how <;> rw [how]
    · exact hs1
    · exact List.mem_cons_of_mem _ ((mem_eraseP_key h.single s _).mpr ⟨hs1, hne1⟩)
  · rw [hp, hp]
    obtain ⟨x, hx, hx2⟩ := hhold
    rw [hh] at hx
    rcases List.mem_cons.mp hx with rfl | hx
    · -- who takes the semaphore outranks everybody who found it
      by_contra hlt
      rw [← hx2] at hlt
      exact ho ⟨e, hd e he, hx2.symm, not_le.mp hlt⟩
    · exact h.inherits e (hd e he) ⟨x, hx, hx2⟩

/-- `down` blocks and raises the owner. -/
theorem Lent.block [DecidableEq S] (h : w.Lent) {s : S} (hs : w.k.count s ≤ 0)
    (ho : ∀ o ∈ w.k.ownerOf s, (w.k.task o).prio < (w.k.task w.k.current).prio → w.Raisable o) (hk : w'.k.Known)
    (hn : w'.k.nextPid = w.k.nextPid)
    (hp : ∀ u, (w'.k.task u).prio = if w.k.ownerOf s = some u ∧ (w.k.task u).prio < (w.k.task w.k.current).prio then
      (w.k.task w.k.current).prio else (w.k.task u).prio)
    (hq : ∀ u, (w'.k.task u).originalPrio = if w.k.ownerOf s = some u ∧ (w.k.task u).prio < (w.k.task w.k.current).prio then
      (w.k.task u).prio else (w.k.task u).originalPrio)
    (hb : ∀ p < w.k.nextPid, w'.base p = w.base p) (hh : w'.holds = w.holds) (hc : w'.k.count = w.k.count)
    (how : w'.k.owner = w.k.owner)
    (hd : w'.found = w.found.filter (fun e => e.1 ≠ w.k.current) ++ (w.k.ownerOf s).toList.map fun o => (w.k.current, o)) : w'.Lent := by
  have hcur : w.k.current < w.k.nextPid := h.known _ (Kernel.mentions_current _)
  have hge : ∀ u, (w.k.task u).prio ≤ (w'.k.task u).prio := by
    intro u
    rw [hp]
    split
    · next hb => exact le_of_lt hb.2
    · exact le_refl _
  refine ⟨hk, ?_, fun e he => ?_, ?_, ?_, fun p hlt => ?_, fun p hlt => ?_, fun p hlt hne => ?_, fun e he hhold => ?_⟩
  · rw [hh, hn]
    exact h.holders
  · rw [hn]
    rw [hd] at he
    rcases List.mem_append.mp he with he | he
    · exact h.finders e (List.mem_of_mem_filter he)
    · obtain ⟨o, hm, rfl⟩ := List.mem_map.mp he
      exact ⟨hcur, h.holders _ (h.owners _ (owner_mem (Option.mem_toList.mp hm)))⟩
  · rw [how]
    exact h.single
  · rw [how, hh]
    exact h.owners
  · rw [hn] at hlt
    rw [hq, hb p hlt]
    split
    · next hr => exact (ho p hr.1 hr.2).1.trans (h.original p hlt)
    · exact h.original p hlt
  · rw [hn] at hlt
    rw [hb p hlt]
    exact (h.raised p hlt).trans (hge p)
  · rw [hn] at hlt
    rw [hb p hlt] at hne
    rw [how, hc]
    by_cases hr : w.k.ownerOf s = some p ∧ (w.k.task p).prio < (w.k.task w.k.current).prio
    · exact ⟨s, owner_mem hr.1, hs⟩
    · rw [hp, if_neg hr] at hne
      exact h.lent p hlt hne
  · rw [hh] at hhold
    rw [hd] at he
    rcases List.mem_append.mp he with he | he
    · have he := List.mem_of_mem_filter he
      have hle := h.inherits e he hhold
      rw [hp e.1]
      split
      · next hr =>
        by_cases hself : e.2 = e.1
        · rw [hself, hp, if_pos hr]
        · exact ((ho e.1 hr.1 hr.2).2 e he rfl hself hhold).trans (hge e.2)
      · exact hle.trans (hge e.2)
    · obtain ⟨o, hm, rfl⟩ := List.mem_map.mp he
      have hown : w.k.ownerOf s = some o := Option.mem_toList.mp hm
      -- the caller has its own priority still, or found itself
      by_cases hself : w.k.current = o
      · rw [hself]
      · have hcp : (w'.k.task w.k.current).prio = (w.k.task w.k.current).prio := by
          rw [hp, if_neg fun hr => hself (Option.some.inj (hown.symm.trans hr.1)).symm]
        rw [hcp, hp]
        split
        · exact le_refl _
        · next hr => exact not_lt.mp fun hlt => hr ⟨hown, hlt⟩

/-- `up` takes the boost back. -/
theorem Lent.give [DecidableEq S] (h : w.Lent) {s : S}
    (ho : ∀ o ∈ w.k.ownerOf s, (w.k.task o).prio ≠ (w.k.task o).originalPrio → w.Returnable s o) (hk : w'.k.Known)
    (hn : w'.k.nextPid = w.k.nextPid)
    (hp : ∀ u, (w'.k.task u).prio = if w.k.ownerOf s = some u then (w.k.task u).originalPrio else (w.k.task u).prio)
    (hq : ∀ u, (w'.k.task u).originalPrio = (w.k.task u).originalPrio) (hb : ∀ p < w.k.nextPid, w'.base p = w.base p)
    (hh : w'.holds = w.holds.erase (w.k.current, s)) (hc : w'.k.count = Function.update w.k.count s (w.k.count s + 1))
    (how : w'.k.owner = w.k.owner.eraseP fun e => e.1 = s)
    (hd : w'.found = w.found.filter fun e => w.firstWaiter s ≠ some e.1) : w'.Lent := by
  have hmem : ∀ e, e ∈ w'.k.owner ↔ e ∈ w.k.owner ∧ e.1 ≠ s := fun e => by rw [how]; exact mem_eraseP_key h.single s e
  have hle : ∀ u < w.k.nextPid, (w'.k.task u).prio ≤ (w.k.task u).prio := by
    intro u hu
    rw [hp]
    split
    · rw [h.original u hu]
      exact h.raised u hu
    · exact le_refl _
  refine ⟨hk, ?_, fun e he => ?_, ?_, fun e he => ?_, fun p hlt => ?_, fun p hlt => ?_, fun p hlt hne => ?_, fun e he hhold => ?_⟩
  · rw [hh, hn]
    exact fun x hx => h.holders x (List.mem_of_mem_erase hx)
  · rw [hd] at he
    rw [hn]
    exact h.finders e (List.mem_of_mem_filter he)
  · rw [how]
    exact (List.eraseP_sublist.map _).nodup h.single
  · obtain ⟨he, hne⟩ := (hmem e).mp he
    rw [hh]
    exact (List.mem_erase_of_ne fun heq => hne ((Prod.mk.injEq ..).mp heq).2).mpr (h.owners e he)
  · rw [hn] at hlt
    rw [hq, hb p hlt]
    exact h.original p hlt
  · rw [hn] at hlt
    rw [hp, hb p hlt]
    split
    · exact (h.original p hlt).ge
    · exact h.raised p hlt
  · rw [hn] at hlt
    rw [hb p hlt, hp] at hne
    split at hne
    · next hr => exact absurd (h.original p hlt) hne
    · next hr =>
      obtain ⟨s1, hs1, h1⟩ := h.lent p hlt hne
      have hs : s1 ≠ s := by
        intro hs
        subst hs
        exact hr (h.ownerOf hs1)
      refine ⟨s1, (hmem _).mpr ⟨hs1, hs⟩, ?_⟩
      rw [hc, Function.update_of_ne hs]
      exact h1
  · rw [hd] at he
    obtain ⟨he, hfirst⟩ := List.mem_filter.mp he
    have hfirst := of_decide_eq_true hfirst
    rw [hh] at hhold
    have hbefore : Holding w.holds e.2 := hhold.imp fun x hx => ⟨List.mem_of_mem_erase hx.1, hx.2⟩
    have hlow := (hle e.1 (h.finders e he).1).trans (h.inherits e he hbefore)
    by_cases hr : w.k.ownerOf s = some e.2 ∧ (w.k.task e.2).prio ≠ (w.k.task e.2).originalPrio
    · by_cases hself : e.1 = e.2
      · rw [hself]
      · have hlow := ho e.2 hr.1 hr.2 hhold e he rfl hself hfirst
        rw [hp e.2, if_pos hr.1]
        exact (hle e.1 (h.finders e he).1).trans hlow
    · have hsame : (w'.k.task e.2).prio = (w.k.task e.2).prio := by
        rw [hp]
        split
        · next hown => exact (not_not.mp fun hne => hr ⟨hown, hne⟩).symm
        · rfl
      rw [hsame]
      exact hlow

theorem Lent.step [DecidableEq Q] [DecidableEq S] (h : w.Lent) {e : Event Q S} (ho : w.Orderly e) (hs : step w e = some w') : w'.Lent := by
  obtain ⟨k', hk, rfl⟩ := Option.map_eq_some_iff.mp hs
  have hknown := h.known.step hk
  have hb : ∀ p < w.k.nextPid, (if p < w.k.nextPid then w.base p else (k'.task p).prio) = w.base p := fun p hp => if_pos hp
  by_cases hl : w.k.Lends e
  · cases e with
    | run b =>
      obtain ⟨s, fs, hf⟩ := hl
      simp only [Kernel.step, hf] at hk
      have hn := down_nextPid hk
      simp only [Orderly, hf] at ho
      simp only [Kernel.resume] at hk
      split at hk
      · cases hk
      · next k1 hd =>
        have hpos := downSection_pos hd
        obtain ⟨-, -, rfl⟩ := downSection_true hd
        cases hk
        rw [if_pos hpos] at ho
        exact h.take hpos ho hknown rfl (fun p => rfl) (fun p => rfl) hb (by simp only [holdsAfter, hf, if_pos hpos])
          (fun e he => by
            simp only [foundAfter, hf, if_pos hpos, List.append_nil] at he
            exact List.mem_of_mem_filter he) rfl (Or.inr rfl)
      · next k1 hd =>
        have hprio := downSection_prio hd
        obtain ⟨-, -, hle, task, rfl, -⟩ := downSection_false hd
        cases hk
        rw [if_neg (not_lt.mpr hle)] at ho
        exact h.block hle ho hknown rfl (fun u => (hprio u).1) (fun u => (hprio u).2) hb (by simp only [holdsAfter, hf, if_neg (not_lt.mpr hle)]) rfl rfl
          (by simp only [foundAfter, hf, if_neg (not_lt.mpr hle)])
    | call c =>
      simp only [Kernel.step] at hk
      split at hk
      · cases hk
        cases c with
        | up s =>
          obtain ⟨task, -, hu⟩ := upSection_eq w.k s
          have hprio := upSection_prio w.k s
          have hsem : (w.k.enter (.up s)).count = Function.update w.k.count s (w.k.count s + 1) ∧
              (w.k.enter (.up s)).owner = w.k.owner.eraseP fun e => e.1 = s := by
            simp only [Kernel.enter, hu]
            cases w.k.semq.find? fun e => e.1 = s <;> exact ⟨rfl, rfl⟩
          exact h.give ho hknown (up_nextPid w.k s) (fun u => by rw [up_task]; exact (hprio u).1)
            (fun u => by rw [up_task]; exact (hprio u).2) hb rfl hsem.1 hsem.2 rfl
        | tryDown s =>
          by_cases hpos : 0 < w.k.count s
          · refine h.take hpos (ho hpos) hknown ?_ ?_ ?_ hb (if_pos hpos) (fun e he => he) ?_ (Or.inl ?_) <;>
              simp only [Kernel.enter, tryDown_eq, if_pos hpos, implies_true]
          · have hid : w.k.enter (.tryDown s) = w.k := by simp only [Kernel.enter, tryDown, if_neg hpos]
            exact h.files (by rw [hid]; exact Files.refl w.k) hb (if_neg hpos) rfl
        | _ => exact hl.elim
      · cases hk
    | _ => exact hl.elim
  · have hsame : w.holdsAfter e = w.holds ∧ w.foundAfter e = w.found := by
      unfold holdsAfter foundAfter
      cases e with
      | run b =>
        cases hf : w.k.frames with
        | nil => exact ⟨rfl, rfl⟩
        | cons f fs =>
          cases f with
          | down s => exact absurd ⟨s, fs, hf⟩ hl
          | _ => exact ⟨rfl, rfl⟩
      | call c =>
        cases c with
        | up s => exact absurd trivial hl
        | tryDown s => exact absurd trivial hl
        | _ => exact ⟨rfl, rfl⟩
      | _ => exact ⟨rfl, rfl⟩
    rcases step_files hl hk with hf | ⟨t, ht, rfl⟩
    · exact h.files hf hb hsame.1 hsame.2
    · exact h.create ht rfl (fun p => rfl) hsame.1 hsame.2

/-- Nobody has been boosted, and no semaphore was taken. -/
theorem start_unlent {k : Kernel Q S} {count : S → Int} {ts : List (Prio × Bool)} (h : start count ts = some k) :
    k.owner = [] ∧ ∀ p, (k.task p).originalPrio = (k.task p).prio := by
  have hcreate : ∀ (k : Kernel Q S) prio user, (k.owner = [] ∧ ∀ p, (k.task p).originalPrio = (k.task p).prio) →
      (k.create (Task.new 0 prio user)).owner = [] ∧
        ∀ p, ((k.create (Task.new 0 prio user)).task p).originalPrio = ((k.create (Task.new 0 prio user)).task p).prio := by
    intro k prio user hk
    refine ⟨hk.1, fun p => ?_⟩
    rw [create_task]
    split
    · rfl
    · exact hk.2 p
  have hidle := hcreate (empty count) 0 false ⟨rfl, fun p => rfl⟩
  have h0 : ((empty count : Kernel Q S).createIdle.owner = [] ∧
      ∀ p, ((empty count : Kernel Q S).createIdle.task p).originalPrio = ((empty count : Kernel Q S).createIdle.task p).prio) := by
    refine ⟨hidle.1, fun p => ?_⟩
    have hp := modify_prio_eq ((empty count : Kernel Q S).create (Task.new 0 0 false)) 1 (fun t => { t with strong := t.strong + 1 })
      (fun t => ⟨rfl, rfl⟩) p
    exact hp.2.trans ((hidle.2 p).trans hp.1.symm)
  obtain ⟨k1, e, h1, -, rfl⟩ := start_rule h0 hcreate h
  exact h1

theorem boot_lent (h : w.Boot) : w.Lent := by
  obtain ⟨⟨count, ts, hk⟩, hb, hh, hd⟩ := h
  obtain ⟨ho, hp⟩ := start_unlent hk
  refine ⟨(start_filed hk).known, ?_, ?_, ?_, ?_, fun p _ => ?_, fun p _ => ?_, fun p _ hne => ?_, ?_⟩
  · rw [hh]
    exact fun x hx => absurd hx List.not_mem_nil
  · rw [hd]
    exact fun e he => absurd he List.not_mem_nil
  · rw [ho]
    exact List.nodup_nil
  · rw [ho]
    exact fun e he => absurd he List.not_mem_nil
  · rw [hp, hb]
  · rw [hb]
  · exact absurd (hb p).symm hne
  · rw [hd]
    exact fun e he => absurd he List.not_mem_nil

/-- Under that condition every boost is undone, and nobody waits for a task of lower priority. -/
theorem undone_reach [DecidableEq Q] [DecidableEq S] (h : Lib.Reach step Orderly Boot w) : w.Undone :=
  Lent.undone (Lib.Reach.rule (P := Lent) (fun _ h => boot_lent h) (fun _ _ _ hk he hs => hk.step he hs) h)

instance holdingDecidable (l : List (Pid × S)) (p : Pid) : Decidable (Holding l p) :=
  inferInstanceAs (Decidable (∃ h ∈ l, h.1 = p))

instance outrankedDecidable (w : Watched Q S) (p : Pid) : Decidable (w.Outranked p) :=
  inferInstanceAs (Decidable (∃ e ∈ w.found, e.2 = p ∧ (w.k.task p).prio < (w.k.task e.1).prio))

instance raisableDecidable (w : Watched Q S) (o : Pid) : Decidable (w.Raisable o) :=
  inferInstanceAs (Decidable (_ ∧ ∀ e ∈ w.found, e.1 = o → e.2 ≠ o → Holding w.holds e.2 → _))

instance returnableDecidable [DecidableEq S] (w : Watched Q S) (s : S) (o : Pid) : Decidable (w.Returnable s o) :=
  inferInstanceAs (Decidable (Holding _ o → ∀ e ∈ w.found, e.2 = o → e.1 ≠ o → w.firstWaiter s ≠ some e.1 → _))

instance orderlyDecidable [DecidableEq S] (w : Watched Q S) (e : Event Q S) : Decidable (w.Orderly e) := by
  delta Orderly
  exact match e with
    | .call (.up s) => inferInstanceAs (Decidable (∀ o ∈ w.k.ownerOf s, (w.k.task o).prio ≠ (w.k.task o).originalPrio → w.Returnable s o))
    | .call (.tryDown s) => inferInstanceAs (Decidable (0 < w.k.count s → ¬ w.Outranked w.k.current))
    | .call (.waitEvent _) | .call (.wakeUp _) | .call (.sleep _) | .call .yieldNow | .call .schedYield | .call (.down _)
    | .call (.kill _ _) | .call (.exit _) | .call (.wait4 _) | .call .fork | .call (.createKernelThread _)
    | .call .checkSignals | .call (.fault _) | .irq _ | .irqInside _ _ => isTrue trivial
    | .run _ => by
      generalize w.k.frames = gs
      exact match gs with
        | .down s :: _ => inferInstanceAs (Decidable (if 0 < w.k.count s then ¬ w.Outranked w.k.current
            else ∀ o ∈ w.k.ownerOf s, (w.k.task o).prio < (w.k.task w.k.current).prio → w.Raisable o))
        | [] | .waitEvent _ :: _ | .waitTest _ :: _ | .sleep _ :: _ | .schedule _ :: _ | .rouse _ :: _ | .add _ :: _
        | .exitWith _ :: _ | .exitNotify :: _ | .wait4 _ :: _ | .waitAlive :: _ | .checkDead :: _ | .checkSignals :: _
        | .checkSchedule :: _ => isTrue trivial

def atBoot (o : Option (Kernel Unit Unit)) : Option (Watched Unit Unit) :=
  o.map fun k => { k := k, base := fun p => (k.task p).prio, holds := [], found := [] }

theorem atBoot_boot {o : Option (Kernel Unit Unit)} (ho : ∀ k, o = some k → k.Boot) : ∀ w, atBoot o = some w → w.Boot := by
  intro w hw
  obtain ⟨k, hk, rfl⟩ := Option.map_eq_some_iff.mp hw
  exact ⟨ho k hk, fun p => rfl, rfl, rfl⟩

/-- The holder is raised by a task of a higher priority, and gives the semaphore up. -/
def raiseAndReturn : List (Event Unit Unit) := raiseQueued.append [.run true, .call (.up ())]

theorem undone_reach_raiseAndReturn :
    ∃ w, ((atBoot lowAndHigh).bind fun w => Lib.trace step w raiseAndReturn) = some w ∧ w.k.current = 2 ∧ w.Undone := by
  obtain ⟨w, hw, ht, hd⟩ := Lib.exists_run step Orderly raiseAndReturn
    (fun w : Watched Unit Unit => decide (w.k.current = 2)) (atBoot_boot lowAndHigh_boot) rfl rfl
  exact ⟨w, ht, of_decide_eq_true hd, undone_reach hw⟩

/-- The idle task and three tasks of rising priority. -/
def rising : Option (Kernel Unit Unit) := start (fun _ => 1) [(4, true), (5, true), (6, true)]

theorem rising_boot : ∀ k, rising = some k → k.Boot := fun _ h => ⟨_, _, h⟩

/-- The lowest takes the semaphore, the middle one blocks on it and then the highest; the lowest
    gives it up. -/
def raiseTwice : List (Event Unit Unit) :=
  [.call (.sleep 2), .run true, .run true, .call (.sleep 1), .run true, .run true, .call (.down ()), .run true,
    .irq (.timer true), .run true, .run true, .run true, .call (.down ()), .run true, .run true,
    .irq (.timer true), .run true, .run true, .run true, .call (.down ()), .run true, .run true, .call (.up ())]

theorem raised_for_good : ¬ ∀ w : Watched Unit Unit, Lib.Reach step (fun _ _ => True) Boot w → w.Undone := by
  intro h
  obtain ⟨w, hw, -, hd⟩ := Lib.exists_run step (fun _ _ => True) raiseTwice
    (fun w : Watched Unit Unit => decide (2 < w.k.nextPid ∧ w.holds = [] ∧ (w.k.task 2).prio = 5 ∧ w.base 2 = 4))
    (atBoot_boot rising_boot) (by decide +kernel) (by decide +kernel)
  obtain ⟨hn, hh, hp, hb⟩ := of_decide_eq_true hd
  have hr := (h w hw).restored 2 hn (fun s hs => by rw [hh] at hs; cases hs)
  rw [hp, hb] at hr
  exact absurd hr (by decide)

end Watched

end Myos.Sched
