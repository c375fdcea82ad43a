/-
  Myos.Sync.TicketLock — the ticket lock (`rust/src/sync/mod.rs`) and the C one that
  shares its algorithm (`arch/arm64/include/asm/spinlock.h`).

  Each step is one atomic access, and the accesses are sequentially consistent. `n`
  parties contend, each takes the lock and releases what it holds. `archUnlock` is the
  C release, which loads `owner` and stores it plus one.

  Proved: while `try_lock` neither adds one to the last ticket nor swaps `next` on a
  lock that is held, the lock has one holder, which took its ticket before everyone that
  waits, tickets are distinct and nobody panics.
-/

import Mathlib
import Myos.Lib.Runs

namespace Myos.Sync.TicketLock

/-- An `AtomicU32`. -/
abbrev Ticket := BitVec 32

/-- The access a party makes next. `ticket`, `next` and `v` are local variables; of a holder
    `ticket` is the ticket it got the lock with. -/
inductive Pc where
  | idle
  | spin (ticket : Ticket)
  | tryOwner (next : Ticket)
  | tryCas (next : Ticket)
  | held (ticket : Ticket)
  | unlockStore (ticket v : Ticket)
  | panicked
  deriving DecidableEq, Repr

/-- `line`: the parties that took a ticket and did not release, in the order they took them. -/
structure Machine (n : Nat) where
  next : Ticket
  owner : Ticket
  pc : Fin n → Pc
  line : List (Fin n)

inductive Act where
  | lock
  | tryLock
  | unlock
  | archUnlock
  | go
  deriving DecidableEq, Repr

variable {n : Nat}

def new : Machine n := ⟨0, 0, fun _ => .idle, []⟩

namespace Machine

def goto (m : Machine n) (c : Fin n) (pc : Pc) : Machine n := { m with pc := Function.update m.pc c pc }

@[simp] theorem goto_self (m : Machine n) (c : Fin n) (pc : Pc) : (m.goto c pc).pc c = pc := Function.update_self ..

/-- `next` was `m.next` and goes up by one. -/
def takeTicket (m : Machine n) (c : Fin n) : Machine n := { m with next := m.next + 1, line := m.line ++ [c] }

def storeOwner (m : Machine n) (c : Fin n) (v : Ticket) : Machine n := { m with owner := v, line := m.line.erase c }

end Machine

def u32Max : Ticket := BitVec.allOnes 32

/-- `none`: the party is not there, or the call is not one it may make. -/
def step (m : Machine n) (e : Fin n × Act) : Option (Machine n) :=
  match m.pc e.1, e.2 with
  | .idle, .lock => some ((m.takeTicket e.1).goto e.1 (.spin m.next))
  | .spin ticket, .go => some (if m.owner = ticket then m.goto e.1 (.held ticket) else m)
  | .idle, .tryLock => some (m.goto e.1 (.tryOwner m.next))
  | .tryOwner next, .go =>
    if next = m.owner then
      -- `next + 1` is checked for overflow
      if next = u32Max then some (m.goto e.1 .panicked) else some (m.goto e.1 (.tryCas next))
    else some (m.goto e.1 .idle)
  | .tryCas next, .go =>
    some (if m.next = next then (m.takeTicket e.1).goto e.1 (.held next) else m.goto e.1 .idle)
  | .held _, .unlock => some ((m.storeOwner e.1 (m.owner + 1)).goto e.1 .idle)
  | .held ticket, .archUnlock => some (m.goto e.1 (.unlockStore ticket (m.owner + 1)))
  | .unlockStore _ v, .go => some ((m.storeOwner e.1 v).goto e.1 .idle)
  | _, _ => none

abbrev Reach (ok : Machine n → Fin n × Act → Prop) : Machine n → Prop := Lib.Reach step ok (· = new)

/-- The ticket a party took and did not give back. -/
def Pc.ticket : Pc → Option Ticket
  | .spin t | .held t | .unlockStore t _ => some t
  | _ => none

/-- The party has the lock. -/
def Pc.holds : Pc → Bool
  | .held _ | .unlockStore _ _ => true
  | _ => false

/-! ## What the lock promises -/

structure Fair (m : Machine n) : Prop where
  exclusive : ∀ c d, (m.pc c).holds = true → (m.pc d).holds = true → c = d
  /-- The holder took its ticket before everyone else who has one. -/
  inOrder : ∀ c, (m.pc c).holds = true → m.line.head? = some c
  distinct : ∀ c d t, (m.pc c).ticket = some t → (m.pc d).ticket = some t → c = d
  noPanic : ∀ c, m.pc c ≠ .panicked

/-- `try_lock` adds one to a ticket that is not the last, and swaps `next` only while nobody
    has the lock. -/
def TryFits (m : Machine n) (e : Fin n × Act) : Prop :=
  match m.pc e.1 with
  | .tryOwner next => m.owner = next → next ≠ u32Max
  | .tryCas next => m.next = next → m.owner = next
  | _ => True

/-! ## The line -/

/-- What holds of party `c`, given `owner`, the line `q` and its place in the code. -/
structure Local (owner : Ticket) (q : List (Fin n)) (c : Fin n) (pc : Pc) : Prop where
  place : ∀ t, pc.ticket = some t → ∃ i, q[i]? = some c ∧ t = owner + BitVec.ofNat 32 i
  lined : c ∈ q → pc.ticket ≠ none
  served : pc.holds = true → q.head? = some c
  stored : ∀ t v, pc = .unlockStore t v → v = owner + 1
  noPanic : pc ≠ .panicked

/-- The parties in line have the tickets from `owner` on, `next` is the one after them. -/
structure Inv (m : Machine n) : Prop where
  nodup : m.line.Nodup
  next : m.next = m.owner + BitVec.ofNat 32 m.line.length
  party : ∀ c, Local m.owner m.line c (m.pc c)

section

variable {m m' : Machine n} {c d : Fin n} {pc : Pc} {t : Ticket}

theorem Inv.length_le (h : Inv m) : m.line.length ≤ n := by
  have := h.nodup.length_le_card
  rwa [Fintype.card_fin] at this

/-- Fewer than 2^32 tickets in a row do not repeat. -/
theorem ticket_inj {i j : Nat} (hi : i < 2 ^ 32) (hj : j < 2 ^ 32) (h : t + BitVec.ofNat 32 i = t + BitVec.ofNat 32 j) : i = j := by
  have h := congrArg BitVec.toNat (add_left_cancel h)
  rwa [BitVec.toNat_ofNat, BitVec.toNat_ofNat, Nat.mod_eq_of_lt hi, Nat.mod_eq_of_lt hj] at h

theorem Inv.place_lt (h : Inv m) {i : Nat} (hi : m.line[i]? = some c) : i < n := by
  have := h.length_le
  have := (List.getElem?_eq_some_iff.mp hi).1
  omega

theorem Inv.fair (hn : n < 2 ^ 32) (h : Inv m) : Fair m := by
  refine ⟨fun c d hc hd => ?_, fun c => (h.party c).served, fun c d t hc hd => ?_, fun c => (h.party c).noPanic⟩
  · exact Option.some.inj (((h.party c).served hc).symm.trans ((h.party d).served hd))
  · obtain ⟨i, hi, ei⟩ := (h.party c).place t hc
    obtain ⟨j, hj, ej⟩ := (h.party d).place t hd
    have hin := h.place_lt hi
    have hjn := h.place_lt hj
    have := ticket_inj (by omega) (by omega) (ei.symm.trans ej)
    subst this
    exact Option.some.inj (hi.symm.trans hj)

theorem Inv.goto (h : Inv m) (hc : Local m.owner m.line c pc) : Inv (m.goto c pc) :=
  ⟨h.nodup, h.next, Function.forall_update_iff _ (p := fun d => Local m.owner m.line d) |>.mpr ⟨hc, fun d _ => h.party d⟩⟩

/-- A party goes on with the ticket it has. -/
theorem Local.keep {owner : Ticket} {q : List (Fin n)} {pc' : Pc} (h : Local owner q c pc) (ht : pc'.ticket = pc.ticket)
    (hh : pc'.holds = pc.holds) (hs : ∀ t v, pc' = .unlockStore t v → v = owner + 1) (hp : pc' ≠ .panicked) :
    Local owner q c pc' :=
  ⟨fun t e => h.place t (ht ▸ e), fun hm => ht ▸ h.lined hm, fun e => h.served (hh ▸ e), hs, hp⟩

theorem Local.idle {owner : Ticket} {q : List (Fin n)} (h : c ∉ q) : Local owner q c .idle := by
  refine ⟨fun t e => ?_, fun hm => absurd hm h, fun e => ?_, fun t v e => ?_, fun e => ?_⟩ <;> cases e

/-- Without a ticket a party is not in line. -/
theorem Local.out {owner : Ticket} {q : List (Fin n)} (h : Local owner q c pc) (ht : pc.ticket = none) : c ∉ q :=
  fun hm => h.lined hm ht

/-- A party without a ticket takes the next one and joins the end of the line. -/
theorem Inv.take (h : Inv m) (hc : (m.pc c).ticket = none) (ht : pc.ticket = some m.next)
    (hs : pc.holds = true → m.line = []) (hv : ∀ t v, pc ≠ .unlockStore t v) (hp : pc ≠ .panicked) :
    Inv ((m.takeTicket c).goto c pc) := by
  have hnot := (h.party c).out hc
  refine ⟨?_, ?_, Function.forall_update_iff _ (p := fun d => Local m.owner (m.line ++ [c]) d) |>.mpr ⟨?_, fun d hd => ?_⟩⟩
  · rw [Machine.goto, Machine.takeTicket, List.nodup_append]
    refine ⟨h.nodup, List.nodup_singleton c, fun x hx y hy e => hnot ?_⟩
    rw [← List.mem_singleton.mp hy, ← e]
    exact hx
  · simp only [Machine.goto, Machine.takeTicket, List.length_append, List.length_singleton, BitVec.ofNat_add]
    rw [h.next, ← add_assoc]
    rfl
  · refine ⟨fun t e => ⟨m.line.length, by simp, ?_⟩, fun _ e => ?_, fun e => ?_, fun t v e => absurd e (hv t v), hp⟩
    · rw [← h.next]
      exact Option.some.inj (e.symm.trans ht)
    · rw [ht] at e
      cases e
    · rw [hs e]
      rfl
  · have hl := h.party d
    refine ⟨fun t e => ?_, fun hm => hl.lined ?_, fun e => ?_, hl.stored, hl.noPanic⟩
    · obtain ⟨i, hi, he⟩ := hl.place t e
      exact ⟨i, by rw [List.getElem?_append_left (List.getElem?_eq_some_iff.mp hi).1]; exact hi, he⟩
    · exact (List.mem_append.mp hm).resolve_right fun e => hd (List.mem_singleton.mp e)
    · have := hl.served e
      rw [List.head?_append, this]
      rfl

/-- The holder leaves and the next in line is served. -/
theorem Inv.release (h : Inv m) (hc : (m.pc c).holds = true) :
    Inv ((m.storeOwner c (m.owner + 1)).goto c .idle) := by
  have hhead := (h.party c).served hc
  obtain ⟨rest, hline⟩ : ∃ rest, m.line = c :: rest := by
    cases hl : m.line with
    | nil => rw [hl] at hhead; cases hhead
    | cons x rest => rw [hl] at hhead; cases hhead; exact ⟨rest, rfl⟩
  have hnodup := h.nodup
  have hnext := h.next
  rw [hline] at hnodup hnext
  have hne := List.nodup_cons.mp hnodup
  have hrest : m.line.erase c = rest := by rw [hline, List.erase_cons_head]
  have hshift : ∀ i, m.owner + BitVec.ofNat 32 (i + 1) = m.owner + 1 + BitVec.ofNat 32 i := by
    intro i
    rw [BitVec.ofNat_add, add_assoc, add_comm (BitVec.ofNat 32 i)]
    rfl
  refine ⟨?_, ?_, Function.forall_update_iff _ (p := fun d => Local (m.owner + 1) (m.line.erase c) d) |>.mpr ⟨?_, fun d hd => ?_⟩⟩
  · rw [Machine.goto, Machine.storeOwner, hrest]
    exact hne.2
  · rw [Machine.goto, Machine.storeOwner, hrest, hnext, List.length_cons, hshift]
  · rw [hrest]
    exact Local.idle hne.1
  · have hl := h.party d
    -- nobody else has the lock
    have hno : (m.pc d).holds = true → False := fun e => hd (Option.some.inj ((hl.served e).symm.trans hhead))
    rw [hrest]
    refine ⟨fun t e => ?_, fun hm => hl.lined (hline ▸ List.mem_cons_of_mem _ hm), fun e => (hno e).elim, fun t v e => (hno ?_).elim, hl.noPanic⟩
    · obtain ⟨i, hi, he⟩ := hl.place t e
      rw [hline] at hi
      cases i with
      | zero => exact absurd (Option.some.inj hi).symm hd
      | succ i => exact ⟨i, by rwa [List.getElem?_cons_succ] at hi, by rw [he, hshift]⟩
    · exact (congrArg Pc.holds e).trans rfl

theorem Inv.step (hn : n < 2 ^ 32) {e : Fin n × Act} (h : Inv m) (hok : TryFits m e) (hs : step m e = some m') : Inv m' := by
  obtain ⟨c, a⟩ := e
  have hl := h.party c
  unfold TicketLock.step at hs
  unfold TryFits at hok
  dsimp only at hs hok
  cases hc : m.pc c with
  | idle =>
    rw [hc] at hs
    cases a with
    | lock =>
      cases hs
      exact h.take (by rw [hc]; rfl) rfl (by simp [Pc.holds]) (by simp) (by simp)
    | tryLock =>
      cases hs
      exact h.goto (hl.keep (by rw [hc]; rfl) (by rw [hc]; rfl) (by simp) (by simp))
    | unlock | archUnlock | go => cases hs
  | spin ticket =>
    rw [hc] at hs
    cases a with
    | go =>
      cases hs
      split
      · rename_i ho
        -- the ticket served is that of the head of the line
        obtain ⟨i, hi, he⟩ := hl.place ticket (by rw [hc]; rfl)
        have hlt := h.place_lt hi
        have h0 : 0 = i := ticket_inj (t := m.owner) (by omega) (by omega) (by rw [← he, ho]; simp)
        subst h0
        refine h.goto ⟨fun t e => hl.place t (by rw [hc]; exact e), fun _ => by simp [Pc.ticket], fun _ => ?_, by simp, by simp⟩
        rw [List.head?_eq_getElem?, hi]
      · exact h
    | lock | tryLock | unlock | archUnlock => cases hs
  | tryOwner next =>
    rw [hc] at hs hok
    cases a with
    | go =>
      dsimp only at hs
      split at hs
      · rename_i ho
        rw [if_neg (hok ho.symm)] at hs
        cases hs
        exact h.goto (hl.keep (by rw [hc]; rfl) (by rw [hc]; rfl) (by simp) (by simp))
      · cases hs
        exact h.goto (hl.keep (by rw [hc]; rfl) (by rw [hc]; rfl) (by simp) (by simp))
    | lock | tryLock | unlock | archUnlock => cases hs
  | tryCas next =>
    rw [hc] at hs hok
    cases a with
    | go =>
      cases hs
      split
      · rename_i hx
        refine h.take (by rw [hc]; rfl) (by rw [hx]; rfl) (fun _ => ?_) (by simp) (by simp)
        -- the lock is free: the line is empty
        have hlen := h.length_le
        have h0 : m.line.length = 0 := ticket_inj (t := m.owner) (by omega) (by omega) (by rw [← h.next, hx, hok hx]; simp)
        exact List.eq_nil_of_length_eq_zero h0
      · exact h.goto (hl.keep (by rw [hc]; rfl) (by rw [hc]; rfl) (by simp) (by simp))
    | lock | tryLock | unlock | archUnlock => cases hs
  | held ticket =>
    rw [hc] at hs
    cases a with
    | unlock =>
      cases hs
      exact h.release (by rw [hc]; rfl)
    | archUnlock =>
      cases hs
      exact h.goto (hl.keep (by rw [hc]; rfl) (by rw [hc]; rfl) (by simp) (by simp))
    | lock | tryLock | go => cases hs
  | unlockStore ticket v =>
    rw [hc] at hs
    cases a with
    | go =>
      cases hs
      rw [hl.stored ticket v hc]
      exact h.release (by rw [hc]; rfl)
    | lock | tryLock | unlock | archUnlock => cases hs
  | panicked => exact (hl.noPanic hc).elim

theorem inv_new : Inv (new : Machine n) :=
  ⟨List.nodup_nil, rfl, fun _ => Local.idle List.not_mem_nil⟩

theorem Reach.inv (hn : n < 2 ^ 32) (h : Reach TryFits m) : Inv m :=
  Lib.Reach.rule (fun _ e => e ▸ inv_new) (fun _ _ _ hi hok hs => hi.step hn hok hs) h

/-- While `try_lock` finds a ticket it can take, the lock is fair and has one holder, across
    any number of turns of the counters. -/
theorem fair_reach (hn : n < 2 ^ 32) (h : Reach TryFits m) : Fair m := (h.inv hn).fair hn

/-- Any other step of `try_lock` breaks it at once. -/
theorem fits_of_fair {e : Fin n × Act} (hn : n < 2 ^ 32) (h : Reach TryFits m) (hs : step m e = some m') (hf : Fair m') : TryFits m e := by
  obtain ⟨c, a⟩ := e
  have hi := h.inv hn
  unfold TicketLock.step at hs
  unfold TryFits
  dsimp only at hs ⊢
  cases hc : m.pc c with
  | tryOwner next =>
    rw [hc] at hs
    intro ho hmax
    cases a with
    | go =>
      dsimp only at hs
      rw [if_pos ho.symm, if_pos hmax] at hs
      cases hs
      exact hf.noPanic c (Machine.goto_self ..)
    | lock | tryLock | unlock | archUnlock => cases hs
  | tryCas next =>
    rw [hc] at hs
    intro hx
    cases a with
    | go =>
      dsimp only at hs
      rw [if_pos hx] at hs
      cases hs
      by_contra ho
      have hhead := hf.inOrder c (by rw [Machine.goto_self]; rfl)
      have hne : m.line ≠ [] := by
        intro hl
        have := hi.next
        rw [hl, hx] at this
        exact ho (by simpa using this.symm)
      obtain ⟨d, q, hl⟩ := List.exists_cons_of_ne_nil hne
      refine (hi.party c).out (by rw [hc]; rfl) ?_
      rw [Machine.goto, Machine.takeTicket, hl] at hhead
      rw [hl, ← Option.some.inj hhead]
      exact List.mem_cons_self ..
    | lock | tryLock | unlock | archUnlock => cases hs
  | _ => trivial

end

-- the numerals of two parties
local instance twoParties : NeZero 2 := ⟨by decide⟩

/-- Party 0 gets the lock by `try_lock`, party 1 waits for it and gets it at the release. -/
def tryAndWait : List (Fin 2 × Act) :=
  [(0, .tryLock), (0, .go), (0, .go), (1, .lock), (1, .go), (0, .unlock), (1, .go)]

instance tryFitsDecidable (m : Machine n) (e : Fin n × Act) : Decidable (TryFits m e) := by
  unfold TryFits
  split <;> infer_instance

theorem fair_reach_tryAndWait : ∃ m : Machine 2, Lib.trace step new tryAndWait = some m ∧ m.pc 1 = .held 1 ∧ Fair m := by
  obtain ⟨m, hr, ht, hp⟩ := (Lib.Reach.init rfl : Reach TryFits (new : Machine 2)).of_any
    (fun m : Machine 2 => decide (m.pc 1 = .held 1)) (by decide : Lib.Meets step TryFits (new : Machine 2) tryAndWait) (by decide)
  exact ⟨m, ht, of_decide_eq_true hp, fair_reach (by omega) hr⟩

/-! ## The last ticket -/

/-- A lock nobody has, after `t` turns. -/
def free (t : Ticket) : Machine n := ⟨t, t, fun _ => .idle, []⟩

/-- A party takes the free lock and releases it. -/
theorem trace_turn (t : Ticket) (c : Fin n) : Lib.trace step (free t) [(c, .lock), (c, .go), (c, .unlock)] = some (free (t + 1)) := by
  have h1 : step (free t) (c, .lock) = some (((free t).takeTicket c).goto c (.spin t)) := rfl
  have h2 : step (((free t).takeTicket c).goto c (.spin t)) (c, .go) = some ((((free t).takeTicket c).goto c (.spin t)).goto c (.held t)) := by
    unfold step
    dsimp only
    rw [Machine.goto_self]
    exact congrArg some (if_pos rfl)
  have h3 : step ((((free t).takeTicket c).goto c (.spin t)).goto c (.held t)) (c, .unlock) =
      some ((((((free t).takeTicket c).goto c (.spin t)).goto c (.held t)).storeOwner c (t + 1)).goto c .idle) := by
    unfold step
    dsimp only
    rw [Machine.goto_self]
    rfl
  rw [Lib.trace, h1, Option.bind_some, Lib.trace, h2, Option.bind_some, Lib.trace, h3, Option.bind_some, Lib.trace]
  simp [free, Machine.takeTicket, Machine.goto, Machine.storeOwner, Function.update_idem]

theorem reach_free (c : Fin n) (k : Nat) : Reach (fun _ _ => True) (free (BitVec.ofNat 32 k) : Machine n) := by
  induction k with
  | zero => exact .init rfl
  | succ k ih =>
    rw [BitVec.ofNat_add]
    exact ih.of_trace (Lib.meets_true ..) (trace_turn _ c)

/-- After 2^32 - 1 turns `try_lock` panics. -/
theorem tryLock_panics : ¬ ∀ m : Machine 1, Reach (fun _ _ => True) m → Fair m := by
  intro h
  have hr := reach_free (0 : Fin 1) (2 ^ 32 - 1)
  have hmax : BitVec.ofNat 32 (2 ^ 32 - 1) = u32Max := rfl
  rw [hmax] at hr
  have h1 : step (free u32Max : Machine 1) (0, .tryLock) = some ((free u32Max).goto 0 (.tryOwner u32Max)) := rfl
  have h2 : step ((free u32Max : Machine 1).goto 0 (.tryOwner u32Max)) (0, .go) =
      some (((free u32Max).goto 0 (.tryOwner u32Max)).goto 0 .panicked) := by
    unfold step
    dsimp only
    rw [Machine.goto_self]
    exact (if_pos rfl).trans (if_pos rfl)
  have hm := (hr.step (e := (0, .tryLock)) trivial h1).step (e := (0, .go)) trivial h2
  exact (h _ hm).noPanic 0 (Machine.goto_self ..)

end Myos.Sync.TicketLock
