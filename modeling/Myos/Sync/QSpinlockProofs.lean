/-
  Myos.Sync.QSpinlockProofs — the queue lock keeps its promise while queues stay apart
  (see `Myos.Sync.QSpinlock`).

  Proved: while no CPU takes a second lock with another CPU queued behind it, and none
  queues behind a CPU that is on two locks, a lock has one holder and each unlock clears
  the tail of a lock nobody else is on or wakes the CPU queued behind it there. Two
  nested locks and one waiter break this.
-/

import Mathlib.Data.List.Nodup
import Myos.Lib.Fifo
import Myos.Sync.QSpinlock

namespace Myos.Sync

open Lib.Fifo

variable {n : Nat} {L : Type*}

/-! ## The queues -/

/-- The lock a CPU is in the course of taking. -/
def Pc.taking : Pc L → Option L
  | .lockClear l | .lockSwap l | .lockLink l _ | .lockSpin l _ | .tryClear l | .tryCas l => some l
  | _ => none

/-- The lock a CPU is in the course of releasing. -/
def Pc.releasing : Pc L → Option L
  | .unlockCas l | .unlockWait l | .unlockNext l | .unlockPass l _ => some l
  | _ => none

/-- The node was cleared and is in no queue yet. -/
def Pc.entering : Pc L → Bool
  | .lockClear _ | .lockSwap _ | .tryClear _ | .tryCas _ => true
  | _ => false

def Pc.waiting : Pc L → Bool
  | .lockLink _ _ | .lockSpin _ _ => true
  | _ => false

/-- What holds of CPU `c`, given the locks it holds, its place in the code and its node. -/
structure Local (q : L → List (Fin n)) (c : Fin n) (held : List L) (pc : Pc L) (v : McsNode) : Prop where
  nodup : held.Nodup
  holds : ∀ l, l ∈ held → (q l).head? = some c
  queued : ∀ l prev, pc = .lockLink l prev ∨ pc = .lockSpin l prev → c ∈ q l
  last : (∀ l d, ¬ Next (q l) c d) → (∃ l, c ∈ q l) ∨ pc.entering = true → v.next = none
  clear : ∀ l, pc = .lockSwap l → v.locked = false
  taking : ∀ l, pc.taking = some l → l ∉ held
  releasing : ∀ l, pc.releasing = some l → l ∈ held
  waits : ∀ l, pc = .unlockWait l → ∃ d, Next (q l) c d
  nexts : ∀ l, pc = .unlockNext l → ∃ d, Next (q l) c d ∧ v.next = some (mcsNode d)
  hands : ∀ l x, pc = .unlockPass l x → ∃ d, Next (q l) c d ∧ x = mcsNode d ∧ v.next = some (mcsNode d)

/-- `q l` is the queue of lock `l`, the CPU that has the lock first. -/
structure Inv (q : L → List (Fin n)) (m : Machine n L) : Prop where
  nodup : ∀ l, (q l).Nodup
  tail : ∀ l, m.tail l = (q l).getLast?.map mcsNode
  head : ∀ l c, (q l).head? = some c → l ∈ m.held c ∨ ∃ prev, m.pc c = .lockSpin l prev ∧ (m.node c).locked = true
  link : ∀ l c d, Next (q l) c d → (m.node d).locked = false ∧
    ((m.pc d = .lockLink l (mcsNode c) ∧ (m.node c).next = none) ∨
      (m.pc d = .lockSpin l (mcsNode c) ∧ (m.node c).next = some (mcsNode d)))
  single : ∀ l c d, Next (q l) c d → ∀ l', c ∈ q l' → l' = l
  cpu : ∀ c, Local q c (m.held c) (m.pc c) (m.node c)

theorem mcsNode_inj (hn : n ≤ maxCpus) {c d : Fin n} : mcsNode c = mcsNode d ↔ c = d := by
  constructor
  · intro h
    have h : (c : Nat) % maxCpus = d % maxCpus := congrArg Fin.val h
    rw [Nat.mod_eq_of_lt (by omega), Nat.mod_eq_of_lt (by omega)] at h
    exact Fin.ext h
  · rintro rfl; rfl

section

variable {q : L → List (Fin n)} {m : Machine n L} {l : L} {c d : Fin n}

theorem Inv.on_of_mem (h : Inv q m) (hc : c ∈ q l) : On m l c := by
  by_cases e : (q l).head? = some c
  · rcases h.head l c e with h | ⟨prev, h, -⟩
    · exact Or.inl h
    · exact Or.inr ⟨prev, Or.inr h⟩
  · obtain ⟨p, hp⟩ := exists_prev hc e
    rcases (h.link l p c hp).2 with ⟨h, -⟩ | ⟨h, -⟩
    · exact Or.inr ⟨_, Or.inl h⟩
    · exact Or.inr ⟨_, Or.inr h⟩

theorem Inv.on_iff (h : Inv q m) : On m l c ↔ c ∈ q l := by
  refine ⟨?_, h.on_of_mem⟩
  rintro (hc | ⟨prev, hc⟩)
  · exact List.mem_of_mem_head? ((h.cpu c).holds l hc)
  · exact (h.cpu c).queued l prev hc

theorem Inv.behind_iff (hn : n ≤ maxCpus) (h : Inv q m) : Behind m l c d ↔ Next (q l) c d := by
  constructor
  · intro hb
    have hd : d ∈ q l := (h.cpu d).queued l (mcsNode c) (hb.imp_right And.left)
    have ht : l ∉ m.held d := (h.cpu d).taking l (by rcases hb with e | ⟨e, -⟩ <;> rw [e] <;> rfl)
    have hh : (q l).head? ≠ some d := by
      intro e
      rcases h.head l d e with h | ⟨prev, hp, hl⟩
      · exact ht h
      · rcases hb with hb | ⟨-, hb⟩
        · rw [hp] at hb; cases hb
        · rw [hl] at hb; cases hb
    obtain ⟨p, hp⟩ := exists_prev hd hh
    have e : mcsNode p = mcsNode c := by
      rcases (h.link l p d hp).2 with ⟨e, -⟩ | ⟨e, -⟩ <;> rcases hb with e' | ⟨e', -⟩ <;> rw [e] at e'
      · exact (Pc.lockLink.inj e').2
      · cases e'
      · cases e'
      · exact (Pc.lockSpin.inj e').2
    rwa [← (mcsNode_inj hn).mp e]
  · intro hp
    obtain ⟨hl, ⟨h, -⟩ | ⟨h, -⟩⟩ := h.link l c d hp
    · exact Or.inl h
    · exact Or.inr ⟨h, hl⟩

/-- A CPU that does not wait has nobody in front. -/
theorem Inv.not_next (h : Inv q m) (hw : (m.pc d).waiting = false) : ¬ Next (q l) c d := by
  intro hp
  rcases (h.link l c d hp).2 with ⟨e, -⟩ | ⟨e, -⟩ <;> rw [e] at hw <;> cases hw

theorem Inv.safe (hn : n ≤ maxCpus) (h : Inv q m) : Safe m := by
  refine ⟨fun l c d hc hd => ?_, fun l c hc ht d hd => ?_, fun l c hc => ?_, fun l c x hc => ?_⟩
  · exact Option.some.inj (((h.cpu c).holds l hc).symm.trans ((h.cpu d).holds l hd))
  · have hh := (h.cpu c).holds l ((h.cpu c).releasing l (by rw [hc]; rfl))
    rw [h.tail l] at ht
    obtain ⟨p, hp, e⟩ := Option.map_eq_some_iff.mp ht
    obtain rfl := (mcsNode_inj hn).mp e
    -- head and last of the queue are one
    by_contra hne
    have hdq := h.on_iff.mp hd
    obtain ⟨x, hx⟩ := exists_prev hdq (by rw [hh]; exact fun e => hne (Option.some.inj e).symm)
    cases hq : q l with
    | nil => rw [hq] at hdq; cases hdq
    | cons a t =>
      rw [hq] at hh hp hdq
      cases hh
      cases t with
      | nil => exact hne (List.mem_singleton.mp hdq)
      | cons b t =>
        have := h.nodup l
        rw [hq, List.nodup_cons] at this
        rw [List.getLast?_cons_cons] at hp
        exact this.1 (List.mem_of_getLast? hp)
  · have hd : ∃ d, Next (q l) c d := by
      rcases hc with hc | hc
      · exact (h.cpu c).waits l hc
      · obtain ⟨d, hd, -⟩ := (h.cpu c).nexts l hc
        exact ⟨d, hd⟩
    obtain ⟨d, hd⟩ := hd
    refine ⟨d, (h.behind_iff hn).mpr hd, fun e => ?_⟩
    rcases (h.link l c d hd).2 with ⟨e', -⟩ | ⟨-, hx⟩
    · rw [e] at e'; cases e'
    · exact hx
  · obtain ⟨d, hd, rfl, hx⟩ := (h.cpu c).hands l x hc
    refine ⟨d, rfl, (h.behind_iff hn).mpr hd, ?_⟩
    rcases (h.link l c d hd).2 with ⟨-, e⟩ | ⟨e, -⟩
    · rw [hx] at e; cases e
    · exact e

variable {v : McsNode} {pc : Pc L}

/-! ## What a step keeps -/

theorem node_update (hn : n ≤ maxCpus) (t : L → Option NodeId) (p : Fin n → Pc L) (hd : Fin n → List L) :
    (Machine.mk (Function.update m.nodes (mcsNode c) v) t p hd).node d = if d = c then v else m.node d := by
  show Function.update m.nodes (mcsNode c) v (mcsNode d) = _
  by_cases e : d = c
  · rw [e, if_pos rfl, Function.update_self]
  · rw [if_neg e, Function.update_of_ne fun h => e ((mcsNode_inj hn).mp h)]
    rfl

/-- What a CPU may do to itself, outside the queues: move on, and clear its node while
    nobody is behind it. -/
theorem Inv.move (hn : n ≤ maxCpus) (h : Inv q m) (hw : (m.pc c).waiting = false)
    (hnext : v.next = (m.node c).next ∨ ∀ l d, ¬ Next (q l) c d) (hc : Local q c (m.held c) pc v) :
    Inv q ⟨Function.update m.nodes (mcsNode c) v, m.tail, Function.update m.pc c pc, m.held⟩ := by
  have hnode := fun d => node_update (m := m) (c := c) (v := v) (d := d) hn m.tail (Function.update m.pc c pc) m.held
  refine ⟨h.nodup, h.tail, fun l d hd => ?_, fun l x d hx => ?_, h.single, fun d => ?_⟩
  · rw [hnode]
    by_cases e : d = c
    · subst e
      refine (h.head l d hd).imp_right fun ⟨prev, hp, _⟩ => ?_
      rw [hp] at hw; cases hw
    · simp only [Function.update_of_ne e, if_neg e]
      exact h.head l d hd
  · have hdc : d ≠ c := by rintro rfl; exact h.not_next hw hx
    have := h.link l x d hx
    simp only [hnode, if_neg hdc, Function.update_of_ne hdc]
    by_cases e : x = c
    · subst e
      rw [if_pos rfl, hnext.resolve_right fun e => e l d hx]
      exact this
    · rw [if_neg e]
      exact this
  · rw [hnode]
    by_cases e : d = c
    · subst e
      simpa only [Function.update_self, if_pos] using hc
    · simpa only [Function.update_of_ne e, if_neg e] using h.cpu d

/-- The facts about one CPU survive where its place in the queues does. -/
theorem Local.mono {q' : L → List (Fin n)} {held : List L} (h : Local q c held pc v)
    (hnext : ∀ l d, Next (q l) c d → Next (q' l) c d) (hmem : ∀ l, c ∈ q l ↔ c ∈ q' l)
    (hhead : ∀ l, (q l).head? = some c → (q' l).head? = some c) : Local q' c held pc v where
  nodup := h.nodup
  holds l hl := hhead l (h.holds l hl)
  queued l prev hp := (hmem l).mp (h.queued l prev hp)
  last hno hor := h.last (fun l d hd => hno l d (hnext l d hd)) (hor.imp_left fun ⟨l, hl⟩ => ⟨l, (hmem l).mpr hl⟩)
  clear := h.clear
  taking := h.taking
  releasing := h.releasing
  waits l hp := (h.waits l hp).imp fun d => hnext l d
  nexts l hp := (h.nexts l hp).imp fun d hd => ⟨hnext l d hd.1, hd.2⟩
  hands l x hp := (h.hands l x hp).imp fun d hd => ⟨hnext l d hd.1, hd.2⟩

theorem append_next [DecidableEq L] {l' : L} {x : Fin n} : Next (Function.update q l (q l ++ [c]) l') x d ↔
    Next (q l') x d ∨ (l' = l ∧ (q l).getLast? = some x ∧ d = c) := by
  by_cases e : l' = l
  · subst e; rw [Function.update_self, next_append]; simp
  · rw [Function.update_of_ne e]; simp [e]

theorem append_mem [DecidableEq L] {l' : L} {x : Fin n} : x ∈ Function.update q l (q l ++ [c]) l' ↔
    x ∈ q l' ∨ (l' = l ∧ x = c) := by
  by_cases e : l' = l
  · subst e; rw [Function.update_self]; simp
  · rw [Function.update_of_ne e]; simp [e]

theorem append_head [DecidableEq L] {l' : L} {x : Fin n} : (Function.update q l (q l ++ [c]) l').head? = some x ↔
    (q l').head? = some x ∨ (l' = l ∧ q l = [] ∧ x = c) := by
  by_cases e : l' = l
  · subst e
    rw [Function.update_self]
    cases q l' with
    | nil => simp [eq_comm]
    | cons a t => simp
  · rw [Function.update_of_ne e]; simp [e]

/-- CPU `c` puts itself at the end of the queue of `l`: it has the lock when nobody was
    on it, and waits behind the last one otherwise. -/
theorem Inv.append [DecidableEq L] {held : List L} (h : Inv q m) (hw : (m.pc c).waiting = false) (hcq : c ∉ q l)
    (hno : ∀ l d, ¬ Next (q l) c d) (hempty : q l = [] → l ∈ held) (hheld : ∀ l' ∈ m.held c, l' ∈ held)
    (hlast : ∀ p, (q l).getLast? = some p → pc = .lockLink l (mcsNode p) ∧ (m.node c).locked = false ∧
      ∀ l', p ∈ q l' → l' = l)
    (hc : Local (Function.update q l (q l ++ [c])) c held pc (m.node c)) :
    Inv (Function.update q l (q l ++ [c]))
      ⟨m.nodes, Function.update m.tail l (some (mcsNode c)), Function.update m.pc c pc, Function.update m.held c held⟩ := by
  refine ⟨fun l' => ?_, fun l' => ?_, fun l' d hd => ?_, fun l' x d hx => ?_, fun l' x d hx l'' hm => ?_, fun d => ?_⟩
  · by_cases e : l' = l
    · subst e
      rw [Function.update_self, List.nodup_append]
      refine ⟨h.nodup l', List.nodup_singleton c, fun a ha b hb => ?_⟩
      rw [List.mem_singleton] at hb
      rintro rfl
      exact hcq (hb ▸ ha)
    · rw [Function.update_of_ne e]; exact h.nodup l'
  · show Function.update m.tail l _ l' = _
    by_cases e : l' = l
    · subst e; rw [Function.update_self, Function.update_self]; simp
    · rw [Function.update_of_ne e, Function.update_of_ne e]; exact h.tail l'
  · show l' ∈ Function.update m.held c held d ∨ ∃ prev, Function.update m.pc c pc d = _ ∧ _
    rcases append_head.1 hd with hd' | ⟨rfl, hq, rfl⟩
    · by_cases e : d = c
      · subst e
        rw [Function.update_self]
        rcases h.head l' d hd' with hl | ⟨prev, hp, -⟩
        · exact Or.inl (hheld l' hl)
        · rw [hp] at hw; cases hw
      · rw [Function.update_of_ne e, Function.update_of_ne e]
        exact h.head l' d hd'
    · rw [Function.update_self]
      exact Or.inl (hempty hq)
  · show (m.node d).locked = false ∧ ((Function.update m.pc c pc d = _ ∧ _) ∨ (Function.update m.pc c pc d = _ ∧ _))
    rcases append_next.1 hx with hx' | ⟨rfl, hl, rfl⟩
    · have hdc : d ≠ c := by rintro rfl; exact h.not_next hw hx'
      rw [Function.update_of_ne hdc]
      exact h.link l' x d hx'
    · obtain ⟨hp, hk, hs⟩ := hlast x hl
      rw [Function.update_self]
      refine ⟨hk, Or.inl ⟨hp, ?_⟩⟩
      -- the last of a queue has no link yet
      refine (h.cpu x).last (fun l1 d1 h1 => ?_) (Or.inl ⟨l', List.mem_of_getLast? hl⟩)
      obtain rfl := hs l1 h1.mem.1
      exact h1.not_last (h.nodup l1) hl
  · rcases append_next.1 hx with hx' | ⟨rfl, hl, rfl⟩ <;> rcases append_mem.1 hm with hm' | ⟨rfl, rfl⟩
    · exact h.single l' x d hx' l'' hm'
    · exact absurd hx' (hno l' d)
    · exact (hlast x hl).2.2 l'' hm'
    · rfl
  · show Local _ d (Function.update m.held c held d) (Function.update m.pc c pc d) (m.node d)
    by_cases e : d = c
    · subst e
      rw [Function.update_self, Function.update_self]
      exact hc
    · rw [Function.update_of_ne e, Function.update_of_ne e]
      refine (h.cpu d).mono (fun l' x hx => append_next.2 (Or.inl hx)) (fun l' => ?_)
        fun l' hl => append_head.2 (Or.inl hl)
      rw [append_mem]
      simp [e]

/-- CPU `c` links itself behind the one in front. -/
theorem Inv.linkNext (hn : n ≤ maxCpus) (h : Inv q m) {prev : NodeId} (hc : m.pc c = .lockLink l prev) :
    Inv q ((m.storeNext prev (mcsNode c)).goto c (.lockSpin l prev)) := by
  have hL := h.cpu c
  have hcq : c ∈ q l := hL.queued l prev (Or.inl hc)
  have hh : (q l).head? ≠ some c := by
    intro e
    rcases h.head l c e with h | ⟨p, hp, -⟩
    · exact hL.taking l (by rw [hc]; rfl) h
    · rw [hc] at hp; cases hp
  obtain ⟨p, hp⟩ := exists_prev hcq hh
  obtain ⟨hlk, ⟨hpc, hpn⟩ | ⟨hpc, -⟩⟩ := h.link l p c hp
  case inr => rw [hc] at hpc; cases hpc
  rw [hc] at hpc
  obtain rfl : prev = mcsNode p := (Pc.lockLink.inj hpc).2
  have hnode := fun d => node_update (m := m) (c := p) (v := { m.node p with next := some (mcsNode c) }) (d := d) hn m.tail
    (Function.update m.pc c (.lockSpin l (mcsNode p))) m.held
  have hlocked : ∀ d, (if d = p then { m.node p with next := some (mcsNode c) } else m.node d).locked =
      (m.node d).locked := by
    intro d
    split
    case isTrue e => rw [e]
    case isFalse => rfl
  show Inv q ⟨Function.update m.nodes (mcsNode p) { m.node p with next := some (mcsNode c) }, m.tail,
    Function.update m.pc c (.lockSpin l (mcsNode p)), m.held⟩
  refine ⟨h.nodup, h.tail, fun l' d hd => ?_, fun l' x d hx => ?_, h.single, fun d => ?_⟩
  · have hdc : d = c → l' ∈ m.held d := by
      rintro rfl
      rcases h.head l' d hd with hl | ⟨p', hp', -⟩
      · exact hl
      · rw [hc] at hp'; cases hp'
    rw [hnode, hlocked]
    by_cases e : d = c
    · exact Or.inl (hdc e)
    · simp only [Function.update_of_ne e]
      exact h.head l' d hd
  · rw [hnode, hnode, hlocked]
    obtain ⟨h1, h2⟩ := h.link l' x d hx
    refine ⟨h1, ?_⟩
    by_cases e : d = c
    · subst e
      obtain ⟨rfl, rfl⟩ : l' = l ∧ x = p := by
        rcases h2 with ⟨h2, -⟩ | ⟨h2, -⟩ <;> rw [hc] at h2
        · obtain ⟨e1, e2⟩ := Pc.lockLink.inj h2
          exact ⟨e1.symm, ((mcsNode_inj hn).mp e2).symm⟩
        · cases h2
      simp only [Function.update_self, if_pos]
      exact Or.inr ⟨trivial, trivial⟩
    · have hxp : x ≠ p := by
        rintro rfl
        obtain rfl := h.single l x c hp l' hx.mem.1
        exact e (hx.right_unique (h.nodup l') hp)
      simp only [Function.update_of_ne e, if_neg hxp]
      exact h2
  · rw [hnode]
    show Local q d (m.held d) (Function.update m.pc c _ d) _
    by_cases e : d = c
    · subst e
      rw [Function.update_self, if_neg (hp.ne (h.nodup l)).symm]
      exact { hL with
        queued := fun l' prev' hq => hL.queued l' prev' (Or.inl (by
          rcases hq with hq | hq <;> cases hq
          exact hc))
        last := fun hno hor => hL.last hno (hor.imp_right fun h => by cases h)
        clear := nofun
        taking := fun l' ht => hL.taking l' (by rw [hc]; exact ht)
        releasing := nofun
        waits := nofun
        nexts := nofun
        hands := nofun }
    · rw [Function.update_of_ne e]
      by_cases ep : d = p
      · -- the one in front gets its link
        subst ep
        rw [if_pos rfl]
        have hP := h.cpu d
        exact { hP with
          last := fun hno _ => absurd hp (hno l c)
          nexts := fun l' hu => by
            obtain ⟨_, -, hx⟩ := hP.nexts l' hu
            rw [hpn] at hx; cases hx
          hands := fun l' x hu => by
            obtain ⟨_, -, -, hx⟩ := hP.hands l' x hu
            rw [hpn] at hx; cases hx }
      · rw [if_neg ep]
        exact h.cpu d

/-- CPU `c` sees that it was woken. -/
theorem Inv.woken (h : Inv q m) {prev : NodeId} (hc : m.pc c = .lockSpin l prev) (hk : (m.node c).locked = true) :
    Inv q ((m.acquire c l).goto c .idle) := by
  have hL := h.cpu c
  have hcq : c ∈ q l := hL.queued l prev (Or.inr hc)
  have hh : (q l).head? = some c := by
    by_contra e
    obtain ⟨p, hp⟩ := exists_prev hcq e
    rw [(h.link l p c hp).1] at hk
    cases hk
  have hnp : ∀ l' x, ¬ Next (q l') x c := by
    intro l' x hx
    rw [(h.link l' x c hx).1] at hk
    cases hk
  show Inv q ⟨m.nodes, m.tail, Function.update m.pc c .idle, Function.update m.held c (l :: m.held c)⟩
  refine ⟨h.nodup, h.tail, fun l' d hd => ?_, fun l' x d hx => ?_, h.single, fun d => ?_⟩
  · show l' ∈ Function.update m.held c _ d ∨ ∃ prev, Function.update m.pc c .idle d = _ ∧ _
    by_cases e : d = c
    · subst e
      rw [Function.update_self]
      refine Or.inl (List.mem_cons.mpr ?_)
      rcases h.head l' d hd with hl | ⟨prev', hp, -⟩
      · exact Or.inr hl
      · rw [hc] at hp
        exact Or.inl (Pc.lockSpin.inj hp).1.symm
    · rw [Function.update_of_ne e, Function.update_of_ne e]
      exact h.head l' d hd
  · show (m.node d).locked = false ∧ ((Function.update m.pc c .idle d = _ ∧ _) ∨ (Function.update m.pc c .idle d = _ ∧ _))
    rw [Function.update_of_ne fun e => hnp l' x (by rw [← e]; exact hx)]
    exact h.link l' x d hx
  · show Local q d (Function.update m.held c _ d) (Function.update m.pc c .idle d) (m.node d)
    by_cases e : d = c
    · subst e
      rw [Function.update_self, Function.update_self]
      exact {
        nodup := List.nodup_cons.mpr ⟨hL.taking l (by rw [hc]; rfl), hL.nodup⟩
        holds := fun l' hl => by
          rcases List.mem_cons.mp hl with rfl | hl
          · exact hh
          · exact hL.holds l' hl
        queued := fun _ _ h => by rcases h with h | h <;> cases h
        last := fun hno hor => hL.last hno (Or.inl (hor.resolve_right nofun))
        clear := nofun
        taking := nofun
        releasing := nofun
        waits := nofun
        nexts := nofun
        hands := nofun }
    · rw [Function.update_of_ne e, Function.update_of_ne e]
      exact h.cpu d

/-- CPU `c` leaves the queue of `l`, and whoever is behind it is woken. -/
theorem Inv.leave [DecidableEq L] (h : Inv q m) {t : List (Fin n)} {nodes : NodeId → McsNode}
    (hq : q l = c :: t) (hr : (m.pc c).releasing = some l)
    (hnodes : ∀ x, nodes (mcsNode x) = if t.head? = some x then { m.node x with locked := true } else m.node x)
    (hspin : ∀ d, t.head? = some d → m.pc d = .lockSpin l (mcsNode c)) :
    Inv (Function.update q l t) ⟨nodes, Function.update m.tail l (t.getLast?.map mcsNode), Function.update m.pc c .idle,
      Function.update m.held c ((m.held c).erase l)⟩ := by
  have hL := h.cpu c
  have hnd := h.nodup l
  rw [hq, List.nodup_cons] at hnd
  have hw : (m.pc c).waiting = false := by
    revert hr
    cases m.pc c <;> simp [Pc.releasing, Pc.waiting]
  have hnext : ∀ l' x d, Next (Function.update q l t l') x d → Next (q l') x d := by
    intro l' x d hx
    by_cases e : l' = l
    · subst e
      rw [Function.update_self] at hx
      rw [hq]
      exact next_cons.mpr (Or.inr hx)
    · rwa [Function.update_of_ne e] at hx
  have hnode : ∀ d, (Machine.mk nodes (Function.update m.tail l (t.getLast?.map mcsNode)) (Function.update m.pc c .idle)
      (Function.update m.held c ((m.held c).erase l))).node d =
        if t.head? = some d then { m.node d with locked := true } else m.node d := hnodes
  have hnx : ∀ d, (if t.head? = some d then { m.node d with locked := true } else m.node d).next = (m.node d).next := by
    intro d; split <;> rfl
  have hct : t.head? ≠ some c := fun e => hnd.1 (List.mem_of_mem_head? e)
  have hlk : ∀ d, t.head? ≠ some d →
      (if t.head? = some d then { m.node d with locked := true } else m.node d) = m.node d := fun d e => if_neg e
  refine ⟨fun l' => ?_, fun l' => ?_, fun l' d hd => ?_, fun l' x d hx => ?_, fun l' x d hx l'' hm => ?_, fun d => ?_⟩
  · by_cases e : l' = l
    · subst e; rw [Function.update_self]; exact hnd.2
    · rw [Function.update_of_ne e]; exact h.nodup l'
  · show Function.update m.tail l _ l' = _
    by_cases e : l' = l
    · subst e; rw [Function.update_self, Function.update_self]
    · rw [Function.update_of_ne e, Function.update_of_ne e]; exact h.tail l'
  · rw [hnode]
    show l' ∈ Function.update m.held c _ d ∨ ∃ prev, Function.update m.pc c .idle d = _ ∧ _
    by_cases e : l' = l
    · subst e
      rw [Function.update_self] at hd
      have hdc : d ≠ c := by rintro rfl; exact hct hd
      rw [Function.update_of_ne hdc, Function.update_of_ne hdc, if_pos hd]
      exact Or.inr ⟨_, hspin d hd, rfl⟩
    · rw [Function.update_of_ne e] at hd
      by_cases ed : d = c
      · subst ed
        rw [Function.update_self]
        rcases h.head l' d hd with hl | ⟨prev, hp, -⟩
        · exact Or.inl ((List.mem_erase_of_ne e).mpr hl)
        · rw [hp] at hw; cases hw
      · rw [Function.update_of_ne ed, Function.update_of_ne ed]
        refine (h.head l' d hd).imp_right fun ⟨prev, hp, hk⟩ => ⟨prev, hp, ?_⟩
        split
        · rfl
        · exact hk
  · have hx0 := hnext l' x d hx
    have hdc : d ≠ c := by rintro rfl; exact h.not_next hw hx0
    obtain ⟨h1, h2⟩ := h.link l' x d hx0
    have hdt : t.head? ≠ some d := by
      intro hd
      have e : l' = l := by
        have hp := hspin d hd
        rcases h2 with ⟨h2, -⟩ | ⟨h2, -⟩ <;> rw [hp] at h2
        · cases h2
        · exact (Pc.lockSpin.inj h2).1.symm
      subst e
      rw [Function.update_self] at hx
      exact hx.not_head hnd.2 hd
    rw [hnode, hnode, hnx, hlk d hdt]
    show _ ∧ ((Function.update m.pc c .idle d = _ ∧ _) ∨ (Function.update m.pc c .idle d = _ ∧ _))
    rw [Function.update_of_ne hdc]
    exact ⟨h1, h2⟩
  · refine h.single l' x d (hnext l' x d hx) l'' ?_
    by_cases e : l'' = l
    · subst e
      rw [Function.update_self] at hm
      rw [hq]; exact List.mem_cons_of_mem _ hm
    · rwa [Function.update_of_ne e] at hm
  · rw [hnode]
    show Local _ d (Function.update m.held c _ d) (Function.update m.pc c .idle d) _
    by_cases e : d = c
    · subst e
      rw [Function.update_self, Function.update_self, hlk d hct]
      have hmem : ∀ l', l' ∈ (m.held d).erase l → l' ≠ l ∧ l' ∈ m.held d := fun l' hl =>
        ⟨(hL.nodup.mem_erase_iff.mp hl).1, List.mem_of_mem_erase hl⟩
      exact {
        nodup := hL.nodup.erase l
        holds := fun l' hl => by
          rw [Function.update_of_ne (hmem l' hl).1]
          exact hL.holds l' (hmem l' hl).2
        queued := fun _ _ h => by rcases h with h | h <;> cases h
        last := fun hno hor => by
          obtain ⟨l', hl'⟩ := hor.resolve_right nofun
          have hne : l' ≠ l := by
            rintro rfl
            rw [Function.update_self] at hl'
            exact hnd.1 hl'
          rw [Function.update_of_ne hne] at hl'
          refine hL.last (fun l1 d1 h1 => ?_) (Or.inl ⟨l', hl'⟩)
          obtain rfl := h.single l1 d d1 h1 l' hl'
          refine hno l' d1 ?_
          rwa [Function.update_of_ne hne]
        clear := nofun
        taking := nofun
        releasing := nofun
        waits := nofun
        nexts := nofun
        hands := nofun }
    · rw [Function.update_of_ne e, Function.update_of_ne e]
      have hD : Local (Function.update q l t) d (m.held d) (m.pc d) (m.node d) := by
        refine (h.cpu d).mono (fun l' x hx => ?_) (fun l' => ?_) fun l' hl => ?_ <;> by_cases el : l' = l
        · subst el
          rw [hq] at hx
          rw [Function.update_self]
          exact (next_cons.mp hx).resolve_left fun h => e h.1
        · rwa [Function.update_of_ne el]
        · subst el
          rw [Function.update_self, hq, List.mem_cons]
          simp [e]
        · rw [Function.update_of_ne el]
        · subst el
          rw [hq] at hl
          exact absurd (Option.some.inj hl).symm e
        · rwa [Function.update_of_ne el]
      split
      case isFalse => exact hD
      case isTrue hd =>
        exact { hD with
          clear := fun l' hp => by
            rw [hspin d hd] at hp
            cases hp }
/-- The node stays as it is: only the place in the code changes. -/
theorem Inv.goto (hn : n ≤ maxCpus) (h : Inv q m) (hw : (m.pc c).waiting = false)
    (hc : Local q c (m.held c) pc (m.node c)) : Inv q (m.goto c pc) := by
  have := h.move hn hw (Or.inl rfl) hc
  rwa [show Function.update m.nodes (mcsNode c) (m.node c) = m.nodes from Function.update_eq_self _ _] at this

/-- A CPU that is about to take `l` and has cleared its node. -/
theorem Local.take {held : List L} {pc' : Pc L} {v' : McsNode} (h : Local q c held pc v)
    (hv : (∀ l d, ¬ Next (q l) c d) → v'.next = none) (ht : pc'.taking = some l) (hl : l ∉ held) (hw : pc'.waiting = false)
    (hk : ∀ l, pc' = .lockSwap l → v'.locked = false) :
    Local q c held pc' v' := by
  have hr : pc'.releasing = none := by revert ht; cases pc' <;> simp [Pc.taking, Pc.releasing]
  exact {
    nodup := h.nodup
    holds := h.holds
    queued := fun l prev hp => by rcases hp with rfl | rfl <;> cases hw
    last := fun hno _ => hv hno
    clear := hk
    taking := fun l' hl' => by
      rw [ht] at hl'
      cases hl'
      exact hl
    releasing := fun l' hl' => by rw [hr] at hl'; cases hl'
    waits := fun l' hp => by rw [hp] at hr; cases hr
    nexts := fun l' hp => by rw [hp] at hr; cases hr
    hands := fun l' x hp => by rw [hp] at hr; cases hr }

/-- A CPU that is done. -/
theorem Local.idle {held : List L} (h : Local q c held pc v) : Local q c held .idle v where
  nodup := h.nodup
  holds := h.holds
  queued _ _ hp := by rcases hp with h | h <;> cases h
  last hno hor := h.last hno (Or.inl (hor.resolve_right nofun))
  clear := nofun
  taking := nofun
  releasing := nofun
  waits := nofun
  nexts := nofun
  hands := nofun

/-- A CPU in the course of an unlock. -/
theorem Local.unlock {held : List L} {pc' : Pc L} (h : Local q c held pc v) (hl : l ∈ held) (hr : pc'.releasing = some l)
    (hwait : ∀ l, pc' = .unlockWait l → ∃ d, Next (q l) c d)
    (hnx : ∀ l, pc' = .unlockNext l → ∃ d, Next (q l) c d ∧ v.next = some (mcsNode d))
    (hhand : ∀ l x, pc' = .unlockPass l x → ∃ d, Next (q l) c d ∧ x = mcsNode d ∧ v.next = some (mcsNode d)) :
    Local q c held pc' v where
  nodup := h.nodup
  holds := h.holds
  queued l prev hp := by rcases hp with rfl | rfl <;> cases hr
  last hno _ := h.last hno (Or.inl ⟨l, List.mem_of_mem_head? (h.holds l hl)⟩)
  clear l hp := by subst hp; cases hr
  taking l' hl' := by revert hr; revert hl'; cases pc' <;> simp [Pc.taking, Pc.releasing]
  releasing l' hl' := by
    rw [hr] at hl'
    cases hl'
    exact hl
  waits := hwait
  nexts := hnx
  hands := hhand

theorem Inv.nobody_behind (hn : n ≤ maxCpus) (h : Inv q m) (hb : ∀ l d, ¬ Behind m l c d) (l : L) (d : Fin n) :
    ¬ Next (q l) c d := fun hx => hb l d ((h.behind_iff hn).mpr hx)

theorem Inv.not_mem (h : Inv q m) (hw : (m.pc c).waiting = false) (hl : l ∉ m.held c) : c ∉ q l := by
  intro hc
  rcases h.on_of_mem hc with h | ⟨prev, hp | hp⟩
  · exact hl h
  · rw [hp] at hw; cases hw
  · rw [hp] at hw; cases hw

theorem Inv.tail_none (h : Inv q m) : m.tail l = none ↔ q l = [] := by
  rw [h.tail, Option.map_eq_none_iff, List.getLast?_eq_none_iff]

/-- What an unlock knows of its queue. -/
theorem Inv.releasing_queue (h : Inv q m) (hr : (m.pc c).releasing = some l) : ∃ t, q l = c :: t := by
  have := (h.cpu c).holds l ((h.cpu c).releasing l hr)
  cases hq : q l with
  | nil => rw [hq] at this; cases this
  | cons a t =>
    rw [hq] at this
    cases this
    exact ⟨t, rfl⟩

theorem Inv.next_releasing (h : Inv q m) {t : List (Fin n)} (hq : q l = c :: t) (hd : Next (q l) c d) : t.head? = some d := by
  have hnd := h.nodup l
  rw [hq] at hd hnd
  rcases next_cons.mp hd with ⟨-, e⟩ | hd
  · exact e
  · exact absurd hd.mem.1 (List.nodup_cons.mp hnd).1

theorem inv_boot : Inv (fun _ : L => ([] : List (Fin n))) boot := by
  refine ⟨fun _ => List.nodup_nil, fun _ => rfl, nofun, nofun, nofun, fun c => ?_⟩
  exact {
    nodup := List.nodup_nil
    holds := nofun
    queued := fun _ _ h => by rcases h with h | h <;> cases h
    last := fun _ _ => rfl
    clear := nofun
    taking := nofun
    releasing := nofun
    waits := nofun
    nexts := nofun
    hands := nofun }

variable {m' : Machine n L} {a : Act L} [DecidableEq L]

/-- `c` takes a lock that nobody is on. -/
theorem Inv.take (hn : n ≤ maxCpus) (h : Inv q m) (hpc : (m.pc c).entering = true) (ht : (m.pc c).taking = some l)
    (hb : ∀ l d, ¬ Behind m l c d) (hl : m.tail l = none) :
    ∃ q', Inv q' (((m.storeTail l (mcsNode c)).acquire c l).goto c .idle) := by
  have hw : (m.pc c).waiting = false := by revert hpc; cases m.pc c <;> simp [Pc.entering, Pc.waiting]
  have hL := h.cpu c
  have hq := h.tail_none.mp hl
  have hno := h.nobody_behind hn hb
  have hlc := hL.taking l ht
  refine ⟨Function.update q l (q l ++ [c]), h.append hw (h.not_mem hw hlc) hno (fun _ => List.mem_cons_self ..)
    (fun l' hl' => List.mem_cons_of_mem _ hl') (fun p hp => ?_) ?_⟩
  · rw [hq] at hp; cases hp
  · exact {
      nodup := List.nodup_cons.mpr ⟨hlc, hL.nodup⟩
      holds := fun l' hl' => by
        rcases List.mem_cons.mp hl' with rfl | hl'
        · exact append_head.mpr (Or.inr ⟨rfl, hq, rfl⟩)
        · exact append_head.mpr (Or.inl (hL.holds l' hl'))
      queued := fun _ _ hp => by rcases hp with h | h <;> cases h
      last := fun _ _ => hL.last hno (Or.inr hpc)
      clear := nofun
      taking := nofun
      releasing := nofun
      waits := nofun
      nexts := nofun
      hands := nofun }

/-- `c` queues up behind the last one. -/
theorem Inv.join (hn : n ≤ maxCpus) (h : Inv q m) (hpc : m.pc c = .lockSwap l) (hb : ∀ l d, ¬ Behind m l c d)
    {prev : NodeId} (hl : m.tail l = some prev) (hp : ∀ p, m.tail l = some (mcsNode p) → ∀ l', On m l' p → l' = l) :
    ∃ q', Inv q' ((m.storeTail l (mcsNode c)).goto c (.lockLink l prev)) := by
  have hw : (m.pc c).waiting = false := by rw [hpc]; rfl
  have hL := h.cpu c
  have hno := h.nobody_behind hn hb
  have hlc := hL.taking l (by rw [hpc]; rfl)
  have ht := h.tail l
  rw [hl] at ht
  obtain ⟨p, hlast, rfl⟩ := Option.map_eq_some_iff.mp ht.symm
  refine ⟨Function.update q l (q l ++ [c]), ?_⟩
  have : Inv (Function.update q l (q l ++ [c])) ⟨m.nodes, _, Function.update m.pc c (.lockLink l (mcsNode p)), _⟩ :=
    h.append hw (h.not_mem hw hlc) hno (fun e => ?_)
    (fun l' hl' => hl') (fun p' hp' => ?_) ?_
  · rwa [Function.update_eq_self] at this
  · rw [e] at hlast; cases hlast
  · rw [hlast] at hp'
    cases hp'
    exact ⟨rfl, hL.clear l hpc, fun l' hl' => hp p hl l' (h.on_of_mem hl')⟩
  · exact {
      nodup := hL.nodup
      holds := fun l' hl' => append_head.mpr (Or.inl (hL.holds l' hl'))
      queued := fun l' prev' hp => by
        rcases hp with hp | hp <;> cases hp
        exact append_mem.mpr (Or.inr ⟨rfl, rfl⟩)
      last := fun _ _ => hL.last hno (Or.inr (by rw [hpc]; rfl))
      clear := nofun
      taking := fun l' ht => by cases ht; exact hlc
      releasing := nofun
      waits := nofun
      nexts := nofun
      hands := nofun }

/-- Every step of a run keeps the queues. -/
theorem Inv.step (hn : n ≤ maxCpus) (h : Inv q m) (ha : Apart m c a) (hs : step m c a = some m') : ∃ q', Inv q' m' := by
  have hL := h.cpu c
  unfold Sync.step at hs
  unfold Apart at ha
  cases hp : m.pc c with
  | idle =>
    have hw : (m.pc c).waiting = false := by rw [hp]; rfl
    cases a <;> simp only [hp] at hs ha
    case go => cases hs
    case lock l =>
      split at hs <;> cases hs
      rename_i hl
      exact ⟨q, h.move hn hw (Or.inr (h.nobody_behind hn ha)) (hL.take (fun _ => rfl) rfl hl rfl nofun)⟩
    case tryLock l =>
      split at hs <;> cases hs
      rename_i hl
      exact ⟨q, h.move hn hw (Or.inr (h.nobody_behind hn ha)) (hL.take (fun _ => rfl) rfl hl rfl nofun)⟩
    case unlock l =>
      split at hs
      case isFalse => cases hs
      rename_i hl
      have hq : c ∈ q l := List.mem_of_mem_head? (hL.holds l hl)
      split at hs <;> cases hs
      · exact ⟨q, h.goto hn hw (hL.unlock hl rfl nofun nofun nofun)⟩
      · rename_i x hx
        refine ⟨q, h.goto hn hw (hL.unlock hl rfl nofun nofun ?_)⟩
        -- a link that is set leads to the CPU behind, and `c` is on this lock only
        intro l' x' hp'
        cases hp'
        have hex : ∃ l1 d, Next (q l1) c d := by
          by_contra hne
          simp only [not_exists] at hne
          rw [hL.last hne (Or.inl ⟨l, hq⟩)] at hx
          cases hx
        obtain ⟨l1, d, hd⟩ := hex
        obtain rfl := h.single l1 c d hd l hq
        rcases (h.link l c d hd).2 with ⟨-, e⟩ | ⟨-, e⟩
        · rw [e] at hx; cases hx
        · rw [e] at hx
          cases hx
          exact ⟨d, hd, rfl, e⟩
  | lockClear l =>
    have hw : (m.pc c).waiting = false := by rw [hp]; rfl
    cases a <;> simp only [hp] at hs <;> cases hs
    exact ⟨q, h.move hn hw (Or.inl rfl) (hL.take (fun hno => hL.last hno (Or.inr (by rw [hp]; rfl))) rfl
      (hL.taking l (by rw [hp]; rfl)) rfl fun _ _ => rfl)⟩
  | lockSwap l =>
    cases a <;> simp only [hp] at hs ha
    case lock => cases hs
    case tryLock => cases hs
    case unlock => cases hs
    case go =>
      split at hs <;> cases hs
      · rename_i hl
        exact h.take hn (by rw [hp]; rfl) (by rw [hp]; rfl) ha.1 hl
      · rename_i prev hl
        exact h.join hn hp ha.1 hl ha.2
  | lockLink l prev =>
    cases a <;> simp only [hp] at hs <;> cases hs
    exact ⟨q, h.linkNext hn hp⟩
  | lockSpin l prev =>
    cases a <;> simp only [hp] at hs <;> cases hs
    split
    case isTrue hk => exact ⟨q, h.woken hp hk⟩
    case isFalse => exact ⟨q, h⟩
  | tryClear l =>
    have hw : (m.pc c).waiting = false := by rw [hp]; rfl
    cases a <;> simp only [hp] at hs <;> cases hs
    exact ⟨q, h.move hn hw (Or.inl rfl) (hL.take (fun hno => hL.last hno (Or.inr (by rw [hp]; rfl))) rfl
      (hL.taking l (by rw [hp]; rfl)) rfl nofun)⟩
  | tryCas l =>
    have hw : (m.pc c).waiting = false := by rw [hp]; rfl
    cases a <;> simp only [hp] at hs ha <;> cases hs
    split
    case isTrue hl => exact h.take hn (by rw [hp]; rfl) (by rw [hp]; rfl) (ha hl) hl
    case isFalse => exact ⟨q, h.goto hn hw hL.idle⟩
  | unlockCas l =>
    have hw : (m.pc c).waiting = false := by rw [hp]; rfl
    have hr : (m.pc c).releasing = some l := by rw [hp]; rfl
    obtain ⟨t, hq⟩ := h.releasing_queue hr
    have hcl : c ∈ q l := by rw [hq]; exact List.mem_cons_self ..
    cases a <;> simp only [hp] at hs <;> cases hs
    split
    case isTrue ht =>
      -- first and last: nobody else is there
      have ht0 : t = [] := by
        by_contra hne
        rw [h.tail l, hq] at ht
        obtain ⟨x, hx, e⟩ := Option.map_eq_some_iff.mp ht
        obtain rfl := (mcsNode_inj hn).mp e
        have hnd := h.nodup l
        obtain ⟨b, t, rfl⟩ := List.exists_cons_of_ne_nil hne
        rw [hq, List.nodup_cons] at hnd
        rw [List.getLast?_cons_cons] at hx
        exact hnd.1 (List.mem_of_getLast? hx)
      subst ht0
      exact ⟨_, h.leave hq hr (fun x => rfl) nofun⟩
    case isFalse ht =>
      have hd : ∃ d, Next (q l) c d := by
        refine exists_next hcl fun e => ht ?_
        rw [h.tail l, e]
        rfl
      exact ⟨q, h.goto hn hw (hL.unlock (hL.releasing l hr) rfl (fun l' hl' => by cases hl'; exact hd) nofun nofun)⟩
  | unlockWait l =>
    have hw : (m.pc c).waiting = false := by rw [hp]; rfl
    cases a <;> simp only [hp] at hs <;> cases hs
    split
    case isTrue => exact ⟨q, h⟩
    case isFalse hx =>
      obtain ⟨d, hd⟩ := hL.waits l hp
      refine ⟨q, h.goto hn hw (hL.unlock (hL.releasing l (by rw [hp]; rfl)) rfl nofun (fun l' hl' => ?_) nofun)⟩
      cases hl'
      refine ⟨d, hd, ?_⟩
      rcases (h.link l c d hd).2 with ⟨-, e⟩ | ⟨-, e⟩
      · exact absurd e hx
      · exact e
  | unlockNext l =>
    have hw : (m.pc c).waiting = false := by rw [hp]; rfl
    cases a <;> simp only [hp] at hs
    case lock => cases hs
    case tryLock => cases hs
    case unlock => cases hs
    case go =>
      obtain ⟨d, hd, hx⟩ := hL.nexts l hp
      rw [hx] at hs
      cases hs
      refine ⟨q, h.goto hn hw (hL.unlock (hL.releasing l (by rw [hp]; rfl)) rfl nofun nofun fun l' x hl' => ?_)⟩
      cases hl'
      exact ⟨d, hd, rfl, hx⟩
  | unlockPass l x =>
    have hr : (m.pc c).releasing = some l := by rw [hp]; rfl
    cases a <;> simp only [hp] at hs <;> cases hs
    obtain ⟨d, hd, rfl, hx⟩ := hL.hands l x hp
    obtain ⟨t, hq⟩ := h.releasing_queue hr
    have ht := h.next_releasing hq hd
    have htail : Function.update m.tail l (t.getLast?.map mcsNode) = m.tail := by
      rw [Function.update_eq_self_iff, h.tail l, hq]
      cases t with
      | nil => cases ht
      | cons b t => rw [List.getLast?_cons_cons]
    have : Inv _ ⟨Function.update m.nodes (mcsNode d) { m.node d with locked := true }, _, _, _⟩ :=
      h.leave hq hr (fun y => ?_) fun y hy => ?_
    · rw [htail] at this
      exact ⟨_, this⟩
    · rw [ht]
      by_cases e : y = d
      · rw [e, if_pos rfl, Function.update_self]
      · rw [if_neg fun h => e (Option.some.inj h).symm, Function.update_of_ne fun h => e ((mcsNode_inj hn).mp h)]
        rfl
    · rw [ht] at hy
      cases hy
      rcases (h.link l c d hd).2 with ⟨-, e⟩ | ⟨e, -⟩
      · rw [hx] at e; cases e
      · exact e

theorem Reach.inv (hn : n ≤ maxCpus) (h : Reach Apart m) : ∃ q, Inv q m := by
  induction h with
  | init => exact ⟨_, inv_boot⟩
  | step _ ha hs ih =>
    obtain ⟨q, h⟩ := ih
    exact h.step hn ha hs

/-- While the queues stay apart, each lock has one holder and no unlock loses the CPU
    behind it. -/
theorem safe_reach (hn : n ≤ maxCpus) (h : Reach Apart m) : Safe m := by
  obtain ⟨q, h⟩ := h.inv hn
  exact h.safe hn

end

-- the numerals of two CPUs
local instance twoCpus : NeZero 2 := ⟨by decide⟩

/-- CPU 0 takes a lock, CPU 1 queues up behind it and gets the lock at the unlock. -/
def handOver : List (Fin 2 × Act Unit) :=
  [(0, .lock ()), (0, .go), (0, .go), (1, .lock ()), (1, .go), (1, .go), (1, .go), (0, .unlock ()), (0, .go), (1, .go)]

theorem safe_reach_handOver : ∃ m : Machine 2 Unit, trace boot handOver = some m ∧ () ∈ m.held 1 ∧ Safe m := by
  have he : (trace (boot : Machine 2 Unit) handOver).any (fun m => decide (() ∈ m.held 1)) = true := by decide
  have hok : Meets Apart (boot : Machine 2 Unit) handOver := by decide
  cases ht : trace (boot : Machine 2 Unit) handOver with
  | none => rw [ht] at he; cases he
  | some m =>
    rw [ht] at he
    exact ⟨m, rfl, of_decide_eq_true he, safe_reach (by decide) (Reach.init.of_trace hok ht)⟩

/-! ## Nested locks -/

/-- CPU 0 takes two locks, CPU 1 queues up on the outer one, CPU 0 releases the inner one
    and wakes CPU 1 with it. -/
def nestedLocks : List (Fin 2 × Act Bool) :=
  [(0, .lock false), (0, .go), (0, .go), (0, .lock true), (0, .go), (0, .go),
   (1, .lock false), (1, .go), (1, .go), (1, .go), (0, .unlock true), (0, .go), (1, .go)]

theorem meets_true [DecidableEq L] : ∀ (es : List (Fin n × Act L)) (m : Machine n L), Meets (fun _ _ _ => True) m es
  | [], _ => trivial
  | _ :: es, _ => ⟨trivial, fun m' _ => meets_true es m'⟩

theorem nested_locks_break : ¬ ∀ m : Machine 2 Bool, Reach (fun _ _ _ => True) m → Safe m := by
  intro h
  have he : (trace (boot : Machine 2 Bool) nestedLocks).any
      (fun m => decide (false ∈ m.held 0 ∧ false ∈ m.held 1)) = true := by decide
  cases ht : trace (boot : Machine 2 Bool) nestedLocks with
  | none => rw [ht] at he; cases he
  | some m =>
    rw [ht] at he
    obtain ⟨h0, h1⟩ := of_decide_eq_true he
    have := (h m (Reach.init.of_trace (meets_true _ _) ht)).exclusive false 0 1 h0 h1
    cases this

end Myos.Sync
