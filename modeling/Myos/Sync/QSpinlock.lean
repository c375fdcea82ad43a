/-
  Myos.Sync.QSpinlock — the queue lock under `KMutex` (`rust/src/sync/mod.rs`).

  Each step is one atomic access of one CPU, and the accesses are sequentially
  consistent. A pointer to a node is its index in `MCS_NODES`. A CPU takes a lock it
  does not hold and releases one it holds, in any order; all locks use its one node.
  `Safe` is what the locks promise, `Apart` the condition under which they keep it (see
  `Myos.Sync.QSpinlockProofs`).
-/

import Mathlib

namespace Myos.Sync

def maxCpus : Nat := 8

abbrev NodeId := Fin maxCpus

structure McsNode where
  next : Option NodeId
  locked : Bool
  deriving DecidableEq, Repr

/-- `mcs_node`, on the CPU `cpu`. -/
def mcsNode {n : Nat} (cpu : Fin n) : NodeId := ⟨cpu % maxCpus, Nat.mod_lt _ (by decide)⟩

/-- The access a CPU makes next. `prev` and `n` are the local variables of the call. -/
inductive Pc (L : Type*) where
  | idle
  | lockClear (l : L)
  | lockSwap (l : L)
  | lockLink (l : L) (prev : NodeId)
  | lockSpin (l : L) (prev : NodeId)
  | tryClear (l : L)
  | tryCas (l : L)
  | unlockCas (l : L)
  | unlockWait (l : L)
  | unlockNext (l : L)
  | unlockPass (l : L) (n : NodeId)
  deriving DecidableEq, Repr

/-- `held c`: the locks that CPU `c` was given and whose unlock is not complete. -/
structure Machine (n : Nat) (L : Type*) where
  nodes : NodeId → McsNode
  tail : L → Option NodeId
  pc : Fin n → Pc L
  held : Fin n → List L

inductive Act (L : Type*) where
  | lock (l : L)
  | tryLock (l : L)
  | unlock (l : L)
  | go
  deriving DecidableEq, Repr

variable {n : Nat} {L : Type*}

def boot : Machine n L := ⟨fun _ => ⟨none, false⟩, fun _ => none, fun _ => .idle, fun _ => []⟩

namespace Machine

def node (m : Machine n L) (c : Fin n) : McsNode := m.nodes (mcsNode c)

def goto (m : Machine n L) (c : Fin n) (pc : Pc L) : Machine n L := { m with pc := Function.update m.pc c pc }

def storeNext (m : Machine n L) (x : NodeId) (v : Option NodeId) : Machine n L :=
  { m with nodes := Function.update m.nodes x { m.nodes x with next := v } }

def storeLocked (m : Machine n L) (x : NodeId) (v : Bool) : Machine n L :=
  { m with nodes := Function.update m.nodes x { m.nodes x with locked := v } }

def storeTail [DecidableEq L] (m : Machine n L) (l : L) (v : Option NodeId) : Machine n L :=
  { m with tail := Function.update m.tail l v }

def acquire (m : Machine n L) (c : Fin n) (l : L) : Machine n L :=
  { m with held := Function.update m.held c (l :: m.held c) }

def release [DecidableEq L] (m : Machine n L) (c : Fin n) (l : L) : Machine n L :=
  { m with held := Function.update m.held c ((m.held c).erase l) }

end Machine

/-- `none`: the CPU is not there, or the call is not one it may make. -/
def step [DecidableEq L] (m : Machine n L) (c : Fin n) (a : Act L) : Option (Machine n L) :=
  match m.pc c, a with
  | .idle, .lock l =>
    if l ∈ m.held c then none else some ((m.storeNext (mcsNode c) none).goto c (.lockClear l))
  | .lockClear l, .go => some ((m.storeLocked (mcsNode c) false).goto c (.lockSwap l))
  | .lockSwap l, .go =>
    match m.tail l with
    | none => some (((m.storeTail l (mcsNode c)).acquire c l).goto c .idle)
    | some prev => some ((m.storeTail l (mcsNode c)).goto c (.lockLink l prev))
  | .lockLink l prev, .go => some ((m.storeNext prev (mcsNode c)).goto c (.lockSpin l prev))
  | .lockSpin l _, .go => some (if (m.node c).locked then (m.acquire c l).goto c .idle else m)
  | .idle, .tryLock l =>
    if l ∈ m.held c then none else some ((m.storeNext (mcsNode c) none).goto c (.tryClear l))
  | .tryClear l, .go => some ((m.storeLocked (mcsNode c) false).goto c (.tryCas l))
  | .tryCas l, .go =>
    some (if m.tail l = none then ((m.storeTail l (mcsNode c)).acquire c l).goto c .idle else m.goto c .idle)
  | .idle, .unlock l =>
    if l ∈ m.held c then
      match (m.node c).next with
      | none => some (m.goto c (.unlockCas l))
      | some n => some (m.goto c (.unlockPass l n))
    else none
  | .unlockCas l, .go =>
    some (if m.tail l = some (mcsNode c) then ((m.storeTail l none).release c l).goto c .idle
      else m.goto c (.unlockWait l))
  | .unlockWait l, .go => some (if (m.node c).next = none then m else m.goto c (.unlockNext l))
  -- a null pointer here has no next state
  | .unlockNext l, .go => (m.node c).next.map fun n => m.goto c (.unlockPass l n)
  | .unlockPass l n, .go => some (((m.storeLocked n true).release c l).goto c .idle)
  | _, _ => none

/-- The states of the runs from the start whose steps all meet `ok`. -/
inductive Reach [DecidableEq L] (ok : Machine n L → Fin n → Act L → Prop) : Machine n L → Prop where
  | init : Reach ok boot
  | step {m m' : Machine n L} {c : Fin n} {a : Act L} : Reach ok m → ok m c a → step m c a = some m' → Reach ok m'

/-- The state a list of steps leads to. -/
def trace [DecidableEq L] (m : Machine n L) : List (Fin n × Act L) → Option (Machine n L)
  | [] => some m
  | (c, a) :: es => (step m c a).bind fun m => trace m es

/-- Every step of the list meets `ok`. -/
def Meets [DecidableEq L] (ok : Machine n L → Fin n → Act L → Prop) (m : Machine n L) : List (Fin n × Act L) → Prop
  | [] => True
  | (c, a) :: es => ok m c a ∧ ∀ m' ∈ step m c a, Meets ok m' es

instance [DecidableEq L] (ok : Machine n L → Fin n → Act L → Prop) [∀ m c a, Decidable (ok m c a)] :
    ∀ (es : List (Fin n × Act L)) (m : Machine n L), Decidable (Meets ok m es)
  | [], _ => isTrue trivial
  | (c, a) :: es, m =>
    match h : step m c a with
    | none => decidable_of_iff (ok m c a) (by simp [Meets, h])
    | some m' =>
      have := instDecidableMeets ok es m'
      decidable_of_iff (ok m c a ∧ Meets ok m' es) (by simp [Meets, h])

theorem Reach.of_trace [DecidableEq L] {ok : Machine n L → Fin n → Act L → Prop} : ∀ {es : List (Fin n × Act L)}
    {m m' : Machine n L}, Reach ok m → Meets ok m es → trace m es = some m' → Reach ok m' := by
  intro es
  induction es with
  | nil => intro m m' h _ he; cases he; exact h
  | cons e es ih =>
    intro m m' h hok he
    obtain ⟨m1, h1, h2⟩ := Option.bind_eq_some_iff.mp he
    exact ih (h.step hok.1 h1) (hok.2 m1 h1) h2

/-! ## What the locks promise -/

/-- CPU `d` queued up right behind `c` on `l` and was not woken yet. -/
def Behind (m : Machine n L) (l : L) (c d : Fin n) : Prop :=
  m.pc d = .lockLink l (mcsNode c) ∨ (m.pc d = .lockSpin l (mcsNode c) ∧ (m.node d).locked = false)

/-- CPU `c` holds `l` or is queued on it. -/
def On (m : Machine n L) (l : L) (c : Fin n) : Prop :=
  l ∈ m.held c ∨ ∃ prev, m.pc c = .lockLink l prev ∨ m.pc c = .lockSpin l prev

structure Safe (m : Machine n L) : Prop where
  exclusive : ∀ l c d, l ∈ m.held c → l ∈ m.held d → c = d
  /-- An unlock that clears the tail leaves nobody behind. -/
  clears : ∀ l c, m.pc c = .unlockCas l → m.tail l = some (mcsNode c) → ∀ d, On m l d → d = c
  /-- An unlock that waits for its successor has one, which links itself or has. -/
  waits : ∀ l c, m.pc c = .unlockWait l ∨ m.pc c = .unlockNext l → ∃ d, Behind m l c d ∧
    (m.pc d = .lockSpin l (mcsNode c) → (m.node c).next = some (mcsNode d))
  /-- An unlock that hands over hands to the CPU behind it on the same lock. -/
  hands : ∀ l c x, m.pc c = .unlockPass l x → ∃ d, x = mcsNode d ∧ Behind m l c d ∧ m.pc d = .lockSpin l (mcsNode c)

/-- A CPU starts to take a lock, or enters a queue, with nobody queued behind it, and it
    queues behind a CPU that is on no other lock. -/
def Apart (m : Machine n L) (c : Fin n) (a : Act L) : Prop :=
  match m.pc c, a with
  | .idle, .lock _ | .idle, .tryLock _ => ∀ l d, ¬ Behind m l c d
  | .lockSwap l, .go => (∀ l' d, ¬ Behind m l' c d) ∧ ∀ p, m.tail l = some (mcsNode p) → ∀ l', On m l' p → l' = l
  | .tryCas l, .go => m.tail l = none → ∀ l' d, ¬ Behind m l' c d
  | _, _ => True

instance [DecidableEq L] (m : Machine n L) (l : L) (c d : Fin n) : Decidable (Behind m l c d) :=
  inferInstanceAs (Decidable (_ ∨ _))

instance [DecidableEq L] (m : Machine n L) (l : L) (c : Fin n) : Decidable (On m l c) :=
  inferInstanceAs (Decidable (_ ∨ _))

instance [DecidableEq L] [Fintype L] (m : Machine n L) (c : Fin n) (a : Act L) : Decidable (Apart m c a) := by
  unfold Apart
  split <;> infer_instance

end Myos.Sync
