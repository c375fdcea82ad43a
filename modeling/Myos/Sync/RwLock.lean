/-
  Myos.Sync.RwLock — the reader-writer lock (`rust/src/sync/mod.rs`).

  Each step is one atomic access, and the accesses are sequentially consistent. A slot
  is one acquisition with its guard, from the call to the end of the guard's drop, and
  is used again after that: `n` slots are up to `n` calls and guards at a time.

  Proved: with fewer than 2^31 slots the state is -1 exactly while there is one write
  guard and no read guard, and the number of read guards otherwise. A writer that waits
  comes before the read calls that start after its store as long as no other writer's
  drop clears `write_wait` under it.
-/

import Mathlib
import Myos.Lib.Census
import Myos.Lib.Runs

namespace Myos.Sync.RwLock

def writeLocked : Int := -1

def i32Max : Int := 2 ^ 31 - 1

/-- `fetch_sub(1)` on an `AtomicI32`. -/
def fetchSub (s : Int) : Int := (s - 1).bmod (2 ^ 32)

/-- The access a slot makes next. `s` is the local variable of `read`. -/
inductive Pc where
  | idle
  | readWait
  | readState
  | readCas (s : Int)
  | reading
  | readFence
  | writeCas
  | writing
  | writeUnlock
  | panicked
  deriving DecidableEq, Repr

/-- `ahead c`: the writers that had stored `write_wait` when the read call of slot `c`
    started and did not acquire since. -/
structure Machine (n : Nat) where
  state : Int
  writeWait : Bool
  pc : Fin n → Pc
  ahead : Fin n → Finset (Fin n)

inductive Act where
  | read
  | write
  | drop
  | go
  deriving DecidableEq, Repr

variable {n : Nat}

def new : Machine n := ⟨0, false, fun _ => .idle, fun _ => ∅⟩

namespace Machine

def goto (m : Machine n) (c : Fin n) (pc : Pc) : Machine n := { m with pc := Function.update m.pc c pc }

@[simp] theorem goto_self (m : Machine n) (c : Fin n) (pc : Pc) : (m.goto c pc).pc c = pc := Function.update_self ..

/-- The writers between their store and their acquisition. -/
def waiting (m : Machine n) : Finset (Fin n) := Finset.univ.filter fun w => m.pc w = .writeCas

def startRead (m : Machine n) (c : Fin n) : Machine n :=
  { m with ahead := Function.update m.ahead c m.waiting }.goto c .readWait

def acquireWrite (m : Machine n) (c : Fin n) : Machine n :=
  { m with state := writeLocked, ahead := fun r => (m.ahead r).erase c }.goto c .writing

end Machine

/-- `none`: the slot is not there, or the call is not one it may make. -/
def step (m : Machine n) (e : Fin n × Act) : Option (Machine n) :=
  match m.pc e.1, e.2 with
  | .idle, .read => some (m.startRead e.1)
  | .readWait, .go => some (if m.writeWait then m else m.goto e.1 .readState)
  | .readState, .go =>
    if 0 ≤ m.state then
      -- `s + 1` is checked for overflow
      if m.state = i32Max then some (m.goto e.1 .panicked) else some (m.goto e.1 (.readCas m.state))
    else some (m.goto e.1 .readWait)
  | .readCas s, .go =>
    some (if m.state = s then { m with state := s + 1 }.goto e.1 .reading else m.goto e.1 .readWait)
  | .reading, .drop =>
    some ({ m with state := fetchSub m.state }.goto e.1 (if m.state = 1 then .readFence else .idle))
  -- loads `write_wait` and may run a fence
  | .readFence, .go => some (m.goto e.1 .idle)
  | .idle, .write => some ({ m with writeWait := true }.goto e.1 .writeCas)
  | .writeCas, .go => some (if m.state = 0 then m.acquireWrite e.1 else m)
  | .writing, .drop => some ({ m with writeWait := false }.goto e.1 .writeUnlock)
  | .writeUnlock, .go => some ({ m with state := 0 }.goto e.1 .idle)
  | _, _ => none

/-- The slot has a read guard that was not dropped. -/
def Pc.Reads (pc : Pc) : Prop := pc = .reading

/-- The slot has a write guard; its drop ends with the store to `state`. -/
def Pc.Writes (pc : Pc) : Prop := pc = .writing ∨ pc = .writeUnlock

instance : DecidablePred Pc.Reads := fun pc => inferInstanceAs (Decidable (pc = .reading))
instance : DecidablePred Pc.Writes := fun pc => inferInstanceAs (Decidable (pc = .writing ∨ pc = .writeUnlock))

@[simp] theorem reads_iff {pc : Pc} : pc.Reads ↔ pc = .reading := Iff.rfl

@[simp] theorem writes_iff {pc : Pc} : pc.Writes ↔ pc = .writing ∨ pc = .writeUnlock := Iff.rfl

abbrev Reach (ok : Machine n → Fin n × Act → Prop) : Machine n → Prop := Lib.Reach step ok (· = new)

/-! ## Exclusion -/

/-- What the lock promises about its guards. -/
structure Exclusive (m : Machine n) : Prop where
  locked : m.state = -1 ↔ (∃! c, (m.pc c).Writes) ∧ ∀ d, ¬ (m.pc d).Reads
  counted : m.state ≠ -1 → m.state = (Finset.univ.filter fun d => (m.pc d).Reads).card
  apart : ∀ c d, (m.pc c).Writes → ((m.pc d).Writes → d = c) ∧ ¬ (m.pc d).Reads
  noPanic : ∀ c, m.pc c ≠ .panicked

abbrev Machine.readers (m : Machine n) : Nat := Lib.census Pc.Reads m.pc

abbrev Machine.writers (m : Machine n) : Nat := Lib.census Pc.Writes m.pc

/-- Either one writer and nobody else, or readers only. -/
structure Inv (m : Machine n) : Prop where
  guards : (m.state = -1 ∧ m.writers = 1 ∧ m.readers = 0) ∨ (m.state = m.readers ∧ m.writers = 0)
  loaded : ∀ c s, m.pc c = .readCas s → 0 ≤ s
  noPanic : ∀ c, m.pc c ≠ .panicked

theorem inv_new : Inv (new : Machine n) := by
  refine ⟨Or.inr ?_, fun _ _ h => (by cases h), fun _ h => (by cases h)⟩
  have hr : (new : Machine n).readers = 0 := Lib.census_eq_zero.mpr fun _ h => by cases h
  have hw : (new : Machine n).writers = 0 := Lib.census_eq_zero.mpr fun _ h => by rcases h with h | h <;> cases h
  rw [hr, hw]
  exact ⟨rfl, rfl⟩

/-- What one slot's move does to the guards. -/
theorem Inv.goto {m : Machine n} (h : Inv m) {c : Fin n} {pc : Pc} {v : Int} {w : Bool} {a : Fin n → Finset (Fin n)}
    (hs : ∀ s, pc = .readCas s → 0 ≤ s) (hp : pc ≠ .panicked)
    (hg : ∀ R W : Nat, R + (if (m.pc c).Reads then 1 else 0) = m.readers + (if pc.Reads then 1 else 0) →
      W + (if (m.pc c).Writes then 1 else 0) = m.writers + (if pc.Writes then 1 else 0) →
      (v = -1 ∧ W = 1 ∧ R = 0) ∨ (v = R ∧ W = 0)) :
    Inv (Machine.mk v w (Function.update m.pc c pc) a) := by
  refine ⟨hg _ _ (Lib.census_update _ _) (Lib.census_update _ _), fun d s hd => ?_, fun d hd => ?_⟩ <;> dsimp only at hd
  · by_cases e : d = c
    · subst e
      exact hs s (by rwa [Function.update_self] at hd)
    · exact h.loaded d s (by rwa [Function.update_of_ne e] at hd)
  · by_cases e : d = c
    · subst e
      exact hp (by rwa [Function.update_self] at hd)
    · exact h.noPanic d (by rwa [Function.update_of_ne e] at hd)

theorem Machine.readers_le (m : Machine n) : m.readers ≤ n := by
  have h := Finset.card_le_univ (Finset.univ.filter fun d => (m.pc d).Reads)
  rwa [Fintype.card_fin] at h

theorem Inv.readers_lt {m : Machine n} {c : Fin n} (hc : ¬ (m.pc c).Reads) : m.readers < n := by
  simpa using Lib.census_lt (p := Pc.Reads) hc

/-- A slot moves on with the guards it has. -/
theorem Inv.move {m : Machine n} (h : Inv m) {c : Fin n} {pc : Pc} {w : Bool} {a : Fin n → Finset (Fin n)}
    (hs : ∀ s, pc = .readCas s → 0 ≤ s) (hp : pc ≠ .panicked) (hR : (m.pc c).Reads ↔ pc.Reads)
    (hW : (m.pc c).Writes ↔ pc.Writes) : Inv (Machine.mk m.state w (Function.update m.pc c pc) a) := by
  apply h.goto hs hp
  intro R W hR' hW'
  simp only [hR] at hR'
  simp only [hW] at hW'
  have hg := h.guards
  have hR' : R = m.readers := Nat.add_right_cancel hR'
  have hW' : W = m.writers := Nat.add_right_cancel hW'
  rwa [hR', hW']

theorem Inv.step (hn : n < 2 ^ 31) {m m' : Machine n} {e : Fin n × Act} (h : Inv m) (hs : step m e = some m') : Inv m' := by
  obtain ⟨c, a⟩ := e
  have hg := h.guards
  unfold RwLock.step at hs
  dsimp only at hs
  split at hs
  next hc =>
    cases hs
    exact h.move (by simp) (by simp) (by simp [hc]) (by simp [hc])
  next hc =>
    cases hs
    split
    · exact h
    · exact h.move (by simp) (by simp) (by simp [hc]) (by simp [hc])
  next hc =>
    -- the readers are fewer than the slots: no overflow
    have hlt := Inv.readers_lt (m := m) (c := c) (by simp [hc])
    split at hs
    · rename_i h0
      rw [if_neg (by unfold i32Max; omega)] at hs
      cases hs
      exact h.move (by simpa using h0) (by simp) (by simp [hc]) (by simp [hc])
    · cases hs
      exact h.move (by simp) (by simp) (by simp [hc]) (by simp [hc])
  next s hc =>
    have h0 := h.loaded c s hc
    cases hs
    split
    · apply h.goto (by simp) (by simp)
      intro R W hR hW
      simp only [hc, reads_iff, writes_iff, reduceCtorEq, if_true, if_false, or_self] at hR hW
      dsimp only
      omega
    · exact h.move (by simp) (by simp) (by simp [hc]) (by simp [hc])
  next hc =>
    -- there is a reader, so the count is not 0 and does not wrap
    have hlt : m.readers ≤ n := m.readers_le
    have hpos : 0 < m.readers := Lib.census_pos.mpr ⟨c, hc⟩
    have hsub : fetchSub m.state = m.state - 1 := by
      unfold fetchSub
      rw [Int.bmod_def]
      omega
    cases hs
    apply h.goto (by split <;> simp) (by split <;> simp)
    intro R W hR hW
    have hne : ∀ x : Pc, x = (if m.state = 1 then .readFence else .idle) → ¬ x.Reads ∧ ¬ x.Writes := by
      rintro x rfl
      split <;> simp
    simp only [hc, hne _ rfl, reads_iff, writes_iff, reduceCtorEq, if_true, if_false, or_self] at hR hW
    dsimp only
    omega
  next hc =>
    cases hs
    exact h.move (by simp) (by simp) (by simp [hc]) (by simp [hc])
  next hc =>
    cases hs
    exact h.move (by simp) (by simp) (by simp [hc]) (by simp [hc])
  next hc =>
    cases hs
    split
    · apply h.goto (by simp) (by simp)
      intro R W hR hW
      simp only [hc, reads_iff, writes_iff, reduceCtorEq, if_true, if_false, or_self, true_or] at hR hW
      dsimp only [writeLocked]
      omega
    · exact h
  next hc =>
    cases hs
    exact h.move (by simp) (by simp) (by simp [hc]) (by simp [hc])
  next hc =>
    have hpos : 0 < m.writers := Lib.census_pos.mpr ⟨c, Or.inr hc⟩
    cases hs
    apply h.goto (by simp) (by simp)
    intro R W hR hW
    simp only [hc, reads_iff, writes_iff, reduceCtorEq, if_true, if_false, or_self, or_true] at hR hW
    dsimp only
    omega
  next => cases hs

theorem Reach.inv (hn : n < 2 ^ 31) {ok : Machine n → Fin n × Act → Prop} {m : Machine n} (h : Reach ok m) : Inv m :=
  Lib.Reach.rule (fun _ e => e ▸ inv_new) (fun _ _ _ hi _ hs => hi.step hn hs) h

theorem Inv.exclusive {m : Machine n} (h : Inv m) : Exclusive m := by
  have hR : (∀ d, ¬ (m.pc d).Reads) ↔ m.readers = 0 := Lib.census_eq_zero.symm
  have hW : (∃! c, (m.pc c).Writes) ↔ m.writers = 1 := Lib.census_eq_one.symm
  have hg := h.guards
  refine ⟨?_, fun hne => ?_, fun c d hc => ?_, h.noPanic⟩
  · rw [hR, hW]
    omega
  · have := hg.resolve_left fun e => hne e.1
    exact this.1
  · have hpos : 0 < m.writers := Lib.census_pos.mpr ⟨c, hc⟩
    have hone : m.writers = 1 ∧ m.readers = 0 := by omega
    refine ⟨fun hd => ?_, hR.mpr hone.2 d⟩
    obtain ⟨x, -, hx⟩ := hW.mpr hone.1
    rw [hx d hd, hx c hc]

/-- A writer never overlaps a reader or another writer, and the state says which it is. -/
theorem exclusive_reach (hn : n < 2 ^ 31) {m : Machine n} (h : Reach (fun _ _ => True) m) : Exclusive m := (h.inv hn).exclusive

-- the numerals of three slots
local instance threeSlots : NeZero 3 := ⟨by decide⟩

/-- Two readers get in and leave, then a writer gets the lock. -/
def readThenWrite : List (Fin 3 × Act) :=
  [(0, .read), (1, .read), (0, .go), (1, .go), (0, .go), (0, .go), (1, .go), (1, .go), (2, .write), (2, .go),
   (0, .drop), (1, .drop), (1, .go), (2, .go)]

theorem exclusive_reach_readThenWrite : ∃ m : Machine 3, Lib.trace step new readThenWrite = some m ∧ m.pc 2 = .writing ∧ Exclusive m := by
  obtain ⟨m, hr, ht, hp⟩ := (Lib.Reach.init rfl : Reach (fun _ _ => True) (new : Machine 3)).of_any
    (fun m : Machine 3 => decide (m.pc 2 = .writing)) (Lib.meets_true step readThenWrite _) (by decide)
  exact ⟨m, ht, of_decide_eq_true hp, exclusive_reach (by decide) hr⟩

/-! ## Writers first -/

/-- A read call that acquires now has no writer ahead that waits. -/
def WriterFirst (m : Machine n) : Prop :=
  ∀ c a m', step m (c, a) = some m' → ¬ (m.pc c).Reads → (m'.pc c).Reads → m.ahead c = ∅

/-- A writer that drops its guard, and clears `write_wait`, leaves no writer that waits. -/
def ClearsAlone (m : Machine n) (e : Fin n × Act) : Prop := m.pc e.1 = .writing → ∀ w, m.pc w ≠ .writeCas

structure Waits (m : Machine n) : Prop where
  flag : ∀ w, m.pc w = .writeCas → m.writeWait = true
  ahead : ∀ r w, w ∈ m.ahead r → m.pc w = .writeCas ∧ m.pc r = .readWait

section

variable {m m' : Machine n} {c : Fin n} {pc : Pc} {v : Int} {w : Bool}

/-- A slot that no writer waits with and that no writer is ahead of moves on. -/
theorem Waits.goto (h : Waits m) (hc : m.pc c ≠ .writeCas) (ha : m.pc c = .readWait → m.ahead c = ∅)
    (hpc : pc = .writeCas → w = true) (hw : m.writeWait = true → w = true ∨ ∀ w, m.pc w ≠ .writeCas) :
    Waits (Machine.mk v w (Function.update m.pc c pc) m.ahead) := by
  constructor
  · intro x hx
    dsimp only at hx ⊢
    by_cases e : x = c
    · subst e
      exact hpc (by rwa [Function.update_self] at hx)
    · rw [Function.update_of_ne e] at hx
      exact (hw (h.flag x hx)).resolve_right fun hn => hn x hx
  · intro r x hx
    obtain ⟨h1, h2⟩ := h.ahead r x hx
    have hxc : x ≠ c := fun e => hc (e ▸ h1)
    have hrc : r ≠ c := by
      rintro rfl
      rw [ha h2] at hx
      exact absurd hx (Finset.notMem_empty x)
    dsimp only
    rw [Function.update_of_ne hxc, Function.update_of_ne hrc]
    exact ⟨h1, h2⟩

theorem Waits.startRead (h : Waits m) (hc : m.pc c = .idle) : Waits (m.startRead c) := by
  have hpc : ∀ x, (m.startRead c).pc x = .writeCas ↔ m.pc x = .writeCas := by
    intro x
    by_cases e : x = c
    · subst e
      simp [Machine.startRead, Machine.goto, hc]
    · simp [Machine.startRead, Machine.goto, e]
  refine ⟨fun x hx => h.flag x ((hpc x).mp hx), fun r x hx => ?_⟩
  rw [hpc]
  by_cases e : r = c
  · subst e
    simp only [Machine.startRead, Machine.goto, Function.update_self, Machine.waiting, Finset.mem_filter] at hx ⊢
    exact ⟨hx.2, trivial⟩
  · simp only [Machine.startRead, Machine.goto, Function.update_of_ne e] at hx ⊢
    exact h.ahead r x hx

theorem Waits.acquireWrite (h : Waits m) (hc : m.pc c = .writeCas) : Waits (m.acquireWrite c) := by
  constructor
  · intro x hx
    by_cases e : x = c
    · subst e
      simp [Machine.acquireWrite, Machine.goto] at hx
    · simp only [Machine.acquireWrite, Machine.goto, Function.update_of_ne e] at hx
      exact h.flag x hx
  · intro r x hx
    obtain ⟨hxc, hx⟩ := Finset.mem_erase.mp hx
    obtain ⟨h1, h2⟩ := h.ahead r x hx
    have hrc : r ≠ c := by
      rintro rfl
      rw [hc] at h2
      cases h2
    simp only [Machine.acquireWrite, Machine.goto, Function.update_of_ne hxc, Function.update_of_ne hrc]
    exact ⟨h1, h2⟩

/-- A read call with a writer ahead does not get past the flag. -/
theorem Waits.step {e : Fin n × Act} (h : Waits m) (hok : ClearsAlone m e) (hs : step m e = some m') : Waits m' := by
  obtain ⟨c, a⟩ := e
  have hnot : ∀ {p : Pc}, m.pc c = p → p ≠ .readWait → m.pc c = .readWait → m.ahead c = ∅ :=
    fun hp hne hr => absurd (hp.symm.trans hr) hne
  have hflag : m.writeWait = true → m.writeWait = true ∨ ∀ w, m.pc w ≠ .writeCas := Or.inl
  unfold RwLock.step at hs
  dsimp only at hs
  split at hs
  next hc =>
    cases hs
    exact h.startRead hc
  next hc =>
    cases hs
    split
    · exact h
    · rename_i hf
      refine h.goto (by simp [hc]) (fun _ => ?_) (by simp) hflag
      rw [Finset.eq_empty_iff_forall_notMem]
      exact fun w hw => hf (h.flag w (h.ahead c w hw).1)
  next hc =>
    split at hs
    · split at hs
      · cases hs
        exact h.goto (by simp [hc]) (hnot hc (by simp)) (by simp) hflag
      · cases hs
        exact h.goto (by simp [hc]) (hnot hc (by simp)) (by simp) hflag
    · cases hs
      exact h.goto (by simp [hc]) (hnot hc (by simp)) (by simp) hflag
  next s hc =>
    cases hs
    split
    · exact h.goto (by simp [hc]) (hnot hc (by simp)) (by simp) hflag
    · exact h.goto (by simp [hc]) (hnot hc (by simp)) (by simp) hflag
  next hc =>
    cases hs
    exact h.goto (by simp [hc]) (hnot hc (by simp)) (by split <;> simp) hflag
  next hc =>
    cases hs
    exact h.goto (by simp [hc]) (hnot hc (by simp)) (by simp) hflag
  next hc =>
    cases hs
    exact h.goto (by simp [hc]) (hnot hc (by simp)) (by simp) fun _ => Or.inl rfl
  next hc =>
    cases hs
    split
    · exact h.acquireWrite hc
    · exact h
  next hc =>
    -- the drop clears the flag: nobody else needs it
    cases hs
    exact h.goto (by simp [hc]) (hnot hc (by simp)) (by simp) fun _ => Or.inr (hok hc)
  next hc =>
    cases hs
    exact h.goto (by simp [hc]) (hnot hc (by simp)) (by simp) hflag
  next => cases hs

theorem Reach.waits (h : Reach ClearsAlone m) : Waits m := by
  refine Lib.Reach.rule (fun _ e => ?_) (fun _ _ _ hi hok hs => hi.step hok hs) h
  subst e
  exact ⟨fun _ h => absurd h (by simp [new]), fun _ _ h => absurd h (Finset.notMem_empty _)⟩

/-- Only the CAS of a read call gives a read guard. -/
theorem step_reads {a : Act} (hs : step m (c, a) = some m') (h : ¬ (m.pc c).Reads) (h' : (m'.pc c).Reads) :
    ∃ s, m.pc c = .readCas s := by
  rw [reads_iff] at h h'
  unfold RwLock.step at hs
  dsimp only at hs
  split at hs
  next hc => cases hs; simp [Machine.startRead] at h'
  next hc => cases hs; split at h' <;> simp [hc] at h'
  next hc =>
    split at hs
    · split at hs <;> cases hs <;> simp at h'
    · cases hs; simp at h'
  next s hc => exact ⟨s, hc⟩
  next hc => exact absurd hc h
  next hc => cases hs; simp at h'
  next hc => cases hs; simp at h'
  next hc => cases hs; split at h' <;> simp [Machine.acquireWrite, hc] at h'
  next hc => cases hs; simp at h'
  next hc => cases hs; simp at h'
  next => cases hs

end

/-- While no drop clears the flag under another writer, a writer that waits comes before the
    read calls that start after its store. -/
theorem writerFirst_reach {m : Machine n} (h : Reach ClearsAlone m) : WriterFirst m := by
  intro c a m' hs hr hr'
  obtain ⟨s, hc⟩ := step_reads hs hr hr'
  rw [Finset.eq_empty_iff_forall_notMem]
  intro w hw
  have := (h.waits.ahead c w hw).2
  rw [hc] at this
  cases this

/-- A reader is in, a writer waits, another read call starts behind it and waits its turn. -/
def readerBehind : List (Fin 3 × Act) :=
  [(0, .read), (0, .go), (0, .go), (0, .go), (1, .write), (1, .go), (2, .read), (2, .go), (0, .drop), (0, .go), (1, .go)]

instance clearsAloneDecidable (m : Machine n) (e : Fin n × Act) : Decidable (ClearsAlone m e) :=
  inferInstanceAs (Decidable (m.pc e.1 = .writing → ∀ w, m.pc w ≠ .writeCas))

theorem writerFirst_reach_readerBehind :
    ∃ m : Machine 3, Lib.trace step new readerBehind = some m ∧ m.pc 1 = .writing ∧ WriterFirst m := by
  obtain ⟨m, hr, ht, hp⟩ := (Lib.Reach.init rfl : Reach ClearsAlone (new : Machine 3)).of_any
    (fun m : Machine 3 => decide (m.pc 1 = .writing)) (by decide : Lib.Meets step ClearsAlone (new : Machine 3) readerBehind) (by decide)
  exact ⟨m, ht, of_decide_eq_true hp, writerFirst_reach hr⟩

/-- Two writers: the first one's drop clears the flag under the second, and a read call that
    starts then gets in. -/
def twoWriters : List (Fin 3 × Act) :=
  [(0, .write), (0, .go), (1, .write), (0, .drop), (0, .go), (2, .read), (2, .go), (2, .go)]

theorem reader_overtakes : ¬ ∀ m : Machine 3, Reach (fun _ _ => True) m → WriterFirst m := by
  intro h
  obtain ⟨m, hr, -, hp⟩ := (Lib.Reach.init rfl : Reach (fun _ _ => True) (new : Machine 3)).of_any
    (fun m : Machine 3 => decide (m.ahead 2 = {1}) &&
      (step m (2, .go)).any fun m' : Machine 3 => decide (m.pc 2 = .readCas 0 ∧ m'.pc 2 = .reading))
    (Lib.meets_true step twoWriters _) (by decide)
  rw [Bool.and_eq_true, decide_eq_true_eq, Option.any_eq_true] at hp
  obtain ⟨ha, m', hs, hm⟩ := hp
  obtain ⟨hc, hm⟩ := of_decide_eq_true hm
  have := h m hr 2 .go m' hs (by simp [hc]) hm
  rw [ha] at this
  exact absurd this (by decide)

end Myos.Sync.RwLock
