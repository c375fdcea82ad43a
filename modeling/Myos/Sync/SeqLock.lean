/-
  Myos.Sync.SeqLock — the sequence lock (include/sync/seqlock.h).

  Each step is one load, one store or one operation of the spinlock, and the steps are
  sequentially consistent. `sequence++` is a load and a store; a writer may store any number of
  data words in between. `read_seqbegin` returns the sequence whatever it is, and
  `read_seqretry` compares it with the sequence there is then, nothing else.

  Proved: with fewer than 2^31 writes during a read that is not to be retried, its loads saw
  one completed write and no writer at work, exactly if the sequence was even at its start.
-/

import Mathlib
import Myos.Lib.Runs

namespace Myos.Sync.SeqLock

open Lib

/-- Where a writer is; `r` is the sequence it loaded. -/
inductive Pc where
  | idle
  | locked
  | loaded (r : BitVec 32)
  | writing
  | closing (r : BitVec 32)
  | closed
  deriving DecidableEq, Repr

/-- Between `write_seqlock` and the end of the increment in `write_sequnlock`. -/
def Pc.inside : Pc → Bool
  | .writing => true
  | .closing _ => true
  | _ => false

/-- A load of the reader: what it returned, whether a writer was in its critical section, and how
    many writes were completed. -/
structure Load (X V : Type*) where
  place : X
  value : V
  writing : Bool
  done : Nat
  deriving DecidableEq, Repr

/-- A read since `read_seqbegin`, with the numbers of writes begun and completed at its start. -/
structure Read (X V : Type*) where
  seq : BitVec 32
  begun : Nat
  done : Nat
  loads : List (Load X V)
  deriving DecidableEq, Repr

/-- `published`: the data at first and after every completed write. -/
structure Machine (W X V : Type*) where
  sequence : BitVec 32
  holder : Option W
  mem : X → V
  pc : W → Pc
  reader : Option (Read X V)
  begun : Nat
  published : List (X → V)

inductive Act (W X V : Type*) where
  | lock (w : W)
  | load (w : W)
  | store (w : W)
  | write (w : W) (x : X) (v : V)
  | unlock (w : W)
  | seqbegin
  | read (x : X)
  | seqretry
  deriving DecidableEq, Repr

variable {W X V : Type*}

namespace Machine

def goto [DecidableEq W] (m : Machine W X V) (w : W) (pc : Pc) : Machine W X V := { m with pc := Function.update m.pc w pc }

/-- A writer is in its critical section. -/
def writing (m : Machine W X V) : Bool := m.holder.any fun w => (m.pc w).inside

/-- The writes completed. -/
def done (m : Machine W X V) : Nat := m.published.length - 1

end Machine

/-- `none`: the thread is not at this operation, or the lock is taken. -/
def step [DecidableEq W] [DecidableEq X] (m : Machine W X V) : Act W X V → Option (Machine W X V)
  | .lock w => if m.pc w = .idle ∧ m.holder.isNone then some ({ m with holder := some w }.goto w .locked) else none
  | .load w =>
    match m.pc w with
    | .locked => some (m.goto w (.loaded m.sequence))
    | .writing => some (m.goto w (.closing m.sequence))
    | _ => none
  | .store w =>
    match m.pc w with
    | .loaded r => some ({ m with sequence := r + 1, begun := m.begun + 1 }.goto w .writing)
    | .closing r => some ({ m with sequence := r + 1, published := m.published ++ [m.mem] }.goto w .closed)
    | _ => none
  | .write w x v => if m.pc w = .writing then some { m with mem := Function.update m.mem x v } else none
  | .unlock w => if m.pc w = .closed then some ({ m with holder := none }.goto w .idle) else none
  | .seqbegin => if m.reader.isNone then some { m with reader := some ⟨m.sequence, m.begun, m.done, []⟩ } else none
  | .read x => m.reader.map fun r => { m with reader := some { r with loads := r.loads ++ [⟨x, m.mem x, m.writing, m.done⟩] } }
  | .seqretry => m.reader.map fun _ => { m with reader := none }

/-- What `read_seqretry` returns. -/
def readSeqretry (m : Machine W X V) (r : Read X V) : Bool := r.seq ≠ m.sequence

/-- `SEQLOCK_UNLOCKED`, and nobody at work. -/
def Start (m : Machine W X V) : Prop :=
  m.sequence = 0 ∧ m.holder = none ∧ (∀ w, m.pc w = .idle) ∧ m.reader = none ∧ m.begun = 0 ∧ m.published = [m.mem]

/-- The loads saw the data of one write after it was completed, and no writer was in its critical
    section at any of them or between them. -/
def Consistent (m : Machine W X V) (r : Read X V) : Prop :=
  ∃ k f, m.published[k]? = some f ∧ ∀ l ∈ r.loads, l.writing = false ∧ l.done = k ∧ l.value = f l.place

/-- Reads start at an even sequence. -/
def Even (m : Machine W X V) (e : Act W X V) : Prop := e = .seqbegin → m.sequence.toNat % 2 = 0

instance [DecidableEq W] [DecidableEq X] [DecidableEq V] (m : Machine W X V) (e : Act W X V) : Decidable (Even m e) :=
  inferInstanceAs (Decidable (e = .seqbegin → m.sequence.toNat % 2 = 0))

/-! ## What is known in every run -/

/-- The read `r` in the state `m`. -/
structure ReadInv (m : Machine W X V) (r : Read X V) : Prop where
  seq : r.seq = BitVec.ofNat 32 (r.begun + r.done)
  phase : r.begun = r.done ∨ r.begun = r.done + 1
  begun : r.begun ≤ m.begun
  done : r.done ≤ m.done
  order : ∀ l ∈ r.loads, r.done ≤ l.done ∧ l.done ≤ m.done ∧ r.begun ≤ l.done + l.writing.toNat ∧
    l.done + l.writing.toNat ≤ m.begun
  value : ∀ l ∈ r.loads, l.writing = false → ∃ f, m.published[l.done]? = some f ∧ l.value = f l.place

structure Inv (m : Machine W X V) : Prop where
  holder : ∀ w, m.pc w ≠ .idle ↔ m.holder = some w
  seq : m.sequence = BitVec.ofNat 32 (m.begun + m.done)
  published : m.published ≠ []
  phase : m.begun = m.done + m.writing.toNat
  loaded : ∀ w r, m.pc w = .loaded r ∨ m.pc w = .closing r → r = m.sequence
  data : m.writing = false → m.published[m.done]? = some m.mem
  reader : ∀ r ∈ m.reader, ReadInv m r

variable {m m' : Machine W X V} {e : Act W X V} {r : Read X V} {w : W} {pc : Pc}

theorem Start.inv (h : Start m) : Inv m := by
  obtain ⟨hs, hh, hp, hr, hb, hpub⟩ := h
  have hd : m.done = 0 := by rw [Machine.done, hpub]; rfl
  have hw : m.writing = false := by rw [Machine.writing, hh]; rfl
  refine ⟨fun w => ?_, ?_, ?_, ?_, fun w r hc => ?_, fun _ => ?_, fun r hm => ?_⟩
  · simp [hp w, hh]
  · rw [hs, hb, hd]
    rfl
  · simp [hpub]
  · rw [hb, hd, hw]
    rfl
  · simp [hp w] at hc
  · rw [hpub, hd]
    rfl
  · rw [hr] at hm
    cases hm

theorem Inv.holder_of (h : Inv m) (hw : m.pc w = pc) (hp : pc ≠ .idle) : m.holder = some w := (h.holder w).mp (hw ▸ hp)

theorem Inv.writing_of (h : Inv m) (hw : m.pc w = pc) (hp : pc ≠ .idle) : m.writing = pc.inside := by
  rw [Machine.writing, h.holder_of hw hp, Option.any_some, hw]

/-- What a read knows stays true while writes begin and are completed. -/
theorem ReadInv.grow (h : ReadInv m r) (hb : m.begun ≤ m'.begun) {t : List (X → V)} (hp : m'.published = m.published ++ t) :
    ReadInv m' r := by
  have hd : m.done ≤ m'.done := by
    rw [Machine.done, Machine.done, hp, List.length_append]
    omega
  refine ⟨h.seq, h.phase, h.begun.trans hb, h.done.trans hd, fun l hl => ?_, fun l hl hw => ?_⟩
  · obtain ⟨h1, h2, h3, h4⟩ := h.order l hl
    exact ⟨h1, h2.trans hd, h3, h4.trans hb⟩
  · obtain ⟨f, hf, hv⟩ := h.value l hl hw
    obtain ⟨hlt, -⟩ := List.getElem?_eq_some_iff.mp hf
    exact ⟨f, by rw [hp, List.getElem?_append_left hlt]; exact hf, hv⟩

/-- The writers without the lock do nothing. -/
theorem Inv.others (h : Inv m) (hw : m.holder = some w) {u : W} (hu : u ≠ w) : m.pc u = .idle := by
  by_contra hn
  exact hu (Option.some.inj (((h.holder u).mp hn).symm.trans hw))

/-- A step of the writer with the lock, or of one that takes it. -/
theorem Inv.writer [DecidableEq W] (h : Inv m) {t : List (X → V)} (hpc : m'.pc = Function.update m.pc w pc) (hh : m'.holder = some w)
    (hother : ∀ u, u ≠ w → m.pc u = .idle) (hp : pc ≠ .idle) (hr : m'.reader = m.reader) (hb : m.begun ≤ m'.begun)
    (hpub : m'.published = m.published ++ t) (hs : m'.sequence = BitVec.ofNat 32 (m'.begun + m'.done))
    (hphase : m'.begun = m'.done + pc.inside.toNat) (hl : ∀ r, pc = .loaded r ∨ pc = .closing r → r = m'.sequence)
    (hd : pc.inside = false → m'.published[m'.done]? = some m'.mem) : Inv m' := by
  have hpcw : m'.pc w = pc := by rw [hpc, Function.update_self]
  have hpcu : ∀ u, u ≠ w → m'.pc u = .idle := by
    intro u hu
    rw [hpc, Function.update_of_ne hu]
    exact hother u hu
  have hw : m'.writing = pc.inside := by rw [Machine.writing, hh, Option.any_some, hpcw]
  refine ⟨fun u => ?_, hs, ?_, ?_, fun u r hc => ?_, fun hf => hd (hw ▸ hf), fun r hm => ?_⟩
  · by_cases hu : u = w
    · subst hu
      exact iff_of_true (hpcw ▸ hp) hh
    · refine iff_of_false (fun hn => hn (hpcu u hu)) fun he => ?_
      exact hu (Option.some.inj (he.symm.trans hh))
  · intro he
    have hne := h.published
    simp [hpub, hne] at he
  · rw [hw]
    exact hphase
  · by_cases hu : u = w
    · subst hu
      exact hl r (hpcw ▸ hc)
    · rw [hpcu u hu] at hc
      simp at hc
  · rw [hr] at hm
    exact (h.reader r hm).grow hb hpub

theorem done_append (h : m.published ≠ []) (hp : m'.published = m.published ++ [m.mem]) : m'.done = m.done + 1 := by
  have h0 := List.length_pos_of_ne_nil h
  rw [Machine.done, Machine.done, hp, List.length_append, List.length_singleton]
  omega

/-- A load that is recorded. -/
theorem ReadInv.read (h : ReadInv m r) (hm : Inv m) (x : X) :
    ReadInv m { r with loads := r.loads ++ [⟨x, m.mem x, m.writing, m.done⟩] } := by
  have hb := h.begun
  have hphase := hm.phase
  refine ⟨h.seq, h.phase, hb, h.done, fun l hl => ?_, fun l hl hw => ?_⟩
  · rcases List.mem_append.mp hl with hl | hl
    · exact h.order l hl
    · obtain rfl := List.mem_singleton.mp hl
      exact ⟨h.done, Nat.le_refl _, hphase ▸ hb, Nat.le_of_eq hphase.symm⟩
  · rcases List.mem_append.mp hl with hl | hl
    · exact h.value l hl hw
    · obtain rfl := List.mem_singleton.mp hl
      exact ⟨m.mem, hm.data hw, rfl⟩

theorem Inv.step [DecidableEq W] [DecidableEq X] (h : Inv m) (hs : step m e = some m') : Inv m' := by
  have hseq := h.seq
  have hphase := h.phase
  cases e with
  | lock w =>
    obtain ⟨⟨hi, hn⟩, he⟩ := Option.ite_none_right_eq_some.mp hs
    cases he
    have hnone := Option.isNone_iff_eq_none.mp hn
    have hw : m.writing = false := by rw [Machine.writing, hnone]; rfl
    have hidle : ∀ u, m.pc u = .idle := by
      intro u
      by_contra hu
      cases ((h.holder u).mp hu).symm.trans hnone
    rw [hw] at hphase
    exact h.writer (t := []) rfl rfl (fun u _ => hidle u) (by simp) rfl (Nat.le_refl _) (List.append_nil _).symm hseq hphase
      (by simp) fun _ => h.data hw
  | load w =>
    rw [SeqLock.step] at hs
    split at hs
    · next hw =>
      cases hs
      have hhold := h.holder_of hw (by simp)
      have hin := h.writing_of hw (by simp)
      rw [hin] at hphase
      refine h.writer (t := []) rfl hhold (fun u => h.others hhold) (by simp) rfl (Nat.le_refl _) (List.append_nil _).symm hseq hphase
        (fun r hr => ?_) fun _ => h.data hin
      rcases hr with hr | hr
      · cases hr
        rfl
      · cases hr
    · next hw =>
      cases hs
      have hhold := h.holder_of hw (by simp)
      have hin := h.writing_of hw (by simp)
      rw [hin] at hphase
      refine h.writer (t := []) rfl hhold (fun u => h.others hhold) (by simp) rfl (Nat.le_refl _) (List.append_nil _).symm hseq hphase
        (fun r hr => ?_) fun hf => by cases hf
      rcases hr with hr | hr
      · cases hr
      · cases hr
        rfl
    · cases hs
  | store w =>
    rw [SeqLock.step] at hs
    split at hs
    · next r hw =>
      cases hs
      have hhold := h.holder_of hw (by simp)
      have hin : m.writing = false := h.writing_of hw (by simp)
      obtain rfl := h.loaded w r (Or.inl hw)
      rw [hin] at hphase
      refine h.writer (t := []) rfl hhold (fun u => h.others hhold) (by simp) rfl (Nat.le_succ _) (List.append_nil _).symm ?_ ?_
        (by simp) fun hf => by cases hf
      · show m.sequence + 1 = BitVec.ofNat 32 (m.begun + 1 + m.done)
        rw [hseq, Nat.add_right_comm]
        exact (BitVec.ofNat_add ..).symm
      · exact congrArg Nat.succ hphase
    · next r hw =>
      cases hs
      have hhold := h.holder_of hw (by simp)
      have hin : m.writing = true := h.writing_of hw (by simp)
      obtain rfl := h.loaded w r (Or.inr hw)
      rw [hin] at hphase
      generalize hm' : ({ m with sequence := m.sequence + 1, published := m.published ++ [m.mem] } : Machine W X V).goto w .closed = m'
      have hpub : m'.published = m.published ++ [m.mem] := by rw [← hm']; rfl
      have hdone := done_append h.published hpub
      have hbegun : m'.begun = m.begun := by rw [← hm']; rfl
      have h0 := List.length_pos_of_ne_nil h.published
      refine h.writer (w := w) (t := [m.mem]) (by rw [← hm']; rfl) (by rw [← hm']; exact hhold) (fun u => h.others hhold)
        (show Pc.closed ≠ .idle by simp) (by rw [← hm']; rfl) (Nat.le_of_eq hbegun.symm) hpub ?_ ?_ (by simp) fun _ => ?_
      · rw [hbegun, hdone, ← Nat.add_assoc, ← hm']
        show m.sequence + 1 = _
        rw [hseq]
        exact (BitVec.ofNat_add ..).symm
      · rw [hbegun, hdone]
        exact hphase
      · have hlen : m'.done = m.published.length := by
          rw [hdone, Machine.done]
          omega
        rw [hpub, hlen, List.getElem?_concat_length, ← hm']
        rfl
    · cases hs
  | write w x v =>
    obtain ⟨hw, he⟩ := Option.ite_none_right_eq_some.mp hs
    cases he
    have hhold := h.holder_of hw (by simp)
    have hin : m.writing = true := h.writing_of hw (by simp)
    rw [hin] at hphase
    exact h.writer (w := w) (t := []) (by rw [← hw, Function.update_eq_self]) hhold (fun u => h.others hhold)
      (show Pc.writing ≠ .idle by simp) rfl (Nat.le_refl _) (List.append_nil _).symm hseq hphase (by simp) fun hf => by cases hf
  | unlock w =>
    obtain ⟨hw, he⟩ := Option.ite_none_right_eq_some.mp hs
    cases he
    have hhold := h.holder_of hw (by simp)
    have hin : m.writing = false := h.writing_of hw (by simp)
    have hidle : ∀ u, Function.update m.pc w .idle u = .idle := by
      intro u
      by_cases hu : u = w
      · rw [hu, Function.update_self]
      · rw [Function.update_of_ne hu, h.others hhold hu]
    rw [hin] at hphase
    refine ⟨fun u => ?_, hseq, h.published, hphase, fun u r hc => ?_, fun _ => h.data hin, fun r hr =>
      (h.reader r hr).grow (t := []) (Nat.le_refl _) (List.append_nil _).symm⟩
    · exact iff_of_false (fun hn => hn (hidle u)) (by simp [Machine.goto])
    · rw [Machine.goto] at hc
      dsimp only at hc
      rw [hidle u] at hc
      simp at hc
  | seqbegin =>
    obtain ⟨hn, he⟩ := Option.ite_none_right_eq_some.mp hs
    cases he
    refine ⟨h.holder, hseq, h.published, hphase, h.loaded, h.data, fun r hr => ?_⟩
    cases hr
    refine ⟨hseq, ?_, Nat.le_refl _, Nat.le_refl _, fun l hl => (by cases hl), fun l hl => (by cases hl)⟩
    cases hw : m.writing
    · rw [hw] at hphase
      exact Or.inl hphase
    · rw [hw] at hphase
      exact Or.inr hphase
  | read x =>
    obtain ⟨r, hr, rfl⟩ := Option.map_eq_some_iff.mp hs
    refine ⟨h.holder, hseq, h.published, hphase, h.loaded, h.data, fun r' hr' => ?_⟩
    cases hr'
    have hread := (h.reader r hr).read h x
    exact hread.grow (t := []) (Nat.le_refl _) (List.append_nil _).symm
  | seqretry =>
    obtain ⟨r, hr, rfl⟩ := Option.map_eq_some_iff.mp hs
    exact ⟨h.holder, hseq, h.published, hphase, h.loaded, h.data, fun r' hr' => by cases hr'⟩

/-! ## Reads that are not retried -/

/-- With fewer than 2^31 writes the sequence did not come back to where it was. -/
theorem ReadInv.same (h : ReadInv m r) (hm : Inv m) (hfew : m.begun - r.begun < 2 ^ 31) (hr : readSeqretry m r = false) :
    m.begun = r.begun ∧ m.done = r.done := by
  have he : r.seq = m.sequence := by simpa [readSeqretry] using hr
  have hnat := congrArg BitVec.toNat he
  rw [h.seq, hm.seq, BitVec.toNat_ofNat, BitVec.toNat_ofNat] at hnat
  have hb := h.begun
  have hd := h.done
  have hp := h.phase
  have hle : m.done ≤ m.begun := Nat.le.intro hm.phase.symm
  omega

theorem ReadInv.even (h : ReadInv m r) : r.seq.toNat % 2 = 0 ↔ r.begun = r.done := by
  rw [h.seq, BitVec.toNat_ofNat]
  have hp := h.phase
  omega

theorem ReadInv.consistent (h : ReadInv m r) (hm : Inv m) (hfew : m.begun - r.begun < 2 ^ 31) (hr : readSeqretry m r = false)
    (he : r.begun = r.done) : Consistent m r := by
  obtain ⟨hb, hd⟩ := h.same hm hfew hr
  have hw : m.writing = false := by
    have hphase := hm.phase
    cases hw : m.writing
    · rfl
    · rw [hw] at hphase
      simp only [Bool.toNat_true] at hphase
      omega
  refine ⟨m.done, m.mem, hm.data hw, fun l hl => ?_⟩
  obtain ⟨h1, h2, h3, h4⟩ := h.order l hl
  have hlw : l.writing = false := by
    cases hlw : l.writing
    · rfl
    · rw [hlw] at h4
      simp only [Bool.toNat_true] at h4
      omega
  have hdone : l.done = m.done := by omega
  obtain ⟨f, hf, hv⟩ := h.value l hl hlw
  rw [hdone, hm.data hw] at hf
  cases hf
  exact ⟨hlw, hdone, hv⟩

/-- A read that started in a write and is not retried was inside it. -/
theorem ReadInv.torn (h : ReadInv m r) (hm : Inv m) (hfew : m.begun - r.begun < 2 ^ 31) (hr : readSeqretry m r = false)
    (hl : r.loads ≠ []) (hc : Consistent m r) : r.begun = r.done := by
  obtain ⟨hb, hd⟩ := h.same hm hfew hr
  obtain ⟨k, f, -, hall⟩ := hc
  obtain ⟨l, ls, he⟩ := List.exists_cons_of_ne_nil hl
  have hmem : l ∈ r.loads := he ▸ List.mem_cons_self ..
  obtain ⟨h1, h2, h3, -⟩ := h.order l hmem
  rw [(hall l hmem).1, Bool.toNat_false] at h3
  have hp := h.phase
  omega

theorem reach_inv [DecidableEq W] [DecidableEq X] {ok : Machine W X V → Act W X V → Prop} (h : Lib.Reach step ok Start m) : Inv m :=
  h.rule (P := Inv) (fun _ h => h.inv) fun _ _ _ hi _ hs => hi.step hs

/-- Reads that start at an even sequence keep it. -/
theorem reach_even [DecidableEq W] [DecidableEq X] (h : Lib.Reach step Even Start m) : ∀ r ∈ m.reader, r.seq.toNat % 2 = 0 := by
  refine h.rule (P := fun m => ∀ r ∈ m.reader, r.seq.toNat % 2 = 0) (fun m h r hr => ?_) fun m e m' hi hok hs r hr => ?_
  · rw [h.2.2.2.1] at hr
    cases hr
  · cases e with
    | seqbegin =>
      obtain ⟨-, he⟩ := Option.ite_none_right_eq_some.mp hs
      cases he
      cases hr
      exact hok rfl
    | read x =>
      obtain ⟨r', hr', rfl⟩ := Option.map_eq_some_iff.mp hs
      cases hr
      exact hi r' hr'
    | seqretry =>
      obtain ⟨r', hr', rfl⟩ := Option.map_eq_some_iff.mp hs
      cases hr
    | lock w =>
      obtain ⟨-, he⟩ := Option.ite_none_right_eq_some.mp hs
      cases he
      exact hi r hr
    | load w =>
      rw [SeqLock.step] at hs
      split at hs <;> cases hs <;> exact hi r hr
    | store w =>
      rw [SeqLock.step] at hs
      split at hs <;> cases hs <;> exact hi r hr
    | write w x v =>
      obtain ⟨-, he⟩ := Option.ite_none_right_eq_some.mp hs
      cases he
      exact hi r hr
    | unlock w =>
      obtain ⟨-, he⟩ := Option.ite_none_right_eq_some.mp hs
      cases he
      exact hi r hr

/-- In every run whose reads start at an even sequence, a read that is not to be retried is
    consistent; in any run, it is exactly if it started at an even sequence. -/
theorem reads_consistent [DecidableEq W] [DecidableEq X] :
    (∀ m : Machine W X V, Lib.Reach step Even Start m → ∀ r ∈ m.reader, m.begun - r.begun < 2 ^ 31 → readSeqretry m r = false →
      Consistent m r) ∧
    ∀ m : Machine W X V, Lib.Reach step (fun _ _ => True) Start m → ∀ r ∈ m.reader, r.loads ≠ [] → m.begun - r.begun < 2 ^ 31 →
      readSeqretry m r = false → (Consistent m r ↔ r.seq.toNat % 2 = 0) := by
  refine ⟨fun m h r hr hfew hretry => ?_, fun m h r hr hl hfew hretry => ?_⟩
  · have hm := reach_inv h
    have hread := hm.reader r hr
    exact hread.consistent hm hfew hretry (hread.even.mp (reach_even h r hr))
  · have hm := reach_inv h
    have hread := hm.reader r hr
    rw [hread.even]
    exact ⟨hread.torn hm hfew hretry hl, hread.consistent hm hfew hretry⟩

/-! ## A read inside a write -/

def startZero : Machine Unit Bool Nat := ⟨0, none, fun _ => 0, fun _ => .idle, none, 0, [fun _ => 0]⟩

/-- The reader comes when the write is completed. -/
def calmRead : List (Act Unit Bool Nat) :=
  [.lock (), .load (), .store (), .write () false 7, .load (), .store (), .unlock (), .seqbegin, .read false, .read true]

theorem start_startZero {m : Machine Unit Bool Nat} (h : some startZero = some m) : Start m := by
  cases h
  exact ⟨rfl, rfl, fun _ => rfl, rfl, rfl, rfl⟩

theorem reads_consistent_calmRead : ∃ (m : Machine Unit Bool Nat) (r : Read Bool Nat), m.reader = some r ∧
    r.loads.map Load.value = [7, 0] ∧ Consistent m r := by
  obtain ⟨m, hm, -, hd⟩ := exists_run step Even calmRead (o := some startZero)
    (fun m : Machine Unit Bool Nat => decide (m.begun = 1 ∧ m.sequence = 2 ∧
      m.reader = some ⟨2, 1, 1, [⟨false, 7, false, 1⟩, ⟨true, 0, false, 1⟩]⟩))
    (fun _ => start_startZero) (by decide) (by decide)
  obtain ⟨hb, hs, hr⟩ := of_decide_eq_true hd
  exact ⟨m, _, hr, rfl, reads_consistent.1 m hm _ hr (by rw [hb]; decide) (by rw [readSeqretry, hs]; decide)⟩

/-- The writer stores one of two words, and the reader reads both. -/
def tornRead : List (Act Unit Bool Nat) :=
  [.lock (), .load (), .store (), .write () false 7, .seqbegin, .read false, .read true]

theorem torn_read_accepted : ¬ ∀ m : Machine Unit Bool Nat, Lib.Reach step (fun _ _ => True) Start m → ∀ r ∈ m.reader,
    m.begun - r.begun < 2 ^ 31 → readSeqretry m r = false → Consistent m r := by
  intro h
  obtain ⟨m, hm, -, hd⟩ := exists_run step (fun _ _ => True) tornRead (o := some startZero)
    (fun m : Machine Unit Bool Nat => decide (m.begun = 1 ∧ m.sequence = 1 ∧
      m.reader = some ⟨1, 1, 0, [⟨false, 7, true, 0⟩, ⟨true, 0, true, 0⟩]⟩))
    (fun _ => start_startZero) (by decide) (by decide)
  obtain ⟨hb, hs, hr⟩ := of_decide_eq_true hd
  obtain ⟨k, f, -, hall⟩ := h m hm _ hr (by rw [hb]; decide) (by rw [readSeqretry, hs]; decide)
  exact Bool.noConfusion (hall _ (List.mem_cons_self ..)).1

end Myos.Sync.SeqLock
