/-
  Myos.Tty.Line — the line discipline of the terminal (`rust/src/kernel/tty.rs`): the bytes of
  the UART interrupt against the reader in `read_line`.

  `input_char` runs with interrupts masked on the processor that reads, so it is one step; the
  accesses of `read_line` are steps of their own, with a byte copied a step. Signals come at
  any time and go only when the reader is back in user mode. The ring buffer, which nothing
  uses, is left out.

  Proved:
  - `faithful_reach`: if no byte edits or ends a line while the line before it waits to be
    read, then the reads return the submitted lines, each once and in order.
  - `merged_lines`: two lines typed before the first is read come back as one.
-/

import Myos.Lib.Bytes
import Myos.Lib.Runs

namespace Myos.Terminal

open Lib (Buf Reach)

def lineBufSize : Nat := 256

def ctrlC : UInt8 := 3
def ctrlD : UInt8 := 4
def ctrlZ : UInt8 := 26
def backspace : UInt8 := 8
def del : UInt8 := 127
def cr : UInt8 := 13
def lf : UInt8 := 10

structure Tty where
  lineBuf : Buf
  lineLen : Nat
  lineReady : Bool

/-- Ctrl-C, Ctrl-Z and Ctrl-D: they touch no buffer. -/
def control (ch : UInt8) : Bool := ch = ctrlC ∨ ch = ctrlZ ∨ ch = ctrlD

def erases (ch : UInt8) : Bool := ch = backspace ∨ ch = del

def submits (ch : UInt8) : Bool := ch = cr ∨ ch = lf

/-- `input_char`, less echo and signals. -/
def Tty.inputChar (t : Tty) (ch : UInt8) : Tty :=
  if control ch then t
  else if erases ch then { t with lineLen := if t.lineLen > 0 then t.lineLen - 1 else t.lineLen }
  else if submits ch then { t with lineReady := true }
  else if t.lineLen < lineBufSize - 1 then { t with lineBuf := Function.update t.lineBuf t.lineLen ch, lineLen := t.lineLen + 1 }
  else t

/-- Where the reader is in `read_line` with a buffer of `n` bytes. -/
inductive Pc where
  | idle
  | wait (n : Nat)
  | check (n : Nat)
  | copy (n len : Nat) (got : List UInt8)
  | reset (n : Nat) (got : List UInt8)
  | clear (n : Nat) (got : List UInt8)
  deriving DecidableEq

/-- `typed`: all bytes so far. `outs`: what the reads that were not interrupted returned, and the
    size of their buffers. -/
structure Machine where
  tty : Tty
  fatal : Bool
  pc : Pc
  typed : List UInt8
  outs : List (Nat × List UInt8)

inductive Act where
  | input (ch : UInt8)
  | readLine (n : Nat)
  | go
  | signal
  | settle
  deriving DecidableEq

/-- One access of the reader. -/
def Machine.go (m : Machine) : Option Machine :=
  match m.pc with
  | .idle => none
  | .wait n => if m.tty.lineReady ∨ m.fatal then some { m with pc := .check n } else none
  | .check n =>
    if !m.tty.lineReady ∧ m.fatal then some { m with pc := .idle }
    else some { m with pc := .copy n m.tty.lineLen [] }
  | .copy n len got =>
    if got.length < min len n then some { m with pc := .copy n len (got ++ [m.tty.lineBuf got.length]) }
    else some { m with pc := .reset n got }
  | .reset n got => some { m with tty := { m.tty with lineLen := 0 }, pc := .clear n got }
  | .clear n got => some { m with tty := { m.tty with lineReady := false }, pc := .idle, outs := m.outs ++ [(n, got)] }

def step (m : Machine) : Act → Option Machine
  | .input ch => some { m with tty := m.tty.inputChar ch, typed := m.typed ++ [ch] }
  | .readLine n => if m.pc = .idle then some { m with pc := .wait n } else none
  | .go => m.go
  | .signal => some { m with fatal := true }
  | .settle => if m.pc = .idle then some { m with fatal := false } else none

def Tty.new : Tty := ⟨fun _ => 0, 0, false⟩

def boot (m : Machine) : Prop := m = ⟨Tty.new, false, .idle, [], []⟩

/-! ## Lines -/

/-- What a byte does to the line being edited and the lines submitted. -/
def edit (p : List UInt8 × List (List UInt8)) (ch : UInt8) : List UInt8 × List (List UInt8) :=
  if control ch then p
  else if erases ch then (p.1.dropLast, p.2)
  else if submits ch then ([], p.2 ++ [p.1])
  else if p.1.length < lineBufSize - 1 then (p.1 ++ [ch], p.2)
  else p

def edited (typed : List UInt8) : List UInt8 × List (List UInt8) := typed.foldl edit ([], [])

/-- The lines submitted so far. -/
def submitted (typed : List UInt8) : List (List UInt8) := (edited typed).2

/-- Every read returned the next line, cut at its buffer, and all lines were returned but the one
    that is ready, if there is one. -/
structure Faithful (m : Machine) : Prop where
  returned : List.Forall₂ (fun o line => o.2 = line.take o.1) m.outs ((submitted m.typed).take m.outs.length)
  complete : (submitted m.typed).length = m.outs.length + if m.tty.lineReady then 1 else 0

/-- The reader has reset the buffer. -/
def Pc.clearing : Pc → Bool
  | .clear _ _ => true
  | _ => false

/-- A byte comes when no line is ready, or does nothing, or edits after the reader is done with the
    line. -/
def InTurn (m : Machine) : Act → Prop
  | .input ch => m.tty.lineReady = false ∨ control ch = true ∨ (erases ch = true ∧ m.tty.lineLen = 0) ∨
      (submits ch = false ∧ m.pc.clearing = true)
  | _ => True

instance inTurnDecidable (m : Machine) : ∀ a, Decidable (InTurn m a)
  | .input ch => inferInstanceAs (Decidable (m.tty.lineReady = false ∨ control ch = true ∨
      (erases ch = true ∧ m.tty.lineLen = 0) ∨ (submits ch = false ∧ m.pc.clearing = true)))
  | .readLine _ | .go | .signal | .settle => isTrue trivial

variable {m m' : Machine} {ch : UInt8} {n : Nat}

/-- A line is as long as the buffer allows at most. -/
theorem submitted_length (typed : List UInt8) : (edited typed).1.length < lineBufSize ∧ ∀ line ∈ submitted typed, line.length < lineBufSize := by
  unfold submitted edited
  induction typed using List.reverseRecOn with
  | nil => exact ⟨Nat.zero_lt_succ _, by simp⟩
  | append_singleton l ch ih =>
    rw [List.foldl_append, List.foldl_cons, List.foldl_nil]
    generalize l.foldl edit ([], []) = p at ih
    obtain ⟨h1, h2⟩ := ih
    unfold edit
    split
    · exact ⟨h1, h2⟩
    · split
      · exact ⟨by rw [List.length_dropLast]; omega, h2⟩
      · split
        · refine ⟨Nat.zero_lt_succ _, fun line hl => ?_⟩
          rcases List.mem_append.mp hl with hl | hl
          · exact h2 line hl
          · rw [List.mem_singleton.mp hl]
            exact h1
        · split
          · next hlt =>
            refine ⟨?_, h2⟩
            rw [List.length_append, List.length_singleton]
            unfold lineBufSize at hlt ⊢
            omega
          · exact ⟨h1, h2⟩

theorem edited_append (typed : List UInt8) (ch : UInt8) : edited (typed ++ [ch]) = edit (edited typed) ch := by
  rw [edited, List.foldl_append]
  rfl

/-! ## The invariant -/

def Tty.line (t : Tty) : List UInt8 := (List.range t.lineLen).map t.lineBuf

/-- What the reader holds of the line. -/
def Pc.Holds (ln : List UInt8) : Pc → Prop
  | .copy n len got => len = ln.length ∧ got = ln.take got.length ∧ got.length ≤ min len n
  | .reset n got | .clear n got => got = ln.take n
  | _ => True

/-- The reader is past its check. -/
def Pc.reads : Pc → Bool
  | .copy _ _ _ | .reset _ _ | .clear _ _ => true
  | _ => false

theorem Pc.not_reads : ∀ pc : Pc, pc.reads = false → pc.clearing = false ∧ ∀ ln, pc.Holds ln
  | .idle, _ | .wait _, _ | .check _, _ => ⟨rfl, fun _ => trivial⟩

/-- `done`: the lines returned. Until the reader has reset the buffer it holds the line that is
    ready, and after that the line being edited. -/
structure Inv (m : Machine) (done : List (List UInt8)) : Prop where
  returned : List.Forall₂ (fun o ln => o.2 = ln.take o.1) m.outs done
  quiet : m.tty.lineReady = false → submitted m.typed = done ∧ m.tty.line = (edited m.typed).1 ∧ m.pc.reads = false
  ready : m.tty.lineReady = true → ∃ ln, submitted m.typed = done ++ [ln] ∧ m.pc.Holds ln ∧
    if m.pc.clearing then m.tty.line = (edited m.typed).1 else m.tty.line = ln ∧ (edited m.typed).1 = []
  checked : ∀ n, m.pc = .check n → m.tty.lineReady = true ∨ m.fatal = true

theorem length_line (t : Tty) : t.line.length = t.lineLen := by rw [Tty.line, List.length_map, List.length_range]

/-- Editing: the line of the terminal changes as the line being edited, and nothing is submitted. -/
theorem line_inputChar {t : Tty} (p : List UInt8 × List (List UInt8)) (hs : submits ch = false) (h : t.line = p.1) :
    (t.inputChar ch).line = (edit p ch).1 ∧ (edit p ch).2 = p.2 ∧ (t.inputChar ch).lineReady = t.lineReady := by
  have hlen : p.1.length = t.lineLen := by rw [← h, length_line]
  unfold Tty.inputChar edit
  split
  · exact ⟨h, rfl, rfl⟩
  · split
    · refine ⟨?_, rfl, rfl⟩
      rw [← h]
      unfold Tty.line
      rw [List.dropLast_eq_take, ← List.map_take, List.take_range, List.length_map, List.length_range]
      dsimp only
      congr 2
      split <;> omega
    · rw [hs, if_neg Bool.false_ne_true, if_neg Bool.false_ne_true, hlen]
      split
      · refine ⟨?_, rfl, rfl⟩
        rw [← h]
        unfold Tty.line
        dsimp only
        rw [List.range_succ, List.map_append, List.map_singleton, Function.update_self]
        congr 1
        refine List.map_congr_left fun k hk => ?_
        rw [Function.update_of_ne (Nat.ne_of_lt (List.mem_range.mp hk))]
      · exact ⟨h, rfl, rfl⟩

namespace Inv

variable {done : List (List UInt8)}

/-- A byte that changes neither the terminal nor the line being edited. -/
theorem same (h : Inv m done) {typed : List UInt8} (he : edited typed = edited m.typed) : Inv { m with typed := typed } done := by
  have hs : submitted typed = submitted m.typed := congrArg Prod.snd he
  refine ⟨h.returned, fun hr => ?_, fun hr => ?_, h.checked⟩
  · rw [hs, he]
    exact h.quiet hr
  · dsimp only
    rw [hs, he]
    exact h.ready hr

/-- A byte that edits the line the terminal holds. -/
theorem edit (h : Inv m done) (hs : submits ch = false) (hl : m.tty.line = (edited m.typed).1)
    (hc : m.tty.lineReady = false ∨ m.pc.clearing = true) :
    Inv { m with tty := m.tty.inputChar ch, typed := m.typed ++ [ch] } done := by
  obtain ⟨h1, h2, h3⟩ := line_inputChar (edited m.typed) hs hl
  have hsub : submitted (m.typed ++ [ch]) = submitted m.typed := by
    rw [submitted, edited_append, h2]
    rfl
  refine ⟨h.returned, fun hr => ?_, fun hr => ?_, fun n hn => ?_⟩
  · obtain ⟨hq1, -, hq3⟩ := h.quiet (h3 ▸ hr)
    exact ⟨hsub.trans hq1, by rw [edited_append]; exact h1, hq3⟩
  · have hr' : m.tty.lineReady = true := h3 ▸ hr
    obtain ⟨ln, hq1, hq2, -⟩ := h.ready hr'
    have hcl : m.pc.clearing = true := hc.resolve_left fun e => by rw [e] at hr'; cases hr'
    refine ⟨ln, hsub.trans hq1, hq2, ?_⟩
    dsimp only
    rw [if_pos hcl, edited_append]
    exact h1
  · dsimp only
    rw [h3]
    exact h.checked n hn

/-- The end of a line, no line being ready. -/
theorem submit (h : Inv m done) (hr : m.tty.lineReady = false) (hc : control ch = false) (he : erases ch = false) (hs : submits ch = true) :
    Inv { m with tty := m.tty.inputChar ch, typed := m.typed ++ [ch] } done := by
  obtain ⟨hq1, hq2, hq3⟩ := h.quiet hr
  have htty : m.tty.inputChar ch = { m.tty with lineReady := true } := by
    unfold Tty.inputChar
    rw [hc, he, hs]
    rfl
  have hed : edited (m.typed ++ [ch]) = ([], submitted m.typed ++ [(edited m.typed).1]) := by
    rw [edited_append]
    unfold Terminal.edit
    rw [hc, he, hs]
    rfl
  obtain ⟨hncl, hh⟩ := m.pc.not_reads hq3
  rw [htty]
  refine ⟨h.returned, fun hr => (by cases hr), fun _ => ⟨(edited m.typed).1, ?_, hh _, ?_⟩, fun _ _ => Or.inl rfl⟩
  · show (edited (m.typed ++ [ch])).2 = _
    rw [hed, hq1]
  · dsimp only
    rw [if_neg (by rw [hncl]; exact Bool.false_ne_true), hed]
    exact ⟨hq2, rfl⟩

theorem input (h : Inv m done) (ht : InTurn m (.input ch)) :
    Inv { m with tty := m.tty.inputChar ch, typed := m.typed ++ [ch] } done := by
  -- a byte that does nothing
  have hnop : m.tty.inputChar ch = m.tty → Terminal.edit (edited m.typed) ch = edited m.typed →
      Inv { m with tty := m.tty.inputChar ch, typed := m.typed ++ [ch] } done := by
    intro h1 h2
    rw [h1]
    exact h.same (by rw [edited_append, h2])
  cases hc : control ch with
  | true => exact hnop (by unfold Tty.inputChar; rw [hc]; rfl) (by unfold Terminal.edit; rw [hc]; rfl)
  | false =>
    cases hr : m.tty.lineReady with
    | false =>
      cases hs : submits ch with
      | false => exact h.edit hs (h.quiet hr).2.1 (Or.inl hr)
      | true =>
        refine h.submit hr hc ?_ hs
        unfold submits at hs
        unfold erases
        rw [decide_eq_true_eq] at hs
        rcases hs with rfl | rfl <;> decide
    | true =>
      obtain ⟨ln, -, -, hline⟩ := h.ready hr
      have ht' : (erases ch = true ∧ m.tty.lineLen = 0) ∨ (submits ch = false ∧ m.pc.clearing = true) := by
        rcases ht with e | e | e | e
        · rw [hr] at e
          cases e
        · rw [hc] at e
          cases e
        · exact Or.inl e
        · exact Or.inr e
      rcases ht' with ⟨he, h0⟩ | ⟨hs, hp⟩
      · have hnil : (edited m.typed).1 = [] := by
          split at hline
          · rw [← hline, Tty.line, h0]
            rfl
          · exact hline.2
        refine hnop ?_ ?_
        · unfold Tty.inputChar
          rw [hc, he, h0]
          exact congrArg (fun k => { m.tty with lineLen := k }) h0.symm
        · unfold Terminal.edit
          rw [hc, he, hnil]
          exact Prod.ext hnil.symm rfl
      · rw [if_pos hp] at hline
        exact h.edit hs hline (Or.inr hp)

/-- One access of the reader. -/
theorem go (h : Inv m done) (hg : m.go = some m') : ∃ done, Inv m' done := by
  unfold Machine.go at hg
  split at hg
  · cases hg
  · next n hp =>
    split at hg
    · next hw =>
      cases hg
      refine ⟨done, h.returned, fun hr => ?_, fun hr => ?_, fun _ _ => hw⟩
      · exact ⟨(h.quiet hr).1, (h.quiet hr).2.1, rfl⟩
      · obtain ⟨ln, h1, -, h3⟩ := h.ready hr
        rw [hp] at h3
        exact ⟨ln, h1, trivial, h3⟩
    · cases hg
  · next n hp =>
    split at hg
    · cases hg
      refine ⟨done, h.returned, fun hr => ?_, fun hr => ?_, fun _ hn => by cases hn⟩
      · exact ⟨(h.quiet hr).1, (h.quiet hr).2.1, rfl⟩
      · obtain ⟨ln, h1, -, h3⟩ := h.ready hr
        rw [hp] at h3
        exact ⟨ln, h1, trivial, h3⟩
    · next hc =>
      cases hg
      have hr : m.tty.lineReady = true := by
        rcases h.checked n hp with hr | hf
        · exact hr
        · by_contra hr
          exact hc ⟨by simpa using hr, hf⟩
      obtain ⟨ln, h1, -, h3⟩ := h.ready hr
      rw [hp] at h3
      refine ⟨done, h.returned, fun hr' => ?_, fun _ => ⟨ln, h1, ⟨?_, rfl, Nat.zero_le _⟩, h3⟩, fun _ hn => by cases hn⟩
      · dsimp only at hr'
        rw [hr] at hr'
        cases hr'
      · rw [← h3.1, length_line]
  · next n len got hp =>
    have hr : m.tty.lineReady = true := by
      by_contra hr
      have := (h.quiet (Bool.eq_false_iff.mpr hr)).2.2
      rw [hp] at this
      cases this
    obtain ⟨ln, h1, ⟨hlen, hgot, hle⟩, h3⟩ := hp ▸ h.ready hr
    have hno : ∀ {b : Prop}, m.tty.lineReady = false → b := fun e => by rw [hr] at e; cases e
    split at hg
    · next hlt =>
      cases hg
      have hll : m.tty.lineLen = ln.length := by rw [← h3.1, length_line]
      have hk : got.length < ln.length := by omega
      have hbyte : m.tty.lineBuf got.length = ln[got.length] := by
        simp only [← h3.1, Tty.line, List.getElem_map, List.getElem_range]
      refine ⟨done, h.returned, fun e => hno e, fun _ => ⟨ln, h1, ⟨hlen, ?_, ?_⟩, h3⟩, fun _ hn => by cases hn⟩
      · rw [List.length_append, List.length_singleton, hbyte, List.take_succ_eq_append_getElem hk, ← hgot]
      · rw [List.length_append, List.length_singleton]
        omega
    · next hge =>
      cases hg
      refine ⟨done, h.returned, fun e => hno e, fun _ => ⟨ln, h1, ?_, h3⟩, fun _ hn => by cases hn⟩
      show got = ln.take n
      rw [hgot]
      have : got.length = min ln.length n := by omega
      rw [this, List.take_eq_take_iff]
      omega
  · next n got hp =>
    have hr : m.tty.lineReady = true := by
      by_contra hr
      have := (h.quiet (Bool.eq_false_iff.mpr hr)).2.2
      rw [hp] at this
      cases this
    obtain ⟨ln, h1, hgot, h3⟩ := hp ▸ h.ready hr
    cases hg
    refine ⟨done, h.returned, fun e => ?_, fun _ => ⟨ln, h1, hgot, ?_⟩, fun _ hn => by cases hn⟩
    · dsimp only at e
      rw [hr] at e
      cases e
    · have hnil : (edited m.typed).1 = [] := h3.2
      show Tty.line { m.tty with lineLen := 0 } = (edited m.typed).1
      rw [hnil]
      rfl
  · next n got hp =>
    have hr : m.tty.lineReady = true := by
      by_contra hr
      have := (h.quiet (Bool.eq_false_iff.mpr hr)).2.2
      rw [hp] at this
      cases this
    obtain ⟨ln, h1, hgot, h3⟩ := hp ▸ h.ready hr
    cases hg
    refine ⟨done ++ [ln], ?_, fun _ => ⟨h1, h3, rfl⟩, fun e => (by cases e), fun _ hn => by cases hn⟩
    exact List.rel_append h.returned (.cons hgot .nil)

theorem step {a : Act} (h : Inv m done) (ht : InTurn m a) (hs : step m a = some m') : ∃ done, Inv m' done := by
  cases a with
  | input ch =>
    cases hs
    exact ⟨done, h.input ht⟩
  | readLine n =>
    unfold Terminal.step at hs
    dsimp only at hs
    split at hs
    · next hp =>
      cases hs
      refine ⟨done, h.returned, fun hr => ?_, fun hr => ?_, fun _ hn => by cases hn⟩
      · exact ⟨(h.quiet hr).1, (h.quiet hr).2.1, rfl⟩
      · obtain ⟨ln, h1, -, h3⟩ := h.ready hr
        rw [hp] at h3
        exact ⟨ln, h1, trivial, h3⟩
    · cases hs
  | go => exact h.go hs
  | signal =>
    cases hs
    exact ⟨done, h.returned, h.quiet, h.ready, fun _ _ => Or.inr rfl⟩
  | settle =>
    unfold Terminal.step at hs
    dsimp only at hs
    split at hs
    · next hp =>
      cases hs
      exact ⟨done, h.returned, h.quiet, h.ready, fun n hn => by rw [hp] at hn; cases hn⟩
    · cases hs

theorem faithful (h : Inv m done) : Faithful m := by
  have hlen := h.returned.length_eq
  cases hr : m.tty.lineReady with
  | false =>
    obtain ⟨hq, -, -⟩ := h.quiet hr
    refine ⟨?_, ?_⟩
    · rw [hq, hlen, List.take_length]
      exact h.returned
    · rw [hq, hlen, hr]
      rfl
  | true =>
    obtain ⟨ln, hq, -, -⟩ := h.ready hr
    refine ⟨?_, ?_⟩
    · rw [hq, hlen, List.take_left]
      exact h.returned
    · rw [hq, hlen, hr, List.length_append]
      rfl

end Inv

theorem boot_inv (h : boot m) : Inv m [] := by
  rw [h]
  exact ⟨.nil, fun _ => ⟨rfl, rfl, rfl⟩, fun e => (by cases e), fun _ hn => by cases hn⟩

/-- A line, which is read, and the next. -/
def inTurn : List Act :=
  [.input 97, .input 13, .readLine 256, .go, .go, .go, .go, .go, .go, .input 98, .input 13]

def start : Machine := ⟨Tty.new, false, .idle, [], []⟩

/-- Two lines before the first read. -/
def twoLines : List Act :=
  [.input 97, .input 13, .input 98, .input 13, .readLine 256, .go, .go, .go, .go, .go, .go, .go]

end Myos.Terminal
