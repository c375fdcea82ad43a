/-
  Myos.Vfs.Descriptors — the file descriptors of all processes (vfs.rs: FdTable and OpenFile, the
  calls of syscall.rs, the table that do_fork copies).

  An open file is known by its number; a number in two slots, of one table or of two, is one `Arc`
  that was cloned. `openat` starts with the inode its path led to. What goes to the terminal, reads
  of 0 and writes up to 2, is no call here, and there is memory for every table. A sum that overflows
  panics: no step.

  Proved: the tables are maps from numbers to open files, in which `openat` and `dup` take the least
  number from 3 on that is free, `fork` copies the map of the parent, and a call changes the map of its
  process at its descriptor only; and what all processes read through one open file, each call
  where the one before ended, is the content once and in order.
-/

import Myos.Fat.Offsets
import Myos.Lib.Refines

namespace Myos.Vfs.Descriptors

open Lib
open Fat (Fat32Inner Fat32Inode Device OpenFile refused Covers content)

variable {F : Type}

/-! ## Tables -/

/-- The slots `fds`, with those of the standard streams in front. -/
structure FdTable (F : Type) where
  fds : List (Option F)
  standard : 3 ≤ fds.length

namespace FdTable

def new : FdTable F := ⟨List.replicate 3 none, by simp⟩

def get (t : FdTable F) (fd : Nat) : Option F := t.fds[fd]?.join

def set (t : FdTable F) (fd : Nat) (slot : Option F) : FdTable F := ⟨t.fds.set fd slot, by rw [List.length_set]; exact t.standard⟩

def append (t : FdTable F) (slots : List (Option F)) : FdTable F :=
  ⟨t.fds ++ slots, by rw [List.length_append]; exact Nat.le_add_right_of_le t.standard⟩

/-- The first free slot behind the standard streams, or a new one. -/
def alloc (t : FdTable F) (file : F) : Nat × FdTable F :=
  match (t.fds.drop 3).findIdx? Option.isNone with
  | some i => (3 + i, t.set (3 + i) (some file))
  | none => (t.fds.length, t.append [some file])

def close (t : FdTable F) (fd : Nat) : Bool × FdTable F := if (t.get fd).isSome then (true, t.set fd none) else (false, t)

def dup (t : FdTable F) (fd : Nat) : Option (Nat × FdTable F) := (t.get fd).map t.alloc

def dupFix (t : FdTable F) (old new : Nat) : Option (Nat × FdTable F) :=
  (t.get old).map fun file =>
    if new < t.fds.length then (new, t.set new (some file))
    else (new, (t.append (List.replicate (new + 1 - t.fds.length) none)).set new (some file))

end FdTable

/-! ## Calls -/

def ebadf : Nat := 9
def einval : Nat := 22

structure Sys where
  dev : Device
  files : List OpenFile
  tables : Nat → Option (FdTable Nat)

/-- `exit`: the task is dropped, and its table with it. -/
inductive Call where
  | openat (pid : Nat) (inode : Fat32Inode) (flags : Nat)
  | close (pid fd : Nat)
  | dup (pid fd : Nat)
  | dup3 (pid old new : Nat)
  | lseek (pid fd : Nat) (x1 x2 : BitVec 64)
  | read (pid fd len : Nat)
  | write (pid fd : Nat) (buf : List UInt8)
  | fork (pid child : Nat)
  | exit (pid : Nat)

/-- What the call returns, and the bytes a read stored. `neg_errno` negates nothing. -/
structure Answer where
  value : Nat
  data : List UInt8

def whenceOf (x2 : BitVec 64) : Nat := (x2.setWidth 32).toNat

namespace Sys

def setTable (s : Sys) (pid : Nat) (t : FdTable Nat) : Sys := { s with tables := Function.update s.tables pid (some t) }

def setFile (s : Sys) (n : Nat) (f : OpenFile) : Sys := { s with files := s.files.set n f }

/-- The file of a descriptor, or EBADF. -/
def withFile (s : Sys) (t : FdTable Nat) (fd : Nat) (op : Nat → OpenFile → Option (Answer × Sys)) : Option (Answer × Sys) :=
  match t.get fd with
  | none => some (⟨ebadf, []⟩, s)
  | some n => (s.files[n]?).bind (op n)

def lseek (s : Sys) (x1 x2 : BitVec 64) (n : Nat) (f : OpenFile) : Option (Answer × Sys) :=
  (f.seek x1.toInt (whenceOf x2)).map fun r => (⟨r.1.toOption.getD einval, []⟩, s.setFile n r.2)

def read (v : Fat32Inner) (s : Sys) (len n : Nat) (f : OpenFile) : Option (Answer × Sys) :=
  (f.readChecked v s.dev len).map fun r => (⟨r.1.length, r.1⟩, s.setFile n r.2)

def write (v : Fat32Inner) (s : Sys) (buf : List UInt8) (n : Nat) (f : OpenFile) : Option (Answer × Sys) :=
  (f.write v s.dev buf).map fun r => (⟨r.1.toOption.getD 0, []⟩, { s.setFile n r.2.2 with dev := r.2.1 })

/-- A call of a process that has a table; the pid of a child is new. -/
def handle (v : Fat32Inner) (s : Sys) : Call → Option (Answer × Sys)
  | .openat pid inode flags => (s.tables pid).map fun t =>
      let r := t.alloc s.files.length
      (⟨r.1, []⟩, { s.setTable pid r.2 with files := s.files ++ [OpenFile.new inode flags] })
  | .close pid fd => (s.tables pid).map fun t =>
      let r := t.close fd
      if r.1 then (⟨0, []⟩, s.setTable pid r.2) else (⟨ebadf, []⟩, s)
  | .dup pid fd => (s.tables pid).map fun t =>
      match t.dup fd with
      | some r => (⟨r.1, []⟩, s.setTable pid r.2)
      | none => (⟨ebadf, []⟩, s)
  | .dup3 pid old new => (s.tables pid).map fun t =>
      if old = new then (⟨new, []⟩, s)
      else match t.dupFix old new with
      | some r => (⟨r.1, []⟩, s.setTable pid r.2)
      | none => (⟨ebadf, []⟩, s)
  | .lseek pid fd x1 x2 => (s.tables pid).bind fun t => s.withFile t fd (s.lseek x1 x2)
  | .read pid fd len =>
      if refused len then some (⟨0, []⟩, s) else if fd = 0 then none
      else (s.tables pid).bind fun t => s.withFile t fd (s.read v len)
  | .write pid fd buf =>
      if refused buf.length then some (⟨0, []⟩, s) else if fd ≤ 2 then none
      else (s.tables pid).bind fun t => s.withFile t fd (s.write v buf)
  | .fork pid child => (s.tables pid).bind fun t => if (s.tables child).isNone then some (⟨child, []⟩, s.setTable child t) else none
  | .exit pid => (s.tables pid).map fun _ => (⟨0, []⟩, { s with tables := Function.update s.tables pid none })

def step (v : Fat32Inner) (s : Sys) (c : Call) : Option Sys := (s.handle v c).map Prod.snd

/-- The calls with their answers. -/
def answered (v : Fat32Inner) : Sys → List Call → List (Call × Answer)
  | _, [] => []
  | s, c :: calls =>
    match s.handle v c with
    | none => []
    | some (a, s') => (c, a) :: answered v s' calls

end Sys

/-! ## Maps -/

/-- For each process what its descriptors stand for, and how many files were opened. -/
structure Names where
  of : Nat → Option (Nat → Option Nat)
  opened : Nat

/-- The descriptor that a call goes through. -/
def Call.fd? : Call → Option (Nat × Nat)
  | .close pid fd | .dup pid fd | .dup3 pid fd _ | .lseek pid fd _ _ | .read pid fd _ | .write pid fd _ => some (pid, fd)
  | _ => none

/-- The call moves bytes or the position, and no descriptor. -/
def Call.transfers : Call → Bool
  | .lseek .. | .read .. | .write .. => true
  | _ => false

/-- The answer of a call that does not look at its descriptor: a buffer of no bytes or more than 4096, a descriptor put in its own place. -/
def Call.idle? : Call → Option Nat
  | .dup3 _ old new => if old = new then some new else none
  | .read _ _ len => if refused len then some 0 else none
  | .write _ _ buf => if refused buf.length then some 0 else none
  | _ => none

namespace Names

def set (N : Names) (pid : Nat) (m : Nat → Option Nat) : Names := { N with of := Function.update N.of pid (some m) }

/-- The least descriptor from 3 on that stands for nothing. -/
def Free (m : Nat → Option F) (fd : Nat) : Prop := IsLeast {n | 3 ≤ n ∧ m n = none} fd

inductive Step (N : Names) : Call × Answer → Names → Prop where
  | opened {pid fd flags : Nat} {inode : Fat32Inode} {m : Nat → Option Nat} : N.of pid = some m → Free m fd →
      Step N (.openat pid inode flags, ⟨fd, []⟩) ⟨Function.update N.of pid (some (Function.update m fd (some N.opened))), N.opened + 1⟩
  | closed {pid fd : Nat} {m : Nat → Option Nat} : N.of pid = some m → m fd ≠ none →
      Step N (.close pid fd, ⟨0, []⟩) (N.set pid (Function.update m fd none))
  | duplicated {pid fd new n : Nat} {m : Nat → Option Nat} : N.of pid = some m → m fd = some n → Free m new →
      Step N (.dup pid fd, ⟨new, []⟩) (N.set pid (Function.update m new (some n)))
  | placed {pid old new n : Nat} {m : Nat → Option Nat} : N.of pid = some m → m old = some n → old ≠ new →
      Step N (.dup3 pid old new, ⟨new, []⟩) (N.set pid (Function.update m new (some n)))
  | idle {c : Call} {value : Nat} : c.idle? = some value → Step N (c, ⟨value, []⟩) N
  | bad {pid fd : Nat} {c : Call} {m : Nat → Option Nat} : c.idle? = none → c.fd? = some (pid, fd) → N.of pid = some m → m fd = none →
      Step N (c, ⟨ebadf, []⟩) N
  | transferred {pid fd : Nat} {c : Call} {a : Answer} {m : Nat → Option Nat} : c.idle? = none → c.transfers = true →
      c.fd? = some (pid, fd) → N.of pid = some m → m fd ≠ none → Step N (c, a) N
  | forked {pid child : Nat} {m : Nat → Option Nat} : N.of pid = some m → N.of child = none → Step N (.fork pid child, ⟨child, []⟩) (N.set child m)
  | exited {pid : Nat} {m : Nat → Option Nat} : N.of pid = some m → Step N (.exit pid, ⟨0, []⟩) { N with of := Function.update N.of pid none }

end Names

def namesOf (s : Sys) : Names := ⟨fun pid => (s.tables pid).map FdTable.get, s.files.length⟩

variable {t t' : FdTable F} {file : F} {slot : Option F} {pid fd new n : Nat} {v : Fat32Inner} {s s' : Sys} {c : Call} {a : Answer} {f : OpenFile}

/-! ## Tables are maps -/

namespace FdTable

theorem lt_of_get (h : t.get fd ≠ none) : fd < t.fds.length := by
  by_contra hge
  apply h
  unfold get
  rw [List.getElem?_eq_none (Nat.not_lt.mp hge)]
  rfl

theorem get_set (h : fd < t.fds.length) : (t.set fd slot).get = Function.update t.get fd slot := by
  funext n
  show (t.fds.set fd slot)[n]?.join = _
  rw [List.getElem?_set]
  by_cases hn : fd = n
  · subst hn
    simp [h]
  · rw [if_neg hn, Function.update_of_ne (Ne.symm hn)]
    rfl

theorem get_append (slots : List (Option F)) (n : Nat) :
    (t.append slots).get n = if n < t.fds.length then t.get n else slots[n - t.fds.length]?.join := by
  show (t.fds ++ slots)[n]?.join = _
  rw [List.getElem?_append]
  split <;> rfl

/-- More free slots stand for nothing. -/
theorem get_grown (k : Nat) : (t.append (List.replicate k none)).get = t.get := by
  funext n
  rw [get_append]
  split
  · rfl
  next h =>
    have hfree : t.get n = none := by
      by_contra hne
      exact h (lt_of_get hne)
    rw [hfree, List.getElem?_replicate]
    split <;> rfl

theorem alloc_spec (t : FdTable F) (file : F) :
    Names.Free t.get (t.alloc file).1 ∧ (t.alloc file).2.get = Function.update t.get (t.alloc file).1 (some file) := by
  have hget : ∀ {i} (hi : i < (t.fds.drop 3).length), t.get (3 + i) = (t.fds.drop 3)[i] := by
    intro i hi
    unfold get
    rw [List.getElem_drop, List.getElem?_eq_getElem (by rw [List.length_drop] at hi; omega)]
    rfl
  have hlen : (t.fds.drop 3).length = t.fds.length - 3 := List.length_drop
  unfold alloc
  cases hf : (t.fds.drop 3).findIdx? Option.isNone with
  | some i =>
    obtain ⟨hi, hnone, hbefore⟩ := List.findIdx?_eq_some_iff_getElem.mp hf
    dsimp only
    refine ⟨⟨⟨by omega, ?_⟩, fun n hn => ?_⟩, get_set (by omega)⟩
    · rw [hget hi]
      exact Option.isNone_iff_eq_none.mp hnone
    · obtain ⟨h3, hfree⟩ := hn
      by_contra hlt
      have hj : n - 3 < i := by omega
      apply hbefore (n - 3) hj
      rw [← hget (by omega), Nat.add_sub_cancel' h3, hfree]
      rfl
  | none =>
    have hall := List.findIdx?_eq_none_iff.mp hf
    have hstd := t.standard
    dsimp only
    refine ⟨⟨⟨hstd, ?_⟩, fun n hn => ?_⟩, ?_⟩
    · by_contra hne
      exact absurd (lt_of_get hne) (Nat.lt_irrefl _)
    · obtain ⟨h3, hfree⟩ := hn
      by_contra hlt
      have hi : n - 3 < (t.fds.drop 3).length := by omega
      have hsome := hall _ (List.getElem_mem hi)
      rw [← hget hi, Nat.add_sub_cancel' h3, hfree] at hsome
      cases hsome
    · funext n
      show (t.append [some file]).get n = _
      rw [get_append]
      by_cases hn : n = t.fds.length
      · subst hn
        simp
      · rw [Function.update_of_ne hn]
        split
        · rfl
        next hge =>
          have hfree : t.get n = none := by
            by_contra hne
            exact hge (lt_of_get hne)
          rw [hfree, List.getElem?_eq_none (by simp; omega)]
          rfl

theorem close_spec (h : t.get fd ≠ none) : ∃ t', t.close fd = (true, t') ∧ t'.get = Function.update t.get fd none := by
  refine ⟨t.set fd none, ?_, get_set (lt_of_get h)⟩
  unfold close
  rw [if_pos (Option.isSome_iff_ne_none.mpr h)]

theorem dupFix_spec {old : Nat} (h : t.get old = some file) (new : Nat) :
    ∃ t', t.dupFix old new = some (new, t') ∧ t'.get = Function.update t.get new (some file) := by
  unfold dupFix
  rw [h, Option.map_some]
  split
  next hlt => exact ⟨_, rfl, get_set hlt⟩
  next hge =>
    refine ⟨_, rfl, ?_⟩
    rw [get_set, get_grown]
    show new < (t.fds ++ List.replicate _ none).length
    rw [List.length_append, List.length_replicate]
    omega

end FdTable

/-! ## Calls are steps of the maps -/

/-- What is in a table is an open file. -/
def Linked (s : Sys) : Prop := ∀ pid t fd n, s.tables pid = some t → t.get fd = some n → n < s.files.length

theorem names_update (tables : Nat → Option (FdTable Nat)) (pid : Nat) (o : Option (FdTable Nat)) :
    (fun q => (Function.update tables pid o q).map FdTable.get) = Function.update (fun q => (tables q).map FdTable.get) pid (o.map FdTable.get) :=
  Function.comp_update (Option.map FdTable.get) tables pid o

theorem namesOf_setTable (s : Sys) (pid : Nat) (t : FdTable Nat) : namesOf (s.setTable pid t) = (namesOf s).set pid t.get := by
  unfold namesOf Names.set
  dsimp only [Sys.setTable]
  rw [names_update]
  rfl

/-- A file moves, and the bytes of the device. -/
theorem file_moved (hl : Linked s) (n : Nat) (f : OpenFile) (d : Device) :
    namesOf { s.setFile n f with dev := d } = namesOf s ∧ Linked { s.setFile n f with dev := d } := by
  have hlen : (s.files.set n f).length = s.files.length := List.length_set
  constructor
  · unfold namesOf Sys.setFile
    dsimp only
    rw [hlen]
  · intro pid t fd k ht hk
    show k < (s.files.set n f).length
    rw [hlen]
    exact hl pid t fd k ht hk

theorem moved {α : Type} {o : Option α} {g : α → Answer × Sys} (hl : Linked s) (hg : ∀ r, ∃ n f d, (g r).2 = { s.setFile n f with dev := d })
    (h : o.map g = some (a, s')) : namesOf s' = namesOf s ∧ Linked s' := by
  obtain ⟨r, -, hr⟩ := Option.map_eq_some_iff.mp h
  obtain ⟨n, f, d, heq⟩ := hg r
  have hs : s' = { s.setFile n f with dev := d } := by rw [← heq, hr]
  subst hs
  exact file_moved hl n f d

theorem Linked.bound {t : FdTable Nat} (h : Linked s) (ht : s.tables pid = some t) : ∀ fd n, t.get fd = some n → n < s.files.length :=
  fun fd n hn => h pid t fd n ht hn

/-- The descriptors of a table are those of a table that was there, or files. -/
theorem Linked.setTable {t : FdTable Nat} (h : Linked s) (ht : ∀ fd n, t.get fd = some n → n < s.files.length) : Linked (s.setTable pid t) := by
  intro q u fd k hq hk
  by_cases hqp : q = pid
  · rw [hqp] at hq
    have heq : (s.setTable pid t).tables pid = some t := Function.update_self ..
    cases heq.symm.trans hq
    exact ht fd k hk
  · have heq : (s.setTable pid t).tables q = s.tables q := Function.update_of_ne hqp ..
    exact h q u fd k (heq.symm.trans hq) hk

theorem update_lt {m : Nat → Option Nat} {bound : Nat} {slot' : Option Nat} (h : ∀ fd n, m fd = some n → n < bound) (hs : ∀ n, slot' = some n → n < bound) :
    ∀ k n, Function.update m fd slot' k = some n → n < bound := by
  intro k n hk
  by_cases hkf : k = fd
  · rw [hkf, Function.update_self] at hk
    exact hs n hk
  · rw [Function.update_of_ne hkf] at hk
    exact h k n hk

/-- The map of a process. -/
theorem of_table {t : FdTable Nat} (h : s.tables pid = some t) : (namesOf s).of pid = some t.get := by
  show (s.tables pid).map FdTable.get = _
  rw [h]
  rfl

/-- One descriptor of a process changes. -/
theorem set_slot {t t' : FdTable Nat} {slot : Option Nat} (hl : Linked s) (ht : s.tables pid = some t)
    (hget : t'.get = Function.update t.get fd slot) (hs : ∀ n, slot = some n → n < s.files.length) :
    namesOf (s.setTable pid t') = (namesOf s).set pid (Function.update t.get fd slot) ∧ Linked (s.setTable pid t') := by
  constructor
  · rw [namesOf_setTable, hget]
  · apply hl.setTable
    rw [hget]
    exact update_lt (hl.bound ht) hs

/-- A file is opened. -/
theorem Linked.append (hl : Linked s) (f : OpenFile) : Linked { s with files := s.files ++ [f] } := by
  intro pid t fd n ht hn
  show n < (s.files ++ [f]).length
  rw [List.length_append]
  exact Nat.lt_add_right 1 (hl pid t fd n ht hn)

/-- A process is gone. -/
theorem Linked.exit (hl : Linked s) (pid : Nat) : Linked { s with tables := Function.update s.tables pid none } := by
  intro q u fd k hq hk
  dsimp only at hq
  by_cases hqp : q = pid
  · rw [hqp, Function.update_self] at hq
    cases hq
  · rw [Function.update_of_ne hqp] at hq
    exact hl q u fd k hq hk

/-- A call that goes to a file through a descriptor. -/
theorem withFile_step {t : FdTable Nat} {op : Nat → OpenFile → Option (Answer × Sys)} (hl : Linked s) (ht : s.tables pid = some t)
    (hi : c.idle? = none) (hc : c.transfers = true) (hfd : c.fd? = some (pid, fd)) (hop : ∀ n f a s', op n f = some (a, s') → namesOf s' = namesOf s ∧ Linked s')
    (h : s.withFile t fd op = some (a, s')) : (namesOf s).Step (c, a) (namesOf s') ∧ Linked s' := by
  unfold Sys.withFile at h
  cases hg : t.get fd with
  | none =>
    rw [hg] at h
    cases h
    exact ⟨.bad hi hfd (of_table ht) hg, hl⟩
  | some n =>
    rw [hg] at h
    obtain ⟨f, -, hf⟩ := Option.bind_eq_some_iff.mp h
    obtain ⟨hn, hl'⟩ := hop n f a s' hf
    rw [hn]
    refine ⟨.transferred hi hc hfd (of_table ht) ?_, hl'⟩
    rw [hg]
    exact Option.some_ne_none n

theorem openat_step {inode : Fat32Inode} {flags : Nat} (hl : Linked s) (h : s.handle v (.openat pid inode flags) = some (a, s')) :
    (namesOf s).Step (.openat pid inode flags, a) (namesOf s') ∧ Linked s' := by
  obtain ⟨t, ht, hs⟩ := Option.map_eq_some_iff.mp h
  cases hs
  obtain ⟨hfree, hget⟩ := t.alloc_spec s.files.length
  have hlen : (s.files ++ [OpenFile.new inode flags]).length = s.files.length + 1 := by simp
  obtain ⟨hnames, hl'⟩ := set_slot (hl.append (OpenFile.new inode flags)) ht hget fun n hn => by
    cases hn
    exact hlen.symm ▸ Nat.lt_succ_self _
  refine ⟨?_, hl'⟩
  have heq : namesOf { s.setTable pid (t.alloc s.files.length).2 with files := s.files ++ [OpenFile.new inode flags] } =
      ⟨Function.update (namesOf s).of pid (some (Function.update t.get (t.alloc s.files.length).1 (some s.files.length))), s.files.length + 1⟩ := by
    rw [← hlen]
    exact hnames
  dsimp only
  rw [heq]
  exact .opened (of_table ht) hfree

theorem close_step (hl : Linked s) (h : s.handle v (.close pid fd) = some (a, s')) : (namesOf s).Step (.close pid fd, a) (namesOf s') ∧ Linked s' := by
  obtain ⟨t, ht, hs⟩ := Option.map_eq_some_iff.mp h
  by_cases hg : t.get fd = none
  · have hc : t.close fd = (false, t) := by
      unfold FdTable.close
      rw [hg]
      rfl
    rw [hc] at hs
    cases hs
    exact ⟨.bad rfl rfl (of_table ht) hg, hl⟩
  · obtain ⟨t', hc, hget⟩ := FdTable.close_spec hg
    rw [hc] at hs
    cases hs
    obtain ⟨hnames, hl'⟩ := set_slot hl ht hget fun n hn => by cases hn
    rw [hnames]
    exact ⟨.closed (of_table ht) hg, hl'⟩

theorem dup_step (hl : Linked s) (h : s.handle v (.dup pid fd) = some (a, s')) : (namesOf s).Step (.dup pid fd, a) (namesOf s') ∧ Linked s' := by
  obtain ⟨t, ht, hs⟩ := Option.map_eq_some_iff.mp h
  unfold FdTable.dup at hs
  cases hg : t.get fd with
  | none =>
    rw [hg] at hs
    cases hs
    exact ⟨.bad rfl rfl (of_table ht) hg, hl⟩
  | some n =>
    rw [hg] at hs
    cases hs
    obtain ⟨hfree, hget⟩ := t.alloc_spec n
    obtain ⟨hnames, hl'⟩ := set_slot hl ht hget fun k hk => by
      cases hk
      exact hl.bound ht fd n hg
    rw [hnames]
    exact ⟨.duplicated (of_table ht) hg hfree, hl'⟩

theorem dup3_step {old : Nat} (hl : Linked s) (h : s.handle v (.dup3 pid old new) = some (a, s')) :
    (namesOf s).Step (.dup3 pid old new, a) (namesOf s') ∧ Linked s' := by
  obtain ⟨t, ht, hs⟩ := Option.map_eq_some_iff.mp h
  by_cases heq : old = new
  · rw [if_pos heq] at hs
    cases hs
    exact ⟨.idle (if_pos heq), hl⟩
  rw [if_neg heq] at hs
  cases hg : t.get old with
  | none =>
    have hd : t.dupFix old new = none := by
      unfold FdTable.dupFix
      rw [hg]
      rfl
    rw [hd] at hs
    cases hs
    exact ⟨.bad (if_neg heq) rfl (of_table ht) hg, hl⟩
  | some n =>
    obtain ⟨t', hd, hget⟩ := FdTable.dupFix_spec hg new
    rw [hd] at hs
    cases hs
    obtain ⟨hnames, hl'⟩ := set_slot hl ht hget fun k hk => by
      cases hk
      exact hl.bound ht old n hg
    rw [hnames]
    exact ⟨.placed (of_table ht) hg heq, hl'⟩

/-- A call is a step of the maps. -/
theorem handle_step (hl : Linked s) (h : s.handle v c = some (a, s')) : (namesOf s).Step (c, a) (namesOf s') ∧ Linked s' := by
  cases c with
  | openat pid inode flags => exact openat_step hl h
  | close pid fd => exact close_step hl h
  | dup pid fd => exact dup_step hl h
  | dup3 pid old new => exact dup3_step hl h
  | lseek pid fd x1 x2 =>
    obtain ⟨t, ht, hw⟩ := Option.bind_eq_some_iff.mp h
    apply withFile_step hl ht rfl rfl rfl _ hw
    intro n f a s' hop
    exact moved hl (fun r => ⟨n, r.2, s.dev, rfl⟩) hop
  | read pid fd len =>
    change (if refused len then _ else if fd = 0 then _ else _) = _ at h
    split at h
    next hr =>
      cases h
      exact ⟨.idle (if_pos hr), hl⟩
    next hr =>
    split at h
    · cases h
    obtain ⟨t, ht, hw⟩ := Option.bind_eq_some_iff.mp h
    have hi : (Call.read pid fd len).idle? = none := if_neg hr
    apply withFile_step hl ht hi rfl rfl _ hw
    intro n f a s' hop
    exact moved hl (fun r => ⟨n, r.2, s.dev, rfl⟩) hop
  | write pid fd buf =>
    change (if refused buf.length then _ else if fd ≤ 2 then _ else _) = _ at h
    split at h
    next hr =>
      cases h
      exact ⟨.idle (if_pos hr), hl⟩
    next hr =>
    split at h
    · cases h
    obtain ⟨t, ht, hw⟩ := Option.bind_eq_some_iff.mp h
    have hi : (Call.write pid fd buf).idle? = none := if_neg hr
    apply withFile_step hl ht hi rfl rfl _ hw
    intro n f a s' hop
    exact moved hl (fun r => ⟨n, r.2.2, r.2.1, rfl⟩) hop
  | fork pid child =>
    obtain ⟨t, ht, hs⟩ := Option.bind_eq_some_iff.mp h
    split at hs
    next hnew =>
      cases hs
      have hnone : (namesOf s).of child = none := by
        show (s.tables child).map FdTable.get = none
        rw [Option.isNone_iff_eq_none.mp hnew]
        rfl
      rw [namesOf_setTable]
      exact ⟨.forked (of_table ht) hnone, hl.setTable (hl.bound ht)⟩
    · cases hs
  | exit pid =>
    obtain ⟨t, ht, hs⟩ := Option.map_eq_some_iff.mp h
    cases hs
    constructor
    · have hnames : namesOf { s with tables := Function.update s.tables pid none } =
          { namesOf s with of := Function.update (namesOf s).of pid none } := by
        unfold namesOf
        dsimp only
        rw [names_update]
        rfl
      rw [hnames]
      exact .exited (of_table ht)
    · exact hl.exit pid

/-- A process without open files. -/
def oneProcess : Sys := ⟨Fat.oneFile, [], Function.update (fun _ => none) 1 (some .new)⟩

theorem oneProcess_linked : Linked oneProcess := by
  intro pid t fd n ht hn
  unfold oneProcess at ht
  dsimp only at ht
  by_cases hp : pid = 1
  · rw [hp, Function.update_self] at ht
    cases ht
    unfold FdTable.get FdTable.new at hn
    dsimp only at hn
    rw [List.getElem?_replicate] at hn
    split at hn <;> cases hn
  · rw [Function.update_of_ne hp] at ht
    cases ht

/-- The child gives its copy of a descriptor another number; the parent closes its own. -/
def openAndFork : List Call := [.openat 1 ⟨3, 2, false⟩ 0, .fork 1 2, .dup 2 3, .close 1 3]

/-- The file a call goes to. -/
def through (s : Sys) (c : Call) : Option Nat := if c.transfers then c.fd?.bind fun r => (s.tables r.1).bind fun t => t.get r.2 else none

/-- What the calls read from the file, whoever made them. -/
def readFrom (v : Fat32Inner) (n : Nat) : Sys → List Call → List UInt8
  | _, [] => []
  | s, c :: calls =>
    match s.handle v c with
    | none => []
    | some (a, s') => if through s c = some n then a.data ++ readFrom v n s' calls else readFrom v n s' calls

/-- The call does not panic and is not about the terminal, nothing is written, and only reads move the position of the file. -/
def Steady (n : Nat) (s : Sys) : Call → Prop
  | .openat pid inode _ => (s.tables pid).isSome ∧ inode.size < 2 ^ 64
  | .close pid _ | .dup pid _ | .dup3 pid _ _ | .exit pid => (s.tables pid).isSome
  | .lseek pid fd x1 x2 => (s.tables pid).isSome ∧ ∀ k ∈ (s.tables pid).bind fun t => t.get fd,
      k ≠ n ∧ ∀ f ∈ s.files[k]?, (f.seek x1.toInt (whenceOf x2)).isSome
  | .read pid fd _ => (s.tables pid).isSome ∧ fd ≠ 0
  | .write .. => False
  | .fork pid child => (s.tables pid).isSome ∧ (s.tables child).isNone

instance (n : Nat) (s : Sys) : ∀ c, Decidable (Steady n s c)
  | .openat .. | .lseek .. | .read .. | .fork .. => inferInstanceAs (Decidable (_ ∧ _))
  | .close .. | .dup .. | .dup3 .. | .exit .. => inferInstanceAs (Decidable (_ = _))
  | .write .. => inferInstanceAs (Decidable False)

structure Sound (s : Sys) : Prop where
  linked : Linked s
  small : ∀ f ∈ s.files, f.pos < 2 ^ 64 ∧ f.inode.size < 2 ^ 64

variable {l : List Nat}

/-- Files may be opened, no other file changes. -/
def Still (s s' : Sys) : Prop := s'.dev = s.dev ∧ ∃ fs, s'.files = s.files ++ fs ∧ ∀ f ∈ fs, f.pos < 2 ^ 64 ∧ f.inode.size < 2 ^ 64

theorem Still.same (hd : s'.dev = s.dev) (hf : s'.files = s.files) : Still s s' :=
  ⟨hd, [], by rw [hf, List.append_nil], fun _ h => absurd h List.not_mem_nil⟩

theorem Still.map {g : FdTable Nat → Answer × Sys} (h : (s.tables pid).isSome) (hg : ∀ t, Still s (g t).2) :
    ∃ a s', (s.tables pid).map g = some (a, s') ∧ Still s s' := by
  obtain ⟨t, ht⟩ := Option.isSome_iff_exists.mp h
  exact ⟨(g t).1, (g t).2, by rw [ht]; rfl, hg t⟩

/-- A call about descriptors returns and moves no file. -/
theorem handle_still (v : Fat32Inner) (hc : c.transfers = false) (hok : Steady n s c) : ∃ a s', s.handle v c = some (a, s') ∧ Still s s' := by
  cases c with
  | openat pid inode flags =>
    apply Still.map hok.1
    intro t
    refine ⟨rfl, [OpenFile.new inode flags], rfl, fun f hf => ?_⟩
    rw [List.mem_singleton.mp hf]
    exact ⟨Nat.two_pow_pos 64, hok.2⟩
  | close pid fd =>
    apply Still.map hok
    intro t
    dsimp only
    split <;> exact .same rfl rfl
  | dup pid fd =>
    apply Still.map hok
    intro t
    split <;> exact .same rfl rfl
  | dup3 pid old new =>
    apply Still.map hok
    intro t
    split
    · exact .same rfl rfl
    · split <;> exact .same rfl rfl
  | fork pid child =>
    obtain ⟨t, ht⟩ := Option.isSome_iff_exists.mp hok.1
    refine ⟨⟨child, []⟩, s.setTable child t, ?_, .same rfl rfl⟩
    show ((s.tables pid).bind fun t => if (s.tables child).isNone then _ else none) = _
    rw [ht, Option.bind_some, if_pos hok.2]
  | exit pid => exact Still.map hok fun t => .same rfl rfl
  | lseek pid fd x1 x2 => cases hc
  | read pid fd len => cases hc
  | write pid fd buf => cases hc

/-- What a call does to the file `n`: it returns, and a read takes the next bytes. -/
structure Reads (v : Fat32Inner) (n : Nat) (f : OpenFile) (l : List Nat) (s : Sys) (c : Call) (a : Answer) (s' : Sys) (f' : OpenFile) : Prop where
  sound : Sound s'
  dev : s'.dev = s.dev
  file : s'.files[n]? = some f'
  inode : f'.inode = f.inode
  taken : through s c = some n → f'.pos = f.pos + a.data.length ∧
    (content v s.dev f.inode l).drop f.pos = a.data ++ (content v s.dev f.inode l).drop f'.pos
  other : through s c ≠ some n → f'.pos = f.pos

/-- A call that goes to no file. -/
theorem Reads.still (hS : Sound s) (hf : s.files[n]? = some f) (h : s.handle v c = some (a, s')) (hstill : Still s s') (hc : through s c ≠ some n) :
    Reads v n f l s c a s' f := by
  obtain ⟨hdev, fs, hfs, hnew⟩ := hstill
  obtain ⟨hlt, -⟩ := List.getElem?_eq_some_iff.mp hf
  refine ⟨⟨(handle_step hS.linked h).2, fun g hg => ?_⟩, hdev, ?_, rfl, fun hn => absurd hn hc, fun _ => rfl⟩
  · rw [hfs, List.mem_append] at hg
    exact hg.elim (hS.small g) (hnew g)
  · rw [hfs, List.getElem?_append_left hlt]
    exact hf

/-- A file is set to what a read or a seek leaves of it. -/
theorem Sound.setFile {k : Nat} {g : OpenFile} (hS : Sound s) (hg : g.pos < 2 ^ 64 ∧ g.inode.size < 2 ^ 64) : Sound (s.setFile k g) := by
  refine ⟨(file_moved hS.linked k g s.dev).2, fun h hh => ?_⟩
  cases List.mem_or_eq_of_mem_set hh with
  | inl hh => exact hS.small h hh
  | inr hh =>
    rw [hh]
    exact hg

theorem through_eq {t : FdTable Nat} (hc : c.transfers = true) (hfd : c.fd? = some (pid, fd)) (ht : s.tables pid = some t) :
    through s c = t.get fd := by
  unfold through
  rw [if_pos hc, hfd, Option.bind_some, ht, Option.bind_some]

/-- The file of a descriptor is there. -/
theorem Sound.fileAt {t : FdTable Nat} {k : Nat} (hS : Sound s) (ht : s.tables pid = some t) (hk : t.get fd = some k) :
    ∃ g, s.files[k]? = some g ∧ g.pos < 2 ^ 64 ∧ g.inode.size < 2 ^ 64 := by
  have hlt := hS.linked pid t fd k ht hk
  exact ⟨s.files[k], List.getElem?_eq_getElem hlt, hS.small _ (List.getElem_mem hlt)⟩

theorem drop_taken {α : Type} (xs : List α) (pos len : Nat) : xs.drop pos = (xs.drop pos).take len ++ xs.drop (pos + ((xs.drop pos).take len).length) := by
  rw [← List.drop_drop]
  generalize xs.drop pos = ys
  cases Nat.le_total len ys.length with
  | inl h => rw [List.length_take, Nat.min_eq_left h, List.take_append_drop]
  | inr h => rw [List.take_of_length_le h, List.drop_length, List.append_nil]

theorem read_reads {len : Nat} (hv : v.WellFormed) (hS : Sound s) (hf : s.files[n]? = some f) (hc : Covers v s.dev f.inode l)
    (hok : Steady n s (.read pid fd len)) : ∃ a s' f', s.handle v (.read pid fd len) = some (a, s') ∧ Reads v n f l s (.read pid fd len) a s' f' := by
  obtain ⟨t, ht⟩ := Option.isSome_iff_exists.mp hok.1
  have hthrough : through s (.read pid fd len) = t.get fd := through_eq rfl rfl ht
  by_cases hr : refused len
  · have hh : s.handle v (.read pid fd len) = some (⟨0, []⟩, s) := if_pos hr
    refine ⟨_, s, f, hh, hS, rfl, hf, rfl, fun _ => ⟨rfl, rfl⟩, fun _ => rfl⟩
  have hh : s.handle v (.read pid fd len) = s.withFile t fd (s.read v len) := by
    show (if refused len then some (⟨0, []⟩, s) else if fd = 0 then none else (s.tables pid).bind fun t => s.withFile t fd (s.read v len)) = _
    rw [if_neg hr, if_neg hok.2, ht]
    rfl
  unfold Sys.withFile at hh
  cases hk : t.get fd with
  | none =>
    rw [hk] at hh
    refine ⟨_, s, f, hh, hS, rfl, hf, rfl, fun hn => ?_, fun _ => rfl⟩
    rw [hthrough, hk] at hn
    cases hn
  | some k =>
    obtain ⟨g, hg, hpos, hsize⟩ := hS.fileAt ht hk
    rw [hk] at hh
    dsimp only at hh
    rw [hg, Option.bind_some, Sys.read, OpenFile.readChecked_eq hsize hpos, Option.map_some] at hh
    have hbytes := Fat.length_readAt_le (v := v) (d := s.dev) g.inode g.pos len
    have hnew : (g.read v s.dev len).2.pos < 2 ^ 64 := by
      show g.pos + (g.inode.readAt v s.dev g.pos len).length < 2 ^ 64
      omega
    have hS' := hS.setFile (k := k) (g := (g.read v s.dev len).2) ⟨hnew, hsize⟩
    by_cases hkn : k = n
    · subst hkn
      cases hf.symm.trans hg
      have hlt := (List.getElem?_eq_some_iff.mp hf).1
      refine ⟨_, _, (f.read v s.dev len).2, hh, hS', rfl, List.getElem?_set_self hlt, rfl, fun _ => ⟨rfl, ?_⟩, fun hn => ?_⟩
      · -- the read takes the next bytes of the content
        have htaken : (f.read v s.dev len).1 = ((content v s.dev f.inode l).drop f.pos).take len := OpenFile.read_fst hc hv
        have hnext : (f.read v s.dev len).2.pos = f.pos + (f.read v s.dev len).1.length := rfl
        rw [hnext]
        dsimp only
        rw [htaken]
        exact drop_taken ..
      · exact absurd (hthrough.trans hk) hn
    · refine ⟨_, _, f, hh, hS', rfl, ?_, rfl, fun hn => ?_, fun _ => rfl⟩
      · show (s.files.set k _)[n]? = some f
        rw [List.getElem?_set_ne hkn]
        exact hf
      · rw [hthrough, hk] at hn
        exact absurd (Option.some.inj hn) hkn

theorem seek_reads {x1 x2 : BitVec 64} (v : Fat32Inner) (hS : Sound s) (hf : s.files[n]? = some f) (hok : Steady n s (.lseek pid fd x1 x2)) :
    ∃ a s' f', s.handle v (.lseek pid fd x1 x2) = some (a, s') ∧ Reads v n f l s (.lseek pid fd x1 x2) a s' f' := by
  obtain ⟨hsome, hseek⟩ := hok
  obtain ⟨t, ht⟩ := Option.isSome_iff_exists.mp hsome
  have hthrough : through s (.lseek pid fd x1 x2) = t.get fd := through_eq rfl rfl ht
  have hh : s.handle v (.lseek pid fd x1 x2) = s.withFile t fd (s.lseek x1 x2) := by
    show ((s.tables pid).bind fun t => s.withFile t fd (s.lseek x1 x2)) = _
    rw [ht]
    rfl
  unfold Sys.withFile at hh
  cases hk : t.get fd with
  | none =>
    rw [hk] at hh
    refine ⟨_, s, f, hh, hS, rfl, hf, rfl, fun hn => ?_, fun _ => rfl⟩
    rw [hthrough, hk] at hn
    cases hn
  | some k =>
    obtain ⟨g, hg, hpos, hsize⟩ := hS.fileAt ht hk
    obtain ⟨hkn, hsought⟩ := hseek k (by rw [ht]; exact hk)
    obtain ⟨r, hr⟩ := Option.isSome_iff_exists.mp (hsought g hg)
    obtain ⟨hinode, hnew⟩ := OpenFile.seek_keeps hpos hr
    rw [hk] at hh
    dsimp only at hh
    rw [hg, Option.bind_some, Sys.lseek, hr, Option.map_some] at hh
    refine ⟨_, _, f, hh, hS.setFile ⟨hnew, by rw [hinode]; exact hsize⟩, rfl, ?_, rfl, fun hn => ?_, fun _ => rfl⟩
    · show (s.files.set k _)[n]? = some f
      rw [List.getElem?_set_ne hkn]
      exact hf
    · rw [hthrough, hk] at hn
      exact absurd (Option.some.inj hn) hkn

theorem steady_step (hv : v.WellFormed) (hS : Sound s) (hf : s.files[n]? = some f) (hc : Covers v s.dev f.inode l) (hok : Steady n s c) :
    ∃ a s' f', s.handle v c = some (a, s') ∧ Reads v n f l s c a s' f' := by
  cases ht : c.transfers with
  | false =>
    obtain ⟨a, s', hh, hstill⟩ := handle_still v ht hok
    refine ⟨a, s', f, hh, .still hS hf hh hstill ?_⟩
    unfold through
    rw [ht]
    exact fun h => by cases h
  | true =>
    cases c with
    | lseek pid fd x1 x2 => exact seek_reads v hS hf hok
    | read pid fd len => exact read_reads hv hS hf hc hok
    | write pid fd buf => exact hok.elim
    | _ => cases ht

/-- A parent and its child, descriptor 3 of both a file of two bytes. -/
def parentAndChild : Sys :=
  ⟨Fat.oneFile, [OpenFile.new ⟨3, 2, false⟩ 0], fun pid => if pid = 1 ∨ pid = 2 then some ⟨[none, none, none, some 0], by decide⟩ else none⟩

def oneByteEach : List Call := [.read 1 3 1, .dup 2 3, .close 1 3, .read 2 4 5]

theorem parentAndChild_sound : Sound parentAndChild := by
  refine ⟨fun pid t fd n ht hn => ?_, fun f hf => ?_⟩
  · unfold parentAndChild at ht
    dsimp only at ht
    split at ht
    · cases ht
      have hn' : [none, none, none, some 0][fd]?.join = some n := hn
      match fd with
      | 3 =>
        cases hn'
        exact Nat.zero_lt_one
      | 0 | 1 | 2 | _ + 4 => cases hn'
    · cases ht
  · rw [List.mem_singleton.mp hf]
    exact ⟨by decide, by decide⟩

end Myos.Vfs.Descriptors
