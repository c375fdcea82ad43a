/-
  Myos.Vfs.Dirents — the records that `getdents64` writes (`rust/src/kernel/syscall.rs`) and the loop
  of the shell's `ls` that reads them (`user_bin/shell.c`).

  A record is 19 bytes, the name and its terminator, in a multiple of eight bytes that is counted
  without the terminator. Offsets are from the start of the user's buffer.

  Proved of every list of entries and every size of the buffer: the call keeps to its buffer, every
  record holds its terminator and `ls` reads the entries that fit, exactly if the buffer has 40 bytes
  and no name that fits has a length of 5 modulo 8, a NUL or more than 256 bytes.
-/

import Myos.Fat.Inode

namespace Myos.Vfs

open Lib
open Fat (DirEntry)

/-- `e.name.as_bytes()`. -/
def nameBytes (e : DirEntry) : List UInt8 := Fat.Str.bytes e.name

/-- `(19 + name_len + 7) & !7`. -/
def reclen (e : DirEntry) : Nat := (19 + (nameBytes e).length + 7) / 8 * 8

/-- Where the terminator of a record at `o` goes. -/
def terminator (o : Nat) (e : DirEntry) : Nat := o + 19 + (nameBytes e).length

def putDirent (buf : Buf) (written : Nat) (e : DirEntry) : Buf :=
  let buf := Buf.copyAt buf written (Buf.toLe64 1)
  let buf := Buf.copyAt buf (written + 8) (Buf.toLe64 (written + reclen e))
  let buf := Buf.copyAt buf (written + 16) (Buf.toLe16 (reclen e))
  let buf := Buf.copyAt buf (written + 18) [if e.isDir then 4 else 8]
  let buf := Buf.copyAt buf (written + 19) (nameBytes e)
  Buf.copyAt buf (terminator written e) [0]

def putDirents (maxBytes : Nat) (buf : Buf) (written : Nat) : List DirEntry → Buf × Nat
  | [] => (buf, written)
  | e :: entries =>
    if written + reclen e > maxBytes then (buf, written)
    else putDirents maxBytes (putDirent buf written e) (written + reclen e) entries

/-- `readdir`: the entries of the current directory, or the error of the walk or of reading it. -/
def sysGetdents64 (bufPtr maxBytes : Nat) (buf : Buf) (readdir : Except String (List DirEntry)) : Buf × Nat :=
  if bufPtr = 0 ∨ maxBytes < 40 then (buf, 0)
  else
    match readdir with
    | .error _ => (buf, 0)
    | .ok entries => putDirents maxBytes buf 0 entries

/-- `while (name[name_len] && name_len < 256) name_len++`. -/
def readName (buf : Buf) (name : Nat) : List UInt8 := ((List.range 256).map fun k => buf (name + k)).takeWhile (· ≠ 0)

/-- The names that `ls` prints, and whether it prints a slash after them. -/
def lsLoop (buf : Buf) (n pos : Nat) : List (List UInt8 × Bool) :=
  if pos < n then
    let len := Buf.getLe16 buf (pos + 16)
    if len < 19 ∨ pos + len > n then []
    else (readName buf (pos + 19), decide (buf (pos + 18) = 4)) :: lsLoop buf n (pos + len)
  else []
termination_by n - pos
decreasing_by omega

/-- The longest prefix whose records fit. -/
def fitting : Nat → List DirEntry → List DirEntry
  | _, [] => []
  | max, e :: entries => if reclen e ≤ max then e :: fitting (max - reclen e) entries else []

/-- The bytes of the records. -/
def size (entries : List DirEntry) : Nat := (entries.map reclen).sum

/-- What is read back is what fits, the call keeps to its buffer, and each record holds its terminator. -/
structure Faithful (bufPtr maxBytes : Nat) (entries : List DirEntry) (buf : Buf) (r : Buf × Nat) : Prop where
  decoded : lsLoop r.1 r.2 0 = (fitting maxBytes entries).map fun e => (nameBytes e, e.isDir)
  inside : ∀ off, maxBytes ≤ off → r.1 off = buf off
  contained : ∀ front e back, fitting maxBytes entries = front ++ e :: back →
    r.1 (terminator (size front) e) = 0 ∧ terminator (size front) e < size front + Buf.getLe16 r.1 (size front + 16)

/-- The name ends before the next multiple of eight, and `ls` reads it to its end. -/
def Readable (e : DirEntry) : Prop := (nameBytes e).length % 8 ≠ 5 ∧ (nameBytes e).length ≤ 256 ∧ 0 ∉ nameBytes e

section

variable {buf : Buf} {o written maxBytes : Nat} {e : DirEntry} {entries : List DirEntry}

theorem reclen_le (e : DirEntry) : 19 + (nameBytes e).length ≤ reclen e := by
  unfold reclen
  omega

theorem terminator_lt : terminator o e < o + reclen e ↔ (nameBytes e).length % 8 ≠ 5 := by
  unfold terminator reclen
  omega

/-! ## The longest prefix -/

theorem fitting_prefix : ∀ {max : Nat} {entries : List DirEntry}, fitting max entries <+: entries ∧ size (fitting max entries) ≤ max := by
  intro max entries
  induction entries generalizing max with
  | nil => exact ⟨List.nil_prefix, Nat.zero_le _⟩
  | cons e entries ih =>
    rw [fitting]
    split
    · rename_i h
      obtain ⟨h1, h2⟩ := @ih (max - reclen e)
      refine ⟨(List.prefix_cons_inj e).mpr h1, ?_⟩
      rw [size, List.map_cons, List.sum_cons]
      unfold size at h2
      omega
    · exact ⟨List.nil_prefix, Nat.zero_le _⟩

/-- Every prefix that fits is part of it. -/
theorem prefix_fitting : ∀ {max : Nat} {entries front : List DirEntry}, front <+: entries → size front ≤ max →
    front <+: fitting max entries := by
  intro max entries
  induction entries generalizing max with
  | nil =>
    intro front h _
    rw [List.prefix_nil.mp h]
    exact List.nil_prefix
  | cons e entries ih =>
    intro front h hs
    cases front with
    | nil => exact List.nil_prefix
    | cons e' front =>
      obtain ⟨rfl, hp⟩ := List.cons_prefix_cons.mp h
      rw [size, List.map_cons, List.sum_cons] at hs
      rw [fitting, if_pos (by omega)]
      exact (List.prefix_cons_inj e').mpr (ih hp (by unfold size; omega))

/-! ## One record -/

theorem putDirent_before (h : o < written) : putDirent buf written e o = buf o := by
  unfold putDirent terminator
  rw [Buf.copyAt_of_lt (by omega), Buf.copyAt_of_lt (by omega), Buf.copyAt_of_lt (by omega), Buf.copyAt_of_lt (by omega),
    Buf.copyAt_of_lt (by omega), Buf.copyAt_of_lt (by omega)]

/-- Behind the terminator nothing is written. -/
theorem putDirent_after (h : terminator written e < o) : putDirent buf written e o = buf o := by
  unfold terminator at h
  unfold putDirent terminator
  rw [Buf.copyAt_of_ge (by simp; omega), Buf.copyAt_of_ge (by omega), Buf.copyAt_of_ge (by simp; omega),
    Buf.copyAt_of_ge (by simp; omega), Buf.copyAt_of_ge (by simp; omega), Buf.copyAt_of_ge (by simp; omega)]

theorem putDirent_terminator : putDirent buf written e (terminator written e) = 0 := by
  unfold putDirent
  exact Buf.copyAt_add (k := 0) (by simp)

theorem putDirent_name {k : Nat} (hk : k < (nameBytes e).length) : putDirent buf written e (written + 19 + k) = (nameBytes e)[k] := by
  unfold putDirent terminator
  rw [Buf.copyAt_of_lt (by omega)]
  exact Buf.copyAt_add hk

theorem putDirent_type : putDirent buf written e (written + 18) = if e.isDir then 4 else 8 := by
  unfold putDirent terminator
  rw [Buf.copyAt_of_lt (by omega), Buf.copyAt_of_lt (by omega)]
  exact Buf.copyAt_add (k := 0) (by simp)

theorem putDirent_reclen : Buf.getLe16 (putDirent buf written e) (written + 16) = reclen e % 65536 := by
  rw [← Buf.getLe16_copyAt (Buf.copyAt (Buf.copyAt buf written (Buf.toLe64 1)) (written + 8) (Buf.toLe64 (written + reclen e)))
    (written + 16) (reclen e)]
  refine Buf.getLe16_congr fun k hk => ?_
  unfold putDirent terminator
  rw [Buf.copyAt_of_lt (by omega), Buf.copyAt_of_lt (by omega), Buf.copyAt_of_lt (by omega)]

/-! ## All records -/

theorem putDirents_before : ∀ {entries : List DirEntry} {buf : Buf} {written : Nat}, o < written →
    (putDirents maxBytes buf written entries).1 o = buf o := by
  intro entries
  induction entries with
  | nil => exact fun _ => rfl
  | cons e entries ih =>
    intro buf written h
    rw [putDirents]
    split
    · rfl
    · rw [ih (by omega), putDirent_before h]

theorem putDirents_count : ∀ {entries : List DirEntry} {buf : Buf} {written : Nat}, written ≤ maxBytes →
    (putDirents maxBytes buf written entries).2 = written + size (fitting (maxBytes - written) entries) := by
  intro entries
  induction entries with
  | nil => exact fun _ => rfl
  | cons e entries ih =>
    intro buf written h
    rw [putDirents, fitting]
    split
    · rw [if_neg (by omega)]
      rfl
    · rw [if_pos (by omega), ih (by omega), show maxBytes - (written + reclen e) = maxBytes - written - reclen e by omega]
      unfold size
      rw [List.map_cons, List.sum_cons]
      omega

/-- Each record is where the ones before it end, with its length and its terminator, unless the next one overwrites that. -/
theorem putDirents_record : ∀ {front : List DirEntry} {entries back : List DirEntry} {buf : Buf} {written : Nat}, written ≤ maxBytes →
    fitting (maxBytes - written) entries = front ++ e :: back →
    Buf.getLe16 (putDirents maxBytes buf written entries).1 (written + size front + 16) = reclen e % 65536 := by
  intro front
  induction front with
  | nil =>
    intro entries back buf written hw h
    cases entries with
    | nil => cases h
    | cons e' entries =>
      rw [fitting] at h
      split at h
      swap
      · cases h
      rename_i hfit
      obtain ⟨rfl, -⟩ := List.cons.inj h
      have hlen := reclen_le e'
      rw [putDirents, if_neg (by omega), ←
        show Buf.getLe16 (putDirent buf written e') (written + 16) = _ from putDirent_reclen]
      exact Buf.getLe16_congr fun k hk => putDirents_before (by simp [size]; omega)
  | cons e' front ih =>
    intro entries back buf written hw h
    cases entries with
    | nil => cases h
    | cons e'' entries =>
      rw [fitting] at h
      split at h
      swap
      · cases h
      rename_i hfit
      obtain ⟨rfl, ht⟩ := List.cons.inj h
      rw [putDirents, if_neg (by omega)]
      have := @ih entries back (putDirent buf written e'') (written + reclen e'') (by omega)
        (by rw [show maxBytes - (written + reclen e'') = maxBytes - written - reclen e'' by omega]; exact ht)
      rw [← this, size, List.map_cons, List.sum_cons, size]
      congr 1
      omega

theorem readName_eq {name : Nat} {l : List UInt8} (hl : l.length ≤ 256) (h0 : 0 ∉ l) (h : ∀ k (hk : k < l.length), buf (name + k) = l[k])
    (hz : buf (name + l.length) = 0) : readName buf name = l := by
  have hne : ∀ k, k < l.length → decide (buf (name + k) ≠ 0) = true := fun k hk => by
    rw [h k hk, decide_eq_true_eq]
    intro e
    exact h0 (e ▸ List.getElem_mem hk)
  have hfirst : ((List.range l.length).map fun k => buf (name + k)) = l := by
    refine List.ext_getElem (by simp) fun k h1 h2 => ?_
    rw [List.getElem_map, List.getElem_range]
    exact h k h2
  unfold readName
  rw [show 256 = l.length + (256 - l.length) by omega, List.range_add, List.map_append, hfirst, List.takeWhile_append_of_pos]
  · cases hr : 256 - l.length with
    | zero => simp
    | succ n =>
      rw [List.range_succ_eq_map, List.map_cons, List.map_cons, Nat.add_zero, List.takeWhile_cons_of_neg (by simpa using hz), List.append_nil]
  · intro b hb
    obtain ⟨k, hk, rfl⟩ := List.getElem_of_mem hb
    rw [← h k hk]
    exact hne k hk

/-- `ls` reads a list of readable records. -/
theorem lsLoop_putDirents : ∀ {entries : List DirEntry} {buf : Buf} {written : Nat}, written ≤ maxBytes →
    (∀ e ∈ fitting (maxBytes - written) entries, Readable e) →
    lsLoop (putDirents maxBytes buf written entries).1 (putDirents maxBytes buf written entries).2 written =
      (fitting (maxBytes - written) entries).map fun e => (nameBytes e, e.isDir) := by
  intro entries
  induction entries with
  | nil =>
    intro buf written hw _
    rw [lsLoop, putDirents, if_neg (Nat.lt_irrefl _)]
    rfl
  | cons e entries ih =>
    intro buf written hw hr
    have hcount : (putDirents maxBytes buf written (e :: entries)).2 = _ := putDirents_count hw
    rw [fitting] at hr hcount ⊢
    by_cases hfit : reclen e ≤ maxBytes - written
    · rw [if_pos hfit] at hr hcount ⊢
      have hlen := reclen_le e
      obtain ⟨h5, h256, h0⟩ := hr e (List.mem_cons_self ..)
      have hterm := (terminator_lt (o := written)).mpr h5
      rw [putDirents, if_neg (by omega)] at hcount ⊢
      rw [size, List.map_cons, List.sum_cons] at hcount
      have hkeep : ∀ x, x < written + reclen e → (putDirents maxBytes (putDirent buf written e) (written + reclen e) entries).1 x =
          putDirent buf written e x := fun x hx => putDirents_before hx
      rw [lsLoop, if_pos (by omega)]
      have h16 : Buf.getLe16 (putDirents maxBytes (putDirent buf written e) (written + reclen e) entries).1 (written + 16) = reclen e := by
        rw [Buf.getLe16_congr (j := written + 16) fun k hk => hkeep _ (by omega), putDirent_reclen]
        exact Nat.mod_eq_of_lt (by unfold reclen; omega)
      dsimp only
      rw [h16, if_neg (by omega), List.map_cons, ih (by omega) (by
        rw [show maxBytes - (written + reclen e) = maxBytes - written - reclen e by omega]
        exact fun e' he' => hr e' (List.mem_cons_of_mem _ he'))]
      rw [show maxBytes - (written + reclen e) = maxBytes - written - reclen e by omega]
      congr 2
      · unfold terminator at hterm
        refine readName_eq h256 h0 (fun k hk => ?_) ?_
        · rw [hkeep _ (by omega), putDirent_name hk]
        · rw [hkeep _ (by omega)]
          exact putDirent_terminator
      · rw [hkeep _ (by omega), putDirent_type]
        cases e.isDir <;> decide
    · rw [if_neg hfit, putDirents, if_pos (by omega), lsLoop, if_neg (Nat.lt_irrefl _)]
      rfl

/-- Where every record that fits is readable, nothing behind the records is written. -/
theorem putDirents_inside : ∀ {entries : List DirEntry} {buf : Buf} {written : Nat}, written ≤ maxBytes →
    (∀ e ∈ fitting (maxBytes - written) entries, Readable e) → maxBytes ≤ o → (putDirents maxBytes buf written entries).1 o = buf o := by
  intro entries
  induction entries with
  | nil => exact fun _ _ _ => rfl
  | cons e entries ih =>
    intro buf written hw hr ho
    rw [putDirents]
    split
    · rfl
    · rename_i hfit
      rw [fitting, if_pos (by omega)] at hr
      have hterm := (terminator_lt (o := written)).mpr (hr e (List.mem_cons_self ..)).1
      rw [ih (by omega) (by
        rw [show maxBytes - (written + reclen e) = maxBytes - written - reclen e by omega]
        exact fun e' he' => hr e' (List.mem_cons_of_mem _ he')) ho, putDirent_after (by omega)]

/-- The terminators of readable records are there at the end. -/
theorem putDirents_terminator : ∀ {front : List DirEntry} {entries back : List DirEntry} {buf : Buf} {written : Nat}, written ≤ maxBytes →
    fitting (maxBytes - written) entries = front ++ e :: back → (nameBytes e).length % 8 ≠ 5 →
    (putDirents maxBytes buf written entries).1 (terminator (written + size front) e) = 0 := by
  intro front
  induction front with
  | nil =>
    intro entries back buf written hw h h5
    cases entries with
    | nil => cases h
    | cons e' entries =>
      rw [fitting] at h
      split at h
      swap
      · cases h
      obtain ⟨rfl, -⟩ := List.cons.inj h
      have hterm := (terminator_lt (o := written)).mpr h5
      rw [putDirents, if_neg (by omega), show written + size [] = written from rfl, putDirents_before hterm]
      exact putDirent_terminator
  | cons e' front ih =>
    intro entries back buf written hw h h5
    cases entries with
    | nil => cases h
    | cons e'' entries =>
      rw [fitting] at h
      split at h
      swap
      · cases h
      obtain ⟨rfl, ht⟩ := List.cons.inj h
      rw [putDirents, if_neg (by omega)]
      have := @ih entries back (putDirent buf written e'') (written + reclen e'') (by omega)
        (by rw [show maxBytes - (written + reclen e'') = maxBytes - written - reclen e'' by omega]; exact ht) h5
      rwa [show written + reclen e'' + size front = written + size (e'' :: front) by
        rw [size, size, List.map_cons, List.sum_cons, Nat.add_assoc]] at this

/-- What `ls` prints has no NUL and at most 256 bytes. -/
theorem readName_plain (buf : Buf) (name : Nat) : (readName buf name).length ≤ 256 ∧ 0 ∉ readName buf name := by
  unfold readName
  refine ⟨(List.takeWhile_prefix _).length_le.trans (by simp), fun h => ?_⟩
  simpa using List.mem_takeWhile_imp h

theorem lsLoop_plain (n : Nat) (buf : Buf) : ∀ k pos, n - pos ≤ k → ∀ x ∈ lsLoop buf n pos, x.1.length ≤ 256 ∧ 0 ∉ x.1 := by
  intro k
  induction k with
  | zero =>
    intro pos hk x hx
    rw [lsLoop, if_neg (by omega)] at hx
    cases hx
  | succ k ih =>
    intro pos hk x hx
    rw [lsLoop] at hx
    split at hx
    swap
    · cases hx
    dsimp only at hx
    split at hx
    · cases hx
    rcases List.mem_cons.mp hx with rfl | hx
    · exact readName_plain _ _
    · exact ih _ (by omega) x hx

end

/-- The call serves `ls` for every content of the buffer exactly if there is room for the first record, or no entry fits, and the entries
    that fit are readable. -/
theorem getdents64_faithful_iff (bufPtr maxBytes : Nat) (entries : List DirEntry) :
    (∀ buf, Faithful bufPtr maxBytes entries buf (sysGetdents64 bufPtr maxBytes buf (.ok entries))) ↔
      (bufPtr ≠ 0 ∧ 40 ≤ maxBytes ∨ fitting maxBytes entries = []) ∧ ∀ e ∈ fitting maxBytes entries, Readable e := by
  by_cases hg : bufPtr = 0 ∨ maxBytes < 40
  · have hcall : ∀ buf, sysGetdents64 bufPtr maxBytes buf (.ok entries) = (buf, 0) := fun buf => if_pos hg
    have hnone : ∀ buf : Buf, lsLoop buf 0 0 = [] := fun buf => by rw [lsLoop, if_neg (Nat.lt_irrefl _)]
    constructor
    · intro h
      have hd := (h fun _ => 0).decoded
      rw [hcall, hnone] at hd
      have h0 : fitting maxBytes entries = [] := List.map_eq_nil_iff.mp hd.symm
      rw [h0]
      exact ⟨Or.inr rfl, nofun⟩
    · rintro ⟨h0, -⟩ buf
      have h0 : fitting maxBytes entries = [] := h0.resolve_left fun e => by omega
      rw [hcall]
      refine ⟨?_, fun _ _ => rfl, fun front e back hf => ?_⟩
      · rw [h0, hnone]
        rfl
      · rw [h0] at hf
        exact absurd hf.symm (by simp)
  · have hcall : ∀ buf, sysGetdents64 bufPtr maxBytes buf (.ok entries) = putDirents maxBytes buf 0 entries := fun buf => if_neg hg
    have hguard : bufPtr ≠ 0 ∧ 40 ≤ maxBytes := by omega
    constructor
    · intro h
      refine ⟨Or.inl hguard, fun e he => ?_⟩
      obtain ⟨hd, -, hc⟩ := h fun _ => 0
      rw [hcall] at hd hc
      have hplain : (nameBytes e).length ≤ 256 ∧ 0 ∉ nameBytes e :=
        lsLoop_plain _ _ _ _ le_rfl (nameBytes e, e.isDir) (hd ▸ List.mem_map_of_mem he)
      obtain ⟨front, back, hf⟩ := List.append_of_mem he
      have hlt := (hc front e back hf).2
      have hrec : Buf.getLe16 (putDirents maxBytes (fun _ => 0) 0 entries).1 _ = _ := putDirents_record (Nat.zero_le maxBytes) hf
      rw [Nat.zero_add] at hrec
      rw [hrec] at hlt
      have hle := Nat.mod_le (reclen e) 65536
      exact ⟨terminator_lt.1 (hlt.trans_le (Nat.add_le_add_left hle _)), hplain⟩
    · rintro ⟨-, hr⟩ buf
      rw [hcall]
      refine ⟨?_, fun o ho => putDirents_inside (Nat.zero_le _) hr ho, fun front e back hf => ?_⟩
      · rw [lsLoop_putDirents (Nat.zero_le _) hr]
        rfl
      · obtain ⟨h5, h256, -⟩ := hr e (by rw [hf]; simp)
        have hz : (putDirents maxBytes buf 0 entries).1 _ = _ := putDirents_terminator (Nat.zero_le maxBytes) hf h5
        have hrec : Buf.getLe16 (putDirents maxBytes buf 0 entries).1 _ = _ := putDirents_record (Nat.zero_le maxBytes) hf
        rw [Nat.zero_add] at hz hrec
        have hsmall : reclen e < 65536 := by
          unfold reclen
          omega
        rw [hrec, Nat.mod_eq_of_lt hsmall]
        exact ⟨hz, terminator_lt.2 h5⟩

/-- Two names of five bytes. -/
def fiveBytes : List DirEntry := [⟨['A', '.', 'T', 'X', 'T'], false, 0⟩, ⟨['B', '.', 'T', 'X', 'T'], false, 0⟩]

/-- The terminator of the first is the first byte of the second record, which the call then writes: `ls` reads past the name. -/
theorem getdents64_five_bytes : ¬ Faithful 1 2048 fiveBytes (fun _ => 0) (sysGetdents64 1 2048 (fun _ => 0) (.ok fiveBytes)) := by
  intro h
  have hf : fitting 2048 fiveBytes = [] ++ ⟨['A', '.', 'T', 'X', 'T'], false, 0⟩ :: [⟨['B', '.', 'T', 'X', 'T'], false, 0⟩] := by decide
  have hz := (h.contained _ _ _ hf).1
  revert hz
  decide

end Myos.Vfs
