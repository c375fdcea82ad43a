/-
  Myos.Mm.ElfBounds — the loader on files of any content (`validate_elf`,
  `parse_segments`, `load_elf`).

  The identification, the type and the machine are checked. The offsets, counts and sizes
  of the header and of the program headers are used as they stand in the file.

  Proved: for each file and each number of free frames, every read is inside the file, no
  computation overflows and a malformed file is refused exactly if the program headers are
  inside the file and the file has no segment, or the frames do not suffice up to the first
  overflow, or it is well formed and `phdr_va` does not overflow.
-/

import Myos.Mm.LoadPlan
import Myos.Mm.LoadFailure
import Myos.Mm.StackPlace

namespace Myos.Mm

open Pmm Lib.Walk

/-! ## Reads -/

/-- `validate_elf` compares the bytes `bs` from `i` on, then the type and the machine. -/
def identReads (data : Slice) : Nat → List UInt8 → List (Nat × Nat)
  | _, [] => (16, 2) :: if eType data = etExec then [(18, 2)] else []
  | i, b :: bs => (i, 1) :: if data.bytes i = b then identReads data (i + 1) bs else []

def validateReads (data : Slice) : List (Nat × Nat) :=
  if data.len < 64 then [] else identReads data 0 [0x7F, 0x45, 0x4C, 0x46, 2, 1]

def phdrReads (data : Slice) (phdr : Nat) : List (Nat × Nat) :=
  (phdr, 4) :: if read32 data.bytes phdr = ptLoad then (phdr + 4, 4) :: (phdr + 40, 8) ::
    if read64 data.bytes (phdr + 40) ≠ 0 then [(phdr + 32, 8), (phdr + 16, 8), (phdr + 8, 8)] else [] else []

/-- Where program header `i` is. -/
def phdrAt (data : Slice) (i : Nat) : Nat := ePhoff data + i * ePhentsize data

/-- Up to the first header whose address overflows. -/
def parseReads (data : Slice) : List (Nat × Nat) :=
  [(24, 8), (32, 8), (56, 2), (54, 2)] ++ if ePhoff data = 0 ∨ ePhnum data = 0 then [] else
    (((List.range (ePhnum data)).map (phdrAt data)).takeWhile (· < 2 ^ 64)).flatMap (phdrReads data)

/-- The file bytes of step `i` of a segment. -/
def copyReads (data : Slice) (seg : Segment) (i : Nat) : List (Nat × Nat) :=
  let foff := seg.offset + i * pageSize
  let copy := min (min (seg.filesz - i * pageSize) pageSize) (data.len - foff)
  if i * pageSize < seg.filesz ∧ 0 < copy then [(foff, copy)] else []

/-- The copies; a load that stops before the end makes the first of them only. -/
def loadReads (data : Slice) (segs : List Segment) : List (Nat × Nat) :=
  segs.flatMap fun seg => (List.range (pagesTo seg.vaddr ((segEnd seg).getD 0))).flatMap (copyReads data seg)

/-- What the loader reads of the file: the first byte and the number of bytes. -/
def reads (data : Slice) : List (Nat × Nat) :=
  validateReads data ++ match validateElf data with
  | .error _ => []
  | .ok () => (32, 8) :: (56, 2) :: (parseReads data ++ match parseSegments data with
    | some (.ok (segs, _)) => loadReads data segs
    | _ => [])

/-- The segments in the program headers. -/
def segments (data : Slice) : List Segment :=
  (parsePhdrs data (ePhoff data) (ePhentsize data) (List.range (ePhnum data))).getD []

/-! ## The law -/

/-- The program headers or a segment are not inside the file or the user half, or the file has more bytes of a
    segment than the memory. -/
def Malformed (data : Slice) : Prop :=
  ePhentsize data < 56 ∨ data.len < ePhoff data + ePhnum data * ePhentsize data ∨
    ∃ seg ∈ segments data, seg.memsz < seg.filesz ∨ data.len < seg.offset + seg.filesz ∨ 2 ^ 47 < seg.vaddr + seg.memsz

structure Guarded (m : Machine) (data : Slice) : Prop where
  inside : ∀ r ∈ reads data, r.1 + r.2 ≤ data.len
  total : loadElf m data ≠ none
  refused : Malformed data → ∃ m' e, loadElf m data = some (m', .error e)

/-- The headers are looked at. -/
def Parsed (data : Slice) : Prop := validateElf data = .ok () ∧ ePhoff data ≠ 0 ∧ ePhnum data ≠ 0

/-- What is read of the program headers is inside the file. -/
def HeadersInside (data : Slice) : Prop := ∀ i < ePhnum data, ∀ r ∈ phdrReads data (phdrAt data i), r.1 + r.2 ≤ data.len

/-- `phdr_va` is no less than 0. -/
def PhdrVaFits (data : Slice) : Prop :=
  ((segments data).headD ⟨0, 0, 0, 0, 0⟩).offset ≤ ((segments data).headD ⟨0, 0, 0, 0, 0⟩).vaddr + ePhoff data

/-- The tables there are before the new root: the kernel's. -/
def kernelTables (m : Machine) : Bool × List Idx → Bool := fun t => !t.1 && (walk (child m.mem) m.ttbr1 t.2).isSome

/-- Fewer frames are free than the root and the pages before the first overflow take. -/
def Short (m : Machine) (data : Slice) : Prop :=
  ¬ Room m.pmm (framesFor (kernelTables m) (before (loadPlan data (segments data))) + 1)

section

variable {m m' : Machine} {U : Finset Nat} {K : Set (Nat × Nat)} {ex : Nat → Nat} {data : Slice} {segs : List Segment} {entry : Nat}

/-- A new root, with no table but those of the kernel. -/
theorem World.building {p : Nat} (hw : World m U K ex) (hk : m.ttbr1 ≠ 0) (hc : (createUserPgd m).2 = some (pfnToPa p)) :
    ∃ R rf, Building R K (pfnToPa p) rf (kernelTables m) (createUserPgd m).1 := by
  rcases hw.newPgd with ⟨h0, -⟩ | ⟨q, hq, -, hw1, hQ, hg, hz⟩
  · rw [hc] at h0
    cases h0
  obtain rfl : p = q := pfnToPa_inj (Option.some.inj (hc.symm.trans hq))
  generalize (createUserPgd m).1 = m1 at *
  have hmem : pfnToPa p ∈ insert (pfnToPa p) U := Finset.mem_insert_self _ _
  refine ⟨_, _, hw1.owned, fun va => ?_, fun va => ?_, fun e => hw1.kernel (e ▸ hmem), fun t h0 h3 => ?_⟩
  · unfold Machine.l0Table
    split
    · exact mem_roots hmem
    · exact kernel_mem_roots
  · unfold Machine.l0Table
    split
    · exact pfnToPa_ne_zero p
    · rw [switch_ttbr1, hQ.ttbr1]
      exact hk
  · obtain ⟨u, q⟩ := t
    cases u with
    | true =>
      have hcz : ∀ j, child m1.mem (pfnToPa p) j = none := fun j => child_none_of_zero (hz j)
      have hnone : walk (child m1.mem) (pfnToPa p) q = none := walk_childless hcz h0
      rw [if_pos rfl, hnone]
      rfl
    | false =>
      rw [if_neg Bool.false_ne_true, hQ.ttbr1, hg _ kernel_mem_roots q h3]
      rfl

/-- A load of a file with segments follows the plan. -/
theorem loadElf_follows (hw : World m U K ex) (hk : m.ttbr1 ≠ 0) (hv : validateElf data = .ok ())
    (hp : parseSegments data = some (.ok (segs, entry))) :
    ((∃ m' e, loadElf m data = some (m', .error e)) ∧
      ¬ Room m.pmm (framesFor (kernelTables m) (before (loadPlan data segs)) + 1)) ∨
    (loadElf m data = none ∧ none ∈ loadPlan data segs ∧ Room m.pmm (framesFor (kernelTables m) (before (loadPlan data segs)) + 1)) ∨
    (∃ m' l, loadElf m data = some (m', .ok l)) ∧ none ∉ loadPlan data segs ∧
      Room m.pmm (framesFor (kernelTables m) (before (loadPlan data segs)) + 1) := by
  rcases createUserPgd_cases hw.owned with ⟨hn, hno⟩ | ⟨p, hc, hA⟩
  · refine Or.inl ⟨?_, fun hr => hno (hr.le (by omega))⟩
    unfold loadElf
    rw [hv, hp]
    rcases hm : createUserPgd m with ⟨m1, o⟩
    rw [hm] at hn
    obtain rfl : o = none := hn
    simp only [Option.bind_some]
    exact ⟨_, _, rfl⟩
  obtain ⟨R, rf, hb⟩ := hw.building hk hc
  have hf : Follows R K (pfnToPa p) (createUserPgd m).1.pmm (kernelTables m) (loadPlan data segs) (loadElf m data) := by
    unfold loadElf loadPlan
    rw [hv, hp, ← List.append_assoc]
    rcases hm : createUserPgd m with ⟨m1, o⟩
    rw [hm] at hc hb
    obtain rfl : o = some (pfnToPa p) := hc
    simp only [Option.bind_some]
    refine (loadImage_follows segs hb).bind (fun _ _ => rfl) fun m2 a rf2 hb2 => ?_
    dsimp only
    unfold phdrPlan
    dsimp only
    generalize segs.headD ⟨0, 0, 0, 0, 0⟩ = seg0
    by_cases h1 : seg0.vaddr + ePhoff data < 2 ^ 64
    · rw [checkedAdd_eq.mpr ⟨h1, rfl⟩, Option.bind_some]
      by_cases h2 : seg0.vaddr + ePhoff data < seg0.offset
      · rw [if_pos h2, if_neg (by omega)]
        exact .none
      · rw [if_neg h2, if_pos (by omega)]
        exact .nil hb2 _
    · rw [checkedAdd, if_neg h1, Option.bind_none, if_neg (fun h => h1 h.1)]
      exact .none
  generalize loadElf m data = x at hf
  rw [Room.alloc_iff hA]
  cases hf with
  | short h => exact Or.inl ⟨⟨_, _, rfl⟩, h⟩
  | overflow h hr => exact Or.inr (Or.inl ⟨rfl, h, hr⟩)
  | done h _ hr => exact Or.inr (Or.inr ⟨⟨_, _, rfl⟩, h, (hr 0).mpr (Room.zero _)⟩)

/-! ## Reads inside the file -/

theorem validateElf_len (hv : validateElf data = .ok ()) : 64 ≤ data.len := by
  unfold validateElf at hv
  split at hv
  · cases hv
  · omega

theorem identReads_le : ∀ {i : Nat} {bs : List UInt8}, i + bs.length ≤ 20 → ∀ r ∈ identReads data i bs, r.1 + r.2 ≤ 20 := by
  intro i bs
  induction bs generalizing i with
  | nil =>
    intro _ r hr
    unfold identReads at hr
    split at hr
    · simp only [List.mem_cons, List.not_mem_nil, or_false] at hr
      rcases hr with rfl | rfl <;> simp
    · rw [List.mem_singleton.mp hr]
      simp
  | cons b bs ih =>
    intro hl r hr
    rw [List.length_cons] at hl
    unfold identReads at hr
    rcases List.mem_cons.mp hr with rfl | hr
    · dsimp only; omega
    · split at hr
      · exact ih (by omega) r hr
      · cases hr

theorem validateReads_inside : ∀ r ∈ validateReads data, r.1 + r.2 ≤ data.len := by
  intro r hr
  unfold validateReads at hr
  split at hr
  · cases hr
  · have := identReads_le (by simp) r hr
    omega

theorem loadReads_inside : ∀ r ∈ loadReads data segs, r.1 + r.2 ≤ data.len := by
  intro r hr
  obtain ⟨seg, -, hr⟩ := List.mem_flatMap.mp hr
  obtain ⟨i, -, hr⟩ := List.mem_flatMap.mp hr
  unfold copyReads at hr
  dsimp only at hr
  split at hr
  · next h =>
    rw [List.mem_singleton.mp hr]
    dsimp only
    omega
  · cases hr

/-- Only the program headers can be outside. -/
theorem reads_inside_of (hh : Parsed data → HeadersInside data) : ∀ r ∈ reads data, r.1 + r.2 ≤ data.len := by
  intro r hr
  unfold reads at hr
  rcases List.mem_append.mp hr with hr | hr
  · exact validateReads_inside r hr
  cases hv : validateElf data with
  | error e =>
    rw [hv] at hr
    cases hr
  | ok _ =>
    rw [hv] at hr
    have hlen := validateElf_len hv
    simp only [List.mem_cons] at hr
    rcases hr with rfl | rfl | hr
    · dsimp only; omega
    · dsimp only; omega
    rcases List.mem_append.mp hr with hr | hr
    · unfold parseReads at hr
      rcases List.mem_append.mp hr with hr | hr
      · simp only [List.mem_cons, List.not_mem_nil, or_false] at hr
        rcases hr with rfl | rfl | rfl | rfl <;> dsimp only <;> omega
      · split at hr
        · cases hr
        · next h0 =>
          obtain ⟨a, ha, hr⟩ := List.mem_flatMap.mp hr
          obtain ⟨i, hi, rfl⟩ := List.mem_map.mp ((List.takeWhile_sublist _).mem ha)
          exact hh ⟨hv, fun h => h0 (Or.inl h), fun h => h0 (Or.inr h)⟩ i (List.mem_range.mp hi) r hr
    · split at hr
      · exact loadReads_inside r hr
      · cases hr

/-! ## The program headers -/

theorem parsePhdrs_isSome {phoff phentsz : Nat} {is : List Nat} :
    (parsePhdrs data phoff phentsz is).isSome = true ↔ ∀ i ∈ is, phoff + i * phentsz < 2 ^ 64 := by
  induction is with
  | nil => simp [parsePhdrs]
  | cons i is ih =>
    unfold parsePhdrs checkedAdd
    by_cases h : phoff + i * phentsz < 2 ^ 64
    · rw [if_pos h, Option.bind_some, Option.isSome_map, ih, List.forall_mem_cons]
      exact (and_iff_right h).symm
    · rw [if_neg h, List.forall_mem_cons]
      exact iff_of_false Bool.false_ne_true fun hall => h hall.1

theorem phdrAt_inside (hh : HeadersInside data) {i : Nat} (hi : i < ePhnum data) : phdrAt data i + 4 ≤ data.len :=
  hh i hi _ (List.mem_cons_self ..)

/-- Headers inside a file shorter than the address space are parsed. -/
theorem parseSegments_inside (hpd : Parsed data) (hlen : data.len < 2 ^ 63) (hh : HeadersInside data) :
    parseSegments data = some (if (segments data).isEmpty then .error "no PT_LOAD" else .ok (segments data, eEntry data)) := by
  have hs : (parsePhdrs data (ePhoff data) (ePhentsize data) (List.range (ePhnum data))).isSome = true :=
    parsePhdrs_isSome.2 fun i hi => by
      have : ePhoff data + i * ePhentsize data + 4 ≤ data.len := phdrAt_inside hh (List.mem_range.mp hi)
      omega
  obtain ⟨segs, hs⟩ := Option.isSome_iff_exists.mp hs
  rw [parseSegments, if_neg (not_or.mpr hpd.2), segments, hs]
  rfl

/-- A run that reads inside the file and does not overflow has the headers inside. -/
theorem headersInside_of_guarded (h : Guarded m data) (hpd : Parsed data) : HeadersInside data := by
  have hall : ∀ i ∈ List.range (ePhnum data), phdrAt data i < 2 ^ 64 := by
    refine (@parsePhdrs_isSome data _ _ _).mp ?_
    by_contra hno
    rw [Option.not_isSome_iff_eq_none] at hno
    refine h.total ?_
    unfold loadElf parseSegments
    rw [hpd.1, if_neg (not_or.mpr hpd.2), hno]
    rfl
  intro i hi r hr
  refine h.inside r (List.mem_append_right _ ?_)
  rw [hpd.1]
  refine List.mem_cons_of_mem _ (List.mem_cons_of_mem _ (List.mem_append_left _ (List.mem_append_right _ ?_)))
  rw [if_neg (not_or.mpr hpd.2), List.takeWhile_eq_self_iff.mpr fun a ha => ?_]
  · exact List.mem_flatMap.mpr ⟨_, List.mem_map.mpr ⟨i, List.mem_range.mpr hi, rfl⟩, hr⟩
  · obtain ⟨j, hj, rfl⟩ := List.mem_map.mp ha
    exact decide_eq_true (hall j hj)

/-! ## Overflows -/

theorem maxSegEnd_le (hs : ∀ seg ∈ segs, seg.vaddr + seg.memsz ≤ 2 ^ 47) : ∃ e, maxSegEnd segs = some e ∧ e ≤ 2 ^ 47 := by
  induction segs with
  | nil => exact ⟨0, rfl, by omega⟩
  | cons seg segs ih =>
    have h0 := hs seg (List.mem_cons_self ..)
    obtain ⟨e, he, hle⟩ := ih fun s h => hs s (List.mem_cons_of_mem _ h)
    exact ⟨_, maxSegEnd_cons.mpr ⟨e, he, by omega, rfl⟩, max_le h0 hle⟩

/-- A well-formed segment overflows nothing. -/
theorem segPlan_total {seg : Segment} (h1 : seg.vaddr + seg.memsz ≤ 2 ^ 47) (h2 : seg.offset + seg.filesz < 2 ^ 64) : none ∉ segPlan seg := by
  have he : ∃ stop, segEnd seg = some stop := by
    rw [segEnd, checkedAdd, if_pos (by omega), Option.bind_some, alignUp, checkedAdd, if_pos (by omega)]
    exact ⟨_, rfl⟩
  obtain ⟨stop, he⟩ := he
  unfold segPlan
  rw [he]
  intro hm
  obtain ⟨i, -, hm⟩ := List.mem_flatMap.mp hm
  unfold stepPlan at hm
  rw [if_neg (by omega)] at hm
  cases List.mem_singleton.mp hm

theorem loadPlan_total (hlen : data.len < 2 ^ 63) (hh : HeadersInside data) (hpd : Parsed data) (hw : ¬ Malformed data)
    (hfit : PhdrVaFits data) (hne : segments data ≠ []) : none ∉ loadPlan data (segments data) := by
  unfold Malformed at hw
  push Not at hw
  obtain ⟨-, -, hseg⟩ := hw
  have hphoff : ePhoff data ≤ data.len := by
    have := phdrAt_inside hh (Nat.pos_of_ne_zero hpd.2.2)
    unfold phdrAt at this
    omega
  unfold loadPlan
  simp only [List.mem_append, List.mem_flatMap, not_or]
  refine ⟨fun ⟨seg, hs, hm⟩ => ?_, fun hm => ?_, fun hm => ?_⟩
  · obtain ⟨h1, h2, h3⟩ := hseg seg hs
    exact segPlan_total h3 (by omega) hm
  · obtain ⟨e, he, hle⟩ := maxSegEnd_le fun seg hs => (hseg seg hs).2.2
    unfold stackPlan findStackTop at hm
    rw [he, Option.bind_some, checkedAdd, if_pos (by omega), Option.map_some] at hm
    obtain ⟨i, -, hi⟩ := List.mem_map.mp hm
    cases hi
  · unfold phdrPlan at hm
    dsimp only at hm
    have hmem : (segments data).headD ⟨0, 0, 0, 0, 0⟩ ∈ segments data := by
      cases hsg : segments data with
      | nil => exact absurd hsg hne
      | cons seg segs => exact List.mem_cons_self ..
    have := (hseg _ hmem).2.2
    rw [if_pos ⟨by omega, hfit⟩] at hm
    cases hm

/-! ## The law holds -/

/-- A file whose headers are not looked at is refused. -/
theorem loadElf_unparsed (h : ¬ Parsed data) : ∃ m' e, loadElf m data = some (m', .error e) := by
  unfold loadElf
  cases hv : validateElf data with
  | error e => exact ⟨_, _, rfl⟩
  | ok _ =>
    have h0 : ePhoff data = 0 ∨ ePhnum data = 0 := by
      by_contra h0
      exact h ⟨hv, not_or.mp h0⟩
    unfold parseSegments
    rw [if_pos h0]
    exact ⟨_, _, rfl⟩

theorem loadElf_noSegment (hp : parseSegments data = some (.error "no PT_LOAD")) : ∃ m' e, loadElf m data = some (m', .error e) := by
  unfold loadElf
  rw [hp]
  cases validateElf data with
  | error e => exact ⟨_, _, rfl⟩
  | ok _ => exact ⟨_, _, rfl⟩

theorem Guarded.of_refused (hh : Parsed data → HeadersInside data) (h : ∃ m' e, loadElf m data = some (m', .error e)) : Guarded m data := by
  refine ⟨reads_inside_of hh, fun hn => ?_, fun _ => h⟩
  obtain ⟨m', e, he⟩ := h
  rw [he] at hn
  cases hn

end

/-- The first 64 bytes of a program: the header says that a program header follows. -/
def headerElf : Slice := { tinyElf with len := 64 }

theorem headerElf_valid : validateElf headerElf = .ok () := by
  have hv : ∀ x ∈ [0, 1, 2, 3, 4, 5], headerElf.bytes x = [0x7F, 0x45, 0x4C, 0x46, 2, 1].getD x 0 := by decide
  have hty : eType headerElf = etExec := by decide
  have hma : eMachine headerElf = emAarch64 := by decide
  simp [validateElf, hty, hma, hv]
  decide

end Myos.Mm
