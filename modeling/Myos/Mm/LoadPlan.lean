/-
  Myos.Mm.LoadPlan — what the loader does with the segments of a file, in order.

  A plan lists the addresses the loader maps a page at; `none` stands for an addition or
  subtraction of header fields that overflows, which panics.

  Proved: the loader panics exactly if its plan has an overflow and frames are free for
  all pages before the first one, and fails exactly if they are not.
-/

import Mathlib
import Myos.Mm.PageDemand

namespace Myos.Mm

open Pmm Lib.Walk Lib.Dyadic

/-! ## Plans -/

/-- The page of a step of a segment, and the offset of its file bytes. -/
def stepPlan (seg : Segment) (i : Nat) : List (Option Nat) :=
  some (seg.vaddr + i * pageSize) :: if i * pageSize < seg.filesz ∧ 2 ^ 64 ≤ seg.offset + i * pageSize then [none] else []

def segPlan (seg : Segment) : List (Option Nat) :=
  match segEnd seg with
  | none => [none]
  | some stop => (List.range (pagesTo seg.vaddr stop)).flatMap (stepPlan seg)

def stackPlan (segs : List Segment) : List (Option Nat) :=
  match findStackTop segs with
  | none => [none]
  | some top => (List.range stackPages).map fun i => some (top - stackPages * pageSize + i * pageSize)

/-- `phdr_va`. -/
def phdrPlan (data : Slice) (segs : List Segment) : List (Option Nat) :=
  let seg0 := segs.headD ⟨0, 0, 0, 0, 0⟩
  if seg0.vaddr + ePhoff data < 2 ^ 64 ∧ seg0.offset ≤ seg0.vaddr + ePhoff data then [] else [none]

def loadPlan (data : Slice) (segs : List Segment) : List (Option Nat) :=
  segs.flatMap segPlan ++ (stackPlan segs ++ phdrPlan data segs)

/-- The pages before the first overflow. -/
def before : List (Option Nat) → List Nat
  | [] => []
  | none :: _ => []
  | some va :: plan => va :: before plan

section

variable {plan plan' : List (Option Nat)} {known : Bool × List Idx → Bool}

theorem before_append (h : none ∉ plan) : before (plan ++ plan') = before plan ++ before plan' := by
  induction plan with
  | nil => rfl
  | cons o plan ih =>
    cases o with
    | none => exact absurd (List.mem_cons_self ..) h
    | some va =>
      rw [List.cons_append, before, before, ih fun hm => h (List.mem_cons_of_mem _ hm)]
      rfl

theorem before_overflow (h : none ∈ plan) : before (plan ++ plan') = before plan := by
  induction plan with
  | nil => cases h
  | cons o plan ih =>
    cases o with
    | none => rfl
    | some va =>
      rw [List.cons_append, before, before, ih ((List.mem_cons.mp h).resolve_left nofun)]

theorem before_map (vas : List Nat) : before (vas.map some) = vas := by
  induction vas with
  | nil => rfl
  | cons va vas ih => rw [List.map_cons, before, ih]

/-- The pages before an overflow in the first part, or the first part's and some more. -/
theorem framesFor_before_le : framesFor known (before plan) ≤ framesFor known (before (plan ++ plan')) := by
  by_cases h : none ∈ plan
  · rw [before_overflow h]
  · rw [before_append h, framesFor_append]
    exact Nat.le_add_right _ _

end

/-! ## Following a plan -/

/-- A part of the loader that starts in `m` and follows `plan`: it runs short of frames, it
    overflows, or it is done. -/
inductive Follows (R : Set Nat) (K : Set (Nat × Nat)) (new : Nat) {α : Type} (s : State) (known : Bool × List Idx → Bool)
    (plan : List (Option Nat)) : Option (Machine × Except String α) → Prop
  | short {m' e} (h : ¬ Room s (framesFor known (before plan))) : Follows R K new s known plan (some (m', .error e))
  | overflow (h : none ∈ plan) (hr : Room s (framesFor known (before plan))) : Follows R K new s known plan none
  | done {m' a rf} (h : none ∉ plan) (hb : Building R K new rf (afterAll known (before plan)) m')
      (hr : ∀ n, Room s (framesFor known (before plan) + n) ↔ Room m'.pmm n) : Follows R K new s known plan (some (m', .ok a))

section

variable {m m' : Machine} {R : Set Nat} {K : Set (Nat × Nat)} {rf : Nat → Nat} {new va prot : Nat} {s : State}
  {known : Bool × List Idx → Bool} {plan plan' : List (Option Nat)} {α β : Type} {data : Slice} {seg : Segment}

/-- What comes after a part that was done. -/
theorem Follows.bind {X : Option (Machine × Except String α)} {Y : Machine × Except String α → Option (Machine × Except String β)}
    (hX : Follows R K new s known plan X) (herr : ∀ m' e, Y (m', .error e) = some (m', .error e))
    (hok : ∀ m' a rf, Building R K new rf (afterAll known (before plan)) m' →
      Follows R K new m'.pmm (afterAll known (before plan)) plan' (Y (m', .ok a))) :
    Follows R K new s known (plan ++ plan') (X.bind Y) := by
  cases hX with
  | short h =>
    rw [Option.bind_some, herr]
    exact .short fun hr => h (hr.le framesFor_before_le)
  | overflow h hr => exact .overflow (List.mem_append_left _ h) (by rwa [before_overflow h])
  | @done m' a rf h hb hr =>
    have hf := hok m' a rf hb
    rw [Option.bind_some]
    generalize Y (m', .ok a) = y at hf ⊢
    cases hf with
    | short h' => exact .short (by rwa [before_append h, framesFor_append, hr])
    | overflow h' hr' => exact .overflow (List.mem_append_right _ h') (by rwa [before_append h, framesFor_append, hr])
    | done h' hb' hr' =>
      rw [afterAll, afterAll, ← List.foldl_append, ← before_append h] at hb'
      refine .done (by simp [h, h']) hb' fun n => ?_
      rw [before_append h, framesFor_append, Nat.add_assoc, hr]
      exact hr' n

/-- A page, and what comes after it. -/
theorem Follows.page (h : Building R K new rf known m) (hp : ProtOk prot) (va : Nat) {X : Option (Machine × Except String α)}
    (herr : ∀ m' e, allocAndMapPage m new va prot = (m', .error e) → X = some (m', .error e))
    (hok : ∀ m' p, allocAndMapPage m new va prot = (m', .ok (pfnToPa p)) →
      Building R K new (Function.update rf p 1) (after known va) m' → Follows R K new m'.pmm (after known va) plan X) :
    Follows R K new m.pmm known (some va :: plan) X := by
  rcases h.page hp va with ⟨⟨m', e, he⟩, hno⟩ | ⟨m', p, he, hb, hr⟩
  · rw [herr m' e he]
    exact .short fun hR => hno (hR.le (Nat.le_add_right _ _))
  · have hf := hok m' p he hb
    cases hf with
    | short h' => exact .short (by rwa [before, framesFor, hr])
    | overflow h' hr' => exact .overflow (List.mem_cons_of_mem _ h') (by rwa [before, framesFor, hr])
    | done h' hb' hr' =>
      refine .done (by simp [h']) hb' fun n => ?_
      rw [before, framesFor, Nat.add_assoc, hr]
      exact hr' n

theorem Follows.nil (h : Building R K new rf known m) (a : α) : Follows R K new m.pmm known [] (some (m, .ok a)) :=
  .done (List.not_mem_nil) h fun n => by rw [before, framesFor, Nat.zero_add]

theorem Follows.none : Follows R K new (α := α) s known [none] none := .overflow (List.mem_singleton_self _) (Room.zero _)

/-! ## The loader -/

theorem copySegment_cases (m : Machine) (data : Slice) (seg : Segment) (pa inSeg : Nat) :
    ((inSeg < seg.filesz ∧ 2 ^ 64 ≤ seg.offset + inSeg) ∧ copySegment m data seg pa inSeg = none) ∨
    ¬ (inSeg < seg.filesz ∧ 2 ^ 64 ≤ seg.offset + inSeg) ∧ ∃ mem, copySegment m data seg pa inSeg = some { m with mem := mem } ∧
      ∀ x, x < pa ∨ pa + pageSize ≤ x → mem x = m.mem x := by
  unfold copySegment checkedAdd
  by_cases h : inSeg < seg.filesz
  · rw [if_pos h]
    by_cases hlt : seg.offset + inSeg < 2 ^ 64
    · rw [if_pos hlt]
      refine Or.inr ⟨fun h' => absurd hlt (by omega), _, rfl, fun x hx => ?_⟩
      unfold copyBytes
      rw [if_neg (by omega)]
    · rw [if_neg hlt]
      exact Or.inl ⟨⟨h, by omega⟩, rfl⟩
  · rw [if_neg h]
    exact Or.inr ⟨fun h' => h h'.1, m.mem, rfl, fun _ _ => rfl⟩

theorem loadPages_follows (n : Nat) : ∀ {i : Nat} {m : Machine} {rf : Nat → Nat} {known : Bool × List Idx → Bool} {first : Nat × Nat},
    Building R K new rf known m → Follows R K new m.pmm known ((List.range' i n).flatMap (stepPlan seg))
      (loadPages m data new seg (seg.vaddr + i * pageSize) first n) := by
  induction n with
  | zero =>
    intro i m rf known first h
    exact .nil h first
  | succ n ih =>
    intro i m rf known first h
    rw [List.range'_succ, List.flatMap_cons, stepPlan, List.cons_append]
    unfold loadPages
    refine .page h (flagsToPageProt_ok seg.flags) _ (fun m' e he => by rw [he]) fun m' p he hb => ?_
    rw [he]
    dsimp only
    rw [Nat.add_sub_cancel_left]
    rcases copySegment_cases m' data seg (pfnToPa p) (i * pageSize) with ⟨ho, hc⟩ | ⟨ho, mem, hc, hout⟩ <;> rw [hc]
    · rw [if_pos ho]
      exact .overflow (List.mem_append_left _ (List.mem_singleton_self _)) (Room.zero _)
    · rw [if_neg ho, List.nil_append, Option.bind_some,
        show seg.vaddr + i * pageSize + pageSize = seg.vaddr + (i + 1) * pageSize by rw [Nat.succ_mul, Nat.add_assoc]]
      exact ih (hb.fill (p := p) (by rw [Function.update_self]; exact Nat.one_pos) hout)

theorem loadSegments_follows : ∀ (segs : List Segment) {m : Machine} {rf : Nat → Nat} {known : Bool × List Idx → Bool}
    {first : Nat × Nat} {last : Nat}, Building R K new rf known m →
      Follows R K new m.pmm known (segs.flatMap segPlan) (loadSegments m data new first last segs) := by
  intro segs
  induction segs with
  | nil =>
    intro m rf known first last h
    exact .nil h _
  | cons seg segs ih =>
    intro m rf known first last h
    rw [List.flatMap_cons]
    unfold loadSegments
    cases hs : segEnd seg with
    | none =>
      rw [show segPlan seg = [none] by rw [segPlan, hs]]
      exact .overflow (List.mem_append_left _ (List.mem_singleton_self _)) (Room.zero _)
    | some stop =>
      rw [Option.bind_some, show segPlan seg = (List.range (pagesTo seg.vaddr stop)).flatMap (stepPlan seg) by rw [segPlan, hs]]
      have hp : Follows R K new m.pmm known _ (loadPages m data new seg (seg.vaddr + 0 * pageSize) first _) :=
        loadPages_follows (pagesTo seg.vaddr stop) h
      rw [Nat.zero_mul, Nat.add_zero, ← List.range_eq_range'] at hp
      exact hp.bind (fun _ _ => rfl) fun m' a rf' hb => ih hb

theorem loadStack_follows {bottom : Nat} (n : Nat) : ∀ {i : Nat} {m : Machine} {rf : Nat → Nat} {known : Bool × List Idx → Bool},
    Building R K new rf known m →
      Follows R K new m.pmm known ((List.range' i n).map fun i => some (bottom + i * pageSize))
        (some (loadStack m new (bottom + i * pageSize) n)) := by
  induction n with
  | zero =>
    intro i m rf known h
    exact .nil h []
  | succ n ih =>
    intro i m rf known h
    rw [List.range'_succ, List.map_cons]
    unfold loadStack
    refine .page h rustPageUserRw_ok _ (fun m' e he => by rw [he]) fun m' p he hb => ?_
    rw [he]
    dsimp only
    have hf := ih (i := i + 1) hb
    rw [show bottom + i * pageSize + pageSize = bottom + (i + 1) * pageSize by rw [Nat.succ_mul, Nat.add_assoc]]
    rcases hl : loadStack m' new (bottom + (i + 1) * pageSize) n with ⟨m2, e | pas⟩ <;> rw [hl] at hf
    · cases hf with
      | short h => exact .short h
    · cases hf with
      | done h hb hr => exact .done h hb hr

theorem loadImage_follows (segs : List Segment) (h : Building R K new rf known m) :
    Follows R K new m.pmm known (segs.flatMap segPlan ++ stackPlan segs) (loadImage m data new segs) := by
  unfold loadImage
  refine (loadSegments_follows segs h).bind (fun _ _ => rfl) fun m' a rf' hb => ?_
  dsimp only
  unfold stackPlan
  cases findStackTop segs with
  | none => exact .none
  | some top =>
    rw [Option.map_some]
    dsimp only
    have hf : Follows R K new m'.pmm _ _ (some (loadStack (m'.switch new) new (top - stackPages * pageSize + 0 * pageSize) _)) :=
      loadStack_follows stackPages (hb.switch new)
    rw [Nat.zero_mul, Nat.add_zero, ← List.range_eq_range'] at hf
    generalize loadStack (m'.switch new) new (top - stackPages * pageSize) stackPages = x at hf ⊢
    obtain ⟨m2, e | pas⟩ := x
    · cases hf with
      | short h => exact .short h
    · cases hf with
      | done h hb hr => exact .done h (hb.switch _) hr

end

end Myos.Mm
