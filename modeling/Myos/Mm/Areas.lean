/-
  Myos.Mm.Areas — the areas of an address space over runs of the operations of
  `rust/src/kernel/mm.rs`.

  The machine an operation that maps or releases pages finds may be any; only the areas are
  carried from one operation to the next.

  Proved: the areas are stored under their starts, are not empty and do not meet, although
  each operation looks at one neighbour only; so `vma_find` finds the area around an address,
  and `copy_from` copies.
-/

import Myos.Lib.Runs
import Myos.Mm.Vma

namespace Myos.Mm

open Lib (SortedMap Reach)

variable {mm mm' : MmStruct} {vmas : SortedMap Nat VmaArea} {lo hi flags : Nat}

/-- `copy_from`. -/
def MmStruct.copyFrom (src : MmStruct) : MmStruct :=
  { vmas := src.vmas.entries.foldl (fun dst e => dst.insert e.1 e.2) MmStruct.new.vmas
    startBrk := src.startBrk
    brk := src.brk
    startStack := src.startStack }

structure AreasOk (vmas : SortedMap Nat VmaArea) : Prop where
  keyed : ∀ e ∈ vmas.entries, e.1 = e.2.vmStart
  nonempty : ∀ e ∈ vmas.entries, e.2.vmStart < e.2.vmEnd
  disjoint : ∀ e ∈ vmas.entries, ∀ f ∈ vmas.entries, e ≠ f → e.2.vmEnd ≤ f.2.vmStart ∨ f.2.vmEnd ≤ e.2.vmStart

namespace AreasOk

theorem empty : AreasOk SortedMap.empty := by
  constructor <;> simp [SortedMap.empty]

theorem remove (h : AreasOk vmas) (k : Nat) : AreasOk (vmas.remove k) :=
  ⟨fun e he => h.keyed e (SortedMap.mem_remove.mp he).1, fun e he => h.nonempty e (SortedMap.mem_remove.mp he).1,
    fun e he f hf => h.disjoint e (SortedMap.mem_remove.mp he).1 f (SortedMap.mem_remove.mp hf).1⟩

theorem insert (h : AreasOk vmas) (hlt : lo < hi) (ho : ∀ e ∈ vmas.entries, e.2.vmEnd ≤ lo ∨ hi ≤ e.2.vmStart) :
    AreasOk (vmas.insert lo ⟨lo, hi, flags⟩) := by
  refine ⟨fun e he => ?_, fun e he => ?_, fun e he f hf hne => ?_⟩
  · rcases SortedMap.mem_insert.mp he with rfl | ⟨he, -⟩
    · rfl
    · exact h.keyed e he
  · rcases SortedMap.mem_insert.mp he with rfl | ⟨he, -⟩
    · exact hlt
    · exact h.nonempty e he
  · rcases SortedMap.mem_insert.mp he with rfl | ⟨he, -⟩
    · rcases SortedMap.mem_insert.mp hf with rfl | ⟨hf, -⟩
      · exact absurd rfl hne
      · exact (ho f hf).symm
    · rcases SortedMap.mem_insert.mp hf with rfl | ⟨hf, -⟩
      · exact ho e he
      · exact h.disjoint e he f hf hne

/-- The last area that starts below `hi` answers for all. -/
theorem apart (h : AreasOk mm.vmas) (ho : mm.overlaps lo hi = false) : ∀ e ∈ mm.vmas.entries, e.2.vmEnd ≤ lo ∨ hi ≤ e.2.vmStart := by
  intro e he
  rw [← h.keyed e he]
  rcases Nat.lt_or_ge e.1 hi with hlt | hge
  · left
    unfold MmStruct.overlaps at ho
    cases hl : mm.vmas.last fun k => decide (k < hi) with
    | none =>
      have := SortedMap.last_none hl he
      exact absurd hlt (of_decide_eq_false this)
    | some vma =>
      rw [hl] at ho
      have hend : vma.vmEnd ≤ lo := Nat.not_lt.mp (of_decide_eq_false ho)
      obtain ⟨k, hk, -, hmax⟩ := SortedMap.last_max hl
      have hle := hmax e he (decide_eq_true hlt)
      by_cases hek : e = (k, vma)
      · rw [hek]
        exact hend
      · -- an area further down ends before the last one starts
        have hkey := h.keyed _ hk
        have hne := h.nonempty _ hk
        have hkey' := h.keyed e he
        rcases h.disjoint e he _ hk hek with h1 | h1
        · dsimp only at h1 hne hkey
          omega
        · dsimp only at h1 hne hkey
          omega
  · exact Or.inr hge

/-- `vma_find` finds the area around an address. -/
theorem vmaFind_iff (h : AreasOk mm.vmas) (a : Nat) (vma : VmaArea) :
    mm.vmaFind a = some vma ↔ (vma.vmStart, vma) ∈ mm.vmas.entries ∧ vma.vmStart ≤ a ∧ a < vma.vmEnd := by
  unfold MmStruct.vmaFind
  rw [Option.filter_eq_some_iff, decide_eq_true_eq]
  constructor
  · intro ⟨hl, ha⟩
    obtain ⟨k, hk, hp, -⟩ := SortedMap.last_max hl
    obtain rfl : k = vma.vmStart := h.keyed _ hk
    exact ⟨hk, of_decide_eq_true hp, ha⟩
  · intro ⟨hm, hs, ha⟩
    refine ⟨?_, ha⟩
    cases hl : mm.vmas.last fun k => decide (k ≤ a) with
    | none => exact absurd hs (of_decide_eq_false (SortedMap.last_none hl hm))
    | some w =>
      obtain ⟨k, hk, hp, hmax⟩ := SortedMap.last_max hl
      have hle := hmax _ hm (decide_eq_true hs)
      have hkey := h.keyed _ hk
      by_cases he : (k, w) = (vma.vmStart, vma)
      · rw [(Prod.mk.inj he).2]
      · -- a later start at most `a` would lie in the area
        have hka := of_decide_eq_true hp
        have hn := h.nonempty _ hk
        rcases h.disjoint _ hk _ hm he with h1 | h1
        · dsimp only at h1 hn hkey hle hka
          omega
        · dsimp only at h1 hn hkey hle hka
          omega

end AreasOk

theorem MmStruct.copyFrom_eq (mm : MmStruct) : mm.copyFrom = mm := by
  unfold MmStruct.copyFrom
  rw [show MmStruct.new.vmas = SortedMap.empty from rfl, SortedMap.foldl_insert]

/-! ## The search for a free area -/

theorem alignUp_eq {x y : Nat} (h : alignUp x = some y) : x ≤ y ∧ 4096 ∣ y := by
  rw [alignUp_pageUp h]
  exact ⟨(pageUp_spec x).1, (pageUp_spec x).2.2⟩

theorem firstConflict_none {addr len : Nat} {l : List (Nat × VmaArea)} (h : firstConflict addr len l = none) : 2 ^ 64 ≤ addr + len := by
  induction l with
  | nil => cases h
  | cons e l ih =>
    obtain ⟨k, vma⟩ := e
    rw [firstConflict] at h
    split at h
    · unfold checkedAdd at h
      split at h
      · rw [Option.bind_some] at h
        split at h
        · cases h
        · exact ih h
      · omega
    · exact ih h

theorem firstConflict_some {addr len : Nat} {vma : VmaArea} {l : List (Nat × VmaArea)} (h : firstConflict addr len l = some (some vma)) :
    addr < vma.vmEnd ∧ vma.vmStart < addr + len ∧ ∃ k, (k, vma) ∈ l := by
  induction l with
  | nil => cases h
  | cons e l ih =>
    obtain ⟨k, w⟩ := e
    have hrec : firstConflict addr len l = some (some vma) →
        addr < vma.vmEnd ∧ vma.vmStart < addr + len ∧ ∃ k', (k', vma) ∈ (k, w) :: l := fun h => by
      obtain ⟨hlt, hs, k', hk⟩ := ih h
      exact ⟨hlt, hs, k', List.mem_cons_of_mem _ hk⟩
    rw [firstConflict] at h
    split at h
    · next hlt =>
      obtain ⟨stop, hstop, h⟩ := Option.bind_eq_some_iff.mp h
      obtain ⟨-, rfl⟩ := checkedAdd_eq.1 hstop
      split at h
      · next hs =>
        cases h
        exact ⟨hlt, hs, k, List.mem_cons_self ..⟩
      · exact hrec h
    · exact hrec h

/-- Past an area fewer areas are ahead. -/
theorem ahead_lt {a b k : Nat} {vma : VmaArea} {l : List (Nat × VmaArea)} (hm : (k, vma) ∈ l) (ha : a < vma.vmEnd) (hb : vma.vmEnd ≤ b) :
    l.countP (fun e => decide (b < e.2.vmEnd)) < l.countP fun e => decide (a < e.2.vmEnd) := by
  induction l with
  | nil => cases hm
  | cons e l ih =>
    rw [List.countP_cons, List.countP_cons]
    rcases List.mem_cons.mp hm with rfl | hm
    · have hle : l.countP (fun e => decide (b < e.2.vmEnd)) ≤ l.countP fun e => decide (a < e.2.vmEnd) :=
        List.countP_mono_left fun e _ h => decide_eq_true (lt_of_le_of_lt (ha.le.trans hb) (of_decide_eq_true h))
      rw [if_neg (by simpa using hb), if_pos (by simpa using ha)]
      omega
    · have := ih hm
      have hstep : (if decide (b < e.2.vmEnd) = true then 1 else 0) ≤ if decide (a < e.2.vmEnd) = true then 1 else 0 := by
        split
        · next h => rw [if_pos (decide_eq_true (lt_of_le_of_lt (ha.le.trans hb) (of_decide_eq_true h)))]
        · exact Nat.zero_le _
      omega

/-- The turns suffice: the search fails by an overflow only. -/
theorem findFreeFrom_none {entries : List (Nat × VmaArea)} {len fuel addr : Nat}
    (hf : (entries.countP fun e => decide (addr < e.2.vmEnd)) < fuel) (h : findFreeFrom entries len fuel addr = none) :
    (∃ e ∈ entries, alignUp e.2.vmEnd = none) ∨ ∃ a, 2 ^ 64 ≤ a + len ∧ (a = addr ∨ ∃ e ∈ entries, alignUp e.2.vmEnd = some a) := by
  induction fuel generalizing addr with
  | zero => exact absurd hf (Nat.not_lt_zero _)
  | succ fuel ih =>
    rw [findFreeFrom] at h
    cases hc : firstConflict addr len entries with
    | none => exact Or.inr ⟨addr, firstConflict_none hc, Or.inl rfl⟩
    | some o =>
      rw [hc, Option.bind_some] at h
      cases o with
      | none => cases h
      | some vma =>
        obtain ⟨hlt, -, k, hk⟩ := firstConflict_some hc
        cases ha : alignUp vma.vmEnd with
        | none => exact Or.inl ⟨_, hk, ha⟩
        | some a =>
          dsimp only at h
          rw [ha, Option.bind_some] at h
          have hcount := ahead_lt hk hlt (alignUp_eq ha).1
          rcases ih (by omega) h with h | ⟨b, hb, rfl | h⟩
          · exact Or.inl h
          · exact Or.inr ⟨b, hb, Or.inr ⟨_, hk, ha⟩⟩
          · exact Or.inr ⟨b, hb, Or.inr h⟩

theorem findFreeArea_none {len : Nat} (h : mm.findFreeArea len = none) :
    (∃ e ∈ mm.vmas.entries, alignUp e.2.vmEnd = none) ∨
      ∃ a, 2 ^ 64 ≤ a + len ∧ (a = mmapBase ∨ ∃ e ∈ mm.vmas.entries, alignUp e.2.vmEnd = some a) :=
  findFreeFrom_none (Nat.lt_succ_of_le List.countP_le_length) h

/-! ## Runs -/

/-- `setBrk`: a new image sets its break, `load_elf` having been given a new address space. -/
inductive AreaOp where
  | vmaCreate (vmStart vmEnd vmFlags : Nat)
  | vmaRemove (vmStart : Nat)
  | doMmap (m : Machine) (addr len flags : Nat)
  | doMunmap (m : Machine) (addr len : Nat)
  | doBrk (m : Machine) (newBrk : Nat)
  | copyFrom
  | setBrk (startBrk brk startStack : Nat)

/-- `none`: an address overflows. -/
def AreaOp.step (mm : MmStruct) : AreaOp → Option MmStruct
  | .vmaCreate vmStart vmEnd vmFlags =>
    match mm.vmaCreate vmStart vmEnd vmFlags with
    | .ok mm => some mm
    | .error _ => some mm
  | .vmaRemove vmStart => some (mm.vmaRemove vmStart)
  | .doMmap m addr len flags => (Mm.doMmap m mm addr len flags).map fun r => r.2.1
  | .doMunmap m addr len => (Mm.doMunmap m mm addr len).map fun r => r.2.1
  | .doBrk m newBrk => (Mm.doBrk m mm newBrk).map fun r => r.2.1
  | .copyFrom => some mm.copyFrom
  | .setBrk startBrk brk startStack => some { mm with startBrk := startBrk, brk := brk, startStack := startStack }

theorem AreasOk.vmaCreate (h : AreasOk mm.vmas) (hc : mm.vmaCreate lo hi flags = .ok mm') : AreasOk mm'.vmas := by
  unfold MmStruct.vmaCreate at hc
  split at hc
  · cases hc
  · next hlt =>
    split at hc
    · cases hc
    · next ho =>
      cases hc
      exact h.insert (Nat.not_le.mp hlt) (h.apart (Bool.eq_false_iff.mpr ho))

theorem AreasOk.doMmap (h : AreasOk mm.vmas) {m m' : Machine} {addr len r : Nat} (hc : Mm.doMmap m mm addr len flags = some (m', mm', r)) :
    AreasOk mm'.vmas := by
  unfold Mm.doMmap at hc
  split at hc
  · cases hc
    exact h
  · next hlen =>
    obtain ⟨len', hal, hc⟩ := Option.bind_eq_some_iff.mp hc
    obtain ⟨a, -, hc⟩ := Option.bind_eq_some_iff.mp hc
    obtain ⟨stop, hs, hc⟩ := Option.map_eq_some_iff.mp hc
    have hle := (alignUp_eq hal).1
    unfold checkedAdd at hs
    split at hs
    · cases hs
      split at hc
      · cases hc
        exact h
      · next ho =>
        have hi := @AreasOk.insert mm.vmas a (a + len') (flags ||| vmAnonymous) h (by omega) (h.apart (Bool.eq_false_iff.mpr ho))
        dsimp only at hc
        split at hc
        · cases hc
          exact hi
        · cases hc
          exact hi.remove a
    · cases hs

theorem AreasOk.doMunmap (h : AreasOk mm.vmas) {m m' : Machine} {addr len : Nat} {r : Int} (hc : Mm.doMunmap m mm addr len = some (m', mm', r)) :
    AreasOk mm'.vmas := by
  unfold Mm.doMunmap at hc
  split at hc
  · cases hc
    exact h
  · obtain ⟨len', -, hc⟩ := Option.bind_eq_some_iff.mp hc
    split at hc
    · cases hc
      exact h
    · next vma _ =>
      obtain ⟨stop, -, hc⟩ := Option.map_eq_some_iff.mp hc
      cases hc
      exact h.remove vma.vmStart

theorem AreasOk.doBrk (h : AreasOk mm.vmas) {m m' : Machine} {newBrk r : Nat} (hc : Mm.doBrk m mm newBrk = some (m', mm', r)) :
    AreasOk mm'.vmas := by
  unfold Mm.doBrk at hc
  obtain ⟨nb, -, hc⟩ := Option.bind_eq_some_iff.mp hc
  split at hc
  · cases hc
    exact h
  · split at hc
    · next hlt =>
      split at hc
      · cases hc
        exact h
      · next ho =>
        cases hc
        exact h.insert hlt (h.apart (Bool.eq_false_iff.mpr ho))
    · obtain ⟨-, -, hc⟩ := Option.map_eq_some_iff.mp hc
      cases hc
      exact h.remove mm.brk

theorem AreasOk.step {op : AreaOp} (h : AreasOk mm.vmas) (hs : op.step mm = some mm') : AreasOk mm'.vmas := by
  cases op with
  | vmaCreate vmStart vmEnd vmFlags =>
    unfold AreaOp.step at hs
    dsimp only at hs
    split at hs
    · next hc =>
      cases hs
      exact h.vmaCreate hc
    · cases hs
      exact h
  | vmaRemove vmStart =>
    cases hs
    exact h.remove vmStart
  | doMmap m addr len flags =>
    unfold AreaOp.step at hs
    obtain ⟨⟨m', mm1, r⟩, hc, rfl⟩ := Option.map_eq_some_iff.mp hs
    exact h.doMmap hc
  | doMunmap m addr len =>
    unfold AreaOp.step at hs
    obtain ⟨⟨m', mm1, r⟩, hc, rfl⟩ := Option.map_eq_some_iff.mp hs
    exact h.doMunmap hc
  | doBrk m newBrk =>
    unfold AreaOp.step at hs
    obtain ⟨⟨m', mm1, r⟩, hc, rfl⟩ := Option.map_eq_some_iff.mp hs
    exact h.doBrk hc
  | copyFrom =>
    cases hs
    rw [mm.copyFrom_eq]
    exact h
  | setBrk startBrk brk startStack =>
    cases hs
    exact h

/-- Over every run from an address space without areas: the areas are in order, `vma_find` finds
    the one area around an address if there is one, and `copy_from` copies. -/
theorem areas_reach (hr : Reach AreaOp.step (fun _ _ => True) (fun mm => mm.vmas = SortedMap.empty) mm) :
    AreasOk mm.vmas ∧ (∀ a vma, mm.vmaFind a = some vma ↔
      (vma.vmStart, vma) ∈ mm.vmas.entries ∧ vma.vmStart ≤ a ∧ a < vma.vmEnd) ∧
      (∀ a, mm.vmaFind a = none ↔ ∀ e ∈ mm.vmas.entries, ¬ (e.2.vmStart ≤ a ∧ a < e.2.vmEnd)) ∧ mm.copyFrom = mm := by
  have h : AreasOk mm.vmas := hr.rule (fun s hs => hs ▸ AreasOk.empty) fun s op s' h _ hs => h.step hs
  refine ⟨h, h.vmaFind_iff, fun a => ?_, mm.copyFrom_eq⟩
  rw [Option.eq_none_iff_forall_ne_some]
  constructor
  · intro hno e he hin
    have hk := h.keyed e he
    exact hno e.2 ((h.vmaFind_iff a e.2).mpr ⟨by rw [← hk]; exact he, hin⟩)
  · intro hno vma hf
    obtain ⟨hm, hin⟩ := (h.vmaFind_iff a vma).mp hf
    exact hno _ hm hin

/-- One area, just created. -/
def oneArea : MmStruct := ⟨SortedMap.empty.insert 4096 ⟨4096, 8192, vmRead⟩, 0, 0, 0⟩

theorem areas_reach_oneArea : AreasOk oneArea.vmas ∧ oneArea.vmaFind 5000 = some ⟨4096, 8192, vmRead⟩ := by
  have h0 : Reach AreaOp.step (fun _ _ => True) (fun mm => mm.vmas = SortedMap.empty) MmStruct.new := .init rfl
  have he : (AreaOp.vmaCreate 4096 8192 vmRead).step MmStruct.new = some oneArea := rfl
  have hr := h0.step trivial he
  have h := areas_reach hr
  exact ⟨h.1, (h.2.1 5000 _).mpr ⟨List.mem_singleton_self _, by decide, by decide⟩⟩

end Myos.Mm
