/-
  Myos.Boot.Tables — the page tables built before the MMU is on
  (`arch/arm64/boot/bootc.c`, `arch/arm64/include/bootc.h`).

  `PHYS_BASE` and `TOTAL_MEM_SIZE` are parameters, and so are the addresses the linker
  gives the arrays. A store outside of its array has no result. The registers
  (`get_tcr_el1` and the others) are left out.

  Proved: every store is inside its array, and the words of every table in the end
  (`initPageTables_spec`).
-/

import Myos.Mm.Memory

namespace Myos.Boot

open Mm (Mem read64 write64)

/-! ## The header -/

def tableSize : Nat := 512
def l3TableMapSize : Nat := tableSize * 4096
def kernelVirtBase : Nat := 0xFFFF800000000000
def uartPageNeeded : Nat := 1
def l0TablesNeeded : Nat := 1

def divRoundUp (n d : Nat) : Nat := (n + d - 1) / d

/-- The constants of the build, and where the linker puts the arrays. -/
structure Config where
  physBase : Nat
  totalMemSize : Nat
  ttbr0Addr : Nat
  ttbr1Addr : Nat
  l1Addr : Nat
  l2Addr : Nat
  l3Addr : Nat

/-- `uint64_t t[count][TABLE_SIZE]` at an address. -/
structure TableArray where
  base : Nat
  count : Nat

namespace TableArray

/-- `&t[i]`. -/
def addr (t : TableArray) (i : Nat) : Nat := t.base + i * 4096

/-- Where the array ends. -/
def stop (t : TableArray) : Nat := t.base + t.count * 4096

/-- `t[i][e] = v`. -/
def store (t : TableArray) (m : Mem) (i e v : Nat) : Option Mem :=
  if i < t.count ∧ e < tableSize then some (write64 m (t.base + (i * 512 + e) * 8) v) else none

end TableArray

namespace Config

variable (b : Config)

def virtBase : Nat := kernelVirtBase + b.physBase

def l0IndexBase : Nat := (b.virtBase >>> 39) &&& 0x1FF
def l1IndexBase : Nat := (b.virtBase >>> 30) &&& 0x1FF
def l2IndexBase : Nat := (b.virtBase >>> 21) &&& 0x1FF
def l3IndexBase : Nat := (b.virtBase >>> 12) &&& 0x1FF

def l3TablesNeeded : Nat := divRoundUp (b.totalMemSize + b.l3IndexBase * 4096 + uartPageNeeded * 4096) l3TableMapSize
def l2TablesNeeded : Nat := divRoundUp (b.l3TablesNeeded + b.l2IndexBase) tableSize
def l1TablesNeeded : Nat := divRoundUp (b.l2TablesNeeded + b.l1IndexBase) tableSize

def ttbr0L0 : TableArray := ⟨b.ttbr0Addr, l0TablesNeeded⟩
def ttbr1L0 : TableArray := ⟨b.ttbr1Addr, l0TablesNeeded⟩
def l1Table : TableArray := ⟨b.l1Addr, b.l1TablesNeeded⟩
def l2Table : TableArray := ⟨b.l2Addr, b.l2TablesNeeded⟩
def l3Tables : TableArray := ⟨b.l3Addr, b.l3TablesNeeded⟩

end Config

/-! ## The code -/

/-- `for (i = 0; i < n; i++)`. -/
def forLoop {S : Type} (n : Nat) (body : S → Nat → Option S) (s : S) : Option S := (List.range n).foldlM body s

/-- The two loops that clear `n` tables of each array. -/
def clearTables (ts : List TableArray) (n : Nat) (m : Mem) : Option Mem :=
  forLoop n (fun m i => forLoop tableSize (fun m j => ts.foldlM (fun m t => t.store m i j 0) m) m) m

/-- A table descriptor: `Valid | Table | (addr & ~0xFFF)`. -/
def tableEntry (addr : Nat) : Nat := 1 <<< 0 ||| 1 <<< 1 ||| (addr - addr % 4096)

def memAttr : Nat :=
  1 <<< 0 ||| 1 <<< 1 ||| 1 <<< 11 ||| 1 <<< 10 ||| 2 <<< 8 ||| 0 <<< 6 ||| 0 <<< 5 ||| 0 <<< 2

namespace Config

variable (b : Config)

def clearPageTables (m : Mem) : Option Mem := do
  let m ← clearTables [b.ttbr0L0, b.ttbr1L0] l0TablesNeeded m
  let m ← clearTables [b.l1Table] b.l1TablesNeeded m
  let m ← clearTables [b.l2Table] b.l2TablesNeeded m
  clearTables [b.l3Tables] b.l3TablesNeeded m

/-- Hangs the tables `c` under the tables `t`, the first one at entry `base`. -/
def link (t c : TableArray) (base n : Nat) (m : Mem) : Option Mem :=
  forLoop n (fun m i => t.store m (i / tableSize) ((base + i) % tableSize) (tableEntry (c.addr i))) m

def initL0Tables (m : Mem) : Option Mem := do
  let m ← link b.ttbr1L0 b.l1Table b.l0IndexBase b.l1TablesNeeded m
  b.ttbr0L0.store m 0 0 (tableEntry (b.l1Table.addr 0))

def initL1Table (m : Mem) : Option Mem := link b.l1Table b.l2Table b.l1IndexBase b.l2TablesNeeded m

def initL2Table (m : Mem) : Option Mem := link b.l2Table b.l3Tables b.l2IndexBase b.l3TablesNeeded m

/-- One turn of the inner loop: the memory and `mapped_bytes`. -/
def mapEntry (tableIdx : Nat) (s : Mem × Nat) (pageIdx : Nat) : Option (Mem × Nat) :=
  if s.2 < b.totalMemSize then
    let pa := b.physBase + s.2
    (b.l3Tables.store s.1 tableIdx pageIdx (memAttr ||| (pa - pa % 4096))).map fun m => (m, s.2 + 4096)
  else some s

def initL3Table (m : Mem) : Option Mem :=
  (forLoop b.l3TablesNeeded (fun s tableIdx => forLoop tableSize (b.mapEntry tableIdx) s) (m, 0)).map Prod.fst

def initPageTables (m : Mem) : Option Mem := do
  let m ← b.clearPageTables m
  let m ← b.initL0Tables m
  let m ← b.initL1Table m
  let m ← b.initL2Table m
  b.initL3Table m

/-! ## What the build has to see to -/

/-- The arrays are page-aligned, apart from each other, and in the physical address space. -/
structure Placed : Prop where
  aligned : ∀ t ∈ [b.ttbr0L0, b.ttbr1L0, b.l1Table, b.l2Table, b.l3Tables], 4096 ∣ t.base
  apart : [b.ttbr0L0, b.ttbr1L0, b.l1Table, b.l2Table, b.l3Tables].Pairwise fun t t' => t.stop ≤ t'.base ∨ t'.stop ≤ t.base
  below : ∀ t ∈ [b.ttbr0L0, b.ttbr1L0, b.l1Table, b.l2Table, b.l3Tables], t.stop ≤ 2 ^ 48

/-- Base and size are whole pages, and the range ends inside what the level-0 table reaches. -/
structure Layout : Prop where
  physBase : 4096 ∣ b.physBase
  totalMemSize : 4096 ∣ b.totalMemSize
  reach : b.virtBase + b.totalMemSize ≤ 2 ^ 64

end Config

/-! ## Loops and stores -/

/-- What every turn keeps holds at the end, and no turn fails. -/
theorem forLoop_rule {S : Type} {f : S → Nat → Option S} (P : Nat → S → Prop) {n : Nat}
    (h : ∀ i < n, ∀ s, P i s → ∃ s', f s i = some s' ∧ P (i + 1) s') {s : S} (h0 : P 0 s) :
    ∃ s', forLoop n f s = some s' ∧ P n s' := by
  unfold forLoop
  induction n with
  | zero => exact ⟨s, rfl, h0⟩
  | succ n ih =>
    obtain ⟨s1, h1, hP⟩ := ih fun i hi => h i (by omega)
    obtain ⟨s2, h2, hP2⟩ := h n (by omega) s1 hP
    refine ⟨s2, ?_, hP2⟩
    rw [List.range_succ, List.foldlM_append, h1]
    exact (Option.bind_some _ _).trans (by rw [List.foldlM_cons, h2]; rfl)

attribute [irreducible] forLoop

namespace TableArray

variable (t : TableArray)

/-- The `k`-th word of the array. -/
def word (m : Mem) (k : Nat) : Nat := read64 m (t.base + k * 8)

theorem store_eq {m : Mem} {i e v : Nat} (hi : i < t.count) (he : e < 512) :
    t.store m i e v = some (write64 m (t.base + (i * 512 + e) * 8) v) := if_pos ⟨hi, he⟩

theorem word_write (m : Mem) {k v : Nat} (hv : v < 2 ^ 64) (k' : Nat) :
    t.word (write64 m (t.base + k * 8) v) k' = if k' = k then v else t.word m k' := by
  unfold word
  split
  · rename_i h
    rw [h, Mm.read64_write64 _ hv]
  · rw [Mm.read64_write64_other _ (by omega)]

theorem word_congr {m m' : Mem} (h : ∀ x, t.base ≤ x → x < t.stop → m' x = m x) {k : Nat} (hk : k < t.count * 512) :
    t.word m' k = t.word m k := by
  unfold stop at h
  exact Mm.read64_congr fun x h1 h2 => h x (by omega) (by omega)

/-- Nothing outside of the array has changed. -/
def Frame (m m' : Mem) : Prop := ∀ x, x < t.base ∨ t.stop ≤ x → m' x = m x

theorem Frame.write {m m' : Mem} (h : t.Frame m m') {k : Nat} (hk : k < t.count * 512) (v : Nat) :
    t.Frame m (write64 m' (t.base + k * 8) v) := by
  intro x hx
  rw [Mm.write64_other (by unfold stop at hx; omega)]
  exact h x hx

variable {t} in
theorem Frame.word {m m' : Mem} (h : t.Frame m m') {t' : TableArray} (hd : t.stop ≤ t'.base ∨ t'.stop ≤ t.base) {k : Nat}
    (hk : k < t'.count * 512) : t'.word m' k = t'.word m k :=
  t'.word_congr (fun x h1 h2 => h x (by omega)) hk

end TableArray

/-! ## Clearing -/

theorem write64_zero (m : Mem) (a x : Nat) : write64 m a 0 x = if a ≤ x ∧ x < a + 8 then 0 else m x := by
  unfold write64
  rw [Nat.zero_div]
  rfl

/-- The store of zeros in the arrays of a list. -/
theorem storeZeros (ts : List TableArray) {i j : Nat} (hi : ∀ t ∈ ts, i < t.count) (hj : j < 512) (m : Mem) :
    ∃ m', ts.foldlM (fun m t => t.store m i j 0) m = some m' ∧
      (∀ t ∈ ts, ∀ x, t.base + (i * 512 + j) * 8 ≤ x → x < t.base + (i * 512 + j) * 8 + 8 → m' x = 0) ∧
      ∀ x, m x = 0 → m' x = 0 := by
  induction ts generalizing m with
  | nil => exact ⟨m, rfl, by simp, fun _ h => h⟩
  | cons t ts ih =>
    have hst := t.store_eq (m := m) (v := 0) (hi t List.mem_cons_self) hj
    obtain ⟨m', he, hz, hk⟩ := ih (fun t' ht' => hi t' (List.mem_cons_of_mem _ ht'))
      (write64 m (t.base + (i * 512 + j) * 8) 0)
    refine ⟨m', ?_, fun t' ht' x h1 h2 => ?_, fun x h0 => hk x ?_⟩
    · rw [List.foldlM_cons, hst]
      exact he
    · rcases List.mem_cons.mp ht' with rfl | ht'
      · exact hk x (by rw [write64_zero, if_pos ⟨h1, h2⟩])
      · exact hz t' ht' x h1 h2
    · rw [write64_zero, h0]
      exact ite_self 0

theorem clearTables_spec (ts : List TableArray) (n : Nat) (h : ∀ t ∈ ts, t.count = n) (m : Mem) :
    ∃ m', clearTables ts n m = some m' ∧ (∀ t ∈ ts, ∀ x, t.base ≤ x → x < t.stop → m' x = 0) ∧ ∀ x, m x = 0 → m' x = 0 := by
  have inner : ∀ i < n, ∀ m0 : Mem, (∀ t ∈ ts, ∀ x, t.base ≤ x → x < t.base + i * 4096 → m0 x = 0) ∧ (∀ x, m x = 0 → m0 x = 0) →
      ∃ m', forLoop tableSize (fun m j => ts.foldlM (fun m t => t.store m i j 0) m) m0 = some m' ∧
        (∀ t ∈ ts, ∀ x, t.base ≤ x → x < t.base + (i + 1) * 4096 → m' x = 0) ∧ ∀ x, m x = 0 → m' x = 0 := by
    intro i hi m0 h0
    obtain ⟨m', he, hz, hk⟩ := forLoop_rule (f := fun m j => ts.foldlM (fun m t => t.store m i j 0) m) (n := tableSize)
      (P := fun j m' => (∀ t ∈ ts, ∀ x, t.base ≤ x → x < t.base + (i * 512 + j) * 8 → m' x = 0) ∧ ∀ x, m x = 0 → m' x = 0)
      (fun j hj m1 h1 => by
        obtain ⟨m2, he, hz, hk⟩ := storeZeros ts (fun t ht => by rw [h t ht]; exact hi) hj m1
        refine ⟨m2, he, fun t ht x hx1 hx2 => ?_, fun x hx => hk x (h1.2 x hx)⟩
        by_cases hlt : x < t.base + (i * 512 + j) * 8
        · exact hk x (h1.1 t ht x hx1 hlt)
        · exact hz t ht x (by omega) (by omega))
      (s := m0) ⟨fun t ht x hx1 hx2 => h0.1 t ht x hx1 (by omega), h0.2⟩
    exact ⟨m', he, fun t ht x hx1 hx2 => hz t ht x hx1 (by unfold tableSize; omega), hk⟩
  obtain ⟨m', he, hz, hk⟩ := forLoop_rule (n := n)
    (P := fun i m' => (∀ t ∈ ts, ∀ x, t.base ≤ x → x < t.base + i * 4096 → m' x = 0) ∧ ∀ x, m x = 0 → m' x = 0) inner (s := m)
    ⟨fun t _ x hx1 hx2 => by omega, fun _ hx => hx⟩
  exact ⟨m', he, fun t ht x hx1 hx2 => hz t ht x hx1 (by unfold TableArray.stop at hx2; rwa [h t ht] at hx2), hk⟩

/-! ## Linking -/

/-- The table that entry `e` of the `a`-th table leads to. -/
def back (base a e : Nat) : Nat := a * 512 + (e + 512 - base) % 512

theorem tableEntry_lt {a : Nat} (h : a < 2 ^ 48) : tableEntry a < 2 ^ 64 :=
  Nat.or_lt_two_pow (by decide) (by omega)

theorem link_spec (t c : TableArray) {base n : Nat} (hb : base < 512) (hn : n ≤ t.count * 512) (hc : n ≤ c.count)
    (hlt : c.stop ≤ 2 ^ 48) (m : Mem) :
    ∃ m', Config.link t c base n m = some m' ∧ t.Frame m m' ∧
      ∀ a e, e < 512 → t.word m' (a * 512 + e) =
        if back base a e < n then tableEntry (c.addr (back base a e)) else t.word m (a * 512 + e) := by
  refine forLoop_rule (P := fun i m' => t.Frame m m' ∧ ∀ a e, e < 512 → t.word m' (a * 512 + e) =
    if back base a e < i then tableEntry (c.addr (back base a e)) else t.word m (a * 512 + e)) (fun i hi m1 h1 => ?_)
    ⟨fun _ _ => rfl, fun a e _ => by rw [if_neg (Nat.not_lt_zero _)]⟩
  have hslot : i / tableSize < t.count ∧ (base + i) % tableSize < 512 := by
    unfold tableSize
    omega
  refine ⟨_, t.store_eq hslot.1 hslot.2, TableArray.Frame.write t h1.1 (by omega) _, fun a e he => ?_⟩
  have hv : tableEntry (c.addr i) < 2 ^ 64 := tableEntry_lt (by
    unfold TableArray.stop at hlt
    unfold TableArray.addr
    omega)
  rw [TableArray.word_write t m1 hv]
  by_cases hi' : back base a e = i
  · rw [if_pos (by unfold back at hi'; unfold tableSize; omega), hi', if_pos (by omega)]
  · rw [if_neg (by unfold back at hi'; unfold tableSize; omega), h1.2 a e he]
    exact if_congr (by omega) rfl rfl

/-! ## The whole initialisation -/

namespace Config

variable {b : Config}

theorem memAttr_lt : memAttr < 2 ^ 12 := by decide

/-- The page descriptor of the `k`-th page. -/
def pageEntry (b : Config) (k : Nat) : Nat := memAttr ||| (b.physBase + k * 4096 - (b.physBase + k * 4096) % 4096)

theorem pageEntry_lt {k : Nat} (h : b.physBase + k * 4096 < 2 ^ 48) : pageEntry b k < 2 ^ 64 :=
  Nat.or_lt_two_pow (memAttr_lt.trans (by decide)) (by omega)

theorem Layout.bound (h : b.Layout) : b.physBase + b.totalMemSize ≤ 2 ^ 47 := by
  have := h.reach
  unfold virtBase kernelVirtBase at this
  omega

theorem indexBases_lt (b : Config) : b.l0IndexBase < 512 ∧ b.l1IndexBase < 512 ∧ b.l2IndexBase < 512 ∧ b.l3IndexBase < 512 := by
  have h : ∀ x, x &&& 0x1FF < 512 := fun x => Nat.lt_of_le_of_lt Nat.and_le_right (by decide)
  exact ⟨h _, h _, h _, h _⟩

/-- No level has more entries to fill than its arrays have. -/
theorem Layout.counts (h : b.Layout) : b.l1TablesNeeded ≤ 512 ∧ b.l2TablesNeeded ≤ b.l1TablesNeeded * 512 ∧
    b.l3TablesNeeded ≤ b.l2TablesNeeded * 512 ∧ b.totalMemSize ≤ b.l3TablesNeeded * 512 * 4096 := by
  have hM := h.bound
  have hb := indexBases_lt b
  unfold l1TablesNeeded l2TablesNeeded l3TablesNeeded divRoundUp uartPageNeeded l3TableMapSize tableSize
  omega

theorem mapEntry_spec (h : b.Layout) {i j : Nat} (hi : i < b.l3TablesNeeded) (hj : j < 512) {s : Mem × Nat}
    (hs : s.2 = min b.totalMemSize ((i * 512 + j) * 4096)) :
    ∃ s', b.mapEntry i s j = some s' ∧ s'.2 = min b.totalMemSize ((i * 512 + (j + 1)) * 4096) ∧
      (∀ m, b.l3Tables.Frame m s.1 → b.l3Tables.Frame m s'.1) ∧
      ∀ k, b.l3Tables.word s'.1 k = if k = i * 512 + j ∧ k * 4096 < b.totalMemSize then pageEntry b k else b.l3Tables.word s.1 k := by
  have hM := h.bound
  have hd := h.totalMemSize
  unfold mapEntry
  by_cases hlt : s.2 < b.totalMemSize
  · have hk : s.2 = (i * 512 + j) * 4096 := by omega
    have hv : pageEntry b (i * 512 + j) < 2 ^ 64 := pageEntry_lt (by omega)
    rw [if_pos hlt]
    dsimp only
    rw [b.l3Tables.store_eq hi hj, hk, Option.map_some]
    refine ⟨_, rfl, ?_, fun m hm => TableArray.Frame.write _ hm (by unfold l3Tables; dsimp only; omega) _, fun k => ?_⟩
    · dsimp only
      omega
    · rw [show memAttr ||| _ = pageEntry b (i * 512 + j) from rfl, TableArray.word_write _ _ hv]
      by_cases he : k = i * 512 + j
      · rw [if_pos he, if_pos ⟨he, by omega⟩, he]
      · rw [if_neg he, if_neg fun e => he e.1]
  · have hge : b.totalMemSize ≤ (i * 512 + j) * 4096 := by
      clear hd hM
      omega
    rw [if_neg hlt]
    refine ⟨s, rfl, ?_, fun _ hm => hm, fun k => ?_⟩
    · rw [hs, min_eq_left hge, min_eq_left (hge.trans (Nat.mul_le_mul_right _ (by omega)))]
    · rw [if_neg fun e => absurd e.2 (by rw [e.1]; exact not_lt.mpr hge)]

/-- After `k` turns: the bytes mapped, and the entries written. -/
def Filling (b : Config) (m : Mem) (k : Nat) (s : Mem × Nat) : Prop :=
  s.2 = min b.totalMemSize (k * 4096) ∧ b.l3Tables.Frame m s.1 ∧
    ∀ k', b.l3Tables.word s.1 k' = if k' < k ∧ k' * 4096 < b.totalMemSize then pageEntry b k' else b.l3Tables.word m k'

theorem Filling.step (h : b.Layout) {m : Mem} {i j : Nat} (hi : i < b.l3TablesNeeded) (hj : j < 512) {s : Mem × Nat}
    (hs : Filling b m (i * 512 + j) s) : ∃ s', b.mapEntry i s j = some s' ∧ Filling b m (i * 512 + (j + 1)) s' := by
  obtain ⟨s', he, h2, hf, hw⟩ := mapEntry_spec h hi hj hs.1
  refine ⟨s', he, h2, hf m hs.2.1, fun k => ?_⟩
  rw [hw, hs.2.2]
  by_cases hk : k = i * 512 + j ∧ k * 4096 < b.totalMemSize
  · rw [if_pos hk, if_pos ⟨by rw [hk.1]; exact Nat.lt_succ_self _, hk.2⟩]
  · rw [if_neg hk]
    generalize b.totalMemSize = M at *
    exact if_congr (by omega) rfl rfl

theorem initL3Table_spec (h : b.Layout) (m : Mem) :
    ∃ m', b.initL3Table m = some m' ∧ b.l3Tables.Frame m m' ∧ ∀ k < b.l3TablesNeeded * 512,
      b.l3Tables.word m' k = if k * 4096 < b.totalMemSize then pageEntry b k else b.l3Tables.word m k := by
  have start : Filling b m (0 * 512) (m, 0) := by
    refine ⟨?_, fun _ _ => rfl, fun k => ?_⟩
    · rw [Nat.zero_mul, Nat.min_zero]
    · rw [if_neg fun e => absurd e.1 (by rw [Nat.zero_mul]; exact Nat.not_lt_zero k)]
  obtain ⟨s, he, h2, hf, hw⟩ := forLoop_rule (P := fun i s => Filling b m (i * 512) s) (n := b.l3TablesNeeded)
    (f := fun s i => forLoop tableSize (b.mapEntry i) s)
    (fun i hi s hs => by
      obtain ⟨s', he, hP⟩ := forLoop_rule (P := fun j s => Filling b m (i * 512 + j) s) (n := tableSize)
        (fun j hj s hs => Filling.step h hi hj hs) (s := s) (by rwa [Nat.add_zero])
      exact ⟨s', he, by rw [Nat.succ_mul]; exact hP⟩)
    (s := (m, 0)) start
  refine ⟨s.1, by rw [initL3Table, he]; rfl, hf, fun k hk => ?_⟩
  rw [hw]
  exact if_congr (and_iff_right hk) rfl rfl

/-- What the tables hold in the end. -/
structure Built (b : Config) (m : Mem) : Prop where
  l0 : ∀ e < 512, b.ttbr1L0.word m e =
    if back b.l0IndexBase 0 e < b.l1TablesNeeded then tableEntry (b.l1Table.addr (back b.l0IndexBase 0 e)) else 0
  l1 : ∀ a < b.l1TablesNeeded, ∀ e < 512, b.l1Table.word m (a * 512 + e) =
    if back b.l1IndexBase a e < b.l2TablesNeeded then tableEntry (b.l2Table.addr (back b.l1IndexBase a e)) else 0
  l2 : ∀ a < b.l2TablesNeeded, ∀ e < 512, b.l2Table.word m (a * 512 + e) =
    if back b.l2IndexBase a e < b.l3TablesNeeded then tableEntry (b.l3Tables.addr (back b.l2IndexBase a e)) else 0
  l3 : ∀ k < b.l3TablesNeeded * 512, b.l3Tables.word m k = if k * 4096 < b.totalMemSize then pageEntry b k else 0

theorem clearPageTables_spec (b : Config) (m : Mem) : ∃ m', b.clearPageTables m = some m' ∧
    ∀ t ∈ [b.ttbr0L0, b.ttbr1L0, b.l1Table, b.l2Table, b.l3Tables], ∀ k < t.count * 512, t.word m' k = 0 := by
  obtain ⟨m1, e1, z1, -⟩ := clearTables_spec [b.ttbr0L0, b.ttbr1L0] l0TablesNeeded (by simp [ttbr0L0, ttbr1L0]) m
  obtain ⟨m2, e2, z2, k2⟩ := clearTables_spec [b.l1Table] b.l1TablesNeeded (by simp [l1Table]) m1
  obtain ⟨m3, e3, z3, k3⟩ := clearTables_spec [b.l2Table] b.l2TablesNeeded (by simp [l2Table]) m2
  obtain ⟨m4, e4, z4, k4⟩ := clearTables_spec [b.l3Tables] b.l3TablesNeeded (by simp [l3Tables]) m3
  refine ⟨m4, ?_, fun t ht k hk => ?_⟩
  · rw [clearPageTables, e1, Option.bind_eq_bind, Option.bind_some, e2, Option.bind_some, e3, Option.bind_some, e4]
  have hz : ∀ x, t.base ≤ x → x < t.stop → m4 x = 0 := by
    intro x h1 h2
    rw [List.mem_cons, List.mem_cons, List.mem_cons, List.mem_cons, List.mem_singleton] at ht
    rcases ht with ht | ht | ht | ht | ht
    · exact k4 x (k3 x (k2 x (z1 t (by simp [ht]) x h1 h2)))
    · exact k4 x (k3 x (k2 x (z1 t (by simp [ht]) x h1 h2)))
    · exact k4 x (k3 x (z2 t (by simp [ht]) x h1 h2))
    · exact k4 x (z3 t (by simp [ht]) x h1 h2)
    · exact z4 t (by simp [ht]) x h1 h2
  have hzero : ∀ a, read64 (fun _ => 0) a = 0 := by simp [read64]
  exact (t.word_congr (m := fun _ => 0) hz hk).trans (hzero _)

/-- The array a store of the initialisation is in does not touch the others. -/
theorem Placed.pairs (h : b.Placed) :
    (b.ttbr0L0.stop ≤ b.ttbr1L0.base ∨ b.ttbr1L0.stop ≤ b.ttbr0L0.base) ∧
    (b.l1Table.stop ≤ b.ttbr1L0.base ∨ b.ttbr1L0.stop ≤ b.l1Table.base) ∧
    (b.l2Table.stop ≤ b.ttbr1L0.base ∨ b.ttbr1L0.stop ≤ b.l2Table.base) ∧
    (b.l3Tables.stop ≤ b.ttbr1L0.base ∨ b.ttbr1L0.stop ≤ b.l3Tables.base) ∧
    (b.l2Table.stop ≤ b.l1Table.base ∨ b.l1Table.stop ≤ b.l2Table.base) ∧
    (b.l3Tables.stop ≤ b.l1Table.base ∨ b.l1Table.stop ≤ b.l3Tables.base) ∧
    (b.l3Tables.stop ≤ b.l2Table.base ∨ b.l2Table.stop ≤ b.l3Tables.base) ∧
    (b.ttbr0L0.stop ≤ b.l1Table.base ∨ b.l1Table.stop ≤ b.ttbr0L0.base) ∧
    (b.ttbr0L0.stop ≤ b.l2Table.base ∨ b.l2Table.stop ≤ b.ttbr0L0.base) ∧
    (b.ttbr0L0.stop ≤ b.l3Tables.base ∨ b.l3Tables.stop ≤ b.ttbr0L0.base) := by
  have := h.apart
  simp only [List.pairwise_cons, List.mem_cons, List.not_mem_nil, or_false, forall_eq_or_imp, forall_eq] at this
  obtain ⟨⟨p1, p2, p3, p4⟩, ⟨q1, q2, q3⟩, ⟨r1, r2⟩, s1, -⟩ := this
  exact ⟨p1, q1.symm, q2.symm, q3.symm, r1.symm, r2.symm, s1.symm, p2, p3, p4⟩

/-- The code builds the tables it describes; every store is inside its array. -/
theorem initPageTables_spec (hp : b.Placed) (h : b.Layout) (m : Mem) : ∃ m', b.initPageTables m = some m' ∧ Built b m' := by
  obtain ⟨c1, c2, c3, -⟩ := h.counts
  obtain ⟨i0, i1, i2, -⟩ := indexBases_lt b
  obtain ⟨d0, d1, d2, d3, d12, d13, d23, a1, a2, a3⟩ := hp.pairs
  obtain ⟨m0, e0, hzero⟩ := clearPageTables_spec b m
  obtain ⟨m1, e1, f1, w1⟩ := link_spec b.ttbr1L0 b.l1Table (n := b.l1TablesNeeded) i0 (by rwa [ttbr1L0, l0TablesNeeded, Nat.one_mul]) le_rfl
    (hp.below _ (by simp)) m0
  have e1' := b.ttbr0L0.store_eq (m := m1) (i := 0) (e := 0) (v := tableEntry (b.l1Table.addr 0)) Nat.one_pos (by decide)
  have f1' := TableArray.Frame.write b.ttbr0L0 (show b.ttbr0L0.Frame m1 m1 from fun _ _ => rfl) (k := 0 * 512 + 0)
    (show 0 * 512 + 0 < l0TablesNeeded * 512 by decide)
    (tableEntry (b.l1Table.addr 0))
  generalize write64 m1 _ _ = m1' at e1' f1'
  obtain ⟨m2, e2, f2, w2⟩ := link_spec b.l1Table b.l2Table i1 c2 le_rfl (hp.below _ (by simp)) m1'
  obtain ⟨m3, e3, f3, w3⟩ := link_spec b.l2Table b.l3Tables i2 c3 le_rfl (hp.below _ (by simp)) m2
  obtain ⟨m4, e4, f4, w4⟩ := initL3Table_spec h m3
  refine ⟨m4, ?_, ⟨fun e he => ?_, fun a ha e he => ?_, fun a ha e he => ?_, fun k hk => ?_⟩⟩
  · have e01 : b.initL0Tables m0 = some m1' := by rw [initL0Tables, e1, Option.bind_eq_bind, Option.bind_some, e1']
    rw [initPageTables, e0, Option.bind_eq_bind, Option.bind_some, e01, Option.bind_some, initL1Table, e2, Option.bind_some,
      initL2Table, e3, Option.bind_some, e4]
  -- a level keeps what its own loop wrote, and before that it was clear
  · have hk : e < b.ttbr1L0.count * 512 := by rwa [ttbr1L0, l0TablesNeeded, Nat.one_mul]
    rw [f4.word d3 hk, f3.word d2 hk, f2.word d1 hk, f1'.word d0 hk]
    have := w1 0 e he
    rwa [Nat.zero_mul, Nat.zero_add, hzero b.ttbr1L0 (by simp) e hk] at this
  · have hk : a * 512 + e < b.l1Table.count * 512 := show a * 512 + e < b.l1TablesNeeded * 512 by omega
    rw [f4.word d13 hk, f3.word d12 hk, w2 a e he, f1'.word a1 hk, f1.word d1.symm hk, hzero b.l1Table (by simp) _ hk]
  · have hk : a * 512 + e < b.l2Table.count * 512 := show a * 512 + e < b.l2TablesNeeded * 512 by omega
    rw [f4.word d23 hk, w3 a e he, f2.word d12.symm hk, f1'.word a2 hk, f1.word d2.symm hk,
      hzero b.l2Table (by simp) _ hk]
  · have hk' : k < b.l3Tables.count * 512 := hk
    rw [w4 k hk, f3.word d23.symm hk', f2.word d13.symm hk', f1'.word a3 hk', f1.word d3.symm hk',
      hzero b.l3Tables (by simp) _ hk']

end Config

end Myos.Boot
