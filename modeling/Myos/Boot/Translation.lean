/-
  Myos.Boot.Translation — what a walk through the boot page tables finds.

  The walk is the one of `Mm.Trees`, four levels down from `ttbr1_l0`.

  Proved: every address of the range, and no other of the upper half, is translated as it
  should be exactly if the range starts at the start of a level-3 table, and crosses the
  end of a level-2 or level-1 table only if it starts at the start of one (`right_iff`).
-/

import Myos.Boot.Tables
import Myos.Mm.MapPage

namespace Myos.Boot

open Mm (Mem Idx read64 child dirs l3Index)
open Lib.Walk

/-! ## What the tables are for -/

namespace Config

variable (b : Config)

/-- What the walk of four levels from `ttbr1_l0` translates an address to. -/
def translate (m : Mem) (va : Nat) : Option Nat :=
  (walk (child m) b.ttbr1Addr (dirs va ++ [l3Index va])).map fun pa => pa + va % 4096

/-- The addresses of the range are translated to those from `PHYS_BASE` on, and no other address of the upper half is
    translated. -/
def Right (m : Mem) : Prop :=
  (∀ x < b.totalMemSize, b.translate m (b.virtBase + x) = some (b.physBase + x)) ∧
  ∀ va, 2 ^ 64 - 2 ^ 48 ≤ va → va < 2 ^ 64 → (∀ x < b.totalMemSize, va ≠ b.virtBase + x) → b.translate m va = none

/-- The tables of level 3 and 2 that the range needs when it starts at the start of a table. -/
def l3Used : Nat := divRoundUp b.totalMemSize l3TableMapSize
def l2Used : Nat := divRoundUp b.l3Used tableSize

/-- The range starts at the start of a level-3 table, and it is inside one level-2 table (level-1 table) or starts at the
    start of one. -/
def Fits : Prop :=
  0 < b.totalMemSize → b.l3IndexBase = 0 ∧ (b.l2IndexBase = 0 ∨ b.l2IndexBase + b.l3Used ≤ 512) ∧
    (b.l1IndexBase = 0 ∨ b.l1IndexBase + b.l2Used ≤ 512)

end Config

/-! ## Entries -/

theorem tableEntry_eq {a : Nat} (h : Mm.PageAddr a) : tableEntry a = Mm.mkPte Mm.tableProt a := by
  have hd := h.1
  have h0 : a - a % 4096 = a := by
    unfold Pmm.pageSize at hd
    omega
  rw [tableEntry, Mm.mkPte, h.and_mask, h0]
  rfl

theorem memAttr_ok : Mm.ProtOk memAttr := ⟨by decide, by decide, by decide⟩

/-- Reading an entry of a table of an array. -/
theorem child_addr (t : TableArray) (m : Mem) (a : Nat) (e : Idx) :
    child m (t.addr a) e = if Mm.ptePresent (t.word m (a * 512 + e)) then some (Mm.pteToPhys (t.word m (a * 512 + e))) else none := by
  have : t.addr a + 8 * e.val = t.base + (a * 512 + e) * 8 := by
    unfold TableArray.addr
    ring
  rw [child, this]
  rfl

theorem child_table {t : TableArray} {m : Mem} {a pa : Nat} {e : Idx} {c : Prop} [Decidable c] {prot : Nat}
    (hp : Mm.ProtOk prot) (hpa : c → Mm.PageAddr pa)
    (hw : t.word m (a * 512 + e) = if c then Mm.mkPte prot pa else 0) : child m (t.addr a) e = if c then some pa else none := by
  rw [child_addr, hw]
  by_cases hc : c
  · rw [if_pos hc, if_pos (Mm.mkPte_present hp.valid), Mm.mkPte_pteToPhys hp (hpa hc), if_pos hc]
  · rw [if_neg hc, if_neg (by simp), if_neg hc]

/-! ## The page an address leads to -/

namespace Config

variable {b : Config}

/-- The entry of the level-3 tables, counted from the first, that the walk of page `w` comes to. -/
def slotOf (b : Config) (w : Nat) : Nat :=
  back b.l2IndexBase (back b.l1IndexBase (back b.l0IndexBase 0 (w / 2 ^ 27 % 512)) (w / 2 ^ 18 % 512)) (w / 2 ^ 9 % 512) * 512 +
    w % 512

theorem addr_pageAddr {t : TableArray} (hd : 4096 ∣ t.base) (hs : t.stop ≤ 2 ^ 48) {i : Nat} (hi : i < t.count) :
    Mm.PageAddr (t.addr i) := by
  unfold TableArray.stop at hs
  unfold TableArray.addr
  exact ⟨Dvd.dvd.add hd (Nat.dvd_mul_left _ _), by omega⟩

theorem page_pageAddr (h : b.Layout) {k : Nat} (hk : k * 4096 < b.totalMemSize) : Mm.PageAddr (b.physBase + k * 4096) := by
  have := h.bound
  exact ⟨Dvd.dvd.add h.physBase (Nat.dvd_mul_left _ _), by omega⟩

theorem pageEntry_eq (h : b.Layout) {k : Nat} (hk : k * 4096 < b.totalMemSize) :
    pageEntry b k = Mm.mkPte memAttr (b.physBase + k * 4096) := by
  have hp := page_pageAddr h hk
  have h0 : (b.physBase + k * 4096) % 4096 = 0 := Nat.mod_eq_zero_of_dvd hp.1
  rw [pageEntry, Mm.mkPte, hp.and_mask, h0, Nat.sub_zero]

/-- Going down one level. -/
theorem child_link {t c : TableArray} (hd : 4096 ∣ c.base) (hs : c.stop ≤ 2 ^ 48) {m : Mem} {base a n : Nat} {e : Idx}
    (hn : n ≤ c.count)
    (hw : t.word m (a * 512 + e) = if back base a e < n then tableEntry (c.addr (back base a e)) else 0) :
    child m (t.addr a) e = if back base a e < n then some (c.addr (back base a e)) else none := by
  have hp : back base a e < n → Mm.PageAddr (c.addr (back base a e)) := fun hlt => addr_pageAddr hd hs (hlt.trans_le hn)
  refine child_table Mm.tableProt_ok hp (hw.trans ?_)
  split
  · rename_i hlt
    rw [tableEntry_eq (hp hlt)]
  · rfl

theorem back_div (base a e : Nat) : back base a e / 512 = a := by
  unfold back
  omega

/-- What an address is translated to, from the slot its walk comes to. -/
theorem translate_eq (hp : b.Placed) (h : b.Layout) {m : Mem} (hm : Built b m) (va : Nat) :
    b.translate m va = if slotOf b (va >>> 12) * 4096 < b.totalMemSize
      then some (b.physBase + slotOf b (va >>> 12) * 4096 + va % 4096) else none := by
  obtain ⟨c1, c2, c3, c4⟩ := h.counts
  have i0 : (Mm.l0Index va).val = (va >>> 12) / 2 ^ 27 % 512 := Mm.index9_shift va 27
  have i1 : (Mm.l1Index va).val = (va >>> 12) / 2 ^ 18 % 512 := Mm.index9_shift va 18
  have i2 : (Mm.l2Index va).val = (va >>> 12) / 2 ^ 9 % 512 := Mm.index9_shift va 9
  have i3 : (l3Index va).val = (va >>> 12) % 512 := Mm.index9_val _
  have hslot : slotOf b (va >>> 12) = back b.l2IndexBase (back b.l1IndexBase (back b.l0IndexBase 0 (Mm.l0Index va))
      (Mm.l1Index va)) (Mm.l2Index va) * 512 + (l3Index va) := by rw [slotOf, i0, i1, i2, i3]
  rw [hslot]
  have e0 := (Mm.l0Index va).isLt
  have e1 := (Mm.l1Index va).isLt
  have e2 := (Mm.l2Index va).isLt
  have e3 := (l3Index va).isLt
  have t1 := back_div b.l0IndexBase 0 (Mm.l0Index va)
  have t2 := back_div b.l1IndexBase (back b.l0IndexBase 0 (Mm.l0Index va)) (Mm.l1Index va)
  have t3 := back_div b.l2IndexBase (back b.l1IndexBase (back b.l0IndexBase 0 (Mm.l0Index va)) (Mm.l1Index va)) (Mm.l2Index va)
  generalize ha1 : back b.l0IndexBase 0 (Mm.l0Index va) = a1 at *
  generalize ha2 : back b.l1IndexBase a1 (Mm.l1Index va) = a2 at *
  generalize ha3 : back b.l2IndexBase a2 (Mm.l2Index va) = a3 at *
  have w0 : child m b.ttbr1Addr (Mm.l0Index va) = if a1 < b.l1TablesNeeded then some (b.l1Table.addr a1) else none := by
    have := child_link (t := b.ttbr1L0) (a := 0) (hp.aligned b.l1Table (by simp)) (hp.below b.l1Table (by simp)) le_rfl
      (by rw [Nat.zero_mul, Nat.zero_add]; exact hm.l0 _ e0)
    rwa [ha1] at this
  have w1 : a1 < b.l1TablesNeeded → child m (b.l1Table.addr a1) (Mm.l1Index va) =
      if a2 < b.l2TablesNeeded then some (b.l2Table.addr a2) else none := by
    intro h1
    have := child_link (hp.aligned b.l2Table (by simp)) (hp.below b.l2Table (by simp)) le_rfl (hm.l1 a1 h1 _ e1)
    rwa [ha2] at this
  have w2 : a2 < b.l2TablesNeeded → child m (b.l2Table.addr a2) (Mm.l2Index va) =
      if a3 < b.l3TablesNeeded then some (b.l3Tables.addr a3) else none := by
    intro h2
    have := child_link (hp.aligned b.l3Tables (by simp)) (hp.below b.l3Tables (by simp)) le_rfl (hm.l2 a2 h2 _ e2)
    rwa [ha3] at this
  have w3 : a3 < b.l3TablesNeeded → child m (b.l3Tables.addr a3) (l3Index va) =
      if (a3 * 512 + (l3Index va)) * 4096 < b.totalMemSize then some (b.physBase + (a3 * 512 + (l3Index va)) * 4096) else none := by
    intro h3
    refine child_table memAttr_ok (page_pageAddr h) ((hm.l3 _ (by omega)).trans ?_)
    split
    · rename_i hlt
      rw [pageEntry_eq h hlt]
    · rfl
  rw [translate, dirs]
  simp only [List.cons_append, List.nil_append, walk]
  rw [w0]
  by_cases h1 : a1 < b.l1TablesNeeded
  · rw [if_pos h1, Option.bind_some, w1 h1]
    by_cases h2 : a2 < b.l2TablesNeeded
    · rw [if_pos h2, Option.bind_some, w2 h2]
      by_cases h3 : a3 < b.l3TablesNeeded
      · rw [if_pos h3, Option.bind_some, w3 h3]
        split <;> rfl
      · rw [if_neg h3, Option.bind_none, Option.map_none, if_neg (by omega)]
    · rw [if_neg h2, Option.bind_none, Option.map_none, if_neg (by omega)]
  · rw [if_neg h1, Option.bind_none, Option.map_none, if_neg (by omega)]

/-! ## Slots and pages -/

theorem slotOf_injective (b : Config) {w w' : Nat} (h : slotOf b w = slotOf b w') : w % 2 ^ 36 = w' % 2 ^ 36 := by
  have back_inj : ∀ {base a e a' e' : Nat}, base < 512 → e < 512 → e' < 512 → back base a e = back base a' e' → a = a' ∧ e = e' := by
    intro base a e a' e' hb he he' hEq
    unfold back at hEq
    omega
  obtain ⟨i0, i1, i2, -⟩ := indexBases_lt b
  unfold slotOf at h
  have lt : ∀ x, x % 512 < 512 := fun x => Nat.mod_lt x (by decide)
  obtain ⟨h, h3⟩ : back b.l2IndexBase (back b.l1IndexBase (back b.l0IndexBase 0 (w / 2 ^ 27 % 512)) (w / 2 ^ 18 % 512)) (w / 2 ^ 9 % 512) =
      back b.l2IndexBase (back b.l1IndexBase (back b.l0IndexBase 0 (w' / 2 ^ 27 % 512)) (w' / 2 ^ 18 % 512)) (w' / 2 ^ 9 % 512) ∧
      w % 512 = w' % 512 := by omega
  obtain ⟨h, h2⟩ := back_inj i2 (lt _) (lt _) h
  obtain ⟨h, h1⟩ := back_inj i1 (lt _) (lt _) h
  obtain ⟨-, h0⟩ := back_inj i0 (lt _) (lt _) h
  omega

/-- The page at which the range starts. -/
def firstPage (b : Config) : Nat := b.virtBase >>> 12

theorem indexBases_eq (b : Config) : b.l0IndexBase = b.firstPage / 2 ^ 27 % 512 ∧ b.l1IndexBase = b.firstPage / 2 ^ 18 % 512 ∧
    b.l2IndexBase = b.firstPage / 2 ^ 9 % 512 ∧ b.l3IndexBase = b.firstPage % 512 := by
  have h : ∀ k, (b.virtBase >>> (12 + k)) &&& 0x1FF = b.firstPage / 2 ^ k % 512 := by
    intro k
    rw [firstPage, Nat.shiftRight_add, Nat.shiftRight_eq_div_pow (b.virtBase >>> 12)]
    exact Nat.and_two_pow_sub_one_eq_mod _ 9
  have h0 := h 0
  rw [Nat.pow_zero, Nat.div_one] at h0
  exact ⟨h 27, h 18, h 9, h0⟩

/-- The pages of the range. -/
def pages (b : Config) : Nat := b.totalMemSize / 4096

theorem Layout.range (h : b.Layout) : b.totalMemSize = b.pages * 4096 ∧ b.virtBase = b.firstPage * 4096 ∧
    2 ^ 52 - 2 ^ 35 ≤ b.firstPage ∧ b.firstPage + b.pages ≤ 2 ^ 52 := by
  have h1 := h.physBase
  have h2 := h.totalMemSize
  have h3 := h.reach
  have h4 : b.firstPage = b.virtBase / 4096 := Nat.shiftRight_eq_div_pow _ _
  have h5 : b.virtBase = 0xFFFF800000000000 + b.physBase := rfl
  unfold pages
  omega

/-- The tables are right exactly if every page of the range is in the slot its walk comes to. -/
theorem right_iff_slots (hp : b.Placed) (h : b.Layout) {m : Mem} (hm : Built b m) :
    b.Right m ↔ ∀ n < b.pages, slotOf b (b.firstPage + n) = n := by
  obtain ⟨hM, hV, hlo, hhi⟩ := h.range
  have page : ∀ va, va >>> 12 = va / 4096 := fun va => Nat.shiftRight_eq_div_pow _ _
  constructor
  · intro hr n hn
    have := hr.1 (n * 4096) (by omega)
    rw [translate_eq hp h hm, page, hV, show (b.firstPage * 4096 + n * 4096) / 4096 = b.firstPage + n by omega] at this
    generalize slotOf b (b.firstPage + n) = k at *
    split at this
    · rw [Option.some.injEq] at this
      omega
    · cases this
  · intro hs
    constructor
    · intro x hx
      have hn := hs (x / 4096) (by omega)
      rw [translate_eq hp h hm, page, hV, show (b.firstPage * 4096 + x) / 4096 = b.firstPage + x / 4096 by omega, hn,
        if_pos (by omega), Option.some.injEq]
      omega
    · intro va h1 h2 hne
      rw [translate_eq hp h hm, if_neg]
      intro hlt
      -- the slot of the page is also that of a page of the range
      obtain ⟨k, hk⟩ : ∃ k, slotOf b (va >>> 12) = k := ⟨_, rfl⟩
      rw [hk] at hlt
      have hinj := slotOf_injective b ((hs k (by omega)).trans hk.symm)
      rw [page] at hinj
      have hx : k * 4096 + va % 4096 < b.totalMemSize := by
        rw [hM] at hlt ⊢
        have hmod := Nat.mod_lt va (show 0 < 4096 by decide)
        have hk : k < b.pages := Nat.lt_of_mul_lt_mul_right hlt
        clear * - hmod hk
        omega
      have hk : k < b.pages := by omega
      refine hne _ hx ?_
      rw [hV]
      clear * - hinj hlo hhi hk h1 h2
      omega

/-! ## The exact condition -/

/-- The digits of a slot: going up, each is the digit of the page less that of the first page. -/
theorem slotOf_eq_iff (b : Config) {w n : Nat} (hn : n < 2 ^ 36) : slotOf b w = n ↔ w % 512 = n % 512 ∧
    (w / 2 ^ 9 % 512 + 512 - b.l2IndexBase) % 512 = n / 2 ^ 9 % 512 ∧
    (w / 2 ^ 18 % 512 + 512 - b.l1IndexBase) % 512 = n / 2 ^ 18 % 512 ∧
    (w / 2 ^ 27 % 512 + 512 - b.l0IndexBase) % 512 = n / 2 ^ 27 % 512 := by
  unfold slotOf back
  constructor
  · intro h
    omega
  · intro h
    omega

/-- One level: the digit of `w + c`, less that of `w`, is the digit of `c`; what is carried is as if `w` were aligned,
    unless the sum leaves the table. -/
theorem digit_step {w c : Nat} (h : w % 512 = 0 ∨ w % 512 + c < 512) :
    ((w + c) % 512 + 512 - w % 512) % 512 = c % 512 ∧ (w + c) / 512 = w / 512 + c / 512 := by
  omega

theorem l3Used_eq (h : b.Layout) : b.l3Used = (b.pages + 511) / 512 := by
  have := h.range.1
  unfold l3Used divRoundUp l3TableMapSize tableSize
  omega

theorem l2Used_eq (b : Config) : b.l2Used = (b.l3Used + 511) / 512 := by
  unfold l2Used divRoundUp tableSize
  omega

theorem div_pow_two (x : Nat) : x / 2 ^ 9 = x / 512 ∧ x / 2 ^ 18 = x / 512 / 512 ∧ x / 2 ^ 27 = x / 512 / 512 / 512 := by
  refine ⟨rfl, ?_, ?_⟩
  · norm_num [Nat.div_div_eq_div_mul]
  · norm_num [Nat.div_div_eq_div_mul]

/-- The digits of a page of the range, in the words of `digit_step`. -/
theorem slots_iff_digits (h : b.Layout) {n : Nat} (hn : n < b.pages) : slotOf b (b.firstPage + n) = n ↔
    (b.firstPage + n) % 512 = n % 512 ∧
    ((b.firstPage + n) / 512 % 512 + 512 - b.firstPage / 512 % 512) % 512 = n / 512 % 512 ∧
    ((b.firstPage + n) / 512 / 512 % 512 + 512 - b.firstPage / 512 / 512 % 512) % 512 = n / 512 / 512 % 512 ∧
    ((b.firstPage + n) / 512 / 512 / 512 % 512 + 512 - b.firstPage / 512 / 512 / 512 % 512) % 512 = n / 512 / 512 / 512 % 512 := by
  obtain ⟨-, -, hlo, hhi⟩ := h.range
  obtain ⟨b0, b1, b2, -⟩ := indexBases_eq b
  obtain ⟨w9, w18, w27⟩ := div_pow_two (b.firstPage + n)
  obtain ⟨n9, n18, n27⟩ := div_pow_two n
  obtain ⟨v9, v18, v27⟩ := div_pow_two b.firstPage
  rw [slotOf_eq_iff b (by omega), b0, b1, b2, w9, w18, w27, n9, n18, n27, v9, v18, v27]

theorem fits_iff (h : b.Layout) : b.Fits ↔ (0 < b.pages → b.firstPage % 512 = 0 ∧
    (b.firstPage / 512 % 512 = 0 ∨ b.firstPage / 512 % 512 + (b.pages + 511) / 512 ≤ 512) ∧
    (b.firstPage / 512 / 512 % 512 = 0 ∨ b.firstPage / 512 / 512 % 512 + ((b.pages + 511) / 512 + 511) / 512 ≤ 512)) := by
  obtain ⟨-, b1, b2, b3⟩ := indexBases_eq b
  obtain ⟨v9, v18, -⟩ := div_pow_two b.firstPage
  have hM : 0 < b.totalMemSize ↔ 0 < b.pages := by
    have := h.range.1
    omega
  rw [Fits, l2Used_eq, l3Used_eq h, b1, b2, b3, v9, v18, hM]

/-- Every page is in its slot exactly if the first page, and what is carried out of each level, are. -/
theorem slots_iff_fits (h : b.Layout) : (∀ n < b.pages, slotOf b (b.firstPage + n) = n) ↔ b.Fits := by
  rw [fits_iff h]
  constructor
  · intro hs hpos
    have hd := fun n hn => (slots_iff_digits h (n := n) hn).mp (hs n hn)
    generalize b.firstPage = w at *
    generalize b.pages = p at *
    have f3 : w % 512 = 0 := by
      have := (hd 0 hpos).1
      omega
    -- a page past the end of the first level-2 table would be carried into the next level
    have f2 : w / 512 % 512 = 0 ∨ w / 512 % 512 + (p + 511) / 512 ≤ 512 := by
      by_contra hn
      push Not at hn
      obtain ⟨c, hc⟩ : ∃ c, w / 512 % 512 + c = 512 := ⟨_, Nat.add_sub_of_le (by omega)⟩
      have := (hd (c * 512) (by omega)).2.2.1
      have q : (w + c * 512) / 512 = w / 512 + c := by omega
      rw [q, Nat.mul_div_cancel _ (by decide)] at this
      omega
    refine ⟨f3, f2, ?_⟩
    by_contra hn
    push Not at hn
    obtain ⟨c, hc⟩ : ∃ c, w / 512 / 512 % 512 + c = 512 := ⟨_, Nat.add_sub_of_le (by omega)⟩
    have := (hd (c * 512 * 512) (by omega)).2.2.2
    have q : (w + c * 512 * 512) / 512 = w / 512 + c * 512 := by omega
    have q' : (w / 512 + c * 512) / 512 = w / 512 / 512 + c := by omega
    rw [q, q', Nat.mul_div_cancel _ (by decide), Nat.mul_div_cancel _ (by decide)] at this
    omega
  · intro hf n hn
    obtain ⟨f3, f2, f1⟩ := hf (by omega)
    rw [slots_iff_digits h hn]
    generalize b.firstPage = w at *
    generalize b.pages = p at *
    obtain ⟨d3, q3⟩ := digit_step (w := w) (c := n) (Or.inl f3)
    obtain ⟨d2, q2⟩ := digit_step (w := w / 512) (c := n / 512) (f2.imp_right fun _ => by omega)
    obtain ⟨d1, q1⟩ := digit_step (w := w / 512 / 512) (c := n / 512 / 512) (f1.imp_right fun _ => by omega)
    obtain ⟨d0, -⟩ : _ ∧ _ := ⟨(by omega : ∀ w c : Nat, ((w + c) % 512 + 512 - w % 512) % 512 = c % 512), trivial⟩
    rw [q3, q2, q1]
    exact ⟨by rw [Nat.add_mod, f3, Nat.zero_add, Nat.mod_mod], d2, d1, d0 _ _⟩

/-- The initialisation goes through, and its tables are right, exactly if the range fits. -/
theorem right_iff (hp : b.Placed) (h : b.Layout) (m : Mem) :
    (∃ m', b.initPageTables m = some m' ∧ b.Right m') ↔ b.Fits := by
  obtain ⟨m', hm, hb⟩ := initPageTables_spec hp h m
  have hr := right_iff_slots hp h hb
  constructor
  · intro hex
    obtain ⟨m'', hm'', hright⟩ := hex
    rw [hm, Option.some.injEq] at hm''
    exact (slots_iff_fits h).mp (hr.mp (hm'' ▸ hright))
  · intro hf
    exact ⟨m', hm, hr.mpr ((slots_iff_fits h).mpr hf)⟩

/-- One page from `base` on, the arrays one after the other. -/
def onePage (base : Nat) : Config :=
  ⟨base, 4096, 0x48000000, 0x48001000, 0x48002000, 0x48003000, 0x48004000⟩

theorem onePage_aligned : (onePage 0x40000000).Placed ∧ (onePage 0x40000000).Layout :=
  ⟨⟨by decide +kernel, by decide +kernel, by decide +kernel⟩, ⟨by decide +kernel, by decide +kernel, by decide +kernel⟩⟩

theorem onePage_shifted : (onePage 0x40001000).Placed ∧ (onePage 0x40001000).Layout :=
  ⟨⟨by decide +kernel, by decide +kernel, by decide +kernel⟩, ⟨by decide +kernel, by decide +kernel, by decide +kernel⟩⟩

theorem right_onePage : (∃ m', (onePage 0x40000000).initPageTables (fun _ => 0) = some m' ∧ (onePage 0x40000000).Right m') ↔
    (onePage 0x40000000).Fits :=
  right_iff onePage_aligned.1 onePage_aligned.2 _

/-- The range starts at the second page of a level-3 table, and its first page is put in the first slot. -/
theorem shifted_not_right : (onePage 0x40001000).Placed ∧ (onePage 0x40001000).Layout ∧
    ¬ ∃ m', (onePage 0x40001000).initPageTables (fun _ => 0) = some m' ∧ (onePage 0x40001000).Right m' := by
  obtain ⟨hp, h⟩ := onePage_shifted
  refine ⟨hp, h, fun hex => ?_⟩
  obtain ⟨m', hm', hr⟩ := hex
  obtain ⟨m, hm, hb⟩ := initPageTables_spec hp h fun _ => 0
  obtain rfl : m = m' := Option.some.inj (hm.symm.trans hm')
  have hf := (slots_iff_fits h).mp ((right_iff_slots hp h hb).mp hr)
  exact absurd (hf (by decide)).1 (by decide)

end Config

end Myos.Boot
