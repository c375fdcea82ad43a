/-
  Myos.Mm.PageLoops — the page loops of `mmap`, `munmap` and `brk` over both halves of
  the address space.

  `Filled … N n f`: `n` of the `N` pages from `addr` on that the loop of `do_mmap` has
  passed are mapped, page `k` to the new frame `f k`, and the others of them are not.
  `Released … S`: the pages with a key in `S` are unmapped, and each that was mapped gave
  up one reference.

  Proved: the loop of `do_mmap` fills all its pages, or undoes what it filled; the loop
  of `do_munmap` and `do_brk` releases the pages it visits.
-/

import Myos.Mm.Lending
import Myos.Mm.Calls

namespace Myos.Mm

open Pmm Lib.Walk Lib.Dyadic

/-- The keys of `n` pages from `addr` on. -/
def keys (addr n : Nat) : Finset (Bool × Nat) := (Finset.range n).image fun k => pageKey (addr + k * pageSize)

/-- The keys of the pages `releaseUpTo` visits in `n` turns. -/
def visited (cur stop : Nat) : (n : Nat) → Finset (Bool × Nat)
  | 0 => ∅
  | n + 1 => if cur < stop then insert (pageKey cur) (visited (cur + pageSize) stop n) else ∅

structure Filled (U : Finset Nat) (K : Set (Nat × Nat)) (m0 m : Machine) (ex0 ex : Nat → Nat) (addr N n : Nat) (f : Nat → Nat) :
    Prop where
  lent : Lent m U K ex
  same : SameRoots m0 m
  le : n ≤ N
  fresh : ∀ k, k < n → refs m0.mem U ex0 (f k) = 0
  inj : ∀ k, k < n → ∀ j, j < k → f j ≠ f k
  zero : ∀ k, k < n → ∀ x, x < pageSize → m.mem (pfnToPa (f k) + x) = 0
  on : ∀ k, k < n → m.translate (addr + k * pageSize) = mkPte rustPageUserRw (pfnToPa (f k))
  gone : ∀ k, n ≤ k → k < N → m.mapping (addr + k * pageSize) = none
  off : ∀ va, pageKey va ∉ keys addr N → m.mapping va = m0.mapping va
  refs : ∀ p, refs m.mem U ex p = if ∃ k < n, f k = p then 1 else refs m0.mem U ex0 p
  page : ∀ p, 0 < Mm.refs m0.mem U ex0 p → SamePage m0 m p

structure Released (U : Finset Nat) (K : Set (Nat × Nat)) (m m' : Machine) (ex ex' : Nat → Nat) (S : Finset (Bool × Nat)) : Prop where
  lent : Lent m' U K ex'
  same : SameRoots m m'
  keys : ∀ κ ∈ S, pageKey (keyAddr κ) = κ
  on : ∀ va, pageKey va ∈ S → m'.mapping va = none
  off : ∀ va, pageKey va ∉ S → m'.translate va = m.translate va
  refs : ∀ p, refs m'.mem U ex' p + ∑ κ ∈ S, leadsTo (m.translate (keyAddr κ)) p = refs m.mem U ex p
  page : ∀ p, 0 < Mm.refs m'.mem U ex' p → SamePage m m' p
  used : ∀ p k, Used m'.pmm p k → Used m.pmm p k
  freed : ∀ p, 0 < Mm.refs m.mem U ex p → Mm.refs m'.mem U ex' p = 0 → ¬ Used m'.pmm p 0

section

variable {m0 m m' m'' : Machine} {U : Finset Nat} {K : Set (Nat × Nat)} {ex0 ex ex' ex'' : Nat → Nat} {addr va N n : Nat}
  {f : Nat → Nat} {S S' : Finset (Bool × Nat)}

/-! ## Keys -/

theorem mem_keys {κ : Bool × Nat} : κ ∈ keys addr n ↔ ∃ k < n, pageKey (addr + k * pageSize) = κ := by
  simp [keys]

/-- Fewer than 2^36 pages in a row have different keys. -/
theorem pageKey_ne {i j : Nat} (hij : i < j) (hj : j < 2 ^ 36) : pageKey (addr + i * pageSize) ≠ pageKey (addr + j * pageSize) := by
  intro h
  have h2 : (addr + i * pageSize) >>> 12 % 2 ^ 36 = (addr + j * pageSize) >>> 12 % 2 ^ 36 := congrArg Prod.snd h
  rw [Nat.shiftRight_eq_div_pow, Nat.shiftRight_eq_div_pow] at h2
  unfold pageSize at h2
  omega

/-- One entry for all addresses with a key. -/
theorem translate_key {va' : Nat} (h : pageKey va' = pageKey va) : m.translate va' = m.translate va := by
  obtain ⟨hu, hs⟩ := Prod.mk.inj h
  obtain ⟨hd, hi⟩ := (path_iff va va').mpr hs
  unfold Machine.translate Machine.l0Table
  rw [hu, hd, hi]

theorem mapping_key {va' : Nat} (h : pageKey va' = pageKey va) : m.mapping va' = m.mapping va := by
  unfold Machine.mapping
  rw [translate_key h]

theorem keyAddr_key : m.translate (keyAddr (pageKey va)) = m.translate va := translate_key (pageKey_keyAddr va)

theorem mem_visited {κ : Bool × Nat} {stop : Nat} : ∀ {n cur : Nat},
    κ ∈ visited cur stop n ↔ ∃ k < n, cur + k * pageSize < stop ∧ pageKey (cur + k * pageSize) = κ := by
  intro n
  induction n with
  | zero => intro cur; simp [visited]
  | succ n ih =>
    intro cur
    unfold visited
    by_cases hc : cur < stop
    · rw [if_pos hc, Finset.mem_insert, ih]
      constructor
      · intro h
        rcases h with rfl | ⟨k, hk, hlt, rfl⟩
        · exact ⟨0, Nat.succ_pos n, by rw [Nat.zero_mul]; exact hc, by rw [Nat.zero_mul]; rfl⟩
        · have e : cur + (k + 1) * pageSize = cur + pageSize + k * pageSize := by rw [Nat.succ_mul]; omega
          exact ⟨k + 1, Nat.succ_lt_succ hk, by rw [e]; exact hlt, by rw [e]⟩
      · intro ⟨k, hk, hlt, he⟩
        cases k with
        | zero =>
          rw [Nat.zero_mul] at he
          exact Or.inl he.symm
        | succ k =>
          have e : cur + (k + 1) * pageSize = cur + pageSize + k * pageSize := by rw [Nat.succ_mul]; omega
          rw [e] at hlt he
          exact Or.inr ⟨k, Nat.lt_of_succ_lt_succ hk, hlt, he⟩
    · rw [if_neg hc]
      refine iff_of_false (Finset.notMem_empty κ) fun ⟨k, _, hlt, _⟩ => ?_
      omega

/-! ## Filling -/

theorem Lent.filled (h : Lent m U K ex) (addr : Nat) (f : Nat → Nat) : Filled U K m m ex ex addr 0 0 f where
  lent := h
  same := SameRoots.rfl'
  le := le_refl 0
  fresh k hk := absurd hk (Nat.not_lt_zero k)
  inj k hk := absurd hk (Nat.not_lt_zero k)
  zero k hk := absurd hk (Nat.not_lt_zero k)
  on k hk := absurd hk (Nat.not_lt_zero k)
  gone k _ hk := absurd hk (Nat.not_lt_zero k)
  off _ _ := rfl
  refs _ := (if_neg fun ⟨k, hk, _⟩ => Nat.not_lt_zero k hk).symm
  page p _ := SamePage.rfl' m p

/-- A step that maps nothing leaves what is filled. -/
theorem Filled.quiet (h : Filled U K m0 m ex0 ex addr N n f) (hr : m.ttbr0 ∈ U) (hl : Lent m' U K ex)
    (hQ : Quiet (roots m U) (Mm.refs m.mem U ex) m m') (hrf : Mm.refs m'.mem U ex = Mm.refs m.mem U ex) :
    Filled U K m0 m' ex0 ex addr N n f where
  lent := hl
  same := h.same.trans ⟨hQ.ttbr0, hQ.ttbr1⟩
  le := h.le
  fresh := h.fresh
  inj := h.inj
  zero k hk x hx := by
    have hpos : 0 < Mm.refs m.mem U ex (f k) := by
      rw [h.refs, if_pos ⟨k, hk, rfl⟩]
      exact Nat.one_pos
    rw [hQ.page _ hpos _ (by omega) (by omega)]
    exact h.zero k hk x hx
  on k hk := (hQ.translate h.lent.toWorld hr _).trans (h.on k hk)
  gone k hk hN := (hQ.mapping h.lent.toWorld hr _).trans (h.gone k hk hN)
  off va hva := (hQ.mapping h.lent.toWorld hr va).trans (h.off va hva)
  refs p := by rw [hrf, h.refs]
  page p hp := by
    have hpos : 0 < Mm.refs m.mem U ex p := by
      rw [h.refs]
      split
      · exact Nat.one_pos
      · exact hp
    exact (h.page p hp).trans (hQ.page p hpos)

/-- No more pages are filled than there are. -/
theorem Filled.card (h : Filled U K m0 m ex0 ex addr N n f) : n ≤ totalPages := by
  have hinj : Set.InjOn f (Finset.range n : Set Nat) := by
    intro i hi j hj he
    rw [Finset.coe_range, Set.mem_Iio] at hi hj
    rcases Nat.lt_trichotomy i j with hlt | heq | hlt
    · exact absurd he (h.inj j hj i hlt)
    · exact heq
    · exact absurd he.symm (h.inj i hi j hlt)
  have hmaps : ∀ k ∈ Finset.range n, f k ∈ Finset.range totalPages := by
    intro k hk
    have hpos : 0 < Mm.refs m.mem U ex (f k) := by
      rw [h.refs, if_pos ⟨k, Finset.mem_range.mp hk, rfl⟩]
      exact Nat.one_pos
    exact Finset.mem_range.mpr (h.lent.owned.pfn_lt hpos)
  have hle := Finset.card_le_card_of_injOn f hmaps hinj
  rwa [Finset.card_range, Finset.card_range] at hle

theorem Filled.key_ne (h : Filled U K m0 m ex0 ex addr N n f) {i j : Nat} (hij : i < j) (hj : j ≤ n) :
    pageKey (addr + i * pageSize) ≠ pageKey (addr + j * pageSize) := by
  have h1 := h.card
  have h2 : totalPages = 65536 := rfl
  exact pageKey_ne hij (by omega)

/-- One more page. -/
theorem Filled.next (h : Filled U K m0 m ex0 ex addr n n f) {p : Nat} (hr : m.ttbr0 ∈ U) (hl : Lent m' U K ex')
    (hrf : Mm.refs m'.mem U ex' = Function.update (Mm.refs m.mem U ex) p 1)
    (hI : Installed (roots m U) K (Mm.refs m.mem U ex) (Function.update (Mm.refs m.mem U ex) p 1) m m' (addr + n * pageSize)
      rustPageUserRw p fun _ => 0) : Filled U K m0 m' ex0 ex' addr (n + 1) (n + 1) (Function.update f n p) := by
  have hw := h.lent.toWorld
  have hfresh := hI.fresh
  rw [h.refs] at hfresh
  have hne : ∀ k, k < n → f k ≠ p := by
    intro k hk he
    rw [if_pos ⟨k, hk, he⟩] at hfresh
    exact absurd hfresh Nat.one_ne_zero
  have hfresh0 : Mm.refs m0.mem U ex0 p = 0 := by rwa [if_neg fun ⟨k, hk, he⟩ => hne k hk he] at hfresh
  have hold : ∀ k, k < n → Function.update f n p k = f k := fun k hk => Function.update_of_ne hk.ne _ _
  -- a frame in use is none but its own
  have hframe : ∀ q, q ≠ p → 0 < Mm.refs m.mem U ex q → SamePage m m' q := by
    intro q hq hpos
    refine hI.wrote.page q ?_
    rw [Function.update_of_ne hq, Function.update_of_ne hq]
    exact hpos
  refine ⟨hl, h.same.trans ⟨hI.wrote.ttbr0, hI.wrote.ttbr1⟩, le_refl _, fun k hk => ?_, fun k hk j hj => ?_, fun k hk x hx => ?_,
    fun k hk => ?_, fun k hk hN => absurd hN (by omega), fun va hva => ?_, fun q => ?_, fun q hq => ?_⟩
  · rcases Nat.lt_succ_iff_lt_or_eq.mp hk with hk | rfl
    · rw [hold k hk]
      exact h.fresh k hk
    · rw [Function.update_self]
      exact hfresh0
  · rcases Nat.lt_succ_iff_lt_or_eq.mp hk with hk | rfl
    · rw [hold k hk, hold j (by omega)]
      exact h.inj k hk j hj
    · rw [Function.update_self, hold j hj]
      exact hne j hj
  · rcases Nat.lt_succ_iff_lt_or_eq.mp hk with hk | rfl
    · rw [hold k hk]
      have hpos : 0 < Mm.refs m.mem U ex (f k) := by
        rw [h.refs, if_pos ⟨k, hk, rfl⟩]
        exact Nat.one_pos
      rw [hframe _ (hne k hk) hpos _ (by omega) (by omega)]
      exact h.zero k hk x hx
    · rw [Function.update_self]
      exact hI.data x hx
  · rw [hI.wrote.translate hw hr]
    rcases Nat.lt_succ_iff_lt_or_eq.mp hk with hk | rfl
    · rw [if_neg (h.key_ne hk (le_refl n)), hold k hk]
      exact h.on k hk
    · rw [if_pos rfl, Function.update_self]
  · have hva' : pageKey va ∉ keys addr n ∧ pageKey va ≠ pageKey (addr + n * pageSize) := by
      refine ⟨fun hm => hva ?_, fun he => hva (mem_keys.2 ⟨n, Nat.lt_succ_self n, he.symm⟩)⟩
      obtain ⟨k, hk, he⟩ := mem_keys.1 hm
      exact mem_keys.2 ⟨k, by omega, he⟩
    rw [hI.wrote.mapping hw hr hva'.2]
    exact h.off va hva'.1
  · rw [hrf]
    by_cases e : q = p
    · rw [e, Function.update_self, if_pos ⟨n, Nat.lt_succ_self n, Function.update_self _ _ _⟩]
    · rw [Function.update_of_ne e, h.refs]
      refine if_congr ⟨fun ⟨k, hk, he⟩ => ⟨k, by omega, by rw [hold k hk, he]⟩, fun ⟨k, hk, he⟩ => ?_⟩ rfl rfl
      rcases Nat.lt_succ_iff_lt_or_eq.mp hk with hk | rfl
      · exact ⟨k, hk, by rw [← hold k hk, he]⟩
      · exact absurd (by rw [← he, Function.update_self]) e
  · have hqp : q ≠ p := by rintro rfl; omega
    refine (h.page q hq).trans (hframe q hqp ?_)
    rw [h.refs]
    split
    · exact Nat.one_pos
    · exact hq

/-- The rollback releases the last page that is filled. -/
theorem Filled.back (h : Filled U K m0 m ex0 ex addr N (n + 1) f) (hr : m.ttbr0 ∈ U) :
    ∃ ex', Filled U K m0 (releasePage m (addr + n * pageSize)) ex0 ex' addr N n f := by
  have hw := h.lent.toWorld
  have hon := h.on n (Nat.lt_succ_self n)
  have hpos : ∀ k, k < n + 1 → 0 < Mm.refs m.mem U ex (f k) := by
    intro k hk
    rw [h.refs, if_pos ⟨k, hk, rfl⟩]
    exact Nat.one_pos
  have hpage := pfnToPa_pageAddr (h.lent.owned.pfn_lt (hpos n (Nat.lt_succ_self n)))
  have hpres : ptePresent (m.translate (addr + n * pageSize)) = true := by
    rw [hon]
    exact mkPte_present (by decide)
  have hours : m.Ours (addr + n * pageSize) := Or.inr fun _ => by
    rw [hon]
    exact mkPte_user (by decide)
  obtain ⟨p, ex', hD⟩ := h.lent.releasePage hr hours hpres
  have hp : f n = p := by
    have := hD.leads
    rw [hon, mkPte_pteToPhys rustPageUserRw_ok hpage] at this
    exact pfnToPa_inj this
  have hrf := hD.refs
  rw [← hp, h.refs (f n), if_pos ⟨n, Nat.lt_succ_self n, rfl⟩] at hrf
  have hne : ∀ k, k < n → f k ≠ f n := fun k hk => h.inj n (Nat.lt_succ_self n) k hk
  generalize releasePage m (addr + n * pageSize) = m' at *
  refine ⟨ex', hD.lent, h.same.trans ⟨hD.wrote.ttbr0, hD.wrote.ttbr1⟩, by have := h.le; omega, fun k hk => h.fresh k (by omega),
    fun k hk => h.inj k (by omega), fun k hk x hx => ?_, fun k hk => ?_, fun k hk hN => ?_, fun va hva => ?_, fun q => ?_,
    fun q hq => (h.page q hq).trans (hD.wrote.page q ?_)⟩
  · rw [hD.wrote.page _ (hpos k (by omega)) _ (by omega) (by omega)]
    exact h.zero k (by omega) x hx
  · rw [hD.wrote.translate hw hr, if_neg (h.key_ne hk (by omega))]
    exact h.on k (by omega)
  · by_cases hk' : k = n
    · rw [hk', mapping_none, hD.wrote.translate hw hr, if_pos rfl, ptePresent_zero]
    · by_cases he : pageKey (addr + k * pageSize) = pageKey (addr + n * pageSize)
      · rw [mapping_none, hD.wrote.translate hw hr, if_pos he, ptePresent_zero]
      · rw [hD.wrote.mapping hw hr he]
        exact h.gone k (by omega) hN
  · have hne : pageKey va ≠ pageKey (addr + n * pageSize) := fun he => hva (mem_keys.2 ⟨n, by have := h.le; omega, he.symm⟩)
    rw [hD.wrote.mapping hw hr hne]
    exact h.off va hva
  · rw [hrf]
    by_cases e : q = f n
    · rw [e, Function.update_self, if_neg fun ⟨k, hk, he⟩ => hne k hk he, h.fresh n (Nat.lt_succ_self n)]
    · rw [Function.update_of_ne e, h.refs]
      refine if_congr ⟨fun ⟨k, hk, he⟩ => ?_, fun ⟨k, hk, he⟩ => ⟨k, by omega, he⟩⟩ rfl rfl
      rcases Nat.lt_succ_iff_lt_or_eq.mp hk with hk | rfl
      · exact ⟨k, hk, he⟩
      · exact absurd he.symm e
  · rw [h.refs]
    split
    · exact Nat.one_pos
    · exact hq

theorem Filled.unmapBack (n : Nat) : ∀ {m : Machine} {ex : Nat → Nat}, Filled U K m0 m ex0 ex addr N n f → m.ttbr0 ∈ U →
    ∃ ex', Filled U K m0 (unmapBack m addr n) ex0 ex' addr N 0 f := by
  induction n with
  | zero => intro m ex h _; exact ⟨ex, h⟩
  | succ n ih =>
    intro m ex h hr
    obtain ⟨ex1, h1⟩ := h.back hr
    have hr1 : (Mm.releasePage m (addr + n * pageSize)).ttbr0 ∈ U := by
      rw [(releasePage_roots m _).1]
      exact hr
    exact ih h1 hr1

/-- The page loop of `do_mmap`. -/
theorem Filled.mmapPages (left : Nat) : ∀ {m : Machine} {ex : Nat → Nat} {n : Nat} {f : Nat → Nat},
    Filled U K m0 m ex0 ex addr n n f → m.ttbr0 ∈ U →
    ((mmapPages m addr n left).2 = true ∧
      ∃ ex' f', Filled U K m0 (mmapPages m addr n left).1 ex0 ex' addr (n + left) (n + left) f') ∨
    ((mmapPages m addr n left).2 = false ∧
      ∃ N ex' f', N ≤ n + left ∧ Filled U K m0 (mmapPages m addr n left).1 ex0 ex' addr N 0 f') := by
  induction left with
  | zero => intro m ex n f h _; exact Or.inl ⟨rfl, ex, f, h⟩
  | succ left ih =>
    intro m ex n f h hr
    rw [mmapPages_succ]
    rcases h.lent.newPage hr (addr + n * pageSize) with ⟨he, hl, hQ, hrf⟩ | ⟨p, ex', he, -, hl, hrf, hI⟩
    · -- this page cannot be had: what is filled is undone
      rw [if_neg (by rw [he]; exact Bool.false_ne_true)]
      have hr1 : (newPageAt m (addr + n * pageSize)).1.ttbr0 ∈ U := by
        rw [hQ.ttbr0]
        exact hr
      obtain ⟨ex', h'⟩ := Filled.unmapBack n (h.quiet hr hl hQ hrf) hr1
      exact Or.inr ⟨rfl, n, ex', f, by omega, h'⟩
    · rw [if_pos he]
      have hr1 : (newPageAt m (addr + n * pageSize)).1.ttbr0 ∈ U := by
        rw [hI.wrote.ttbr0]
        exact hr
      have hih := ih (h.next hr hl hrf hI) hr1
      rw [show n + (left + 1) = n + 1 + left by omega]
      exact hih

/-! ## Releasing -/

theorem Lent.unreleased (h : Lent m U K ex) : Released U K m m ex ex ∅ where
  lent := h
  same := SameRoots.rfl'
  keys κ hκ := absurd hκ (Finset.notMem_empty κ)
  on va hva := absurd hva (Finset.notMem_empty _)
  off _ _ := rfl
  refs _ := by rw [Finset.sum_empty, Nat.add_zero]
  page p _ := SamePage.rfl' m p
  used _ _ hu := hu
  freed p hp h0 := absurd h0 hp.ne'

theorem Lent.released (h : Lent m U K ex) (hr : m.ttbr0 ∈ U) (ho : m.Ours va) :
    ∃ ex', Released U K m (Mm.releasePage m va) ex ex' {pageKey va} := by
  have hw := h.toWorld
  have hkeys : ∀ κ ∈ ({pageKey va} : Finset (Bool × Nat)), pageKey (keyAddr κ) = κ := fun κ hκ => by
    rw [Finset.mem_singleton.mp hκ, pageKey_keyAddr]
  cases hp : ptePresent (m.translate va) with
  | false =>
    rw [releasePage_absent (h.l0Table_ne hr va) hp]
    refine ⟨ex, h, SameRoots.rfl', hkeys, fun va' hva => ?_, fun va' _ => rfl, fun p => ?_, fun p _ => SamePage.rfl' m p,
      fun _ _ hu => hu, fun p hp h0 => absurd h0 hp.ne'⟩
    · rw [mapping_key (Finset.mem_singleton.mp hva), mapping_none]
      exact hp
    · rw [Finset.sum_singleton, keyAddr_key, leadsTo_absent hp, Nat.add_zero]
  | true =>
    obtain ⟨p, ex', hD⟩ := h.releasePage hr ho hp
    refine ⟨ex', hD.lent, ⟨hD.wrote.ttbr0, hD.wrote.ttbr1⟩, hkeys, fun va' hva => ?_, fun va' hva => ?_, fun q => ?_,
      fun q hq => hD.wrote.page q ?_, fun q k hq => (hD.used q k hq).1, fun q hq h0 hu => ?_⟩
    · rw [mapping_none, hD.wrote.translate hw hr, if_pos (Finset.mem_singleton.mp hva), ptePresent_zero]
    · rw [hD.wrote.translate hw hr, if_neg fun he => hva (Finset.mem_singleton.mpr he)]
    · rw [Finset.sum_singleton, keyAddr_key, leadsTo_present hp hD.leads, hD.refs]
      have hpos := hD.counted
      by_cases e : q = p
      · rw [e, Function.update_self, if_pos rfl]
        omega
      · rw [Function.update_of_ne e, if_neg e, Nat.add_zero]
    · rw [hD.refs] at hq
      by_cases e : q = p
      · rw [e]
        exact hD.counted
      · rwa [Function.update_of_ne e] at hq
    · rw [hD.refs] at h0
      by_cases e : q = p
      · -- the page in hand was the last reference
        have := (hD.used q 0 hu).2 e
        rw [e, Function.update_self] at h0
        omega
      · rw [Function.update_of_ne e] at h0
        omega

theorem Released.ours (h : Released U K m m' ex ex' S) (ho : m.Ours va) : m'.Ours va := by
  refine ho.imp_right fun hu hp => ?_
  by_cases hva : pageKey va ∈ S
  · rw [mapping_none.mp (h.on va hva)] at hp
    exact absurd hp Bool.false_ne_true
  · rw [h.off va hva] at hp ⊢
    exact hu hp

theorem Released.trans (h1 : Released U K m m' ex ex' S) (h2 : Released U K m' m'' ex' ex'' S') :
    Released U K m m'' ex ex'' (S ∪ S') := by
  refine ⟨h2.lent, h1.same.trans h2.same, fun κ hκ => ?_, fun va hva => ?_, fun va hva => ?_, fun p => ?_, fun p hp => ?_,
    fun p k hu => h1.used p k (h2.used p k hu), fun p hp h0 hu => ?_⟩
  · rcases Finset.mem_union.mp hκ with hκ | hκ
    · exact h1.keys κ hκ
    · exact h2.keys κ hκ
  · by_cases hva' : pageKey va ∈ S'
    · exact h2.on va hva'
    · rcases Finset.mem_union.mp hva with hva | hva
      · have := h1.on va hva
        rw [mapping_none] at this ⊢
        rw [h2.off va hva']
        exact this
      · exact absurd hva hva'
  · rw [Finset.mem_union, not_or] at hva
    rw [h2.off va hva.2, h1.off va hva.1]
  · -- a page of `S` has no entry left when `S'` is released
    have hlast : ∑ κ ∈ S', leadsTo (m'.translate (keyAddr κ)) p = ∑ κ ∈ S' \ S, leadsTo (m.translate (keyAddr κ)) p := by
      rw [← Finset.sum_sdiff (Finset.inter_subset_left : S' ∩ S ⊆ S'), Finset.sdiff_inter_self_left, Nat.add_comm]
      have hzero : ∑ κ ∈ S' ∩ S, leadsTo (m'.translate (keyAddr κ)) p = 0 := by
        refine Finset.sum_eq_zero fun κ hκ => leadsTo_absent ?_ p
        have hκ := (Finset.mem_inter.mp hκ).2
        exact mapping_none.mp (h1.on _ (by rw [h1.keys κ hκ]; exact hκ))
      rw [hzero, Nat.zero_add]
      refine Finset.sum_congr rfl fun κ hκ => ?_
      obtain ⟨hκ', hκ⟩ := Finset.mem_sdiff.mp hκ
      rw [h1.off _ (by rw [h2.keys κ hκ']; exact hκ)]
    have e1 := h1.refs p
    have e2 := h2.refs p
    rw [hlast] at e2
    rw [← Finset.union_sdiff_self_eq_union, Finset.sum_union Finset.disjoint_sdiff]
    omega
  · have hp' : 0 < Mm.refs m'.mem U ex' p := by
      have := h2.refs p
      omega
    exact (h1.page p hp').trans (h2.page p hp)
  · by_cases h1' : Mm.refs m'.mem U ex' p = 0
    · exact h1.freed p hp h1' (h2.used p 0 hu)
    · exact h2.freed p (Nat.pos_of_ne_zero h1') h0 hu

/-- The page loop of `do_munmap` and `do_brk`. -/
theorem Lent.releaseUpTo (n : Nat) : ∀ {m : Machine} {ex : Nat → Nat} {cur stop : Nat}, Lent m U K ex → m.ttbr0 ∈ U →
    (∀ k, k < n → cur + k * pageSize < stop → m.Ours (cur + k * pageSize)) →
    ∃ ex', Released U K m (releaseUpTo m cur stop n) ex ex' (visited cur stop n) := by
  induction n with
  | zero => intro m ex cur stop h _ _; exact ⟨ex, h.unreleased⟩
  | succ n ih =>
    intro m ex cur stop h hr ho
    unfold Mm.releaseUpTo visited
    by_cases hc : cur < stop
    · rw [if_pos hc, if_pos hc]
      have ho0 := ho 0 (Nat.succ_pos n)
      rw [Nat.zero_mul, Nat.add_zero] at ho0
      obtain ⟨ex1, h1⟩ := h.released hr (ho0 hc)
      have hr1 : (Mm.releasePage m cur).ttbr0 ∈ U := by
        rw [h1.same.1]
        exact hr
      obtain ⟨ex2, h2⟩ := @ih _ ex1 (cur + pageSize) stop h1.lent hr1 fun k hk hlt => by
        have e : cur + pageSize + k * pageSize = cur + (k + 1) * pageSize := by rw [Nat.succ_mul]; omega
        rw [e] at hlt ⊢
        exact h1.ours (ho (k + 1) (Nat.succ_lt_succ hk) hlt)
      exact ⟨ex2, h1.trans h2⟩
    · rw [if_neg hc, if_neg hc]
      exact ⟨ex, h.unreleased⟩

end

end Myos.Mm
