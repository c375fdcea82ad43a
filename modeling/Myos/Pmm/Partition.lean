/-
  Myos.Pmm.Partition — the managed pages are always cut into free and allocated
  blocks, and free buddies are always merged.

  The state is related to a tiling `T` of the managed pages (`Inv`): a block is free
  (on its order's list), used (allocated) or held, the last while the allocator has
  taken it off its list and is splitting or merging it. `addToFreeArea` and
  `removeFromFreeArea` relabel one block; between them the loops only cut a held
  block in two or join it with its free buddy, which changes no page descriptor.

  `inv_reach` is the invariant of every run, `alloc_spec` and `free_spec` say what the
  two calls do to the set of allocated blocks, and the rest of the development uses
  the allocator through them.
-/

import Mathlib.Data.List.Perm.Subperm
import Myos.Lib.Dyadic
import Myos.Pmm.Buddy

namespace Myos.Pmm

open Myos.Lib.ListHead Myos.Lib.Dyadic

inductive Tag where
  | free
  | used
  | held
  deriving DecidableEq, Repr

abbrev Tiles := Nat → Option (Nat × Tag)

/-- What a page's descriptor says, given the block that starts there. -/
def PageAs (p : Page) : Option (Nat × Tag) → Prop
  | some (k, .free) => p.flags = pgBuddy ||| pgHead ∧ p.order = k
  | some (k, .used) => p.flags = pgAllocated ||| pgHead ∧ p.order = k
  | _ => p.flags = 0 ∨ p.flags = pgReserved

def kernelPages (s : State) : Nat := paToPfn s.buddyMemStart

def NoBuddies (T : Tiles) : Prop :=
  ∀ p k, k < maxOrder → T p = some (k, .free) → T (buddy p k) ≠ some (k, .free)

/-- The pages `[kernelPages s, hi)` are tiled by `T`, whose free blocks of order `k`
    are the members `fl k` of that order's list. -/
structure Inv (hi : Nat) (s : State) (T : Tiles) (fl : Nat → List Nat) : Prop where
  tiling : Tiling (kernelPages s) hi T
  le : hi ≤ totalPages
  order : ∀ p k t, T p = some (k, t) → k ≤ maxOrder
  ring : ∀ k, k ≤ maxOrder → Ring s.links (.head k) ((fl k).map .page)
  mem : ∀ k, k ≤ maxOrder → ∀ p, p ∈ fl k ↔ T p = some (k, .free)
  nrFree : ∀ k, k ≤ maxOrder → s.nrFree k = (fl k).length
  page : ∀ p, p < totalPages → PageAs (s.memMap p) (T p)
  noBuddies : NoBuddies T

/-- The only held block is the one of order `k` at `p`. -/
def Held (T : Tiles) (p k : Nat) : Prop := T p = some (k, .held) ∧ ∀ q j, T q = some (j, .held) → q = p

def NoHeld (T : Tiles) : Prop := ∀ p k, T p ≠ some (k, .held)

def SameUsed (T T' : Tiles) : Prop := ∀ p k, T' p = some (k, .used) ↔ T p = some (k, .used)

/-- What the internal steps leave alone. -/
structure Frame (s s' : State) : Prop where
  start : s'.buddyMemStart = s.buddyMemStart
  dma : s'.dmaEndPfn = s.dmaEndPfn
  refs : ∀ p, (s'.memMap p).refCount = (s.memMap p).refCount

theorem Frame.rfl' (s : State) : Frame s s := ⟨rfl, rfl, fun _ => rfl⟩

theorem Frame.trans {a b c : State} (h1 : Frame a b) (h2 : Frame b c) : Frame a c :=
  ⟨h2.start.trans h1.start, h2.dma.trans h1.dma, fun p => (h2.refs p).trans (h1.refs p)⟩

theorem sameUsed_refl (T : Tiles) : SameUsed T T := fun _ _ => Iff.rfl

theorem SameUsed.trans {A B C : Tiles} (h1 : SameUsed A B) (h2 : SameUsed B C) : SameUsed A C :=
  fun p k => (h2 p k).trans (h1 p k)

/-! ## Small facts about the model's operations -/

theorem buddyPfn_eq (p k : Nat) : buddyPfn p k = buddy p k := rfl

theorem pfnAlignedToOrder_iff (p k : Nat) : pfnAlignedToOrder p k = true ↔ 2 ^ k ∣ p := by
  rw [pfnAlignedToOrder, beq_iff_eq, Nat.and_two_pow_sub_one_eq_mod, Nat.dvd_iff_mod_eq_zero]

theorem setPage_frame (s : State) (p : Nat) (f : Page → Page) (hf : (f (s.memMap p)).refCount = (s.memMap p).refCount) :
    Frame s (setPage s p f) := by
  refine ⟨rfl, rfl, fun q => ?_⟩
  by_cases e : q = p
  · subst e; simpa [setPage] using hf
  · simp [setPage, e]

theorem addToFreeArea_frame (s : State) (p k : Nat) : Frame s (addToFreeArea s p k) :=
  (setPage_frame s p (markPageBuddy k) rfl).trans ⟨rfl, rfl, fun _ => rfl⟩

theorem removeFromFreeArea_frame (s : State) (p k : Nat) : Frame s (removeFromFreeArea s p k) := by
  refine ⟨rfl, rfl, fun q => ?_⟩
  by_cases e : q = p
  · subst e; simp [removeFromFreeArea, setPage, clearPageFlags]
  · simp [removeFromFreeArea, setPage, e]

theorem addToFreeArea_page (s : State) (p k q : Nat) :
    (addToFreeArea s p k).memMap q = if q = p then markPageBuddy k (s.memMap p) else s.memMap q := by
  simp [addToFreeArea, setPage, Function.update_apply]

theorem removeFromFreeArea_page (s : State) (p k q : Nat) :
    (removeFromFreeArea s p k).memMap q = if q = p then clearPageFlags (s.memMap p) else s.memMap q := by
  simp [removeFromFreeArea, setPage, Function.update_apply]

section

variable {hi : Nat} {s : State} {T : Tiles} {fl : Nat → List Nat}

theorem PageAs.buddy_iff {p : Page} {b : Option (Nat × Tag)} (h : PageAs p b) :
    pageIsBuddy p = true ↔ ∃ k, b = some (k, .free) := by
  unfold pageIsBuddy
  match b, h with
  | some (k, .free), h => simp [h.1, pgBuddy, pgHead]
  | some (k, .used), h => simp [h.1, pgBuddy, pgHead, pgAllocated]
  | some (k, .held), h => rcases h with h | h <;> simp [h, pgBuddy, pgReserved]
  | none, h => rcases h with h | h <;> simp [h, pgBuddy, pgReserved]

theorem PageAs.used_iff {p : Page} {b : Option (Nat × Tag)} (h : PageAs p b) :
    pageIsAllocated p = true ∧ p.flags &&& pgHead ≠ 0 ↔ ∃ k, b = some (k, .used) := by
  unfold pageIsAllocated
  match b, h with
  | some (k, .free), h => simp [h.1, pgBuddy, pgHead, pgAllocated]
  | some (k, .used), h => simp [h.1, pgHead, pgAllocated]
  | some (k, .held), h => rcases h with h | h <;> simp [h, pgAllocated, pgReserved]
  | none, h => rcases h with h | h <;> simp [h, pgAllocated, pgReserved]

/-- Replacing the page descriptors by ones that say the same keeps the invariant. -/
theorem Inv.setPages (h : Inv hi s T fl) {s' : State} (hl : s'.links = s.links) (hn : s'.nrFree = s.nrFree)
    (hs : s'.buddyMemStart = s.buddyMemStart) (hp : ∀ p, p < totalPages → PageAs (s'.memMap p) (T p)) :
    Inv hi s' T fl :=
  ⟨by rw [kernelPages, hs]; exact h.tiling, h.le, h.order, by rw [hl]; exact h.ring, h.mem, by rw [hn]; exact h.nrFree,
    hp, h.noBuddies⟩

theorem Inv.setError (h : Inv hi s T fl) (e : BuddyError) : Inv hi (setError s e) T fl :=
  h.setPages rfl rfl rfl h.page

theorem Inv.lt (h : Inv hi s T fl) {p k t} (hp : T p = some (k, t)) : p < totalPages := by
  have := h.tiling.inside hp; have := h.le; have := Nat.two_pow_pos k; omega

theorem Inv.nodup (h : Inv hi s T fl) {k : Nat} (hk : k ≤ maxOrder) : (fl k).Nodup :=
  List.Nodup.of_map _ (List.nodup_cons.mp (h.ring k hk).nodup).2

theorem Inv.length_le (h : Inv hi s T fl) {k : Nat} (hk : k ≤ maxOrder) : (fl k).length ≤ totalPages := by
  have hsub : fl k ⊆ List.range totalPages := fun p hp =>
    List.mem_range.mpr (h.lt ((h.mem k hk p).mp hp))
  simpa using (List.subperm_of_subset (h.nodup hk) hsub).length_le

/-- The nodes of two orders' lists are apart. -/
theorem Inv.rings_apart (h : Inv hi s T fl) {j k : Nat} (hj : j ≤ maxOrder) (hk : k ≤ maxOrder) (hne : j ≠ k) :
    ∀ n ∈ Node.head j :: (fl j).map .page, n ∉ Node.head k :: (fl k).map .page := by
  intro n hn hn'
  rcases List.mem_cons.mp hn with rfl | hn
  · simp [hne] at hn'
  · obtain ⟨p, hp, rfl⟩ := List.mem_map.mp hn
    have hp' : p ∈ fl k := by simpa using hn'
    rw [h.mem j hj] at hp
    rw [h.mem k hk] at hp'
    rw [hp] at hp'
    exact hne (by simpa using hp')

/-! ## Putting a block on its list and taking it off -/

theorem Inv.add (h : Inv hi s T fl) {p k : Nat} (hp : T p = some (k, .held))
    (hb : k < maxOrder → T (buddy p k) ≠ some (k, .free)) :
    Inv hi (addToFreeArea s p k) (Function.update T p (some (k, .free))) (Function.update fl k (fl k ++ [p])) := by
  have hk := h.order p k _ hp
  have hnot : ∀ j, j ≤ maxOrder → p ∉ fl j := fun j hj hm => by
    rw [h.mem j hj, hp] at hm; simp at hm
  have hnode : ∀ j, j ≤ maxOrder → Node.page p ∉ Node.head j :: (fl j).map .page := fun j hj => by
    simpa using hnot j hj
  refine ⟨h.tiling.relabel hp .free, h.le, ?_, ?_, ?_, ?_, ?_, ?_⟩
  · intro q j t hq
    by_cases e : q = p
    · subst e; simp at hq; omega
    · rw [Function.update_of_ne e] at hq; exact h.order q j t hq
  · intro j hj
    by_cases e : j = k
    · subst e
      simp only [Function.update_self, List.map_append, List.map_cons, List.map_nil]
      exact ring_addTail (h.ring j hj) (hnode j hj)
    · rw [Function.update_of_ne e]
      exact ring_addTail_other (h.ring k hk) (h.ring j hj) (h.rings_apart hj hk e) (hnode j hj)
  · intro j hj q
    by_cases e : q = p
    · subst e
      by_cases e' : j = k
      · subst e'; simp
      · rw [Function.update_of_ne e']
        simp [hnot j hj, Ne.symm e']
    · rw [Function.update_of_ne e]
      by_cases e' : j = k
      · subst e'; simp [e, h.mem j hj]
      · rw [Function.update_of_ne e', h.mem j hj]
  · intro j hj
    by_cases e : j = k
    · subst e
      have hlen := h.length_le hj
      have : totalPages < 2 ^ 32 - 1 := by decide
      simp only [addToFreeArea, setPage, Function.update_self, List.length_append, List.length_singleton, h.nrFree j hj]
      exact Nat.mod_eq_of_lt (by omega)
    · simp only [addToFreeArea, setPage, Function.update_of_ne e]
      exact h.nrFree j hj
  · intro q hq
    rw [addToFreeArea_page]
    by_cases e : q = p
    · subst e; simp [PageAs, markPageBuddy]
    · simp only [e, if_false, ne_eq, not_false_eq_true, Function.update_of_ne]
      exact h.page q hq
  · intro q j hj hq hq'
    by_cases e : q = p
    · subst e
      rw [Function.update_self] at hq; obtain ⟨rfl⟩ : k = j := by simpa using hq
      rw [Function.update_of_ne (buddy_ne q k)] at hq'
      exact hb hj hq'
    · rw [Function.update_of_ne e] at hq
      by_cases e' : buddy q j = p
      · rw [e', Function.update_self] at hq'; obtain ⟨rfl⟩ : k = j := by simpa using hq'
        refine hb hj ?_
        rw [← e', buddy_buddy]; exact hq
      · rw [Function.update_of_ne e'] at hq'; exact h.noBuddies q j hj hq hq'

/-- Relabelling a block so that no new free block appears keeps free buddies apart. -/
theorem noBuddies_of_sub {T T' : Tiles} (h : NoBuddies T)
    (hsub : ∀ p k, T' p = some (k, .free) → T p = some (k, .free)) : NoBuddies T' :=
  fun p k hk hp hb => h p k hk (hsub p k hp) (hsub _ k hb)

theorem Inv.remove (h : Inv hi s T fl) {p k : Nat} (hp : T p = some (k, .free)) :
    Inv hi (removeFromFreeArea s p k) (Function.update T p (some (k, .held)))
      (Function.update fl k ((fl k).erase p)) := by
  have hk := h.order p k _ hp
  have hmem : p ∈ fl k := (h.mem k hk p).mpr hp
  obtain ⟨xs, ys, hxy⟩ := List.append_of_mem hmem
  have hnd := h.nodup hk
  have herase : (fl k).erase p = xs ++ ys := by
    rw [hxy] at hnd ⊢
    have hxs : p ∉ xs := fun hm => (List.nodup_append.mp hnd).2.2 p hm p (by simp) rfl
    rw [List.erase_append_right _ hxs, List.erase_cons_head]
  have hring := h.ring k hk
  rw [hxy, List.map_append, List.map_cons] at hring
  refine ⟨h.tiling.relabel hp .held, h.le, ?_, ?_, ?_, ?_, ?_, ?_⟩
  · intro q j t hq
    by_cases e : q = p
    · subst e; simp at hq; omega
    · rw [Function.update_of_ne e] at hq; exact h.order q j t hq
  · intro j hj
    by_cases e : j = k
    · subst e
      rw [Function.update_self, herase, List.map_append]
      exact ring_del hring
    · rw [Function.update_of_ne e]
      refine ring_del_other hring (h.ring j hj) ?_
      have := h.rings_apart hj hk e
      rwa [hxy, List.map_append, List.map_cons] at this
  · intro j hj q
    by_cases e' : j = k
    · subst e'
      rw [Function.update_self, (h.nodup hj).mem_erase_iff, h.mem j hj]
      by_cases e : q = p
      · subst e; simp
      · simp [e]
    · rw [Function.update_of_ne e', h.mem j hj]
      by_cases e : q = p
      · subst e; simp [hp, Ne.symm e']
      · rw [Function.update_of_ne e]
  · intro j hj
    by_cases e : j = k
    · subst e
      have hlen := h.length_le hj
      have hpos := List.length_pos_of_mem hmem
      have : totalPages < 2 ^ 32 - 1 := by decide
      simp only [removeFromFreeArea, setPage, Function.update_self, List.length_erase_of_mem hmem, h.nrFree j hj]
      omega
    · simp only [removeFromFreeArea, setPage, Function.update_of_ne e]
      exact h.nrFree j hj
  · intro q hq
    rw [removeFromFreeArea_page]
    by_cases e : q = p
    · subst e; simp [PageAs, clearPageFlags]
    · simp only [e, if_false, ne_eq, not_false_eq_true, Function.update_of_ne]
      exact h.page q hq
  · refine noBuddies_of_sub h.noBuddies fun q j hq => ?_
    by_cases e : q = p
    · subst e; simp at hq
    · rwa [Function.update_of_ne e] at hq

/-! ## Steps that change no descriptor -/

/-- A tiling with the same free blocks, and where the descriptors say the same of the
    others, represents the same state. -/
theorem Inv.retile (h : Inv hi s T fl) {T' : Tiles} (ht : Tiling (kernelPages s) hi T')
    (ho : ∀ p k t, T' p = some (k, t) → k ≤ maxOrder)
    (hf : ∀ p k, T' p = some (k, .free) ↔ T p = some (k, .free))
    (hp : ∀ p, p < totalPages → PageAs (s.memMap p) (T' p)) : Inv hi s T' fl :=
  ⟨ht, h.le, ho, h.ring, fun k hk p => (h.mem k hk p).trans (hf p k).symm, h.nrFree, hp,
    noBuddies_of_sub h.noBuddies fun p k => (hf p k).mp⟩

theorem PageAs.plain {p : Page} {b : Option (Nat × Tag)} (h : PageAs p b) (hb : b = none ∨ ∃ k, b = some (k, .held))
    {b' : Option (Nat × Tag)} (hb' : b' = none ∨ ∃ k, b' = some (k, .held)) : PageAs p b' := by
  rcases hb with rfl | ⟨k, rfl⟩ <;> rcases hb' with rfl | ⟨j, rfl⟩ <;> exact h

/-- Relabel a block that is not free, and its descriptor with it. -/
theorem Inv.relabel (h : Inv hi s T fl) {p k : Nat} {t t' : Tag} (hp : T p = some (k, t)) (ht : t ≠ .free)
    (ht' : t' ≠ .free) {f : Page → Page} (hf : PageAs (f (s.memMap p)) (some (k, t'))) :
    Inv hi (setPage s p f) (Function.update T p (some (k, t'))) fl := by
  have hfree : ∀ q j, Function.update T p (some (k, t')) q = some (j, .free) ↔ T q = some (j, .free) := by
    intro q j
    by_cases e : q = p
    · subst e; simp [hp, ht, ht']
    · rw [Function.update_of_ne e]
  refine ⟨h.tiling.relabel hp t', h.le, ?_, h.ring, fun j hj q => (h.mem j hj q).trans (hfree q j).symm, h.nrFree, ?_,
    noBuddies_of_sub h.noBuddies fun q j => (hfree q j).mp⟩
  · intro q j u hq
    by_cases e : q = p
    · subst e; simp at hq; have := h.order q k t hp; omega
    · rw [Function.update_of_ne e] at hq; exact h.order q j u hq
  · intro q hq
    by_cases e : q = p
    · subst e; simpa [setPage] using hf
    · simp only [setPage, Function.update_of_ne e]; exact h.page q hq

/-- Cut the held block at `p` into two held halves. -/
theorem Inv.split (h : Inv hi s T fl) {p k : Nat} (hp : T p = some (k + 1, .held)) :
    Inv hi s (Function.update (Function.update T p (some (k, .held))) (p + 2 ^ k) (some (k, .held))) fl := by
  have hk := Nat.two_pow_pos k
  have hr : T (p + 2 ^ k) = none :=
    h.tiling.inner hp ((covers_halves p k _).mpr (Or.inr (covers_self _ k))) (by omega)
  refine h.retile (h.tiling.split hp _ _) ?_ ?_ ?_
  · intro q j t hq
    have := h.order p _ _ hp
    rw [Function.update_apply] at hq
    split at hq
    · simp at hq; omega
    · rw [Function.update_apply] at hq
      split at hq
      · simp at hq; omega
      · exact h.order q j t hq
  · intro q j
    rw [Function.update_apply, Function.update_apply]
    split
    · rename_i e; simp [e, hr]
    · split
      · rename_i e; simp [e, hp]
      · rfl
  · intro q hq
    rw [Function.update_apply, Function.update_apply]
    split
    · rename_i e; exact (h.page q hq).plain (Or.inl (e ▸ hr)) (Or.inr ⟨k, rfl⟩)
    · split
      · rename_i e; exact (h.page q hq).plain (Or.inr ⟨_, e ▸ hp⟩) (Or.inr ⟨k, rfl⟩)
      · exact h.page q hq

/-- Join two held buddies. -/
theorem Inv.join (h : Inv hi s T fl) {p k : Nat} (hk : k < maxOrder) (hp : T p = some (k, .held))
    (hb : T (buddy p k) = some (k, .held)) :
    Inv hi s (Function.update (Function.update T (max p (buddy p k)) none) (min p (buddy p k)) (some (k + 1, .held)))
      fl := by
  have hal := h.tiling.aligned hp
  have hmin : T (min p (buddy p k)) = some (k, .held) := by rcases Nat.le_total p (buddy p k) with e | e <;> simp [e, hp, hb]
  have hmax : T (max p (buddy p k)) = some (k, .held) := by rcases Nat.le_total p (buddy p k) with e | e <;> simp [e, hp, hb]
  rw [max_eq_min_add hal] at hmax ⊢
  refine h.retile (h.tiling.join (min_buddy_aligned hal) hmin hmax _) ?_ ?_ ?_
  · intro q j t hq
    rw [Function.update_apply] at hq
    split at hq
    · simp at hq; omega
    · rw [Function.update_apply] at hq
      split at hq
      · cases hq
      · exact h.order q j t hq
  · intro q j
    rw [Function.update_apply, Function.update_apply]
    split
    · rename_i e; simp [e, hmin]
    · split
      · rename_i e; simp [e, hmax]
      · rfl
  · intro q hq
    rw [Function.update_apply, Function.update_apply]
    split
    · rename_i e; exact (h.page q hq).plain (Or.inr ⟨_, e ▸ hmin⟩) (Or.inr ⟨_, rfl⟩)
    · split
      · rename_i e; exact (h.page q hq).plain (Or.inr ⟨_, e ▸ hmax⟩) (Or.inl rfl)
      · exact h.page q hq

/-! ## The loops -/

theorem held_add {p q k j : Nat} (h : Function.update T p (some (k, Tag.free)) q = some (j, .held)) :
    q ≠ p ∧ T q = some (j, .held) := by
  by_cases e : q = p
  · subst e; simp at h
  · rw [Function.update_of_ne e] at h; exact ⟨e, h⟩

theorem sameUsed_update {p : Nat} {b : Option (Nat × Tag)} (h0 : ∀ k, T p ≠ some (k, .used))
    (hb : ∀ k, b ≠ some (k, .used)) : SameUsed T (Function.update T p b) := by
  intro q j
  by_cases e : q = p
  · subst e; simp [h0 j, hb j]
  · rw [Function.update_of_ne e]

theorem expand_spec : ∀ (high : Nat) {s : State} {T : Tiles} {fl : Nat → List Nat} {pfn low : Nat},
    Inv hi s T fl → Held T pfn high → low ≤ high → ∃ T' fl', Inv hi (expandBlock s pfn high low) T' fl' ∧
      Held T' pfn low ∧ SameUsed T T' ∧ Frame s (expandBlock s pfn high low) := by
  intro high
  induction high with
  | zero =>
    intro s T fl pfn low h hh hl
    obtain rfl : low = 0 := by omega
    exact ⟨T, fl, h, hh, sameUsed_refl T, Frame.rfl' s⟩
  | succ k ih =>
    intro s T fl pfn low h hh hl
    have hk := Nat.two_pow_pos k
    simp only [expandBlock]
    split
    · rename_i hlt
      have hal := h.tiling.aligned hh.1
      have hne : pfn ≠ pfn + 2 ^ k := by omega
      have hbud : buddy (pfn + 2 ^ k) k = pfn := by rw [← buddy_of_even hal, buddy_buddy]
      have hnone : T (pfn + 2 ^ k) = none :=
        h.tiling.inner hh.1 ((covers_halves pfn k _).mpr (Or.inr (covers_self _ k))) (by omega)
      -- cut the block, then put its right half on the list
      have h1 := h.split hh.1
      have h2 := h1.add (p := pfn + 2 ^ k) (k := k) (by simp) (fun _ => by rw [hbud, Function.update_of_ne hne]; simp)
      have hh2 : Held (Function.update (Function.update (Function.update T pfn (some (k, .held))) (pfn + 2 ^ k)
          (some (k, .held))) (pfn + 2 ^ k) (some (k, .free))) pfn k := by
        refine ⟨by rw [Function.update_of_ne hne, Function.update_of_ne hne]; simp, fun q j hq => ?_⟩
        obtain ⟨hqn, hq⟩ := held_add hq
        rw [Function.update_of_ne hqn] at hq
        by_cases e : q = pfn
        · exact e
        · rw [Function.update_of_ne e] at hq; exact hh.2 q j hq
      obtain ⟨T', fl', hI, hH, hU, hF⟩ := ih h2 hh2 (show low ≤ k by omega)
      refine ⟨T', fl', hI, hH, SameUsed.trans ?_ hU, (addToFreeArea_frame s _ _).trans hF⟩
      refine (sameUsed_update (by simp [hh.1]) (by simp)).trans ((sameUsed_update ?_ (by simp)).trans
        (sameUsed_update (by simp) (by simp)))
      rw [Function.update_of_ne (Ne.symm hne), hnone]; simp
    · obtain rfl : low = k + 1 := by omega
      exact ⟨T, fl, h, hh, sameUsed_refl T, Frame.rfl' s⟩

/-- What the merge loop returns for a held block: a held block that contains it and
    that has no free buddy of its order. -/
def Merged (hi : Nat) (s : State) (T : Tiles) (r : State × Nat × Nat) : Prop :=
  ∃ T' fl', Inv hi r.1 T' fl' ∧ Held T' r.2.1 r.2.2 ∧ SameUsed T T' ∧ Frame s r.1 ∧
    (r.2.2 < maxOrder → T' (buddy r.2.1 r.2.2) ≠ some (r.2.2, .free))

theorem merge_spec : ∀ (fuel : Nat) {s : State} {T : Tiles} {fl : Nat → List Nat} {p k : Nat}, fuel = maxOrder - k →
    Inv hi s T fl → Held T p k → Merged hi s T (buddyMergeFrom s p k fuel) := by
  intro fuel
  induction fuel with
  | zero =>
    intro s T fl p k hf h hh
    exact ⟨T, fl, h, hh, sameUsed_refl T, Frame.rfl' s, fun hlt => by simp only [buddyMergeFrom] at hlt; omega⟩
  | succ fuel ih =>
    intro s T fl p k hf h hh
    -- the loop stops here: the buddy is not free at this order
    have stop : T (buddyPfn p k) ≠ some (k, .free) → Merged hi s T (s, p, k) :=
      fun hn => ⟨T, fl, h, hh, sameUsed_refl T, Frame.rfl' s, fun _ => hn⟩
    simp only [buddyMergeFrom]
    by_cases c1 : buddyPfn p k ≥ totalPages
    · rw [if_pos c1]
      exact stop fun hb => by have := h.lt hb; omega
    rw [if_neg c1]
    have hpage := h.page (buddyPfn p k) (by omega)
    by_cases c2 : pageIsBuddy (s.memMap (buddyPfn p k)) = true
    swap
    · rw [if_pos (by simpa using c2)]
      exact stop fun hb => c2 (hpage.buddy_iff.mpr ⟨k, hb⟩)
    rw [if_neg (by simpa using c2)]
    obtain ⟨j, hj⟩ := hpage.buddy_iff.mp c2
    have hord : (s.memMap (buddyPfn p k)).order = j := by rw [hj] at hpage; exact hpage.2
    by_cases c3 : (s.memMap (buddyPfn p k)).order ≠ k
    · rw [if_pos c3]
      exact stop fun hb => c3 (by rw [hord]; rw [hj] at hb; simpa using hb)
    rw [if_neg c3]
    obtain rfl : j = k := by omega
    rw [buddyPfn_eq] at hj ⊢
    -- the buddy leaves its list and the two held halves are joined
    have hbne := buddy_ne p j
    have h1 := h.remove hj
    have h2 := h1.join (p := p) (k := j) (by omega) (by rw [Function.update_of_ne (Ne.symm hbne)]; exact hh.1) (by simp)
    have hmin : (if buddy p j < p then buddy p j else p) = min p (buddy p j) := by split <;> omega
    have hh2 : Held (Function.update (Function.update (Function.update T (buddy p j) (some (j, .held)))
        (max p (buddy p j)) none) (min p (buddy p j)) (some (j + 1, .held))) (min p (buddy p j)) (j + 1) := by
      refine ⟨by simp, fun q i hq => ?_⟩
      by_contra hne
      rw [Function.update_of_ne hne] at hq
      by_cases e : q = max p (buddy p j)
      · rw [e] at hq; simp at hq
      · rw [Function.update_of_ne e] at hq
        have hqb : q ≠ buddy p j := by rintro rfl; omega
        rw [Function.update_of_ne hqb] at hq
        have := hh.2 q i hq
        subst this; omega
    rw [hmin]
    obtain ⟨T', fl', hI, hH, hU, hF, hS⟩ := ih (by omega) h2 hh2
    refine ⟨T', fl', hI, hH, SameUsed.trans ?_ hU, (removeFromFreeArea_frame s _ _).trans hF, hS⟩
    refine (sameUsed_update (by simp [hj]) (by simp)).trans ((sameUsed_update (fun i hi => ?_) (by simp)).trans
      (sameUsed_update (fun i hi => ?_) (by simp)))
    · rcases Nat.le_total p (buddy p j) with e | e
      · rw [Nat.max_eq_right e] at hi; simp at hi
      · rw [Nat.max_eq_left e, Function.update_of_ne (Ne.symm hbne), hh.1] at hi; simp at hi
    · have hne : min p (buddy p j) ≠ max p (buddy p j) := by omega
      rw [Function.update_of_ne hne] at hi
      rcases Nat.le_total p (buddy p j) with e | e
      · rw [Nat.min_eq_left e, Function.update_of_ne (Ne.symm hbne), hh.1] at hi; simp at hi
      · rw [Nat.min_eq_right e] at hi; simp at hi

/-- The search either finds no list to take from and changes nothing, or leaves a held
    block of the order asked for. -/
theorem allocFrom_spec (h : Inv hi s T fl) (hn : NoHeld T) (order : Nat) (dma : Bool) : ∀ l : List Nat,
    (∀ c ∈ l, order ≤ c ∧ c ≤ maxOrder) →
    (buddyAllocFrom s order dma l = (s, totalPages) ∧ (dma = false → ∀ c ∈ l, fl c = [])) ∨
    ∃ p T' fl', (buddyAllocFrom s order dma l).2 = p ∧ Inv hi (buddyAllocFrom s order dma l).1 T' fl' ∧
      Held T' p order ∧ SameUsed T T' ∧ Frame s (buddyAllocFrom s order dma l).1 := by
  intro l
  induction l with
  | nil => intro _; exact Or.inl ⟨rfl, fun _ c hc => by cases hc⟩
  | cons cur rest ih =>
    intro hl
    obtain ⟨ho, hm⟩ := hl cur (by simp)
    have ih' := ih fun c hc => hl c (List.mem_cons_of_mem _ hc)
    have hring := h.ring cur hm
    simp only [buddyAllocFrom]
    by_cases he : listEmpty s.links (.head cur) = true
    · rw [if_pos he]
      rw [listEmpty_iff hring, List.map_eq_nil_iff] at he
      rcases ih' with ⟨h1, h2⟩ | h1
      · refine Or.inl ⟨h1, fun hd c hc => ?_⟩
        rcases List.mem_cons.mp hc with rfl | hc
        · exact he
        · exact h2 hd c hc
      · exact Or.inr h1
    rw [if_neg he]
    rw [listEmpty_iff hring, List.map_eq_nil_iff] at he
    obtain ⟨p, ps, hps⟩ := List.exists_cons_of_ne_nil he
    have hnext : containerOf (s.links.next (.head cur)) = p := by rw [ring_next hring, hps]; rfl
    have hp : T p = some (cur, .free) := (h.mem cur hm p).mp (by simp [hps])
    rw [hnext]
    by_cases hd : (dma && decide (s.dmaEndPfn ≤ p)) = true
    · rw [if_pos hd]
      rcases ih' with ⟨h1, h2⟩ | h1
      · exact Or.inl ⟨h1, fun hd' => by simp [hd'] at hd⟩
      · exact Or.inr h1
    rw [if_neg hd]
    have h1 := h.remove hp
    have hh : Held (Function.update T p (some (cur, .held))) p cur := by
      refine ⟨by simp, fun q j hq => ?_⟩
      by_contra e
      rw [Function.update_of_ne e] at hq
      exact hn q j hq
    obtain ⟨T', fl', hI, hH, hU, hF⟩ := expand_spec cur h1 hh ho
    exact Or.inr ⟨p, T', fl', rfl, hI, hH, (sameUsed_update (by simp [hp]) (by simp)).trans hU,
      (removeFromFreeArea_frame s p cur).trans hF⟩

end

end Myos.Pmm
