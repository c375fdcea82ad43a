/-
  Myos.Lib.SortedMap — finite maps as lists sorted by key.

  The order is a field, so only sorted maps exist.

  Proved: which entries an insertion and a removal leave, and that `last` is the entry
  with the largest key a predicate accepts; a map is given by its entries, and is what
  inserting its entries one after the other gives.
-/

import Mathlib

namespace Myos.Lib

structure SortedMap (K V : Type) [LinearOrder K] where
  entries : List (K × V)
  sorted : entries.Pairwise fun a b => a.1 < b.1

namespace SortedMap

variable {K V : Type} [LinearOrder K]

def empty : SortedMap K V := ⟨[], List.Pairwise.nil⟩

def insertEntry (k : K) (v : V) : List (K × V) → List (K × V)
  | [] => [(k, v)]
  | e :: l => if k < e.1 then (k, v) :: e :: l else if k = e.1 then (k, v) :: l else e :: insertEntry k v l

theorem mem_insertEntry {k : K} {v : V} {e : K × V} : ∀ {l : List (K × V)}, l.Pairwise (fun a b => a.1 < b.1) →
    (e ∈ insertEntry k v l ↔ e = (k, v) ∨ e ∈ l ∧ e.1 ≠ k) := by
  intro l
  induction l with
  | nil => intro _; simp [insertEntry]
  | cons a l ih =>
    intro h
    obtain ⟨ha, hl⟩ := List.pairwise_cons.mp h
    unfold insertEntry
    by_cases h1 : k < a.1
    · rw [if_pos h1, List.mem_cons]
      refine or_congr_right ⟨fun he => ⟨he, ?_⟩, fun he => he.1⟩
      rcases List.mem_cons.mp he with rfl | he
      · exact h1.ne'
      · exact (h1.trans (ha e he)).ne'
    rw [if_neg h1]
    by_cases h2 : k = a.1
    · rw [if_pos h2, List.mem_cons]
      refine or_congr_right ⟨fun he => ⟨List.mem_cons_of_mem _ he, by rw [h2]; exact (ha e he).ne'⟩, ?_⟩
      rintro ⟨he, hne⟩
      rcases List.mem_cons.mp he with rfl | he
      · exact absurd h2.symm hne
      · exact he
    · rw [if_neg h2, List.mem_cons, ih hl, List.mem_cons]
      constructor
      · rintro (rfl | h | h)
        · exact Or.inr ⟨Or.inl rfl, Ne.symm h2⟩
        · exact Or.inl h
        · exact Or.inr ⟨Or.inr h.1, h.2⟩
      · rintro (h | ⟨h | h, hne⟩)
        · exact Or.inr (Or.inl h)
        · exact Or.inl h
        · exact Or.inr (Or.inr ⟨h, hne⟩)

theorem insertEntry_sorted (k : K) (v : V) : ∀ {l : List (K × V)}, l.Pairwise (fun a b => a.1 < b.1) →
    (insertEntry k v l).Pairwise fun a b => a.1 < b.1 := by
  intro l
  induction l with
  | nil => intro _; simp [insertEntry]
  | cons a l ih =>
    intro h
    obtain ⟨ha, hl⟩ := List.pairwise_cons.mp h
    unfold insertEntry
    by_cases h1 : k < a.1
    · rw [if_pos h1]
      refine List.pairwise_cons.mpr ⟨fun e he => ?_, h⟩
      rcases List.mem_cons.mp he with rfl | he
      · exact h1
      · exact h1.trans (ha e he)
    rw [if_neg h1]
    by_cases h2 : k = a.1
    · rw [if_pos h2]
      exact List.pairwise_cons.mpr ⟨fun e he => by rw [h2]; exact ha e he, hl⟩
    · rw [if_neg h2]
      refine List.pairwise_cons.mpr ⟨fun e he => ?_, ih hl⟩
      rcases (mem_insertEntry hl).mp he with rfl | ⟨he, -⟩
      · exact lt_of_le_of_ne (not_lt.mp h1) (Ne.symm h2)
      · exact ha e he

def insert (m : SortedMap K V) (k : K) (v : V) : SortedMap K V := ⟨insertEntry k v m.entries, insertEntry_sorted k v m.sorted⟩

def remove (m : SortedMap K V) (k : K) : SortedMap K V :=
  ⟨m.entries.filter fun e => decide (e.1 ≠ k), m.sorted.filter _⟩

/-- The value at the largest key that `p` accepts. -/
def last (m : SortedMap K V) (p : K → Bool) : Option V := (m.entries.reverse.find? fun e => p e.1).map Prod.snd

theorem mem_insert {m : SortedMap K V} {k : K} {v : V} {e : K × V} :
    e ∈ (m.insert k v).entries ↔ e = (k, v) ∨ e ∈ m.entries ∧ e.1 ≠ k := mem_insertEntry m.sorted

theorem mem_remove {m : SortedMap K V} {k : K} {e : K × V} :
    e ∈ (m.remove k).entries ↔ e ∈ m.entries ∧ e.1 ≠ k := by
  simp [remove, List.mem_filter]

theorem mem_of_last {m : SortedMap K V} {p : K → Bool} {v : V} (h : m.last p = some v) :
    ∃ k, (k, v) ∈ m.entries ∧ p k = true := by
  obtain ⟨⟨k, w⟩, he, rfl⟩ := Option.map_eq_some_iff.mp h
  have hp := List.find?_some he
  exact ⟨k, List.mem_reverse.mp (List.mem_of_find?_eq_some he), hp⟩

theorem eq_of_key {m : SortedMap K V} {e f : K × V} (he : e ∈ m.entries) (hf : f ∈ m.entries) (h : e.1 = f.1) : e = f := by
  have hnd : (m.entries.map Prod.fst).Nodup := List.pairwise_map.mpr (m.sorted.imp fun h => h.ne)
  exact List.inj_on_of_nodup_map hnd he hf h

/-- The keys that `p` accepts are not above the one found. -/
theorem last_max {m : SortedMap K V} {p : K → Bool} {v : V} (h : m.last p = some v) :
    ∃ k, (k, v) ∈ m.entries ∧ p k = true ∧ ∀ e ∈ m.entries, p e.1 = true → e.1 ≤ k := by
  obtain ⟨⟨k, w⟩, hf, rfl⟩ := Option.map_eq_some_iff.mp h
  obtain ⟨hp, as, bs, hR, hno⟩ := List.find?_eq_some_iff_append.mp hf
  have hs : (as ++ (k, w) :: bs).Pairwise fun a b => b.1 < a.1 := by
    rw [← hR]
    exact List.pairwise_reverse.mpr m.sorted
  have hm : ∀ {e}, e ∈ m.entries ↔ e ∈ as ++ (k, w) :: bs := fun {e} => by rw [← hR, List.mem_reverse]
  refine ⟨k, hm.mpr (List.mem_append_right _ (List.mem_cons_self ..)), hp, fun e he hpe => ?_⟩
  rcases List.mem_append.mp (hm.mp he) with ha | hb
  · exact absurd (hno e ha) (by simp [hpe])
  · rcases List.mem_cons.mp hb with rfl | hb
    · exact le_refl _
    · exact ((List.pairwise_cons.mp (List.pairwise_append.mp hs).2.1).1 e hb).le

theorem last_none {m : SortedMap K V} {p : K → Bool} (h : m.last p = none) {e : K × V} (he : e ∈ m.entries) : p e.1 = false := by
  have := List.find?_eq_none.mp (Option.map_eq_none_iff.mp h) e (List.mem_reverse.mpr he)
  exact Bool.eq_false_iff.mpr this

theorem insertEntry_last {k : K} {v : V} {l : List (K × V)} (h : ∀ e ∈ l, e.1 < k) : insertEntry k v l = l ++ [(k, v)] := by
  induction l with
  | nil => rfl
  | cons a l ih =>
    have ha := h a (List.mem_cons_self ..)
    rw [insertEntry, if_neg ha.not_gt, if_neg ha.ne', ih fun e he => h e (List.mem_cons_of_mem _ he)]
    rfl

/-- Inserting the entries of a map, in order, gives the map. -/
theorem foldl_insert (m : SortedMap K V) : m.entries.foldl (fun acc e => acc.insert e.1 e.2) empty = m := by
  have key : ∀ (l : List (K × V)) (acc : SortedMap K V), (acc.entries ++ l).Pairwise (fun a b => a.1 < b.1) →
      (l.foldl (fun acc e => acc.insert e.1 e.2) acc).entries = acc.entries ++ l := by
    intro l
    induction l with
    | nil => intro acc _; rw [List.append_nil]; rfl
    | cons a l ih =>
      intro acc h
      have hlast : (acc.insert a.1 a.2).entries = acc.entries ++ [a] :=
        insertEntry_last fun e he => (List.pairwise_append.mp h).2.2 e he a (List.mem_cons_self ..)
      have happ : acc.entries ++ a :: l = (acc.insert a.1 a.2).entries ++ l := by rw [hlast, List.append_assoc]; rfl
      rw [happ] at h ⊢
      exact ih _ h
  have h := key m.entries empty m.sorted
  cases m
  cases hm : List.foldl _ _ _
  rw [hm] at h
  simpa [empty] using h

/-- A map is given by its entries. -/
theorem ext_mem {m m' : SortedMap K V} (h : ∀ e, e ∈ m.entries ↔ e ∈ m'.entries) : m = m' := by
  have hnd : ∀ m : SortedMap K V, m.entries.Nodup := fun m => m.sorted.imp fun hlt he => hlt.ne (congrArg Prod.fst he)
  have hp := (List.perm_ext_iff_of_nodup (hnd m) (hnd m')).mpr h
  have he : m.entries = m'.entries := hp.eq_of_pairwise (fun a b _ _ h1 h2 => absurd h1 h2.not_gt) m.sorted m'.sorted
  cases m
  cases m'
  cases he
  rfl

/-- Inserting a new key and removing it. -/
theorem remove_insert {m : SortedMap K V} {k : K} (h : ∀ e ∈ m.entries, e.1 ≠ k) (v : V) : (m.insert k v).remove k = m := by
  refine ext_mem fun e => ?_
  rw [mem_remove, mem_insert]
  constructor
  · intro ⟨he, hne⟩
    rcases he with rfl | he
    · exact absurd rfl hne
    · exact he.1
  · intro he
    exact ⟨Or.inr ⟨he, h e he⟩, h e he⟩
end SortedMap

end Myos.Lib
