/-
  Myos.Lib.ListHead — circular doubly linked lists whose links live in their nodes.

  `Links` gives every node its `next` and `prev`. `Ring l h xs` says that the list
  headed at `h` runs through exactly `xs`, in order, and back to `h`.

  Proved: initialising, appending at the tail and deleting a node act on the list
  of members (`ring_init`, `ring_addTail`, `ring_del`) and leave every ring that
  shares no node with the one operated on as it was (`ring_addTail_other`,
  `ring_del_other`).
-/

import Mathlib.Data.List.Nodup
import Mathlib.Logic.Function.Basic

namespace Myos.Lib.ListHead

variable {α : Type} [DecidableEq α]

structure Links (α : Type) where
  next : α → α
  prev : α → α

def initListHead (l : Links α) (x : α) : Links α :=
  { next := Function.update l.next x x, prev := Function.update l.prev x x }

def listEmpty (l : Links α) (h : α) : Bool := l.next h == h

/-- `__list_add(node, prev, next)`. -/
def listAdd (l : Links α) (node p n : α) : Links α :=
  { next := Function.update (Function.update l.next node n) p node,
    prev := Function.update (Function.update l.prev n node) node p }

def listAddTail (l : Links α) (node h : α) : Links α := listAdd l node (l.prev h) h

/-- `__list_del(prev, next)`. -/
def listUnlink (l : Links α) (p n : α) : Links α :=
  { next := Function.update l.next p n, prev := Function.update l.prev n p }

def listDel (l : Links α) (entry : α) : Links α :=
  initListHead (listUnlink l (l.prev entry) (l.next entry)) entry

/-! ## Segments -/

/-- From `a` the links run through `xs` to `b`. -/
def Seg (l : Links α) : α → List α → α → Prop
  | a, [], b => l.next a = b ∧ l.prev b = a
  | a, x :: xs, b => l.next a = x ∧ l.prev x = a ∧ Seg l x xs b

/-- The list headed at `h` has the members `xs`. -/
structure Ring (l : Links α) (h : α) (xs : List α) : Prop where
  seg : Seg l h xs h
  nodup : (h :: xs).Nodup

omit [DecidableEq α] in
theorem seg_append (l : Links α) {a y b : α} {xs ys : List α} :
    Seg l a (xs ++ y :: ys) b ↔ Seg l a xs y ∧ Seg l y ys b := by
  induction xs generalizing a with
  | nil => simp only [List.nil_append, Seg, and_assoc]
  | cons x xs ih => simp only [List.cons_append, Seg, ih, and_assoc]

omit [DecidableEq α] in
/-- A segment only reads `next` before its end and `prev` after its start. -/
theorem seg_frame {l l' : Links α} {a b : α} {xs : List α} (hn : ∀ x ∈ a :: xs, l'.next x = l.next x)
    (hp : ∀ x ∈ b :: xs, l'.prev x = l.prev x) (h : Seg l a xs b) : Seg l' a xs b := by
  induction xs generalizing a with
  | nil => exact ⟨(hn a (by simp)).trans h.1, (hp b (by simp)).trans h.2⟩
  | cons x xs ih =>
    obtain ⟨h1, h2, h3⟩ := h
    refine ⟨(hn a (by simp)).trans h1, (hp x (by simp)).trans h2, ih ?_ ?_ h3⟩
    · intro y hy; exact hn y (List.mem_cons_of_mem _ hy)
    · intro y hy
      rcases List.mem_cons.mp hy with rfl | hy
      · exact hp y (by simp)
      · exact hp y (by simp [hy])

omit [DecidableEq α] in
theorem ring_frame {l l' : Links α} {h : α} {xs : List α} (hn : ∀ x ∈ h :: xs, l'.next x = l.next x)
    (hp : ∀ x ∈ h :: xs, l'.prev x = l.prev x) (hr : Ring l h xs) : Ring l' h xs :=
  ⟨seg_frame hn hp hr.seg, hr.nodup⟩

omit [DecidableEq α] in
/-- The node before the head is the last member, or the head of an empty list. -/
theorem seg_prev {l : Links α} {a b : α} {xs : List α} (h : Seg l a xs b) : l.prev b = xs.getLastD a := by
  induction xs generalizing a with
  | nil => exact h.2
  | cons x xs ih => rw [ih h.2.2, List.getLastD_cons]

omit [DecidableEq α] in
theorem seg_next {l : Links α} {a b : α} {xs : List α} (h : Seg l a xs b) : l.next a = xs.headD b := by
  cases xs with
  | nil => exact h.1
  | cons x xs => exact h.1

omit [DecidableEq α] in
theorem ring_next {l : Links α} {h : α} {xs : List α} (hr : Ring l h xs) : l.next h = xs.headD h := seg_next hr.seg

theorem listEmpty_iff {l : Links α} {h : α} {xs : List α} (hr : Ring l h xs) : listEmpty l h = true ↔ xs = [] := by
  unfold listEmpty
  rw [ring_next hr, beq_iff_eq]
  cases xs with
  | nil => simp
  | cons x xs =>
    have := hr.nodup
    simp only [List.nodup_cons, List.mem_cons, not_or] at this
    simp [Ne.symm this.1.1]

/-! ## Operations on members -/

theorem ring_init (l : Links α) (h : α) : Ring (initListHead l h) h [] :=
  ⟨⟨by simp [initListHead], by simp [initListHead]⟩, by simp⟩

theorem ring_init_other {l : Links α} {h x : α} {xs : List α} (hr : Ring l h xs) (hx : x ∉ h :: xs) :
    Ring (initListHead l x) h xs := by
  refine ring_frame ?_ ?_ hr <;>
  · intro y hy
    have : y ≠ x := fun e => hx (e ▸ hy)
    simp [initListHead, this]

theorem ring_addTail {l : Links α} {h x : α} {xs : List α} (hr : Ring l h xs) (hx : x ∉ h :: xs) :
    Ring (listAddTail l x h) h (xs ++ [x]) := by
  have hxh : x ≠ h := fun e => hx (by simp [e])
  have hlast := seg_prev hr.seg
  have hnd : (h :: (xs ++ [x])).Nodup := by
    rw [← List.cons_append, List.nodup_append]
    exact ⟨hr.nodup, by simp, fun y hy z hz => by simp at hz; subst hz; exact fun e => hx (e ▸ hy)⟩
  refine ⟨?_, hnd⟩
  rcases List.eq_nil_or_concat xs with rfl | ⟨ys, y, rfl⟩
  · have hp : l.prev h = h := hlast
    simp [Seg, listAddTail, listAdd, hp, hxh, Ne.symm hxh]
  · rw [List.concat_eq_append] at *
    have hp : l.prev h = y := by rw [hlast]; simp
    have hseg := (seg_append l).mp hr.seg
    have hyx : y ≠ x := fun e => hx (by simp [e])
    have hyh : y ≠ h := by
      have := hr.nodup; simp only [List.nodup_cons, List.mem_append, List.mem_singleton, not_or] at this
      exact Ne.symm this.1.2
    have hydist : y ∉ ys := by
      have := (List.nodup_cons.mp hr.nodup).2
      rw [List.nodup_append] at this
      exact fun hm => this.2.2 y hm y (by simp) rfl
    rw [List.append_assoc]
    refine (seg_append _).mpr ⟨seg_frame ?_ ?_ hseg.1, ?_⟩
    · intro z hz
      have hzx : z ≠ x := fun e => hx (by subst e; rcases List.mem_cons.mp hz with rfl | hz <;> simp_all)
      have hzy : z ≠ y := by
        rintro rfl
        rcases List.mem_cons.mp hz with e | hz
        · exact hyh e
        · exact hydist hz
      simp [listAddTail, listAdd, hp, hzy, hzx]
    · intro z hz
      have hzx : z ≠ x := fun e => hx (by subst e; rcases List.mem_cons.mp hz with rfl | hz <;> simp_all)
      have hzh : z ≠ h := by
        rintro rfl
        rcases List.mem_cons.mp hz with e | hz
        · exact hyh e.symm
        · exact (List.nodup_cons.mp hr.nodup).1 (by simp [hz])
      simp [listAddTail, listAdd, hzx, hzh]
    · simp [Seg, listAddTail, listAdd, hp, Ne.symm hxh, Ne.symm hyx]

theorem ring_addTail_other {l : Links α} {h x g : α} {xs ys : List α} (hr : Ring l h xs) (hg : Ring l g ys)
    (hd : ∀ y ∈ g :: ys, y ∉ h :: xs) (hx : x ∉ g :: ys) : Ring (listAddTail l x h) g ys := by
  have hlast : l.prev h ∈ h :: xs := by
    rw [seg_prev hr.seg]
    rcases List.eq_nil_or_concat xs with rfl | ⟨zs, z, rfl⟩ <;> simp
  refine ring_frame ?_ ?_ hg <;>
  · intro y hy
    have h1 : y ≠ x := fun e => hx (e ▸ hy)
    have h2 : y ≠ l.prev h := fun e => hd y hy (e ▸ hlast)
    have h3 : y ≠ h := fun e => hd y hy (by simp [e])
    simp [listAddTail, listAdd, h1, h2, h3]

theorem ring_del {l : Links α} {h y : α} {xs ys : List α} (hr : Ring l h (xs ++ y :: ys)) :
    Ring (listDel l y) h (xs ++ ys) := by
  obtain ⟨hs1, hs2⟩ := (seg_append l).mp hr.seg
  have hnd := hr.nodup
  have hperm : (h :: (xs ++ y :: ys)).Perm (y :: h :: (xs ++ ys)) := by
    rw [← List.cons_append, ← List.cons_append]
    exact List.perm_middle
  have hnd' := hperm.nodup_iff.mp hnd
  obtain ⟨hyn, hnd2⟩ := List.nodup_cons.mp hnd'
  have hyh : y ≠ h := fun e => hyn (by simp [e])
  have hp : l.prev y = xs.getLastD h := seg_prev hs1
  have hn : l.next y = ys.headD h := seg_next hs2
  have hl : ∀ z, (listDel l y).next z = if z = y then y else if z = xs.getLastD h then ys.headD h else l.next z := by
    intro z; simp [listDel, listUnlink, initListHead, hp, hn, Function.update_apply]
  have hl' : ∀ z, (listDel l y).prev z = if z = y then y else if z = ys.headD h then xs.getLastD h else l.prev z := by
    intro z; simp [listDel, listUnlink, initListHead, hp, hn, Function.update_apply]
  refine ⟨?_, hnd2⟩
  have hnx : ∀ z ∈ h :: (xs ++ ys), z ≠ y := fun z hz e => hyn (e ▸ hz)
  -- the two sides of `y` keep their inner links; only the joint changes
  rcases List.eq_nil_or_concat xs with rfl | ⟨zs, z, rfl⟩
  · cases ys with
    | nil => simp [Seg, hl, hl', Ne.symm hyh]
    | cons w ws =>
      have hwy : w ≠ y := hnx w (by simp)
      simp only [List.nil_append] at hnd2 hnx ⊢
      refine ⟨by simp [hl, Ne.symm hyh], by simp [hl', hwy], seg_frame ?_ ?_ hs2.2.2⟩
      · intro v hv
        have hvh : v ≠ h := fun e => (List.nodup_cons.mp hnd2).1 (e ▸ hv)
        simp [hl, hnx v (by simp_all), hvh]
      · intro v hv
        have hvw : v ≠ w := by
          rintro rfl
          rcases List.mem_cons.mp hv with e | hv
          · exact (List.nodup_cons.mp hnd2).1 (by simp [e])
          · exact (List.nodup_cons.mp (List.nodup_cons.mp hnd2).2).1 hv
        simp [hl', hnx v (by rcases List.mem_cons.mp hv with rfl | hv <;> simp_all), hvw]
  · rw [List.concat_eq_append] at *
    obtain ⟨ha, hb⟩ := (seg_append l).mp hs1
    have hzy : z ≠ y := hnx z (by simp)
    have hlast : (zs ++ [z]).getLastD h = z := by simp
    rw [hlast] at hl hl'
    have hndz : (z :: h :: (zs ++ ys)).Nodup := by
      refine (List.Perm.nodup_iff ?_).mp hnd2
      rw [List.append_assoc, ← List.cons_append]
      exact List.perm_middle
    obtain ⟨hzn, hndh⟩ := List.nodup_cons.mp hndz
    rw [List.append_assoc]
    refine (seg_append _).mpr ⟨seg_frame ?_ ?_ ha, ?_⟩
    · intro v hv
      have hvz : v ≠ z := fun e => hzn (by subst e; rcases List.mem_cons.mp hv with rfl | hv <;> simp_all)
      have hvy : v ≠ y := hnx v (by rcases List.mem_cons.mp hv with rfl | hv <;> simp_all)
      simp [hl, hvz, hvy]
    · intro v hv
      have hvy : v ≠ y := hnx v (by rcases List.mem_cons.mp hv with rfl | hv <;> simp_all)
      have hvw : v ≠ ys.headD h := by
        rintro e
        have hm : ys.headD h ∈ h :: ys := by cases ys <;> simp
        rw [← e] at hm
        rcases List.mem_cons.mp hv with rfl | hv
        · exact hzn (by simp only [List.mem_cons, List.mem_append] at hm ⊢; tauto)
        · rcases List.mem_cons.mp hm with rfl | hm
          · exact (List.nodup_cons.mp hndh).1 (by simp [hv])
          · exact (List.nodup_append.mp (List.nodup_cons.mp hndh).2).2.2 v hv v hm rfl
      rw [hl', if_neg hvy, if_neg hvw]
    · cases ys with
      | nil => simp [Seg, hl, hl', hzy, Ne.symm hyh]
      | cons w ws =>
        have hwy : w ≠ y := hnx w (by simp)
        refine ⟨by simp [hl, hzy], by simp [hl', hwy], seg_frame ?_ ?_ hs2.2.2⟩
        · intro v hv
          have hvz : v ≠ z := fun e => hzn (by subst e; simp_all)
          simp [hl, hnx v (by simp_all), hvz]
        · intro v hv
          have hvy : v ≠ y := hnx v (by rcases List.mem_cons.mp hv with rfl | hv <;> simp_all)
          have hvw : v ≠ w := by
            rintro rfl
            rcases List.mem_cons.mp hv with e | hv
            · exact (List.nodup_cons.mp hndh).1 (by simp [e])
            · exact (List.nodup_cons.mp (List.nodup_append.mp (List.nodup_cons.mp hndh).2).2.1).1 hv
          simp [hl', hvy, hvw]

theorem ring_del_other {l : Links α} {h y g : α} {xs ys zs : List α} (hr : Ring l h (xs ++ y :: ys))
    (hg : Ring l g zs) (hd : ∀ z ∈ g :: zs, z ∉ h :: (xs ++ y :: ys)) : Ring (listDel l y) g zs := by
  obtain ⟨hs1, hs2⟩ := (seg_append l).mp hr.seg
  have hp : l.prev y ∈ h :: (xs ++ y :: ys) := by
    rw [seg_prev hs1]
    rcases List.eq_nil_or_concat xs with rfl | ⟨ws, w, rfl⟩ <;> simp
  have hn : l.next y ∈ h :: (xs ++ y :: ys) := by
    rw [seg_next hs2]
    cases ys <;> simp
  refine ring_frame ?_ ?_ hg <;>
  · intro z hz
    have h1 : z ≠ y := fun e => hd z hz (by simp [e])
    have h2 : z ≠ l.prev y := fun e => hd z hz (e ▸ hp)
    have h3 : z ≠ l.next y := fun e => hd z hz (e ▸ hn)
    simp [listDel, listUnlink, initListHead, h1, h2, h3]

end Myos.Lib.ListHead
