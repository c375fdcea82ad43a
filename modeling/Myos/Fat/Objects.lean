/-
  Myos.Fat.Objects — the files and directories of a volume: their first clusters, and the
  chains of those.

  Proved: what keeps a volume sound: a change that its objects do not see, a new object, a
  longer chain, a new or a deleted entry, and freeing an object without entry.
-/

import Myos.Fat.Slots

namespace Myos.Fat

open Lib Fat32Inner Fat32Inode

/-- The objects by their first clusters: whether each is a directory, and its chain. -/
abbrev Objects := Nat → Option (Bool × List Nat)

variable {v : Fat32Inner} {d d' : Device} {objs : Objects} {b : Bool} {k n x y i j : Nat} {l l2 : List Nat} {src : List UInt8}

/-- A live slot of a directory. -/
def Entry (v : Fat32Inner) (d : Device) (objs : Objects) (x i : Nat) : Prop :=
  ∃ k l, objs k = some (true, l) ∧ SlotIn v l x i ∧ live (v.readCluster d x) i = true

/-- The objects have chains of their own, the root is one of them, and each of the others has one
    entry at most; an entry with a cluster is that of an object. -/
structure Sound (v : Fat32Inner) (d : Device) (objs : Objects) : Prop where
  wf : v.WellFormed
  reserved : fatEoc ≤ v.readFatEntry d 0
  chain : ∀ k b l, objs k = some (b, l) → FatChain v d k l
  nonempty : ∀ k b l, objs k = some (b, l) → l ≠ []
  apart : ∀ k b l k' b' l', objs k = some (b, l) → objs k' = some (b', l') → k ≠ k' → ∀ x ∈ l, x ∉ l'
  root : ∃ l, objs v.rootClus = some (true, l)
  entry : ∀ x i, Entry v d objs x i → 2 ≤ entCluster (v.readCluster d x) i → entCluster (v.readCluster d x) i ≠ v.rootClus ∧
    ∃ l, objs (entCluster (v.readCluster d x) i) = some (entIsDir (v.readCluster d x) i, l)
  once : ∀ x i y j, Entry v d objs x i → Entry v d objs y j → 2 ≤ entCluster (v.readCluster d x) i →
    entCluster (v.readCluster d x) i = entCluster (v.readCluster d y) j → x = y ∧ i = j

namespace Sound

theorem first_mem (h : Sound v d objs) (hk : objs k = some (b, l)) : k ∈ l := by
  obtain ⟨y, l', rfl⟩ := List.exists_cons_of_ne_nil (h.nonempty k b l hk)
  rw [(h.chain k b _ hk).cons.1]
  exact List.mem_cons_self ..

theorem range (h : Sound v d objs) (hk : objs k = some (b, l)) : 2 ≤ k ∧ k < v.total := (h.chain k b l hk).range k (h.first_mem hk)

/-- A free cluster is not in the chain of an object. -/
theorem not_mem (h : Sound v d objs) (hx : v.readFatEntry d x = 0) (hk : objs k = some (b, l)) : x ∉ l :=
  fun hm => (h.chain k b l hk).allocated hm hx

theorem free_none (h : Sound v d objs) (hn : v.readFatEntry d n = 0) : objs n = none := by
  cases ho : objs n with
  | none => rfl
  | some o => exact absurd (h.first_mem (b := o.1) (l := o.2) ho) (h.not_mem hn ho)

/-- A cluster is in one chain. -/
theorem owner_unique (h : Sound v d objs) {k' : Nat} {b' : Bool} {l' : List Nat} (hk : objs k = some (b, l)) (hk' : objs k' = some (b', l'))
    (hx : x ∈ l) (hx' : x ∈ l') : k = k' ∧ b = b' ∧ l = l' := by
  by_cases he : k = k'
  · subst he
    have := hk.symm.trans hk'
    rw [Option.some.injEq, Prod.mk.injEq] at this
    exact ⟨rfl, this⟩
  · exact absurd hx' (h.apart k b l k' b' l' hk hk' he x hx)

/-- What the objects do not see. -/
theorem same (h : Sound v d objs) (h0 : v.readFatEntry d' 0 = v.readFatEntry d 0)
    (hf : ∀ k b l, objs k = some (b, l) → ∀ x ∈ l, v.readFatEntry d' x = v.readFatEntry d x)
    (hs : ∀ k l, objs k = some (true, l) → ∀ x i, SlotIn v l x i → SlotEq (v.readCluster d x) (v.readCluster d' x) i) :
    Sound v d' objs := by
  have hE : ∀ {x i}, Entry v d' objs x i → Entry v d objs x i ∧ SlotEq (v.readCluster d x) (v.readCluster d' x) i := by
    intro x i ⟨k, l, hk, hsl, hl⟩
    have he := hs k l hk x i hsl
    exact ⟨⟨k, l, hk, hsl, he.live ▸ hl⟩, he⟩
  refine ⟨h.wf, h0 ▸ h.reserved, fun k b l hk => (h.chain k b l hk).congr (hf k b l hk), h.nonempty, h.apart, h.root,
    fun x i he => ?_, fun x i y j hx hy => ?_⟩
  · obtain ⟨he, hq⟩ := hE he
    rw [hq.entCluster, hq.entIsDir]
    exact h.entry x i he
  · obtain ⟨hx, hqx⟩ := hE hx
    obtain ⟨hy, hqy⟩ := hE hy
    rw [hqx.entCluster, hqy.entCluster]
    exact h.once x i y j hx hy

end Sound

theorem update_eq_some {o : Option (Bool × List Nat)} {p : Bool × List Nat} (h : Function.update objs n o k = some p) :
    k = n ∧ o = some p ∨ k ≠ n ∧ objs k = some p := by
  by_cases hk : k = n
  · subst hk
    rw [Function.update_self] at h
    exact Or.inl ⟨rfl, h⟩
  · rw [Function.update_of_ne hk] at h
    exact Or.inr ⟨hk, h⟩

/-- An object without live slots adds no entry. -/
theorem Entry.of_insert (h : Entry v d (Function.update objs n (some (b, l))) x i)
    (hs : b = true → ∀ x i, SlotIn v l x i → live (v.readCluster d x) i = false) : Entry v d objs x i := by
  obtain ⟨k, l', hk, hsl, hl⟩ := h
  rcases update_eq_some hk with ⟨-, ho⟩ | ⟨-, hk⟩
  · cases ho
    rw [hs rfl x i hsl] at hl
    cases hl
  · exact ⟨k, l', hk, hsl, hl⟩

namespace Sound

/-- An object that has no entry yet. -/
theorem insert (h : Sound v d objs) (hn : objs n = none) (hc : FatChain v d n l) (h0 : l ≠ [])
    (ha : ∀ k b l', objs k = some (b, l') → ∀ x ∈ l', x ∉ l)
    (hs : b = true → ∀ x i, SlotIn v l x i → live (v.readCluster d x) i = false) :
    Sound v d (Function.update objs n (some (b, l))) := by
  have hkeep : ∀ {k o}, objs k = some o → Function.update objs n (some (b, l)) k = some o := by
    intro k o hk
    have hkn : k ≠ n := fun e => by rw [e, hn] at hk; cases hk
    rw [Function.update_of_ne hkn]
    exact hk
  refine ⟨h.wf, h.reserved, fun k b' l' hk => ?_, fun k b' l' hk => ?_, fun k b1 l1 k' b2 l2 hk hk' hne x hx hx' => ?_, ?_,
    fun x i he h2 => ?_, fun x i y j hx hy => h.once x i y j (hx.of_insert hs) (hy.of_insert hs)⟩
  · rcases update_eq_some hk with ⟨rfl, ho⟩ | ⟨-, hk⟩
    · cases ho
      exact hc
    · exact h.chain k b' l' hk
  · rcases update_eq_some hk with ⟨-, ho⟩ | ⟨-, hk⟩
    · cases ho
      exact h0
    · exact h.nonempty k b' l' hk
  · rcases update_eq_some hk with ⟨he, ho⟩ | ⟨-, h1⟩
    · cases ho
      rcases update_eq_some hk' with ⟨he', -⟩ | ⟨-, h2⟩
      · exact hne (he.trans he'.symm)
      · exact ha k' b2 l2 h2 x hx' hx
    · rcases update_eq_some hk' with ⟨-, ho⟩ | ⟨-, h2⟩
      · cases ho
        exact ha k b1 l1 h1 x hx hx'
      · exact h.apart k b1 l1 k' b2 l2 h1 h2 hne x hx hx'
  · obtain ⟨lr, hr⟩ := h.root
    exact ⟨lr, hkeep hr⟩
  · obtain ⟨hr, l', ho⟩ := h.entry x i (he.of_insert hs) h2
    exact ⟨hr, l', hkeep ho⟩

theorem grow_data (h : Sound v d objs) (hE : Extended v n d l d' l2) {k : Nat} {b : Bool} {l' : List Nat} (hk : objs k = some (b, l'))
    (hx : x ∈ l') : v.readCluster d' x = v.readCluster d x :=
  hE.data x ((h.chain k b l' hk).range x hx).1 fun h2 => h.not_mem (hE.fresh x h2) hk hx

/-- Clusters without live slots add no entry. -/
theorem of_grow (h : Sound v d objs) (hn : objs n = some (b, l)) (hE : Extended v n d l d' l2)
    (hs : b = true → ∀ x i, SlotIn v l2 x i → live (v.readCluster d' x) i = false)
    (he : Entry v d' (Function.update objs n (some (b, l ++ l2))) x i) : Entry v d objs x i ∧ v.readCluster d' x = v.readCluster d x := by
  obtain ⟨k, l', hk, hsl, hl⟩ := he
  rcases update_eq_some hk with ⟨rfl, ho⟩ | ⟨-, hk⟩
  · cases ho
    rcases List.mem_append.mp hsl.1 with hx | hx
    · have he := h.grow_data hE hn hx
      exact ⟨⟨k, l, hn, ⟨hx, hsl.2⟩, he ▸ hl⟩, he⟩
    · rw [hs rfl x i ⟨hx, hsl.2⟩] at hl
      cases hl
  · have he := h.grow_data hE hk hsl.1
    exact ⟨⟨k, l', hk, hsl, he ▸ hl⟩, he⟩

/-- An object got clusters that were free, without entries. -/
theorem grow (h : Sound v d objs) (hn : objs n = some (b, l)) (hE : Extended v n d l d' l2)
    (hs : b = true → ∀ x i, SlotIn v l2 x i → live (v.readCluster d' x) i = false) :
    Sound v d' (Function.update objs n (some (b, l ++ l2))) := by
  have hnot : ∀ {k b' l'}, objs k = some (b', l') → ∀ x ∈ l', x ∉ l2 := fun hk x hx h2 => h.not_mem (hE.fresh x h2) hk hx
  have hkeep : ∀ {k b' l'}, objs k = some (b', l') → ∃ l'', Function.update objs n (some (b, l ++ l2)) k = some (b', l'') := by
    intro k b' l' hk
    by_cases hkn : k = n
    · subst hkn
      cases hn.symm.trans hk
      exact ⟨l ++ l2, Function.update_self ..⟩
    · exact ⟨l', (Function.update_of_ne hkn ..).trans hk⟩
  refine ⟨h.wf, ?_, fun k b' l' hk => ?_, fun k b' l' hk => ?_, fun k b1 l1 k' b2 l3 hk hk' hne x hx hx' => ?_, ?_,
    fun x i he h2 => ?_, fun x i y j hx hy => ?_⟩
  · have h0 : ∀ {m : List Nat}, FatChain v d' n m → 0 ∉ m := fun hm h0 => absurd (hm.range 0 h0).1 (by decide)
    have := h.wf.root_lt
    rw [hE.fat 0 (by omega) (fun hm => h0 hE.chain (List.mem_append_left _ hm)) fun hm => h0 hE.chain (List.mem_append_right _ hm)]
    exact h.reserved
  · rcases update_eq_some hk with ⟨rfl, ho⟩ | ⟨hkn, hk⟩
    · cases ho
      exact hE.chain
    · exact hE.other (h.chain k b' l' hk) fun x hx => h.apart k b' l' n b l hk hn hkn x hx
  · rcases update_eq_some hk with ⟨-, ho⟩ | ⟨-, hk⟩
    · cases ho
      exact fun e => h.nonempty n b l hn (List.append_eq_nil_iff.mp e).1
    · exact h.nonempty k b' l' hk
  · rcases update_eq_some hk with ⟨he, ho⟩ | ⟨hkn, h1⟩
    · cases ho
      rcases update_eq_some hk' with ⟨he', -⟩ | ⟨hkn', h2⟩
      · exact hne (he.trans he'.symm)
      · rcases List.mem_append.mp hx with hx | hx
        · exact h.apart n b l k' b2 l3 hn h2 (Ne.symm hkn') x hx hx'
        · exact hnot h2 x hx' hx
    · rcases update_eq_some hk' with ⟨-, ho⟩ | ⟨-, h2⟩
      · cases ho
        rcases List.mem_append.mp hx' with hx' | hx'
        · exact h.apart k b1 l1 n b l h1 hn hkn x hx hx'
        · exact hnot h1 x hx hx'
      · exact h.apart k b1 l1 k' b2 l3 h1 h2 hne x hx hx'
  · obtain ⟨lr, hr⟩ := h.root
    exact hkeep hr
  · obtain ⟨he, hq⟩ := h.of_grow hn hE hs he
    rw [hq] at h2 ⊢
    obtain ⟨hr, l', ho⟩ := h.entry x i he h2
    exact ⟨hr, hkeep ho⟩
  · obtain ⟨hx, hqx⟩ := h.of_grow hn hE hs hx
    obtain ⟨hy, hqy⟩ := h.of_grow hn hE hs hy
    rw [hqx, hqy]
    exact h.once x i y j hx hy

section

variable {buf : Buf}

theorem slot_self (hs : SlotIn v l x i) (hlen : src.length ≤ 32) (hbuf : buf = Buf.copyAt (v.readCluster d x) i src) :
    v.readCluster (v.writeCluster d x buf) x = buf := by
  have hmem := mem_slots.mp hs.2
  refine readCluster_writeCluster_self ?_
  rw [hbuf]
  exact (readCluster_clipped v d x).copyAt (by omega)

/-- The other slots of directories. -/
theorem slot_other (h : Sound v d objs) (hk : objs k = some (true, l)) (hs : SlotIn v l x i) (hlen : src.length ≤ 32)
    (hbuf : buf = Buf.copyAt (v.readCluster d x) i src) {k' : Nat} {l' : List Nat} (hk' : objs k' = some (true, l')) (hj : SlotIn v l' y j)
    (hne : ¬ (y = x ∧ j = i)) : SlotEq (v.readCluster d y) (v.readCluster (v.writeCluster d x buf) y) j := by
  by_cases hyx : y = x
  · subst hyx
    rw [slot_self hs hlen hbuf, hbuf]
    exact .copyAt hs.2 hj.2 (fun e => hne ⟨rfl, e⟩) hlen _
  · rw [readCluster_writeCluster_of_ne ((h.chain k true l hk).range x hs.1).1 ((h.chain k' true l' hk').range y hj.1).1 hyx]
    exact .refl _ _

/-- An entry is the slot written or as before. -/
theorem of_slot (h : Sound v d objs) (hk : objs k = some (true, l)) (hs : SlotIn v l x i) (hlen : src.length ≤ 32)
    (hbuf : buf = Buf.copyAt (v.readCluster d x) i src) (he : Entry v (v.writeCluster d x buf) objs y j) :
    (y = x ∧ j = i) ∧ live buf i = true ∨ ¬ (y = x ∧ j = i) ∧ Entry v d objs y j ∧
      SlotEq (v.readCluster d y) (v.readCluster (v.writeCluster d x buf) y) j := by
  obtain ⟨k', l', hk', hsl, hlv⟩ := he
  by_cases hyx : y = x ∧ j = i
  · refine Or.inl ⟨hyx, ?_⟩
    rw [hyx.1, hyx.2, slot_self hs hlen hbuf] at hlv
    exact hlv
  · have hq := h.slot_other hk hs hlen hbuf hk' hsl hyx
    exact Or.inr ⟨hyx, ⟨k', l', hk', hsl, hq.live ▸ hlv⟩, hq⟩

/-- One slot of a directory was written; if it is live then it is the only entry of its object. -/
theorem slot (h : Sound v d objs) (hk : objs k = some (true, l)) (hs : SlotIn v l x i) (hlen : src.length ≤ 32)
    (hbuf : buf = Buf.copyAt (v.readCluster d x) i src)
    (hl : live buf i = true → 2 ≤ entCluster buf i → entCluster buf i ≠ v.rootClus ∧ (∃ l', objs (entCluster buf i) = some (entIsDir buf i, l')) ∧
      ∀ y j, Entry v d objs y j → entCluster (v.readCluster d y) j = entCluster buf i → y = x ∧ j = i) :
    Sound v (v.writeCluster d x buf) objs := by
  have hself := slot_self (v := v) (d := d) hs hlen hbuf
  have hfat : ∀ y, y < v.total → v.readFatEntry (v.writeCluster d x buf) y = v.readFatEntry d y :=
    fun y hy => readFatEntry_writeCluster h.wf hy
  refine ⟨h.wf, ?_, fun k b l hk => (h.chain k b l hk).congr fun y hy => hfat y ((h.chain k b l hk).range y hy).2, h.nonempty, h.apart, h.root,
    fun y j he => ?_, fun y j y' j' he he' => ?_⟩
  · have := h.wf.root_lt
    rw [hfat 0 (by omega)]
    exact h.reserved
  · rcases h.of_slot hk hs hlen hbuf he with ⟨⟨rfl, rfl⟩, hlv⟩ | ⟨-, he, hq⟩
    · rw [hself]
      exact fun h2 => ⟨(hl hlv h2).1, (hl hlv h2).2.1⟩
    · rw [hq.entCluster, hq.entIsDir]
      exact h.entry y j he
  · rcases h.of_slot hk hs hlen hbuf he with ⟨⟨rfl, rfl⟩, hlv⟩ | ⟨hn, h1, hq⟩
    · rcases h.of_slot hk hs hlen hbuf he' with ⟨⟨rfl, rfl⟩, -⟩ | ⟨hn', h2, hq'⟩
      · exact fun _ _ => ⟨rfl, rfl⟩
      · rw [hself, hq'.entCluster]
        intro hge heq
        exact absurd ((hl hlv hge).2.2 y' j' h2 heq.symm) hn'
    · rcases h.of_slot hk hs hlen hbuf he' with ⟨⟨rfl, rfl⟩, hlv⟩ | ⟨-, h2, hq'⟩
      · rw [hself, hq.entCluster]
        intro hge heq
        exact absurd ((hl hlv (heq ▸ hge)).2.2 y j h1 heq) hn
      · rw [hq.entCluster, hq'.entCluster]
        exact h.once y j y' j' h1 h2

end

/-- An object without entry was freed. -/
theorem delete (h : Sound v d objs) (hn : objs n = some (b, l)) (hr : n ≠ v.rootClus)
    (he : ∀ x i, Entry v d objs x i → entCluster (v.readCluster d x) i ≠ n)
    (hf : ∀ x, x < v.total → v.readFatEntry d' x = if x ∈ l then 0 else v.readFatEntry d x)
    (hd : ∀ x, v.readCluster d' x = v.readCluster d x) : Sound v d' (Function.update objs n none) := by
  have hsub : ∀ {k b' l'}, Function.update objs n none k = some (b', l') → k ≠ n ∧ objs k = some (b', l') := by
    intro k b' l' hk
    rcases update_eq_some hk with ⟨-, ho⟩ | hk
    · cases ho
    · exact hk
  have hE : ∀ {x i}, Entry v d' (Function.update objs n none) x i → Entry v d objs x i := by
    intro x i ⟨k, l', hk, hsl, hl⟩
    exact ⟨k, l', (hsub hk).2, hsl, hd x ▸ hl⟩
  have hkeep : ∀ {k o}, k ≠ n → objs k = some o → Function.update objs n none k = some o := fun hkn hk => by
    rw [Function.update_of_ne hkn]
    exact hk
  refine ⟨h.wf, ?_, fun k b' l' hk => ?_, fun k b' l' hk => h.nonempty k b' l' (hsub hk).2,
    fun k b1 l1 k' b2 l2 hk hk' => h.apart k b1 l1 k' b2 l2 (hsub hk).2 (hsub hk').2, ?_, fun x i hx => ?_, fun x i y j hx hy => ?_⟩
  · have := h.wf.root_lt
    rw [hf 0 (by omega), if_neg fun h0 => absurd ((h.chain n b l hn).range 0 h0).1 (by decide)]
    exact h.reserved
  · obtain ⟨hkn, hk⟩ := hsub hk
    refine (h.chain k b' l' hk).congr fun x hx => ?_
    rw [hf x ((h.chain k b' l' hk).range x hx).2, if_neg (h.apart k b' l' n b l hk hn hkn x hx)]
  · obtain ⟨lr, hl⟩ := h.root
    exact ⟨lr, hkeep (Ne.symm hr) hl⟩
  · rw [hd x]
    intro h2
    obtain ⟨hroot, l', ho⟩ := h.entry x i (hE hx) h2
    exact ⟨hroot, l', hkeep (he x i (hE hx)) ho⟩
  · rw [hd x, hd y]
    exact h.once x i y j (hE hx) (hE hy)

end Sound

end Myos.Fat
