/-
  Myos.Fat.TreeSteps — every call on a volume that holds a tree is a step of the tree.

  Proved: a call that is proper returns, what the volume holds then is a step of what it held,
  and a run of such calls is a run of steps.
-/

import Myos.Fat.Tree

namespace Myos.Fat

open Lib Fat32Inner Fat32Inode

variable {v : Fat32Inner} {d d' d1 : Device} {objs : Objects} {b : Bool} {k n x y i j : Nat} {l l2 : List Nat} {raw : List UInt8}
  {name : Str} {isDir : Bool} {ino D : Fat32Inode} {q : Nat × Nat} {e : Named} {buf : Buf}

/-! ## A new entry -/

/-- Where a new entry goes: the first unused slot of the directory, which has got the clusters `l2`. -/
structure EntryPlace (v : Fat32Inner) (d : Device) (first : Nat) (l : List Nat) (d1 : Device) (l2 : List Nat) (q : Nat × Nat) : Prop where
  extended : Extended v first d l d1 l2
  used : l2 = [] ∨ ∀ x i, SlotIn v l x i → unused (v.readCluster d x) i = false
  first : (places v (l ++ l2)).find? (fun r => unused (v.readCluster d1 r.1) r.2) = some q
  free : freeClusters v d = l2 ++ freeClusters v d1
  length : l2.length ≤ 1

theorem no_free (hv : v.WellFormed) (h : ∀ c, 2 ≤ c → c < v.total → v.readFatEntry d c ≠ 0) : freeClusters v d = [] := by
  apply List.eq_nil_iff_forall_not_mem.mpr
  intro c hc
  obtain ⟨h2, hlt, h0⟩ := (mem_freeClusters hv).mp hc
  exact h c h2 hlt h0

theorem find?_unused_none (h : (places v l).find? (fun r => unused (v.readCluster d r.1) r.2) = none) (hs : SlotIn v l x i) :
    unused (v.readCluster d x) i = false := by
  have := List.find?_eq_none.mp h (x, i) (mem_places.mpr hs)
  exact Bool.eq_false_iff.mpr this

theorem addEntry_place (hv : v.WellFormed) (hc : FatChain v d D.firstCluster l) (h0 : l ≠ []) (raw : List UInt8) :
    (∃ d1 l2 q, EntryPlace v d D.firstCluster l d1 l2 q ∧
      addEntry v d D raw = some (.ok (), v.writeCluster d1 q.1 (Buf.copyAt (v.readCluster d1 q.1) q.2 raw))) ∨
      addEntry v d D raw = some (.error "no free clusters", d) ∧ freeClusters v d = [] := by
  obtain ⟨y, lt, rfl⟩ := List.exists_cons_of_ne_nil h0
  have h2 : D.firstCluster ≥ 2 := (hc.cons).1 ▸ (hc.range y (List.mem_cons_self ..)).1
  unfold addEntry
  rw [scanChain_places _ hc hv, Option.bind_some]
  cases hf : (places v (y :: lt)).find? fun r => unused (v.readCluster d r.1) r.2 with
  | some q => exact Or.inl ⟨d, [], q, ⟨.refl hc, Or.inl rfl, by rw [List.append_nil]; exact hf, rfl, Nat.zero_le 1⟩, rfl⟩
  | none =>
    have hno : ∀ x i, SlotIn v (y :: lt) x i → unused (v.readCluster d x) i = false := fun x i hs => find?_unused_none hf hs
    cases ha : v.allocCluster d with
    | error e =>
      obtain rfl := allocCluster_error_eq ha
      exact Or.inr ⟨rfl, no_free hv (allocCluster_error hv ha)⟩
    | ok r =>
      obtain ⟨newc, d1⟩ := r
      have ht := allocCluster_ok hv ha
      obtain ⟨l0, z, hl⟩ := exists_concat h0
      have hc' := hl ▸ hc
      have hct := ht.chain hc'
      have htail : v.chainTail d1 chainFuel D.firstCluster = some z :=
        chainTail_eq hct (by have := hct.length_lt hv; rw [List.length_append] at this; omega)
      have hE : Extended v D.firstCluster d (y :: lt) (v.writeFatEntry d1 z newc) [newc] := hl ▸ Extended.one hc' hv ht
      have hz : v.readCluster (v.writeFatEntry d1 z newc) newc = zeroBuf := hE.zero newc (List.mem_singleton_self _)
      have hlink : freeClusters v (v.writeFatEntry d1 z newc) = freeClusters v d1 :=
        freeClusters_link hv (hc'.range z (by simp)).2 (hct.allocated (by simp)) (Nat.lt_of_lt_of_le (by decide) ht.lower) ht.upper
      -- all slots in front of the new cluster are taken
      have hfirst : (places v (y :: lt ++ [newc])).find? (fun r => unused (v.readCluster (v.writeFatEntry d1 z newc) r.1) r.2) =
          some (newc, 0) := by
        have hold : (places v (y :: lt)).find? (fun r => unused (v.readCluster (v.writeFatEntry d1 z newc) r.1) r.2) = none := by
          apply List.find?_eq_none.mpr
          intro r hr
          have hs := mem_places.mp hr
          rw [hE.data r.1 (hc.range r.1 hs.1).1 fun hm => hc.allocated hs.1 (hE.fresh r.1 hm), hno r.1 r.2 hs]
          exact Bool.false_ne_true
        have hnew : places v [newc] = (newc, 0) :: (places v [newc]).tail := by
          have hpos := hv.secPerClus
          have : v.clusBytes / 32 = (v.clusBytes / 32 - 1) + 1 := by
            unfold clusBytes
            omega
          unfold places slots
          rw [this, List.range_succ_eq_map]
          rfl
        rw [places_append, List.find?_append, hold, Option.none_or, hnew, List.find?_cons_of_pos]
        rw [hz]
        exact zero_unused 0
      refine Or.inl ⟨_, [newc], (newc, 0), ⟨hE, Or.inr hno, hfirst, ?_, Nat.le_refl 1⟩, ?_⟩
      · rw [hlink, allocCluster_next hv ha]
        rfl
      · dsimp only
        rw [if_pos h2, htail, Option.map_some, Option.map_some, hz]

/-- Nothing happened, or the node was set up and got an entry, or the last cluster was lost. -/
theorem create_place (hv : v.WellFormed) (hdir : D.isDir = true) (hc : FatChain v d D.firstCluster l) (h0 : l ≠ []) (name : Str)
    (isDir : Bool) :
    (∃ e, D.create v d name isDir = some (.error e, d) ∧ (encodeShortName name = .error e ∨ freeClusters v d = [])) ∨
      ∃ raw n d1, encodeShortName name = .ok raw ∧ Taken v d n d1 ∧ freeClusters v d = n :: freeClusters v d1 ∧
        ((∃ d2 l2 q, EntryPlace v (newObject v d1 n D.firstCluster isDir) D.firstCluster l d2 l2 q ∧
          D.create v d name isDir = some (.ok ⟨n, if isDir then v.clusBytes else 0, isDir⟩,
            v.writeCluster d2 q.1 (Buf.copyAt (v.readCluster d2 q.1) q.2 (rawEntry raw n isDir)))) ∨
          D.create v d name isDir = some (.error "no free clusters", newObject v d1 n D.firstCluster isDir) ∧ freeClusters v d1 = []) := by
  unfold Fat32Inode.create
  rw [hdir]
  cases henc : encodeShortName name with
  | error e => exact Or.inl ⟨e, rfl, Or.inl rfl⟩
  | ok raw =>
    cases ha : v.allocCluster d with
    | error e => exact Or.inl ⟨e, rfl, Or.inr (no_free hv (allocCluster_error hv ha))⟩
    | ok r =>
      obtain ⟨n, d1⟩ := r
      have ht := allocCluster_ok hv ha
      have hw := @newObject_written v d1 n isDir hv ht.lower D.firstCluster
      refine Or.inr ⟨raw, n, d1, rfl, ht, allocCluster_next hv ha, ?_⟩
      rcases addEntry_place hv (hw.chain (ht.chain hc)) h0 (rawEntry raw n isDir) with ⟨d2, l2, q, hp, he⟩ | ⟨he, hfree⟩
      · refine Or.inl ⟨d2, l2, q, hp, ?_⟩
        unfold newObject at he
        dsimp only
        rw [Bool.not_true, if_neg Bool.false_ne_true, he]
        rfl
      · refine Or.inr ⟨?_, ?_⟩
        · unfold newObject at he ⊢
          dsimp only
          rw [Bool.not_true, if_neg Bool.false_ne_true, he]
          rfl
        · rw [← hfree, freeClusters_congr hv fun x _ hx => by rw [hw.fat x hx]]

namespace Models

theorem range (h : Models v d objs) (hk : objs k = some (b, l)) : ∀ x ∈ l, 2 ≤ x := fun x hx => ((h.sound.chain k b l hk).range x hx).1

/-- What the nodes see stays. -/
theorem same (h : Models v d objs) (hS : Sound v d' objs) (hd : ∀ k l, objs k = some (true, l) → ∀ x ∈ l, v.readCluster d' x = v.readCluster d x) :
    Models v d' objs := by
  refine ⟨hS, fun k l hk => ((h.neat k l hk).table_congr (hd k l hk)).1, fun l hl q hq => ?_⟩
  rw [hd _ l hl q.1 (mem_places.mp hq).1]
  exact h.root l hl q hq

/-- A node without an entry is set up. -/
theorem newObject (h : Models v d objs) (ht : Taken v d n d1) (parent : Nat) (isDir : Bool) :
    Models v (newObject v d1 n parent isDir) (Function.update objs n (some (isDir, [n]))) ∧
      treeOf v (newObject v d1 n parent isDir) (Function.update objs n (some (isDir, [n]))) =
        Function.update (treeOf v d objs) n (some (newNode v.clusBytes isDir)) := by
  have hw := @newObject_written v d1 n isDir h.sound.wf ht.lower parent
  have hself := @newObject_self v d d1 n isDir h.sound.wf ht parent
  have hkeep : ∀ k b l, objs k = some (b, l) → ∀ x ∈ l, v.readCluster (Fat.newObject v d1 n parent isDir) x = v.readCluster d x := by
    intro k b l hk x hx
    have hne : x ≠ n := ne_of_mem_of_not_mem hx (h.sound.not_mem ht.free hk)
    rw [hw.data x (h.range hk x hx) (by simpa using hne), ht.data x (h.range hk x hx) hne]
  have hnr : v.rootClus ≠ n := by
    intro he
    obtain ⟨l, hl⟩ := h.sound.root
    rw [he, h.sound.free_none ht.free] at hl
    cases hl
  refine ⟨⟨h.sound.newObject ht parent isDir, fun k l hk => ?_, fun l hl q hq => ?_⟩, ?_⟩
  · rcases update_eq_some hk with ⟨-, ho⟩ | ⟨-, hk⟩
    · cases ho
      exact (dirInit_table hself).1
    · exact ((h.neat k l hk).table_congr (hkeep k true l hk)).1
  · rcases update_eq_some hl with ⟨he, -⟩ | ⟨-, hl⟩
    · exact absurd he hnr
    · rw [hkeep _ _ l hl q.1 (mem_places.mp hq).1]
      exact h.root l hl q hq
  · have hnode : nodeOf v (Fat.newObject v d1 n parent isDir) (isDir, [n]) = newNode v.clusBytes isDir := by
      cases isDir with
      | true => exact congrArg Node.dir (dirInit_table hself).2
      | false =>
        refine congrArg Node.file (List.ext_getElem (by simp [length_fileBytes, zeros]) fun p hp _ => ?_)
        rw [length_fileBytes, List.length_singleton, Nat.one_mul] at hp
        have hz : v.readCluster (Fat.newObject v d1 n parent false) n = zeroBuf := hself
        simp only [fileBytes, List.getElem_map, List.getElem_range, Nat.zero_add, zeros, List.getElem_replicate]
        rw [fileByte_cons_lt hp, hz]
        rfl
    rw [treeOf_update, Option.map_some, hnode]
    congr 1
    funext k
    cases ho : objs k with
    | none => rw [treeOf_none.2 ho, treeOf_none.2 ho]
    | some o => rw [treeOf_some ho, treeOf_some ho, nodeOf_congr h.sound.wf (hkeep k o.1 o.2 ho)]

/-- The node that was set up has no entry. -/
theorem newObject_noEntry (h : Models v d objs) (ht : Taken v d n d1) (parent : Nat) (isDir : Bool) {y j : Nat}
    (he : Entry v (Fat.newObject v d1 n parent isDir) (Function.update objs n (some (isDir, [n]))) y j) :
    entCluster (v.readCluster (Fat.newObject v d1 n parent isDir) y) j ≠ n := by
  have hw := @newObject_written v d1 n isDir h.sound.wf ht.lower parent
  have hold := he.of_insert fun hb x i hs => by
    rw [List.mem_singleton.mp hs.1, newObject_self h.sound.wf ht, if_pos hb]
    exact dirInit_live hs.2
  obtain ⟨k, l, hk, hs, hl⟩ := hold
  have hy : y ≠ n := ne_of_mem_of_not_mem hs.1 (h.sound.not_mem ht.free hk)
  have hsame : v.readCluster (Fat.newObject v d1 n parent isDir) y = v.readCluster d y := by
    rw [hw.data y (h.range hk y hs.1) (by simpa using hy), ht.data y (h.range hk y hs.1) hy]
  rw [hsame] at hl ⊢
  intro hc
  obtain ⟨-, l', ho⟩ := h.sound.entry y j ⟨k, l, hk, hs, hl⟩ (hc ▸ ht.lower)
  rw [hc, h.sound.free_none ht.free] at ho
  cases ho

/-- A directory without an unused slot gets cleared clusters. -/
theorem grow (h : Models v d objs) (hn : objs n = some (true, l)) (hE : Extended v n d l d' l2)
    (hu : l2 = [] ∨ ∀ x i, SlotIn v l x i → unused (v.readCluster d x) i = false) :
    Models v d' (Function.update objs n (some (true, l ++ l2))) ∧
      names v d' (l ++ l2) = names v d l ∧ treeOf v d' (Function.update objs n (some (true, l ++ l2))) = treeOf v d objs := by
  have hkeep : ∀ k b l', objs k = some (b, l') → ∀ x ∈ l', v.readCluster d' x = v.readCluster d x :=
    fun k b l' hk x hx => h.sound.grow_data hE hk hx
  have hzero : true = true → ∀ x i, SlotIn v l2 x i → live (v.readCluster d' x) i = false := fun _ x i hs => by
    rw [hE.zero x hs.1]
    exact unused_not_live (zero_unused i)
  obtain ⟨hold, hnames⟩ := (h.neat n l hn).table_congr (hkeep n true l hn)
  have hgrown : Neat v d' (l ++ l2) ∧ names v d' (l ++ l2) = names v d l := by
    rcases hu with rfl | hu
    · rw [List.append_nil]
      exact ⟨hold, hnames⟩
    · have hu' : ∀ x i, SlotIn v l x i → unused (v.readCluster d' x) i = false := fun x i hs => by
        rw [hkeep n true l hn x hs.1]
        exact hu x i hs
      obtain ⟨hN, hm⟩ := hold.append hE.chain.chain.nodup hu' hE.zero
      exact ⟨hN, hm.trans hnames⟩
  refine ⟨⟨h.sound.grow hn hE hzero, fun k l' hk => ?_, fun l' hl q hq => ?_⟩, hgrown.2, ?_⟩
  · rcases update_eq_some hk with ⟨-, ho⟩ | ⟨-, hk⟩
    · cases ho
      exact hgrown.1
    · exact ((h.neat k l' hk).table_congr (hkeep k true l' hk)).1
  · have hs := mem_places.mp hq
    rcases update_eq_some hl with ⟨he, ho⟩ | ⟨-, hl⟩
    · cases ho
      rcases List.mem_append.mp hs.1 with hx | hx
      · rw [hkeep n true l hn q.1 hx]
        exact h.root l (he ▸ hn) q (mem_places.mpr ⟨hx, hs.2⟩)
      · rw [hE.zero q.1 hx]
        exact show (0 : UInt8) ≠ dot by decide
    · rw [hkeep _ _ l' hl q.1 hs.1]
      exact h.root l' hl q hq
  · funext k
    by_cases hk : k = n
    · subst hk
      rw [treeOf_some hn, treeOf_some (Function.update_self ..)]
      exact congrArg (fun m => some (Node.dir m)) hgrown.2
    · have hup : Function.update objs n (some (true, l ++ l2)) k = objs k := Function.update_of_ne hk ..
      cases ho : objs k with
      | none => rw [treeOf_none.mpr ho, treeOf_none.mpr (hup.trans ho)]
      | some o => rw [treeOf_some ho, treeOf_some (hup.trans ho), nodeOf_congr h.sound.wf (hkeep k o.1 o.2 ho)]

/-- A slot of a directory was written. -/
theorem slotWritten (h : Models v d objs) (hn : objs n = some (true, l)) (hq : q ∈ places v l) {src : List UInt8}
    (hw : SlotWritten v d q k src d') (hS : Sound v d' objs) (hN : Neat v d' l) (hhead : Buf.copyAt (v.readCluster d q.1) k src q.2 ≠ dot) :
    Models v d' objs ∧ treeOf v d' objs = Function.update (treeOf v d objs) n (some (.dir (names v d' l))) := by
  have hslot := mem_places.mp hq
  have hother : ∀ y, 2 ≤ y → y ∉ l → v.readCluster d' y = v.readCluster d y :=
    fun y hy hyl => hw.cluster_other hy fun e => hyl (e ▸ hslot.1)
  have hkeep : ∀ k l', objs k = some (true, l') → k ≠ n → ∀ x ∈ l', v.readCluster d' x = v.readCluster d x :=
    fun k l' hk hkn x hx => hother x (h.range hk x hx) (h.sound.apart k true l' n true l hk hn hkn x hx)
  refine ⟨⟨hS, fun k l' hk => ?_, fun l' hl r hr => ?_⟩, treeOf_write h.sound hn hother⟩
  · by_cases hkn : k = n
    · rw [hkn, hn] at hk
      cases hk
      exact hN
    · exact ((h.neat k l' hk).table_congr (hkeep k l' hk hkn)).1
  · have hr' := mem_places.mp hr
    have hold := h.root l' hl r hr
    by_cases hkn : v.rootClus = n
    · by_cases hrq : r = q
      · rw [hrq, hw.self]
        exact hhead
      · have hsame := hw.bytes_other (h.range hl r.1 hr'.1) hr'.2 hrq 0 (by decide)
        rw [Nat.add_zero] at hsame
        rw [hsame]
        exact hold
    · rw [hkeep _ l' hl hkn r.1 hr'.1]
      exact hold

/-- A new entry of a node that has none is put into the first unused slot. -/
theorem put (h : Models v d objs) (hn : objs n = some (true, l))
    (hq : (places v l).find? (fun r => unused (v.readCluster d r.1) r.2) = some q) {src : List UInt8} (hlen : src.length = 32)
    (he : slotAt (Buf.copyAt (v.readCluster d q.1) q.2 src) q.2 = .used e) (hid : 2 ≤ e.id) (hne : e.name ≠ []) (hdot : e.name.head? ≠ some '.')
    (hs : noShort (entAttr (Buf.copyAt (v.readCluster d q.1) q.2 src) q.2) = false) (hnew : names v d l e.key = none)
    (hobj : ∃ l', objs e.id = some (e.isDir, l')) (hroot : e.id ≠ v.rootClus)
    (hno : ∀ y j, Entry v d objs y j → entCluster (v.readCluster d y) j ≠ e.id) :
    Models v (v.writeCluster d q.1 (Buf.copyAt (v.readCluster d q.1) q.2 src)) objs ∧
      treeOf v (v.writeCluster d q.1 (Buf.copyAt (v.readCluster d q.1) q.2 src)) objs =
        Function.update (treeOf v d objs) n (some (.dir (Function.update (names v d l) e.key (some e)))) := by
  have hmem := List.mem_of_find?_eq_some hq
  have hslot := mem_places.mp hmem
  have hw : SlotWritten v d q q.2 src (v.writeCluster d q.1 (Buf.copyAt (v.readCluster d q.1) q.2 src)) :=
    ⟨h.range hn q.1 hslot.1, hslot.2, Nat.le_refl _, by rw [hlen], rfl⟩
  obtain ⟨hN, hm⟩ := (h.neat n l hn).put (h.range hn) hw hq he hid hne hdot hs hnew
  obtain ⟨hl, rfl⟩ := slotAt_used.mp he
  have hS := h.sound.slot hn hslot hlen.le rfl fun _ _ => ⟨hroot, hobj, fun y j hy hc => absurd hc (hno y j hy)⟩
  rw [← hm]
  exact h.slotWritten hn hmem hw hS hN (live_head hl).2.2

/-- The entry of a slot. -/
theorem entryAt (h : Models v d objs) (hn : objs n = some (true, l)) (hq : q ∈ places v l) (he : slotOf v d q = .used e) :
    Entry v d objs q.1 q.2 ∧ entCluster (v.readCluster d q.1) q.2 = e.id ∧ 2 ≤ e.id ∧ e.id ≠ v.rootClus ∧ ∃ l', objs e.id = some (e.isDir, l') := by
  obtain ⟨hl, rfl⟩ := slotAt_used.mp he
  have hE : Entry v d objs q.1 q.2 := ⟨n, l, hn, mem_places.mp hq, hl⟩
  have h2 := ((h.neat n l hn).entry q hq _ he).1
  obtain ⟨hr, l', ho⟩ := h.sound.entry q.1 q.2 hE h2
  exact ⟨hE, rfl, h2, hr, l', ho⟩

theorem deleted_slot (buf : Buf) (i : Nat) : slotAt (Buf.copyAt buf i [0xE5]) i = .passed := by
  have h5 : Buf.copyAt buf i [0xE5] i = 0xE5 := Buf.copyAt_add (k := 0) (by decide)
  unfold slotAt
  rw [h5, unused_not_live (deleted_unused buf i), if_neg (by decide), if_neg Bool.false_ne_true]

/-- An entry was deleted; its node has none now. -/
theorem unlink (h : Models v d objs) (hn : objs n = some (true, l)) (hq : q ∈ places v l) (he : slotOf v d q = .used e)
    (hd : d1 = v.writeCluster d q.1 (Buf.copyAt (v.readCluster d q.1) q.2 [0xE5])) :
    Models v d1 objs ∧ treeOf v d1 objs = Function.update (treeOf v d objs) n (some (.dir (Function.update (names v d l) e.key none))) ∧
      ∀ x i, Entry v d1 objs x i → entCluster (v.readCluster d1 x) i ≠ e.id := by
  obtain ⟨hE, hc, h2, -, -⟩ := h.entryAt hn hq he
  have hslot := mem_places.mp hq
  have hdel := deleted_slot (v.readCluster d q.1) q.2
  have hdead := unused_not_live (deleted_unused (v.readCluster d q.1) q.2)
  have hw : SlotWritten v d q q.2 [0xE5] d1 := ⟨h.range hn q.1 hslot.1, hslot.2, Nat.le_refl _, by simp, hd⟩
  have hattr : entAttr (Buf.copyAt (v.readCluster d q.1) q.2 [0xE5]) q.2 = entAttr (v.readCluster d q.1) q.2 := Buf.copyAt_of_ge (by simp)
  obtain ⟨hN, hm⟩ := (h.neat n l hn).change (h.range hn) hw hq he (by rw [hdel]; exact nofun) hattr fun e' he' => by
    rw [hdel] at he'
    cases he'
  have hS : Sound v d1 objs := by
    rw [hd]
    refine h.sound.slot hn hslot (by simp) rfl fun hlive => ?_
    rw [hdead] at hlive
    cases hlive
  obtain ⟨hM, hT⟩ := h.slotWritten hn hq hw hS hN (by
    have h5 : Buf.copyAt (v.readCluster d q.1) q.2 [0xE5] q.2 = 0xE5 := Buf.copyAt_add (k := 0) (by decide)
    rw [h5]
    decide)
  rw [hdel] at hm
  refine ⟨hM, ?_, fun x i hx hxc => ?_⟩
  · rw [hT, hm]
    rfl
  · rw [hd] at hx hxc
    rcases h.sound.of_slot hn hslot (by simp) rfl hx with ⟨-, hlive⟩ | ⟨hne, hx, hqx⟩
    · rw [hdead] at hlive
      cases hlive
    · rw [hqx.entCluster] at hxc
      obtain ⟨h1, h2'⟩ := h.sound.once x i q.1 q.2 hx hE (hxc ▸ h2) (hxc.trans hc.symm)
      exact hne ⟨h1, h2'⟩

/-- A node without an entry is freed. -/
theorem delete (h : Models v d objs) (hn : objs n = some (b, l)) (hr : n ≠ v.rootClus)
    (he : ∀ x i, Entry v d objs x i → entCluster (v.readCluster d x) i ≠ n) :
    ∃ d', v.freeChain chainFuel d n = some d' ∧ Models v d' (Function.update objs n none) ∧
      treeOf v d' (Function.update objs n none) = Function.update (treeOf v d objs) n none ∧
      lostClusters v d' (Function.update objs n none) = lostClusters v d objs ∧
      (freeClusters v d').length = (freeClusters v d).length + l.length := by
  have hc := h.sound.chain n b l hn
  have hv := h.sound.wf
  obtain ⟨d', hd, hf, hdata⟩ := freeChain_eq hc hv (hc.length_lt hv)
  have hS := h.sound.delete hn hr he hf hdata
  have hnode : ∀ o, nodeOf v d' o = nodeOf v d o := fun o => nodeOf_congr (b := o.1) (l := o.2) hv fun x _ => hdata x
  refine ⟨d', hd, ⟨hS, fun k l' hk => ?_, fun l' hl q hq => ?_⟩, ?_, lost_freed hn hf, ?_⟩
  · rcases update_eq_some hk with ⟨-, ho⟩ | ⟨-, hk⟩
    · cases ho
    · exact ((h.neat k l' hk).table_congr fun x _ => hdata x).1
  · rcases update_eq_some hl with ⟨-, ho⟩ | ⟨-, hl⟩
    · cases ho
    · rw [hdata]
      exact h.root l' hl q hq
  · rw [treeOf_update, Option.map_none]
    congr 1
    funext k
    unfold treeOf
    rw [funext hnode]
  · -- the clusters of the chain are free now, and were not
    have hfree : freeClusters v d' = (List.range' 2 (v.total % 2 ^ 32 - 2)).filter fun c => decide (v.readFatEntry d c = 0) || decide (c ∈ l) := by
      apply List.filter_congr
      intro c hcm
      rw [hf c ((mem_clusters hv).mp hcm).2]
      by_cases hcl : c ∈ l <;> simp [hcl]
    have hl : ((List.range' 2 (v.total % 2 ^ 32 - 2)).filter fun c => c ∈ l).length = l.length := by
      apply List.Perm.length_eq
      rw [List.perm_ext_iff_of_nodup (List.Nodup.filter _ List.nodup_range') hc.chain.nodup]
      intro c
      rw [List.mem_filter, mem_clusters hv, decide_eq_true_eq]
      exact ⟨fun hcl => hcl.2, fun hcl => ⟨hc.range c hcl, hcl⟩⟩
    rw [hfree, ← hl, freeClusters]
    simp only [← List.countP_eq_length_filter]
    have hadd : ∀ cs : List Nat, cs.countP (fun c => decide (v.readFatEntry d c = 0) || decide (c ∈ l)) =
        cs.countP (fun c => decide (v.readFatEntry d c = 0)) + cs.countP fun c => decide (c ∈ l) := by
      intro cs
      induction cs with
      | nil => rfl
      | cons c cs ih =>
        rw [List.countP_cons, List.countP_cons, List.countP_cons, ih]
        by_cases hcl : c ∈ l
        · have h0 := hc.allocated hcl
          simp [hcl, h0]
          omega
        · simp [hcl]
          omega
    exact hadd _

/-! ## Writing a file -/

/-- A file got cleared clusters. -/
theorem extend (h : Models v d objs) (hn : objs n = some (false, l)) (hE : Extended v n d l d' l2) :
    Models v d' (Function.update objs n (some (false, l ++ l2))) ∧
      treeOf v d' (Function.update objs n (some (false, l ++ l2))) =
        Function.update (treeOf v d objs) n (some (.file (fileBytes v d l 0 (l.length * v.clusBytes) ++ zeros (l2.length * v.clusBytes)))) := by
  have hv := h.sound.wf
  have hcb := WellFormed.clusBytes_pos hv
  have hkeep : ∀ k b l', objs k = some (b, l') → ∀ x ∈ l', v.readCluster d' x = v.readCluster d x :=
    fun k b l' hk x hx => h.sound.grow_data hE hk hx
  refine ⟨⟨h.sound.grow hn hE nofun, fun k l' hk => ?_, fun l' hl q hq => ?_⟩, ?_⟩
  · rcases update_eq_some hk with ⟨-, ho⟩ | ⟨-, hk⟩
    · cases ho
    · exact ((h.neat k l' hk).table_congr (hkeep k true l' hk)).1
  · rcases update_eq_some hl with ⟨-, ho⟩ | ⟨-, hl⟩
    · cases ho
    · rw [hkeep _ _ l' hl q.1 (mem_places.mp hq).1]
      exact h.root l' hl q hq
  · have hbytes : fileBytes v d' (l ++ l2) 0 ((l ++ l2).length * v.clusBytes) =
        fileBytes v d l 0 (l.length * v.clusBytes) ++ zeros (l2.length * v.clusBytes) := by
      refine List.ext_getElem (by simp [length_fileBytes, zeros, Nat.add_mul]) fun p hp _ => ?_
      rw [length_fileBytes] at hp
      rw [List.getElem_append]
      simp only [fileBytes, List.getElem_map, List.getElem_range, Nat.zero_add, zeros, List.getElem_replicate, List.length_map, List.length_range]
      have hj : p / v.clusBytes < (l ++ l2).length := (Nat.div_lt_iff_lt_mul hcb).mpr hp
      split
      · next hlt =>
        have hjl : p / v.clusBytes < l.length := (Nat.div_lt_iff_lt_mul hcb).mpr hlt
        rw [fileByte, fileByte, List.getD_eq_getElem _ _ hj, List.getD_eq_getElem _ _ hjl, List.getElem_append_left hjl,
          hkeep n false l hn _ (List.getElem_mem hjl)]
      · next hge =>
        have hjl : l.length ≤ p / v.clusBytes := Nat.not_lt.mp fun hlt => hge ((Nat.div_lt_iff_lt_mul hcb).mp hlt)
        rw [fileByte, List.getD_eq_getElem _ _ hj, List.getElem_append_right hjl, hE.zero _ (List.getElem_mem _)]
        rfl
    rw [treeOf_update, Option.map_some]
    have hrest : Function.update (treeOf v d' objs) n (some (nodeOf v d' (false, l ++ l2))) =
        Function.update (treeOf v d objs) n (some (nodeOf v d' (false, l ++ l2))) := by
      congr 1
      funext k
      cases ho : objs k with
      | none => rw [treeOf_none.mpr ho, treeOf_none.mpr ho]
      | some o => rw [treeOf_some ho, treeOf_some ho, nodeOf_congr hv (hkeep k o.1 o.2 ho)]
    rw [hrest]
    exact congrArg (fun m => Function.update (treeOf v d objs) n (some (Node.file m))) hbytes

/-- The clusters of a file were written. -/
theorem written (h : Models v d objs) (hn : objs n = some (false, l)) (hw : DataWritten v d l d') :
    Models v d' objs ∧ treeOf v d' objs = Function.update (treeOf v d objs) n (some (.file (fileBytes v d' l 0 (l.length * v.clusBytes)))) := by
  have hapart : ∀ k l', objs k = some (true, l') → ∀ x ∈ l', x ∉ l := fun k l' hk x hx =>
    h.sound.apart k true l' n false l hk hn (fun he => by rw [he, hn] at hk; cases hk) x hx
  have hS := h.sound.written hw hapart
  refine ⟨h.same hS fun k l' hk x hx => hw.data x (h.range hk x hx) (hapart k l' hk x hx), ?_⟩
  exact treeOf_write h.sound hn hw.data

/-- What is looked for to note the size of a file is its entry. -/
theorem sizeMatch_iff (h : Models v d objs) (hr : objs v.rootClus = some (true, l)) (hq : q ∈ places v l) :
    sizeMatch n (v.readCluster d q.1) q.2 = true ↔ ∃ e, slotOf v d q = .used e ∧ e.id = n := by
  have hN := h.neat _ _ hr
  have hs := mem_places.mp hq
  have hm := mem_slots.mp hs.2
  have h11 : noShort (v.readCluster d q.1 11) = false := by
    have := hN.short (q.1, 0) (mem_places.mpr ⟨hs.1, mem_slots.mpr ⟨Nat.dvd_zero _, by omega⟩⟩)
    rwa [entAttr, Nat.zero_add] at this
  unfold sizeMatch
  rw [h11, Bool.not_false, Bool.and_true, Bool.and_eq_true, Bool.not_eq_true', beq_iff_eq]
  constructor
  · intro hm
    refine ⟨_, slotAt_used.mpr ⟨?_, rfl⟩, hm.2⟩
    unfold live
    rw [hm.1, hN.short q hq]
    simpa using h.root l hr q hq
  · intro hex
    obtain ⟨e, he, hc⟩ := hex
    obtain ⟨hl, rfl⟩ := slotAt_used.mp he
    exact ⟨(live_head hl).1, hc⟩

/-- A slot with a size written. -/
theorem sized_slot (hi : i ∈ v.slots) (he : slotAt buf i = .used e) (size : Nat) :
    slotAt (Buf.copyAt buf (i + 28) (Buf.toLe32 size)) i = .used { e with size := size % 2 ^ 32 } := by
  obtain ⟨hl, rfl⟩ := slotAt_used.mp he
  have hq := SlotEq.size hi hi size buf
  refine slotAt_used.mpr ⟨by rw [hq.live]; exact hl, ?_⟩
  unfold namedAt
  rw [hq.entName, hq.entCluster, hq.entIsDir, entSize, Buf.getLe32_copyAt]

/-- The entry of the file in the root directory, if there is one, gets the size. -/
theorem sizeUpdated (h : Models v d objs) {lr : List Nat} (hr : objs v.rootClus = some (true, lr)) {size : Nat}
    (hu : SizeUpdated v d lr n size d') :
    Models v d' objs ∧ treeOf v d' objs = noteSize (treeOf v d objs) v.rootClus n size := by
  have hS := h.sound.sizeUpdated hr hu
  have hN := h.neat _ _ hr
  have hroot : treeOf v d objs v.rootClus = some (.dir (names v d lr)) := treeOf_some hr
  rw [noteSize_dir hroot]
  rcases hu with ⟨rfl, hno⟩ | ⟨x, i, hs, hm, hd⟩
  · -- the file is not in the root directory
    have hsame : resized (names v d' lr) n size = names v d' lr := by
      funext k
      unfold resized
      cases hk : names v d' lr k with
      | none => rfl
      | some e =>
        obtain ⟨-, q, hq, he⟩ := (valueOf_eq_some hN.table).mp hk
        have hne : e.id ≠ n := by
          intro hid
          have hm := (h.sizeMatch_iff hr hq).mpr ⟨e, he, hid⟩
          rw [hno q.1 q.2 (mem_places.mp hq)] at hm
          cases hm
        rw [Option.map_some, if_neg hne]
    rw [hsame, ← hroot, Function.update_eq_self]
    exact ⟨h, rfl⟩
  · have hq : (x, i) ∈ places v lr := mem_places.mpr hs
    obtain ⟨e, he, rfl⟩ := (h.sizeMatch_iff hr hq).mp hm
    obtain ⟨hE, hc, h2, -, -⟩ := h.entryAt hr hq he
    have hsized := sized_slot hs.2 he size
    have hw : SlotWritten v d (x, i) (i + 28) (Buf.toLe32 size) d' :=
      ⟨h.range hr x hs.1, hs.2, Nat.le_add_right .., by rw [Buf.length_toLe32], hd⟩
    have hattr : entAttr (Buf.copyAt (v.readCluster d x) (i + 28) (Buf.toLe32 size)) i = entAttr (v.readCluster d x) i :=
      (SlotEq.size hs.2 hs.2 size _).entAttr
    obtain ⟨hN', hm'⟩ := hN.change (h.range hr) hw hq he (by rw [hsized]; exact nofun) hattr fun e' he' => by
      rw [hsized] at he'
      cases he'
      exact ⟨rfl, rfl⟩
    obtain ⟨hM, hT⟩ := h.slotWritten hr hq hw hS hN' (live_head (slotAt_used.mp hsized).1).2.2
    refine ⟨hM, ?_⟩
    have hres : resized (names v d lr) e.id size = Function.update (names v d lr) e.key (some { e with size := size % 2 ^ 32 }) := by
      funext k
      unfold resized
      by_cases hk : k = e.key
      · rw [hk, Function.update_self, names, hN.table.valueOf hq he, Option.map_some, if_pos rfl]
      · rw [Function.update_of_ne hk]
        cases hv : names v d lr k with
        | none => rfl
        | some e' =>
          obtain ⟨hk', q, hq', he'⟩ := (valueOf_eq_some hN.table).mp hv
          have hne : e'.id ≠ e.id := by
            intro hid
            obtain ⟨hE', hc', h2', -, -⟩ := h.entryAt hr hq' he'
            obtain ⟨h1, h2⟩ := h.sound.once q.1 q.2 x i hE' hE (hc'.symm ▸ h2') (hc'.trans (hid.trans hc.symm))
            rw [show q = (x, i) from Prod.ext h1 h2, he] at he'
            cases he'
            exact hk hk'.symm
          rw [Option.map_some, if_neg hne]
    rw [hT, hm', hsized, hres]
    rfl

end Models

end Myos.Fat
