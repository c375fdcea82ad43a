/-
  Myos.Fat.Directory — a directory as a table of its slots.

  The slots of the clusters of the chain, one after the other, are the places; an entry of a file
  or a directory is a value, whose key is its name without case. Deleted slots, "." and ".." are
  passed over.

  `Neat`: the directory is a table, no slot is a long name or a label, and every entry has a cluster
  and a name that does not start with a dot.

  Proved: what `lookup`, `remove` and `readdir` find in a neat directory is what the table holds;
  what a write to a slot, a new cluster and a new directory make of it.
-/

import Myos.Lib.SlotTable
import Myos.Fat.Scanners
import Myos.Fat.Operations
import Myos.Fat.ShortNames
import Myos.Vfs.NormalForm

namespace Myos.Fat

open Lib Fat32Inner Fat32Inode

/-- An entry. -/
structure Named where
  name : Str
  id : Nat
  isDir : Bool
  size : Nat
  deriving DecidableEq, Repr

variable {v : Fat32Inner} {d d' : Device} {c x i j n : Nat} {l l2 : List Nat} {buf : Buf} {name : Str} {e : Named} {q : Nat × Nat}

/-- What is compared of a name. -/
def folded (n : Str) : Str := n.map Char.toLower

theorem eqIgnoreAsciiCase_iff {a b : Str} : eqIgnoreAsciiCase a b = true ↔ folded a = folded b := decide_eq_true_iff

def Named.key (e : Named) : Str := folded e.name

def namedAt (buf : Buf) (i : Nat) : Named := ⟨parseShortName (entName buf i), entCluster buf i, entIsDir buf i, entSize buf i⟩

def slotAt (buf : Buf) (i : Nat) : Slot Named :=
  if buf i = 0 then .blank else if live buf i then .used (namedAt buf i) else .passed

/-- The slots of the clusters of a chain. -/
def places (v : Fat32Inner) (l : List Nat) : List (Nat × Nat) := l.flatMap fun x => v.slots.map fun i => (x, i)

def slotOf (v : Fat32Inner) (d : Device) (q : Nat × Nat) : Slot Named := slotAt (v.readCluster d q.1) q.2

/-- The entries by their names. -/
def names (v : Fat32Inner) (d : Device) (l : List Nat) : Str → Option Named := valueOf Named.key (slotOf v d) (places v l)

structure Neat (v : Fat32Inner) (d : Device) (l : List Nat) : Prop where
  table : SlotTable Named.key (slotOf v d) (places v l)
  short : ∀ q ∈ places v l, noShort (entAttr (v.readCluster d q.1) q.2) = false
  entry : ∀ q ∈ places v l, ∀ e, slotOf v d q = .used e → 2 ≤ e.id ∧ e.name ≠ [] ∧ e.name.head? ≠ some '.'

/-! ## Places -/

@[simp] theorem mem_places : q ∈ places v l ↔ SlotIn v l q.1 q.2 := by
  simp [places, SlotIn, Prod.ext_iff]

@[simp] theorem places_append : places v (l ++ l2) = places v l ++ places v l2 := List.flatMap_append ..

theorem places_cons : places v (x :: l) = (v.slots.map fun i => (x, i)) ++ places v l := List.flatMap_cons ..

theorem nodup_slots : v.slots.Nodup := by
  unfold slots
  apply List.Nodup.map _ List.nodup_range
  intro a b h
  exact Nat.eq_of_mul_eq_mul_right (by decide) h

theorem nodup_places (h : l.Nodup) : (places v l).Nodup := by
  unfold places
  rw [List.nodup_flatMap]
  refine ⟨fun x _ => nodup_slots.map fun i j hij => (Prod.ext_iff.mp hij).2, h.imp fun {x y} hne => ?_⟩
  intro q hx hy
  obtain ⟨i, -, rfl⟩ := List.mem_map.mp hx
  obtain ⟨j, -, he⟩ := List.mem_map.mp hy
  exact hne (Prod.ext_iff.mp he).1.symm

/-- A scan of the chain looks at the places in their order. -/
theorem scanChain_places (p : Buf → Nat → Bool) (h : FatChain v d c l) (hv : v.WellFormed) :
    v.scanChain d p chainFuel c = some ((places v l).find? fun q => p (v.readCluster d q.1) q.2) := by
  rw [scanChain_eq h hv (h.length_lt hv), places, List.find?_flatMap]
  simp only [List.find?_map]
  rfl

/-- The listing of the chain is that of the places up to the end mark. -/
theorem collect_places (h : FatChain v d c l) (hv : v.WellFormed) (hn : l.length < n) :
    collect v d n c = some (((places v l).takeWhile fun q => v.readCluster d q.1 q.2 ≠ 0).filterMap fun q =>
      listSlot (v.readCluster d q.1) q.2) := by
  induction n generalizing c l with
  | zero => exact absurd hn (Nat.not_lt_zero _)
  | succ n ih =>
    rw [collect]
    cases l with
    | nil =>
      rw [if_neg (by rw [h.not_inData]; exact Bool.false_ne_true)]
      rfl
    | cons y l =>
      obtain ⟨rfl, ht⟩ := h.cons
      rw [if_pos (h.inData hv (List.mem_cons_self ..)), ih ht (Nat.lt_of_succ_lt_succ hn), places_cons, List.takeWhile_append]
      have hmap : (v.slots.map fun i => (y, i)).takeWhile (fun q => v.readCluster d q.1 q.2 ≠ 0) =
          (v.slots.takeWhile fun i => v.readCluster d y i ≠ 0).map fun i => (y, i) := List.takeWhile_map ..
      have hhere : ((v.slots.takeWhile fun i => v.readCluster d y i ≠ 0).map fun i => (y, i)).filterMap
          (fun q => listSlot (v.readCluster d q.1) q.2) = clusterEntries v (v.readCluster d y) := by
        rw [List.filterMap_map, clusterEntries_eq]
        rfl
      dsimp only
      rw [hmap]
      by_cases hz : (v.slots.any fun i => v.readCluster d y i = 0) = true
      · -- the end mark is in this cluster
        have hlen : (v.slots.takeWhile fun i => v.readCluster d y i ≠ 0).length ≠ v.slots.length := by
          intro hl
          have hall := List.takeWhile_eq_self_iff.mp ((List.takeWhile_sublist _).eq_of_length hl)
          obtain ⟨i, hi, h0⟩ := List.any_eq_true.mp hz
          exact of_decide_eq_true (hall i hi) (of_decide_eq_true h0)
        rw [if_pos hz, if_neg (by simpa using hlen), hhere]
      · have hall : v.slots.takeWhile (fun i => v.readCluster d y i ≠ 0) = v.slots := by
          apply List.takeWhile_eq_self_iff.mpr
          intro i hi
          rw [decide_eq_true_eq]
          intro h0
          exact hz (List.any_eq_true.mpr ⟨i, hi, decide_eq_true h0⟩)
        rw [hall] at hhere
        rw [if_neg hz, hall, if_pos rfl, List.filterMap_append, hhere]
        rfl

/-! ## Slots -/

theorem slotAt_used : slotAt buf i = .used e ↔ live buf i = true ∧ namedAt buf i = e := by
  unfold slotAt
  by_cases h0 : buf i = 0
  · have hu : unused buf i = true := decide_eq_true (Or.inl h0)
    rw [if_pos h0, unused_not_live hu]
    simp
  · rw [if_neg h0]
    cases hl : live buf i with
    | false => simp
    | true => simp

theorem slotAt_blank : slotAt buf i = .blank ↔ buf i = 0 := by
  unfold slotAt
  by_cases h0 : buf i = 0
  · simp [h0]
  · rw [if_neg h0]
    cases live buf i <;> simp [h0]

/-- A first character. -/
theorem parse_head (h : buf i ≠ space) : (parseShortName (entName buf i)).head? = some (Char.ofNat (buf i).toNat) := by
  have hname : entName buf i = buf i :: (List.range' 1 10).map fun k => buf (i + k) := rfl
  unfold parseShortName
  dsimp only
  rw [hname, List.take_succ_cons, List.takeWhile_cons_of_pos (by simpa using h), List.map_cons]
  split <;> rfl

/-- The name of a slot of "." or ".." starts with a dot. -/
theorem parse_dot (h : buf i = dot) : (parseShortName (entName buf i)).head? = some '.' := by
  rw [parse_head (by rw [h]; decide), h]
  rfl

theorem folded_dot {n : Str} : (folded n).head? = some '.' ↔ n.head? = some '.' := by
  cases n with
  | nil => simp [folded]
  | cons c n => simp [folded, Vfs.toLower_eq_iff]

theorem dotName_head (h : isDotName (entName buf i) = true) : buf i = dot := by
  have hname : (entName buf i).getD 0 0 = buf i := rfl
  unfold isDotName at h
  rw [decide_eq_true_eq, hname] at h
  exact h.1

/-- Both scans take the slots whose entry has the name. -/
theorem lookupMatch_slotAt (hs : noShort (entAttr buf i) = false) (hn : name.head? ≠ some '.') :
    lookupMatch name buf i = true ↔ ∃ e, slotAt buf i = .used e ∧ e.key = folded name := by
  rw [lookupMatch_iff, eqIgnoreAsciiCase_iff]
  constructor
  · intro ⟨hu, _, _, he⟩
    refine ⟨namedAt buf i, slotAt_used.2 ⟨?_, rfl⟩, he⟩
    have hd : buf i ≠ dot := by
      intro hd
      have := folded_dot.2 (parse_dot hd)
      rw [he] at this
      exact hn (folded_dot.1 this)
    unfold live
    rw [hu, hs]
    simpa using hd
  · intro ⟨e, he, hk⟩
    obtain ⟨hl, rfl⟩ := slotAt_used.1 he
    obtain ⟨hu, hs, hd⟩ := live_head hl
    refine ⟨hu, hs, Bool.eq_false_iff.mpr fun h => hd (dotName_head h), hk⟩

theorem removeMatch_slotAt (hs : noShort (entAttr buf i) = false) (h0 : noShort (buf 11) = false) (hn : name.head? ≠ some '.') :
    removeMatch name buf i = true ↔ ∃ e, slotAt buf i = .used e ∧ e.key = folded name := by
  rw [← lookupMatch_slotAt hs hn, lookupMatch_iff, removeMatch_iff]
  constructor
  · intro ⟨hu, _, he⟩
    refine ⟨hu, hs, Bool.eq_false_iff.mpr fun hd => hn ?_, he⟩
    rw [← folded_dot, ← eqIgnoreAsciiCase_iff.1 he, folded_dot]
    exact parse_dot (dotName_head hd)
  · exact fun ⟨hu, _, _, he⟩ => ⟨hu, h0, he⟩

/-! ## The scans -/

theorem find_named (h : Neat v d l) {p : Nat × Nat → Bool}
    (hp : ∀ q ∈ places v l, (p q = true ↔ ∃ e, slotOf v d q = .used e ∧ e.key = folded name)) :
    (∃ q e, (places v l).find? p = some q ∧ q ∈ places v l ∧ slotOf v d q = .used e ∧ e.key = folded name ∧
        names v d l (folded name) = some e) ∨
      (places v l).find? p = none ∧ names v d l (folded name) = none := by
  cases hf : (places v l).find? p with
  | some q =>
    have hq := List.mem_of_find?_eq_some hf
    obtain ⟨e, he, hk⟩ := (hp q hq).mp (List.find?_some hf)
    refine Or.inl ⟨q, e, rfl, hq, he, hk, ?_⟩
    rw [← hk]
    exact h.table.valueOf hq he
  | none =>
    refine Or.inr ⟨rfl, (valueOf_eq_none h.table).mpr fun q hq e he hk => ?_⟩
    exact List.find?_eq_none.mp hf q hq ((hp q hq).mpr ⟨e, he, hk⟩)

namespace Neat

variable {ino : Fat32Inode}

theorem lookup (h : Neat v d l) (hc : FatChain v d ino.firstCluster l) (hv : v.WellFormed) (hn : name.head? ≠ some '.') :
    ino.lookup v d name = match names v d l (folded name) with
      | none => some (.error "entry not found")
      | some e => (v.chainSize d e.id).map fun size => .ok ⟨e.id, size, e.isDir⟩ := by
  unfold Fat32Inode.lookup
  rw [scanChain_places _ hc hv, Option.bind_some]
  have hp : ∀ q ∈ places v l, (lookupMatch name (v.readCluster d q.1) q.2 = true ↔ ∃ e, slotOf v d q = .used e ∧ e.key = folded name) :=
    fun q hq => lookupMatch_slotAt (h.short q hq) hn
  rcases find_named h hp with ⟨q, e, hf, -, he, -, hv⟩ | ⟨hf, hv⟩
  · obtain ⟨-, rfl⟩ := slotAt_used.1 he
    rw [hf, hv]
    rfl
  · rw [hf, hv]

theorem removal (h : Neat v d l) (hc : FatChain v d ino.firstCluster l) (hv : v.WellFormed) (hdir : ino.isDir = true)
    (hn : name.head? ≠ some '.') :
    (∃ q e, q ∈ places v l ∧ slotOf v d q = .used e ∧ e.key = folded name ∧ names v d l (folded name) = some e ∧
      ino.remove v d name = (v.freeChain chainFuel (v.writeCluster d q.1 (Buf.copyAt (v.readCluster d q.1) q.2 [0xE5])) e.id).map
        fun d => (.ok (), d)) ∨
      names v d l (folded name) = none ∧ ino.remove v d name = some (.error "not found", d) := by
  unfold Fat32Inode.remove
  rw [hdir, Bool.not_true, if_neg Bool.false_ne_true, scanChain_places _ hc hv, Option.bind_some]
  have hp : ∀ q ∈ places v l, (removeMatch name (v.readCluster d q.1) q.2 = true ↔ ∃ e, slotOf v d q = .used e ∧ e.key = folded name) := by
    intro q hq
    have hfirst : (q.1, 0) ∈ places v l := by
      rw [mem_places]
      have hs := (mem_places.1 hq).2
      rw [mem_slots] at hs
      exact ⟨(mem_places.1 hq).1, mem_slots.mpr ⟨Nat.dvd_zero _, by omega⟩⟩
    exact removeMatch_slotAt (h.short q hq) (h.short _ hfirst) hn
  rcases find_named h hp with ⟨q, e, hf, hq, he, hk, hv⟩ | ⟨hf, hv⟩
  · refine Or.inl ⟨q, e, hq, he, hk, hv, ?_⟩
    have h2 := (h.entry q hq e he).1
    obtain ⟨-, rfl⟩ := slotAt_used.1 he
    rw [hf]
    dsimp only
    exact congrArg _ (if_pos h2)
  · rw [hf]
    exact Or.inr ⟨hv, rfl⟩

end Neat

/-! ## The listing -/

def Named.entry (e : Named) : DirEntry := ⟨e.name, e.isDir, e.size⟩

/-- The names of slots of "." and ".." start with a dot. -/
def plainName (e : DirEntry) : Bool := e.name.head? ≠ some '.'

theorem listSlot_slotAt (h0 : buf i ≠ 0) (hs : noShort (entAttr buf i) = false)
    (he : ∀ e, slotAt buf i = .used e → e.name ≠ [] ∧ e.name.head? ≠ some '.') :
    (listSlot buf i).filter plainName = (slotAt buf i).value?.map Named.entry := by
  unfold listSlot
  by_cases h5 : buf i = 0xE5
  · have hu : unused buf i = true := decide_eq_true (Or.inr h5)
    have hv : slotAt buf i = .passed := by
      unfold slotAt
      rw [if_neg h0, unused_not_live hu, if_neg Bool.false_ne_true]
    rw [if_pos (Or.inl h5), hv]
    rfl
  have hu : unused buf i = false := decide_eq_false (not_or.mpr ⟨h0, h5⟩)
  by_cases hd : buf i = dot
  · -- "." or ".."
    have hv : slotAt buf i = .passed := by
      have hl : live buf i = false := by simp [live, hd]
      unfold slotAt
      rw [if_neg h0, hl, if_neg Bool.false_ne_true]
    rw [hv]
    dsimp only
    split
    · rfl
    · split
      · rfl
      · have hp : plainName ⟨parseShortName (entName buf i), entIsDir buf i, entSize buf i⟩ = false :=
          decide_eq_false (by simpa using parse_dot hd)
        rw [Option.filter_some, hp]
        rfl
  · have hl : live buf i = true := by simp [live, hu, hs, hd]
    have hv : slotAt buf i = .used (namedAt buf i) := slotAt_used.2 ⟨hl, rfl⟩
    obtain ⟨hne, hdot⟩ := he _ hv
    have hnd : isDotName (entName buf i) = false := Bool.eq_false_iff.mpr fun h => hd (dotName_head h)
    have hp : plainName (namedAt buf i).entry = true := decide_eq_true hdot
    rw [hv, if_neg (by simp [h5, hs, hnd])]
    have hname : ¬ (parseShortName (entName buf i)).isEmpty = true := mt List.isEmpty_iff.mp hne
    dsimp only
    rw [if_neg hname]
    exact (Option.filter_some ..).trans (if_pos hp)

namespace Neat

variable {ino : Fat32Inode}

/-- `readdir` lists the entries in the order of their slots, and names that start with a dot. -/
theorem readdir (h : Neat v d l) (hc : FatChain v d ino.firstCluster l) (hv : v.WellFormed) (hdir : ino.isDir = true) :
    ∃ es, ino.readdir v d = some (.ok es) ∧ es.filter plainName = (listing (slotOf v d) (places v l)).map Named.entry := by
  unfold Fat32Inode.readdir
  rw [hdir, Bool.not_true, if_neg Bool.false_ne_true, collect_places hc hv (hc.length_lt hv)]
  refine ⟨_, rfl, ?_⟩
  have htw : (fun q => !(slotOf v d q).isBlank) = fun q : Nat × Nat => decide (v.readCluster d q.1 q.2 ≠ 0) := by
    funext q
    rw [Bool.eq_iff_iff, Bool.not_eq_true', Bool.eq_false_iff, decide_eq_true_eq, Ne, Slot.isBlank_iff, slotOf, slotAt_blank]
  unfold listing
  rw [htw, List.filter_filterMap, List.map_filterMap]
  apply List.filterMap_congr
  intro q hq
  have hmem := (List.takeWhile_sublist _).subset hq
  have h0 := of_decide_eq_true (List.mem_takeWhile_imp (p := fun q : Nat × Nat => decide (v.readCluster d q.1 q.2 ≠ 0)) hq)
  exact listSlot_slotAt h0 (h.short q hmem) fun e he => (h.entry q hmem e he).2

end Neat

/-! ## Writes to a slot -/

/-- The 32 bytes of the slot are the same. -/
theorem slotAt_congr {buf' : Buf} (h : ∀ k < 32, buf' (i + k) = buf (i + k)) :
    slotAt buf' i = slotAt buf i ∧ entAttr buf' i = entAttr buf i := by
  have hq : SlotEq buf buf' i := fun k hk => h k (by omega)
  have hsize : entSize buf' i = entSize buf i := Buf.getLe32_congr fun k hk => by
    rw [Nat.add_assoc]
    exact h (28 + k) (by omega)
  refine ⟨?_, hq.entAttr⟩
  unfold slotAt namedAt
  rw [hq.head, hq.live, hq.entName, hq.entCluster, hq.entIsDir, hsize]

variable {k : Nat} {src : List UInt8} {e' : Named}

/-- A write inside a slot leaves the others. -/
theorem copyAt_apart (hi : i ∈ v.slots) (hj : j ∈ v.slots) (hne : j ≠ i) (hk : i ≤ k) (hs : k + src.length ≤ i + 32) (buf : Buf) :
    ∀ m < 32, Buf.copyAt buf k src (j + m) = buf (j + m) := by
  intro m hm
  obtain ⟨⟨a, rfl⟩, -⟩ := mem_slots.mp hi
  obtain ⟨⟨b, rfl⟩, -⟩ := mem_slots.mp hj
  have hab : a ≠ b := fun h => hne (by rw [h])
  rcases Nat.lt_or_gt_of_ne hab with h | h
  · exact Buf.copyAt_of_ge (by omega)
  · exact Buf.copyAt_of_lt (by omega)

/-- `src` was written inside the slot `q`. -/
structure SlotWritten (v : Fat32Inner) (d : Device) (q : Nat × Nat) (k : Nat) (src : List UInt8) (d' : Device) : Prop where
  cluster : 2 ≤ q.1
  slot : q.2 ∈ v.slots
  lower : q.2 ≤ k
  upper : k + src.length ≤ q.2 + 32
  device : d' = v.writeCluster d q.1 (Buf.copyAt (v.readCluster d q.1) k src)

namespace SlotWritten

theorem self (h : SlotWritten v d q k src d') : v.readCluster d' q.1 = Buf.copyAt (v.readCluster d q.1) k src := by
  have hm := (mem_slots.mp h.slot).2
  have hu := h.upper
  rw [h.device]
  exact readCluster_writeCluster_self ((readCluster_clipped v d q.1).copyAt (by omega))

theorem cluster_other (h : SlotWritten v d q k src d') {y : Nat} (hy : 2 ≤ y) (hne : y ≠ q.1) :
    v.readCluster d' y = v.readCluster d y := by
  rw [h.device]
  exact readCluster_writeCluster_of_ne h.cluster hy hne

theorem bytes_other (h : SlotWritten v d q k src d') {r : Nat × Nat} (hr : 2 ≤ r.1) (hs : r.2 ∈ v.slots) (hne : r ≠ q) :
    ∀ m < 32, v.readCluster d' r.1 (r.2 + m) = v.readCluster d r.1 (r.2 + m) := by
  intro m hm
  by_cases hx : r.1 = q.1
  · have hne2 : r.2 ≠ q.2 := fun h2 => hne (Prod.ext hx h2)
    rw [hx, h.self]
    exact copyAt_apart h.slot hs hne2 h.lower h.upper _ m hm
  · rw [h.cluster_other hr hx]

theorem slot_other (h : SlotWritten v d q k src d') {r : Nat × Nat} (hr : 2 ≤ r.1) (hs : r.2 ∈ v.slots) (hne : r ≠ q) :
    slotOf v d' r = slotOf v d r ∧ entAttr (v.readCluster d' r.1) r.2 = entAttr (v.readCluster d r.1) r.2 :=
  slotAt_congr (h.bytes_other hr hs hne)

end SlotWritten

namespace Neat

theorem table_congr (h : Neat v d l) (hc : ∀ x ∈ l, v.readCluster d' x = v.readCluster d x) :
    Neat v d' l ∧ names v d' l = names v d l := by
  have hs : ∀ q ∈ places v l, slotOf v d' q = slotOf v d q := by
    intro q hq
    unfold slotOf
    rw [hc q.1 (mem_places.1 hq).1]
  refine ⟨⟨h.table.congr hs, fun q hq => ?_, fun q hq e he => ?_⟩, valueOf_congr hs⟩
  · rw [hc q.1 (mem_places.1 hq).1]
    exact h.short q hq
  · rw [hs q hq] at he
    exact h.entry q hq e he

/-- The attributes after a write to a slot. -/
theorem short_written (h : Neat v d l) (h2 : ∀ x ∈ l, 2 ≤ x) (hw : SlotWritten v d q k src d')
    (ha : noShort (entAttr (Buf.copyAt (v.readCluster d q.1) k src) q.2) = false) :
    ∀ r ∈ places v l, noShort (entAttr (v.readCluster d' r.1) r.2) = false := by
  intro r hr
  by_cases hrq : r = q
  · rw [hrq, hw.self]
    exact ha
  · have hr' := mem_places.1 hr
    rw [(hw.slot_other (h2 r.1 hr'.1) hr'.2 hrq).2]
    exact h.short r hr

theorem entry_written (h : Neat v d l) (h2 : ∀ x ∈ l, 2 ≤ x) (hw : SlotWritten v d q k src d')
    (ha : ∀ e, slotAt (Buf.copyAt (v.readCluster d q.1) k src) q.2 = .used e → 2 ≤ e.id ∧ e.name ≠ [] ∧ e.name.head? ≠ some '.') :
    ∀ r ∈ places v l, ∀ e, slotOf v d' r = .used e → 2 ≤ e.id ∧ e.name ≠ [] ∧ e.name.head? ≠ some '.' := by
  intro r hr e he
  by_cases hrq : r = q
  · rw [hrq, slotOf, hw.self] at he
    exact ha e he
  · have hr' := mem_places.1 hr
    rw [(hw.slot_other (h2 r.1 hr'.1) hr'.2 hrq).1] at he
    exact h.entry r hr e he

/-- A new entry was put into the first unused slot. -/
theorem put (h : Neat v d l) (h2 : ∀ x ∈ l, 2 ≤ x) (hw : SlotWritten v d q k src d')
    (hq : (places v l).find? (fun r => unused (v.readCluster d r.1) r.2) = some q)
    (he : slotAt (Buf.copyAt (v.readCluster d q.1) k src) q.2 = .used e) (hid : 2 ≤ e.id) (hne : e.name ≠ []) (hdot : e.name.head? ≠ some '.')
    (hs : noShort (entAttr (Buf.copyAt (v.readCluster d q.1) k src) q.2) = false) (hnew : names v d l e.key = none) :
    Neat v d' l ∧ names v d' l = Function.update (names v d l) e.key (some e) := by
  have hmem := List.mem_of_find?_eq_some hq
  have ho : ∀ r ∈ places v l, r ≠ q → slotOf v d' r = slotOf v d r := fun r hr hrq =>
    (hw.slot_other (h2 r.1 (mem_places.1 hr).1) (mem_places.1 hr).2 hrq).1
  have hself : slotOf v d' q = .used e := by
    unfold slotOf
    rw [hw.self]
    exact he
  have htable : SlotTable Named.key (slotOf v d') (places v l) := by
    refine h.table.put hq (fun r hr hb => ?_) ho hself ((valueOf_eq_none h.table).mp hnew)
    exact decide_eq_true (Or.inl (slotAt_blank.1 hb))
  refine ⟨⟨htable, h.short_written h2 hw hs, h.entry_written h2 hw fun e' he' => ?_⟩, ?_⟩
  · rw [he] at he'
    cases he'
    exact ⟨hid, hne, hdot⟩
  · refine valueOf_put h.table htable hmem ho (fun e' he' => ?_) hself
    have hu : unused (v.readCluster d q.1) q.2 = true := by simpa using List.find?_some hq
    have hl := (slotAt_used.1 he').1
    rw [unused_not_live hu] at hl
    cases hl

/-- An entry was deleted, or its size was written. -/
theorem change (h : Neat v d l) (h2 : ∀ x ∈ l, 2 ≤ x) (hw : SlotWritten v d q k src d') (hq : q ∈ places v l) (he : slotOf v d q = .used e)
    (hb : slotAt (Buf.copyAt (v.readCluster d q.1) k src) q.2 ≠ .blank)
    (hs : entAttr (Buf.copyAt (v.readCluster d q.1) k src) q.2 = entAttr (v.readCluster d q.1) q.2)
    (hc : ∀ e', slotAt (Buf.copyAt (v.readCluster d q.1) k src) q.2 = .used e' → e'.name = e.name ∧ e'.id = e.id) :
    Neat v d' l ∧ names v d' l = Function.update (names v d l) e.key (slotAt (Buf.copyAt (v.readCluster d q.1) k src) q.2).value? := by
  have ho : ∀ r ∈ places v l, r ≠ q → slotOf v d' r = slotOf v d r := fun r hr hrq =>
    (hw.slot_other (h2 r.1 (mem_places.mp hr).1) (mem_places.mp hr).2 hrq).1
  have hself : slotOf v d' q = slotAt (Buf.copyAt (v.readCluster d q.1) k src) q.2 := by
    unfold slotOf
    rw [hw.self]
  have hkey : ∀ e', slotOf v d' q = .used e' → e'.key = e.key := fun e' he' => by
    rw [hself] at he'
    unfold Named.key
    rw [(hc e' he').1]
  have htable : SlotTable Named.key (slotOf v d') (places v l) := h.table.change hq he ho (hself ▸ hb) hkey
  refine ⟨⟨htable, h.short_written h2 hw ?_, h.entry_written h2 hw fun e' he' => ?_⟩, ?_⟩
  · rw [hs]
    exact h.short q hq
  · obtain ⟨hid, hne, hdot⟩ := h.entry q hq e he
    rw [(hc e' he').1, (hc e' he').2]
    exact ⟨hid, hne, hdot⟩
  · rw [← hself]
    exact valueOf_change h.table htable hq ho he hkey

/-- A cleared cluster was hung behind a directory without an unused slot. -/
theorem append (h : Neat v d l) (hnd : (l ++ l2).Nodup) (hu : ∀ x i, SlotIn v l x i → unused (v.readCluster d x) i = false)
    (hz : ∀ x ∈ l2, v.readCluster d x = zeroBuf) : Neat v d (l ++ l2) ∧ names v d (l ++ l2) = names v d l := by
  have hblank : ∀ q ∈ places v l2, slotOf v d q = .blank := by
    intro q hq
    apply slotAt_blank.2
    rw [hz q.1 (mem_places.mp hq).1]
    rfl
  have htable : SlotTable Named.key (slotOf v d) (places v l ++ places v l2) := by
    refine h.table.append (by rw [← places_append]; exact nodup_places hnd) (fun q hq hb => ?_) hblank
    have := hu q.1 q.2 (mem_places.mp hq)
    rw [unused, slotAt_blank.1 hb] at this
    cases this
  refine ⟨⟨by rw [places_append]; exact htable, fun q hq => ?_, fun q hq e he => ?_⟩, ?_⟩
  · rw [places_append, List.mem_append] at hq
    rcases hq with hq | hq
    · exact h.short q hq
    · rw [hz q.1 (mem_places.mp hq).1]
      exact show noShort 0 = false by decide
  · rw [places_append, List.mem_append] at hq
    rcases hq with hq | hq
    · exact h.entry q hq e he
    · rw [hblank q hq] at he
      cases he
  · unfold names
    rw [places_append]
    exact valueOf_append h.table htable hblank

end Neat

/-- Cleared clusters hold no entry. -/
theorem zero_neat (hnd : l.Nodup) (hz : ∀ x ∈ l, v.readCluster d x = zeroBuf) : Neat v d l ∧ names v d l = fun _ => none := by
  have hno : ∀ q : Nat × Nat, q ∉ places v [] := fun q hq => List.not_mem_nil (mem_places.mp hq).1
  have hempty : Neat v d [] :=
    ⟨⟨List.nodup_nil, List.Pairwise.nil, fun p hp => absurd hp (hno p)⟩, fun q hq => absurd hq (hno q), fun q hq => absurd hq (hno q)⟩
  obtain ⟨hN, hm⟩ := @Neat.append v d [] l hempty hnd (fun x i hs => absurd hs.1 List.not_mem_nil) hz
  exact ⟨hN, hm⟩

/-! ## A new directory -/

theorem dirInit_attr {parent : Nat} (hi : i ∈ v.slots) : noShort (entAttr (dirInit n parent) i) = false := by
  obtain ⟨⟨k, rfl⟩, -⟩ := mem_slots.mp hi
  unfold entAttr
  by_cases hk : 60 ≤ 32 * k + 11
  · rw [dirInit_of_ge hk]
    decide
  · have h01 : k = 0 ∨ k = 1 := by omega
    rcases h01 with rfl | rfl
    · have ha : dirInit n parent 11 = attrDirectory := by simp [dirInit, Buf.copyAt, Buf.length_toLe16]
      rw [Nat.mul_zero, Nat.zero_add, ha]
      decide
    · have ha : dirInit n parent 43 = attrDirectory := by simp [dirInit, Buf.copyAt, Buf.length_toLe16]
      rw [Nat.mul_one, ha]
      decide

/-- The slots of a new directory are passed over or blank. -/
theorem dirInit_table {parent : Nat} (h : v.readCluster d x = dirInit n parent) : Neat v d [x] ∧ names v d [x] = fun _ => none := by
  have hplaces : places v [x] = v.slots.map fun i => (x, i) := by simp [places]
  have hno : ∀ q ∈ places v [x], ∀ e, slotOf v d q ≠ .used e := by
    intro q hq e he
    obtain ⟨h1, h2⟩ := mem_places.mp hq
    have hl := (slotAt_used.mp he).1
    rw [List.mem_singleton.mp h1, h, dirInit_live h2] at hl
    cases hl
  have htidy : (places v [x]).Pairwise fun p q => slotOf v d p = .blank → slotOf v d q = .blank := by
    rw [hplaces, slots, List.map_map, List.pairwise_map]
    refine List.pairwise_lt_range.imp fun {a b} hab => ?_
    simp only [Function.comp_apply, slotOf, slotAt_blank, h]
    intro ha
    -- the first two slots are not blank
    have h2 : 2 ≤ a := by
      by_contra hlt
      have : a = 0 ∨ a = 1 := by omega
      rcases this with rfl | rfl
      · rw [Nat.zero_mul, dirInit_dot.1] at ha
        cases ha
      · rw [Nat.one_mul, dirInit_dot.2] at ha
        cases ha
    exact dirInit_of_ge (by omega)
  have htable : SlotTable Named.key (slotOf v d) (places v [x]) :=
    ⟨nodup_places (List.nodup_singleton x), htidy, fun p hp _ _ a _ ha => absurd ha (hno p hp a)⟩
  refine ⟨⟨htable, fun q hq => ?_, fun q hq e he => absurd he (hno q hq e)⟩, ?_⟩
  · obtain ⟨h1, h2⟩ := mem_places.mp hq
    rw [List.mem_singleton.mp h1, h]
    exact dirInit_attr h2
  · funext k
    exact (valueOf_eq_none htable).mpr fun q hq e he => absurd he (hno q hq e)

end Myos.Fat
