/-
  Myos.Fat.Scanners — the three scans of a directory: lookup, read_entries and remove.

  Each goes over the slots of the chain with tests of its own. `lookup` and `remove` go past an end
  marker; `remove` asks the first slot of the cluster for its attributes in place of the slot, and
  takes "." and ".." for names; `read_entries` leaves out entries without a name.

  Proved: for a directory and a name the three agree, on the slot too, exactly if the first slot
  any of them could take for the name is one that all of them take.
-/

import Myos.Fat.Endings
import Myos.Fat.ReadBack

namespace Myos.Fat

open Lib Fat32Inner Fat32Inode

variable {v : Fat32Inner} {d d' : Device} {c x y i j n : Nat} {l : List Nat} {ino : Fat32Inode} {name : Str} {buf : Buf}
  {p : Buf → Nat → Bool} {es : List DirEntry}

/-! ## Slots and names -/

/-- A slot that `read_entries` lists under a name equal to `name`. -/
def readdirMatch (name : Str) (buf : Buf) (i : Nat) : Bool := lookupMatch name buf i && !(parseShortName (entName buf i)).isEmpty

/-- A slot in use that is called `name` and is a short entry or lies in a cluster that begins with one. -/
def candidate (name : Str) (buf : Buf) (i : Nat) : Bool :=
  !unused buf i && eqIgnoreAsciiCase (parseShortName (entName buf i)) name &&
    (!noShort (buf 11) || !noShort (entAttr buf i) && !isDotName (entName buf i))

/-- The first entry in front of the end marker that is listed under the name. -/
def Listed (v : Fat32Inner) (d : Device) (c : Nat) (name : Str) (x i : Nat) : Prop :=
  Finds v d (orEnd (readdirMatch name)) c x i ∧ readdirMatch name (v.readCluster d x) i = true

def slotEntry (buf : Buf) (i : Nat) : DirEntry := ⟨parseShortName (entName buf i), entIsDir buf i, entSize buf i⟩

theorem lookupMatch_iff : lookupMatch name buf i = true ↔ unused buf i = false ∧ noShort (entAttr buf i) = false ∧
    isDotName (entName buf i) = false ∧ eqIgnoreAsciiCase (parseShortName (entName buf i)) name = true := by
  simp [lookupMatch, and_assoc]

theorem removeMatch_iff : removeMatch name buf i = true ↔ unused buf i = false ∧ noShort (buf 11) = false ∧
    eqIgnoreAsciiCase (parseShortName (entName buf i)) name = true := by
  simp [removeMatch, and_assoc]

theorem candidate_iff : candidate name buf i = true ↔ lookupMatch name buf i = true ∨ removeMatch name buf i = true := by
  rw [lookupMatch_iff, removeMatch_iff]
  simp only [candidate, Bool.and_eq_true, Bool.or_eq_true, Bool.not_eq_true']
  tauto

theorem readdirMatch_lookup (h : readdirMatch name buf i = true) : lookupMatch name buf i = true := (Bool.and_eq_true_iff.mp h).1

theorem lookupMatch_used (h : lookupMatch name buf i = true) : buf i ≠ 0 := by
  intro h0
  have hu := (lookupMatch_iff.1 h).1
  rw [unused, h0] at hu
  cases hu

/-- A name with letters is not that of an entry without one. -/
theorem readdirMatch_of_ne (h : lookupMatch name buf i = true) (hn : name ≠ []) : readdirMatch name buf i = true := by
  refine Bool.and_eq_true_iff.mpr ⟨h, ?_⟩
  rw [Bool.not_eq_true', List.isEmpty_eq_false_iff]
  intro h0
  have he := (lookupMatch_iff.1 h).2.2.2
  rw [eqIgnoreAsciiCase, decide_eq_true_eq, h0] at he
  exact hn (List.map_eq_nil_iff.mp he.symm)

theorem readdirMatch_ne (h : readdirMatch name buf i = true) : name ≠ [] := by
  rintro rfl
  obtain ⟨hl, he⟩ := Bool.and_eq_true_iff.mp h
  have hn := (lookupMatch_iff.1 hl).2.2.2
  rw [eqIgnoreAsciiCase, decide_eq_true_eq] at hn
  rw [List.map_eq_nil_iff.mp hn] at he
  cases he

/-! ## What is listed -/

/-- Looking in the part in front of a mark is looking for the mark too. -/
theorem find?_takeWhile {α : Type*} {z q : α → Bool} (h : ∀ a, q a = true → z a = false) (l : List α) :
    (l.takeWhile fun a => !z a).find? q = (l.find? fun a => z a || q a).filter q := by
  induction l with
  | nil => rfl
  | cons a l ih =>
    cases hz : z a with
    | true =>
      have hq : q a = false := by
        by_contra hc
        rw [h a (Bool.not_eq_false _ ▸ hc)] at hz
        cases hz
      rw [List.takeWhile_cons_of_neg (by simp [hz]), List.find?_cons_of_pos (by simp [hz]), Option.filter_some, hq]
      rfl
    | false =>
      rw [List.takeWhile_cons_of_pos (by simp [hz])]
      cases hq : q a with
      | true => rw [List.find?_cons_of_pos hq, List.find?_cons_of_pos (by simp [hq]), Option.filter_some, hq]; rfl
      | false => rw [List.find?_cons_of_neg (by simp [hq]), List.find?_cons_of_neg (by simp [hz, hq]), ih]

/-- The entry of a slot in front of the end marker. -/
def listSlot (buf : Buf) (i : Nat) : Option DirEntry :=
  if buf i = 0xE5 ∨ noShort (entAttr buf i) ∨ isDotName (entName buf i) then none
  else
    let name := parseShortName (entName buf i)
    if name.isEmpty then none else some ⟨name, entIsDir buf i, entSize buf i⟩

theorem clusterEntries_eq : clusterEntries v buf = (v.slots.takeWhile fun i => buf i ≠ 0).filterMap (listSlot buf) := rfl

theorem listSlot_of_match (h : readdirMatch name buf i = true) : listSlot buf i = some (slotEntry buf i) := by
  obtain ⟨hl, he⟩ := Bool.and_eq_true_iff.mp h
  obtain ⟨hu, hs, hd, -⟩ := lookupMatch_iff.1 hl
  have h5 : buf i ≠ 0xE5 := fun h5 => by
    rw [unused, h5] at hu
    cases hu
  rw [listSlot, if_neg (by simp [h5, hs, hd])]
  dsimp only
  rw [if_neg (by simpa using he)]
  rfl

theorem listSlot_any (h0 : buf i ≠ 0) : (listSlot buf i).any (fun e => eqIgnoreAsciiCase e.name name) = readdirMatch name buf i := by
  by_cases h : readdirMatch name buf i = true
  · rw [listSlot_of_match h, h]
    exact (lookupMatch_iff.1 (readdirMatch_lookup h)).2.2.2
  · rw [Bool.eq_false_iff.mpr h, Bool.eq_false_iff]
    intro ha
    unfold listSlot at ha
    split at ha
    · cases ha
    · next hn =>
      dsimp only at ha
      split at ha
      · cases ha
      · next he =>
        simp only [not_or, Bool.not_eq_true] at hn
        have hu : unused buf i = false := by
          rw [unused, decide_eq_false_iff_not]
          exact fun hu => hu.elim h0 hn.1
        refine h (Bool.and_eq_true_iff.mpr ⟨lookupMatch_iff.2 ⟨hu, hn.2.1, hn.2.2, ha⟩, ?_⟩)
        rw [Bool.eq_false_iff.mpr he]
        rfl

/-- The first name in a cluster. -/
theorem clusterEntries_find (name : Str) (buf : Buf) : (clusterEntries v buf).find? (fun e => eqIgnoreAsciiCase e.name name) =
    ((v.slots.find? (orEnd (readdirMatch name) buf)).filter (readdirMatch name buf)).map (slotEntry buf) := by
  have hor : orEnd (readdirMatch name) buf = fun i => decide (buf i = 0) || readdirMatch name buf i := by
    funext i
    simp [orEnd]
  have htw : (fun i => decide (buf i ≠ 0)) = fun i => !decide (buf i = 0) := by
    funext i
    simp
  have hcongr : ∀ m : List Nat, (∀ i ∈ m, buf i ≠ 0) →
      m.find? (fun i => (listSlot buf i).any fun e => eqIgnoreAsciiCase e.name name) = m.find? (readdirMatch name buf) := by
    intro m hm
    induction m with
    | nil => rfl
    | cons i m ih =>
      rw [List.find?_cons, List.find?_cons, listSlot_any (hm i (List.mem_cons_self ..)),
        ih fun j hj => hm j (List.mem_cons_of_mem _ hj)]
  rw [clusterEntries_eq, List.find?_filterMap, hcongr _ fun i hi => of_decide_eq_true (List.mem_takeWhile_imp (p := fun i => decide (buf i ≠ 0)) hi), htw, hor,
    ← find?_takeWhile fun i hi => by simpa using lookupMatch_used (readdirMatch_lookup hi)]
  cases hf : (v.slots.takeWhile fun i => !decide (buf i = 0)).find? (readdirMatch name buf) with
  | none => rfl
  | some i => exact listSlot_of_match (List.find?_some hf)

/-- The listing shows the slot that is listed under a name first. -/
theorem collect_find (h : collect v d n c = some es) (name : Str) :
    (∃ x i, Listed v d c name x i ∧ es.find? (fun e => eqIgnoreAsciiCase e.name name) = some (slotEntry (v.readCluster d x) i)) ∨
      es.find? (fun e => eqIgnoreAsciiCase e.name name) = none ∧ ∀ x i, ¬ Listed v d c name x i := by
  induction n generalizing c es with
  | zero => cases h
  | succ n ih =>
    rw [collect] at h
    split at h
    · next hc =>
      have hfind := clusterEntries_find (v := v) name (v.readCluster d c)
      cases hf : v.slots.find? (orEnd (readdirMatch name) (v.readCluster d c)) with
      | some i =>
        have hF : Finds v d (orEnd (readdirMatch name)) c c i := .here hc hf
        rw [hf] at hfind
        by_cases hm : readdirMatch name (v.readCluster d c) i = true
        · rw [Option.filter_some, if_pos hm] at hfind
          refine Or.inl ⟨c, i, ⟨hF, hm⟩, ?_⟩
          dsimp only at h
          split at h
          · cases h
            exact hfind
          · obtain ⟨es', -, rfl⟩ := Option.map_eq_some_iff.mp h
            rw [List.find?_append, hfind]
            rfl
        · -- an end marker
          rw [Option.filter_some, if_neg hm] at hfind
          have hz : (v.slots.any fun j => v.readCluster d c j = 0) = true := by
            have hor := List.find?_some hf
            rw [orEnd, decide_eq_true_eq] at hor
            exact List.any_eq_true.mpr ⟨i, List.mem_of_find?_eq_some hf, decide_eq_true (hor.resolve_right hm)⟩
          dsimp only at h
          rw [if_pos hz] at h
          cases h
          refine Or.inr ⟨hfind, fun x j hl => hm ?_⟩
          obtain ⟨rfl, rfl⟩ := hl.1.unique hF
          exact hl.2
      | none =>
        rw [hf] at hfind
        have hz : ¬ (v.slots.any fun j => v.readCluster d c j = 0) = true := fun hz => by
          obtain ⟨j, hj, h0⟩ := List.any_eq_true.mp hz
          exact List.find?_eq_none.mp hf j hj (decide_eq_true (Or.inl (of_decide_eq_true h0)))
        dsimp only at h
        rw [if_neg hz] at h
        obtain ⟨es', he, rfl⟩ := Option.map_eq_some_iff.mp h
        rw [List.find?_append, hfind]
        rcases ih he with ⟨x, i, hl, hes⟩ | ⟨hes, hl⟩
        · exact Or.inl ⟨x, i, ⟨.next hc hf hl.1, hl.2⟩, hes⟩
        · refine Or.inr ⟨hes, fun x i hx => ?_⟩
          obtain ⟨hF, hm⟩ := hx
          cases hF with
          | here _ hf' => cases hf.symm.trans hf'
          | next _ _ hF => exact hl x i ⟨hF, hm⟩
    · next hc =>
      cases h
      refine Or.inr ⟨rfl, fun x i hl => ?_⟩
      cases hl.1 with
      | here hc' _ => exact hc hc'
      | next hc' _ _ => exact hc hc'

/-! ## Agreement -/

/-- A directory with a sound chain, and the chains of its entries. -/
structure IsDirectory (v : Fat32Inner) (d : Device) (ino : Fat32Inode) (l : List Nat) : Prop where
  wf : v.WellFormed
  dir : ino.isDir = true
  chain : FatChain v d ino.firstCluster l
  entries : ∀ name x i, Listed v d ino.firstCluster name x i → entCluster (v.readCluster d x) i < 2 ∨
    ∃ l', FatChain v d (entCluster (v.readCluster d x) i) l'

/-- The three scans agree on a name: they take the same slot, which is in front of the end marker, and succeed together. -/
structure ScansAgree (v : Fat32Inner) (d : Device) (ino : Fat32Inode) (name : Str) : Prop where
  removed : ∀ x i, Finds v d (removeMatch name) ino.firstCluster x i ↔ Finds v d (lookupMatch name) ino.firstCluster x i
  listed : ∀ x i, Listed v d ino.firstCluster name x i ↔ Finds v d (lookupMatch name) ino.firstCluster x i
  remove_ok : (∃ d', ino.remove v d name = some (.ok (), d')) ↔ ∃ f, ino.lookup v d name = some (.ok f)
  readdir_ok : (∃ es, ino.readdir v d = some (.ok es) ∧ ∃ e ∈ es, eqIgnoreAsciiCase e.name name = true) ↔
    ∃ f, ino.lookup v d name = some (.ok f)

/-- The first slot that any of the scans could take is a short entry, as is the first slot of its cluster; it
    is in front of the end marker, is not "." or "..", and has a name. -/
def FirstFits (v : Fat32Inner) (d : Device) (c : Nat) (name : Str) : Prop := ∀ x i, Finds v d (candidate name) c x i →
  noShort (entAttr (v.readCluster d x) i) = false ∧ noShort (v.readCluster d x 11) = false ∧
    Finds v d (orEnd (candidate name)) c x i ∧ isDotName (entName (v.readCluster d x) i) = false ∧ name ≠ []

theorem FatChain.leadsTo (h : FatChain v d c l) : LeadsTo v d Outside c := by
  obtain ⟨k, hk⟩ := exists_chain_iff.mp ⟨l, h.chain⟩
  refine ⟨k, ?_⟩
  show Fat32Inner.inData _ = false
  rw [Fat32Inner.inData, decide_eq_false_iff_not]
  omega

theorem Finds.mem (h : Finds v d p c x i) (hl : FatChain v d c l) : x ∈ l := by
  induction h generalizing l with
  | here hc _ =>
    cases l with
    | nil =>
      rw [hl.not_inData] at hc
      cases hc
    | cons y l =>
      obtain ⟨rfl, -⟩ := hl.cons
      exact List.mem_cons_self ..
  | next hc _ _ ih =>
    cases l with
    | nil =>
      rw [hl.not_inData] at hc
      cases hc
    | cons y l =>
      obtain ⟨rfl, ht⟩ := hl.cons
      exact List.mem_cons_of_mem _ (ih ht)

theorem readdir_ok_iff (h : IsDirectory v d ino l) :
    (∃ es, ino.readdir v d = some (.ok es) ∧ ∃ e ∈ es, eqIgnoreAsciiCase e.name name = true) ↔
      ∃ x i, Listed v d ino.firstCluster name x i := by
  have hr : ino.readdir v d = (collect v d chainFuel ino.firstCluster).map .ok := by
    rw [Fat32Inode.readdir, h.dir]
    rfl
  obtain ⟨k, hk⟩ := h.chain.leadsTo
  obtain ⟨es, hes⟩ := Option.isSome_iff_exists.mp (collect_isSome.mpr ⟨k, Or.inl hk⟩)
  rw [hr, hes]
  constructor
  · intro ⟨es', he, e, hmem, hn⟩
    cases he
    rcases collect_find hes name with ⟨x, i, hl, -⟩ | ⟨hnone, -⟩
    · exact ⟨x, i, hl⟩
    · exact absurd hn (List.find?_eq_none.mp hnone e hmem)
  · intro ⟨x, i, hl⟩
    rcases collect_find hes name with ⟨y, j, -, hf⟩ | ⟨-, hno⟩
    · exact ⟨es, rfl, _, List.mem_of_find?_eq_some hf, List.find?_some (p := fun e : DirEntry => eqIgnoreAsciiCase e.name name) hf⟩
    · exact absurd hl (hno x i)

/-- The slot that each scan takes is the first candidate. -/
theorem FirstFits.scans (h : FirstFits v d c name) (x i : Nat) :
    (Finds v d (lookupMatch name) c x i ↔ Finds v d (candidate name) c x i) ∧
    (Finds v d (removeMatch name) c x i ↔ Finds v d (candidate name) c x i) ∧
    (Listed v d c name x i ↔ Finds v d (candidate name) c x i) := by
  have hL : ∀ {b j}, lookupMatch name b j = true → candidate name b j = true := fun hm => candidate_iff.2 (Or.inl hm)
  have hR : ∀ {b j}, removeMatch name b j = true → candidate name b j = true := fun hm => candidate_iff.2 (Or.inr hm)
  have hfit : ∀ {y j}, Finds v d (candidate name) c y j → Finds v d (lookupMatch name) c y j ∧ Finds v d (removeMatch name) c y j ∧
      Listed v d c name y j := by
    intro y j hF
    obtain ⟨ha, h11, hE, hd, hn⟩ := h y j hF
    have hc := hF.slot.2.2
    rw [candidate, Bool.and_eq_true, Bool.and_eq_true, Bool.not_eq_true'] at hc
    have hl : lookupMatch name (v.readCluster d y) j = true := lookupMatch_iff.2 ⟨hc.1.1, ha, hd, hc.1.2⟩
    have hr : removeMatch name (v.readCluster d y) j = true := removeMatch_iff.2 ⟨hc.1.1, h11, hc.1.2⟩
    have hm := readdirMatch_of_ne hl hn
    refine ⟨hF.mono hl fun _ _ => hL, hF.mono hr fun _ _ => hR, hE.mono (decide_eq_true (Or.inr hm)) fun b k hk => ?_, hm⟩
    rw [orEnd, decide_eq_true_eq] at hk ⊢
    exact hk.imp id fun hk => hL (readdirMatch_lookup hk)
  refine ⟨⟨fun hF => ?_, fun hF => (hfit hF).1⟩, ⟨fun hF => ?_, fun hF => (hfit hF).2.1⟩, ⟨fun hF => ?_, fun hF => (hfit hF).2.2⟩⟩
  · obtain ⟨y, j, hC⟩ := hF.exists_of_le fun _ _ => hL
    obtain ⟨rfl, rfl⟩ := hF.unique (hfit hC).1
    exact hC
  · obtain ⟨y, j, hC⟩ := hF.exists_of_le fun _ _ => hR
    obtain ⟨rfl, rfl⟩ := hF.unique (hfit hC).2.1
    exact hC
  · have hslot : Finds v d (lookupMatch name) c x i := hF.1.mono (readdirMatch_lookup hF.2) fun _ _ hm =>
      decide_eq_true (Or.inr (readdirMatch_of_ne hm (readdirMatch_ne hF.2)))
    obtain ⟨y, j, hC⟩ := hslot.exists_of_le fun _ _ => hL
    obtain ⟨rfl, rfl⟩ := hF.1.unique (hfit hC).2.2.1
    exact hC

theorem lookup_ok_iff_finds (h : IsDirectory v d ino l) (hl : ∀ x i, Finds v d (lookupMatch name) ino.firstCluster x i →
    Listed v d ino.firstCluster name x i) :
    (∃ f, ino.lookup v d name = some (.ok f)) ↔ ∃ x i, Finds v d (lookupMatch name) ino.firstCluster x i := by
  constructor
  · intro ⟨f, hf⟩
    obtain ⟨x, i, size, hF, -, -⟩ := lookup_ok_iff.mp hf
    exact ⟨x, i, hF⟩
  · intro ⟨x, i, hF⟩
    have hend : LeadsTo v d Outside (entCluster (v.readCluster d x) i) := by
      rcases h.entries name x i (hl x i hF) with h2 | ⟨l', hc⟩
      · refine ⟨0, ?_⟩
        show inData _ = false
        rw [inData, decide_eq_false_iff_not]
        exact fun hc => absurd hc.1 (Nat.not_le.mpr h2)
      · exact hc.leadsTo
    obtain ⟨size, hs⟩ := Option.isSome_iff_exists.mp (chainSize_isSome_iff.mpr hend)
    exact ⟨slotInode v d x i size, lookup_ok_iff.mpr ⟨x, i, size, hF, hs, rfl⟩⟩

theorem remove_ok_iff_finds (h : IsDirectory v d ino l) (hl : ∀ x i, Finds v d (removeMatch name) ino.firstCluster x i →
    Listed v d ino.firstCluster name x i) :
    (∃ d', ino.remove v d name = some (.ok (), d')) ↔ ∃ x i, Finds v d (removeMatch name) ino.firstCluster x i := by
  unfold Fat32Inode.remove
  rw [h.dir, if_neg (by decide)]
  constructor
  · intro ⟨d', hd⟩
    obtain ⟨r, hr, he⟩ := Option.bind_eq_some_iff.mp hd
    cases r with
    | none => cases he
    | some xi => exact ⟨xi.1, xi.2, finds_iff.mp hr⟩
  · intro ⟨x, i, hF⟩
    rw [finds_iff.mpr hF, Option.bind_some]
    dsimp only
    by_cases h2 : entCluster (v.readCluster d x) i ≥ 2
    · obtain ⟨l', hc⟩ := (h.entries name x i (hl x i hF)).resolve_left (Nat.not_lt.mpr h2)
      -- the mark in the slot leaves the chain as it was
      have hc' : FatChain v (v.writeCluster d x (Buf.copyAt (v.readCluster d x) i [0xE5])) (entCluster (v.readCluster d x) i) l' :=
        hc.congr fun y hy => readFatEntry_writeCluster h.wf (hc.range y hy).2
      obtain ⟨d', hd, -⟩ := freeChain_eq hc' h.wf (hc'.length_lt h.wf)
      rw [if_pos h2, hd]
      exact ⟨d', rfl⟩
    · rw [if_neg h2]
      exact ⟨_, rfl⟩

/-- The three scans of a directory agree on a name exactly if the first slot that any could take fits. -/
theorem scans_agree_iff (h : IsDirectory v d ino l) (name : Str) :
    ScansAgree v d ino name ↔ FirstFits v d ino.firstCluster name := by
  constructor
  · intro hA x i hC
    have hboth : Finds v d (lookupMatch name) ino.firstCluster x i := by
      rcases candidate_iff.1 hC.slot.2.2 with hm | hm
      · exact hC.mono hm fun _ _ hm => candidate_iff.2 (Or.inl hm)
      · exact (hA.removed x i).mp (hC.mono hm fun _ _ hm => candidate_iff.2 (Or.inr hm))
    obtain ⟨hE, hm⟩ := (hA.listed x i).mpr hboth
    have hr := (removeMatch_iff.1 ((hA.removed x i).mpr hboth).slot.2.2).2.1
    obtain ⟨-, ha, hd, -⟩ := lookupMatch_iff.1 hboth.slot.2.2
    refine ⟨ha, hr, ?_, hd, readdirMatch_ne hm⟩
    refine (hE.or hC).mono (decide_eq_true (Or.inr hC.slot.2.2)) fun b j hj => ?_
    rw [orEnd, decide_eq_true_eq] at hj
    rw [Bool.or_eq_true, orEnd, decide_eq_true_eq]
    exact hj.elim (fun h0 => Or.inl (Or.inl h0)) Or.inr
  · intro hF
    have hs := hF.scans
    have hlook := lookup_ok_iff_finds h fun x i hx => (hs x i).2.2.mpr ((hs x i).1.mp hx)
    have hrem := remove_ok_iff_finds h fun x i hx => (hs x i).2.2.mpr ((hs x i).2.1.mp hx)
    refine ⟨fun x i => (hs x i).2.1.trans (hs x i).1.symm, fun x i => (hs x i).2.2.trans (hs x i).1.symm, ?_, ?_⟩
    · rw [hlook, hrem]
      exact exists₂_congr fun x i => (hs x i).2.1.trans (hs x i).1.symm
    · rw [hlook, readdir_ok_iff h]
      exact exists₂_congr fun x i => (hs x i).2.2.trans (hs x i).1.symm

/-! ## A volume label -/

/-- The root of the small volume: a first slot, and the file `A` in the second one. -/
def rootWith (slot : List UInt8) : Device :=
  small.writeCluster oneFile 2 (Buf.copyAt (Buf.copyAt zeroBuf 0 slot) 32 (rawEntry (0x41 :: List.replicate 10 space) 3 false))

def rootDir : Fat32Inode := ⟨2, 512, true⟩

def labelSlot : List UInt8 := 0x56 :: List.replicate 10 space ++ [attrVolumeId]

def fileSlot : List UInt8 := rawEntry (0x42 :: List.replicate 10 space) 0 false

theorem rootWith_isDirectory (slot : List UInt8)
    (hs : ∀ i ∈ small.slots, entCluster (small.readCluster (rootWith slot) 2) i < 2 ∨ entCluster (small.readCluster (rootWith slot) 2) i = 3) :
    IsDirectory small (rootWith slot) rootDir [2] := by
  have hchain : ∀ {c}, 2 ≤ c → c < 4 → FatChain small (rootWith slot) c [c] := fun {c} h h4 =>
    (oneFile_chain h h4).congr fun y hy => readFatEntry_writeCluster small_wf ((oneFile_chain h h4).range y hy).2
  refine ⟨small_wf, rfl, hchain (by decide) (by decide), fun name x i hl => ?_⟩
  have hroot := hchain (c := 2) (by decide) (by decide)
  obtain ⟨-, hi, -⟩ := hl.1.slot
  have hx : x = 2 := List.mem_singleton.mp (hl.1.mem hroot)
  subst hx
  rcases hs i hi with h2 | h3
  · exact Or.inl h2
  · rw [h3]
    exact Or.inr ⟨[3], hchain (by decide) (by decide)⟩

/-- With a file in the first slot. -/
theorem scans_agree_iff_rootWith : ScansAgree small (rootWith fileSlot) rootDir ['a'] := by
  refine (scans_agree_iff (rootWith_isDirectory fileSlot (by decide +kernel)) ['a']).mpr fun x i hF => ?_
  have hscan : small.scanChain (rootWith fileSlot) (candidate ['a']) chainFuel 2 = some (some (2, 32)) := by decide +kernel
  have hend : small.scanChain (rootWith fileSlot) (orEnd (candidate ['a'])) chainFuel 2 = some (some (2, 32)) := by decide +kernel
  obtain ⟨rfl, rfl⟩ := hF.unique (finds_iff.mp hscan)
  exact ⟨by decide +kernel, by decide +kernel, finds_iff.mp hend, by decide +kernel, List.cons_ne_nil _ _⟩

/-- With the volume label in the first slot `lookup` finds the file and `remove` does not. -/
theorem label_hides : ¬ ∀ v d ino l name, IsDirectory v d ino l → ScansAgree v d ino name := by
  intro h
  have hA := h small (rootWith labelSlot) rootDir [2] ['a'] (rootWith_isDirectory labelSlot (by decide +kernel))
  have hfound : small.scanChain (rootWith labelSlot) (lookupMatch ['a']) chainFuel 2 = some (some (2, 32)) := by decide +kernel
  have hmissed : small.scanChain (rootWith labelSlot) (removeMatch ['a']) chainFuel 2 = some none := by decide +kernel
  exact ((hA.removed 2 32).mpr (finds_iff.mp hfound)).not_misses (misses_iff.mp hmissed)

end Myos.Fat
