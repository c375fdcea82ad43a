/-
  Myos.Fat.Paths — the files of a FAT32 volume by path.

  Above the tree of nodes: what a user of the paths sees. A path is a list of names without case;
  to each inode that is held belongs the path of its node, if there is one. An inode of a node that
  was removed may become one of a node that is created later.

  Proved: the tree is a forest, so that a path that is created, written or removed leaves all others
  as they are; every run of proper calls is a run of the map of paths, and `path_walk`, `read_at` and
  `readdir` then show what the map says.
-/

import Myos.Fat.TreeRuns
import Myos.Fat.PathWalk
import Myos.Lib.Forest

namespace Myos.Fat

open Lib Fat32Inner Fat32Inode

/-- What is at a path. -/
inductive Item where
  | file (data : List UInt8)
  | dir

def Item.isDir : Item → Bool
  | file _ => false
  | dir => true

abbrev Files := List Str → Option Item

def Node.item : Node → Item
  | file data => .file data
  | dir _ => .dir

def newItem (clusBytes : Nat) (isDir : Bool) : Item := if isDir then .dir else .file (zeros clusBytes)

/-- The node that the entry of a name is for. -/
def childOf (T : Tree) (c : Nat) (x : Str) : Option Nat :=
  match T c with
  | some (.dir m) => (m x).map Named.id
  | _ => none

def filesOf (T : Tree) (root : Nat) : Files := fun p => (walk (childOf T) root p).bind fun c => (T c).map Node.item

open Classical in
/-- The path of a node. -/
noncomputable def pathOf (T : Tree) (root c : Nat) : Option (List Str) :=
  if h : ∃ p, walk (childOf T) root p = some c then some h.choose else none

/-- An inode that is held: the path of its node, and what it says of it. -/
structure Handle where
  path : Option (List Str)
  size : Nat
  isDir : Bool

structure View where
  files : Files
  handles : List Handle
  free : Nat

noncomputable def handleOf (T : Tree) (root : Nat) (ino : Fat32Inode) : Handle := ⟨pathOf T root ino.firstCluster, ino.size, ino.isDir⟩

noncomputable def viewOf (root : Nat) (s : Contents) : View := ⟨filesOf s.tree root, s.inodes.map (handleOf s.tree root), s.free⟩

/-- The inode that a call goes through. -/
def Call.inode? : Call → Option Nat
  | .root => none
  | .lookup k _ | .create k _ _ | .writeAt k _ _ | .truncate k | .remove k _ => some k

namespace View

/-- The node at `t` is new; inodes without a path may be inodes of it. -/
def Revives (t : List Str) : List Handle → List Handle → Prop := List.Forall₂ fun a b => b = a ∨ a.path = none ∧ b = { a with path := some t }

/-- What is at `t` and below is gone. -/
def without (t : List Str) (a : Handle) : Handle := { a with path := a.path.bind fun q => if t <+: q then none else some q }

inductive Step (clusBytes : Nat) (V : View) : Call → View → Prop where
  | root (size : Nat) : Step clusBytes V .root { V with handles := V.handles ++ [⟨some [], size, true⟩] }
  | found {k size : Nat} {name : Str} {a : Handle} {p : List Str} {i : Item} : V.handles[k]? = some a → a.path = some p →
      V.files p = some .dir → V.files (p ++ [folded name]) = some i → (∀ data, i = .file data → size = data.length) →
      Step clusBytes V (.lookup k name) { V with handles := V.handles ++ [⟨some (p ++ [folded name]), size, i.isDir⟩] }
  | missing {k : Nat} {name : Str} {a : Handle} {p : List Str} : V.handles[k]? = some a → a.path = some p → V.files p = some .dir →
      V.files (p ++ [folded name]) = none → Step clusBytes V (.lookup k name) V
  | created {k free : Nat} {name : Str} {isDir : Bool} {a : Handle} {p : List Str} {H : List Handle} : V.handles[k]? = some a →
      a.path = some p → a.isDir = true → V.files p = some .dir → V.files (p ++ [folded name]) = none → Revives (p ++ [folded name]) V.handles H →
      free + 1 = V.free ∨ free + 2 = V.free →
      Step clusBytes V (.create k name isDir) ⟨Function.update V.files (p ++ [folded name]) (some (newItem clusBytes isDir)),
        H ++ [⟨some (p ++ [folded name]), if isDir then clusBytes else 0, isDir⟩], free⟩
  | refused {k : Nat} {name : Str} {isDir : Bool} {a : Handle} : V.handles[k]? = some a →
      (a.isDir = false ∨ (∃ msg, encodeShortName name = .error msg) ∨ V.free = 0) → Step clusBytes V (.create k name isDir) V
  -- the last cluster is taken and not given back
  | leaked {k : Nat} {name : Str} {isDir : Bool} : V.free = 1 → Step clusBytes V (.create k name isDir) { V with free := 0 }
  | wroteNothing {k off : Nat} : Step clusBytes V (.writeAt k off []) V
  | wrote {k off free : Nat} {bytes data data' : List UInt8} {a : Handle} {p : List Str} : V.handles[k]? = some a → a.path = some p →
      V.files p = some (.file data) → bytes ≠ [] →
      data'.length = max data.length ((1 + (off + bytes.length - a.size - 1) / clusBytes) * clusBytes) →
      (off + bytes.length ≤ data'.length → data' = patch (data ++ zeros (data'.length - data.length)) off bytes) →
      free * clusBytes + data'.length = V.free * clusBytes + data.length →
      Step clusBytes V (.writeAt k off bytes)
        ⟨Function.update V.files p (some (.file data')), V.handles.set k { a with size := max a.size (off + bytes.length) }, free⟩
  | writeFull {k off : Nat} {bytes data : List UInt8} {a : Handle} {p : List Str} : V.handles[k]? = some a → a.path = some p →
      V.files p = some (.file data) → data.length + V.free * clusBytes < (1 + (off + bytes.length - a.size - 1) / clusBytes) * clusBytes →
      Step clusBytes V (.writeAt k off bytes)
        ⟨Function.update V.files p (some (.file (data ++ zeros (V.free * clusBytes)))), V.handles, 0⟩
  | truncated {k : Nat} {a : Handle} : V.handles[k]? = some a →
      Step clusBytes V (.truncate k) { V with handles := V.handles.set k { a with size := 0 } }
  | removed {k n : Nat} {name : Str} {a : Handle} {p : List Str} {i : Item} : V.handles[k]? = some a → a.path = some p →
      V.files p = some .dir → V.files (p ++ [folded name]) = some i → 0 < n → (∀ data, i = .file data → n * clusBytes = data.length) →
      Step clusBytes V (.remove k name) ⟨fun q => if p ++ [folded name] <+: q then none else V.files q,
        V.handles.map (without (p ++ [folded name])), V.free + n⟩
  | notRemoved {k : Nat} {name : Str} {a : Handle} : V.handles[k]? = some a →
      (a.isDir = false ∨ ∃ p, a.path = some p ∧ V.files p = some .dir ∧ V.files (p ++ [folded name]) = none) → Step clusBytes V (.remove k name) V
  -- through an inode whose node has no path: no path changes
  | unlinked {k free : Nat} {c : Call} {a : Handle} {H : List Handle} : c.inode? = some k → V.handles[k]? = some a → a.path = none →
      (H = V.handles ∨ (∃ size isDir, H = V.handles ++ [⟨none, size, isDir⟩]) ∨ ∃ size, H = V.handles.set k { a with size := size }) →
      Step clusBytes V c ⟨V.files, H, free⟩

end View

variable {v : Fat32Inner} {d : Device} {objs : Objects} {T T' : Tree} {root a b c k n : Nat} {x y name : Str} {p q : List Str} {m : Str → Option Named}
  {h : Held} {s s' : Contents}

/-! ## The tree is a forest -/

/-- One entry at most for each node, none for the root, and a node for each entry. -/
structure Grown (T : Tree) (root : Nat) : Prop where
  forest : Forest (childOf T) root
  closed : ∀ {a x c}, childOf T a x = some c → T c ≠ none
  top : ∃ m, T root = some (.dir m)

theorem childOf_eq_some : childOf T a x = some c ↔ ∃ m e, T a = some (.dir m) ∧ m x = some e ∧ e.id = c := by
  unfold childOf
  split
  next m hm =>
    rw [Option.map_eq_some_iff]
    constructor
    · intro hex
      obtain ⟨e, he, hid⟩ := hex
      exact ⟨m, e, hm, he, hid⟩
    · intro hex
      obtain ⟨m', e, hm', he, hid⟩ := hex
      cases hm.symm.trans hm'
      exact ⟨e, he, hid⟩
  next hno =>
    constructor
    · intro h
      cases h
    · intro hex
      obtain ⟨m, e, hm, -⟩ := hex
      exact absurd hm (hno m)

theorem childOf_none_of (h : ∀ m, T a ≠ some (.dir m)) : childOf T a x = none := by
  rw [Option.eq_none_iff_forall_not_mem]
  intro c hc
  obtain ⟨m, -, hm, -⟩ := childOf_eq_some.1 hc
  exact h m hm

theorem Models.grown (hM : Models v d objs) : Grown (treeOf v d objs) v.rootClus := by
  -- an entry: its directory, its slot, and the node it is for
  have hentry : ∀ {a x c}, childOf (treeOf v d objs) a x = some c → ∃ l q e, objs a = some (true, l) ∧ q ∈ places v l ∧
      slotOf v d q = .used e ∧ e.key = x ∧ e.id = c := by
    intro a x c h
    obtain ⟨m, e, hm, he, hid⟩ := childOf_eq_some.1 h
    obtain ⟨l, ho, rfl⟩ := treeOf_dir.mp hm
    obtain ⟨hk, q, hq, hu⟩ := (valueOf_eq_some (hM.neat _ _ ho).table).mp he
    exact ⟨l, q, e, ho, hq, hu, hk, hid⟩
  refine ⟨⟨?_, ?_⟩, ?_, ?_⟩
  · intro a b c x y ha hb
    obtain ⟨l, q, e, ho, hq, hu, rfl, rfl⟩ := hentry ha
    obtain ⟨l', q', e', ho', hq', hu', rfl, hid⟩ := hentry hb
    obtain ⟨hE, hc, h2, -⟩ := hM.entryAt ho hq hu
    obtain ⟨hE', hc', h2', -⟩ := hM.entryAt ho' hq' hu'
    obtain ⟨h1, h3⟩ := hM.sound.once _ _ _ _ hE hE' (hc.symm ▸ h2) (hc.trans (hid.symm.trans hc'.symm))
    have hqq : q = q' := Prod.ext h1 h3
    subst hqq
    cases hu.symm.trans hu'
    refine ⟨by_contra fun hab => ?_, rfl⟩
    exact hM.sound.apart _ _ _ _ _ _ ho ho' hab q.1 (mem_places.mp hq).1 (mem_places.mp hq').1
  · intro a x ha
    obtain ⟨l, q, e, ho, hq, hu, -, hid⟩ := hentry ha
    exact (hM.entryAt ho hq hu).2.2.2.1 hid
  · intro a x c ha
    obtain ⟨l, q, e, ho, hq, hu, -, rfl⟩ := hentry ha
    obtain ⟨-, -, -, -, l', ho'⟩ := hM.entryAt ho hq hu
    rw [treeOf_some ho']
    exact Option.some_ne_none _
  · obtain ⟨l, ho⟩ := hM.sound.root
    exact ⟨_, treeOf_some ho⟩

theorem Holds.grown (hh : Holds v h s) : Grown s.tree v.rootClus := by
  obtain ⟨objs, hM, rfl⟩ := hh
  exact hM.grown

/-! ## Paths of nodes -/

namespace Grown

theorem pathOf_eq_some (hG : Grown T root) : pathOf T root c = some p ↔ walk (childOf T) root p = some c := by
  unfold pathOf
  split
  next hex =>
    constructor
    · intro heq
      cases heq
      exact hex.choose_spec
    · intro hp
      rw [hG.forest.walk_inj hex.choose_spec hp]
  next hno =>
    constructor
    · intro heq
      cases heq
    · intro hp
      exact absurd ⟨p, hp⟩ hno

theorem pathOf_root (hG : Grown T root) : pathOf T root root = some [] := hG.pathOf_eq_some.mpr rfl

theorem files_of_path (hG : Grown T root) (hp : pathOf T root c = some p) : filesOf T root p = (T c).map Node.item := by
  unfold filesOf
  rw [hG.pathOf_eq_some.mp hp]
  rfl

/-- A path leads to a node. -/
theorem node (hG : Grown T root) (hw : walk (childOf T) root p = some c) : T c ≠ none := by
  cases Forest.walk_edge hw with
  | inl hc =>
    obtain ⟨m, hm⟩ := hG.top
    rw [hc, hm]
    exact Option.some_ne_none _
  | inr hc =>
    obtain ⟨a, x, hx⟩ := hc
    exact hG.closed hx

/-- The path of what an entry is for. -/
theorem pathOf_child (hG : Grown T root) (hp : pathOf T root a = some p) (hx : childOf T a x = some c) : pathOf T root c = some (p ++ [x]) := by
  rw [hG.pathOf_eq_some] at hp ⊢
  rw [walk_concat, hp]
  exact hx

theorem pathOf_child_none (hG : Grown T root) (hp : pathOf T root a = none) (hx : childOf T a x = some c) : pathOf T root c = none := by
  rw [Option.eq_none_iff_forall_not_mem]
  intro q hq
  have hw := hG.pathOf_eq_some.mp hq
  induction q using List.reverseRecOn with
  | nil =>
    cases hw
    exact hG.forest.root hx
  | append_singleton q y _ =>
    rw [walk_concat] at hw
    obtain ⟨b, hb, hy⟩ := Option.bind_eq_some_iff.mp hw
    obtain ⟨rfl, -⟩ := hG.forest.once hx hy
    rw [hG.pathOf_eq_some.mpr hb] at hp
    cases hp

theorem files_child (hG : Grown T root) (hp : pathOf T root a = some p) (x : Str) :
    filesOf T root (p ++ [x]) = (childOf T a x).bind fun c => (T c).map Node.item := by
  unfold filesOf
  rw [walk_concat, hG.pathOf_eq_some.mp hp]
  rfl

theorem files_child_eq_none (hG : Grown T root) (hp : pathOf T root a = some p) : filesOf T root (p ++ [x]) = none ↔ childOf T a x = none := by
  rw [hG.files_child hp]
  cases hx : childOf T a x with
  | none => simp
  | some c =>
    obtain ⟨node, hn⟩ := Option.ne_none_iff_exists'.mp (hG.closed hx)
    simp [hn]

end Grown

theorem pathOf_congr (hw : ∀ q, walk (childOf T') root q = walk (childOf T) root q) (c : Nat) : pathOf T' root c = pathOf T root c := by
  have hf : walk (childOf T') root = walk (childOf T) root := funext hw
  unfold pathOf
  rw [hf]

/-! ## What changes at the paths -/

/-- Nothing changes where a path leads. -/
theorem files_unreached (h : ∀ p b, walk (childOf T) root p = some b → (∀ y, childOf T' b y = childOf T b y) ∧ (T' b).map Node.item = (T b).map Node.item) :
    filesOf T' root = filesOf T root ∧ ∀ c, pathOf T' root c = pathOf T root c := by
  have hw : ∀ q, walk (childOf T') root q = walk (childOf T) root q := walk_congr fun p b hp x => (h p b hp).1 x
  refine ⟨?_, pathOf_congr hw⟩
  funext q
  unfold filesOf
  rw [hw]
  cases hq : walk (childOf T) root q with
  | none => rfl
  | some b => exact (h q b hq).2

/-- An entry changes in a directory without a path, and a node without a path. -/
theorem Grown.files_unlinked (hG : Grown T root) (ha : pathOf T root a = none) (hn : pathOf T root n = none)
    (hother : ∀ b y, b ≠ n → ¬ (b = a ∧ y = x) → childOf T' b y = childOf T b y) (hi : ∀ b, b ≠ n → (T' b).map Node.item = (T b).map Node.item) :
    filesOf T' root = filesOf T root ∧ ∀ c, pathOf T' root c = pathOf T root c := by
  apply files_unreached
  intro p b hb
  have hb' := hG.pathOf_eq_some.mpr hb
  have hbn : b ≠ n := by
    intro heq
    rw [heq, hn] at hb'
    cases hb'
  have hba : b ≠ a := by
    intro heq
    rw [heq, ha] at hb'
    cases hb'
  exact ⟨fun y => hother b y hbn fun h => hba h.1, hi b hbn⟩

namespace Grown

/-- One node changes, and no entry. -/
theorem files_item (hG : Grown T root) (hw : ∀ b y, childOf T' b y = childOf T b y)
    (hi : ∀ b, b ≠ c → (T' b).map Node.item = (T b).map Node.item) :
    (∀ p, pathOf T root c = some p → filesOf T' root = Function.update (filesOf T root) p ((T' c).map Node.item)) ∧
      (pathOf T root c = none → filesOf T' root = filesOf T root) ∧ ∀ b, pathOf T' root b = pathOf T root b := by
  have hwalk : ∀ q, walk (childOf T') root q = walk (childOf T) root q := walk_congr fun _ b _ x => hw b x
  refine ⟨fun p hp => ?_, fun hn => ?_, pathOf_congr hwalk⟩
  · funext q
    by_cases hq : q = p
    · rw [hq, Function.update_self, filesOf, hwalk, hG.pathOf_eq_some.mp hp]
      rfl
    · rw [Function.update_of_ne hq, filesOf, filesOf, hwalk]
      cases hb : walk (childOf T) root q with
      | none => rfl
      | some b =>
        apply hi b
        intro heq
        subst heq
        exact hq (hG.forest.walk_inj hb (hG.pathOf_eq_some.mp hp))
  · funext q
    rw [filesOf, filesOf, hwalk]
    cases hb : walk (childOf T) root q with
    | none => rfl
    | some b =>
      apply hi b
      intro heq
      subst heq
      rw [hG.pathOf_eq_some.mpr hb] at hn
      cases hn

/-- A node that is not there has no path. -/
theorem pathOf_absent (hG : Grown T root) (hn : T n = none) : pathOf T root n = none := by
  rw [Option.eq_none_iff_forall_not_mem]
  intro q hq
  cases Forest.walk_edge (hG.pathOf_eq_some.mp hq) with
  | inl h =>
    obtain ⟨m, hm⟩ := hG.top
    rw [h, hm] at hn
    cases hn
  | inr h =>
    obtain ⟨b, y, hb⟩ := h
    exact hG.closed hb hn

/-- A node is hung in under a path. -/
theorem files_hang (hG : Grown T root) (hG' : Grown T' root) (hp : pathOf T root a = some p) (hno : childOf T a x = none) (hn : T n = none)
    (hx : childOf T' a x = some n) (hnn : ∀ y, childOf T' n y = none) (hother : ∀ b y, b ≠ n → ¬ (b = a ∧ y = x) → childOf T' b y = childOf T b y)
    (hi : ∀ b, b ≠ n → (T' b).map Node.item = (T b).map Node.item) :
    filesOf T' root = Function.update (filesOf T root) (p ++ [x]) ((T' n).map Node.item) ∧
      pathOf T' root n = some (p ++ [x]) ∧ ∀ c, c ≠ n → pathOf T' root c = pathOf T root c := by
  have hw := hG.pathOf_eq_some.mp hp
  have hroot : n ≠ root := by
    intro heq
    subst heq
    obtain ⟨m, hm⟩ := hG.top
    rw [hm] at hn
    cases hn
  have hwalk := hG.forest.walk_hang hw hno hroot (fun b y hb => hG.closed hb hn) hx hnn hother
  have hnew : walk (childOf T') root (p ++ [x]) = some n := by rw [hwalk, if_pos rfl]
  have hold : walk (childOf T) root (p ++ [x]) = none := by
    rw [walk_concat, hw]
    exact hno
  refine ⟨?_, hG'.pathOf_eq_some.mpr hnew, fun c hc => ?_⟩
  · funext q
    by_cases hq : q = p ++ [x]
    · rw [hq, Function.update_self, filesOf, hnew]
      rfl
    · rw [Function.update_of_ne hq, filesOf, filesOf, hwalk, if_neg hq]
      cases hb : walk (childOf T) root q with
      | none => rfl
      | some b =>
        apply hi b
        intro heq
        subst heq
        have := hG.pathOf_absent hn
        rw [hG.pathOf_eq_some.mpr hb] at this
        cases this
  · ext q
    rw [hG'.pathOf_eq_some, hG.pathOf_eq_some, hwalk]
    by_cases hq : q = p ++ [x]
    · rw [if_pos hq, hq, hold]
      constructor
      · intro h
        exact absurd (Option.some.inj h).symm hc
      · intro h
        cases h
    · rw [if_neg hq]

/-- The entry under a path is cut, and its node is gone. -/
theorem files_cut (hG : Grown T root) (hG' : Grown T' root) (hp : pathOf T root a = some p) (hold : childOf T a x = some n)
    (hx : childOf T' a x = none) (hother : ∀ b y, b ≠ n → ¬ (b = a ∧ y = x) → childOf T' b y = childOf T b y)
    (hi : ∀ b, b ≠ n → (T' b).map Node.item = (T b).map Node.item) :
    (filesOf T' root = fun q => if p ++ [x] <+: q then none else filesOf T root q) ∧
      ∀ c, pathOf T' root c = (pathOf T root c).bind fun q => if p ++ [x] <+: q then none else some q := by
  have hw := hG.pathOf_eq_some.mp hp
  have hgone : walk (childOf T) root (p ++ [x]) = some n := by
    rw [walk_concat, hw]
    exact hold
  have hwalk : ∀ q, walk (childOf T') root q = if p ++ [x] <+: q then none else walk (childOf T) root q := by
    apply hG.forest.walk_cut hw hx
    intro b y hax hr
    apply hother b y _ hax
    intro heq
    subst heq
    exact hr _ hgone (List.prefix_refl _)
  refine ⟨?_, fun c => ?_⟩
  · funext q
    rw [filesOf, hwalk]
    by_cases hq : p ++ [x] <+: q
    · rw [if_pos hq, if_pos hq]
      rfl
    · rw [if_neg hq, if_neg hq, filesOf]
      cases hb : walk (childOf T) root q with
      | none => rfl
      | some b =>
        apply hi b
        intro heq
        subst heq
        rw [hG.forest.walk_inj hb hgone] at hq
        exact hq (List.prefix_refl _)
  · ext q
    rw [hG'.pathOf_eq_some, hwalk]
    cases hc : pathOf T root c with
    | none =>
      have hno : walk (childOf T) root q ≠ some c := by
        intro h
        rw [hG.pathOf_eq_some.mpr h] at hc
        cases hc
      constructor
      · intro h
        split at h
        · cases h
        · exact absurd h hno
      · intro h
        cases h
    | some r =>
      have hr := hG.pathOf_eq_some.mp hc
      show _ ↔ (if p ++ [x] <+: r then none else some r) = some q
      constructor
      · intro h
        split at h
        · cases h
        next hq =>
          rw [hG.forest.walk_inj hr h, if_neg hq]
      · intro h
        split at h
        · cases h
        next hr' =>
          cases h
          rw [if_neg hr']
          exact hr

end Grown

/-! ## Steps -/

theorem childOf_dir (h : T a = some (.dir m)) (x : Str) : childOf T a x = (m x).map Named.id := by
  unfold childOf
  rw [h]

theorem childOf_congr (h : T' b = T b) (y : Str) : childOf T' b y = childOf T b y := by
  unfold childOf
  rw [h]

theorem noteSize_item (T : Tree) (root id size b : Nat) : (noteSize T root id size b).map Node.item = (T b).map Node.item := by
  unfold noteSize
  split
  next m hm =>
    rw [hm]
    rfl
  · rfl

theorem noteSize_child (T : Tree) (root id size b : Nat) (y : Str) : childOf (noteSize T root id size) b y = childOf T b y := by
  cases hb : T b with
  | none => exact childOf_congr (by simp [noteSize, hb]) y
  | some node =>
    cases node with
    | file data => exact childOf_congr (by simp [noteSize, hb]) y
    | dir m =>
      have hT : noteSize T root id size b = some (.dir (if b = root then resized m id size else m)) := by
        unfold noteSize
        rw [hb]
      rw [childOf_dir hT, childOf_dir hb]
      split
      · unfold resized
        cases m y with
        | none => rfl
        | some e =>
          rw [Option.map_some, Option.map_some, Option.map_some]
          split <;> rfl
      · rfl

variable {clusBytes free : Nat} {ino : Fat32Inode} {isDir : Bool} {data data' : List UInt8}

theorem handles_congr (hp : ∀ c, pathOf T' root c = pathOf T root c) (l : List Fat32Inode) : l.map (handleOf T' root) = l.map (handleOf T root) :=
  List.map_congr_left fun ino _ => by unfold handleOf; rw [hp]

theorem handle_get {k : Nat} (h : s.inodes[k]? = some ino) : (viewOf root s).handles[k]? = some (handleOf s.tree root ino) := by
  show (s.inodes.map (handleOf s.tree root))[k]? = _
  rw [List.getElem?_map, h]
  rfl

/-- What a creation does to the entries. -/
theorem created_child {e : Named} (ha : T a = some (.dir m)) (hn : T n = none) (he : e.id = n)
    (hT : T' = Function.update (Function.update T n (some (newNode clusBytes isDir))) a (some (.dir (Function.update m x (some e))))) :
    a ≠ n ∧ childOf T' a x = some n ∧ (∀ y, childOf T' n y = none) ∧ (∀ b y, b ≠ n → ¬ (b = a ∧ y = x) → childOf T' b y = childOf T b y) ∧
      (∀ b, b ≠ n → (T' b).map Node.item = (T b).map Node.item) ∧ (T' n).map Node.item = some (newItem clusBytes isDir) := by
  have hne : a ≠ n := by
    intro h
    rw [h, hn] at ha
    cases ha
  have hTa : T' a = some (.dir (Function.update m x (some e))) := by rw [hT, Function.update_self]
  have hTn : T' n = some (newNode clusBytes isDir) := by rw [hT, Function.update_of_ne hne.symm, Function.update_self]
  have hTb : ∀ b, b ≠ n → b ≠ a → T' b = T b := fun b h1 h2 => by rw [hT, Function.update_of_ne h2, Function.update_of_ne h1]
  refine ⟨hne, ?_, fun y => ?_, fun b y hb hax => ?_, fun b hb => ?_, ?_⟩
  · rw [childOf_dir hTa, Function.update_self, Option.map_some, he]
  · cases isDir with
    | false =>
      apply childOf_none_of
      intro m' hm'
      rw [hTn] at hm'
      cases hm'
    | true =>
      rw [childOf_dir hTn]
      rfl
  · by_cases hba : b = a
    · subst hba
      rw [childOf_dir hTa, childOf_dir ha, Function.update_of_ne fun h => hax ⟨rfl, h⟩]
    · exact childOf_congr (hTb b hb hba) y
  · by_cases hba : b = a
    · rw [hba, hTa, ha]
      rfl
    · rw [hTb b hb hba]
  · rw [hTn]
    cases isDir <;> rfl

/-- What a removal does to the entries. -/
theorem removed_child (ha : T a = some (.dir m)) (hT : T' = Function.update (Function.update T a (some (.dir (Function.update m x none)))) n none) :
    childOf T' a x = none ∧ (∀ b y, b ≠ n → ¬ (b = a ∧ y = x) → childOf T' b y = childOf T b y) ∧
      ∀ b, b ≠ n → (T' b).map Node.item = (T b).map Node.item := by
  have hTa : a ≠ n → T' a = some (.dir (Function.update m x none)) := fun hne => by rw [hT, Function.update_of_ne hne, Function.update_self]
  have hTb : ∀ b, b ≠ n → b ≠ a → T' b = T b := fun b h1 h2 => by rw [hT, Function.update_of_ne h1, Function.update_of_ne h2]
  refine ⟨?_, fun b y hb hax => ?_, fun b hb => ?_⟩
  · by_cases han : a = n
    · apply childOf_none_of
      intro m' hm'
      rw [hT, han, Function.update_self] at hm'
      cases hm'
    · rw [childOf_dir (hTa han), Function.update_self]
      rfl
  · by_cases hba : b = a
    · subst hba
      rw [childOf_dir (hTa hb), childOf_dir ha, Function.update_of_ne fun h => hax ⟨rfl, h⟩]
    · exact childOf_congr (hTb b hb hba) y
  · by_cases hba : b = a
    · rw [hba, hTa (hba ▸ hb), ha]
      rfl
    · rw [hTb b hb hba]

@[simp] theorem item_isDir (node : Node) : node.item.isDir = node.isDir := by
  cases node <;> rfl

theorem view_append (root : Nat) (s : Contents) (ino : Fat32Inode) : viewOf root { s with inodes := s.inodes ++ [ino] } =
    { viewOf root s with handles := (viewOf root s).handles ++ [handleOf s.tree root ino] } := by
  simp [viewOf]

/-- Lookups. -/
theorem view_found {names : Str → Option Named} {e : Named} {node : Node} {size : Nat} (hG : Grown s.tree root) (hk : s.inodes[k]? = some ino)
    (hd : s.tree ino.firstCluster = some (.dir names)) (hm : names (folded name) = some e) (hn : s.tree e.id = some node)
    (hdir : node.isDir = e.isDir) (hsize : ∀ data, node = .file data → size = data.length) :
    View.Step clusBytes (viewOf root s) (.lookup k name) (viewOf root { s with inodes := s.inodes ++ [⟨e.id, size, e.isDir⟩] }) := by
  have hchild : childOf s.tree ino.firstCluster (folded name) = some e.id := by
    rw [childOf_dir hd, hm]
    rfl
  rw [view_append]
  cases hp : pathOf s.tree root ino.firstCluster with
  | none =>
    refine .unlinked rfl (handle_get hk) hp (.inr (.inl ⟨size, e.isDir, ?_⟩))
    unfold handleOf
    rw [hG.pathOf_child_none hp hchild]
  | some p =>
    have hh : handleOf s.tree root ⟨e.id, size, e.isDir⟩ = ⟨some (p ++ [folded name]), size, node.item.isDir⟩ := by
      unfold handleOf
      rw [hG.pathOf_child hp hchild, item_isDir, hdir]
    rw [hh]
    refine .found (handle_get hk) hp ?_ ?_ fun data hdata => ?_
    · show filesOf s.tree root p = some .dir
      rw [hG.files_of_path hp, hd]
      rfl
    · show filesOf s.tree root (p ++ [folded name]) = some node.item
      rw [hG.files_child hp, hchild]
      show (s.tree e.id).map Node.item = some node.item
      rw [hn]
      rfl
    · cases node with
      | file data' =>
        cases hdata
        exact hsize _ rfl
      | dir m => cases hdata

theorem view_missing {names : Str → Option Named} (hG : Grown s.tree root) (hd : s.tree c = some (.dir names)) (hm : names (folded name) = none)
    (hp : pathOf s.tree root c = some p) : filesOf s.tree root p = some .dir ∧ filesOf s.tree root (p ++ [folded name]) = none := by
  refine ⟨?_, ?_⟩
  · rw [hG.files_of_path hp, hd]
    rfl
  · rw [hG.files_child_eq_none hp, childOf_dir hd, hm]
    rfl

/-- Creations. -/
theorem view_created {names : Str → Option Named} (hG : Grown s.tree root) (hG' : Grown s'.tree root) (hk : s.inodes[k]? = some ino)
    (hdir : ino.isDir = true) (hd : s.tree ino.firstCluster = some (.dir names)) (hnew : names (folded name) = none) (hn : s.tree n = none)
    (hfree : free + 1 = s.free ∨ free + 2 = s.free)
    (hs : s' = ⟨Function.update (Function.update s.tree n (some (newNode clusBytes isDir))) ino.firstCluster
      (some (.dir (Function.update names (folded name) (some ⟨name, n, isDir, 0⟩)))),
      s.inodes ++ [⟨n, if isDir then clusBytes else 0, isDir⟩], free, s.lost⟩) :
    View.Step clusBytes (viewOf root s) (.create k name isDir) (viewOf root s') := by
  have hT : s'.tree = Function.update (Function.update s.tree n (some (newNode clusBytes isDir))) ino.firstCluster
      (some (.dir (Function.update names (folded name) (some ⟨name, n, isDir, 0⟩)))) := by rw [hs]
  obtain ⟨hne, h1, h2, h3, h4, h5⟩ := created_child hd hn rfl hT
  have hview : viewOf root s' = ⟨filesOf s'.tree root, s.inodes.map (handleOf s'.tree root) ++
      [⟨pathOf s'.tree root n, if isDir then clusBytes else 0, isDir⟩], free⟩ := by
    rw [viewOf, hs]
    simp [handleOf]
  rw [hview]
  cases hp : pathOf s.tree root ino.firstCluster with
  | none =>
    obtain ⟨hf, hpath⟩ := hG.files_unlinked hp (hG.pathOf_absent hn) h3 h4
    rw [hf, handles_congr hpath, hpath, hG.pathOf_absent hn]
    exact .unlinked rfl (handle_get hk) hp (.inr (.inl ⟨_, _, rfl⟩))
  | some p =>
    obtain ⟨hdirp, hnone⟩ := view_missing hG hd hnew hp
    have hno : childOf s.tree ino.firstCluster (folded name) = none := (hG.files_child_eq_none hp).mp hnone
    obtain ⟨hf, hpn, hpath⟩ := hG.files_hang hG' hp hno hn h1 h2 h3 h4
    rw [hf, hpn, h5]
    refine .created (handle_get hk) hp hdir hdirp hnone ?_ hfree
    show List.Forall₂ _ (s.inodes.map (handleOf s.tree root)) (s.inodes.map (handleOf s'.tree root))
    rw [List.forall₂_map_left_iff, List.forall₂_map_right_iff, List.forall₂_same]
    intro f _
    unfold handleOf
    by_cases hfn : f.firstCluster = n
    · exact .inr ⟨by rw [hfn]; exact hG.pathOf_absent hn, by rw [hfn, hpn]⟩
    · exact .inl (by rw [hpath _ hfn])

/-- Removals. -/
theorem view_removed {names : Str → Option Named} {e : Named} {node : Node} (hG : Grown s.tree root) (hG' : Grown s'.tree root)
    (hk : s.inodes[k]? = some ino) (hd : s.tree ino.firstCluster = some (.dir names)) (hm : names (folded name) = some e)
    (hnode : s.tree e.id = some node) (h0 : 0 < n) (hlen : ∀ data, node = .file data → n * clusBytes = data.length)
    (hs : s' = ⟨Function.update (Function.update s.tree ino.firstCluster (some (.dir (Function.update names (folded name) none)))) e.id none,
      s.inodes, s.free + n, s.lost⟩) : View.Step clusBytes (viewOf root s) (.remove k name) (viewOf root s') := by
  have hT : s'.tree = Function.update (Function.update s.tree ino.firstCluster (some (.dir (Function.update names (folded name) none)))) e.id none := by
    rw [hs]
  have hold : childOf s.tree ino.firstCluster (folded name) = some e.id := by
    rw [childOf_dir hd, hm]
    rfl
  obtain ⟨h1, h2, h3⟩ := removed_child hd hT
  have hview : viewOf root s' = ⟨filesOf s'.tree root, s.inodes.map (handleOf s'.tree root), s.free + n⟩ := by rw [viewOf, hs]
  rw [hview]
  cases hp : pathOf s.tree root ino.firstCluster with
  | none =>
    obtain ⟨hf, hpath⟩ := hG.files_unlinked hp (hG.pathOf_child_none hp hold) h2 h3
    rw [hf, handles_congr hpath]
    exact .unlinked rfl (handle_get hk) hp (.inl rfl)
  | some p =>
    obtain ⟨hf, hpath⟩ := hG.files_cut hG' hp hold h1 h2 h3
    have hhandles : s.inodes.map (handleOf s'.tree root) = (viewOf root s).handles.map (View.without (p ++ [folded name])) := by
      show _ = (s.inodes.map (handleOf s.tree root)).map _
      rw [List.map_map]
      apply List.map_congr_left
      intro f _
      show handleOf s'.tree root f = View.without (p ++ [folded name]) (handleOf s.tree root f)
      unfold handleOf View.without
      rw [hpath]
    rw [hf, hhandles]
    refine .removed (handle_get hk) hp ?_ ?_ h0 (i := node.item) fun data hdata => ?_
    · show filesOf s.tree root p = some .dir
      rw [hG.files_of_path hp, hd]
      rfl
    · show filesOf s.tree root (p ++ [folded name]) = some node.item
      rw [hG.files_child hp, hold]
      show (s.tree e.id).map Node.item = some node.item
      rw [hnode]
      rfl
    · cases node with
      | file data' =>
        cases hdata
        exact hlen _ rfl
      | dir m => cases hdata

/-- Writes to a file: what its node becomes, and what the inodes held become. -/
theorem view_wrote {off : Nat} {bytes : List UInt8} {T1 : Tree} {inodes : List Fat32Inode} {lost : Set Nat} (hG : Grown s.tree root)
    (hk : s.inodes[k]? = some ino) (hf : s.tree ino.firstCluster = some (.file data)) (hT : ∀ b, (T1 b).map Node.item =
      (Function.update s.tree ino.firstCluster (some (.file data')) b).map Node.item)
    (hw : ∀ b y, childOf T1 b y = childOf (Function.update s.tree ino.firstCluster (some (.file data'))) b y)
    (hi : inodes = s.inodes ∨ ∃ size, inodes = s.inodes.set k { ino with size := size })
    (hstep : ∀ p, pathOf s.tree root ino.firstCluster = some p → (viewOf root s).files p = some (.file data) →
      View.Step clusBytes (viewOf root s) (.writeAt k off bytes)
        ⟨Function.update (viewOf root s).files p (some (.file data')), inodes.map (handleOf s.tree root), free⟩) :
    View.Step clusBytes (viewOf root s) (.writeAt k off bytes) (viewOf root ⟨T1, inodes, free, lost⟩) := by
  have hother : ∀ b, b ≠ ino.firstCluster → Function.update s.tree ino.firstCluster (some (.file data')) b = s.tree b :=
    fun b hb => Function.update_of_ne hb ..
  have hself : (T1 ino.firstCluster).map Node.item = some (.file data') := by
    rw [hT, Function.update_self]
    rfl
  have hchild : ∀ b y, childOf T1 b y = childOf s.tree b y := by
    intro b y
    rw [hw]
    by_cases hb : b = ino.firstCluster
    · rw [hb, childOf_none_of, childOf_none_of]
      · intro m hm
        rw [hf] at hm
        cases hm
      · intro m hm
        rw [Function.update_self] at hm
        cases hm
    · exact childOf_congr (hother b hb) y
  obtain ⟨h1, h2, h3⟩ := hG.files_item hchild fun b hb => by rw [hT, hother b hb]
  show View.Step clusBytes (viewOf root s) _ ⟨filesOf T1 root, inodes.map (handleOf T1 root), free⟩
  rw [handles_congr h3]
  cases hp : pathOf s.tree root ino.firstCluster with
  | none =>
    rw [h2 hp]
    refine .unlinked rfl (handle_get hk) hp ?_
    cases hi with
    | inl hi => exact .inl (by rw [hi]; rfl)
    | inr hi =>
      obtain ⟨size, hi⟩ := hi
      exact .inr (.inr ⟨size, by rw [hi, List.map_set]; rfl⟩)
  | some p =>
    rw [h1 p hp, hself]
    apply hstep p hp
    show filesOf s.tree root p = _
    rw [hG.files_of_path hp, hf]
    rfl

/-- A step of the tree is one of the map of paths. -/
theorem view_step {call : Call} (hG : Grown s.tree root) (hG' : Grown s'.tree root) (hs : s.Step root clusBytes call s') :
    View.Step clusBytes (viewOf root s) call (viewOf root s') := by
  cases hs with
  | root size =>
    rw [view_append]
    have hh : handleOf s.tree root ⟨root, size, true⟩ = ⟨some [], size, true⟩ := by
      unfold handleOf
      rw [hG.pathOf_root]
    rw [hh]
    exact .root size
  | found hk hd hm hn hdir hsize => exact view_found hG hk hd hm hn hdir hsize
  | @missing k name ino names hk hd hm =>
    cases hp : pathOf s.tree root ino.firstCluster with
    | none => exact .unlinked rfl (handle_get hk) hp (.inl rfl)
    | some p =>
      obtain ⟨h1, h2⟩ := view_missing hG hd hm hp
      exact .missing (handle_get hk) hp h1 h2
  | created hk hdir hd hnew h2 hn hfree => exact view_created hG hG' hk hdir hd hnew hn hfree rfl
  | refused hk hwhy => exact .refused (handle_get hk) (hwhy.imp_right .inl)
  | full hk _ h0 => exact .refused (handle_get hk) (.inr (.inr h0))
  | leaked hk _ h1 => exact .leaked h1
  | wroteNothing => exact .wroteNothing
  | @wrote k off free bytes data data' ino hk hd hb hlen hpatch hfree =>
    apply view_wrote hG hk hd (noteSize_item _ _ _ _) (noteSize_child _ _ _ _) (.inr ⟨_, rfl⟩)
    intro p hp hfile
    have hset : (s.inodes.set k { ino with size := max ino.size (off + bytes.length) }).map (handleOf s.tree root) =
        (viewOf root s).handles.set k { handleOf s.tree root ino with size := max ino.size (off + bytes.length) } := by
      rw [List.map_set]
      rfl
    rw [hset]
    exact .wrote (handle_get hk) hp hfile hb hlen hpatch hfree
  | @writeFull k off bytes data ino hk hd hlt =>
    apply view_wrote hG hk hd (fun _ => rfl) (fun _ _ => rfl) (.inl rfl)
    intro p hp hfile
    exact .writeFull (handle_get hk) hp hfile hlt
  | @truncated k ino hk h2 =>
    have hset : viewOf root { s with inodes := s.inodes.set k { ino with size := 0 } } =
        { viewOf root s with handles := (viewOf root s).handles.set k { handleOf s.tree root ino with size := 0 } } := by
      simp [viewOf, List.map_set, handleOf]
    rw [hset]
    exact .truncated (handle_get hk)
  | removed hk hd hm hn _ h0 hlen => exact view_removed hG hG' hk hd hm hn h0 hlen rfl
  | @notRemoved k name ino hk hwhy =>
    cases hwhy with
    | inl hdir => exact .notRemoved (handle_get hk) (.inl hdir)
    | inr hex =>
      obtain ⟨names, hd, hm⟩ := hex
      cases hp : pathOf s.tree root ino.firstCluster with
      | none => exact .unlinked rfl (handle_get hk) hp (.inl rfl)
      | some p =>
        obtain ⟨h1, h2⟩ := view_missing hG hd hm hp
        exact .notRemoved (handle_get hk) (.inr ⟨p, hp, h1, h2⟩)

/-! ## What a walk shows -/

open Vfs (Mount pathWalk target)

/-- The entries of a listing are what is at the paths below, apart from names that start with a dot. -/
structure Children (files : Files) (p : List Str) (es : List DirEntry) : Prop where
  there : ∀ e ∈ es, e.name.head? ≠ some '.' → ∃ i, files (p ++ [folded e.name]) = some i ∧ i.isDir = e.isDir
  all : ∀ x, files (p ++ [x]) ≠ none → ∃ e ∈ es, e.name.head? ≠ some '.' ∧ folded e.name = x
  once : (es.filter plainName).Pairwise fun a b => folded a.name ≠ folded b.name

/-- What the inode of a path gives. -/
def Gives (v : Fat32Inner) (d : Device) (files : Files) (p : List Str) (f : Fat32Inode) : Item → Prop
  | .file data => f.isDir = false ∧ ∀ off len, f.readAt v d off len = (data.drop off).take len
  | .dir => f.isDir = true ∧ ∃ es, f.readdir v d = some (.ok es) ∧ Children files p es

/-- The volume agrees with a map of paths, wherever it is mounted: what is in the map has directories above it, a walk to
    it gives it, and a walk to anything else fails if it does not go through a file. -/
structure Agrees (v : Fat32Inner) (d : Device) (files : Files) : Prop where
  top : files [] = some .dir
  parent : ∀ p x, files (p ++ [x]) ≠ none → files p = some .dir
  found : ∀ table path ns i, target table path = some (⟨v, d⟩, ns) → (∀ n ∈ ns, n.head? ≠ some '.') → files (ns.map folded) = some i →
    ∃ f, pathWalk fatTree table path = .ok (some (⟨v, d⟩, f)) ∧ Gives v d files (ns.map folded) f i
  missing : ∀ table path ns, target table path = some (⟨v, d⟩, ns) → (∀ n ∈ ns, n.head? ≠ some '.') → files (ns.map folded) = none →
    (∀ p data, p <+: ns.map folded → files p ≠ some (.file data)) → pathWalk fatTree table path = .error "entry not found"

/-- The inode of a node, with all its bytes. -/
def Stands (T : Tree) (f : Fat32Inode) (node : Node) : Prop :=
  T f.firstCluster = some node ∧ f.isDir = node.isDir ∧ ∀ data, node = .file data → f.size = data.length

variable {f : Fat32Inode} {node : Node} {ns : List Str}

theorem lookup_ok {g : Fat32Inode} (h : f.lookup v d name = some (.ok g)) : fatTree.lookup (some (⟨v, d⟩, f)) name = .ok (some (⟨v, d⟩, g)) := by
  simp only [fatTree, h]

theorem lookup_error {msg : String} (h : f.lookup v d name = some (.error msg)) : fatTree.lookup (some (⟨v, d⟩, f)) name = .error msg := by
  simp only [fatTree, h]

/-- The names lead where the entries lead. -/
theorem Holds.lookups_ok (hh : Holds v h s) (hs : Stands s.tree f node) (hdot : ∀ n ∈ ns, n.head? ≠ some '.')
    (hw : walk (childOf s.tree) f.firstCluster (ns.map folded) = some c) : ∃ g node', ns.foldlM fatTree.lookup (some (⟨v, h.dev⟩, f)) =
      .ok (some (⟨v, h.dev⟩, g)) ∧ g.firstCluster = c ∧ Stands s.tree g node' := by
  induction ns generalizing f node with
  | nil =>
    cases hw
    exact ⟨f, node, rfl, rfl, hs⟩
  | cons n ns ih =>
    obtain ⟨b, hb, hw'⟩ := Option.bind_eq_some_iff.mp hw
    obtain ⟨m, e, hd, he, hid⟩ := childOf_eq_some.mp hb
    subst hid
    obtain ⟨node', size, hn, hdir, hsize, hl⟩ := (hh.lookup hd (hdot n List.mem_cons_self)).2 e he
    rw [List.foldlM_cons, lookup_ok hl]
    exact ih ⟨hn, hdir.symm, hsize⟩ (fun n' hn' => hdot n' (List.mem_cons_of_mem n hn')) hw'

/-- Where there is no entry the names lead nowhere. -/
theorem Holds.lookups_error (hh : Holds v h s) (hs : Stands s.tree f node) (hdot : ∀ n ∈ ns, n.head? ≠ some '.')
    (hw : walk (childOf s.tree) f.firstCluster (ns.map folded) = none)
    (hdirs : ∀ p b data, p <+: ns.map folded → walk (childOf s.tree) f.firstCluster p = some b → s.tree b ≠ some (.file data)) :
    ns.foldlM fatTree.lookup (some (⟨v, h.dev⟩, f)) = .error "entry not found" := by
  induction ns generalizing f node with
  | nil => cases hw
  | cons n ns ih =>
    obtain ⟨m, hd⟩ : ∃ m, s.tree f.firstCluster = some (.dir m) := by
      cases node with
      | file data => exact absurd hs.1 (hdirs [] _ data List.nil_prefix rfl)
      | dir m => exact ⟨m, hs.1⟩
    obtain ⟨hmissing, hfound⟩ := hh.lookup hd (hdot n List.mem_cons_self)
    rw [List.foldlM_cons]
    cases hm : m (folded n) with
    | none =>
      rw [lookup_error (hmissing hm)]
      rfl
    | some e =>
      have hb : childOf s.tree f.firstCluster (folded n) = some e.id := childOf_eq_some.mpr ⟨m, e, hd, hm, rfl⟩
      obtain ⟨node', size, hn, hdir, hsize, hl⟩ := hfound e hm
      rw [lookup_ok hl]
      apply ih (f := ⟨e.id, size, e.isDir⟩) ⟨hn, hdir.symm, hsize⟩ fun n' hn' => hdot n' (List.mem_cons_of_mem n hn')
      · rw [List.map_cons, walk, hb] at hw
        exact hw
      · intro p b data hp hpb
        apply hdirs (folded n :: p) b data
        · rw [List.map_cons]
          exact (List.prefix_cons_inj _).mpr hp
        · rw [walk, hb]
          exact hpb

theorem Holds.children {m : Str → Option Named} {es : List DirEntry} (hh : Holds v h s) (hp : pathOf s.tree v.rootClus c = some p)
    (hd : s.tree c = some (.dir m)) (hL : Lists m es) : Children (filesOf s.tree v.rootClus) p es := by
  have hG := hh.grown
  refine ⟨fun e he hdot => ?_, fun x hx => ?_, hL.once⟩
  · obtain ⟨n, hn, rfl⟩ := (hL.mem e).mp ⟨he, hdot⟩
    obtain ⟨-, node, size, hnode, hdir, -, -⟩ := hh.entry hd hn
    refine ⟨node.item, ?_, ?_⟩
    · rw [hG.files_child hp, childOf_dir hd, hn]
      show (s.tree n.id).map Node.item = _
      rw [hnode]
      rfl
    · rw [item_isDir, hdir]
      rfl
  · obtain ⟨k, hk⟩ := Option.ne_none_iff_exists'.mp fun h => hx ((hG.files_child_eq_none hp).mpr h)
    rw [childOf_dir hd, Option.map_eq_some_iff] at hk
    obtain ⟨n, hn, -⟩ := hk
    obtain ⟨hkey, -⟩ := hh.entry hd hn
    have hkey' : folded n.entry.name = x := hkey
    obtain ⟨hmem, hdot⟩ := (hL.mem n.entry).mpr ⟨n, by rw [hkey']; exact hn, rfl⟩
    exact ⟨n.entry, hmem, hdot, hkey'⟩

/-- What the volume holds is what a walk shows. -/
theorem Holds.agrees (hh : Holds v h s) : Agrees v h.dev (filesOf s.tree v.rootClus) := by
  have hG := hh.grown
  obtain ⟨mr, hroot⟩ := hG.top
  obtain ⟨size, hr⟩ : ∃ size, Fat32Inode.root v h.dev = some ⟨v.rootClus, size, true⟩ := by
    obtain ⟨objs, hM, rfl⟩ := hh
    obtain ⟨lr, ho⟩ := hM.sound.root
    refine ⟨lr.length * v.clusBytes, ?_⟩
    unfold Fat32Inode.root
    rw [chainSize_eq (hM.sound.chain _ _ _ ho) hM.sound.wf]
    rfl
  have hrt : fatTree.rootInode ⟨v, h.dev⟩ = some (⟨v, h.dev⟩, ⟨v.rootClus, size, true⟩) := by simp only [fatTree, hr, Option.map_some]
  have hstands : Stands s.tree ⟨v.rootClus, size, true⟩ (.dir mr) := ⟨hroot, rfl, fun data hd => by cases hd⟩
  refine ⟨?_, fun p x hx => ?_, fun table path ns i ht hdot hi => ?_, fun table path ns ht hdot hnone hdirs => ?_⟩
  · rw [hG.files_of_path hG.pathOf_root, hroot]
    rfl
  · unfold filesOf at hx
    rw [walk_concat] at hx
    cases hw : walk (childOf s.tree) v.rootClus p with
    | none =>
      rw [hw] at hx
      exact absurd rfl hx
    | some a =>
      have hp := hG.pathOf_eq_some.mpr hw
      rw [hw, Option.bind_some] at hx
      obtain ⟨m, hd⟩ : ∃ m, s.tree a = some (.dir m) := by
        by_contra hno
        rw [childOf_none_of fun m hm => hno ⟨m, hm⟩] at hx
        exact hx rfl
      rw [hG.files_of_path hp, hd]
      rfl
  · obtain ⟨c, hw, hc⟩ := Option.bind_eq_some_iff.mp hi
    obtain ⟨f, node, hf, rfl, hs⟩ := hh.lookups_ok hstands hdot hw
    refine ⟨f, ?_, ?_⟩
    · rw [Vfs.pathWalk_eq, ht]
      dsimp only
      rw [hrt]
      exact hf
    · obtain ⟨hnode, hdir, hsize⟩ := hs
      rw [hnode] at hc
      cases hc
      cases node with
      | file data =>
        refine ⟨hdir, fun off len => ?_⟩
        rw [hh.readAt hnode, hsize data rfl, List.take_length]
      | dir m =>
        obtain ⟨es, he, hL⟩ := hh.readdir hnode hdir
        exact ⟨hdir, es, he, hh.children (hG.pathOf_eq_some.mpr hw) hnode hL⟩
  · rw [Vfs.pathWalk_eq, ht]
    dsimp only
    rw [hrt]
    have hw : walk (childOf s.tree) v.rootClus (ns.map folded) = none := by
      by_contra hne
      obtain ⟨c, hc⟩ := Option.ne_none_iff_exists'.mp hne
      rw [hG.files_of_path (hG.pathOf_eq_some.mpr hc), Option.map_eq_none_iff] at hnone
      exact hG.node hc hnone
    apply hh.lookups_error hstands hdot hw
    intro p b data hp hb hfile
    apply hdirs p data hp
    rw [hG.files_of_path (hG.pathOf_eq_some.mpr hb), hfile]
    rfl

/-! ## Runs -/

theorem run_view (calls : List Call) (hh : Holds v h s) (hp : Meets (Held.step v) (Decent v) h calls) :
    ∃ h' s', trace (Held.step v) h calls = some h' ∧ Holds v h' s' ∧
      Runs (View.Step v.clusBytes) (viewOf v.rootClus s) calls (viewOf v.rootClus s') := by
  induction calls generalizing h s with
  | nil => exact ⟨h, s, rfl, hh, .nil⟩
  | cons c calls ih =>
    obtain ⟨h1, s1, he, hh1, hs⟩ := step_proper c hh (hp.1 s hh)
    obtain ⟨h', s', ht, hh', hr⟩ := ih hh1 (hp.2 h1 he)
    refine ⟨h', s', ?_, hh', .cons (view_step hh.grown hh1.grown hs) hr⟩
    unfold trace
    rw [he, Option.bind_some, ht]

end Myos.Fat
