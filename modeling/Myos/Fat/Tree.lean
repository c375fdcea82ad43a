/-
  Myos.Fat.Tree — what a FAT32 volume is for: a tree of files and directories.

  A node is known by its first cluster. A file is its bytes, as many as its clusters hold; a
  directory maps names without case to entries. A directory that is not empty may be removed: what
  was in it stays, without an entry.

  `Contents.Step`: what a call through an inode that is held does to the tree. A file may come out
  too short for a write; its bytes are then anything.

  Proved: on a volume that models a tree, `read_at` and `readdir` return what the tree says.
-/

import Myos.Fat.Directory
import Myos.Fat.Copies
import Myos.Lib.Refines

namespace Myos.Fat

open Lib Fat32Inner Fat32Inode

/-! ## Trees -/

inductive Node where
  | file (data : List UInt8)
  | dir (names : Str → Option Named)

abbrev Tree := Nat → Option Node

def Node.isDir : Node → Bool
  | file _ => false
  | dir _ => true

/-- The bytes with `buf` at `off`. -/
def patch (data : List UInt8) (off : Nat) (buf : List UInt8) : List UInt8 := data.take off ++ buf ++ data.drop (off + buf.length)

def zeros (n : Nat) : List UInt8 := List.replicate n 0

/-- A new file has one cluster, which is cleared. -/
def newNode (clusBytes : Nat) (isDir : Bool) : Node := if isDir then .dir fun _ => none else .file (zeros clusBytes)

/-- The entry of the node in a directory gets a size. -/
def resized (names : Str → Option Named) (id size : Nat) : Str → Option Named := fun x =>
  (names x).map fun e => if e.id = id then { e with size := size % 2 ^ 32 } else e

/-- The root directory notes the size of a file. -/
def noteSize (T : Tree) (root id size : Nat) : Tree := fun k =>
  match T k with
  | some (.dir names) => some (.dir (if k = root then resized names id size else names))
  | node => node

/-- The tree, the inodes held, how many clusters are free, and those that are neither free nor a node's. -/
structure Contents where
  tree : Tree
  inodes : List Fat32Inode
  free : Nat
  lost : Set Nat

namespace Contents

inductive Step (root clusBytes : Nat) (s : Contents) : Call → Contents → Prop where
  | root (size : Nat) : Step root clusBytes s .root { s with inodes := s.inodes ++ [⟨root, size, true⟩] }
  | found {k : Nat} {name : Str} {ino : Fat32Inode} {names : Str → Option Named} {e : Named} {node : Node} {size : Nat} :
      s.inodes[k]? = some ino → s.tree ino.firstCluster = some (.dir names) → names (folded name) = some e →
      s.tree e.id = some node → node.isDir = e.isDir → (∀ data, node = .file data → size = data.length) →
      Step root clusBytes s (.lookup k name) { s with inodes := s.inodes ++ [⟨e.id, size, e.isDir⟩] }
  | missing {k : Nat} {name : Str} {ino : Fat32Inode} {names : Str → Option Named} :
      s.inodes[k]? = some ino → s.tree ino.firstCluster = some (.dir names) → names (folded name) = none →
      Step root clusBytes s (.lookup k name) s
  | created {k : Nat} {name : Str} {isDir : Bool} {ino : Fat32Inode} {names : Str → Option Named} {n free : Nat} :
      s.inodes[k]? = some ino → ino.isDir = true → s.tree ino.firstCluster = some (.dir names) → names (folded name) = none →
      2 ≤ n → s.tree n = none → free + 1 = s.free ∨ free + 2 = s.free →
      Step root clusBytes s (.create k name isDir)
        ⟨Function.update (Function.update s.tree n (some (newNode clusBytes isDir))) ino.firstCluster
            (some (.dir (Function.update names (folded name) (some ⟨name, n, isDir, 0⟩)))),
          s.inodes ++ [⟨n, if isDir then clusBytes else 0, isDir⟩], free, s.lost⟩
  | refused {k : Nat} {name : Str} {isDir : Bool} {ino : Fat32Inode} :
      s.inodes[k]? = some ino → ino.isDir = false ∨ (∃ msg, encodeShortName name = .error msg) →
      Step root clusBytes s (.create k name isDir) s
  | full {k : Nat} {name : Str} {isDir : Bool} {ino : Fat32Inode} : s.inodes[k]? = some ino → ino.isDir = true → s.free = 0 →
      Step root clusBytes s (.create k name isDir) s
  -- the last cluster is taken for the node, and there is none for its entry
  | leaked {k n : Nat} {name : Str} {isDir : Bool} {ino : Fat32Inode} : s.inodes[k]? = some ino → ino.isDir = true → s.free = 1 →
      Step root clusBytes s (.create k name isDir) { s with free := 0, lost := insert n s.lost }
  | wroteNothing {k off : Nat} : Step root clusBytes s (.writeAt k off []) s
  | wrote {k off free : Nat} {bytes data data' : List UInt8} {ino : Fat32Inode} :
      s.inodes[k]? = some ino → s.tree ino.firstCluster = some (.file data) → bytes ≠ [] →
      data'.length = max data.length ((1 + (off + bytes.length - ino.size - 1) / clusBytes) * clusBytes) →
      (off + bytes.length ≤ data'.length → data' = patch (data ++ zeros (data'.length - data.length)) off bytes) →
      free * clusBytes + data'.length = s.free * clusBytes + data.length →
      Step root clusBytes s (.writeAt k off bytes)
        ⟨noteSize (Function.update s.tree ino.firstCluster (some (.file data'))) root ino.firstCluster (max ino.size (off + bytes.length)),
          s.inodes.set k { ino with size := max ino.size (off + bytes.length) }, free, s.lost⟩
  | writeFull {k off : Nat} {bytes data : List UInt8} {ino : Fat32Inode} :
      s.inodes[k]? = some ino → s.tree ino.firstCluster = some (.file data) →
      data.length + s.free * clusBytes < (1 + (off + bytes.length - ino.size - 1) / clusBytes) * clusBytes →
      Step root clusBytes s (.writeAt k off bytes)
        ⟨Function.update s.tree ino.firstCluster (some (.file (data ++ zeros (s.free * clusBytes)))), s.inodes, 0, s.lost⟩
  | truncated {k : Nat} {ino : Fat32Inode} : s.inodes[k]? = some ino → ino.firstCluster < 2 →
      Step root clusBytes s (.truncate k) { s with inodes := s.inodes.set k { ino with size := 0 } }
  | removed {k n : Nat} {name : Str} {ino : Fat32Inode} {names : Str → Option Named} {e : Named} {node : Node} :
      s.inodes[k]? = some ino → s.tree ino.firstCluster = some (.dir names) → names (folded name) = some e →
      s.tree e.id = some node → node.isDir = e.isDir → 0 < n → (∀ data, node = .file data → n * clusBytes = data.length) →
      Step root clusBytes s (.remove k name)
        ⟨Function.update (Function.update s.tree ino.firstCluster (some (.dir (Function.update names (folded name) none)))) e.id none,
          s.inodes, s.free + n, s.lost⟩
  | notRemoved {k : Nat} {name : Str} {ino : Fat32Inode} : s.inodes[k]? = some ino →
      ino.isDir = false ∨ (∃ names, s.tree ino.firstCluster = some (.dir names) ∧ names (folded name) = none) →
      Step root clusBytes s (.remove k name) s

/-- A call through an inode of a node that is there: a name that is created is new, can be read back and is
    not there, a name that is looked up or removed does not start with a dot, and no file loses its clusters. -/
def Proper (s : Contents) : Call → Prop
  | .root => True
  | .lookup k name => ∃ ino names, s.inodes[k]? = some ino ∧ s.tree ino.firstCluster = some (.dir names) ∧ name.head? ≠ some '.'
  | .create k name _ => ∃ ino, s.inodes[k]? = some ino ∧ (ino.isDir = true → ∃ names, s.tree ino.firstCluster = some (.dir names) ∧
      ∀ raw, encodeShortName name = .ok raw → Plain name ∧ names (folded name) = none)
  | .writeAt k _ bytes => ∃ ino, s.inodes[k]? = some ino ∧ (bytes ≠ [] → ∃ data, s.tree ino.firstCluster = some (.file data))
  | .truncate k => ∃ ino, s.inodes[k]? = some ino ∧ ino.firstCluster < 2
  | .remove k name => ∃ ino, s.inodes[k]? = some ino ∧ (ino.isDir = true → ∃ names, s.tree ino.firstCluster = some (.dir names) ∧
      name.head? ≠ some '.')

end Contents

/-! ## The tree of a volume -/

def nodeOf (v : Fat32Inner) (d : Device) : Bool × List Nat → Node
  | (false, l) => .file (fileBytes v d l 0 (l.length * v.clusBytes))
  | (true, l) => .dir (names v d l)

def treeOf (v : Fat32Inner) (d : Device) (objs : Objects) : Tree := fun k => (objs k).map (nodeOf v d)

/-- A sound volume with neat directories, without "." and ".." in the root. -/
structure Models (v : Fat32Inner) (d : Device) (objs : Objects) : Prop where
  sound : Sound v d objs
  neat : ∀ k l, objs k = some (true, l) → Neat v d l
  root : ∀ l, objs v.rootClus = some (true, l) → ∀ q ∈ places v l, v.readCluster d q.1 q.2 ≠ dot

/-- The clusters that are neither free nor in the chain of a node. -/
def lostClusters (v : Fat32Inner) (d : Device) (objs : Objects) : Set Nat :=
  {c | 2 ≤ c ∧ c < v.total ∧ v.readFatEntry d c ≠ 0 ∧ ∀ k b l, objs k = some (b, l) → c ∉ l}

def contentsOf (v : Fat32Inner) (h : Held) (objs : Objects) : Contents :=
  ⟨treeOf v h.dev objs, h.inodes, (freeClusters v h.dev).length, lostClusters v h.dev objs⟩

/-- The volume holds the contents. -/
def Holds (v : Fat32Inner) (h : Held) (s : Contents) : Prop := ∃ objs, Models v h.dev objs ∧ s = contentsOf v h objs

variable {v : Fat32Inner} {d d' d1 : Device} {objs : Objects} {k n : Nat} {l : List Nat} {b : Bool} {T : Tree}

theorem treeOf_some (h : objs k = some (b, l)) : treeOf v d objs k = some (nodeOf v d (b, l)) := by
  unfold treeOf
  rw [h]
  rfl

theorem treeOf_none : treeOf v d objs k = none ↔ objs k = none := Option.map_eq_none_iff

theorem nodeOf_isDir (v : Fat32Inner) (d : Device) (b : Bool) (l : List Nat) : (nodeOf v d (b, l)).isDir = b := by
  cases b <;> rfl

theorem treeOf_dir {m : Str → Option Named} : treeOf v d objs k = some (.dir m) ↔ ∃ l, objs k = some (true, l) ∧ m = names v d l := by
  unfold treeOf
  rw [Option.map_eq_some_iff]
  constructor
  · intro ⟨⟨b, l⟩, ho, hn⟩
    cases b with
    | false => cases hn
    | true =>
      cases hn
      exact ⟨l, ho, rfl⟩
  · rintro ⟨l, ho, rfl⟩
    exact ⟨(true, l), ho, rfl⟩

theorem treeOf_file {data : List UInt8} : treeOf v d objs k = some (.file data) ↔
    ∃ l, objs k = some (false, l) ∧ data = fileBytes v d l 0 (l.length * v.clusBytes) := by
  unfold treeOf
  rw [Option.map_eq_some_iff]
  constructor
  · intro ⟨⟨b, l⟩, ho, hn⟩
    cases b with
    | false =>
      cases hn
      exact ⟨l, ho, rfl⟩
    | true => cases hn
  · rintro ⟨l, ho, rfl⟩
    exact ⟨(false, l), ho, rfl⟩

theorem length_fileBytes (off m : Nat) : (fileBytes v d l off m).length = m := by simp [fileBytes]

/-- The clusters of the chain decide what the node is. -/
theorem nodeOf_congr (hv : v.WellFormed) (h : ∀ x ∈ l, v.readCluster d' x = v.readCluster d x) : nodeOf v d' (b, l) = nodeOf v d (b, l) := by
  cases b with
  | false =>
    have hcb := WellFormed.clusBytes_pos hv
    refine congrArg Node.file (List.map_congr_left fun p hp => ?_)
    rw [List.mem_range, Nat.mul_comm] at hp
    have hj : p / v.clusBytes < l.length := Nat.div_lt_of_lt_mul hp
    rw [Nat.zero_add, fileByte, fileByte, List.getD_eq_getElem _ _ hj, h _ (List.getElem_mem hj)]
  | true =>
    refine congrArg Node.dir (valueOf_congr fun q hq => ?_)
    unfold slotOf
    rw [h q.1 (mem_places.mp hq).1]

theorem treeOf_update (o : Option (Bool × List Nat)) :
    treeOf v d (Function.update objs n o) = Function.update (treeOf v d objs) n (o.map (nodeOf v d)) := by
  funext k
  unfold treeOf
  by_cases hk : k = n
  · rw [hk, Function.update_self, Function.update_self]
  · rw [Function.update_of_ne hk, Function.update_of_ne hk]

/-- Only the chain of `n` was written. -/
theorem treeOf_write (h : Sound v d objs) (hn : objs n = some (b, l)) (hd : ∀ y, 2 ≤ y → y ∉ l → v.readCluster d' y = v.readCluster d y) :
    treeOf v d' objs = Function.update (treeOf v d objs) n (some (nodeOf v d' (b, l))) := by
  funext k
  by_cases hk : k = n
  · rw [hk, Function.update_self, treeOf_some hn]
  · rw [Function.update_of_ne hk]
    cases ho : objs k with
    | none => rw [treeOf_none.2 ho, treeOf_none.2 ho]
    | some o =>
      obtain ⟨b', l'⟩ := o
      rw [treeOf_some ho, treeOf_some ho, nodeOf_congr h.wf fun x hx => ?_]
      exact hd x ((h.chain k b' l' ho).range x hx).1 (h.apart k b' l' n b l ho hn hk x hx)

theorem noteSize_dir {root id size : Nat} {m : Str → Option Named} (h : T root = some (.dir m)) :
    noteSize T root id size = Function.update T root (some (.dir (resized m id size))) := by
  funext k
  unfold noteSize
  by_cases hk : k = root
  · rw [hk, Function.update_self, h]
    dsimp only
    rw [if_pos rfl]
  · rw [Function.update_of_ne hk]
    split
    · next hT => rw [hT, if_neg hk]
    · rfl

/-! ## Lost clusters -/

theorem lost_same (hf : ∀ x, x < v.total → v.readFatEntry d' x = v.readFatEntry d x) : lostClusters v d' objs = lostClusters v d objs := by
  ext c
  refine and_congr_right fun _ => and_congr_right fun hlt => ?_
  rw [hf c hlt]

/-- A chain got clusters that were free. -/
theorem lost_extended {l2 : List Nat} (hn : objs n = some (b, l)) (hE : Extended v n d l d' l2) :
    lostClusters v d' (Function.update objs n (some (b, l ++ l2))) = lostClusters v d objs := by
  ext c
  refine and_congr_right fun _ => and_congr_right fun hlt => ?_
  constructor
  · intro ⟨h0, hno⟩
    have hnot := hno n b (l ++ l2) (Function.update_self ..)
    rw [List.mem_append, not_or] at hnot
    rw [hE.fat c hlt hnot.1 hnot.2] at h0
    refine ⟨h0, fun k b' l' hk => ?_⟩
    by_cases hkn : k = n
    · rw [hkn, hn] at hk
      cases hk
      exact hnot.1
    · exact hno k b' l' ((Function.update_of_ne hkn ..).trans hk)
  · intro ⟨h0, hno⟩
    have hl := hno n b l hn
    have hl2 : c ∉ l2 := fun hm => h0 (hE.fresh c hm)
    rw [hE.fat c hlt hl hl2]
    refine ⟨h0, fun k b' l' hk => ?_⟩
    rcases update_eq_some hk with ⟨-, ho⟩ | ⟨-, hk⟩
    · cases ho
      exact fun hm => (List.mem_append.mp hm).elim hl hl2
    · exact hno k b' l' hk

/-- A cluster was taken, and belongs to a new node or to none. -/
theorem lost_taken (ht : Taken v d n d1) (hf : ∀ x, x < v.total → v.readFatEntry d' x = v.readFatEntry d1 x) (hS : Sound v d objs) (b : Bool) :
    lostClusters v d' (Function.update objs n (some (b, [n]))) = lostClusters v d objs ∧
      lostClusters v d' objs = insert n (lostClusters v d objs) := by
  have hfat : ∀ c, c < v.total → (v.readFatEntry d' c ≠ 0 ↔ c = n ∨ v.readFatEntry d c ≠ 0) := by
    intro c hlt
    rw [hf c hlt, ht.fat c hlt]
    by_cases hc : c = n
    · rw [if_pos hc]
      exact iff_of_true (by decide) (Or.inl hc)
    · rw [if_neg hc]
      exact ⟨Or.inr, fun h => h.resolve_left hc⟩
  have hnone := hS.free_none ht.free
  constructor
  · ext c
    refine and_congr_right fun _ => and_congr_right fun hlt => ?_
    rw [hfat c hlt]
    constructor
    · intro ⟨h0, hno⟩
      have hc : c ≠ n := fun e => hno n b [n] (Function.update_self ..) (List.mem_singleton.mpr e)
      refine ⟨h0.resolve_left hc, fun k b' l' hk => hno k b' l' ?_⟩
      have hkn : k ≠ n := fun e => by
        rw [e, hnone] at hk
        cases hk
      exact (Function.update_of_ne hkn ..).trans hk
    · intro ⟨h0, hno⟩
      refine ⟨Or.inr h0, fun k b' l' hk => ?_⟩
      rcases update_eq_some hk with ⟨-, ho⟩ | ⟨-, hk⟩
      · cases ho
        rw [List.mem_singleton]
        rintro rfl
        exact h0 ht.free
      · exact hno k b' l' hk
  · ext c
    rw [Set.mem_insert_iff]
    constructor
    · intro ⟨h2, hlt, h0, hno⟩
      exact ((hfat c hlt).mp h0).imp id fun h0 => ⟨h2, hlt, h0, hno⟩
    · rintro (rfl | ⟨h2, hlt, h0, hno⟩)
      · exact ⟨ht.lower, ht.upper, (hfat c ht.upper).mpr (Or.inl rfl), fun k b' l' hk => hS.not_mem ht.free hk⟩
      · exact ⟨h2, hlt, (hfat c hlt).mpr (Or.inr h0), hno⟩

/-- A node was freed. -/
theorem lost_freed (hn : objs n = some (b, l))
    (hf : ∀ x, x < v.total → v.readFatEntry d' x = if x ∈ l then 0 else v.readFatEntry d x) :
    lostClusters v d' (Function.update objs n none) = lostClusters v d objs := by
  ext c
  refine and_congr_right fun _ => and_congr_right fun hlt => ?_
  rw [hf c hlt]
  constructor
  · intro ⟨h0, hno⟩
    have hl : c ∉ l := fun hm => h0 (if_pos hm)
    rw [if_neg hl] at h0
    refine ⟨h0, fun k b' l' hk => ?_⟩
    by_cases hkn : k = n
    · rw [hkn, hn] at hk
      cases hk
      exact hl
    · exact hno k b' l' ((Function.update_of_ne hkn ..).trans hk)
  · intro ⟨h0, hno⟩
    rw [if_neg (hno n b l hn)]
    refine ⟨h0, fun k b' l' hk => ?_⟩
    rcases update_eq_some hk with ⟨-, ho⟩ | ⟨-, hk⟩
    · cases ho
    · exact hno k b' l' hk

/-! ## Reading -/

section

variable {h : Held} {s : Contents} {ino : Fat32Inode}

/-- `read_at` returns a slice of what the file has of its size. -/
theorem Holds.readAt (hh : Holds v h s) {data : List UInt8} (hf : s.tree ino.firstCluster = some (.file data)) (off len : Nat) :
    ino.readAt v h.dev off len = ((data.take ino.size).drop off).take len := by
  obtain ⟨objs, hM, rfl⟩ := hh
  obtain ⟨l, ho, rfl⟩ := treeOf_file.1 hf
  rw [readAt_eq (hM.sound.chain _ _ _ ho) hM.sound.wf]
  apply List.ext_getElem
  · simp [length_fileBytes]
  · intro p _ _
    simp [fileBytes]

/-- A listing of a directory: its entries, each once, and names that start with a dot. -/
structure Lists (names : Str → Option Named) (es : List DirEntry) : Prop where
  mem : ∀ e, e ∈ es ∧ e.name.head? ≠ some '.' ↔ ∃ n, names (folded e.name) = some n ∧ n.entry = e
  once : (es.filter plainName).Pairwise fun a b => folded a.name ≠ folded b.name

theorem Neat.lists (hN : Neat v d l) {es : List DirEntry} (he : es.filter plainName = (listing (slotOf v d) (places v l)).map Named.entry) :
    Lists (names v d l) es := by
  constructor
  · intro e
    have hmem : e ∈ es ∧ e.name.head? ≠ some '.' ↔ e ∈ es.filter plainName := by
      rw [List.mem_filter, plainName, decide_eq_true_eq]
    rw [hmem, he, List.mem_map]
    refine exists_congr fun n => ?_
    rw [mem_listing hN.table, names, valueOf_eq_some hN.table, and_comm]
    constructor
    · rintro ⟨rfl, hp⟩
      exact ⟨⟨rfl, hp⟩, rfl⟩
    · exact fun ⟨⟨_, hp⟩, hn⟩ => ⟨hn, hp⟩
  · rw [he, List.pairwise_map]
    exact listing_keys hN.table

theorem Holds.readdir (hh : Holds v h s) {m : Str → Option Named} (hd : s.tree ino.firstCluster = some (.dir m)) (hdir : ino.isDir = true) :
    ∃ es, ino.readdir v h.dev = some (.ok es) ∧ Lists m es := by
  obtain ⟨objs, hM, rfl⟩ := hh
  obtain ⟨l, ho, rfl⟩ := treeOf_dir.1 hd
  have hN := hM.neat _ _ ho
  obtain ⟨es, hr, he⟩ := hN.readdir (hM.sound.chain _ _ _ ho) hM.sound.wf hdir
  exact ⟨es, hr, hN.lists he⟩

end

end Myos.Fat
