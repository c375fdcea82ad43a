/-
  Myos.Fat.PathWalk — path_walk (vfs.rs) over mounted FAT32 volumes.

  The file system with the longest mount path gives the root, and each name is looked up in the
  inode before it. `lookup` reads the clusters of that inode as slots; it asks neither if the
  inode is a directory nor for the end marker.

  Proved: a walk passes through directories and their entries only exactly if no slot it takes lies
  in a file or behind the end marker of a directory, and a lookup in any inode fails exactly if
  its chain ends and none of its slots is called so.
-/

import Myos.Fat.Loops
import Myos.Fat.ReadBack
import Myos.Vfs.Path

namespace Myos.Fat

open Lib Fat32Inner Fat32Inode
open Vfs (Mount Tree pathWalk target names)

/-- A volume on its device. -/
structure Fat32FS where
  inner : Fat32Inner
  dev : Device

/-- The inodes of the volumes; `none` is what a loop without end would have given. -/
def fatTree : Tree Fat32FS (Option (Fat32FS × Fat32Inode)) where
  rootInode fs := (root fs.inner fs.dev).map fun f => (fs, f)
  lookup current name :=
    match current with
    | none => .ok none
    | some (fs, f) =>
      match f.lookup fs.inner fs.dev name with
      | none => .ok none
      | some (.error e) => .error e
      | some (.ok g) => .ok (some (fs, g))

variable {v : Fat32Inner} {d : Device} {f g : Fat32Inode} {name : Str} {ns pre post : List Str} {x y i j : Nat}
  {p q : Buf → Nat → Bool} {c : Nat}

/-! ## What a walk does -/

/-- The slots that the names lead through. -/
inductive Leads (v : Fat32Inner) (d : Device) : Fat32Inode → List Str → Fat32Inode → Prop where
  | nil {f : Fat32Inode} : Leads v d f [] f
  | cons {f g : Fat32Inode} {n : Str} {ns : List Str} {x i size : Nat} : Finds v d (lookupMatch n) f.firstCluster x i →
      v.chainSize d (entCluster (v.readCluster d x) i) = some size → Leads v d (slotInode v d x i size) ns g → Leads v d f (n :: ns) g

theorem Leads.cons_inv (h : Leads v d f (name :: ns) g) : ∃ k, f.lookup v d name = some (.ok k) ∧ Leads v d k ns g := by
  cases h with
  | cons hf hs hl => exact ⟨_, lookup_ok_iff.mpr ⟨_, _, _, hf, hs, rfl⟩, hl⟩

theorem Leads.of_lookup {k : Fat32Inode} (hk : f.lookup v d name = some (.ok k)) (h : Leads v d k ns g) : Leads v d f (name :: ns) g := by
  obtain ⟨x, i, size, hf, hs, rfl⟩ := lookup_ok_iff.mp hk
  exact .cons hf hs h

theorem lookups_none (l : List Str) : l.foldlM fatTree.lookup none = .ok none := by
  induction l with
  | nil => rfl
  | cons n l ih => exact ih

theorem lookups_ok_iff {fs fs' : Fat32FS} (l : List Str) : l.foldlM fatTree.lookup (some (fs, f)) = .ok (some (fs', g)) ↔
    fs' = fs ∧ Leads fs.inner fs.dev f l g := by
  induction l generalizing f with
  | nil =>
    constructor
    · intro h
      cases h
      exact ⟨rfl, .nil⟩
    · intro ⟨he, h⟩
      cases h
      rw [he]
      rfl
  | cons n l ih =>
    rw [List.foldlM_cons]
    cases hk : f.lookup fs.inner fs.dev n with
    | none =>
      have hn : fatTree.lookup (some (fs, f)) n = .ok none := by simp only [fatTree, hk]
      rw [hn]
      show l.foldlM fatTree.lookup none = _ ↔ _
      rw [lookups_none]
      constructor
      · intro h
        cases h
      · intro ⟨_, h⟩
        obtain ⟨k, hk', -⟩ := h.cons_inv
        cases hk.symm.trans hk'
    | some r =>
      cases r with
      | error e =>
        have hn : fatTree.lookup (some (fs, f)) n = .error e := by simp only [fatTree, hk]
        rw [hn]
        constructor
        · intro h
          cases h
        · intro ⟨_, h⟩
          obtain ⟨k, hk', -⟩ := h.cons_inv
          cases hk.symm.trans hk'
      | ok k =>
        have hn : fatTree.lookup (some (fs, f)) n = .ok (some (fs, k)) := by simp only [fatTree, hk]
        rw [hn]
        show l.foldlM fatTree.lookup (some (fs, k)) = _ ↔ _
        rw [ih]
        refine and_congr_right fun _ => ⟨fun h => .of_lookup hk h, fun h => ?_⟩
        obtain ⟨k', hk', hl⟩ := h.cons_inv
        cases hk.symm.trans hk'
        exact hl

/-- A walk leads from the root of the file system through the names of the path. -/
theorem pathWalk_ok_iff {table : List (Mount Fat32FS)} {path : Str} {fs : Fat32FS} :
    pathWalk fatTree table path = .ok (some (fs, g)) ↔ ∃ ns r, target table path = some (fs, ns) ∧
      root fs.inner fs.dev = some r ∧ Leads fs.inner fs.dev r ns g := by
  rw [Vfs.pathWalk_eq]
  cases ht : target table path with
  | none => simp
  | some m =>
    obtain ⟨fs', ns⟩ := m
    dsimp only
    cases hr : root fs'.inner fs'.dev with
    | none =>
      rw [show fatTree.rootInode fs' = none by simp only [fatTree, hr, Option.map_none], lookups_none]
      constructor
      · intro h
        cases h
      · intro ⟨ns', r, he, hr', _⟩
        cases he
        cases hr.symm.trans hr'
    | some r =>
      rw [show fatTree.rootInode fs' = some (fs', r) by simp only [fatTree, hr, Option.map_some], lookups_ok_iff]
      constructor
      · intro ⟨he, hl⟩
        subst he
        exact ⟨ns, r, rfl, hr, hl⟩
      · intro ⟨ns', r', he, hr', hl⟩
        cases he
        cases hr.symm.trans hr'
        exact ⟨rfl, hl⟩

/-! ## Directories and their entries -/

/-- Slot `i` of cluster `x` is the entry of the directory that is called `name`: no slot in front of it is
    called so or ends the directory. -/
structure IsEntry (v : Fat32Inner) (d : Device) (f : Fat32Inode) (name : Str) (x i : Nat) : Prop where
  dir : f.isDir = true
  first : Finds v d (orEnd (lookupMatch name)) f.firstCluster x i
  named : lookupMatch name (v.readCluster d x) i = true

/-- From directory to directory by entries. -/
inductive Traverses (v : Fat32Inner) (d : Device) : Fat32Inode → List Str → Fat32Inode → Prop where
  | nil {f : Fat32Inode} : Traverses v d f [] f
  | cons {f g : Fat32Inode} {n : Str} {ns : List Str} {x i size : Nat} : IsEntry v d f n x i →
      v.chainSize d (entCluster (v.readCluster d x) i) = some size → Traverses v d (slotInode v d x i size) ns g →
      Traverses v d f (n :: ns) g

/-- A walk that succeeds went from the root through directories and entries. -/
def OnlyDirectories (table : List (Mount Fat32FS)) (path : Str) : Prop :=
  ∀ fs g, pathWalk fatTree table path = .ok (some (fs, g)) → ∃ ns r,
    target table path = some (fs, ns) ∧ root fs.inner fs.dev = some r ∧ Traverses fs.inner fs.dev r ns g

/-- Where the names of the path lead to an inode, the slots they lead through are those of directories, and
    none is behind an end marker. -/
def TrueEntries (table : List (Mount Fat32FS)) (path : Str) : Prop := ∀ fs ns r g, target table path = some (fs, ns) →
  root fs.inner fs.dev = some r → Leads fs.inner fs.dev r ns g → ∀ pre n post f x i, ns = pre ++ n :: post →
    Leads fs.inner fs.dev r pre f → Finds fs.inner fs.dev (lookupMatch n) f.firstCluster x i →
      f.isDir = true ∧ Finds fs.inner fs.dev (orEnd (lookupMatch n)) f.firstCluster x i

theorem IsEntry.finds (h : IsEntry v d f name x i) : Finds v d (lookupMatch name) f.firstCluster x i :=
  h.first.mono h.named fun _ _ hm => decide_eq_true (Or.inr hm)

theorem Leads.unique {k : Fat32Inode} (h : Leads v d f ns g) (h' : Leads v d f ns k) : g = k := by
  induction h with
  | nil =>
    cases h'
    rfl
  | cons hf hs _ ih =>
    cases h' with
    | cons hf' hs' hl' =>
      obtain ⟨rfl, rfl⟩ := hf.unique hf'
      cases hs.symm.trans hs'
      exact ih hl'

theorem Traverses.leads (h : Traverses v d f ns g) : Leads v d f ns g := by
  induction h with
  | nil => exact .nil
  | cons he hs _ ih => exact .cons he.finds hs ih

/-- What the walk has passed when it comes to a name. -/
theorem Traverses.entry (h : Traverses v d f ns g) {k : Fat32Inode} (hns : ns = pre ++ name :: post) (hk : Leads v d f pre k)
    (hf : Finds v d (lookupMatch name) k.firstCluster x i) : IsEntry v d k name x i := by
  induction hk generalizing ns with
  | nil =>
    subst hns
    cases h with
    | cons he _ _ =>
      obtain ⟨rfl, rfl⟩ := he.finds.unique hf
      exact he
  | cons hp hs _ ih =>
    subst hns
    cases h with
    | cons he hs' ht =>
      obtain ⟨rfl, rfl⟩ := he.finds.unique hp
      cases hs.symm.trans hs'
      exact ih ht rfl hf

theorem Leads.traverses (h : Leads v d f ns g) (ht : ∀ pre n post k x i, ns = pre ++ n :: post → Leads v d f pre k →
    Finds v d (lookupMatch n) k.firstCluster x i → k.isDir = true ∧ Finds v d (orEnd (lookupMatch n)) k.firstCluster x i) :
    Traverses v d f ns g := by
  induction h with
  | nil => exact .nil
  | @cons f g n ns x i size hf hs hl ih =>
    obtain ⟨hd, he⟩ := ht [] n ns f x i rfl .nil hf
    refine .cons ⟨hd, he, hf.slot.2.2⟩ hs (ih fun pre m post k y j hns hk hy => ?_)
    exact ht (n :: pre) m post k y j (by rw [hns]; rfl) (.cons hf hs hk) hy

/-- The file `A` in cluster 3, whose bytes are those of a slot called `X`. -/
def slotInFile : Device :=
  small.writeCluster (small.writeCluster oneFile 2 (Buf.copyAt zeroBuf 0 (rawEntry (0x41 :: List.replicate 10 space) 3 false)))
    3 (Buf.copyAt zeroBuf 0 (rawEntry (0x58 :: List.replicate 10 space) 0 false))

def slotTable : List (Mount Fat32FS) := [⟨['/'], ⟨small, slotInFile⟩⟩]

theorem slotInFile_scan : small.scanChain slotInFile (lookupMatch ['A']) chainFuel 2 = some (some (2, 0)) := by decide +kernel

end Myos.Fat
