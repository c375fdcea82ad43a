/-
  Myos.Fat.TreeRuns — the calls on a FAT32 volume are steps of its tree.

  Proved: a proper call on a volume that holds a tree returns, and what the volume holds then is a
  step of what it held; so a run of proper calls is a run of steps, whatever it does in between.
-/

import Myos.Fat.TreeSteps

namespace Myos.Fat

open Lib Fat32Inner Fat32Inode

variable {v : Fat32Inner} {d d' d1 : Device} {objs : Objects} {b : Bool} {k n x y i j : Nat} {l l2 : List Nat} {raw : List UInt8}
  {name : Str} {isDir : Bool} {ino : Fat32Inode} {buf : Buf} {h : Held} {s : Contents}

/-! ## New entries -/

/-- A name that is accepted has a letter before its first dot. -/
theorem encoded_head (h : encodeShortName name = .ok raw) : name ≠ [] ∧ name.head? ≠ some '.' := by
  obtain ⟨-, -, hb, -⟩ := encodeShortName_ok h
  cases name with
  | nil => exact absurd rfl hb
  | cons c t =>
    refine ⟨List.cons_ne_nil _ _, fun hc => hb ?_⟩
    obtain rfl : c = '.' := by simpa using hc
    rfl

theorem rawEntry_slot (h : encodeShortName name = .ok raw) (hp : Plain name) (hn : n < 2 ^ 32) (buf : Buf) (i : Nat) :
    slotAt (Buf.copyAt buf i (rawEntry raw n isDir)) i = .used ⟨name, n, isDir, 0⟩ ∧
      noShort (entAttr (Buf.copyAt buf i (rawEntry raw n isDir)) i) = false := by
  have h11 := length_encodeShortName h
  have hok : CodecOk {name} := (codec_iff {name}).mpr fun m hm _ _ => by
    rw [Set.mem_singleton_iff.mp hm]
    exact hp
  refine ⟨slotAt_used.mpr ⟨(rawEntry_live h).mpr (hok.marker name rfl raw h), ?_⟩, ?_⟩
  · unfold namedAt
    rw [rawEntry_name h11, rawEntry_cluster h11 hn, rawEntry_isDir h11, rawEntry_size h11, hok.roundTrip name rfl raw h]
  · rw [rawEntry_attr h11]
    cases isDir <;> decide

/-! ## Entries -/

/-- An entry of a directory: its name, and the node that it is for. -/
theorem Holds.entry {c : Nat} {m : Str → Option Named} {x : Str} {e : Named} (hh : Holds v h s) (hd : s.tree c = some (.dir m))
    (he : m x = some e) : e.key = x ∧ ∃ node size, s.tree e.id = some node ∧ node.isDir = e.isDir ∧
      (∀ data, node = .file data → size = data.length) ∧ v.chainSize h.dev e.id = some size := by
  obtain ⟨objs, hM, rfl⟩ := hh
  obtain ⟨l, ho, rfl⟩ := treeOf_dir.mp hd
  obtain ⟨hkey, q, hq, hu⟩ := (valueOf_eq_some (hM.neat _ _ ho).table).mp he
  obtain ⟨-, -, -, -, l', ho'⟩ := hM.entryAt ho hq hu
  refine ⟨hkey, _, _, treeOf_some ho', nodeOf_isDir .., fun data hdata => ?_, chainSize_eq (hM.sound.chain _ _ _ ho') hM.sound.wf⟩
  cases hb : e.isDir with
  | true =>
    rw [hb] at hdata
    cases hdata
  | false =>
    rw [hb] at hdata
    cases hdata
    rw [length_fileBytes]

/-- `lookup` returns what the directory says. -/
theorem Holds.lookup {m : Str → Option Named} (hh : Holds v h s) (hd : s.tree ino.firstCluster = some (.dir m)) (hdot : name.head? ≠ some '.') :
    (m (folded name) = none → ino.lookup v h.dev name = some (.error "entry not found")) ∧
      ∀ e, m (folded name) = some e → ∃ node size, s.tree e.id = some node ∧ node.isDir = e.isDir ∧
        (∀ data, node = .file data → size = data.length) ∧ ino.lookup v h.dev name = some (.ok ⟨e.id, size, e.isDir⟩) := by
  have hentry := fun e => hh.entry (e := e) (x := folded name) hd
  obtain ⟨objs, hM, rfl⟩ := hh
  obtain ⟨l, ho, rfl⟩ := treeOf_dir.mp hd
  have hlook := (hM.neat _ _ ho).lookup (hM.sound.chain _ _ _ ho) hM.sound.wf hdot
  refine ⟨fun hn => ?_, fun e he => ?_⟩
  · rw [hlook, hn]
  · obtain ⟨-, node, size, hn, hdir, hsize, hc⟩ := hentry e he
    refine ⟨node, size, hn, hdir, hsize, ?_⟩
    rw [hlook, he]
    dsimp only
    rw [hc]
    rfl

/-! ## One call -/

theorem step_root (hh : Holds v h s) : ∃ h' s', h.step v .root = some h' ∧ Holds v h' s' ∧ s.Step v.rootClus v.clusBytes .root s' := by
  obtain ⟨objs, hM, rfl⟩ := hh
  obtain ⟨lr, hr⟩ := hM.sound.root
  have hsize := chainSize_eq (hM.sound.chain _ _ _ hr) hM.sound.wf
  have hs : h.step v .root = some { h with inodes := h.inodes ++ [⟨v.rootClus, lr.length * v.clusBytes, true⟩] } := by
    unfold Held.step Fat32Inode.root
    rw [hsize]
    rfl
  exact ⟨_, _, hs, ⟨objs, hM, rfl⟩, .root (lr.length * v.clusBytes)⟩

theorem step_lookup (hh : Holds v h s) (hp : s.Proper (.lookup k name)) :
    ∃ h' s', h.step v (.lookup k name) = some h' ∧ Holds v h' s' ∧ s.Step v.rootClus v.clusBytes (.lookup k name) s' := by
  obtain ⟨ino, m, hk, hd, hdot⟩ := hp
  have hk' : h.inodes[k]? = some ino := by
    obtain ⟨objs, -, rfl⟩ := hh
    exact hk
  obtain ⟨hmissing, hfound⟩ := hh.lookup hd hdot
  unfold Held.step
  dsimp only
  rw [hk', Option.bind_some]
  cases hf : m (folded name) with
  | none =>
    rw [hmissing hf]
    exact ⟨h, s, rfl, hh, .missing hk hd hf⟩
  | some e =>
    obtain ⟨node, size, hn, hdir, hsize, hl⟩ := hfound e hf
    rw [hl]
    refine ⟨_, _, rfl, ?_, .found hk hd hf hn hdir hsize⟩
    obtain ⟨objs, hM, rfl⟩ := hh
    exact ⟨objs, hM, rfl⟩

/-- The node was set up and got its entry. -/
theorem created_step (hM : Models v h.dev objs) (ho : objs ino.firstCluster = some (true, l)) (hk : h.inodes[k]? = some ino)
    (hdir : ino.isDir = true) (henc : encodeShortName name = .ok raw) (ht : Taken v h.dev n d1)
    (hfree : freeClusters v h.dev = n :: freeClusters v d1) {d2 : Device} {q : Nat × Nat}
    (hE : EntryPlace v (newObject v d1 n ino.firstCluster isDir) ino.firstCluster l d2 l2 q)
    (hc : ino.create v h.dev name isDir = some (.ok ⟨n, if isDir then v.clusBytes else 0, isDir⟩,
      v.writeCluster d2 q.1 (Buf.copyAt (v.readCluster d2 q.1) q.2 (rawEntry raw n isDir))))
    (hplain : Plain name) (hnew : names v h.dev l (folded name) = none) :
    ∃ h' s', (ino.create v h.dev name isDir).map (fun
      | (.ok f, d) => (⟨d, h.inodes ++ [f]⟩ : Held)
      | (.error _, d) => ⟨d, h.inodes⟩) = some h' ∧ Holds v h' s' ∧
      (contentsOf v h objs).Step v.rootClus v.clusBytes (.create k name isDir) s' := by
  have hv := hM.sound.wf
  have hn := hM.sound.free_none ht.free
  have hnc : n ≠ ino.firstCluster := fun e => by
    rw [e, ho] at hn
    cases hn
  have hw := @newObject_written v d1 n isDir hv ht.lower ino.firstCluster
  -- the node, then the place, then the entry
  obtain ⟨hM1, hT1⟩ := hM.newObject ht ino.firstCluster isDir
  have ho1 : Function.update objs n (some (isDir, [n])) ino.firstCluster = some (true, l) := by
    rw [Function.update_of_ne hnc.symm]
    exact ho
  obtain ⟨hM2, hm2, hT2⟩ := hM1.grow ho1 hE.extended hE.used
  have hm1 : names v (newObject v d1 n ino.firstCluster isDir) l = names v h.dev l := by
    have := congrFun hT1 ino.firstCluster
    rw [Function.update_of_ne hnc.symm, treeOf_some ho1, treeOf_some ho] at this
    exact Node.dir.inj (Option.some.inj this)
  have hlt : n < 2 ^ 32 := ht.upper.trans_le (hv.total.trans (by decide))
  obtain ⟨hslot, hattr⟩ := @rawEntry_slot _ _ _ isDir henc hplain hlt (v.readCluster d2 q.1) q.2
  obtain ⟨hne, hdot⟩ := encoded_head henc
  have ho2 : Function.update (Function.update objs n (some (isDir, [n]))) ino.firstCluster (some (true, l ++ l2)) n = some (isDir, [n]) := by
    rw [Function.update_of_ne hnc, Function.update_self]
  have hroot : n ≠ v.rootClus := fun e => by
    obtain ⟨lr, hr⟩ := hM.sound.root
    rw [← e, hn] at hr
    cases hr
  have hno : ∀ y j, Entry v d2 (Function.update (Function.update objs n (some (isDir, [n]))) ino.firstCluster (some (true, l ++ l2))) y j →
      entCluster (v.readCluster d2 y) j ≠ n := by
    intro y j he
    obtain ⟨he1, hy⟩ := hM1.sound.of_grow ho1 hE.extended (fun _ x i hs => by
      rw [hE.extended.zero x hs.1]
      exact unused_not_live (zero_unused i)) he
    rw [hy]
    exact hM.newObject_noEntry ht ino.firstCluster isDir he1
  have hkey : names v d2 (l ++ l2) (Named.key ⟨name, n, isDir, 0⟩) = none := by
    rw [hm2, hm1]
    exact hnew
  obtain ⟨hM3, hT3⟩ := hM2.put (Function.update_self ..) hE.first (length_rawEntry (length_encodeShortName henc)) hslot ht.lower hne hdot hattr
    hkey ⟨[n], ho2⟩ hroot hno
  rw [hc]
  refine ⟨_, _, rfl, ⟨_, hM3, rfl⟩, ?_⟩
  obtain ⟨hlost, -⟩ := lost_taken ht (fun x hx => hw.fat x hx) hM.sound isDir
  unfold contentsOf
  dsimp only
  rw [hT3, hT2, hT1, hm2, hm1, freeClusters_writeCluster hv, lost_same fun x hx => readFatEntry_writeCluster hv hx,
    lost_extended ho1 hE.extended, hlost]
  refine .created hk hdir (treeOf_some ho) hnew ht.lower (treeOf_none.mpr hn) ?_
  have hF : freeClusters v (newObject v d1 n ino.firstCluster isDir) = freeClusters v d1 := freeClusters_congr hv fun x _ hx => by rw [hw.fat x hx]
  have hlen := congrArg List.length (hfree.trans (congrArg (n :: ·) (hF.symm.trans hE.free)))
  have hl2 := hE.length
  rw [List.length_cons, List.length_append] at hlen
  dsimp only
  omega

theorem step_create (hh : Holds v h s) (hp : s.Proper (.create k name isDir)) :
    ∃ h' s', h.step v (.create k name isDir) = some h' ∧ Holds v h' s' ∧ s.Step v.rootClus v.clusBytes (.create k name isDir) s' := by
  obtain ⟨objs, hM, rfl⟩ := hh
  obtain ⟨ino, hk, hp⟩ := hp
  have hv := hM.sound.wf
  have hk' : h.inodes[k]? = some ino := hk
  unfold Held.step
  dsimp only
  rw [hk', Option.bind_some]
  cases hdir : ino.isDir with
  | false =>
    unfold Fat32Inode.create
    rw [hdir, Bool.not_false, if_pos rfl]
    exact ⟨h, _, rfl, ⟨objs, hM, rfl⟩, .refused hk (Or.inl hdir)⟩
  | true =>
    obtain ⟨m, hd, hnew⟩ := hp hdir
    obtain ⟨l, ho, rfl⟩ := treeOf_dir.mp hd
    rcases create_place hv hdir (hM.sound.chain _ _ _ ho) (hM.sound.nonempty _ _ _ ho) name isDir with
      ⟨e, hc, he⟩ | ⟨raw, n, d1, henc, ht, hfree, ⟨d2, l2, q, hE, hc⟩ | ⟨hc, hfull⟩⟩
    · rw [hc]
      refine ⟨h, _, rfl, ⟨objs, hM, rfl⟩, ?_⟩
      rcases he with he | he
      · exact .refused hk (Or.inr ⟨e, he⟩)
      · exact .full hk hdir (congrArg List.length he)
    · exact created_step hM ho hk hdir henc ht hfree hE hc (hnew raw henc).1 (hnew raw henc).2
    · -- the node has no entry: the tree is as before
      have hw := @newObject_written v d1 n isDir hv ht.lower ino.firstCluster
      have hkeep : ∀ k b l, objs k = some (b, l) → ∀ x ∈ l,
          v.readCluster (newObject v d1 n ino.firstCluster isDir) x = v.readCluster h.dev x := by
        intro k b l hk x hx
        have hne : x ≠ n := ne_of_mem_of_not_mem hx (hM.sound.not_mem ht.free hk)
        rw [hw.data x (hM.range hk x hx) (by simpa using hne), ht.data x (hM.range hk x hx) hne]
      have hS := (hM.sound.taken ht).written hw fun k l hk x hx hm => by
        rw [List.mem_singleton.mp hm] at hx
        exact hM.sound.not_mem ht.free hk hx
      have hT : treeOf v (newObject v d1 n ino.firstCluster isDir) objs = treeOf v h.dev objs := by
        funext k
        cases ho : objs k with
        | none => rw [treeOf_none.mpr ho, treeOf_none.mpr ho]
        | some o => rw [treeOf_some ho, treeOf_some ho, nodeOf_congr hv (hkeep k o.1 o.2 ho)]
      have hF : freeClusters v (newObject v d1 n ino.firstCluster isDir) = freeClusters v d1 :=
        freeClusters_congr hv fun x _ hx => by rw [hw.fat x hx]
      obtain ⟨-, hlost⟩ := lost_taken ht (fun x hx => hw.fat x hx) hM.sound isDir
      rw [hc]
      refine ⟨_, _, rfl, ⟨objs, hM.same hS fun k l hk => hkeep k true l hk, rfl⟩, ?_⟩
      unfold contentsOf
      dsimp only
      rw [hT, hF, hfull, hlost]
      exact .leaked hk hdir (by rw [hfree, hfull]; rfl)

theorem step_remove (hh : Holds v h s) (hp : s.Proper (.remove k name)) :
    ∃ h' s', h.step v (.remove k name) = some h' ∧ Holds v h' s' ∧ s.Step v.rootClus v.clusBytes (.remove k name) s' := by
  obtain ⟨objs, hM, rfl⟩ := hh
  obtain ⟨ino, hk, hp⟩ := hp
  have hv := hM.sound.wf
  have hk' : h.inodes[k]? = some ino := hk
  unfold Held.step
  dsimp only
  rw [hk', Option.bind_some]
  cases hdir : ino.isDir with
  | false =>
    unfold Fat32Inode.remove
    rw [hdir, Bool.not_false, if_pos rfl]
    exact ⟨h, _, rfl, ⟨objs, hM, rfl⟩, .notRemoved hk (Or.inl hdir)⟩
  | true =>
    obtain ⟨m, hd, hdot⟩ := hp hdir
    obtain ⟨l, ho, rfl⟩ := treeOf_dir.mp hd
    rcases (hM.neat _ _ ho).removal (hM.sound.chain _ _ _ ho) hv hdir hdot with ⟨q, e, hq, he, hkey, hm, hr⟩ | ⟨hm, hr⟩
    · obtain ⟨-, -, -, hroot, l', ho'⟩ := hM.entryAt ho hq he
      obtain ⟨hM1, hT1, hno⟩ := hM.unlink ho hq he rfl
      obtain ⟨d', hf, hM2, hT2, hL, hF⟩ := hM1.delete ho' hroot hno
      rw [freeClusters_writeCluster hv] at hF
      rw [hr, hf]
      refine ⟨_, _, rfl, ⟨_, hM2, rfl⟩, ?_⟩
      unfold contentsOf
      dsimp only
      rw [hT2, hT1, hL, hF, hkey, lost_same fun x hx => readFatEntry_writeCluster hv hx]
      have hpos : 0 < l'.length := List.length_pos_of_ne_nil (hM.sound.nonempty _ _ _ ho')
      refine .removed hk hd hm (treeOf_some ho') (nodeOf_isDir ..) hpos fun data hdata => ?_
      cases hb : e.isDir with
      | true =>
        rw [hb] at hdata
        cases hdata
      | false =>
        rw [hb] at hdata
        cases hdata
        rw [length_fileBytes]
    · rw [hr]
      exact ⟨h, _, rfl, ⟨objs, hM, rfl⟩, .notRemoved hk (Or.inr ⟨_, hd, hm⟩)⟩

theorem step_truncate (hh : Holds v h s) (hp : s.Proper (.truncate k)) :
    ∃ h' s', h.step v (.truncate k) = some h' ∧ Holds v h' s' ∧ s.Step v.rootClus v.clusBytes (.truncate k) s' := by
  obtain ⟨objs, hM, rfl⟩ := hh
  obtain ⟨ino, hk, h2⟩ := hp
  have hk' : h.inodes[k]? = some ino := hk
  have hs : h.step v (.truncate k) = some ⟨h.dev, h.inodes.set k { ino with size := 0 }⟩ := by
    unfold Held.step Fat32Inode.truncate
    dsimp only
    rw [hk', Option.bind_some, if_neg (Nat.not_le.mpr h2)]
    rfl
  exact ⟨_, _, hs, ⟨objs, hM, rfl⟩, .truncated hk h2⟩

/-- Bytes written to a list that is long enough. -/
theorem getElem?_patch {data bytes : List UInt8} {off : Nat} (hfit : off + bytes.length ≤ data.length) (p : Nat) :
    (patch data off bytes)[p]? = if off ≤ p ∧ p < off + bytes.length then bytes[p - off]? else data[p]? := by
  have htake : (data.take off).length = off := by
    rw [List.length_take]
    omega
  unfold patch
  rw [List.getElem?_append, List.length_append, htake]
  by_cases h1 : p < off + bytes.length
  · rw [if_pos h1, List.getElem?_append, htake]
    by_cases h2 : p < off
    · rw [if_pos h2, if_neg fun h => Nat.not_le.mpr h2 h.1, List.getElem?_take_of_lt h2]
    · rw [if_neg h2, if_pos ⟨Nat.not_lt.mp h2, h1⟩]
  · rw [if_neg h1, if_neg fun h => h1 h.2, List.getElem?_drop]
    congr 1
    omega

theorem set_self {α : Type*} {xs : List α} {a : α} (h : xs[k]? = some a) : xs.set k a = xs := by
  refine List.ext_getElem? fun m => ?_
  rw [List.getElem?_set]
  split
  · next he =>
    subst he
    split
    · exact h.symm
    · next hlt => rw [List.getElem?_eq_none (Nat.not_lt.mp hlt)]
  · rfl

theorem Models.fileAt (hM : Models v d objs) (ho : objs n = some (false, l)) {lr : List Nat} (hr : objs v.rootClus = some (true, lr)) :
    FileAt v d n l lr := by
  refine ⟨hM.sound.wf, hM.sound.chain _ _ _ hr, hM.sound.chain _ _ _ ho, hM.sound.nonempty _ _ _ ho, fun x hx => ?_⟩
  refine hM.sound.apart _ _ _ _ _ _ ho hr (fun e => ?_) x hx
  rw [e, hr] at ho
  cases ho

/-- The bytes of a file after a write that it is long enough for. -/
theorem fileBytes_written {m off : Nat} {bytes : List UInt8} (hfit : off + bytes.length ≤ m)
    (hb : ∀ p, p < m → fileByte v d' l p = if off ≤ p ∧ p < off + bytes.length then bytes.getD (p - off) 0 else fileByte v d l p) :
    fileBytes v d' l 0 m = patch (fileBytes v d l 0 m) off bytes := by
  refine List.ext_getElem? fun p => ?_
  rw [getElem?_patch (by rw [length_fileBytes]; exact hfit), getElem?_fileBytes, getElem?_fileBytes, Nat.zero_add]
  by_cases hp : p < m
  · rw [if_pos hp, if_pos hp, hb p hp]
    split
    · next hin =>
      have hlt : p - off < bytes.length := by omega
      rw [List.getD_eq_getElem _ _ hlt, List.getElem?_eq_getElem hlt]
    · rfl
  · rw [if_neg hp, if_neg hp, if_neg fun h => hp (h.2.trans_le hfit)]

theorem step_writeAt {off : Nat} {bytes : List UInt8} (hh : Holds v h s) (hp : s.Proper (.writeAt k off bytes)) :
    ∃ h' s', h.step v (.writeAt k off bytes) = some h' ∧ Holds v h' s' ∧ s.Step v.rootClus v.clusBytes (.writeAt k off bytes) s' := by
  obtain ⟨objs, hM, rfl⟩ := hh
  obtain ⟨ino, hk, hp⟩ := hp
  have hv := hM.sound.wf
  have hk' : h.inodes[k]? = some ino := hk
  unfold Held.step
  dsimp only
  rw [hk', Option.bind_some]
  by_cases hb : bytes = []
  · subst hb
    have he : ino.writeAt v h.dev off [] = some (.ok 0, h.dev, ino) := rfl
    rw [he, Option.map_some]
    dsimp only
    rw [set_self hk']
    exact ⟨h, _, rfl, ⟨objs, hM, rfl⟩, .wroteNothing⟩
  obtain ⟨data, hd⟩ := hp hb
  obtain ⟨l, ho, rfl⟩ := treeOf_file.mp hd
  obtain ⟨lr, hr⟩ := hM.sound.root
  have hne : ino.firstCluster ≠ v.rootClus := fun e => by
    rw [e, hr] at ho
    cases ho
  rcases (hM.fileAt ho hr).writeAt off hb with ⟨d', l2, hw, hW, hfree⟩ | ⟨d', l2, hw, hE, hfree, hfull, hshort⟩
  · obtain ⟨d1, d2, hE, hD, hbytes, hU⟩ := hW.steps
    obtain ⟨hM1, hT1⟩ := hM.extend ho hE
    have ho1 : Function.update objs ino.firstCluster (some (false, l ++ l2)) ino.firstCluster = some (false, l ++ l2) := Function.update_self ..
    obtain ⟨hM2, hT2⟩ := hM1.written ho1 hD
    have hr2 : Function.update objs ino.firstCluster (some (false, l ++ l2)) v.rootClus = some (true, lr) := by
      rw [Function.update_of_ne hne.symm]
      exact hr
    obtain ⟨hM3, hT3⟩ := hM2.sizeUpdated hr2 hU
    have hold : fileBytes v d1 (l ++ l2) 0 ((l ++ l2).length * v.clusBytes) =
        fileBytes v h.dev l 0 (l.length * v.clusBytes) ++ zeros (l2.length * v.clusBytes) := by
      have := congrFun hT1 ino.firstCluster
      rw [Function.update_self, treeOf_some ho1] at this
      exact Node.file.inj (Option.some.inj this)
    have hlen := hW.length
    rw [hw]
    refine ⟨_, _, rfl, ⟨_, hM3, rfl⟩, ?_⟩
    have hfat : ∀ x, x < v.total → v.readFatEntry d' x = v.readFatEntry d1 x := fun x hx => by
      rw [(hU.written (hM2.sound.chain _ _ _ hr2) hv).fat x hx, hD.fat x hx]
    unfold contentsOf
    dsimp only
    rw [hT3, hT2, hT1, Function.update_idem, lost_same hfat, lost_extended ho hE]
    refine .wrote hk hd hb ?_ (fun hfit => ?_) ?_
    · rw [length_fileBytes, length_fileBytes, hlen, rounds, Nat.mul_max_mul_right]
    · rw [length_fileBytes] at hfit ⊢
      rw [fileBytes_written hfit (hbytes hfit), hold, length_fileBytes, List.length_append, Nat.add_mul, Nat.add_sub_cancel_left]
    · have hF := congrArg List.length hfree
      rw [List.length_append] at hF
      rw [length_fileBytes, length_fileBytes, List.length_append]
      dsimp only
      rw [hF, Nat.add_mul, Nat.add_mul]
      omega
  · obtain ⟨hM1, hT1⟩ := hM.extend ho hE
    have hF := no_free hv hfull
    rw [hF, List.append_nil] at hfree
    rw [hw]
    refine ⟨_, _, rfl, ⟨_, hM1, rfl⟩, ?_⟩
    unfold contentsOf
    dsimp only
    rw [hT1, hF, set_self hk', lost_extended ho hE, ← hfree]
    refine .writeFull hk hd ?_
    dsimp only
    rw [length_fileBytes, hfree, ← Nat.add_mul, ← List.length_append]
    exact (Nat.mul_lt_mul_right (WellFormed.clusBytes_pos hv)).mpr hshort

/-! ## Every call, and runs of them -/

theorem step_proper (c : Call) (hh : Holds v h s) (hp : s.Proper c) :
    ∃ h' s', h.step v c = some h' ∧ Holds v h' s' ∧ s.Step v.rootClus v.clusBytes c s' := by
  cases c with
  | root => exact step_root hh
  | lookup k name => exact step_lookup hh hp
  | create k name isDir => exact step_create hh hp
  | writeAt k off bytes => exact step_writeAt hh hp
  | truncate k => exact step_truncate hh hp
  | remove k name => exact step_remove hh hp

/-- The call is proper, whatever contents the volume holds. -/
def Decent (v : Fat32Inner) (h : Held) (c : Call) : Prop := ∀ s, Holds v h s → s.Proper c

theorem run_proper (calls : List Call) (hh : Holds v h s) (hp : Meets (Held.step v) (Decent v) h calls) :
    ∃ h' s', trace (Held.step v) h calls = some h' ∧ Holds v h' s' ∧ Runs (Contents.Step v.rootClus v.clusBytes) s calls s' := by
  induction calls generalizing h s with
  | nil => exact ⟨h, s, rfl, hh, .nil⟩
  | cons c calls ih =>
    obtain ⟨h1, s1, he, hh1, hs⟩ := step_proper c hh (hp.1 s hh)
    obtain ⟨h', s', ht, hh', hr⟩ := ih hh1 (hp.2 h1 he)
    refine ⟨h', s', ?_, hh', .cons hs hr⟩
    unfold trace
    rw [he, Option.bind_some, ht]

/-! ## An empty root -/

theorem emptyRoot_cluster (c : Nat) : twoCopies.readCluster emptyRoot c = zeroBuf := by
  unfold emptyRoot
  rw [readCluster_writeFatEntry twoCopies_wf (by decide), readCluster_writeFatEntry twoCopies_wf (by decide)]
  funext off
  unfold readCluster
  split <;> rfl

theorem emptyRoot_models : Models twoCopies emptyRoot onlyRoot := by
  refine ⟨emptyRoot_sound, fun k l hk => ?_, fun l _ q _ => ?_⟩
  · obtain ⟨-, -, rfl⟩ := onlyRoot_eq hk
    exact (zero_neat (List.nodup_singleton 2) fun x _ => emptyRoot_cluster x).1
  · rw [emptyRoot_cluster]
    exact show (0 : UInt8) ≠ dot by decide

theorem emptyRoot_holds : Holds twoCopies ⟨emptyRoot, []⟩ (contentsOf twoCopies ⟨emptyRoot, []⟩ onlyRoot) := ⟨onlyRoot, emptyRoot_models, rfl⟩

theorem emptyRoot_chain : FatChain twoCopies emptyRoot 2 [2] := emptyRoot_sound.chain 2 true [2] (Function.update_self ..)

theorem emptyRoot_free : (freeClusters twoCopies emptyRoot).length ≠ 1 := by
  intro h1
  obtain ⟨a, ha⟩ := List.length_eq_one_iff.mp h1
  have h3 : 3 ∈ freeClusters twoCopies emptyRoot := (mem_freeClusters twoCopies_wf).mpr (by decide +kernel)
  have h4 : 4 ∈ freeClusters twoCopies emptyRoot := (mem_freeClusters twoCopies_wf).mpr (by decide +kernel)
  rw [ha, List.mem_singleton] at h3 h4
  omega

/-- The root is empty, whatever tree the volume is taken for. -/
theorem emptyRoot_dir {size : Nat} (hh : Holds twoCopies ⟨emptyRoot, [⟨2, size, true⟩]⟩ s) :
    s.inodes = [⟨2, size, true⟩] ∧ s.tree 2 = some (.dir fun _ => none) ∧ s.free ≠ 1 := by
  obtain ⟨objs, hM, rfl⟩ := hh
  obtain ⟨l, ho⟩ := hM.sound.root
  obtain rfl := (hM.sound.chain _ _ _ ho).unique emptyRoot_chain
  have hm := (zero_neat (List.nodup_singleton 2) fun x _ => emptyRoot_cluster x).2
  refine ⟨rfl, (treeOf_some ho).trans (congrArg (fun m => some (Node.dir m)) hm), ?_⟩
  unfold contentsOf
  dsimp only
  exact emptyRoot_free

theorem step_emptyRoot {h1 : Held} (he : h1 ∈ Held.step twoCopies ⟨emptyRoot, []⟩ .root) : ∃ size, h1 = ⟨emptyRoot, [⟨2, size, true⟩]⟩ := by
  have he' : (Fat32Inode.root twoCopies emptyRoot).map (fun f => (⟨emptyRoot, [f]⟩ : Held)) = some h1 := he
  obtain ⟨f, hf, rfl⟩ := Option.map_eq_some_iff.mp he'
  obtain ⟨size, -, rfl⟩ := Option.map_eq_some_iff.mp hf
  exact ⟨size, rfl⟩

/-- The root is taken and a file is created in it. -/
def createFile : List Call := [.root, .create 0 ['F'] false]

theorem createFile_decent : Meets (Held.step twoCopies) (Decent twoCopies) ⟨emptyRoot, []⟩ createFile := by
  refine ⟨fun s _ => trivial, fun h1 he => ⟨fun s hh => ?_, fun _ _ => trivial⟩⟩
  obtain ⟨size, rfl⟩ := step_emptyRoot he
  obtain ⟨hi, ht, -⟩ := emptyRoot_dir hh
  have hplain : Plain ['F'] := by
    refine ⟨⟨?_, ?_⟩, ?_⟩ <;> simp
  refine ⟨⟨2, size, true⟩, ?_, fun _ => ⟨fun _ => none, ht, fun raw _ => ⟨hplain, rfl⟩⟩⟩
  rw [hi]
  rfl

end Myos.Fat
