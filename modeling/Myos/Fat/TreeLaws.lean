/-
  Myos.Fat.TreeLaws — what holds after any run of proper calls on a FAT32 volume.

  Proved: what the volume shows is the tree that the run leads to; the files and directories that
  are reached from the root have chains of their own that end; and no cluster is lost to them if a
  node that is created has a second cluster for its entry and no directory with entries is removed.
-/

import Myos.Fat.TreeRuns

namespace Myos.Fat

open Lib Fat32Inner Fat32Inode

variable {v : Fat32Inner} {d : Device} {objs : Objects} {c k root clusBytes : Nat} {l : List Nat} {b : Bool} {T : Tree} {h : Held}
  {s s' : Contents} {ino : Fat32Inode} {name : Str} {e : Named}

/-! ## What is seen -/

/-- Reading, listing and looking up give what the contents say. -/
structure Shows (v : Fat32Inner) (h : Held) (s : Contents) : Prop where
  inodes : h.inodes = s.inodes
  free : (freeClusters v h.dev).length = s.free
  read : ∀ (ino : Fat32Inode) data, s.tree ino.firstCluster = some (.file data) → ∀ off len,
    ino.readAt v h.dev off len = ((data.take ino.size).drop off).take len
  list : ∀ (ino : Fat32Inode) m, s.tree ino.firstCluster = some (.dir m) → ino.isDir = true → ∃ es, ino.readdir v h.dev = some (.ok es) ∧ Lists m es
  missing : ∀ (ino : Fat32Inode) m (name : Str), s.tree ino.firstCluster = some (.dir m) → name.head? ≠ some '.' → m (folded name) = none →
    ino.lookup v h.dev name = some (.error "entry not found")
  find : ∀ (ino : Fat32Inode) m (name : Str) e, s.tree ino.firstCluster = some (.dir m) → name.head? ≠ some '.' → m (folded name) = some e →
    ∃ size, ino.lookup v h.dev name = some (.ok ⟨e.id, size, e.isDir⟩)

theorem Holds.shows (hh : Holds v h s) : Shows v h s := by
  refine ⟨?_, ?_, fun ino data hf => hh.readAt hf, fun ino m hd hdir => hh.readdir hd hdir, fun ino m name hd hdot => (hh.lookup hd hdot).1, ?_⟩
  · obtain ⟨objs, -, rfl⟩ := hh
    rfl
  · obtain ⟨objs, -, rfl⟩ := hh
    rfl
  · intro ino m name e hd hdot he
    obtain ⟨node, size, -, -, -, hl⟩ := (hh.lookup hd hdot).2 e he
    exact ⟨size, hl⟩

/-- What the entries lead to from the root: the first cluster, and whether it is a directory. -/
inductive Reachable (v : Fat32Inner) (d : Device) : Nat → Bool → Prop where
  | root : Reachable v d v.rootClus true
  | entry {c : Nat} {l : List Nat} {x i : Nat} : Reachable v d c true → FatChain v d c l → SlotIn v l x i →
      live (v.readCluster d x) i = true → Reachable v d (entCluster (v.readCluster d x) i) (entIsDir (v.readCluster d x) i)

/-- A slot with an entry in a directory that is reached. -/
def ReachedEntry (v : Fat32Inner) (d : Device) (x i : Nat) : Prop :=
  ∃ c l, Reachable v d c true ∧ FatChain v d c l ∧ SlotIn v l x i ∧ live (v.readCluster d x) i = true

/-- What is reached has a chain that ends, no two chains share a cluster, and no two entries lead to one chain. -/
structure ChainsIntact (v : Fat32Inner) (d : Device) : Prop where
  chain : ∀ c b, Reachable v d c b → ∃ l, FatChain v d c l ∧ l ≠ []
  apart : ∀ c b l c' b' l', Reachable v d c b → Reachable v d c' b' → FatChain v d c l → FatChain v d c' l' → c ≠ c' → ∀ x ∈ l, x ∉ l'
  once : ∀ x i y j, ReachedEntry v d x i → ReachedEntry v d y j →
    entCluster (v.readCluster d x) i = entCluster (v.readCluster d y) j → x = y ∧ i = j
  root : ∀ x i, ReachedEntry v d x i → entCluster (v.readCluster d x) i ≠ v.rootClus

namespace Models

theorem entry_ge (hM : Models v d objs) {x i : Nat} (he : Entry v d objs x i) : 2 ≤ entCluster (v.readCluster d x) i := by
  obtain ⟨k, l, hk, hs, hl⟩ := he
  exact ((hM.neat k l hk).entry (x, i) (mem_places.mpr hs) _ (slotAt_used.mpr ⟨hl, rfl⟩)).1

theorem reached (hM : Models v d objs) (hr : Reachable v d c b) : ∃ l, objs c = some (b, l) := by
  induction hr with
  | root => exact hM.sound.root
  | entry _ hc hs hl ih =>
    obtain ⟨l, ho⟩ := ih
    obtain rfl := (hM.sound.chain _ _ _ ho).unique hc
    have he : Entry v d objs _ _ := ⟨_, _, ho, hs, hl⟩
    exact (hM.sound.entry _ _ he (hM.entry_ge he)).2

theorem reachedEntry (hM : Models v d objs) {x i : Nat} (he : ReachedEntry v d x i) : Entry v d objs x i := by
  obtain ⟨c, l, hr, hc, hs, hl⟩ := he
  obtain ⟨l', ho⟩ := hM.reached hr
  obtain rfl := (hM.sound.chain _ _ _ ho).unique hc
  exact ⟨c, _, ho, hs, hl⟩

theorem intact (hM : Models v d objs) : ChainsIntact v d := by
  refine ⟨fun c b hr => ?_, fun c b l c' b' l' hr hr' hc hc' hne => ?_, fun x i y j hx hy heq => ?_, fun x i hx => ?_⟩
  · obtain ⟨l, ho⟩ := hM.reached hr
    exact ⟨l, hM.sound.chain _ _ _ ho, hM.sound.nonempty _ _ _ ho⟩
  · obtain ⟨m, ho⟩ := hM.reached hr
    obtain ⟨m', ho'⟩ := hM.reached hr'
    obtain rfl := (hM.sound.chain _ _ _ ho).unique hc
    obtain rfl := (hM.sound.chain _ _ _ ho').unique hc'
    exact hM.sound.apart _ _ _ _ _ _ ho ho' hne
  · have he := hM.reachedEntry hx
    exact hM.sound.once _ _ _ _ he (hM.reachedEntry hy) (hM.entry_ge he) heq
  · have he := hM.reachedEntry hx
    exact (hM.sound.entry _ _ he (hM.entry_ge he)).1

end Models

/-- After every run of proper calls the chains are intact. -/
theorem chains_run (hh : Holds v h s) (calls : List Call) (hp : Meets (Held.step v) (Decent v) h calls) :
    ∃ h', trace (Held.step v) h calls = some h' ∧ ChainsIntact v h'.dev := by
  obtain ⟨h', s', ht, ⟨objs, hM, -⟩, -⟩ := run_proper calls hh hp
  exact ⟨h', ht, hM.intact⟩

theorem chains_run_createFile : ∃ h', trace (Held.step twoCopies) ⟨emptyRoot, []⟩ createFile = some h' ∧ ChainsIntact twoCopies h'.dev :=
  chains_run emptyRoot_holds createFile createFile_decent

/-! ## Trees without lost clusters -/

/-- The nodes that the entries lead to from the root. -/
inductive InTree (T : Tree) (root : Nat) : Nat → Prop where
  | root : InTree T root root
  | entry {c : Nat} {m : Str → Option Named} {x : Str} {e : Named} : InTree T root c → T c = some (.dir m) → m x = some e → InTree T root e.id

/-- The nodes outside `G` are still reached if those in `G` had no entries and no other entry was lost. -/
theorem InTree.transfer {T' : Tree} (G : Set Nat) (ht : InTree T root k) (hk : k ∉ G)
    (hn : ∀ n ∈ G, ∀ m, T n = some (.dir m) → ∀ x, m x = none)
    (hd : ∀ c m, c ∉ G → T c = some (.dir m) → ∃ m', T' c = some (.dir m') ∧
      ∀ x e, m x = some e → e.id ∉ G → ∃ e', m' x = some e' ∧ e'.id = e.id) : InTree T' root k := by
  induction ht with
  | root => exact .root
  | @entry c m x e hc hm he ih =>
    have hcn : c ∉ G := fun h => by
      rw [hn c h m hm x] at he
      cases he
    obtain ⟨m', hm', hes⟩ := hd c m hcn hm
    obtain ⟨e', he', hid⟩ := hes x e he hk
    rw [← hid]
    exact .entry (ih hcn) hm' he'

/-- No node was lost, and the directories keep their entries. -/
theorem InTree.kept {T' : Tree} (ht : InTree T root k)
    (hd : ∀ c m, T c = some (.dir m) → ∃ m', T' c = some (.dir m') ∧ ∀ x e, m x = some e → ∃ e', m' x = some e' ∧ e'.id = e.id) :
    InTree T' root k := by
  refine ht.transfer ∅ (Set.notMem_empty k) (fun n hn => absurd hn (Set.notMem_empty n)) fun c m _ hm => ?_
  obtain ⟨m', hm', hes⟩ := hd c m hm
  exact ⟨m', hm', fun x e he _ => hes x e he⟩

/-- Every node is reached. -/
def Covered (root : Nat) (T : Tree) : Prop := ∀ k, T k ≠ none → InTree T root k

namespace Covered

/-- A file changes. -/
theorem file (hc : Covered root T) {data data' : List UInt8} (hf : T c = some (.file data)) :
    Covered root (Function.update T c (some (.file data'))) := by
  intro k hk
  have hold : T k ≠ none := by
    by_cases hkc : k = c
    · rw [hkc, hf]
      exact Option.some_ne_none _
    · rwa [Function.update_of_ne hkc] at hk
  refine (hc k hold).kept fun j m hm => ⟨m, ?_, fun x e he => ⟨e, he, rfl⟩⟩
  rw [Function.update_of_ne fun e => ?_]
  · exact hm
  · rw [e, hf] at hm
    cases hm

theorem noteSize (hc : Covered root T) (id size : Nat) : Covered root (noteSize T c id size) := by
  intro k hk
  have hold : T k ≠ none := fun h => hk (by rw [Fat.noteSize, h])
  refine (hc k hold).kept fun j m hm => ?_
  unfold Fat.noteSize
  rw [hm]
  refine ⟨_, rfl, fun x e he => ?_⟩
  split
  · unfold resized
    rw [he, Option.map_some]
    refine ⟨_, rfl, ?_⟩
    split <;> rfl
  · exact ⟨e, he, rfl⟩

/-- A node gets an entry. -/
theorem created (hc : Covered root T) {m : Str → Option Named} (hd : T c = some (.dir m)) {x : Str} (hx : m x = none) (hn : T e.id = none)
    (node : Node) : Covered root (Function.update (Function.update T e.id (some node)) c (some (.dir (Function.update m x (some e))))) := by
  have hkept : ∀ j m', T j = some (.dir m') → ∃ m'', Function.update (Function.update T e.id (some node)) c
      (some (.dir (Function.update m x (some e)))) j = some (.dir m'') ∧ ∀ y e', m' y = some e' → ∃ e'', m'' y = some e'' ∧ e''.id = e'.id := by
    intro j m' hm'
    by_cases hjc : j = c
    · rw [hjc, hd] at hm'
      cases hm'
      rw [hjc, Function.update_self]
      refine ⟨_, rfl, fun y e' he' => ⟨e', ?_, rfl⟩⟩
      rw [Function.update_of_ne]
      · exact he'
      · rintro rfl
        rw [hx] at he'
        cases he'
    · have hje : j ≠ e.id := fun h => by
        rw [h, hn] at hm'
        cases hm'
      rw [Function.update_of_ne hjc, Function.update_of_ne hje]
      exact ⟨m', hm', fun y e' he' => ⟨e', he', rfl⟩⟩
  have hdir := (hc c (by rw [hd]; exact Option.some_ne_none _)).kept hkept
  intro k hk
  by_cases hke : k = e.id
  · rw [hke]
    exact .entry (x := x) hdir (Function.update_self ..) (Function.update_self ..)
  · refine (hc k fun h => hk ?_).kept hkept
    have hkc : k ≠ c := fun h' => by
      rw [h', hd] at h
      cases h
    rw [Function.update_of_ne hkc, Function.update_of_ne hke]
    exact h

/-- A node without entries loses its own. -/
theorem removed (hc : Covered root T) {m : Str → Option Named} (hd : T c = some (.dir m)) {x : Str} (hx : m x = some e)
    (hempty : ∀ m', T e.id = some (.dir m') → ∀ y, m' y = none) :
    Covered root (Function.update (Function.update T c (some (.dir (Function.update m x none)))) e.id none) := by
  intro k hk
  have hke : k ≠ e.id := fun h => hk (by rw [h, Function.update_self])
  have hold : T k ≠ none := fun h => hk (by
    have hkc : k ≠ c := fun h' => by
      rw [h', hd] at h
      cases h
    rw [Function.update_of_ne hke, Function.update_of_ne hkc, h])
  refine (hc k hold).transfer {e.id} (by simpa using hke) (fun n hn m' hm' => ?_) fun j m' hj hm' => ?_
  · rw [Set.mem_singleton_iff.mp hn] at hm'
    exact hempty m' hm'
  · have hje : j ≠ e.id := by simpa using hj
    rw [Function.update_of_ne hje]
    by_cases hjc : j = c
    · rw [hjc, hd] at hm'
      cases hm'
      rw [hjc, Function.update_self]
      refine ⟨_, rfl, fun y e' he' hid => ⟨e', ?_, rfl⟩⟩
      rw [Function.update_of_ne]
      · exact he'
      · rintro rfl
        rw [hx] at he'
        cases he'
        exact hid rfl
    · rw [Function.update_of_ne hjc]
      exact ⟨m', hm', fun y e' he' _ => ⟨e', he', rfl⟩⟩

end Covered

/-- Every cluster is free or a node's, and every node is in the tree. -/
structure Whole (root : Nat) (s : Contents) : Prop where
  lost : s.lost = ∅
  nodes : Covered root s.tree

/-- A node is created with two clusters free or none, and a directory that is removed has no entries. -/
def Contents.Careful (s : Contents) : Call → Prop
  | .create _ _ _ => s.free ≠ 1
  | .remove k name => ∀ ino m e, s.inodes[k]? = some ino → s.tree ino.firstCluster = some (.dir m) → m (folded name) = some e →
      ∀ m', s.tree e.id = some (.dir m') → ∀ x, m' x = none
  | _ => True

/-- A careful step keeps the tree whole. -/
theorem Whole.step {call : Call} (hw : Whole root s) (hs : s.Step root clusBytes call s') (hc : s.Careful call) : Whole root s' := by
  cases hs with
  | root size => exact ⟨hw.lost, hw.nodes⟩
  | found _ _ _ _ _ _ => exact ⟨hw.lost, hw.nodes⟩
  | missing _ _ _ => exact hw
  | @created _ name isDir _ _ n _ _ _ hd hnew _ hn _ => exact ⟨hw.lost, hw.nodes.created (e := ⟨name, n, isDir, 0⟩) hd hnew hn _⟩
  | refused _ _ => exact hw
  | full _ _ _ => exact hw
  | leaked _ _ h1 => exact absurd h1 hc
  | wroteNothing => exact hw
  | wrote _ hf _ _ _ _ => exact ⟨hw.lost, (hw.nodes.file hf).noteSize _ _⟩
  | writeFull _ hf _ => exact ⟨hw.lost, hw.nodes.file hf⟩
  | truncated _ _ => exact ⟨hw.lost, hw.nodes⟩
  | removed hk hd hm _ _ _ _ => exact ⟨hw.lost, hw.nodes.removed hd hm (hc _ _ _ hk hd hm)⟩
  | notRemoved _ _ => exact hw

/-! ## Volumes without orphans -/

/-- Every cluster that is not free is in the chain of what is reached from the root. -/
def NoOrphans (v : Fat32Inner) (d : Device) : Prop :=
  ∀ c, 2 ≤ c → c < v.total → v.readFatEntry d c ≠ 0 → ∃ k b l, Reachable v d k b ∧ FatChain v d k l ∧ c ∈ l

namespace Models

theorem reachable_inTree (hM : Models v d objs) (hr : Reachable v d c b) : InTree (treeOf v d objs) v.rootClus c := by
  induction hr with
  | root => exact .root
  | @entry c l x i hr hc hs hl ih =>
    obtain ⟨l', ho⟩ := hM.reached hr
    obtain rfl := (hM.sound.chain _ _ _ ho).unique hc
    have hu : slotOf v d (x, i) = .used (namedAt (v.readCluster d x) i) := slotAt_used.mpr ⟨hl, rfl⟩
    have hv := (hM.neat _ _ ho).table.valueOf (mem_places.mpr hs) hu
    exact .entry ih (treeOf_some ho) hv

theorem inTree_reachable (hM : Models v d objs) (ht : InTree (treeOf v d objs) v.rootClus c) :
    ∃ b l, objs c = some (b, l) ∧ Reachable v d c b := by
  induction ht with
  | root =>
    obtain ⟨l, ho⟩ := hM.sound.root
    exact ⟨true, l, ho, .root⟩
  | @entry c m x e _ hm he ih =>
    obtain ⟨b, l, ho, hr⟩ := ih
    obtain ⟨l', ho', rfl⟩ := treeOf_dir.mp hm
    cases ho.symm.trans ho'
    obtain ⟨-, q, hq, hu⟩ := (valueOf_eq_some (hM.neat _ _ ho).table).mp he
    obtain ⟨-, hc, -, -, l', ho'⟩ := hM.entryAt ho hq hu
    obtain ⟨hl, rfl⟩ := slotAt_used.mp hu
    exact ⟨_, l', ho', .entry hr (hM.sound.chain _ _ _ ho) (mem_places.mp hq) hl⟩

end Models

open Classical in
/-- The nodes that are reached from the root alone. -/
noncomputable def reachedObjects (v : Fat32Inner) (d : Device) (objs : Objects) : Objects :=
  fun k => if InTree (treeOf v d objs) v.rootClus k then objs k else none

theorem reachedObjects_some {o : Bool × List Nat} :
    reachedObjects v d objs k = some o ↔ InTree (treeOf v d objs) v.rootClus k ∧ objs k = some o := by
  unfold reachedObjects
  split
  · next ht => exact ⟨fun ho => ⟨ht, ho⟩, fun ho => ho.2⟩
  · next ht => exact ⟨nofun, fun ho => absurd ho.1 ht⟩

/-- The other nodes may be left out. -/
theorem Models.trim (hM : Models v d objs) : Models v d (reachedObjects v d objs) := by
  have hentry : ∀ {x i}, Entry v d (reachedObjects v d objs) x i →
      Entry v d objs x i ∧ InTree (treeOf v d objs) v.rootClus (entCluster (v.readCluster d x) i) := by
    intro x i ⟨k, l, hk, hs, hl⟩
    obtain ⟨ht, ho⟩ := reachedObjects_some.1 hk
    have hu : slotOf v d (x, i) = .used (namedAt (v.readCluster d x) i) := slotAt_used.mpr ⟨hl, rfl⟩
    have hv := (hM.neat _ _ ho).table.valueOf (mem_places.mpr hs) hu
    exact ⟨⟨k, l, ho, hs, hl⟩, .entry ht (treeOf_some ho) hv⟩
  have hof : ∀ {k o}, reachedObjects v d objs k = some o → objs k = some o := fun hk => (reachedObjects_some.1 hk).2
  refine ⟨⟨hM.sound.wf, hM.sound.reserved, fun k b l hk => hM.sound.chain k b l (hof hk), fun k b l hk => hM.sound.nonempty k b l (hof hk),
    fun k b l k' b' l' hk hk' => hM.sound.apart k b l k' b' l' (hof hk) (hof hk'), ?_, fun x i hx h2 => ?_,
    fun x i y j hx hy => hM.sound.once x i y j (hentry hx).1 (hentry hy).1⟩, fun k l hk => hM.neat k l (hof hk), fun l hl => hM.root l (hof hl)⟩
  · obtain ⟨l, ho⟩ := hM.sound.root
    exact ⟨l, reachedObjects_some.2 ⟨.root, ho⟩⟩
  · obtain ⟨he, ht⟩ := hentry hx
    obtain ⟨hr, l, ho⟩ := hM.sound.entry x i he h2
    exact ⟨hr, l, reachedObjects_some.2 ⟨ht, ho⟩⟩

/-- A volume that holds a tree holds one without the nodes that are not reached; it is whole if there are no orphans. -/
theorem Holds.whole (hh : Holds v h s) (hn : NoOrphans v h.dev) : ∃ s', Holds v h s' ∧ Whole v.rootClus s' := by
  obtain ⟨objs, hM, rfl⟩ := hh
  have hM' := hM.trim
  refine ⟨_, ⟨_, hM', rfl⟩, Set.eq_empty_iff_forall_notMem.mpr fun c hc => ?_, fun k hk => ?_⟩
  · obtain ⟨h2, hlt, h0, hno⟩ := hc
    obtain ⟨k, b, l, hr, hl, hm⟩ := hn c h2 hlt h0
    obtain ⟨l', ho⟩ := hM'.reached hr
    obtain rfl := (hM'.sound.chain _ _ _ ho).unique hl
    exact hno k b _ ho hm
  · -- a node that is left is reached, by what is left
    have hk' : treeOf v h.dev (reachedObjects v h.dev objs) k ≠ none := hk
    obtain ⟨o, ho⟩ := Option.ne_none_iff_exists'.mp (mt treeOf_none.mpr hk')
    obtain ⟨b, l, -, hr⟩ := hM.inTree_reachable (reachedObjects_some.1 ho).1
    exact hM'.reachable_inTree hr

theorem Holds.noOrphans (hh : Holds v h s) (hw : Whole v.rootClus s) : NoOrphans v h.dev := by
  obtain ⟨objs, hM, rfl⟩ := hh
  intro c h2 hlt h0
  by_contra hno
  have hlost : c ∈ lostClusters v h.dev objs := by
    refine ⟨h2, hlt, h0, fun k b l hk hc => hno ?_⟩
    obtain ⟨b', l', ho, hr⟩ := hM.inTree_reachable (hw.nodes k (by
      show treeOf v h.dev objs k ≠ none
      rw [treeOf_some hk]
      exact Option.some_ne_none _))
    cases hk.symm.trans ho
    exact ⟨k, b, l, hr, hM.sound.chain _ _ _ hk, hc⟩
  have hempty : lostClusters v h.dev objs = ∅ := hw.lost
  rw [hempty] at hlost
  exact hlost

theorem run_whole (calls : List Call) (hh : Holds v h s) (hw : Whole v.rootClus s)
    (hp : Meets (Held.step v) (fun h c => ∀ s, Holds v h s → s.Proper c ∧ s.Careful c) h calls) :
    ∃ h' s', trace (Held.step v) h calls = some h' ∧ Holds v h' s' ∧ Whole v.rootClus s' := by
  induction calls generalizing h s with
  | nil => exact ⟨h, s, rfl, hh, hw⟩
  | cons c calls ih =>
    obtain ⟨hproper, hcareful⟩ := hp.1 s hh
    obtain ⟨h1, s1, he, hh1, hs⟩ := step_proper c hh hproper
    obtain ⟨h', s', ht, hh', hw'⟩ := ih hh1 (hw.step hs hcareful) (hp.2 h1 he)
    refine ⟨h', s', ?_, hh', hw'⟩
    unfold trace
    rw [he, Option.bind_some, ht]

/-- A volume without orphans has none after every run of proper calls that create nodes with two clusters free, or
    none, and remove no directory with entries. -/
theorem orphans_run (hh : Holds v h s) (hn : NoOrphans v h.dev) (calls : List Call)
    (hp : Meets (Held.step v) (fun h c => ∀ s, Holds v h s → s.Proper c ∧ s.Careful c) h calls) :
    ∃ h', trace (Held.step v) h calls = some h' ∧ NoOrphans v h'.dev := by
  obtain ⟨s0, hh0, hw⟩ := hh.whole hn
  obtain ⟨h', s', ht, hh', hw'⟩ := run_whole calls hh0 hw hp
  exact ⟨h', ht, hh'.noOrphans hw'⟩

theorem emptyRoot_noOrphans : NoOrphans twoCopies emptyRoot := by
  intro c h2 hlt h0
  have hall : ∀ c < 128, 2 ≤ c → twoCopies.readFatEntry emptyRoot c ≠ 0 → c = 2 := by decide
  obtain rfl := hall c hlt h2 h0
  exact ⟨2, true, [2], .root, emptyRoot_chain, List.mem_singleton_self 2⟩

theorem createFile_careful : Meets (Held.step twoCopies) (fun h c => ∀ s, Holds twoCopies h s → s.Proper c ∧ s.Careful c) ⟨emptyRoot, []⟩
    createFile := by
  refine ⟨fun s _ => ⟨trivial, trivial⟩, fun h1 he => ⟨fun s hh => ⟨(createFile_decent.2 h1 he).1 s hh, ?_⟩, fun _ _ => trivial⟩⟩
  obtain ⟨size, rfl⟩ := step_emptyRoot he
  exact (emptyRoot_dir hh).2.2

/-- Two of the free clusters are taken at most. -/
theorem orphans_run_createFile : ∃ h', trace (Held.step twoCopies) ⟨emptyRoot, []⟩ createFile = some h' ∧ NoOrphans twoCopies h'.dev :=
  orphans_run emptyRoot_holds emptyRoot_noOrphans createFile createFile_careful

end Myos.Fat
