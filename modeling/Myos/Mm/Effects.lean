/-
  Myos.Mm.Effects — what one event does to the page tables and the pages of the processes.

  `Procs.enter` is `Procs.step` with every fault of the user half: a read of a mapped
  page, or a fetch from it (no page of `page_fault_handler` may be executed at EL0),
  reaches the handler as well. The handler does not look at the old entry then: it puts a
  cleared page over it and the page before keeps the reference nobody has any more.
  `ex` counts these references.

  Proved: an event has one of the effects of `Effect`, each with all that changes, and
  leaves the references of `Event.waste` behind; in every state of every run the count of
  a user frame is the number of its leaf entries and of the references left behind.
-/

import Myos.Mm.Sharing

namespace Myos.Mm

open Pmm Lib.Walk Lib.Dyadic

/-- One entry into the kernel on behalf of a process, or a store of it. -/
def Procs.enter (s : Procs) : Event → Procs
  | .fault busy mm esr far =>
    if s.machine.ttbr0 ∈ s.pgds ∧ isUserAddr far = true then
      (abortHandler s.machine busy mm esr far).elim s fun r => { s with machine := r.1 }
    else s
  | e => s.step e

def Procs.runs (s : Procs) (events : List Event) : Procs := events.foldl Procs.enter s

/-- The loop of `do_munmap` and `do_brk` comes to the page of `va`. -/
def Swept (lo hi va : Nat) : Prop := ∃ k, lo + k * pageSize < hi ∧ (lo + k * pageSize) / pageSize = va / pageSize

/-- The pages of the running process that lie in `S` are unmapped. -/
structure Vacated (U : Finset Nat) (K : Set (Nat × Nat)) (ex : Nat → Nat) (m m' : Machine) (S : Nat → Prop) : Prop where
  world : World m' U K ex
  confined : Confined U m m' m.ttbr0
  entry : ∀ q : List Idx, q.length = 3 → ∀ i,
    entryAt m'.mem m.ttbr0 q i = entryAt m.mem m.ttbr0 q i ∨ entryAt m'.mem m.ttbr0 q i = 0
  on : ∀ va, isUserAddr va = true → S va → ptePresent (m'.translate va) = false
  off : ∀ va, isUserAddr va = true → ¬ S va → m'.translate va = m.translate va
  page : ∀ p, 0 < refs m'.mem U ex p → SamePage m m' p

/-- The addresses a call sweeps, of an event that is one. -/
def Event.sweep : Event → Option (Nat × Nat)
  | .munmap mm addr len => if len = 0 then none else (munmapStop mm addr len).map (addr, ·)
  | .brk mm newBrk => some (pageUp newBrk, mm.brk)
  | _ => none

/-- A fault of the user half that the handler takes care of. -/
def Procs.Handles (s : Procs) (busy : List VmapArea) (mm : Option MmStruct) (esr far : Nat) : Prop :=
  s.machine.ttbr0 ∈ s.pgds ∧ isUserAddr far = true ∧
    (abortHandler s.machine busy mm esr far).map Prod.snd = some .handled

instance (s : Procs) (busy : List VmapArea) (mm : Option MmStruct) (esr far : Nat) : Decidable (s.Handles busy mm esr far) :=
  inferInstanceAs (Decidable (_ ∧ _ ∧ _))

/-- The events that may do nothing: switching to a live process and freeing its tree never
    fail, and a fault that is handled changes an entry. -/
def Event.Refusable (s : Procs) : Event → Prop
  | .switch pgd => pgd ∉ s.pgds
  | .exit pgd => pgd ∉ s.pgds
  | .fault busy mm esr far => ¬ s.Handles busy mm esr far
  | _ => True

/-- The references to page frame `p` an event leaves behind: the handler puts a new page over
    one that is mapped, for an access that is no write. -/
def Event.waste (s : Procs) : Event → Nat → Nat
  | .fault busy mm esr far, p =>
    if s.Handles busy mm esr far ∧ isWrite esr = false then leadsTo (s.machine.translate far) p else 0
  | _, _ => 0

/-- The references to page frame `p` a run leaves behind. -/
def Procs.lost (s : Procs) : List Event → Nat → Nat
  | [], _ => 0
  | e :: events, p => e.waste s p + (s.enter e).lost events p

/-- What an event does. A page table, once a process has it, is the same one until `exit`. -/
inductive Effect (K : Set (Nat × Nat)) (ex : Nat → Nat) (s : Procs) : Event → Procs → (Nat → Nat) → Prop where
  | quiet {e : Event} {m' : Machine} (refused : e.Refusable s) (world : World m' s.pgds K ex)
      (quiet : Quiet (roots s.machine s.pgds) (refs s.machine.mem s.pgds ex) s.machine m') : Effect K ex s e ⟨m', s.pgds⟩ ex
  | switched {pgd : Nat} (live : pgd ∈ s.pgds) (world : World { s.machine with ttbr0 := pgd } s.pgds K ex) :
      Effect K ex s (.switch pgd) { s with machine := { s.machine with ttbr0 := pgd } } ex
  | born {C : Nat} {m' : Machine} (fresh : C ∉ roots s.machine s.pgds) (world : World m' (insert C s.pgds) K ex)
      (quiet : Quiet (roots s.machine s.pgds) (refs s.machine.mem s.pgds ex) s.machine m')
      (empty : ∀ q : List Idx, q.length = 3 → ∀ i, entryAt m'.mem C q i = 0) :
      Effect K ex s .create ⟨m', insert C s.pgds⟩ ex
  | forked {P C : Nat} {m' : Machine} (live : P ∈ s.pgds) (fresh : C ∉ roots s.machine s.pgds)
      (world : World m' (insert C s.pgds) K ex) (ttbr0 : m'.ttbr0 = s.machine.ttbr0) (ttbr1 : m'.ttbr1 = s.machine.ttbr1)
      (entry : ∀ r ∈ roots s.machine s.pgds, ∀ q : List Idx, q.length = 3 → ∀ i,
        entryAt m'.mem r q i = entryAt s.machine.mem r q i)
      (child : ∀ q : List Idx, q.length = 3 → ∀ i, entryAt m'.mem C q i = 0 ∨
        ptePresent (entryAt s.machine.mem P q i) = true ∧ entryAt m'.mem C q i = cowPte (entryAt s.machine.mem P q i))
      (page : ∀ p, 0 < refs s.machine.mem s.pgds ex p → SamePage s.machine m' p) :
      Effect K ex s (.fork P) ⟨m', insert C s.pgds⟩ ex
  | died {r : Nat} {m' : Machine} (live : r ∈ s.pgds) (world : World m' (s.pgds.erase r) K ex)
      (mem : m'.mem = s.machine.mem) (ttbr0 : m'.ttbr0 = s.machine.ttbr0) :
      Effect K ex s (.exit r) ⟨m', s.pgds.erase r⟩ ex
  | zeroed {busy : List VmapArea} {mm : Option MmStruct} {esr far pr p : Nat} {m' : Machine} {ex' : Nat → Nat}
      (live : s.machine.ttbr0 ∈ s.pgds) (user : isUserAddr far = true)
      (asked : ptePresent (s.machine.translate far) = false ∨ isWrite esr = false) (prot : pr = pageUserRx ∨ pr = pageUserRw)
      (handles : s.Handles busy mm esr far) (world : World m' s.pgds K ex')
      (left : ∀ q, ex' q = ex q + leadsTo (s.machine.translate far) q)
      (installed : Installed (roots s.machine s.pgds) K (refs s.machine.mem s.pgds ex)
        (Function.update (refs s.machine.mem s.pgds ex) p 1) s.machine m' (pageBase far) pr p fun _ => 0) :
      Effect K ex s (.fault busy mm esr far) ⟨m', s.pgds⟩ ex'
  | copied {busy : List VmapArea} {mm : Option MmStruct} {esr far po p : Nat} {m' : Machine}
      (live : s.machine.ttbr0 ∈ s.pgds) (user : isUserAddr far = true)
      (present : ptePresent (s.machine.translate far) = true) (old : pteToPhys (s.machine.translate far) = pfnToPa po)
      (write : isWrite esr = true) (world : World m' s.pgds K ex)
      (installed : Installed (roots s.machine s.pgds) K (refs s.machine.mem s.pgds ex)
        (Function.update (Function.update (refs s.machine.mem s.pgds ex) p 1) po (refs s.machine.mem s.pgds ex po - 1))
        s.machine m' (pageBase far) pageUserRw p fun x => s.machine.mem (pfnToPa po + x)) :
      Effect K ex s (.fault busy mm esr far) ⟨m', s.pgds⟩ ex
  | dropped {e : Event} {lo hi : Nat} {m' : Machine} (live : s.machine.ttbr0 ∈ s.pgds) (sweep : e.sweep = some (lo, hi))
      (dropped : Vacated s.pgds K ex s.machine m' (Swept lo hi)) : Effect K ex s e ⟨m', s.pgds⟩ ex
  | stored {va : Nat} {b : UInt8} (live : s.machine.ttbr0 ∈ s.pgds) (user : isUserAddr va = true)
      (writable : pteWritable (s.machine.translate va) = true) (world : World (userStore s.machine va b) s.pgds K ex) :
      Effect K ex s (.store va b) ⟨userStore s.machine va b, s.pgds⟩ ex

section

variable {m m' m'' : Machine} {U : Finset Nat} {K : Set (Nat × Nat)} {ex ex' : Nat → Nat} {s s' : Procs} {e : Event} {r va : Nat}
  {S S' : Nat → Prop}

theorem Effect.world (h : Effect K ex s e s' ex') : World s'.machine s'.pgds K ex' := by
  cases h with
  | quiet _ world _ => exact world
  | switched _ world => exact world
  | born _ world _ _ => exact world
  | forked _ _ world _ _ _ _ _ => exact world
  | died _ world _ _ => exact world
  | zeroed _ _ _ _ _ world _ _ => exact world
  | copied _ _ _ _ _ world _ => exact world
  | dropped _ _ h => exact h.world
  | stored _ _ _ world => exact world

/-! ## User addresses -/

/-- The entry of a user address, in the tree of the running process. -/
theorem translate_user (h : isUserAddr va = true) : m.translate va = entryAt m.mem m.ttbr0 (dirs va) (l3Index va) := by
  rw [Machine.translate, l0Table_user h]

/-! ## Sweeps -/

theorem Vacated.none (hw : World m U K ex) (hS : ∀ va, ¬ S va) : Vacated U K ex m m S where
  world := hw
  confined := Confined.rfl'
  entry _ _ _ := Or.inl rfl
  on va _ h := absurd h (hS va)
  off _ _ _ := rfl
  page p _ := SamePage.rfl' m p

theorem Vacated.iff (h : Vacated U K ex m m' S) (hS : ∀ va, S' va ↔ S va) : Vacated U K ex m m' S' := by
  have : S' = S := funext fun va => propext (hS va)
  rw [this]
  exact h

/-- One turn of the loop. -/
theorem World.dropPage (hw : World m U K ex) (hr : m.ttbr0 ∈ U) {cur : Nat} (hu : isUserAddr cur = true) :
    Vacated U K ex m (Mm.releasePage m cur) (fun va => cur / pageSize = va / pageSize) := by
  rcases hw.releasePage hr hu with ⟨hn, e⟩ | ⟨p, -, -, hw', hW⟩
  · -- nothing was mapped there
    rw [e]
    refine ⟨hw, Confined.rfl', fun _ _ _ => Or.inl rfl, fun va hva h => ?_, fun _ _ _ => rfl, fun p _ => SamePage.rfl' m p⟩
    obtain ⟨h1, h2⟩ := (user_path_iff hva hu).mpr h
    rw [translate_user hu] at hn
    rw [translate_user hva, ← h1, ← h2]
    exact hn
  · refine ⟨hw', hW.confined, fun q hq i => ?_, fun va hva h => ?_, fun va hva h => ?_, hW.page⟩
    · rw [hW.entry _ (mem_roots hr) q hq i]
      split
      · exact Or.inr rfl
      · exact Or.inl rfl
    · rw [translate_user hva, hW.ttbr0, hW.entry _ (mem_roots hr) _ rfl, if_pos]
      · exact ptePresent_zero
      · obtain ⟨h1, h2⟩ := (user_path_iff hu hva).mpr h.symm
        exact ⟨rfl, h1, h2⟩
    · rw [translate_user hva, translate_user hva, hW.ttbr0, hW.entry _ (mem_roots hr) _ rfl, if_neg]
      rintro ⟨-, h1, h2⟩
      exact h ((user_path_iff hu hva).mp ⟨h1, h2⟩).symm

theorem Vacated.trans (h1 : Vacated U K ex m m' S) (h2 : Vacated U K ex m' m'' S') :
    Vacated U K ex m m'' (fun va => S va ∨ S' va) := by
  have ht := h1.confined.ttbr0
  have hC := h2.confined
  have he := h2.entry
  rw [ht] at hC he
  have hmore : ∀ p, 0 < refs m''.mem U ex p → 0 < refs m'.mem U ex p := by
    intro p hp
    rcases Nat.eq_zero_or_pos (ex p) with h0 | h0
    · obtain ⟨r, hr', path, hpath, hf⟩ := leafCount_pos.mp (show 0 < leafCount (child m''.mem) U 4 (pfnToPa p) by
        unfold refs at hp
        omega)
      obtain ⟨q, i, rfl, hq⟩ := path_split hpath
      refine h1.world.refs_pos (leafCount_pos.mpr ⟨r, hr', q ++ [i], hpath, ?_⟩)
      by_cases e : r = m.ttbr0
      · rw [e] at hf ⊢
        rcases he q hq i with h | h
        · rw [← walk_eq_of_entry h]
          exact hf
        · rw [walk_entry, h, if_neg (by rw [ptePresent_zero]; decide)] at hf
          cases hf
      · rw [← walk_eq_of_entry (hC.entry r (mem_roots hr') e q hq i)]
        exact hf
    · unfold refs
      omega
  refine ⟨h2.world, h1.confined.trans hC, fun q hq i => ?_, fun va hva h => ?_, fun va hva h => ?_, fun p hp => ?_⟩
  · rcases he q hq i with e | e
    · rw [e]
      exact h1.entry q hq i
    · exact Or.inr e
  · by_cases h' : S' va
    · exact h2.on va hva h'
    · rw [h2.off va hva h']
      exact h1.on va hva (h.resolve_right h')
  · rw [h2.off va hva fun h' => h (Or.inr h'), h1.off va hva fun h' => h (Or.inl h')]
  · exact (h1.page p (hmore p hp)).trans (h2.page p hp)

/-- The page loop of `do_munmap` and `do_brk`. -/
theorem World.dropUpTo (n : Nat) : ∀ {m : Machine} {cur stop : Nat}, World m U K ex → m.ttbr0 ∈ U → stop ≤ 2 ^ 47 →
    Vacated U K ex m (Mm.releaseUpTo m cur stop n)
      (fun va => ∃ k < n, cur + k * pageSize < stop ∧ (cur + k * pageSize) / pageSize = va / pageSize) := by
  induction n with
  | zero =>
    intro m cur stop hw _ _
    refine Vacated.none hw fun va h => ?_
    obtain ⟨k, hk, -⟩ := h
    cases hk
  | succ n ih =>
    intro m cur stop hw hr hs
    unfold Mm.releaseUpTo
    by_cases hc : cur < stop
    · rw [if_pos hc]
      have h1 := hw.dropPage hr ((isUserAddr_iff cur).mpr (by omega))
      have h2 := @ih _ (cur + pageSize) stop h1.world (by rw [h1.confined.ttbr0]; exact hr) hs
      refine (h1.trans h2).iff fun va => ?_
      -- the first turn, and the later ones
      constructor
      · intro h
        obtain ⟨k, hk, hlt, he⟩ := h
        cases k with
        | zero =>
          rw [Nat.zero_mul, Nat.add_zero] at he
          exact Or.inl he
        | succ k =>
          have e : cur + (k + 1) * pageSize = cur + pageSize + k * pageSize := by rw [Nat.succ_mul]; omega
          rw [e] at hlt he
          exact Or.inr ⟨k, Nat.lt_of_succ_lt_succ hk, hlt, he⟩
      · intro h
        rcases h with he | ⟨k, hk, hlt, he⟩
        · exact ⟨0, Nat.succ_pos n, by rw [Nat.zero_mul]; exact hc, by rw [Nat.zero_mul]; exact he⟩
        · have e : cur + (k + 1) * pageSize = cur + pageSize + k * pageSize := by rw [Nat.succ_mul]; omega
          exact ⟨k + 1, Nat.succ_lt_succ hk, by rw [e]; exact hlt, by rw [e]; exact he⟩
    · rw [if_neg hc]
      refine Vacated.none hw fun va h => ?_
      obtain ⟨k, -, hlt, -⟩ := h
      omega

/-- With enough turns the loop sweeps the whole range. -/
theorem World.sweep (hw : World m U K ex) (hr : m.ttbr0 ∈ U) {lo hi n : Nat} (hs : hi ≤ 2 ^ 47) (hn : hi ≤ lo + n * pageSize) :
    Vacated U K ex m (Mm.releaseUpTo m lo hi n) (Swept lo hi) := by
  refine (hw.dropUpTo n hr hs).iff fun va => ⟨fun h => ?_, fun h => ?_⟩
  · obtain ⟨k, hlt, he⟩ := h
    refine ⟨k, ?_, hlt, he⟩
    unfold pageSize at *
    omega
  · obtain ⟨k, -, hlt, he⟩ := h
    exact ⟨k, hlt, he⟩

/-! ## The calls -/

/-- `do_munmap` sweeps its range or does nothing. -/
theorem doMunmap_sweep {mm : MmStruct} {addr len : Nat} {x : Machine × MmStruct × Int}
    (h : doMunmap m mm addr len = some x) : x.1 = m ∨
      ∃ stop n, (Event.munmap mm addr len).sweep = some (addr, stop) ∧ munmapStop mm addr len = some stop ∧
        x.1 = Mm.releaseUpTo m addr stop n ∧ stop ≤ addr + n * pageSize := by
  unfold Mm.doMunmap at h
  by_cases hl : len = 0
  · rw [if_pos hl] at h
    cases h
    exact Or.inl rfl
  rw [if_neg hl, Option.bind_eq_some_iff] at h
  obtain ⟨len', hlen, h⟩ := h
  cases hv : mm.vmaFind addr with
  | none =>
    rw [hv] at h
    cases h
    exact Or.inl rfl
  | some vma =>
    rw [hv] at h
    obtain ⟨stop, hstop, rfl⟩ := Option.map_eq_some_iff.mp h
    have hm : munmapStop mm addr len = some (min stop vma.vmEnd) := by
      rw [munmapStop, hv, hlen, Option.bind_some, Option.bind_some, hstop, Option.map_some]
    have hup := pageUp_spec len
    obtain ⟨k, hk⟩ := hup.2.2
    refine Or.inr ⟨min stop vma.vmEnd, len' / pageSize, ?_, hm, rfl, ?_⟩
    · rw [Event.sweep, if_neg hl, hm, Option.map_some]
    · rw [(checkedAdd_eq.mp hstop).2, alignUp_pageUp hlen, hk]
      unfold pageSize
      omega

/-- `do_brk` sweeps what lies between the breaks or does nothing. -/
theorem doBrk_sweep {mm : MmStruct} {newBrk : Nat} {x : Machine × MmStruct × Nat} (h : doBrk m mm newBrk = some x) :
    x.1 = m ∨ ∃ n, x.1 = Mm.releaseUpTo m (pageUp newBrk) mm.brk n ∧ mm.brk ≤ pageUp newBrk + n * pageSize := by
  unfold Mm.doBrk at h
  obtain ⟨brk', hb, h⟩ := Option.bind_eq_some_iff.mp h
  by_cases h1 : brk' = mm.brk
  · rw [if_pos h1] at h
    cases h
    exact Or.inl rfl
  rw [if_neg h1] at h
  by_cases h2 : mm.brk < brk'
  · rw [if_pos h2] at h
    split at h <;> (cases h; exact Or.inl rfl)
  · rw [if_neg h2] at h
    obtain ⟨_, -, rfl⟩ := Option.map_eq_some_iff.mp h
    rw [alignUp_pageUp hb]
    refine Or.inr ⟨_, rfl, ?_⟩
    unfold pageSize
    omega

/-! ## Faults -/

theorem faultProt_ok {prot : Nat} (h : prot = pageUserRx ∨ prot = pageUserRw) : ProtOk prot := by
  rcases h with rfl | rfl
  · exact pageUserRx_ok
  · exact pageUserRw_ok

/-- What the handler makes of a fault, when its area is known. -/
theorem vmaFault_cases (h0 : m.l0Table va ≠ 0) (hz : ptePresent (m.translate va) = true → pteToPhys (m.translate va) ≠ 0)
    (vmFlags esr : Nat) :
    vmaFault m vmFlags va esr = (m, .writeDenied) ∨
    (ptePresent (m.translate va) = true ∧ isWrite esr = true ∧
      vmaFault m vmFlags va esr = Mm.cowPage m (pageBase va) (pteToPhys (m.translate va))) ∨
    (ptePresent (m.translate va) = false ∨ isWrite esr = false) ∧
      ∃ prot, (prot = pageUserRx ∨ prot = pageUserRw) ∧ vmaFault m vmFlags va esr = Mm.demandPage m (pageBase va) prot := by
  unfold vmaFault
  rw [getPhysFromVa_eq m h0]
  have hprot : ∃ prot, (prot = pageUserRx ∨ prot = pageUserRw) ∧
      Mm.demandPage m (pageBase va) (if vmFlags &&& vmExec ≠ 0 then pageUserRx else pageUserRw) =
        Mm.demandPage m (pageBase va) prot := ⟨_, by split <;> simp, rfl⟩
  cases hp : ptePresent (m.translate va) with
  | false =>
    rw [if_neg Bool.false_ne_true]
    dsimp only
    rw [if_neg fun h => h.1 rfl]
    split
    · exact Or.inl rfl
    · exact Or.inr (Or.inr ⟨Or.inl rfl, hprot⟩)
  | true =>
    rw [if_pos rfl]
    dsimp only
    cases hw : isWrite esr with
    | false =>
      rw [if_neg (fun h => Bool.false_ne_true h.2), if_neg (fun h => Bool.false_ne_true h.1)]
      exact Or.inr (Or.inr ⟨Or.inr rfl, hprot⟩)
    | true =>
      rw [if_pos ⟨hz hp, rfl⟩]
      split
      · exact Or.inl rfl
      · exact Or.inr (Or.inl ⟨rfl, rfl, rfl⟩)

/-- A fault of the running process, by what `abort_handler` returns. -/
theorem abortHandler_effect (hw : World s.machine s.pgds K ex) (hr : s.machine.ttbr0 ∈ s.pgds) {busy : List VmapArea}
    {mm : Option MmStruct} {esr far : Nat} (hu : isUserAddr far = true) :
    ∃ ex', Effect K ex s (.fault busy mm esr far)
      ((abortHandler s.machine busy mm esr far).elim s fun r => { s with machine := r.1 }) ex' := by
  have hub : isUserAddr (pageBase far) = true := by rw [isUserAddr_pageBase]; exact hu
  have hl := l0Table_user (m := s.machine) hu
  have hframe : ptePresent (s.machine.translate far) = true → ∃ po, pteToPhys (s.machine.translate far) = pfnToPa po := by
    intro hp
    rw [translate_user hu] at hp ⊢
    obtain ⟨po, hpo, -⟩ := hw.leaf_frame hr (q := dirs far) rfl hp
    exact ⟨po, hpo⟩
  have hz : ptePresent (s.machine.translate far) = true → pteToPhys (s.machine.translate far) ≠ 0 := by
    intro hp
    obtain ⟨po, hpo⟩ := hframe hp
    rw [hpo]
    exact pfnToPa_ne_zero po
  -- the outcome tells whether an entry changed
  have hout : ∀ x, abortHandler s.machine busy mm esr far = some x → x.2 ≠ .handled →
      (Event.fault busy mm esr far).Refusable s := by
    intro x hx hne h
    have h2 := h.2.2
    rw [hx, Option.map_some, Option.some.injEq] at h2
    exact hne h2
  have hsame : ∀ o, abortHandler s.machine busy mm esr far = some (s.machine, o) → o ≠ .handled →
      ∃ ex', Effect K ex s (.fault busy mm esr far) ⟨s.machine, s.pgds⟩ ex' := fun o ho hne =>
    ⟨ex, .quiet (hout _ ho hne) hw (Quiet.rfl' _)⟩
  by_cases hd : 0x04 ≤ esr &&& 0x3F ∧ esr &&& 0x3F ≤ 0x0F
  swap
  · have hn : abortHandler s.machine busy mm esr far = none := if_neg hd
    rw [hn]
    refine ⟨ex, .quiet (fun h => ?_) hw (Quiet.rfl' _)⟩
    have h2 := h.2.2
    rw [hn] at h2
    cases h2
  have hab : abortHandler s.machine busy mm esr far = some (pageFaultHandler s.machine busy mm far esr) := if_pos hd
  rcases @pageFaultHandler_user s.machine _ busy mm esr hu with e | e | ⟨vmFlags, e⟩
  · rw [e] at hab
    rw [hab]
    exact hsame _ hab nofun
  · rw [e] at hab
    rw [hab]
    exact hsame _ hab nofun
  rcases vmaFault_cases (by rw [hl]; exact hw.root_ne_zero hr) hz vmFlags esr with e' | ⟨hp, hwr, e'⟩ | ⟨hf, prot, hp, e'⟩ <;>
    rw [e, e'] at hab
  · rw [hab]
    exact hsame _ hab nofun
  · obtain ⟨po, hpo⟩ := hframe hp
    rw [hpo] at hab
    rw [hab, Option.elim_some]
    rcases hw.cowPage hr hub (by rw [translate_pageBase]; exact hp) (by rw [translate_pageBase]; exact hpo) with
      ⟨he, hw', hQ⟩ | ⟨p, -, hw', hI⟩
    · exact ⟨ex, .quiet (hout _ hab (by rw [he]; nofun)) hw' hQ⟩
    · exact ⟨ex, .copied hr hu hp hpo hwr hw' hI⟩
  · rw [hab, Option.elim_some]
    rcases hw.demandPage hr hub (faultProt_ok hp) with ⟨he, hw', hQ⟩ | ⟨p, he, hw', hI⟩
    · exact ⟨ex, .quiet (hout _ hab he) hw' hQ⟩
    · rw [translate_pageBase] at hw'
      exact ⟨_, .zeroed hr hu hf hp ⟨hr, hu, by rw [hab, Option.map_some, he]⟩ hw' (fun q => rfl) hI⟩

/-! ## Every event -/

theorem leadsTo_le_one (v p : Nat) : leadsTo v p ≤ 1 := by
  unfold leadsTo
  split
  · exact le_refl 1
  · exact Nat.zero_le 1

/-- The references an event leaves behind. -/
theorem Effect.left (h : Effect K ex s e s' ex') (p : Nat) : ex' p = ex p + e.waste s p := by
  cases h with
  | @quiet e m' refused _ _ =>
    cases e with
    | fault busy mm esr far =>
      rw [Event.waste, if_neg fun h => refused h.1]
      rfl
    | _ => rfl
  | @zeroed busy mm esr far pr p' m' ex' _ _ asked _ handles _ left _ =>
    rw [left p, Event.waste]
    by_cases hw : isWrite esr = false
    · rw [if_pos ⟨handles, hw⟩]
    · rw [if_neg fun h => hw h.2, leadsTo_absent (asked.resolve_right hw)]
  | copied _ _ _ _ write _ _ =>
    rw [Event.waste, if_neg fun h => by rw [write] at h; cases h.2]
    rfl
  | @dropped e lo hi m' _ sweep _ =>
    cases e with
    | fault busy mm esr far => cases sweep
    | _ => rfl
  | _ => rfl

theorem waste_le_one (s : Procs) (e : Event) (p : Nat) : e.waste s p ≤ 1 := by
  unfold Event.waste
  split
  · split
    · exact leadsTo_le_one _ p
    · exact Nat.zero_le 1
  · exact Nat.zero_le 1

/-- What an event can do. -/
theorem Procs.enter_effect (hw : World s.machine s.pgds K ex) (hx : ∀ p, ex p < 2 ^ 63) (e : Event) :
    ∃ ex', Effect K ex s e (s.enter e) ex' := by
  have hsame : ∀ e, e.Refusable s → Effect K ex s e s ex := fun e he => .quiet he hw (Quiet.rfl' _)
  cases e with
  | create =>
    refine ⟨ex, ?_⟩
    simp only [Procs.enter, Procs.step]
    rcases hw.newPgd with ⟨e, h, hQ⟩ | ⟨p, e, hn, h, hQ, -, hz⟩ <;> rw [e]
    · exact .quiet trivial h hQ
    · refine .born hn h hQ fun q hq i => entryAt_none (walk_childless (fun j => child_none_of_zero (hz j)) ?_) i
      rintro rfl
      cases hq
  | switch pgd =>
    refine ⟨ex, ?_⟩
    simp only [Procs.enter, Procs.step]
    split
    case isFalse h => exact hsame _ h
    case isTrue h =>
      exact .switched h ⟨⟨hw.owned.sound, hw.owned.forest, hw.owned.table, hw.owned.owner, hw.owned.block, hw.owned.frame⟩,
        hw.kernel, hw.managed, hw.leaf⟩
  | fault busy mm esr far =>
    simp only [Procs.enter]
    split
    case isFalse h => exact ⟨ex, hsame _ fun hh => h ⟨hh.1, hh.2.1⟩⟩
    case isTrue h => exact abortHandler_effect hw h.1 h.2
  | munmap mm addr len =>
    refine ⟨ex, ?_⟩
    simp only [Procs.enter, Procs.step]
    split
    case isFalse => exact hsame _ trivial
    case isTrue h =>
      cases hm : doMunmap s.machine mm addr len with
      | none => exact hsame _ trivial
      | some x =>
        rw [Option.elim_some]
        rcases doMunmap_sweep hm with e | ⟨stop, n, hsw, hst, e, hn⟩ <;> rw [e]
        · exact hsame _ trivial
        · have h2 := h.2
          rw [hst] at h2
          exact .dropped h.1 hsw (hw.sweep h.1 (of_decide_eq_true h2) hn)
  | brk mm newBrk =>
    refine ⟨ex, ?_⟩
    simp only [Procs.enter, Procs.step]
    split
    case isFalse => exact hsame _ trivial
    case isTrue h =>
      cases hm : doBrk s.machine mm newBrk with
      | none => exact hsame _ trivial
      | some x =>
        rw [Option.elim_some]
        rcases doBrk_sweep hm with e | ⟨n, e, hn⟩ <;> rw [e]
        · exact hsame _ trivial
        · exact .dropped h.1 rfl (hw.sweep h.1 h.2 hn)
  | store va b =>
    refine ⟨ex, ?_⟩
    simp only [Procs.enter, Procs.step]
    split
    case isFalse => exact hsame _ trivial
    case isTrue h =>
      obtain ⟨hr, hu, hp⟩ := h
      have hpres := hp
      simp only [pteWritable, Bool.and_eq_true] at hpres
      have hl := l0Table_user (m := s.machine) hu
      obtain ⟨p, e, hpos⟩ := hw.leaf_frame hr (q := dirs va) rfl (by rw [← translate_user hu]; exact hpres.1.1)
      rw [← translate_user hu] at e
      have := Nat.mod_lt va (show 0 < pageSize by decide)
      exact .stored hr hu hp (hw.store hpos (by unfold physAddr; omega) (by unfold physAddr; omega) b).1
  | fork parent =>
    refine ⟨ex, ?_⟩
    simp only [Procs.enter, Procs.step]
    split
    case isFalse => exact hsame _ trivial
    case isTrue hP =>
      rcases hw.newPgd with ⟨e, h, hQ⟩ | ⟨p, e, hn, h, hQ, -, hz⟩ <;> rw [e]
      · exact .quiet trivial h hQ
      · rw [Option.elim_some]
        have hne : ∀ r ∈ roots s.machine s.pgds, r ≠ pfnToPa p := by
          rintro r hr rfl
          exact hn hr
        have hC := copyUserPageTable_spec h hx (Finset.mem_insert_of_mem hP) (Finset.mem_insert_self _ _)
          (hne _ (mem_roots hP)) hz
        generalize createUserPgd s.machine = r1 at *
        generalize copyUserPageTable r1.1 parent (pfnToPa p) = m2 at *
        have hroots : ∀ r ∈ roots s.machine s.pgds, r ∈ roots r1.1 (insert (pfnToPa p) s.pgds) := by
          intro r hr
          rw [roots_insert hQ.ttbr1]
          exact Set.mem_insert_of_mem _ hr
        have hpos : ∀ x, 0 < refs s.machine.mem s.pgds ex x → 0 < refs r1.1.mem (insert (pfnToPa p) s.pgds) ex x := by
          intro x hx
          have h1 := leafCount_entries (m := s.machine) (U := s.pgds) (fun r hr => hQ.entry r (mem_roots hr)) (pfnToPa x)
          have h2 : leafCount (child r1.1.mem) (insert (pfnToPa p) s.pgds) 4 (pfnToPa x) = _ :=
            leafCount_insert (fun h => hn (mem_roots h)) (pfnToPa x)
          unfold refs at hx ⊢
          omega
        refine .forked hP hn hC.world (hC.ttbr0.trans hQ.ttbr0) (hC.ttbr1.trans hQ.ttbr1) (fun r hr q hq i => ?_)
          (fun q hq i => ?_) fun x hx => (hQ.page x hx).trans (hC.page x (hpos x hx))
        · rw [hC.entry r (hroots r hr) q hq i fun e => absurd e (hne r hr)]
          exact hQ.entry r hr q hq i
        · rw [← hQ.entry _ (mem_roots hP) q hq i]
          exact hC.copied q hq i (below_all i)
  | exit pgd =>
    refine ⟨ex, ?_⟩
    simp only [Procs.enter, Procs.step]
    split
    case isFalse h => exact hsame _ h
    case isTrue hr =>
      obtain ⟨h, hm, h0, -⟩ := freePageTableTree_spec hw hr
      exact .died hr h hm h0

/-! ## Runs -/

theorem World.lost (events : List Event) : ∀ {s : Procs} {ex : Nat → Nat}, World s.machine s.pgds K ex →
    (∀ p, ex p + events.length ≤ 2 ^ 63) →
    World (s.runs events).machine (s.runs events).pgds K fun p => ex p + s.lost events p := by
  induction events with
  | nil => intro s ex hw _; exact hw
  | cons e events ih =>
    intro s ex hw hx
    have hlt : ∀ p, ex p < 2 ^ 63 := fun p => by
      have := hx p
      rw [List.length_cons] at this
      omega
    obtain ⟨ex', he⟩ := Procs.enter_effect hw hlt e
    have h := ih he.world fun p => by
      have h1 := hx p
      have h2 := he.left p
      have h3 := waste_le_one s e p
      rw [List.length_cons] at h1
      omega
    have hex : (fun p => ex' p + (s.enter e).lost events p) = fun p => ex p + s.lost (e :: events) p := by
      funext p
      rw [he.left p, Procs.lost]
      omega
    rw [hex] at h
    exact h

end

end Myos.Mm
