/-
  Myos.Mm.Writers — which processes may write a page that several of them map.

  `s.At r q i p`: leaf entry `i` at `q` of the live process `r` leads to page frame `p`.
  After an event each such entry is an old one, leads to a frame nobody had mapped, or
  is the child's copy of an entry of its parent, which may not be written (`Origin`).

  `copy_user_page_table` leaves the entries of the parent as they are, so the parent goes
  on writing the pages it shares with its child. `s.Guarded r`: no other process may
  write a page that `r` maps.

  Proved, of every run: of all entries that lead to a frame at most one may be written,
  and no process maps a frame twice; a process that was created, not forked, is guarded
  until it exits, and so is any process from the moment it is.
-/

import Myos.Lib.Refines
import Myos.Mm.Effects

namespace Myos.Mm

open Pmm Lib.Walk Lib.Dyadic
open Lib (Allowed run_keeps)

/-- The leaf entry leads to page frame `p`. -/
def Procs.At (s : Procs) (r : Nat) (q : List Idx) (i : Idx) (p : Nat) : Prop :=
  r ∈ s.pgds ∧ q.length = 3 ∧ ptePresent (entryAt s.machine.mem r q i) = true ∧
    pteToPhys (entryAt s.machine.mem r q i) = pfnToPa p

def Procs.Writable (s : Procs) (r : Nat) (q : List Idx) (i : Idx) : Prop := pteWritable (entryAt s.machine.mem r q i) = true

/-- Where an entry of `s'` that leads to a frame comes from, when `P` is who forks. -/
inductive Origin (s s' : Procs) (P r : Nat) (q : List Idx) (i : Idx) (p : Nat) : Prop where
  | kept (was : s.At r q i p) (same : entryAt s'.machine.mem r q i = entryAt s.machine.mem r q i)
  | new (unmapped : ∀ r' q' i', ¬ s.At r' q' i' p) (only : ∀ r' q' i', s'.At r' q' i' p → r' = r ∧ q' = q ∧ i' = i)
  | inherited (child : r ∉ s.pgds) (was : s.At P q i p) (readOnly : ¬ s'.Writable r q i)
      (one : ∀ r' ∈ s'.pgds, r' ∉ s.pgds → r' = r)

/-- One writer for a frame at most, and a frame once in each tree. -/
structure Procs.Disciplined (s : Procs) : Prop where
  sole : ∀ p r q i r' q' i', s.At r q i p → s.At r' q' i' p → s.Writable r q i → s.Writable r' q' i' →
    r' = r ∧ q' = q ∧ i' = i
  once : ∀ p r q i q' i', s.At r q i p → s.At r q' i' p → q' = q ∧ i' = i

/-- No other process may write a page of `r`. -/
def Procs.Guarded (s : Procs) (r : Nat) : Prop :=
  ∀ p q i, s.At r q i p → ∀ r' q' i', r' ≠ r → s.At r' q' i' p → ¬ s.Writable r' q' i'

/-- The references left behind leave room for `n` more. -/
def Procs.Within (K : Set (Nat × Nat)) (n : Nat) (s : Procs) : Prop :=
  ∃ ex, World s.machine s.pgds K ex ∧ ∀ p, ex p + n ≤ 2 ^ 63

section

variable {m : Machine} {U : Finset Nat} {K : Set (Nat × Nat)} {ex ex' : Nat → Nat} {s s' : Procs} {e : Event} {r : Nat} {n : Nat}

/-! ## Entries -/

/-- The entry a child gets may not be written. -/
theorem cowPte_readOnly (v : Nat) : pteWritable (cowPte v) = false := by
  unfold pteWritable cowPte
  cases h : v &&& apUser != 0 && v &&& apReadOnly == 0 with
  | false =>
    rw [if_neg Bool.false_ne_true, Bool.and_assoc, h, Bool.and_false]
  | true =>
    have h0 : v &&& apReadOnly = 0 := by
      rw [Bool.and_eq_true] at h
      exact eq_of_beq h.2
    have hro : (v ||| apReadOnly) &&& apReadOnly = apReadOnly := by
      rw [Nat.and_or_distrib_right, Nat.and_self, h0, Nat.zero_or]
    rw [if_pos rfl, hro, show (apReadOnly == 0) = false by decide, Bool.and_false]

theorem at_refs (hw : World s.machine s.pgds K ex) {q : List Idx} {i : Idx} {p : Nat} (h : s.At r q i p) :
    0 < refs s.machine.mem s.pgds ex p :=
  hw.refs_pos (leavesOf_pos h.1 h.2.1 h.2.2.1 h.2.2.2)

/-- A store changes no entry. -/
theorem store_entry (hw : World m U K ex) (hr : m.ttbr0 ∈ U) {va : Nat} (hu : isUserAddr va = true)
    (hp : ptePresent (m.translate va) = true) (b : UInt8) : ∀ r ∈ roots m U, ∀ q : List Idx, q.length = 3 → ∀ i,
      entryAt (userStore m va b).mem r q i = entryAt m.mem r q i := by
  obtain ⟨p, e, hpos⟩ := hw.leaf_frame hr (q := dirs va) rfl (by rw [← translate_user hu]; exact hp)
  rw [← translate_user hu] at e
  have hlt := Nat.mod_lt va (show 0 < pageSize by decide)
  have hmem : ∀ y, y < pfnToPa p ∨ pfnToPa p + pageSize ≤ y → (userStore m va b).mem y = m.mem y := by
    intro y hy
    refine Function.update_of_ne ?_ _ _
    unfold physAddr
    omega
  exact (hw.fill (hw.refs_pos hpos) hmem).2.2

theorem writable_present {v : Nat} (h : pteWritable v = true) : ptePresent v = true := by
  simp only [pteWritable, Bool.and_eq_true] at h
  exact h.1.1

/-! ## One event -/

theorem Origin.ofKept {P : Nat} (hP : s'.pgds ⊆ s.pgds)
    (h : ∀ r ∈ s'.pgds, ∀ q : List Idx, q.length = 3 → ∀ i,
      entryAt s'.machine.mem r q i = entryAt s.machine.mem r q i ∨ ptePresent (entryAt s'.machine.mem r q i) = false) :
    ∀ r q i p, s'.At r q i p → Origin s s' P r q i p := by
  intro r q i p ha
  obtain ⟨hr, hq, hp, he⟩ := ha
  rcases h r hr q hq i with e | e
  · refine .kept ⟨hP hr, hq, ?_, ?_⟩ e
    · rw [← e]
      exact hp
    · rw [← e]
      exact he
  · rw [hp] at e
    cases e

/-- One entry is new, and its frame was free. -/
theorem Origin.ofInstalled {P va prot p : Nat} {rf' : Nat → Nat} {data : Nat → UInt8} {m' : Machine}
    (hw : World s.machine s.pgds K ex) (hprot : ProtOk prot)
    (hI : Installed (roots s.machine s.pgds) K (refs s.machine.mem s.pgds ex) rf' s.machine m' va prot p data) :
    ∀ r q i p, (⟨m', s.pgds⟩ : Procs).At r q i p → Origin s ⟨m', s.pgds⟩ P r q i p := by
  have hent := hI.wrote.entry
  have hfree : ∀ r q i, ¬ s.At r q i p := by
    intro r q i ha
    have := at_refs hw ha
    rw [hI.fresh] at this
    cases this
  -- an entry that is not the new one is an old one
  have hold : ∀ r q i x, (⟨m', s.pgds⟩ : Procs).At r q i x →
      ¬ (r = s.machine.l0Table va ∧ q = dirs va ∧ i = l3Index va) →
      entryAt m'.mem r q i = entryAt s.machine.mem r q i ∧ s.At r q i x := by
    intro r q i x ha hne
    obtain ⟨hr, hq, hp, he⟩ := ha
    have e := hent r (mem_roots hr) q hq i
    rw [if_neg hne] at e
    refine ⟨e, hr, hq, ?_, ?_⟩
    · rw [← e]
      exact hp
    · rw [← e]
      exact he
  intro r q i x ha
  by_cases hne : r = s.machine.l0Table va ∧ q = dirs va ∧ i = l3Index va
  · have e := hent r (mem_roots ha.1) q ha.2.1 i
    rw [if_pos hne] at e
    have hx : x = p := by
      have h := ha.2.2.2
      rw [e, mkPte_pteToPhys hprot (pfnToPa_pageAddr hI.lt)] at h
      exact (pfnToPa_inj h).symm
    subst hx
    refine .new hfree fun r' q' i' ha' => ?_
    by_cases hne' : r' = s.machine.l0Table va ∧ q' = dirs va ∧ i' = l3Index va
    · rw [hne.1, hne.2.1, hne.2.2]
      exact hne'
    · exact absurd (hold r' q' i' x ha' hne').2 (hfree r' q' i')
  · obtain ⟨e, ha'⟩ := hold r q i x ha hne
    exact .kept ha' e

/-- Where the entries that lead to frames come from. -/
theorem Effect.origin (hw : World s.machine s.pgds K ex) (h : Effect K ex s e s' ex') :
    ∃ P, ∀ r q i p, s'.At r q i p → Origin s s' P r q i p := by
  cases h with
  | quiet _ _ quiet => exact ⟨0, Origin.ofKept (Finset.Subset.refl _) fun r hr q hq i => Or.inl (quiet.entry r (mem_roots hr) q hq i)⟩
  | switched _ _ => exact ⟨0, Origin.ofKept (Finset.Subset.refl _) fun _ _ _ _ _ => Or.inl rfl⟩
  | @born C m' fresh _ quiet empty =>
    refine ⟨0, fun r q i p ha => ?_⟩
    obtain ⟨hr, hq, hp, he⟩ := ha
    rcases Finset.mem_insert.mp hr with rfl | hr
    · dsimp only at hp
      rw [empty q hq i, ptePresent_zero] at hp
      cases hp
    · have e := quiet.entry r (mem_roots hr) q hq i
      dsimp only at hp he
      rw [e] at hp he
      exact .kept ⟨hr, hq, hp, he⟩ e
  | @forked P C m' live fresh _ _ _ entry child _ =>
    refine ⟨P, fun r q i p ha => ?_⟩
    obtain ⟨hr, hq, hp, he⟩ := ha
    dsimp only at hp he
    rcases Finset.mem_insert.mp hr with rfl | hr
    · rcases child q hq i with e | ⟨hP, e⟩
      · rw [e, ptePresent_zero] at hp
        cases hp
      · rw [e, cowPte_pteToPhys] at he
        refine .inherited (fun h => fresh (mem_roots h)) ⟨live, hq, hP, he⟩ (fun hwr => ?_) fun r' hr' hn =>
          (Finset.mem_insert.mp hr').resolve_right hn
        unfold Procs.Writable at hwr
        dsimp only at hwr
        rw [e, cowPte_readOnly] at hwr
        cases hwr
    · have e := entry r (mem_roots hr) q hq i
      rw [e] at hp he
      exact .kept ⟨hr, hq, hp, he⟩ e
  | died _ _ mem _ =>
    exact ⟨0, Origin.ofKept (Finset.erase_subset _ _) fun r hr q hq i => Or.inl (by rw [mem])⟩
  | zeroed live user _ prot _ _ _ installed => exact ⟨0, Origin.ofInstalled hw (faultProt_ok prot) installed⟩
  | copied live user _ _ _ _ installed => exact ⟨0, Origin.ofInstalled hw pageUserRw_ok installed⟩
  | dropped live _ h =>
    refine ⟨0, Origin.ofKept (Finset.Subset.refl _) fun r hr q hq i => ?_⟩
    by_cases e : r = s.machine.ttbr0
    · rw [e]
      refine (h.entry q hq i).imp_right fun h0 => ?_
      rw [h0]
      exact ptePresent_zero
    · exact Or.inl (h.confined.entry r (mem_roots hr) e q hq i)
  | stored live user writable _ =>
    exact ⟨0, Origin.ofKept (Finset.Subset.refl _) fun r hr q hq i =>
      Or.inl (store_entry hw live user (writable_present writable) _ r (mem_roots hr) q hq i)⟩

theorem Origin.writable {P : Nat} {q : List Idx} {i : Idx} {p : Nat} (h : Origin s s' P r q i p) (hw : s'.Writable r q i) :
    (s.At r q i p ∧ s.Writable r q i) ∨
      (∀ r' q' i', ¬ s.At r' q' i' p) ∧ ∀ r' q' i', s'.At r' q' i' p → r' = r ∧ q' = q ∧ i' = i := by
  cases h with
  | kept was same =>
    refine Or.inl ⟨was, ?_⟩
    unfold Procs.Writable at hw ⊢
    rw [← same]
    exact hw
  | new unmapped only => exact Or.inr ⟨unmapped, only⟩
  | inherited _ _ readOnly _ => exact absurd hw readOnly

/-- An event gives no frame a second writer. -/
theorem Procs.Disciplined.event (hd : s.Disciplined) {P : Nat} (h : ∀ r q i p, s'.At r q i p → Origin s s' P r q i p) :
    s'.Disciplined := by
  constructor
  · intro p r q i r' q' i' ha ha' hw hw'
    rcases (h r q i p ha).writable hw with ⟨h1, h2⟩ | ⟨-, honly⟩
    · rcases (h r' q' i' p ha').writable hw' with ⟨h1', h2'⟩ | ⟨hun, -⟩
      · exact hd.sole p r q i r' q' i' h1 h1' h2 h2'
      · exact absurd h1 (hun r q i)
    · exact honly r' q' i' ha'
  · intro p r q i q' i' ha ha'
    cases h r q i p ha with
    | kept was _ =>
      cases h r q' i' p ha' with
      | kept was' _ => exact hd.once p r q i q' i' was was'
      | new unmapped _ => exact absurd was (unmapped r q i)
      | inherited child _ _ _ => exact absurd was.1 child
    | new _ only => exact (only r q' i' ha').2
    | inherited child was _ _ =>
      cases h r q' i' p ha' with
      | kept was' _ => exact absurd was'.1 child
      | new unmapped _ => exact absurd was (unmapped P q i)
      | inherited _ was' _ _ => exact hd.once p P q i q' i' was was'

/-- An event gives no other process a way to write a page of a guarded one. -/
theorem Procs.Guarded.event (hg : s.Guarded r) (hr : r ∈ s.pgds) {P : Nat}
    (h : ∀ r q i p, s'.At r q i p → Origin s s' P r q i p) : s'.Guarded r := by
  intro p q i ha r' q' i' hne ha' hw
  cases h r q i p ha with
  | kept was _ =>
    rcases (h r' q' i' p ha').writable hw with ⟨h1, h2⟩ | ⟨hun, -⟩
    · exact hg p q i was r' q' i' hne h1 h2
    · exact hun r q i was
  | new _ only => exact hne (only r' q' i' ha').1
  | inherited child _ _ _ => exact child hr

/-! ## Runs -/

theorem Procs.Within.enter (h : s.Within K (n + 1)) (e : Event) :
    ∃ ex ex', World s.machine s.pgds K ex ∧ Effect K ex s e (s.enter e) ex' ∧ (s.enter e).Within K n := by
  obtain ⟨ex, hw, hx⟩ := h
  obtain ⟨ex', he⟩ := Procs.enter_effect hw (fun p => by have := hx p; omega) e
  refine ⟨ex, ex', hw, he, ex', he.world, fun p => ?_⟩
  have h1 := hx p
  have h2 := he.left p
  have h3 := waste_le_one s e p
  omega

theorem Boot.within (hb : Boot m K) (hn : n ≤ 2 ^ 63) : Procs.Within K n ⟨m, ∅⟩ :=
  ⟨fun _ => 0, hb.world, fun _ => by rw [Nat.zero_add]; exact hn⟩

theorem Procs.Within.runs (events : List Event) (h : s.Within K (events.length + n)) : (s.runs events).Within K n := by
  refine run_keeps (fun n s => s.Within K n) (fun _ _ => True) (fun n s e hi _ => ?_) events h
    (Allowed.of_all (fun _ _ => trivial) events s)
  obtain ⟨-, -, -, -, h⟩ := hi.enter e
  exact h

theorem Procs.Within.disciplined (events : List Event) (h : s.Within K (events.length + n)) (hd : s.Disciplined) :
    (s.runs events).Disciplined := by
  refine (run_keeps (fun n s => s.Within K n ∧ s.Disciplined) (fun _ _ => True) (fun n s e hi _ => ?_) events
    ⟨h, hd⟩ (Allowed.of_all (fun _ _ => trivial) events s)).2
  obtain ⟨ex, ex', hw, he, h⟩ := hi.1.enter e
  obtain ⟨P, ho⟩ := he.origin hw
  exact ⟨h, hi.2.event ho⟩

theorem boot_disciplined (m : Machine) : Procs.Disciplined ⟨m, ∅⟩ :=
  ⟨fun _ r _ _ _ _ _ ha => absurd ha.1 (Finset.notMem_empty r), fun _ r _ _ _ _ ha => absurd ha.1 (Finset.notMem_empty r)⟩

/-- A process lives until its `exit`. -/
theorem Effect.live (h : Effect K ex s e s' ex') (hr : r ∈ s.pgds) (he : e ≠ .exit r) : r ∈ s'.pgds := by
  cases h with
  | born _ _ _ _ => exact Finset.mem_insert_of_mem hr
  | forked _ _ _ _ _ _ _ _ => exact Finset.mem_insert_of_mem hr
  | died _ _ _ _ =>
    refine Finset.mem_erase.mpr ⟨?_, hr⟩
    rintro rfl
    exact he rfl
  | quiet _ _ _ => exact hr
  | switched _ _ => exact hr
  | zeroed _ _ _ _ _ _ _ _ => exact hr
  | copied _ _ _ _ _ _ _ => exact hr
  | dropped _ _ _ => exact hr
  | stored _ _ _ _ => exact hr

/-- Once guarded, a process is guarded until it exits. -/
theorem Procs.Within.guarded (events : List Event) (h : s.Within K (events.length + n)) (hr : r ∈ s.pgds) (hg : s.Guarded r)
    (hne : ∀ e ∈ events, e ≠ .exit r) : r ∈ (s.runs events).pgds ∧ (s.runs events).Guarded r := by
  refine (run_keeps (fun n s => s.Within K n ∧ r ∈ s.pgds ∧ s.Guarded r) (fun _ e => e ≠ .exit r)
    (fun n s e hi hok => ?_) events ⟨h, hr, hg⟩ (Allowed.of_mem (fun e he _ => hne e he) s)).2
  obtain ⟨h, hr, hg⟩ := hi
  obtain ⟨ex, ex', hw, he, h⟩ := h.enter e
  obtain ⟨P, ho⟩ := he.origin hw
  exact ⟨h, he.live hr hok, hg.event hr ho⟩

/-- A process that was created maps nothing yet. -/
theorem created_guarded (hw : World s.machine s.pgds K ex) {C : Nat} (hC : (createUserPgd s.machine).2 = some C) :
    C ∈ (s.enter .create).pgds ∧ (s.enter .create).Guarded C ∧ ∀ q i p, ¬ (s.enter .create).At C q i p := by
  rcases hw.newPgd with ⟨e, -⟩ | ⟨p, e, -, -, -, -, hz⟩
  · rw [hC] at e
    cases e
  rw [hC] at e
  obtain rfl := Option.some.inj e
  have henter : s.enter .create = ⟨(createUserPgd s.machine).1, insert (pfnToPa p) s.pgds⟩ := by
    rw [Procs.enter, Procs.step, hC, Option.elim_some]
    intros
    contradiction
  rw [henter]
  have hno : ∀ q i x, ¬ (⟨(createUserPgd s.machine).1, insert (pfnToPa p) s.pgds⟩ : Procs).At (pfnToPa p) q i x := by
    intro q i x ha
    have hp := ha.2.2.1
    dsimp only at hp
    rw [entryAt_none (walk_childless (fun j => child_none_of_zero (hz j)) ?_), ptePresent_zero] at hp
    · cases hp
    · rintro rfl
      cases ha.2.1
  exact ⟨Finset.mem_insert_self _ _, fun x q i ha => absurd ha (hno q i x), hno⟩

end

end Myos.Mm
