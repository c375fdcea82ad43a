/-
  Myos.Mm.PrivateMemory — the memory a process is meant to have, and the one it has.

  `Memories` is the purpose of the page tables: each live process has bytes at user
  addresses, an event changes those of the running process only (`Acts`), and a fork
  gives the child a copy. Copying a shared page on a write is no change at all.
  `Procs.memories` reads these bytes through the page tables.

  Proved, of every run: while every store goes to a page no other process maps, the page
  tables are such memories, and a store is one of their steps exactly then, or when it
  changes no byte; the memory of a guarded process is its own whatever the others store.
-/

import Myos.Mm.Writers

namespace Myos.Mm

open Pmm Lib.Walk Lib.Dyadic
open Lib (Allowed Runs run_keeps)

/-- The bytes a process can read. -/
abbrev Memory := Nat → Option UInt8

/-- What an event may do to the memory of the process it is an event of. -/
inductive Acts : Event → Memory → Memory → Prop where
  | same {e : Event} {M : Memory} : Acts e M M
  | zeroed {busy : List VmapArea} {mm : Option MmStruct} {esr far : Nat} {M M' : Memory}
      (asked : M far = none ∨ isWrite esr = false) (on : ∀ va, va / pageSize = far / pageSize → M' va = some 0)
      (off : ∀ va, va / pageSize ≠ far / pageSize → M' va = M va) : Acts (.fault busy mm esr far) M M'
  | dropped {e : Event} {lo hi : Nat} {M M' : Memory} (sweep : e.sweep = some (lo, hi))
      (on : ∀ va, Swept lo hi va → M' va = none) (off : ∀ va, ¬ Swept lo hi va → M' va = M va) : Acts e M M'
  | stored {va : Nat} {b : UInt8} {M : Memory} (mapped : M va ≠ none) :
      Acts (.store va b) M (Function.update M va (some b))

structure Memories where
  current : Nat
  of : Nat → Option Memory

/-- The events that may be refused: memory can be short, and a page can be read-only. -/
def Event.MayFail (μ : Memories) : Event → Prop
  | .switch pgd => μ.of pgd = none
  | .exit pgd => μ.of pgd = none
  | _ => True

inductive Memories.Step : Memories → Event → Memories → Prop where
  | failed {μ : Memories} {e : Event} (may : e.MayFail μ) : Step μ e μ
  | switched {μ : Memories} {pgd : Nat} (live : μ.of pgd ≠ none) : Step μ (.switch pgd) { μ with current := pgd }
  | born {μ : Memories} {C : Nat} (fresh : μ.of C = none) :
      Step μ .create { μ with of := Function.update μ.of C (some fun _ => none) }
  | forked {μ : Memories} {P C : Nat} {M M' : Memory} (live : μ.of P = some M) (fresh : μ.of C = none)
      (copy : ∀ va, M' va = M va ∨ M' va = none) : Step μ (.fork P) { μ with of := Function.update μ.of C (some M') }
  | died {μ : Memories} {pgd : Nat} (live : μ.of pgd ≠ none) :
      Step μ (.exit pgd) { μ with of := Function.update μ.of pgd none }
  | acted {μ : Memories} {e : Event} {M M' : Memory} (live : μ.of μ.current = some M) (acts : Acts e M M') :
      Step μ e { μ with of := Function.update μ.of μ.current (some M') }

/-- The byte of `va` in the tree `r`. -/
def Machine.view (m : Machine) (r : Nat) : Memory := fun va =>
  if isUserAddr va = true ∧ ptePresent (entryAt m.mem r (dirs va) (l3Index va)) = true then
    some (m.mem (physAddr (entryAt m.mem r (dirs va) (l3Index va)) va))
  else none

def Procs.memories (s : Procs) : Memories :=
  ⟨s.machine.ttbr0, fun r => if r ∈ s.pgds then some (s.machine.view r) else none⟩

/-- A store that is made goes to a page that `r` does not map. -/
def Event.Spares (s : Procs) (r : Nat) : Event → Prop
  | .store va _ => isUserAddr va = true → s.Writable s.machine.ttbr0 (dirs va) (l3Index va) →
      ∀ p va', isUserAddr va' = true → s.At s.machine.ttbr0 (dirs va) (l3Index va) p → ¬ s.At r (dirs va') (l3Index va') p
  | _ => True

/-- A store goes to a page no other process maps. -/
def Event.Unshared (s : Procs) (e : Event) : Prop := ∀ r ≠ s.machine.ttbr0, e.Spares s r

/-- A store of the byte that is there. -/
def Event.Silent (s : Procs) : Event → Prop
  | .store va b => s.machine.view s.machine.ttbr0 va = some b
  | _ => False

/-- The running process and the memory of `r`: it changes by the events of `r` only. -/
inductive Own (r : Nat) : Nat × Memory → Event → Nat × Memory → Prop where
  | own {c : Nat} {M M' : Memory} {e : Event} (next : c = r ∨ e = .switch c) (acts : Acts e M M') : Own r (r, M) e (c, M')
  | other {c c' : Nat} {M : Memory} {e : Event} (ne : c ≠ r) (next : c' = c ∨ e = .switch c') : Own r (c, M) e (c', M)

section

variable {m m' : Machine} {U : Finset Nat} {K : Set (Nat × Nat)} {ex ex' rf' : Nat → Nat} {s s' : Procs} {e : Event} {r va p : Nat}
  {b : UInt8}

/-! ## Views -/

theorem view_some (hu : isUserAddr va = true) (hp : ptePresent (entryAt m.mem r (dirs va) (l3Index va)) = true) :
    m.view r va = some (m.mem (physAddr (entryAt m.mem r (dirs va) (l3Index va)) va)) := if_pos ⟨hu, hp⟩

theorem view_absent (hp : ptePresent (entryAt m.mem r (dirs va) (l3Index va)) = false) : m.view r va = none :=
  if_neg fun h => by rw [hp] at h; cases h.2

theorem view_kernel (hu : isUserAddr va = false) : m.view r va = none :=
  if_neg fun h => by rw [hu] at h; cases h.1

/-- The address of a byte lies in the frame of its entry. -/
theorem physAddr_frame {v : Nat} (hp : pteToPhys v = pfnToPa p) (va : Nat) : physAddr v va = pfnToPa p + va % pageSize := by
  rw [physAddr, hp]

theorem at_of_present (hw : World s.machine s.pgds K ex) (hr : r ∈ s.pgds)
    (hp : ptePresent (entryAt s.machine.mem r (dirs va) (l3Index va)) = true) : ∃ p, s.At r (dirs va) (l3Index va) p := by
  obtain ⟨p, e, -⟩ := hw.leaf_frame hr (q := dirs va) rfl hp
  exact ⟨p, hr, rfl, hp, e⟩

/-- With the same entry and the same bytes in its frame, a byte is the same. -/
theorem view_eq (he : entryAt m'.mem r (dirs va) (l3Index va) = entryAt m.mem r (dirs va) (l3Index va))
    (hp : ∀ p, ptePresent (entryAt m.mem r (dirs va) (l3Index va)) = true →
      pteToPhys (entryAt m.mem r (dirs va) (l3Index va)) = pfnToPa p → SamePage m m' p)
    (hl : LeafOk (entryAt m.mem r (dirs va) (l3Index va))) : m'.view r va = m.view r va := by
  unfold Machine.view
  rw [he]
  by_cases h : isUserAddr va = true ∧ ptePresent (entryAt m.mem r (dirs va) (l3Index va)) = true
  · rw [if_pos h, if_pos h]
    obtain ⟨p, e⟩ := hl h.2
    have hlt := Nat.mod_lt va (show 0 < pageSize by decide)
    rw [physAddr_frame e]
    exact congrArg some (hp p h.2 e _ (by omega) (by omega))
  · rw [if_neg h, if_neg h]

/-- The view of a tree whose entries and frames stay. -/
theorem view_kept (hw : World s.machine s.pgds K ex) (hr : r ∈ s.pgds)
    (he : ∀ q : List Idx, q.length = 3 → ∀ i, entryAt m'.mem r q i = entryAt s.machine.mem r q i)
    (hp : ∀ p, 0 < refs s.machine.mem s.pgds ex p → SamePage s.machine m' p) : m'.view r = s.machine.view r := by
  funext va
  exact view_eq (he _ rfl _) (fun p h h' => hp p (at_refs hw ⟨hr, rfl, h, h'⟩)) (hw.leaf r hr _ rfl _)

theorem view_mem (h : m'.mem = m.mem) (r : Nat) : m'.view r = m.view r := by
  unfold Machine.view
  rw [h]

/-! ## A new page -/

/-- The pages that are still mapped keep their bytes. -/
theorem Installed.kept {va pr : Nat} {data : Nat → UInt8} (hw : World m' U K ex')
    (hI : Installed (roots m U) K (refs m.mem U ex) rf' m m' va pr p data) {x : Nat} (hx : x ≠ p)
    (hpos : 0 < refs m'.mem U ex' x) : SamePage m m' x := by
  refine hI.wrote.page x ?_
  rw [Function.update_of_ne hx]
  have h := hw.owned.frame_iff x
  rw [roots, hI.wrote.ttbr1] at h
  exact (hI.owned.frame_iff x).mpr (h.mp hpos)

/-- Outside the page of the fault a new page changes nothing of what any process reads. -/
theorem Installed.view {far pr : Nat} {data : Nat → UInt8} (hw : World s.machine s.pgds K ex) (hw' : World m' s.pgds K ex')
    (user : isUserAddr far = true)
    (hI : Installed (roots s.machine s.pgds) K (refs s.machine.mem s.pgds ex) rf' s.machine m' (pageBase far) pr p data)
    (hr : r ∈ s.pgds) (hne : r = s.machine.ttbr0 → va / pageSize ≠ far / pageSize) :
    m'.view r va = s.machine.view r va := by
  cases hu : isUserAddr va with
  | false => rw [view_kernel hu, view_kernel hu]
  | true =>
    have hent := hI.wrote.entry r (mem_roots hr) (dirs va) rfl (l3Index va)
    rw [l0Table_pageBase, dirs_pageBase, l3Index_pageBase, l0Table_user user, if_neg] at hent
    swap
    · intro h
      exact hne h.1 ((user_path_iff user hu).mp h.2)
    refine view_eq hent (fun x hp hx => ?_) (hw.leaf r hr _ rfl _)
    have hat : s.At r (dirs va) (l3Index va) x := ⟨hr, rfl, hp, hx⟩
    refine hI.kept hw' ?_ (hw'.refs_pos (leavesOf_pos (q := dirs va) (i := l3Index va) hr rfl ?_ ?_))
    · -- the new frame was free
      rintro rfl
      have := at_refs hw hat
      rw [hI.fresh] at this
      cases this
    · rw [hent]
      exact hp
    · rw [hent]
      exact hx

/-- The page of the fault holds the new bytes. -/
theorem Installed.viewPage {far pr : Nat} {data : Nat → UInt8} (live : s.machine.ttbr0 ∈ s.pgds) (user : isUserAddr far = true)
    (hp : ProtOk pr)
    (hI : Installed (roots s.machine s.pgds) K (refs s.machine.mem s.pgds ex) rf' s.machine m' (pageBase far) pr p data)
    (hva : va / pageSize = far / pageSize) : m'.view s.machine.ttbr0 va = some (data (va % pageSize)) := by
  have hu : isUserAddr va = true := by
    rw [isUserAddr_iff] at user ⊢
    unfold pageSize at hva
    omega
  have hent := hI.wrote.entry _ (mem_roots live) (dirs va) rfl (l3Index va)
  rw [l0Table_pageBase, dirs_pageBase, l3Index_pageBase, l0Table_user user,
    if_pos ⟨rfl, (user_path_iff user hu).mpr hva⟩] at hent
  rw [view_some hu (by rw [hent]; exact mkPte_present hp.valid), hent,
    physAddr_frame (mkPte_pteToPhys hp (pfnToPa_pageAddr hI.lt))]
  exact congrArg some (hI.data _ (Nat.mod_lt va (by decide)))

/-! ## A store -/

/-- A byte changes when its process maps the byte that is stored to. -/
theorem store_view (hw : World s.machine s.pgds K ex) (live : s.machine.ttbr0 ∈ s.pgds) (user : isUserAddr va = true)
    (present : ptePresent (s.machine.translate va) = true) {va' : Nat} (hr : r ∈ s.pgds) (hu : isUserAddr va' = true)
    (hp : ptePresent (entryAt s.machine.mem r (dirs va') (l3Index va')) = true) :
    (userStore s.machine va b).view r va' =
      if physAddr (entryAt s.machine.mem r (dirs va') (l3Index va')) va' = physAddr (s.machine.translate va) va then some b
      else s.machine.view r va' := by
  have he := store_entry hw live user present b r (mem_roots hr) (dirs va') rfl (l3Index va')
  rw [view_some hu (by rw [he]; exact hp), view_some hu hp, he]
  unfold userStore
  split
  case isTrue h => rw [h]; exact congrArg some (Function.update_self _ _ _)
  case isFalse h => exact congrArg some (Function.update_of_ne h _ _)

/-- Two addresses that translate to one byte: the entries lead to one frame. -/
theorem same_byte {r' va' : Nat} (hw : World s.machine s.pgds K ex) (hr : r ∈ s.pgds) (hr' : r' ∈ s.pgds)
    (hp : ptePresent (entryAt s.machine.mem r (dirs va) (l3Index va)) = true)
    (hp' : ptePresent (entryAt s.machine.mem r' (dirs va') (l3Index va')) = true)
    (h : physAddr (entryAt s.machine.mem r' (dirs va') (l3Index va')) va' =
      physAddr (entryAt s.machine.mem r (dirs va) (l3Index va)) va) :
    va' % pageSize = va % pageSize ∧ ∃ p, s.At r (dirs va) (l3Index va) p ∧ s.At r' (dirs va') (l3Index va') p := by
  obtain ⟨p, ha⟩ := at_of_present hw hr hp
  obtain ⟨p', ha'⟩ := at_of_present hw hr' hp'
  rw [physAddr_frame ha.2.2.2, physAddr_frame ha'.2.2.2] at h
  have h1 := Nat.mod_lt va (show 0 < pageSize by decide)
  have h2 := Nat.mod_lt va' (show 0 < pageSize by decide)
  have hpa : pfnToPa p' = pfnToPa p := by
    by_contra hne
    have := pages_apart (pfnToPa_aligned p') (pfnToPa_aligned p) hne
    omega
  obtain rfl := pfnToPa_inj hpa
  exact ⟨by omega, p', ha, ha'⟩

/-- A process that does not map the page stored to reads what it read. -/
theorem store_spares (hw : World s.machine s.pgds K ex) (live : s.machine.ttbr0 ∈ s.pgds) (user : isUserAddr va = true)
    (writable : pteWritable (s.machine.translate va) = true) (hr : r ∈ s.pgds) (hs : (Event.store va b).Spares s r) :
    (userStore s.machine va b).view r = s.machine.view r := by
  funext va'
  have present := writable_present writable
  cases hu : isUserAddr va' with
  | false => rw [view_kernel hu, view_kernel hu]
  | true =>
    cases hp : ptePresent (entryAt s.machine.mem r (dirs va') (l3Index va')) with
    | false =>
      have he := store_entry hw live user present b r (mem_roots hr) (dirs va') rfl (l3Index va')
      rw [view_absent hp, view_absent (by rw [he]; exact hp)]
    | true =>
      rw [store_view hw live user present hr hu hp, if_neg]
      rw [translate_user user] at present writable ⊢
      intro h
      obtain ⟨-, p, ha, ha'⟩ := same_byte hw live hr present hp h
      exact hs user writable p va' hu ha ha'

/-- A process that stores to its own page changes one byte. -/
theorem store_own (hw : World s.machine s.pgds K ex) (hd : s.Disciplined) (live : s.machine.ttbr0 ∈ s.pgds)
    (user : isUserAddr va = true) (present : ptePresent (s.machine.translate va) = true) :
    (userStore s.machine va b).view s.machine.ttbr0 = Function.update (s.machine.view s.machine.ttbr0) va (some b) := by
  funext va'
  cases hu : isUserAddr va' with
  | false =>
    have hne : va' ≠ va := by
      rintro rfl
      rw [user] at hu
      cases hu
    rw [view_kernel hu, Function.update_of_ne hne, view_kernel hu]
  | true =>
    cases hp : ptePresent (entryAt s.machine.mem s.machine.ttbr0 (dirs va') (l3Index va')) with
    | false =>
      have he := store_entry hw live user present b _ (mem_roots live) (dirs va') rfl (l3Index va')
      have hne : va' ≠ va := by
        rintro rfl
        rw [translate_user user, hp] at present
        cases present
      rw [view_absent (by rw [he]; exact hp), Function.update_of_ne hne, view_absent hp]
    | true =>
      rw [store_view hw live user present live hu hp]
      rw [translate_user user] at present ⊢
      by_cases e : va' = va
      · rw [e, if_pos rfl, Function.update_self]
      · rw [Function.update_of_ne e, if_neg]
        intro h
        obtain ⟨hm, p, ha, ha'⟩ := same_byte hw live live present hp h
        have hpath := hd.once p _ _ _ _ _ ha ha'
        have hpage := (user_path_iff user hu).mp hpath
        apply e
        unfold pageSize at hm hpage
        omega

/-! ## One event -/

/-- An event leaves the memory of every process it is no event of, if it spares it. -/
theorem Effect.others (hw : World s.machine s.pgds K ex) (h : Effect K ex s e s' ex') (hr : r ∈ s.pgds)
    (hne : r ≠ s.machine.ttbr0) (hs : e.Spares s r) : s'.machine.view r = s.machine.view r := by
  cases h with
  | quiet _ _ quiet => exact view_kept hw hr (quiet.entry r (mem_roots hr)) quiet.page
  | switched _ _ => exact view_mem rfl r
  | born _ _ quiet _ => exact view_kept hw hr (quiet.entry r (mem_roots hr)) quiet.page
  | forked _ _ _ _ _ entry _ page => exact view_kept hw hr (entry r (mem_roots hr)) page
  | died _ _ mem _ => exact view_mem mem r
  | zeroed _ user _ _ _ world _ installed =>
    funext va
    exact installed.view hw world user hr fun e => absurd e hne
  | copied _ user _ _ _ world installed =>
    funext va
    exact installed.view hw world user hr fun e => absurd e hne
  | dropped _ _ h =>
    funext va
    have he := h.confined.entry r (mem_roots hr) hne (dirs va) rfl (l3Index va)
    refine view_eq he (fun p hp hx => h.page p (h.world.refs_pos (leavesOf_pos (q := dirs va) (i := l3Index va) hr rfl ?_ ?_)))
      (hw.leaf r hr _ rfl _)
    · rw [he]
      exact hp
    · rw [he]
      exact hx
  | stored live user writable _ => exact store_spares hw live user writable hr hs

/-- An event does to the memory of the running process what it is meant to do. -/
theorem Effect.acts (hw : World s.machine s.pgds K ex) (hd : s.Disciplined) (h : Effect K ex s e s' ex')
    (hr : s.machine.ttbr0 ∈ s.pgds) : Acts e (s.machine.view s.machine.ttbr0) (s'.machine.view s.machine.ttbr0) := by
  cases h with
  | quiet _ _ quiet =>
    dsimp only
    rw [view_kept hw hr (quiet.entry _ (mem_roots hr)) quiet.page]
    exact .same
  | switched _ _ => exact .same
  | born _ _ quiet _ =>
    dsimp only
    rw [view_kept hw hr (quiet.entry _ (mem_roots hr)) quiet.page]
    exact .same
  | forked _ _ _ _ _ entry _ page =>
    dsimp only
    rw [view_kept hw hr (entry _ (mem_roots hr)) page]
    exact .same
  | died _ _ mem _ =>
    dsimp only
    rw [view_mem mem]
    exact .same
  | @zeroed busy mm esr far pr p m' ex' live user asked prot _ world _ installed =>
    refine .zeroed ?_ (fun va hva => ?_) fun va hva => installed.view hw world user hr fun _ => hva
    · refine asked.imp_left fun hn => ?_
      rw [translate_user user] at hn
      exact view_absent hn
    · exact installed.viewPage live user (faultProt_ok prot) hva
  | @copied busy mm esr far po p m' live user present old _ world installed =>
    -- the copy holds the bytes of the page
    have hsame : m'.view s.machine.ttbr0 = s.machine.view s.machine.ttbr0 := by
      funext va
      by_cases hva : va / pageSize = far / pageSize
      · have hu : isUserAddr va = true := by
          rw [isUserAddr_iff] at user ⊢
          unfold pageSize at hva
          omega
        obtain ⟨h1, h2⟩ := (user_path_iff user hu).mpr hva
        rw [translate_user user] at present old
        rw [installed.viewPage live user pageUserRw_ok hva, view_some hu (by rw [h1, h2]; exact present), h1, h2,
          physAddr_frame old]
      · exact installed.view hw world user hr fun _ => hva
    dsimp only
    rw [hsame]
    exact .same
  | @dropped e lo hi m' live sweep h =>
    refine .dropped sweep (fun va hva => ?_) fun va hva => ?_
    · cases hu : isUserAddr va with
      | false => exact view_kernel hu
      | true =>
        have hn := h.on va hu hva
        rw [translate_user hu, h.confined.ttbr0] at hn
        exact view_absent hn
    · cases hu : isUserAddr va with
      | false => rw [view_kernel hu, view_kernel hu]
      | true =>
        have he := h.off va hu hva
        rw [translate_user hu, translate_user hu, h.confined.ttbr0] at he
        refine view_eq he (fun p hp hx => h.page p (h.world.refs_pos (leavesOf_pos (q := dirs va) (i := l3Index va) hr rfl ?_ ?_)))
          (hw.leaf _ hr _ rfl _)
        · rw [he]
          exact hp
        · rw [he]
          exact hx
  | @stored va b live user writable _ =>
    have present := writable_present writable
    dsimp only
    rw [store_own hw hd live user present]
    refine .stored fun hn => ?_
    rw [translate_user user] at present
    rw [view_some user present] at hn
    cases hn

theorem memories_of (hr : r ∈ s.pgds) : s.memories.of r = some (s.machine.view r) := if_pos hr

theorem memories_none : s.memories.of r = none ↔ r ∉ s.pgds := by
  unfold Procs.memories
  dsimp only
  split
  case isTrue h => exact iff_of_false (Option.some_ne_none _) fun hn => hn h
  case isFalse h => exact iff_of_true rfl h

/-- The memories of `s'` are those of `s` but for process `r`. -/
theorem memories_update (s s' : Procs) (r : Nat) (h0 : s'.machine.ttbr0 = s.machine.ttbr0) (hm : ∀ r' ≠ r, r' ∈ s'.pgds ↔ r' ∈ s.pgds)
    (hv : ∀ r' ∈ s.pgds, r' ≠ r → s'.machine.view r' = s.machine.view r') :
    s'.memories = { s.memories with of := Function.update s.memories.of r (s'.memories.of r) } := by
  have hof : s'.memories.of = Function.update s.memories.of r (s'.memories.of r) := by
    funext r'
    by_cases e : r' = r
    · rw [e, Function.update_self]
    · rw [Function.update_of_ne e]
      by_cases hr : r' ∈ s.pgds
      · rw [memories_of hr, memories_of ((hm r' e).mpr hr), hv r' hr e]
      · rw [memories_none.2 hr, memories_none.2 fun h => hr ((hm r' e).mp h)]
  rw [← hof]
  unfold Procs.memories
  dsimp only
  rw [h0]

theorem memories_acted (h0 : s'.machine.ttbr0 = s.machine.ttbr0) (hp : s'.pgds = s.pgds) (hr : s.machine.ttbr0 ∈ s.pgds)
    (ha : Acts e (s.machine.view s.machine.ttbr0) (s'.machine.view s.machine.ttbr0))
    (hv : ∀ r ∈ s.pgds, r ≠ s.machine.ttbr0 → s'.machine.view r = s.machine.view r) :
    Memories.Step s.memories e s'.memories := by
  rw [memories_update s s' s.machine.ttbr0 h0 (fun r' _ => by rw [hp]) hv, memories_of (by rw [hp]; exact hr)]
  exact .acted (memories_of hr) ha

theorem memories_same (hp : s'.pgds = s.pgds) (h0 : s'.machine.ttbr0 = s.machine.ttbr0)
    (hv : ∀ r ∈ s.pgds, s'.machine.view r = s.machine.view r) : s'.memories = s.memories := by
  have h := memories_update s s' s.machine.ttbr0 h0 (fun r' _ => by rw [hp]) fun r hr _ => hv r hr
  have hof : s'.memories.of s.machine.ttbr0 = s.memories.of s.machine.ttbr0 := by
    unfold Procs.memories
    dsimp only
    rw [hp]
    split
    case isTrue hr => rw [hv _ hr]
    case isFalse => rfl
  rw [h, hof, Function.update_eq_self]

/-- A new process gets a memory of its own. -/
theorem memories_insert {C : Nat} (h0 : m'.ttbr0 = s.machine.ttbr0)
    (hv : ∀ r ∈ s.pgds, m'.view r = s.machine.view r) : (⟨m', insert C s.pgds⟩ : Procs).memories =
      { s.memories with of := Function.update s.memories.of C (some (m'.view C)) } := by
  rw [memories_update s ⟨m', insert C s.pgds⟩ C h0 (fun r' hne => ?_) fun r' hr' _ => hv r' hr',
    memories_of (s := ⟨m', insert C s.pgds⟩) (Finset.mem_insert_self _ _)]
  exact ⟨fun h => (Finset.mem_insert.mp h).resolve_left hne, Finset.mem_insert_of_mem⟩

/-- The effects of an event, on memories. -/
theorem Effect.memories (hw : World s.machine s.pgds K ex) (hd : s.Disciplined) (h : Effect K ex s e s' ex')
    (hu : e.Unshared s) : Memories.Step s.memories e s'.memories := by
  have hacts := h.acts hw hd
  have hothers : ∀ r ∈ s.pgds, r ≠ s.machine.ttbr0 → s'.machine.view r = s.machine.view r := fun r hr hne =>
    h.others hw hr hne (hu r hne)
  cases h with
  | @quiet e m' refused _ quiet =>
    have hsame : (⟨m', s.pgds⟩ : Procs).memories = s.memories :=
      @memories_same s ⟨m', s.pgds⟩ rfl quiet.ttbr0 fun r hr => view_kept hw hr (quiet.entry r (mem_roots hr)) quiet.page
    rw [hsame]
    refine .failed ?_
    cases e with
    | switch pgd => exact memories_none.2 refused
    | exit pgd => exact memories_none.2 refused
    | _ => trivial
  | switched live _ => exact .switched fun hn => memories_none.1 hn live
  | @born C m' fresh _ quiet empty =>
    have hC : C ∉ s.pgds := fun h => fresh (mem_roots h)
    have hnone : m'.view C = fun _ => none := by
      funext va
      exact view_absent (by rw [empty _ rfl, ptePresent_zero])
    rw [memories_insert quiet.ttbr0 fun r hr => view_kept hw hr (quiet.entry r (mem_roots hr)) quiet.page, hnone]
    exact .born (memories_none.2 hC)
  | @forked P C m' live fresh _ ttbr0 _ entry child page =>
    have hC : C ∉ s.pgds := fun h => fresh (mem_roots h)
    rw [memories_insert ttbr0 fun r hr => view_kept hw hr (entry r (mem_roots hr)) page]
    refine .forked (memories_of live) (memories_none.2 hC) fun va => ?_
    cases hua : isUserAddr va with
    | false => exact Or.inr (view_kernel hua)
    | true =>
      rcases child (dirs va) rfl (l3Index va) with h0 | ⟨hp, he⟩
      · exact Or.inr (view_absent (by rw [h0, ptePresent_zero]))
      · -- the child's entry leads to the parent's frame
        left
        obtain ⟨p, ha⟩ := at_of_present hw live hp
        have hlt := Nat.mod_lt va (show 0 < pageSize by decide)
        rw [view_some hua hp, view_some hua (by rw [he, cowPte_present]; exact hp), he, physAddr_frame ha.2.2.2,
          physAddr_frame (by rw [cowPte_pteToPhys]; exact ha.2.2.2)]
        exact congrArg some (page p (at_refs hw ha) _ (by omega) (by omega))
  | @died r m' live _ mem ttbr0 =>
    have hnone : (⟨m', s.pgds.erase r⟩ : Procs).memories.of r = none := memories_none.2 (Finset.notMem_erase r _)
    rw [memories_update s ⟨m', s.pgds.erase r⟩ r ttbr0 (fun r' hne => ?_) fun r' _ _ => view_mem mem r',
      hnone]
    · exact .died fun hn => memories_none.1 hn live
    · exact ⟨Finset.mem_of_mem_erase, fun h => Finset.mem_erase.mpr ⟨hne, h⟩⟩
  | zeroed live _ _ _ _ _ _ installed => exact memories_acted installed.wrote.ttbr0 rfl live (hacts live) hothers
  | copied live _ _ _ _ _ installed => exact memories_acted installed.wrote.ttbr0 rfl live (hacts live) hothers
  | dropped live _ h => exact memories_acted h.confined.ttbr0 rfl live (hacts live) hothers
  | stored live _ _ _ => exact memories_acted rfl rfl live (hacts live) hothers

theorem Effect.next (h : Effect K ex s e s' ex') : s'.machine.ttbr0 = s.machine.ttbr0 ∨ e = .switch s'.machine.ttbr0 := by
  cases h with
  | quiet _ _ quiet => exact Or.inl quiet.ttbr0
  | switched _ _ => exact Or.inr rfl
  | born _ _ quiet _ => exact Or.inl quiet.ttbr0
  | forked _ _ _ ttbr0 _ _ _ _ => exact Or.inl ttbr0
  | died _ _ _ ttbr0 => exact Or.inl ttbr0
  | zeroed _ _ _ _ _ _ _ installed => exact Or.inl installed.wrote.ttbr0
  | copied _ _ _ _ _ _ installed => exact Or.inl installed.wrote.ttbr0
  | dropped _ _ h => exact Or.inl h.confined.ttbr0
  | stored _ _ _ _ => exact Or.inl rfl

/-- No store of another process goes to a page of a guarded one. -/
theorem Procs.Guarded.spares (hg : s.Guarded r) (hne : r ≠ s.machine.ttbr0) (e : Event) : e.Spares s r := by
  cases e with
  | store va b =>
    intro _ hwr p va' _ ha ha'
    exact hg p _ _ ha' _ _ _ (Ne.symm hne) ha hwr
  | _ => trivial

theorem Effect.own (hw : World s.machine s.pgds K ex) (hd : s.Disciplined) (h : Effect K ex s e s' ex') (hr : r ∈ s.pgds)
    (hg : s.Guarded r) : Own r (s.machine.ttbr0, s.machine.view r) e (s'.machine.ttbr0, s'.machine.view r) := by
  by_cases hc : s.machine.ttbr0 = r
  · have hn := h.next
    have ha := h.acts hw hd (by rw [hc]; exact hr)
    rw [hc] at hn ha ⊢
    exact .own hn ha
  · rw [h.others hw hr (Ne.symm hc) (hg.spares (Ne.symm hc) e)]
    exact .other hc h.next

/-! ## Runs -/

theorem boot_memories (m : Machine) : Procs.memories ⟨m, ∅⟩ = ⟨m.ttbr0, fun _ => none⟩ := by
  unfold Procs.memories
  simp

/-- After one `create` there is one process. -/
theorem one_process {m : Machine} {pgd : Nat} {busy : List VmapArea} {mm : Option MmStruct} {esr far r r' : Nat}
    (hr : r ∈ ((((⟨m, ∅⟩ : Procs).enter .create).enter (.switch pgd)).enter (.fault busy mm esr far)).pgds)
    (hr' : r' ∈ ((((⟨m, ∅⟩ : Procs).enter .create).enter (.switch pgd)).enter (.fault busy mm esr far)).pgds) : r' = r := by
  have hpgds : ((((⟨m, ∅⟩ : Procs).enter .create).enter (.switch pgd)).enter (.fault busy mm esr far)).pgds =
      (createUserPgd m).2.elim ∅ (insert · ∅) := by
    generalize hs : (⟨m, ∅⟩ : Procs).enter .create = s1
    have h1 : s1.pgds = (createUserPgd m).2.elim ∅ (insert · ∅) := by rw [← hs]; rfl
    rw [← h1]
    simp only [Procs.enter, Procs.step]
    split <;> split <;> first | rfl | (cases abortHandler _ busy mm esr far <;> rfl)
  rw [hpgds] at hr hr'
  cases hc : (createUserPgd m).2 with
  | none =>
    rw [hc] at hr
    exact absurd hr (Finset.notMem_empty r)
  | some C =>
    rw [hc] at hr hr'
    rw [Option.elim_some, Finset.mem_insert] at hr hr'
    have h1 := hr.resolve_right (Finset.notMem_empty r)
    have h2 := hr'.resolve_right (Finset.notMem_empty r')
    rw [h1, h2]

/-- A store that puts the byte there that is there changes nothing. -/
theorem store_silent (hu : isUserAddr va = true)
    (hp : ptePresent (s.machine.translate va) = true) (hs : (Event.store va b).Silent s) :
    userStore s.machine va b = s.machine := by
  rw [translate_user hu] at hp
  have h : s.machine.view s.machine.ttbr0 va = some b := hs
  rw [view_some hu hp, ← translate_user hu] at h
  unfold userStore
  rw [← Option.some.inj h, Function.update_eq_self]

/-- A store to a page another process reads is seen by it. -/
theorem store_seen {va' : Nat} (hw : World s.machine s.pgds K ex) (live : s.machine.ttbr0 ∈ s.pgds)
    (user : isUserAddr va = true) (writable : pteWritable (s.machine.translate va) = true) (hu : isUserAddr va' = true)
    (ha : s.At s.machine.ttbr0 (dirs va) (l3Index va) p) (ha' : s.At r (dirs va') (l3Index va') p) :
    ∃ va', (userStore s.machine va b).view r va' = some b ∧
      s.machine.view r va' = s.machine.view s.machine.ttbr0 va := by
  -- the byte at the same place of the page
  let x := va' - va' % pageSize + va % pageSize
  have h1 := Nat.mod_lt va (show 0 < pageSize by decide)
  have hdiv : x / pageSize = va' / pageSize := by
    show (va' - va' % pageSize + va % pageSize) / pageSize = va' / pageSize
    unfold pageSize at *
    omega
  have hmod : x % pageSize = va % pageSize := by
    show (va' - va' % pageSize + va % pageSize) % pageSize = va % pageSize
    unfold pageSize at *
    omega
  have hux : isUserAddr x = true := by
    rw [isUserAddr_iff] at hu ⊢
    unfold pageSize at hdiv
    omega
  obtain ⟨e1, e2⟩ := (user_path_iff hu hux).mpr hdiv
  have present := writable_present writable
  have hpx : ptePresent (entryAt s.machine.mem r (dirs x) (l3Index x)) = true := by
    rw [e1, e2]
    exact ha'.2.2.1
  have hphys : physAddr (entryAt s.machine.mem r (dirs x) (l3Index x)) x = physAddr (s.machine.translate va) va := by
    rw [translate_user user, e1, e2, physAddr_frame ha'.2.2.2, physAddr_frame ha.2.2.2, hmod]
  refine ⟨x, ?_, ?_⟩
  · rw [store_view hw live user present ha'.1 hux hpx, if_pos hphys]
  · rw [view_some hux hpx, hphys, view_some user (by rw [← translate_user user]; exact present), ← translate_user user]

/-- A guarded process and its memory, over a run in which it does not exit. -/
theorem Procs.Within.own {n : Nat} (events : List Event) (h : s.Within K (events.length + n)) (hd : s.Disciplined) (hr : r ∈ s.pgds)
    (hg : s.Guarded r) (hne : ∀ e ∈ events, e ≠ .exit r) :
    Runs (Own r) (s.machine.ttbr0, s.machine.view r) events ((s.runs events).machine.ttbr0, (s.runs events).machine.view r) := by
  refine Runs.follow (fun n s => s.Within K n ∧ s.Disciplined ∧ r ∈ s.pgds ∧ s.Guarded r)
    (fun _ e => e ≠ .exit r) (fun s => (s.machine.ttbr0, s.machine.view r)) (fun n s e hi hok => ?_) events
    ⟨h, hd, hr, hg⟩ (Allowed.of_mem (fun e he _ => hne e he) s)
  obtain ⟨hi, hd, hr, hg⟩ := hi
  obtain ⟨ex, ex', hw, he, h⟩ := hi.enter e
  obtain ⟨P, ho⟩ := he.origin hw
  exact ⟨⟨h, hd.event ho, he.live hr hok, hg.event hr ho⟩, he.own hw hd hr hg⟩

end

end Myos.Mm
