/-
  Myos.Mm.Fork — `do_fork` (`rust/src/kernel/task.rs`).

  `copy_user_page_table` reports nothing: where a table of the child cannot be allocated
  it goes on with the next entry. `do_fork` returns the pid of the child whatever was
  copied, and 0, which is what the child gets, when the level-0 table cannot be
  allocated. The kernel stack, whose allocation panics on failure, the descriptors, the
  signals and the scheduling data of the task are left out.

  `Consumes c`: a step takes exactly `c` free pages, as far as there are so many.

  Proved: the copy maps a page of the parent exactly if there is a free page for every
  table it creates up to the one of that page (`CopiedIff`), so `do_fork` is a success
  or a clean failure exactly if there is one for every mapped page of the parent
  (`fork_whole_iff`).
-/

import Myos.Mm.Areas
import Myos.Mm.RefCounts

namespace Myos.Mm

open Pmm Lib.Walk Lib.Dyadic

structure Proc where
  pid : Nat
  ppid : Nat
  pgd : Nat
  mm : Option MmStruct
  regs : Nat → Nat

structure ForkSys where
  machine : Machine
  nextPid : Nat
  tasks : List Proc

/-- `NEXT_PID.fetch_add(1)`. -/
def ForkSys.allocPid (s : ForkSys) : ForkSys × Nat := ({ s with nextPid := add64 s.nextPid 1 }, s.nextPid)

/-- The task of the child, on the run queue; its registers are the parent's but for x0, which is register 0. -/
def ForkSys.addChild (s : ForkSys) (parent : Proc) (regs : Nat → Nat) (childPgd : Nat) : ForkSys × Nat :=
  let p := s.allocPid
  ({ p.1 with
      tasks := p.1.tasks ++ [{ pid := p.2, ppid := parent.pid, pgd := childPgd, mm := parent.mm.map MmStruct.copyFrom,
                               regs := Function.update regs 0 0 }] }, p.2)

/-- `regs` are the registers at `parent_regs`. -/
def doFork (s : ForkSys) (current : Option Proc) (regs : Nat → Nat) : ForkSys × Nat :=
  match current with
  | none => (s, 0)
  | some parent =>
    if parent.pgd = 0 then (s, 0)
    else
      let r := createUserPgd s.machine
      r.2.elim ({ s with machine := r.1 }, 0) fun childPgd =>
        { s with machine := copyUserPageTable r.1 parent.pgd childPgd }.addChild parent regs childPgd

/-! ## Success and clean failure -/

/-- The leaf entry of a user address in the tree `r`. -/
def userEntry (mem : Mem) (r va : Nat) : Nat := entryAt mem r (dirs va) (l3Index va)

/-- The page a user address is translated to. -/
def userPage (mem : Mem) (r va : Nat) : Option Nat :=
  if ptePresent (userEntry mem r va) then some (pteToPhys (userEntry mem r va)) else none

/-- In `m'` the tree `C` maps what `P` mapped in `m`, to the same bytes, and `P` still does. -/
structure SameUser (m m' : Machine) (P C : Nat) : Prop where
  child : ∀ va, isUserAddr va = true → userPage m'.mem C va = userPage m.mem P va
  parent : ∀ va, isUserAddr va = true → userPage m'.mem P va = userPage m.mem P va
  bytes : ∀ va p, isUserAddr va = true → userPage m.mem P va = some (pfnToPa p) → SamePage m m' p

/-- A new task with the translations of the parent and 0 in x0, and its pid is returned. -/
def ForkSucceeds (s s' : ForkSys) (parent : Proc) (r : Nat) : Prop :=
  ∃ child, s'.tasks = s.tasks ++ [child] ∧ child.pid = r ∧ r ≠ 0 ∧ child.regs 0 = 0 ∧
    SameUser s.machine s'.machine parent.pgd child.pgd

/-- Neither a pid nor 0 is returned, and no task, no allocated block and no reference is left behind. -/
def ForkFails (s s' : ForkSys) (r : Nat) : Prop :=
  (r ≠ 0 ∧ r ≠ s.nextPid ∧ ∀ t ∈ s.tasks, t.pid ≠ r) ∧ s'.tasks = s.tasks ∧
    (∀ p k, Used s'.machine.pmm p k ↔ Used s.machine.pmm p k) ∧
    ∀ p, (s'.machine.pmm.memMap p).refCount = (s.machine.pmm.memMap p).refCount

/-! ## Free pages -/

/-- The step takes `c` pages, or all there are. -/
def Consumes (c : Nat) (s s' : State) : Prop := ∀ n, Room s' (n + 1) ↔ Room s (c + (n + 1))

theorem Consumes.refl (s : State) : Consumes 0 s s := fun n => by rw [Nat.zero_add]

theorem Consumes.trans {c c' : Nat} {s s' s'' : State} (h1 : Consumes c s s') (h2 : Consumes c' s' s'') :
    Consumes (c + c') s s'' := by
  intro n
  rw [h2 n, show c' + (n + 1) = c' + n + 1 by omega, h1 (c' + n)]
  rw [show c + (c' + n + 1) = c + c' + (n + 1) by omega]

/-- Room for at least one page more. -/
theorem Consumes.room {c n : Nat} {s s' : State} (h : Consumes c s s') (hn : 0 < n) : Room s' n ↔ Room s (c + n) := by
  obtain ⟨k, rfl⟩ : ∃ k, n = k + 1 := ⟨n - 1, by omega⟩
  exact h k

theorem consumes_sameUsed {s s' : State} (hst : s'.buddyMemStart = s.buddyMemStart)
    (hu : ∀ q k, Used s' q k ↔ Used s q k) : Consumes 0 s s' := by
  intro n
  rw [Nat.zero_add]
  exact ⟨fun h => h.mono hst.symm fun q k hq => (hu q k).mpr hq, fun h => h.mono hst fun q k hq => (hu q k).mp hq⟩

theorem consumes_alloc {s s' : State} {p : Nat} (hA : AllocAt s s' p 0) : Consumes 1 s s' := by
  intro n
  rw [Nat.add_comm 1]
  exact ⟨fun h => h.before hA, fun h => h.less hA⟩

/-- Without a free page nothing is taken. -/
theorem consumes_full {s s' : State} (c : Nat) (h : ∀ n, ¬ Room s (n + 1)) (hst : s'.buddyMemStart = s.buddyMemStart)
    (hu : ∀ q k, Used s' q k ↔ Used s q k) : Consumes c s s' := by
  intro n
  refine ⟨fun hr => ?_, fun hr => absurd hr (h (c + n))⟩
  exact absurd ((consumes_sameUsed hst hu).room (Nat.succ_pos n) |>.mp hr) (by rw [Nat.zero_add]; exact h n)

/-! ## The tables up to a page -/

/-- The tables that a subtree of the parent costs the child. -/
def cost (w : List Idx → Option Nat) (level : Nat) (q : List Idx) (j : Idx) : Nat :=
  if (w (q ++ [j])).isSome then 1 + need w level (q ++ [j]) else 0

/-- The tables below the node at `q` that the copy creates up to the one at the end of `t`. -/
def tablesUpTo (w : List Idx → Option Nat) : (level : Nat) → (q t : List Idx) → Nat
  | level + 1, q, j :: t =>
    (((List.finRange 512).takeWhile (· ≠ j)).map (cost w level q)).sum + (1 + tablesUpTo w level (q ++ [j]) t)
  | _, _, _ => 0

/-- A page of the parent is in the child if there was room for `n` pages, and else it is not. -/
def CopiedIff (P C : Nat) (m m' : Machine) (q : List Idx) (i : Idx) (n : Nat) : Prop :=
  ptePresent (entryAt m.mem P q i) = true →
    (Room m.pmm n → entryAt m'.mem C q i = cowPte (entryAt m.mem P q i)) ∧ (¬ Room m.pmm n → entryAt m'.mem C q i = 0)

section

variable {m m' m'' : Machine} {U : Finset Nat} {K : Set (Nat × Nat)} {ex : Nat → Nat} {P C : Nat}

theorem CopiedIff.room {q : List Idx} {i : Idx} {n n' : Nat} (h : CopiedIff P C m' m'' q i n)
    (hP : entryAt m'.mem P q i = entryAt m.mem P q i) (hr : Room m'.pmm n ↔ Room m.pmm n') :
    CopiedIff P C m m'' q i n' := by
  intro hp
  rw [← hP] at hp ⊢
  exact ⟨fun h' => (h hp).1 (hr.mpr h'), fun h' => (h hp).2 fun e => h' (hr.mp e)⟩

theorem not_below_of {q l : List Idx} {j : Idx} (hj : j ∉ l) (t : List Idx) : ¬ Below q l (q ++ j :: t) := by
  rintro ⟨i, hi, s, hs⟩
  rw [List.append_assoc] at hs
  have := List.append_cancel_left hs
  simp only [List.cons_append, List.nil_append, List.cons.injEq] at this
  exact hj (this.1 ▸ hi)

/-- The loop over the entries of a table that is not a leaf table. -/
theorem copied_fold_iff {f : Machine → Idx → Machine} {n : Idx → Nat} {u : Idx → List Idx → Nat}
    {w : List Idx → Option Nat} {q : List Idx} {dst : Nat} (hP : P ∈ U) (hC : C ∈ U) (hne : P ≠ C) (hq : q.length < 3)
    (hpos : ∀ j t, 0 < u j t)
    (hstep : ∀ m i, CopyAt U K ex P C w q dst m → EmptyAt m C q i →
      Copied U K ex P C (Below q [i]) (n i) m (f m i) ∧ Consumes (n i) m.pmm (f m i).pmm ∧
        ∀ t k, (q ++ i :: t).length = 3 → CopiedIff P C m (f m i) (q ++ i :: t) k (u i t)) :
    ∀ (l : List Idx) (m : Machine), l.Nodup → CopyAt U K ex P C w q dst m → (∀ j ∈ l, EmptyAt m C q j) →
      Copied U K ex P C (Below q l) (l.map n).sum m (l.foldl f m) ∧ Consumes (l.map n).sum m.pmm (l.foldl f m).pmm ∧
        ∀ j ∈ l, ∀ t k, (q ++ j :: t).length = 3 → CopiedIff P C m (l.foldl f m) (q ++ j :: t) k
          (((l.takeWhile (· ≠ j)).map n).sum + u j t) := by
  intro l
  induction l with
  | nil =>
    intro m hnd ha he
    exact ⟨copied_fold hP hC hne hq.le (fun m i ha he => (hstep m i ha he).1) [] m hnd ha he, Consumes.refl _,
      fun j hj => absurd hj List.not_mem_nil⟩
  | cons i l ih =>
    intro m hnd ha he
    have hall := copied_fold hP hC hne hq.le (fun m i ha he => (hstep m i ha he).1) (i :: l) m hnd ha he
    obtain ⟨hi, hnd⟩ := List.nodup_cons.mp hnd
    obtain ⟨h1, c1, e1⟩ := hstep m i ha (he i List.mem_cons_self)
    obtain ⟨h2, c2, e2⟩ := ih (f m i) hnd (h1.at hP hC hne hq.le ha) fun j hj =>
      h1.empty hC (by rintro rfl; exact hi hj) (he j (List.mem_cons_of_mem _ hj))
    refine ⟨hall, c1.trans c2, fun j hj t k hl => ?_⟩
    rcases List.mem_cons.mp hj with rfl | hj
    · -- the rest of the loop leaves this part of the child alone
      have hsame : entryAt (l.foldl f (f m j)).mem C (q ++ j :: t) k = entryAt (f m j).mem C (q ++ j :: t) k :=
        h2.entry C (mem_roots hC) _ hl k fun _ => by
          rw [List.append_assoc, List.cons_append]
          exact not_below_of hi _
      rw [List.takeWhile_cons_of_neg (by simp), List.map_nil, List.sum_nil, Nat.zero_add]
      intro hp
      rw [List.foldl_cons, hsame]
      exact e1 t k hl hp
    · have hne' : i ≠ j := by rintro rfl; exact hi hj
      have := e2 j hj t k hl
      rw [List.takeWhile_cons_of_pos (by simpa using hne'), List.map_cons, List.sum_cons, Nat.add_assoc]
      refine this.room (h1.entry P (mem_roots hP) _ hl k fun e => absurd e hne) (c1.room ?_)
      exact Nat.add_pos_right _ (hpos j t)

/-- Leaf entries cost no page. -/
theorem consumes_copyPtes (hs : ∀ p, ex p < 2 ^ 63) (hP : P ∈ U) (hC : C ∈ U) (hne : P ≠ C)
    {w : List Idx → Option Nat} {q : List Idx} {src dst : Nat} (hq : q.length = 3) (hsrc : w q = some src) :
    ∀ (l : List Idx) (m : Machine), l.Nodup → CopyAt U K ex P C w q dst m → (∀ j ∈ l, EmptyAt m C q j) →
      Consumes 0 m.pmm (l.foldl (fun m i => copyPte m src dst i) m).pmm := by
  intro l
  induction l with
  | nil => intro m _ _ _; exact Consumes.refl _
  | cons i l ih =>
    intro m hnd ha he
    obtain ⟨hi, hnd⟩ := List.nodup_cons.mp hnd
    have h1 := copyPte_spec hs hP hC hne hq hsrc ha (he i List.mem_cons_self)
    have hone : Consumes 0 m.pmm (copyPte m src dst i).pmm := by
      unfold copyPte
      split
      · exact Consumes.refl _
      · refine consumes_sameUsed ((getPage_start _ _).trans (by rw [setPte_pmm])) fun a b => ?_
        exact (getPage_used (by rw [setPte_pmm]; exact ha.world.owned.sound) _ a b).trans (by rw [setPte_pmm])
    exact hone.trans (ih _ hnd (h1.at hP hC hne (by omega) ha) fun j hj =>
      h1.empty hC (by rintro rfl; exact hi hj) (he j (List.mem_cons_of_mem _ hj)))

theorem copyTables_iff (hs : ∀ p, ex p < 2 ^ 63) (hP : P ∈ U) (hC : C ∈ U) (hne : P ≠ C)
    (w : List Idx → Option Nat) :
    ∀ (level : Nat) (q : List Idx) (src dst : Nat) (m : Machine), q.length + level = 3 →
      CopyAt U K ex P C w q dst m → w q = some src → (∀ j, EmptyAt m C q j) →
      Consumes (need w level q) m.pmm (copyTables level m src dst).pmm ∧
        ∀ t k, (q ++ t).length = 3 → CopiedIff P C m (copyTables level m src dst) (q ++ t) k (tablesUpTo w level q t) := by
  intro level
  induction level with
  | zero =>
    intro q src dst m hq ha hsrc he
    have hc := copyTables_spec hs hP hC hne w 0 q src dst m hq ha hsrc he
    refine ⟨consumes_copyPtes hs hP hC hne (by omega) hsrc (List.finRange 512) m (List.nodup_finRange 512) ha
      fun j _ => he j, fun t k ht hp => ?_⟩
    obtain rfl : t = [] := by
      rw [List.length_append] at ht
      exact List.length_eq_zero_iff.mp (by omega)
    rw [List.append_nil] at ht hp ⊢
    have hfull := (hc.full 0 (Room.zero _)).2 q ht k ⟨k, List.mem_finRange k, List.prefix_refl _⟩ hp
    exact ⟨fun _ => hfull, fun h => absurd (Room.zero _) h⟩
  | succ level ih =>
    intro q src dst m hq ha hsrc he
    have hbelow : ∀ i src' dst' m', CopyAt U K ex P C w (q ++ [i]) dst' m' → w (q ++ [i]) = some src' →
        (∀ j, EmptyAt m' C (q ++ [i]) j) → Copied U K ex P C (Below (q ++ [i]) (List.finRange 512))
          (need w level (q ++ [i])) m' (copyTables level m' src' dst') := fun i src' dst' m' =>
      copyTables_spec hs hP hC hne w level (q ++ [i]) src' dst' m' (by simp; omega)
    have h := copied_fold_iff (f := copyEntry level src dst) (n := cost w level q)
      (u := fun j t => 1 + tablesUpTo w level (q ++ [j]) t) hP hC hne (by omega) (fun j t => by omega)
      (fun m i ha he => ⟨copyEntry_spec hP hC hne hq (hbelow i) ha hsrc he, ?_⟩) (List.finRange 512) m
      (List.nodup_finRange 512) ha fun j _ => he j
    · refine ⟨h.2.1, fun t k ht => ?_⟩
      cases t with
      | nil => rw [List.append_nil] at ht; omega
      | cons j t => exact h.2.2 j (List.mem_finRange j) t k ht
    -- one entry
    have hw := ha.world
    rcases copyEntry_cases hP hC hq ha hsrc he hne with
      ⟨hn, hr⟩ | ⟨hsome, hno, e, hr⟩ | ⟨src', p, m1, hsome, hr, h1, ha1, he1, hA⟩ <;> rw [hr]
    · refine ⟨?_, fun t k ht hp => ?_⟩
      · rw [cost, hn, Option.isSome_none, if_neg Bool.false_ne_true]
        exact Consumes.refl _
      · rw [absent_below (by omega) ha hn ht ⟨t ++ [k], by simp⟩] at hp
        cases hp
    · refine ⟨consumes_full _ hno rfl fun _ _ => Iff.rfl, fun t k ht hp => ⟨fun hroom => ?_, fun _ => ?_⟩⟩
      · rw [Nat.add_comm] at hroom
        exact absurd hroom (hno _)
      · exact he.entry _ ht k ⟨t ++ [k], by simp⟩
    · obtain ⟨c2, e2⟩ := ih (q ++ [i]) src' (pfnToPa p) m1 (by simp; omega) ha1 hsome he1
      refine ⟨?_, fun t k ht => ?_⟩
      · rw [cost, hsome, Option.isSome_some, if_pos rfl]
        exact (consumes_alloc hA).trans c2
      · have ht' : (q ++ [i] ++ t).length = 3 := by rw [List.append_assoc]; exact ht
        have := e2 t k ht'
        rw [List.append_assoc, List.singleton_append] at this
        refine this.room (h1.entry P (mem_roots hP) _ ht k fun e => absurd e hne) ?_
        rcases Nat.eq_zero_or_pos (tablesUpTo w level (q ++ [i]) t) with h0 | hpos
        · rw [h0]
          exact ⟨fun _ => (Room.zero _).before hA, fun _ => Room.zero _⟩
        · exact (consumes_alloc hA).room hpos

/-! ## Fork -/

theorem createUserPgd_consumes (h : World m U K ex) :
    ((createUserPgd m).2 = none ∧ ¬ Room m.pmm 1) ∨
      (createUserPgd m).2.isSome = true ∧ Room m.pmm 1 ∧ Consumes 1 m.pmm (createUserPgd m).1.pmm := by
  unfold createUserPgd Machine.allocPage
  rcases h.owned.alloc 0 0 with ⟨⟨e, he⟩, -⟩ | ⟨p, hp, hN⟩
  · rw [he]
    refine Or.inl ⟨rfl, fun hr => ?_⟩
    obtain ⟨p, hp⟩ := hr.alloc h.owned.sound 0 (by decide)
    rw [he] at hp
    exact pfnToPa_ne_zero p hp.symm
  · simp only [hp, pfnToPa_ne_zero, if_false]
    exact Or.inr ⟨rfl, (Room.zero _).before hN.alloc, consumes_alloc hN.alloc⟩

theorem userPage_cow {mem mem' : Mem} {r r' va : Nat} (h : userEntry mem' r' va = cowPte (userEntry mem r va)) :
    userPage mem' r' va = userPage mem r va := by
  unfold userPage
  rw [h, cowPte_present, cowPte_pteToPhys]

theorem userPage_absent {mem : Mem} {r va : Nat} (h : ptePresent (userEntry mem r va) = false) :
    userPage mem r va = none := if_neg (by rw [h]; exact Bool.false_ne_true)

theorem userPage_present {mem : Mem} {r va : Nat} (h : ptePresent (userEntry mem r va) = true) :
    userPage mem r va = some (pteToPhys (userEntry mem r va)) := if_pos h

theorem tablesUpTo_pos (w : List Idx → Option Nat) (va : Nat) : 0 < tablesUpTo w 3 [] (dirs va) :=
  Nat.add_pos_right _ (Nat.add_pos_left Nat.one_pos _)

/-- What the child maps, once its level-0 table is there. -/
structure Duplicated (m m' : Machine) (P C : Nat) : Prop where
  fits : ∀ va, ptePresent (userEntry m.mem P va) = true →
    Room m.pmm (1 + tablesUpTo (walk (child m.mem) P) 3 [] (dirs va)) → userPage m'.mem C va = userPage m.mem P va
  missing : ∀ va, ptePresent (userEntry m.mem P va) = true →
    ¬ Room m.pmm (1 + tablesUpTo (walk (child m.mem) P) 3 [] (dirs va)) → userPage m'.mem C va = none
  absent : ∀ va, ptePresent (userEntry m.mem P va) = false → userPage m'.mem C va = none
  parent : ∀ va, userPage m'.mem P va = userPage m.mem P va
  bytes : ∀ va p, userPage m.mem P va = some (pfnToPa p) → SamePage m m' p

theorem World.duplicated (hw : World m U K ex) (hs : ∀ p, ex p < 2 ^ 63) (hP : P ∈ U)
    (hC : (createUserPgd m).2 = some C) : Duplicated m (copyUserPageTable (createUserPgd m).1 P C) P C := by
  rcases hw.newPgd with ⟨e, -⟩ | ⟨p, e, hn, hw1, hQ, hg, hz⟩
  · rw [e] at hC; cases hC
  obtain rfl : C = pfnToPa p := by rw [e] at hC; exact (Option.some.inj hC).symm
  have hcons : Consumes 1 m.pmm (createUserPgd m).1.pmm := by
    rcases createUserPgd_consumes hw with ⟨e', -⟩ | ⟨-, -, h⟩
    · rw [e] at e'; cases e'
    · exact h
  generalize (createUserPgd m).1 = m1 at *
  have hne : P ≠ pfnToPa p := by rintro rfl; exact hn (mem_roots hP)
  have hP1 : P ∈ insert (pfnToPa p) U := Finset.mem_insert_of_mem hP
  have hC1 : pfnToPa p ∈ insert (pfnToPa p) U := Finset.mem_insert_self _ _
  have hcopy := copyUserPageTable_spec hw1 hs hP1 hC1 hne hz
  obtain ⟨-, hiff⟩ := copyTables_iff hs hP1 hC1 hne (walk (child m.mem) P) 3 [] P (pfnToPa p) m1 rfl
    ⟨hw1, fun s hl => hg P (mem_roots hP) s hl, walk_nil _ _⟩ (walk_nil _ _) (emptyAt_new (walk_nil _ _) hz)
  have hent : ∀ va, userEntry m1.mem P va = userEntry m.mem P va := fun va => hQ.entry P (mem_roots hP) _ rfl _
  have hiff : ∀ va, CopiedIff P (pfnToPa p) m1 (copyUserPageTable m1 P (pfnToPa p)) (dirs va) (l3Index va)
      (tablesUpTo (walk (child m.mem) P) 3 [] (dirs va)) := fun va => hiff (dirs va) (l3Index va) rfl
  generalize copyUserPageTable m1 P (pfnToPa p) = m2 at *
  have hroom : ∀ va, Room m1.pmm (tablesUpTo (walk (child m.mem) P) 3 [] (dirs va)) ↔
      Room m.pmm (1 + tablesUpTo (walk (child m.mem) P) 3 [] (dirs va)) := fun va => hcons.room (tablesUpTo_pos _ va)
  refine ⟨fun va hp hr => ?_, fun va hp hr => ?_, fun va hp => ?_, fun va => ?_, fun va x hx => ?_⟩
  · rw [← hent] at hp
    exact (userPage_cow ((hiff va hp).1 ((hroom va).mpr hr))).trans (by unfold userPage; rw [hent])
  · rw [← hent] at hp
    refine userPage_absent ?_
    rw [userEntry, (hiff va hp).2 fun h => hr ((hroom va).mp h), ptePresent_zero]
  · refine userPage_absent ?_
    rcases hcopy.copied (dirs va) rfl (l3Index va) ⟨_, List.mem_finRange _, List.prefix_append _ _⟩ with h | ⟨h, -⟩
    · rw [userEntry, h, ptePresent_zero]
    · rw [← userEntry, hent, hp] at h; cases h
  · have : userEntry m2.mem P va = userEntry m1.mem P va :=
      hcopy.entry P (mem_roots hP1) (dirs va) rfl (l3Index va) fun e => absurd e hne
    unfold userPage
    rw [this, hent]
  · -- the frame is counted before and after the level-0 table is there
    have hp : ptePresent (userEntry m.mem P va) = true := by
      by_contra hn
      rw [userPage_absent (by simpa using hn)] at hx; cases hx
    rw [userPage_present hp] at hx
    have hx := Option.some.inj hx
    obtain ⟨y, hy, hpos⟩ := hw.leaf_frame hP (q := dirs va) rfl hp
    obtain rfl : y = x := pfnToPa_inj (hy.symm.trans hx)
    rw [← hent] at hp hx
    obtain ⟨y', hy', hpos'⟩ := hw1.leaf_frame hP1 (q := dirs va) rfl hp
    obtain rfl : y' = y := pfnToPa_inj (hy'.symm.trans hx)
    exact (hQ.page y' (hw.refs_pos hpos)).trans (hcopy.page y' (hw1.refs_pos hpos'))

end

section

variable {s : ForkSys} {U : Finset Nat} {K : Set (Nat × Nat)} {ex : Nat → Nat} {parent : Proc} {regs : Nat → Nat}

theorem World.pgd_ne_zero {m : Machine} (hw : World m U K ex) {r : Nat} (hr : r ∈ U) : r ≠ 0 := by
  rintro rfl
  refine hw.managed 0 ⟨0, hr, [], by simp, walk_nil _ _⟩ (Or.inl ?_)
  obtain ⟨hst, -⟩ := hw.owned.sound
  exact lt_of_lt_of_le (by unfold physMemStart; decide) hst.1

theorem doFork_none (h : parent.pgd ≠ 0) (hC : (createUserPgd s.machine).2 = none) :
    (doFork s (some parent) regs).2 = 0 := by
  show (if parent.pgd = 0 then _ else (createUserPgd s.machine).2.elim _ _ : ForkSys × Nat).2 = 0
  rw [if_neg h, hC, Option.elim_none]

theorem doFork_some (h : parent.pgd ≠ 0) {C : Nat} (hC : (createUserPgd s.machine).2 = some C) :
    doFork s (some parent) regs =
      { s with machine := copyUserPageTable (createUserPgd s.machine).1 parent.pgd C }.addChild parent regs C := by
  show (if parent.pgd = 0 then _ else (createUserPgd s.machine).2.elim _ _) = _
  rw [if_neg h, hC, Option.elim_some]

/-- What a task more is. -/
theorem addChild_spec (s : ForkSys) (m : Machine) (parent : Proc) (regs : Nat → Nat) (C : Nat) :
    ∃ child, ({ s with machine := m }.addChild parent regs C).1.tasks = s.tasks ++ [child] ∧ child.pid = s.nextPid ∧
      child.pgd = C ∧ child.regs 0 = 0 ∧ ({ s with machine := m }.addChild parent regs C).1.machine = m ∧
      ({ s with machine := m }.addChild parent regs C).2 = s.nextPid :=
  ⟨_, rfl, rfl, rfl, by simp, rfl, rfl⟩

/-- A fork is a success or a clean failure exactly if there is a free page for the level-0 table and for every table up
    to the one of each mapped page, and the pid is not 0. -/
theorem fork_whole_iff (hw : World s.machine U K ex) (hs : ∀ p, ex p < 2 ^ 63) (hP : parent.pgd ∈ U) (regs : Nat → Nat) :
    (ForkSucceeds s (doFork s (some parent) regs).1 parent (doFork s (some parent) regs).2 ∨
      ForkFails s (doFork s (some parent) regs).1 (doFork s (some parent) regs).2) ↔
    s.nextPid ≠ 0 ∧ Room s.machine.pmm 1 ∧ ∀ va, isUserAddr va = true →
      ptePresent (userEntry s.machine.mem parent.pgd va) = true →
      Room s.machine.pmm (1 + tablesUpTo (walk (child s.machine.mem) parent.pgd) 3 [] (dirs va)) := by
  have h0 := hw.pgd_ne_zero hP
  rcases createUserPgd_consumes hw with ⟨hC, hno⟩ | ⟨hC, hroom, -⟩
  · -- 0 goes to the parent
    rw [doFork_none h0 hC]
    constructor
    · rintro (⟨-, -, -, h, -⟩ | ⟨⟨h, -⟩, -⟩) <;> exact absurd rfl h
    · intro h
      exact absurd h.2.1 hno
  obtain ⟨C, hC⟩ := Option.isSome_iff_exists.mp hC
  have hF := hw.duplicated hs hP hC
  rw [doFork_some h0 hC]
  obtain ⟨child, ht, hpid, hpgd, hx0, hm, hr⟩ := addChild_spec s
    (copyUserPageTable (createUserPgd s.machine).1 parent.pgd C) parent regs C
  generalize copyUserPageTable (createUserPgd s.machine).1 parent.pgd C = m' at *
  generalize ForkSys.addChild { s with machine := m' } parent regs C = r at *
  constructor
  · rintro (⟨c, hc, -, hne, -, hsame⟩ | ⟨⟨-, h, -⟩, -⟩)
    · obtain rfl : child = c := List.singleton_inj.mp (List.append_cancel_left (ht.symm.trans hc))
      refine ⟨by rwa [hr] at hne, hroom, fun va hu hp => ?_⟩
      by_contra hn
      have h1 := hF.missing va hp hn
      have h2 := hsame.child va hu
      rw [hm, hpgd, h1, userPage_present hp] at h2
      cases h2
    · exact absurd hr h
  · rintro ⟨hne, -, hall⟩
    refine Or.inl ⟨child, ht, hpid.trans hr.symm, by rwa [hr], hx0, ?_⟩
    rw [hm, hpgd]
    refine ⟨fun va hu => ?_, fun va _ => hF.parent va, fun va p _ => hF.bytes va p⟩
    by_cases hp : ptePresent (userEntry s.machine.mem parent.pgd va) = true
    · exact hF.fits va hp (hall va hu hp)
    · rw [Bool.not_eq_true] at hp
      exact (hF.absent va hp).trans (userPage_absent hp).symm

end

/-! ## Without a free page -/

section

variable {m : Machine} {U : Finset Nat} {K : Set (Nat × Nat)} {ex : Nat → Nat}

/-- Somebody else allocates a page. -/
theorem World.takePage (hw : World m U K ex) (hr : Room m.pmm 1) : ∃ s K', World { m with pmm := s } U K' ex ∧
    Consumes 1 m.pmm s := by
  obtain ⟨p, hp⟩ := hr.alloc hw.owned.sound gfpKernel (by decide)
  rcases hw.owned.alloc 0 gfpKernel with ⟨⟨e, he⟩, -⟩ | ⟨p', -, hN⟩
  · rw [he] at hp
    exact absurd hp.symm (pfnToPa_ne_zero p)
  · refine ⟨_, _, ⟨hN.owned, hw.kernel, fun n hn => ?_, hw.leaf⟩, consumes_alloc hN.alloc⟩
    have := hw.managed n hn
    unfold Unmanaged at *
    rwa [show (allocPhysPages m.pmm 0 gfpKernel).1.buddyMemStart = m.pmm.buddyMemStart from hN.alloc.start]

/-- Until `k` are left. -/
theorem World.exhaust (k n : Nat) : ∀ {s : State} {K : Set (Nat × Nat)}, World { m with pmm := s } U K ex → Room s k →
    ¬ Room s (k + n) → ∃ s' K', World { m with pmm := s' } U K' ex ∧ Room s' k ∧ ¬ Room s' (k + 1) := by
  induction n with
  | zero => intro s K _ hk h; exact absurd hk h
  | succ n ih =>
    intro s K hw hk h
    by_cases hr : Room s (k + 1)
    · obtain ⟨s', K', hw', hc⟩ := hw.takePage (hr.le (by omega))
      have hiff : ∀ j, Room s (j + 1) → Room s' j := by
        intro j hj
        rcases Nat.eq_zero_or_pos j with rfl | hpos
        · exact Room.zero _
        · rw [hc.room hpos, Nat.add_comm]
          exact hj
      rcases Nat.eq_zero_or_pos (k + n) with h0 | hpos
      · exact absurd hr (by rwa [show k + 1 = k + (n + 1) by omega])
      · exact ih (K := K') hw' (hiff k hr) fun h' => h (by
          rw [show k + (n + 1) = 1 + (k + n) by omega]
          exact (hc.room hpos).mp h')
    · exact ⟨s, K, hw, hk, hr⟩

end

/-- The first process, before it maps a page. -/
theorem bootMachine_process : ∃ C, World (createUserPgd bootMachine).1 {C} ∅ (fun _ => 0) ∧
    Room (createUserPgd bootMachine).1.pmm 1 ∧ ∀ va, userEntry (createUserPgd bootMachine).1.mem C va = 0 := by
  have hw := bootMachine_boot.world
  rcases createUserPgd_consumes hw with ⟨-, h⟩ | ⟨hC, -, hc⟩
  · exact absurd (bootMachine_room.le (by decide)) h
  rcases hw.newPgd with ⟨e, -⟩ | ⟨p, -, -, hw1, -, -, hz⟩
  · rw [e] at hC; cases hC
  · refine ⟨pfnToPa p, hw1, (hc.room Nat.one_pos).mpr (bootMachine_room.le (by decide)), fun va => ?_⟩
    exact (emptyAt_new (walk_nil _ _) hz (l0Index va)).entry (dirs va) rfl _ ⟨_, rfl⟩

/-- A process forks while no page is free: it gets 0. -/
theorem fork_without_page : ∃ (s : ForkSys) (parent : Proc) (U : Finset Nat) (K : Set (Nat × Nat)),
    World s.machine U K (fun _ => 0) ∧ parent.pgd ∈ U ∧ s.nextPid ≠ 0 ∧
    (doFork s (some parent) fun _ => 0).2 = 0 ∧
    ¬ (ForkSucceeds s (doFork s (some parent) fun _ => 0).1 parent (doFork s (some parent) fun _ => 0).2 ∨
      ForkFails s (doFork s (some parent) fun _ => 0).1 (doFork s (some parent) fun _ => 0).2) := by
  obtain ⟨C, hw, -⟩ := bootMachine_process
  have hmax : ¬ Room (createUserPgd bootMachine).1.pmm (totalPages + 1) := fun h => absurd (room_le_totalPages h) (by omega)
  obtain ⟨s', K', hw', -, hno⟩ := World.exhaust (m := (createUserPgd bootMachine).1) 0 _ hw (Room.zero _) (by rwa [Nat.zero_add])
  generalize (createUserPgd bootMachine).1 = m at *
  have hmem : C ∈ ({C} : Finset Nat) := Finset.mem_singleton_self C
  refine ⟨⟨{ m with pmm := s' }, 2, []⟩, ⟨1, 0, C, none, fun _ => 0⟩, {C}, K', hw', hmem, two_ne_zero, ?_⟩
  have h0 : (doFork ⟨{ m with pmm := s' }, 2, []⟩ (some ⟨1, 0, C, none, fun _ => 0⟩) fun _ => 0).2 = 0 := by
    refine doFork_none (hw'.pgd_ne_zero hmem) ?_
    rcases createUserPgd_consumes hw' with ⟨e, -⟩ | ⟨-, h, -⟩
    · exact e
    · exact absurd h hno
  rw [h0]
  refine ⟨rfl, ?_⟩
  rintro (⟨-, -, -, h, -⟩ | ⟨⟨h, -⟩, -⟩) <;> exact h rfl

/-- The first process forks before it maps a page. -/
theorem fork_whole_first : ∃ (s : ForkSys) (parent : Proc),
    ForkSucceeds s (doFork s (some parent) fun _ => 0).1 parent (doFork s (some parent) fun _ => 0).2 ∨
      ForkFails s (doFork s (some parent) fun _ => 0).1 (doFork s (some parent) fun _ => 0).2 := by
  obtain ⟨C, hw, hroom, hempty⟩ := bootMachine_process
  generalize (createUserPgd bootMachine).1 = m at *
  refine ⟨⟨m, 2, []⟩, ⟨1, 0, C, none, fun _ => 0⟩, ?_⟩
  have hC : (⟨1, 0, C, none, fun _ => 0⟩ : Proc).pgd ∈ ({C} : Finset Nat) := Finset.mem_singleton_self C
  refine (fork_whole_iff (s := ⟨m, 2, []⟩) hw (fun _ => Nat.two_pow_pos 63) hC fun _ => 0).mpr ⟨two_ne_zero, hroom, fun va _ hp => ?_⟩
  rw [hempty, ptePresent_zero] at hp
  cases hp

end Myos.Mm
