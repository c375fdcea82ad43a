/-
  Myos.Mm.Elf — the program loader (`rust/src/kernel/elf.rs`).

  `none` is the panic of a u64 addition or subtraction that overflows. Fields of the
  headers no function reads are left out, and so are the messages.

  Proved: loading keeps `World` and every entry of the trees of the other processes; the
  new tree leads to new frames only, and with user addresses only the kernel's entries
  are kept too.
-/

import Myos.Mm.UserPages

namespace Myos.Mm

open Pmm Lib.Walk Lib.Dyadic

/-- A byte slice: `bytes` is the memory from its pointer on, `len` what belongs to it. -/
structure Slice where
  bytes : Mem
  len : Nat

def read16 (m : Mem) (a : Nat) : Nat := (m a).toNat + (m (a + 1)).toNat * 2 ^ 8
def read32 (m : Mem) (a : Nat) : Nat := read16 m a + read16 m (a + 2) * 2 ^ 16

def etExec : Nat := 2
def emAarch64 : Nat := 183
def ptLoad : Nat := 1
def pfW : Nat := 2
def stackPages : Nat := 16

/-! ## Headers -/

def eType (data : Slice) : Nat := read16 data.bytes 16
def eMachine (data : Slice) : Nat := read16 data.bytes 18
def eEntry (data : Slice) : Nat := read64 data.bytes 24
def ePhoff (data : Slice) : Nat := read64 data.bytes 32
def ePhentsize (data : Slice) : Nat := read16 data.bytes 54
def ePhnum (data : Slice) : Nat := read16 data.bytes 56

structure Segment where
  vaddr : Nat
  memsz : Nat
  filesz : Nat
  offset : Nat
  flags : Nat

structure LoadedElf where
  entry : Nat
  stackTop : Nat
  pgd : Nat
  codePa : Nat
  codeVa : Nat
  codeEnd : Nat
  stackPa : Nat
  stackVa : Nat
  stackPages : Nat
  stackPas : List Nat
  phdrVa : Nat
  phnum : Nat

def validateElf (data : Slice) : Except String Unit :=
  if data.len < 64 then .error "ELF too short"
  else if data.bytes 0 ≠ 0x7F ∨ data.bytes 1 ≠ 0x45 ∨ data.bytes 2 ≠ 0x4C ∨ data.bytes 3 ≠ 0x46 then .error "bad magic"
  else if data.bytes 4 ≠ 2 then .error "not ELF64"
  else if data.bytes 5 ≠ 1 then .error "not LE"
  else if eType data ≠ etExec then .error "not ET_EXEC"
  else if eMachine data ≠ emAarch64 then .error "not AArch64"
  else .ok ()

/-- The loadable segments among the program headers `is`. -/
def parsePhdrs (data : Slice) (phoff phentsz : Nat) : (is : List Nat) → Option (List Segment)
  | [] => some []
  | i :: is =>
    (checkedAdd phoff (i * phentsz)).bind fun phdr =>
      (parsePhdrs data phoff phentsz is).map fun segs =>
        if read32 data.bytes phdr = ptLoad ∧ read64 data.bytes (phdr + 40) ≠ 0 then
          { vaddr := read64 data.bytes (phdr + 16), memsz := read64 data.bytes (phdr + 40),
            filesz := read64 data.bytes (phdr + 32), offset := read64 data.bytes (phdr + 8),
            flags := read32 data.bytes (phdr + 4) } :: segs
        else segs

def parseSegments (data : Slice) : Option (Except String (List Segment × Nat)) :=
  if ePhoff data = 0 ∨ ePhnum data = 0 then some (.error "no phdrs")
  else
    (parsePhdrs data (ePhoff data) (ePhentsize data) (List.range (ePhnum data))).map fun segs =>
      if segs.isEmpty then .error "no PT_LOAD" else .ok (segs, eEntry data)

def flagsToPageProt (pFlags : Nat) : Nat := if pFlags &&& pfW ≠ 0 then rustPageUserRw else rustPageUserRx

/-! ## Pages -/

/-- `switch_ttbr0`. -/
def Machine.switch (m : Machine) (pgd : Nat) : Machine := { m with ttbr0 := pgd }

def allocAndMapPage (m : Machine) (pgd va prot : Nat) : Machine × Except String Nat :=
  let r := m.allocPage gfpKernel
  if r.2 = 0 then (r.1, .error "alloc phys page failed")
  else
    let q := mapPage ((r.1.clearPage r.2).switch pgd) va r.2 prot
    let m := q.1.switch r.1.ttbr0
    if q.2 = 0 then (m, .ok r.2) else (m.putPage r.2, .error "map failed")

/-- `n` bytes of the slice at `pa`. -/
def copyBytes (m : Mem) (pa : Nat) (data : Slice) (foff n : Nat) : Mem :=
  fun x => if pa ≤ x ∧ x < pa + n then data.bytes (foff + (x - pa)) else m x

def Machine.copyIn (m : Machine) (pa : Nat) (data : Slice) (foff n : Nat) : Machine :=
  { m with mem := copyBytes m.mem pa data foff n }

/-- The file bytes of the page at offset `inSeg` of a segment. -/
def copySegment (m : Machine) (data : Slice) (seg : Segment) (pa inSeg : Nat) : Option Machine :=
  if inSeg < seg.filesz then
    (checkedAdd seg.offset inSeg).map fun foff =>
      m.copyIn pa data foff (min (min (seg.filesz - inSeg) pageSize) (data.len - foff))
  else some m

/-- The pages of a segment from `va` on, `n` of them. `first` is the first page of the
    program, address 0 when there is none yet. -/
def loadPages (m : Machine) (data : Slice) (pgd : Nat) (seg : Segment) (va : Nat) (first : Nat × Nat) :
    (n : Nat) → Option (Machine × Except String (Nat × Nat))
  | 0 => some (m, .ok first)
  | n + 1 =>
    match allocAndMapPage m pgd va (flagsToPageProt seg.flags) with
    | (m, .error e) => some (m, .error e)
    | (m, .ok pa) =>
      (copySegment m data seg pa (va - seg.vaddr)).bind fun m =>
        loadPages m data pgd seg (va + pageSize) (if first.1 = 0 then (pa, va) else first) n

/-- `(vaddr + memsz + 4095) & !4095`. -/
def segEnd (seg : Segment) : Option Nat := (checkedAdd seg.vaddr seg.memsz).bind alignUp

/-- The number of turns of `while va < stop`. -/
def pagesTo (va stop : Nat) : Nat := (stop - va + (pageSize - 1)) / pageSize

/-- `last` is the largest end so far. -/
def loadSegments (m : Machine) (data : Slice) (pgd : Nat) (first : Nat × Nat) (last : Nat) :
    (segs : List Segment) → Option (Machine × Except String ((Nat × Nat) × Nat))
  | [] => some (m, .ok (first, last))
  | seg :: segs =>
    (segEnd seg).bind fun stop =>
      (loadPages m data pgd seg seg.vaddr first (pagesTo seg.vaddr stop)).bind fun
        | (m, .error e) => some (m, .error e)
        | (m, .ok first) => loadSegments m data pgd first (max last stop) segs

def maxSegEnd : (segs : List Segment) → Option Nat
  | [] => some 0
  | seg :: segs => (checkedAdd seg.vaddr seg.memsz).bind fun stop => (maxSegEnd segs).map (max stop)

def findStackTop (segs : List Segment) : Option Nat :=
  (maxSegEnd segs).bind fun maxEnd =>
    (checkedAdd maxEnd 0x100000).map fun x => max ((x - 1) - (x - 1) % 0x100000) 0x80000000

/-- The stack pages from `va` on, `n` of them. -/
def loadStack (m : Machine) (pgd va : Nat) : (n : Nat) → Machine × Except String (List Nat)
  | 0 => (m, .ok [])
  | n + 1 =>
    match allocAndMapPage m pgd va rustPageUserRw with
    | (m, .error e) => (m, .error e)
    | (m, .ok pa) =>
      match loadStack m pgd (va + pageSize) n with
      | (m, .error e) => (m, .error e)
      | (m, .ok pas) => (m, .ok (pa :: pas))

/-- The pages of the program and of its stack, in the new tree. -/
def loadImage (m : Machine) (data : Slice) (pgd : Nat) (segs : List Segment) :
    Option (Machine × Except String ((Nat × Nat) × Nat × Nat × List Nat)) :=
  (loadSegments m data pgd (0, 0) 0 segs).bind fun
    | (m, .error e) => some (m, .error e)
    | (m, .ok (first, last)) =>
      (findStackTop segs).map fun stackTop =>
        match loadStack (m.switch pgd) pgd (stackTop - stackPages * pageSize) stackPages with
        -- the error leaves the new table in TTBR0
        | (m, .error e) => (m, .error e)
        | (m', .ok pas) => (m'.switch m.ttbr0, .ok (first, last, stackTop, pas))

def loadElf (m : Machine) (data : Slice) : Option (Machine × Except String LoadedElf) :=
  match validateElf data with
  | .error e => some (m, .error e)
  | .ok () =>
    (parseSegments data).bind fun
      | .error e => some (m, .error e)
      | .ok (segs, entry) =>
        match createUserPgd m with
        | (m, none) => some (m, .error "create pgd failed")
        | (m, some pgd) =>
          (loadImage m data pgd segs).bind fun
            | (m, .error e) => some (m, .error e)
            | (m, .ok (first, last, stackTop, pas)) =>
              let seg0 := segs.headD ⟨0, 0, 0, 0, 0⟩
              (checkedAdd seg0.vaddr (ePhoff data)).bind fun x =>
                if x < seg0.offset then none
                else
                  some (m, .ok
                    { entry := entry, stackTop := stackTop, pgd := pgd, codePa := first.1, codeVa := first.2,
                      codeEnd := last, stackPa := pas.headD 0, stackVa := stackTop, stackPages := stackPages,
                      stackPas := pas, phdrVa := x - seg0.offset, phnum := ePhnum data })

/-! ## The pages of the new tree -/

/-- A leaf entry written with the attributes `o`, or none. -/
def Shown : Option Nat → Nat → Prop
  | none, pte => ptePresent pte = false
  | some prot, pte => ∃ p, pte = mkPte prot (pfnToPa p)

/-- The user pages of the tree `r`: `f` gives the attributes of each by its number. -/
structure Shows (mem : Mem) (r : Nat) (f : Nat → Option Nat) : Prop where
  entry : ∀ va, isUserAddr va = true → Shown (f (va / pageSize)) (entryAt mem r (dirs va) (l3Index va))

/-- The pages `k`, …, `k + n - 1` get the attributes `prot`. -/
def withPages (f : Nat → Option Nat) (k n prot : Nat) : Nat → Option Nat :=
  fun x => if k ≤ x ∧ x < k + n then some prot else f x

/-- Whether a byte of the segment is in the page `k`. -/
def Segment.covers (seg : Segment) (k : Nat) : Bool :=
  decide (seg.vaddr < (k + 1) * pageSize ∧ k * pageSize < seg.vaddr + seg.memsz)

/-- What the last segment with a byte in the page `k` makes of it. -/
def segProt (k : Nat) (o : Option Nat) (segs : List Segment) : Option Nat :=
  segs.foldl (fun o seg => if seg.covers k then some (flagsToPageProt seg.flags) else o) o

/-- The pages of a loaded program, the stack below `stackTop` over its segments. -/
def imageProt (segs : List Segment) (stackTop : Nat) : Nat → Option Nat :=
  withPages (fun k => segProt k none segs) ((stackTop - stackPages * pageSize) / pageSize) stackPages rustPageUserRw

/-! ## The frames of the new tree -/

@[simp] theorem switch_mem (m : Machine) (r : Nat) : (m.switch r).mem = m.mem := rfl
@[simp] theorem switch_pmm (m : Machine) (r : Nat) : (m.switch r).pmm = m.pmm := rfl
@[simp] theorem switch_ttbr0 (m : Machine) (r : Nat) : (m.switch r).ttbr0 = r := rfl
@[simp] theorem switch_ttbr1 (m : Machine) (r : Nat) : (m.switch r).ttbr1 = m.ttbr1 := rfl

section

variable {m m' m0 : Machine} {R : Set Nat} {U : Finset Nat} {K : Set (Nat × Nat)} {ex ex0 rf : Nat → Nat} {new va : Nat}
  {user : Prop}

/-- Two user addresses have one leaf entry if they are in one page. -/
theorem user_path_iff {va' : Nat} (h : isUserAddr va = true) (h' : isUserAddr va' = true) :
    (dirs va' = dirs va ∧ l3Index va' = l3Index va) ↔ va' / pageSize = va / pageSize := by
  rw [isUserAddr_iff] at h h'
  rw [path_iff, Nat.shiftRight_eq_div_pow, Nat.shiftRight_eq_div_pow]
  unfold pageSize
  omega

theorem withPages_succ (f : Nat → Option Nat) (k n prot : Nat) :
    withPages (withPages f k 1 prot) (k + 1) n prot = withPages f k (n + 1) prot := by
  funext x
  unfold withPages
  split_ifs <;> first | rfl | omega

theorem Shows.congr {mem mem' : Mem} {r : Nat} {f : Nat → Option Nat} (h : Shows mem r f)
    (he : ∀ q : List Idx, q.length = 3 → ∀ i, entryAt mem' r q i = entryAt mem r q i) : Shows mem' r f := by
  refine ⟨fun va hu => ?_⟩
  rw [he (dirs va) rfl]
  exact h.entry va hu

/-- One entry was written, in the tree `r` or for an address above the user half. -/
theorem Shows.wrote {r t p prot : Nat} {f : Nat → Option Nat} (h : Shows m.mem r f) (hr : r ∈ R)
    (ht : isUserAddr va = true ∧ t = r ∨ isUserAddr va = false ∧ t ≠ r)
    (hW : Wrote R rf m m' t (dirs va) (l3Index va) (mkPte prot (pfnToPa p))) :
    Shows m'.mem r (withPages f (va / pageSize) 1 prot) := by
  refine ⟨fun va' hu' => ?_⟩
  rw [hW.entry r hr (dirs va') rfl (l3Index va')]
  unfold withPages
  rcases ht with ⟨hu, rfl⟩ | ⟨hu, hne⟩
  · by_cases hk : va' / pageSize = va / pageSize
    · rw [if_pos (by omega), if_pos ⟨rfl, (user_path_iff hu hu').mpr hk⟩]
      exact ⟨p, rfl⟩
    · rw [if_neg (by omega), if_neg fun e => hk ((user_path_iff hu hu').mp e.2)]
      exact h.entry va' hu'
  · have hlo := (isUserAddr_iff va').mp hu'
    have hhi : ¬ va < 2 ^ 47 := fun hlt => by rw [(isUserAddr_iff va).mpr hlt] at hu; cases hu
    rw [if_neg (by unfold pageSize; omega), if_neg fun e => hne e.1.symm]
    exact h.entry va' hu'

theorem Owned.switch (h : Owned m R K rf) (r : Nat) : Owned (m.switch r) R K rf :=
  ⟨h.sound, h.forest, h.table, h.owner, h.block, h.frame⟩

theorem World.switch (h : World m U K ex) (r : Nat) : World (m.switch r) U K ex :=
  ⟨h.owned.switch r, h.kernel, h.managed, h.leaf⟩

/-- `m` is `m0` with a tree `new` under construction. Of the pages it leads to none was
    in use in `m0`; `user`: every address so far was a user one. -/
structure Loading (U : Finset Nat) (K : Set (Nat × Nat)) (m0 : Machine) (ex0 : Nat → Nat) (new : Nat) (user : Prop)
    (m : Machine) (ex : Nat → Nat) : Prop where
  world : World m (insert new U) K ex
  ttbr1 : m.ttbr1 = m0.ttbr1
  walks : ∀ r ∈ U, ∀ q : List Idx, q.length ≤ 3 → walk (child m.mem) r q = walk (child m0.mem) r q
  entry : ∀ r ∈ U, ∀ q : List Idx, q.length = 3 → ∀ i, entryAt m.mem r q i = entryAt m0.mem r q i
  kernel : user → ∀ q : List Idx, q.length = 3 → ∀ i, entryAt m.mem m0.ttbr1 q i = entryAt m0.mem m0.ttbr1 q i
  apart : ∀ p, 0 < refs m0.mem U ex0 p → ex p = ex0 p ∧ ∀ q : List Idx, q.length = 3 → ∀ i,
    leadsTo (entryAt m.mem new q i) p = 0

theorem Loading.switch (h : Loading U K m0 ex0 new user m ex) (r : Nat) :
    Loading U K m0 ex0 new user (m.switch r) ex := ⟨h.world.switch r, h.ttbr1, h.walks, h.entry, h.kernel, h.apart⟩

/-- A page in use before is in use now. -/
theorem Loading.refs_pos (h : Loading U K m0 ex0 new user m ex) (hn : new ∉ U) {p : Nat}
    (hp : 0 < refs m0.mem U ex0 p) : 0 < refs m.mem (insert new U) ex p := by
  have h1 := leafCount_entries (m := m0) h.entry (pfnToPa p)
  have h2 : leafCount (child m.mem) (insert new U) 4 (pfnToPa p) = _ := leafCount_insert hn (pfnToPa p)
  have h3 := (h.apart p hp).1
  unfold refs at hp ⊢
  omega

/-- A step of the loader that changes no entry. -/
theorem Loading.quiet (h : Loading U K m0 ex0 new user m ex) (hw : World m' (insert new U) K ex)
    (hQ : Quiet (roots m (insert new U)) rf m m')
    (hg : ∀ r ∈ U, ∀ q : List Idx, q.length ≤ 3 → walk (child m'.mem) r q = walk (child m.mem) r q) : Loading U K m0 ex0 new user m' ex := by
  have hnew : new ∈ roots m (insert new U) := mem_roots (Finset.mem_insert_self _ _)
  refine ⟨hw, hQ.ttbr1.trans h.ttbr1, fun r hr q hq => (hg r hr q hq).trans (h.walks r hr q hq), fun r hr q hq i => ?_,
    fun hu q hq i => ?_, fun p hp => ?_⟩
  · rw [hQ.entry r (mem_roots (Finset.mem_insert_of_mem hr)) q hq i]; exact h.entry r hr q hq i
  · rw [hQ.entry m0.ttbr1 (by rw [← h.ttbr1]; exact kernel_mem_roots) q hq i]; exact h.kernel hu q hq i
  · refine ⟨(h.apart p hp).1, fun q hq i => ?_⟩
    rw [hQ.entry new hnew q hq i]; exact (h.apart p hp).2 q hq i

/-- A step of the loader that gives the page `p` an entry. -/
theorem Loading.wrote (h : Loading U K m0 ex0 new user m ex) (hn : new ∉ U) {r v p : Nat} {q : List Idx} {i : Idx}
    {ex' : Nat → Nat} (hw : World m' (insert new U) K ex') (hW : Wrote (roots m (insert new U)) rf m m' r q i v)
    (hg : ∀ r ∈ U, ∀ q : List Idx, q.length ≤ 3 → walk (child m'.mem) r q = walk (child m.mem) r q) (hr : r = new ∨ r = m0.ttbr1 ∧ ¬ user) (hv : ∀ x, x ≠ p → leadsTo v x = 0)
    (hp : refs m.mem (insert new U) ex p = 0)
    (hex : ∀ x, 0 < refs m0.mem U ex0 x → x ≠ p → ex' x = ex x) : Loading U K m0 ex0 new user m' ex' := by
  have hnew : new ∈ roots m (insert new U) := mem_roots (Finset.mem_insert_self _ _)
  have hk : m0.ttbr1 ∉ insert new U := by rw [← h.ttbr1]; exact h.world.kernel
  refine ⟨hw, hW.ttbr1.trans h.ttbr1, fun r hr q hq => (hg r hr q hq).trans (h.walks r hr q hq),
    fun r' hr' q' hq' j => ?_, fun hu q' hq' j => ?_, fun x hx => ?_⟩
  · rw [hW.entry r' (mem_roots (Finset.mem_insert_of_mem hr')) q' hq' j, if_neg]
    · exact h.entry r' hr' q' hq' j
    rintro ⟨rfl, -⟩
    rcases hr with rfl | ⟨rfl, -⟩
    · exact hn hr'
    · exact hk (Finset.mem_insert_of_mem hr')
  · rw [hW.entry m0.ttbr1 (by rw [← h.ttbr1]; exact kernel_mem_roots) q' hq' j, if_neg]
    · exact h.kernel hu q' hq' j
    rintro ⟨e, -⟩
    rcases hr with rfl | ⟨-, hnu⟩
    · exact hk (e ▸ Finset.mem_insert_self _ _)
    · exact hnu hu
  · have hne : x ≠ p := by rintro rfl; have := h.refs_pos hn hx; omega
    refine ⟨(hex x hx hne).trans (h.apart x hx).1, fun q' hq' j => ?_⟩
    rw [hW.entry new hnew q' hq' j]
    split
    · exact hv x hne
    · exact (h.apart x hx).2 q' hq' j

theorem Quiet.switched {r : Nat} (h : Quiet R rf (m.switch r) m') : Quiet R rf m (m'.switch m.ttbr0) :=
  ⟨rfl, h.ttbr1, h.entry, h.page, h.start, h.grown⟩

theorem Wrote.switched {r r' v : Nat} {q : List Idx} {i : Idx} (h : Wrote R rf (m.switch r) m' r' q i v) :
    Wrote R rf m (m'.switch m.ttbr0) r' q i v := ⟨rfl, h.ttbr1, h.entry, h.page, h.start, h.grown⟩

/-- One page: it fails and changes no entry, or a new frame is mapped at `va`. -/
theorem Loading.allocAndMapPage (h : Loading U K m0 ex0 new user m ex) (hn : new ∉ U) {prot : Nat} (hp : ProtOk prot)
    (hu : user → isUserAddr va = true) :
    ∃ ex', Loading U K m0 ex0 new user (allocAndMapPage m new va prot).1 ex' ∧
      (allocAndMapPage m new va prot).1.ttbr0 = m.ttbr0 ∧
      ∀ pa, (allocAndMapPage m new va prot).2 = .ok pa →
        (∃ p, pa = pfnToPa p ∧ 0 < refs (allocAndMapPage m new va prot).1.mem (insert new U) ex' p) ∧
        ∀ f, Shows m.mem new f →
          Shows (allocAndMapPage m new va prot).1.mem new (withPages f (va / pageSize) 1 prot) := by
  have hw := h.world
  rcases allocPage_cases hw.owned (show gfpKernel &&& gfpDma = 0 by decide) with ⟨he, hs, -⟩ | ⟨p, hpa, hN⟩
  · rw [Mm.allocAndMapPage, if_pos he]
    have hm : (m.allocPage gfpKernel).1.mem = m.mem := withPmm_mem m _
    exact ⟨ex, h.quiet (hw.step hs) hs.quiet fun _ _ _ _ => by rw [hm], hs.quiet.ttbr0, nofun⟩
  have hP : Prepared (roots m (insert new U)) K (refs m.mem (insert new U) ex) m
      ((m.allocPage gfpKernel).1.clearPage (pfnToPa p)) p fun x =>
        zeroPage (m.allocPage gfpKernel).1.mem (pfnToPa p) (pfnToPa p + x) := hN.prepare fun x hx => zeroPage_other hx
  rw [Mm.allocAndMapPage, hpa, if_neg (pfnToPa_ne_zero p), hN.ttbr0, ← hP.quiet.ttbr0]
  generalize (m.allocPage gfpKernel).1.clearPage (pfnToPa p) = m1 at *
  have hl : (m1.switch new).l0Table va = if isUserAddr va = true then new else m.ttbr1 := by
    unfold Machine.l0Table
    rw [switch_ttbr0, switch_ttbr1, hP.quiet.ttbr1]
  have hR : (m1.switch new).l0Table va ∈ roots m (insert new U) := by
    rw [hl]
    split
    · exact mem_roots (Finset.mem_insert_self _ _)
    · exact kernel_mem_roots
  generalize hrf : refs m.mem (insert new U) ex = rf at *
  have hQ0 : Quiet (roots m (insert new U)) (fun _ => 0) m m1 := hP.quiet.frames fun x hx => absurd hx (lt_irrefl 0)
  -- the trees of the other processes are not on the way
  have hgrow : Grew _ _ (mapPage (m1.switch new) va (pfnToPa p) prot).1 _ _ :=
    (mapPage_grows (hP.owned.switch new) hR hp.lt).1
  have hg : ∀ r ∈ U, ∀ q : List Idx, q.length ≤ 3 →
      walk (child (mapPage (m1.switch new) va (pfnToPa p) prot).1.mem) r q = walk (child m.mem) r q := by
    intro r hr q hq
    have hrR : r ∈ roots m (insert new U) := mem_roots (Finset.mem_insert_of_mem hr)
    rw [hgrow r hrR q hq fun e => ?_, switch_mem, hP.walks r hrR q hq]
    rw [hl] at e
    split at e
    · exact hn (e.1 ▸ hr)
    · exact hw.kernel (e.1 ▸ Finset.mem_insert_of_mem hr)
  rcases mapPage_spec (hP.owned.switch new) hR hp.lt with ⟨he, hs⟩ | ⟨he, ho, hW⟩
  · -- the page is given back
    rw [if_neg (by rw [he]; decide)]
    generalize (mapPage (m1.switch new) va (pfnToPa p) prot).1 = m2 at *
    have hp1 : Function.update rf p 1 p = 1 := Function.update_self _ _ _
    obtain ⟨ho, -⟩ := (hs.owned.switch m1.ttbr0).putPage (p := p) (by rw [hp1]; exact Nat.one_pos)
    rw [hp1, Function.update_idem, show Function.update rf p (1 - 1) = rf by
      rw [Nat.sub_self, ← hP.fresh, Function.update_eq_self]] at ho
    have hf : ∀ x, 0 < rf x → 0 < Function.update rf p 1 x := by
      intro x hx
      by_cases e : x = p
      · rw [e, hp1]; exact Nat.one_pos
      · rwa [Function.update_of_ne e]
    have hQ : Quiet (roots m (insert new U)) rf m ((m2.switch m1.ttbr0).putPage (pfnToPa p)) :=
      (hP.quiet.trans (hs.quiet.switched.frames hf)).trans (Quiet.withPmm (putPage_start _ _))
    have hw' : World ((m2.switch m1.ttbr0).putPage (pfnToPa p)) (insert new U) K ex :=
      hw.step (by rw [hrf]; exact ⟨ho, hQ⟩)
    exact ⟨ex, h.quiet hw' hQ fun r hr q hq => by rw [putPage_mem, switch_mem]; exact hg r hr q hq,
      hQ.ttbr0.trans hP.quiet.ttbr0.symm, nofun⟩
  · rw [if_pos he]
    generalize (mapPage (m1.switch new) va (pfnToPa p) prot).1 = m2 at *
    have hW0 : Wrote (roots m (insert new U)) (fun _ => 0) m (m2.switch m1.ttbr0) ((m1.switch new).l0Table va) (dirs va)
        (l3Index va) (mkPte prot (pfnToPa p)) :=
      hQ0.wrote (hW.switched.frames fun x hx => absurd hx (lt_irrefl 0))
    have ho' := ho.switch m1.ttbr0
    have hpu := (ho'.frame_iff p).mp (by rw [Function.update_self]; exact Nat.one_pos)
    have hmk := leadsTo_mkPte (p := p) hp hP.lt
    have hv : ∀ x, x ≠ p → leadsTo (mkPte prot (pfnToPa p)) x = 0 := fun x hx => by rw [hmk, if_neg hx]
    have hfresh : refs m.mem (insert new U) ex p = 0 := by rw [hrf]; exact hP.fresh
    have hroot : isUserAddr va = true ∧ (m1.switch new).l0Table va = new ∨
        isUserAddr va = false ∧ (m1.switch new).l0Table va ≠ new := by
      cases hua : isUserAddr va with
      | true => exact Or.inl ⟨rfl, by rw [hl, if_pos hua]⟩
      | false =>
        refine Or.inr ⟨rfl, fun e => hw.kernel ?_⟩
        rw [hl, hua, if_neg Bool.false_ne_true] at e
        exact e ▸ Finset.mem_insert_self _ _
    -- whichever tree the entry is in, `p` is a frame in use now
    have fin : ∀ ex', World (m2.switch m1.ttbr0) (insert new U) K ex' →
        Loading U K m0 ex0 new user (m2.switch m1.ttbr0) ex' →
        ∃ ex', Loading U K m0 ex0 new user (m2.switch m1.ttbr0) ex' ∧ (m2.switch m1.ttbr0).ttbr0 = m1.ttbr0 ∧
          ∀ pa, (Except.ok (pfnToPa p) : Except String Nat) = .ok pa →
            (∃ p, pa = pfnToPa p ∧ 0 < refs (m2.switch m1.ttbr0).mem (insert new U) ex' p) ∧
            ∀ f, Shows m.mem new f → Shows (m2.switch m1.ttbr0).mem new (withPages f (va / pageSize) 1 prot) := by
      intro ex' hw' hL
      refine ⟨ex', hL, rfl, fun pa e => ⟨⟨p, by cases e; rfl, (hw'.owned.frame_iff p).mpr ?_⟩, fun f hf => ?_⟩⟩
      · rw [roots, hW0.ttbr1]; exact hpu
      · exact hf.wrote (mem_roots (Finset.mem_insert_self _ _)) hroot hW0
    by_cases hua : isUserAddr va = true
    · rw [hl, if_pos hua] at hW0
      have hnew : new ∈ insert new U := Finset.mem_insert_self _ _
      have hw' : World (m2.switch m1.ttbr0) (insert new U) K
          fun x => ex x + leadsTo (entryAt m.mem new (dirs va) (l3Index va)) x := by
        refine hw.write hnew (q := dirs va) rfl (leafOk_mkPte hp hP.lt) ho' hW0 fun x => ?_
        rw [hmk, hrf]
        by_cases e : x = p
        · rw [e, Function.update_self, if_pos rfl, hP.fresh]; omega
        · rw [Function.update_of_ne e, if_neg e]; omega
      refine fin _ hw' (h.wrote hn hw' hW0 hg (Or.inl rfl) hv hfresh fun x hx _ => ?_)
      rw [(h.apart x hx).2 (dirs va) rfl, Nat.add_zero]
    · rw [hl, if_neg hua] at hW0
      have hrf' : refs m.mem (insert new U) (Function.update ex p 1) = Function.update rf p 1 := by
        funext x
        by_cases e : x = p
        · subst e
          rw [Function.update_self]
          unfold refs at hfresh ⊢
          rw [Function.update_self]
          omega
        · rw [Function.update_of_ne e, ← hrf]
          unfold refs
          rw [Function.update_of_ne e]
      have hw' : World (m2.switch m1.ttbr0) (insert new U) K (Function.update ex p 1) :=
        hw.writeKernel (by rw [hrf']; exact ho') hW0
      refine fin _ hw' (h.wrote hn hw' hW0 hg (Or.inr ⟨h.ttbr1, fun hus => hua (hu hus)⟩) hv hfresh fun x _ hx => ?_)
      exact Function.update_of_ne hx _ _

/-! ## The loader -/

theorem flagsToPageProt_ok (pFlags : Nat) : ProtOk (flagsToPageProt pFlags) := by
  unfold flagsToPageProt
  split
  · exact rustPageUserRw_ok
  · exact rustPageUserRx_ok

/-- Filling a page that is in use. -/
theorem Loading.fill (h : Loading U K m0 ex0 new user m ex) {p : Nat} (hp : 0 < refs m.mem (insert new U) ex p)
    {mem : Mem} (hm : ∀ x, x < pfnToPa p ∨ pfnToPa p + pageSize ≤ x → mem x = m.mem x) :
    Loading U K m0 ex0 new user { m with mem := mem } ex ∧ ∀ f, Shows m.mem new f → Shows mem new f := by
  obtain ⟨hw, hwalk, hent⟩ := h.world.fill hp hm
  have hnew := hent new (mem_roots (Finset.mem_insert_self _ _))
  refine ⟨⟨hw, h.ttbr1, fun r hr q hq => ?_, fun r hr q hq i => ?_, fun hu q hq i => ?_,
    fun x hx => ⟨(h.apart x hx).1, fun q hq i => ?_⟩⟩, fun f hf => hf.congr hnew⟩
  · rw [withMem_mem, hwalk r (mem_roots (Finset.mem_insert_of_mem hr)) q hq]
    exact h.walks r hr q hq
  · rw [withMem_mem, hent r (mem_roots (Finset.mem_insert_of_mem hr)) q hq i]
    exact h.entry r hr q hq i
  · rw [withMem_mem, hent m0.ttbr1 (by rw [← h.ttbr1]; exact kernel_mem_roots) q hq i]
    exact h.kernel hu q hq i
  · rw [withMem_mem, hnew q hq i]
    exact (h.apart x hx).2 q hq i

theorem Loading.copySegment (h : Loading U K m0 ex0 new user m ex) {data : Slice} {seg : Segment} {p inSeg : Nat}
    (hp : 0 < refs m.mem (insert new U) ex p) (hc : copySegment m data seg (pfnToPa p) inSeg = some m') :
    Loading U K m0 ex0 new user m' ex ∧ m'.ttbr0 = m.ttbr0 ∧ ∀ f, Shows m.mem new f → Shows m'.mem new f := by
  unfold Mm.copySegment at hc
  split at hc
  case isFalse => cases hc; exact ⟨h, rfl, fun _ hf => hf⟩
  case isTrue =>
    obtain ⟨foff, -, rfl⟩ := Option.map_eq_some_iff.mp hc
    have hout : ∀ x, x < pfnToPa p ∨ pfnToPa p + pageSize ≤ x → copyBytes m.mem (pfnToPa p) data foff
        (min (min (seg.filesz - inSeg) pageSize) (data.len - foff)) x = m.mem x := by
      intro x hx
      unfold copyBytes
      rw [if_neg (by omega)]
    obtain ⟨h1, hf⟩ := h.fill hp hout
    exact ⟨h1, withMem_ttbr0 m _, hf⟩

theorem Loading.loadPages (hn : new ∉ U) {data : Slice} {seg : Segment} (n : Nat) :
    ∀ {m m' : Machine} {ex : Nat → Nat} {va : Nat} {first : Nat × Nat} {r : Except String (Nat × Nat)},
      Loading U K m0 ex0 new user m ex → (user → ∀ j, j < n → va + j * pageSize < 2 ^ 47) →
      loadPages m data new seg va first n = some (m', r) →
      ∃ ex', Loading U K m0 ex0 new user m' ex' ∧ m'.ttbr0 = m.ttbr0 ∧
        ∀ r', r = .ok r' → ∀ f, Shows m.mem new f →
          Shows m'.mem new (withPages f (va / pageSize) n (flagsToPageProt seg.flags)) := by
  induction n with
  | zero =>
    intro m m' ex va first r h _ he
    cases he
    refine ⟨ex, h, rfl, fun _ _ f hf => ?_⟩
    rwa [show withPages f (va / pageSize) 0 (flagsToPageProt seg.flags) = f from funext fun x => if_neg (by omega)]
  | succ n ih =>
    intro m m' ex va first r h hu he
    obtain ⟨ex1, h1, ht1, hok⟩ := h.allocAndMapPage hn (flagsToPageProt_ok seg.flags) fun hus =>
      (isUserAddr_iff va).mpr (by have := hu hus 0 (by omega); omega)
    unfold Mm.loadPages at he
    rcases hr : Mm.allocAndMapPage m new va (flagsToPageProt seg.flags) with ⟨m1, e | pa⟩ <;> rw [hr] at he h1 ht1 hok
    · cases he
      exact ⟨ex1, h1, ht1, nofun⟩
    · obtain ⟨m2, hc, he⟩ := Option.bind_eq_some_iff.mp he
      obtain ⟨⟨p, rfl, hp⟩, hf1⟩ := hok pa rfl
      obtain ⟨h2, ht2, hf2⟩ := h1.copySegment hp hc
      obtain ⟨ex3, h3, ht3, hf3⟩ := ih h2
        (fun hus j hj => by have := hu hus (j + 1) (by omega); rw [Nat.succ_mul] at this; omega) he
      refine ⟨ex3, h3, ht3.trans (ht2.trans ht1), fun r' hr' f hf => ?_⟩
      have := hf3 r' hr' _ (hf2 _ (hf1 f hf))
      rwa [Nat.add_div_right va (show 0 < pageSize by decide), withPages_succ] at this

/-- Every page of the segments and of the stack is in the user half. -/
structure UserSegments (segs : List Segment) : Prop where
  seg : ∀ seg ∈ segs, ∀ stop, segEnd seg = some stop → stop ≤ 2 ^ 47
  stack : ∀ top, findStackTop segs = some top → top ≤ 2 ^ 47

theorem pagesTo_lt {va stop j : Nat} (h : j < pagesTo va stop) : va + j * pageSize < stop := by
  unfold pagesTo pageSize at *
  omega

/-- The pages of a segment are those with a byte of it. -/
theorem withPages_segment {seg : Segment} {stop : Nat} (h : segEnd seg = some stop) (f : Nat → Option Nat) (prot : Nat) :
    withPages f (seg.vaddr / pageSize) (pagesTo seg.vaddr stop) prot = fun k => if seg.covers k then some prot else f k := by
  obtain ⟨x, hx, h⟩ := Option.bind_eq_some_iff.mp h
  obtain ⟨y, hy, rfl⟩ := Option.map_eq_some_iff.mp h
  unfold checkedAdd at hx hy
  split at hx <;> cases hx
  split at hy <;> cases hy
  funext k
  unfold withPages Segment.covers pagesTo pageSize
  exact if_congr (by rw [decide_eq_true_eq]; omega) rfl rfl

theorem Loading.loadSegments (hn : new ∉ U) {data : Slice} : ∀ (segs : List Segment) {m m' : Machine} {ex : Nat → Nat}
    {first : Nat × Nat} {last : Nat} {r : Except String ((Nat × Nat) × Nat)}, Loading U K m0 ex0 new user m ex →
      (user → ∀ seg ∈ segs, ∀ stop, segEnd seg = some stop → stop ≤ 2 ^ 47) →
      loadSegments m data new first last segs = some (m', r) →
      ∃ ex', Loading U K m0 ex0 new user m' ex' ∧ m'.ttbr0 = m.ttbr0 ∧
        ∀ r', r = .ok r' → ∀ f, Shows m.mem new f → Shows m'.mem new fun k => segProt k (f k) segs := by
  intro segs
  induction segs with
  | nil =>
    intro m m' ex first last r h _ he
    cases he
    exact ⟨ex, h, rfl, fun _ _ f hf => hf⟩
  | cons seg segs ih =>
    intro m m' ex first last r h hu he
    unfold Mm.loadSegments at he
    obtain ⟨stop, hs, he⟩ := Option.bind_eq_some_iff.mp he
    obtain ⟨⟨m1, r1⟩, hp, he⟩ := Option.bind_eq_some_iff.mp he
    obtain ⟨ex1, h1, ht1, hf1⟩ := Loading.loadPages hn _ h (fun hus j hj => by
      have := hu hus seg (List.mem_cons_self ..) stop hs
      have := pagesTo_lt hj
      omega) hp
    cases r1 with
    | error e => cases he; exact ⟨ex1, h1, ht1, nofun⟩
    | ok first1 =>
      obtain ⟨ex2, h2, ht2, hf2⟩ := ih h1 (fun hus s hs => hu hus s (List.mem_cons_of_mem _ hs)) he
      refine ⟨ex2, h2, ht2.trans ht1, fun r' hr' f hf => ?_⟩
      have := hf2 r' hr' _ (hf1 first1 rfl f hf)
      rwa [withPages_segment hs] at this

theorem Loading.loadStack (hn : new ∉ U) (n : Nat) : ∀ {m : Machine} {ex : Nat → Nat} {va : Nat},
    Loading U K m0 ex0 new user m ex → (user → ∀ j, j < n → va + j * pageSize < 2 ^ 47) →
      ∃ ex', Loading U K m0 ex0 new user (loadStack m new va n).1 ex' ∧ (loadStack m new va n).1.ttbr0 = m.ttbr0 ∧
        ∀ pas, (loadStack m new va n).2 = .ok pas →
          (pas.length = n ∧ ∀ pa ∈ pas.getLast?, ∃ p, pa = pfnToPa p ∧
            0 < refs (loadStack m new va n).1.mem (insert new U) ex' p) ∧
          ∀ f, Shows m.mem new f →
            Shows (loadStack m new va n).1.mem new (withPages f (va / pageSize) n rustPageUserRw) := by
  induction n with
  | zero =>
    intro m ex va h _
    refine ⟨ex, h, rfl, fun pas hpas => ?_⟩
    cases hpas
    refine ⟨⟨rfl, nofun⟩, fun f hf => ?_⟩
    rwa [show withPages f (va / pageSize) 0 rustPageUserRw = f from funext fun x => if_neg (by omega)]
  | succ n ih =>
    intro m ex va h hu
    obtain ⟨ex1, h1, ht1, hok⟩ := h.allocAndMapPage hn rustPageUserRw_ok fun hus =>
      (isUserAddr_iff va).mpr (by have := hu hus 0 (by omega); omega)
    unfold Mm.loadStack
    rcases hr : Mm.allocAndMapPage m new va rustPageUserRw with ⟨m1, e | pa⟩ <;> rw [hr] at h1 ht1 hok
    · exact ⟨ex1, h1, ht1, nofun⟩
    · obtain ⟨ex2, h2, ht2, hok2⟩ := @ih _ _ (va + pageSize) h1 fun hus j hj => by
        have := hu hus (j + 1) (by omega)
        rw [Nat.succ_mul] at this
        omega
      obtain ⟨⟨p, rfl, hp⟩, hf1⟩ := hok pa rfl
      dsimp only
      rcases hs : Mm.loadStack m1 new (va + pageSize) n with ⟨m2, e | pas⟩ <;> rw [hs] at h2 ht2 hok2
      · exact ⟨ex2, h2, ht2.trans ht1, nofun⟩
      · obtain ⟨⟨hlen, hlast⟩, hf2⟩ := hok2 pas rfl
        have hshow : ∀ f, Shows m.mem new f → Shows m2.mem new (withPages f (va / pageSize) (n + 1) rustPageUserRw) := by
          intro f hf
          have := hf2 _ (hf1 f hf)
          rwa [Nat.add_div_right va (show 0 < pageSize by decide), withPages_succ] at this
        cases pas with
        | nil =>
          -- the page just mapped is the last
          subst hlen
          cases hs
          refine ⟨ex1, h1, ht1, fun pas' hpas => ?_⟩
          cases hpas
          exact ⟨⟨rfl, fun pa hpa => by cases hpa; exact ⟨p, rfl, hp⟩⟩, hshow⟩
        | cons a l =>
          refine ⟨ex2, h2, ht2.trans ht1, fun pas' hpas => ?_⟩
          cases hpas
          exact ⟨⟨by rw [List.length_cons, hlen], fun pa hpa => hlast pa (by rwa [List.getLast?_cons_cons] at hpa)⟩, hshow⟩

/-- The image is built in the new tree; only a stack page that fails leaves the new table
    in TTBR0. -/
theorem Loading.loadImage (h : Loading U K m0 ex0 new user m ex) (hn : new ∉ U) {data : Slice} {segs : List Segment}
    {r : Except String ((Nat × Nat) × Nat × Nat × List Nat)} (hu : user → UserSegments segs)
    (he : loadImage m data new segs = some (m', r)) :
    ∃ ex', Loading U K m0 ex0 new user m' ex' ∧ (m'.ttbr0 = m.ttbr0 ∨ m'.ttbr0 = new ∧ ∃ e, r = .error e) ∧
      ∀ r', r = .ok r' → findStackTop segs = some r'.2.2.1 ∧
        (r'.2.2.2.length = stackPages ∧ ∀ pa ∈ r'.2.2.2.getLast?, ∃ p, pa = pfnToPa p ∧
          0 < refs m'.mem (insert new U) ex' p) ∧
        (Shows m.mem new (fun _ => none) → Shows m'.mem new (imageProt segs r'.2.2.1)) := by
  unfold Mm.loadImage at he
  obtain ⟨⟨m1, r1⟩, hs, he⟩ := Option.bind_eq_some_iff.mp he
  obtain ⟨ex1, h1, ht1, hf1⟩ := Loading.loadSegments hn segs h (fun hus => (hu hus).seg) hs
  cases r1 with
  | error e => cases he; exact ⟨ex1, h1, Or.inl ht1, nofun⟩
  | ok r1 =>
    obtain ⟨top, htop, he⟩ := Option.map_eq_some_iff.mp he
    obtain ⟨ex2, h2, ht2, hok⟩ := @Loading.loadStack _ _ _ _ _ _ hn stackPages _ _ (top - stackPages * pageSize) (h1.switch new)
      fun hus j hj => by
        have := (hu hus).stack top htop
        unfold stackPages pageSize at *
        omega
    rcases hl : Mm.loadStack (m1.switch new) new (top - stackPages * pageSize) stackPages with ⟨m2, e | pas⟩ <;>
      rw [hl] at he h2 ht2 hok
    · cases he
      exact ⟨ex2, h2, Or.inr ⟨ht2, e, rfl⟩, nofun⟩
    · cases he
      obtain ⟨hpas, hf2⟩ := hok pas rfl
      refine ⟨ex2, h2.switch _, Or.inl ht1, fun r' hr' => ?_⟩
      cases hr'
      exact ⟨htop, hpas, fun hf => hf2 _ (hf1 r1 rfl _ hf)⟩

/-- Every page of the program in the file is in the user half. -/
def UserImage (data : Slice) : Prop := ∀ segs entry, parseSegments data = some (.ok (segs, entry)) → UserSegments segs

/-- A new tree shows no page. -/
theorem shows_none {mem : Mem} {r : Nat} (hz : ∀ j : Idx, read64 mem (r + 8 * j) = 0) : Shows mem r fun _ => none := by
  refine ⟨fun va _ => ?_⟩
  have hc : ∀ j, child mem r j = none := fun j => child_none_of_zero (hz j)
  show ptePresent (entryAt mem r (dirs va) (l3Index va)) = false
  rw [entryAt_none (walk_childless hc (by unfold dirs; simp)), ptePresent_zero]

theorem World.loading (hw : World m (insert new U) K ex) (hQ : Quiet (roots m0 U) (refs m0.mem U ex) m0 m)
    (hg : ∀ r ∈ roots m0 U, ∀ q : List Idx, q.length ≤ 3 → walk (child m.mem) r q = walk (child m0.mem) r q)
    (hz : ∀ j : Idx, read64 m.mem (new + 8 * j) = 0) : Loading U K m0 ex new user m ex := by
  have hcz : ∀ j, child m.mem new j = none := fun j => child_none_of_zero (hz j)
  refine ⟨hw, hQ.ttbr1, fun r hr => hg r (mem_roots hr), fun r hr => hQ.entry r (mem_roots hr), fun _ => hQ.entry _ kernel_mem_roots,
    fun p _ => ⟨rfl, fun q hq i => ?_⟩⟩
  rw [entryAt_none (walk_childless hcz (by rintro rfl; cases hq))]
  exact leadsTo_zero p

/-- `load_elf` changes no entry of another tree. Either it made no tree, or it made one
    that is part of the world from then on. -/
theorem World.loadElf (hw : World m U K ex) {data : Slice} {r : Except String LoadedElf} (hu : user → UserImage data)
    (he : loadElf m data = some (m', r)) :
    (World m' U K ex ∧ Quiet (roots m U) (refs m.mem U ex) m m' ∧ ∃ e, r = .error e) ∨
    ∃ new ex', new ∉ U ∧ Loading U K m ex new user m' ex' ∧
      (∀ l, r = .ok l → l.pgd = new ∧ m'.ttbr0 = m.ttbr0 ∧
        (l.stackPas.length = stackPages ∧ ∀ pa ∈ l.stackPas.getLast?, ∃ p, pa = pfnToPa p ∧
          0 < refs m'.mem (insert new U) ex' p) ∧
        ∃ segs, parseSegments data = some (.ok (segs, l.entry)) ∧ Shows m'.mem new (imageProt segs l.stackTop)) ∧
      (m'.ttbr0 = m.ttbr0 ∨ m'.ttbr0 = new) := by
  unfold Mm.loadElf at he
  cases hv : validateElf data with
  | error e =>
    rw [hv] at he; cases he
    exact Or.inl ⟨hw, Quiet.rfl' m, e, rfl⟩
  | ok _ =>
    rw [hv] at he
    obtain ⟨rp, hp, he⟩ := Option.bind_eq_some_iff.mp he
    cases rp with
    | error e => cases he; exact Or.inl ⟨hw, Quiet.rfl' m, e, rfl⟩
    | ok rp =>
      obtain ⟨segs, entry⟩ := rp
      rcases hw.newPgd with ⟨e, h, hQ⟩ | ⟨p, e, hnR, h, hQ, hg, hz⟩
      · rcases hc : createUserPgd m with ⟨m1, o⟩
        rw [hc] at e h hQ
        obtain rfl : o = none := e
        simp only [hc] at he
        cases he
        exact Or.inl ⟨h, hQ, _, rfl⟩
      · rcases hc : createUserPgd m with ⟨m1, o⟩
        rw [hc] at e h hQ hg hz
        obtain rfl : o = some (pfnToPa p) := e
        simp only [hc] at he
        have hn : pfnToPa p ∉ U := fun h => hnR (mem_roots h)
        obtain ⟨⟨m2, r2⟩, hi, he⟩ := Option.bind_eq_some_iff.mp he
        obtain ⟨ex2, h2, ht2, hok⟩ := (h.loading hQ hg hz).loadImage hn (fun hus => hu hus segs entry hp) hi
        rw [hQ.ttbr0] at ht2
        cases r2 with
        | error e =>
          cases he
          exact Or.inr ⟨_, ex2, hn, h2, nofun, ht2.imp_right And.left⟩
        | ok r2 =>
          obtain ⟨x, -, he⟩ := Option.bind_eq_some_iff.mp he
          have ht : m2.ttbr0 = m.ttbr0 := ht2.resolve_right fun h => by obtain ⟨-, e, h⟩ := h; cases h
          split at he
          · cases he
          · cases he
            refine Or.inr ⟨_, ex2, hn, h2, fun l hl => ?_, Or.inl ht⟩
            cases hl
            obtain ⟨-, hpas, hshow⟩ := hok r2 rfl
            exact ⟨rfl, ht, hpas, segs, hp, hshow (shows_none hz)⟩

end

end Myos.Mm
