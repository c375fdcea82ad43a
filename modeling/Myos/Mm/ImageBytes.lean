/-
  Myos.Mm.ImageBytes — the bytes of a loaded program (`load_elf`).

  The loader goes through a segment in steps of a page from `p_vaddr` on, and puts the
  file bytes of each step at the start of a new frame, wherever in its page `p_vaddr` is.
  A page that two segments share, or a segment and the stack, is mapped once for each;
  what is seen there is the frame mapped last.

  Proved of every program that is loaded: its segments are in memory as its headers say
  exactly if, of the pages in the order they are filled, the last one at the address of
  each byte has that byte.
-/

import Myos.Mm.StackPlace
import Myos.Mm.PageMap
import Myos.Mm.PageDemand

namespace Myos.Mm

open Pmm Lib.Walk Lib.Dyadic

/-- The byte at the virtual address `va`. -/
def Machine.byteAt (m : Machine) (va : Nat) : Option UInt8 :=
  if ptePresent (m.translate va) then some (m.mem (pteToPhys (m.translate va) + va % pageSize)) else none

/-- What the program header says of byte `j` of its segment. -/
def Segment.byte (seg : Segment) (data : Slice) (j : Nat) : UInt8 := if j < seg.filesz then data.bytes (seg.offset + j) else 0

/-- Every byte of every segment is at its address. -/
def ImageOf (m : Machine) (data : Slice) (segs : List Segment) : Prop :=
  ∀ seg ∈ segs, ∀ j < seg.memsz, m.byteAt (seg.vaddr + j) = some (seg.byte data j)

/-- The bytes of a segment are apart from those of another, and its file bytes are in the file. -/
structure Separate (data : Slice) (segs : List Segment) : Prop where
  memory : segs.Pairwise fun s t => s.vaddr + s.memsz ≤ t.vaddr ∨ t.vaddr + t.memsz ≤ s.vaddr
  file : ∀ seg ∈ segs, seg.offset + seg.filesz ≤ data.len

/-! ## The pages filled -/

/-- A page that is mapped at `va` and the bytes of its frame. -/
structure Fill where
  va : Nat
  byte : Nat → UInt8

def Segment.fill (seg : Segment) (data : Slice) (i : Nat) : Fill :=
  ⟨seg.vaddr + i * pageSize, fun x => seg.byte data (i * pageSize + x)⟩

def Segment.fills (seg : Segment) (data : Slice) : List Fill :=
  (List.range (pagesTo seg.vaddr ((segEnd seg).getD 0))).map (seg.fill data)

def stackFills (bottom n : Nat) : List Fill := (List.range n).map fun i => ⟨bottom + i * pageSize, fun _ => 0⟩

/-- All pages in the order they are filled. -/
def fills (data : Slice) (segs : List Segment) (stackTop : Nat) : List Fill :=
  segs.flatMap (Segment.fills · data) ++ stackFills (stackTop - stackPages * pageSize) stackPages

/-- The last one that has the leaf entry of `va`. -/
def lastFill (fs : List Fill) (va : Nat) : Option Fill := fs.reverse.find? fun f => pageKey f.va = pageKey va

/-- Each byte of each segment is the one in the page filled last at its address. -/
def LastFillsRight (data : Slice) (segs : List Segment) (stackTop : Nat) : Prop :=
  ∀ seg ∈ segs, ∀ j < seg.memsz, ∀ f, lastFill (fills data segs stackTop) (seg.vaddr + j) = some f →
    f.byte ((seg.vaddr + j) % pageSize) = seg.byte data j

section

variable {fs : List Fill} {f : Fill} {va : Nat}

theorem lastFill_append : lastFill (fs ++ [f]) va = if pageKey f.va = pageKey va then some f else lastFill fs va := by
  unfold lastFill
  rw [List.reverse_append, List.reverse_singleton, List.singleton_append, List.find?_cons]
  split_ifs with h <;> simp [h]

theorem lastFill_isSome : (lastFill fs va).isSome = true ↔ ∃ f ∈ fs, pageKey f.va = pageKey va := by
  unfold lastFill
  rw [List.find?_isSome]
  simp

/-- With one page for each key there is no choice. -/
theorem lastFill_unique (hn : (fs.map fun f => pageKey f.va).Nodup) (hf : f ∈ fs) : lastFill fs f.va = some f := by
  obtain ⟨g, hg⟩ := Option.isSome_iff_exists.mp (lastFill_isSome.2 ⟨f, hf, rfl⟩)
  have hmem : g ∈ fs := List.mem_reverse.mp (List.mem_of_find?_eq_some hg)
  have hkey : pageKey g.va = pageKey f.va := of_decide_eq_true (List.find?_some (p := fun g : Fill => decide (pageKey g.va = pageKey f.va)) hg)
  rw [hg, List.inj_on_of_nodup_map hn hmem hf hkey]

theorem lastFill_congr {va' : Nat} (h : va / pageSize = va' / pageSize) : lastFill fs va = lastFill fs va' := by
  unfold lastFill
  rw [pageKey_div h]

end

/-! ## One page -/

section

variable {m m1 m2 : Machine} {R : Set Nat} {K : Set (Nat × Nat)} {rf : Nat → Nat} {new va prot pa : Nat} {fs : List Fill}
  {data : Slice} {seg : Segment}

/-- The pages `fs` were filled, in the tree `new` and the kernel's, and each address shows the last. -/
structure ShowsLast (R : Set Nat) (K : Set (Nat × Nat)) (new : Nat) (rf : Nat → Nat) (fs : List Fill) (m : Machine) : Prop where
  owned : Owned m R K rf
  mem : ∀ va, (m.switch new).l0Table va ∈ R
  distinct : new ≠ m.ttbr1
  last : ∀ va f, lastFill fs va = some f → ∃ p prot, ProtOk prot ∧ p < totalPages ∧ 0 < rf p ∧
    (m.switch new).translate va = mkPte prot (pfnToPa p) ∧ ∀ x < pageSize, m.mem (pfnToPa p + x) = f.byte x

/-- The next page, once its frame has its bytes. -/
theorem ShowsLast.page (h : ShowsLast R K new rf fs m) (hp : ProtOk prot) (hok : allocAndMapPage m new va prot = (m1, .ok pa)) {mem : Mem}
    {b : Nat → UInt8} (hout : ∀ x, x < pa ∨ pa + pageSize ≤ x → mem x = m1.mem x)
    (hb : (∀ x < pageSize, m1.mem (pa + x) = 0) → ∀ x < pageSize, mem (pa + x) = b x) :
    ∃ rf', ShowsLast R K new rf' (fs ++ [⟨va, b⟩]) { m1 with mem := mem } := by
  rcases allocAndMapPage_cases m new va prot with ⟨hd, he⟩ | ⟨-, m2, e, he⟩ <;> rw [hok] at he
  case inr => cases he
  obtain ⟨rfl, hpa⟩ := Prod.mk.inj he
  have hpa := Except.ok.inj hpa
  rcases demandPage_spec (h.owned.switch new) (h.mem va) hp with ⟨hn, -⟩ | ⟨p, hpa', -, hI⟩
  · exact absurd hd hn
  obtain rfl : pa = pfnToPa p := hpa.trans hpa'
  clear hpa
  clear hpa' hok hd he
  generalize (demandPage (m.switch new) va prot).1 = m2 at *
  have hp1 : Function.update rf p 1 p = 1 := Function.update_self _ _ _
  obtain ⟨ho, -, hent⟩ := (hI.owned.switch m.ttbr0).fill (p := p) (by rw [hp1]; exact Nat.one_pos) hout
  have hl : ∀ va', (({ m2.switch m.ttbr0 with mem := mem } : Machine).switch new).l0Table va' = (m.switch new).l0Table va' := by
    intro va'
    unfold Machine.l0Table
    rw [switch_ttbr0, switch_ttbr0, switch_ttbr1, ← hI.wrote.ttbr1]
    rfl
  refine ⟨Function.update rf p 1, ho, fun va' => by rw [hl]; exact h.mem va', ?_, fun va' f hf => ?_⟩
  · exact fun e => h.distinct (e.trans hI.wrote.ttbr1)
  -- the entry of `va'` is the one just written or it is what it was
  have htr : (({ m2.switch m.ttbr0 with mem := mem } : Machine).switch new).translate va' =
      if pageKey va = pageKey va' then mkPte prot (pfnToPa p) else (m.switch new).translate va' := by
    unfold Machine.translate
    rw [hl, show (({ m2.switch m.ttbr0 with mem := mem } : Machine).switch new).mem = mem from rfl,
      hent _ (h.mem va') (dirs va') rfl, switch_mem, hI.wrote.entry _ (h.mem va') (dirs va') rfl]
    exact if_congr ((key_iff h.distinct va va').trans eq_comm) rfl rfl
  rw [htr]
  rw [lastFill_append] at hf
  split_ifs at hf ⊢ with hk
  · cases hf
    exact ⟨p, prot, hp, hI.lt, by rw [hp1]; exact Nat.one_pos, rfl, hb hI.data⟩
  · obtain ⟨p', prot', h1, h2, h3, h4, h5⟩ := h.last va' f hf
    have hne : p' ≠ p := by
      rintro rfl
      have := hI.fresh
      omega
    have hrf : 0 < Function.update rf p 1 p' := by rwa [Function.update_of_ne hne]
    refine ⟨p', prot', h1, h2, hrf, h4, fun x hx => ?_⟩
    have hsame : m2.mem (pfnToPa p' + x) = m.mem (pfnToPa p' + x) :=
      hI.wrote.page p' (by rwa [Function.update_of_ne hne]) _ (by omega) (by omega)
    have hap := pages_apart (pfnToPa_aligned p') (pfnToPa_aligned p) fun e => hne (pfnToPa_inj e)
    rw [show ({ m2.switch m.ttbr0 with mem := mem } : Machine).mem = mem from rfl, hout _ (by omega), switch_mem, hsame, h5 x hx]

theorem ShowsLast.switch (h : ShowsLast R K new rf fs m) (r : Nat) : ShowsLast R K new rf fs (m.switch r) :=
  ⟨h.owned.switch r, h.mem, h.distinct, h.last⟩

/-! ## All pages -/

/-- The frame gets the file bytes of its step. -/
theorem copySegment_bytes {inSeg : Nat} (hfile : seg.offset + seg.filesz ≤ data.len) (h : copySegment m data seg pa inSeg = some m1) :
    ∃ mem, m1 = { m with mem := mem } ∧ (∀ x, x < pa ∨ pa + pageSize ≤ x → mem x = m.mem x) ∧
      ((∀ x < pageSize, m.mem (pa + x) = 0) → ∀ x < pageSize, mem (pa + x) = seg.byte data (inSeg + x)) := by
  unfold copySegment at h
  split at h
  · obtain ⟨foff, hf, rfl⟩ := Option.map_eq_some_iff.mp h
    obtain ⟨-, rfl⟩ := checkedAdd_eq.mp hf
    refine ⟨_, rfl, fun x hx => ?_, fun hz x hx => ?_⟩
    · unfold copyBytes
      rw [if_neg (by omega)]
    · unfold copyBytes Segment.byte
      by_cases hlt : inSeg + x < seg.filesz
      · rw [if_pos (by omega), if_pos hlt]
        congr 1
        omega
      · rw [if_neg (by omega), if_neg hlt, hz x hx]
  · cases h
    refine ⟨m.mem, rfl, fun _ _ => rfl, fun hz x hx => ?_⟩
    unfold Segment.byte
    rw [if_neg (by omega), hz x hx]

theorem ShowsLast.loadPages (hfile : seg.offset + seg.filesz ≤ data.len) (n : Nat) : ∀ {i : Nat} {m : Machine} {rf : Nat → Nat}
    {fs : List Fill} {first r : Nat × Nat}, ShowsLast R K new rf fs m →
      loadPages m data new seg (seg.vaddr + i * pageSize) first n = some (m1, .ok r) →
      ∃ rf', ShowsLast R K new rf' (fs ++ (List.range' i n).map (seg.fill data)) m1 := by
  induction n with
  | zero =>
    intro i m rf fs first r h he
    cases he
    exact ⟨rf, by simpa using h⟩
  | succ n ih =>
    intro i m rf fs first r h he
    unfold Mm.loadPages at he
    rcases hr : allocAndMapPage m new (seg.vaddr + i * pageSize) (flagsToPageProt seg.flags) with ⟨m2, e | pa⟩ <;> rw [hr] at he
    · cases he
    obtain ⟨m3, hc, he⟩ := Option.bind_eq_some_iff.mp he
    rw [Nat.add_sub_cancel_left] at hc
    obtain ⟨mem, rfl, hout, hb⟩ := copySegment_bytes hfile hc
    obtain ⟨rf2, h2⟩ := h.page (flagsToPageProt_ok seg.flags) hr hout hb
    rw [show seg.vaddr + i * pageSize + pageSize = seg.vaddr + (i + 1) * pageSize by rw [Nat.succ_mul, Nat.add_assoc]] at he
    obtain ⟨rf3, h3⟩ := ih h2 he
    rw [List.append_assoc] at h3
    exact ⟨rf3, by rw [List.range'_succ]; exact h3⟩

theorem ShowsLast.loadSegments : ∀ (segs : List Segment), (∀ seg ∈ segs, seg.offset + seg.filesz ≤ data.len) →
    ∀ {m : Machine} {rf : Nat → Nat} {fs : List Fill} {first : Nat × Nat} {last : Nat} {r : (Nat × Nat) × Nat},
      ShowsLast R K new rf fs m → loadSegments m data new first last segs = some (m1, .ok r) →
      ∃ rf', ShowsLast R K new rf' (fs ++ segs.flatMap (Segment.fills · data)) m1 := by
  intro segs
  induction segs with
  | nil =>
    intro _ m rf fs first last r h he
    cases he
    exact ⟨rf, by simpa using h⟩
  | cons seg segs ih =>
    intro hfile m rf fs first last r h he
    unfold Mm.loadSegments at he
    obtain ⟨stop, hs, he⟩ := Option.bind_eq_some_iff.mp he
    obtain ⟨⟨m2, r1⟩, hp, he⟩ := Option.bind_eq_some_iff.mp he
    cases r1 with
    | error e => cases he
    | ok first1 =>
      have hp : Mm.loadPages m data new seg (seg.vaddr + 0 * pageSize) first (pagesTo seg.vaddr stop) = some (m2, .ok first1) := by
        rwa [Nat.zero_mul]
      obtain ⟨rf2, h2⟩ := h.loadPages (hfile seg (List.mem_cons_self ..)) _ hp
      obtain ⟨rf3, h3⟩ := ih (fun s hs => hfile s (List.mem_cons_of_mem _ hs)) h2 he
      refine ⟨rf3, ?_⟩
      rw [List.flatMap_cons, ← List.append_assoc]
      rwa [Segment.fills, hs, List.range_eq_range']

theorem ShowsLast.loadStack {bottom : Nat} (n : Nat) : ∀ {i : Nat} {m : Machine} {rf : Nat → Nat} {fs : List Fill} {pas : List Nat},
    ShowsLast R K new rf fs m → loadStack m new (bottom + i * pageSize) n = (m1, .ok pas) →
    ∃ rf', ShowsLast R K new rf' (fs ++ (List.range' i n).map fun i => ⟨bottom + i * pageSize, fun _ => 0⟩) m1 := by
  induction n with
  | zero =>
    intro i m rf fs pas h he
    cases he
    exact ⟨rf, by simpa using h⟩
  | succ n ih =>
    intro i m rf fs pas h he
    unfold Mm.loadStack at he
    rcases hr : allocAndMapPage m new (bottom + i * pageSize) rustPageUserRw with ⟨m2, e | pa⟩ <;> rw [hr] at he
    · cases he
    dsimp only at he
    rw [show bottom + i * pageSize + pageSize = bottom + (i + 1) * pageSize by rw [Nat.succ_mul, Nat.add_assoc]] at he
    obtain ⟨rf2, h2⟩ : ∃ rf', ShowsLast R K new rf' (fs ++ [⟨bottom + i * pageSize, fun _ => 0⟩]) { m2 with mem := m2.mem } :=
      h.page rustPageUserRw_ok hr (fun _ _ => rfl) fun hz => hz
    rcases hs : Mm.loadStack m2 new (bottom + (i + 1) * pageSize) n with ⟨m3, e | pas'⟩ <;> rw [hs] at he
    · cases he
    cases he
    obtain ⟨rf3, h3⟩ := ih h2 hs
    rw [List.append_assoc] at h3
    exact ⟨rf3, by rw [List.range'_succ]; exact h3⟩

/-! ## The loaded program -/

theorem World.loadedPages {U : Finset Nat} {ex : Nat → Nat} {m' : Machine} {l : LoadedElf} {segs : List Segment} {entry : Nat}
    (hw : World m U K ex) (h : Mm.loadElf m data = some (m', .ok l)) (hp : parseSegments data = some (.ok (segs, entry)))
    (hfile : ∀ seg ∈ segs, seg.offset + seg.filesz ≤ data.len) : findStackTop segs = some l.stackTop ∧
      (∀ seg ∈ segs, (segEnd seg).isSome) ∧ ∃ R rf, ShowsLast R K l.pgd rf (fills data segs l.stackTop) m' := by
  obtain ⟨segs', m1, m2, m3, r, pas, hp', hc, hs, htop, hl, rfl, -⟩ := loadElf_ok h
  obtain rfl : segs = segs' := (Prod.mk.inj (Except.ok.inj (Option.some.inj (hp.symm.trans hp')))).1
  obtain ⟨-, -, hend⟩ := loadSegments_bounds hs
  refine ⟨htop, hend, ?_⟩
  rcases hw.newPgd with ⟨h0, -⟩ | ⟨p, e, -, hw1, -⟩
  · rw [hc] at h0
    cases h0
  rw [hc] at e hw1
  obtain hpgd : l.pgd = pfnToPa p := Option.some.inj e
  rw [← hpgd] at hw1
  have hmem : l.pgd ∈ insert l.pgd U := Finset.mem_insert_self _ _
  have hnone : ∀ va, lastFill [] va = none := fun _ => rfl
  have h1 : ShowsLast (roots m1 (insert l.pgd U)) K l.pgd (refs m1.mem (insert l.pgd U) ex) [] m1 := by
    refine ⟨hw1.owned, fun va => ?_, fun he => hw1.kernel (he ▸ hmem), fun va f hf => ?_⟩
    · unfold Machine.l0Table
      split
      · exact mem_roots hmem
      · exact kernel_mem_roots
    · rw [hnone] at hf
      cases hf
  obtain ⟨rf2, h2⟩ := ShowsLast.loadSegments segs hfile h1 hs
  have hl0 : Mm.loadStack (m2.switch l.pgd) l.pgd (l.stackTop - stackPages * pageSize + 0 * pageSize) stackPages = (m3, .ok pas) := by
    rw [Nat.zero_mul, Nat.add_zero]
    exact hl
  obtain ⟨rf3, h3⟩ := (h2.switch l.pgd).loadStack _ hl0
  rw [List.nil_append, ← List.range_eq_range'] at h3
  exact ⟨_, rf3, h3.switch _⟩

/-- What an address shows. -/
theorem ShowsLast.byteAt (h : ShowsLast R K new rf fs m) {f : Fill} (hf : lastFill fs va = some f) :
    (m.switch new).byteAt va = some (f.byte (va % pageSize)) := by
  obtain ⟨p, prot, hp, hlt, -, ht, hb⟩ := h.last va f hf
  unfold Machine.byteAt
  rw [ht, if_pos (mkPte_present hp.valid), mkPte_pteToPhys hp (pfnToPa_pageAddr hlt), switch_mem,
    hb _ (Nat.mod_lt _ (by decide))]

/-- The page of a byte of a segment is filled. -/
theorem segment_filled {segs : List Segment} {stackTop j : Nat} (hs : seg ∈ segs) (hend : (segEnd seg).isSome) (hj : j < seg.memsz) :
    ∃ f, lastFill (fills data segs stackTop) (seg.vaddr + j) = some f := by
  obtain ⟨stop, hstop⟩ := Option.isSome_iff_exists.mp hend
  obtain ⟨x, hx, hal⟩ := Option.bind_eq_some_iff.mp hstop
  obtain ⟨-, rfl⟩ := checkedAdd_eq.mp hx
  have hup := segEnd_eq hstop
  refine Option.isSome_iff_exists.mp (lastFill_isSome.2 ⟨seg.fill data ((seg.vaddr % pageSize + j) / pageSize), ?_, ?_⟩)
  · refine List.mem_append_left _ (List.mem_flatMap.mpr ⟨seg, hs, List.mem_map.mpr ⟨_, List.mem_range.mpr ?_, rfl⟩⟩)
    rw [hstop, Option.getD_some, hup]
    unfold pagesTo pageUp pageSize
    omega
  · refine pageKey_div ?_
    unfold Segment.fill pageSize
    dsimp only
    omega

end

section

variable {m m' : Machine} {U : Finset Nat} {K : Set (Nat × Nat)} {ex : Nat → Nat} {data : Slice} {l : LoadedElf} {segs : List Segment}
  {entry top : Nat}

/-- A loaded program is in memory as its headers say exactly if the pages filled last are. -/
theorem image_iff (hw : World m U K ex) (h : loadElf m data = some (m', .ok l)) (hp : parseSegments data = some (.ok (segs, entry)))
    (hsep : Separate data segs) :
    ImageOf (m'.switch l.pgd) data segs ↔ ∃ top, findStackTop segs = some top ∧ LastFillsRight data segs top := by
  obtain ⟨htop, hend, R, rf, hS⟩ := hw.loadedPages h hp hsep.file
  have hiff : ImageOf (m'.switch l.pgd) data segs ↔ LastFillsRight data segs l.stackTop := by
    constructor
    · intro hI seg hs j hj f hf
      have := hI seg hs j hj
      rw [hS.byteAt hf] at this
      exact Option.some.inj this
    · intro hL seg hs j hj
      obtain ⟨f, hf⟩ : ∃ f, lastFill (fills data segs l.stackTop) (seg.vaddr + j) = some f := segment_filled hs (hend seg hs) hj
      rw [hS.byteAt hf, hL seg hs j hj f hf]
  rw [hiff]
  constructor
  · exact fun hL => ⟨_, htop, hL⟩
  · rintro ⟨top, ht, hL⟩
    rwa [Option.some.inj (htop.symm.trans ht)]

/-- Segments that start with a page, in pages of their own, are in memory as the headers say. -/
theorem lastFillsRight_of_aligned (hal : ∀ seg ∈ segs, pageSize ∣ seg.vaddr) (hend : ∀ seg ∈ segs, (segEnd seg).isSome)
    (hn : ((fills data segs top).map fun f => pageKey f.va).Nodup) : LastFillsRight data segs top := by
  intro seg hs j hj f hf
  obtain ⟨k, hk⟩ := hal seg hs
  obtain ⟨stop, hstop⟩ := Option.isSome_iff_exists.mp (hend seg hs)
  have hup := segEnd_eq hstop
  have hmem : seg.fill data (j / pageSize) ∈ fills data segs top := by
    refine List.mem_append_left _ (List.mem_flatMap.mpr ⟨seg, hs, List.mem_map.mpr ⟨_, List.mem_range.mpr ?_, rfl⟩⟩)
    rw [hstop, Option.getD_some, hup]
    unfold pagesTo pageUp
    unfold pageSize at *
    omega
  have hpage : (seg.vaddr + j) / pageSize = (seg.fill data (j / pageSize)).va / pageSize := by
    unfold Segment.fill
    unfold pageSize at *
    dsimp only
    omega
  rw [lastFill_congr hpage, lastFill_unique hn hmem] at hf
  cases hf
  show seg.byte data (j / pageSize * pageSize + (seg.vaddr + j) % pageSize) = seg.byte data j
  congr 1
  unfold pageSize at *
  omega

end

/-! ## A program at half a page -/

/-- A program of one segment, at 0x400800. -/
def halfPageElf : Slice where
  bytes
    | 0 => 0x7F | 1 => 0x45 | 2 => 0x4C | 3 => 0x46 | 4 => 2 | 5 => 1 | 6 => 1
    | 16 => 2 | 18 => 183 | 20 => 1 | 25 => 8 | 26 => 0x40 | 32 => 64 | 54 => 56 | 56 => 1
    | 64 => 1 | 68 => 5 | 81 => 8 | 82 => 0x40 | 96 => 120 | 104 => 120
    | _ => 0
  len := 120

theorem halfPageElf_loadable : Loadable halfPageElf [⟨0x400800, 120, 120, 0, 5⟩] 0x400800 :=
  .oneHeader (by decide) (by decide) (by decide) (by decide) (by decide) (by decide) (by decide) (by decide) (by decide)

/-- Its first byte is not at its address. -/
theorem half_page_shifted : ∃ (m' : Machine) (l : LoadedElf) (segs : List Segment),
    loadElf bootMachine halfPageElf = some (m', .ok l) ∧ parseSegments halfPageElf = some (.ok (segs, 0x400800)) ∧
    Separate halfPageElf segs ∧ ¬ ImageOf (m'.switch l.pgd) halfPageElf segs := by
  have hw := bootMachine_boot.world
  obtain ⟨m', l, hl, -⟩ := loadElf_room (n := 0) hw (by decide) halfPageElf_loadable (bootMachine_room.le (by decide))
  refine ⟨m', l, _, hl, halfPageElf_loadable.parse, ⟨by simp, by decide⟩, fun hI => ?_⟩
  obtain ⟨htop, -, R, rf, hS⟩ := hw.loadedPages hl halfPageElf_loadable.parse (by decide)
  have htop' : l.stackTop = 0x80000000 := Option.some.inj (htop.symm.trans (by decide))
  have hf : lastFill (fills halfPageElf [⟨0x400800, 120, 120, 0, 5⟩] l.stackTop) 0x400800 =
      some ((⟨0x400800, 120, 120, 0, 5⟩ : Segment).fill halfPageElf 0) := by
    rw [htop']
    rfl
  have hb := hI _ (List.mem_singleton_self _) 0 (by decide)
  rw [Nat.add_zero, hS.byteAt hf] at hb
  exact absurd hb (by decide)

/-- The program at 0x400000 is in memory as its header says. -/
theorem image_iff_tiny : ∃ (m' : Machine) (l : LoadedElf), loadElf bootMachine tinyElf = some (m', .ok l) ∧
    ImageOf (m'.switch l.pgd) tinyElf [⟨0x400000, 120, 120, 0, 5⟩] := by
  have hw := bootMachine_boot.world
  obtain ⟨m', l, hl, -⟩ := loadElf_room (n := 0) hw (by decide) tinyElf_loadable (bootMachine_room.le (by decide))
  refine ⟨m', l, hl, (image_iff hw hl tinyElf_loadable.parse ⟨by simp, by decide⟩).mpr ⟨0x80000000, by decide, ?_⟩⟩
  exact lastFillsRight_of_aligned (by decide) (by decide) (by decide)

end Myos.Mm
