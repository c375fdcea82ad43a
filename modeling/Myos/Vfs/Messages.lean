/-
  Myos.Vfs.Messages — path strings from user memory, and what the kernel prints about them
  (`rust/src/console.rs`, and the calls that take a path in `rust/src/kernel/syscall.rs`).

  A call has no result when the kernel panics: when `copy_from_slice` gets slices of two
  lengths, or a string is cut outside of it or inside a character. The console is a
  parameter of the calls, so that they can be compared with one that truncates. What
  `load_elf` does and prints is left out: `load` stands for reading and loading a file.

  Proved: no cut of a string panics (`handle_truncated`); a call does what it does over the
  truncating console exactly if it is not an execve of a path that takes more than 255
  bytes, as it is or resolved (`messages_iff`).
-/

import Myos.Vfs.NormalForm

namespace Myos.Vfs

/-- The bytes of a string. -/
def encoded (s : Str) : List UInt8 := s.flatMap String.utf8EncodeChar

/-- `s.len()`. -/
def byteLen (s : Str) : Nat := (encoded s).length

/-! ## The console -/

/-- `Console::write_str`: the bytes handed to C. -/
def writeStr (s : Str) : Option (List UInt8) :=
  let len := min (byteLen s) (256 - 1)
  -- `buf[..len].copy_from_slice(s.as_bytes())`
  if len = byteLen s then some ((encoded s).take len) else none

/-- What the console means to do with a string of any length. -/
def truncated (s : Str) : Option (List UInt8) := some ((encoded s).take 255)

/-- `println!`: one call of the console for each piece, and one for the line end. -/
def println (write : Str → Option (List UInt8)) (pieces : List Str) : Option (List (List UInt8)) :=
  (pieces ++ [['\n']]).mapM write

/-! ## Cuts of strings -/

/-- `&s[i..]`. -/
def sliceFrom : Str → Nat → Option Str
  | s, 0 => some s
  | [], _ + 1 => none
  | c :: s, i + 1 => if c.utf8Size ≤ i + 1 then sliceFrom s (i + 1 - c.utf8Size) else none

/-- `&s[..i]`. -/
def sliceTo : Str → Nat → Option Str
  | _, 0 => some []
  | [], _ + 1 => none
  | c :: s, i + 1 => if c.utf8Size ≤ i + 1 then (sliceTo s (i + 1 - c.utf8Size)).map (c :: ·) else none

/-- `s.find(c)`. -/
def find (c : Char) : Str → Option Nat
  | [] => none
  | d :: s => if d = c then some 0 else (find c s).map (· + d.utf8Size)

/-- `s.rfind(c)`. -/
def rfind (c : Char) : Str → Option Nat
  | [] => none
  | d :: s =>
    match rfind c s with
    | some i => some (i + d.utf8Size)
    | none => if d = c then some 0 else none

/-! ## The calls -/

/-- A text for an error: the literals of the source are all far shorter. -/
structure ErrText where
  text : Str
  short : byteLen text ≤ 255

/-- What the calls find: the mounts, the current directory, and what the file systems and the loader answer. -/
structure World (F I : Type) where
  table : List (Mount F)
  cwd : Str
  rootInode : F → I
  lookup : I → Str → Except ErrText I
  create : I → Str → Bool → Except ErrText I
  remove : I → Str → Except ErrText Unit
  isDir : I → Bool
  names : I → Option (List Str)
  load : I → Except ErrText Unit

/-- What was printed, the result, and the current directory afterwards. -/
structure Outcome where
  console : List (List UInt8)
  ret : Except Nat Unit
  cwd : Str

inductive Call where
  | execve
  | openat (flags : Nat)
  | chdir
  | mkdirat
  | unlinkat
  | fstatat

def oCreat : Nat := 0o100
def eacces : Nat := 13
def efault : Nat := 14

def noMount : ErrText := ⟨"no mount for path".toList, by decide +kernel⟩

/-- The bytes up to a zero, 256 of them at most, each taken for a character. -/
def userPath (mem : Nat → UInt8) : Str :=
  (((List.range 256).map mem).takeWhile (· ≠ 0)).map fun c => Char.ofNat c.toNat

namespace World

variable {F I : Type} (w : World F I)

/-- `resolve_path`, which never fails. -/
def resolve (path : Str) : Str := normalForm w.cwd path

/-- The part of the path after the mount point. -/
def rest (path : Str) (m : Mount F) : Option Str :=
  if byteLen m.path < byteLen path then sliceFrom path (byteLen m.path) else some []

def pathWalk (path : Str) : Option (Except ErrText I) := do
  match bestMount w.table path with
  | none => some (.error noMount)
  | some m =>
    let rest ← rest path m
    let trimmed := rest.dropWhile (· == '/')
    if trimmed = [] then some (.ok (w.rootInode m.fs))
    else some ((trimmed.splitOn '/').foldlM (fun current component =>
      if component = [] then .ok current else w.lookup current component) (w.rootInode m.fs))

/-- The base and the extension in `encode_short_name`. -/
def shortNameParts (name : Str) : Option (Str × Str) :=
  match find '.' name with
  | some p => do
    let base ← sliceTo name p
    let ext ← sliceFrom name (p + 1)
    some (base, ext)
  | none => some (name, [])

def createIn (parent : I) (name : Str) (isDir : Bool) : Option (Except ErrText I) := do
  let _ ← shortNameParts name
  some (w.create parent name isDir)

/-- Where `sys_open` creates a file: the directory and the name. -/
def createPlace (path : Str) : Option (Str × Str) :=
  match rfind '/' path with
  | none => some (['/'], path)
  | some 0 => do
    let name ← sliceFrom path 1
    some (['/'], name)
  | some p => do
    let parent ← sliceTo path p
    let name ← sliceFrom path (p + 1)
    some (parent, name)

/-- `sys_open`. -/
def sysOpen (path : Str) (flags : Nat) : Option (Except Nat Unit) := do
  match ← w.pathWalk path with
  | .ok _ => some (.ok ())
  | .error _ =>
    if flags &&& oCreat = 0 then some (.error enoent)
    else
      let (parentPath, name) ← createPlace path
      if name = [] then some (.error enoent)
      else
        match ← w.pathWalk parentPath with
        | .error _ => some (.error enoent)
        | .ok parent =>
          let r ← w.createIn parent name false
          some ((r.map fun _ => ()).mapError fun _ => enoent)

/-- The path with its last name as the directory has it. -/
def realPath (resolved : Str) : Option Str := do
  if resolved = ['/'] then some ['/']
  else
    let pos := (rfind '/' resolved).getD 0
    let parentPart ← sliceTo resolved (pos + 1)
    let last ← sliceFrom resolved (pos + 1)
    let parent ← w.pathWalk parentPart
    let realName := match parent.toOption.bind w.names with
      | some entries => (lookupRealName entries last).toOption.getD last
      | none => last
    some (parentPart ++ realName)

def sysChdir (path : Str) : Option Outcome := do
  let resolved := w.resolve path
  match ← w.pathWalk resolved with
  | .error _ => some ⟨[], .error enoent, w.cwd⟩
  | .ok inode =>
    if w.isDir inode then
      let cwd ← w.realPath resolved
      some ⟨[], .ok (), cwd⟩
    else some ⟨[], .error enoent, w.cwd⟩

/-- Where `mkdirat` and `unlinkat` act: the directory, with its slash, and the name. -/
def namePlace (resolved : Str) : Option (Str × Str) :=
  match rfind '/' resolved with
  | some p => do
    let parent ← sliceTo resolved (p + 1)
    let name ← sliceFrom resolved (p + 1)
    some (parent, name)
  | none => some (['/'], resolved)

/-- `mkdirat` and `unlinkat`: what is done with the name in its directory, and the errno where that fails. -/
def sysInParent (op : I → Str → Option (Except ErrText Unit)) (errno : Nat) (path : Str) : Option (Except Nat Unit) := do
  let (parentPath, name) ← namePlace (w.resolve path)
  if name = [] then some (.error enoent)
  else
    match ← w.pathWalk parentPath with
    | .error _ => some (.error enoent)
    | .ok parent =>
      let r ← op parent name
      some (r.mapError fun _ => errno)

def sysMkdirat (path : Str) : Option (Except Nat Unit) :=
  w.sysInParent (fun parent name => (w.createIn parent name true).map fun r => r.map fun _ => ()) eacces path

def sysUnlinkat (path : Str) : Option (Except Nat Unit) :=
  w.sysInParent (fun parent name => some (w.remove parent name)) enoent path

def sysFstatat (path : Str) : Option (Except Nat Unit) := do
  let r ← w.pathWalk (if isAbsolute path then path else w.resolve path)
  some ((r.map fun _ => ()).mapError fun _ => enoent)

def sysExecve (write : Str → Option (List UInt8)) (path : Str) : Option Outcome := do
  let resolved := w.resolve path
  let loading ← println write ["[EXECVE] loading '".toList, path, "' -> '".toList, resolved, "'...".toList]
  let inode ← w.pathWalk resolved
  match inode.bind w.load with
  | .ok _ => some ⟨loading, .ok (), w.cwd⟩
  | .error e =>
    let failed ← println write ["[EXECVE] '".toList, path, "' failed: ".toList, e.text]
    some ⟨loading ++ failed, .error enoent, w.cwd⟩

/-- The errno for a null pointer. -/
def nullErrno : Call → Nat
  | .mkdirat => efault
  | .unlinkat => efault
  | _ => enoent

/-- A call with a pointer to a path. -/
def handle (write : Str → Option (List UInt8)) (c : Call) (ptr : Option (Nat → UInt8)) : Option Outcome :=
  match ptr with
  | none => some ⟨[], .error (nullErrno c), w.cwd⟩
  | some mem =>
    let path := userPath mem
    match c with
    | .execve => w.sysExecve write path
    | .openat flags => (w.sysOpen (w.resolve path) flags).map fun ret => ⟨[], ret, w.cwd⟩
    | .chdir => w.sysChdir path
    | .mkdirat => (w.sysMkdirat path).map fun ret => ⟨[], ret, w.cwd⟩
    | .unlinkat => (w.sysUnlinkat path).map fun ret => ⟨[], ret, w.cwd⟩
    | .fstatat => (w.sysFstatat path).map fun ret => ⟨[], ret, w.cwd⟩

/-- The strings of an execve take no more bytes than the console has room for. -/
def Short (c : Call) (ptr : Option (Nat → UInt8)) : Prop :=
  match c with
  | .execve => ∀ mem, ptr = some mem → byteLen (userPath mem) ≤ 255 ∧ byteLen (w.resolve (userPath mem)) ≤ 255
  | _ => True

end World

/-! ## Cuts at a character -/

theorem byteLen_cons (c : Char) (s : Str) : byteLen (c :: s) = c.utf8Size + byteLen s := by
  rw [byteLen, encoded, List.flatMap_cons, List.length_append, String.length_utf8EncodeChar]
  rfl

theorem sliceFrom_cons {c : Char} {i : Nat} (h : c.utf8Size ≤ i) (s : Str) :
    sliceFrom (c :: s) i = sliceFrom s (i - c.utf8Size) := by
  have := c.utf8Size_pos
  cases i with
  | zero => omega
  | succ i => rw [sliceFrom, if_pos h]

theorem sliceTo_cons {c : Char} {i : Nat} (h : c.utf8Size ≤ i) (s : Str) :
    sliceTo (c :: s) i = (sliceTo s (i - c.utf8Size)).map (c :: ·) := by
  have := c.utf8Size_pos
  cases i with
  | zero => omega
  | succ i => rw [sliceTo, if_pos h]

theorem sliceFrom_append (a b : Str) : sliceFrom (a ++ b) (byteLen a) = some b := by
  induction a with
  | nil =>
    rw [List.nil_append]
    unfold sliceFrom
    cases b <;> rfl
  | cons c a ih => rw [List.cons_append, byteLen_cons, sliceFrom_cons (by omega), Nat.add_sub_cancel_left, ih]

theorem sliceTo_append (a b : Str) : sliceTo (a ++ b) (byteLen a) = some a := by
  induction a with
  | nil =>
    rw [List.nil_append]
    unfold sliceTo
    cases b <;> rfl
  | cons c a ih =>
    rw [List.cons_append, byteLen_cons, sliceTo_cons (by omega), Nat.add_sub_cancel_left, ih, Option.map_some]

theorem find_spec {c : Char} {s : Str} {i : Nat} (h : find c s = some i) : ∃ a b, s = a ++ c :: b ∧ byteLen a = i := by
  induction s generalizing i with
  | nil => cases h
  | cons d s ih =>
    unfold find at h
    split at h
    · rename_i hd
      obtain rfl := Option.some.inj h
      exact ⟨[], s, by rw [hd]; rfl, rfl⟩
    · obtain ⟨j, hj, rfl⟩ := Option.map_eq_some_iff.mp h
      obtain ⟨a, b, rfl, rfl⟩ := ih hj
      exact ⟨d :: a, b, rfl, by rw [byteLen_cons, Nat.add_comm]⟩

theorem rfind_spec {c : Char} {s : Str} {i : Nat} (h : rfind c s = some i) : ∃ a b, s = a ++ c :: b ∧ byteLen a = i := by
  induction s generalizing i with
  | nil => cases h
  | cons d s ih =>
    unfold rfind at h
    split at h
    · rename_i j hj
      obtain rfl := Option.some.inj h
      obtain ⟨a, b, rfl, rfl⟩ := ih hj
      exact ⟨d :: a, b, rfl, by rw [byteLen_cons, Nat.add_comm]⟩
    · split at h
      · rename_i hd
        obtain rfl := Option.some.inj h
        exact ⟨[], s, by rw [hd]; rfl, rfl⟩
      · cases h

/-- Around a character of one byte that was found, every cut is inside the string and between characters. -/
theorem cuts_of_eq {c : Char} (hc : c.utf8Size = 1) {a b s : Str} {i : Nat} (hs : s = a ++ c :: b) (hi : byteLen a = i) :
    sliceTo s i = some a ∧ sliceTo s (i + 1) = some (a ++ [c]) ∧ sliceFrom s (i + 1) = some b := by
  have hl : byteLen (a ++ [c]) = i + 1 := by
    rw [byteLen, encoded, List.flatMap_append, List.length_append, ← encoded, ← encoded, ← byteLen, ← byteLen, byteLen_cons, hc, hi]
    rfl
  have hs' : s = (a ++ [c]) ++ b := by rw [hs, List.append_assoc, List.singleton_append]
  refine ⟨?_, ?_, ?_⟩
  · rw [hs, ← hi, sliceTo_append]
  · rw [hs', ← hl, sliceTo_append]
  · rw [hs', ← hl, sliceFrom_append]

theorem utf8Size_slash : ('/' : Char).utf8Size = 1 := by decide

theorem utf8Size_dot : ('.' : Char).utf8Size = 1 := by decide

/-- The normal form has a slash, and what is around the last one is `parentPath` and `lastName`. -/
theorem rfind_normalForm (cwd path : Str) : ∃ i, rfind '/' (normalForm cwd path) = some i := by
  have h : ∀ s : Str, '/' ∈ s → ∃ i, rfind '/' s = some i := by
    intro s hs
    induction s with
    | nil => cases hs
    | cons d s ih =>
      unfold rfind
      cases hr : rfind '/' s with
      | some i => exact ⟨_, rfl⟩
      | none =>
        rcases List.mem_cons.mp hs with hd | hm
        · exact ⟨0, by rw [if_pos hd.symm]⟩
        · obtain ⟨i, hi⟩ := ih hm
          rw [hr] at hi
          cases hi
  exact h _ List.mem_cons_self

/-! ## No cut panics -/

namespace World

variable {F I : Type} (w : World F I)

theorem rest_some {path : Str} {m : Mount F} (h : m.path <+: path) : ∃ r, rest path m = some r := by
  unfold rest
  split
  · obtain ⟨b, rfl⟩ := h
    exact ⟨b, sliceFrom_append _ _⟩
  · exact ⟨[], rfl⟩

theorem pathWalk_some (path : Str) : ∃ r, w.pathWalk path = some r := by
  have hL := bestMount_longest w.table path
  unfold pathWalk
  cases hb : bestMount w.table path with
  | none => exact ⟨_, rfl⟩
  | some m =>
    rw [hb] at hL
    obtain ⟨r, hr⟩ := rest_some hL.2.1
    simp only [hr, Option.bind_eq_bind, Option.bind_some]
    split
    · exact ⟨_, rfl⟩
    · exact ⟨_, rfl⟩

theorem createIn_some (parent : I) (name : Str) (isDir : Bool) : ∃ r, w.createIn parent name isDir = some r := by
  have hp : ∃ r, shortNameParts name = some r := by
    unfold shortNameParts
    cases hf : find '.' name with
    | none => exact ⟨_, rfl⟩
    | some i =>
      obtain ⟨a, b, hs, hi⟩ := find_spec hf
      obtain ⟨h1, -, h3⟩ := cuts_of_eq utf8Size_dot hs hi
      simp only [h1, h3, Option.bind_eq_bind, Option.bind_some]
      exact ⟨_, rfl⟩
  obtain ⟨r, hr⟩ := hp
  unfold createIn
  simp only [hr, Option.bind_eq_bind, Option.bind_some]
  exact ⟨_, rfl⟩

/-- A run of two parts goes through when both do. -/
theorem bind_some_of {α β : Type} {x : Option α} {f : α → Option β} (hx : ∃ a, x = some a) (hf : ∀ a, ∃ b, f a = some b) :
    ∃ b, x.bind f = some b := by
  obtain ⟨a, rfl⟩ := hx
  exact hf a

theorem createPlace_some (path : Str) : ∃ r, createPlace path = some r := by
  unfold createPlace
  split
  · exact ⟨_, rfl⟩
  · rename_i h
    obtain ⟨a, b, hs, hi⟩ := rfind_spec h
    obtain ⟨-, -, h3⟩ := cuts_of_eq utf8Size_slash hs hi
    rw [h3]
    exact ⟨_, rfl⟩
  · rename_i h
    obtain ⟨a, b, hs, hi⟩ := rfind_spec h
    obtain ⟨h1, -, h3⟩ := cuts_of_eq utf8Size_slash hs hi
    rw [h1, h3]
    exact ⟨_, rfl⟩

theorem sysOpen_some (path : Str) (flags : Nat) : ∃ r, w.sysOpen path flags = some r := by
  refine bind_some_of (w.pathWalk_some path) fun r => ?_
  cases r with
  | ok i => exact ⟨_, rfl⟩
  | error e =>
    dsimp only
    split
    · exact ⟨_, rfl⟩
    · refine bind_some_of (createPlace_some path) fun r => ?_
      split
      · exact ⟨_, rfl⟩
      · refine bind_some_of (w.pathWalk_some r.1) fun q => ?_
        cases q with
        | error e => exact ⟨_, rfl⟩
        | ok parent => exact bind_some_of (w.createIn_some parent r.2 false) fun _ => ⟨_, rfl⟩

theorem realPath_some (path : Str) : ∃ r, w.realPath (w.resolve path) = some r := by
  unfold realPath
  obtain ⟨i, hr⟩ := rfind_normalForm w.cwd path
  obtain ⟨a, b, hs, hi⟩ := rfind_spec hr
  obtain ⟨-, h2, h3⟩ := cuts_of_eq utf8Size_slash hs hi
  rw [resolve]
  split
  · exact ⟨_, rfl⟩
  · dsimp only
    rw [hr, Option.getD_some, h2, h3]
    exact bind_some_of ⟨_, rfl⟩ fun _ => bind_some_of ⟨_, rfl⟩ fun _ => bind_some_of (w.pathWalk_some _) fun _ => ⟨_, rfl⟩

theorem sysChdir_some (path : Str) : ∃ r, w.sysChdir path = some r := by
  refine bind_some_of (w.pathWalk_some _) fun r => ?_
  cases r with
  | error e => exact ⟨_, rfl⟩
  | ok i =>
    dsimp only
    split
    · exact bind_some_of (w.realPath_some path) fun _ => ⟨_, rfl⟩
    · exact ⟨_, rfl⟩

theorem namePlace_some (path : Str) : ∃ r, namePlace path = some r := by
  unfold namePlace
  split
  · rename_i h
    obtain ⟨a, b, hs, hi⟩ := rfind_spec h
    obtain ⟨-, h2, h3⟩ := cuts_of_eq utf8Size_slash hs hi
    rw [h2, h3]
    exact ⟨_, rfl⟩
  · exact ⟨_, rfl⟩

theorem sysInParent_some {op : I → Str → Option (Except ErrText Unit)} (hop : ∀ i n, ∃ r, op i n = some r) (errno : Nat) (path : Str) :
    ∃ r, w.sysInParent op errno path = some r := by
  refine bind_some_of (namePlace_some _) fun r => ?_
  dsimp only
  split
  · exact ⟨_, rfl⟩
  · refine bind_some_of (w.pathWalk_some _) fun q => ?_
    cases q with
    | error e => exact ⟨_, rfl⟩
    | ok parent => exact bind_some_of (hop parent r.2) fun _ => ⟨_, rfl⟩

/-! ## The exact condition -/

theorem println_truncated (pieces : List Str) : ∃ out, println truncated pieces = some out := by
  unfold println
  generalize pieces ++ [['\n']] = l
  induction l with
  | nil => exact ⟨[], rfl⟩
  | cons s l ih =>
    rw [List.mapM_cons]
    exact bind_some_of ⟨_, rfl⟩ fun _ => bind_some_of ih fun _ => ⟨_, rfl⟩

theorem writeStr_of_le {s : Str} (h : byteLen s ≤ 255) : writeStr s = truncated s := by
  have hm : min (byteLen s) (256 - 1) = byteLen s := min_eq_left h
  rw [writeStr, truncated, hm, if_pos rfl, List.take_of_length_le (show (encoded s).length ≤ 255 from h), byteLen, List.take_length]

theorem writeStr_of_lt {s : Str} (h : 255 < byteLen s) : writeStr s = none := by
  rw [writeStr, if_neg]
  omega

theorem println_of_le {pieces : List Str} (h : ∀ s ∈ pieces, byteLen s ≤ 255) : println writeStr pieces = println truncated pieces := by
  unfold println
  have hl : ∀ s ∈ pieces ++ [['\n']], writeStr s = truncated s := by
    intro s hs
    rcases List.mem_append.mp hs with hs | hs
    · exact writeStr_of_le (h s hs)
    · rw [List.mem_singleton.mp hs]
      exact writeStr_of_le (by decide)
  generalize pieces ++ [['\n']] = l at hl
  induction l with
  | nil => rfl
  | cons s l ih =>
    rw [List.mapM_cons, List.mapM_cons, hl s List.mem_cons_self, ih fun s hs => hl s (List.mem_cons_of_mem _ hs)]

theorem println_of_lt {pieces : List Str} {s : Str} (hs : s ∈ pieces) (h : 255 < byteLen s) : println writeStr pieces = none := by
  unfold println
  have hs : s ∈ pieces ++ [['\n']] := List.mem_append_left _ hs
  generalize pieces ++ [['\n']] = l at hs
  induction l with
  | nil => cases hs
  | cons a l ih =>
    rw [List.mapM_cons]
    rcases List.mem_cons.mp hs with rfl | hs
    · rw [writeStr_of_lt h]
      rfl
    · rw [ih hs]
      cases writeStr a <;> rfl

theorem sysExecve_truncated (path : Str) : ∃ o, w.sysExecve truncated path = some o := by
  obtain ⟨loading, hl⟩ := println_truncated ["[EXECVE] loading '".toList, path, "' -> '".toList, w.resolve path, "'...".toList]
  obtain ⟨inode, hi⟩ := w.pathWalk_some (w.resolve path)
  simp only [sysExecve, hl, hi, Option.bind_eq_bind, Option.bind_some]
  cases inode.bind w.load with
  | ok _ => exact ⟨_, rfl⟩
  | error e =>
    obtain ⟨failed, hf⟩ := println_truncated ["[EXECVE] '".toList, path, "' failed: ".toList, e.text]
    simp only [hf, Option.bind_some]
    exact ⟨_, rfl⟩

/-- Over the truncating console no call panics. -/
theorem handle_truncated (c : Call) (ptr : Option (Nat → UInt8)) : ∃ o, w.handle truncated c ptr = some o := by
  have map_some : ∀ x : Option (Except Nat Unit), (∃ r, x = some r) → ∃ o, x.map (fun ret => (⟨[], ret, w.cwd⟩ : Outcome)) = some o := by
    intro x hx
    obtain ⟨r, rfl⟩ := hx
    exact ⟨_, rfl⟩
  cases ptr with
  | none => exact ⟨_, rfl⟩
  | some mem =>
    cases c with
    | execve => exact w.sysExecve_truncated _
    | openat flags => exact map_some _ (w.sysOpen_some _ _)
    | chdir => exact w.sysChdir_some _
    | mkdirat =>
      refine map_some _ (w.sysInParent_some (fun i n => ?_) _ _)
      obtain ⟨r, hr⟩ := w.createIn_some i n true
      exact ⟨_, by rw [hr]; rfl⟩
    | unlinkat => exact map_some _ (w.sysInParent_some (fun _ _ => ⟨_, rfl⟩) _ _)
    | fstatat => exact map_some _ (bind_some_of (w.pathWalk_some _) fun _ => ⟨_, rfl⟩)

theorem sysExecve_of_short {path : Str} (h1 : byteLen path ≤ 255) (h2 : byteLen (w.resolve path) ≤ 255) :
    w.sysExecve writeStr path = w.sysExecve truncated path := by
  have hload : println writeStr ["[EXECVE] loading '".toList, path, "' -> '".toList, w.resolve path, "'...".toList] =
      println truncated ["[EXECVE] loading '".toList, path, "' -> '".toList, w.resolve path, "'...".toList] := by
    apply println_of_le
    simp only [List.forall_mem_cons, List.not_mem_nil, false_implies, implies_true, and_true]
    exact ⟨by decide, h1, by decide, h2, by decide⟩
  have hfail : ∀ e : ErrText, println writeStr ["[EXECVE] '".toList, path, "' failed: ".toList, e.text] =
      println truncated ["[EXECVE] '".toList, path, "' failed: ".toList, e.text] := by
    intro e
    apply println_of_le
    simp only [List.forall_mem_cons, List.not_mem_nil, false_implies, implies_true, and_true]
    exact ⟨by decide, h1, by decide, e.short⟩
  simp only [sysExecve, hload, hfail]

theorem sysExecve_of_long {path : Str} (h : 255 < byteLen path ∨ 255 < byteLen (w.resolve path)) :
    w.sysExecve writeStr path = none := by
  have hload : println writeStr ["[EXECVE] loading '".toList, path, "' -> '".toList, w.resolve path, "'...".toList] = none := by
    rcases h with h | h
    · exact println_of_lt (by simp) h
    · exact println_of_lt (by simp) h
  simp only [sysExecve, hload, Option.bind_eq_bind, Option.bind_none]

/-- A call goes through and prints what it means to exactly if it is not an execve of a string too long for the
    console. -/
theorem messages_iff (c : Call) (ptr : Option (Nat → UInt8)) :
    (∃ o, w.handle writeStr c ptr = some o ∧ w.handle truncated c ptr = some o) ↔ w.Short c ptr := by
  obtain ⟨o, ho⟩ := w.handle_truncated c ptr
  have same : w.handle writeStr c ptr = w.handle truncated c ptr → ∃ o, w.handle writeStr c ptr = some o ∧ w.handle truncated c ptr = some o :=
    fun e => ⟨o, e.trans ho, ho⟩
  cases ptr with
  | none =>
    refine iff_of_true (same rfl) ?_
    cases c <;> simp [Short]
  | some mem =>
    cases c with
    | execve =>
      constructor
      · intro h mem' hmem
        obtain rfl : mem = mem' := Option.some.inj hmem
        obtain ⟨o, h1, -⟩ := h
        by_contra hn
        have : w.handle writeStr .execve (some mem) = none := w.sysExecve_of_long (by omega)
        rw [h1] at this
        cases this
      · intro h
        obtain ⟨h1, h2⟩ := h mem rfl
        exact same (w.sysExecve_of_short h1 h2)
    | _ => exact iff_of_true (same rfl) trivial

/-- A world with no file systems. -/
def bare : World Unit Unit :=
  ⟨[], ['/'], fun _ => (), fun _ _ => .error noMount, fun _ _ _ => .error noMount, fun _ _ => .error noMount, fun _ => false,
    fun _ => none, fun _ => .error noMount⟩

/-- An execve of 256 bytes without a zero. -/
theorem long_execve_panics : bare.handle writeStr .execve (some fun _ => 97) = none ∧
    ∃ o, bare.handle truncated .execve (some fun _ => 97) = some o :=
  ⟨bare.sysExecve_of_long (Or.inl (by decide +kernel)), bare.handle_truncated _ _⟩

end World

end Myos.Vfs
