/-
  Myos.Vfs.Path — path resolution (`find_mount`, `path_walk`, `resolve_path` of
  `rust/src/kernel/fs/vfs.rs`) and the system calls that take a path
  (`rust/src/kernel/syscall.rs`).

  A path is the characters the call read; a file system is known by its root inode. What
  a call does with the inode after the path is resolved is left out.

  openat, chdir and execve walk the normal form of the path, fstatat walks an absolute
  path as it is, and mkdirat and unlinkat walk the normal form up to its last slash.

  Proved: for a mount table, a current directory and a path, all calls agree over every
  directory tree exactly if the path, when it is absolute, leads to the same file system
  and the same names as its normal form, and no mount point lies in the last component
  (`agree_iff`). With the root mount alone that is: no `.` or `..` in an absolute path
  (`agreeing_root`).
-/

import Mathlib

namespace Myos.Vfs

abbrev Str := List Char

structure Mount (F : Type) where
  path : Str
  fs : F

/-- The root inode of each file system, and the lookup of a name in an inode. -/
structure Tree (F I : Type) where
  rootInode : F → I
  lookup : I → Str → Except String I

variable {F I : Type}

/-! ## The mount table and the walk -/

/-- One turn of the loop of `find_mount`: the longest mount path so far that `path` starts with. -/
def better (path : Str) (best : Option (Mount F)) (m : Mount F) : Option (Mount F) :=
  if m.path.isPrefixOf path && best.all fun b => decide (b.path.length < m.path.length) then some m else best

def bestMount (table : List (Mount F)) (path : Str) : Option (Mount F) := table.foldl (better path) none

def findMount (table : List (Mount F)) (path : Str) : Option (F × Str) :=
  (bestMount table path).map fun m => (m.fs, path.drop m.path.length)

def pathWalk (t : Tree F I) (table : List (Mount F)) (path : Str) : Except String I :=
  match findMount table path with
  | none => .error "no mount for path"
  | some (fs, rest) =>
    let trimmed := rest.dropWhile (· == '/')
    if trimmed = [] then .ok (t.rootInode fs)
    else (trimmed.splitOn '/').foldlM (fun current component =>
      if component = [] then .ok current else t.lookup current component) (t.rootInode fs)

/-! ## Normal forms -/

def isAbsolute (path : Str) : Bool := path.head? == some '/'

/-- One segment of the path: empty and `.` segments are skipped, `..` takes the last one off. -/
def pushSegment (parts : List Str) (seg : Str) : List Str :=
  if seg = [] ∨ seg = ['.'] then parts else if seg = ['.', '.'] then parts.dropLast else parts ++ [seg]

def joinCwd (cwd path : Str) : Str :=
  if isAbsolute path then path else (if cwd.getLast? = some '/' then cwd else cwd ++ ['/']) ++ path

/-- The segments of the normal form. -/
def normalParts (path : Str) : List Str := (path.splitOn '/').foldl pushSegment []

def normalForm (cwd path : Str) : Str := '/' :: ['/'].intercalate (normalParts (joinCwd cwd path))

def resolvePath (cwd path : Str) : Except String Str := .ok (normalForm cwd path)

/-! ## The calls -/

def enoent : Nat := 2

def orEnoent {α : Type} (r : Except String α) : Except Nat α := r.mapError fun _ => enoent

def walkResolved (t : Tree F I) (table : List (Mount F)) (cwd path : Str) : Except Nat I := do
  let resolved ← orEnoent (resolvePath cwd path)
  orEnoent (pathWalk t table resolved)

/-- The inode that `openat` opens. -/
def openat (t : Tree F I) (table : List (Mount F)) (cwd path : Str) : Except Nat I := walkResolved t table cwd path

/-- The inode that `chdir` checks to be a directory. -/
def chdir (t : Tree F I) (table : List (Mount F)) (cwd path : Str) : Except Nat I := walkResolved t table cwd path

/-- The inode that `execve` reads. -/
def execve (t : Tree F I) (table : List (Mount F)) (cwd path : Str) : Except Nat I := walkResolved t table cwd path

/-- The inode whose metadata `fstatat` reports: an absolute path is not normalised. -/
def fstatat (t : Tree F I) (table : List (Mount F)) (cwd path : Str) : Except Nat I :=
  let resolved := if isAbsolute path then path else
    match resolvePath cwd path with
    | .ok p => p
    | .error _ => path
  orEnoent (pathWalk t table resolved)

/-- The part up to the last slash, and the part after it. -/
def parentPath (s : Str) : Str := (s.reverse.dropWhile (· != '/')).reverse
def lastName (s : Str) : Str := (s.reverse.takeWhile (· != '/')).reverse

/-- The directory the call acts on, and the name. -/
def inParent (t : Tree F I) (table : List (Mount F)) (cwd path : Str) : Except Nat (I × Str) := do
  let resolved ← orEnoent (resolvePath cwd path)
  if lastName resolved = [] then .error enoent
  else
    let parent ← orEnoent (pathWalk t table (parentPath resolved))
    .ok (parent, lastName resolved)

def mkdirat (t : Tree F I) (table : List (Mount F)) (cwd path : Str) : Except Nat (I × Str) := inParent t table cwd path

def unlinkat (t : Tree F I) (table : List (Mount F)) (cwd path : Str) : Except Nat (I × Str) := inParent t table cwd path

/-- The inode is the entry of that name, or there is no such entry; and a call that acts on no directory is about the
    root or a path that does not resolve. -/
def Acts (t : Tree F I) (r : Except Nat (I × Str)) (inode : Except Nat I) (resolved : Str) : Prop :=
  match r with
  | .ok (d, name) => (t.lookup d name).toOption = inode.toOption
  | .error _ => resolved = ['/'] ∨ inode.toOption = none

/-- The calls agree on a path. -/
structure Agree (t : Tree F I) (table : List (Mount F)) (cwd path : Str) : Prop where
  fstatat : (fstatat t table cwd path).toOption = (openat t table cwd path).toOption
  chdir : (chdir t table cwd path).toOption = (openat t table cwd path).toOption
  execve : (execve t table cwd path).toOption = (openat t table cwd path).toOption
  unlinkat : Acts t (unlinkat t table cwd path) (openat t table cwd path) (normalForm cwd path)
  mkdirat : Acts t (mkdirat t table cwd path) (openat t table cwd path) (normalForm cwd path)

/-- The file system and the names below its root that a path leads to. -/
def target (table : List (Mount F)) (path : Str) : Option (F × List Str) :=
  (findMount table path).map fun r => (r.1, (r.2.splitOn '/').filter (· ≠ []))

/-- An absolute path has the target of its normal form, and every mount path that the normal form starts with ends
    before its last component. -/
def Agreeing (table : List (Mount F)) (cwd path : Str) : Prop :=
  (isAbsolute path = true → target table path = target table (normalForm cwd path)) ∧
  (normalForm cwd path ≠ ['/'] →
    ∀ m ∈ table, m.path <+: normalForm cwd path → m.path <+: parentPath (normalForm cwd path))

/-! ## Names -/

/-- The names of a path. -/
def names (s : Str) : List Str := (s.splitOn '/').filter (· ≠ [])

theorem names_nil : names [] = [] := rfl

theorem names_append (a b : Str) : names (a ++ '/' :: b) = names a ++ names b := by
  rw [names, List.splitOn_append_cons_self, List.filter_append]
  rfl

theorem names_slash (b : Str) : names ('/' :: b) = names b := names_append [] b

theorem names_single {n : Str} (h : '/' ∉ n) (h0 : n ≠ []) : names n = [n] := by
  rw [names, List.splitOn_eq_singleton h, List.filter_cons_of_pos (by simpa using h0), List.filter_nil]

theorem names_plain {n : Str} (h : '/' ∉ n) : names n = [] ∨ names n = [n] := by
  by_cases h0 : n = []
  · left; rw [h0, names_nil]
  · exact Or.inr (names_single h h0)

theorem names_dropWhile (s : Str) : names (s.dropWhile (· == '/')) = names s := by
  induction s with
  | nil => rfl
  | cons c s ih =>
    by_cases hc : c = '/'
    · subst hc
      rw [List.dropWhile_cons_of_pos (by simp), ih, names_slash]
    · rw [List.dropWhile_cons_of_neg (by simpa using hc)]

/-- Skipping the empty segments is walking the others. -/
theorem foldlM_skip (t : Tree F I) (l : List Str) (i : I) :
    l.foldlM (fun current component => if component = [] then .ok current else t.lookup current component) i =
      (l.filter (· ≠ [])).foldlM t.lookup i := by
  induction l generalizing i with
  | nil => rfl
  | cons c l ih =>
    by_cases hc : c = []
    · subst hc
      rw [List.foldlM_cons, if_pos rfl, List.filter_cons_of_neg (by simp)]
      exact ih i
    · rw [List.foldlM_cons, if_neg hc, List.filter_cons_of_pos (by simpa using hc), List.foldlM_cons]
      congr 1
      funext i'
      exact ih i'

/-- The walk is the lookup of the names of the target. -/
theorem pathWalk_eq (t : Tree F I) (table : List (Mount F)) (path : Str) :
    pathWalk t table path = match target table path with
      | none => .error "no mount for path"
      | some (fs, l) => l.foldlM t.lookup (t.rootInode fs) := by
  unfold pathWalk target
  cases findMount table path with
  | none => rfl
  | some r =>
    obtain ⟨fs, rest⟩ := r
    have hn := names_dropWhile rest
    dsimp only [Option.map_some]
    rw [← show names rest = (rest.splitOn '/').filter (· ≠ []) from rfl, ← hn]
    split
    · rename_i h0
      rw [h0, names_nil]; rfl
    · exact foldlM_skip t _ _

/-! ## The longest mount -/

theorem better_of_matching {path : Str} {m : Mount F} (h : m.path <+: path) (best : Option (Mount F)) :
    better path best m = if best.all fun b => decide (b.path.length < m.path.length) then some m else best := by
  unfold better
  rw [List.isPrefixOf_iff_prefix.mpr h, Bool.true_and]

theorem better_of_not {path : Str} {m : Mount F} (h : ¬ m.path <+: path) (best : Option (Mount F)) :
    better path best m = best := by
  unfold better
  rw [if_neg]
  rw [Bool.and_eq_true, List.isPrefixOf_iff_prefix]
  exact fun e => h e.1

theorem bestMount_congr {table : List (Mount F)} {p q : Str} (h : ∀ m ∈ table, m.path <+: p ↔ m.path <+: q) :
    bestMount table p = bestMount table q := by
  unfold bestMount
  generalize (none : Option (Mount F)) = best
  induction table generalizing best with
  | nil => rfl
  | cons m l ih =>
    have hm := h m List.mem_cons_self
    have he : better p best m = better q best m := by
      by_cases hp : m.path <+: p
      · rw [better_of_matching hp, better_of_matching (hm.mp hp)]
      · rw [better_of_not hp, better_of_not fun e => hp (hm.mpr e)]
    rw [List.foldl_cons, List.foldl_cons, he]
    exact ih (fun m' hm' => h m' (List.mem_cons_of_mem _ hm')) _

/-- What the loop of `find_mount` has found: a mount path that `path` starts with, and none seen so far is longer. -/
def Longest (seen : List (Mount F)) (path : Str) : Option (Mount F) → Prop
  | none => ∀ m ∈ seen, ¬ m.path <+: path
  | some b => b ∈ seen ∧ b.path <+: path ∧ ∀ m ∈ seen, m.path <+: path → m.path.length ≤ b.path.length

theorem Longest.better {seen : List (Mount F)} {path : Str} {best : Option (Mount F)} (h : Longest seen path best)
    (m : Mount F) : Longest (seen ++ [m]) path (better path best m) := by
  have keep : ∀ b : Mount F, b ∈ seen → b ∈ seen ++ [m] := fun b hb => List.mem_append_left _ hb
  have last : m ∈ seen ++ [m] := List.mem_append_right _ (List.mem_singleton_self m)
  have split : ∀ m' ∈ seen ++ [m], m' ∈ seen ∨ m' = m := fun m' hm' =>
    (List.mem_append.mp hm').imp_right List.mem_singleton.mp
  by_cases hp : m.path <+: path
  · rw [better_of_matching hp]
    cases best with
    | none =>
      refine ⟨last, hp, fun m' hm' hpre => ?_⟩
      rcases split m' hm' with hs | rfl
      · exact absurd hpre (h m' hs)
      · exact le_refl _
    | some b =>
      obtain ⟨hb, hbp, hmax⟩ := h
      by_cases hlt : b.path.length < m.path.length
      · rw [if_pos (by simpa using hlt)]
        refine ⟨last, hp, fun m' hm' hpre => ?_⟩
        rcases split m' hm' with hs | rfl
        · exact (hmax m' hs hpre).trans hlt.le
        · exact le_refl _
      · rw [if_neg (by simpa using hlt)]
        refine ⟨keep b hb, hbp, fun m' hm' hpre => ?_⟩
        rcases split m' hm' with hs | rfl
        · exact hmax m' hs hpre
        · omega
  · rw [better_of_not hp]
    cases best with
    | none =>
      intro m' hm'
      rcases split m' hm' with hs | rfl
      · exact h m' hs
      · exact hp
    | some b =>
      obtain ⟨hb, hbp, hmax⟩ := h
      refine ⟨keep b hb, hbp, fun m' hm' hpre => ?_⟩
      rcases split m' hm' with hs | rfl
      · exact hmax m' hs hpre
      · exact absurd hpre hp

theorem bestMount_longest (table : List (Mount F)) (path : Str) : Longest table path (bestMount table path) := by
  have run : ∀ (l seen : List (Mount F)) (best : Option (Mount F)), Longest seen path best →
      Longest (seen ++ l) path (l.foldl (better path) best) := by
    intro l
    induction l with
    | nil => intro seen best h; rwa [List.append_nil]
    | cons m l ih =>
      intro seen best h
      have := ih (seen ++ [m]) _ (h.better m)
      rwa [List.append_assoc] at this
  exact run table [] none (by intro m hm; cases hm)

/-! ## The last component -/

theorem parentPath_lastName (s : Str) : parentPath s ++ lastName s = s := by
  rw [parentPath, lastName, ← List.reverse_append, List.takeWhile_append_dropWhile, List.reverse_reverse]

theorem lastName_plain (s : Str) : '/' ∉ lastName s := by
  intro h
  rw [lastName, List.mem_reverse] at h
  have := List.mem_takeWhile_imp h
  simp at this

theorem lastName_root : lastName ['/'] = [] := by decide

/-- Before the last component the same mounts are found, so the target is the parent's with one more name. -/
theorem target_append {table : List (Mount F)} {p n : Str} (hn : '/' ∉ n) (h0 : n ≠ [])
    (h : ∀ m ∈ table, m.path <+: p ++ ['/'] ++ n → m.path <+: p ++ ['/']) :
    target table (p ++ ['/'] ++ n) = (target table (p ++ ['/'])).map fun r => (r.1, r.2 ++ [n]) := by
  have hb : bestMount table (p ++ ['/'] ++ n) = bestMount table (p ++ ['/']) :=
    bestMount_congr fun m hm => ⟨h m hm, fun e => e.trans (List.prefix_append _ _)⟩
  have hL := bestMount_longest table (p ++ ['/'])
  unfold target findMount
  rw [hb]
  cases hbm : bestMount table (p ++ ['/']) with
  | none => rfl
  | some b =>
    rw [hbm] at hL
    obtain ⟨r, hr⟩ := hL.2.1
    have hnames : names (r ++ n) = names r ++ [n] := by
      rcases r.eq_nil_or_concat with rfl | ⟨r', c, rfl⟩
      · rw [List.nil_append, names_single hn h0, names_nil, List.nil_append]
      · rw [List.concat_eq_append, ← List.append_assoc] at hr
        obtain ⟨-, hc⟩ := List.append_inj' hr rfl
        obtain rfl : c = '/' := by simpa using hc
        rw [List.concat_eq_append, List.append_assoc, List.singleton_append, names_append, names_single hn h0,
          names_append, names_nil, List.append_nil]
    rw [Option.map_some, Option.map_some, Option.map_some, Option.map_some, ← hr, List.append_assoc,
      List.drop_left, List.drop_left]
    exact congrArg (fun l => some (b.fs, l)) hnames

/-- A mount path that ends inside the last component leads to at most one name. -/
theorem target_inside {table : List (Mount F)} {p n : Str} (hn : '/' ∉ n) {m : Mount F} (hm : m ∈ table)
    (h1 : m.path <+: p ++ ['/'] ++ n) (h2 : ¬ m.path <+: p ++ ['/']) :
    ∃ f l, target table (p ++ ['/'] ++ n) = some (f, l) ∧ ∀ l', l ≠ l' ++ [n] := by
  have hL := bestMount_longest table (p ++ ['/'] ++ n)
  unfold target findMount
  cases hbm : bestMount table (p ++ ['/'] ++ n) with
  | none =>
    rw [hbm] at hL
    exact absurd h1 (hL m hm)
  | some b =>
    rw [hbm] at hL
    obtain ⟨-, hbp, hmax⟩ := hL
    have hlen : (p ++ ['/']).length < b.path.length := by
      refine lt_of_lt_of_le ?_ (hmax m hm h1)
      by_contra hle
      exact h2 (List.prefix_of_prefix_length_le h1 (List.prefix_append _ _) (not_lt.mp hle))
    -- what is left after the mount path is a proper part of the last component
    obtain ⟨n1, hn1⟩ := List.prefix_of_prefix_length_le (List.prefix_append _ n) hbp hlen.le
    obtain ⟨n2, hn2⟩ := hbp
    rw [← hn1, List.append_assoc, List.append_cancel_left_eq] at hn2
    have hdrop : (p ++ ['/'] ++ n).drop b.path.length = n2 := by
      rw [← hn2, ← List.append_assoc, hn1, List.drop_left]
    have hlt : n2.length < n.length := by
      have h3 := congrArg List.length hn1
      rw [← hn2]
      simp only [List.length_append] at h3 hlen ⊢
      omega
    refine ⟨b.fs, names n2, by rw [Option.map_some, Option.map_some, hdrop]; rfl, fun l' e => ?_⟩
    have hmem : n ∈ names n2 := by rw [e]; exact List.mem_append_right _ (List.mem_singleton_self n)
    have hs : '/' ∉ n2 := fun hx => hn (by rw [← hn2]; exact List.mem_append_right _ hx)
    rcases names_plain hs with e' | e' <;> rw [e'] at hmem
    · cases hmem
    · rw [List.mem_singleton.mp hmem] at hlt
      exact lt_irrefl _ hlt

/-! ## Normal forms end with a name -/

theorem segment_plain (s : Str) : ∀ seg ∈ s.splitOn '/', '/' ∉ seg := by
  induction s with
  | nil =>
    intro seg hseg
    rw [List.splitOn_nil, List.mem_singleton] at hseg
    rw [hseg]
    exact List.not_mem_nil
  | cons c s ih =>
    intro seg hseg
    by_cases hc : c = '/'
    · rw [hc, ← List.nil_append ('/' :: s), List.splitOn_append_cons_self, List.splitOn_nil, List.singleton_append,
        List.mem_cons] at hseg
      rcases hseg with rfl | hseg
      · exact List.not_mem_nil
      · exact ih seg hseg
    · rw [List.splitOn_cons_eq_if_modifyHead, if_neg (by simpa using hc)] at hseg
      cases hs : s.splitOn '/' with
      | nil => exact absurd hs (List.splitOn_ne_nil _ _)
      | cons w l =>
        rw [hs] at hseg ih
        rw [List.modifyHead_cons, List.mem_cons] at hseg
        rcases hseg with rfl | hseg
        · rw [List.mem_cons]
          rintro (e | e)
          · exact hc e.symm
          · exact ih w List.mem_cons_self e
        · exact ih seg (List.mem_cons_of_mem _ hseg)

theorem normalParts_plain (path : Str) : ∀ part ∈ normalParts path, part ≠ [] ∧ '/' ∉ part := by
  have run : ∀ (l parts : List Str), (∀ seg ∈ l, '/' ∉ seg) → (∀ part ∈ parts, part ≠ [] ∧ '/' ∉ part) →
      ∀ part ∈ l.foldl pushSegment parts, part ≠ [] ∧ '/' ∉ part := by
    intro l
    induction l with
    | nil => intro parts _ h; exact h
    | cons seg l ih =>
      intro parts hl h
      apply ih _ (fun s hs => hl s (List.mem_cons_of_mem _ hs))
      intro part hpart
      unfold pushSegment at hpart
      split at hpart
      · exact h part hpart
      · rename_i hseg
        split at hpart
        · exact h part (List.mem_of_mem_dropLast hpart)
        · rcases List.mem_append.mp hpart with hpart | hpart
          · exact h part hpart
          · rw [List.mem_singleton.mp hpart]
            exact ⟨fun e => hseg (Or.inl e), hl seg List.mem_cons_self⟩
  exact run _ [] (segment_plain path) (by intro part hpart; cases hpart)

theorem intercalate_last (l : List Str) (n : Str) :
    ∃ p, '/' :: ['/'].intercalate (l ++ [n]) = p ++ ['/'] ++ n := by
  induction l with
  | nil => exact ⟨[], by simp [List.intercalate]⟩
  | cons a l ih =>
    obtain ⟨p, hp⟩ := ih
    refine ⟨'/' :: a ++ p, ?_⟩
    have hcons : ['/'].intercalate (a :: l ++ [n]) = a ++ '/' :: ['/'].intercalate (l ++ [n]) := by
      cases l <;> simp [List.intercalate]
    rw [hcons, hp]
    simp

theorem lastName_append (p : Str) {n : Str} (hn : '/' ∉ n) : lastName (p ++ ['/'] ++ n) = n := by
  have h : ∀ c ∈ n.reverse, (c != '/') = true := fun c hc => by
    rw [bne_iff_ne]
    rintro rfl
    exact hn (List.mem_reverse.mp hc)
  rw [lastName, List.reverse_append, List.reverse_append, List.takeWhile_append_of_pos h]
  simp

/-- A normal form is the root, or ends with a name. -/
theorem normalForm_cases (cwd path : Str) : normalForm cwd path = ['/'] ∨
    ∃ p n, normalForm cwd path = p ++ ['/'] ++ n ∧ '/' ∉ n ∧ n ≠ [] ∧
      parentPath (normalForm cwd path) = p ++ ['/'] ∧ lastName (normalForm cwd path) = n := by
  unfold normalForm
  rcases (normalParts (joinCwd cwd path)).eq_nil_or_concat with h | ⟨l, n, h⟩
  · left
    rw [h]; rfl
  · right
    rw [List.concat_eq_append] at h
    obtain ⟨h0, hn⟩ := normalParts_plain (joinCwd cwd path) n
      (by rw [h]; exact List.mem_append_right _ (List.mem_singleton_self n))
    rw [h]
    obtain ⟨p, hp⟩ := intercalate_last l n
    have hl := lastName_append p hn
    refine ⟨p, n, hp, hn, h0, ?_, by rw [hp, hl]⟩
    have := parentPath_lastName (p ++ ['/'] ++ n)
    rw [hl, List.append_left_inj] at this
    rw [hp, this]

/-! ## Agreement -/

theorem orEnoent_toOption {α : Type} (r : Except String α) : (orEnoent r).toOption = r.toOption := by
  cases r <;> rfl

theorem openat_toOption (t : Tree F I) (table : List (Mount F)) (cwd path : Str) :
    (openat t table cwd path).toOption = (pathWalk t table (normalForm cwd path)).toOption := orEnoent_toOption _

theorem fstatat_absolute (t : Tree F I) (table : List (Mount F)) (cwd : Str) {path : Str} (h : isAbsolute path = true) :
    (fstatat t table cwd path).toOption = (pathWalk t table path).toOption := by
  unfold fstatat
  rw [if_pos h]
  exact orEnoent_toOption _

theorem fstatat_relative (t : Tree F I) (table : List (Mount F)) (cwd : Str) {path : Str}
    (h : ¬ isAbsolute path = true) : (fstatat t table cwd path).toOption = (openat t table cwd path).toOption := by
  unfold fstatat
  rw [if_neg h]
  rfl

theorem inParent_root (t : Tree F I) (table : List (Mount F)) {cwd path : Str} (h : normalForm cwd path = ['/']) :
    inParent t table cwd path = .error enoent := by
  have h0 : lastName (normalForm cwd path) = [] := by rw [h]; decide
  show (if lastName (normalForm cwd path) = [] then _ else _) = _
  rw [if_pos h0]

theorem inParent_name (t : Tree F I) (table : List (Mount F)) {cwd path : Str}
    (h : lastName (normalForm cwd path) ≠ []) : inParent t table cwd path =
      (orEnoent (pathWalk t table (parentPath (normalForm cwd path)))).map fun d => (d, lastName (normalForm cwd path)) := by
  show (if lastName (normalForm cwd path) = [] then _ else _) = _
  rw [if_neg h]
  show (do
    let parent ← orEnoent (pathWalk t table (parentPath (normalForm cwd path)))
    Except.ok (parent, lastName (normalForm cwd path))) = _
  generalize pathWalk t table (parentPath (normalForm cwd path)) = r
  cases r <;> rfl

/-- A name more is a lookup more. -/
theorem pathWalk_append (t : Tree F I) {table : List (Mount F)} {p n : Str} (hn : '/' ∉ n) (h0 : n ≠ [])
    (h : ∀ m ∈ table, m.path <+: p ++ ['/'] ++ n → m.path <+: p ++ ['/']) :
    pathWalk t table (p ++ ['/'] ++ n) = (pathWalk t table (p ++ ['/'])).bind fun d => t.lookup d n := by
  rw [pathWalk_eq, pathWalk_eq, target_append hn h0 h]
  cases target table (p ++ ['/']) with
  | none => rfl
  | some r =>
    rw [Option.map_some]
    dsimp only
    rw [List.foldlM_append]
    show _ = bind _ _
    congr 1
    funext d
    rw [List.foldlM_cons]
    cases t.lookup d n <;> rfl

/-- Every name leads on. -/
def allNames (F : Type) : Tree F (F × List Str) := ⟨fun f => (f, []), fun d n => .ok (d.1, d.2 ++ [n])⟩

theorem allNames_walk (table : List (Mount F)) (path : Str) :
    (pathWalk (allNames F) table path).toOption = target table path := by
  have walk : ∀ (l l' : List Str) (f : F), l.foldlM (allNames F).lookup (f, l') = .ok (f, l' ++ l) := by
    intro l
    induction l with
    | nil => intro l' f; rw [List.append_nil]; rfl
    | cons n l ih =>
      intro l' f
      rw [List.foldlM_cons]
      exact (ih (l' ++ [n]) f).trans (by rw [List.append_assoc, List.singleton_append])
  rw [pathWalk_eq]
  cases target table path with
  | none => rfl
  | some r =>
    show (r.2.foldlM (allNames F).lookup (r.1, [])).toOption = _
    rw [walk, List.nil_append]; rfl

theorem Agreeing.acts {table : List (Mount F)} {cwd path : Str} (h : Agreeing table cwd path) (t : Tree F I) :
    Acts t (inParent t table cwd path) (openat t table cwd path) (normalForm cwd path) := by
  rcases normalForm_cases cwd path with h0 | ⟨p, n, hp, hn, hn0, hpar, hlast⟩
  · rw [inParent_root t table h0]
    exact Or.inl h0
  have hroot : normalForm cwd path ≠ ['/'] := by
    intro e
    rw [e, lastName_root] at hlast
    exact hn0 hlast.symm
  have hpre := h.2 hroot
  rw [hpar, hp] at hpre
  have hw := pathWalk_append t hn hn0 hpre
  rw [inParent_name t table (by rw [hlast]; exact hn0), hpar, hlast]
  cases hd : pathWalk t table (p ++ ['/']) with
  | error e =>
    right
    rw [openat_toOption, hp, hw, hd]; rfl
  | ok d =>
    show (t.lookup d n).toOption = _
    rw [openat_toOption, hp, hw, hd]; rfl

/-- Over every directory tree the calls agree exactly if the targets do. -/
theorem agree_iff (table : List (Mount F)) (cwd path : Str) :
    (∀ {I : Type} (t : Tree F I), Agree t table cwd path) ↔ Agreeing table cwd path := by
  constructor
  · intro h
    obtain ⟨hf, -, -, hu, -⟩ := h (allNames F)
    refine ⟨fun ha => ?_, fun hroot m hm h1 => ?_⟩
    · rw [fstatat_absolute _ _ _ ha, openat_toOption, allNames_walk, allNames_walk] at hf
      exact hf
    · rcases normalForm_cases cwd path with h0 | ⟨p, n, hp, hn, hn0, hpar, hlast⟩
      · exact absurd h0 hroot
      rw [hpar]
      rw [hp] at h1
      by_contra h2
      obtain ⟨f, l, ht, hl⟩ := target_inside hn hm h1 h2
      have hopen : (openat (allNames F) table cwd path).toOption = some (f, l) := by
        rw [openat_toOption, allNames_walk, hp, ht]
      have hu : Acts (allNames F) (inParent (allNames F) table cwd path) _ _ := hu
      rw [inParent_name _ _ (by rw [hlast]; exact hn0), hpar, hlast] at hu
      cases hd : pathWalk (allNames F) table (p ++ ['/']) with
      | error e =>
        rw [hd] at hu
        rcases hu with e | e
        · exact hroot e
        · rw [hopen] at e; cases e
      | ok d =>
        rw [hd] at hu
        have hu : some (d.1, d.2 ++ [n]) = (openat (allNames F) table cwd path).toOption := hu
        rw [hopen] at hu
        exact hl d.2 (congrArg Prod.snd (Option.some.inj hu)).symm
  · intro h I t
    refine ⟨?_, rfl, rfl, h.acts t, h.acts t⟩
    by_cases ha : isAbsolute path = true
    · rw [fstatat_absolute _ _ _ ha, openat_toOption, pathWalk_eq, pathWalk_eq, h.1 ha]
    · exact fstatat_relative t table cwd ha

/-! ## The root mount alone -/

theorem names_normalForm (cwd path : Str) : names (normalForm cwd path) = normalParts (joinCwd cwd path) := by
  have hp := normalParts_plain (joinCwd cwd path)
  rw [normalForm, names_slash]
  generalize normalParts (joinCwd cwd path) = parts at *
  by_cases h0 : parts = []
  · rw [h0]; rfl
  · rw [names, List.splitOn_intercalate '/' (fun l hl => (hp l hl).2) h0, List.filter_eq_self]
    exact fun part hpart => by simpa using (hp part hpart).1

theorem foldl_pushSegment_dots : ∀ (l parts : List Str), (∀ part ∈ parts, part ≠ ['.'] ∧ part ≠ ['.', '.']) →
    ∀ part ∈ l.foldl pushSegment parts, part ≠ ['.'] ∧ part ≠ ['.', '.'] := by
  intro l
  induction l with
  | nil => intro parts h; exact h
  | cons seg l ih =>
    intro parts h
    apply ih
    intro part hpart
    unfold pushSegment at hpart
    split at hpart
    · exact h part hpart
    · rename_i h1
      split at hpart
      · exact h part (List.mem_of_mem_dropLast hpart)
      · rename_i h2
        rcases List.mem_append.mp hpart with hpart | hpart
        · exact h part hpart
        · rw [List.mem_singleton.mp hpart]
          exact ⟨fun e => h1 (Or.inr e), h2⟩

theorem normalParts_dots (path : Str) : ∀ part ∈ normalParts path, part ≠ ['.'] ∧ part ≠ ['.', '.'] :=
  foldl_pushSegment_dots _ [] (by intro part hpart; cases hpart)

/-- Names other than `.` and `..` are kept. -/
theorem foldl_pushSegment_keep : ∀ (l parts : List Str), (∀ name ∈ l.filter (· ≠ []), name ≠ ['.'] ∧ name ≠ ['.', '.']) →
    l.foldl pushSegment parts = parts ++ l.filter (· ≠ []) := by
  intro l
  induction l with
  | nil => intro parts _; rw [List.filter_nil, List.append_nil]; rfl
  | cons seg l ih =>
    intro parts h
    by_cases h0 : seg = []
    · rw [List.filter_cons_of_neg (by simpa using h0)] at h ⊢
      rw [List.foldl_cons, pushSegment, if_pos (Or.inl h0), ih parts h]
    · rw [List.filter_cons_of_pos (by simpa using h0)] at h ⊢
      obtain ⟨h1, h2⟩ := h seg List.mem_cons_self
      rw [List.foldl_cons, pushSegment, if_neg (by rintro (e | e); exacts [h0 e, h1 e]), if_neg h2,
        ih _ fun n hn => h n (List.mem_cons_of_mem _ hn), List.append_assoc, List.singleton_append]

/-- The segments of a normal form are names other than `.` and `..`, and a path without these keeps its names. -/
theorem normalParts_eq_iff (path : Str) :
    normalParts path = names path ↔ ∀ name ∈ names path, name ≠ ['.'] ∧ name ≠ ['.', '.'] := by
  constructor
  · intro h name hname
    rw [← h] at hname
    exact normalParts_dots path name hname
  · intro h
    exact foldl_pushSegment_keep _ [] h

theorem target_root (fs : F) {path : Str} (h : isAbsolute path = true) :
    target [⟨['/'], fs⟩] path = some (fs, names path) := by
  obtain ⟨c, hc⟩ : ∃ c, path = '/' :: c := by
    cases path with
    | nil => cases h
    | cons x c =>
      have : x = '/' := by simpa [isAbsolute] using h
      exact ⟨c, by rw [this]⟩
  subst hc
  have hpre : ['/'] <+: '/' :: c := ⟨c, rfl⟩
  unfold target findMount bestMount
  rw [List.foldl_cons, List.foldl_nil, better_of_matching (m := ⟨['/'], fs⟩) hpre, names_slash]
  rfl

/-- With the root mount alone the calls agree exactly if an absolute path has no `.` and no `..`. -/
theorem agreeing_root (fs : F) (cwd path : Str) : Agreeing [⟨['/'], fs⟩] cwd path ↔
    (isAbsolute path = true → ∀ name ∈ names path, name ≠ ['.'] ∧ name ≠ ['.', '.']) := by
  have htarget : isAbsolute path = true → (target [⟨['/'], fs⟩] path = target [⟨['/'], fs⟩] (normalForm cwd path) ↔
      ∀ name ∈ names path, name ≠ ['.'] ∧ name ≠ ['.', '.']) := by
    intro ha
    rw [target_root fs ha, target_root fs (show isAbsolute (normalForm cwd path) = true from rfl), names_normalForm, joinCwd, if_pos ha,
      ← normalParts_eq_iff, Option.some.injEq, Prod.mk.injEq, eq_comm (a := names path)]
    exact and_iff_right rfl
  constructor
  · intro h ha
    exact (htarget ha).mp (h.1 ha)
  · intro h
    refine ⟨fun ha => (htarget ha).mpr (h ha), fun hroot m hm h1 => ?_⟩
    rw [List.mem_singleton] at hm
    subst hm
    rcases normalForm_cases cwd path with h0 | ⟨p, n, hp, -, -, hpar, -⟩
    · exact absurd h0 hroot
    · rw [hpar]
      rw [hp] at h1
      exact List.prefix_of_prefix_length_le h1 (List.prefix_append _ _) (by simp)

/-- An absolute path with a `.` in it: `openat` finds the file, `fstatat` fails. -/
theorem dot_in_absolute : ∃ t : Tree Unit Nat,
    openat t [⟨['/'], ()⟩] ['/'] ['/', '.', '/', 'a'] = .ok 1 ∧
    fstatat t [⟨['/'], ()⟩] ['/'] ['/', '.', '/', 'a'] = .error enoent :=
  ⟨⟨fun _ => 0, fun d n => if d = 0 ∧ n = ['a'] then .ok 1 else .error "not found"⟩, by decide, by decide⟩

end Myos.Vfs
