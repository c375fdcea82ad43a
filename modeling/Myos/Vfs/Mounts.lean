/-
  Myos.Vfs.Mounts — which mount `find_mount` takes (`rust/src/kernel/fs/vfs.rs`).

  The loop compares strings; a mount point means names. A mount path that is a prefix of
  the path as a string cuts the path between two names, or inside one.

  Proved of every table that `mount` makes and every path: the mount taken is the one
  with the most names that lead to the path, with the remaining names, exactly if no
  longest prefix cuts a name and no such mount is longer than every string prefix
  (`takes_longest_iff`). With the root mount alone it always is (`takes_longest_root`).
-/

import Myos.Vfs.Path

namespace Myos.Vfs

variable {F : Type}

/-- A mount path that is in the table stays with its file system. -/
def mount (table : List (Mount F)) (path : Str) (fs : F) : List (Mount F) :=
  if table.any fun m => decide (m.path = path) then table else table ++ [⟨path, fs⟩]

/-- The table after some calls of `mount`. -/
def mounted (calls : List (Str × F)) : List (Mount F) := calls.foldl (fun table c => mount table c.1 c.2) []

/-- The names of the mount path are the first names of the path. -/
def Leads (m : Mount F) (path : Str) : Prop := names m.path <+: names path

/-- The mount that `find_mount` takes leads to the path, with the most names, and the remaining names are returned; it
    takes none if no mount leads to the path. -/
def TakesLongest (table : List (Mount F)) (path : Str) : Prop :=
  match findMount table path with
  | none => ∀ m ∈ table, ¬ Leads m path
  | some (fs, rest) => ∃ m ∈ table, bestMount table path = some m ∧ m.fs = fs ∧ names m.path ++ names rest = names path ∧
      ∀ m' ∈ table, Leads m' path → (names m'.path).length ≤ (names m.path).length

/-- The mount path, a prefix of the path as a string, ends between two names. -/
def Between (m : Mount F) (path : Str) : Prop :=
  m.path <+: path ∧ names m.path ++ names (path.drop m.path.length) = names path

/-- A prefix that ends inside a name is shorter than one that does not, and a mount that leads to the path has no more
    names than some prefix that ends between two names. -/
def Unambiguous (table : List (Mount F)) (path : Str) : Prop :=
  (∀ m ∈ table, m.path <+: path → ¬ Between m path → ∃ m' ∈ table, Between m' path ∧ m.path.length < m'.path.length) ∧
  ∀ m ∈ table, Leads m path → ∃ m' ∈ table, Between m' path ∧ (names m.path).length ≤ (names m'.path).length

/-! ## Names of a part -/

theorem length_names_cons (c : Char) (s : Str) : (names s).length ≤ (names (c :: s)).length := by
  by_cases hc : c = '/'
  · rw [hc, names_slash]
  · unfold names
    rw [List.splitOn_cons_eq_if_modifyHead, if_neg (by simpa using hc)]
    cases s.splitOn '/' with
    | nil => exact le_rfl
    | cons a l =>
      by_cases ha : a = []
      · simp [ha]
      · simp [ha]

/-- A suffix has no more names. -/
theorem length_names_append (a b : Str) : (names b).length ≤ (names (a ++ b)).length := by
  induction a with
  | nil => exact le_rfl
  | cons c a ih => exact ih.trans (length_names_cons c _)

/-- Of two prefixes that end between names, the longer one has as many names or more. -/
theorem Between.mono {m m' : Mount F} {path : Str} (h : Between m path) (h' : Between m' path)
    (hle : m.path.length ≤ m'.path.length) : (names m.path).length ≤ (names m'.path).length := by
  obtain ⟨r, hr⟩ : ∃ r, path.drop m.path.length = r ++ path.drop m'.path.length := by
    refine ⟨(path.drop m.path.length).take (m'.path.length - m.path.length), ?_⟩
    conv_lhs => rw [← List.take_append_drop (m'.path.length - m.path.length) (path.drop m.path.length)]
    rw [List.drop_drop, Nat.add_sub_cancel' hle]
  have h1 := congrArg List.length h.2
  have h2 := congrArg List.length h'.2
  have hsub := length_names_append r (path.drop m'.path.length)
  rw [← hr] at hsub
  rw [List.length_append] at h1 h2
  omega

theorem Between.leads {m : Mount F} {path : Str} (h : Between m path) : Leads m path := ⟨_, h.2⟩

/-! ## The exact condition -/

theorem findMount_some {table : List (Mount F)} {path : Str} {b : Mount F} (h : bestMount table path = some b) :
    findMount table path = some (b.fs, path.drop b.path.length) := by rw [findMount, h, Option.map_some]

/-- Prefixes of one string with one length are one string. -/
theorem prefix_eq {m m' : Mount F} {path : Str} (h : m.path <+: path) (h' : m'.path <+: path)
    (hl : m.path.length = m'.path.length) : m.path = m'.path :=
  (List.prefix_of_prefix_length_le h h' hl.le).eq_of_length hl

theorem Between.congr {m m' : Mount F} {path : Str} (h : Between m path) (he : m.path = m'.path) : Between m' path := by
  unfold Between at *
  rwa [← he]

theorem takes_of_unambiguous {table : List (Mount F)} {path : Str} (h : Unambiguous table path) : TakesLongest table path := by
  have hL := bestMount_longest table path
  obtain ⟨hcut, hlead⟩ := h
  unfold TakesLongest
  cases hb : bestMount table path with
  | none =>
    rw [hb] at hL
    rw [findMount, hb, Option.map_none]
    intro m hm hm'
    obtain ⟨m1, h1, hbt, -⟩ := hlead m hm hm'
    exact hL m1 h1 hbt.1
  | some b =>
    rw [hb] at hL
    obtain ⟨hbm, hbp, hmax⟩ := hL
    rw [findMount_some hb]
    have hbt : Between b path := by
      by_contra hn
      obtain ⟨m1, h1, hbt, hlt⟩ := hcut b hbm hbp hn
      exact absurd (hmax m1 h1 hbt.1) (not_le.mpr hlt)
    refine ⟨b, hbm, rfl, rfl, hbt.2, fun m hm hm' => ?_⟩
    obtain ⟨m1, h1, hbt1, hle⟩ := hlead m hm hm'
    exact hle.trans (hbt1.mono hbt (hmax m1 h1 hbt1.1))

theorem unambiguous_of_takes {table : List (Mount F)} {path : Str} (h : TakesLongest table path) : Unambiguous table path := by
  have hL := bestMount_longest table path
  unfold TakesLongest at h
  cases hb : bestMount table path with
  | none =>
    rw [hb] at hL
    rw [findMount, hb, Option.map_none] at h
    exact ⟨fun m hm hp => absurd hp (hL m hm), fun m hm hl => absurd hl (h m hm)⟩
  | some b =>
    rw [hb] at hL
    obtain ⟨hbm, hbp, hmax⟩ := hL
    rw [findMount_some hb] at h
    obtain ⟨m, hm, hbm', -, hnames, hmost⟩ := h
    rw [hb] at hbm'
    obtain rfl := Option.some.inj hbm'
    have hbt : Between b path := ⟨hbp, hnames⟩
    refine ⟨fun m' hm' hp hn => ⟨b, hbm, hbt, ?_⟩, fun m' hm' hl => ⟨b, hbm, hbt, hmost m' hm' hl⟩⟩
    refine lt_of_le_of_ne (hmax m' hm' hp) fun he => hn ?_
    exact hbt.congr (prefix_eq hbp hp he.symm)

/-- Of every table that `mount` makes, and every path. -/
theorem takes_longest_iff (calls : List (Str × F)) (path : Str) :
    TakesLongest (mounted calls) path ↔ Unambiguous (mounted calls) path :=
  ⟨unambiguous_of_takes, takes_of_unambiguous⟩

/-- With the root mount alone no absolute path is ambiguous. -/
theorem unambiguous_root (fs : F) {path : Str} (h : isAbsolute path = true) : Unambiguous (mounted [(['/'], fs)]) path := by
  obtain ⟨c, hc⟩ : ∃ c, path = '/' :: c := by
    cases path with
    | nil => cases h
    | cons x c => exact ⟨c, by rw [show x = '/' by simpa [isAbsolute] using h]⟩
  have hroot : Between (⟨['/'], fs⟩ : Mount F) path := by
    rw [hc]
    exact ⟨⟨c, rfl⟩, by rw [names_slash]; rfl⟩
  have hmem : ∀ m ∈ mounted [(['/'], fs)], m = ⟨['/'], fs⟩ := by simp [mounted, mount]
  refine ⟨fun m hm _ hn => absurd (by rw [hmem m hm]; exact hroot) hn, fun m hm _ => ⟨m, hm, by rw [hmem m hm]; exact hroot, le_rfl⟩⟩

/-- A mount at `/a` takes `/ab`. -/
theorem textual_prefix_taken : findMount (mounted [(['/'], 0), (['/', 'a'], 1)]) ['/', 'a', 'b'] = some (1, ['b']) ∧
    ¬ TakesLongest (mounted [(['/'], 0), (['/', 'a'], 1)]) ['/', 'a', 'b'] := by
  refine ⟨rfl, fun h => ?_⟩
  obtain ⟨m, hm, hbt, hlt⟩ := (unambiguous_of_takes h).1 ⟨['/', 'a'], 1⟩ (by simp [mounted, mount]) ⟨['b'], rfl⟩
    (fun hb => absurd hb.2 (by decide))
  have : m = ⟨['/'], 0⟩ ∨ m = ⟨['/', 'a'], 1⟩ := by simpa [mounted, mount] using hm
  rcases this with rfl | rfl
  · exact absurd hlt (by decide)
  · exact absurd hlt (by decide)

end Myos.Vfs
