/-
  Myos.Vfs.NormalForm — the laws of `resolve_path` (`rust/src/kernel/fs/vfs.rs`) and the current
  directory that `chdir` sets (`rust/src/kernel/syscall.rs`).

  A normal form is the stack of its segments; the segments of a longer path are pushed on the
  stack of its front.

  Proved of any current directory and any path: the result is in normal form, resolving it again
  changes nothing, and resolving in two steps is resolving the joined path. After `chdir`, which
  writes the last name as the directory has it, that holds up to the case of letters.
-/

import Myos.Vfs.Path

namespace Myos.Vfs

/-- The root, or `/` with names other than `.` and `..` between slashes. -/
structure Normal (s : Str) : Prop where
  absolute : isAbsolute s = true
  segments : s ≠ ['/'] → ∀ seg ∈ s.tail.splitOn '/', seg ≠ [] ∧ seg ≠ ['.'] ∧ seg ≠ ['.', '.']
  trailing : s ≠ ['/'] → s.getLast? ≠ some '/'

/-- ASCII letters in lower case. -/
def lower (s : Str) : Str := s.map Char.toLower

/-- `lookup_real_name` in the names of a directory. -/
def lookupRealName (entries : List Str) (name : Str) : Except String Str :=
  match entries.find? fun e => lower e = lower name with
  | some e => .ok e
  | none => .error "entry not found in parent directory"

/-- The current directory after `chdir`: `parent` lists the names next to the last one, where it can be read. -/
def chdirCwd (parent : Option (List Str)) (resolved : Str) : Str :=
  if resolved = ['/'] then ['/']
  else
    let last := lastName resolved
    let realName := match parent.map fun entries => lookupRealName entries last with
      | some (.ok name) => name
      | _ => last
    parentPath resolved ++ realName

/-! ## The stack of segments -/

theorem normalParts_names (s : Str) : normalParts s = (names s).foldl pushSegment [] := by
  have skip : ∀ (l parts : List Str), l.foldl pushSegment parts = (l.filter (· ≠ [])).foldl pushSegment parts := by
    intro l
    induction l with
    | nil => exact fun _ => rfl
    | cons seg l ih =>
      intro parts
      by_cases h0 : seg = []
      · rw [List.filter_cons_of_neg (by simpa using h0), List.foldl_cons, pushSegment, if_pos (Or.inl h0)]
        exact ih parts
      · rw [List.filter_cons_of_pos (by simpa using h0), List.foldl_cons, List.foldl_cons]
        exact ih _
  exact skip _ []

/-- The segments after a slash are pushed on the stack of what is before it. -/
theorem normalParts_append (a b : Str) : normalParts (a ++ '/' :: b) = (names b).foldl pushSegment (normalParts a) := by
  rw [normalParts_names, normalParts_names a, names_append, List.foldl_append]

theorem normalParts_normalForm (cwd path : Str) : normalParts (normalForm cwd path) = normalParts (joinCwd cwd path) := by
  have h := names_normalForm cwd path
  rw [← h]
  apply (normalParts_eq_iff _).mpr
  rw [h]
  exact normalParts_dots _

theorem normalParts_joinCwd {cwd path : Str} (h : isAbsolute path = false) :
    normalParts (joinCwd cwd path) = (names path).foldl pushSegment (normalParts cwd) := by
  rw [joinCwd, if_neg (by rw [h]; exact Bool.false_ne_true)]
  split
  · rename_i hl
    obtain ⟨c, rfl⟩ : ∃ c, cwd = c ++ ['/'] := List.getLast?_eq_some_iff.mp hl
    rw [List.append_assoc, List.singleton_append, normalParts_append, normalParts_append c [], names_nil, List.foldl_nil]
  · rw [List.append_assoc, List.singleton_append, normalParts_append]

theorem isAbsolute_append {a : Str} (h : a ≠ []) (b : Str) : isAbsolute (a ++ b) = isAbsolute a := by
  cases a with
  | nil => exact absurd rfl h
  | cons c a => rfl

theorem joinCwd_append (cwd : Str) {a : Str} (h : a ≠ []) (b : Str) : joinCwd cwd (a ++ '/' :: b) = joinCwd cwd a ++ '/' :: b := by
  unfold joinCwd
  rw [isAbsolute_append h]
  split
  · rfl
  · rw [List.append_assoc]

/-! ## The laws -/

theorem normalForm_normal (cwd path : Str) : Normal (normalForm cwd path) := by
  have hp := normalParts_plain (joinCwd cwd path)
  have hd := normalParts_dots (joinCwd cwd path)
  have hlast := normalForm_cases cwd path
  refine ⟨rfl, fun hroot seg hseg => ?_, fun hroot => ?_⟩
  · unfold normalForm at hroot hseg
    have h0 : normalParts (joinCwd cwd path) ≠ [] := fun e => hroot (by rw [e]; rfl)
    rw [List.tail_cons, List.splitOn_intercalate '/' (fun l hl => (hp l hl).2) h0] at hseg
    exact ⟨(hp seg hseg).1, hd seg hseg⟩
  · rcases hlast with h | ⟨p, n, h, hn, hn0, -, -⟩
    · exact absurd h hroot
    · rw [h, List.getLast?_append_of_ne_nil _ hn0]
      intro he
      exact hn (List.mem_of_getLast? he)

/-- Resolving a normal form gives it back, whatever the current directory. -/
theorem normalForm_idem (cwd cwd' path : Str) : normalForm cwd (normalForm cwd' path) = normalForm cwd' path := by
  have hj : joinCwd cwd (normalForm cwd' path) = normalForm cwd' path := if_pos rfl
  rw [normalForm, hj, normalParts_normalForm]
  rfl

/-- A relative path from a normal form is the joined path. -/
theorem normalForm_compose (cwd : Str) {a b : Str} (ha : a ≠ []) (hb : isAbsolute b = false) :
    normalForm (normalForm cwd a) b = normalForm cwd (a ++ '/' :: b) := by
  rw [normalForm, normalParts_joinCwd hb, normalParts_normalForm, ← normalParts_append, ← joinCwd_append cwd ha]
  rfl

/-! ## Letters in lower case -/

theorem toNat_toLower (c : Char) : c.toLower.toNat = if 65 ≤ c.toNat ∧ c.toNat ≤ 90 then c.toNat + 32 else c.toNat := by
  unfold Char.toLower
  split
  · rename_i h
    have h1 : 65 ≤ c.toNat := h.1
    have h2 : c.toNat ≤ 90 := h.2
    have hv : c.val.toNat = c.toNat := rfl
    rw [if_pos ⟨h1, h2⟩]
    show (c.val + ('a'.val - 'A'.val)).toNat = _
    rw [UInt32.toNat_add, hv, show ('a'.val - 'A'.val).toNat = 32 from rfl]
    omega
  · rename_i h
    rw [if_neg]
    intro hc
    exact h hc

/-- No letter becomes a slash or a dot. -/
theorem toLower_eq_iff {c x : Char} (hx : x.toNat < 65) : c.toLower = x ↔ c = x := by
  have hc := toNat_toLower c
  constructor
  · intro h
    rw [h] at hc
    apply Char.ext
    apply UInt32.toNat_inj.mp
    show c.toNat = x.toNat
    split at hc <;> omega
  · rintro rfl
    apply Char.ext
    apply UInt32.toNat_inj.mp
    show c.toLower.toNat = c.toNat
    rw [hc, if_neg (by omega)]

theorem lower_append (a b : Str) : lower (a ++ b) = lower a ++ lower b := List.map_append

theorem lower_eq_dots {s : Str} {n : Nat} : lower s = List.replicate n '.' ↔ s = List.replicate n '.' := by
  unfold lower
  induction n generalizing s with
  | zero => simp
  | succ n ih =>
    cases s with
    | nil => simp
    | cons c s => rw [List.map_cons, List.replicate_succ, List.cons.injEq, List.cons.injEq, ih, toLower_eq_iff (by decide)]

theorem lower_splitOn (s : Str) : (lower s).splitOn '/' = (s.splitOn '/').map lower := by
  induction s with
  | nil => rfl
  | cons c s ih =>
    rw [show lower (c :: s) = c.toLower :: lower s from rfl, List.splitOn_cons_eq_if_modifyHead, List.splitOn_cons_eq_if_modifyHead, ih]
    by_cases hc : c = '/'
    · rw [if_pos (by rw [hc]; rfl), if_pos (by rw [hc]; rfl)]
      rfl
    · have hl : ¬ c.toLower = '/' := fun e => hc ((toLower_eq_iff (by decide)).mp e)
      rw [if_neg (by simpa using hl), if_neg (by simpa using hc)]
      cases s.splitOn '/' <;> rfl

theorem lower_pushSegment (parts : List Str) (seg : Str) : (pushSegment parts seg).map lower = pushSegment (parts.map lower) (lower seg) := by
  have h0 : lower seg = [] ↔ seg = [] := lower_eq_dots (n := 0)
  have h1 : lower seg = ['.'] ↔ seg = ['.'] := lower_eq_dots (n := 1)
  have h2 : lower seg = ['.', '.'] ↔ seg = ['.', '.'] := lower_eq_dots (n := 2)
  unfold pushSegment
  simp only [h0, h1, h2]
  split
  · rfl
  · split
    · exact List.map_dropLast
    · exact List.map_append

theorem lower_foldl : ∀ l parts : List Str, (l.foldl pushSegment parts).map lower = (l.map lower).foldl pushSegment (parts.map lower) := by
  intro l
  induction l with
  | nil => exact fun _ => rfl
  | cons seg l ih =>
    intro parts
    rw [List.foldl_cons, ih, lower_pushSegment]
    rfl

theorem lower_normalParts (s : Str) : (normalParts s).map lower = normalParts (lower s) := by
  rw [normalParts, normalParts, lower_splitOn]
  exact lower_foldl _ []

theorem lower_intercalate (l : List Str) : lower (['/'].intercalate l) = ['/'].intercalate (l.map lower) := by
  induction l with
  | nil => rfl
  | cons a l ih =>
    cases l with
    | nil => simp [List.intercalate]
    | cons b l =>
      have hcons : ∀ (a b : Str) (l : List Str), ['/'].intercalate (a :: b :: l) = a ++ '/' :: ['/'].intercalate (b :: l) := by
        intro a b l
        simp [List.intercalate]
      rw [hcons, lower_append, show lower ('/' :: ['/'].intercalate (b :: l)) = '/' :: lower (['/'].intercalate (b :: l)) from rfl, ih,
        List.map_cons, List.map_cons, List.map_cons, hcons]

/-- The case of the current directory is the case of the result. -/
theorem lower_normalForm {cwd cwd' : Str} (h : lower cwd = lower cwd') (path : Str) :
    lower (normalForm cwd path) = lower (normalForm cwd' path) := by
  have hparts : (normalParts (joinCwd cwd path)).map lower = (normalParts (joinCwd cwd' path)).map lower := by
    cases ha : isAbsolute path with
    | true => rw [joinCwd, joinCwd, if_pos ha, if_pos ha]
    | false => rw [normalParts_joinCwd ha, normalParts_joinCwd ha, lower_foldl, lower_foldl, lower_normalParts, lower_normalParts, h]
  rw [normalForm, normalForm]
  show '/' :: lower _ = '/' :: lower _
  rw [lower_intercalate, lower_intercalate, hparts]

theorem lower_chdirCwd (parent : Option (List Str)) (resolved : Str) : lower (chdirCwd parent resolved) = lower resolved := by
  unfold chdirCwd
  split
  · rename_i h
    rw [h]
  · have hreal : ∀ name, lower name = lower (lastName resolved) → lower (parentPath resolved ++ name) = lower resolved := by
      intro name h
      rw [lower_append, h, ← lower_append, parentPath_lastName]
    dsimp only
    split
    · rename_i name hname
      apply hreal
      obtain ⟨entries, -, he⟩ := Option.map_eq_some_iff.mp hname
      unfold lookupRealName at he
      split at he
      · rename_i e hf
        cases he
        simpa using List.find?_some hf
      · cases he
    · exact hreal _ rfl

/-- The result is in normal form, and resolving it again changes nothing; a relative path from a resolved one is the joined
    path, and from the directory that `chdir` sets it is the joined path up to the case of letters. -/
theorem resolvePath_laws :
    (∀ cwd path, ∃ r, resolvePath cwd path = .ok r ∧ Normal r) ∧
    (∀ cwd cwd' path, (resolvePath cwd' path).bind (resolvePath cwd) = resolvePath cwd' path) ∧
    (∀ cwd a b, a ≠ [] → isAbsolute b = false → (resolvePath cwd a).bind (fun r => resolvePath r b) = resolvePath cwd (a ++ '/' :: b)) ∧
    ∀ cwd a b parent, a ≠ [] → isAbsolute b = false →
      (resolvePath cwd a).bind (fun r => (resolvePath (chdirCwd parent r) b).map lower) = (resolvePath cwd (a ++ '/' :: b)).map lower := by
  refine ⟨fun cwd path => ⟨_, rfl, normalForm_normal cwd path⟩, fun cwd cwd' path => ?_, fun cwd a b ha hb => ?_,
    fun cwd a b parent ha hb => ?_⟩
  · exact congrArg Except.ok (normalForm_idem cwd cwd' path)
  · exact congrArg Except.ok (normalForm_compose cwd ha hb)
  · refine congrArg Except.ok ?_
    rw [lower_normalForm (lower_chdirCwd parent _), normalForm_compose cwd ha hb]

/-- `cd ..` twice over, and one step beyond the root. -/
theorem resolvePath_laws_beyondRoot :
    resolvePath (normalForm ['/', 'a'] ['.', '.']) ['.', '.', '/', 'b'] = resolvePath ['/', 'a'] ['.', '.', '/', '.', '.', '/', 'b'] :=
  resolvePath_laws.2.2.1 ['/', 'a'] ['.', '.'] ['.', '.', '/', 'b'] (by decide) (by decide)

end Myos.Vfs
