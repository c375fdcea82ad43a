/-
  Myos.Fat.ShortNames — the codec of short names (`encode_short_name`, `parse_short_name` of fat32.rs).

  A name is split at its first dot; the two parts are padded with spaces to eight and three bytes. What
  is read back ends each part at the first space and takes every byte for a character.

  Proved of any set of names: the ones that are accepted are read back, are told apart and are not
  taken for an unused slot, exactly if each is ASCII without a space or a dot at its end and does not
  start with a NUL.
-/

import Myos.Fat.Slots

namespace Myos.Fat

open Lib Fat32Inner Fat32Inode

/-- `name.find('.')` splits the name: what is before the dot, and what is after it. -/
def baseOf (name : Str) : Str := name.takeWhile (· ≠ '.')
def extOf (name : Str) : Str := (name.dropWhile (· ≠ '.')).drop 1

/-- What is asked of the names of a set. -/
structure CodecOk (S : Set Str) : Prop where
  roundTrip : ∀ n ∈ S, ∀ raw, encodeShortName n = .ok raw → parseShortName raw = n
  injective : ∀ n ∈ S, ∀ m ∈ S, ∀ raw, encodeShortName n = .ok raw → encodeShortName m = .ok raw → n = m
  marker : ∀ n ∈ S, ∀ raw, encodeShortName n = .ok raw → raw.getD 0 0 ≠ 0 ∧ raw.getD 0 0 ≠ 0xE5

/-- Characters of one byte and no spaces, with an extension after a dot. -/
def Readable (n : Str) : Prop := (∀ c ∈ n, c.toNat < 128 ∧ c ≠ ' ') ∧ n.dropWhile (· ≠ '.') ≠ ['.']

def Plain (n : Str) : Prop := Readable n ∧ n.head? ≠ some (Char.ofNat 0)

section

variable {n : Str} {raw : List UInt8} {c : Char} {b : UInt8}

/-! ## Bytes of characters -/

/-- A byte below 128 is the character itself. -/
theorem toNat_of_mem_utf8EncodeChar (hb : b.toNat < 128) (h : b ∈ String.utf8EncodeChar c) : c.toNat = b.toNat := by
  have hc : c.val.toNat = c.toNat := rfl
  have key : ∀ x : Nat, 128 ≤ x % 256 → b ≠ UInt8.ofNat x := fun x hx e => by
    rw [e, UInt8.toNat_ofNat'] at hb
    omega
  unfold String.utf8EncodeChar at h
  dsimp only at h
  split at h
  · rw [List.mem_singleton] at h
    rw [h, UInt8.toNat_ofNat', hc]
    omega
  · exfalso
    split at h
    · simp only [List.mem_cons, List.not_mem_nil, or_false] at h
      rcases h with h | h
      · exact key _ (by omega) h
      · exact key _ (by omega) h
    · split at h
      · simp only [List.mem_cons, List.not_mem_nil, or_false] at h
        rcases h with h | h | h
        · exact key _ (by omega) h
        · exact key _ (by omega) h
        · exact key _ (by omega) h
      · simp only [List.mem_cons, List.not_mem_nil, or_false] at h
        rcases h with h | h | h | h
        · exact key _ (by omega) h
        · exact key _ (by omega) h
        · exact key _ (by omega) h
        · exact key _ (by omega) h

theorem utf8EncodeChar_ascii (h : c.toNat < 128) : String.utf8EncodeChar c = [UInt8.ofNat c.toNat] := by
  have hc : c.val.toNat = c.toNat := rfl
  unfold String.utf8EncodeChar
  dsimp only
  rw [if_pos (by omega), hc]

theorem length_bytes (s : Str) : s.length ≤ s.bytes.length := by
  induction s with
  | nil => exact le_rfl
  | cons c s ih =>
    have := Char.utf8Size_pos c
    rw [Str.bytes, List.flatMap_cons, List.length_append, String.length_utf8EncodeChar, List.length_cons]
    unfold Str.bytes at ih
    omega

/-- One byte for each character: the characters are ASCII. -/
theorem ascii_of_length {s : Str} (h : s.bytes.length = s.length) : ∀ c ∈ s, c.toNat < 128 := by
  induction s with
  | nil => exact nofun
  | cons c s ih =>
    have hpos := Char.utf8Size_pos c
    have hle := length_bytes s
    rw [Str.bytes, List.flatMap_cons, List.length_append, String.length_utf8EncodeChar, List.length_cons] at h
    unfold Str.bytes at ih hle
    intro c' hc'
    rcases List.mem_cons.mp hc' with rfl | hc'
    · have h1 : c'.utf8Size = 1 := by omega
      have h2 : c'.val.toNat ≤ 127 := Char.utf8Size_eq_one_iff.mp h1
      exact Nat.lt_succ_of_le h2
    · exact ih (by omega) c' hc'

/-- The characters that bytes are taken for. -/
def latin1 (l : List UInt8) : Str := l.map fun c => Char.ofNat c.toNat

theorem toNat_ofNat_byte (b : UInt8) : (Char.ofNat b.toNat).toNat = b.toNat := by
  have := b.toNat_lt
  rw [Char.toNat_ofNat, if_pos (Or.inl (by omega))]

theorem latin1_bytes {s : Str} (h : ∀ c ∈ s, c.toNat < 128) : latin1 s.bytes = s := by
  induction s with
  | nil => rfl
  | cons c s ih =>
    have hc := h c (List.mem_cons_self ..)
    rw [Str.bytes, List.flatMap_cons, utf8EncodeChar_ascii hc, List.singleton_append, latin1, List.map_cons]
    congr 1
    · rw [UInt8.toNat_ofNat', Nat.mod_eq_of_lt (by omega), Char.ofNat_toNat]
    · exact ih fun c hc => h c (List.mem_cons_of_mem _ hc)

theorem latin1_no_char {l : List UInt8} {b : UInt8} (h : ∀ x ∈ l, x ≠ b) : Char.ofNat b.toNat ∉ latin1 l := by
  intro hm
  obtain ⟨x, hx, he⟩ := List.mem_map.mp hm
  have := congrArg Char.toNat he
  rw [toNat_ofNat_byte, toNat_ofNat_byte] at this
  exact h x hx (UInt8.toNat_inj.mp this)

/-- The bytes of a name have an ASCII byte only if the name has the character. -/
theorem bytes_ne {s : Str} {b : UInt8} (hb : b.toNat < 128) (h : Char.ofNat b.toNat ∉ s) : ∀ x ∈ s.bytes, x ≠ b := by
  rintro x hx rfl
  obtain ⟨c, hc, hm⟩ := List.mem_flatMap.mp hx
  have := toNat_of_mem_utf8EncodeChar hb hm
  rw [← this, Char.ofNat_toNat] at h
  exact h hc

/-! ## What is read back -/

theorem encodeShortName_ok (h : encodeShortName n = .ok raw) : (baseOf n).bytes.length ≤ 8 ∧ (extOf n).bytes.length ≤ 3 ∧ (baseOf n).bytes ≠ [] ∧
    raw = (baseOf n).bytes ++ List.replicate (8 - (baseOf n).bytes.length) space ++ (extOf n).bytes ++
      List.replicate (3 - (extOf n).bytes.length) space := by
  unfold encodeShortName at h
  dsimp only at h
  split at h
  · cases h
  · rename_i hb
    rw [not_or, not_or, List.isEmpty_iff] at hb
    exact ⟨Nat.not_lt.mp hb.1, Nat.not_lt.mp hb.2.1, hb.2.2, (Except.ok.inj h).symm⟩

/-- The bytes in front of the first space. -/
def cut (l : List UInt8) : List UInt8 := l.takeWhile (· ≠ space)

theorem cut_pad (l : List UInt8) (k : Nat) : cut (l ++ List.replicate k space) = cut l := by
  unfold cut
  induction l with
  | nil => cases k <;> simp [List.replicate_succ]
  | cons b l ih =>
    rw [List.cons_append, List.takeWhile_cons, List.takeWhile_cons, ih]

theorem cut_self {l : List UInt8} (h : ∀ x ∈ l, x ≠ space) : cut l = l := by
  unfold cut
  rw [List.takeWhile_eq_self_iff]
  exact fun x hx => by simpa using h x hx

theorem parse_encode (h : encodeShortName n = .ok raw) : parseShortName raw =
    if cut (extOf n).bytes = [] then latin1 (cut (baseOf n).bytes) else latin1 (cut (baseOf n).bytes) ++ '.' :: latin1 (cut (extOf n).bytes) := by
  obtain ⟨h8, -, -, rfl⟩ := encodeShortName_ok h
  have hlen : ((baseOf n).bytes ++ List.replicate (8 - (baseOf n).bytes.length) space).length = 8 := by
    rw [List.length_append, List.length_replicate]
    omega
  have htake : ((baseOf n).bytes ++ List.replicate (8 - (baseOf n).bytes.length) space ++ (extOf n).bytes ++
      List.replicate (3 - (extOf n).bytes.length) space).take 8 = (baseOf n).bytes ++ List.replicate (8 - (baseOf n).bytes.length) space := by
    rw [List.append_assoc, List.take_left' hlen]
  have hdrop : ((baseOf n).bytes ++ List.replicate (8 - (baseOf n).bytes.length) space ++ (extOf n).bytes ++
      List.replicate (3 - (extOf n).bytes.length) space).drop 8 = (extOf n).bytes ++ List.replicate (3 - (extOf n).bytes.length) space := by
    rw [List.append_assoc, List.drop_left' hlen]
  have hb := cut_pad (baseOf n).bytes (8 - (baseOf n).bytes.length)
  have he := cut_pad (extOf n).bytes (3 - (extOf n).bytes.length)
  unfold parseShortName
  dsimp only
  rw [htake, hdrop]
  unfold cut at hb he ⊢
  rw [hb, he]
  unfold latin1
  simp only [List.isEmpty_iff, List.map_eq_nil_iff]

theorem name_split (n : Str) : n = baseOf n ++ n.dropWhile (· ≠ '.') := (List.takeWhile_append_dropWhile).symm

theorem dropWhile_dot (n : Str) : n.dropWhile (· ≠ '.') = [] ∨ n.dropWhile (· ≠ '.') = '.' :: extOf n := by
  unfold extOf
  cases h : n.dropWhile (· ≠ '.') with
  | nil => exact Or.inl rfl
  | cons c t =>
    right
    have hc := List.head_dropWhile_not (p := fun x => decide (x ≠ '.')) (l := n) (by rw [h]; simp)
    simp only [h, List.head_cons] at hc
    have hc : c = '.' := by simpa using hc
    rw [hc]
    rfl

theorem dot_notMem_base (n : Str) : '.' ∉ baseOf n := by
  intro h
  simpa using List.mem_takeWhile_imp h

theorem mem_of_ext {c : Char} (h : c ∈ extOf n) : c ∈ n := (List.dropWhile_sublist _).subset (List.mem_of_mem_drop h)

theorem mem_of_base {c : Char} (h : c ∈ baseOf n) : c ∈ n := (List.takeWhile_sublist _).subset h

theorem readable_parse (h : encodeShortName n = .ok raw) (hr : Readable n) : parseShortName raw = n := by
  have hspace : ∀ s : Str, (∀ c ∈ s, c ∈ n) → cut s.bytes = s.bytes := fun s hs =>
    cut_self (bytes_ne (by decide) fun hm => (hr.1 _ (hs _ hm)).2 rfl)
  have hl : ∀ s : Str, (∀ c ∈ s, c ∈ n) → latin1 s.bytes = s := fun s hs => latin1_bytes fun c hc => (hr.1 c (hs c hc)).1
  rw [parse_encode h, hspace _ fun c => mem_of_base, hspace _ fun c => mem_of_ext, hl _ fun c => mem_of_base, hl _ fun c => mem_of_ext]
  rcases dropWhile_dot n with hd | hd
  · have he : extOf n = [] := by
      unfold extOf
      rw [hd]
      rfl
    rw [he, if_pos (show Str.bytes [] = [] from rfl)]
    conv_rhs => rw [name_split n, hd, List.append_nil]
  · have hne : extOf n ≠ [] := fun e => hr.2 (by rw [hd, e])
    have hlen := length_bytes (extOf n)
    rw [if_neg fun e => hne (List.length_eq_zero_iff.mp (by rw [e, List.length_nil] at hlen; omega))]
    conv_rhs => rw [name_split n, hd]

/-- A part that is read back is ASCII. -/
theorem ascii_of_latin1 {s : Str} (hs : ' ' ∉ s) (h : latin1 (cut s.bytes) = s) : ∀ c ∈ s, c.toNat < 128 := by
  rw [cut_self (bytes_ne (by decide) hs)] at h
  have hlen := congrArg List.length h
  rw [latin1, List.length_map] at hlen
  exact ascii_of_length hlen

theorem space_notMem_cut (l : List UInt8) : ' ' ∉ latin1 (cut l) := by
  refine latin1_no_char (b := space) fun x hx => ?_
  simpa using List.mem_takeWhile_imp hx

theorem parse_readable (h : encodeShortName n = .ok raw) (hp : parseShortName raw = n) : Readable n := by
  rw [parse_encode h] at hp
  have hbase : '.' ∉ latin1 (cut (baseOf n).bytes) := latin1_no_char (b := dot) fun x hx =>
    bytes_ne (by decide) (dot_notMem_base n) x ((List.takeWhile_sublist _).subset hx)
  have hall : ∀ c ∈ latin1 (cut (baseOf n).bytes), decide (c ≠ '.') = true := fun c hc => by
    rw [decide_eq_true_eq]
    rintro rfl
    exact hbase hc
  split at hp
  · -- no extension is read
    have hdrop : n.dropWhile (· ≠ '.') = [] := by
      rw [← hp]
      exact List.dropWhile_eq_nil_iff.mpr hall
    have hb : baseOf n = n := by
      conv_rhs => rw [name_split n, hdrop, List.append_nil]
    have hs : ' ' ∉ n := by
      rw [← hp]
      exact space_notMem_cut _
    rw [hb] at hp
    exact ⟨fun c hc => ⟨ascii_of_latin1 hs hp c hc, fun e => hs (e ▸ hc)⟩, by rw [hdrop]; exact nofun⟩
  · rename_i hne
    have hb : baseOf n = latin1 (cut (baseOf n).bytes) := by
      conv_lhs => rw [baseOf, ← hp, List.takeWhile_append_of_pos hall, List.takeWhile_cons_of_neg (by simp), List.append_nil]
    have hd : n.dropWhile (· ≠ '.') = '.' :: latin1 (cut (extOf n).bytes) := by
      conv_lhs => rw [← hp, List.dropWhile_append_of_pos hall, List.dropWhile_cons_of_neg (by simp)]
    have he : extOf n = latin1 (cut (extOf n).bytes) := by
      conv_lhs => rw [extOf, hd, List.drop_one, List.tail_cons]
    have hsb : ' ' ∉ baseOf n := by
      rw [hb]
      exact space_notMem_cut _
    have hse : ' ' ∉ extOf n := by
      rw [he]
      exact space_notMem_cut _
    have hba := ascii_of_latin1 hsb hb.symm
    have hea := ascii_of_latin1 hse he.symm
    refine ⟨fun c hc => ?_, ?_⟩
    · rw [name_split n, hd, ← he] at hc
      rcases List.mem_append.mp hc with hc | hc
      · exact ⟨hba c hc, fun e => hsb (e ▸ hc)⟩
      · rcases List.mem_cons.mp hc with rfl | hc
        · exact ⟨by decide, by decide⟩
        · exact ⟨hea c hc, fun e => hse (e ▸ hc)⟩
    · rw [hd]
      intro e
      exact hne (List.map_eq_nil_iff.mp (List.cons.inj e).2)

/-- The first byte of a readable name is its first character. -/
theorem head_readable (h : encodeShortName n = .ok raw) (hr : Readable n) : ∃ c t, n = c :: t ∧ raw.getD 0 0 = UInt8.ofNat c.toNat ∧ c.toNat < 128 := by
  obtain ⟨-, -, hne, hraw⟩ := encodeShortName_ok h
  cases hb : baseOf n with
  | nil =>
    rw [hb] at hne
    exact absurd rfl hne
  | cons c t =>
    have hn := name_split n
    rw [hb, List.cons_append] at hn
    have hc : c.toNat < 128 := (hr.1 c (by rw [hn]; exact List.mem_cons_self ..)).1
    refine ⟨c, _, hn, ?_, hc⟩
    rw [hraw, hb, Str.bytes, List.flatMap_cons, utf8EncodeChar_ascii hc]
    rfl

end

/-- For any set of names the codec does what is asked exactly if the names that are accepted are plain. -/
theorem codec_iff (S : Set Str) : CodecOk S ↔ ∀ n ∈ S, ∀ raw, encodeShortName n = .ok raw → Plain n := by
  constructor
  · intro h n hn raw hr
    have hread := parse_readable hr (h.roundTrip n hn raw hr)
    refine ⟨hread, fun hz => (h.marker n hn raw hr).1 ?_⟩
    obtain ⟨c, t, rfl, hraw, -⟩ := head_readable hr hread
    obtain rfl : c = Char.ofNat 0 := by simpa using hz
    rw [hraw]
    rfl
  · intro h
    refine ⟨fun n hn raw hr => readable_parse hr (h n hn raw hr).1, fun n hn m hm raw hr hr' => ?_, fun n hn raw hr => ?_⟩
    · rw [← readable_parse hr (h n hn raw hr).1, ← readable_parse hr' (h m hm raw hr').1]
    · obtain ⟨hread, hz⟩ := h n hn raw hr
      obtain ⟨c, t, rfl, hraw, hc⟩ := head_readable hr hread
      have hval : (UInt8.ofNat c.toNat).toNat = c.toNat := by
        rw [UInt8.toNat_ofNat']
        omega
      rw [hraw]
      refine ⟨fun e => hz ?_, fun e => ?_⟩
      · rw [e] at hval
        have hval : 0 = c.toNat := hval
        rw [List.head?_cons, hval, Char.ofNat_toNat]
      · rw [e] at hval
        have hval : 0xE5 = c.toNat := hval
        omega

/-- A dot at the end is lost, and a character whose first byte is 0xE5 makes the slot a deleted one. -/
theorem codec_fails : ¬ CodecOk Set.univ ∧ encodeShortName ['A', '.'] = encodeShortName ['A'] ∧
    encodeShortName [Char.ofNat 0x597D] = .ok ([0xE5, 0xA5, 0xBD] ++ List.replicate 8 space) := by
  refine ⟨fun h => ?_, by decide, by decide⟩
  have := h.injective ['A', '.'] trivial ['A'] trivial (0x41 :: List.replicate 10 space) (by decide) (by decide)
  exact absurd this (by decide)

end Myos.Fat
