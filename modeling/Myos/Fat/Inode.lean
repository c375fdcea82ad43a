/-
  Myos.Fat.Inode — the inodes of a FAT32 volume (fat32.rs): names, directory slots, and the
  operations on files and directories.

  A result that is `none` at the outer `Option` is a loop over a chain that does not end. The
  device comes back with every operation that writes, also where it fails.
-/

import Myos.Fat.Volume

namespace Myos.Fat

open Lib

def attrDirectory : UInt8 := 0x10
def attrVolumeId : UInt8 := 0x08
def attrLongName : UInt8 := 0x0F

/-! ## Names -/

abbrev Str := List Char

/-- `as_bytes`. -/
def Str.bytes (s : Str) : List UInt8 := s.flatMap String.utf8EncodeChar

def space : UInt8 := 0x20
def dot : UInt8 := 0x2E

def isDotName (name : List UInt8) : Bool :=
  name.getD 0 0 = dot ∧ (name.getD 1 0 = space ∨ name.getD 1 0 = dot ∧ name.getD 2 0 = space)

def encodeShortName (name : Str) : Except String (List UInt8) :=
  let base := Str.bytes (name.takeWhile (· ≠ '.'))
  let ext := Str.bytes ((name.dropWhile (· ≠ '.')).drop 1)
  if base.length > 8 ∨ ext.length > 3 ∨ base.isEmpty then .error "bad name"
  else .ok (base ++ List.replicate (8 - base.length) space ++ ext ++ List.replicate (3 - ext.length) space)

def parseShortName (raw : List UInt8) : Str :=
  let char := fun c : UInt8 => Char.ofNat c.toNat
  let s := ((raw.take 8).takeWhile (· ≠ space)).map char
  let ext := ((raw.drop 8).takeWhile (· ≠ space)).map char
  if ext.isEmpty then s else s ++ '.' :: ext

def eqIgnoreAsciiCase (a b : Str) : Bool := a.map Char.toLower = b.map Char.toLower

/-! ## Slots of a directory cluster -/

/-- `buf[i..i + n]`. -/
def slice (buf : Buf) (i n : Nat) : List UInt8 := (List.range n).map fun k => buf (i + k)

def entName (buf : Buf) (i : Nat) : List UInt8 := slice buf i 11
def entAttr (buf : Buf) (i : Nat) : UInt8 := buf (i + 11)
def entCluster (buf : Buf) (i : Nat) : Nat := Buf.getLe16 buf (i + 20) * 65536 + Buf.getLe16 buf (i + 26)
def entSize (buf : Buf) (i : Nat) : Nat := Buf.getLe32 buf (i + 28)
def entIsDir (buf : Buf) (i : Nat) : Bool := entAttr buf i &&& attrDirectory ≠ 0

/-- `buf[i] == 0x00 || buf[i] == 0xE5`. -/
def unused (buf : Buf) (i : Nat) : Bool := buf i = 0 ∨ buf i = 0xE5

def noShort (attr : UInt8) : Bool := attr = attrLongName ∨ attr &&& attrVolumeId ≠ 0

structure DirEntry where
  name : Str
  isDir : Bool
  size : Nat
  deriving DecidableEq, Repr

structure Fat32Inode where
  firstCluster : Nat
  size : Nat
  isDir : Bool
  deriving DecidableEq, Repr

namespace Fat32Inner

variable (v : Fat32Inner)

/-! ## Chains -/

def zeroBuf : Buf := fun _ => 0

/-- `while c >= 2 && c < FAT_EOC`. -/
def inData (c : Nat) : Bool := 2 ≤ c ∧ c < fatEoc

/-- More than the clusters that loop over a chain can pass without meeting one again. -/
def chainFuel : Nat := fatEoc + 2

/-- Where it fails nothing was written. -/
def allocCluster (d : Device) : Except String (Nat × Device) :=
  match (List.range' 2 (v.total % 2 ^ 32 - 2)).find? fun c => v.readFatEntry d c = 0 with
  | none => .error "no free clusters"
  | some c => .ok (c, v.writeCluster (v.writeFatEntry d c fatEoc) c zeroBuf)

def freeChain : Nat → Device → Nat → Option Device
  | 0, _, _ => none
  | n + 1, d, c => if inData c then freeChain n (v.writeFatEntry d c 0) (v.readFatEntry d c) else some d

def chainLen (d : Device) : Nat → Nat → Option Nat
  | 0, _ => none
  | n + 1, c => if inData c then (chainLen d n (v.readFatEntry d c)).map (· + 1) else some 0

def chainSize (d : Device) (start : Nat) : Option Nat := (v.chainLen d chainFuel start).map (· * v.secPerClus * 512)

/-- `loop { let n = read_fat_entry(c); if n >= FAT_EOC { break; } c = n; }`. -/
def chainTail (d : Device) : Nat → Nat → Option Nat
  | 0, _ => none
  | n + 1, c => if v.readFatEntry d c ≥ fatEoc then some c else chainTail d n (v.readFatEntry d c)

/-- The offsets `i` of the slots, `while i + 32 <= buf.len()`. -/
def slots : List Nat := (List.range (v.clusBytes / 32)).map (· * 32)

/-- The first slot along the chain that `p` picks. -/
def scanChain (d : Device) (p : Buf → Nat → Bool) : Nat → Nat → Option (Option (Nat × Nat))
  | 0, _ => none
  | n + 1, c =>
    if inData c then
      match v.slots.find? (p (v.readCluster d c)) with
      | some i => some (some (c, i))
      | none => scanChain d p n (v.readFatEntry d c)
    else some none

/-- The slots of the root directory; the attributes that are looked at are those of the first
    slot of the cluster. -/
def sizeMatch (cluster : Nat) (buf : Buf) (i : Nat) : Bool :=
  !unused buf i && !noShort (buf 11) && entCluster buf i == cluster

def updateEntrySize (d : Device) (cluster size : Nat) : Option (Except String Unit × Device) :=
  (v.scanChain d (sizeMatch cluster) chainFuel v.rootClus).map fun
    | none => (.error "entry not found", d)
    | some (c, i) => (.ok (), v.writeCluster d c (Buf.copyAt (v.readCluster d c) (i + 28) (Buf.toLe32 size)))

end Fat32Inner

open Fat32Inner

namespace Fat32Inode

variable (v : Fat32Inner)

/-! ## Files -/

def skipChain (d : Device) : Nat → Nat → Option Nat
  | 0, c => some c
  | n + 1, c => if inData c then skipChain d n (v.readFatEntry d c) else none

/-- Every round reads a byte at least. -/
def readChain (d : Device) : Nat → Nat → Nat → Nat → List UInt8
  | 0, _, _, _ => []
  | n + 1, clus, boff, remain =>
    if inData clus ∧ 0 < remain then
      let clen := min (v.clusBytes - boff) remain
      slice (v.readCluster d clus) boff clen ++ readChain d n (v.readFatEntry d clus) 0 (remain - clen)
    else []

/-- The bytes that are put at the front of a buffer of `len` bytes. -/
def readAt (d : Device) (ino : Fat32Inode) (offset len : Nat) : List UInt8 :=
  if offset ≥ ino.size then []
  else
    let toRead := min len (ino.size - offset)
    match skipChain v d (offset / v.clusBytes) ino.firstCluster with
    | none => []
    | some clus => readChain v d toRead clus (offset % v.clusBytes) toRead

/-- The loop that makes the chain longer. -/
def extend (endNeeded : Nat) : Nat → Device → Nat → Nat → Option (Except String Unit × Device)
  | 0, _, _, _ => none
  | n + 1, d, current, last =>
    if current + v.clusBytes < endNeeded then
      let next := v.readFatEntry d last
      if next ≥ fatEoc then
        match v.allocCluster d with
        | .error e => some (.error e, d)
        | .ok (newc, d) => extend endNeeded n (v.writeFatEntry d last newc) (current + v.clusBytes) newc
      else extend endNeeded n d (current + v.clusBytes) next
    else some (.ok (), d)

/-- The cluster a write goes to. -/
def walkTo (d : Device) : Nat → Nat → Nat
  | 0, clus => clus
  | n + 1, clus => if v.readFatEntry d clus ≥ fatEoc then clus else walkTo d n (v.readFatEntry d clus)

/-- The loop that writes the data; every round writes a byte at least. -/
def writeData (first : Nat) : Nat → Device → Nat → List UInt8 → Nat × Device
  | 0, d, _, _ => (0, d)
  | n + 1, d, pos, buf =>
    if buf = [] then (0, d)
    else
      let clusOff := pos % v.clusBytes
      let clus := walkTo v d (pos / v.clusBytes) first
      if clus < 2 then (0, d)
      else
        let remain := min buf.length (v.clusBytes - clusOff)
        let full := if clusOff ≠ 0 ∨ remain ≠ v.clusBytes then v.readCluster d clus else zeroBuf
        let d := v.writeCluster d clus (Buf.copyAt full clusOff (buf.take remain))
        let (written, d) := writeData first n d (pos + remain) (buf.drop remain)
        (remain + written, d)

def writeAt (d : Device) (ino : Fat32Inode) (offset : Nat) (buf : List UInt8) :
    Option (Except String Nat × Device × Fat32Inode) :=
  if buf.isEmpty then some (.ok 0, d, ino)
  else
    let endNeeded := offset + buf.length
    let oldSize := ino.size
    (if endNeeded > oldSize then
      if ino.firstCluster < 2 then some (.error "empty file, not supported yet", d)
      else extend v endNeeded (endNeeded + 1) d oldSize ino.firstCluster
    else some (.ok (), d)).bind fun
      | (.error e, d) => some (.error e, d, ino)
      | (.ok (), d) =>
        let (written, d) := writeData v ino.firstCluster buf.length d offset buf
        let newSize := if endNeeded > oldSize then endNeeded else oldSize
        (v.updateEntrySize d ino.firstCluster newSize).map fun (_, d) =>
          (.ok written, d, { ino with size := newSize })

def truncate (d : Device) (ino : Fat32Inode) : Option (Device × Fat32Inode) :=
  (if ino.firstCluster ≥ 2 then v.freeChain chainFuel d ino.firstCluster else some d).map fun d => (d, { ino with size := 0 })

/-! ## Directories -/

/-- The entries of a cluster up to the end marker. -/
def clusterEntries (buf : Buf) : List DirEntry :=
  (v.slots.takeWhile fun i => buf i ≠ 0).filterMap fun i =>
    if buf i = 0xE5 ∨ noShort (entAttr buf i) ∨ isDotName (entName buf i) then none
    else
      let name := parseShortName (entName buf i)
      if name.isEmpty then none else some ⟨name, entIsDir buf i, entSize buf i⟩

def collect (d : Device) : Nat → Nat → Option (List DirEntry)
  | 0, _ => none
  | n + 1, clus =>
    if inData clus then
      let buf := v.readCluster d clus
      if v.slots.any fun i => buf i = 0 then some (clusterEntries v buf)
      else (collect d n (v.readFatEntry d clus)).map (clusterEntries v buf ++ ·)
    else some []

def readdir (d : Device) (ino : Fat32Inode) : Option (Except String (List DirEntry)) :=
  if !ino.isDir then some (.error "not a dir") else (collect v d chainFuel ino.firstCluster).map .ok

def lookupMatch (name : Str) (buf : Buf) (i : Nat) : Bool :=
  !unused buf i && !noShort (entAttr buf i) && !isDotName (entName buf i) && eqIgnoreAsciiCase (parseShortName (entName buf i)) name

def lookup (d : Device) (ino : Fat32Inode) (name : Str) : Option (Except String Fat32Inode) :=
  (v.scanChain d (lookupMatch name) chainFuel ino.firstCluster).bind fun
    | none => some (.error "entry not found")
    | some (c, i) =>
      let buf := v.readCluster d c
      let fc := entCluster buf i
      (v.chainSize d fc).map fun sz => .ok ⟨fc, sz, entIsDir buf i⟩

/-- The "." and ".." of a new directory. -/
def dirInit (newClus parent : Nat) : Buf :=
  let buf := Buf.copyAt zeroBuf 0 [dot]
  let buf := Buf.copyAt buf 11 [attrDirectory]
  let buf := Buf.copyAt buf 20 (Buf.toLe16 (newClus / 65536))
  let buf := Buf.copyAt buf 26 (Buf.toLe16 newClus)
  let buf := Buf.copyAt buf 32 [dot, dot]
  let buf := Buf.copyAt buf 43 [attrDirectory]
  let buf := Buf.copyAt buf 52 (Buf.toLe16 (parent / 65536))
  Buf.copyAt buf 58 (Buf.toLe16 parent)

/-- The 32 bytes of a new entry; times and size are 0. -/
def rawEntry (rawName : List UInt8) (newClus : Nat) (isDir : Bool) : List UInt8 :=
  rawName ++ [if isDir then attrDirectory else 0] ++ List.replicate 8 0 ++ Buf.toLe16 (newClus / 65536) ++
    List.replicate 4 0 ++ Buf.toLe16 newClus ++ List.replicate 4 0

/-- Puts an entry into the first unused slot, or into a new cluster at the end of the chain. -/
def addEntry (d : Device) (ino : Fat32Inode) (raw : List UInt8) : Option (Except String Unit × Device) :=
  (v.scanChain d unused chainFuel ino.firstCluster).bind fun
    | some (c, i) => some (.ok (), v.writeCluster d c (Buf.copyAt (v.readCluster d c) i raw))
    | none =>
      match v.allocCluster d with
      | .error e => some (.error e, d)
      | .ok (newc, d) =>
        (if ino.firstCluster ≥ 2 then (v.chainTail d chainFuel ino.firstCluster).map fun c => v.writeFatEntry d c newc
          else some d).map fun d => (.ok (), v.writeCluster d newc (Buf.copyAt zeroBuf 0 raw))

def create (d : Device) (ino : Fat32Inode) (name : Str) (isDir : Bool) : Option (Except String Fat32Inode × Device) :=
  if !ino.isDir then some (.error "not a dir", d)
  else
    match encodeShortName name with
    | .error e => some (.error e, d)
    | .ok rawName =>
      match v.allocCluster d with
      | .error e => some (.error e, d)
      | .ok (newClus, d) =>
        let d := if isDir then v.writeCluster d newClus (dirInit newClus ino.firstCluster) else d
        (addEntry v d ino (rawEntry rawName newClus isDir)).map fun
          | (.error e, d) => (.error e, d)
          | (.ok (), d) => (.ok ⟨newClus, if isDir then v.clusBytes else 0, isDir⟩, d)

/-- The attributes that are looked at are those of the first slot of the cluster. -/
def removeMatch (name : Str) (buf : Buf) (i : Nat) : Bool :=
  !unused buf i && !noShort (buf 11) && eqIgnoreAsciiCase (parseShortName (entName buf i)) name

def remove (d : Device) (ino : Fat32Inode) (name : Str) : Option (Except String Unit × Device) :=
  if !ino.isDir then some (.error "not a dir", d)
  else
    (v.scanChain d (removeMatch name) chainFuel ino.firstCluster).bind fun
      | none => some (.error "not found", d)
      | some (c, i) =>
        let buf := v.readCluster d c
        let d := v.writeCluster d c (Buf.copyAt buf i [0xE5])
        let fc := entCluster buf i
        (if fc ≥ 2 then v.freeChain chainFuel d fc else some d).map fun d => (.ok (), d)

/-- `Fat32FS::root_inode`. -/
def root (d : Device) : Option Fat32Inode := (v.chainSize d v.rootClus).map fun size => ⟨v.rootClus, size, true⟩

end Fat32Inode

end Myos.Fat
