/-
  Myos.Driver.Virtqueue — the block driver and its device (kernel/virtio.rs).

  The driver's side is `blk_request`, store by store, and `virtio_irq_handler`. The device's side
  is what the virtio specification lets a device do with a split virtqueue: take what is in the
  available ring, walk the descriptor chain, move the data, answer, and report in the used ring.
  `io_lock` is held around `blk_request`, so one request is open at a time; the stores are seen in
  their order, as the fences ask for. Memory, and what the device stores, are bytes by address.
-/

import Myos.Lib.Bytes
import Myos.Lib.Runs

namespace Myos.Driver.Virtio

open Lib

def vqSize : Nat := 256
def vringDescFNext : Nat := 1
def vringDescFWrite : Nat := 2
def blkTIn : Nat := 0
def blkTOut : Nat := 1

structure VqDesc where
  addr : Nat
  len : Nat
  flags : Nat
  next : Nat
  deriving DecidableEq, Repr

structure Virtqueue where
  desc : Nat → VqDesc
  availIdx : Nat
  availRing : Nat → Nat
  usedIdx : Nat
  usedRing : Nat → Nat × Nat

/-- What `read_sector` and `write_sector` ask for: the sector has 64 bits, the length 32. -/
structure Request where
  isWrite : Bool
  sector : Nat
  buf : List UInt8
  sector_lt : sector < 2 ^ 64
  short : buf.length < 2 ^ 32

/-- What the caller gets: its buffer, or an error. -/
abbrev Outcome := Except String (List UInt8)

/-- The next store or load of `blk_request`. -/
inductive Point where
  | fill
  | header
  | desc0 (idx : Nat)
  | desc1 (idx : Nat)
  | desc2 (idx : Nat)
  | ring (idx : Nat)
  | publish (idx : Nat)
  | lastUsed
  | notify (lastUsed : Nat)
  | wait (lastUsed : Nat)
  | asleep (lastUsed : Nat)
  | result
  | copy
  deriving DecidableEq, Repr

/-- A call of `blk_request` and the address of its DMA buffer. -/
structure Running where
  request : Request
  pa : Nat
  point : Point

inductive Device where
  | idle
  | walk (head next : Nat) (chain : List VqDesc)
  | serve (head : Nat) (chain : List VqDesc)
  | answer (head : Nat) (chain : List VqDesc) (status : UInt8)
  | report (head len : Nat)
  | bump

/-- `live`: the DMA buffer that is allocated, from its address on. `stray`: the device touched memory
    outside of it. `owed`: an interrupt the device has yet to raise. -/
structure State where
  mem : Buf
  live : Option (Nat × Nat)
  vq : Virtqueue
  driver : Option Running
  device : Device
  lastAvail : Nat
  disk : Buf
  kicked : Bool
  owed : Bool
  pending : Bool
  stray : Bool
  log : List (Request × Outcome)

inductive Event where
  | call (r : Request) (dma : Option Nat)
  | drive
  | sleep
  | irq
  | take
  | fetch
  | transfer (status : UInt8) (junk : List UInt8)
  | answer
  | report
  | bump
  | raise

/-! ## The driver -/

namespace Request

variable (r : Request) (pa idx : Nat)

def len : Nat := r.buf.length

/-- Header, data and status byte. -/
def size : Nat := 16 + r.len + 1

def header : List UInt8 :=
  Buf.toLe32 (if r.isWrite then blkTOut else blkTIn) ++ Buf.toLe32 0 ++ Buf.toLe64 r.sector

def desc0 : VqDesc := ⟨pa, 16, vringDescFNext, (idx % vqSize + 1) % vqSize⟩

def desc1 : VqDesc := ⟨pa + 16, r.len, vringDescFNext ||| (if r.isWrite then 0 else vringDescFWrite), (idx % vqSize + 2) % vqSize⟩

def desc2 : VqDesc := ⟨pa + 16 + r.len, 1, vringDescFWrite, 0⟩

end Request

namespace State

variable (s : State)

def setDesc (i : Nat) (d : VqDesc) : State := { s with vq := { s.vq with desc := Function.update s.vq.desc i d } }

def goto (q : Running) (p : Point) : State := { s with driver := some { q with point := p } }

/-- `blk_request` returns and drops its buffer. -/
def finish (r : Request) (out : Outcome) : State := { s with driver := none, live := none, log := s.log ++ [(r, out)] }

end State

def drive (s : State) (q : Running) : State :=
  let r := q.request
  match q.point with
  | .fill => { s with mem := if r.isWrite then Buf.copyAt s.mem (q.pa + 16) r.buf else s.mem }.goto q .header
  | .header => { s with mem := Buf.copyAt s.mem q.pa r.header }.goto q (.desc0 s.vq.availIdx)
  | .desc0 idx => (s.setDesc (idx % vqSize) (Request.desc0 q.pa idx)).goto q (.desc1 idx)
  | .desc1 idx => (s.setDesc ((idx % vqSize + 1) % vqSize) (r.desc1 q.pa idx)).goto q (.desc2 idx)
  | .desc2 idx => (s.setDesc ((idx % vqSize + 2) % vqSize) (r.desc2 q.pa)).goto q (.ring idx)
  | .ring idx =>
    { s with vq := { s.vq with availRing := Function.update s.vq.availRing (idx % vqSize) (idx % vqSize) } }.goto q (.publish idx)
  | .publish _ => { s with vq := { s.vq with availIdx := (s.vq.availIdx + 1) % 2 ^ 16 } }.goto q .lastUsed
  | .lastUsed => s.goto q (.notify s.vq.usedIdx)
  | .notify last => { s with kicked := true }.goto q (.wait last)
  | .wait last => if s.vq.usedIdx ≠ last then s.goto q .result else s
  | .asleep _ => s
  | .result =>
    if s.mem (q.pa + 16 + r.len) ≠ 0 then s.finish r (.error "io err")
    else if r.isWrite then s.finish r (.ok r.buf)
    else s.goto q .copy
  | .copy => s.finish r (.ok (Buf.bytesAt s.mem (q.pa + 16) r.len))

/-- `wait_event` puts the task to sleep when `used.idx` has not moved. -/
def sleep (s : State) (q : Running) : Option State :=
  match q.point with
  | .wait last => if s.vq.usedIdx = last then some (s.goto q (.asleep last)) else none
  | _ => none

/-- `wake_up` of the queue of `virtio_irq_handler`. -/
def Running.wake (q : Running) : Running :=
  match q.point with
  | .asleep last => { q with point := .wait last }
  | _ => q

/-! ## The device -/

/-- The bytes from `addr` on are in the buffer that is allocated. -/
def State.owns (s : State) (addr len : Nat) : Bool :=
  match s.live with
  | none => false
  | some (pa, size) => pa ≤ addr && addr + len ≤ pa + size

def State.touch (s : State) (addr len : Nat) : State := { s with stray := s.stray || !s.owns addr len }

/-- The data of the request is moved, or, when the status is not 0, anything of its length. -/
def transfer (s : State) (status : UInt8) (junk : List UInt8) : Option State :=
  match s.device with
  | .serve head [h, d, st] =>
    let sector := Buf.getLe64 s.mem (h.addr + 8)
    let s1 := (s.touch h.addr 16).touch d.addr d.len
    if status ≠ 0 ∧ junk.length ≠ d.len then none
    else if Buf.getLe32 s.mem h.addr = blkTOut ∧ d.flags / vringDescFWrite % 2 = 0 then
      let data := if status = 0 then Buf.bytesAt s.mem d.addr d.len else junk
      some { s1 with disk := Buf.copyAt s.disk (sector * 512) data, device := .answer head [h, d, st] status }
    else if Buf.getLe32 s.mem h.addr = blkTIn ∧ d.flags / vringDescFWrite % 2 = 1 then
      let data := if status = 0 then Buf.bytesAt s.disk (sector * 512) d.len else junk
      some { s1 with mem := Buf.copyAt s.mem d.addr data, device := .answer head [h, d, st] status }
    else none
  | _ => none

def fetch (s : State) : Option State :=
  match s.device with
  | .walk head next chain =>
    let d := s.vq.desc next
    some { s with device := if d.flags % 2 = vringDescFNext then .walk head d.next (chain ++ [d]) else .serve head (chain ++ [d]) }
  | _ => none

def answer (s : State) : Option State :=
  match s.device with
  | .answer head [_, d, st] status =>
    let len := if d.flags / vringDescFWrite % 2 = 1 then d.len + 1 else 1
    some { s.touch st.addr 1 with mem := Buf.copyAt s.mem st.addr [status], device := .report head len }
  | _ => none

/-! ## Steps -/

def step (s : State) : Event → Option State
  | .call r dma =>
    match s.driver, dma with
    | none, none => some (s.finish r (.error "alloc dma buf failed"))
    | none, some pa => some { s with live := some (pa, r.size), driver := some ⟨r, pa, .fill⟩ }
    | some _, _ => none
  | .drive => s.driver.map (drive s)
  | .sleep => s.driver.bind (sleep s)
  | .irq => if s.pending then some { s with pending := false, driver := s.driver.map Running.wake } else none
  | .take =>
    match s.device with
    | .idle =>
      if s.lastAvail ≠ s.vq.availIdx then
        let head := s.vq.availRing (s.lastAvail % vqSize)
        some { s with device := .walk head head [], lastAvail := (s.lastAvail + 1) % 2 ^ 16, kicked := false }
      else none
    | _ => none
  | .fetch => fetch s
  | .transfer status junk => transfer s status junk
  | .answer => answer s
  | .report =>
    match s.device with
    | .report head len =>
      some { s with vq := { s.vq with usedRing := Function.update s.vq.usedRing (s.vq.usedIdx % vqSize) (head, len) }, device := .bump }
    | _ => none
  | .bump =>
    match s.device with
    | .bump => some { s with vq := { s.vq with usedIdx := (s.vq.usedIdx + 1) % 2 ^ 16 }, device := .idle, owed := true }
    | _ => none
  | .raise => if s.owed then some { s with owed := false, pending := true } else none

/-- After `setup_virtqueue`: the queue is zero. -/
def setup (mem disk : Buf) : State where
  mem := mem
  live := none
  vq := ⟨fun _ => ⟨0, 0, 0, 0⟩, 0, fun _ => 0, 0, fun _ => (0, 0)⟩
  driver := none
  device := .idle
  lastAvail := 0
  disk := disk
  kicked := false
  owed := false
  pending := false
  stray := false
  log := []

/-! ## What the device is for -/

/-- One request on the stored bytes, and its outcome. A write that fails may leave anything in the sectors
    it was for. -/
inductive Serves (D : Buf) : Request × Outcome → Buf → Prop where
  | read {r : Request} : r.isWrite = false → Serves D (r, .ok (Buf.bytesAt D (r.sector * 512) r.len)) D
  | write {r : Request} : r.isWrite = true → Serves D (r, .ok r.buf) (Buf.copyAt D (r.sector * 512) r.buf)
  | readFailed {r : Request} : r.isWrite = false → Serves D (r, .error "io err") D
  | writeFailed {r : Request} {junk : List UInt8} : r.isWrite = true → junk.length = r.len →
      Serves D (r, .error "io err") (Buf.copyAt D (r.sector * 512) junk)
  | noBuffer {r : Request} : Serves D (r, .error "alloc dma buf failed") D

end Myos.Driver.Virtio
