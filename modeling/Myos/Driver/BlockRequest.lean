/-
  Myos.Driver.BlockRequest — a block request between the driver and its device.

  Proved: whatever the order of their steps, the requests that have returned are requests on the
  stored bytes one after the other, each with its outcome, and none is lost or done twice; the
  device touches no memory but the buffer of the request that is open.
-/

import Myos.Driver.Virtqueue
import Myos.Lib.Refines
import Myos.Fat.Volume

namespace Myos.Driver.Virtio

open Lib

variable {s s' : State} {D D0 : Buf} {r : Request} {pa idx n : Nat} {p : Point} {status : UInt8} {junk : List UInt8}

/-- The index behind `idx`, in 16 bits. -/
def following (idx : Nat) : Nat := (idx + 1) % 2 ^ 16

theorem following_ne : following idx ≠ idx := by
  unfold following
  omega

/-! ## What the driver has written -/

/-- The DMA buffer holds the request. -/
structure Headed (mem : Buf) (r : Request) (pa : Nat) : Prop where
  type : Buf.getLe32 mem pa = if r.isWrite then blkTOut else blkTIn
  sector : Buf.getLe64 mem (pa + 8) = r.sector
  data : r.isWrite = true → Buf.bytesAt mem (pa + 16) r.len = r.buf

/-- The queue holds the chain of the request. -/
structure Chained (vq : Virtqueue) (r : Request) (pa idx : Nat) : Prop where
  head : vq.availRing (idx % vqSize) = idx % vqSize
  desc0 : vq.desc (idx % vqSize) = Request.desc0 pa idx
  desc1 : vq.desc ((idx % vqSize + 1) % vqSize) = r.desc1 pa idx
  desc2 : vq.desc ((idx % vqSize + 2) % vqSize) = r.desc2 pa

theorem headed_header (mem : Buf) (r : Request) (pa : Nat) (h : r.isWrite = true → Buf.bytesAt mem (pa + 16) r.len = r.buf) :
    Headed (Buf.copyAt mem pa r.header) r pa := by
  have hlen : r.header.length = 16 := by simp [Request.header]
  refine ⟨?_, ?_, fun hw => ?_⟩
  · have h32 := Buf.getLe32_copyAt mem pa (if r.isWrite then blkTOut else blkTIn)
    rw [Nat.mod_eq_of_lt (by split <;> decide)] at h32
    rw [← h32]
    apply Buf.getLe32_congr
    intro k hk
    rw [Request.header, List.append_assoc, Buf.copyAt_append, Buf.copyAt_of_lt (by rw [Buf.length_toLe32]; omega)]
  · have h8 : (Buf.toLe32 (if r.isWrite then blkTOut else blkTIn) ++ Buf.toLe32 0).length = 8 := by simp
    rw [Request.header, Buf.copyAt_append, h8]
    exact Buf.getLe64_copyAt _ _ r.sector_lt
  · rw [Buf.bytesAt_copyAt_ne (.inl (by rw [hlen]))]
    exact h hw

/-- What is written before the point. -/
def Prepared (s : State) (r : Request) (pa : Nat) : Point → Prop
  | .fill => True
  | .header => r.isWrite = true → Buf.bytesAt s.mem (pa + 16) r.len = r.buf
  | .desc0 idx => idx = s.vq.availIdx ∧ Headed s.mem r pa
  | .desc1 idx => idx = s.vq.availIdx ∧ Headed s.mem r pa ∧ s.vq.desc (idx % vqSize) = Request.desc0 pa idx
  | .desc2 idx => idx = s.vq.availIdx ∧ Headed s.mem r pa ∧ s.vq.desc (idx % vqSize) = Request.desc0 pa idx ∧
      s.vq.desc ((idx % vqSize + 1) % vqSize) = r.desc1 pa idx
  | .ring idx => idx = s.vq.availIdx ∧ Headed s.mem r pa ∧ s.vq.desc (idx % vqSize) = Request.desc0 pa idx ∧
      s.vq.desc ((idx % vqSize + 1) % vqSize) = r.desc1 pa idx ∧ s.vq.desc ((idx % vqSize + 2) % vqSize) = r.desc2 pa
  | .publish idx => idx = s.vq.availIdx ∧ Headed s.mem r pa ∧ Chained s.vq r pa idx
  | _ => False

/-! ## What the device has done -/

/-- The outcome that the status and the buffer lead to. -/
def outcome (mem : Buf) (r : Request) (pa : Nat) (status : UInt8) : Outcome :=
  if status ≠ 0 then .error "io err" else .ok (if r.isWrite then r.buf else Buf.bytesAt mem (pa + 16) r.len)

/-- The status that is in the buffer. -/
def statusAt (mem : Buf) (r : Request) (pa : Nat) : UInt8 := mem (pa + 16 + r.len)

/-- How far the device is with the request that `idx` was written for; `D` was stored before it. -/
inductive Serving (s : State) (D : Buf) (r : Request) (pa idx : Nat) : Prop where
  | offered : s.device = .idle → s.lastAvail = idx → s.vq.usedIdx = idx → Headed s.mem r pa → Chained s.vq r pa idx → s.disk = D →
      Serving s D r pa idx
  | walks {next : Nat} {chain : List VqDesc} : s.device = .walk (idx % vqSize) next chain → s.lastAvail = following idx → s.vq.usedIdx = idx →
      Headed s.mem r pa → Chained s.vq r pa idx → s.disk = D →
      (next = idx % vqSize ∧ chain = [] ∨ next = (idx % vqSize + 1) % vqSize ∧ chain = [Request.desc0 pa idx] ∨
        next = (idx % vqSize + 2) % vqSize ∧ chain = [Request.desc0 pa idx, r.desc1 pa idx]) → Serving s D r pa idx
  | serves : s.device = .serve (idx % vqSize) [Request.desc0 pa idx, r.desc1 pa idx, r.desc2 pa] → s.lastAvail = following idx →
      s.vq.usedIdx = idx → Headed s.mem r pa → s.disk = D → Serving s D r pa idx
  | answers {status : UInt8} : s.device = .answer (idx % vqSize) [Request.desc0 pa idx, r.desc1 pa idx, r.desc2 pa] status →
      s.lastAvail = following idx → s.vq.usedIdx = idx → Serves D (r, outcome s.mem r pa status) s.disk → Serving s D r pa idx
  | reports {len : Nat} : s.device = .report (idx % vqSize) len → s.lastAvail = following idx → s.vq.usedIdx = idx →
      Serves D (r, outcome s.mem r pa (statusAt s.mem r pa)) s.disk → Serving s D r pa idx
  | bumps : s.device = .bump → s.lastAvail = following idx → s.vq.usedIdx = idx →
      Serves D (r, outcome s.mem r pa (statusAt s.mem r pa)) s.disk → Serving s D r pa idx
  | done : s.device = .idle → s.lastAvail = following idx → s.vq.usedIdx = following idx →
      Serves D (r, outcome s.mem r pa (statusAt s.mem r pa)) s.disk → Serving s D r pa idx

/-- The device has used all that was offered. -/
structure Still (s : State) : Prop where
  device : s.device = .idle
  lastAvail : s.lastAvail = s.vq.availIdx
  usedIdx : s.vq.usedIdx = s.vq.availIdx
  availIdx : s.vq.availIdx < 2 ^ 16

/-- What the driver knows at a point behind the store to `avail.idx`. -/
def Waits (s : State) (r : Request) (pa idx : Nat) : Point → Prop
  | .lastUsed => True
  | .notify last | .wait last | .asleep last => last = idx ∨ last = following idx ∧ s.vq.usedIdx = following idx
  | .result => s.vq.usedIdx = following idx
  | .copy => s.vq.usedIdx = following idx ∧ statusAt s.mem r pa = 0 ∧ r.isWrite = false
  | _ => False

/-- The shape of a state after requests that leave `D` stored, besides one that may be open. -/
inductive Shape (D : Buf) (s : State) : Prop where
  | quiet : s.driver = none → s.live = none → Still s → s.disk = D → Shape D s
  | preparing {r : Request} {pa : Nat} {p : Point} : s.driver = some ⟨r, pa, p⟩ → s.live = some (pa, r.size) → Still s →
      Prepared s r pa p → s.disk = D → Shape D s
  | waiting {r : Request} {pa idx : Nat} {p : Point} : s.driver = some ⟨r, pa, p⟩ → s.live = some (pa, r.size) → idx < 2 ^ 16 →
      s.vq.availIdx = following idx → Waits s r pa idx p → Serving s D r pa idx → Shape D s

/-- The step leaves the log and what is stored before the open request, or a request returns. -/
def Advances (s s' : State) (D D' : Buf) : Prop :=
  s'.log = s.log ∧ D' = D ∨ ∃ x, s'.log = s.log ++ [x] ∧ Serves D x D'

/-! ## What the steps of the driver are -/

theorem step_call {dma : Option Nat} (he : step s (.call r dma) = some s') : s.driver = none ∧
    (s' = s.finish r (.error "alloc dma buf failed") ∨ ∃ pa, s' = { s with live := some (pa, r.size), driver := some ⟨r, pa, .fill⟩ }) := by
  unfold step at he
  cases hd : s.driver with
  | none =>
    rw [hd] at he
    cases dma with
    | none =>
      cases he
      exact ⟨rfl, .inl rfl⟩
    | some pa =>
      cases he
      exact ⟨rfl, .inr ⟨pa, rfl⟩⟩
  | some q =>
    rw [hd] at he
    cases he

theorem step_drive (he : step s .drive = some s') : ∃ q, s.driver = some q ∧ s' = drive s q := by
  have he' : s.driver.map (drive s) = some s' := he
  obtain ⟨q, hq, rfl⟩ := Option.map_eq_some_iff.mp he'
  exact ⟨q, hq, rfl⟩

theorem step_sleep (he : step s .sleep = some s') : ∃ r pa, s.driver = some ⟨r, pa, .wait s.vq.usedIdx⟩ ∧
    s' = { s with driver := some ⟨r, pa, .asleep s.vq.usedIdx⟩ } := by
  have he' : s.driver.bind (sleep s) = some s' := he
  obtain ⟨⟨r, pa, p⟩, hq, hs⟩ := Option.bind_eq_some_iff.mp he'
  unfold sleep at hs
  split at hs
  next last hpt =>
    obtain rfl : p = .wait last := hpt
    split at hs
    next hu =>
      cases hs
      rw [hu]
      exact ⟨r, pa, hq, rfl⟩
    · cases hs
  · cases hs

theorem step_irq (he : step s .irq = some s') : s.pending = true ∧
    s' = { s with pending := false, driver := s.driver.map Running.wake } := by
  unfold step at he
  dsimp only at he
  split at he
  next hp =>
    cases he
    exact ⟨hp, rfl⟩
  · cases he

theorem step_raise (he : step s .raise = some s') : s.owed = true ∧ s' = { s with owed := false, pending := true } := by
  unfold step at he
  dsimp only at he
  split at he
  next ho =>
    cases he
    exact ⟨ho, rfl⟩
  · cases he

/-! ## Steps of the driver -/

theorem Serving.frame (h : Serving s D r pa idx) (hm : s'.mem = s.mem) (hv : s'.vq = s.vq) (hd : s'.device = s.device)
    (hl : s'.lastAvail = s.lastAvail) (hk : s'.disk = s.disk) : Serving s' D r pa idx := by
  cases h with
  | offered h1 h2 h3 h4 h5 h6 => exact .offered (hd.trans h1) (hl.trans h2) (by rw [hv, h3]) (by rw [hm]; exact h4) (by rw [hv]; exact h5) (hk.trans h6)
  | walks h1 h2 h3 h4 h5 h6 h7 =>
    exact .walks (hd.trans h1) (hl.trans h2) (by rw [hv, h3]) (by rw [hm]; exact h4) (by rw [hv]; exact h5) (hk.trans h6) h7
  | serves h1 h2 h3 h4 h5 => exact .serves (hd.trans h1) (hl.trans h2) (by rw [hv, h3]) (by rw [hm]; exact h4) (hk.trans h5)
  | answers h1 h2 h3 h4 => exact .answers (hd.trans h1) (hl.trans h2) (by rw [hv, h3]) (by rw [hm, hk]; exact h4)
  | reports h1 h2 h3 h4 => exact .reports (hd.trans h1) (hl.trans h2) (by rw [hv, h3]) (by rw [hm, hk]; exact h4)
  | bumps h1 h2 h3 h4 => exact .bumps (hd.trans h1) (hl.trans h2) (by rw [hv, h3]) (by rw [hm, hk]; exact h4)
  | done h1 h2 h3 h4 => exact .done (hd.trans h1) (hl.trans h2) (by rw [hv, h3]) (by rw [hm, hk]; exact h4)

theorem i1_ne : (idx % vqSize + 1) % vqSize ≠ idx % vqSize := by
  unfold vqSize
  omega

theorem i2_ne : (idx % vqSize + 2) % vqSize ≠ idx % vqSize := by
  unfold vqSize
  omega

theorem i2_ne_i1 : (idx % vqSize + 2) % vqSize ≠ (idx % vqSize + 1) % vqSize := by
  unfold vqSize
  omega

/-- The stores before the one to `avail.idx`, and that one. -/
theorem prepare_step (hdr : s.driver = some ⟨r, pa, p⟩) (hlive : s.live = some (pa, r.size)) (hs : Still s) (hp : Prepared s r pa p)
    (hD : s.disk = D) : Shape D (drive s ⟨r, pa, p⟩) ∧ (drive s ⟨r, pa, p⟩).log = s.log := by
  have hstill : ∀ {s' : State}, s'.device = s.device → s'.lastAvail = s.lastAvail → s'.vq.usedIdx = s.vq.usedIdx →
      s'.vq.availIdx = s.vq.availIdx → Still s' := fun h1 h2 h3 h4 =>
    ⟨h1.trans hs.device, by rw [h2, h4, hs.lastAvail], by rw [h3, h4, hs.usedIdx], by rw [h4]; exact hs.availIdx⟩
  cases p with
  | fill =>
    refine ⟨.preparing rfl hlive (hstill rfl rfl rfl rfl) (fun hw => ?_) hD, rfl⟩
    show Buf.bytesAt (if r.isWrite then Buf.copyAt s.mem (pa + 16) r.buf else s.mem) (pa + 16) r.len = r.buf
    rw [if_pos hw]
    exact Buf.bytesAt_copyAt rfl
  | header => exact ⟨.preparing rfl hlive (hstill rfl rfl rfl rfl) ⟨rfl, headed_header _ _ _ hp⟩ hD, rfl⟩
  | desc0 idx => exact ⟨.preparing rfl hlive (hstill rfl rfl rfl rfl) ⟨hp.1, hp.2, Function.update_self ..⟩ hD, rfl⟩
  | desc1 idx =>
    obtain ⟨h1, h2, h3⟩ := hp
    exact ⟨.preparing rfl hlive (hstill rfl rfl rfl rfl)
      ⟨h1, h2, (Function.update_of_ne i1_ne.symm ..).trans h3, Function.update_self ..⟩ hD, rfl⟩
  | desc2 idx =>
    obtain ⟨h1, h2, h3, h4⟩ := hp
    exact ⟨.preparing rfl hlive (hstill rfl rfl rfl rfl) ⟨h1, h2, (Function.update_of_ne i2_ne.symm ..).trans h3,
      (Function.update_of_ne i2_ne_i1.symm ..).trans h4, Function.update_self ..⟩ hD, rfl⟩
  | ring idx =>
    obtain ⟨h1, h2, h3, h4, h5⟩ := hp
    exact ⟨.preparing rfl hlive (hstill rfl rfl rfl rfl) ⟨h1, h2, Function.update_self .., h3, h4, h5⟩ hD, rfl⟩
  | publish idx =>
    obtain ⟨h1, h2, h3⟩ := hp
    refine ⟨.waiting rfl hlive hs.availIdx rfl trivial ?_, rfl⟩
    rw [h1] at h3
    exact .offered hs.device hs.lastAvail hs.usedIdx h2 ⟨h3.head, h3.desc0, h3.desc1, h3.desc2⟩ hD
  | lastUsed => exact hp.elim
  | notify last => exact hp.elim
  | wait last => exact hp.elim
  | asleep last => exact hp.elim
  | result => exact hp.elim
  | copy => exact hp.elim

/-- A device that has used the request is still again. -/
theorem Serving.finished (h : Serving s D r pa idx) (hu : s.vq.usedIdx = following idx) :
    s.device = .idle ∧ s.lastAvail = following idx ∧ Serves D (r, outcome s.mem r pa (statusAt s.mem r pa)) s.disk := by
  have hne := @following_ne idx
  cases h with
  | done h1 h2 _ h4 => exact ⟨h1, h2, h4⟩
  | offered _ _ h3 => exact absurd (hu.symm.trans h3) hne
  | walks _ _ h3 => exact absurd (hu.symm.trans h3) hne
  | serves _ _ h3 => exact absurd (hu.symm.trans h3) hne
  | answers _ _ h3 => exact absurd (hu.symm.trans h3) hne
  | reports _ _ h3 => exact absurd (hu.symm.trans h3) hne
  | bumps _ _ h3 => exact absurd (hu.symm.trans h3) hne

/-- The used index is the one before the request or the one behind it. -/
theorem Serving.usedIdx (h : Serving s D r pa idx) : s.vq.usedIdx = idx ∨ s.vq.usedIdx = following idx := by
  cases h with
  | done _ _ h3 _ => exact .inr h3
  | offered _ _ h3 => exact .inl h3
  | walks _ _ h3 => exact .inl h3
  | serves _ _ h3 => exact .inl h3
  | answers _ _ h3 => exact .inl h3
  | reports _ _ h3 => exact .inl h3
  | bumps _ _ h3 => exact .inl h3

theorem outcome_failed (h : status ≠ 0) (mem : Buf) (r : Request) (pa : Nat) : outcome mem r pa status = .error "io err" := if_pos h

theorem outcome_write (h : status = 0) (hw : r.isWrite = true) (mem : Buf) (pa : Nat) : outcome mem r pa status = .ok r.buf := by
  simp [outcome, h, hw]

theorem outcome_read (h : status = 0) (hw : r.isWrite = false) (mem : Buf) (pa : Nat) :
    outcome mem r pa status = .ok (Buf.bytesAt mem (pa + 16) r.len) := by
  simp [outcome, h, hw]

/-- The call returns what the device answered. -/
theorem finish_shape (ha : s.vq.availIdx = following idx) (hu : s.vq.usedIdx = following idx) (hS : Serving s D r pa idx)
    {out : Outcome} (ho : out = outcome s.mem r pa (statusAt s.mem r pa)) :
    ∃ D', Shape D' (s.finish r out) ∧ Advances s (s.finish r out) D D' := by
  obtain ⟨h1, h2, h3⟩ := hS.finished hu
  refine ⟨s.disk, .quiet rfl rfl ⟨h1, h2.trans ha.symm, hu.trans ha.symm, ?_⟩ rfl, .inr ⟨_, rfl, ?_⟩⟩
  · show s.vq.availIdx < 2 ^ 16
    rw [ha]
    exact Nat.mod_lt _ (by decide)
  · rw [ho]
    exact h3

/-- The loads behind the store to `avail.idx`. -/
theorem wait_step (hdr : s.driver = some ⟨r, pa, p⟩) (hlive : s.live = some (pa, r.size)) (hi : idx < 2 ^ 16) (ha : s.vq.availIdx = following idx)
    (hw : Waits s r pa idx p) (hS : Serving s D r pa idx) :
    ∃ D', Shape D' (drive s ⟨r, pa, p⟩) ∧ Advances s (drive s ⟨r, pa, p⟩) D D' := by
  have hstays : ∀ {s' : State} {p' : Point}, s'.driver = some ⟨r, pa, p'⟩ → s'.live = s.live → s'.vq = s.vq → s'.mem = s.mem →
      s'.device = s.device → s'.lastAvail = s.lastAvail → s'.disk = s.disk → s'.log = s.log → Waits s' r pa idx p' →
      ∃ D', Shape D' s' ∧ Advances s s' D D' := fun h1 h2 h3 h4 h5 h6 h7 h8 h9 =>
    ⟨D, .waiting h1 (h2.trans hlive) hi (by rw [h3, ha]) h9 (hS.frame h4 h3 h5 h6 h7), .inl ⟨h8, rfl⟩⟩
  cases p with
  | lastUsed =>
    refine hstays rfl rfl rfl rfl rfl rfl rfl rfl ?_
    cases hS.usedIdx with
    | inl h => exact .inl h
    | inr h => exact .inr ⟨h, h⟩
  | notify last => exact hstays rfl rfl rfl rfl rfl rfl rfl rfl hw
  | wait last =>
    unfold drive
    dsimp only
    by_cases hu : s.vq.usedIdx = last
    · rw [if_neg (not_not_intro hu)]
      exact hstays hdr rfl rfl rfl rfl rfl rfl rfl hw
    · rw [if_pos hu]
      refine hstays rfl rfl rfl rfl rfl rfl rfl rfl ?_
      cases hw with
      | inl h => exact hS.usedIdx.resolve_left fun h' => hu (h'.trans h.symm)
      | inr h => exact h.2
  | asleep last => exact hstays hdr rfl rfl rfl rfl rfl rfl rfl hw
  | result =>
    unfold drive
    dsimp only
    by_cases h0 : s.mem (pa + 16 + r.len) = 0
    · rw [if_neg (not_not_intro h0)]
      cases hwr : r.isWrite with
      | true =>
        rw [if_pos rfl]
        exact finish_shape ha hw hS (outcome_write h0 hwr _ _).symm
      | false =>
        rw [if_neg Bool.false_ne_true]
        exact hstays rfl rfl rfl rfl rfl rfl rfl rfl ⟨hw, h0, hwr⟩
    · rw [if_pos h0]
      exact finish_shape ha hw hS (outcome_failed h0 _ _ _).symm
  | copy =>
    obtain ⟨h1, h2, h3⟩ := hw
    exact finish_shape ha h1 hS (outcome_read h2 h3 _ _).symm
  | fill => exact hw.elim
  | header => exact hw.elim
  | desc0 idx => exact hw.elim
  | desc1 idx => exact hw.elim
  | desc2 idx => exact hw.elim
  | ring idx => exact hw.elim
  | publish idx => exact hw.elim

/-! ## Steps of the device -/

/-- The device takes the head of the chain out of the ring. -/
theorem take_step (hS : Serving s D r pa idx) (ha : s.vq.availIdx = following idx) (h : step s .take = some s') :
    Serving s' D r pa idx ∧ s'.stray = s.stray := by
  cases hS with
  | offered h1 h2 h3 h4 h5 h6 =>
    unfold step at h
    rw [h1] at h
    dsimp only at h
    rw [if_pos (by rw [h2, ha]; exact following_ne.symm), h2, h5.head] at h
    cases h
    exact ⟨.walks rfl rfl h3 h4 h5 h6 (.inl ⟨rfl, rfl⟩), rfl⟩
  | done h1 h2 h3 h4 =>
    unfold step at h
    rw [h1] at h
    dsimp only at h
    rw [if_neg (by rw [h2, ha]; exact not_not_intro rfl)] at h
    cases h
  | walks h1 => simp [step, h1] at h
  | serves h1 => simp [step, h1] at h
  | answers h1 => simp [step, h1] at h
  | reports h1 => simp [step, h1] at h
  | bumps h1 => simp [step, h1] at h

theorem desc0_next : (Request.desc0 pa idx).flags % 2 = vringDescFNext := rfl

theorem desc1_next : (r.desc1 pa idx).flags % 2 = vringDescFNext := by
  show (vringDescFNext ||| (if r.isWrite then 0 else vringDescFWrite)) % 2 = vringDescFNext
  cases r.isWrite <;> decide

/-- The device may write the data of a read only. -/
theorem desc1_write : (r.desc1 pa idx).flags / vringDescFWrite % 2 = if r.isWrite then 0 else 1 := by
  show (vringDescFNext ||| (if r.isWrite then 0 else vringDescFWrite)) / vringDescFWrite % 2 = if r.isWrite then 0 else 1
  cases r.isWrite <;> decide

theorem desc2_next : (r.desc2 pa).flags % 2 ≠ vringDescFNext := by
  show vringDescFWrite % 2 ≠ vringDescFNext
  decide

/-- The chain of the request is walked to its end. -/
theorem fetch_step (hS : Serving s D r pa idx) (h : fetch s = some s') : Serving s' D r pa idx ∧ s'.stray = s.stray := by
  cases hS with
  | walks h1 h2 h3 h4 h5 h6 h7 =>
    unfold fetch at h
    rw [h1] at h
    dsimp only at h
    rcases h7 with ⟨rfl, rfl⟩ | ⟨rfl, rfl⟩ | ⟨rfl, rfl⟩
    · rw [h5.desc0, if_pos desc0_next] at h
      cases h
      exact ⟨.walks rfl h2 h3 h4 h5 h6 (.inr (.inl ⟨rfl, rfl⟩)), rfl⟩
    · rw [h5.desc1, if_pos desc1_next] at h
      cases h
      exact ⟨.walks rfl h2 h3 h4 h5 h6 (.inr (.inr ⟨rfl, rfl⟩)), rfl⟩
    · rw [h5.desc2, if_neg desc2_next] at h
      cases h
      exact ⟨.serves rfl h2 h3 h4 h6, rfl⟩
  | offered h1 => simp [fetch, h1] at h
  | serves h1 => simp [fetch, h1] at h
  | answers h1 => simp [fetch, h1] at h
  | reports h1 => simp [fetch, h1] at h
  | bumps h1 => simp [fetch, h1] at h
  | done h1 => simp [fetch, h1] at h

/-- The data is moved, or the request fails. -/
theorem transfer_step (hS : Serving s D r pa idx) (h : transfer s status junk = some s') : Serving s' D r pa idx := by
  cases hS with
  | serves h1 h2 h3 h4 h5 =>
    unfold transfer at h
    rw [h1] at h
    dsimp only at h
    obtain ⟨htype, hsector, hdata⟩ := h4
    have hlen : (r.desc1 pa idx).len = r.len := rfl
    have haddr : (r.desc1 pa idx).addr = pa + 16 := rfl
    have haddr0 : (Request.desc0 pa idx).addr = pa := rfl
    rw [haddr0, haddr, hlen, htype, hsector, desc1_write, h5] at h
    split at h
    · cases h
    next hjunk =>
    have hjunk' : status ≠ 0 → junk.length = r.len := fun h0 => by_contra fun hne => hjunk ⟨h0, hne⟩
    cases hw : r.isWrite with
    | true =>
      rw [hw, if_pos rfl, if_pos rfl, if_pos ⟨rfl, rfl⟩, hdata hw] at h
      cases h
      refine .answers rfl h2 h3 ?_
      by_cases h0 : status = 0
      · rw [outcome_write h0 hw, if_pos h0]
        exact .write hw
      · rw [outcome_failed h0, if_neg h0]
        exact .writeFailed hw (hjunk' h0)
    | false =>
      rw [hw, if_neg Bool.false_ne_true, if_neg Bool.false_ne_true, if_neg (by decide), if_pos ⟨rfl, rfl⟩] at h
      cases h
      refine .answers rfl h2 h3 ?_
      by_cases h0 : status = 0
      · rw [outcome_read h0 hw, if_pos h0]
        dsimp only
        rw [Buf.bytesAt_copyAt Buf.length_bytesAt]
        subst h5
        exact .read hw
      · rw [outcome_failed h0]
        subst h5
        exact .readFailed hw
  | offered h1 => simp [transfer, h1] at h
  | walks h1 => simp [transfer, h1] at h
  | answers h1 => simp [transfer, h1] at h
  | reports h1 => simp [transfer, h1] at h
  | bumps h1 => simp [transfer, h1] at h
  | done h1 => simp [transfer, h1] at h

theorem answer_step (hS : Serving s D r pa idx) (h : answer s = some s') : Serving s' D r pa idx := by
  cases hS with
  | @answers status h1 h2 h3 h4 =>
    unfold answer at h
    rw [h1] at h
    cases h
    refine .reports rfl h2 h3 ?_
    have hstatus : statusAt (Buf.copyAt s.mem (pa + 16 + r.len) [status]) r pa = status := by
      have := @Buf.copyAt_add s.mem (pa + 16 + r.len) 0 [status] (by simp)
      simpa [statusAt] using this
    have hout : outcome (Buf.copyAt s.mem (pa + 16 + r.len) [status]) r pa status = outcome s.mem r pa status := by
      unfold outcome
      rw [Buf.bytesAt_copyAt_ne (.inr (Nat.le_refl _))]
    show Serves D (r, outcome (Buf.copyAt s.mem (pa + 16 + r.len) [status]) r pa
      (statusAt (Buf.copyAt s.mem (pa + 16 + r.len) [status]) r pa)) s.disk
    rw [hstatus, hout]
    exact h4
  | offered h1 => simp [answer, h1] at h
  | walks h1 => simp [answer, h1] at h
  | serves h1 => simp [answer, h1] at h
  | reports h1 => simp [answer, h1] at h
  | bumps h1 => simp [answer, h1] at h
  | done h1 => simp [answer, h1] at h

theorem report_step (hS : Serving s D r pa idx) (h : step s .report = some s') :
    Serving s' D r pa idx ∧ s'.stray = s.stray := by
  cases hS with
  | reports h1 h2 h3 h4 =>
    unfold step at h
    rw [h1] at h
    cases h
    exact ⟨.bumps rfl h2 h3 h4, rfl⟩
  | offered h1 => simp [step, h1] at h
  | walks h1 => simp [step, h1] at h
  | serves h1 => simp [step, h1] at h
  | answers h1 => simp [step, h1] at h
  | bumps h1 => simp [step, h1] at h
  | done h1 => simp [step, h1] at h

theorem bump_step (hS : Serving s D r pa idx) (h : step s .bump = some s') :
    Serving s' D r pa idx ∧ s'.stray = s.stray := by
  cases hS with
  | bumps h1 h2 h3 h4 =>
    unfold step at h
    rw [h1] at h
    cases h
    have hu : (s.vq.usedIdx + 1) % 2 ^ 16 = following idx := by rw [h3, following]
    exact ⟨.done rfl h2 hu h4, rfl⟩
  | offered h1 => simp [step, h1] at h
  | walks h1 => simp [step, h1] at h
  | serves h1 => simp [step, h1] at h
  | answers h1 => simp [step, h1] at h
  | reports h1 => simp [step, h1] at h
  | done h1 => simp [step, h1] at h

/-! ## Memory -/

/-- The device touches the buffer only. -/
theorem touch_stray {size addr len : Nat} (hl : s.live = some (pa, size)) (h1 : pa ≤ addr) (h2 : addr + len ≤ pa + size) :
    (s.touch addr len).stray = s.stray := by
  simp [State.touch, State.owns, hl, h1, h2]

theorem transfer_stray (hl : s.live = some (pa, r.size)) (hS : Serving s D r pa idx) (h : transfer s status junk = some s') :
    s'.stray = s.stray := by
  have hd : s.device = .serve (idx % vqSize) [Request.desc0 pa idx, r.desc1 pa idx, r.desc2 pa] := by
    cases hS with
    | serves h1 => exact h1
    | offered h1 => simp [transfer, h1] at h
    | walks h1 => simp [transfer, h1] at h
    | answers h1 => simp [transfer, h1] at h
    | reports h1 => simp [transfer, h1] at h
    | bumps h1 => simp [transfer, h1] at h
    | done h1 => simp [transfer, h1] at h
  have h0 : (s.touch pa 16).stray = s.stray := touch_stray hl (Nat.le_refl _) (by unfold Request.size; omega)
  have hl' : (s.touch pa 16).live = some (pa, r.size) := hl
  have h1 : ((s.touch pa 16).touch (pa + 16) r.len).stray = s.stray :=
    (touch_stray hl' (by omega) (by unfold Request.size; omega)).trans h0
  unfold transfer at h
  rw [hd] at h
  dsimp only at h
  split at h
  · cases h
  · split at h
    · cases h
      exact h1
    · split at h
      · cases h
        exact h1
      · cases h

theorem answer_stray (hl : s.live = some (pa, r.size)) (hS : Serving s D r pa idx) (h : answer s = some s') : s'.stray = s.stray := by
  cases hS with
  | answers h1 =>
    unfold answer at h
    rw [h1] at h
    cases h
    exact touch_stray hl (by unfold Request.desc2; dsimp only; omega) (by unfold Request.desc2 Request.size; dsimp only; omega)
  | offered h1 => simp [answer, h1] at h
  | walks h1 => simp [answer, h1] at h
  | serves h1 => simp [answer, h1] at h
  | reports h1 => simp [answer, h1] at h
  | bumps h1 => simp [answer, h1] at h
  | done h1 => simp [answer, h1] at h

/-! ## Any step -/

theorem drive_stray (q : Running) : (drive s q).stray = s.stray := by
  cases q with
  | mk r pa p =>
    cases p with
    | wait last => unfold drive; dsimp only; split <;> rfl
    | result =>
      unfold drive
      dsimp only
      split
      · rfl
      · split <;> rfl
    | _ => rfl

theorem Running.wake_request (q : Running) : q.wake.request = q.request := by
  unfold Running.wake
  split <;> rfl

/-- A step that only moves the point of the driver, or none. -/
theorem Shape.moved (h : Shape D s) (hm : s'.mem = s.mem) (hlive : s'.live = s.live) (hv : s'.vq = s.vq) (hd : s'.device = s.device)
    (hl : s'.lastAvail = s.lastAvail) (hk : s'.disk = s.disk) (hn : s.driver = none → s'.driver = none)
    (hp : ∀ r pa p, s.driver = some ⟨r, pa, p⟩ → ∃ p', s'.driver = some ⟨r, pa, p'⟩ ∧ (Prepared s r pa p → Prepared s' r pa p') ∧
      ∀ idx, Waits s r pa idx p → Waits s' r pa idx p') : Shape D s' := by
  have hstill : Still s → Still s' := fun hs =>
    ⟨hd.trans hs.device, by rw [hl, hv, hs.lastAvail], by rw [hv, hs.usedIdx], by rw [hv]; exact hs.availIdx⟩
  cases h with
  | quiet h1 h2 h3 h4 => exact .quiet (hn h1) (hlive.trans h2) (hstill h3) (hk.trans h4)
  | preparing h1 h2 h3 h4 h5 =>
    obtain ⟨p', hp1, hp2, -⟩ := hp _ _ _ h1
    exact .preparing hp1 (hlive.trans h2) (hstill h3) (hp2 h4) (hk.trans h5)
  | waiting h1 h2 h3 h4 h5 h6 =>
    obtain ⟨p', hp1, -, hp2⟩ := hp _ _ _ h1
    exact .waiting hp1 (hlive.trans h2) h3 (by rw [hv, h4]) (hp2 _ h5) (h6.frame hm hv hd hl hk)

theorem sleep_shape (h : Shape D s) (he : step s .sleep = some s') : Shape D s' ∧ s'.log = s.log ∧ s'.stray = s.stray := by
  obtain ⟨r, pa, hq, rfl⟩ := step_sleep he
  refine ⟨h.moved rfl rfl rfl rfl rfl rfl (fun hn => by rw [hn] at hq; cases hq) fun r pa p hp => ?_, rfl, rfl⟩
  cases hp.symm.trans hq
  exact ⟨_, rfl, id, fun _ hw => hw⟩

theorem irq_shape (h : Shape D s) (he : step s .irq = some s') : Shape D s' ∧ s'.log = s.log ∧ s'.stray = s.stray := by
  obtain ⟨-, rfl⟩ := step_irq he
  refine ⟨h.moved rfl rfl rfl rfl rfl rfl (fun hn => by rw [hn]; rfl) fun r pa p hp => ?_, rfl, rfl⟩
  rw [hp]
  cases p with
  | asleep last => exact ⟨.wait last, rfl, id, fun _ hw => hw⟩
  | _ => exact ⟨_, rfl, id, fun _ hw => hw⟩

theorem raise_shape (h : Shape D s) (he : step s .raise = some s') : Shape D s' ∧ s'.log = s.log ∧ s'.stray = s.stray := by
  obtain ⟨-, rfl⟩ := step_raise he
  refine ⟨h.moved rfl rfl rfl rfl rfl rfl id fun r pa p hp => ?_, rfl, rfl⟩
  refine ⟨p, hp, fun h1 => ?_, fun _ hw => ?_⟩
  · cases p <;> exact h1
  · cases p <;> exact hw

def OfDevice (e : Event) : Prop := e = .take ∨ e = .fetch ∨ (∃ status junk, e = .transfer status junk) ∨ e = .answer ∨ e = .report ∨ e = .bump

/-- An idle device can only take. -/
theorem idle_blocks (hd : s.device = .idle) {e : Event} (he : OfDevice e) (hne : e ≠ .take) : step s e = none := by
  rcases he with rfl | rfl | ⟨status, junk, rfl⟩ | rfl | rfl | rfl
  · exact absurd rfl hne
  · simp [step, fetch, hd]
  · simp [step, transfer, hd]
  · simp [step, answer, hd]
  · simp [step, hd]
  · simp [step, hd]

/-- No step of the device is enabled when it has used what was offered. -/
theorem Still.blocks (hs : Still s) {e : Event} (he : OfDevice e) : step s e = none := by
  by_cases hne : e = .take
  · rw [hne]
    simp [step, hs.device, hs.lastAvail]
  · exact idle_blocks hs.device he hne

/-- The driver's side is not the device's. -/
theorem device_frame {e : Event} (hdev : OfDevice e) (he : step s e = some s') :
    s'.driver = s.driver ∧ s'.live = s.live ∧ s'.log = s.log ∧ s'.vq.availIdx = s.vq.availIdx ∧ s'.pending = s.pending ∧
      (e ≠ .bump → s'.vq.usedIdx = s.vq.usedIdx ∧ s'.owed = s.owed) ∧ (e ≠ .take → s'.lastAvail = s.lastAvail ∧ s'.kicked = s.kicked) := by
  rcases hdev with rfl | rfl | ⟨status, junk, rfl⟩ | rfl | rfl | rfl
  · unfold step at he
    dsimp only at he
    split at he
    · split at he
      · cases he
        exact ⟨rfl, rfl, rfl, rfl, rfl, fun _ => ⟨rfl, rfl⟩, fun h => absurd rfl h⟩
      · cases he
    · cases he
  · have he' : fetch s = some s' := he
    unfold fetch at he'
    split at he'
    · cases he'
      exact ⟨rfl, rfl, rfl, rfl, rfl, fun _ => ⟨rfl, rfl⟩, fun _ => ⟨rfl, rfl⟩⟩
    · cases he'
  · have he' : transfer s status junk = some s' := he
    unfold transfer at he'
    split at he'
    · dsimp only at he'
      split at he'
      · cases he'
      · split at he'
        · cases he'
          exact ⟨rfl, rfl, rfl, rfl, rfl, fun _ => ⟨rfl, rfl⟩, fun _ => ⟨rfl, rfl⟩⟩
        · split at he'
          · cases he'
            exact ⟨rfl, rfl, rfl, rfl, rfl, fun _ => ⟨rfl, rfl⟩, fun _ => ⟨rfl, rfl⟩⟩
          · cases he'
    · cases he'
  · have he' : answer s = some s' := he
    unfold answer at he'
    split at he'
    · cases he'
      exact ⟨rfl, rfl, rfl, rfl, rfl, fun _ => ⟨rfl, rfl⟩, fun _ => ⟨rfl, rfl⟩⟩
    · cases he'
  · unfold step at he
    dsimp only at he
    split at he
    · cases he
      exact ⟨rfl, rfl, rfl, rfl, rfl, fun _ => ⟨rfl, rfl⟩, fun _ => ⟨rfl, rfl⟩⟩
    · cases he
  · unfold step at he
    dsimp only at he
    split at he
    · cases he
      exact ⟨rfl, rfl, rfl, rfl, rfl, fun h => absurd rfl h, fun _ => ⟨rfl, rfl⟩⟩
    · cases he

theorem device_shape (h : Shape D s) {e : Event} (hdev : OfDevice e) (he : step s e = some s')
    (hk : ∀ {r : Request} {pa idx : Nat}, s.live = some (pa, r.size) → s.vq.availIdx = following idx → Serving s D r pa idx →
      Serving s' D r pa idx ∧ s'.stray = s.stray) :
    Shape D s' ∧ s'.log = s.log ∧ s'.stray = s.stray := by
  obtain ⟨hdr, hlive, hlog, havail, -⟩ := device_frame hdev he
  cases h with
  | quiet h1 h2 h3 h4 =>
    rw [h3.blocks hdev] at he
    cases he
  | preparing h1 h2 h3 h4 h5 =>
    rw [h3.blocks hdev] at he
    cases he
  | @waiting r pa idx p h1 h2 h3 h4 h5 h6 =>
    obtain ⟨k1, k2⟩ := hk h2 h4 h6
    have hbusy : s.vq.usedIdx ≠ following idx := by
      intro hu
      obtain ⟨f1, f2, -⟩ := h6.finished hu
      have hs : Still s := ⟨f1, f2.trans h4.symm, hu.trans h4.symm, by rw [h4]; exact Nat.mod_lt _ (by decide)⟩
      rw [hs.blocks hdev] at he
      cases he
    refine ⟨.waiting (hdr.trans h1) (hlive.trans h2) h3 (havail.trans h4) ?_ k1, hlog, k2⟩
    cases p with
    | lastUsed => trivial
    | notify last => exact h5.imp_right fun h => absurd h.2 hbusy
    | wait last => exact h5.imp_right fun h => absurd h.2 hbusy
    | asleep last => exact h5.imp_right fun h => absurd h.2 hbusy
    | result => exact absurd h5 hbusy
    | copy => exact absurd h5.1 hbusy
    | _ => exact h5.elim

theorem step_shape (h : Shape D s) (e : Event) (he : step s e = some s') : ∃ D', Shape D' s' ∧ Advances s s' D D' ∧ s'.stray = s.stray := by
  have hkeep : Shape D s' ∧ s'.log = s.log ∧ s'.stray = s.stray → ∃ D', Shape D' s' ∧ Advances s s' D D' ∧ s'.stray = s.stray :=
    fun h' => ⟨D, h'.1, .inl ⟨h'.2.1, rfl⟩, h'.2.2⟩
  cases e with
  | call r dma =>
    obtain ⟨hd, hs⟩ := step_call he
    cases h with
    | quiet h1 h2 h3 h4 =>
      rcases hs with rfl | ⟨pa, rfl⟩
      · exact ⟨D, .quiet rfl rfl ⟨h3.device, h3.lastAvail, h3.usedIdx, h3.availIdx⟩ h4, .inr ⟨_, rfl, .noBuffer⟩, rfl⟩
      · exact ⟨D, .preparing rfl rfl ⟨h3.device, h3.lastAvail, h3.usedIdx, h3.availIdx⟩ trivial h4, .inl ⟨rfl, rfl⟩, rfl⟩
    | preparing h1 => rw [hd] at h1; cases h1
    | waiting h1 => rw [hd] at h1; cases h1
  | drive =>
    obtain ⟨q, hq, rfl⟩ := step_drive he
    cases h with
    | quiet h1 =>
      rw [h1] at hq
      cases hq
    | preparing h1 h2 h3 h4 h5 =>
      cases hq.symm.trans h1
      obtain ⟨k1, k2⟩ := prepare_step h1 h2 h3 h4 h5
      exact ⟨D, k1, .inl ⟨k2, rfl⟩, drive_stray _⟩
    | waiting h1 h2 h3 h4 h5 h6 =>
      cases hq.symm.trans h1
      obtain ⟨D', k1, k2⟩ := wait_step h1 h2 h3 h4 h5 h6
      exact ⟨D', k1, k2, drive_stray _⟩
  | sleep => exact hkeep (sleep_shape h he)
  | irq => exact hkeep (irq_shape h he)
  | raise => exact hkeep (raise_shape h he)
  | take => exact hkeep (device_shape h (.inl rfl) he fun _ ha hS => take_step hS ha he)
  | fetch => exact hkeep (device_shape h (.inr (.inl rfl)) he fun _ _ hS => fetch_step hS he)
  | transfer status junk =>
    exact hkeep (device_shape h (.inr (.inr (.inl ⟨status, junk, rfl⟩))) he fun hl _ hS => ⟨transfer_step hS he, transfer_stray hl hS he⟩)
  | answer => exact hkeep (device_shape h (.inr (.inr (.inr (.inl rfl)))) he fun hl _ hS => ⟨answer_step hS he, answer_stray hl hS he⟩)
  | report => exact hkeep (device_shape h (.inr (.inr (.inr (.inr (.inl rfl))))) he fun _ _ hS => report_step hS he)
  | bump => exact hkeep (device_shape h (.inr (.inr (.inr (.inr (.inr rfl))))) he fun _ _ hS => bump_step hS he)

/-! ## Runs -/

/-- The requests of the calls of a run. -/
def called (es : List Event) : List Request := es.filterMap fun e => match e with
  | .call r _ => some r
  | _ => none

theorem run_shape (h : Shape D s) (es : List Event) (he : trace step s es = some s') :
    ∃ D', Shape D' s' ∧ (∃ l, s'.log = s.log ++ l ∧ Runs Serves D l D') ∧ s'.stray = s.stray := by
  induction es generalizing D s with
  | nil =>
    cases he
    exact ⟨D, h, ⟨[], by simp, .nil⟩, rfl⟩
  | cons e es ih =>
    obtain ⟨s1, he1, he2⟩ := Option.bind_eq_some_iff.mp he
    obtain ⟨D1, h1, ha, hs1⟩ := step_shape h e he1
    obtain ⟨D', h', ⟨l, hl, hr⟩, hs'⟩ := ih h1 he2
    refine ⟨D', h', ?_, hs'.trans hs1⟩
    rcases ha with ⟨hlog, rfl⟩ | ⟨x, hlog, hx⟩
    · exact ⟨l, by rw [hl, hlog], hr⟩
    · exact ⟨x :: l, by rw [hl, hlog, List.append_assoc, List.singleton_append], .cons hx hr⟩

/-- The requests that have returned, and the one that is open. -/
def accounted (s : State) : List Request := s.log.map Prod.fst ++ (s.driver.map Running.request).toList

theorem accounted_congr (hl : s'.log = s.log) (hd : s'.driver.map Running.request = s.driver.map Running.request) : accounted s' = accounted s := by
  unfold accounted
  rw [hl, hd]

/-- A return moves the open request to the log. -/
theorem accounted_drive {q : Running} (hq : s.driver = some q) : accounted (drive s q) = accounted s := by
  have hgoto : ∀ {s' : State} {p : Point}, s'.log = s.log → s'.driver = some { q with point := p } → accounted s' = accounted s := by
    intro s' p hl hd
    exact accounted_congr hl (by rw [hd, hq]; rfl)
  have hfinish : ∀ out : Outcome, accounted (s.finish q.request out) = accounted s := by
    intro out
    unfold accounted State.finish
    rw [hq]
    simp
  cases q with
  | mk r pa p =>
    cases p with
    | wait last =>
      unfold drive
      dsimp only
      split
      · exact hgoto rfl rfl
      · rfl
    | result =>
      unfold drive
      dsimp only
      split
      · exact hfinish _
      · split
        · exact hfinish _
        · exact hgoto rfl rfl
    | copy => exact hfinish _
    | asleep last => rfl
    | _ => exact hgoto rfl rfl

theorem accounted_step {e : Event} (he : step s e = some s') : accounted s' = accounted s ++ called [e] := by
  have hkeep : ∀ {e : Event}, called [e] = [] → accounted s' = accounted s → accounted s' = accounted s ++ called [e] := by
    intro e h1 h2
    rw [h1, h2, List.append_nil]
  have hdev : ∀ {e : Event}, called [e] = [] → OfDevice e → step s e = some s' → accounted s' = accounted s ++ called [e] := by
    intro e h1 h2 h3
    obtain ⟨k1, -, k3, -⟩ := device_frame h2 h3
    exact hkeep h1 (accounted_congr k3 (by rw [k1]))
  cases e with
  | call r dma =>
    obtain ⟨hd, hs⟩ := step_call he
    rcases hs with rfl | ⟨pa, rfl⟩
    · simp [accounted, State.finish, hd, called]
    · simp [accounted, hd, called]
  | drive =>
    obtain ⟨q, hq, rfl⟩ := step_drive he
    exact hkeep rfl (accounted_drive hq)
  | sleep =>
    obtain ⟨r, pa, hq, rfl⟩ := step_sleep he
    exact hkeep rfl (accounted_congr rfl (by rw [hq]; rfl))
  | irq =>
    obtain ⟨-, rfl⟩ := step_irq he
    refine hkeep rfl (accounted_congr rfl ?_)
    rw [Option.map_map]
    exact congrArg (fun f => s.driver.map f) (funext fun q => q.wake_request)
  | raise =>
    obtain ⟨-, rfl⟩ := step_raise he
    exact hkeep rfl rfl
  | take => exact hdev rfl (.inl rfl) he
  | fetch => exact hdev rfl (.inr (.inl rfl)) he
  | transfer status junk => exact hdev rfl (.inr (.inr (.inl ⟨status, junk, rfl⟩))) he
  | answer => exact hdev rfl (.inr (.inr (.inr (.inl rfl)))) he
  | report => exact hdev rfl (.inr (.inr (.inr (.inr (.inl rfl))))) he
  | bump => exact hdev rfl (.inr (.inr (.inr (.inr (.inr rfl))))) he

theorem accounted_run (es : List Event) (he : trace step s es = some s') : accounted s' = accounted s ++ called es := by
  induction es generalizing s with
  | nil =>
    cases he
    exact (List.append_nil _).symm
  | cons e es ih =>
    obtain ⟨s1, he1, he2⟩ := Option.bind_eq_some_iff.mp he
    rw [ih he2, accounted_step he1, List.append_assoc]
    unfold called
    rw [← List.filterMap_append, List.singleton_append]

theorem setup_shape (mem disk : Buf) : Shape disk (setup mem disk) := .quiet rfl rfl ⟨rfl, rfl, rfl, Nat.two_pow_pos 16⟩ rfl

theorem Shape.disk (h : Shape D s) (hd : s.driver = none) : s.disk = D := by
  cases h with
  | quiet _ _ _ h4 => exact h4
  | preparing h1 => rw [hd] at h1; cases h1
  | waiting h1 => rw [hd] at h1; cases h1

/-- Every run of the driver and the device serves the requests that have returned one after the other. -/
theorem blocks_run {mem disk : Buf} {es : List Event} (he : trace step (setup mem disk) es = some s') :
    ∃ D, Runs Serves disk s'.log D ∧ (s'.driver = none → s'.disk = D) ∧
      s'.log.map Prod.fst ++ (s'.driver.map Running.request).toList = called es ∧ s'.stray = false := by
  obtain ⟨D, hs, ⟨l, hl, hr⟩, hstray⟩ := run_shape (setup_shape mem disk) es he
  have hacc := accounted_run es he
  refine ⟨D, ?_, fun hd => ?_, hacc, hstray⟩
  · rw [hl]
    exact hr
  · exact hs.disk hd

/-- Sector 3 is written. -/
def oneSector : Request := ⟨true, 3, List.replicate 512 7, by decide, by rw [List.length_replicate]; decide⟩

/-- The device is done before the driver looks. -/
def oneWrite : List Event :=
  [.call oneSector (some 4096), .drive, .drive, .drive, .drive, .drive, .drive, .drive, .drive, .drive,
    .take, .fetch, .fetch, .fetch, .transfer 0 [], .answer, .report, .bump, .drive, .drive]

theorem oneWrite_returns : (trace step (setup (fun _ => 0) fun _ => 0) oneWrite).isSome = true := rfl

theorem blocks_run_oneWrite : ∃ s', trace step (setup (fun _ => 0) fun _ => 0) oneWrite = some s' ∧
    ∃ D, Runs Serves (fun _ => 0) s'.log D ∧ (s'.driver = none → s'.disk = D) ∧
      s'.log.map Prod.fst ++ (s'.driver.map Running.request).toList = called oneWrite ∧ s'.stray = false := by
  obtain ⟨s', hs⟩ := Option.isSome_iff_exists.mp oneWrite_returns
  exact ⟨s', hs, blocks_run hs⟩

/-! ## Sectors -/

/-- The stored bytes by sector. -/
def sectorsOf (D : Buf) : Fat.Device := fun n off => if off < 512 then D (n * 512 + off) else 0

/-- A buffer of one sector. -/
def sectorBuf (bytes : List UInt8) : Buf := Buf.copyAt (fun _ => 0) 0 bytes

/-- One request on the device under a volume. -/
inductive SectorServes (d : Fat.Device) : Request × Outcome → Fat.Device → Prop where
  | read {r : Request} : r.isWrite = false → SectorServes d (r, .ok (Buf.bytesAt (Fat.readSector d r.sector) 0 512)) d
  | write {r : Request} : r.isWrite = true → SectorServes d (r, .ok r.buf) (Fat.writeSector d r.sector (sectorBuf r.buf))
  | failed {r : Request} {e : String} : r.isWrite = false → SectorServes d (r, .error e) d
  | writeFailed {r : Request} {junk : List UInt8} : r.isWrite = true → junk.length = 512 →
      SectorServes d (r, .error "io err") (Fat.writeSector d r.sector (sectorBuf junk))
  | noBuffer {r : Request} : SectorServes d (r, .error "alloc dma buf failed") d

theorem sectorsOf_read (D : Buf) (n : Nat) : Buf.bytesAt (Fat.readSector (sectorsOf D) n) 0 512 = Buf.bytesAt D (n * 512) 512 := by
  apply Buf.bytesAt_congr
  intro k hk
  rw [Nat.zero_add]
  exact if_pos hk

theorem sectorsOf_write (D : Buf) (n : Nat) {bytes : List UInt8} (h : bytes.length = 512) :
    sectorsOf (Buf.copyAt D (n * 512) bytes) = Fat.writeSector (sectorsOf D) n (sectorBuf bytes) := by
  funext m off
  unfold Fat.writeSector
  by_cases hoff : off < 512
  · by_cases hm : m = n
    · subst hm
      rw [Function.update_self, sectorsOf, if_pos hoff, Buf.copyAt_add (by omega)]
      have := @Buf.copyAt_add (fun _ => 0) 0 off bytes (by omega)
      rw [Nat.zero_add] at this
      exact this.symm
    · rw [Function.update_of_ne hm, sectorsOf, if_pos hoff, sectorsOf, if_pos hoff]
      rcases Nat.lt_or_gt_of_ne hm with hlt | hgt
      · exact Buf.copyAt_of_lt (by omega)
      · exact Buf.copyAt_of_ge (by omega)
  · rw [sectorsOf, if_neg hoff]
    by_cases hm : m = n
    · rw [hm, Function.update_self, sectorBuf, Buf.copyAt_of_ge (by omega)]
    · rw [Function.update_of_ne hm, sectorsOf, if_neg hoff]

theorem Serves.sector {D' : Buf} {x : Request × Outcome} (h : Serves D x D') (hx : x.1.len = 512) :
    SectorServes (sectorsOf D) x (sectorsOf D') := by
  cases h with
  | read hw =>
    have hr := @SectorServes.read (sectorsOf D) _ hw
    rw [sectorsOf_read] at hr
    rw [hx]
    exact hr
  | write hw =>
    rw [sectorsOf_write _ _ hx]
    exact .write hw
  | readFailed hw => exact .failed hw
  | writeFailed hw hj =>
    have hj' := hj.trans hx
    rw [sectorsOf_write _ _ hj']
    exact .writeFailed hw hj'
  | noBuffer => exact .noBuffer

/-- In every run whose requests are for one sector each, the device of the volumes is what the requests read and write. -/
theorem sectors_run {mem disk : Buf} {es : List Event} (h512 : ∀ r ∈ called es, r.len = 512) (he : trace step (setup mem disk) es = some s') :
    ∃ d, Runs SectorServes (sectorsOf disk) s'.log d ∧ (s'.driver = none → sectorsOf s'.disk = d) := by
  obtain ⟨D, hs, ⟨l, hl, hr⟩, -⟩ := run_shape (setup_shape mem disk) es he
  have hacc := accounted_run es he
  have hlog : s'.log = l := hl
  refine ⟨sectorsOf D, ?_, fun hd => ?_⟩
  · rw [hlog]
    apply hr.map sectorsOf
    intro x hx a b hab
    apply hab.sector
    apply h512
    have hmem : x.1 ∈ accounted s' := by
      unfold accounted
      rw [hlog]
      exact List.mem_append_left _ (List.mem_map_of_mem hx)
    rw [hacc] at hmem
    exact hmem
  · rw [hs.disk hd]

theorem sectors_run_oneWrite : ∃ s', trace step (setup (fun _ => 0) fun _ => 0) oneWrite = some s' ∧
    ∃ d, Runs SectorServes (sectorsOf fun _ => 0) s'.log d ∧ (s'.driver = none → sectorsOf s'.disk = d) := by
  obtain ⟨s', hs⟩ := Option.isSome_iff_exists.mp oneWrite_returns
  refine ⟨s', hs, sectors_run (fun r hr => ?_) hs⟩
  obtain rfl : r = oneSector := List.mem_singleton.mp hr
  exact List.length_replicate

end Myos.Driver.Virtio
