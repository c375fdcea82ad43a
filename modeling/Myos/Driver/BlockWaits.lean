/-
  Myos.Driver.BlockWaits — when a block request returns.

  `blk_request` loads `used.idx` after its store to `avail.idx`. A device may be done by then.

  Proved: a request whose load came before the device was done returns, within a fixed number of
  steps that are no idle polls, and a task that sleeps is woken; one whose load came after never
  returns. A device that takes requests only when it was notified is never that early.
-/

import Myos.Driver.BlockRequest

namespace Myos.Driver.Virtio

open Lib

variable {s s' : State} {D : Buf} {r : Request} {pa idx : Nat} {p : Point} {q : Running} {e : Event}

/-- What `used.idx` is compared with. -/
def Point.last : Point → Option Nat
  | .notify last | .wait last | .asleep last => some last
  | _ => none

/-- The device has used everything when the driver waits for more. -/
structure Missed (s : State) (q : Running) : Prop where
  driver : s.driver = some q
  last : q.point.last = some s.vq.usedIdx
  device : s.device = .idle
  lastAvail : s.lastAvail = s.vq.availIdx

/-- The driver polls in vain, or sleeps. -/
def Polls (s : State) (e : Event) : Prop :=
  e = .drive ∧ ∃ q, s.driver = some q ∧ (q.point = .wait s.vq.usedIdx ∨ ∃ last, q.point = .asleep last)

/-- The load of `used.idx` comes before the store of it. -/
def Punctual (s : State) (e : Event) : Prop := e = .bump → ∀ q, s.driver = some q → q.point ≠ .lastUsed

/-- The device takes what is in the ring only when it was notified. -/
def Patient (s : State) (e : Event) : Prop := e = .take → s.kicked = true

/-! ## Requests that were missed -/

theorem Missed.step (h : Missed s q) (he : step s e = some s') : (∃ q', Missed s' q') ∧ s'.log = s.log := by
  obtain ⟨h1, h2, h3, h4⟩ := h
  obtain ⟨r, pa, p⟩ := q
  cases e with
  | call r dma =>
    obtain ⟨hd, -⟩ := step_call he
    rw [hd] at h1
    cases h1
  | drive =>
    obtain ⟨q, hq, rfl⟩ := step_drive he
    cases h1.symm.trans hq
    cases p with
    | notify last => exact ⟨⟨_, rfl, h2, h3, h4⟩, rfl⟩
    | wait last =>
      cases h2
      unfold drive
      dsimp only
      rw [if_neg (not_not_intro rfl)]
      exact ⟨⟨_, h1, rfl, h3, h4⟩, rfl⟩
    | asleep last => exact ⟨⟨_, h1, h2, h3, h4⟩, rfl⟩
    | _ => cases h2
  | sleep =>
    obtain ⟨r, pa, hq, rfl⟩ := step_sleep he
    exact ⟨⟨_, rfl, rfl, h3, h4⟩, rfl⟩
  | irq =>
    obtain ⟨-, rfl⟩ := step_irq he
    rw [h1]
    cases p with
    | asleep last => exact ⟨⟨_, rfl, h2, h3, h4⟩, rfl⟩
    | _ => exact ⟨⟨_, rfl, h2, h3, h4⟩, rfl⟩
  | raise =>
    obtain ⟨-, rfl⟩ := step_raise he
    exact ⟨⟨_, h1, h2, h3, h4⟩, rfl⟩
  | take => simp [Virtio.step, h3, h4] at he
  | fetch => simp [Virtio.step, fetch, h3] at he
  | transfer status junk => simp [Virtio.step, transfer, h3] at he
  | answer => simp [Virtio.step, answer, h3] at he
  | report => simp [Virtio.step, h3] at he
  | bump => simp [Virtio.step, h3] at he

theorem Missed.run (h : Missed s q) (es : List Event) (he : trace Virtio.step s es = some s') : s'.log = s.log := by
  induction es generalizing s q with
  | nil =>
    cases he
    rfl
  | cons e es ih =>
    obtain ⟨s1, he1, he2⟩ := Option.bind_eq_some_iff.mp he
    obtain ⟨⟨q1, h1⟩, hlog⟩ := h.step he1
    exact (ih h1 he2).trans hlog

/-- A load that gives the index of `avail.idx` came too late. -/
theorem Shape.missed (h : Shape D s) (hq : s.driver = some q) (hl : q.point.last = some s.vq.availIdx) : Missed s q := by
  cases h with
  | quiet h1 =>
    rw [h1] at hq
    cases hq
  | @preparing r pa p h1 h2 h3 h4 h5 =>
    cases hq.symm.trans h1
    cases p with
    | notify last => exact h4.elim
    | wait last => exact h4.elim
    | asleep last => exact h4.elim
    | _ => cases hl
  | @waiting r pa idx p h1 h2 h3 h4 h5 h6 =>
    cases hq.symm.trans h1
    have hw : s.vq.availIdx = idx ∨ s.vq.availIdx = following idx ∧ s.vq.usedIdx = following idx := by
      cases p with
      | notify last => exact Option.some.inj hl ▸ h5
      | wait last => exact Option.some.inj hl ▸ h5
      | asleep last => exact Option.some.inj hl ▸ h5
      | _ => cases hl
    have hu : s.vq.usedIdx = following idx := (hw.resolve_left fun h => following_ne (h4.symm.trans h)).2
    obtain ⟨k1, k2, -⟩ := h6.finished hu
    exact ⟨h1, by rw [hl, hu, h4], k1, k2.trans h4.symm⟩

/-! ## Requests that are in time -/

/-- The load of `used.idx` has not come too late. -/
def OnTime (s : State) : Prop :=
  ∀ q, s.driver = some q → (q.point = .lastUsed → s.vq.usedIdx ≠ s.vq.availIdx) ∧ q.point.last ≠ some s.vq.availIdx

/-- A task that sleeps though its request is done has an interrupt coming. -/
def Wakes (s : State) : Prop :=
  ∀ q last, s.driver = some q → q.point = .asleep last → s.vq.usedIdx ≠ last → s.owed = true ∨ s.pending = true

theorem OnTime.drive (h : Shape D s) (ht : OnTime s) (hq : s.driver = some q) : OnTime (drive s q) := by
  have hgoto : ∀ {s' : State} {p : Point}, s'.driver = some { q with point := p } →
      (p = .lastUsed → s'.vq.usedIdx ≠ s'.vq.availIdx) → p.last ≠ some s'.vq.availIdx → OnTime s' := by
    intro s' p hd h1 h2 q' hq'
    cases hd.symm.trans hq'
    exact ⟨h1, h2⟩
  have hdone : ∀ out : Outcome, OnTime (s.finish q.request out) := fun out q' hq' => by cases hq'
  obtain ⟨h1, h2⟩ := ht q hq
  obtain ⟨r, pa, p⟩ := q
  cases p with
  | publish idx =>
    refine hgoto rfl (fun _ => ?_) nofun
    cases h with
    | quiet h1 => rw [h1] at hq; cases hq
    | preparing h1 h2 h3 h4 h5 => exact fun hu => following_ne (hu.symm.trans h3.usedIdx)
    | waiting h1 h2 h3 h4 h5 h6 =>
      cases hq.symm.trans h1
      exact h5.elim
  | lastUsed => exact hgoto rfl nofun fun hl => h1 rfl (Option.some.inj hl)
  | notify last => exact hgoto rfl nofun h2
  | wait last =>
    unfold Virtio.drive
    dsimp only
    split
    · exact hgoto rfl nofun nofun
    · exact ht
  | asleep last => exact ht
  | result =>
    unfold Virtio.drive
    dsimp only
    split
    · exact hdone _
    · split
      · exact hdone _
      · exact hgoto rfl nofun nofun
  | copy => exact hdone _
  | _ => exact hgoto rfl nofun nofun

theorem OnTime.step (h : Shape D s) (ht : OnTime s) (hp : Punctual s e) (he : step s e = some s') : OnTime s' := by
  have hdev : ∀ {e : Event}, OfDevice e → Punctual s e → Virtio.step s e = some s' → OnTime s' := by
    intro e hdev hp he q hq
    obtain ⟨hdr, -, -, ha, -, hu, -⟩ := device_frame hdev he
    rw [hdr] at hq
    rw [ha]
    refine ⟨fun hl => ?_, (ht q hq).2⟩
    by_cases hb : e = .bump
    · exact absurd hl (hp hb q hq)
    · rw [(hu hb).1]
      exact (ht q hq).1 hl
  cases e with
  | call r dma =>
    intro q hq
    obtain ⟨-, hs⟩ := step_call he
    rcases hs with rfl | ⟨pa, rfl⟩
    · cases hq
    · cases hq
      exact ⟨nofun, nofun⟩
  | drive =>
    obtain ⟨q, hq, rfl⟩ := step_drive he
    exact ht.drive h hq
  | sleep =>
    obtain ⟨r, pa, hq, rfl⟩ := step_sleep he
    intro q' hq'
    cases hq'
    exact ⟨nofun, (ht _ hq).2⟩
  | irq =>
    obtain ⟨-, rfl⟩ := step_irq he
    intro q' hq'
    obtain ⟨⟨r, pa, p⟩, hq, rfl⟩ := Option.map_eq_some_iff.mp hq'
    cases p with
    | asleep last => exact ⟨nofun, (ht _ hq).2⟩
    | _ => exact ht _ hq
  | raise =>
    obtain ⟨-, rfl⟩ := step_raise he
    exact ht
  | take => exact hdev (.inl rfl) hp he
  | fetch => exact hdev (.inr (.inl rfl)) hp he
  | transfer status junk => exact hdev (.inr (.inr (.inl ⟨status, junk, rfl⟩))) hp he
  | answer => exact hdev (.inr (.inr (.inr (.inl rfl)))) hp he
  | report => exact hdev (.inr (.inr (.inr (.inr (.inl rfl))))) hp he
  | bump => exact hdev (.inr (.inr (.inr (.inr (.inr rfl))))) hp he

theorem Wakes.step (hw : Wakes s) (he : step s e = some s') : Wakes s' := by
  have hdev : ∀ {e : Event}, OfDevice e → e ≠ .bump → Virtio.step s e = some s' → Wakes s' := by
    intro e hdev hb he q last hq hp hne
    obtain ⟨hdr, -, -, -, hpend, hu, -⟩ := device_frame hdev he
    obtain ⟨hused, howed⟩ := hu hb
    rw [hdr] at hq
    rw [hused] at hne
    rw [howed, hpend]
    exact hw q last hq hp hne
  cases e with
  | call r dma =>
    intro q last hq hp
    obtain ⟨-, hs⟩ := step_call he
    rcases hs with rfl | ⟨pa, rfl⟩
    · cases hq
    · cases hq
      cases hp
  | drive =>
    obtain ⟨⟨r, pa, p⟩, hq, rfl⟩ := step_drive he
    cases p with
    | asleep last => exact hw
    | wait last =>
      unfold drive
      dsimp only
      split
      · intro q' l hq' hp
        cases hq'
        cases hp
      · exact hw
    | result =>
      unfold drive
      dsimp only
      intro q' l hq' hp
      split at hq'
      · cases hq'
      · split at hq'
        · cases hq'
        · cases hq'
          cases hp
    | copy =>
      intro q' l hq' hp
      cases hq'
    | _ =>
      intro q' l hq' hp
      cases hq'
      cases hp
  | sleep =>
    obtain ⟨r, pa, hq, rfl⟩ := step_sleep he
    intro q' l hq' hp hne
    cases hq'
    cases hp
    exact absurd rfl hne
  | irq =>
    obtain ⟨-, rfl⟩ := step_irq he
    intro q' l hq' hp hne
    obtain ⟨⟨r, pa, p⟩, hq, rfl⟩ := Option.map_eq_some_iff.mp hq'
    cases p <;> cases hp
  | raise =>
    obtain ⟨-, rfl⟩ := step_raise he
    exact fun _ _ _ _ _ => .inr rfl
  | take => exact hdev (.inl rfl) nofun he
  | fetch => exact hdev (.inr (.inl rfl)) nofun he
  | transfer status junk => exact hdev (.inr (.inr (.inl ⟨status, junk, rfl⟩))) nofun he
  | answer => exact hdev (.inr (.inr (.inr (.inl rfl)))) nofun he
  | report => exact hdev (.inr (.inr (.inr (.inr (.inl rfl))))) nofun he
  | bump =>
    unfold Virtio.step at he
    dsimp only at he
    split at he
    · cases he
      exact fun _ _ _ _ _ => .inl rfl
    · cases he

/-! ## The steps that are left -/

def Point.rank : Point → Nat
  | .fill => 12
  | .header => 11
  | .desc0 _ => 10
  | .desc1 _ => 9
  | .desc2 _ => 8
  | .ring _ => 7
  | .publish _ => 6
  | .lastUsed => 5
  | .notify _ => 4
  | .wait _ => 3
  | .asleep _ => 2
  | .result => 1
  | .copy => 0

/-- A device that has used everything has nothing left once the request is in the ring. -/
def deviceRank (s : State) (p : Point) : Nat :=
  match s.device with
  | .idle => if s.lastAvail = s.vq.availIdx ∧ p.rank ≤ 5 then 0 else 14
  | .walk _ _ chain => 13 - chain.length
  | .serve _ _ => 10
  | .answer _ _ _ => 9
  | .report _ _ => 8
  | .bump => 7

def interruptRank (s : State) : Nat := (if s.owed then 4 else 0) + (if s.pending then 2 else 0)

def rank (s : State) : Nat :=
  match s.driver with
  | none => 0
  | some q => q.point.rank + deviceRank s q.point + interruptRank s

theorem deviceRank_le (s : State) (p : Point) : deviceRank s p ≤ 14 := by
  unfold deviceRank
  split
  · split <;> omega
  · omega
  · omega
  · omega
  · omega
  · omega

theorem rank_some (hq : s.driver = some q) : rank s = q.point.rank + deviceRank s q.point + interruptRank s := by
  unfold rank
  rw [hq]

theorem rank_le (s : State) : rank s ≤ 32 := by
  have hp : ∀ p : Point, p.rank ≤ 12 := by
    intro p
    cases p <;> simp [Point.rank]
  have hi : interruptRank s ≤ 6 := by
    unfold interruptRank
    split <;> split <;> omega
  unfold rank
  split
  · omega
  next q _ =>
    have := deviceRank_le s q.point
    have := hp q.point
    omega

theorem deviceRank_moved {p' : Point} (hp : p.rank ≤ 5) (hp' : p'.rank ≤ 5) (hd : s'.device = s.device) (hl : s'.lastAvail = s.lastAvail)
    (ha : s'.vq.availIdx = s.vq.availIdx) : deviceRank s' p' = deviceRank s p := by
  unfold deviceRank
  rw [hd, hl, ha]
  simp only [hp, hp', and_true]

/-- The driver gets on, unless it polls. -/
theorem rank_drive (h : Shape D s) (hq : s.driver = some q) :
    s.log.length < (drive s q).log.length ∨ rank (drive s q) ≤ rank s ∧ (¬ Polls s .drive → rank (drive s q) < rank s) := by
  have hlower : ∀ {s' : State} {p : Point}, s'.driver = some { q with point := p } → deviceRank s' p ≤ deviceRank s q.point →
      s'.owed = s.owed → s'.pending = s.pending → p.rank < q.point.rank →
      s.log.length < s'.log.length ∨ rank s' ≤ rank s ∧ (¬ Polls s .drive → rank s' < rank s) := by
    intro s' p hd hr ho hp hlt
    have hi : interruptRank s' = interruptRank s := by
      unfold interruptRank
      rw [ho, hp]
    have hlt' : rank s' < rank s := by
      rw [rank_some hd, rank_some hq, hi]
      dsimp only
      omega
    exact .inr ⟨Nat.le_of_lt hlt', fun _ => hlt'⟩
  have hfinish : ∀ out : Outcome, s.log.length < (s.finish q.request out).log.length := by
    intro out
    unfold State.finish
    simp
  cases h with
  | quiet h1 =>
    rw [h1] at hq
    cases hq
  | @preparing r pa p h1 h2 h3 h4 h5 =>
    cases hq.symm.trans h1
    have h14 : 5 < p.rank → deviceRank s p = 14 := by
      intro h
      unfold deviceRank
      rw [h3.device]
      exact if_neg fun hc => absurd hc.2 (Nat.not_le_of_lt h)
    have hprep : ∀ {s' : State} {p' : Point}, s'.driver = some ⟨r, pa, p'⟩ → s'.owed = s.owed → s'.pending = s.pending →
        p'.rank < p.rank → 5 < p.rank → s.log.length < s'.log.length ∨ rank s' ≤ rank s ∧ (¬ Polls s .drive → rank s' < rank s) := by
      intro s' p' hd ho hp hlt h5
      exact hlower hd ((deviceRank_le s' p').trans_eq (h14 h5).symm) ho hp hlt
    cases p with
    | fill => exact hprep rfl rfl rfl (by simp [Point.rank]) (by simp [Point.rank])
    | header => exact hprep rfl rfl rfl (by simp [Point.rank]) (by simp [Point.rank])
    | desc0 idx => exact hprep rfl rfl rfl (by simp [Point.rank]) (by simp [Point.rank])
    | desc1 idx => exact hprep rfl rfl rfl (by simp [Point.rank]) (by simp [Point.rank])
    | desc2 idx => exact hprep rfl rfl rfl (by simp [Point.rank]) (by simp [Point.rank])
    | ring idx => exact hprep rfl rfl rfl (by simp [Point.rank]) (by simp [Point.rank])
    | publish idx => exact hprep rfl rfl rfl (by simp [Point.rank]) (by simp [Point.rank])
    | _ => exact h4.elim
  | @waiting r pa idx p h1 h2 h3 h4 h5 h6 =>
    cases hq.symm.trans h1
    have hwait : ∀ {s' : State} {p' : Point}, s'.driver = some ⟨r, pa, p'⟩ → s'.device = s.device → s'.lastAvail = s.lastAvail →
        s'.vq.availIdx = s.vq.availIdx → s'.owed = s.owed → s'.pending = s.pending → p'.rank < p.rank → p.rank ≤ 5 →
        s.log.length < s'.log.length ∨ rank s' ≤ rank s ∧ (¬ Polls s .drive → rank s' < rank s) := by
      intro s' p' hd k1 k2 k3 ho hp hlt h5
      exact hlower hd (deviceRank_moved h5 (by omega) k1 k2 k3).le ho hp hlt
    cases p with
    | lastUsed => exact hwait rfl rfl rfl rfl rfl rfl (by simp [Point.rank]) (by simp [Point.rank])
    | notify last => exact hwait rfl rfl rfl rfl rfl rfl (by simp [Point.rank]) (by simp [Point.rank])
    | wait last =>
      unfold drive
      dsimp only
      by_cases hu : s.vq.usedIdx = last
      · rw [if_neg (not_not_intro hu)]
        exact .inr ⟨Nat.le_refl _, fun hp => absurd ⟨rfl, _, h1, .inl (by rw [hu])⟩ hp⟩
      · rw [if_pos hu]
        exact hwait rfl rfl rfl rfl rfl rfl (by simp [Point.rank]) (by simp [Point.rank])
    | asleep last => exact .inr ⟨Nat.le_refl _, fun hp => absurd ⟨rfl, _, h1, .inr ⟨last, rfl⟩⟩ hp⟩
    | result =>
      unfold drive
      dsimp only
      split
      · exact .inl (hfinish _)
      · split
        · exact .inl (hfinish _)
        · exact hwait rfl rfl rfl rfl rfl rfl (by simp [Point.rank]) (by simp [Point.rank])
    | copy => exact .inl (hfinish _)
    | _ => exact h5.elim

theorem Waits.rank_le (h : Waits s r pa idx p) : p.rank ≤ 5 := by
  cases p with
  | lastUsed => exact Nat.le_refl _
  | notify last => simp [Point.rank]
  | wait last => simp [Point.rank]
  | asleep last => simp [Point.rank]
  | result => simp [Point.rank]
  | copy => simp [Point.rank]
  | _ => exact h.elim

/-- The device gets on. -/
theorem deviceRank_step (hS : Serving s D r pa idx) (ha : s.vq.availIdx = following idx) (hp : p.rank ≤ 5) (hdev : OfDevice e)
    (he : step s e = some s') : deviceRank s' p < deviceRank s p ∧ (e = .bump → deviceRank s' p + 7 = deviceRank s p) := by
  have hr : ∀ {s : State} {d : Device}, s.device = d → deviceRank s p = deviceRank { s with device := d } p := by
    intro s d hd
    rw [← hd]
  rcases hdev with rfl | rfl | ⟨status, junk, rfl⟩ | rfl | rfl | rfl
  · refine ⟨?_, nofun⟩
    unfold step at he
    dsimp only at he
    split at he
    next hd =>
      split at he
      next hne =>
        cases he
        rw [hr hd]
        unfold deviceRank
        dsimp only
        rw [if_neg fun hc => hne hc.1]
        simp
      · cases he
    · cases he
  · refine ⟨?_, nofun⟩
    have he' : fetch s = some s' := he
    unfold fetch at he'
    split at he'
    next head next chain hd =>
      have hlen : chain.length ≤ 2 := by
        cases hS with
        | walks h1 _ _ _ _ _ h7 =>
          cases h1.symm.trans hd
          rcases h7 with ⟨-, rfl⟩ | ⟨-, rfl⟩ | ⟨-, rfl⟩ <;> simp
        | offered h1 => rw [h1] at hd; cases hd
        | serves h1 => rw [h1] at hd; cases hd
        | answers h1 => rw [h1] at hd; cases hd
        | reports h1 => rw [h1] at hd; cases hd
        | bumps h1 => rw [h1] at hd; cases hd
        | done h1 => rw [h1] at hd; cases hd
      cases he'
      rw [hr hd]
      split
      · simp only [deviceRank, List.length_append, List.length_singleton]
        omega
      · simp only [deviceRank]
        omega
    · cases he'
  · refine ⟨?_, nofun⟩
    have he' : transfer s status junk = some s' := he
    unfold transfer at he'
    split at he'
    next hd =>
      rw [hr hd]
      dsimp only at he'
      split at he'
      · cases he'
      · split at he'
        · cases he'
          simp [deviceRank]
        · split at he'
          · cases he'
            simp [deviceRank]
          · cases he'
    · cases he'
  · refine ⟨?_, nofun⟩
    have he' : answer s = some s' := he
    unfold answer at he'
    split at he'
    next hd =>
      cases he'
      rw [hr hd]
      simp [deviceRank]
    · cases he'
  · refine ⟨?_, nofun⟩
    unfold step at he
    dsimp only at he
    split at he
    next hd =>
      cases he
      rw [hr hd]
      simp [deviceRank]
    · cases he
  · unfold step at he
    dsimp only at he
    split at he
    next hd =>
      have hl : s.lastAvail = s.vq.availIdx := by
        cases hS with
        | bumps _ h2 => exact h2.trans ha.symm
        | offered h1 => rw [h1] at hd; cases hd
        | walks h1 => rw [h1] at hd; cases hd
        | serves h1 => rw [h1] at hd; cases hd
        | answers h1 => rw [h1] at hd; cases hd
        | reports h1 => rw [h1] at hd; cases hd
        | done h1 => rw [h1] at hd; cases hd
      cases he
      rw [hr hd]
      simp [deviceRank, hl, hp]
    · cases he

theorem rank_device (h : Shape D s) (hq : s.driver = some q) (hdev : OfDevice e) (he : step s e = some s') : rank s' < rank s := by
  cases h with
  | quiet h1 =>
    rw [h1] at hq
    cases hq
  | preparing h1 h2 h3 h4 h5 =>
    rw [h3.blocks hdev] at he
    cases he
  | @waiting r pa idx p h1 h2 h3 h4 h5 h6 =>
    cases hq.symm.trans h1
    obtain ⟨hdr, -, -, -, hpend, hu, -⟩ := device_frame hdev he
    obtain ⟨hlt, hbump⟩ := deviceRank_step h6 h4 h5.rank_le hdev he
    rw [rank_some h1, rank_some (hdr.trans h1)]
    dsimp only
    unfold interruptRank
    rw [hpend]
    by_cases hb : e = .bump
    · have h7 := hbump hb
      have hup : (if s'.owed then 4 else 0) ≤ 4 := by split <;> omega
      omega
    · rw [(hu hb).2]
      omega

/-- Every step gets on, but an idle poll. -/
theorem rank_step (h : Shape D s) (hq : s.driver = some q) (he : step s e = some s') :
    s.log.length < s'.log.length ∨ rank s' ≤ rank s ∧ (¬ Polls s e → rank s' < rank s) := by
  have hlt : rank s' < rank s → s.log.length < s'.log.length ∨ rank s' ≤ rank s ∧ (¬ Polls s e → rank s' < rank s) := fun h =>
    .inr ⟨Nat.le_of_lt h, fun _ => h⟩
  cases e with
  | call r dma =>
    obtain ⟨hd, -⟩ := step_call he
    rw [hd] at hq
    cases hq
  | drive =>
    obtain ⟨q', hq', rfl⟩ := step_drive he
    cases hq.symm.trans hq'
    exact rank_drive h hq
  | sleep =>
    obtain ⟨r, pa, hq', hs⟩ := step_sleep he
    apply hlt
    have hm : deviceRank s' (.asleep s.vq.usedIdx) = deviceRank s (.wait s.vq.usedIdx) := by
      apply deviceRank_moved
      · simp [Point.rank]
      · simp [Point.rank]
      · rw [hs]
      · rw [hs]
      · rw [hs]
    have hi : interruptRank s' = interruptRank s := by
      rw [hs]
      rfl
    have hd : s'.driver = some ⟨r, pa, .asleep s.vq.usedIdx⟩ := by rw [hs]
    rw [rank_some hd, rank_some hq', hi]
    dsimp only
    rw [hm]
    simp [Point.rank]
  | irq =>
    obtain ⟨hpend, hs⟩ := step_irq he
    apply hlt
    have hi : interruptRank s' + 2 = interruptRank s := by
      rw [hs]
      simp [interruptRank, hpend]
    have hd : s'.driver = some q.wake := by
      rw [hs, hq]
      rfl
    have hm : q.wake.point.rank ≤ q.point.rank + 1 ∧ deviceRank s' q.wake.point = deviceRank s q.point := by
      obtain ⟨r, pa, p⟩ := q
      have hsame : deviceRank s' p = deviceRank s p := by
        unfold deviceRank
        rw [hs]
      cases p with
      | asleep last =>
        refine ⟨Nat.le_refl _, ?_⟩
        apply deviceRank_moved
        · simp [Point.rank]
        · simp [Running.wake, Point.rank]
        · rw [hs]
        · rw [hs]
        · rw [hs]
      | _ => exact ⟨Nat.le_succ _, hsame⟩
    rw [rank_some hd, rank_some hq, hm.2]
    omega
  | raise =>
    obtain ⟨howed, hs⟩ := step_raise he
    apply hlt
    have hi : interruptRank s' + 2 ≤ interruptRank s := by
      rw [hs]
      simp [interruptRank, howed]
    have hd : s'.driver = some q := by rw [hs, hq]
    have hm : deviceRank s' q.point = deviceRank s q.point := by
      unfold deviceRank
      rw [hs]
    rw [rank_some hd, rank_some hq, hm]
    omega
  | take => exact hlt (rank_device h hq (.inl rfl) he)
  | fetch => exact hlt (rank_device h hq (.inr (.inl rfl)) he)
  | transfer status junk => exact hlt (rank_device h hq (.inr (.inr (.inl ⟨status, junk, rfl⟩))) he)
  | answer => exact hlt (rank_device h hq (.inr (.inr (.inr (.inl rfl)))) he)
  | report => exact hlt (rank_device h hq (.inr (.inr (.inr (.inr (.inl rfl))))) he)
  | bump => exact hlt (rank_device h hq (.inr (.inr (.inr (.inr (.inr rfl))))) he)

/-! ## Nothing is stuck -/

theorem transfer_enabled (hd : s.device = .serve (idx % vqSize) [Request.desc0 pa idx, r.desc1 pa idx, r.desc2 pa]) (hh : Headed s.mem r pa) :
    ∃ s', transfer s 0 [] = some s' := by
  have haddr : (Request.desc0 pa idx).addr = pa := rfl
  unfold transfer
  rw [hd]
  dsimp only
  rw [haddr, hh.type, desc1_write, if_neg fun hc => hc.1 rfl]
  cases r.isWrite with
  | true =>
    rw [if_pos rfl, if_pos rfl, if_pos ⟨rfl, rfl⟩]
    exact ⟨_, rfl⟩
  | false =>
    rw [if_neg Bool.false_ne_true, if_neg Bool.false_ne_true, if_neg (by decide), if_pos ⟨rfl, rfl⟩]
    exact ⟨_, rfl⟩

/-- A device that is not done has a step. -/
theorem device_enabled (hS : Serving s D r pa idx) (ha : s.vq.availIdx = following idx) (hu : s.vq.usedIdx = idx) :
    ∃ e s', OfDevice e ∧ step s e = some s' := by
  cases hS with
  | offered h1 h2 =>
    have hne : s.lastAvail ≠ s.vq.availIdx := by
      rw [h2, ha]
      exact following_ne.symm
    have hs : (step s .take).isSome = true := by simp [step, h1, hne]
    exact ⟨.take, _, .inl rfl, (Option.some_get hs).symm⟩
  | walks h1 =>
    have hs : (step s .fetch).isSome = true := by simp [step, fetch, h1]
    exact ⟨.fetch, _, .inr (.inl rfl), (Option.some_get hs).symm⟩
  | serves h1 _ _ h4 =>
    obtain ⟨s', hs⟩ := transfer_enabled h1 h4
    exact ⟨.transfer 0 [], s', .inr (.inr (.inl ⟨0, [], rfl⟩)), hs⟩
  | answers h1 =>
    have hs : (step s .answer).isSome = true := by simp [step, answer, h1]
    exact ⟨.answer, _, .inr (.inr (.inr (.inl rfl))), (Option.some_get hs).symm⟩
  | reports h1 =>
    have hs : (step s .report).isSome = true := by simp [step, h1]
    exact ⟨.report, _, .inr (.inr (.inr (.inr (.inl rfl)))), (Option.some_get hs).symm⟩
  | bumps h1 =>
    have hs : (step s .bump).isSome = true := by simp [step, h1]
    exact ⟨.bump, _, .inr (.inr (.inr (.inr (.inr rfl)))), (Option.some_get hs).symm⟩
  | done _ _ h3 => exact absurd (h3.symm.trans hu) following_ne

/-- A step that is no idle poll is enabled; the device's is, when the driver waits. -/
theorem goes_on (h : Shape D s) (ht : OnTime s) (hw : Wakes s) (hq : s.driver = some q) :
    ∃ e s', step s e = some s' ∧ ¬ Polls s e ∧ (OfDevice e → q.point.rank ≤ 3) := by
  have hdrive : (∀ last, q.point ≠ .asleep last) → q.point ≠ .wait s.vq.usedIdx →
      ∃ e s', step s e = some s' ∧ ¬ Polls s e ∧ (OfDevice e → q.point.rank ≤ 3) := by
    intro h1 h2
    refine ⟨.drive, drive s q, congrArg (Option.map (drive s)) hq, fun hp => ?_, fun hdev => ?_⟩
    · obtain ⟨-, q', hq', hpt⟩ := hp
      cases hq.symm.trans hq'
      rcases hpt with hpt | ⟨last, hpt⟩
      · exact h2 hpt
      · exact h1 last hpt
    · rcases hdev with hd | hd | ⟨_, _, hd⟩ | hd | hd | hd <;> cases hd
  have hother : ∀ {e : Event}, e ≠ .drive → (∃ s', step s e = some s') → q.point.rank ≤ 3 →
      ∃ e s', step s e = some s' ∧ ¬ Polls s e ∧ (OfDevice e → q.point.rank ≤ 3) := by
    intro e hne hs hr
    obtain ⟨s', hs⟩ := hs
    exact ⟨e, s', hs, fun hc => hne hc.1, fun _ => hr⟩
  have hdev : ∀ {last : Nat}, q.point.last = some last → last = s.vq.usedIdx → q.point.rank ≤ 3 →
      ∃ e s', step s e = some s' ∧ ¬ Polls s e ∧ (OfDevice e → q.point.rank ≤ 3) := by
    intro last hl hu hr
    have hne := (ht q hq).2
    rw [hl] at hne
    cases h with
    | quiet h1 => rw [h1] at hq; cases hq
    | preparing h1 h2 h3 h4 h5 => exact absurd (congrArg some (hu.trans h3.usedIdx)) hne
    | @waiting r pa idx p h1 h2 h3 h4 h5 h6 =>
      have hidx : s.vq.usedIdx = idx := by
        refine h6.usedIdx.resolve_right fun hf => hne ?_
        rw [hu, hf, h4]
      obtain ⟨e, s', hof, hs⟩ := device_enabled h6 h4 hidx
      refine hother (fun hc => ?_) ⟨s', hs⟩ hr
      rw [hc] at hof
      rcases hof with hof | hof | ⟨_, _, hof⟩ | hof | hof | hof <;> cases hof
  obtain ⟨r, pa, p⟩ := q
  cases p with
  | wait last =>
    by_cases hu : last = s.vq.usedIdx
    · exact hdev rfl hu (Nat.le_refl 3)
    · exact hdrive nofun fun hc => hu (Point.wait.inj hc)
  | asleep last =>
    by_cases hu : last = s.vq.usedIdx
    · exact hdev rfl hu (Nat.le_succ 2)
    · cases hw _ last hq rfl fun hc => hu hc.symm with
      | inl ho => exact @hother .raise nofun ⟨_, if_pos ho⟩ (Nat.le_succ 2)
      | inr hp => exact @hother .irq nofun ⟨_, if_pos hp⟩ (Nat.le_succ 2)
  | _ => exact hdrive nofun nofun

/-- An open request stays open until it returns, and does not go back. -/
theorem open_step (hq : s.driver = some q) (he : step s e = some s') :
    (∃ q', s'.driver = some q' ∧ (q.point.rank ≤ 4 → q'.point.rank ≤ 4)) ∨ s.log.length < s'.log.length := by
  have hdev : ∀ {e : Event}, OfDevice e → step s e = some s' → ∃ q', s'.driver = some q' ∧ (q.point.rank ≤ 4 → q'.point.rank ≤ 4) := by
    intro e hdev he
    exact ⟨q, (device_frame hdev he).1.trans hq, id⟩
  have hfinish : ∀ out : Outcome, s.log.length < (s.finish q.request out).log.length := by
    intro out
    simp [State.finish]
  cases e with
  | call r dma =>
    obtain ⟨hd, -⟩ := step_call he
    rw [hd] at hq
    cases hq
  | drive =>
    obtain ⟨q', hq', rfl⟩ := step_drive he
    cases hq.symm.trans hq'
    obtain ⟨r, pa, p⟩ := q
    cases p with
    | wait last =>
      unfold drive
      dsimp only
      split
      · exact .inl ⟨_, rfl, fun _ => by simp [Point.rank]⟩
      · exact .inl ⟨_, hq, id⟩
    | asleep last => exact .inl ⟨_, hq, id⟩
    | result =>
      unfold drive
      dsimp only
      split
      · exact .inr (hfinish _)
      · split
        · exact .inr (hfinish _)
        · exact .inl ⟨_, rfl, fun _ => by simp [Point.rank]⟩
    | copy => exact .inr (hfinish _)
    | _ => exact .inl ⟨_, rfl, by simp [Point.rank]⟩
  | sleep =>
    obtain ⟨r, pa, -, rfl⟩ := step_sleep he
    exact .inl ⟨_, rfl, fun _ => by simp [Point.rank]⟩
  | irq =>
    obtain ⟨-, rfl⟩ := step_irq he
    refine .inl ⟨q.wake, by rw [hq]; rfl, fun h => ?_⟩
    unfold Running.wake
    split
    · simp [Point.rank]
    · exact h
  | raise =>
    obtain ⟨-, rfl⟩ := step_raise he
    exact .inl ⟨q, hq, id⟩
  | take => exact .inl (hdev (.inl rfl) he)
  | fetch => exact .inl (hdev (.inr (.inl rfl)) he)
  | transfer status junk => exact .inl (hdev (.inr (.inr (.inl ⟨status, junk, rfl⟩))) he)
  | answer => exact .inl (hdev (.inr (.inr (.inr (.inl rfl)))) he)
  | report => exact .inl (hdev (.inr (.inr (.inr (.inr (.inl rfl))))) he)
  | bump => exact .inl (hdev (.inr (.inr (.inr (.inr (.inr rfl))))) he)

theorem Advances.length_le {D' : Buf} (h : Advances s s' D D') : s.log.length ≤ s'.log.length := by
  rcases h with ⟨hl, -⟩ | ⟨x, hl, -⟩
  · rw [hl]
  · simp [hl]

/-- A request that is in time returns in runs that keep it so. -/
theorem returns_of {ok : State → Event → Prop} (I : State → Prop)
    (hI : ∀ {D s q e s'}, Shape D s → s.driver = some q → I s → ok s e → step s e = some s' → Punctual s e ∧ (I s' ∨ s.log.length < s'.log.length))
    (hs : Shape D s) (hw : Wakes s) (ht : OnTime s) (hi : I s) (hq : s.driver = some q)
    (h : Marked step ok (fun s e => ¬ Polls s e) s 33 s') : s.log.length < s'.log.length := by
  let P : State → Prop := fun t => (∃ D, Shape D t) ∧ Wakes t ∧ s.log.length ≤ t.log.length ∧
    (s.log.length < t.log.length ∨ OnTime t ∧ I t ∧ ∃ q, t.driver = some q)
  have hlen : ∀ {D t e t'}, Shape D t → step t e = some t' → t.log.length ≤ t'.log.length := by
    intro D t e t' hs he
    obtain ⟨D', -, ha, -⟩ := step_shape hs e he
    exact ha.length_le
  have hkeep : ∀ t e t', P t → ok t e → step t e = some t' → P t' := by
    intro t e t' hP hok he
    obtain ⟨⟨D, hD⟩, hW, hle, hor⟩ := hP
    obtain ⟨D', hD', -⟩ := step_shape hD e he
    refine ⟨⟨D', hD'⟩, hW.step he, hle.trans (hlen hD he), ?_⟩
    rcases hor with hlt | ⟨hT, hIt, q, hq⟩
    · exact .inl (hlt.trans_le (hlen hD he))
    · obtain ⟨hp, hIt'⟩ := hI hD hq hIt hok he
      rcases hIt' with hIt' | hlt
      · rcases open_step hq he with ⟨q', hq', -⟩ | hlt
        · exact .inr ⟨hT.step hD hp he, hIt', q', hq'⟩
        · exact .inl (hle.trans_lt hlt)
      · exact .inl (hle.trans_lt hlt)
  have hprogress := h.progress (P := P) (G := fun t => s.log.length < t.log.length) (r := rank) ⟨⟨D, hs⟩, hw, Nat.le_refl _, .inr ⟨ht, hi, q, hq⟩⟩
    hkeep (fun t e t' hP _ he hlt => ?_) (fun t e t' hP _ he hlt => ?_)
  · refine hprogress.2.resolve_right fun hr => ?_
    have := rank_le s
    omega
  · obtain ⟨⟨D, hD⟩, -⟩ := hP
    exact hlt.trans_le (hlen hD he)
  · obtain ⟨⟨D, hD⟩, -, hle, hor⟩ := hP
    obtain ⟨-, -, q, hq⟩ := hor.resolve_left hlt
    exact (rank_step hD hq he).imp_left fun h => hle.trans_lt h


theorem run_wakes (h : Wakes s) (es : List Event) (he : trace step s es = some s') : Wakes s' := by
  induction es generalizing s with
  | nil =>
    cases he
    exact h
  | cons e es ih =>
    obtain ⟨s1, he1, he2⟩ := Option.bind_eq_some_iff.mp he
    exact ih (h.step he1) he2

theorem setup_wakes (mem disk : Buf) : Wakes (setup mem disk) := fun _ _ hq => by cases hq

/-- The run of a write to its load of `used.idx`. -/
def offered : List Event := [.call oneSector (some 4096), .drive, .drive, .drive, .drive, .drive, .drive, .drive, .drive]

theorem offered_waits : ∃ s q, trace step (setup (fun _ => 0) fun _ => 0) offered = some s ∧ s.driver = some q ∧ q.point.last = some 0 := by
  have hlast : ((trace step (setup (fun _ => 0) fun _ => 0) offered).bind fun s => s.driver.bind fun q => q.point.last) = some 0 := rfl
  obtain ⟨s, hs, hd⟩ := Option.bind_eq_some_iff.mp hlast
  obtain ⟨q, hq, hl⟩ := Option.bind_eq_some_iff.mp hd
  exact ⟨s, q, hs, hq, hl⟩

/-- A device that waits for notifications is idle until the request was notified. -/
structure Calm (s : State) : Prop where
  kicked : s.kicked = true → s.lastAvail ≠ s.vq.availIdx ∧ ∃ q, s.driver = some q ∧ q.point.rank ≤ 3
  early : ∀ q, s.driver = some q → q.point.rank = 5 ∨ q.point.rank = 4 → s.device = .idle ∧ s.lastAvail ≠ s.vq.availIdx
  late : ∀ q, s.driver = some q → q.point.rank ≤ 3 → s.lastAvail ≠ s.vq.availIdx → s.kicked = true

theorem Calm.punctual (h : Calm s) (he : step s e = some s') : Punctual s e := by
  intro hb q hq hp
  have hd := (h.early q hq (.inl (by rw [hp]; rfl))).1
  rw [hb] at he
  simp [step, hd] at he

theorem wake_rank (q : Running) : q.wake = q ∨ q.point.rank ≤ 3 ∧ q.wake.point.rank ≤ 3 := by
  obtain ⟨r, pa, p⟩ := q
  cases p with
  | asleep last => exact .inr ⟨Nat.le_succ 2, Nat.le_refl 3⟩
  | _ => exact .inl rfl

theorem step_take (he : step s .take = some s') :
    s'.lastAvail = (s.lastAvail + 1) % 2 ^ 16 ∧ s.device = .idle ∧ s'.kicked = false := by
  unfold step at he
  dsimp only at he
  split at he
  next hd =>
    split at he
    · cases he
      exact ⟨rfl, hd, rfl⟩
    · cases he
  · cases he

theorem Calm.drive (hD : Shape D s) (h : Calm s) (hq : s.driver = some q) : Calm (drive s q) := by
  obtain ⟨h1, h2, h3⟩ := h
  have hcold : 4 ≤ q.point.rank → s.kicked ≠ true := by
    intro hr hk
    obtain ⟨-, q', hq', hr'⟩ := h1 hk
    cases hq.symm.trans hq'
    omega
  have hgoto : ∀ {s' : State} {p : Point}, s'.driver = some { q with point := p } → s'.kicked = s.kicked → 5 < q.point.rank → 5 < p.rank → Calm s' := by
    intro s' p hd hk hr hp
    refine ⟨fun hk' => absurd (hk.symm.trans hk') (hcold (by omega)), fun q' hq' hr' => ?_, fun q' hq' hr' => ?_⟩
    · cases hd.symm.trans hq'
      dsimp only at hr'
      omega
    · cases hd.symm.trans hq'
      dsimp only at hr'
      omega
  have hlate : ∀ {s' : State} {p : Point}, s'.driver = some { q with point := p } → s'.kicked = s.kicked → s'.lastAvail = s.lastAvail →
      s'.vq = s.vq → q.point.rank ≤ 3 → p.rank ≤ 3 → Calm s' := by
    intro s' p hd hk hl hv hr hp
    refine ⟨fun hk' => ⟨by rw [hl, hv]; exact (h1 (hk.symm.trans hk')).1, _, hd, hp⟩, fun q' hq' hr' => ?_, fun q' hq' _ hne => ?_⟩
    · cases hd.symm.trans hq'
      dsimp only at hr'
      omega
    · rw [hl, hv] at hne
      exact hk.trans (h3 q hq hr hne)
  -- a request that returns was taken
  have hdone : ∀ out : Outcome, s.lastAvail = s.vq.availIdx → Calm (s.finish q.request out) := by
    intro out heq
    refine ⟨fun hk => absurd heq (h1 hk).1, fun q' hq' => ?_, fun q' hq' => ?_⟩
    · cases hq'
    · cases hq'
  cases hD with
  | quiet k1 => rw [k1] at hq; cases hq
  | @preparing r pa p k1 k2 k3 k4 k5 =>
    cases hq.symm.trans k1
    cases p with
    | publish idx =>
      have hne : s.lastAvail ≠ (s.vq.availIdx + 1) % 2 ^ 16 := by
        rw [k3.lastAvail]
        exact following_ne.symm
      refine ⟨fun hk => absurd hk (hcold (by simp [Point.rank])), fun q' hq' _ => ⟨k3.device, hne⟩, fun q' hq' hr' => ?_⟩
      cases hq'
      simp [Point.rank] at hr'
    | fill => exact hgoto rfl rfl (by simp [Point.rank]) (by simp [Point.rank])
    | header => exact hgoto rfl rfl (by simp [Point.rank]) (by simp [Point.rank])
    | desc0 idx => exact hgoto rfl rfl (by simp [Point.rank]) (by simp [Point.rank])
    | desc1 idx => exact hgoto rfl rfl (by simp [Point.rank]) (by simp [Point.rank])
    | desc2 idx => exact hgoto rfl rfl (by simp [Point.rank]) (by simp [Point.rank])
    | ring idx => exact hgoto rfl rfl (by simp [Point.rank]) (by simp [Point.rank])
    | _ => exact k4.elim
  | @waiting r pa idx p k1 k2 k3 k4 k5 k6 =>
    cases hq.symm.trans k1
    have htaken : s.vq.usedIdx = following idx → s.lastAvail = s.vq.availIdx := fun hu => (k6.finished hu).2.1.trans k4.symm
    cases p with
    | lastUsed =>
      refine ⟨fun hk => absurd hk (hcold (by simp [Point.rank])), fun q' hq' _ => h2 _ hq (.inl rfl), fun q' hq' hr' => ?_⟩
      cases hq'
      simp [Point.rank] at hr'
    | notify last =>
      refine ⟨fun _ => ⟨(h2 _ hq (.inr rfl)).2, _, rfl, Nat.le_refl 3⟩, fun q' hq' hr' => ?_, fun _ _ _ _ => rfl⟩
      cases hq'
      simp [Point.rank] at hr'
    | wait last =>
      unfold Virtio.drive
      dsimp only
      split
      · exact hlate rfl rfl rfl rfl (Nat.le_refl 3) (by simp [Point.rank])
      · exact ⟨h1, h2, h3⟩
    | asleep last => exact ⟨h1, h2, h3⟩
    | result =>
      unfold Virtio.drive
      dsimp only
      split
      · exact hdone _ (htaken k5)
      · split
        · exact hdone _ (htaken k5)
        · exact hlate rfl rfl rfl rfl (by simp [Point.rank]) (by simp [Point.rank])
    | copy => exact hdone _ (htaken k5.1)
    | _ => exact k5.elim

theorem Calm.step (hD : Shape D s) (h : Calm s) (hp : Patient s e) (he : step s e = some s') : Calm s' := by
  have hdev : ∀ {e : Event}, OfDevice e → e ≠ .take → Virtio.step s e = some s' → Calm s' := by
    intro e hdev hne he
    obtain ⟨hdr, -, -, ha, -, -, hl⟩ := device_frame hdev he
    obtain ⟨hlast, hkick⟩ := hl hne
    refine ⟨fun hk => ?_, fun q hq hr => ?_, fun q hq hr => ?_⟩
    · rw [hlast, ha, hdr]
      exact h.kicked (hkick.symm.trans hk)
    · rw [hdr] at hq
      rw [idle_blocks (h.early q hq hr).1 hdev hne] at he
      cases he
    · rw [hdr] at hq
      rw [hlast, ha, hkick]
      exact h.late q hq hr
  have hmoved : ∀ {q q' : Running}, s.driver = some q → s'.driver = some q' → q.point.rank ≤ 3 → q'.point.rank ≤ 3 → s'.kicked = s.kicked →
      s'.lastAvail = s.lastAvail → s'.vq = s.vq → Calm s' := by
    intro q q' hq hq' hr hr' hk hl hv
    refine ⟨fun hk' => ⟨by rw [hl, hv]; exact (h.kicked (hk.symm.trans hk')).1, q', hq', hr'⟩, fun q1 hq1 hr1 => ?_, fun q1 hq1 _ hne => ?_⟩
    · cases hq'.symm.trans hq1
      omega
    · rw [hl, hv] at hne
      exact hk.trans (h.late q hq hr hne)
  cases e with
  | call r dma =>
    obtain ⟨hd, hs⟩ := step_call he
    have hcold : s.kicked ≠ true := by
      intro hk
      obtain ⟨-, q, hq, -⟩ := h.kicked hk
      rw [hd] at hq
      cases hq
    rcases hs with rfl | ⟨pa, rfl⟩
    · refine ⟨fun hk => absurd hk hcold, fun q hq => ?_, fun q hq => ?_⟩
      · cases hq
      · cases hq
    · refine ⟨fun hk => absurd hk hcold, fun q hq hr => ?_, fun q hq hr => ?_⟩
      · cases hq
        simp [Point.rank] at hr
      · cases hq
        simp [Point.rank] at hr
  | drive =>
    obtain ⟨q, hq, rfl⟩ := step_drive he
    exact h.drive hD hq
  | sleep =>
    obtain ⟨r, pa, hq, rfl⟩ := step_sleep he
    exact hmoved hq rfl (Nat.le_refl 3) (Nat.le_succ 2) rfl rfl rfl
  | irq =>
    obtain ⟨-, rfl⟩ := step_irq he
    refine ⟨fun hk => ?_, fun q' hq' hr => ?_, fun q' hq' hr hne => ?_⟩
    · obtain ⟨hne, q, hq, hr⟩ := h.kicked hk
      refine ⟨hne, q.wake, congrArg (Option.map Running.wake) hq, ?_⟩
      rcases wake_rank q with heq | hle
      · rw [heq]
        exact hr
      · exact hle.2
    · obtain ⟨q, hq, rfl⟩ := Option.map_eq_some_iff.mp hq'
      rcases wake_rank q with heq | hle
      · rw [heq] at hr
        exact h.early q hq hr
      · omega
    · obtain ⟨q, hq, rfl⟩ := Option.map_eq_some_iff.mp hq'
      refine h.late q hq ?_ hne
      rcases wake_rank q with heq | hle
      · rw [heq] at hr
        exact hr
      · exact hle.1
  | raise =>
    obtain ⟨-, rfl⟩ := step_raise he
    exact ⟨h.kicked, h.early, h.late⟩
  | take =>
    obtain ⟨hl, hd, hk⟩ := step_take he
    obtain ⟨hne, q, hq, hr⟩ := h.kicked (hp rfl)
    obtain ⟨hdr, -, -, ha, -⟩ := device_frame (.inl rfl) he
    have htaken : s'.lastAvail = s'.vq.availIdx := by
      rw [ha, hl]
      cases hD with
      | quiet _ _ k3 => exact absurd k3.lastAvail hne
      | preparing _ _ k3 => exact absurd k3.lastAvail hne
      | waiting _ _ _ k4 _ k6 =>
        cases k6 with
        | offered _ k => rw [k, k4, following]
        | walks _ k => exact absurd (k.trans k4.symm) hne
        | serves _ k => exact absurd (k.trans k4.symm) hne
        | answers _ k => exact absurd (k.trans k4.symm) hne
        | reports _ k => exact absurd (k.trans k4.symm) hne
        | bumps _ k => exact absurd (k.trans k4.symm) hne
        | done _ k => exact absurd (k.trans k4.symm) hne
    refine ⟨fun hk' => ?_, fun q' hq' hr' => ?_, fun _ _ _ hne' => absurd htaken hne'⟩
    · rw [hk] at hk'
      cases hk'
    · rw [hdr, hq] at hq'
      cases hq'
      omega
  | fetch => exact hdev (.inr (.inl rfl)) (fun hc => by cases hc) he
  | transfer status junk => exact hdev (.inr (.inr (.inl ⟨status, junk, rfl⟩))) (fun hc => by cases hc) he
  | answer => exact hdev (.inr (.inr (.inr (.inl rfl)))) (fun hc => by cases hc) he
  | report => exact hdev (.inr (.inr (.inr (.inr (.inl rfl))))) (fun hc => by cases hc) he
  | bump => exact hdev (.inr (.inr (.inr (.inr (.inr rfl))))) (fun hc => by cases hc) he

/-- What holds in every run of a patient device. -/
theorem run_calm (hD : Shape D s) (ht : OnTime s) (hc : Calm s) (es : List Event) (hm : Meets step Patient s es) (he : trace step s es = some s') :
    OnTime s' ∧ Calm s' := by
  induction es generalizing s D with
  | nil =>
    cases he
    exact ⟨ht, hc⟩
  | cons e es ih =>
    obtain ⟨s1, he1, he2⟩ := Option.bind_eq_some_iff.mp he
    obtain ⟨D1, hD1, -⟩ := step_shape hD e he1
    exact ih hD1 (ht.step hD (hc.punctual he1) he1) (hc.step hD hm.1 he1) (hm.2 s1 he1) he2

end Myos.Driver.Virtio
