import Fopd.Threads

namespace Fopd.SlidingWindow

open Consts Memory Packet Damage Data PacketSniffer DpsMeter Threads Lib Lib.Transitions

def inHand : SnifferStage → List FiestaOnlinePacketDamage
  | .ready => []
  | .constructed pkt => [pkt]
  | .published pkt => [pkt]

def iterationTime : DpsStage → Option Time
  | .sleeping => none
  | .expired now => some now
  | .reported now => some now

/-- The queue is what is left of all packets pushed, in the order of their construction, and during
an iteration it holds the last second and nothing else. -/
structure Windowed (s : State) : Prop where
  split : s.pushed = s.popped ++ s.dmgQ
  ordered : Window.Ordered timestamp (s.pushed ++ inHand s.sniffer)
  past : ∀ p ∈ s.pushed ++ inHand s.sniffer, timestamp p ≤ s.clock
  gone : ∀ p ∈ s.popped, timestamp p ≤ s.clock - oneSecond
  current : ∀ now, iterationTime s.dps = some now → now ≤ s.clock ∧
    (∀ p ∈ s.popped, timestamp p ≤ now - oneSecond) ∧ ∀ p ∈ s.dmgQ, now - oneSecond < timestamp p

theorem windowed_start (clock : Time) : Windowed (start clock) where
  split := rfl
  ordered := Window.Ordered.nil
  past := by simp [start, inHand]
  gone := by simp [start]
  current := by simp [start, iterationTime]

namespace Windowed

variable {s : State}

theorem ordered_pushed (h : Windowed s) : Window.Ordered timestamp s.pushed :=
  h.ordered.of_sublist (List.sublist_append_left _ _)

theorem ordered_queue (h : Windowed s) : Window.Ordered timestamp s.dmgQ :=
  h.ordered_pushed.of_sublist (h.split ▸ List.sublist_append_right _ _)

theorem tick (h : Windowed s) {now : Time} (hc : s.clock ≤ now) : Windowed { s with clock := now } where
  split := h.split
  ordered := h.ordered
  past p hp := (h.past p hp).trans hc
  gone p hp := (h.gone p hp).trans (Int.sub_le_sub_right hc _)
  current t ht := ⟨(h.current t ht).1.trans hc, (h.current t ht).2⟩

theorem construct (h : Windowed s) (hs : s.sniffer = .ready) {pkt : FiestaOnlinePacketDamage}
    (hp : timestamp pkt = s.clock) : Windowed { s with sniffer := .constructed pkt } := by
  have ho := h.ordered
  have hpast := h.past
  rw [hs, inHand, List.append_nil] at ho hpast
  refine ⟨h.split, ho.push fun p hm => (hpast p hm).trans_eq hp.symm, fun p hm => ?_, h.gone, h.current⟩
  rcases List.mem_append.mp hm with hm | hm
  · exact hpast p hm
  · rw [List.mem_singleton.mp hm, hp]

theorem push (h : Windowed s) {pkt : FiestaOnlinePacketDamage} (hs : s.sniffer = .published pkt)
    (hd : s.dps = .sleeping) : Windowed
      { s with dmgQ := s.dmgQ ++ [pkt], pushed := s.pushed ++ [pkt], sniffer := .ready } := by
  have ho := h.ordered
  have hpast := h.past
  rw [hs, inHand] at ho hpast
  refine ⟨?_, ?_, ?_, h.gone, ?_⟩
  · rw [h.split, List.append_assoc]
  · rwa [inHand, List.append_nil]
  · rwa [inHand, List.append_nil]
  · rw [hd]
    exact fun now hn => absurd hn (by simp [iterationTime])

theorem expire (h : Windowed s) : Windowed { s with
    dmgQ := popExpired (s.clock - oneSecond) s.dmgQ
    popped := s.popped ++ poppedBy (s.clock - oneSecond) s.dmgQ
    dps := .expired s.clock } := by
  have hgone : ∀ p ∈ s.popped ++ poppedBy (s.clock - oneSecond) s.dmgQ,
      timestamp p ≤ s.clock - oneSecond := by
    intro p hp
    rcases List.mem_append.mp hp with hp | hp
    · exact h.gone p hp
    · exact Window.key_le_of_mem_takeExpired hp
  refine ⟨?_, h.ordered, h.past, hgone, fun now hn => ?_⟩
  · rw [List.append_assoc, poppedBy, popExpired, Window.takeExpired_append_dropExpired, h.split]
  · obtain rfl := Option.some.inj hn
    exact ⟨le_rfl, hgone, fun p hp => h.ordered_queue.lt_of_mem_dropExpired hp⟩

theorem step {updateDeltaMs : UInt32} {beyond : Nat → UInt8} {t : State} {e : Event} (h : Windowed s)
    (hst : Step updateDeltaMs beyond s e t) : Windowed t := by
  cases hst with
  | constructDamage hc hs ht hp =>
      have hp := FiestaOnlinePacketDamage.timestamp_of_result hp
      obtain ⟨h₁, h₂, h₃, h₄, h₅⟩ := (h.tick hc).construct hs hp
      exact ⟨h₁, h₂, h₃, h₄, h₅⟩
  | constructEntity hc hs ht hp =>
      obtain ⟨h₁, h₂, h₃, h₄, h₅⟩ := h.tick hc
      exact ⟨h₁, h₂, h₃, h₄, h₅⟩
  | setTargetRemainingHealth hs =>
      obtain ⟨h₁, h₂, h₃, h₄, h₅⟩ := h
      rw [hs] at h₂ h₃
      exact ⟨h₁, h₂, h₃, h₄, h₅⟩
  | push hs hd => exact h.push hs hd
  | expire hc hd => exact (h.tick hc).expire
  | setDPS hd =>
      obtain ⟨h₁, h₂, h₃, h₄, h₅⟩ := h
      rw [hd] at h₅
      exact ⟨h₁, h₂, h₃, h₄, h₅⟩
  | finishSampling hd hc | finishCounting hd hc =>
      exact ⟨h.split, h.ordered, h.past, h.gone, fun now hn => absurd hn (by simp [iterationTime])⟩
  | capture | skip | setPing | setServerIndex => exact ⟨h.split, h.ordered, h.past, h.gone, h.current⟩

theorem queue_eq_live (h : Windowed s) {now : Time} (hd : iterationTime s.dps = some now) :
    s.dmgQ = Window.live timestamp (now - oneSecond) s.pushed := by
  obtain ⟨-, hpopped, hlive⟩ := h.current now hd
  rw [h.split, Window.live_append, Window.live_eq_nil hpopped, Window.live_eq_self hlive, List.nil_append]

end Windowed

section Runs

variable {updateDeltaMs : UInt32} {beyond : Nat → UInt8} {clock : Time} {es : List Event} {s : State}

theorem windowed_of_run (h : run (State.step updateDeltaMs beyond) (start clock) es = some s) :
    Windowed s :=
  run_invariant (fun _ _ _ hw hs => hw.step (step_cases hs)) (windowed_start clock) h

end Runs

/-- The sliding window. In every state that the threads can reach the queue is ordered by time and is
the end of all that was pushed, and what an iteration at the time `now` reports is the sum of the
packets pushed whose timestamps lie in the second before `now`. -/
theorem sliding_window (updateDeltaMs : UInt32) (beyond : Nat → UInt8) (clock : Time) (es : List Event)
    (s : State) (h : run (State.step updateDeltaMs beyond) (start clock) es = some s) :
    s.dmgQ.Pairwise (fun p q => p.timestamp ≤ q.timestamp) ∧ s.dmgQ <:+ s.pushed ∧
    ∀ t, s.step updateDeltaMs beyond .setDPS = some t → ∃ now dps, s.dps = .expired now ∧
      t.fopdData = s.fopdData.setDPS dps ∧
      dps.toNat = damageSum (s.pushed.filter fun p => now - oneSecond < p.timestamp) % 2 ^ 32 := by
  have hw := windowed_of_run h
  refine ⟨hw.ordered_queue, ⟨s.popped, hw.split.symm⟩, fun t ht => ?_⟩
  cases step_cases ht with
  | setDPS hd =>
      refine ⟨_, getDmgQueueSum s.dmgQ, hd, rfl, ?_⟩
      rw [toNat_getDmgQueueSum, hw.queue_eq_live (by rw [hd]; rfl)]
      rfl

/-- Two hits, of which the first has expired when the iteration looks. -/
def expiredHit : List Event :=
  [.capture (25 :: 0x52 :: 0x24 :: List.replicate 23 1), .construct 5, .setTargetRemainingHealth, .push,
    .capture (25 :: 0x52 :: 0x24 :: List.replicate 23 2), .construct 600000000, .setTargetRemainingHealth, .push,
    .expire 1500000000]

theorem sliding_window_expired_hit :
    ∃ s t, run (State.step 100 fun _ => 0) (start 0) expiredHit = some s ∧
      s.pushed.map (fun p => (p.timestamp, p.damageValue)) = [(5, 16843009), (600000000, 33686018)] ∧
      s.popped.map timestamp = [5] ∧
      s.dmgQ.Pairwise (fun p q => p.timestamp ≤ q.timestamp) ∧ s.dmgQ <:+ s.pushed ∧
      s.step 100 (fun _ => 0) .setDPS = some t ∧ ∃ now dps, s.dps = .expired now ∧
        t.fopdData = s.fopdData.setDPS dps ∧
        dps.toNat = damageSum (s.pushed.filter fun p => now - oneSecond < p.timestamp) % 2 ^ 32 := by
  have hrun : (run (State.step 100 fun _ => 0) (start 0) expiredHit).map (fun s =>
      (s.pushed.map (fun p => (p.timestamp, p.damageValue)), s.popped.map timestamp,
        (s.step 100 (fun _ => 0) .setDPS).isSome)) =
      some ([(5, 16843009), (600000000, 33686018)], [5], true) := by
    decide +kernel
  obtain ⟨s, hs, heq⟩ := Option.map_eq_some_iff.mp hrun
  obtain ⟨hpushed, hrest⟩ := Prod.ext_iff.mp heq
  obtain ⟨hpopped, hsome⟩ := Prod.ext_iff.mp hrest
  obtain ⟨t, ht⟩ := Option.isSome_iff_exists.mp hsome
  obtain ⟨ho, hsuf, hsum⟩ := sliding_window 100 (fun _ => 0) 0 expiredHit s hs
  exact ⟨s, t, hs, hpushed, hpopped, ho, hsuf, ht, hsum t ht⟩

end Fopd.SlidingWindow
