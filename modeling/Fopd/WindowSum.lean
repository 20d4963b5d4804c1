import Fopd.SlidingWindow
import Fopd.Sniffing

namespace Fopd.WindowSum

open Consts Memory Framing FrameTypes Packet Damage Data PacketSniffer DpsMeter Threads SlidingWindow Lib Lib.Transitions

variable {updateDeltaMs : UInt32} {beyond : Nat → UInt8} {clock : Time} {es : List Event} {s t : State} {e : Event}

/-- What holds of every packet that the constructor makes holds of all that gets into the queue. -/
theorem constructed_step {P : FiestaOnlinePacketDamage → Prop}
    (hP : ∀ now data pkt, (FiestaOnlinePacketDamage.ofVector now data beyond).result = some pkt → P pkt)
    (hs : ∀ p ∈ s.pushed ++ inHand s.sniffer, P p) (hst : Step updateDeltaMs beyond s e t) :
    ∀ p ∈ t.pushed ++ inHand t.sniffer, P p := by
  cases hst with
  | constructDamage hc hr ht hp =>
      intro p hm
      rcases List.mem_append.mp hm with hm | hm
      · exact hs p (List.mem_append_left _ hm)
      · rw [List.mem_singleton.mp hm]
        exact hP _ _ _ hp
  | setTargetRemainingHealth hr | push hr hd =>
      rw [hr] at hs
      simpa [inHand] using hs
  | capture | constructEntity | skip | expire | setDPS | finishSampling | finishCounting | setPing
  | setServerIndex => exact hs

theorem forall_pushed {P : FiestaOnlinePacketDamage → Prop}
    (hP : ∀ now data pkt, (FiestaOnlinePacketDamage.ofVector now data beyond).result = some pkt → P pkt)
    (h : run (State.step updateDeltaMs beyond) (start clock) es = some s) : ∀ p ∈ s.pushed, P p := by
  have hinv := run_invariant (I := fun s => ∀ p ∈ s.pushed ++ inHand s.sniffer, P p)
    (fun _ _ _ hs ht => constructed_step hP hs (step_cases ht)) (by simp [start, inHand]) h
  exact fun p hp => hinv p (List.mem_append_left _ hp)

theorem damageSum_lt_of_length_le {q : List FiestaOnlinePacketDamage}
    (hq : ∀ p ∈ q, p.damageValue.toNat < 1000000000) (hlen : q.length ≤ 4) : damageSum q < 2 ^ 32 := by
  have hsum : damageSum q ≤ q.length * 999999999 := damageSum_le fun p hp => Nat.le_pred_of_lt (hq p hp)
  omega

theorem le_dps_of_exact (hw : Windowed s) (hx : (getDmgQueueSum s.dmgQ).toNat = damageSum s.dmgQ)
    (ht : Step updateDeltaMs beyond s .setDPS t) : ∃ now, s.dps = .expired now ∧
      ∀ p ∈ s.pushed, now - oneSecond < p.timestamp → p.damageValue ≤ t.fopdData.dps := by
  cases ht with
  | setDPS hd =>
      refine ⟨_, hd, fun p hp hlt => ?_⟩
      have hq : p ∈ s.dmgQ := by
        rw [hw.queue_eq_live (by rw [hd]; rfl)]
        exact List.mem_filter.mpr ⟨hp, decide_eq_true hlt⟩
      rw [FOPDData.setDPS_eq, UInt32.le_iff_toNat_le]
      exact hx ▸ le_damageSum hq

/-- What the sum of the queue is worth. It is exact up to wrap-around, and exact as long as the damage
of one second fits in 32 bits, which any four packets do. Then the published value covers every hit. -/
theorem window_sum (updateDeltaMs : UInt32) (beyond : Nat → UInt8) (clock : Time) (es : List Event)
    (s : State) (h : run (State.step updateDeltaMs beyond) (start clock) es = some s) :
    (getDmgQueueSum s.dmgQ).toNat = damageSum s.dmgQ % 2 ^ 32 ∧
    (s.dmgQ.length ≤ 4 → damageSum s.dmgQ < 2 ^ 32) ∧
    ((getDmgQueueSum s.dmgQ).toNat = damageSum s.dmgQ ↔ damageSum s.dmgQ < 2 ^ 32) ∧
    (damageSum s.dmgQ < 2 ^ 32 → ∀ t, s.step updateDeltaMs beyond .setDPS = some t →
      ∃ now, s.dps = .expired now ∧
        ∀ p ∈ s.pushed, now - oneSecond < p.timestamp → p.damageValue ≤ t.fopdData.dps) := by
  have hw := windowed_of_run h
  have hcap := forall_pushed (P := fun p => p.damageValue.toNat < 1000000000)
    (fun _ _ _ => FiestaOnlinePacketDamage.damageValue_lt_of_result) h
  refine ⟨toNat_getDmgQueueSum s.dmgQ, fun hlen => ?_, toNat_getDmgQueueSum_eq_iff, fun hlt t ht => ?_⟩
  · refine damageSum_lt_of_length_le (fun p hp => hcap p ?_) hlen
    rw [hw.split]
    exact List.mem_append_right _ hp
  · exact le_dps_of_exact hw (toNat_getDmgQueueSum_eq_iff.mpr hlt) (step_cases ht)

theorem timestamp_of_mem_entries {now : Time} {i : Nat} {fs : List (List UInt8)} {p : FiestaOnlinePacketDamage}
    (hp : p ∈ entries (fun _ => now) i fs) : timestamp p = now := by
  induction fs generalizing i with
  | nil => exact absurd hp List.not_mem_nil
  | cons f fs ih =>
      rw [entries] at hp
      split at hp
      · rcases List.mem_cons.mp hp with rfl | hp
        · rfl
        · exact ih hp
      · exact ih hp

/-- Any frames with headers, captured at once, can be the window of an iteration. -/
theorem exists_window (updateDeltaMs : UInt32) (beyond : Nat → UInt8) (fs : List (List UInt8))
    (hlen : fs.flatten.length < 2 ^ 32) (hfs : ∀ f ∈ fs, HeaderFrame f) :
    ∃ es s, run (State.step updateDeltaMs beyond) (start 0) es = some s ∧ s.dps = .expired 0 ∧
      s.dmgQ = entries (fun _ => 0) 0 fs := by
  have hp := Sniffing.processPacket_completes beyond (fun _ => 0) fs []
    (by rwa [List.append_nil]) (noWrap_nil _) hfs (Or.inl rfl) (start 0).toShared
  have hclock : ∀ i, (fun _ : Nat => (0 : Time)) i ≤ (fun _ => 0) (i + 1) := fun _ => le_rfl
  have hu : Undisturbed (start 0) [] ((fun _ : Nat => (0 : Time)) 0) := ⟨rfl, rfl, rfl, le_rfl⟩
  obtain ⟨es, s, n, hs, hout, hu⟩ : ∃ es s n, run (State.step updateDeltaMs beyond) (start 0) es = some s ∧
      s.toShared = _ ∧ Undisturbed s [] _ := processPacket_run hclock hu hp.1
  have hq : s.dmgQ = entries (fun _ => 0) 0 fs := congrArg Shared.dmgQ hout
  obtain ⟨t, hst, hd, ht⟩ : ∃ t, Step updateDeltaMs beyond s (.expire 0) t ∧ t.dps = .expired 0 ∧
      t.dmgQ = popExpired (0 - oneSecond) s.dmgQ := ⟨_, .expire hu.clock hu.dps, rfl, rfl⟩
  refine ⟨es ++ [.expire 0], t, ?_, hd, ?_⟩
  · rw [run_append, hs, Option.bind_some]
    exact run_cons_eq_some.mpr ⟨t, hst.step_eq, rfl⟩
  · rw [ht, popExpired, hq]
    apply Window.dropExpired_eq_self
    intro p hp
    rw [timestamp_of_mem_entries hp]
    decide

def hugeHit : List UInt8 :=
  25 :: 0x52 :: 0x24 :: List.replicate 13 0 ++ [0xFF, 0xC9, 0x9A, 0x3B] ++ List.replicate 6 0

theorem window_sum_four_hits : ∃ es s t, run (State.step 100 fun _ => 0) (start 0) es = some s ∧
    s.step 100 (fun _ => 0) .setDPS = some t ∧ s.dmgQ.length = 4 ∧
    (getDmgQueueSum s.dmgQ).toNat = damageSum s.dmgQ ∧
    ∃ now, s.dps = .expired now ∧
      ∀ p ∈ s.pushed, now - oneSecond < p.timestamp → p.damageValue ≤ t.fopdData.dps := by
  obtain ⟨es, s, hs, hd, hq⟩ := exists_window 100 (fun _ => 0) (List.replicate 4 hugeHit)
    (by decide +kernel) (by decide +kernel)
  have hst : Step 100 (fun _ => 0) s .setDPS _ := .setDPS hd
  have hlen : s.dmgQ.length = 4 := by
    rw [hq]
    decide +kernel
  obtain ⟨-, hfour, hiff, hcover⟩ := window_sum 100 (fun _ => 0) 0 es s hs
  exact ⟨es, s, _, hs, hst.step_eq, hlen, hiff.mpr (hfour hlen.le), hcover (hfour hlen.le) _ hst.step_eq⟩

/-- Five packets with the largest damage that is let through: the published value is less than any. -/
theorem sum_wraps_at_five_hits : ∃ es s t, run (State.step 100 fun _ => 0) (start 0) es = some s ∧
    s.dmgQ = entries (fun _ => 0) 0 (List.replicate 5 hugeHit) ∧
    s.step 100 (fun _ => 0) .setDPS = some t ∧ (getDmgQueueSum s.dmgQ).toNat ≠ damageSum s.dmgQ ∧
    ∀ p ∈ s.dmgQ, t.fopdData.dps < p.damageValue := by
  obtain ⟨es, s, hs, hd, hq⟩ := exists_window 100 (fun _ => 0) (List.replicate 5 hugeHit)
    (by decide +kernel) (by decide +kernel)
  have hst : Step 100 (fun _ => 0) s .setDPS _ := .setDPS hd
  have hdmg : ∀ p ∈ s.dmgQ, p.damageValue = 999999999 := by
    rw [hq]
    decide +kernel
  have hsum : getDmgQueueSum s.dmgQ = 705032699 := by
    rw [hq]
    decide +kernel
  refine ⟨es, s, _, hs, hq, hst.step_eq, ?_, fun p hp => ?_⟩
  · rw [Ne, toNat_getDmgQueueSum_eq_iff, hq]
    decide +kernel
  · rw [FOPDData.setDPS_eq, hdmg p hp, hsum]
    exact (by decide : (705032699 : UInt32) < 999999999)

end Fopd.WindowSum
