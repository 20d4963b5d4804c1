import Fopd.Records

namespace Fopd.MaxDamage

open Consts Memory Packet Damage Data PacketSniffer DpsMeter Threads SlidingWindow Records Lib Lib.Transitions

variable (updateDeltaMs : UInt32)

def Samples (k : Nat) : Prop := (k + 1) % ((resetCount updateDeltaMs).toNat + 1) = 0

def Sampled (windows : List (List FiestaOnlinePacketDamage)) (pkt : FiestaOnlinePacketDamage) : Prop :=
  ∃ k w, windows[k]? = some w ∧ Samples updateDeltaMs k ∧ pkt ∈ w

/-- The counter knows the number of iterations up to the period, and the maximum is that of the
packets found by the iterations that looked. -/
structure Sampling (s : State) : Prop where
  count : s.count.toNat = s.windows.length % ((resetCount updateDeltaMs).toNat + 1)
  maxDmg : ∀ c, c ≤ s.fopdData.maxDmg ↔
    c = 0 ∨ ∃ pkt, Sampled updateDeltaMs s.windows pkt ∧ c ≤ pkt.damageValue

def NoHitMissed (s : State) : Prop := ∀ p ∈ s.popped, p.damageValue ≤ s.fopdData.maxDmg

/-- A packet leaves the queue only if it did no damage, or if an iteration that looked at the maximum
has found it, or one that did at least as much damage, in the queue. -/
def ExpiresSampled (s : State) : Event → Prop
  | .expire now => ∀ p ∈ s.dmgQ, p.timestamp ≤ now - oneSecond →
      p.damageValue = 0 ∨ ∃ q, Sampled updateDeltaMs s.windows q ∧ p.damageValue ≤ q.damageValue
  | _ => True

variable {updateDeltaMs}

theorem sampled_nil {pkt : FiestaOnlinePacketDamage} : ¬ Sampled updateDeltaMs [] pkt := by
  rintro ⟨k, w, hk, -⟩
  simp at hk

theorem sampled_append {windows : List (List FiestaOnlinePacketDamage)} {w : List FiestaOnlinePacketDamage}
    {pkt : FiestaOnlinePacketDamage} : Sampled updateDeltaMs (windows ++ [w]) pkt ↔
      Sampled updateDeltaMs windows pkt ∨ Samples updateDeltaMs windows.length ∧ pkt ∈ w := by
  constructor
  · rintro ⟨k, v, hk, hs, hp⟩
    rw [List.getElem?_append] at hk
    split at hk
    next hlt => exact Or.inl ⟨k, v, hk, hs, hp⟩
    next hge =>
      rw [List.getElem?_singleton, Option.ite_none_right_eq_some] at hk
      obtain ⟨hk0, hv⟩ := hk
      obtain rfl := Option.some.inj hv
      have hkl : k = windows.length := by omega
      exact Or.inr ⟨hkl ▸ hs, hp⟩
  · rintro (⟨k, v, hk, hs, hp⟩ | ⟨hs, hp⟩)
    · refine ⟨k, v, ?_, hs, hp⟩
      rw [List.getElem?_append_left (List.getElem?_eq_some_iff.mp hk).1, hk]
    · exact ⟨windows.length, w, by simp, hs, hp⟩

theorem samples_iff {k : Nat} : Samples updateDeltaMs k ↔
    k % ((resetCount updateDeltaMs).toNat + 1) = (resetCount updateDeltaMs).toNat :=
  Nat.succ_mod_succ_eq_zero_iff

theorem count_succ {k : Nat} (h : ¬ Samples updateDeltaMs k) :
    (k + 1) % ((resetCount updateDeltaMs).toNat + 1) = k % ((resetCount updateDeltaMs).toNat + 1) + 1 := by
  rw [samples_iff] at h
  have hlt := Nat.mod_lt k (by omega : 0 < (resetCount updateDeltaMs).toNat + 1)
  rw [← Nat.mod_add_mod, Nat.mod_eq_of_lt (by omega)]

namespace Sampling

variable {s t : State} {beyond : Nat → UInt8} {e : Event}

theorem start (clock : Time) : Sampling updateDeltaMs (Threads.start clock) where
  count := (Nat.zero_mod _).symm
  maxDmg c := by
    have hn : ¬ ∃ pkt, Sampled updateDeltaMs [] pkt ∧ c ≤ pkt.damageValue := fun ⟨_, hp, _⟩ => sampled_nil hp
    simp only [Threads.start, hn, or_false]
    exact UInt32.le_zero_iff

theorem count_eq_iff (h : Sampling updateDeltaMs s) :
    s.count = resetCount updateDeltaMs ↔ Samples updateDeltaMs s.windows.length := by
  rw [samples_iff, ← h.count, UInt32.toNat_inj]

theorem finishSampling (h : Sampling updateDeltaMs s) (hc : s.count = resetCount updateDeltaMs) :
    Sampling updateDeltaMs { s with
      fopdData := s.fopdData.trySetMaxDmg (getDmgQueueMax s.dmgQ)
      windows := s.windows ++ [s.dmgQ]
      dps := .sleeping
      count := 0 } := by
  have hs := h.count_eq_iff.mp hc
  constructor
  · rw [List.length_append, List.length_singleton]
    exact hs.symm
  · intro c
    simp only [FOPDData.trySetMaxDmg, le_max_iff, h.maxDmg, le_getDmgQueueMax_iff, sampled_append, hs,
      true_and, or_and_right, exists_or]
    exact or_or_distrib_left.symm

theorem finishCounting (h : Sampling updateDeltaMs s) (hc : s.count ≠ resetCount updateDeltaMs) :
    Sampling updateDeltaMs { s with
      windows := s.windows ++ [s.dmgQ], dps := .sleeping, count := s.count + 1 } := by
  have hs := mt h.count_eq_iff.mpr hc
  constructor
  · have hlt := (resetCount updateDeltaMs).toNat_lt
    have hm := Nat.mod_lt s.windows.length (by omega : 0 < (resetCount updateDeltaMs).toNat + 1)
    have hne : s.count.toNat ≠ (resetCount updateDeltaMs).toNat := fun he => hc (UInt32.toNat_inj.mp he)
    rw [List.length_append, List.length_singleton, count_succ hs, ← h.count, UInt32.toNat_add,
      UInt32.toNat_one, Nat.mod_eq_of_lt]
    have := h.count
    omega
  · intro c
    simp only [sampled_append, hs, false_and, or_false]
    exact h.maxDmg c

theorem step (h : Sampling updateDeltaMs s) (hst : Step updateDeltaMs beyond s e t) :
    Sampling updateDeltaMs t := by
  cases hst with
  | finishSampling hd hc => exact h.finishSampling hc
  | finishCounting hd hc => exact h.finishCounting hc
  | setDPS hd => exact ⟨h.count, by simpa only [FOPDData.maxDmg_setDPS] using h.maxDmg⟩
  | setServerIndex => exact ⟨h.count, by simpa only [FOPDData.maxDmg_setServerIndex] using h.maxDmg⟩
  | capture | constructDamage | constructEntity | skip | setTargetRemainingHealth | push | expire | setPing =>
      exact ⟨h.count, h.maxDmg⟩

end Sampling

theorem noHitMissed_step {s t : State} {beyond : Nat → UInt8} {e : Event} (hw : Windowed s)
    (hs : Sampling updateDeltaMs s) (hP : NoHitMissed s) (hst : Step updateDeltaMs beyond s e t) :
    NoHitMissed t ↔ ExpiresSampled updateDeltaMs s e := by
  cases hst with
  | expire hc hd =>
      constructor
      · intro h p hp hle
        rw [← hs.maxDmg]
        exact h p (List.mem_append_right _ (hw.ordered_queue.mem_takeExpired_iff.mpr ⟨hp, hle⟩))
      · intro h p hp
        rcases List.mem_append.mp hp with hp | hp
        · exact hP p hp
        · obtain ⟨hq, hle⟩ := hw.ordered_queue.mem_takeExpired_iff.mp hp
          exact (hs.maxDmg _).mpr (h p hq hle)
  | finishSampling hd hc => exact iff_of_true (fun p hp => le_max_iff.mpr (Or.inl (hP p hp))) trivial
  | setDPS hd =>
      refine iff_of_true (fun p hp => ?_) trivial
      rw [FOPDData.maxDmg_setDPS]
      exact hP p hp
  | setServerIndex =>
      refine iff_of_true (fun p hp => ?_) trivial
      rw [FOPDData.maxDmg_setServerIndex]
      exact hP p hp
  | capture | constructDamage | constructEntity | skip | setTargetRemainingHealth | push | finishCounting
  | setPing => exact iff_of_true hP trivial

/-- The maximum covers every packet that has left the queue, in all states of a run, exactly when no
packet leaves the queue before an iteration has looked at it or at one as large. -/
theorem no_hit_missed_iff (updateDeltaMs : UInt32) (beyond : Nat → UInt8) (clock : Time)
    (es : List Event) :
    (∀ es₁ es₂ s, es = es₁ ++ es₂ → run (State.step updateDeltaMs beyond) (start clock) es₁ = some s →
      ∀ p ∈ s.popped, p.damageValue ≤ s.fopdData.maxDmg) ↔
      Along (State.step updateDeltaMs beyond) (ExpiresSampled updateDeltaMs) (start clock) es := by
  have hstart : NoHitMissed (start clock) := by simp [NoHitMissed, start]
  rw [← throughout_iff_along (I := fun s => Windowed s ∧ Sampling updateDeltaMs s)
    (fun s e t hI ht => ⟨hI.1.step (step_cases ht), hI.2.step (step_cases ht)⟩)
    (fun s e t hI hP ht => noHitMissed_step hI.1 hI.2 hP (step_cases ht))
    ⟨windowed_start clock, Sampling.start clock⟩ hstart es, throughout_iff]
  rfl

/-- The condition in times: an iteration that looks at the maximum reports less than a second after the packet, or
after one that did at least as much damage. -/
theorem expiresSampled_iff_reports {beyond : Nat → UInt8} {clock : Time} {es : List Event} {s t : State} {now : Time}
    (h : run (State.step updateDeltaMs beyond) (start clock) es = some s)
    (ht : s.step updateDeltaMs beyond (.expire now) = some t) :
    ExpiresSampled updateDeltaMs s (.expire now) ↔ ∀ p ∈ s.dmgQ, p.timestamp ≤ now - oneSecond →
      p.damageValue = 0 ∨ ∃ k r, (reports updateDeltaMs beyond clock es)[k]? = some r ∧ Samples updateDeltaMs k ∧
        ∃ q ∈ r.pushed, r.now - oneSecond < q.timestamp ∧ p.damageValue ≤ q.damageValue := by
  have hwindows : s.windows = (reports updateDeltaMs beyond clock es).map Report.lastSecond := by
    have hreported := (reported_of_run h).windows
    cases step_cases ht with
    | expire hc hd => rwa [reportedWindows, hd] at hreported
  have hsampled : ∀ q, Sampled updateDeltaMs s.windows q ↔ ∃ k r, (reports updateDeltaMs beyond clock es)[k]? = some r ∧
      Samples updateDeltaMs k ∧ q ∈ r.pushed ∧ r.now - oneSecond < q.timestamp := by
    intro q
    simp only [Sampled, hwindows, List.getElem?_map, Option.map_eq_some_iff]
    constructor
    · rintro ⟨k, w, ⟨r, hr, rfl⟩, hk, hq⟩
      obtain ⟨hm, hlt⟩ := List.mem_filter.mp hq
      exact ⟨k, r, hr, hk, hm, of_decide_eq_true hlt⟩
    · rintro ⟨k, r, hr, hk, hm, hlt⟩
      exact ⟨k, r.lastSecond, ⟨r, hr, rfl⟩, hk, List.mem_filter.mpr ⟨hm, decide_eq_true hlt⟩⟩
  refine forall₂_congr fun p _ => imp_congr_right fun _ => or_congr_right ?_
  constructor
  · rintro ⟨q, hq, hle⟩
    obtain ⟨k, r, hr, hk, hm, hlt⟩ := (hsampled q).mp hq
    exact ⟨k, r, hr, hk, q, hm, hlt, hle⟩
  · rintro ⟨k, r, hr, hk, q, hm, hlt, hle⟩
    exact ⟨q, (hsampled q).mpr ⟨k, r, hr, hk, hm, hlt⟩, hle⟩

def iterationTimes (es : List Event) : List Time :=
  es.filterMap fun | .expire now => some now | _ => none

def Paced (updateDeltaMs : UInt32) (es : List Event) : Prop :=
  (iterationTimes es).IsChain fun now next : Time => now + updateDeltaMs.toNat * 1000000 ≤ next

instance (updateDeltaMs : UInt32) (es : List Event) : Decidable (Paced updateDeltaMs es) :=
  inferInstanceAs (Decidable
    (List.IsChain (fun now next : Time => now + updateDeltaMs.toNat * 1000000 ≤ next) _))

/-- A hit just before the first of eleven iterations at the default pace: the eleventh is the first
one to look at the maximum, but it removes the hit before it looks. -/
theorem hit_missed_at_default_pace :
    ∃ es, es = [.capture (25 :: 0x52 :: 0x24 :: List.replicate 23 1), .construct 0,
        .setTargetRemainingHealth, .push] ++
        (List.range 11).flatMap (fun k => [.expire (k * 100000000), .setDPS, .finish]) ∧
      Paced 100 es ∧ ∃ s ∈ run (State.step 100 fun _ => 0) (start 0) es,
        ∃ p ∈ s.popped, ¬ p.damageValue ≤ s.fopdData.maxDmg :=
  ⟨_, rfl, by decide, by decide +kernel⟩

end Fopd.MaxDamage
