import Fopd.Statistics
import Fopd.WindowSum

namespace Fopd.Records

open Consts Memory Packet Damage Data PacketSniffer DpsMeter Threads SlidingWindow Lib Lib.Transitions

/-- The windows of the iterations that have called `setDPS`, the one under way included. -/
def reportedWindows (s : State) : List (List FiestaOnlinePacketDamage) :=
  match s.dps with
  | .reported _ => s.windows ++ [s.dmgQ]
  | _ => s.windows

/-- A call of `setDPS`: the time that its iteration has read, and all that had been pushed by then. -/
structure Report where
  now : Time
  pushed : List FiestaOnlinePacketDamage

/-- The packets pushed whose timestamps lie in the second before the report. -/
def Report.lastSecond (r : Report) : List FiestaOnlinePacketDamage :=
  r.pushed.filter fun p => r.now - oneSecond < p.timestamp

def reportOf (s : State) : Event → List Report
  | .setDPS =>
      match s.dps with
      | .expired now => [⟨now, s.pushed⟩]
      | _ => []
  | _ => []

def reports (updateDeltaMs : UInt32) (beyond : Nat → UInt8) (clock : Time) (es : List Event) : List Report :=
  outputs (State.step updateDeltaMs beyond) reportOf (start clock) es

/-- The queue of an iteration that has reported held the second before its time and nothing else. -/
structure Reported (rs : List Report) (s : State) : Prop where
  windows : reportedWindows s = rs.map Report.lastSecond
  pushed : ∀ r ∈ rs, r.pushed <+: s.pushed

namespace Reported

variable {rs : List Report} {s t : State}

theorem start (clock : Time) : Reported [] (Threads.start clock) := ⟨rfl, List.forall_mem_nil _⟩

theorem silent (h : Reported rs s) (hw : reportedWindows t = reportedWindows s) (hp : s.pushed <+: t.pushed) :
    Reported (rs ++ []) t := by
  rw [List.append_nil]
  exact ⟨hw.trans h.windows, fun r hr => (h.pushed r hr).trans hp⟩

theorem step {updateDeltaMs : UInt32} {beyond : Nat → UInt8} {e : Event} (hw : Windowed s) (h : Reported rs s)
    (hst : Step updateDeltaMs beyond s e t) : Reported (rs ++ reportOf s e) t := by
  cases hst with
  | setDPS hd =>
      have hq := hw.queue_eq_live (by rw [hd]; rfl)
      have hwindows := h.windows
      simp only [reportedWindows, reportOf, hd] at hwindows ⊢
      refine ⟨?_, List.forall_mem_append.mpr ⟨h.pushed, List.forall_mem_singleton.mpr (List.prefix_refl _)⟩⟩
      rw [reportedWindows, hwindows, hq, List.map_append]
      rfl
  | push hs hd => exact h.silent (by simp only [reportedWindows, hd]) (List.prefix_append _ _)
  | expire hc hd | finishSampling hd hc | finishCounting hd hc =>
      exact h.silent (by simp only [reportedWindows, hd]) (List.prefix_refl _)
  | capture | constructDamage | constructEntity | skip | setTargetRemainingHealth | setPing | setServerIndex =>
      exact h.silent rfl (List.prefix_refl _)

theorem mem_pushed (h : Reported rs s) {w : List FiestaOnlinePacketDamage} (hw : w ∈ reportedWindows s)
    {p : FiestaOnlinePacketDamage} (hp : p ∈ w) : p ∈ s.pushed := by
  rw [h.windows] at hw
  obtain ⟨r, hr, rfl⟩ := List.mem_map.mp hw
  exact (h.pushed r hr).subset (List.mem_of_mem_filter hp)

end Reported

theorem reported_of_run {updateDeltaMs : UInt32} {beyond : Nat → UInt8} {clock : Time} {es : List Event} {s : State}
    (h : run (State.step updateDeltaMs beyond) (start clock) es = some s) :
    Reported (reports updateDeltaMs beyond clock es) s := by
  have hinv : Windowed s ∧ Reported (reports updateDeltaMs beyond clock es) s := by
    apply run_outputs (I := fun _ rs s => Windowed s ∧ Reported rs s) ?_ ?_ h
    · exact ⟨windowed_start clock, Reported.start clock⟩
    · exact fun _ _ _ _ _ hi ht => ⟨hi.1.step (step_cases ht), hi.2.step hi.1 (step_cases ht)⟩
  exact hinv.2

/-- The store next to the windows that have been reported. -/
structure Recorded (reported : List (List FiestaOnlinePacketDamage)) (data : FOPDData) : Prop where
  dps_le : data.dps ≤ data.maxDps
  sum_le : ∀ w ∈ reported, getDmgQueueSum w ≤ data.maxDps
  maxDps : reported = [] ∧ data.maxDps = 0 ∨ ∃ w ∈ reported, data.maxDps = getDmgQueueSum w
  maxDmg : data.maxDmg = 0 ∨ ∃ w ∈ reported, ∃ p ∈ w, data.maxDmg = p.damageValue

namespace Recorded

variable {w : List FiestaOnlinePacketDamage} {reported : List (List FiestaOnlinePacketDamage)}
  {data data' : FOPDData}

theorem setDPS (h : Recorded reported data) : Recorded (reported ++ [w]) (data.setDPS (getDmgQueueSum w)) := by
  obtain ⟨hdps, hsum, hmax, hdmg⟩ := h
  rw [FOPDData.setDPS_eq]
  have hnew := Statistics.le_larger_right data.maxDps (getDmgQueueSum w)
  refine ⟨hnew, ?_, Or.inr ?_, ?_⟩
  · rw [List.forall_mem_append, List.forall_mem_singleton]
    exact ⟨fun v hv => UInt32.le_trans (hsum v hv) (Statistics.le_larger_left _ _), hnew⟩
  · by_cases hlt : getDmgQueueSum w > data.maxDps
    · exact ⟨w, List.mem_append_right _ (List.mem_singleton_self w), if_pos hlt⟩
    · rcases hmax with ⟨-, hz⟩ | ⟨v, hv, hz⟩
      · refine ⟨w, List.mem_append_right _ (List.mem_singleton_self w), ?_⟩
        have hle := UInt32.not_lt.mp hlt
        rw [hz, UInt32.le_zero_iff] at hle
        rw [if_neg hlt, hz, hle]
      · exact ⟨v, List.mem_append_left _ hv, (if_neg hlt).trans hz⟩
  · exact hdmg.imp_right fun ⟨v, hv, hp⟩ => ⟨v, List.mem_append_left _ hv, hp⟩

theorem trySetMaxDmg (h : Recorded reported data) (hw : w ∈ reported) :
    Recorded reported (data.trySetMaxDmg (getDmgQueueMax w)) := by
  refine ⟨h.dps_le, h.sum_le, h.maxDps, ?_⟩
  rw [FOPDData.trySetMaxDmg, Statistics.max_eq]
  by_cases hlt : getDmgQueueMax w > data.maxDmg
  · simp only [if_pos hlt]
    exact (getDmgQueueMax_mem w).imp_right fun hp => ⟨w, hw, hp⟩
  · simp only [if_neg hlt]
    exact h.maxDmg

theorem of_eq (h : Recorded reported data) (hd : data'.dps = data.dps)
    (hm : data'.maxDps = data.maxDps) (hx : data'.maxDmg = data.maxDmg) : Recorded reported data' := by
  obtain ⟨h₁, h₂, h₃, h₄⟩ := h
  rw [← hm] at h₁ h₂ h₃
  rw [← hd] at h₁
  rw [← hx] at h₄
  exact ⟨h₁, h₂, h₃, h₄⟩

theorem step {updateDeltaMs : UInt32} {beyond : Nat → UInt8} {s t : State} {e : Event}
    (h : Recorded (reportedWindows s) s.fopdData) (hst : Step updateDeltaMs beyond s e t) :
    Recorded (reportedWindows t) t.fopdData := by
  cases hst with
  | push hs hd =>
      simp only [reportedWindows, hd] at h ⊢
      exact h
  | expire hc hd =>
      simp only [reportedWindows, hd] at h ⊢
      exact h
  | setDPS hd =>
      simp only [reportedWindows, hd] at h ⊢
      exact h.setDPS
  | finishSampling hd hc =>
      simp only [reportedWindows, hd] at h ⊢
      exact h.trySetMaxDmg (List.mem_append_right _ (List.mem_singleton_self _))
  | finishCounting hd hc =>
      simp only [reportedWindows, hd] at h ⊢
      exact h
  | capture | constructDamage | constructEntity | skip => exact h
  | setTargetRemainingHealth | setPing => exact h.of_eq rfl rfl rfl
  | setServerIndex =>
      rw [FOPDData.setServerIndex_eq]
      exact h.of_eq rfl rfl rfl

theorem start (clock : Time) :
    Recorded (reportedWindows (Threads.start clock)) (Threads.start clock).fopdData where
  dps_le := UInt32.le_refl _
  sum_le := List.forall_mem_nil _
  maxDps := Or.inl ⟨rfl, rfl⟩
  maxDmg := Or.inl rfl

theorem maxDmg_le_maxDps (h : Recorded reported data)
    (hexact : ∀ w ∈ reported, (getDmgQueueSum w).toNat = damageSum w) : data.maxDmg ≤ data.maxDps := by
  rcases h.maxDmg with hz | ⟨w, hw, p, hp, he⟩
  · rw [hz]
    exact UInt32.zero_le
  · rw [he]
    have hle : p.damageValue ≤ getDmgQueueSum w := by
      rw [UInt32.le_iff_toNat_le, hexact w hw]
      exact le_damageSum hp
    exact UInt32.le_trans hle (h.sum_le w hw)

end Recorded

theorem recorded_of_run {updateDeltaMs : UInt32} {beyond : Nat → UInt8} {clock : Time} {es : List Event} {s : State}
    (h : run (State.step updateDeltaMs beyond) (start clock) es = some s) :
    Recorded (reportedWindows s) s.fopdData :=
  run_invariant (I := fun s => Recorded (reportedWindows s) s.fopdData) (fun _ _ _ hi ht => hi.step (step_cases ht))
    (Recorded.start clock) h

/-- The two records agree. In every state of a run in which the damage of the second before each report
fits in 32 bits, also between the two calls of an iteration, the largest hit is at most the largest sum,
which is that of the second before one of the reports, and is a hit that was pushed. -/
theorem records_agree (updateDeltaMs : UInt32) (beyond : Nat → UInt8) (clock : Time) (es : List Event)
    (s : State) (h : run (State.step updateDeltaMs beyond) (start clock) es = some s)
    (hsum : ∀ r ∈ reports updateDeltaMs beyond clock es, damageSum r.lastSecond < 2 ^ 32) :
    s.fopdData.maxDmg ≤ s.fopdData.maxDps ∧ s.fopdData.dps ≤ s.fopdData.maxDps ∧
    (reports updateDeltaMs beyond clock es = [] ∧ s.fopdData.maxDps = 0 ∨
      ∃ r ∈ reports updateDeltaMs beyond clock es, s.fopdData.maxDps.toNat = damageSum r.lastSecond) ∧
    (s.fopdData.maxDmg = 0 ∨ ∃ p ∈ s.pushed, s.fopdData.maxDmg = p.damageValue) ∧
    ∀ r ∈ reports updateDeltaMs beyond clock es, r.pushed <+: s.pushed := by
  have hreported := reported_of_run h
  have hr := recorded_of_run h
  have hexact : ∀ w ∈ reportedWindows s, (getDmgQueueSum w).toNat = damageSum w := by
    intro w hw
    rw [hreported.windows] at hw
    obtain ⟨r, hm, rfl⟩ := List.mem_map.mp hw
    exact toNat_getDmgQueueSum_eq_iff.mpr (hsum r hm)
  refine ⟨hr.maxDmg_le_maxDps hexact, hr.dps_le, ?_, hr.maxDmg.imp_right ?_, hreported.pushed⟩
  · have hmax := hr.maxDps
    rw [hreported.windows] at hmax hexact
    refine hmax.imp (And.imp_left List.map_eq_nil_iff.mp) ?_
    rintro ⟨w, hw, he⟩
    obtain ⟨r, hm, rfl⟩ := List.mem_map.mp hw
    exact ⟨r, hm, by rw [he, hexact _ hw]⟩
  · rintro ⟨w, hw, p, hp, he⟩
    exact ⟨p, hreported.mem_pushed hw hp, he⟩

/-- Two iterations, of which the second looks at the maximum. -/
def oneHit : List Event :=
  [.capture (25 :: 0x52 :: 0x24 :: List.replicate 23 1), .construct 0, .setTargetRemainingHealth, .push,
    .expire 0, .setDPS, .finish, .expire 1, .setDPS, .finish]

/-- A smaller hit, of which the iteration two seconds later reports nothing else. -/
def secondHit : List Event :=
  [.capture (25 :: 0x52 :: 0x24 :: List.replicate 13 0 ++ [7, 0, 0, 0] ++ List.replicate 6 0), .construct 1500000000,
    .setTargetRemainingHealth, .push, .expire 2000000000, .setDPS]

theorem records_agree_second_hit :
    ∃ s, run (State.step 1000 fun _ => 0) (start 0) (oneHit ++ secondHit) = some s ∧
      (reports 1000 (fun _ => 0) 0 (oneHit ++ secondHit)).map (fun r => (r.now, r.pushed.length, damageSum r.lastSecond)) =
        [(0, 1, 16843009), (1, 1, 16843009), (2000000000, 2, 7)] ∧
      s.fopdData.maxDmg ≤ s.fopdData.maxDps ∧ s.fopdData.dps ≤ s.fopdData.maxDps ∧
      (∃ r ∈ reports 1000 (fun _ => 0) 0 (oneHit ++ secondHit), s.fopdData.maxDps.toNat = damageSum r.lastSecond) ∧
      ∃ p ∈ s.pushed, s.fopdData.maxDmg = p.damageValue := by
  have hrun : (run (State.step 1000 fun _ => 0) (start 0) (oneHit ++ secondHit)).map (fun s => s.fopdData.maxDmg) =
      some 16843009 := by
    decide +kernel
  have hreports : (reports 1000 (fun _ => 0) 0 (oneHit ++ secondHit)).map
      (fun r => (r.now, r.pushed.length, damageSum r.lastSecond)) =
        [(0, 1, 16843009), (1, 1, 16843009), (2000000000, 2, 7)] := by
    decide +kernel
  obtain ⟨s, hs, hdmg⟩ := Option.map_eq_some_iff.mp hrun
  have hsum : ∀ r ∈ reports 1000 (fun _ => 0) 0 (oneHit ++ secondHit), damageSum r.lastSecond < 2 ^ 32 := by
    intro r hr
    have hm := List.mem_map_of_mem (f := fun r : Report => (r.now, r.pushed.length, damageSum r.lastSecond)) hr
    simp only [hreports, List.mem_cons, Prod.mk.injEq, List.not_mem_nil, or_false] at hm
    omega
  obtain ⟨h₁, h₂, h₃, h₄, -⟩ := records_agree 1000 (fun _ => 0) 0 (oneHit ++ secondHit) s hs hsum
  refine ⟨s, hs, hreports, h₁, h₂, h₃.resolve_left fun hn => ?_, h₄.resolve_left fun hz => ?_⟩
  · rw [hn.1] at hreports
    cases hreports
  · rw [hdmg] at hz
    exact absurd hz (by decide)

end Fopd.Records
