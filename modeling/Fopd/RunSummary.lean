import Fopd.Doubles
import Fopd.Lib.Periodic
import Fopd.MaxDamage
import Fopd.Records

namespace Fopd.RunSummary

open Consts Memory Packet Damage Data Statistics PacketSniffer DpsMeter Threads SlidingWindow WindowSum MaxDamage
open Records Doubles Lib Lib.Mean Lib.Double Lib.Periodic Lib.Transitions

def pings (es : List Event) : List UInt32 := es.filterMap fun | .setPing ping => some ping | _ => none

def serverIndexes (es : List Event) : List UInt64 :=
  es.filterMap fun | .setServerIndex serverIndex => some serverIndex | _ => none

/-- The packets whose health has been stored, the one that waits for the queue included. -/
def published (s : State) : List FiestaOnlinePacketDamage :=
  match s.sniffer with
  | .published pkt => s.pushed ++ [pkt]
  | _ => s.pushed

variable (updateDeltaMs : UInt32)

/-- The windows whose maximum has been looked at. -/
def sampledWindows (windows : List (List FiestaOnlinePacketDamage)) : List (List FiestaOnlinePacketDamage) :=
  every ((resetCount updateDeltaMs).toNat + 1) (windows.drop (resetCount updateDeltaMs).toNat)

/-- What the threads have told the store. -/
def history (es : List Event) (s : State) : Arguments where
  dps := (reportedWindows s).map getDmgQueueSum
  pings := pings es
  healths := (published s).map FiestaOnlinePacketDamage.targetRemainingHealth
  serverIndexes := serverIndexes es
  damages := (sampledWindows updateDeltaMs s.windows).map getDmgQueueMax

variable {updateDeltaMs}

section Windows

variable {windows : List (List FiestaOnlinePacketDamage)} {w : List FiestaOnlinePacketDamage}

theorem sampledWindows_append_of_samples (h : Samples updateDeltaMs windows.length) :
    sampledWindows updateDeltaMs (windows ++ [w]) = sampledWindows updateDeltaMs windows ++ [w] := by
  rw [sampledWindows, every_drop_append (Nat.lt_succ_self _), if_pos (samples_iff.mp h), ← sampledWindows]

theorem sampledWindows_append_of_not_samples (h : ¬ Samples updateDeltaMs windows.length) :
    sampledWindows updateDeltaMs (windows ++ [w]) = sampledWindows updateDeltaMs windows := by
  rw [sampledWindows, every_drop_append (Nat.lt_succ_self _), if_neg (mt samples_iff.mpr h), List.append_nil,
    ← sampledWindows]

end Windows

/-- The calls of the setters that a step makes. -/
def callOf (updateDeltaMs : UInt32) (s : State) : Event → List Call
  | .setTargetRemainingHealth =>
      match s.sniffer with
      | .constructed pkt => [.setTargetRemainingHealth pkt.targetRemainingHealth]
      | _ => []
  | .setDPS => [.setDPS (getDmgQueueSum s.dmgQ)]
  | .finish => if s.count = resetCount updateDeltaMs then [.trySetMaxDmg (getDmgQueueMax s.dmgQ)] else []
  | .setPing ping => [.setPing ping]
  | .setServerIndex serverIndex => [.setServerIndex serverIndex]
  | .capture _ | .construct _ | .push | .expire _ => []

def callsOf (updateDeltaMs : UInt32) (beyond : Nat → UInt8) (clock : Time) (es : List Event) : List Call :=
  outputs (State.step updateDeltaMs beyond) (callOf updateDeltaMs) (start clock) es

/-- The store is what the calls have made of it, and the counter of the dps thread knows when to look at the
maximum. -/
structure Told (updateDeltaMs : UInt32) (es : List Event) (cs : List Call) (s : State) : Prop where
  sampling : Sampling updateDeltaMs s
  store : s.fopdData = calls {} cs
  arguments : arguments cs = history updateDeltaMs es s

namespace Told

variable {es : List Event} {cs : List Call} {s t : State} {e : Event}

theorem start (clock : Time) : Told updateDeltaMs [] [] (start clock) where
  sampling := Sampling.start clock
  store := rfl
  arguments := by
    have hn : sampledWindows updateDeltaMs [] = [] := by
      rw [sampledWindows, List.drop_nil]
      rfl
    rw [history, Threads.start, hn]
    rfl

theorem summary (h : Told updateDeltaMs es cs s) : Summary s.fopdData (history updateDeltaMs es s) := by
  rw [h.store, ← h.arguments]
  exact summary_calls cs

theorem call (h : Told updateDeltaMs es cs s) (ht : Sampling updateDeltaMs t) (c : Call)
    (hd : t.fopdData = Statistics.call s.fopdData c)
    (ha : history updateDeltaMs (es ++ [e]) t = (history updateDeltaMs es s).add c) :
    Told updateDeltaMs (es ++ [e]) (cs ++ [c]) t where
  sampling := ht
  store := by
    rw [hd, h.store, calls_append]
    rfl
  arguments := by rw [arguments_append, h.arguments, ha]

theorem silent (h : Told updateDeltaMs es cs s) (ht : Sampling updateDeltaMs t) (hd : t.fopdData = s.fopdData)
    (ha : history updateDeltaMs (es ++ [e]) t = history updateDeltaMs es s) :
    Told updateDeltaMs (es ++ [e]) (cs ++ []) t where
  sampling := ht
  store := by rw [hd, h.store, List.append_nil]
  arguments := by rw [ha, List.append_nil, h.arguments]

theorem step {beyond : Nat → UInt8} (h : Told updateDeltaMs es cs s) (hst : Step updateDeltaMs beyond s e t) :
    Told updateDeltaMs (es ++ [e]) (cs ++ callOf updateDeltaMs s e) t := by
  have ht := h.sampling.step hst
  cases hst with
  | @setTargetRemainingHealth pkt hr =>
      rw [callOf, hr]
      apply h.call ht (.setTargetRemainingHealth pkt.targetRemainingHealth) rfl
      simp [history, published, reportedWindows, pings, serverIndexes, Arguments.add, hr]
  | setDPS hd =>
      apply h.call ht (.setDPS (getDmgQueueSum s.dmgQ)) rfl
      simp [history, published, reportedWindows, pings, serverIndexes, Arguments.add, hd]
  | finishSampling hd hc =>
      have hw := sampledWindows_append_of_samples (w := s.dmgQ) (h.sampling.count_eq_iff.mp hc)
      rw [callOf, if_pos hc]
      apply h.call ht (.trySetMaxDmg (getDmgQueueMax s.dmgQ)) rfl
      simp [history, published, reportedWindows, pings, serverIndexes, Arguments.add, hd, hw]
  | finishCounting hd hc =>
      have hw := sampledWindows_append_of_not_samples (w := s.dmgQ) (mt h.sampling.count_eq_iff.mpr hc)
      rw [callOf, if_neg hc]
      apply h.silent ht rfl
      simp [history, published, reportedWindows, pings, serverIndexes, hd, hw]
  | push hr hd =>
      apply h.silent ht rfl
      simp [history, published, reportedWindows, pings, serverIndexes, hr, hd]
  | expire hc hd =>
      apply h.silent ht rfl
      simp [history, published, reportedWindows, pings, serverIndexes, hd]
  | @setPing ping =>
      apply h.call ht (.setPing ping) rfl
      simp [history, published, reportedWindows, pings, serverIndexes, Arguments.add]
  | @setServerIndex serverIndex =>
      apply h.call ht (.setServerIndex serverIndex) rfl
      simp [history, published, reportedWindows, pings, serverIndexes, Arguments.add]
  | constructDamage hc hr htodo hp =>
      apply h.silent ht rfl
      simp [history, published, reportedWindows, pings, serverIndexes, hr]
  | capture | constructEntity | skip =>
      apply h.silent ht rfl
      simp [history, published, reportedWindows, pings, serverIndexes]

end Told

section Runs

variable {beyond : Nat → UInt8} {clock : Time} {es : List Event} {s : State}

theorem told_of_run (h : run (State.step updateDeltaMs beyond) (start clock) es = some s) :
    Told updateDeltaMs es (callsOf updateDeltaMs beyond clock es) s :=
  run_outputs (Told.start clock) (fun _ _ _ _ _ ht hst => ht.step (step_cases hst)) h

/-- How far the two averages are, in `double`, from the exact ones. -/
theorem doubles_of_run (h : run (State.step updateDeltaMs beyond) (start clock) es = some s) :
    ((reportedWindows s).length < 2 ^ 32 →
      ∃ x, HasValue (({} : FOPDDoubles).calls (callsOf updateDeltaMs beyond clock es)).averageDps x ∧
        |x - s.fopdData.averageDps| ≤ ((reportedWindows s).length + 3) * (s.fopdData.maxDps.toNat / 2 ^ 53)) ∧
    ∃ x, HasValue (({} : FOPDDoubles).calls (callsOf updateDeltaMs beyond clock es)).getDPSRollingAverage x ∧
      |x - s.fopdData.getDPSRollingAverage| ≤ 53 * (s.fopdData.maxDps.toNat / 2 ^ 53) := by
  have ht := told_of_run h
  have hlen : (arguments (callsOf updateDeltaMs beyond clock es)).dps.length = (reportedWindows s).length := by
    rw [ht.arguments, history, List.length_map]
  rw [ht.store, ← hlen]
  exact ⟨averageDps_error _, rollingAverage_error _⟩

end Runs

/-- The store in every state of a run. The windows that the iterations have reported are the last seconds at
their times, and each field is what it should be of their sums, which are modulo 2^32, and of what the other
threads did; the two averages are so up to the rounding of the calculation in `double`. -/
theorem store_of_run (updateDeltaMs : UInt32) (beyond : Nat → UInt8) (clock : Time) (es : List Event)
    (s : State) (h : run (State.step updateDeltaMs beyond) (start clock) es = some s) :
    reportedWindows s = (reports updateDeltaMs beyond clock es).map Report.lastSecond ∧
    (∀ r ∈ reports updateDeltaMs beyond clock es, r.pushed <+: s.pushed) ∧
    (∀ w ∈ reportedWindows s, (getDmgQueueSum w).toNat = damageSum w % 2 ^ 32) ∧
    s.fopdData = calls {} (callsOf updateDeltaMs beyond clock es) ∧
    s.fopdData.dps = ((reportedWindows s).map getDmgQueueSum).getLastD 0 ∧
    IsMaximum s.fopdData.maxDps ((reportedWindows s).map getDmgQueueSum) ∧
    ((reportedWindows s).length < 2 ^ 32 →
      ∃ x, HasValue (({} : FOPDDoubles).calls (callsOf updateDeltaMs beyond clock es)).averageDps x ∧
        |x - mean (samples ((reportedWindows s).map getDmgQueueSum))| ≤
          ((reportedWindows s).length + 3) * (s.fopdData.maxDps.toNat / 2 ^ 53)) ∧
    (∃ x, HasValue (({} : FOPDDoubles).calls (callsOf updateDeltaMs beyond clock es)).getDPSRollingAverage x ∧
      |x - (samples (Ring.recent 50 ((reportedWindows s).map getDmgQueueSum))).sum / 50| ≤
        53 * (s.fopdData.maxDps.toNat / 2 ^ 53)) ∧
    IsMaximum s.fopdData.maxDmg ((sampledWindows updateDeltaMs s.windows).map getDmgQueueMax) ∧
    s.fopdData.targetRemainingHealth =
      ((published s).map FiestaOnlinePacketDamage.targetRemainingHealth).getLastD 0 ∧
    s.fopdData.ping = (pings es).getLastD 0 ∧
    s.fopdData.serverIndex = (knownServers (serverIndexes es)).getLastD 0 := by
  have hreported := reported_of_run h
  have ht := told_of_run h
  have hs := ht.summary
  obtain ⟨haverage, hrolling⟩ := doubles_of_run h
  have hmean := hs.averageDps
  have hsum := RollingAverage.rollingAverage_eq_sum_recent hs
  simp only [history, List.length_map] at hmean hsum
  rw [hsum] at hrolling
  refine ⟨hreported.windows, hreported.pushed, fun w _ => toNat_getDmgQueueSum w, ht.store, hs.dps, hs.maxDps,
    fun hlt => ?_, hrolling, hs.maxDmg, hs.targetRemainingHealth, hs.ping, hs.serverIndex⟩
  rw [← hmean hlt]
  exact haverage hlt

/-- The hit is reported twice, then it has expired. -/
def expiredHit : List Event := oneHit ++ [.setPing 23, .expire 2000000000, .setDPS, .finish]

theorem store_of_run_expired_hit : ∃ s, run (State.step 1000 fun _ => 0) (start 0) expiredHit = some s ∧
    (reportedWindows s).map getDmgQueueSum = [16843009, 16843009, 0] ∧ s.fopdData.dps = 0 ∧
    IsMaximum s.fopdData.maxDps [16843009, 16843009, 0] ∧
    (∃ x, HasValue (({} : FOPDDoubles).calls (callsOf 1000 (fun _ => 0) 0 expiredHit)).averageDps x ∧
      |x - mean (samples [16843009, 16843009, 0])| ≤ (3 + 3) * (s.fopdData.maxDps.toNat / 2 ^ 53)) ∧
    s.fopdData.ping = 23 := by
  have hrun : (run (State.step 1000 fun _ => 0) (start 0) expiredHit).map (fun s =>
      (reportedWindows s).map getDmgQueueSum) = some [16843009, 16843009, 0] := by
    decide +kernel
  obtain ⟨s, hs, hw⟩ := Option.map_eq_some_iff.mp hrun
  obtain ⟨-, -, -, -, hdps, hmax, haverage, -, -, -, hping, -⟩ := store_of_run 1000 (fun _ => 0) 0 expiredHit s hs
  have hlen : (reportedWindows s).length = 3 := by
    rw [← List.length_map getDmgQueueSum, hw]
    rfl
  rw [hw] at hdps hmax haverage
  have hx := haverage (by rw [hlen]; norm_num)
  rw [hlen] at hx
  exact ⟨s, hs, hw, hdps, hmax, hx, hping⟩

end Fopd.RunSummary
