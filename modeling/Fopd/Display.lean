import Fopd.LockRefinement
import Fopd.Pipeline

namespace Fopd.Display

open Consts Packet Damage Data Statistics DpsMeter Methods Locks LockRefinement RunSummary Records Sniffing Pipeline
open Lib Lib.Mean Lib.Critical Lib.Transitions

/-- What a getter can return for these hits, when the sum of a second has been reported this often, with the
averages in exact arithmetic. The ping and the server have nothing to do with the hits. -/
def Shows (hits : List (Nat × Nat)) (reports : Nat) : Getter → Value → Prop
  | .getDPS, v | .getMaxDPS, v => ∃ sum, v = .uint32 sum ∧ IsStretchSum hits sum
  | .getMaxDmg, v => ∃ damage, v = .uint32 damage ∧ (damage = 0 ∨ damage.toNat ∈ hits.map Prod.fst)
  | .getTargetRemainingHealth, v => ∃ health, v = .uint32 health ∧ (health = 0 ∨ health.toNat ∈ hits.map Prod.snd)
  | .getDPSAverage, v => reports + 1 < 2 ^ 32 → ∃ sums, sums.length ≤ reports + 1 ∧
      (∀ sum ∈ sums, IsStretchSum hits sum) ∧ v = .double (mean (samples sums))
  | .getDPSRollingAverage, v => ∃ sums, sums.length ≤ 50 ∧ (∀ sum ∈ sums, IsStretchSum hits sum) ∧
      v = .double ((samples sums).sum / 50)
  | .getPing, _ | .getServerIndex, _ => True

section Hits

variable {hits hits' : List (Nat × Nat)} {reports reports' : Nat} {sum : UInt32}

theorem isStretchSum_mono (h : IsStretchSum hits sum) (hp : hits <+: hits') : IsStretchSum hits' sum := by
  obtain ⟨stretch, hs, he⟩ := h
  exact ⟨stretch, hs.trans hp.isInfix, he⟩

/-- More hits and more reports leave what has been returned as good as it was. -/
theorem Shows.mono {getter : Getter} {v : Value} (h : Shows hits reports getter v) (hp : hits <+: hits')
    (hr : reports ≤ reports') : Shows hits' reports' getter v := by
  cases getter with
  | getDPS | getMaxDPS =>
      obtain ⟨sum, hv, hs⟩ := h
      exact ⟨sum, hv, isStretchSum_mono hs hp⟩
  | getMaxDmg =>
      obtain ⟨damage, hv, hd⟩ := h
      exact ⟨damage, hv, hd.imp_right fun hm => (hp.map Prod.fst).subset hm⟩
  | getTargetRemainingHealth =>
      obtain ⟨health, hv, hd⟩ := h
      exact ⟨health, hv, hd.imp_right fun hm => (hp.map Prod.snd).subset hm⟩
  | getDPSAverage =>
      intro hlt
      obtain ⟨sums, hlen, hs, hv⟩ := h (by omega)
      exact ⟨sums, by omega, fun sum hm => isStretchSum_mono (hs sum hm) hp, hv⟩
  | getDPSRollingAverage =>
      obtain ⟨sums, hlen, hs, hv⟩ := h
      exact ⟨sums, hlen, fun sum hm => isStretchSum_mono (hs sum hm) hp, hv⟩
  | getPing | getServerIndex => trivial

end Hits

section Threads

variable {updateDeltaMs : UInt32} {beyond : Nat → UInt8} {clock : Time} {captures : List Capture}
  {es : List Threads.Event} {s : Threads.State}

theorem length_reportedWindows (s : Threads.State) : (reportedWindows s).length ≤ s.windows.length + 1 := by
  rw [reportedWindows]
  cases s.dps <;> simp

/-- A getter that is called between the steps of the threads. -/
theorem shows_of_run (h : run (Threads.State.step updateDeltaMs beyond) (Threads.start clock) es = some s)
    (hp : Pipeline.payloads es = captures.map Capture.payload) (getter : Getter) :
    Shows (told (captures.flatMap Capture.frames)) s.windows.length getter (getter.value s.fopdData) := by
  have hc := conserved_of_run h hp
  have ht := told_of_run h
  obtain ⟨hdps, hmaxDps, hmaxDmg⟩ := hc.store h
  have hsums : ∀ sum ∈ (reportedWindows s).map getDmgQueueSum, IsStretchSum _ sum :=
    fun sum hm => hc.isStretchSum (SlidingWindow.windowed_of_run h) (reported_of_run h) hm
  have hreports := length_reportedWindows s
  cases getter with
  | getDPS => exact ⟨_, rfl, hdps⟩
  | getMaxDPS => exact ⟨_, rfl, hmaxDps⟩
  | getMaxDmg => exact ⟨_, rfl, hmaxDmg⟩
  | getTargetRemainingHealth =>
      obtain ⟨n, -, -, hn⟩ := hc.published_take
      have hhealth : s.fopdData.targetRemainingHealth =
          ((published s).map FiestaOnlinePacketDamage.targetRemainingHealth).getLastD 0 :=
        ht.summary.targetRemainingHealth
      refine ⟨_, rfl, ?_⟩
      rw [FOPDData.getTargetRemainingHealth, hhealth]
      rcases List.mem_cons.mp List.getLastD_mem_cons with hz | hm
      · exact Or.inl hz
      · obtain ⟨pkt, hpkt, he⟩ := List.mem_map.mp hm
        have hv : values pkt ∈ told (captures.flatMap Capture.frames) :=
          List.mem_of_mem_take (hn ▸ List.mem_map_of_mem hpkt)
        rw [← he]
        exact Or.inr (List.mem_map_of_mem (f := Prod.snd) hv)
  | getDPSAverage =>
      intro hlt
      have haverage := ht.summary.averageDps
      simp only [history, List.length_map] at haverage
      exact ⟨_, by rwa [List.length_map], hsums, congrArg Value.double (haverage (by omega))⟩
  | getDPSRollingAverage =>
      have hrolling := RollingAverage.rollingAverage_eq_sum_recent ht.summary
      refine ⟨Ring.recent rollingAveragePointCount ((reportedWindows s).map getDmgQueueSum), ?_,
        fun sum hm => hsums sum (List.mem_of_mem_drop hm), congrArg Value.double hrolling⟩
      rw [Ring.length_recent]
      exact Nat.min_le_right _ _
  | getPing | getServerIndex => trivial

end Threads

section Reads

variable {updateDeltaMs : UInt32} {beyond : Nat → UInt8} {clock : Time} {t u : Client × FOPDData} {e : Event}

theorem told_mono (fs gs : List (List UInt8)) : told fs <+: told (fs ++ gs) := by
  rw [told_append]
  exact List.prefix_append _ _

/-- An event adds at most one value to those that have been returned, that of the store as it is. -/
theorem reads_step (h : (program updateDeltaMs beyond).atomic t e = some u) :
    t.1.windows.length ≤ u.1.windows.length ∧
      ∀ r ∈ u.1.reads, r ∈ t.1.reads ∨ r.result = r.getter.value t.2 := by
  obtain ⟨c, data⟩ := t
  obtain ⟨a, ha, rfl⟩ := Option.map_eq_some_iff.mp h
  cases enabled_of_access ha with
  | get | snifferGetServerIndex | pingGetServerIndex =>
      rw [outcome_get]
      refine ⟨le_rfl, fun r hr => ?_⟩
      rcases List.mem_append.mp hr with hr | hr
      · exact Or.inl hr
      · rw [List.mem_singleton.mp hr]
        exact Or.inr rfl
  | trySetMaxDmg | setTargetRemainingHealth | setDPS | setPing | setServerIndex =>
      rw [outcome_set]
      exact ⟨by simp, fun r hr => Or.inl hr⟩
  | _ => exact ⟨by simp [Access.outcome], fun r hr => Or.inl hr⟩

theorem payloads_eq (es : List Threads.Event) : Pipeline.payloads es = es.filterMap payloadOfThreads := by
  rw [Pipeline.payloads]
  congr 1

theorem reads_of_atomic {es : List Event}
    (h : run (program updateDeltaMs beyond).atomic ({ clock := clock }, {}) es = some t)
    {captures : List Capture} (hp : es.filterMap payloadOf = captures.map Capture.payload) :
    ∀ r ∈ t.1.reads, Shows (told (captures.flatMap Capture.frames)) t.1.windows.length r.getter r.result := by
  have hinv := run_induction (I := fun es t =>
    run (program updateDeltaMs beyond).atomic ({ clock := clock }, {}) es = some t ∧
      ∀ captures : List Capture, es.filterMap payloadOf = captures.map Capture.payload →
        ∀ r ∈ t.1.reads, Shows (told (captures.flatMap Capture.frames)) t.1.windows.length r.getter r.result) ?_ ?_ h
  · exact hinv.2 captures hp
  · exact ⟨rfl, fun _ _ => List.forall_mem_nil _⟩
  · rintro es t e u ⟨ht, ih⟩ hst
    refine ⟨by rw [run_append, ht, Option.bind_some]; exact run_cons_eq_some.mpr ⟨u, hst, rfl⟩, ?_⟩
    intro captures hp r hr
    rw [List.filterMap_append] at hp
    obtain ⟨cs, cs', rfl, hpre, -⟩ := List.map_eq_append_iff.mp hp.symm
    obtain ⟨hle, hreads⟩ := reads_step hst
    obtain ⟨es', hes, hseen⟩ := threads_of_run_atomic updateDeltaMs beyond clock ht
    have hnow := shows_of_run hes (((payloads_eq es').trans hseen).trans hpre.symm)
    rw [List.flatMap_append]
    rcases hreads r hr with hr | hr
    · exact (ih cs hpre.symm r hr).mono (told_mono _ _) hle
    · rw [hr]
      exact (hnow r.getter).mono (told_mono _ _) hle

end Reads

section Runs

variable (updateDeltaMs : UInt32) (beyond : Nat → UInt8) (clock : Time) (captures : List Capture)
  (ms : List (Move Event)) (s : State)

/-- Whatever the threads do when, and whatever statements their methods stand between: the hits that have
been pushed are the first ones of the stream, and each value that a getter has returned is one that the stream
allows: the sum modulo 2^32 of a stretch of its hits, the damage or the health of one of them, or the exact mean of
such sums. -/
theorem reads_show_what_is_told (h : run (program updateDeltaMs beyond).step (start clock) ms = some s)
    (hp : payloads ms = captures.map Capture.payload) :
    s.client.pushed.map values <+: told (captures.flatMap Capture.frames) ∧
    ∀ r ∈ s.client.reads,
      Shows (told (captures.flatMap Capture.frames)) s.client.windows.length r.getter r.result := by
  obtain ⟨es, t, ht, hr, hseen⟩ := refines_of_run updateDeltaMs beyond clock ms s h
  obtain ⟨es', hes, hseen'⟩ := threads_of_run_atomic updateDeltaMs beyond clock ht
  have hc := conserved_of_run hes (((payloads_eq es').trans (hseen'.trans hseen)).trans hp)
  rw [← hr.client]
  exact ⟨hc.pushed_inOrder, reads_of_atomic ht (hseen.trans hp)⟩

end Runs

/-- The second hit is still to come when the sum and the average are read. -/
def halfway : List (Move Event) :=
  [.act (.capture midwayCapture.payload), .act (.construct 0), .enter .setTargetRemainingHealth, .exec, .leave,
    .act .lockForPush, .act .push, .act .unlockAfterPush, .act .lockQueue, .act (.expire 0), .enter .setDPS, .exec,
    .exec, .exec, .exec, .exec, .leave, .enter (.get .getDPS), .exec, .leave, .enter (.get .getDPSAverage), .exec]

theorem reads_show_what_is_told_halfway : ∃ s, run (program 1000 fun _ => 0).step (start 0) halfway = some s ∧
    s.client.reads.map Read.getter = [.getDPS, .getDPSAverage] ∧
    ∀ r ∈ s.client.reads, Shows [(0x01010101, 0x01010101), (0x02020202, 0x02020202)] 0 r.getter r.result := by
  have hrun : (run (program 1000 fun _ => 0).step (start 0) halfway).map (fun s =>
      (s.client.reads.map Read.getter, s.client.windows.length)) = some ([.getDPS, .getDPSAverage], 0) := by
    decide +kernel
  obtain ⟨s, hs, hv⟩ := Option.map_eq_some_iff.mp hrun
  obtain ⟨hgetters, hwindows⟩ := Prod.mk.inj hv
  obtain ⟨-, hreads⟩ := reads_show_what_is_told 1000 (fun _ => 0) 0 [midwayCapture] halfway s hs rfl
  have htold : told ([midwayCapture].flatMap Capture.frames) =
      [(0x01010101, 0x01010101), (0x02020202, 0x02020202)] := by decide +kernel
  rw [htold, hwindows] at hreads
  exact ⟨s, hs, hgetters, hreads⟩

end Fopd.Display
