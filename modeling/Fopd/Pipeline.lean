import Fopd.RunSummary
import Fopd.Sniffing

namespace Fopd.Pipeline

open Consts Memory Utils Framing FrameTypes Packet Damage EntityStats Data PacketSniffer DpsMeter Threads
open SlidingWindow Records RunSummary Sniffing Lib Lib.Checked Lib.Frames Lib.Transitions

/-- A payload made of frames with headers, with an incomplete frame at its end or not. -/
structure Capture where
  frames : List (List UInt8)
  rest : List UInt8
  headers : ∀ f ∈ frames, HeaderFrame f
  remainder : rest = [] ∨ Incomplete UInt8.toNat rest
  length_le : (frames.flatten ++ rest).length ≤ 65535

namespace Capture

def payload (c : Capture) : List UInt8 := c.frames.flatten ++ c.rest

theorem getPackets_payload (c : Capture) (beyond : Nat → UInt8) :
    Completes (getPackets c.payload beyond) (c.frames.map typed) := by
  have hlen := c.length_le
  have hd : Decomposes UInt8.toNat c.payload c.frames c.rest :=
    ⟨fun f hf => (c.headers f hf).1, rfl, c.remainder⟩
  rw [completes_getPackets (by rw [payload]; omega), hd.frames_eq, hd.leftover_eq]
  exact ⟨noWrap_of_le (by rw [payload]; omega) _, headersIn_headerFrames c.headers,
    typedFrames_headerFrames c.headers⟩

end Capture

def payloads (es : List Event) : List (List UInt8) :=
  es.filterMap fun | .capture payload => some payload | _ => none

def IsCapture (e : Event) : Prop := ∃ payload, e = .capture payload

/-- The damage and the health left by each hit that the server has told of. -/
def told (fs : List (List UInt8)) : List (Nat × Nat) := (hits fs).map fun f => (hitDamage f, hitHealth f)

theorem told_append (fs gs : List (List UInt8)) : told (fs ++ gs) = told fs ++ told gs := by
  rw [told, hits_append, List.map_append, ← told, ← told]

theorem told_cons_of_damage {f : List UInt8} (h : frameType f = .damagePacket) (now : Time)
    (fs : List (List UInt8)) : told (f :: fs) = values ((layoutOf f).decoded now f) :: told fs := by
  have hf : decide (IsHit f) = true := by rw [← isHit_eq, isHit, h]; rfl
  rw [told, hits, List.filter_cons, if_pos hf, List.map_cons, ← values_entry now f]
  rfl

theorem told_cons_of_other {f : List UInt8} (h : frameType f ≠ .damagePacket) (fs : List (List UInt8)) :
    told (f :: fs) = told fs := by
  have hf : ¬ decide (IsHit f) = true := by rw [← isHit_eq, isHit, decide_eq_true_iff]; exact h
  rw [told, hits, List.filter_cons, if_neg hf]
  rfl

/-- Each hit of the frames `fs` has been pushed into the queue, is in hand, or is still to be read. -/
def Conserved (fs : List (List UInt8)) (s : State) : Prop :=
  ∃ ahead, s.todo = ahead.map typed ∧ (∀ f ∈ ahead, HeaderFrame f) ∧
    told fs = (s.pushed ++ inHand s.sniffer).map values ++ told ahead

theorem conserved_start (clock : Time) : Conserved [] (start clock) :=
  ⟨[], rfl, List.forall_mem_nil _, rfl⟩

section Steps

variable {updateDeltaMs : UInt32} {beyond : Nat → UInt8} {clock : Time} {fs : List (List UInt8)}
  {es : List Event} {s t : State} {e : Event}

theorem head_of_todo {type : FopdPacketType} {data : List UInt8} {todo : Packets} {ahead : List (List UInt8)}
    (ht : (type, data) :: todo = ahead.map typed) (ha : ∀ f ∈ ahead, HeaderFrame f) :
    ∃ rest, ahead = data :: rest ∧ frameType data = type ∧ todo = rest.map typed ∧
      HeaderFrame data ∧ ∀ f ∈ rest, HeaderFrame f := by
  obtain ⟨f, rest, rfl, hf, hr⟩ := List.map_eq_cons_iff.mp ht.symm
  obtain ⟨rfl, rfl⟩ := Prod.mk.inj hf
  obtain ⟨hf, hrest⟩ := List.forall_mem_cons.mp ha
  exact ⟨rest, rfl, rfl, hr.symm, hf, hrest⟩

theorem Conserved.capture (h : Conserved fs s) (ht : s.todo = []) (c : Capture) :
    Conserved (fs ++ c.frames) { s with todo := c.frames.map typed } := by
  obtain ⟨ahead, ha, -, htold⟩ := h
  rw [ht, eq_comm, List.map_eq_nil_iff] at ha
  refine ⟨c.frames, rfl, c.headers, ?_⟩
  rw [told_append, htold, ha]
  simp [told, hits]

theorem Conserved.step (h : Conserved fs s) (hc : ¬ IsCapture e)
    (hst : Step updateDeltaMs beyond s e t) : Conserved fs t := by
  obtain ⟨ahead, ha, hh, htold⟩ := h
  cases hst with
  | capture => exact absurd ⟨_, rfl⟩ hc
  | constructDamage hc hs ht hp =>
      obtain ⟨rest, rfl, htype, htodo, hf, hrest⟩ := head_of_todo (ht ▸ ha) hh
      have hpkt := Option.some.inj (hp.symm.trans (Damage.ofVector_completes hf htype).1)
      refine ⟨rest, htodo, hrest, ?_⟩
      rw [htold, hs, told_cons_of_damage htype, ← hpkt]
      simp [inHand]
  | constructEntity hc hs ht hp | skip hc hs ht =>
      obtain ⟨rest, rfl, htype, htodo, hf, hrest⟩ := head_of_todo (ht ▸ ha) hh
      refine ⟨rest, htodo, hrest, ?_⟩
      rw [htold, told_cons_of_other (by rw [htype]; exact FopdPacketType.noConfusion)]
  | setTargetRemainingHealth hs =>
      refine ⟨ahead, ha, hh, ?_⟩
      rw [htold, hs]
      rfl
  | push hs hd =>
      refine ⟨ahead, ha, hh, ?_⟩
      rw [htold, hs]
      simp [inHand]
  | expire | setDPS | finishSampling | finishCounting | setPing | setServerIndex => exact ⟨ahead, ha, hh, htold⟩

theorem conserved_of_run (h : run (State.step updateDeltaMs beyond) (start clock) es = some s)
    {captures : List Capture} (hp : payloads es = captures.map Capture.payload) :
    Conserved (captures.flatMap Capture.frames) s := by
  have hinv := run_induction (I := fun es s => ∀ captures : List Capture, payloads es = captures.map Capture.payload →
    Conserved (captures.flatMap Capture.frames) s) ?_ ?_ h
  · exact hinv captures hp
  · intro captures hp
    rw [List.map_eq_nil_iff.mp hp.symm]
    exact conserved_start clock
  · intro es t e u ih hst captures hp
    cases e with
    | capture payload =>
        have hcs : captures.map Capture.payload = payloads es ++ [payload] := by
          rw [← hp, payloads, List.filterMap_append]
          rfl
        obtain ⟨cs, cl, rfl, hpre, hcl⟩ := List.map_eq_append_iff.mp hcs
        obtain ⟨c, rfl, rfl⟩ := List.map_eq_singleton_iff.mp hcl
        cases step_cases hst with
        | capture hs ht hpkts =>
            obtain rfl := Option.some.inj (hpkts.symm.trans (c.getPackets_payload beyond).1)
            rw [List.flatMap_append, List.flatMap_singleton]
            exact (ih cs hpre.symm).capture ht c
    | construct | setTargetRemainingHealth | push | expire | setDPS | finish | setPing | setServerIndex =>
        apply (ih captures _).step (by simp [IsCapture]) (step_cases hst)
        rw [← hp, payloads, payloads, List.filterMap_append]
        simp

end Steps

section Display

variable {updateDeltaMs : UInt32} {beyond : Nat → UInt8} {clock : Time} {fs : List (List UInt8)}
  {es : List Event} {s : State}

theorem Conserved.inOrder (h : Conserved fs s) : (s.pushed ++ inHand s.sniffer).map values <+: told fs := by
  obtain ⟨ahead, -, -, htold⟩ := h
  exact ⟨told ahead, htold.symm⟩

theorem Conserved.pushed_inOrder (h : Conserved fs s) : s.pushed.map values <+: told fs := by
  have hp := h.inOrder
  rw [List.map_append] at hp
  exact (List.prefix_append _ _).trans hp

theorem Conserved.pushed_eq (h : Conserved fs s) (hs : s.sniffer = .ready) (ht : s.todo = []) :
    s.pushed.map values = told fs := by
  obtain ⟨ahead, ha, -, htold⟩ := h
  rw [ht, eq_comm, List.map_eq_nil_iff] at ha
  rw [htold, hs, ha]
  simp [told, hits, inHand]

/-- The second before a report is a stretch of the packets. -/
theorem stretch_of_report (hw : Windowed s) {rs : List Report} (hr : Reported rs s) {w : List FiestaOnlinePacketDamage}
    (h : w ∈ reportedWindows s) : w <:+: s.pushed := by
  rw [hr.windows] at h
  obtain ⟨r, hm, rfl⟩ := List.mem_map.mp h
  have hpre := hr.pushed r hm
  have ho : Window.Ordered timestamp r.pushed := hw.ordered_pushed.of_sublist hpre.sublist
  exact ho.live_suffix.isInfix.trans hpre.isInfix

theorem damageSum_eq (w : List FiestaOnlinePacketDamage) : damageSum w = ((w.map values).map Prod.fst).sum := by
  rw [damageSum, List.map_map]
  rfl

/-- The damage of consecutive hits, up to wrap-around. -/
def IsStretchSum (hits : List (Nat × Nat)) (sum : UInt32) : Prop :=
  ∃ stretch, stretch <:+: hits ∧ sum.toNat = (stretch.map Prod.fst).sum % 2 ^ 32

theorem isStretchSum_zero (hits : List (Nat × Nat)) : IsStretchSum hits 0 := ⟨[], List.nil_infix, rfl⟩

theorem Conserved.isStretchSum (h : Conserved fs s) (hw : Windowed s) {rs : List Report} (hr : Reported rs s)
    {sum : UInt32} (hs : sum ∈ (reportedWindows s).map getDmgQueueSum) : IsStretchSum (told fs) sum := by
  obtain ⟨w, hm, rfl⟩ := List.mem_map.mp hs
  refine ⟨w.map values, ((stretch_of_report hw hr hm).map values).trans h.pushed_inOrder.isInfix, ?_⟩
  rw [toNat_getDmgQueueSum, damageSum_eq]

/-- What the store makes of the sums and the damages that it has been told. -/
theorem Conserved.store (h : Conserved fs s) (hrun : run (State.step updateDeltaMs beyond) (start clock) es = some s) :
    IsStretchSum (told fs) s.fopdData.dps ∧ IsStretchSum (told fs) s.fopdData.maxDps ∧
      (s.fopdData.maxDmg = 0 ∨ s.fopdData.maxDmg.toNat ∈ (told fs).map Prod.fst) := by
  have hw := windowed_of_run hrun
  have hr := reported_of_run hrun
  have hrec := recorded_of_run hrun
  refine ⟨?_, ?_, hrec.maxDmg.imp_right ?_⟩
  · have hdps : s.fopdData.dps = ((reportedWindows s).map getDmgQueueSum).getLastD 0 :=
      (told_of_run hrun).summary.dps
    rw [hdps]
    rcases List.mem_cons.mp List.getLastD_mem_cons with hz | hm
    · rw [hz]
      exact isStretchSum_zero _
    · exact h.isStretchSum hw hr hm
  · rcases hrec.maxDps with ⟨-, hz⟩ | ⟨w, hm, he⟩
    · rw [hz]
      exact isStretchSum_zero _
    · rw [he]
      exact h.isStretchSum hw hr (List.mem_map_of_mem hm)
  · rintro ⟨w, hm, p, hpw, he⟩
    rw [he]
    have hv : values p ∈ told fs := h.pushed_inOrder.subset (List.mem_map_of_mem (hr.mem_pushed hm hpw))
    exact List.mem_map_of_mem (f := Prod.fst) hv

theorem Conserved.published_take (h : Conserved fs s) : ∃ n, s.pushed.length ≤ n ∧ n ≤ s.pushed.length + 1 ∧
    (published s).map values = (told fs).take n := by
  have hp : published s <+: s.pushed ++ inHand s.sniffer ∧ s.pushed.length ≤ (published s).length ∧
      (published s).length ≤ s.pushed.length + 1 := by
    rw [published]
    cases s.sniffer with
    | ready | constructed => exact ⟨List.prefix_append _ _, le_rfl, Nat.le_succ _⟩
    | published => exact ⟨List.prefix_refl _, by simp⟩
  obtain ⟨hpre, h₁, h₂⟩ := hp
  refine ⟨_, h₁, h₂, ?_⟩
  have heq := List.prefix_iff_eq_take.mp ((hpre.map values).trans h.inOrder)
  rwa [List.length_map] at heq

theorem toNat_health (w : List FiestaOnlinePacketDamage) :
    ((w.map FiestaOnlinePacketDamage.targetRemainingHealth).getLastD 0).toNat =
      ((w.map values).map Prod.snd).getLastD 0 := by
  have hm : ((w.map FiestaOnlinePacketDamage.targetRemainingHealth).map UInt32.toNat).getLastD (UInt32.toNat 0) =
      ((w.map FiestaOnlinePacketDamage.targetRemainingHealth).getLastD 0).toNat := List.getLastD_map
  rw [← hm, List.map_map, List.map_map]
  rfl

/-- What the program makes of what it is told, whatever the two threads do when. The hits are pushed into
the queue in the order of the stream, none of them twice and none left out; when the sniffer has nothing
left to do, all of them have been. What is on display is the damage of consecutive hits, the largest such
sum, both modulo 2^32, a single hit, and the health left by the last hit pushed or the one about to be. -/
theorem displays_what_is_told (updateDeltaMs : UInt32) (beyond : Nat → UInt8) (clock : Time)
    (captures : List Capture) (es : List Event) (s : State)
    (h : run (State.step updateDeltaMs beyond) (start clock) es = some s)
    (hp : payloads es = captures.map Capture.payload) :
    s.pushed.map values <+: told (captures.flatMap Capture.frames) ∧
    (s.sniffer = .ready → s.todo = [] → s.pushed.map values = told (captures.flatMap Capture.frames)) ∧
    IsStretchSum (told (captures.flatMap Capture.frames)) s.fopdData.dps ∧
    IsStretchSum (told (captures.flatMap Capture.frames)) s.fopdData.maxDps ∧
    (s.fopdData.maxDmg = 0 ∨
      s.fopdData.maxDmg.toNat ∈ (told (captures.flatMap Capture.frames)).map Prod.fst) ∧
    ∃ n, s.pushed.length ≤ n ∧ n ≤ s.pushed.length + 1 ∧ s.fopdData.targetRemainingHealth.toNat =
      (((told (captures.flatMap Capture.frames)).take n).map Prod.snd).getLastD 0 := by
  have hc := conserved_of_run h hp
  obtain ⟨hdps, hmaxDps, hmaxDmg⟩ := hc.store h
  refine ⟨hc.pushed_inOrder, hc.pushed_eq, hdps, hmaxDps, hmaxDmg, ?_⟩
  obtain ⟨n, h₁, h₂, hn⟩ := hc.published_take
  have hhealth := (told_of_run h).summary.targetRemainingHealth
  exact ⟨n, h₁, h₂, by rw [hhealth, history, toNat_health, hn]⟩

/-- Two hits with a click between them, of which the first waits for the lock of the dps thread. -/
def midway : List Event :=
  [.capture (25 :: 0x52 :: 0x24 :: List.replicate 23 1 ++ [2, 0x02, 0x24] ++
      20 :: 0x48 :: 0x24 :: List.replicate 18 2 ++ [9]),
    .construct 0, .setTargetRemainingHealth, .expire 0]

def midwayCapture : Capture where
  frames := [25 :: 0x52 :: 0x24 :: List.replicate 23 1, [2, 0x02, 0x24], 20 :: 0x48 :: 0x24 :: List.replicate 18 2]
  rest := [9]
  headers := by decide
  remainder := by simp [Incomplete]
  length_le := by decide

theorem displays_what_is_told_midway : ∃ s, run (State.step 100 fun _ => 0) (start 0) midway = some s ∧
    s.pushed.map values <+: [(0x01010101, 0x01010101), (0x02020202, 0x02020202)] ∧
    IsStretchSum [(0x01010101, 0x01010101), (0x02020202, 0x02020202)] s.fopdData.dps ∧
    ∃ n ≤ s.pushed.length + 1, s.fopdData.targetRemainingHealth.toNat =
      (([(0x01010101, 0x01010101), (0x02020202, 0x02020202)].take n).map Prod.snd).getLastD 0 := by
  have hrun : (run (State.step 100 fun _ => 0) (start 0) midway).isSome := by decide +kernel
  obtain ⟨s, hs⟩ := Option.isSome_iff_exists.mp hrun
  obtain ⟨hpushed, -, hdps, -, -, n, -, hn, hhealth⟩ :=
    displays_what_is_told 100 (fun _ => 0) 0 [midwayCapture] midway s hs rfl
  have htold : told ([midwayCapture].flatMap Capture.frames) =
      [(0x01010101, 0x01010101), (0x02020202, 0x02020202)] := by decide +kernel
  rw [htold] at hpushed hdps hhealth
  exact ⟨s, hs, hpushed, hdps, n, hn, hhealth⟩

end Display

section Progress

variable {updateDeltaMs : UInt32} {beyond : Nat → UInt8} {clock : Time} {fs : List (List UInt8)}
  {es : List Event} {s t : State} {e : Event}

/-- How many steps the sniffer takes at most before it waits for the next payload. -/
def pending (s : State) : Nat :=
  3 * s.todo.length + match s.sniffer with
    | .ready => 0
    | .constructed _ => 2
    | .published _ => 1

/-- How many steps the dps thread takes before it gives the lock back. -/
def holding (s : State) : Nat :=
  match s.dps with
  | .sleeping => 0
  | .expired _ => 2
  | .reported _ => 1

def sniffs : Event → Bool
  | .construct _ | .setTargetRemainingHealth | .push => true
  | _ => false

theorem payloads_eq_nil_iff : payloads es = [] ↔ ∀ e ∈ es, ¬ IsCapture e := by
  rw [payloads, List.filterMap_eq_nil_iff]
  apply forall₂_congr
  intro e _
  cases e <;> simp [IsCapture]

theorem pending_step (hc : ¬ IsCapture e) (hst : Step updateDeltaMs beyond s e t) :
    pending t + (if sniffs e then 1 else 0) ≤ pending s := by
  cases hst with
  | capture => exact absurd ⟨_, rfl⟩ hc
  | constructDamage _ hs ht _ | constructEntity _ hs ht _ | skip _ hs ht =>
      simp only [pending, sniffs, hs, ht, List.length_cons, if_true]
      omega
  | setTargetRemainingHealth hs => simp [pending, sniffs, hs, Nat.add_assoc]
  | push hs hd => simp [pending, sniffs, hs]
  | expire | setDPS | finishSampling | finishCounting | setPing | setServerIndex =>
      simp [pending, sniffs]

/-- One of the two threads can always go on: the sniffer, unless the other one has the lock. -/
theorem exists_step (updateDeltaMs : UInt32) (beyond : Nat → UInt8) (h : Conserved fs s)
    (hr : pending s + holding s ≠ 0) :
    ∃ e t, ¬ IsCapture e ∧ Step updateDeltaMs beyond s e t ∧ pending t + holding t < pending s + holding s := by
  cases hd : s.dps with
  | expired now =>
      exact ⟨.setDPS, _, by simp [IsCapture], .setDPS hd, by simp [pending, holding, hd]⟩
  | reported now =>
      by_cases hc : s.count = resetCount updateDeltaMs
      · exact ⟨.finish, _, by simp [IsCapture], .finishSampling hd hc, by simp [pending, holding, hd]⟩
      · exact ⟨.finish, _, by simp [IsCapture], .finishCounting hd hc, by simp [pending, holding, hd]⟩
  | sleeping =>
      cases hs : s.sniffer with
      | constructed pkt =>
          exact ⟨.setTargetRemainingHealth, _, by simp [IsCapture], .setTargetRemainingHealth hs,
            by simp [pending, holding, hs]⟩
      | published pkt =>
          exact ⟨.push, _, by simp [IsCapture], .push hs hd, by simp [pending, holding, hs]⟩
      | ready =>
          obtain ⟨ahead, ha, hh, -⟩ := h
          cases ht : s.todo with
          | nil => exact absurd (by simp [pending, holding, hs, ht, hd]) hr
          | cons pkt todo =>
              obtain ⟨type, data⟩ := pkt
              obtain ⟨rest, rfl, htype, -, hf, -⟩ := head_of_todo (ht ▸ ha) hh
              refine ⟨.construct s.clock, ?_⟩
              cases type with
              | damagePacket =>
                  have hp : (FiestaOnlinePacketDamage.ofVector s.clock data beyond).result = some _ :=
                    (Damage.ofVector_completes hf htype).1
                  exact ⟨_, by simp [IsCapture], .constructDamage le_rfl hs ht hp,
                    by simp [pending, holding, hs, ht]; omega⟩
              | entityClickPacket =>
                  have hp : (FiestaOnlinePacketEntityStats.ofVector s.clock data beyond).result = some _ :=
                    (FiestaOnlinePacketEntityStats.ofVector_completes hf).1
                  exact ⟨_, by simp [IsCapture], .constructEntity le_rfl hs ht hp, by simp [pending, holding, hs, ht]⟩
              | unknownPacket =>
                  exact ⟨_, by simp [IsCapture], .skip le_rfl hs ht, by simp [pending, holding, hs, ht]⟩

/-- Nothing that is told gets stuck. However the threads take turns, the sniffer has at most so many steps
to take until the next payload, and from every state of a run they can go on until all hits have been
pushed into the queue, without another payload. -/
theorem delivers_what_is_told (updateDeltaMs : UInt32) (beyond : Nat → UInt8) (clock : Time)
    (captures : List Capture) (es : List Event) (s : State)
    (h : run (State.step updateDeltaMs beyond) (start clock) es = some s)
    (hp : payloads es = captures.map Capture.payload) :
    (∀ es' t, run (State.step updateDeltaMs beyond) s es' = some t → payloads es' = [] →
      es'.countP sniffs ≤ 3 * s.todo.length + 2) ∧
    ∃ es' t, run (State.step updateDeltaMs beyond) s es' = some t ∧ payloads es' = [] ∧
      es'.length ≤ 3 * s.todo.length + 4 ∧
      t.pushed.map values = told (captures.flatMap Capture.frames) := by
  have hpending : pending s ≤ 3 * s.todo.length + 2 := by
    rw [pending]
    split <;> omega
  have hholding : holding s ≤ 2 := by
    rw [holding]
    split <;> omega
  have hstep : ∀ u, Conserved (captures.flatMap Capture.frames) u → pending u + holding u ≠ 0 →
      ∃ e v, ¬ IsCapture e ∧ State.step updateDeltaMs beyond u e = some v ∧
        Conserved (captures.flatMap Capture.frames) v ∧ pending v + holding v < pending u + holding u := by
    intro u hu hr
    obtain ⟨e, v, he, hst, hlt⟩ := exists_step updateDeltaMs beyond hu hr
    exact ⟨e, v, he, hst.step_eq, hu.step he hst, hlt⟩
  refine ⟨fun es' t ht hes => ?_, ?_⟩
  · have hcount := countP_le_rank (C := fun e => ¬ IsCapture e) (p := sniffs)
      (fun _ _ _ hc hst => pending_step hc (step_cases hst)) (payloads_eq_nil_iff.mp hes) ht
    omega
  · obtain ⟨es', t, hes, hlen, ht, hc, hz⟩ := run_until hstep (conserved_of_run h hp)
    have hidle : t.sniffer = .ready ∧ t.todo = [] := by
      simp only [pending, Nat.add_eq_zero_iff, Nat.mul_eq_zero, List.length_eq_zero_iff] at hz
      obtain ⟨⟨htodo, hs⟩, -⟩ := hz
      refine ⟨?_, htodo.resolve_left (by decide)⟩
      cases hst : t.sniffer with
      | ready => rfl
      | constructed | published => simp [hst] at hs
    exact ⟨es', t, ht, payloads_eq_nil_iff.mpr hes, by omega, hc.pushed_eq hidle.1 hidle.2⟩

theorem delivers_what_is_told_midway : ∃ s es' t, run (State.step 100 fun _ => 0) (start 0) midway = some s ∧
    run (State.step 100 fun _ => 0) s es' = some t ∧ payloads es' = [] ∧ es'.countP sniffs ≤ 8 ∧ es'.length ≤ 10 ∧
    t.pushed.map values = [(0x01010101, 0x01010101), (0x02020202, 0x02020202)] := by
  have hrun : (run (State.step 100 fun _ => 0) (start 0) midway).map (fun s => s.todo.length) = some 2 := by
    decide +kernel
  obtain ⟨s, hs, htodo⟩ := Option.map_eq_some_iff.mp hrun
  obtain ⟨hsniffs, es', t, ht, hes, hlen, hpushed⟩ :=
    delivers_what_is_told 100 (fun _ => 0) 0 [midwayCapture] midway s hs rfl
  have htold : told ([midwayCapture].flatMap Capture.frames) =
      [(0x01010101, 0x01010101), (0x02020202, 0x02020202)] := by decide +kernel
  have hcount := hsniffs es' t ht hes
  rw [htold] at hpushed
  rw [htodo] at hcount hlen
  exact ⟨s, es', t, hs, ht, hes, hcount, hlen, hpushed⟩

end Progress

end Fopd.Pipeline
