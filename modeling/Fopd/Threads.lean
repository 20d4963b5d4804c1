import Fopd.Lib.Transitions
import Fopd.PacketSniffer
import Fopd.DpsMeter

namespace Fopd.Threads

open Consts Memory Utils FrameTypes Packet Damage EntityStats Data PacketSniffer DpsMeter
open Lib.Checked Lib.Transitions

inductive SnifferStage
  | ready
  | constructed (pkt : FiestaOnlinePacketDamage)
  | published (pkt : FiestaOnlinePacketDamage)

/-- Where the dps thread is in its iteration; it holds the lock unless it is asleep. -/
inductive DpsStage
  | sleeping
  | expired (now : Time)
  | reported (now : Time)

/-- The state of the two threads and of what they share, with the history of the queue: all packets
pushed so far, those popped so far, and the queue at each finished iteration. -/
structure State extends Shared where
  clock : Time
  todo : Packets := []
  sniffer : SnifferStage := .ready
  dps : DpsStage := .sleeping
  count : UInt32 := 0
  pushed : List FiestaOnlinePacketDamage := []
  popped : List FiestaOnlinePacketDamage := []
  windows : List (List FiestaOnlinePacketDamage) := []

inductive Event
  | capture (payload : List UInt8)
  | construct (now : Time)
  | setTargetRemainingHealth
  | push
  | expire (now : Time)
  | setDPS
  | finish
  | setPing (ping : UInt32)
  | setServerIndex (serverIndex : UInt64)

namespace State

variable (updateDeltaMs : UInt32) (beyond : Nat → UInt8) (s : State)

def capture (payload : List UInt8) : Option State :=
  match s.sniffer, s.todo with
  | .ready, [] => (getPackets payload beyond).result.map fun pkts => { s with todo := pkts }
  | _, _ => none

/-- For a frame of unknown type nothing is constructed, so nothing reads the clock. -/
def construct (now : Time) : Option State :=
  if s.clock ≤ now then
    match s.sniffer, s.todo with
    | .ready, (.damagePacket, data) :: todo =>
        (FiestaOnlinePacketDamage.ofVector now data beyond).result.map fun pkt =>
          { s with clock := now, todo, sniffer := .constructed pkt }
    | .ready, (.entityClickPacket, data) :: todo =>
        (FiestaOnlinePacketEntityStats.ofVector now data beyond).result.map fun _ =>
          { s with clock := now, todo }
    | .ready, (.unknownPacket, _) :: todo => some { s with todo }
    | _, _ => none
  else none

def setTargetRemainingHealth : Option State :=
  match s.sniffer with
  | .constructed pkt =>
      some { s with
        fopdData := s.fopdData.setTargetRemainingHealth pkt.targetRemainingHealth
        sniffer := .published pkt }
  | _ => none

/-- The sniffer pushes with the lock held, so not while the dps thread has it. -/
def push : Option State :=
  match s.sniffer, s.dps with
  | .published pkt, .sleeping =>
      some { s with dmgQ := s.dmgQ ++ [pkt], pushed := s.pushed ++ [pkt], sniffer := .ready }
  | _, _ => none

def expire (now : Time) : Option State :=
  if s.clock ≤ now then
    match s.dps with
    | .sleeping =>
        let lastSec := now - oneSecond
        some { s with
          clock := now
          dmgQ := popExpired lastSec s.dmgQ
          popped := s.popped ++ poppedBy lastSec s.dmgQ
          dps := .expired now }
    | _ => none
  else none

def setDPS : Option State :=
  match s.dps with
  | .expired now =>
      some { s with fopdData := s.fopdData.setDPS (getDmgQueueSum s.dmgQ), dps := .reported now }
  | _ => none

/-- The end of an iteration: every so often the maximum is looked at, then the lock is released. -/
def finish : Option State :=
  match s.dps with
  | .reported _ =>
      let s := { s with windows := s.windows ++ [s.dmgQ], dps := .sleeping }
      if s.count = resetCount updateDeltaMs then
        some { s with fopdData := s.fopdData.trySetMaxDmg (getDmgQueueMax s.dmgQ), count := 0 }
      else some { s with count := s.count + 1 }
  | _ => none

/-- The other threads only use the setters of the store. -/
def step (s : State) : Event → Option State
  | .capture payload => s.capture beyond payload
  | .construct now => s.construct beyond now
  | .setTargetRemainingHealth => s.setTargetRemainingHealth
  | .push => s.push
  | .expire now => s.expire now
  | .setDPS => s.setDPS
  | .finish => s.finish updateDeltaMs
  | .setPing ping => some { s with fopdData := s.fopdData.setPing ping }
  | .setServerIndex serverIndex => some { s with fopdData := (s.fopdData.setServerIndex serverIndex).2 }

end State

def start (clock : Time) : State where
  fopdData := {}
  dmgQ := []
  clock

section Step

variable (updateDeltaMs : UInt32) (beyond : Nat → UInt8)

inductive Step (s : State) : Event → State → Prop
  | capture {payload pkts} (hs : s.sniffer = .ready) (ht : s.todo = [])
      (hp : (getPackets payload beyond).result = some pkts) :
      Step s (.capture payload) { s with todo := pkts }
  | constructDamage {now data todo pkt} (hc : s.clock ≤ now) (hs : s.sniffer = .ready)
      (ht : s.todo = (.damagePacket, data) :: todo)
      (hp : (FiestaOnlinePacketDamage.ofVector now data beyond).result = some pkt) :
      Step s (.construct now) { s with clock := now, todo, sniffer := .constructed pkt }
  | constructEntity {now data todo pkt} (hc : s.clock ≤ now) (hs : s.sniffer = .ready)
      (ht : s.todo = (.entityClickPacket, data) :: todo)
      (hp : (FiestaOnlinePacketEntityStats.ofVector now data beyond).result = some pkt) :
      Step s (.construct now) { s with clock := now, todo }
  | skip {now data todo} (hc : s.clock ≤ now) (hs : s.sniffer = .ready)
      (ht : s.todo = (.unknownPacket, data) :: todo) : Step s (.construct now) { s with todo }
  | setTargetRemainingHealth {pkt} (hs : s.sniffer = .constructed pkt) :
      Step s .setTargetRemainingHealth { s with
        fopdData := s.fopdData.setTargetRemainingHealth pkt.targetRemainingHealth
        sniffer := .published pkt }
  | push {pkt} (hs : s.sniffer = .published pkt) (hd : s.dps = .sleeping) :
      Step s .push { s with dmgQ := s.dmgQ ++ [pkt], pushed := s.pushed ++ [pkt], sniffer := .ready }
  | expire {now} (hc : s.clock ≤ now) (hd : s.dps = .sleeping) :
      Step s (.expire now) { s with
        clock := now
        dmgQ := popExpired (now - oneSecond) s.dmgQ
        popped := s.popped ++ poppedBy (now - oneSecond) s.dmgQ
        dps := .expired now }
  | setDPS {now} (hd : s.dps = .expired now) :
      Step s .setDPS { s with
        fopdData := s.fopdData.setDPS (getDmgQueueSum s.dmgQ), dps := .reported now }
  | finishSampling {now} (hd : s.dps = .reported now) (hc : s.count = resetCount updateDeltaMs) :
      Step s .finish { s with
        fopdData := s.fopdData.trySetMaxDmg (getDmgQueueMax s.dmgQ)
        windows := s.windows ++ [s.dmgQ]
        dps := .sleeping
        count := 0 }
  | finishCounting {now} (hd : s.dps = .reported now) (hc : s.count ≠ resetCount updateDeltaMs) :
      Step s .finish { s with windows := s.windows ++ [s.dmgQ], dps := .sleeping, count := s.count + 1 }
  | setPing {ping} : Step s (.setPing ping) { s with fopdData := s.fopdData.setPing ping }
  | setServerIndex {serverIndex} :
      Step s (.setServerIndex serverIndex) { s with fopdData := (s.fopdData.setServerIndex serverIndex).2 }

variable {updateDeltaMs beyond} {s t : State} {e : Event}

theorem step_cases (h : s.step updateDeltaMs beyond e = some t) : Step updateDeltaMs beyond s e t := by
  cases e with
  | capture payload =>
      simp only [State.step, State.capture] at h
      split at h
      next hs ht =>
        obtain ⟨pkts, hp, rfl⟩ := Option.map_eq_some_iff.mp h
        exact .capture hs ht hp
      next => cases h
  | construct now =>
      simp only [State.step, State.construct] at h
      split at h
      next hc =>
        split at h
        next hs ht =>
          obtain ⟨pkt, hp, rfl⟩ := Option.map_eq_some_iff.mp h
          exact .constructDamage hc hs ht hp
        next hs ht =>
          obtain ⟨pkt, hp, rfl⟩ := Option.map_eq_some_iff.mp h
          exact .constructEntity hc hs ht hp
        next hs ht =>
          obtain rfl := Option.some.inj h
          exact .skip hc hs ht
        next => cases h
      next => cases h
  | setTargetRemainingHealth =>
      simp only [State.step, State.setTargetRemainingHealth] at h
      split at h
      next hs =>
        obtain rfl := Option.some.inj h
        exact .setTargetRemainingHealth hs
      next => cases h
  | push =>
      simp only [State.step, State.push] at h
      split at h
      next hs hd =>
        obtain rfl := Option.some.inj h
        exact .push hs hd
      next => cases h
  | expire now =>
      simp only [State.step, State.expire] at h
      split at h
      next hc =>
        split at h
        next hd =>
          obtain rfl := Option.some.inj h
          exact .expire hc hd
        next => cases h
      next => cases h
  | setDPS =>
      simp only [State.step, State.setDPS] at h
      split at h
      next hd =>
        obtain rfl := Option.some.inj h
        exact .setDPS hd
      next => cases h
  | finish =>
      simp only [State.step, State.finish] at h
      split at h
      next hd =>
        split at h
        next hc =>
          obtain rfl := Option.some.inj h
          exact .finishSampling hd hc
        next hc =>
          obtain rfl := Option.some.inj h
          exact .finishCounting hd hc
      next => cases h
  | setPing ping =>
      obtain rfl := Option.some.inj h
      exact .setPing
  | setServerIndex serverIndex =>
      obtain rfl := Option.some.inj h
      exact .setServerIndex

theorem Step.step_eq (h : Step updateDeltaMs beyond s e t) : s.step updateDeltaMs beyond e = some t := by
  cases h with
  | capture hs ht hp => simp only [State.step, State.capture, hs, ht, hp, Option.map_some]
  | constructDamage hc hs ht hp | constructEntity hc hs ht hp =>
      simp only [State.step, State.construct, hc, hs, ht, hp, if_true, Option.map_some]
  | skip hc hs ht => simp only [State.step, State.construct, hc, hs, ht, if_true]
  | setTargetRemainingHealth hs => simp only [State.step, State.setTargetRemainingHealth, hs]
  | push hs hd => simp only [State.step, State.push, hs, hd]
  | expire hc hd => simp only [State.step, State.expire, hc, hd, if_true]
  | setDPS hd => simp only [State.step, State.setDPS, hd]
  | finishSampling hd hc => simp only [State.step, State.finish, hd, hc, if_true]
  | finishCounting hd hc => simp only [State.step, State.finish, hd, hc, if_false]
  | setPing => rfl
  | setServerIndex => rfl

structure Undisturbed (s : State) (todo : Packets) (now : Time) : Prop where
  sniffer : s.sniffer = .ready
  todo : s.todo = todo
  dps : s.dps = .sleeping
  clock : s.clock ≤ now

theorem handlePacket_run {now : Time} {pkt : FopdPacketType × List UInt8} {todo : Packets} {m : Shared}
    (hu : Undisturbed s (pkt :: todo) now) (h : (handlePacket now beyond pkt s.toShared).result = some m) :
    ∃ es t, run (State.step updateDeltaMs beyond) s es = some t ∧ t.toShared = m ∧
      Undisturbed t todo now := by
  obtain ⟨type, data⟩ := pkt
  cases type with
  | unknownPacket =>
      obtain rfl := Option.some.inj h
      have h₁ : Step updateDeltaMs beyond s (.construct now) _ := .skip hu.clock hu.sniffer hu.todo
      exact ⟨[.construct now], _, run_cons_eq_some.mpr ⟨_, h₁.step_eq, rfl⟩, rfl,
        ⟨hu.sniffer, rfl, hu.dps, hu.clock⟩⟩
  | entityClickPacket =>
      simp only [handlePacket, result_bind, Option.bind_eq_some_iff] at h
      obtain ⟨pkt, hp, hm⟩ := h
      obtain rfl := Option.some.inj hm
      have h₁ : Step updateDeltaMs beyond s (.construct now) _ :=
        .constructEntity hu.clock hu.sniffer hu.todo hp
      exact ⟨[.construct now], _, run_cons_eq_some.mpr ⟨_, h₁.step_eq, rfl⟩, rfl,
        ⟨hu.sniffer, rfl, hu.dps, le_rfl⟩⟩
  | damagePacket =>
      simp only [handlePacket, result_bind, Option.bind_eq_some_iff] at h
      obtain ⟨pkt, hp, hm⟩ := h
      obtain rfl := Option.some.inj hm
      have h₁ : Step updateDeltaMs beyond s (.construct now) _ :=
        .constructDamage hu.clock hu.sniffer hu.todo hp
      have h₂ : Step updateDeltaMs beyond { s with clock := now, todo, sniffer := .constructed pkt }
          .setTargetRemainingHealth _ := .setTargetRemainingHealth rfl
      have h₃ : Step updateDeltaMs beyond { s with
          fopdData := s.fopdData.setTargetRemainingHealth pkt.targetRemainingHealth
          clock := now, todo, sniffer := .published pkt } .push _ := .push rfl hu.dps
      exact ⟨[.construct now, .setTargetRemainingHealth, .push], _,
        run_cons_eq_some.mpr ⟨_, h₁.step_eq, run_cons_eq_some.mpr ⟨_, h₂.step_eq,
          run_cons_eq_some.mpr ⟨_, h₃.step_eq, rfl⟩⟩⟩, rfl, ⟨rfl, rfl, hu.dps, le_rfl⟩⟩

theorem handlePackets_run {clock : Nat → Time} (hclock : ∀ i, clock i ≤ clock (i + 1))
    {pkts : Packets} {i : Nat} {out : Shared} (hu : Undisturbed s pkts (clock i))
    (h : (handlePackets clock beyond i pkts s.toShared).result = some out) :
    ∃ es t, run (State.step updateDeltaMs beyond) s es = some t ∧ t.toShared = out ∧
      Undisturbed t [] (clock (i + pkts.length)) := by
  induction pkts generalizing i s with
  | nil => exact ⟨[], s, rfl, Option.some.inj h, hu⟩
  | cons pkt pkts ih =>
      simp only [handlePackets, result_bind, Option.bind_eq_some_iff] at h
      obtain ⟨m, hm, hout⟩ := h
      obtain ⟨es, t, ht, rfl, hut⟩ := handlePacket_run hu hm
      obtain ⟨es', u, hu', ho, huu⟩ := ih
        ⟨hut.sniffer, hut.todo, hut.dps, hut.clock.trans (hclock i)⟩ hout
      refine ⟨es ++ es', u, by rw [run_append, ht, Option.bind_some, hu'], ho, ?_⟩
      rwa [List.length_cons, Nat.add_comm pkts.length, ← Nat.add_assoc]

/-- The sequential `process_packet` is one of the runs of the two threads. -/
theorem processPacket_run {clock : Nat → Time} (hclock : ∀ i, clock i ≤ clock (i + 1)) {payload : List UInt8}
    {out : Shared} (hu : Undisturbed s [] (clock 0))
    (h : (processPacket ⟨some payload⟩ clock beyond s.toShared).result = some (true, out)) :
    ∃ es t n, run (State.step updateDeltaMs beyond) s es = some t ∧ t.toShared = out ∧
      Undisturbed t [] (clock n) := by
  simp only [processPacket, result_bind, Option.bind_eq_some_iff] at h
  obtain ⟨pkts, hp, m, hm, ho⟩ := h
  obtain ⟨-, rfl⟩ := Prod.mk.inj (Option.some.inj ho)
  have h₁ : Step updateDeltaMs beyond s (.capture payload) _ := .capture hu.sniffer hu.todo hp
  obtain ⟨es, t, ht, hto, hut⟩ := handlePackets_run hclock (s := { s with todo := pkts })
    ⟨hu.sniffer, rfl, hu.dps, hu.clock⟩ hm
  exact ⟨.capture payload :: es, t, _, run_cons_eq_some.mpr ⟨_, h₁.step_eq, ht⟩, hto, hut⟩

end Step

end Fopd.Threads
