import Fopd.Methods
import Fopd.Threads

namespace Fopd.Locks

open Consts Memory Utils FrameTypes Packet Damage EntityStats Data Statistics PacketSniffer DpsMeter Methods
open Lib.Checked Lib.Critical Lib.Transitions

inductive Party
  | sniffer
  | dps
  | ping
  | gui
  deriving DecidableEq

/-- The sniffer holds the lock of the queue from `holding` to the end of `pushed`. -/
inductive SnifferStage
  | ready
  | constructed (pkt : FiestaOnlinePacketDamage)
  | published (pkt : FiestaOnlinePacketDamage)
  | holding (pkt : FiestaOnlinePacketDamage)
  | pushed

/-- The dps thread holds the lock of the queue unless it is asleep. -/
inductive DpsStage
  | sleeping
  | holding
  | expired (now : Time)
  | reported (now : Time)
  | sampled

def SnifferStage.hasQueue : SnifferStage → Bool
  | .holding _ | .pushed => true
  | _ => false

/-- The packet that has been constructed and not been pushed. -/
def SnifferStage.inHand : SnifferStage → List FiestaOnlinePacketDamage
  | .constructed pkt | .published pkt | .holding pkt => [pkt]
  | .ready | .pushed => []

/-- What a getter has returned, and how many calls of setters had been made by then. -/
structure Read where
  getter : Getter
  result : Value
  seen : Nat

/-- All but the store. -/
structure Client where
  dmgQ : List FiestaOnlinePacketDamage := []
  clock : Time
  todo : Packets := []
  sniffer : SnifferStage := .ready
  dps : DpsStage := .sleeping
  count : UInt32 := 0
  pushed : List FiestaOnlinePacketDamage := []
  popped : List FiestaOnlinePacketDamage := []
  windows : List (List FiestaOnlinePacketDamage) := []
  made : List Call := []
  reads : List Read := []

inductive Event
  | capture (payload : List UInt8)
  | construct (now : Time)
  | setTargetRemainingHealth
  | lockForPush
  | push
  | unlockAfterPush
  | lockQueue
  | expire (now : Time)
  | setDPS
  | trySetMaxDmg
  | unlockQueue
  | setPing (ping : UInt32)
  | setServerIndex (serverIndex : UInt64)
  | get (getter : Getter)
  | snifferGetServerIndex
  | pingGetServerIndex

def party : Event → Party
  | .capture _ | .construct _ | .setTargetRemainingHealth | .lockForPush | .push | .unlockAfterPush
  | .snifferGetServerIndex => .sniffer
  | .lockQueue | .expire _ | .setDPS | .trySetMaxDmg | .unlockQueue => .dps
  | .setPing _ | .pingGetServerIndex => .ping
  | .setServerIndex _ | .get _ => .gui

namespace Client

variable (updateDeltaMs : UInt32) (beyond : Nat → UInt8) (c : Client)

/-- A setter, after which the thread goes on from `next`. -/
def set (call : Call) (next : Client) : Access Client FOPDData Vars :=
  if rejected call then .none { next with made := c.made ++ [call] }
  else .locked (setterBody call) fun _ => { next with made := c.made ++ [call] }

def returned (getter : Getter) (vars : Vars) : Client :=
  { c with reads := c.reads ++ [⟨getter, vars.result, c.made.length⟩] }

/-- A getter. The index of the server is read without the lock. -/
def get : Getter → Access Client FOPDData Vars
  | .getServerIndex =>
      .bare (fun data => { result := Getter.value data .getServerIndex }) (c.returned .getServerIndex)
  | getter => .locked (getterBody getter) (c.returned getter)

def capture (payload : List UInt8) : Option Client :=
  match c.sniffer, c.todo with
  | .ready, [] => (getPackets payload beyond).result.map fun pkts => { c with todo := pkts }
  | _, _ => none

def construct (now : Time) : Option Client :=
  if c.clock ≤ now then
    match c.sniffer, c.todo with
    | .ready, (.damagePacket, data) :: todo =>
        (FiestaOnlinePacketDamage.ofVector now data beyond).result.map fun pkt =>
          { c with clock := now, todo, sniffer := .constructed pkt }
    | .ready, (.entityClickPacket, data) :: todo =>
        (FiestaOnlinePacketEntityStats.ofVector now data beyond).result.map fun _ =>
          { c with clock := now, todo }
    | .ready, (.unknownPacket, _) :: todo => some { c with todo }
    | _, _ => none
  else none

def setTargetRemainingHealth : Option (Access Client FOPDData Vars) :=
  match c.sniffer with
  | .constructed pkt =>
      some (c.set (.setTargetRemainingHealth pkt.targetRemainingHealth) { c with sniffer := .published pkt })
  | _ => none

def lockForPush : Option Client :=
  match c.sniffer, c.dps with
  | .published pkt, .sleeping => some { c with sniffer := .holding pkt }
  | _, _ => none

def push : Option Client :=
  match c.sniffer with
  | .holding pkt => some { c with dmgQ := c.dmgQ ++ [pkt], pushed := c.pushed ++ [pkt], sniffer := .pushed }
  | _ => none

def unlockAfterPush : Option Client :=
  match c.sniffer with
  | .pushed => some { c with sniffer := .ready }
  | _ => none

def lockQueue : Option Client :=
  match c.dps with
  | .sleeping => if c.sniffer.hasQueue then none else some { c with dps := .holding }
  | _ => none

def expire (now : Time) : Option Client :=
  if c.clock ≤ now then
    match c.dps with
    | .holding =>
        let lastSec := now - oneSecond
        some { c with
          clock := now
          dmgQ := popExpired lastSec c.dmgQ
          popped := c.popped ++ poppedBy lastSec c.dmgQ
          dps := .expired now }
    | _ => none
  else none

def setDPS : Option (Access Client FOPDData Vars) :=
  match c.dps with
  | .expired now => some (c.set (.setDPS (getDmgQueueSum c.dmgQ)) { c with dps := .reported now })
  | _ => none

def trySetMaxDmg : Option (Access Client FOPDData Vars) :=
  match c.dps with
  | .reported _ =>
      if c.count = resetCount updateDeltaMs then
        some (c.set (.trySetMaxDmg (getDmgQueueMax c.dmgQ))
          { c with windows := c.windows ++ [c.dmgQ], dps := .sampled, count := 0 })
      else none
  | _ => none

/-- Right after the report, or after the maximum has been looked at. -/
def unlockQueue : Option Client :=
  match c.dps with
  | .reported _ =>
      if c.count = resetCount updateDeltaMs then none
      else some { c with windows := c.windows ++ [c.dmgQ], dps := .sleeping, count := c.count + 1 }
  | .sampled => some { c with dps := .sleeping }
  | _ => none

def snifferGetServerIndex : Option (Access Client FOPDData Vars) :=
  match c.sniffer, c.todo with
  | .ready, [] => some (c.get .getServerIndex)
  | _, _ => none

def access : Event → Option (Access Client FOPDData Vars)
  | .capture payload => (c.capture beyond payload).map .none
  | .construct now => (c.construct beyond now).map .none
  | .setTargetRemainingHealth => c.setTargetRemainingHealth
  | .lockForPush => c.lockForPush.map .none
  | .push => c.push.map .none
  | .unlockAfterPush => c.unlockAfterPush.map .none
  | .lockQueue => c.lockQueue.map .none
  | .expire now => (c.expire now).map .none
  | .setDPS => c.setDPS
  | .trySetMaxDmg => c.trySetMaxDmg updateDeltaMs
  | .unlockQueue => (c.unlockQueue updateDeltaMs).map .none
  | .setPing ping => some (c.set (.setPing ping) c)
  | .setServerIndex serverIndex => some (c.set (.setServerIndex serverIndex) c)
  | .get getter => some (c.get getter)
  | .snifferGetServerIndex => c.snifferGetServerIndex
  | .pingGetServerIndex => some (c.get .getServerIndex)

end Client

section Enabled

variable (updateDeltaMs : UInt32) (beyond : Nat → UInt8)

/-- What a thread can do, and how it uses the store for that. -/
inductive Enabled (c : Client) : Event → Access Client FOPDData Vars → Prop
  | capture {payload pkts} (hs : c.sniffer = .ready) (ht : c.todo = [])
      (hp : (getPackets payload beyond).result = some pkts) :
      Enabled c (.capture payload) (.none { c with todo := pkts })
  | constructDamage {now data todo pkt} (hc : c.clock ≤ now) (hs : c.sniffer = .ready)
      (ht : c.todo = (.damagePacket, data) :: todo)
      (hp : (FiestaOnlinePacketDamage.ofVector now data beyond).result = some pkt) :
      Enabled c (.construct now) (.none { c with clock := now, todo, sniffer := .constructed pkt })
  | constructEntity {now data todo pkt} (hc : c.clock ≤ now) (hs : c.sniffer = .ready)
      (ht : c.todo = (.entityClickPacket, data) :: todo)
      (hp : (FiestaOnlinePacketEntityStats.ofVector now data beyond).result = some pkt) :
      Enabled c (.construct now) (.none { c with clock := now, todo })
  | skip {now data todo} (hc : c.clock ≤ now) (hs : c.sniffer = .ready)
      (ht : c.todo = (.unknownPacket, data) :: todo) : Enabled c (.construct now) (.none { c with todo })
  | setTargetRemainingHealth {pkt} (hs : c.sniffer = .constructed pkt) :
      Enabled c .setTargetRemainingHealth
        (c.set (.setTargetRemainingHealth pkt.targetRemainingHealth) { c with sniffer := .published pkt })
  | lockForPush {pkt} (hs : c.sniffer = .published pkt) (hd : c.dps = .sleeping) :
      Enabled c .lockForPush (.none { c with sniffer := .holding pkt })
  | push {pkt} (hs : c.sniffer = .holding pkt) :
      Enabled c .push (.none { c with dmgQ := c.dmgQ ++ [pkt], pushed := c.pushed ++ [pkt], sniffer := .pushed })
  | unlockAfterPush (hs : c.sniffer = .pushed) : Enabled c .unlockAfterPush (.none { c with sniffer := .ready })
  | lockQueue (hd : c.dps = .sleeping) (hs : c.sniffer.hasQueue = false) :
      Enabled c .lockQueue (.none { c with dps := .holding })
  | expire {now} (hc : c.clock ≤ now) (hd : c.dps = .holding) :
      Enabled c (.expire now) (.none { c with
        clock := now
        dmgQ := popExpired (now - oneSecond) c.dmgQ
        popped := c.popped ++ poppedBy (now - oneSecond) c.dmgQ
        dps := .expired now })
  | setDPS {now} (hd : c.dps = .expired now) :
      Enabled c .setDPS (c.set (.setDPS (getDmgQueueSum c.dmgQ)) { c with dps := .reported now })
  | trySetMaxDmg {now} (hd : c.dps = .reported now) (hc : c.count = resetCount updateDeltaMs) :
      Enabled c .trySetMaxDmg (c.set (.trySetMaxDmg (getDmgQueueMax c.dmgQ))
        { c with windows := c.windows ++ [c.dmgQ], dps := .sampled, count := 0 })
  | unlockCounting {now} (hd : c.dps = .reported now) (hc : c.count ≠ resetCount updateDeltaMs) :
      Enabled c .unlockQueue (.none { c with windows := c.windows ++ [c.dmgQ], dps := .sleeping, count := c.count + 1 })
  | unlockSampled (hd : c.dps = .sampled) : Enabled c .unlockQueue (.none { c with dps := .sleeping })
  | setPing {ping} : Enabled c (.setPing ping) (c.set (.setPing ping) c)
  | setServerIndex {serverIndex} : Enabled c (.setServerIndex serverIndex) (c.set (.setServerIndex serverIndex) c)
  | get {getter} : Enabled c (.get getter) (c.get getter)
  | snifferGetServerIndex (hs : c.sniffer = .ready) (ht : c.todo = []) :
      Enabled c .snifferGetServerIndex (c.get .getServerIndex)
  | pingGetServerIndex : Enabled c .pingGetServerIndex (c.get .getServerIndex)

variable {updateDeltaMs beyond} {c c' : Client} {e : Event} {a : Access Client FOPDData Vars}

theorem enabled_of_access (h : c.access updateDeltaMs beyond e = some a) : Enabled updateDeltaMs beyond c e a := by
  cases e with
  | capture payload =>
      simp only [Client.access, Client.capture, Option.map_eq_some_iff] at h
      obtain ⟨next, h, rfl⟩ := h
      split at h
      next hs ht =>
        obtain ⟨pkts, hp, rfl⟩ := Option.map_eq_some_iff.mp h
        exact .capture hs ht hp
      next => cases h
  | construct now =>
      simp only [Client.access, Client.construct, Option.map_eq_some_iff] at h
      obtain ⟨next, h, rfl⟩ := h
      split at h
      next hc =>
        split at h
        next hs ht =>
          obtain ⟨pkt, hp, rfl⟩ := Option.map_eq_some_iff.mp h
          exact .constructDamage hc hs ht hp
        next hs ht =>
          obtain ⟨pkt, hp, rfl⟩ := Option.map_eq_some_iff.mp h
          exact .constructEntity hc hs ht hp
        next hs ht =>
          obtain rfl := Option.some.inj h
          exact .skip hc hs ht
        next => cases h
      next => cases h
  | setTargetRemainingHealth =>
      simp only [Client.access, Client.setTargetRemainingHealth] at h
      split at h
      next hs =>
        obtain rfl := Option.some.inj h
        exact .setTargetRemainingHealth hs
      next => cases h
  | lockForPush =>
      simp only [Client.access, Client.lockForPush, Option.map_eq_some_iff] at h
      obtain ⟨next, h, rfl⟩ := h
      split at h
      next hs hd =>
        obtain rfl := Option.some.inj h
        exact .lockForPush hs hd
      next => cases h
  | push =>
      simp only [Client.access, Client.push, Option.map_eq_some_iff] at h
      obtain ⟨next, h, rfl⟩ := h
      split at h
      next hs =>
        obtain rfl := Option.some.inj h
        exact .push hs
      next => cases h
  | unlockAfterPush =>
      simp only [Client.access, Client.unlockAfterPush, Option.map_eq_some_iff] at h
      obtain ⟨next, h, rfl⟩ := h
      split at h
      next hs =>
        obtain rfl := Option.some.inj h
        exact .unlockAfterPush hs
      next => cases h
  | lockQueue =>
      simp only [Client.access, Client.lockQueue, Option.map_eq_some_iff] at h
      obtain ⟨next, h, rfl⟩ := h
      split at h
      next hd =>
        split at h
        next => cases h
        next hs =>
          obtain rfl := Option.some.inj h
          exact .lockQueue hd (Bool.not_eq_true _ ▸ hs)
      next => cases h
  | expire now =>
      simp only [Client.access, Client.expire, Option.map_eq_some_iff] at h
      obtain ⟨next, h, rfl⟩ := h
      split at h
      next hc =>
        split at h
        next hd =>
          obtain rfl := Option.some.inj h
          exact .expire hc hd
        next => cases h
      next => cases h
  | setDPS =>
      simp only [Client.access, Client.setDPS] at h
      split at h
      next hd =>
        obtain rfl := Option.some.inj h
        exact .setDPS hd
      next => cases h
  | trySetMaxDmg =>
      simp only [Client.access, Client.trySetMaxDmg] at h
      split at h
      next hd =>
        split at h
        next hc =>
          obtain rfl := Option.some.inj h
          exact .trySetMaxDmg hd hc
        next => cases h
      next => cases h
  | unlockQueue =>
      simp only [Client.access, Client.unlockQueue, Option.map_eq_some_iff] at h
      obtain ⟨next, h, rfl⟩ := h
      split at h
      next hd =>
        split at h
        next => cases h
        next hc =>
          obtain rfl := Option.some.inj h
          exact .unlockCounting hd hc
      next hd =>
        obtain rfl := Option.some.inj h
        exact .unlockSampled hd
      next => cases h
  | setPing ping =>
      obtain rfl := Option.some.inj h
      exact .setPing
  | setServerIndex serverIndex =>
      obtain rfl := Option.some.inj h
      exact .setServerIndex
  | get getter =>
      obtain rfl := Option.some.inj h
      exact .get
  | snifferGetServerIndex =>
      simp only [Client.access, Client.snifferGetServerIndex] at h
      split at h
      next hs ht =>
        obtain rfl := Option.some.inj h
        exact .snifferGetServerIndex hs ht
      next => cases h
  | pingGetServerIndex =>
      obtain rfl := Option.some.inj h
      exact .pingGetServerIndex

theorem Enabled.access_eq (h : Enabled updateDeltaMs beyond c e a) : c.access updateDeltaMs beyond e = some a := by
  cases h with
  | capture hs ht hp => simp only [Client.access, Client.capture, hs, ht, hp, Option.map_some]
  | constructDamage hc hs ht hp | constructEntity hc hs ht hp =>
      simp only [Client.access, Client.construct, hc, hs, ht, hp, if_true, Option.map_some]
  | skip hc hs ht => simp only [Client.access, Client.construct, hc, hs, ht, if_true, Option.map_some]
  | setTargetRemainingHealth hs => simp only [Client.access, Client.setTargetRemainingHealth, hs]
  | lockForPush hs hd => simp only [Client.access, Client.lockForPush, hs, hd, Option.map_some]
  | push hs => simp only [Client.access, Client.push, hs, Option.map_some]
  | unlockAfterPush hs => simp only [Client.access, Client.unlockAfterPush, hs, Option.map_some]
  | lockQueue hd hs => simp [Client.access, Client.lockQueue, hd, hs]
  | expire hc hd => simp only [Client.access, Client.expire, hc, hd, if_true, Option.map_some]
  | setDPS hd => simp only [Client.access, Client.setDPS, hd]
  | trySetMaxDmg hd hc => simp only [Client.access, Client.trySetMaxDmg, hd, hc, if_true]
  | unlockCounting hd hc => simp only [Client.access, Client.unlockQueue, hd, hc, if_false, Option.map_some]
  | unlockSampled hd => simp only [Client.access, Client.unlockQueue, hd, Option.map_some]
  | snifferGetServerIndex hs ht => simp only [Client.access, Client.snifferGetServerIndex, hs, ht]
  | setPing | setServerIndex | get | pingGetServerIndex => rfl

end Enabled

def program (updateDeltaMs : UInt32) (beyond : Nat → UInt8) : Program Client FOPDData Vars Event Party where
  party := party
  access := Client.access updateDeltaMs beyond

abbrev State := Lib.Critical.State Client FOPDData Vars Event

def start (clock : Time) : State := ⟨{ clock := clock }, {}, none⟩

end Fopd.Locks
