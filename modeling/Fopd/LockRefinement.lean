import Fopd.Locks

namespace Fopd.LockRefinement

open Consts Packet Damage Data Statistics DpsMeter Methods Locks
open Lib.Critical Lib.Transitions

section Accesses

variable {c c' next : Client} {setter : Call} {getter : Getter}

theorem outcome_set (c : Client) (setter : Call) (next : Client) (data : FOPDData) :
    (c.set setter next).outcome data = ({ next with made := c.made ++ [setter] }, call data setter) := by
  rw [Client.set]
  split
  next h =>
    rw [call_of_rejected h]
    rfl
  next h =>
    have hr := run_setterBody (Bool.eq_false_of_not_eq_true h) data default
    rw [Access.outcome, hr]

theorem outcome_get (c : Client) (getter : Getter) (data : FOPDData) : (c.get getter).outcome data =
    ({ c with reads := c.reads ++ [⟨getter, getter.value data, c.made.length⟩] }, data) := by
  have hr := run_getterBody getter data
  cases getter with
  | getServerIndex => rfl
  | getDPS | getMaxDPS | getMaxDmg | getPing | getTargetRemainingHealth | getDPSAverage | getDPSRollingAverage =>
      rw [Client.get, Access.outcome, hr.1, Client.returned, hr.2]
      exact fun h => nomatch h

theorem leads_set (h : (c.set setter next).Leads c') : c' = { next with made := c.made ++ [setter] } := by
  rw [Client.set] at h
  split at h
  next => exact h.symm
  next => exact h.choose_spec.symm

theorem leads_get (h : (c.get getter).Leads c') :
    ∃ result, c' = { c with reads := c.reads ++ [⟨getter, result, c.made.length⟩] } := by
  cases getter <;> exact ⟨_, h.choose_spec.symm⟩

theorem set_eq_locked {body : Body FOPDData Vars} {k : Vars → Client} (h : c.set setter next = .locked body k) :
    rejected setter = false ∧ setterBody setter = body := by
  rw [Client.set] at h
  split at h
  next => exact nomatch h
  next hr => exact ⟨Bool.eq_false_of_not_eq_true hr, (Access.locked.inj h).1⟩

theorem set_of_not_rejected (h : rejected setter = false) (c next : Client) :
    ∃ k, c.set setter next = .locked (setterBody setter) k := by
  rw [Client.set, h]
  exact ⟨_, rfl⟩

theorem get_eq_locked {body : Body FOPDData Vars} {k : Vars → Client} (h : c.get getter = .locked body k) :
    getterBody getter = body ∧ ∀ c' : Client, c'.get getter = .locked body (c'.returned getter) := by
  cases getter with
  | getServerIndex => exact nomatch h
  | getDPS | getMaxDPS | getMaxDmg | getPing | getTargetRemainingHealth | getDPSAverage | getDPSRollingAverage =>
      obtain ⟨rfl, -⟩ := Access.locked.inj h
      exact ⟨rfl, fun c' => rfl⟩

theorem get_eq_bare {read : FOPDData → Vars} {k : Vars → Client} (h : c.get getter = .bare read k) :
    read = fun data => { result := .size data.serverIndex } := by
  cases getter with
  | getServerIndex => exact (Access.bare.inj h).1.symm
  | getDPS | getMaxDPS | getMaxDmg | getPing | getTargetRemainingHealth | getDPSAverage | getDPSRollingAverage =>
      exact nomatch h

theorem set_ne_bare {read : FOPDData → Vars} {k : Vars → Client} : c.set setter next ≠ .bare read k := by
  rw [Client.set]
  split <;> exact fun h => nomatch h

end Accesses

/-- At most one of the two threads has the lock of the queue. -/
def Exclusive (c : Client) : Prop := c.sniffer.hasQueue = true → c.dps = .sleeping

theorem exclusive_start {clock : Time} : Exclusive { clock := clock } := fun h => nomatch h

section Frames

variable {updateDeltaMs : UInt32} {beyond : Nat → UInt8} {c c' : Client} {e : Event} {a : Access Client FOPDData Vars}

theorem Exclusive.keeps (h : Exclusive c) (he : Enabled updateDeltaMs beyond c e a) (hc : a.Leads c') :
    Exclusive c' := by
  cases he with
  | setTargetRemainingHealth | setDPS | trySetMaxDmg | setPing | setServerIndex =>
      rw [leads_set hc]
      simp_all [Exclusive, SnifferStage.hasQueue]
  | get | snifferGetServerIndex | pingGetServerIndex =>
      obtain ⟨result, rfl⟩ := leads_get hc
      exact h
  | _ =>
      obtain rfl := hc
      simp_all [Exclusive, SnifferStage.hasQueue]

/-- Only the sniffer thread changes where it is. -/
theorem sniffer_eq (he : Enabled updateDeltaMs beyond c e a) (hc : a.Leads c') (hp : party e ≠ .sniffer) :
    c'.sniffer = c.sniffer := by
  cases he with
  | setTargetRemainingHealth | capture | constructDamage | constructEntity | skip | lockForPush | push
  | unlockAfterPush | snifferGetServerIndex => exact absurd rfl hp
  | setDPS | trySetMaxDmg | setPing | setServerIndex => rw [leads_set hc]
  | get | pingGetServerIndex =>
      obtain ⟨result, rfl⟩ := leads_get hc
      rfl
  | _ =>
      obtain rfl := hc
      rfl

/-- Of the data of the dps thread the others only change the queue, with its lock. -/
theorem dps_eq (he : Enabled updateDeltaMs beyond c e a) (hc : a.Leads c') (hp : party e ≠ .dps) :
    c'.dps = c.dps ∧ c'.count = c.count ∧ (c'.dmgQ = c.dmgQ ∨ c.sniffer.hasQueue = true) := by
  cases he with
  | lockQueue | expire | setDPS | trySetMaxDmg | unlockCounting | unlockSampled => exact absurd rfl hp
  | setTargetRemainingHealth | setPing | setServerIndex =>
      rw [leads_set hc]
      exact ⟨rfl, rfl, Or.inl rfl⟩
  | get | snifferGetServerIndex | pingGetServerIndex =>
      obtain ⟨result, rfl⟩ := leads_get hc
      exact ⟨rfl, rfl, Or.inl rfl⟩
  | push hs =>
      obtain rfl := hc
      exact ⟨rfl, rfl, Or.inr (by rw [hs]; rfl)⟩
  | _ =>
      obtain rfl := hc
      exact ⟨rfl, rfl, Or.inl rfl⟩

theorem stable {body : Body FOPDData Vars} {k : Vars → Client} {e' : Event} (hI : Exclusive c)
    (he : Enabled updateDeltaMs beyond c e (.locked body k)) (hp : party e ≠ party e')
    (he' : Enabled updateDeltaMs beyond c e' a) (hc : a.Leads c') :
    ∃ k', c'.access updateDeltaMs beyond e = some (.locked body k') := by
  have hdps (hd : c.dps ≠ .sleeping) (hne : party e' ≠ .dps) :
      c'.dps = c.dps ∧ c'.count = c.count ∧ c'.dmgQ = c.dmgQ := by
    obtain ⟨h1, h2, h3⟩ := dps_eq he' hc hne
    exact ⟨h1, h2, h3.resolve_right fun hq => hd (hI hq)⟩
  generalize hb : Access.locked body k = b at he
  cases he with
  | @setTargetRemainingHealth pkt hs =>
      have hs' := sniffer_eq he' hc hp.symm
      obtain ⟨hr, rfl⟩ := set_eq_locked hb.symm
      obtain ⟨k', hk'⟩ := set_of_not_rejected hr c' { c' with sniffer := .published pkt }
      exact ⟨k', (Enabled.setTargetRemainingHealth (hs'.trans hs)).access_eq.trans (congrArg some hk')⟩
  | @setDPS now hd =>
      obtain ⟨hd', -, hq'⟩ := hdps (by rw [hd]; exact fun h => nomatch h) hp.symm
      obtain ⟨hr, rfl⟩ := set_eq_locked hb.symm
      obtain ⟨k', hk'⟩ := set_of_not_rejected hr c' { c' with dps := .reported now }
      rw [← hq'] at hk' ⊢
      exact ⟨k', (Enabled.setDPS (hd'.trans hd)).access_eq.trans (congrArg some hk')⟩
  | @trySetMaxDmg now hd hcount =>
      obtain ⟨hd', hcount', hq'⟩ := hdps (by rw [hd]; exact fun h => nomatch h) hp.symm
      obtain ⟨hr, rfl⟩ := set_eq_locked hb.symm
      obtain ⟨k', hk'⟩ := set_of_not_rejected hr c'
        { c' with windows := c'.windows ++ [c'.dmgQ], dps := .sampled, count := 0 }
      rw [← hq'] at hk' ⊢
      exact ⟨k', (Enabled.trySetMaxDmg (hd'.trans hd) (hcount'.trans hcount)).access_eq.trans (congrArg some hk')⟩
  | setPing | setServerIndex =>
      obtain ⟨hr, rfl⟩ := set_eq_locked hb.symm
      obtain ⟨k', hk'⟩ := set_of_not_rejected hr c' c'
      exact ⟨k', congrArg some hk'⟩
  | get => exact ⟨_, congrArg some ((get_eq_locked hb.symm).2 c')⟩
  | snifferGetServerIndex | pingGetServerIndex | _ => exact nomatch hb

/-- The index of the server is written by one statement. -/
theorem blind {body : Body FOPDData Vars} {k k' : Vars → Client} {e' : Event} {read : FOPDData → Vars}
    (he : Enabled updateDeltaMs beyond c e (.locked body k))
    (he' : Enabled updateDeltaMs beyond c' e' (.bare read k')) : ∀ f ∈ body.init, ∀ p, read (f p).1 = read p.1 := by
  have hread : read = fun data => { result := .size data.serverIndex } := by
    generalize hb : Access.bare read k' = b at he'
    cases he' with
    | get | snifferGetServerIndex | pingGetServerIndex => exact get_eq_bare hb.symm
    | setTargetRemainingHealth | setDPS | trySetMaxDmg | setPing | setServerIndex => exact absurd hb.symm set_ne_bare
    | _ => exact nomatch hb
  have hinit : ∀ f ∈ body.init, ∀ p, (f p).1.serverIndex = p.1.serverIndex := by
    generalize hb : Access.locked body k = b at he
    cases he with
    | setTargetRemainingHealth | setDPS | trySetMaxDmg | setPing | setServerIndex =>
        obtain ⟨-, rfl⟩ := set_eq_locked hb.symm
        exact serverIndex_init _
    | @get getter =>
        obtain ⟨rfl, -⟩ := get_eq_locked hb.symm
        intro f hf p
        rw [init_getterBody getter f hf p]
    | _ => exact nomatch hb
  intro f hf p
  rw [hread]
  exact congrArg (fun i => ({ result := .size i } : Vars)) (hinit f hf p)

theorem separate : (program updateDeltaMs beyond).Separate Exclusive where
  keeps _ _ _ _ hI he hc := hI.keeps (enabled_of_access he) hc
  stable _ _ _ _ _ _ _ hI he hp he' hc := stable hI (enabled_of_access he) hp (enabled_of_access he') hc
  blind _ _ _ _ _ _ _ _ he he' := blind (enabled_of_access he) (enabled_of_access he')

end Frames

/-- The store is that of the calls made so far, and each getter has returned what it is for the calls made
by then. -/
structure Consistent (t : Client × FOPDData) : Prop where
  store : t.2 = calls {} t.1.made
  reads : ∀ r ∈ t.1.reads, r.seen ≤ t.1.made.length ∧ r.result = r.getter.value (calls {} (t.1.made.take r.seen))
  inOrder : (t.1.reads.map Read.seen).Pairwise (· ≤ ·)

section Consistent

variable {updateDeltaMs : UInt32} {beyond : Nat → UInt8} {c : Client} {data : FOPDData} {e : Event}

theorem Consistent.set (h : Consistent (c, data)) (setter : Call) {next : Client} (hr : next.reads = c.reads) :
    Consistent ({ next with made := c.made ++ [setter] }, call data setter) where
  store := by
    have hstore : data = calls {} c.made := h.store
    rw [calls_append, ← hstore]
    rfl
  reads r hr' := by
    obtain ⟨hle, hv⟩ := h.reads r (hr ▸ hr')
    refine ⟨?_, ?_⟩
    · rw [List.length_append]
      exact Nat.le_add_right_of_le hle
    · rw [List.take_append_of_le_length hle, hv]
  inOrder := by
    change (next.reads.map Read.seen).Pairwise _
    rw [hr]
    exact h.inOrder

theorem Consistent.get (h : Consistent (c, data)) (getter : Getter) :
    Consistent ({ c with reads := c.reads ++ [⟨getter, getter.value data, c.made.length⟩] }, data) where
  store := h.store
  reads := by
    have hstore : data = calls {} c.made := h.store
    rw [List.forall_mem_append, List.forall_mem_singleton]
    refine ⟨h.reads, le_rfl, ?_⟩
    rw [List.take_length, ← hstore]
  inOrder := by
    rw [List.map_append, List.pairwise_append]
    refine ⟨h.inOrder, List.pairwise_singleton _ _, ?_⟩
    intro n hn m hm
    obtain ⟨r, hr, rfl⟩ := List.mem_map.mp hn
    rw [List.mem_singleton.mp hm]
    exact (h.reads r hr).1

theorem Consistent.step {t t' : Client × FOPDData} (h : Consistent t)
    (ht : (program updateDeltaMs beyond).atomic t e = some t') : Consistent t' := by
  obtain ⟨c, data⟩ := t
  obtain ⟨a, ha, rfl⟩ := Option.map_eq_some_iff.mp ht
  cases enabled_of_access ha with
  | setTargetRemainingHealth | setDPS | trySetMaxDmg | setPing | setServerIndex =>
      rw [outcome_set]
      exact h.set _ rfl
  | get | snifferGetServerIndex | pingGetServerIndex =>
      rw [outcome_get]
      exact h.get _
  | _ => exact ⟨h.store, h.reads, h.inOrder⟩

end Consistent

def snifferStage : SnifferStage → Threads.SnifferStage
  | .ready | .pushed => .ready
  | .constructed pkt => .constructed pkt
  | .published pkt | .holding pkt => .published pkt

def dpsStage : DpsStage → Threads.DpsStage
  | .sleeping | .holding | .sampled => .sleeping
  | .expired now => .expired now
  | .reported now => .reported now

def withoutLocks (t : Client × FOPDData) : Threads.State where
  fopdData := t.2
  dmgQ := t.1.dmgQ
  clock := t.1.clock
  todo := t.1.todo
  sniffer := snifferStage t.1.sniffer
  dps := dpsStage t.1.dps
  count := t.1.count
  pushed := t.1.pushed
  popped := t.1.popped
  windows := t.1.windows

/-- What is captured, with the locks and without. -/
def payloadOf : Event → Option (List UInt8)
  | .capture payload => some payload
  | _ => none

def payloadOfThreads : Threads.Event → Option (List UInt8)
  | .capture payload => some payload
  | _ => none

def payloads (ms : List (Move Event)) : List (List UInt8) := (ms.filterMap Move.event).filterMap payloadOf

section Simulation

variable {updateDeltaMs : UInt32} {beyond : Nat → UInt8} {c : Client} {data : FOPDData} {e : Event}

theorem payloadOf_of_locked {body : Body FOPDData Vars} {k : Vars → Client}
    (h : c.access updateDeltaMs beyond e = some (.locked body k)) : payloadOf e = none := by
  generalize hb : Access.locked body k = b at h
  cases enabled_of_access h with
  | capture => exact nomatch hb
  | _ => rfl

theorem step_withoutLocks {t t' : Client × FOPDData} (hI : Exclusive t.1)
    (hstep : (program updateDeltaMs beyond).atomic t e = some t') :
    (withoutLocks t' = withoutLocks t ∧ payloadOf e = none) ∨
      ∃ e', Threads.State.step updateDeltaMs beyond (withoutLocks t) e' = some (withoutLocks t') ∧
        payloadOfThreads e' = payloadOf e := by
  obtain ⟨c, data⟩ := t
  obtain ⟨a, ha, rfl⟩ := Option.map_eq_some_iff.mp hstep
  have hs {st : SnifferStage} (h : c.sniffer = st) : (withoutLocks (c, data)).sniffer = snifferStage st :=
    congrArg snifferStage h
  have hd {st : DpsStage} (h : c.dps = st) : (withoutLocks (c, data)).dps = dpsStage st := congrArg dpsStage h
  cases enabled_of_access ha with
  | capture h ht hp => exact Or.inr ⟨_, (Threads.Step.capture (hs h) ht hp).step_eq, rfl⟩
  | constructDamage hc h ht hp => exact Or.inr ⟨_, (Threads.Step.constructDamage hc (hs h) ht hp).step_eq, rfl⟩
  | constructEntity hc h ht hp => exact Or.inr ⟨_, (Threads.Step.constructEntity hc (hs h) ht hp).step_eq, rfl⟩
  | skip hc h ht => exact Or.inr ⟨_, (Threads.Step.skip hc (hs h) ht).step_eq, rfl⟩
  | setTargetRemainingHealth h =>
      rw [outcome_set]
      exact Or.inr ⟨_, (Threads.Step.setTargetRemainingHealth (hs h)).step_eq, rfl⟩
  | lockForPush h h' => exact Or.inl ⟨congrArg (fun st => { withoutLocks (c, data) with sniffer := st }) (hs h).symm, rfl⟩
  | push h =>
      have hasleep : c.dps = .sleeping := hI (by rw [h]; rfl)
      exact Or.inr ⟨_, (Threads.Step.push (hs h) (hd hasleep)).step_eq, rfl⟩
  | unlockAfterPush h => exact Or.inl ⟨congrArg (fun st => { withoutLocks (c, data) with sniffer := st }) (hs h).symm, rfl⟩
  | lockQueue h h' => exact Or.inl ⟨congrArg (fun st => { withoutLocks (c, data) with dps := st }) (hd h).symm, rfl⟩
  | expire hc h => exact Or.inr ⟨_, (Threads.Step.expire hc (hd h)).step_eq, rfl⟩
  | setDPS h =>
      rw [outcome_set]
      exact Or.inr ⟨_, (Threads.Step.setDPS (hd h)).step_eq, rfl⟩
  | trySetMaxDmg h hc =>
      rw [outcome_set]
      exact Or.inr ⟨_, (Threads.Step.finishSampling (hd h) hc).step_eq, rfl⟩
  | unlockCounting h hc => exact Or.inr ⟨_, (Threads.Step.finishCounting (hd h) hc).step_eq, rfl⟩
  | unlockSampled h => exact Or.inl ⟨congrArg (fun st => { withoutLocks (c, data) with dps := st }) (hd h).symm, rfl⟩
  | @setPing ping =>
      rw [outcome_set]
      exact Or.inr ⟨.setPing ping, rfl, rfl⟩
  | @setServerIndex serverIndex =>
      rw [outcome_set]
      exact Or.inr ⟨.setServerIndex serverIndex, rfl, rfl⟩
  | get | snifferGetServerIndex | pingGetServerIndex =>
      rw [outcome_get]
      exact Or.inl ⟨rfl, rfl⟩

end Simulation

section Progress

variable {updateDeltaMs : UInt32} {beyond : Nat → UInt8} {c : Client} {data : FOPDData} {Q : Client → Prop}

/-- Some events in a row take the threads to a state like this. -/
def Reaches (updateDeltaMs : UInt32) (beyond : Nat → UInt8) (c : Client) (data : FOPDData) (Q : Client → Prop) : Prop :=
  ∃ es t, run (program updateDeltaMs beyond).atomic (c, data) es = some t ∧ Q t.1

theorem Reaches.of_enabled {e : Event} {a : Access Client FOPDData Vars} (he : Enabled updateDeltaMs beyond c e a)
    (h : Reaches updateDeltaMs beyond (a.outcome data).1 (a.outcome data).2 Q) :
    Reaches updateDeltaMs beyond c data Q := by
  obtain ⟨es, t, ht, hQ⟩ := h
  have hstep : (program updateDeltaMs beyond).atomic (c, data) e = some (a.outcome data) :=
    congrArg (Option.map fun a : Access Client FOPDData Vars => a.outcome data) he.access_eq
  exact ⟨e :: es, t, run_cons_eq_some.mpr ⟨_, hstep, ht⟩, hQ⟩

theorem Reaches.trans {Q' : Client → Prop} (h : Reaches updateDeltaMs beyond c data Q)
    (h' : ∀ c data, Q c → Reaches updateDeltaMs beyond c data Q') : Reaches updateDeltaMs beyond c data Q' := by
  obtain ⟨es, t, ht, hQ⟩ := h
  obtain ⟨es', t', ht', hQ'⟩ := h' t.1 t.2 hQ
  exact ⟨es ++ es', t', by rw [run_append, ht, Option.bind_some, ht'], hQ'⟩

theorem reaches_now (hQ : Q c) : Reaches updateDeltaMs beyond c data Q := ⟨[], (c, data), rfl, hQ⟩

/-- The sniffer thread is where it was, with the packets pushed and in hand. -/
def Owes (owed : List FiestaOnlinePacketDamage) (st : SnifferStage) (c : Client) : Prop :=
  c.sniffer = st ∧ c.pushed ++ st.inHand = owed

def Asleep (owed : List FiestaOnlinePacketDamage) (st : SnifferStage) (c : Client) : Prop :=
  Owes owed st c ∧ c.dps = .sleeping

theorem owes_of_locked {e : Event} {body : Body FOPDData Vars} {k : Vars → Client} {c' : Client}
    (he : Enabled updateDeltaMs beyond c e (.locked body k)) (hc : (Access.locked body k).Leads c') :
    c'.pushed ++ c'.sniffer.inHand = c.pushed ++ c.sniffer.inHand := by
  generalize hb : Access.locked body k = a at he hc
  cases he with
  | setTargetRemainingHealth hs =>
      rw [leads_set hc, hs]
      rfl
  | setDPS | trySetMaxDmg | setPing | setServerIndex => rw [leads_set hc]
  | get | snifferGetServerIndex | pingGetServerIndex =>
      obtain ⟨result, rfl⟩ := leads_get hc
      rfl
  | _ => exact nomatch hb

variable {owed : List FiestaOnlinePacketDamage} {st : SnifferStage}

theorem reaches_of_sampled (hs : Owes owed st c) (hd : c.dps = .sampled) :
    Reaches updateDeltaMs beyond c data (Asleep owed st) :=
  .of_enabled (.unlockSampled hd) (reaches_now ⟨hs, rfl⟩)

theorem reaches_of_reported {now : Time} (hs : Owes owed st c) (hd : c.dps = .reported now) :
    Reaches updateDeltaMs beyond c data (Asleep owed st) := by
  by_cases hc : c.count = resetCount updateDeltaMs
  · apply Reaches.of_enabled (.trySetMaxDmg hd hc)
    rw [outcome_set]
    exact reaches_of_sampled hs rfl
  · exact .of_enabled (.unlockCounting hd hc) (reaches_now ⟨hs, rfl⟩)

theorem reaches_of_expired {now : Time} (hs : Owes owed st c) (hd : c.dps = .expired now) :
    Reaches updateDeltaMs beyond c data (Asleep owed st) := by
  apply Reaches.of_enabled (.setDPS hd)
  rw [outcome_set]
  exact reaches_of_reported hs (Eq.refl (DpsStage.reported now))

theorem reaches_asleep (hs : Owes owed st c) : Reaches updateDeltaMs beyond c data (Asleep owed st) := by
  cases hd : c.dps with
  | sleeping => exact reaches_now ⟨hs, hd⟩
  | holding => exact .of_enabled (.expire le_rfl hd) (reaches_of_expired hs rfl)
  | expired now => exact reaches_of_expired hs hd
  | reported now => exact reaches_of_reported hs hd
  | sampled => exact reaches_of_sampled hs hd

theorem reaches_of_pushed (hc : Asleep owed .pushed c) : Reaches updateDeltaMs beyond c data (Asleep owed .ready) :=
  .of_enabled (.unlockAfterPush hc.1.1) (reaches_now ⟨⟨rfl, hc.1.2⟩, hc.2⟩)

theorem reaches_of_held {pkt : FiestaOnlinePacketDamage} (hc : Asleep owed (.holding pkt) c) :
    Reaches updateDeltaMs beyond c data (Asleep owed .ready) :=
  .of_enabled (.push hc.1.1) (reaches_of_pushed ⟨⟨rfl, (List.append_nil _).trans hc.1.2⟩, hc.2⟩)

theorem reaches_of_published {pkt : FiestaOnlinePacketDamage} (hc : Asleep owed (.published pkt) c) :
    Reaches updateDeltaMs beyond c data (Asleep owed .ready) :=
  .of_enabled (.lockForPush hc.1.1 hc.2) (reaches_of_held ⟨⟨rfl, hc.1.2⟩, hc.2⟩)

theorem reaches_ready (hc : Asleep owed st c) : Reaches updateDeltaMs beyond c data (Asleep owed .ready) := by
  cases st with
  | ready => exact reaches_now hc
  | constructed pkt =>
      apply Reaches.of_enabled (.setTargetRemainingHealth hc.1.1)
      rw [outcome_set]
      exact reaches_of_published ⟨⟨rfl, hc.1.2⟩, hc.2⟩
  | published pkt => exact reaches_of_published hc
  | holding pkt => exact reaches_of_held hc
  | pushed => exact reaches_of_pushed hc

end Progress

section Runs

variable (updateDeltaMs : UInt32) (beyond : Nat → UInt8) (clock : Time) (ms : List (Move Event)) (s : State)

theorem refines_of_run (h : run (program updateDeltaMs beyond).step (start clock) ms = some s) :
    ∃ es t, run (program updateDeltaMs beyond).atomic ({ clock := clock }, {}) es = some t ∧
      (program updateDeltaMs beyond).Refines Exclusive s t ∧ es.filterMap payloadOf = payloads ms :=
  Program.Refines.run (fun _ _ _ _ he => payloadOf_of_locked he) separate (Program.refines_free exclusive_start) h

/-- What happens at once is, without the locks, a run of the threads with the same payloads. -/
theorem threads_of_run_atomic {es : List Event} {t : Client × FOPDData}
    (h : run (program updateDeltaMs beyond).atomic ({ clock := clock }, {}) es = some t) :
    ∃ es', run (Threads.State.step updateDeltaMs beyond) (Threads.start clock) es' = some (withoutLocks t) ∧
      es'.filterMap payloadOfThreads = es.filterMap payloadOf := by
  refine run_observes (f := withoutLocks) (I := fun t => Exclusive t.1) ?_ ?_ exclusive_start h
  · intro t e t' hI ht
    obtain ⟨a, ha, rfl⟩ := Option.map_eq_some_iff.mp ht
    exact hI.keeps (enabled_of_access ha) (a.leads_outcome t.2)
  · exact fun t e t' hI ht => step_withoutLocks hI ht

/-- The sniffer thread reads the index of the server in the middle of `setDPS`. -/
def interleaved : List (Move Event) :=
  [.act .lockQueue, .act (.expire 0), .enter .setDPS, .exec, .exec, .act .snifferGetServerIndex, .exec, .exec,
    .exec, .leave, .enter (.get .getDPSRollingAverage), .exec]

/-- However the statements of the methods interleave, the threads do what they do with these payloads when
methods run at once: whenever no method is in progress the store is that of such a run, and the queue always is. -/
theorem threads_of_run (h : run (program updateDeltaMs beyond).step (start clock) ms = some s) :
    ∃ es data, run (Threads.State.step updateDeltaMs beyond) (Threads.start clock) es =
        some (withoutLocks (s.client, data)) ∧ es.filterMap payloadOfThreads = payloads ms ∧
      (s.holder = none → s.memory = data) := by
  obtain ⟨es, t, ht, hr, hseen⟩ := refines_of_run updateDeltaMs beyond clock ms s h
  obtain ⟨es', hes, hseen'⟩ := threads_of_run_atomic updateDeltaMs beyond clock ht
  refine ⟨es', t.2, ?_, hseen'.trans hseen, fun hs => (hr.free hs).symm⟩
  rw [← hr.client]
  exact hes

/-- What a getter returns is what it returns of the calls that have been made before, all of them
completed and none of them in part; a later getter sees no fewer. -/
theorem reads_of_run (h : run (program updateDeltaMs beyond).step (start clock) ms = some s) :
    (∀ r ∈ s.client.reads, r.seen ≤ s.client.made.length ∧
      r.result = r.getter.value (calls {} (s.client.made.take r.seen))) ∧
    (s.client.reads.map Read.seen).Pairwise (· ≤ ·) ∧
    (s.holder = none → s.memory = calls {} s.client.made) := by
  obtain ⟨es, t, ht, hr, -⟩ := refines_of_run updateDeltaMs beyond clock ms s h
  have hc : Consistent t := run_invariant (fun _ _ _ hc ht => hc.step ht)
    ⟨rfl, List.forall_mem_nil _, List.Pairwise.nil⟩ ht
  rw [← hr.client]
  exact ⟨hc.reads, hc.inOrder, fun hs => (hr.free hs).symm.trans hc.store⟩

/-- From every state of a run the threads can go on until all locks are free, and the packet that has been
constructed, if there is one, has been pushed into the queue as the next one. -/
theorem locks_released (h : run (program updateDeltaMs beyond).step (start clock) ms = some s) :
    ∃ ms' s', run (program updateDeltaMs beyond).step s ms' = some s' ∧ s'.holder = none ∧
      s'.client.dps = .sleeping ∧ s'.client.sniffer = .ready ∧
      s'.client.pushed = s.client.pushed ++ s.client.sniffer.inHand := by
  obtain ⟨es, t, -, hr, -⟩ := refines_of_run updateDeltaMs beyond clock ms s h
  obtain ⟨ms₁, s₁, h₁, hfree, hclient⟩ := hr.release
  have howed : s₁.client.pushed ++ s₁.client.sniffer.inHand = s.client.pushed ++ s.client.sniffer.inHand := by
    rcases hclient with hclient | ⟨e, body, next, he, hc⟩
    · rw [hclient]
    · exact owes_of_locked (enabled_of_access he) hc
  obtain ⟨c, data, holder⟩ := s₁
  obtain rfl : holder = none := hfree
  have hreaches : Reaches updateDeltaMs beyond c data (Asleep (s.client.pushed ++ s.client.sniffer.inHand) .ready) :=
    (reaches_asleep ⟨rfl, howed⟩).trans fun c data hc => reaches_ready hc
  obtain ⟨es, t', ht', ⟨hready, hpushed⟩, hasleep⟩ := hreaches
  obtain ⟨ms₂, h₂⟩ := Program.run_of_run_atomic ht'
  refine ⟨ms₁ ++ ms₂, _, by rw [run_append, h₁, Option.bind_some, h₂], rfl, hasleep, hready, ?_⟩
  exact (List.append_nil _).symm.trans hpushed

end Runs

theorem interleaved_run : ∃ s, run (program 1000 fun _ => 0).step (start 0) interleaved = some s ∧
    s.holder.isSome = true ∧ s.client.made = [.setDPS 0] ∧ s.client.reads.map Read.seen = [0] := by
  have hrun : (run (program 1000 fun _ => 0).step (start 0) interleaved).map (fun s =>
      (s.holder.isSome, s.client.made, s.client.reads.map Read.seen)) = some (true, [.setDPS 0], [0]) := by
    decide +kernel
  obtain ⟨s, hs, hv⟩ := Option.map_eq_some_iff.mp hrun
  obtain ⟨h₁, h₂⟩ := Prod.mk.inj hv
  obtain ⟨h₂, h₃⟩ := Prod.mk.inj h₂
  exact ⟨s, hs, h₁, h₂, h₃⟩

theorem threads_of_run_interleaved : ∃ s es data,
    run (program 1000 fun _ => 0).step (start 0) interleaved = some s ∧
    run (Threads.State.step 1000 fun _ => 0) (Threads.start 0) es = some (withoutLocks (s.client, data)) := by
  obtain ⟨s, hs, -⟩ := interleaved_run
  obtain ⟨es, data, hes, -⟩ := threads_of_run 1000 (fun _ => 0) 0 interleaved s hs
  exact ⟨s, es, data, hs, hes⟩

theorem reads_of_run_interleaved : ∃ s, run (program 1000 fun _ => 0).step (start 0) interleaved = some s ∧
    s.client.reads.map Read.seen = [0] ∧
    ∀ r ∈ s.client.reads, r.result = r.getter.value (calls {} (s.client.made.take r.seen)) := by
  obtain ⟨s, hs, -, -, hseen⟩ := interleaved_run
  exact ⟨s, hs, hseen, fun r hr => ((reads_of_run 1000 (fun _ => 0) 0 interleaved s hs).1 r hr).2⟩

/-- The sniffer thread waits for the lock of the queue, with a hit in its hand. -/
def waiting : List (Move Event) :=
  [.act (.capture (25 :: 0x52 :: 0x24 :: List.replicate 23 1)), .act (.construct 0), .enter .setTargetRemainingHealth,
    .exec, .leave, .act .lockQueue, .act (.expire 0), .enter .setDPS, .exec]

theorem locks_released_waiting : ∃ s ms' s',
    run (program 1000 fun _ => 0).step (start 0) waiting = some s ∧ s.holder.isSome = true ∧
    s.client.pushed.length = 0 ∧ run (program 1000 fun _ => 0).step s ms' = some s' ∧ s'.holder = none ∧
    s'.client.dps = .sleeping ∧ s'.client.pushed.length = 1 := by
  have hrun : (run (program 1000 fun _ => 0).step (start 0) waiting).map (fun s =>
      (s.holder.isSome, s.client.pushed.length, s.client.sniffer.inHand.length)) = some (true, 0, 1) := by
    decide +kernel
  obtain ⟨s, hs, hv⟩ := Option.map_eq_some_iff.mp hrun
  obtain ⟨hholder, hv⟩ := Prod.mk.inj hv
  obtain ⟨hnone, hone⟩ := Prod.mk.inj hv
  obtain ⟨ms', s', hrun', hfree, hasleep, -, hpushed⟩ := locks_released 1000 (fun _ => 0) 0 waiting s hs
  refine ⟨s, ms', s', hs, hholder, hnone, hrun', hfree, hasleep, ?_⟩
  rw [hpushed, List.length_append, hnone, hone]

end Fopd.LockRefinement
