import Fopd.Lib.Following
import Fopd.Gui
import Fopd.RunSummary

namespace Fopd.Servers

open Consts Data Statistics Gui Threads RunSummary Lib.Following Lib.Transitions

/-- Into a buffer of `size` bytes, with the terminating 0. -/
def snprintf (size : Nat) (text : String) : String := String.ofList (text.toList.take (size - 1))

/-- The filter that `configure_sniffer` sets. -/
def filterOf (server : UInt64) : Option String :=
  foServers[server.toNat]?.map fun s => snprintf 256 ("ip src " ++ s.address)

def pingParam (server : UInt64) : Option String :=
  foServers[server.toNat]?.map fun s => snprintf 256 (s.address ++ " -n 1")

/-- The command line that `RunExternalProgram` makes. -/
def commandLine (externalProgram arguments : String) : String := externalProgram ++ " " ++ arguments

/-- The threads with the variables `old_server`, `filter` and `ping_param` of two of them, and `item_current`
between the places where `show_parameters` uses the store. -/
structure State where
  threads : Threads.State
  sniffer : Follower UInt64 String := { old := 0, made := "" }
  ping : Follower UInt64 String := { old := 0, made := "" }
  itemCurrent : Option UInt64 := none

inductive Event
  | thread (e : Threads.Event)
  | look
  | configure
  | capture (source : String) (payload : List UInt8)
  | leaveSniffLoop
  | pingLook
  | pingFormat
  | ping (command : String)
  | setPing (ping : UInt32)
  | showParameters
  | select (clicked : UInt64 → Bool)

/-- What `thread` does not stand for: it has events of its own. -/
def HasOwn : Threads.Event → Bool
  | .capture _ | .setPing _ | .setServerIndex _ => true
  | _ => false

section Steps

variable (updateDeltaMs : UInt32) (beyond : Nat → UInt8) (accepts : String → String → Bool)

/-- `sniff_loop` is told to stop after one packet. -/
def State.step (s : State) : Event → Option State
  | .thread e =>
      if HasOwn e then none
      else (s.threads.step updateDeltaMs beyond e).map fun threads => { s with threads }
  | .look => (s.sniffer.look s.threads.fopdData.getServerIndex).map fun sniffer => { s with sniffer }
  | .configure => (s.sniffer.make filterOf).map fun sniffer => { s with sniffer }
  | .capture source payload =>
      if accepts s.sniffer.made source then
        s.sniffer.work.bind fun sniffer =>
          (s.threads.step updateDeltaMs beyond (.capture payload)).map fun threads => { s with threads, sniffer }
      else none
  | .leaveSniffLoop =>
      match s.threads.sniffer, s.threads.todo with
      | .ready, [] => s.sniffer.again.map fun sniffer => { s with sniffer }
      | _, _ => none
  | .pingLook => (s.ping.look s.threads.fopdData.getServerIndex).map fun ping => { s with ping }
  | .pingFormat => (s.ping.make pingParam).map fun ping => { s with ping }
  | .ping command =>
      if command = commandLine "ping" s.ping.made then s.ping.work.map fun ping => { s with ping } else none
  | .setPing value =>
      match s.ping.stage with
      | .worked =>
          (s.threads.step updateDeltaMs beyond (.setPing value)).bind fun threads =>
            s.ping.again.map fun ping => { s with threads, ping }
      | _ => none
  | .showParameters => some { s with itemCurrent := some s.threads.fopdData.getServerIndex }
  | .select clicked =>
      s.itemCurrent.bind fun itemCurrent =>
        (s.threads.step updateDeltaMs beyond (.setServerIndex (selectItem clicked itemCurrent))).map fun threads =>
          { s with threads, itemCurrent := none }

end Steps

def start (clock : Time) : State where
  threads := Threads.start clock

def serverIndex (s : State) : UInt64 := s.threads.fopdData.serverIndex

/-- What the two threads write fits into their buffers. -/
theorem texts_fit : ∀ s ∈ foServers.toList, snprintf 256 ("ip src " ++ s.address) = "ip src " ++ s.address ∧
    snprintf 256 (s.address ++ " -n 1") = s.address ++ " -n 1" := by
  decide +kernel

section Tables

variable {server : UInt64} {text : String}

theorem mem_foServers {s : Server} {i : Nat} (h : foServers[i]? = some s) : s ∈ foServers.toList :=
  Vector.mem_toList_iff.mpr (Vector.mem_of_getElem? h)

theorem filterOf_eq_some (h : filterOf server = some text) :
    ∃ s ∈ foServers[server.toNat]?, text = "ip src " ++ s.address := by
  obtain ⟨s, hs, rfl⟩ := Option.map_eq_some_iff.mp h
  exact ⟨s, hs, (texts_fit s (mem_foServers hs)).1⟩

theorem pingParam_eq_some (h : pingParam server = some text) :
    ∃ s ∈ foServers[server.toNat]?, text = s.address ++ " -n 1" := by
  obtain ⟨s, hs, rfl⟩ := Option.map_eq_some_iff.mp h
  exact ⟨s, hs, (texts_fit s (mem_foServers hs)).2⟩

theorem isSome_of_lt (h : server.toNat < serverCount) : (filterOf server).isSome ∧ (pingParam server).isSome := by
  simp [filterOf, pingParam, h]

theorem selectItem_lt (clicked : UInt64 → Bool) {item : UInt64} (h : item.toNat < serverCount) :
    (selectItem clicked item).toNat < serverCount := by
  have hall : ∀ n ∈ (List.range serverCount).map UInt64.ofNat, n.toNat < serverCount := by
    intro n hn
    obtain ⟨i, hi, rfl⟩ := List.mem_map.mp hn
    rw [UInt64.toNat_ofNat']
    exact lt_of_le_of_lt (Nat.mod_le _ _) (List.mem_range.mp hi)
  rw [selectItem]
  revert hall
  generalize (List.range serverCount).map UInt64.ofNat = entries
  intro hall
  induction entries generalizing item with
  | nil => exact h
  | cons n entries ih =>
      obtain ⟨hn, hentries⟩ := List.forall_mem_cons.mp hall
      rw [List.foldl_cons]
      apply ih ?_ hentries
      split
      · exact hn
      · exact h

end Tables

section Threads

variable {updateDeltaMs : UInt32} {beyond : Nat → UInt8} {s t : Threads.State} {e : Threads.Event}

theorem serverIndex_of_step (he : ∀ k, e ≠ .setServerIndex k) (h : s.step updateDeltaMs beyond e = some t) :
    t.fopdData.serverIndex = s.fopdData.serverIndex := by
  cases Threads.step_cases h with
  | setDPS hd =>
      rw [FOPDData.setDPS_eq]
  | setServerIndex => exact absurd rfl (he _)
  | capture | constructDamage | constructEntity | skip | setTargetRemainingHealth | push | expire | finishSampling
  | finishCounting | setPing => rfl

theorem serverIndex_of_set {k : UInt64} (hk : k.toNat < serverCount)
    (h : s.step updateDeltaMs beyond (.setServerIndex k) = some t) : t.fopdData.serverIndex = k := by
  cases Threads.step_cases h with
  | setServerIndex =>
      rw [FOPDData.setServerIndex_eq]
      have hlt : ¬ k ≥ UInt64.ofNat serverCount := by
        rw [ge_iff_le, UInt64.le_iff_toNat_le]
        exact Nat.not_le.mpr hk
      exact if_neg hlt

end Threads

section Inversion

variable (updateDeltaMs : UInt32) (beyond : Nat → UInt8) (accepts : String → String → Bool)

inductive Step (s : State) : Event → State → Prop
  | thread {e threads} (he : HasOwn e = false) (ht : s.threads.step updateDeltaMs beyond e = some threads) :
      Step s (.thread e) { s with threads }
  | look {sniffer} (hl : s.sniffer.look (serverIndex s) = some sniffer) : Step s .look { s with sniffer }
  | configure {sniffer} (hm : s.sniffer.make filterOf = some sniffer) : Step s .configure { s with sniffer }
  | capture {source payload threads sniffer} (ha : accepts s.sniffer.made source = true)
      (hw : s.sniffer.work = some sniffer) (ht : s.threads.step updateDeltaMs beyond (.capture payload) = some threads) :
      Step s (.capture source payload) { s with threads, sniffer }
  | leaveSniffLoop {sniffer} (hs : s.threads.sniffer = .ready) (ht : s.threads.todo = [])
      (ha : s.sniffer.again = some sniffer) : Step s .leaveSniffLoop { s with sniffer }
  | pingLook {ping} (hl : s.ping.look (serverIndex s) = some ping) : Step s .pingLook { s with ping }
  | pingFormat {ping} (hm : s.ping.make pingParam = some ping) : Step s .pingFormat { s with ping }
  | ping {command ping} (hc : command = commandLine "ping" s.ping.made) (hw : s.ping.work = some ping) :
      Step s (.ping command) { s with ping }
  | setPing {value threads ping} (hs : s.ping.stage = .worked)
      (ht : s.threads.step updateDeltaMs beyond (.setPing value) = some threads) (ha : s.ping.again = some ping) :
      Step s (.setPing value) { s with threads, ping }
  | showParameters : Step s .showParameters { s with itemCurrent := some (serverIndex s) }
  | select {clicked item threads} (hi : s.itemCurrent = some item)
      (ht : s.threads.step updateDeltaMs beyond (.setServerIndex (selectItem clicked item)) = some threads) :
      Step s (.select clicked) { s with threads, itemCurrent := none }

variable {updateDeltaMs beyond accepts} {s t : State} {e : Event}

theorem step_cases (h : s.step updateDeltaMs beyond accepts e = some t) : Step updateDeltaMs beyond accepts s e t := by
  cases e with
  | thread e =>
      obtain ⟨he, h⟩ := Option.ite_none_left_eq_some.mp h
      obtain ⟨threads, ht, rfl⟩ := Option.map_eq_some_iff.mp h
      exact .thread (Bool.eq_false_iff.mpr he) ht
  | look =>
      obtain ⟨sniffer, hl, rfl⟩ := Option.map_eq_some_iff.mp h
      exact .look hl
  | configure =>
      obtain ⟨sniffer, hm, rfl⟩ := Option.map_eq_some_iff.mp h
      exact .configure hm
  | capture source payload =>
      obtain ⟨ha, h⟩ := Option.ite_none_right_eq_some.mp h
      obtain ⟨sniffer, hw, h⟩ := Option.bind_eq_some_iff.mp h
      obtain ⟨threads, ht, rfl⟩ := Option.map_eq_some_iff.mp h
      exact .capture ha hw ht
  | leaveSniffLoop =>
      rw [State.step] at h
      split at h
      next hs ht =>
        obtain ⟨sniffer, ha, rfl⟩ := Option.map_eq_some_iff.mp h
        exact .leaveSniffLoop hs ht ha
      next => cases h
  | pingLook =>
      obtain ⟨ping, hl, rfl⟩ := Option.map_eq_some_iff.mp h
      exact .pingLook hl
  | pingFormat =>
      obtain ⟨ping, hm, rfl⟩ := Option.map_eq_some_iff.mp h
      exact .pingFormat hm
  | ping command =>
      obtain ⟨hc, h⟩ := Option.ite_none_right_eq_some.mp h
      obtain ⟨ping, hw, rfl⟩ := Option.map_eq_some_iff.mp h
      exact .ping hc hw
  | setPing value =>
      rw [State.step] at h
      split at h
      next hs =>
        obtain ⟨threads, ht, h⟩ := Option.bind_eq_some_iff.mp h
        obtain ⟨ping, ha, rfl⟩ := Option.map_eq_some_iff.mp h
        exact .setPing hs ht ha
      next => cases h
  | showParameters =>
      obtain rfl := Option.some.inj h
      exact .showParameters
  | select clicked =>
      obtain ⟨item, hi, h⟩ := Option.bind_eq_some_iff.mp h
      obtain ⟨threads, ht, rfl⟩ := Option.map_eq_some_iff.mp h
      exact .select hi ht

/-- Only the window chooses. -/
theorem Step.serverIndex_eq (h : Step updateDeltaMs beyond accepts s e t) (he : ∀ clicked, e ≠ .select clicked) :
    serverIndex t = serverIndex s := by
  cases h with
  | thread hown ht =>
      apply serverIndex_of_step ?_ ht
      rintro k rfl
      cases hown
  | capture _ _ ht | setPing _ ht => exact serverIndex_of_step (fun k hk => by cases hk) ht
  | select => exact absurd rfl (he _)
  | look | configure | leaveSniffLoop | pingLook | pingFormat | ping | showParameters => rfl

/-- What the two threads and the window do is one of the runs of the threads. -/
theorem threads_step (h : s.step updateDeltaMs beyond accepts e = some t) :
    t.threads = s.threads ∨ ∃ e', s.threads.step updateDeltaMs beyond e' = some t.threads := by
  cases step_cases h with
  | thread _ ht | capture _ _ ht | setPing _ ht | select _ ht => exact Or.inr ⟨_, ht⟩
  | look | configure | leaveSniffLoop | pingLook | pingFormat | ping | showParameters => exact Or.inl rfl

theorem spent_step (he : e ≠ .look) (hs : s.sniffer.Spent) (h : s.step updateDeltaMs beyond accepts e = some t) :
    t.sniffer.Spent := by
  cases step_cases h with
  | look => exact absurd rfl he
  | configure hm =>
      rw [hs.make_eq_none] at hm
      cases hm
  | capture _ hw =>
      rw [hs.work_eq_none] at hw
      cases hw
  | leaveSniffLoop _ _ ha => exact .of_again ha
  | thread | pingLook | pingFormat | ping | setPing | showParameters | select => exact hs

end Inversion

section Runs

variable {updateDeltaMs : UInt32} {beyond : Nat → UInt8} {accepts : String → String → Bool} {clock : Time}

/-- The server chosen when the sniffer, or `looks`, has looked last. -/
abbrev LastChosen (updateDeltaMs : UInt32) (beyond : Nat → UInt8) (accepts : String → String → Bool) (clock : Time)
    (looks : Event) (es : List Event) (k : UInt64) : Prop :=
  LastSeen (State.step updateDeltaMs beyond accepts) (start clock) (· = looks) serverIndex es k

/-- Every party is in the table, and works for the server that was chosen when it last looked. -/
structure Chosen (updateDeltaMs : UInt32) (beyond : Nat → UInt8) (accepts : String → String → Bool) (clock : Time)
    (es : List Event) (s : State) : Prop where
  reached : run (State.step updateDeltaMs beyond accepts) (start clock) es = some s
  index : (serverIndex s).toNat < serverCount
  item : ∀ k, s.itemCurrent = some k → k = serverIndex s
  sniffer : s.sniffer.Follows filterOf (LastChosen updateDeltaMs beyond accepts clock .look es)
  ping : s.ping.Follows pingParam (LastChosen updateDeltaMs beyond accepts clock .pingLook es)

theorem chosen_start (clock : Time) : Chosen updateDeltaMs beyond accepts clock [] (start clock) where
  reached := rfl
  index := by
    change (0 : UInt64).toNat < serverCount
    decide
  item k hk := nomatch hk
  sniffer := .start _ _
  ping := .start _ _

theorem Chosen.step {es : List Event} {s t : State} {e : Event} (h : Chosen updateDeltaMs beyond accepts clock es s)
    (ht : s.step updateDeltaMs beyond accepts e = some t) :
    Chosen updateDeltaMs beyond accepts clock (es ++ [e]) t := by
  obtain ⟨hr, hindex, hitem, hsniffer, hping⟩ := h
  have hreached : run (State.step updateDeltaMs beyond accepts) (start clock) (es ++ [e]) = some t := by
    rw [run_append, hr]
    exact run_cons_eq_some.mpr ⟨t, ht, rfl⟩
  have hsniffer' (he : e ≠ .look) :
      s.sniffer.Follows filterOf (LastChosen updateDeltaMs beyond accepts clock .look (es ++ [e])) :=
    hsniffer.mono fun k hk => hk.append he
  have hping' (he : e ≠ .pingLook) :
      s.ping.Follows pingParam (LastChosen updateDeltaMs beyond accepts clock .pingLook (es ++ [e])) :=
    hping.mono fun k hk => hk.append he
  have hst := step_cases ht
  have hkeep := hst.serverIndex_eq
  cases hst with
  | thread =>
      have hkeep := hkeep nofun
      exact ⟨hreached, hkeep ▸ hindex, fun k hk => (hitem k hk).trans hkeep.symm, hsniffer' nofun, hping' nofun⟩
  | look hl => exact ⟨hreached, hindex, hitem, hsniffer.look (lastSeen_append_of_look hr rfl) hl, hping' nofun⟩
  | configure hm => exact ⟨hreached, hindex, hitem, (hsniffer' nofun).make hm, hping' nofun⟩
  | capture _ hw =>
      have hkeep := hkeep nofun
      exact ⟨hreached, hkeep ▸ hindex, fun k hk => (hitem k hk).trans hkeep.symm, (hsniffer' nofun).work hw,
        hping' nofun⟩
  | leaveSniffLoop _ _ ha => exact ⟨hreached, hindex, hitem, (hsniffer' nofun).again ha, hping' nofun⟩
  | pingLook hl => exact ⟨hreached, hindex, hitem, hsniffer' nofun, hping.look (lastSeen_append_of_look hr rfl) hl⟩
  | pingFormat hm => exact ⟨hreached, hindex, hitem, hsniffer' nofun, (hping' nofun).make hm⟩
  | ping _ hw => exact ⟨hreached, hindex, hitem, hsniffer' nofun, (hping' nofun).work hw⟩
  | setPing _ _ ha =>
      have hkeep := hkeep nofun
      exact ⟨hreached, hkeep ▸ hindex, fun k hk => (hitem k hk).trans hkeep.symm, hsniffer' nofun,
        (hping' nofun).again ha⟩
  | showParameters =>
      refine ⟨hreached, hindex, ?_, hsniffer' nofun, hping' nofun⟩
      rintro k ⟨rfl⟩
      rfl
  | @select clicked item threads hi hselect =>
      have hlt : (selectItem clicked item).toNat < serverCount := by
        apply selectItem_lt
        rwa [hitem item hi]
      have hset := serverIndex_of_set hlt hselect
      exact ⟨hreached, by rwa [serverIndex, hset], fun k hk => (nomatch hk), hsniffer' nofun, hping' nofun⟩

theorem chosen_of_run {es : List Event} {s : State}
    (h : run (State.step updateDeltaMs beyond accepts) (start clock) es = some s) :
    Chosen updateDeltaMs beyond accepts clock es s :=
  run_induction (chosen_start clock) (fun _ _ _ _ hc ht => hc.step ht) h

/-- The step in the middle of a run. -/
theorem step_of_run {es₁ es₂ : List Event} {e : Event} {s : State}
    (h : run (State.step updateDeltaMs beyond accepts) (start clock) (es₁ ++ e :: es₂) = some s) :
    ∃ t u, run (State.step updateDeltaMs beyond accepts) (start clock) es₁ = some t ∧
      t.step updateDeltaMs beyond accepts e = some u := by
  rw [run_append, Option.bind_eq_some_iff] at h
  obtain ⟨t, ht, hs⟩ := h
  obtain ⟨u, hu, -⟩ := run_cons_eq_some.mp hs
  exact ⟨t, u, ht, hu⟩

theorem spent_run {s t : State} {es : List Event} (hes : .look ∉ es) (hs : s.sniffer.Spent)
    (h : run (State.step updateDeltaMs beyond accepts) s es = some t) : t.sniffer.Spent := by
  induction es generalizing s with
  | nil => exact Option.some.inj h ▸ hs
  | cons e es ih =>
      obtain ⟨u, hu, ht⟩ := run_cons_eq_some.mp h
      rw [List.mem_cons, not_or] at hes
      exact ih hes.2 (spent_step (Ne.symm hes.1) hs hu) ht

theorem look_between {es₁ es₂ es₃ : List Event} {source source' : String} {payload payload' : List UInt8} {s : State}
    (h : run (State.step updateDeltaMs beyond accepts) (start clock)
      (es₁ ++ .capture source payload :: (es₂ ++ .capture source' payload' :: es₃)) = some s) : .look ∈ es₂ := by
  by_contra hno
  rw [run_append, Option.bind_eq_some_iff] at h
  obtain ⟨t, -, hrest⟩ := h
  obtain ⟨u, hu, hrest⟩ := run_cons_eq_some.mp hrest
  rw [run_append, Option.bind_eq_some_iff] at hrest
  obtain ⟨v, hv, hrest⟩ := hrest
  obtain ⟨w, hw, -⟩ := run_cons_eq_some.mp hrest
  have hspent : u.sniffer.Spent := by
    cases step_cases hu with
    | capture _ hw => exact .of_work hw
  cases step_cases hw with
  | capture _ hwork =>
      rw [(spent_run hno hspent hv).work_eq_none] at hwork
      cases hwork

/-- The choice is followed, whatever the threads do when. Each payload that is processed comes from the
address of the server that was chosen when the sniffer thread looked last before it, and each ping goes to
that of the server that was chosen when the ping thread looked last. The sniffer thread looks again before
each payload. No thread ever leaves the table of the servers, an open list does not change the choice by
itself, and nothing happens to the queue and the store that the threads could not do without the choice. -/
theorem choice_followed (updateDeltaMs : UInt32) (beyond : Nat → UInt8) (accepts : String → String → Bool)
    (clock : Time) (es : List Event) (s : State)
    (haccepts : ∀ server ∈ foServers.toList, ∀ source,
      accepts ("ip src " ++ server.address) source = true → source = server.address)
    (h : run (State.step updateDeltaMs beyond accepts) (start clock) es = some s) :
    (∃ es', run (Threads.State.step updateDeltaMs beyond) (Threads.start clock) es' = some s.threads) ∧
    (∀ es₁ source payload es₂, es = es₁ ++ .capture source payload :: es₂ →
      ∃ k, LastChosen updateDeltaMs beyond accepts clock .look es₁ k ∧
        ∃ server ∈ foServers[k.toNat]?, source = server.address) ∧
    (∀ es₁ source payload es₂ source' payload' es₃,
      es = es₁ ++ .capture source payload :: (es₂ ++ .capture source' payload' :: es₃) → .look ∈ es₂) ∧
    (∀ es₁ command es₂, es = es₁ ++ .ping command :: es₂ →
      ∃ k, LastChosen updateDeltaMs beyond accepts clock .pingLook es₁ k ∧
        ∃ server ∈ foServers[k.toNat]?, command = commandLine "ping" (server.address ++ " -n 1")) ∧
    (serverIndex s).toNat < serverCount ∧
    (∀ k first, s.sniffer.stage = .making k first → (filterOf k).isSome) ∧
    (∀ k first, s.ping.stage = .making k first → (pingParam k).isSome) ∧
    ∀ k, s.itemCurrent = some k → k = serverIndex s := by
  have hc := chosen_of_run h
  have hseen {looks : Event} {k : UInt64} (hk : LastChosen updateDeltaMs beyond accepts clock looks es k) :
      k.toNat < serverCount := by
    obtain ⟨es₁, -, -, t, -, -, -, ht, rfl⟩ := hk
    exact (chosen_of_run ht).index
  refine ⟨?_, ?_, ?_, ?_, hc.index, ?_, ?_, hc.item⟩
  · exact run_simulates (I := fun _ => True) (f := State.threads) (fun _ _ _ _ _ => trivial)
      (fun _ _ _ _ ht => threads_step ht) trivial h
  · rintro es₁ source payload es₂ rfl
    obtain ⟨t, u, ht, hu⟩ := step_of_run h
    cases step_cases hu with
    | capture hsource hw =>
      obtain ⟨hseen, hmade⟩ := (chosen_of_run ht).sniffer.of_work hw
      obtain ⟨server, hserver, htext⟩ := filterOf_eq_some hmade
      rw [htext] at hsource
      exact ⟨t.sniffer.old, hseen, server, hserver, haccepts server (mem_foServers hserver) source hsource⟩
  · rintro es₁ source payload es₂ source' payload' es₃ rfl
    exact look_between h
  · rintro es₁ command es₂ rfl
    obtain ⟨t, u, ht, hu⟩ := step_of_run h
    cases step_cases hu with
    | ping hcommand hw =>
      obtain ⟨hseen, hmade⟩ := (chosen_of_run ht).ping.of_work hw
      obtain ⟨server, hserver, htext⟩ := pingParam_eq_some hmade
      exact ⟨t.ping.old, hseen, server, hserver, by rw [hcommand, htext]⟩
  · exact fun k first hst => (isSome_of_lt (hseen (hc.sniffer.making k first hst))).1
  · exact fun k first hst => (isSome_of_lt (hseen (hc.ping.making k first hst))).2

/-- The choice changes while the sniffer waits for a packet: it takes one from the old server. -/
def switched : List Event :=
  [.look, .configure, .look, .showParameters, .select (· == 5), .capture "35.189.254.31" [], .leaveSniffLoop,
    .look, .configure, .capture "46.253.147.130" [], .pingLook, .pingFormat, .pingLook,
    .ping "ping 46.253.147.130 -n 1", .setPing 23]

theorem choice_followed_switched : ∃ s k k', run (State.step 100 (fun _ => 0) fun filter source =>
      filter == "ip src " ++ source) (start 0) switched = some s ∧
    LastChosen 100 (fun _ => 0) (fun filter source => filter == "ip src " ++ source) 0 .look (switched.take 5) k ∧
    LastChosen 100 (fun _ => 0) (fun filter source => filter == "ip src " ++ source) 0 .look (switched.take 9) k' ∧
    (∃ server ∈ foServers[k.toNat]?, "35.189.254.31" = server.address) ∧
    ∃ server ∈ foServers[k'.toNat]?, "46.253.147.130" = server.address := by
  have hrun : (run (State.step 100 (fun _ => 0) fun filter source => filter == "ip src " ++ source) (start 0)
      switched).isSome := by decide +kernel
  obtain ⟨s, hs⟩ := Option.isSome_iff_exists.mp hrun
  obtain ⟨-, hcapture, -⟩ := choice_followed 100 (fun _ => 0) (fun filter source => filter == "ip src " ++ source) 0
    switched s (fun server _ source h => (String.append_right_inj _ |>.mp (beq_iff_eq.mp h)).symm) hs
  obtain ⟨k, hk, hold⟩ := hcapture (switched.take 5) "35.189.254.31" [] (switched.drop 6) rfl
  obtain ⟨k', hk', hnew⟩ := hcapture (switched.take 9) "46.253.147.130" [] (switched.drop 10) rfl
  exact ⟨s, k, k', hs, hk, hk', hold, hnew⟩

end Runs

end Fopd.Servers
