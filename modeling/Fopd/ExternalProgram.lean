import Fopd.PingPipe
import Fopd.Lib.Transitions
import Mathlib.Data.List.Nodup

namespace Fopd.ExternalProgram

open Lib.Checked Lib.CString Lib.Transitions Ping PingPipe

inductive End
  | read
  | write
  deriving DecidableEq

/-- What `CreatePipe` gives out is not `NULL`. -/
abbrev Value := { value : UInt64 // value ≠ 0 }

/-- A handle that `CreatePipe` has given out, with the number of the call and the end of the pipe. The program looks
at no more of the value than whether it is `NULL`, and the system may give out a closed value again. -/
structure Handle where
  value : Value
  pipe : Nat
  side : End
  deriving DecidableEq

/-- Before a call of `ReadFile`, in it with the handle that it got, then in the statements behind the loop. -/
inductive Reader
  | call (chBuf : List UInt8)
  | reading (handle : Option Handle) (chBuf : List UInt8)
  | closeRd
  | closeWr
  | clearRd
  | clearWr
  | done
  deriving DecidableEq

/-- Where `ping_thread` is in `RunExternalProgram`, or behind it. -/
inductive Stage
  | testRd
  | testWr
  | create
  | inherit
  | stdError
  | stdOutput (hStdError : Option Handle)
  | launch (hStdError hStdOutput : Option Handle)
  | testReader
  | createThread
  | publish

/-- `NULL` is `none`, and `reader` is the number of a thread. The history is that of the handles passed to
`CloseHandle`, of the `hStdOutput` of each program started, and of the chunks parsed. -/
structure State where
  rd : Option Handle := none
  wr : Option Handle := none
  reader : Option Nat := none
  lastPing : UInt32 := pingError
  ping : UInt32 := 0
  stage : Stage := .testRd
  pipes : Nat := 0
  threads : Nat := 0
  readers : Nat → Reader := fun _ => .done
  closed : List Handle := []
  started : List (Option Handle) := []
  parsed : List Chunk := []

/-- The statements of `ping_thread` and of the readers, with what the system answers. -/
inductive Event
  | testRd
  | testWr
  | createPipe (rd wr : Value)
  | noPipe
  | setHandleInformation (ok : Bool)
  | readStdError
  | readStdOutput
  | createProcess (ok : Bool)
  | waitForSingleObject (signaled : Bool)
  | createThread (ok : Bool)
  | setPing
  | readFile (i : Nat)
  | deliver (i : Nat) (chunk : Chunk)
  | fail (i : Nat)
  | close (i : Nat)

namespace State

variable (s : State)

def setReader (i : Nat) (r : Reader) : State := { s with readers := Function.update s.readers i r }

theorem readers_setReader (i : Nat) (r : Reader) : (s.setReader i r).readers = Function.update s.readers i r := rfl

/-- The thread has ended, or there is none. -/
def readerEnded : Bool := s.reader.all fun i => s.readers i = .done

def createPipe (rd wr : Value) : State :=
  { s with
    rd := some ⟨rd, s.pipes, .read⟩
    wr := some ⟨wr, s.pipes, .write⟩
    pipes := s.pipes + 1
    stage := .inherit }

def createThread : State :=
  { s.setReader s.threads (.call zeroed) with reader := some s.threads, threads := s.threads + 1, stage := .publish }

/-- The chunk is parsed, and cleared, before anybody sees a difference. -/
def deliver (i : Nat) (chBuf : List UInt8) (chunk : Chunk) (lastPing : UInt32) : State :=
  { s.setReader i (.call (zeroMemory (fill chBuf chunk) chunk.bytes.length)) with
    lastPing, parsed := s.parsed ++ [chunk] }

def closeHandle (handle : Option Handle) : State := { s with closed := s.closed ++ handle.toList }

def step (stack : Stack) (s : State) : Event → Option State
  | .testRd =>
      match s.stage with
      | .testRd => some { s with stage := if s.rd = none then .create else .testWr }
      | _ => none
  | .testWr =>
      match s.stage with
      | .testWr => some { s with stage := if s.wr = none then .create else .inherit }
      | _ => none
  | .createPipe rd wr =>
      match s.stage with
      | .create => some (s.createPipe rd wr)
      | _ => none
  | .noPipe =>
      match s.stage with
      | .create => some { s with stage := .publish }
      | _ => none
  | .setHandleInformation ok =>
      match s.stage with
      | .inherit => some { s with stage := if ok then .stdError else .publish }
      | _ => none
  | .readStdError =>
      match s.stage with
      | .stdError => some { s with stage := .stdOutput s.wr }
      | _ => none
  | .readStdOutput =>
      match s.stage with
      | .stdOutput hStdError => some { s with stage := .launch hStdError s.wr }
      | _ => none
  | .createProcess ok =>
      match s.stage with
      | .launch _ hStdOutput =>
          some (if ok then { s with started := s.started ++ [hStdOutput], stage := .testReader }
            else { s with stage := .publish })
      | _ => none
  | .waitForSingleObject signaled =>
      match s.stage with
      | .testReader => some { s with stage := if s.reader = none ∨ signaled then .createThread else .publish }
      | _ => none
  | .createThread ok =>
      match s.stage with
      | .createThread => some (if ok then s.createThread else { s with reader := none, stage := .publish })
      | _ => none
  | .setPing =>
      match s.stage with
      | .publish => some { s with ping := s.lastPing, stage := .testRd }
      | _ => none
  | .readFile i =>
      match s.readers i with
      | .call chBuf => some (s.setReader i (.reading s.rd chBuf))
      | _ => none
  | .deliver i chunk =>
      match s.readers i with
      | .reading _ chBuf =>
          if chunk.bytes = [] then some (s.setReader i .closeRd)
          else (parsePingOutput (bufferAt stack (fill chBuf chunk))).result.map (s.deliver i chBuf chunk)
      | _ => none
  | .fail i =>
      match s.readers i with
      | .reading _ _ => some (s.setReader i .closeRd)
      | _ => none
  | .close i =>
      match s.readers i with
      | .closeRd => some ((s.closeHandle s.rd).setReader i .closeWr)
      | .closeWr => some ((s.closeHandle s.wr).setReader i .clearRd)
      | .clearRd => some { s.setReader i .clearWr with rd := none }
      | .clearWr => some { s.setReader i .done with wr := none }
      | _ => none

end State

/-- What is documented of `WaitForSingleObject`: a thread is not signaled before it has ended. -/
def Documented (s : State) : Event → Prop
  | .waitForSingleObject signaled => signaled → s.readerEnded = true
  | _ => True

instance (s : State) : DecidablePred (Documented s)
  | .waitForSingleObject signaled => inferInstanceAs (Decidable (signaled → s.readerEnded = true))
  | .testRd | .testWr | .createPipe _ _ | .noPipe | .setHandleInformation _ | .readStdError | .readStdOutput
  | .createProcess _ | .createThread _ | .setPing | .readFile _ | .deliver _ _ | .fail _ | .close _ =>
      inferInstanceAs (Decidable True)

inductive Step (stack : Stack) (s : State) : Event → State → Prop
  | testRd (hs : s.stage = .testRd) :
      Step stack s .testRd { s with stage := if s.rd = none then .create else .testWr }
  | testWr (hs : s.stage = .testWr) :
      Step stack s .testWr { s with stage := if s.wr = none then .create else .inherit }
  | createPipe {rd wr} (hs : s.stage = .create) : Step stack s (.createPipe rd wr) (s.createPipe rd wr)
  | noPipe (hs : s.stage = .create) : Step stack s .noPipe { s with stage := .publish }
  | setHandleInformation {ok} (hs : s.stage = .inherit) :
      Step stack s (.setHandleInformation ok) { s with stage := if ok then .stdError else .publish }
  | readStdError (hs : s.stage = .stdError) : Step stack s .readStdError { s with stage := .stdOutput s.wr }
  | readStdOutput {hStdError} (hs : s.stage = .stdOutput hStdError) :
      Step stack s .readStdOutput { s with stage := .launch hStdError s.wr }
  | createProcess {hStdError hStdOutput} (hs : s.stage = .launch hStdError hStdOutput) :
      Step stack s (.createProcess true) { s with started := s.started ++ [hStdOutput], stage := .testReader }
  | noProcess {hStdError hStdOutput} (hs : s.stage = .launch hStdError hStdOutput) :
      Step stack s (.createProcess false) { s with stage := .publish }
  | waitForSingleObject {signaled} (hs : s.stage = .testReader) :
      Step stack s (.waitForSingleObject signaled)
        { s with stage := if s.reader = none ∨ signaled then .createThread else .publish }
  | createThread (hs : s.stage = .createThread) : Step stack s (.createThread true) s.createThread
  | noThread (hs : s.stage = .createThread) :
      Step stack s (.createThread false) { s with reader := none, stage := .publish }
  | setPing (hs : s.stage = .publish) : Step stack s .setPing { s with ping := s.lastPing, stage := .testRd }
  | readFile {i chBuf} (hi : s.readers i = .call chBuf) :
      Step stack s (.readFile i) (s.setReader i (.reading s.rd chBuf))
  | deliverEmpty {i handle chBuf chunk} (hi : s.readers i = .reading handle chBuf) (hc : chunk.bytes = []) :
      Step stack s (.deliver i chunk) (s.setReader i .closeRd)
  | deliver {i handle chBuf chunk lastPing} (hi : s.readers i = .reading handle chBuf) (hc : chunk.bytes ≠ [])
      (hp : (parsePingOutput (bufferAt stack (fill chBuf chunk))).result = some lastPing) :
      Step stack s (.deliver i chunk) (s.deliver i chBuf chunk lastPing)
  | fail {i handle chBuf} (hi : s.readers i = .reading handle chBuf) :
      Step stack s (.fail i) (s.setReader i .closeRd)
  | closeRd {i} (hi : s.readers i = .closeRd) : Step stack s (.close i) ((s.closeHandle s.rd).setReader i .closeWr)
  | closeWr {i} (hi : s.readers i = .closeWr) : Step stack s (.close i) ((s.closeHandle s.wr).setReader i .clearRd)
  | clearRd {i} (hi : s.readers i = .clearRd) : Step stack s (.close i) { s.setReader i .clearWr with rd := none }
  | clearWr {i} (hi : s.readers i = .clearWr) : Step stack s (.close i) { s.setReader i .done with wr := none }

theorem step_cases {stack : Stack} {s t : State} {e : Event} (h : s.step stack e = some t) : Step stack s e t := by
  cases e with
  | testRd | testWr | createPipe | noPipe | setHandleInformation | readStdError | readStdOutput | waitForSingleObject
  | setPing | readFile | fail =>
      rw [State.step] at h
      split at h
      next hs =>
        obtain rfl := Option.some.inj h
        constructor
        exact hs
      next => cases h
  | createProcess ok | createThread ok =>
      rw [State.step] at h
      split at h
      next hs =>
        obtain rfl := Option.some.inj h
        cases ok <;> (constructor; exact hs)
      next => cases h
  | deliver i chunk =>
      rw [State.step] at h
      split at h
      next handle chBuf hi =>
        split at h
        next hc =>
          obtain rfl := Option.some.inj h
          exact .deliverEmpty hi hc
        next hc =>
          obtain ⟨lastPing, hp, rfl⟩ := Option.map_eq_some_iff.mp h
          exact .deliver hi hc hp
      next => cases h
  | close i =>
      rw [State.step] at h
      split at h
      next hi =>
        obtain rfl := Option.some.inj h
        exact .closeRd hi
      next hi =>
        obtain rfl := Option.some.inj h
        exact .closeWr hi
      next hi =>
        obtain rfl := Option.some.inj h
        exact .clearRd hi
      next hi =>
        obtain rfl := Option.some.inj h
        exact .clearWr hi
      next => cases h

def chunkOf : Event → Option Chunk
  | .deliver _ chunk => if chunk.bytes = [] then none else some chunk
  | _ => none

/-- The chunks that the calls of `ReadFile` put out. -/
def delivered (es : List Event) : List Chunk := es.filterMap chunkOf

theorem delivered_append (es es' : List Event) : delivered (es ++ es') = delivered es ++ delivered es' :=
  List.filterMap_append

def Parses (stack : Stack) (chunk : Chunk) (ping : UInt32) : Prop :=
  (parsePingOutput (bufferAt stack (fill zeroed chunk))).result = some ping

section Runs

variable {stack : Stack} {s t : State} {e : Event}

/-- The handle has not been closed. -/
def Open (s : State) (handle : Option Handle) : Prop := ∀ h ∈ handle, h ∉ s.closed

/-- Which handles are open, by where the reader is. -/
def Usable (s : State) : Reader → Prop
  | .call chBuf => chBuf = zeroed ∧ Open s s.rd ∧ Open s s.wr
  | .reading handle chBuf => chBuf = zeroed ∧ Open s handle ∧ Open s s.rd ∧ Open s s.wr
  | .closeRd | .done => Open s s.rd ∧ Open s s.wr
  | .closeWr => Open s s.wr
  | .clearRd => True
  | .clearWr => Open s s.rd

def theReader (s : State) : Reader := s.reader.elim .done s.readers

def FromPipe (s : State) (side : End) (handle : Option Handle) : Prop := ∀ h ∈ handle, h.pipe < s.pipes ∧ h.side = side

/-- What `ping_thread` does next agrees with the reader: it makes a new one only when there is none at work. -/
structure Sound (stack : Stack) (s : State) : Prop where
  others : ∀ i, s.reader ≠ some i → s.readers i = .done
  ended : s.stage = .createThread → s.readerEnded = true
  usable : Usable s (theReader s)
  rd : FromPipe s .read s.rd
  wr : FromPipe s .write s.wr
  closed : s.closed.Nodup ∧ ∀ h ∈ s.closed, h.pipe < s.pipes
  start : s.parsed = [] → s.lastPing = pingError
  last : ∀ chunk ∈ s.parsed.getLast?, Parses stack chunk s.lastPing
  shown : s.ping = 0 ∨ s.ping = pingError ∨ ∃ chunk ∈ s.parsed, Parses stack chunk s.ping

theorem sound_start (stack : Stack) : Sound stack {} where
  others _ _ := rfl
  ended := nofun
  usable := ⟨nofun, nofun⟩
  rd := nofun
  wr := nofun
  closed := ⟨List.nodup_nil, List.forall_mem_nil _⟩
  start _ := rfl
  last := nofun
  shown := Or.inl rfl

theorem Sound.alive (h : Sound stack s) {i : Nat} {r : Reader} (hi : s.readers i = r) (hr : r ≠ .done) :
    s.reader = some i ∧ Usable s r := by
  have hreader : s.reader = some i := by
    by_contra hne
    exact hr (hi.symm.trans (h.others i hne))
  refine ⟨hreader, ?_⟩
  have husable := h.usable
  rw [theReader, hreader] at husable
  exact hi ▸ husable

theorem Sound.all_done (h : Sound stack s) (he : s.readerEnded = true) (i : Nat) : s.readers i = .done := by
  by_cases hi : s.reader = some i
  · rw [State.readerEnded, hi] at he
    exact of_decide_eq_true he
  · exact h.others i hi

theorem Sound.open_of_ended (h : Sound stack s) (he : s.readerEnded = true) : Open s s.rd ∧ Open s s.wr := by
  have husable := h.usable
  rw [theReader] at husable
  cases hreader : s.reader with
  | none =>
      rw [hreader] at husable
      exact husable
  | some i =>
      rw [hreader, Option.elim_some, h.all_done he i] at husable
      exact husable

/-- What holds after each step of the reader. -/
theorem Sound.move (h : Sound stack s) {i : Nat} {r r' : Reader} (hi : s.readers i = r) (hr : r ≠ .done)
    (hreaders : t.readers = Function.update s.readers i r') (hreader : t.reader = s.reader) (hstage : t.stage = s.stage) :
    (∀ j, t.reader ≠ some j → t.readers j = .done) ∧ (t.stage = .createThread → t.readerEnded = true) ∧
      theReader t = r' := by
  obtain ⟨halive, -⟩ := h.alive hi hr
  rw [theReader, hreaders, hreader, hstage, halive]
  refine ⟨fun j hj => ?_, fun hs => ?_, Function.update_self ..⟩
  · have hne : j ≠ i := fun hj' => hj (congrArg some hj'.symm)
    rw [Function.update_of_ne hne]
    exact h.others j (halive ▸ hj)
  · exact absurd (hi.symm.trans (h.all_done (h.ended hs) i)) hr

/-- A step of the reader that leaves the handles as they are. -/
theorem Sound.setReader (h : Sound stack s) {i : Nat} {r r' : Reader} (hi : s.readers i = r) (hr : r ≠ .done)
    (hr' : Usable s r') : Sound stack (s.setReader i r') := by
  obtain ⟨hothers, hended, htheReader⟩ := h.move (t := s.setReader i r') hi hr rfl rfl rfl
  exact ⟨hothers, hended, htheReader.symm ▸ hr', h.rd, h.wr, h.closed, h.start, h.last, h.shown⟩

/-- A step of `ping_thread` that leaves the handles as they are. -/
theorem Sound.setStage (h : Sound stack s) {stage : Stage} (hs : stage = .createThread → s.readerEnded = true) :
    Sound stack { s with stage } :=
  ⟨h.others, hs, h.usable, h.rd, h.wr, h.closed, h.start, h.last, h.shown⟩

theorem open_new (h : Sound stack s) (value : Value) (side : End) : Open s (some ⟨value, s.pipes, side⟩) := by
  intro handle hm hc
  obtain rfl := Option.some.inj hm
  exact Nat.lt_irrefl _ (h.closed.2 _ hc)

theorem Sound.createPipe (h : Sound stack s) (rd wr : Value) : Sound stack (s.createPipe rd wr) := by
  have hrd : Open s (some ⟨rd, s.pipes, .read⟩) := open_new h rd .read
  have hwr : Open s (some ⟨wr, s.pipes, .write⟩) := open_new h wr .write
  refine ⟨h.others, nofun, ?_, ?_, ?_, ?_, h.start, h.last, h.shown⟩
  · have husable := h.usable
    change Usable (s.createPipe rd wr) (theReader s)
    cases hr : theReader s with
    | call chBuf =>
        rw [hr] at husable
        exact ⟨husable.1, hrd, hwr⟩
    | reading handle chBuf =>
        rw [hr] at husable
        exact ⟨husable.1, husable.2.1, hrd, hwr⟩
    | closeRd | done => exact ⟨hrd, hwr⟩
    | closeWr => exact hwr
    | clearRd => trivial
    | clearWr => exact hrd
  · intro handle hm
    obtain rfl := Option.some.inj hm
    exact ⟨Nat.lt_succ_self _, rfl⟩
  · intro handle hm
    obtain rfl := Option.some.inj hm
    exact ⟨Nat.lt_succ_self _, rfl⟩
  · exact ⟨h.closed.1, fun handle hm => Nat.lt_succ_of_lt (h.closed.2 handle hm)⟩

theorem Sound.createThread (h : Sound stack s) (he : s.readerEnded = true) : Sound stack s.createThread := by
  refine ⟨?_, nofun, ?_, h.rd, h.wr, h.closed, h.start, h.last, h.shown⟩
  · intro j hj
    have hne : j ≠ s.threads := fun hj' => hj (congrArg some hj'.symm)
    change Function.update s.readers s.threads (.call zeroed) j = .done
    rw [Function.update_of_ne hne]
    exact h.all_done he j
  · have htheReader : theReader s.createThread = .call zeroed := Function.update_self ..
    rw [htheReader]
    exact ⟨rfl, h.open_of_ended he⟩

theorem Sound.deliver (h : Sound stack s) {i : Nat} {handle : Option Handle} {chBuf : List UInt8} {chunk : Chunk}
    {lastPing : UInt32} (hi : s.readers i = .reading handle chBuf)
    (hp : (parsePingOutput (bufferAt stack (fill chBuf chunk))).result = some lastPing) :
    Sound stack (s.deliver i chBuf chunk lastPing) := by
  obtain ⟨-, rfl, -, hopen⟩ := h.alive hi nofun
  have hset : Sound stack (s.setReader i (.call zeroed)) := h.setReader hi nofun ⟨rfl, hopen⟩
  obtain ⟨h₁, h₂, h₃, h₄, h₅, h₆, -, -, -⟩ := hset
  rw [State.deliver, zeroMemory_fill]
  refine ⟨h₁, h₂, h₃, h₄, h₅, h₆, ?_, ?_, ?_⟩
  · exact fun hnil => absurd hnil (List.append_ne_nil_of_right_ne_nil _ (List.cons_ne_nil _ _))
  · intro last hm
    change last ∈ (s.parsed ++ [chunk]).getLast? at hm
    rw [List.getLast?_concat] at hm
    obtain rfl := Option.some.inj hm
    exact hp
  · rcases h.shown with h0 | herror | ⟨old, hm, hparses⟩
    · exact Or.inl h0
    · exact Or.inr (Or.inl herror)
    · exact Or.inr (Or.inr ⟨old, List.mem_append_left _ hm, hparses⟩)

theorem Sound.closeHandle (h : Sound stack s) {i : Nat} {r r' : Reader} {side : End} {handle : Option Handle}
    (hi : s.readers i = r) (hr : r ≠ .done) (hfrom : FromPipe s side handle) (hopen : Open s handle)
    (hr' : Usable (s.closeHandle handle) r') : Sound stack ((s.closeHandle handle).setReader i r') := by
  have hclosed : (s.closeHandle handle).closed.Nodup ∧ ∀ h ∈ (s.closeHandle handle).closed, h.pipe < s.pipes := by
    cases handle with
    | none =>
        rw [State.closeHandle, Option.toList_none, List.append_nil]
        exact h.closed
    | some handle =>
        rw [State.closeHandle, Option.toList_some, ← List.concat_eq_append]
        refine ⟨List.Nodup.concat (hopen handle rfl) h.closed.1, ?_⟩
        rw [List.concat_eq_append, List.forall_mem_append, List.forall_mem_singleton]
        exact ⟨h.closed.2, (hfrom handle rfl).1⟩
  obtain ⟨hothers, hended, htheReader⟩ := h.move (t := (s.closeHandle handle).setReader i r') hi hr rfl rfl rfl
  exact ⟨hothers, hended, htheReader.symm ▸ hr', h.rd, h.wr, hclosed, h.start, h.last, h.shown⟩

/-- The handle of the other end of a pipe stays open. -/
theorem open_closeHandle {handle other : Option Handle} {side side' : End} (hopen : Open s other)
    (hfrom : FromPipe s side handle) (hfrom' : FromPipe s side' other) (hne : side ≠ side') :
    Open (s.closeHandle handle) other := by
  intro h hm hc
  rcases List.mem_append.mp hc with hc | hc
  · exact hopen h hm hc
  · have hh : h ∈ handle := Option.mem_toList.mp hc
    exact hne ((hfrom h hh).2.symm.trans (hfrom' h hm).2)

/-- What is published is what the last chunk says. -/
theorem Sound.published (h : Sound stack s) :
    s.lastPing = 0 ∨ s.lastPing = pingError ∨ ∃ chunk ∈ s.parsed, Parses stack chunk s.lastPing := by
  cases hl : s.parsed.getLast? with
  | none => exact Or.inr (Or.inl (h.start (List.getLast?_eq_none_iff.mp hl)))
  | some chunk => exact Or.inr (Or.inr ⟨chunk, List.mem_of_getLast? hl, h.last chunk hl⟩)

theorem Sound.step (h : Sound stack s) (hd : Documented s e) (hst : Step stack s e t) : Sound stack t := by
  cases hst with
  | testRd | testWr | setHandleInformation =>
      apply h.setStage
      split <;> nofun
  | noPipe | readStdError | readStdOutput | noProcess => exact h.setStage nofun
  | createPipe => exact h.createPipe _ _
  | createProcess => exact ⟨h.others, nofun, h.usable, h.rd, h.wr, h.closed, h.start, h.last, h.shown⟩
  | waitForSingleObject =>
      apply h.setStage
      split
      next hor =>
        intro _
        rcases hor with hnone | rfl
        · rw [State.readerEnded, hnone]
          rfl
        · exact hd rfl
      next => nofun
  | createThread hs => exact h.createThread (h.ended hs)
  | noThread hs =>
      have he := h.ended hs
      exact ⟨fun i _ => h.all_done he i, nofun, h.open_of_ended he, h.rd, h.wr, h.closed, h.start, h.last, h.shown⟩
  | setPing => exact ⟨h.others, nofun, h.usable, h.rd, h.wr, h.closed, h.start, h.last, h.published⟩
  | readFile hi =>
      obtain ⟨-, rfl, hrd, hwr⟩ := h.alive hi nofun
      exact h.setReader hi nofun ⟨rfl, hrd, hrd, hwr⟩
  | deliverEmpty hi | fail hi =>
      obtain ⟨-, -, -, hopen⟩ := h.alive hi nofun
      exact h.setReader hi nofun hopen
  | deliver hi hc hp => exact h.deliver hi hp
  | closeRd hi =>
      obtain ⟨-, hrd, hwr⟩ := h.alive hi nofun
      exact h.closeHandle hi nofun h.rd hrd (open_closeHandle hwr h.rd h.wr nofun)
  | closeWr hi =>
      obtain ⟨-, hwr⟩ := h.alive hi nofun
      exact h.closeHandle hi nofun h.wr hwr trivial
  | @clearRd i hi =>
      obtain ⟨hothers, hended, htheReader⟩ :=
        h.move (t := { s.setReader i .clearWr with rd := none }) hi nofun rfl rfl rfl
      exact ⟨hothers, hended, htheReader.symm ▸ nofun, nofun, h.wr, h.closed, h.start, h.last, h.shown⟩
  | @clearWr i hi =>
      obtain ⟨-, hrd⟩ := h.alive hi nofun
      obtain ⟨hothers, hended, htheReader⟩ := h.move (t := { s.setReader i .done with wr := none }) hi nofun rfl rfl rfl
      exact ⟨hothers, hended, htheReader.symm ▸ ⟨hrd, nofun⟩, h.rd, nofun, h.closed, h.start, h.last, h.shown⟩

theorem sound_of_run {es : List Event} (h : run (State.step stack) {} es = some s)
    (hd : Along (State.step stack) Documented {} es) : Sound stack s :=
  run_invariant_along (fun _ _ _ hs he ht => hs.step he (step_cases ht)) (sound_start stack) hd h

theorem parsed_of_run {es : List Event} (h : run (State.step stack) {} es = some s) : s.parsed = delivered es := by
  refine run_induction (I := fun es s => s.parsed = delivered es) rfl ?_ h
  intro es t e u ht hu
  rw [delivered_append, ← ht]
  cases step_cases hu with
  | deliver hi hc hp =>
      rw [delivered, List.filterMap_cons, chunkOf, if_neg hc]
      rfl
  | deliverEmpty hi hc =>
      rw [delivered, List.filterMap_cons, chunkOf, if_pos hc]
      exact (List.append_nil _).symm
  | testRd | testWr | createPipe | noPipe | setHandleInformation | readStdError | readStdOutput | createProcess
  | noProcess | waitForSingleObject | createThread | noThread | setPing | readFile | fail | closeRd | closeWr | clearRd
  | clearWr => exact (List.append_nil _).symm

theorem Sound.closing (h : Sound stack s) {handle : Option Handle} {P : Reader → Prop}
    (hr : ∀ r, Usable s r → P r ∨ Open s handle) {x : Handle} (hm : x ∈ handle) (hc : x ∈ s.closed)
    (hdone : ¬ P .done) : ∃ i, P (s.readers i) := by
  have hreader := (hr _ h.usable).resolve_right fun hopen => hopen x hm hc
  rw [theReader] at hreader
  cases hi : s.reader with
  | none =>
      rw [hi] at hreader
      exact absurd hreader hdone
  | some i =>
      rw [hi] at hreader
      exact ⟨i, hreader⟩

/-- The reading of a program's output has failed, or has ended without one. -/
def EndsReading (e : Event) : Prop := ∃ i, e = .fail i ∨ ∃ chunk, e = .deliver i chunk ∧ chunk.bytes = []

def theRead (handle : Option Handle) : Prop := ∃ value, handle = some ⟨value, 0, .read⟩

def theWrite (handle : Option Handle) : Prop := ∃ value, handle = some ⟨value, 0, .write⟩

/-- `ping_thread` tests the handles in this order. -/
def Tested (s : State) : Prop :=
  match s.stage with
  | .testRd | .publish => True
  | .create => s.rd = none
  | .testWr | .inherit | .stdError | .stdOutput _ | .testReader | .createThread => s.pipes = 1
  | .launch _ hStdOutput => s.pipes = 1 ∧ theWrite hStdOutput

/-- The first pipe and the first reader stay. -/
structure OnePipe (s : State) : Prop where
  closed : s.closed = []
  handles : s.rd = none ∧ s.pipes = 0 ∨ s.pipes = 1 ∧ theRead s.rd ∧ theWrite s.wr
  tested : Tested s
  started : ∀ hStdOutput ∈ s.started, theWrite hStdOutput
  readers : s.reader = none ∧ s.threads = 0 ∨ s.reader = some 0 ∧ s.threads = 1 ∧ s.pipes = 1 ∧
    ∃ chBuf, s.readers 0 = .call chBuf ∨ ∃ handle, theRead handle ∧ s.readers 0 = .reading handle chBuf

theorem onePipe_start : OnePipe {} where
  closed := rfl
  handles := Or.inl ⟨rfl, rfl⟩
  tested := trivial
  started := List.forall_mem_nil _
  readers := Or.inl ⟨rfl, rfl⟩

theorem OnePipe.both (ho : OnePipe s) (hp : s.pipes = 1) : theRead s.rd ∧ theWrite s.wr := by
  rcases ho.handles with ⟨-, h0⟩ | ⟨-, hboth⟩
  · rw [hp] at h0
    cases h0
  · exact hboth

theorem OnePipe.working (ho : OnePipe s) (h : Sound stack s) {i : Nat} {r : Reader} (hi : s.readers i = r)
    (hr : r ≠ .done) : i = 0 ∧ s.reader = some 0 ∧ s.threads = 1 ∧ s.pipes = 1 ∧
      ∃ chBuf, r = .call chBuf ∨ ∃ handle, theRead handle ∧ r = .reading handle chBuf := by
  obtain ⟨hreader, -⟩ := h.alive hi hr
  rcases ho.readers with ⟨hnone, -⟩ | ⟨hzero, hthreads, hp, hworks⟩
  · rw [hnone] at hreader
    cases hreader
  · obtain rfl := Option.some.inj (hzero.symm.trans hreader)
    exact ⟨rfl, hzero, hthreads, hp, hi ▸ hworks⟩

theorem OnePipe.none_of_ended (ho : OnePipe s) (he : s.readerEnded = true) : s.reader = none ∧ s.threads = 0 := by
  rcases ho.readers with hnone | ⟨hreader, -, -, chBuf, hworks⟩
  · exact hnone
  · rw [State.readerEnded, hreader, Option.all_some, decide_eq_true_iff] at he
    rw [he] at hworks
    rcases hworks with hworks | ⟨handle, -, hworks⟩ <;> cases hworks

theorem OnePipe.setStage (ho : OnePipe s) {stage : Stage} (ht : Tested { s with stage }) : OnePipe { s with stage } :=
  ⟨ho.closed, ho.handles, ht, ho.started, ho.readers⟩

theorem OnePipe.setReader (ho : OnePipe s) (hreader : s.reader = some 0) (hthreads : s.threads = 1) (hp : s.pipes = 1)
    {r : Reader} (hr : ∃ chBuf, r = .call chBuf ∨ ∃ handle, theRead handle ∧ r = .reading handle chBuf) :
    OnePipe (s.setReader 0 r) := by
  refine ⟨ho.closed, ho.handles, ho.tested, ho.started, Or.inr ⟨hreader, hthreads, hp, ?_⟩⟩
  rw [s.readers_setReader, Function.update_self]
  exact hr

theorem OnePipe.createPipe (ho : OnePipe s) (hs : s.stage = .create) (rd wr : Value) :
    OnePipe (s.createPipe rd wr) := by
  have hrd : s.rd = none := by
    have htested := ho.tested
    rwa [Tested, hs] at htested
  have hpipes : s.pipes = 0 := by
    rcases ho.handles with ⟨-, h0⟩ | ⟨-, ⟨value, hread⟩, -⟩
    · exact h0
    · rw [hread] at hrd
      cases hrd
  have hreaders : s.reader = none ∧ s.threads = 0 := by
    refine ho.readers.resolve_right fun ⟨_, _, hp, _⟩ => ?_
    rw [hpipes] at hp
    cases hp
  rw [State.createPipe, hpipes]
  exact ⟨ho.closed, Or.inr ⟨rfl, ⟨rd, rfl⟩, wr, rfl⟩, rfl, ho.started, Or.inl hreaders⟩

theorem OnePipe.step (ho : OnePipe s) (h : Sound stack s) (hd : Documented s e) (he : ¬ EndsReading e)
    (hst : Step stack s e t) : OnePipe t := by
  have htested := ho.tested
  rw [Tested] at htested
  cases hst with
  | testRd hs =>
      apply ho.setStage
      rcases ho.handles with ⟨hnone, -⟩ | ⟨hp, ⟨value, hread⟩, -⟩
      · rw [Tested, if_pos hnone]
        exact hnone
      · rw [Tested, if_neg (hread ▸ Option.some_ne_none _)]
        exact hp
  | testWr hs =>
      rw [hs] at htested
      obtain ⟨-, value, hwrite⟩ := ho.both htested
      apply ho.setStage
      rw [Tested, if_neg (hwrite ▸ Option.some_ne_none _)]
      exact htested
  | createPipe hs => exact ho.createPipe hs _ _
  | noPipe | noProcess | setPing => exact ⟨ho.closed, ho.handles, trivial, ho.started, ho.readers⟩
  | @setHandleInformation ok hs =>
      rw [hs] at htested
      apply ho.setStage
      cases ok with
      | true => exact htested
      | false => trivial
  | readStdError hs =>
      rw [hs] at htested
      exact ho.setStage htested
  | readStdOutput hs =>
      rw [hs] at htested
      exact ho.setStage ⟨htested, (ho.both htested).2⟩
  | createProcess hs =>
      rw [hs] at htested
      exact ⟨ho.closed, ho.handles, htested.1,
        List.forall_mem_append.mpr ⟨ho.started, List.forall_mem_singleton.mpr htested.2⟩, ho.readers⟩
  | waitForSingleObject hs =>
      rw [hs] at htested
      apply ho.setStage
      split
      · exact htested
      · trivial
  | createThread hs =>
      rw [hs] at htested
      obtain ⟨-, hthreads⟩ := ho.none_of_ended (h.ended hs)
      refine ⟨ho.closed, ho.handles, trivial, ho.started, Or.inr ?_⟩
      rw [State.createThread, hthreads]
      exact ⟨rfl, rfl, htested, zeroed, Or.inl (Function.update_self 0 _ s.readers)⟩
  | noThread hs =>
      obtain ⟨-, hthreads⟩ := ho.none_of_ended (h.ended hs)
      exact ⟨ho.closed, ho.handles, trivial, ho.started, Or.inl ⟨rfl, hthreads⟩⟩
  | readFile hi =>
      obtain ⟨rfl, hreader, hthreads, hp, -⟩ := ho.working h hi nofun
      exact ho.setReader hreader hthreads hp ⟨_, Or.inr ⟨_, (ho.both hp).1, rfl⟩⟩
  | deliver hi hc hping =>
      obtain ⟨rfl, hreader, hthreads, hp, -⟩ := ho.working h hi nofun
      obtain ⟨h₁, h₂, h₃, h₄, h₅⟩ := ho.setReader hreader hthreads hp ⟨_, Or.inl rfl⟩
      exact ⟨h₁, h₂, h₃, h₄, h₅⟩
  | deliverEmpty hi hc => exact absurd ⟨_, Or.inr ⟨_, rfl, hc⟩⟩ he
  | fail hi => exact absurd ⟨_, Or.inl rfl⟩ he
  | closeRd hi | closeWr hi | clearRd hi | clearWr hi =>
      obtain ⟨-, -, -, -, chBuf, hworks⟩ := ho.working h hi nofun
      rcases hworks with hworks | ⟨handle, -, hworks⟩ <;> cases hworks

theorem onePipe_of_run {es : List Event} (h : run (State.step stack) {} es = some s)
    (hd : Along (State.step stack) Documented {} es) (hes : ∀ e ∈ es, ¬ EndsReading e) : OnePipe s := by
  have hboth : Sound stack s ∧ OnePipe s := by
    apply run_invariant_along ?_ ⟨sound_start stack, onePipe_start⟩ (hd.and hes) h
    rintro s e t ⟨hs, ho⟩ ⟨hd, he⟩ ht
    exact ⟨hs.step hd (step_cases ht), ho.step hs hd he (step_cases ht)⟩
  exact hboth.2

end Runs

/-- Whatever the system answers, and however the threads take turns without a lock: there is one reader at a time, no
handle is closed twice, none is read from once it has been closed, and `ping_thread` can only find a closed one while
a reader is between its closing and its clearing. What is published is what one of the chunks says. -/
theorem handles_closed_once (stack : Stack) (es : List Event) (s : State) (h : run (State.step stack) {} es = some s)
    (hd : Along (State.step stack) Documented {} es) :
    (∀ i j, s.readers i ≠ .done → s.readers j ≠ .done → i = j) ∧
    (s.closed.Nodup ∧ ∀ handle ∈ s.closed, handle.pipe < s.pipes) ∧
    (∀ i handle chBuf, s.readers i = .reading handle chBuf → ∀ x ∈ handle, x ∉ s.closed) ∧
    (∀ x ∈ s.rd, x ∈ s.closed → ∃ i, s.readers i = .closeWr ∨ s.readers i = .clearRd) ∧
    (∀ x ∈ s.wr, x ∈ s.closed → ∃ i, s.readers i = .clearRd ∨ s.readers i = .clearWr) ∧
    s.parsed = delivered es ∧
    (s.parsed = [] → s.lastPing = pingError) ∧
    (∀ chunk ∈ s.parsed.getLast?, Parses stack chunk s.lastPing) ∧
    (s.ping = 0 ∨ s.ping = pingError ∨ ∃ chunk ∈ s.parsed, Parses stack chunk s.ping) := by
  have hs := sound_of_run h hd
  refine ⟨?_, hs.closed, ?_, ?_, ?_, parsed_of_run h, hs.start, hs.last, hs.shown⟩
  · intro i j hi hj
    exact Option.some.inj ((hs.alive rfl hi).1.symm.trans (hs.alive rfl hj).1)
  · intro i handle chBuf hi
    obtain ⟨-, -, hopen, -⟩ := hs.alive hi nofun
    exact hopen
  · intro x hx hc
    refine hs.closing (P := fun r => r = .closeWr ∨ r = .clearRd) ?_ hx hc (by rintro (h | h) <;> cases h)
    intro r hr
    cases r with
    | call => exact Or.inr hr.2.1
    | reading => exact Or.inr hr.2.2.1
    | closeRd | done => exact Or.inr hr.1
    | clearWr => exact Or.inr hr
    | closeWr => exact Or.inl (Or.inl rfl)
    | clearRd => exact Or.inl (Or.inr rfl)
  · intro x hx hc
    refine hs.closing (P := fun r => r = .clearRd ∨ r = .clearWr) ?_ hx hc (by rintro (h | h) <;> cases h)
    intro r hr
    cases r with
    | call => exact Or.inr hr.2.2
    | reading => exact Or.inr hr.2.2.2
    | closeRd | done => exact Or.inr hr.2
    | closeWr => exact Or.inr hr
    | clearRd => exact Or.inl (Or.inl rfl)
    | clearWr => exact Or.inl (Or.inr rfl)

def firstPing : List Event := [.testRd, .createPipe ⟨4, by decide⟩ ⟨8, by decide⟩, .setHandleInformation true,
  .readStdError, .readStdOutput, .createProcess true, .waitForSingleObject false, .createThread true, .readFile 0,
  .deliver 0 ⟨[equals, space, 0x31, 0x32], by decide⟩, .setPing]

/-- The second reading fails, and the next pipe gets the values of the handles that have been closed. -/
def secondPipe : List Event := firstPing ++ [.testRd, .readFile 0, .fail 0, .close 0, .testWr,
  .setHandleInformation false, .setPing, .testRd, .close 0, .close 0, .close 0, .testWr,
  .createPipe ⟨4, by decide⟩ ⟨8, by decide⟩, .setHandleInformation true, .readStdError, .readStdOutput,
  .createProcess true, .waitForSingleObject true, .createThread true]

theorem handles_closed_once_second : ∃ s, run (State.step ⟨0, []⟩) {} secondPipe = some s ∧ s.pipes = 2 ∧
    s.closed.map Handle.value = [⟨4, by decide⟩, ⟨8, by decide⟩] ∧ s.rd.map Handle.value = some ⟨4, by decide⟩ ∧
    s.closed.Nodup := by
  have hsome : (run (State.step ⟨0, []⟩) {} secondPipe).isSome := rfl
  have hrun := (Option.some_get hsome).symm
  have hd : Along (State.step ⟨0, []⟩) Documented {} secondPipe := by decide +kernel
  exact ⟨_, hrun, rfl, rfl, rfl, (handles_closed_once ⟨0, []⟩ secondPipe _ hrun hd).2.1.1⟩

/-- As long as every reading succeeds there is one pipe, to which all programs write, and one reader, which is never
done and reads from nothing else. -/
theorem one_pipe (stack : Stack) (es : List Event) (s : State) (h : run (State.step stack) {} es = some s)
    (hd : Along (State.step stack) Documented {} es) (hes : ∀ e ∈ es, ¬ EndsReading e) :
    s.pipes ≤ 1 ∧ s.threads ≤ 1 ∧ s.closed = [] ∧ (∀ i < s.threads, s.readers i ≠ .done) ∧
    (∀ hStdOutput ∈ s.started, theWrite hStdOutput) ∧
    ∀ i handle chBuf, s.readers i = .reading handle chBuf → theRead handle := by
  have hs := sound_of_run h hd
  have ho := onePipe_of_run h hd hes
  refine ⟨?_, ?_, ho.closed, ?_, ho.started, ?_⟩
  · rcases ho.handles with ⟨-, hp⟩ | ⟨hp, -⟩ <;> omega
  · rcases ho.readers with ⟨-, hthreads⟩ | ⟨-, hthreads, -⟩ <;> omega
  · intro i hi
    rcases ho.readers with ⟨-, hthreads⟩ | ⟨-, hthreads, -, chBuf, hworks⟩
    · omega
    · obtain rfl : i = 0 := by omega
      rcases hworks with hworks | ⟨handle, -, hworks⟩ <;> exact hworks ▸ nofun
  · intro i handle chBuf hi
    obtain ⟨-, -, -, -, chBuf', hworks⟩ := ho.working hs hi nofun
    rcases hworks with hworks | ⟨handle', hread, hworks⟩
    · cases hworks
    · cases hworks
      exact hread

theorem one_pipe_first : ∃ s, run (State.step ⟨0, []⟩) {} firstPing = some s ∧ s.ping = 12 ∧
    ∀ hStdOutput ∈ s.started, theWrite hStdOutput := by
  have hsome : (run (State.step ⟨0, []⟩) {} firstPing).isSome := rfl
  have hrun := (Option.some_get hsome).symm
  have hd : Along (State.step ⟨0, []⟩) Documented {} firstPing := by decide +kernel
  exact ⟨_, hrun, rfl, (one_pipe ⟨0, []⟩ firstPing _ hrun hd (by simp [firstPing, EndsReading])).2.2.2.2.1⟩

end Fopd.ExternalProgram
