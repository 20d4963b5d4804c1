import Fopd.Lib.Timeline
import Fopd.Lib.Transitions
import Mathlib.Algebra.Group.Nat.Defs
import Mathlib.Data.Fintype.Card

namespace Fopd.RenderLoop

open Lib.Timeline Lib.Transitions

@[simp] abbrev numFramesInFlight : Nat := 3

abbrev numBackBuffers : Nat := 3

/-- What the loop calls of the command queue, the fence, its event and the swap chain: a wait that does not return
yet is `none`, and `advance` is something that the graphics card does in the meantime. -/
structure Card (δ χ : Type) where
  init : δ
  executeCommandLists : δ → Fin numFramesInFlight → δ
  present : δ → δ
  signal : δ → UInt64 → δ
  getCompletedValue : δ → UInt64
  setEventOnCompletion : δ → UInt64 → δ
  waitForFence : δ → Option δ
  waitForSwapChain : δ → Option δ
  waitForBoth : δ → Option δ
  advance : δ → χ → Option δ

/-- What there is to see of a card: the command queue, the frames that have been presented and are not on the
screen, and how many more the swap chain lets the program begin. -/
structure Look where
  queue : View (Fin numFramesInFlight) := {}
  frames : Nat := 0
  ready : Nat := numBackBuffers

namespace Look

def waitForFence (l : Look) : Option Look := l.queue.wait.map fun queue => { l with queue }

def waitForSwapChain (l : Look) : Option Look := if l.ready = 0 then none else some { l with ready := l.ready - 1 }

inductive Advance (l : Look) : Look → Prop
  | execute {queue} (h : l.queue.execute = some queue) : Advance l { l with queue }
  | display {frames} (h : l.frames = frames + 1) : Advance l { l with frames, ready := l.ready + 1 }

/-- How much the card can still do on its own. -/
def rank (l : Look) : Nat := l.queue.items.length + l.frames

end Look

/-- What is documented of a card that is not removed. Its queue executes in the order of the calls, the fence has
the value of the last signal executed, `SetEventOnCompletion` sets the event once the fence has the value, a wait
resets it, and the swap chain can have as many frames under way as there are back buffers. -/
structure Documented {δ χ : Type} (card : Card δ χ) (look : δ → Look) : Prop where
  init : look card.init = {}
  executeCommandLists : ∀ d k,
    look (card.executeCommandLists d k) = { look d with queue := (look d).queue.submit k }
  present : ∀ d, look (card.present d) = { look d with frames := (look d).frames + 1 }
  signal : ∀ d value, look (card.signal d value) = { look d with queue := (look d).queue.signal value.toNat }
  getCompletedValue : ∀ d, card.getCompletedValue d = UInt64.ofNat (look d).queue.completed
  setEventOnCompletion : ∀ d value, look (card.setEventOnCompletion d value) =
    { look d with queue := (look d).queue.setEventOnCompletion value.toNat }
  waitForFence : ∀ d, (card.waitForFence d).map look = (look d).waitForFence
  waitForSwapChain : ∀ d, (card.waitForSwapChain d).map look = (look d).waitForSwapChain
  waitForBoth : ∀ d, (card.waitForBoth d).map look = (look d).waitForFence.bind Look.waitForSwapChain
  advance : ∀ d x d', card.advance d x = some d' → (look d).Advance (look d')
  progress : ∀ d, (look d).rank ≠ 0 → ∃ x, (card.advance d x).isSome

/-- What comes after a wait for the last frame: the wait in `CleanupRenderTarget`, then the release of the back
buffers; both in the handler of `WM_SIZE` and, `closing`, at the end. -/
inductive Then
  | cleanup
  | release

inductive Stage
  | messages
  | waitingForFrame (fenceValue : Option UInt64)
  | acquired
  | recording
  | submitted
  | presented
  | waitingForLast (fenceValue : UInt64) (then_ : Then) (closing : Bool)
  | next (then_ : Then) (closing : Bool)
  | closed

/-- A frame context is a command allocator with the fence value of its last use. -/
structure State (δ : Type) where
  card : δ
  frameIndex : UInt32 := 0
  fenceValues : Fin numFramesInFlight → UInt64 := fun _ => 0
  fenceLastSignaledValue : UInt64 := 0
  stage : Stage := .messages

def slot (frameIndex : UInt32) : Fin numFramesInFlight :=
  ⟨(frameIndex % 3).toNat, by
    rw [UInt32.toNat_mod]
    exact Nat.mod_lt _ (by decide)⟩

inductive Event (χ : Type)
  | waitForNextFrameResources
  | acquire
  | reset
  | executeCommandLists
  | present
  | signal
  | resize
  | close
  | cleanupRenderTarget
  | wake
  | release
  | card (x : χ)

def Event.isSignal {χ : Type} : Event χ → Bool
  | .signal => true
  | _ => false

variable {δ χ : Type}

namespace State

variable (card : Card δ χ) (s : State δ)

def current : Fin numFramesInFlight := slot s.frameIndex

def waitForLastSubmittedFrame (then_ : Then) (closing : Bool) : State δ :=
  let fenceValue := s.fenceValues s.current
  if fenceValue = 0 then { s with stage := .next then_ closing }
  else
    let s := { s with fenceValues := Function.update s.fenceValues s.current 0 }
    if card.getCompletedValue s.card ≥ fenceValue then { s with stage := .next then_ closing }
    else { s with
      card := card.setEventOnCompletion s.card fenceValue
      stage := .waitingForLast fenceValue then_ closing }

def waitForNextFrameResources : State δ :=
  let s := { s with frameIndex := s.frameIndex + 1 }
  let fenceValue := s.fenceValues s.current
  if fenceValue ≠ 0 then
    { s with
      fenceValues := Function.update s.fenceValues s.current 0
      card := card.setEventOnCompletion s.card fenceValue
      stage := .waitingForFrame (some fenceValue) }
  else { s with stage := .waitingForFrame none }

def signal : State δ :=
  let fenceValue := s.fenceLastSignaledValue + 1
  { s with
    card := card.signal s.card fenceValue
    fenceLastSignaledValue := fenceValue
    fenceValues := Function.update s.fenceValues s.current fenceValue
    stage := .messages }

def step (s : State δ) : Event χ → Option (State δ)
  | .waitForNextFrameResources =>
      match s.stage with
      | .messages => some (s.waitForNextFrameResources card)
      | _ => none
  | .acquire =>
      match s.stage with
      | .waitingForFrame none => (card.waitForSwapChain s.card).map fun d => { s with card := d, stage := .acquired }
      | .waitingForFrame (some _) => (card.waitForBoth s.card).map fun d => { s with card := d, stage := .acquired }
      | _ => none
  | .reset =>
      match s.stage with
      | .acquired => some { s with stage := .recording }
      | _ => none
  | .executeCommandLists =>
      match s.stage with
      | .recording => some { s with card := card.executeCommandLists s.card s.current, stage := .submitted }
      | _ => none
  | .present =>
      match s.stage with
      | .submitted => some { s with card := card.present s.card, stage := .presented }
      | _ => none
  | .signal =>
      match s.stage with
      | .presented => some (s.signal card)
      | _ => none
  | .resize =>
      match s.stage with
      | .messages => some (s.waitForLastSubmittedFrame card .cleanup false)
      | _ => none
  | .close =>
      match s.stage with
      | .messages => some (s.waitForLastSubmittedFrame card .cleanup true)
      | _ => none
  | .cleanupRenderTarget =>
      match s.stage with
      | .next .cleanup closing => some (s.waitForLastSubmittedFrame card .release closing)
      | _ => none
  | .wake =>
      match s.stage with
      | .waitingForLast _ then_ closing =>
          (card.waitForFence s.card).map fun d => { s with card := d, stage := .next then_ closing }
      | _ => none
  | .release =>
      match s.stage with
      | .next .release closing => some { s with stage := if closing then .closed else .messages }
      | _ => none
  | .card x => (card.advance s.card x).map fun d => { s with card := d }

end State

def start (card : Card δ χ) : State δ := { card := card.init }

inductive Step (card : Card δ χ) (s : State δ) : Event χ → State δ → Prop
  | waitForNextFrameResources (hs : s.stage = .messages) :
      Step card s .waitForNextFrameResources (s.waitForNextFrameResources card)
  | acquire {d} (hs : s.stage = .waitingForFrame none) (hd : card.waitForSwapChain s.card = some d) :
      Step card s .acquire { s with card := d, stage := .acquired }
  | acquireBoth {fenceValue d} (hs : s.stage = .waitingForFrame (some fenceValue))
      (hd : card.waitForBoth s.card = some d) : Step card s .acquire { s with card := d, stage := .acquired }
  | reset (hs : s.stage = .acquired) : Step card s .reset { s with stage := .recording }
  | executeCommandLists (hs : s.stage = .recording) : Step card s .executeCommandLists
      { s with card := card.executeCommandLists s.card s.current, stage := .submitted }
  | present (hs : s.stage = .submitted) :
      Step card s .present { s with card := card.present s.card, stage := .presented }
  | signal (hs : s.stage = .presented) : Step card s .signal (s.signal card)
  | resize (hs : s.stage = .messages) : Step card s .resize (s.waitForLastSubmittedFrame card .cleanup false)
  | close (hs : s.stage = .messages) : Step card s .close (s.waitForLastSubmittedFrame card .cleanup true)
  | cleanupRenderTarget {closing} (hs : s.stage = .next .cleanup closing) :
      Step card s .cleanupRenderTarget (s.waitForLastSubmittedFrame card .release closing)
  | wake {fenceValue then_ closing d} (hs : s.stage = .waitingForLast fenceValue then_ closing)
      (hd : card.waitForFence s.card = some d) : Step card s .wake { s with card := d, stage := .next then_ closing }
  | release {closing} (hs : s.stage = .next .release closing) :
      Step card s .release { s with stage := if closing then .closed else .messages }
  | card {x d} (hd : card.advance s.card x = some d) : Step card s (.card x) { s with card := d }

theorem step_cases {card : Card δ χ} {s t : State δ} {e : Event χ} (h : s.step card e = some t) : Step card s e t := by
  cases e with
  | waitForNextFrameResources | reset | executeCommandLists | present | signal | resize | close | cleanupRenderTarget
  | release =>
      rw [State.step] at h
      split at h
      next hs =>
        obtain rfl := Option.some.inj h
        constructor
        exact hs
      next => cases h
  | acquire =>
      rw [State.step] at h
      split at h
      next hs =>
        obtain ⟨d, hd, rfl⟩ := Option.map_eq_some_iff.mp h
        exact .acquire hs hd
      next hs =>
        obtain ⟨d, hd, rfl⟩ := Option.map_eq_some_iff.mp h
        exact .acquireBoth hs hd
      next => cases h
  | wake =>
      rw [State.step] at h
      split at h
      next hs =>
        obtain ⟨d, hd, rfl⟩ := Option.map_eq_some_iff.mp h
        exact .wake hs hd
      next => cases h
  | card x =>
      obtain ⟨d, hd, rfl⟩ := Option.map_eq_some_iff.mp h
      exact .card hd

theorem Step.isSome {card : Card δ χ} {s t : State δ} {e : Event χ} (h : Step card s e t) :
    (s.step card e).isSome := by
  cases h with
  | waitForNextFrameResources hs | reset hs | executeCommandLists hs | present hs | signal hs | resize hs | close hs
  | cleanupRenderTarget hs | release hs =>
      rw [State.step, hs]
      rfl
  | acquire hs hd | acquireBoth hs hd | wake hs hd =>
      rw [State.step, hs]
      dsimp only
      rw [hd]
      rfl
  | card hd =>
      rw [State.step, hd]
      rfl

/-- The values that the frame contexts wait for. -/
def due (fenceValues : Fin numFramesInFlight → UInt64) (k : Fin numFramesInFlight) : Nat := (fenceValues k).toNat

theorem due_update (fenceValues : Fin numFramesInFlight → UInt64) (k : Fin numFramesInFlight) (value : UInt64) :
    due (Function.update fenceValues k value) = Function.update (due fenceValues) k value.toNat :=
  Function.comp_update UInt64.toNat fenceValues k value

theorem update_restore (f : Fin numFramesInFlight → Nat) (k : Fin numFramesInFlight) :
    Function.update (Function.update f k 0) k (f k) = f := by
  rw [Function.update_idem, Function.update_eq_self]

/-- What is left for the card never uses what the next steps of the loop use again. -/
def Safe (q : View (Fin numFramesInFlight)) (f : Fin numFramesInFlight → Nat) (k : Fin numFramesInFlight) : Stage → Prop
  | .messages => Guarded q f none ∧ Quiet q ∧ (f k = 0 ∧ q.items = [] ∨ f k = q.signaled)
  | .waitingForFrame none | .acquired | .recording => Guarded q f none ∧ Quiet q ∧ f k = 0
  | .waitingForFrame (some fenceValue) =>
      Guarded q (Function.update f k fenceValue.toNat) none ∧ Awaits q fenceValue.toNat ∧ f k = 0
  | .submitted | .presented => Guarded q f (some k) ∧ Quiet q
  | .waitingForLast fenceValue _ _ =>
      Guarded q (Function.update f k fenceValue.toNat) none ∧ Awaits q fenceValue.toNat ∧ f k = 0 ∧
        fenceValue.toNat = q.signaled
  | .next _ _ | .closed => Guarded q f none ∧ Quiet q ∧ f k = 0 ∧ q.items = []

section Safe

variable {q q' : View (Fin numFramesInFlight)} {f : Fin numFramesInFlight → Nat} {k : Fin numFramesInFlight} {stage : Stage}

theorem Safe.execute (h : Safe q f k stage) (he : q.execute = some q') : Safe q' f k stage := by
  have hbusy : q.items ≠ [] := by
    obtain ⟨item, hitem⟩ := execute_items he
    exact hitem ▸ List.cons_ne_nil _ _
  cases stage with
  | messages =>
      obtain ⟨hg, hq, hlast⟩ := h
      refine ⟨hg.execute he, hq.execute hg.wellFormed he, Or.inr ?_⟩
      rw [execute_signaled he]
      exact hlast.resolve_left fun h => hbusy h.2
  | waitingForFrame fenceValue =>
      cases fenceValue with
      | none =>
          obtain ⟨hg, hq, h0⟩ := h
          exact ⟨hg.execute he, hq.execute hg.wellFormed he, h0⟩
      | some fenceValue =>
          obtain ⟨hg, ha, h0⟩ := h
          exact ⟨hg.execute he, ha.execute hg.wellFormed he, h0⟩
  | acquired | recording =>
      obtain ⟨hg, hq, h0⟩ := h
      exact ⟨hg.execute he, hq.execute hg.wellFormed he, h0⟩
  | submitted | presented =>
      obtain ⟨hg, hq⟩ := h
      exact ⟨hg.execute he, hq.execute hg.wellFormed he⟩
  | waitingForLast fenceValue then_ closing =>
      obtain ⟨hg, ha, h0, hlast⟩ := h
      exact ⟨hg.execute he, ha.execute hg.wellFormed he, h0, hlast.trans (execute_signaled he).symm⟩
  | next then_ closing | closed =>
      obtain ⟨-, -, -, hitems⟩ := h
      exact absurd hitems hbusy

/-- The wait is over: the value has been reached, and the frame context has none any more. -/
theorem guarded_of_wait {value : Nat} (hg : Guarded q (Function.update f k value) none) (ha : Awaits q value)
    (h0 : f k = 0) (hw : q.wait = some q') : Guarded q' f none ∧ Quiet q' ∧ value ≤ q'.completed := by
  obtain ⟨hle, hquiet, rfl⟩ := ha.wait hw
  have hclear := hg.clear (w := k) (by rwa [Function.update_self])
  rw [Function.update_idem, ← h0, Function.update_eq_self] at hclear
  exact ⟨hclear.wait false, hquiet, hle⟩

theorem safe_of_wait {fenceValue : UInt64} {then_ : Then} {closing : Bool}
    (h : Safe q f k (.waitingForLast fenceValue then_ closing)) (hw : q.wait = some q') :
    Safe q' f k (.next then_ closing) := by
  obtain ⟨hg, ha, h0, hlast⟩ := h
  obtain ⟨hg', hq, hle⟩ := guarded_of_wait hg ha h0 hw
  refine ⟨hg', hq, h0, hg'.items_eq_nil ?_⟩
  obtain ⟨-, -, rfl⟩ := ha.wait hw
  exact hlast ▸ hle

end Safe

/-- Between the wait for the swap chain and `Present` the program has a frame of its own. -/
def Stage.begun : Stage → Nat
  | .acquired | .recording | .submitted => 1
  | _ => 0

structure Sound (look : δ → Look) (s : State δ) : Prop where
  signaled : (look s.card).queue.signaled = s.fenceLastSignaledValue.toNat
  frames : (look s.card).ready + (look s.card).frames + s.stage.begun = numBackBuffers
  safe : Safe (look s.card).queue (due s.fenceValues) s.current s.stage

section Steps

variable {card : Card δ χ} {look : δ → Look} {s t : State δ} {e : Event χ}

theorem Sound.of_look {l : Look} (hl : look s.card = l) (hsignaled : l.queue.signaled = s.fenceLastSignaledValue.toNat)
    (hframes : l.ready + l.frames + s.stage.begun = numBackBuffers)
    (hsafe : Safe l.queue (due s.fenceValues) s.current s.stage) : Sound look s := by
  subst hl
  exact ⟨hsignaled, hframes, hsafe⟩

theorem sound_start (hcard : Documented card look) : Sound look (start card) :=
  .of_look hcard.init rfl rfl ⟨guarded_start, ⟨rfl, rfl⟩, Or.inl ⟨rfl, rfl⟩⟩

theorem sound_waitForLastSubmittedFrame (hcard : Documented card look) (h : Sound look s) (hbegun : s.stage.begun = 0)
    (hg : Guarded (look s.card).queue (due s.fenceValues) none) (hq : Quiet (look s.card).queue)
    (hlast : due s.fenceValues s.current = 0 ∧ (look s.card).queue.items = [] ∨
      due s.fenceValues s.current = (look s.card).queue.signaled)
    (then_ : Then) (closing : Bool) : Sound look (s.waitForLastSubmittedFrame card then_ closing) := by
  have hframes := h.frames
  rw [hbegun] at hframes
  have hidle (hle : due s.fenceValues s.current ≤ (look s.card).queue.completed) : (look s.card).queue.items = [] := by
    rcases hlast with ⟨-, hitems⟩ | hsignaled
    · exact hitems
    · exact hg.items_eq_nil (hsignaled ▸ hle)
  rw [State.waitForLastSubmittedFrame]
  split
  next h0 =>
    have hdue : due s.fenceValues s.current = 0 := by rw [due, h0, UInt64.toNat_zero]
    exact ⟨h.signaled, hframes, hg, hq, hdue, hidle (hdue ▸ Nat.zero_le _)⟩
  next h0 =>
    dsimp only
    have hcleared := due_update s.fenceValues s.current 0
    rw [UInt64.toNat_zero] at hcleared
    have hzero : due (Function.update s.fenceValues s.current 0) s.current = 0 := by
      rw [hcleared, Function.update_self]
    split
    next hle =>
      have hcompleted : (look s.card).queue.completed < 2 ^ 64 := by
        have hle := hg.wellFormed.le
        have hlt := s.fenceLastSignaledValue.toNat_lt
        rw [h.signaled] at hle
        omega
      rw [ge_iff_le, UInt64.le_iff_toNat_le, hcard.getCompletedValue, UInt64.toNat_ofNat_of_lt' hcompleted] at hle
      refine ⟨h.signaled, hframes, ?_, hq, hzero, hidle hle⟩
      exact hcleared ▸ hg.clear hle
    next =>
      refine .of_look (hcard.setEventOnCompletion s.card (s.fenceValues s.current)) ?_ hframes
        ⟨?_, hq.setEventOnCompletion _, hzero, ?_⟩
      · rw [setEventOnCompletion_signaled]
        exact h.signaled
      · have hdue := update_restore (due s.fenceValues) s.current
        rw [← hcleared] at hdue
        exact hdue.symm ▸ hg.setEventOnCompletion _
      · rw [setEventOnCompletion_signaled]
        refine hlast.resolve_left fun h => h0 ?_
        exact UInt64.toNat_inj.mp (h.1.trans UInt64.toNat_zero.symm)

theorem sound_waitForNextFrameResources (hcard : Documented card look) (h : Sound look s) (hs : s.stage = .messages) :
    Sound look (s.waitForNextFrameResources card) := by
  obtain ⟨hsignaled, hframes, hsafe⟩ := h
  rw [hs] at hframes hsafe
  obtain ⟨hg, hq, -⟩ := hsafe
  rw [State.waitForNextFrameResources]
  dsimp only
  have hcleared := due_update s.fenceValues (slot (s.frameIndex + 1)) 0
  rw [UInt64.toNat_zero] at hcleared
  split
  next =>
    have hzero : due (Function.update s.fenceValues (slot (s.frameIndex + 1)) 0) (slot (s.frameIndex + 1)) = 0 := by
      rw [hcleared, Function.update_self]
    have hdue := update_restore (due s.fenceValues) (slot (s.frameIndex + 1))
    rw [← hcleared] at hdue
    refine .of_look (hcard.setEventOnCompletion s.card (s.fenceValues (slot (s.frameIndex + 1)))) ?_ hframes
      ⟨hdue.symm ▸ hg.setEventOnCompletion _, hq.setEventOnCompletion _, hzero⟩
    rw [setEventOnCompletion_signaled]
    exact hsignaled
  next h0 =>
    refine ⟨hsignaled, hframes, hg, hq, ?_⟩
    exact (congrArg UInt64.toNat (not_not.mp h0)).trans UInt64.toNat_zero

theorem sound_signal (hcard : Documented card look) (h : Sound look s) (hs : s.stage = .presented)
    (hlt : s.fenceLastSignaledValue.toNat + 1 < 2 ^ 64) : Sound look (s.signal card) := by
  obtain ⟨hsignaled, hframes, hsafe⟩ := h
  rw [hs] at hframes hsafe
  obtain ⟨hg, hq⟩ := hsafe
  have hnext : (s.fenceLastSignaledValue + 1).toNat = (look s.card).queue.signaled + 1 := by
    rw [UInt64.toNat_add, UInt64.toNat_one, Nat.mod_eq_of_lt hlt, hsignaled]
  refine .of_look (hcard.signal s.card (s.fenceLastSignaledValue + 1)) rfl hframes ?_
  rw [State.signal, due_update, hnext]
  exact ⟨hg.signal, hq, Or.inr (Function.update_self ..)⟩

theorem sound_card (hcard : Documented card look) (h : Sound look s) {x : χ} {d : δ}
    (hd : card.advance s.card x = some d) : Sound look { s with card := d } := by
  obtain ⟨hsignaled, hframes, hsafe⟩ := h
  have hadvance := hcard.advance s.card x d hd
  generalize hlook : look d = l at hadvance
  cases hadvance with
  | execute he => exact .of_look hlook ((execute_signaled he).trans hsignaled) hframes (hsafe.execute he)
  | display hn =>
      rw [hn] at hframes
      refine .of_look hlook hsignaled ?_ hsafe
      dsimp only
      omega

theorem Sound.step (hcard : Documented card look) (h : Sound look s) (hst : Step card s e t)
    (hlt : e.isSignal → s.fenceLastSignaledValue.toNat + 1 < 2 ^ 64) : Sound look t := by
  obtain ⟨hsignaled, hframes, hsafe⟩ := id h
  cases hst with
  | card hd => exact sound_card hcard h hd
  | waitForNextFrameResources hs => exact sound_waitForNextFrameResources hcard h hs
  | acquire hs hd =>
      have hlook := hcard.waitForSwapChain s.card
      rw [hd, Option.map_some, Look.waitForSwapChain] at hlook
      obtain ⟨hready, hlook⟩ := Option.ite_none_left_eq_some.mp hlook.symm
      rw [hs] at hframes hsafe
      refine .of_look (Option.some.inj hlook).symm hsignaled ?_ hsafe
      simp only [Stage.begun] at hframes ⊢
      omega
  | acquireBoth hs hd =>
      have hlook := hcard.waitForBoth s.card
      rw [hd, Option.map_some, eq_comm, Option.bind_eq_some_iff] at hlook
      obtain ⟨l, hfence, hswap⟩ := hlook
      obtain ⟨queue, hw, rfl⟩ := Option.map_eq_some_iff.mp hfence
      obtain ⟨hready, hlook⟩ := Option.ite_none_left_eq_some.mp hswap
      rw [hs] at hframes hsafe
      obtain ⟨hg, ha, h0⟩ := hsafe
      obtain ⟨hg', hq, -⟩ := guarded_of_wait hg ha h0 hw
      refine .of_look (Option.some.inj hlook).symm ?_ ?_ ⟨hg', hq, h0⟩
      · obtain ⟨-, -, rfl⟩ := ha.wait hw
        exact hsignaled
      · simp only [Stage.begun] at hframes hready ⊢
        omega
  | reset hs =>
      rw [hs] at hframes hsafe
      exact ⟨hsignaled, hframes, hsafe⟩
  | executeCommandLists hs =>
      rw [hs] at hframes hsafe
      obtain ⟨hg, hq, h0⟩ := hsafe
      exact .of_look (hcard.executeCommandLists _ _) hsignaled hframes ⟨hg.submit h0, hq⟩
  | present hs =>
      rw [hs] at hframes hsafe
      refine .of_look (hcard.present _) hsignaled ?_ hsafe
      simp only [Stage.begun] at hframes ⊢
      omega
  | signal hs => exact sound_signal hcard h hs (hlt rfl)
  | resize hs | close hs =>
      rw [hs] at hsafe
      obtain ⟨hg, hq, hlast⟩ := hsafe
      exact sound_waitForLastSubmittedFrame hcard h (by rw [hs]; rfl) hg hq hlast _ _
  | cleanupRenderTarget hs =>
      rw [hs] at hsafe
      obtain ⟨hg, hq, h0, hitems⟩ := hsafe
      exact sound_waitForLastSubmittedFrame hcard h (by rw [hs]; rfl) hg hq (Or.inl ⟨h0, hitems⟩) _ _
  | wake hs hd =>
      have hlook := hcard.waitForFence s.card
      rw [hd, Option.map_some, eq_comm] at hlook
      obtain ⟨queue, hw, hlook⟩ := Option.map_eq_some_iff.mp hlook
      rw [hs] at hframes hsafe
      refine .of_look hlook.symm ?_ hframes (safe_of_wait hsafe hw)
      obtain ⟨-, -, rfl⟩ := hsafe.2.1.wait hw
      exact hsignaled
  | @release closing hs =>
      rw [hs] at hframes hsafe
      obtain ⟨hg, hq, h0, hitems⟩ := hsafe
      cases closing with
      | false => exact ⟨hsignaled, hframes, hg, hq, Or.inl ⟨h0, hitems⟩⟩
      | true => exact ⟨hsignaled, hframes, hg, hq, h0, hitems⟩

theorem fenceLastSignaledValue_waitForLastSubmittedFrame (then_ : Then) (closing : Bool) :
    (s.waitForLastSubmittedFrame card then_ closing).fenceLastSignaledValue = s.fenceLastSignaledValue := by
  rw [State.waitForLastSubmittedFrame]
  split
  · rfl
  · dsimp only
    split <;> rfl

theorem fenceLastSignaledValue_step (hst : Step card s e t) :
    t.fenceLastSignaledValue = if e.isSignal then s.fenceLastSignaledValue + 1 else s.fenceLastSignaledValue := by
  cases hst with
  | waitForNextFrameResources =>
      rw [State.waitForNextFrameResources]
      dsimp only
      split <;> rfl
  | resize | close | cleanupRenderTarget => exact fenceLastSignaledValue_waitForLastSubmittedFrame _ _
  | acquire | acquireBoth | reset | executeCommandLists | present | signal | wake | release | card => rfl

theorem sound_of_run (hcard : Documented card look) {es : List (Event χ)} (hes : es.countP Event.isSignal < 2 ^ 64)
    (h : run (State.step card) (start card) es = some s) : Sound look s := by
  have hinv : es.countP Event.isSignal < 2 ^ 64 →
      Sound look s ∧ s.fenceLastSignaledValue.toNat = es.countP Event.isSignal := by
    refine run_induction (I := fun es s => es.countP Event.isSignal < 2 ^ 64 →
      Sound look s ∧ s.fenceLastSignaledValue.toNat = es.countP Event.isSignal) ?_ ?_ h
    · exact fun _ => ⟨sound_start hcard, rfl⟩
    · intro es s e t ih ht hlt
      rw [List.countP_append, List.countP_singleton] at hlt ⊢
      obtain ⟨hs, hcount⟩ := ih (by omega)
      rw [fenceLastSignaledValue_step (step_cases ht)]
      by_cases he : e.isSignal = true
      · rw [if_pos he] at hlt
        rw [if_pos he, if_pos he]
        refine ⟨hs.step hcard (step_cases ht) fun _ => hcount ▸ hlt, ?_⟩
        rw [UInt64.toNat_add, UInt64.toNat_one, hcount, Nat.mod_eq_of_lt hlt]
      · rw [if_neg he, if_neg he]
        exact ⟨hs.step hcard (step_cases ht) fun h => absurd h he, hcount⟩
  exact (hinv hes).1

end Steps

def frame : List (Event Bool) := [.waitForNextFrameResources, .acquire, .reset, .executeCommandLists, .present, .signal]

section Runs

variable {card : Card δ χ} {look : δ → Look}

end Runs

end Fopd.RenderLoop
