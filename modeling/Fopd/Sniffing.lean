import Fopd.PacketSniffer

namespace Fopd.Sniffing

open Consts Memory Utils Framing FrameTypes Packet Damage EntityStats Data PacketSniffer
open Lib.Checked Lib.Frames Lib.LittleEndian

def IsHit (f : List UInt8) : Prop := IsSpell f ∨ IsAutoAttack f

instance : DecidablePred IsHit := fun _ => inferInstanceAs (Decidable (_ ∨ _))

def hitDamage (f : List UInt8) : Nat :=
  if IsSpell f then
    if 25 ≤ (lengthByte f).toNat ∧ valueAt 4 16 f < 1000000000 then valueAt 4 16 f else 0
  else
    if 20 ≤ (lengthByte f).toNat ∧ valueAt 4 9 f < 1000000000 then valueAt 4 9 f else 0

def hitHealth (f : List UInt8) : Nat :=
  if IsSpell f then if 25 ≤ (lengthByte f).toNat then valueAt 4 20 f else 0
  else if 20 ≤ (lengthByte f).toNat then valueAt 4 13 f else 0

def hits (fs : List (List UInt8)) : List (List UInt8) := fs.filter fun f => decide (IsHit f)

def values (p : FiestaOnlinePacketDamage) : Nat × Nat :=
  (p.damageValue.toNat, p.targetRemainingHealth.toNat)

theorem layout_damage (f : List UInt8) : (layoutOf f).damage f = hitDamage f := by
  rw [layoutOf, hitDamage]
  split <;> rfl

theorem layout_health (f : List UInt8) : (layoutOf f).health f = hitHealth f := by
  rw [layoutOf, hitHealth]
  split <;> rfl

theorem healthOf_eq : healthOf = fun f => UInt32.ofNat (hitHealth f) := by
  funext f
  rw [healthOf, layout_health]

theorem isHit_eq (f : List UInt8) : isHit f = decide (IsHit f) := by
  rw [isHit, decide_eq_decide, frameType]
  split
  next h => simpa [IsHit] using h
  next h => split <;> simpa [IsHit] using h

theorem hits_eq (fs : List (List UInt8)) : fs.filter isHit = hits fs := by
  simp only [hits, ← isHit_eq]

theorem hits_append (fs gs : List (List UInt8)) : hits (fs ++ gs) = hits fs ++ hits gs :=
  List.filter_append fs gs

theorem values_entry (now : Time) (f : List UInt8) : values (entry now f) = (hitDamage f, hitHealth f) := by
  have hd := (layoutOf f).damage_lt f
  have hh := (layoutOf f).health_lt f
  rw [← layout_damage, ← layout_health]
  simp only [values, entry, Layout.decoded, UInt32.toNat_ofNat']
  rw [Nat.mod_eq_of_lt (by omega), Nat.mod_eq_of_lt hh]

theorem values_entries (clock : Nat → Time) (i : Nat) (fs : List (List UInt8)) :
    (entries clock i fs).map values = (hits fs).map fun f => (hitDamage f, hitHealth f) := by
  rw [← hits_eq]
  induction fs generalizing i with
  | nil => rfl
  | cons f fs ih =>
      by_cases hf : isHit f
      · rw [entries, if_pos hf, List.map_cons, values_entry, ih, List.filter_cons_of_pos hf, List.map_cons]
      · rw [entries, if_neg hf, ih, List.filter_cons_of_neg hf]

theorem foldl_last {α β : Type} (g : α → β) (b : β) (l : List α) :
    l.foldl (fun _ a => g a) b = (l.getLast?.map g).getD b := by
  induction l generalizing b with
  | nil => rfl
  | cons a l ih =>
      rw [List.foldl_cons, ih, List.getLast?_cons]
      cases l.getLast? <;> rfl

theorem healthAfter_eq (health : UInt32) (fs : List (List UInt8)) :
    healthAfter health fs = ((hits fs).getLast?.map fun f => UInt32.ofNat (hitHealth f)).getD health := by
  rw [healthAfter, hits_eq, foldl_last, healthOf_eq]

theorem healthAfter_append (health : UInt32) (fs gs : List (List UInt8)) :
    healthAfter health (fs ++ gs) = healthAfter (healthAfter health fs) gs := by
  rw [healthAfter, healthAfter, healthAfter, List.filter_append, List.foldl_append]

/-- What the frames `fs` are to leave behind: an entry for each hit, in order, and the health of the
last one; nothing else changes. -/
structure Publishes (fs : List (List UInt8)) (s out : Shared) : Prop where
  queue : ∃ new, out.dmgQ = s.dmgQ ++ new ∧
    new.map values = (hits fs).map fun f => (hitDamage f, hitHealth f)
  data : out.fopdData = { s.fopdData with
    targetRemainingHealth := ((hits fs).getLast?.map fun f => UInt32.ofNat (hitHealth f)).getD
      s.fopdData.targetRemainingHealth }

theorem publishes_afterFrames (clock : Nat → Time) (i : Nat) (fs : List (List UInt8)) (s : Shared) :
    Publishes fs s (afterFrames clock i fs s) := by
  refine ⟨⟨entries clock i fs, rfl, values_entries clock i fs⟩, ?_⟩
  rw [afterFrames, FOPDData.setTargetRemainingHealth, healthAfter_eq]

theorem Publishes.nil (s : Shared) : Publishes [] s s := ⟨⟨[], by simp, rfl⟩, rfl⟩

theorem Publishes.append {fs gs : List (List UInt8)} {s m out : Shared} (h : Publishes fs s m)
    (h' : Publishes gs m out) : Publishes (fs ++ gs) s out := by
  obtain ⟨new, hq, hv⟩ := h.queue
  obtain ⟨new', hq', hv'⟩ := h'.queue
  refine ⟨⟨new ++ new', ?_, ?_⟩, ?_⟩
  · rw [hq', hq, List.append_assoc]
  · rw [List.map_append, hv, hv', hits_append, List.map_append]
  · rw [h'.data, h.data]
    simp only [← healthAfter_eq, healthAfter_append]

def SameEffect (out out' : Shared) : Prop :=
  out.dmgQ.map values = out'.dmgQ.map values ∧ out.fopdData = out'.fopdData

instance (out out' : Shared) : Decidable (SameEffect out out') := inferInstanceAs (Decidable (_ ∧ _))

theorem Publishes.sameEffect {fs gs : List (List UInt8)} {s out out' : Shared} (h : Publishes fs s out)
    (h' : Publishes gs s out') (he : hits fs = hits gs) : SameEffect out out' := by
  obtain ⟨new, hq, hv⟩ := h.queue
  obtain ⟨new', hq', hv'⟩ := h'.queue
  refine ⟨?_, ?_⟩
  · rw [hq, hq', List.map_append, List.map_append, hv, hv', he]
  · rw [h.data, h'.data, he]

theorem Publishes.length_hits {fs gs : List (List UInt8)} {s out out' : Shared} (h : Publishes fs s out)
    (h' : Publishes gs s out') (he : SameEffect out out') : (hits fs).length = (hits gs).length := by
  obtain ⟨new, hq, hv⟩ := h.queue
  obtain ⟨new', hq', hv'⟩ := h'.queue
  have hn := congrArg List.length he.1
  have hl := congrArg List.length hv
  have hl' := congrArg List.length hv'
  rw [hq, hq'] at hn
  simp only [List.length_map, List.length_append] at hn hl hl'
  omega

section Payloads

variable (beyond : Nat → UInt8)

theorem processPacket_completes (clock : Nat → Time) (fs : List (List UInt8)) (r : List UInt8)
    (hlen : (fs.flatten ++ r).length < 2 ^ 32) (hw : NoWrap (fs.flatten ++ r).length r)
    (hfs : ∀ f ∈ fs, HeaderFrame f) (hr : r = [] ∨ Incomplete UInt8.toNat r) (s : Shared) :
    Completes (processPacket ⟨some (fs.flatten ++ r)⟩ clock beyond s)
      (true, afterFrames clock 0 fs s) := by
  have hd : Decomposes UInt8.toNat (fs.flatten ++ r) fs r := ⟨fun f hf => (hfs f hf).1, rfl, hr⟩
  have hp : Completes (getPackets (fs.flatten ++ r) beyond) (fs.map typed) := by
    rw [completes_getPackets hlen, hd.frames_eq, hd.leftover_eq]
    exact ⟨hw, headersIn_headerFrames hfs, typedFrames_headerFrames hfs⟩
  exact hp.bind ((handlePackets_completes hfs 0 s).bind (safely_pure.mpr rfl))

theorem processPackets_publishes (clock : Nat → Nat → Time)
    {captures : List (List (List UInt8) × List UInt8)}
    (hlen : ∀ c ∈ captures, (c.1.flatten ++ c.2).length < 2 ^ 32)
    (hw : ∀ c ∈ captures, NoWrap (c.1.flatten ++ c.2).length c.2)
    (hfs : ∀ c ∈ captures, ∀ f ∈ c.1, HeaderFrame f)
    (hr : ∀ c ∈ captures, c.2 = [] ∨ Incomplete UInt8.toNat c.2) (k : Nat) (s : Shared) :
    ∃ out, Completes (processPackets clock beyond k
      (captures.map fun c => ⟨some (c.1.flatten ++ c.2)⟩) s) out ∧
      Publishes (captures.flatMap Prod.fst) s out := by
  induction captures generalizing k s with
  | nil => exact ⟨s, safely_pure.mpr rfl, Publishes.nil s⟩
  | cons c captures ih =>
      simp only [List.forall_mem_cons] at hlen hw hfs hr
      have hp := processPacket_completes beyond (clock k) c.1 c.2 hlen.1 hw.1 hfs.1 hr.1 s
      obtain ⟨out, hout, hpub⟩ := ih hlen.2 hw.2 hfs.2 hr.2 (k + 1) (afterFrames (clock k) 0 c.1 s)
      exact ⟨out, hp.bind hout, (publishes_afterFrames (clock k) 0 c.1 s).append hpub⟩

end Payloads

/-- End-to-end decoding. Payloads made of frames with headers, each with an incomplete frame at its
end or not, put one entry for each spell or auto attack frame into the queue, in stream order, and
leave the health of the last one on display. No precondition is violated on the way. -/
theorem decodes_end_to_end (captures : List (List (List UInt8) × List UInt8))
    (clock : Nat → Nat → Time) (beyond : Nat → UInt8) (s : Shared)
    (hlen : ∀ c ∈ captures, (c.1.flatten ++ c.2).length ≤ 65535)
    (hfs : ∀ c ∈ captures, ∀ f ∈ c.1, HeaderFrame f)
    (hr : ∀ c ∈ captures, c.2 = [] ∨ Incomplete UInt8.toNat c.2) :
    ∃ out, Completes (processPackets clock beyond 0
        (captures.map fun c => ⟨some (c.1.flatten ++ c.2)⟩) s) out ∧
      (∃ new, out.dmgQ = s.dmgQ ++ new ∧
        new.map values = (hits (captures.flatMap Prod.fst)).map fun f => (hitDamage f, hitHealth f)) ∧
      out.fopdData = { s.fopdData with
        targetRemainingHealth :=
          ((hits (captures.flatMap Prod.fst)).getLast?.map fun f => UInt32.ofNat (hitHealth f)).getD
            s.fopdData.targetRemainingHealth } := by
  have hlen' : ∀ c ∈ captures, (c.1.flatten ++ c.2).length + 256 ≤ 2 ^ 32 := by
    intro c hc
    have := hlen c hc
    omega
  obtain ⟨out, hout, hpub⟩ := processPackets_publishes beyond clock
    (fun c hc => by have := hlen c hc; omega) (fun c hc => noWrap_of_le (hlen' c hc) c.2) hfs hr 0 s
  exact ⟨out, hout, hpub.queue, hpub.data⟩

theorem decodes_end_to_end_two :
    ∃ out, Completes (processPackets (fun k i => k + i) (fun _ => 0) 0
        ([([25 :: 0x52 :: 0x24 :: List.replicate 23 1], [9, 0x48]),
          ([24 :: 0x52 :: 0x24 :: List.replicate 22 1], [])].map fun c => ⟨some (c.1.flatten ++ c.2)⟩)
        { fopdData := {}, dmgQ := [] }) out ∧
      out.dmgQ.map values = [(0x01010101, 0x01010101), (0, 0)] ∧
      out.fopdData.targetRemainingHealth = 0 := by
  obtain ⟨out, hout, ⟨new, hq, hv⟩, hd⟩ := decodes_end_to_end
    [([25 :: 0x52 :: 0x24 :: List.replicate 23 1], [9, 0x48]),
      ([24 :: 0x52 :: 0x24 :: List.replicate 22 1], [])]
    (fun k i => k + i) (fun _ => 0) { fopdData := {}, dmgQ := [] } (by decide) (by decide)
    (by simp [Incomplete])
  refine ⟨out, hout, ?_, ?_⟩
  · rw [hq, List.nil_append, hv]
    decide
  · rw [hd]
    decide

end Fopd.Sniffing
