import Fopd.FrameTypes

namespace Fopd.Packet

open Consts Memory Utils Framing FrameTypes Lib.Checked Lib.LittleEndian

structure FiestaOnlinePacket where
  timestamp : Time
  payloadLen : UInt8 := 0
  header : Vector UInt8 fopdPacketHeaderLen := Vector.replicate fopdPacketHeaderLen 0
  payload : Vector UInt8 fopdPacketPayloadMaxLen := Vector.replicate fopdPacketPayloadMaxLen 0
  deriving DecidableEq

namespace FiestaOnlinePacket

/-- The constructor from a pointer to the length byte of a frame. The length counts the header, which
is subtracted after the assertion; a failed assertion ends the process. -/
def ofPointer (now : Time) (data : Pointer) : Run FiestaOnlinePacket := do
  let len ← data.read fopdPacketPayloadLenOffset
  emit [.assertion (fopdPacketHeaderLen ≤ len.toNat)]
  if fopdPacketHeaderLen ≤ len.toNat then do
    let payloadLen := len - 2
    let header ← memcpy (Vector.replicate fopdPacketHeaderLen 0)
      (data.advance fopdPacketHeaderOffset) fopdPacketHeaderLen
    let payload ← memcpy (Vector.replicate fopdPacketPayloadMaxLen 0)
      (data.advance fopdPacketPayloadOffset) payloadLen.toNat
    pure { timestamp := now, payloadLen, header, payload }
  else stop

def ofVector (now : Time) (data : List UInt8) (beyond : Nat → UInt8) : Run FiestaOnlinePacket :=
  ofPointer now (vectorData data beyond)

def payloadData (pkt : FiestaOnlinePacket) : Pointer where
  region := .payload
  bytes := fun i => pkt.payload.toArray.getD i 0
  size := pkt.payloadLen.toNat
  offset := 0

theorem timestamp_of_result {now : Time} {data : List UInt8} {beyond : Nat → UInt8}
    {pkt : FiestaOnlinePacket} (h : (ofVector now data beyond).result = some pkt) : pkt.timestamp = now := by
  rw [ofVector, ofPointer, result_bind, Pointer.result_read, Option.bind_some, result_bind, result_emit,
    Option.bind_some] at h
  split at h
  · simp only [result_bind, result_memcpy, result_pure, Option.bind_some] at h
    rw [← Option.some.inj h]
  · exact absurd h (by simp [stop])

/-- What a frame says: its header and, up to its end, the payload. -/
def ofFrame (now : Time) (f : List UInt8) : FiestaOnlinePacket where
  timestamp := now
  payloadLen := lengthByte f - 2
  header := Vector.ofFn fun i => f.getD (1 + i.val) 0
  payload := Vector.ofFn fun i => if i.val < (lengthByte f).toNat - 2 then f.getD (3 + i.val) 0 else 0

theorem toNat_payloadLen_ofFrame (now : Time) {f : List UInt8} (h : HeaderFrame f) :
    (ofFrame now f).payloadLen.toNat = (lengthByte f).toNat - 2 :=
  UInt8.toNat_sub_of_le _ _ (UInt8.le_iff_toNat_le.mpr h.2)

theorem get_payloadData (now : Time) {f : List UInt8} {i : Nat} (hi : i < (lengthByte f).toNat - 2) :
    (ofFrame now f).payloadData.get i = f.getD (3 + i) 0 := by
  have hb := (lengthByte f).toNat_lt
  have h255 : i < 255 := by omega
  simp [Pointer.get, payloadData, ofFrame, hi, h255]

theorem uint32At_payload (now : Time) {f : List UInt8} {off : Nat} (h : HeaderFrame f)
    (hoff : off + 4 ≤ (lengthByte f).toNat - 2) :
    uint32At ((ofFrame now f).payloadData.advance off) = UInt32.ofNat (valueAt 4 (3 + off) f) := by
  have hlen := h.length_eq
  rw [uint32At, valueAt, Pointer.slice_advance, Nat.add_zero]
  congr 2
  apply List.ext_getElem?
  intro i
  by_cases hi : i < 4
  · rw [Pointer.getElem?_slice _ hi, field, List.getElem?_take_of_lt hi, List.getElem?_drop,
      get_payloadData now (by omega)]
    have hin : 3 + off + i < f.length := by omega
    rw [← Nat.add_assoc, List.getD_eq_getElem?_getD, List.getElem?_eq_getElem hin, Option.getD_some]
  · rw [field, List.getElem?_take_eq_none (by omega), List.getElem?_eq_none]
    rw [Pointer.length_slice]
    omega

theorem readField_safely (now : Time) {f : List UInt8} {off : Nat} {ok : Access → Prop}
    (h : HeaderFrame f)
    (hok : ∀ i < (lengthByte f).toNat - 2, ok (.read .payload i ((lengthByte f).toNat - 2)))
    (hoff : off + 4 ≤ (lengthByte f).toNat - 2) :
    Safely ok (littleEndianByteArrayToUint32 ((ofFrame now f).payloadData.advance off))
      (UInt32.ofNat (valueAt 4 (3 + off) f)) := by
  rw [← uint32At_payload now h hoff]
  apply littleEndian_safely
  intro i hi
  simp only [Pointer.touch, Pointer.advance, payloadData, toNat_payloadLen_ofFrame now h, Nat.zero_add]
  exact hok _ (by omega)

section OfVector

variable {now : Time} {f : List UInt8} {beyond : Nat → UInt8} {pkt : FiestaOnlinePacket}

theorem get_vectorData {i : Nat} (h : i < f.length) : (vectorData f beyond).get i = f.getD i 0 := by
  simp [Pointer.get, vectorData, bytesOf_eq h, h]

theorem ofVector_completes (h : HeaderFrame f) : Completes (ofVector now f beyond) (ofFrame now f) := by
  have hl := h.1.length_pos
  have hlen := h.length_eq
  have hb := (lengthByte f).toNat_lt
  have h2 := h.2
  have hpl : (lengthByte f - 2).toNat = (lengthByte f).toNat - 2 := toNat_payloadLen_ofFrame now h
  refine completes_bind.mpr ⟨lengthByte f, Pointer.completes_read.mpr ⟨?_, ?_⟩, ?_⟩
  · simpa [vectorData] using hl
  · rw [lengthByte_eq_getD, ← get_vectorData hl]
  refine safely_emit_bind.mpr ⟨by simpa [Access.Ok] using h2, ?_⟩
  rw [if_pos h2]
  refine completes_bind.mpr ⟨_, completes_memcpy.mpr ⟨?_, fun i hi => hi, rfl⟩, ?_⟩
  · intro i hi
    simp only [Pointer.advance, vectorData, fopdPacketHeaderOffset, fopdPacketHeaderLen] at hi ⊢
    omega
  refine completes_bind.mpr ⟨_, completes_memcpy.mpr ⟨?_, ?_, rfl⟩, safely_pure.mpr ?_⟩
  · intro i hi
    simp only [Pointer.advance, vectorData, fopdPacketPayloadOffset] at hi ⊢
    omega
  · intro i hi
    simp only [fopdPacketPayloadMaxLen]
    omega
  · simp only [ofFrame, hpl, Pointer.get_advance, FiestaOnlinePacket.mk.injEq, true_and]
    constructor
    · congr 1
      funext i
      have hi := i.isLt
      simp only [fopdPacketHeaderLen, fopdPacketHeaderOffset] at hi ⊢
      rw [if_pos hi, get_vectorData (by omega)]
    · congr 1
      funext i
      by_cases hi : i.val < (lengthByte f).toNat - 2
      · rw [if_pos hi, if_pos hi, get_vectorData (by simp only [fopdPacketPayloadOffset]; omega)]
      · rw [if_neg hi, if_neg hi]
        simp

theorem headerFrame_of_completes (hf : IsFrame f) (h : Completes (ofVector now f beyond) pkt) :
    HeaderFrame f := by
  obtain ⟨len, hr, hc⟩ := completes_bind.mp h
  have hlen := (Pointer.completes_read.mp hr).2
  rw [get_vectorData hf.length_pos, ← lengthByte_eq_getD] at hlen
  have ha := (safely_emit_bind.mp hc).1 _ (List.mem_singleton.mpr rfl)
  simp only [Access.Ok, fopdPacketHeaderLen, decide_eq_true_eq] at ha
  exact ⟨hf, hlen ▸ ha⟩

end OfVector

end FiestaOnlinePacket
end Fopd.Packet
