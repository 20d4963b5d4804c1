import Fopd.Lib.LittleEndian
import Fopd.Consts
import Fopd.Memory

namespace Fopd.Utils

open Consts Memory Lib Lib.Checked

def littleEndianByteArrayToUint32 (byteArray : Pointer) : Run UInt32 :=
  (List.range 4).foldlM (fun ret i => do
    let b ← byteArray.read (3 - i)
    pure ((ret <<< 8) + b.toUInt32)) 0

theorem toNat_shift_in (ret : UInt32) (b : UInt8) :
    ((ret <<< 8) + b.toUInt32).toNat = (256 * ret.toNat + b.toNat) % 2 ^ 32 := by
  rw [UInt32.toNat_add, UInt32.toNat_shiftLeft, UInt8.toNat_toUInt32, Nat.shiftLeft_eq]
  change (ret.toNat * 256 % 2 ^ 32 + b.toNat) % 2 ^ 32 = _
  omega

def uint32At (p : Pointer) : UInt32 := UInt32.ofNat (LittleEndian.value (p.slice 0 4))

theorem shift_in_four (b₀ b₁ b₂ b₃ : UInt8) :
    ((((b₃.toUInt32 <<< 8) + b₂.toUInt32) <<< 8) + b₁.toUInt32) <<< 8 + b₀.toUInt32 =
      UInt32.ofNat (LittleEndian.value [b₀, b₁, b₂, b₃]) := by
  have h₀ := b₀.toNat_lt
  have h₁ := b₁.toNat_lt
  have h₂ := b₂.toNat_lt
  have h₃ := b₃.toNat_lt
  apply UInt32.toNat_inj.mp
  simp only [toNat_shift_in, UInt32.toNat_ofNat', LittleEndian.value, UInt8.toNat_toUInt32]
  omega

@[simp] theorem result_littleEndian (p : Pointer) :
    (littleEndianByteArrayToUint32 p).result = some (uint32At p) := by
  have hr : List.range 4 = [0, 1, 2, 3] := rfl
  simp [littleEndianByteArrayToUint32, hr, shift_in_four, uint32At, Pointer.slice]

theorem littleEndian_safely {ok : Access → Prop} {p : Pointer} (h : ∀ i < 4, ok (p.touch i)) :
    Safely ok (littleEndianByteArrayToUint32 p) (uint32At p) := by
  have hr : List.range 4 = [0, 1, 2, 3] := rfl
  refine ⟨result_littleEndian p, ?_⟩
  intro e he
  have he' : e = p.touch 3 ∨ e = p.touch 2 ∨ e = p.touch 1 ∨ e = p.touch 0 := by
    simpa [littleEndianByteArrayToUint32, hr, Pointer.read, emit, bind_of_result] using he
  rcases he' with rfl | rfl | rfl | rfl <;> exact h _ (by omega)

def packetTypeFromHeader (header : Vector UInt8 fopdPacketHeaderLen) : FopdPacketType :=
  if header = fopdSpellDamagePacketHeader ∨ header = fopdAADamagePacketHeader then .damagePacket
  else if header = fopdEntityClickPacketHeader then .entityClickPacket
  else .unknownPacket

def packetTypeFromData (data : Pointer) : Run FopdPacketType := do
  let header ← memcpy (Vector.replicate fopdPacketHeaderLen 0)
    (data.advance fopdPacketHeaderOffset) fopdPacketHeaderLen
  pure (packetTypeFromHeader header)

def headerType (b₀ b₁ : UInt8) : FopdPacketType := packetTypeFromHeader ⟨#[b₀, b₁], rfl⟩

theorem header_eq_iff (a₀ a₁ b₀ b₁ : UInt8) :
    ((⟨#[a₀, a₁], rfl⟩ : Vector UInt8 fopdPacketHeaderLen) = ⟨#[b₀, b₁], rfl⟩) ↔ a₀ = b₀ ∧ a₁ = b₁ := by
  simp

theorem headerType_eq_damage {b₀ b₁ : UInt8} :
    headerType b₀ b₁ = .damagePacket ↔ (b₀ = 0x52 ∨ b₀ = 0x48) ∧ b₁ = 0x24 := by
  simp only [headerType, packetTypeFromHeader, fopdSpellDamagePacketHeader, fopdAADamagePacketHeader,
    fopdEntityClickPacketHeader, header_eq_iff, fopdSpellDamagePacketHeaderB0,
    fopdSpellDamagePacketHeaderB1, fopdAADamagePacketHeaderB0, fopdAADamagePacketHeaderB1]
  split
  next h => simp only [true_iff]; tauto
  next h => split <;> simp only [reduceCtorEq, false_iff] <;> tauto

theorem headerType_eq_entityClick {b₀ b₁ : UInt8} :
    headerType b₀ b₁ = .entityClickPacket ↔ b₀ = 0x02 ∧ b₁ = 0x24 := by
  simp only [headerType, packetTypeFromHeader, fopdSpellDamagePacketHeader, fopdAADamagePacketHeader,
    fopdEntityClickPacketHeader, header_eq_iff, fopdSpellDamagePacketHeaderB0,
    fopdSpellDamagePacketHeaderB1, fopdAADamagePacketHeaderB0, fopdAADamagePacketHeaderB1,
    fopdEntityClickPacketHeaderB0, fopdEntityClickPacketHeaderB1]
  split
  next h =>
    simp only [reduceCtorEq, false_iff]
    rintro ⟨rfl, -⟩
    exact absurd h (by simp)
  next h => split <;> simp_all

theorem header_copied (p : Pointer) :
    packetTypeFromHeader (Vector.ofFn fun i : Fin fopdPacketHeaderLen =>
      if i.val < fopdPacketHeaderLen then p.get i else (Vector.replicate fopdPacketHeaderLen 0)[i]) =
      headerType (p.get 0) (p.get 1) := by
  rw [headerType]
  congr 1

@[simp] theorem result_packetTypeFromData (p : Pointer) :
    (packetTypeFromData p).result = some (headerType (p.get 1) (p.get 2)) := by
  rw [packetTypeFromData, result_bind, result_memcpy, Option.bind_some, result_pure, header_copied,
    Pointer.get_advance, Pointer.get_advance]

theorem completes_packetTypeFromData {p : Pointer} {type : FopdPacketType} :
    Completes (packetTypeFromData p) type ↔
      p.offset + 2 < p.size ∧ headerType (p.get 1) (p.get 2) = type := by
  rw [packetTypeFromData, completes_bind]
  simp only [completes_memcpy, safely_pure]
  constructor
  · rintro ⟨header, ⟨hr, -, rfl⟩, ht⟩
    rw [header_copied, Pointer.get_advance, Pointer.get_advance] at ht
    exact ⟨hr 1 (by decide), ht⟩
  · rintro ⟨hr, ht⟩
    refine ⟨_, ⟨?_, fun i hi => hi, rfl⟩, ?_⟩
    · intro i hi
      simp only [Pointer.advance, fopdPacketHeaderOffset, fopdPacketHeaderLen] at hi ⊢
      omega
    · rw [header_copied, Pointer.get_advance, Pointer.get_advance]
      exact ht

abbrev Packets := List (FopdPacketType × List UInt8)

/-- The length of a frame fits its 16 bits, so it is never zero. -/
theorem toNat_payloadLen (first : UInt8) : (first.toUInt16 + 1).toNat = first.toNat + 1 := by
  have h := first.toNat_lt
  rw [UInt16.toNat_add, UInt8.toNat_toUInt16]
  exact Nat.mod_eq_of_lt (by simp only [UInt16.toNat_one]; omega)

theorem toNat_pos_add {pos : UInt32} {first : UInt8} (h : pos.toNat + (first.toNat + 1) < 2 ^ 32) :
    (pos + (first.toUInt16 + 1).toUInt32).toNat = pos.toNat + (first.toNat + 1) := by
  rw [UInt32.toNat_add, UInt16.toNat_toUInt32, toNat_payloadLen, Nat.mod_eq_of_lt h]

/-- One iteration of the framing loop from `pos` with the packets found so far. The length of a
frame includes its length byte; `pos + payload_len` is computed in 32 bits. -/
def nextPacket (tcpData : Pointer) (tcpDataLen : UInt32) :
    UInt32 × Packets → Run ((UInt32 × Packets) ⊕ Packets)
  | (pos, ret) =>
      if pos < tcpDataLen then do
        let first ← tcpData.read (pos.toNat + fopdPacketPayloadLenOffset)
        let payloadLen : UInt16 := first.toUInt16 + 1
        if payloadLen = 0 ∨ pos + payloadLen.toUInt32 > tcpDataLen then
          pure (.inr ret)
        else do
          let payload ← tcpData.toVector pos.toNat (pos + payloadLen.toUInt32).toNat
          let type ← packetTypeFromData (tcpData.advance pos.toNat)
          pure (.inl (pos + payloadLen.toUInt32, ret ++ [(type, payload)]))
      else pure (.inr ret)

def extractPackets (tcpData : Pointer) (tcpDataLen : UInt32) (fuel : Nat) : Run Packets :=
  loop (nextPacket tcpData tcpDataLen) fuel (0, [])

/-- `tcp_data`, with `tcp_data_len` for the number of bytes it may be read up to. -/
def tcpPointer (bytes : Nat → UInt8) (tcpDataLen : UInt32) : Pointer where
  region := .tcpData
  bytes
  size := tcpDataLen.toNat
  offset := 0

/-- Every iteration consumes at least one byte, so that `tcp_data_len + 1` of them are enough as
long as `pos + payload_len` cannot wrap. -/
def getPacketsFromRawTCP (tcpData : Option (Nat → UInt8)) (tcpDataLen : UInt32) : Run Packets :=
  match tcpData with
  | none => pure []
  | some bytes => extractPackets (tcpPointer bytes tcpDataLen) tcpDataLen (tcpDataLen.toNat + 1)

section NextPacket

variable (p : Pointer) {tcpDataLen pos : UInt32} (ret : Packets)

theorem nextPacket_end (h : tcpDataLen.toNat ≤ pos.toNat) :
    nextPacket p tcpDataLen (pos, ret) = pure (.inr ret) := by
  rw [nextPacket, if_neg]
  rw [UInt32.lt_iff_toNat_lt]
  omega

theorem length_check {first : UInt8} (hw : pos.toNat + (first.toNat + 1) < 2 ^ 32) :
    (first.toUInt16 + 1 = 0 ∨ pos + (first.toUInt16 + 1).toUInt32 > tcpDataLen) ↔
      tcpDataLen.toNat < pos.toNat + (first.toNat + 1) := by
  have hb := first.toNat_lt
  have hz : first.toUInt16 + 1 ≠ 0 := by
    intro h
    have := congrArg UInt16.toNat h
    rw [toNat_payloadLen, UInt16.toNat_zero] at this
    omega
  rw [or_iff_right hz, gt_iff_lt, UInt32.lt_iff_toNat_lt, toNat_pos_add hw]

variable (hpos : pos.toNat < tcpDataLen.toNat)

section Incomplete

include hpos

theorem completes_nextPacket_incomplete (hw : pos.toNat + ((p.get pos.toNat).toNat + 1) < 2 ^ 32)
    (h : tcpDataLen.toNat < pos.toNat + ((p.get pos.toNat).toNat + 1)) :
    Completes (nextPacket p tcpDataLen (pos, ret)) (.inr ret) ↔ p.offset + pos.toNat < p.size := by
  rw [nextPacket, if_pos (UInt32.lt_iff_toNat_lt.mpr hpos), completes_bind]
  simp only [Pointer.completes_read, fopdPacketPayloadLenOffset, Nat.add_zero]
  constructor
  · exact fun ⟨_, ⟨hr, _⟩, _⟩ => hr
  · intro hr
    refine ⟨_, ⟨hr, rfl⟩, ?_⟩
    rw [if_pos ((length_check hw).mpr h)]
    exact safely_pure.mpr rfl

/-- An end beyond 2^32 wraps around and passes the length check, but as an iterator it lies before
the start of the frame. -/
theorem not_completes_nextPacket_wrapped (hw : 2 ^ 32 ≤ pos.toNat + ((p.get pos.toNat).toNat + 1))
    (out : (UInt32 × Packets) ⊕ Packets) : ¬ Completes (nextPacket p tcpDataLen (pos, ret)) out := by
  intro h
  have hb := (p.get pos.toNat).toNat_lt
  have hn := tcpDataLen.toNat_lt
  have hend : (pos + ((p.get pos.toNat).toUInt16 + 1).toUInt32).toNat =
      pos.toNat + ((p.get pos.toNat).toNat + 1) - 2 ^ 32 := by
    rw [UInt32.toNat_add, UInt16.toNat_toUInt32, toNat_payloadLen]
    omega
  have hcheck : ¬ ((p.get pos.toNat).toUInt16 + 1 = 0 ∨
      pos + ((p.get pos.toNat).toUInt16 + 1).toUInt32 > tcpDataLen) := by
    rintro (hz | hgt)
    · have := congrArg UInt16.toNat hz
      rw [toNat_payloadLen, UInt16.toNat_zero] at this
      omega
    · rw [gt_iff_lt, UInt32.lt_iff_toNat_lt, hend] at hgt
      omega
  rw [nextPacket, if_pos (UInt32.lt_iff_toNat_lt.mpr hpos), completes_bind] at h
  obtain ⟨first, hread, h⟩ := h
  obtain rfl := (Pointer.completes_read.mp hread).2
  rw [Nat.add_zero, if_neg hcheck] at h
  obtain ⟨payload, hv, -⟩ := completes_bind.mp h
  have hle := (Pointer.completes_toVector.mp hv).1
  rw [hend] at hle
  omega

end Incomplete

variable (h : pos.toNat + ((p.get pos.toNat).toNat + 1) ≤ tcpDataLen.toNat)

section Frame

include h

theorem no_wrap : pos.toNat + ((p.get pos.toNat).toNat + 1) < 2 ^ 32 := h.trans_lt tcpDataLen.toNat_lt

theorem toNat_next :
    (pos + ((p.get pos.toNat).toUInt16 + 1).toUInt32).toNat = pos.toNat + ((p.get pos.toNat).toNat + 1) :=
  toNat_pos_add (no_wrap p h)

theorem not_length_check : ¬ ((p.get pos.toNat).toUInt16 + 1 = 0 ∨
    pos + ((p.get pos.toNat).toUInt16 + 1).toUInt32 > tcpDataLen) := by
  rw [length_check (no_wrap p h)]
  omega

include hpos

theorem result_nextPacket_frame :
    (nextPacket p tcpDataLen (pos, ret)).result =
      some (.inl (pos + ((p.get pos.toNat).toUInt16 + 1).toUInt32,
        ret ++ [(headerType (p.get (pos.toNat + 1)) (p.get (pos.toNat + 2)),
          p.slice pos.toNat ((p.get pos.toNat).toNat + 1))])) := by
  rw [nextPacket, if_pos (UInt32.lt_iff_toNat_lt.mpr hpos), result_bind, Pointer.result_read,
    Option.bind_some, Nat.add_zero, if_neg (not_length_check p h)]
  simp only [result_bind, Pointer.result_toVector, result_packetTypeFromData, Option.bind_some,
    result_pure, toNat_next p h, Pointer.get_advance, Nat.add_sub_cancel_left]

/-- A complete frame is read without fault if its two header bytes are inside the buffer, whether or
not they are inside the frame. -/
theorem completes_nextPacket_frame (hp : p.offset = 0) (hs : p.size = tcpDataLen.toNat)
    {out : (UInt32 × Packets) ⊕ Packets} (hout : (nextPacket p tcpDataLen (pos, ret)).result = some out) :
    Completes (nextPacket p tcpDataLen (pos, ret)) out ↔ pos.toNat + 2 < tcpDataLen.toNat := by
  have hin := hout
  rw [result_nextPacket_frame p ret hpos h, Option.some.injEq] at hin
  subst hin
  rw [nextPacket, if_pos (UInt32.lt_iff_toNat_lt.mpr hpos), completes_bind]
  simp only [Pointer.completes_read, fopdPacketPayloadLenOffset, Nat.add_zero, hp, hs, Nat.zero_add]
  constructor
  · rintro ⟨first, ⟨-, rfl⟩, hc⟩
    rw [if_neg (not_length_check p h), completes_bind] at hc
    obtain ⟨payload, -, hc⟩ := hc
    obtain ⟨type, ht, -⟩ := completes_bind.mp hc
    simpa [Pointer.advance, hp, hs] using (completes_packetTypeFromData.mp ht).1
  · intro hr
    refine ⟨_, ⟨hpos, rfl⟩, ?_⟩
    rw [if_neg (not_length_check p h)]
    refine completes_bind.mpr ⟨_, Pointer.completes_toVector.mpr ⟨?_, ?_, rfl⟩, ?_⟩
    · rw [toNat_next p h]
      omega
    · intro i hi
      rw [toNat_next p h] at hi
      omega
    · refine completes_bind.mpr ⟨_, completes_packetTypeFromData.mpr ⟨?_, rfl⟩, ?_⟩
      · simpa [Pointer.advance, hp, hs] using hr
      · rw [toNat_next p h, Nat.add_sub_cancel_left, Pointer.get_advance, Pointer.get_advance]
        exact safely_pure.mpr rfl

end Frame

end NextPacket

end Fopd.Utils
