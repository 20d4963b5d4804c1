import Fopd.Packet

namespace Fopd.Damage

open Consts Memory Utils FrameTypes Packet Lib.Checked Lib.LittleEndian

@[simp] abbrev maxPossibleDamage : UInt64 := 1000000000

@[simp] abbrev fopdSpellDamagePacketPayloadMinLen : Nat := 25 - fopdPacketHeaderLen
@[simp] abbrev spellDamageValueLen : Nat := 4
@[simp] abbrev spellDamageValueOffset : Nat := 15 - fopdPacketHeaderLen
@[simp] abbrev spellTargetRemainingHealthOffset : Nat := spellDamageValueOffset + spellDamageValueLen

@[simp] abbrev fopdAADamagePacketPayloadMinLen : Nat := 20 - fopdPacketHeaderLen
@[simp] abbrev aaDamageValueLen : Nat := 4
@[simp] abbrev aaDamageValueOffset : Nat := 8 - fopdPacketHeaderLen
@[simp] abbrev aaTargetRemainingHealthOffset : Nat := aaDamageValueOffset + aaDamageValueLen

structure FiestaOnlinePacketDamage extends FiestaOnlinePacket where
  damageValue : UInt32 := 0
  targetRemainingHealth : UInt32 := 0
  deriving DecidableEq

namespace FiestaOnlinePacketDamage

def boundDamage (pkt : FiestaOnlinePacketDamage) : FopdStatus × FiestaOnlinePacketDamage :=
  if maxPossibleDamage ≤ pkt.damageValue.toUInt64 then (.error, { pkt with damageValue := 0 })
  else (.ok, pkt)

/-- A case of the switch in `parsePayload`: the minimum length of the layout and where it has its
two fields. -/
def parseFields (pkt : FiestaOnlinePacketDamage) (minLen damageOffset healthOffset : Nat) :
    Run (FopdStatus × FiestaOnlinePacketDamage) :=
  if pkt.payloadLen.toNat < minLen then pure (.error, pkt)
  else do
    let damageValue ← littleEndianByteArrayToUint32 (pkt.payloadData.advance damageOffset)
    let targetRemainingHealth ← littleEndianByteArrayToUint32 (pkt.payloadData.advance healthOffset)
    pure (boundDamage { pkt with damageValue, targetRemainingHealth })

/-- Only the first byte of the header is looked at. -/
def parsePayload (pkt : FiestaOnlinePacketDamage) : Run (FopdStatus × FiestaOnlinePacketDamage) :=
  if pkt.header[0] = fopdAADamagePacketHeaderB0 then
    parseFields pkt fopdAADamagePacketPayloadMinLen aaDamageValueOffset aaTargetRemainingHealthOffset
  else if pkt.header[0] = fopdSpellDamagePacketHeaderB0 then
    parseFields pkt fopdSpellDamagePacketPayloadMinLen spellDamageValueOffset
      spellTargetRemainingHealthOffset
  else pure (.error, pkt)

/-- The constructor drops the status of `parsePayload`. -/
def ofVector (now : Time) (data : List UInt8) (beyond : Nat → UInt8) :
    Run FiestaOnlinePacketDamage := do
  let base ← FiestaOnlinePacket.ofVector now data beyond
  let parsed ← parsePayload { toFiestaOnlinePacket := base }
  pure parsed.2

theorem parseFields_cases {pkt : FiestaOnlinePacketDamage} {minLen off off' : Nat}
    {out : FopdStatus × FiestaOnlinePacketDamage} (h : (parseFields pkt minLen off off').result = some out) :
    out.2 = pkt ∨ ∃ p, p.toFiestaOnlinePacket = pkt.toFiestaOnlinePacket ∧ out = boundDamage p := by
  rw [parseFields] at h
  split at h
  · rw [← Option.some.inj h]
    exact Or.inl rfl
  · simp only [result_bind, result_littleEndian, result_pure, Option.bind_some] at h
    refine Or.inr ⟨_, ?_, (Option.some.inj h).symm⟩
    rfl

theorem parsePayload_cases {pkt : FiestaOnlinePacketDamage} {out : FopdStatus × FiestaOnlinePacketDamage}
    (h : (parsePayload pkt).result = some out) :
    out.2 = pkt ∨ ∃ p, p.toFiestaOnlinePacket = pkt.toFiestaOnlinePacket ∧ out = boundDamage p := by
  rw [parsePayload] at h
  split at h
  · exact parseFields_cases h
  · split at h
    · exact parseFields_cases h
    · rw [← Option.some.inj h]
      exact Or.inl rfl

theorem base_of_parsePayload {pkt : FiestaOnlinePacketDamage} {out : FopdStatus × FiestaOnlinePacketDamage}
    (h : (parsePayload pkt).result = some out) : out.2.toFiestaOnlinePacket = pkt.toFiestaOnlinePacket := by
  rcases parsePayload_cases h with h | ⟨p, hp, rfl⟩
  · rw [h]
  · rw [← hp, boundDamage]
    split <;> rfl

theorem boundDamage_lt (pkt : FiestaOnlinePacketDamage) :
    (boundDamage pkt).2.damageValue.toNat < 1000000000 := by
  rw [boundDamage]
  split
  next => exact (by decide : (0 : UInt32).toNat < 1000000000)
  next h =>
    rw [UInt64.not_le, UInt64.lt_iff_toNat_lt, UInt32.toNat_toUInt64] at h
    exact h

theorem damageValue_lt_of_result {now : Time} {data : List UInt8} {beyond : Nat → UInt8}
    {pkt : FiestaOnlinePacketDamage} (h : (ofVector now data beyond).result = some pkt) :
    pkt.damageValue.toNat < 1000000000 := by
  simp only [ofVector, result_bind, Option.bind_eq_some_iff] at h
  obtain ⟨base, -, parsed, hparsed, hpkt⟩ := h
  obtain rfl := Option.some.inj hpkt
  rcases parsePayload_cases hparsed with h | ⟨p, -, rfl⟩
  · rw [h]
    exact (by decide : (0 : UInt32).toNat < 1000000000)
  · exact boundDamage_lt p

theorem timestamp_of_result {now : Time} {data : List UInt8} {beyond : Nat → UInt8}
    {pkt : FiestaOnlinePacketDamage} (h : (ofVector now data beyond).result = some pkt) :
    pkt.timestamp = now := by
  simp only [ofVector, result_bind, Option.bind_eq_some_iff] at h
  obtain ⟨base, hbase, parsed, hparsed, hpkt⟩ := h
  rw [← Option.some.inj hpkt, base_of_parsePayload hparsed]
  exact FiestaOnlinePacket.timestamp_of_result hbase

end FiestaOnlinePacketDamage

/-- The frame is at least `minLen` long after its length byte and has its damage at `damageOffset`
and the remaining health of the target at `healthOffset`. -/
structure Layout where
  minLen : Nat
  damageOffset : Nat
  healthOffset : Nat
  header_le : 3 ≤ damageOffset ∧ 3 ≤ healthOffset
  fields_le : damageOffset + 4 ≤ minLen + 1 ∧ healthOffset + 4 ≤ minLen + 1

def spellLayout : Layout := ⟨25, 16, 20, by decide, by decide⟩
def autoAttackLayout : Layout := ⟨20, 9, 13, by decide, by decide⟩

namespace Layout

variable (ly : Layout)

def Holds (f : List UInt8) : Prop := ly.minLen ≤ (lengthByte f).toNat

def Accepts (f : List UInt8) : Prop := ly.Holds f ∧ valueAt 4 ly.damageOffset f < 1000000000

instance : DecidablePred ly.Holds := fun _ => inferInstanceAs (Decidable (_ ≤ _))
instance : DecidablePred ly.Accepts := fun _ => inferInstanceAs (Decidable (_ ∧ _))

def damage (f : List UInt8) : Nat := if ly.Accepts f then valueAt 4 ly.damageOffset f else 0

def health (f : List UInt8) : Nat := if ly.Holds f then valueAt 4 ly.healthOffset f else 0

def status (f : List UInt8) : FopdStatus := if ly.Accepts f then .ok else .error

def decoded (now : Time) (f : List UInt8) : FiestaOnlinePacketDamage where
  toFiestaOnlinePacket := .ofFrame now f
  damageValue := UInt32.ofNat (ly.damage f)
  targetRemainingHealth := UInt32.ofNat (ly.health f)

theorem damage_lt (f : List UInt8) : ly.damage f < 1000000000 := by
  rw [damage]
  split
  next h => exact h.2
  next => omega

theorem health_lt (f : List UInt8) : ly.health f < 2 ^ 32 := by
  rw [health]
  split
  next => exact valueAt_lt 4 _ f
  next => omega

end Layout

def layoutOf (f : List UInt8) : Layout := if IsSpell f then spellLayout else autoAttackLayout

open FiestaOnlinePacketDamage

theorem boundDamage_eq {pkt : FiestaOnlinePacketDamage} {n : Nat} (hn : n < 2 ^ 32)
    (hpkt : pkt.damageValue = UInt32.ofNat n) :
    boundDamage pkt = if n < 1000000000 then (.ok, pkt) else (.error, { pkt with damageValue := 0 }) := by
  have h : maxPossibleDamage ≤ pkt.damageValue.toUInt64 ↔ ¬ n < 1000000000 := by
    rw [hpkt, UInt64.le_iff_toNat_le, UInt32.toNat_toUInt64, UInt32.toNat_ofNat', Nat.mod_eq_of_lt hn]
    exact Nat.not_lt.symm
  rw [boundDamage]
  by_cases hlt : n < 1000000000
  · rw [if_neg (by rw [h]; exact not_not.mpr hlt), if_pos hlt]
  · rw [if_pos (h.mpr hlt), if_neg hlt]

section Parsing

variable (now : Time) {f : List UInt8} (h : HeaderFrame f) {ok : Access → Prop}
  (hok : ∀ i < (lengthByte f).toNat - 2, ok (.read .payload i ((lengthByte f).toNat - 2)))

include h hok

/-- A case of the switch on the packet of a frame reads the fields of the layout, with the two header
bytes and the length byte taken off the offsets, and reads nothing else. -/
theorem parseFields_safely (ly : Layout) :
    Safely ok (parseFields { toFiestaOnlinePacket := .ofFrame now f } (ly.minLen - 2)
      (ly.damageOffset - 3) (ly.healthOffset - 3)) (ly.status f, ly.decoded now f) := by
  have hl := h.2
  obtain ⟨hd, hh⟩ := ly.header_le
  obtain ⟨hd', hh'⟩ := ly.fields_le
  have hpl := FiestaOnlinePacket.toNat_payloadLen_ofFrame now h
  have hd3 : 3 + (ly.damageOffset - 3) = ly.damageOffset := by omega
  have hh3 : 3 + (ly.healthOffset - 3) = ly.healthOffset := by omega
  rw [parseFields]
  by_cases hm : ly.Holds f
  · have hmin : ly.minLen ≤ (lengthByte f).toNat := hm
    rw [if_neg (by rw [hpl]; omega)]
    refine (FiestaOnlinePacket.readField_safely now h hok (by omega)).bind
      ((FiestaOnlinePacket.readField_safely now h hok (by omega)).bind (safely_pure.mpr ?_))
    rw [boundDamage_eq (valueAt_lt 4 _ f) rfl, hd3, hh3]
    by_cases hlt : valueAt 4 ly.damageOffset f < 1000000000 <;>
      simp [Layout.status, Layout.decoded, Layout.damage, Layout.health, Layout.Accepts, hm, hlt]
  · have hmin : ¬ ly.minLen ≤ (lengthByte f).toNat := hm
    rw [if_pos (by rw [hpl]; omega)]
    simp [Layout.status, Layout.decoded, Layout.damage, Layout.health, Layout.Accepts, hm]

omit h hok in
theorem header_ofFrame : (FiestaOnlinePacket.ofFrame now f).header[0] = f.getD 1 0 := by
  simp [FiestaOnlinePacket.ofFrame]

/-- On any frame with a header, whatever its type, only payload bytes of the frame are read; on a
damage frame the outcome is that of its layout. -/
theorem parsePayload_safely :
    ∃ out, Safely ok (parsePayload { toFiestaOnlinePacket := .ofFrame now f }) out ∧
      (frameType f = .damagePacket → out = ((layoutOf f).status f, (layoutOf f).decoded now f)) := by
  have hl := h.length_ge
  have h1 : f.getD 1 0 = f[1] := by simp [(by omega : 1 < f.length)]
  have hb := header_bytes hl
  have hs : IsSpell f → f[1] = 0x52 := by
    intro hs
    rw [IsSpell, hb, List.cons.injEq] at hs
    exact hs.1
  have ha : IsAutoAttack f → f[1] = 0x48 := by
    intro ha
    rw [IsAutoAttack, hb, List.cons.injEq] at ha
    exact ha.1
  have hdam : frameType f = .damagePacket → IsSpell f ∨ IsAutoAttack f := by
    intro ht
    by_contra hn
    rw [frameType, if_neg hn] at ht
    split at ht <;> cases ht
  rw [parsePayload, header_ofFrame, h1]
  -- the switch is on one header byte, and a damage frame has no other with that byte
  by_cases h48 : f[1] = 0x48
  · rw [if_pos (by rw [h48]; rfl)]
    refine ⟨_, parseFields_safely now h hok autoAttackLayout, fun _ => ?_⟩
    have hns : ¬ IsSpell f := fun hc => absurd ((hs hc).symm.trans h48) (by decide)
    rw [layoutOf, if_neg hns]
  · rw [if_neg (by simpa [fopdAADamagePacketHeaderB0] using h48)]
    by_cases h52 : f[1] = 0x52
    · rw [if_pos (by rw [h52]; rfl)]
      refine ⟨_, parseFields_safely now h hok spellLayout, fun ht => ?_⟩
      rw [layoutOf, if_pos ((hdam ht).resolve_right fun hc => h48 (ha hc))]
    · rw [if_neg (by simpa [fopdSpellDamagePacketHeaderB0] using h52)]
      exact ⟨_, safely_pure.mpr rfl, fun ht => ((hdam ht).elim (h52 ∘ hs) (h48 ∘ ha)).elim⟩

end Parsing

theorem ofVector_completes {now : Time} {f : List UInt8} {beyond : Nat → UInt8} (h : HeaderFrame f)
    (ht : frameType f = .damagePacket) :
    Completes (FiestaOnlinePacketDamage.ofVector now f beyond) ((layoutOf f).decoded now f) := by
  have hok : ∀ i < (lengthByte f).toNat - 2,
      Access.Ok (.read .payload i ((lengthByte f).toNat - 2)) := fun _ hi => hi
  obtain ⟨out, hout, hd⟩ := parsePayload_safely now h hok
  rw [hd ht] at hout
  exact completes_bind.mpr ⟨_, FiestaOnlinePacket.ofVector_completes h, hout.bind (safely_pure.mpr rfl)⟩

end Fopd.Damage
