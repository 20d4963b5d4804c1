import Fopd.Damage
import Fopd.EntityStats

namespace Fopd.Decoding

open Consts Memory Framing FrameTypes Packet Damage EntityStats Lib.Checked Lib.LittleEndian

theorem isFrame_iff {f : List UInt8} : IsFrame f ↔ f.length = (lengthByte f).toNat + 1 := by
  cases f with
  | nil => simp [IsFrame, Lib.Frames.Complete]
  | cons b t => simp [IsFrame, Lib.Frames.Complete]

section Write

variable {es : List Entry} {f : List UInt8}
  (hin : ∀ e ∈ es, 3 ≤ e.offset ∧ e.offset + e.width ≤ f.length)

include hin

theorem getElem?_written {i : Nat} (hi : i < 3) : (writeAll es f)[i]? = f[i]? := by
  apply getElem?_writeAll fun e he => (hin e he).2
  intro e he
  left
  have h3 := (hin e he).1
  omega

theorem lengthByte_written : lengthByte (writeAll es f) = lengthByte f := by
  rw [lengthByte_eq_getD, lengthByte_eq_getD, List.getD_eq_getElem?_getD, List.getD_eq_getElem?_getD,
    getElem?_written hin (by omega)]

theorem headerFrame_written (h : HeaderFrame f) : HeaderFrame (writeAll es f) := by
  refine ⟨isFrame_iff.mpr ?_, ?_⟩
  · rw [length_writeAll fun e he => (hin e he).2, lengthByte_written hin, h.length_eq]
  · rw [lengthByte_written hin]
    exact h.2

theorem header_written : field 2 1 (writeAll es f) = field 2 1 f :=
  field_eq_of_getElem? fun _ _ _ => getElem?_written hin (by omega)

theorem isSpell_written : IsSpell (writeAll es f) ↔ IsSpell f := Eq.congr_left (header_written hin)

theorem frameType_written : frameType (writeAll es f) = frameType f := by
  have ha : IsAutoAttack (writeAll es f) ↔ IsAutoAttack f := Eq.congr_left (header_written hin)
  have he : IsEntityClick (writeAll es f) ↔ IsEntityClick f := Eq.congr_left (header_written hin)
  simp only [frameType, isSpell_written hin, ha, he]

theorem layoutOf_written : layoutOf (writeAll es f) = layoutOf f := by
  simp only [layoutOf, isSpell_written hin]

end Write

theorem valueAt_uint32 {es : List Entry} {f : List UInt8}
    (hin : ∀ e ∈ es, 3 ≤ e.offset ∧ e.offset + e.width ≤ f.length) (hsep : es.Pairwise Entry.Disjoint)
    (off : Nat) (n : UInt32) (he : ⟨4, off, n.toNat⟩ ∈ es) : valueAt 4 off (writeAll es f) = n.toNat := by
  have h := valueAt_writeAll (fun e he => (hin e he).2) hsep he
  simp only at h
  have hn := n.toNat_lt
  rw [h, Nat.mod_eq_of_lt (by omega)]

theorem damage_of_written (ly : Layout) (hsep : ly.damageOffset + 4 ≤ ly.healthOffset) {f : List UInt8}
    (hf : HeaderFrame f) (ht : frameType f = .damagePacket) (hly : layoutOf f = ly)
    (hmin : ly.minLen ≤ (lengthByte f).toNat) (now : Time) (beyond : Nat → UInt8) (d h : UInt32)
    (hd : d.toNat < 1000000000) :
    ∃ pkt, Completes (FiestaOnlinePacketDamage.ofVector now
      (writeAll [⟨4, ly.damageOffset, d.toNat⟩, ⟨4, ly.healthOffset, h.toNat⟩] f) beyond) pkt ∧
      pkt.damageValue = d ∧ pkt.targetRemainingHealth = h := by
  obtain ⟨h3d, h3h⟩ := ly.header_le
  obtain ⟨hld, hlh⟩ := ly.fields_le
  have hlen := hf.length_eq
  have hin : ∀ e ∈ [(⟨4, ly.damageOffset, d.toNat⟩ : Entry), ⟨4, ly.healthOffset, h.toNat⟩],
      3 ≤ e.offset ∧ e.offset + e.width ≤ f.length := by
    simp only [List.mem_cons, List.not_mem_nil, or_false, forall_eq_or_imp, forall_eq]
    omega
  have hdis : [(⟨4, ly.damageOffset, d.toNat⟩ : Entry), ⟨4, ly.healthOffset, h.toNat⟩].Pairwise
      Entry.Disjoint := by
    simpa [Entry.Disjoint] using Or.inl hsep
  have hvd := valueAt_uint32 hin hdis ly.damageOffset d (by simp)
  have hvh := valueAt_uint32 hin hdis ly.healthOffset h (by simp)
  have hg := headerFrame_written hin hf
  have hgt := frameType_written hin
  have hgl := layoutOf_written hin
  have hgb := lengthByte_written hin
  generalize writeAll _ f = g at *
  have hholds : ly.Holds g := by
    rw [Layout.Holds, hgb]
    exact hmin
  refine ⟨_, Damage.ofVector_completes hg (hgt.trans ht), ?_, ?_⟩
  · simp only [hgl, hly, Layout.decoded, Layout.damage]
    rw [if_pos ⟨hholds, by rw [hvd]; exact hd⟩, hvd, UInt32.ofNat_toNat]
  · simp only [hgl, hly, Layout.decoded, Layout.health]
    rw [if_pos hholds, hvh, UInt32.ofNat_toNat]

theorem entity_of_written {f : List UInt8} (hf : HeaderFrame f) (hmin : 32 ≤ (lengthByte f).toNat)
    (now : Time) (beyond : Nat → UInt8) (currentHealth maxHealth currentMana maxMana : UInt32)
    (level : UInt8) :
    ∃ pkt, Completes (FiestaOnlinePacketEntityStats.ofVector now (writeAll
      [⟨4, 6, currentHealth.toNat⟩, ⟨4, 10, maxHealth.toNat⟩, ⟨4, 14, currentMana.toNat⟩,
        ⟨4, 18, maxMana.toNat⟩, ⟨1, 30, level.toNat⟩] f) beyond) pkt ∧
      pkt.currentHealth = currentHealth ∧ pkt.maxHealth = maxHealth ∧ pkt.currentMana = currentMana ∧
      pkt.maxMana = maxMana ∧ pkt.level = level := by
  have hlen := hf.length_eq
  have hin : ∀ e ∈ [(⟨4, 6, currentHealth.toNat⟩ : Entry), ⟨4, 10, maxHealth.toNat⟩,
      ⟨4, 14, currentMana.toNat⟩, ⟨4, 18, maxMana.toNat⟩, ⟨1, 30, level.toNat⟩],
      3 ≤ e.offset ∧ e.offset + e.width ≤ f.length := by
    simp only [List.mem_cons, List.not_mem_nil, or_false, forall_eq_or_imp, forall_eq]
    omega
  have hdis : [(⟨4, 6, currentHealth.toNat⟩ : Entry), ⟨4, 10, maxHealth.toNat⟩,
      ⟨4, 14, currentMana.toNat⟩, ⟨4, 18, maxMana.toNat⟩, ⟨1, 30, level.toNat⟩].Pairwise
      Entry.Disjoint := by
    simp [Entry.Disjoint]
  have hch := valueAt_uint32 hin hdis 6 currentHealth (by simp)
  have hmh := valueAt_uint32 hin hdis 10 maxHealth (by simp)
  have hcm := valueAt_uint32 hin hdis 14 currentMana (by simp)
  have hmm := valueAt_uint32 hin hdis 18 maxMana (by simp)
  have hlv := valueAt_writeAll (fun e he => (hin e he).2) hdis
    (by simp : (⟨1, 30, level.toNat⟩ : Entry) ∈ _)
  have hg := headerFrame_written hin hf
  have hgb := lengthByte_written hin
  have hgl := hg.length_eq
  rw [hgb] at hgl
  generalize writeAll _ f = g at *
  have hlevel := level.toNat_lt
  simp only at hlv
  rw [valueAt_one (by omega), pow_one, Nat.mod_eq_of_lt hlevel, UInt8.toNat_inj] at hlv
  refine ⟨_, FiestaOnlinePacketEntityStats.ofVector_completes hg, ?_⟩
  rw [FiestaOnlinePacketEntityStats.decoded, if_pos (by rw [hgb]; exact hmin), hch, hmh, hcm, hmm, hlv]
  simp

theorem frameType_spell {f : List UInt8} (h : IsSpell f) : frameType f = .damagePacket := if_pos (Or.inl h)

theorem frameType_autoAttack {f : List UInt8} (h : IsAutoAttack f) : frameType f = .damagePacket :=
  if_pos (Or.inr h)

theorem layoutOf_autoAttack {f : List UInt8} (h : IsAutoAttack f) : layoutOf f = autoAttackLayout := by
  apply if_neg
  intro hs
  rw [IsSpell, h] at hs
  exact absurd hs (by decide)

def IsPayloadRead (payloadLen : Nat) (e : Access) : Prop :=
  ∃ i < payloadLen, e = .read .payload i payloadLen

theorem decoded_zero (ly : Layout) {f : List UInt8} (hf : HeaderFrame f)
    (ht : frameType f = .damagePacket) (hly : layoutOf f = ly) (hmin : (lengthByte f).toNat < ly.minLen)
    (now : Time) (beyond : Nat → UInt8) :
    ∃ pkt, Completes (FiestaOnlinePacketDamage.ofVector now f beyond) pkt ∧
      pkt.damageValue = 0 ∧ pkt.targetRemainingHealth = 0 := by
  have hholds : ¬ ly.Holds f := Nat.not_le.mpr hmin
  refine ⟨_, Damage.ofVector_completes hf ht, ?_, ?_⟩
  · rw [hly, Layout.decoded, Layout.damage, if_neg fun ha => hholds ha.1]
    rfl
  · rw [hly, Layout.decoded, Layout.health, if_neg hholds]
    rfl

/-- Decoding round trip for the three layouts. A frame with a header is taken apart into its length,
header and payload; parsing reads inside the payload only; values written at a layout's offsets into
any long enough frame with its header come back; a shorter one gives zeros. -/
theorem decoding_round_trip (now : Time) (f : List UInt8) (beyond : Nat → UInt8) (hf : HeaderFrame f) :
    (∃ pkt, Completes (FiestaOnlinePacket.ofVector now f beyond) pkt ∧
      pkt.payloadLen.toNat = (lengthByte f).toNat - 2 ∧
      (∀ i : Fin 2, pkt.header[i] = f.getD (1 + i) 0) ∧
      (∀ i : Fin 255, pkt.payload[i] = if i < pkt.payloadLen.toNat then f.getD (3 + i) 0 else 0) ∧
      (∀ e ∈ (FiestaOnlinePacketDamage.parsePayload { toFiestaOnlinePacket := pkt }).trace,
        IsPayloadRead pkt.payloadLen.toNat e) ∧
      ∀ e ∈ (FiestaOnlinePacketEntityStats.parsePayload { toFiestaOnlinePacket := pkt }).trace,
        IsPayloadRead pkt.payloadLen.toNat e) ∧
    (IsSpell f → 25 ≤ (lengthByte f).toNat → ∀ d h : UInt32, d.toNat < 1000000000 →
      ∃ pkt, Completes (FiestaOnlinePacketDamage.ofVector now
        (writeAll [⟨4, 16, d.toNat⟩, ⟨4, 20, h.toNat⟩] f) beyond) pkt ∧
        pkt.damageValue = d ∧ pkt.targetRemainingHealth = h) ∧
    (IsAutoAttack f → 20 ≤ (lengthByte f).toNat → ∀ d h : UInt32, d.toNat < 1000000000 →
      ∃ pkt, Completes (FiestaOnlinePacketDamage.ofVector now
        (writeAll [⟨4, 9, d.toNat⟩, ⟨4, 13, h.toNat⟩] f) beyond) pkt ∧
        pkt.damageValue = d ∧ pkt.targetRemainingHealth = h) ∧
    (IsEntityClick f → 32 ≤ (lengthByte f).toNat →
      ∀ (currentHealth maxHealth currentMana maxMana : UInt32) (level : UInt8),
      ∃ pkt, Completes (FiestaOnlinePacketEntityStats.ofVector now (writeAll
        [⟨4, 6, currentHealth.toNat⟩, ⟨4, 10, maxHealth.toNat⟩, ⟨4, 14, currentMana.toNat⟩,
          ⟨4, 18, maxMana.toNat⟩, ⟨1, 30, level.toNat⟩] f) beyond) pkt ∧
        pkt.currentHealth = currentHealth ∧ pkt.maxHealth = maxHealth ∧ pkt.currentMana = currentMana ∧
        pkt.maxMana = maxMana ∧ pkt.level = level) ∧
    (IsSpell f ∧ (lengthByte f).toNat < 25 ∨ IsAutoAttack f ∧ (lengthByte f).toNat < 20 →
      ∃ pkt, Completes (FiestaOnlinePacketDamage.ofVector now f beyond) pkt ∧
        pkt.damageValue = 0 ∧ pkt.targetRemainingHealth = 0) ∧
    (IsEntityClick f ∧ (lengthByte f).toNat < 32 →
      ∃ pkt, Completes (FiestaOnlinePacketEntityStats.ofVector now f beyond) pkt ∧
        pkt.currentHealth = 0 ∧ pkt.maxHealth = 0 ∧ pkt.currentMana = 0 ∧ pkt.maxMana = 0 ∧
        pkt.level = 0) := by
  have hpl := FiestaOnlinePacket.toNat_payloadLen_ofFrame now hf
  have hreads : ∀ i < (lengthByte f).toNat - 2,
      IsPayloadRead ((lengthByte f).toNat - 2) (.read .payload i ((lengthByte f).toNat - 2)) :=
    fun i hi => ⟨i, hi, rfl⟩
  refine ⟨⟨_, FiestaOnlinePacket.ofVector_completes hf, hpl, ?_, ?_, ?_, ?_⟩, ?_, ?_, ?_, ?_, ?_⟩
  · intro i
    simp [FiestaOnlinePacket.ofFrame]
  · intro i
    rw [hpl]
    simp [FiestaOnlinePacket.ofFrame]
  · obtain ⟨out, hout, -⟩ := parsePayload_safely now hf hreads
    rw [hpl]
    exact hout.2
  · rw [hpl]
    exact (FiestaOnlinePacketEntityStats.parsePayload_safely hf hreads).2
  · intro hs hmin d h hd
    exact damage_of_written spellLayout (by decide) hf (frameType_spell hs) (if_pos hs) hmin
      now beyond d h hd
  · intro ha hmin d h hd
    exact damage_of_written autoAttackLayout (by decide) hf (frameType_autoAttack ha)
      (layoutOf_autoAttack ha) hmin now beyond d h hd
  · intro _ hmin
    exact entity_of_written hf hmin now beyond
  · rintro (⟨hs, hmin⟩ | ⟨ha, hmin⟩)
    · exact decoded_zero spellLayout hf (frameType_spell hs) (if_pos hs) hmin now beyond
    · exact decoded_zero autoAttackLayout hf (frameType_autoAttack ha) (layoutOf_autoAttack ha)
        hmin now beyond
  · rintro ⟨-, hmin⟩
    refine ⟨_, FiestaOnlinePacketEntityStats.ofVector_completes hf, ?_⟩
    rw [FiestaOnlinePacketEntityStats.decoded, if_neg (by omega)]
    exact ⟨rfl, rfl, rfl, rfl, rfl⟩

theorem decoding_round_trip_spell :
    ∃ pkt, Completes (FiestaOnlinePacketDamage.ofVector 0 (writeAll
        [⟨4, 16, (1234 : UInt32).toNat⟩, ⟨4, 20, (98765 : UInt32).toNat⟩]
        (25 :: 0x52 :: 0x24 :: List.replicate 23 7)) (fun _ => 0)) pkt ∧
      pkt.damageValue = 1234 ∧ pkt.targetRemainingHealth = 98765 :=
  (decoding_round_trip 0 (25 :: 0x52 :: 0x24 :: List.replicate 23 7) (fun _ => 0) (by decide)).2.1
    (by decide) (by decide) 1234 98765 (by decide)

end Fopd.Decoding
