import Fopd.Framing

namespace Fopd.FrameTypes

open Consts Memory Utils Framing Lib.Checked Lib.Frames

def IsSpell (f : List UInt8) : Prop := (f.drop 1).take 2 = [0x52, 0x24]
def IsAutoAttack (f : List UInt8) : Prop := (f.drop 1).take 2 = [0x48, 0x24]
def IsEntityClick (f : List UInt8) : Prop := (f.drop 1).take 2 = [0x02, 0x24]

instance : DecidablePred IsSpell := fun _ => inferInstanceAs (Decidable (_ = _))
instance : DecidablePred IsAutoAttack := fun _ => inferInstanceAs (Decidable (_ = _))
instance : DecidablePred IsEntityClick := fun _ => inferInstanceAs (Decidable (_ = _))

def frameType (f : List UInt8) : FopdPacketType :=
  if IsSpell f ∨ IsAutoAttack f then .damagePacket
  else if IsEntityClick f then .entityClickPacket
  else .unknownPacket

def lengthByte (f : List UInt8) : UInt8 := f.headD 0

@[simp] theorem lengthByte_cons (b : UInt8) (t : List UInt8) : lengthByte (b :: t) = b := rfl

theorem lengthByte_eq_getD (f : List UInt8) : lengthByte f = f.getD 0 0 := by
  cases f <;> rfl

/-- A complete frame that holds its two header bytes. -/
def HeaderFrame (f : List UInt8) : Prop := IsFrame f ∧ 2 ≤ (lengthByte f).toNat

instance : DecidablePred HeaderFrame := fun f => inferInstanceAs (Decidable (IsFrame f ∧ _))

theorem HeaderFrame.length_eq {f : List UInt8} (h : HeaderFrame f) :
    f.length = (lengthByte f).toNat + 1 := by
  obtain ⟨hf, -⟩ := h
  cases f with
  | nil => exact hf.elim
  | cons b t => exact congrArg (· + 1) hf

theorem HeaderFrame.length_ge {f : List UInt8} (h : HeaderFrame f) : 3 ≤ f.length := by
  have h2 := h.2
  rw [h.length_eq]
  omega

theorem headerFrame_iff {f : List UInt8} (hf : IsFrame f) : HeaderFrame f ↔ 3 ≤ f.length := by
  refine ⟨HeaderFrame.length_ge, fun h => ⟨hf, ?_⟩⟩
  cases f with
  | nil => exact hf.elim
  | cons b t =>
      simp only [IsFrame, Complete] at hf
      simp only [List.length_cons] at h
      simp only [lengthByte_cons]
      omega

theorem header_bytes {f : List UInt8} (h : 3 ≤ f.length) : (f.drop 1).take 2 = [f[1], f[2]] := by
  match f, h with
  | _ :: _ :: _ :: _, _ => rfl

theorem headerType_eq_frameType {f : List UInt8} (h : 3 ≤ f.length) :
    headerType f[1] f[2] = frameType f := by
  simp only [frameType, IsSpell, IsAutoAttack, IsEntityClick, header_bytes h]
  cases ht : headerType f[1] f[2] with
  | damagePacket =>
      rw [headerType_eq_damage] at ht
      rw [if_pos]
      rcases ht with ⟨h1 | h1, h2⟩ <;> simp [h1, h2]
  | entityClickPacket =>
      rw [headerType_eq_entityClick] at ht
      simp [ht.1, ht.2]
  | unknownPacket =>
      have hd : headerType f[1] f[2] ≠ .damagePacket := by simp [ht]
      have he : headerType f[1] f[2] ≠ .entityClickPacket := by simp [ht]
      rw [Ne, headerType_eq_damage] at hd
      rw [Ne, headerType_eq_entityClick] at he
      rw [if_neg, if_neg]
      · simpa using he
      · simp only [List.cons.injEq, and_true]
        tauto

theorem frameType_of_short {f : List UInt8} (h : f.length < 3) : frameType f = .unknownPacket := by
  have hl : ((f.drop 1).take 2).length < 2 := by
    rw [List.length_take, List.length_drop]
    omega
  have hne (a b : UInt8) : (f.drop 1).take 2 ≠ [a, b] := by
    intro he
    rw [he] at hl
    exact absurd hl (by simp)
  simp only [frameType, IsSpell, IsAutoAttack, IsEntityClick, hne, or_self, if_false]

theorem frameType_append {f : List UInt8} (h : 3 ≤ f.length) (l : List UInt8) :
    frameType (f ++ l) = frameType f := by
  match f, h with
  | _ :: _ :: _ :: _, _ => rfl

def typedFrames (l : List UInt8) (fs : List (List UInt8)) : Packets :=
  (views l fs).map fun q => (frameType q.1, q.2)

theorem typedFrames_cons (l f : List UInt8) (fs : List (List UInt8)) :
    typedFrames l (f :: fs) = (frameType l, f) :: typedFrames (l.drop f.length) fs := rfl

def HeadersIn (l : List UInt8) (fs : List (List UInt8)) : Prop :=
  ∀ v f, (v, f) ∈ views l fs → 3 ≤ v.length

theorem headersIn_cons {l f : List UInt8} {fs : List (List UInt8)} :
    HeadersIn l (f :: fs) ↔ 3 ≤ l.length ∧ HeadersIn (l.drop f.length) fs := by
  simp [HeadersIn, views, or_imp, forall_and]

theorem headersInside_iff (data : List UInt8) (pos : Nat) (fs : List (List UInt8)) :
    HeadersInside data.length pos fs ↔ HeadersIn (data.drop pos) fs := by
  induction fs generalizing pos with
  | nil => simp [HeadersInside, HeadersIn, views]
  | cons f fs ih =>
      rw [HeadersInside, headersIn_cons, ih, List.drop_drop, List.length_drop]
      exact and_congr_left fun _ => by omega

theorem typedFrom_eq {p : Pointer} (data : List UInt8) (beyond : Nat → UInt8)
    (hp : p.bytes = bytesOf data beyond) (ho : p.offset = 0) {pos : Nat} {fs : List (List UInt8)}
    (h : HeadersIn (data.drop pos) fs) : typedFrom p pos fs = typedFrames (data.drop pos) fs := by
  induction fs generalizing pos with
  | nil => rfl
  | cons f fs ih =>
      obtain ⟨hl, hfs⟩ := headersIn_cons.mp h
      rw [List.drop_drop] at hfs
      have hn : pos + 2 < data.length := by
        rw [List.length_drop] at hl
        omega
      have hget (i : Nat) (hi : i < data.length) : p.get i = data[i] := by
        rw [Pointer.get, hp, ho, Nat.zero_add, bytesOf_eq hi]
      rw [typedFrom, ih hfs, hget _ (by omega), hget _ hn, typedFrames_cons, List.drop_drop,
        ← headerType_eq_frameType hl]
      simp only [List.getElem_drop]

/-- The extraction as it is called: on the data of a vector and the number of its bytes. -/
def getPackets (data : List UInt8) (beyond : Nat → UInt8) : Run Packets :=
  getPacketsFromRawTCP (some (bytesOf data beyond)) (UInt32.ofNat data.length)

theorem captured_bytesOf {data : List UInt8} (beyond : Nat → UInt8) (h : data.length < 2 ^ 32) :
    captured (bytesOf data beyond) (UInt32.ofNat data.length) = data := by
  have hn : (UInt32.ofNat data.length).toNat = data.length := by
    rw [UInt32.toNat_ofNat', Nat.mod_eq_of_lt h]
  rw [captured, hn, slice_of_bytes data beyond rfl rfl (by omega), List.drop_zero,
    List.take_length]

theorem completes_getPackets {data : List UInt8} {beyond : Nat → UInt8} (hlen : data.length < 2 ^ 32)
    {pkts : Packets} : Completes (getPackets data beyond) pkts ↔
      NoWrap data.length (leftover UInt8.toNat data) ∧ HeadersIn data (frames UInt8.toNat data) ∧
        typedFrames data (frames UInt8.toNat data) = pkts := by
  have hn : (UInt32.ofNat data.length).toNat = data.length := by
    rw [UInt32.toNat_ofNat', Nat.mod_eq_of_lt hlen]
  rw [getPackets, completes_getPacketsFromRawTCP, hn, captured_bytesOf _ hlen, headersInside_iff,
    List.drop_zero]
  apply and_congr_right
  intro _
  apply and_congr_right
  intro h
  rw [typedFrom_eq data beyond rfl rfl (by rwa [List.drop_zero]), List.drop_zero]

def typed (f : List UInt8) : FopdPacketType × List UInt8 := (frameType f, f)

section HeaderFrames

variable {fs : List (List UInt8)} (hfs : ∀ f ∈ fs, HeaderFrame f) {l : List UInt8}

include hfs

theorem headersIn_headerFrames : HeadersIn (fs.flatten ++ l) fs := by
  induction fs with
  | nil => simp [HeadersIn, views]
  | cons f fs ih =>
      have hf := (hfs f (by simp)).length_ge
      rw [List.flatten_cons, List.append_assoc, headersIn_cons, List.drop_left, List.length_append]
      exact ⟨by omega, ih fun g hg => hfs g (by simp [hg])⟩

theorem typedFrames_headerFrames : typedFrames (fs.flatten ++ l) fs = fs.map typed := by
  induction fs with
  | nil => rfl
  | cons f fs ih =>
      have hf := (hfs f (by simp)).length_ge
      rw [List.flatten_cons, List.append_assoc, typedFrames_cons, List.drop_left,
        ih fun g hg => hfs g (by simp [hg]), frameType_append hf, List.map_cons, typed]

end HeaderFrames

theorem headersIn_append {fs gs : List (List UInt8)} {l : List UInt8} :
    HeadersIn (fs.flatten ++ l) (fs ++ gs) ↔ HeadersIn (fs.flatten ++ l) fs ∧ HeadersIn l gs := by
  simp only [HeadersIn, views_append, List.mem_append, or_imp, forall_and]

theorem typedFrames_append (fs gs : List (List UInt8)) (l : List UInt8) :
    typedFrames (fs.flatten ++ l) (fs ++ gs) = typedFrames (fs.flatten ++ l) fs ++ typedFrames l gs := by
  rw [typedFrames, views_append, List.map_append, typedFrames, typedFrames]

/-- Typed framing is a homomorphism on frame boundaries: neither the length check nor the type of a
frame with a header depends on what follows it, and the rest is read as if it were alone. -/
theorem getPackets_append (fs : List (List UInt8)) (b : List UInt8) (beyond beyond' : Nat → UInt8)
    (pkts : Packets) (hfs : ∀ f ∈ fs, HeaderFrame f) (hb : Completes (getPackets b beyond') pkts)
    (hlen : (fs.flatten ++ b).length < 2 ^ 32 - 256) :
    Completes (getPackets (fs.flatten ++ b) beyond) (fs.map (fun f => (frameType f, f)) ++ pkts) := by
  rw [List.length_append] at hlen
  obtain ⟨-, hin, rfl⟩ := (completes_getPackets (by omega)).mp hb
  have hf := (Decomposes.append (fun f hf => (hfs f hf).1) (decomposes_frames UInt8.toNat b)).frames_eq
  apply (completes_getPackets (by rw [List.length_append]; omega)).mpr
  rw [hf, headersIn_append, typedFrames_append, typedFrames_headerFrames hfs]
  exact ⟨noWrap_of_le (by rw [List.length_append]; omega) _, ⟨headersIn_headerFrames hfs, hin⟩, rfl⟩

theorem getPackets_append_two :
    Completes (getPackets ([[2, 0x52, 0x24], [2, 0x48, 0x24]].flatten ++ [9, 1]) (fun _ => 0))
      ([[2, 0x52, 0x24], [2, 0x48, 0x24]].map (fun f => (frameType f, f)) ++ []) :=
  getPackets_append [[2, 0x52, 0x24], [2, 0x48, 0x24]] [9, 1] (fun _ => 0) (fun _ => 7) []
    (by decide) ⟨by decide +kernel, by decide +kernel⟩ (by decide)

example : (getPackets (0x14 :: 0x52 :: 0x24 :: List.replicate 18 0) fun _ => 0).result =
    some [(.damagePacket, 0x14 :: 0x52 :: 0x24 :: List.replicate 18 0)] := by decide +kernel

/-- No complete frame that is too short for a header has, in its place, the bytes of the frames after
it make up a known one. -/
def ShortFramesUnknown (data : List UInt8) : Prop :=
  ∀ (fs : List (List UInt8)) (f l : List UInt8), data = fs.flatten ++ (f ++ l) →
    (∀ g ∈ fs, IsFrame g) → IsFrame f → f.length < 3 → frameType (f ++ l) = .unknownPacket

theorem mem_typedFrames {data : List UInt8} {type : FopdPacketType} {f : List UInt8} :
    (type, f) ∈ typedFrames data (frames UInt8.toNat data) ↔
      ∃ (fs : List (List UInt8)) (l : List UInt8), data = fs.flatten ++ (f ++ l) ∧
        (∀ g ∈ fs, IsFrame g) ∧ IsFrame f ∧ type = frameType (f ++ l) := by
  simp only [typedFrames, List.mem_map, Prod.exists, Prod.mk.injEq]
  constructor
  · rintro ⟨v, g, hv, rfl, rfl⟩
    obtain ⟨fs, l, hd, rfl, hfs, hf⟩ := mem_views_frames.mp hv
    exact ⟨fs, l, hd, hfs, hf, rfl⟩
  · rintro ⟨fs, l, hd, hfs, hf, rfl⟩
    exact ⟨f ++ l, f, mem_views_frames.mpr ⟨fs, l, hd, rfl, hfs, hf⟩, rfl, rfl⟩

theorem types_local_iff {data : List UInt8} :
    (∀ type f, (type, f) ∈ typedFrames data (frames UInt8.toNat data) → type = frameType f) ↔
      ShortFramesUnknown data := by
  constructor
  · intro h fs f l hd hfs hf hshort
    rw [h _ f (mem_typedFrames.mpr ⟨fs, l, hd, hfs, hf, rfl⟩), frameType_of_short hshort]
  · intro h type f hm
    obtain ⟨fs, l, hd, hfs, hf, rfl⟩ := mem_typedFrames.mp hm
    by_cases hshort : f.length < 3
    · rw [h fs f l hd hfs hf hshort, frameType_of_short hshort]
    · exact frameType_append (by omega) l

def SameTypes (pkts pkts' : Packets) : Prop :=
  ∀ (k : Nat) type type' f, pkts[k]? = some (type, f) → pkts'[k]? = some (type', f) → type = type'

def ShortUnknown (pkts : Packets) : Prop :=
  ∀ type f, (type, f) ∈ pkts → f.length < 3 → type = .unknownPacket

theorem shortUnknown_iff {data : List UInt8} :
    ShortUnknown (typedFrames data (frames UInt8.toNat data)) ↔ ShortFramesUnknown data := by
  constructor
  · intro h fs f l hd hfs hf hshort
    exact h _ f (mem_typedFrames.mpr ⟨fs, l, hd, hfs, hf, rfl⟩) hshort
  · intro h type f hm hshort
    rw [types_local_iff.mpr h type f hm, frameType_of_short hshort]

/-- Type attribution is local exactly on buffers in which no short frame borrows a header. -/
theorem types_local (b b' : List UInt8) (beyond beyond' : Nat → UInt8) (pkts pkts' : Packets)
    (hlen : b.length < 2 ^ 32) (hlen' : b'.length < 2 ^ 32)
    (h : Completes (getPackets b beyond) pkts) (h' : Completes (getPackets b' beyond') pkts') :
    (SameTypes pkts pkts' ∧ ShortUnknown pkts ∧ ShortUnknown pkts') ↔
      ShortFramesUnknown b ∧ ShortFramesUnknown b' := by
  obtain ⟨-, -, rfl⟩ := (completes_getPackets hlen).mp h
  obtain ⟨-, -, rfl⟩ := (completes_getPackets hlen').mp h'
  rw [shortUnknown_iff, shortUnknown_iff]
  refine ⟨fun hs => hs.2, fun hs => ⟨?_, hs⟩⟩
  intro k type type' f hk hk'
  rw [types_local_iff.mpr hs.1 type f (List.mem_of_getElem? hk),
    types_local_iff.mpr hs.2 type' f (List.mem_of_getElem? hk')]

/-- Two frames shared, one of them without a header, before bytes that differ. -/
theorem types_local_shared :
    ShortFramesUnknown [2, 0x02, 0x24, 1, 0x52, 2, 0x48, 0x24] ∧ ShortFramesUnknown [2, 0x02, 0x24, 1, 0x52, 9] := by
  have hpkts : Completes (getPackets [2, 0x02, 0x24, 1, 0x52, 2, 0x48, 0x24] (fun _ => 0))
      [(.entityClickPacket, [2, 0x02, 0x24]), (.unknownPacket, [1, 0x52]), (.damagePacket, [2, 0x48, 0x24])] :=
    ⟨by decide +kernel, by decide +kernel⟩
  have hpkts' : Completes (getPackets [2, 0x02, 0x24, 1, 0x52, 9] (fun _ => 0))
      [(.entityClickPacket, [2, 0x02, 0x24]), (.unknownPacket, [1, 0x52])] :=
    ⟨by decide +kernel, by decide +kernel⟩
  refine (types_local _ _ _ _ _ _ (by decide) (by decide) hpkts hpkts').mp ⟨?_, ?_, ?_⟩
  · rintro (_ | _ | k) type type' f h h'
    · cases h
      cases h'
      rfl
    · cases h
      cases h'
      rfl
    · cases h'
  · rintro type f hm hlen
    simp only [List.mem_cons, Prod.mk.injEq, List.not_mem_nil, or_false] at hm
    rcases hm with ⟨-, rfl⟩ | ⟨rfl, -⟩ | ⟨-, rfl⟩
    · cases Nat.lt_irrefl 3 hlen
    · rfl
    · cases Nat.lt_irrefl 3 hlen
  · rintro type f hm hlen
    simp only [List.mem_cons, Prod.mk.injEq, List.not_mem_nil, or_false] at hm
    rcases hm with ⟨-, rfl⟩ | ⟨rfl, -⟩
    · cases Nat.lt_irrefl 3 hlen
    · rfl

theorem types_of_empty_frame_differ :
    Completes (getPackets [0, 0x52, 0x24] (fun _ => 0)) [(.damagePacket, [0])] ∧
      Completes (getPackets [0, 0x53, 0x24] (fun _ => 0)) [(.unknownPacket, [0])] ∧
      ¬ SameTypes [(.damagePacket, [0])] [(.unknownPacket, [0])] := by
  refine ⟨⟨by decide +kernel, by decide +kernel⟩, ⟨by decide +kernel, by decide +kernel⟩, ?_⟩
  intro h
  exact absurd (h 0 _ _ [0] rfl rfl) (by decide)

end Fopd.FrameTypes
