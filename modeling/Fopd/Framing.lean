import Fopd.Lib.Frames
import Fopd.Utils

namespace Fopd.Framing

open Consts Memory Utils Lib.Checked Lib.Frames

/-- The length byte of a frame counts the bytes after it. -/
abbrev IsFrame (f : List UInt8) : Prop := Complete UInt8.toNat f

/-- Consecutive frames from `pos` on, each with the type that the two bytes after its length byte
stand for, whatever frame these bytes are part of. -/
def typedFrom (p : Pointer) : Nat → List (List UInt8) → Packets
  | _, [] => []
  | pos, f :: fs => (headerType (p.get (pos + 1)) (p.get (pos + 2)), f) :: typedFrom p (pos + f.length) fs

def HeadersInside (size : Nat) : Nat → List (List UInt8) → Prop
  | _, [] => True
  | pos, f :: fs => pos + 2 < size ∧ HeadersInside size (pos + f.length) fs

@[simp] theorem map_snd_typedFrom (p : Pointer) (pos : Nat) (fs : List (List UInt8)) :
    (typedFrom p pos fs).map Prod.snd = fs := by
  induction fs generalizing pos with
  | nil => rfl
  | cons f fs ih => rw [typedFrom, List.map_cons, ih]

/-- The frame that the last `r` of `size` bytes only begin would end below 2^32. -/
def NoWrap (size : Nat) (r : List UInt8) : Prop :=
  ∀ b t, r = b :: t → size - r.length + (b.toNat + 1) < 2 ^ 32

theorem noWrap_nil (size : Nat) : NoWrap size [] := by
  intro b t h
  cases h

theorem noWrap_of_le {size : Nat} (h : size + 256 ≤ 2 ^ 32) (r : List UInt8) : NoWrap size r := by
  rintro b t rfl
  have hb := b.toNat_lt
  rw [List.length_cons]
  omega

section Extraction

variable (p : Pointer) {tcpDataLen : UInt32}

theorem remainder_at {pos : UInt32} {l : List UInt8} (hpos : pos.toNat ≤ tcpDataLen.toNat)
    (h : p.slice pos.toNat (tcpDataLen.toNat - pos.toNat) = l) (hl : l = [] ∨ Incomplete UInt8.toNat l) :
    tcpDataLen.toNat = pos.toNat ∨ pos.toNat < tcpDataLen.toNat ∧
      tcpDataLen.toNat < pos.toNat + ((p.get pos.toNat).toNat + 1) := by
  have hn : l.length = tcpDataLen.toNat - pos.toNat := by rw [← h, Pointer.length_slice]
  rcases hl with rfl | hi
  · simp only [List.length_nil] at hn
    omega
  · cases l with
    | nil => exact hi.elim
    | cons b t =>
        have hb : (p.slice pos.toNat (tcpDataLen.toNat - pos.toNat))[0]? = some b := by rw [h]; rfl
        rw [List.length_cons] at hn
        rw [Pointer.getElem?_slice p (by omega), Option.some.injEq, Nat.add_zero] at hb
        simp only [Incomplete] at hi
        rw [hb]
        omega

theorem noWrap_at {pos : UInt32} {l : List UInt8} (hpos : pos.toNat < tcpDataLen.toNat)
    (h : p.slice pos.toNat (tcpDataLen.toNat - pos.toNat) = l) :
    NoWrap tcpDataLen.toNat l ↔ pos.toNat + ((p.get pos.toNat).toNat + 1) < 2 ^ 32 := by
  have hn : l.length = tcpDataLen.toNat - pos.toNat := by rw [← h, Pointer.length_slice]
  have hb : l[0]? = some (p.get pos.toNat) := by
    rw [← h, Pointer.getElem?_slice p (by omega), Nat.add_zero]
  have hs : tcpDataLen.toNat - l.length = pos.toNat := by omega
  cases l with
  | nil => cases hb
  | cons b t =>
      obtain rfl := Option.some.inj hb
      rw [NoWrap, hs]
      constructor
      · exact fun h => h _ t rfl
      · rintro h c u hc
        rwa [← (List.cons.inj hc).1]

section Frame

variable {pos : UInt32} (hpos : pos.toNat ≤ tcpDataLen.toNat) {f : List UInt8} {fs : List (List UInt8)}
  {r : List UInt8}
  (hd : Decomposes UInt8.toNat (p.slice pos.toNat (tcpDataLen.toNat - pos.toNat)) (f :: fs) r)

include hpos hd

/-- The iteration on a complete frame: the length byte under `pos` is the one of the first frame
ahead, and what is ahead of the next iteration are the other frames. -/
theorem frame_at : ∃ next : UInt32, next.toNat = pos.toNat + f.length ∧
    next.toNat ≤ tcpDataLen.toNat ∧
    Decomposes UInt8.toNat (p.slice next.toNat (tcpDataLen.toNat - next.toNat)) fs r ∧
    ∀ ret, (nextPacket p tcpDataLen (pos, ret)).result = some (.inl (next,
        ret ++ [(headerType (p.get (pos.toNat + 1)) (p.get (pos.toNat + 2)), f)])) ∧
      (p.offset = 0 → p.size = tcpDataLen.toNat →
        ((∀ e ∈ (nextPacket p tcpDataLen (pos, ret)).trace, e.Ok) ↔
          pos.toNat + 2 < tcpDataLen.toNat)) := by
  obtain ⟨hf, m, hsl, hm⟩ := hd.of_cons
  obtain ⟨hn, hfs, hms⟩ := Pointer.slice_eq_append hsl
  have hlp := hf.length_pos
  have hl : f.length = (p.get pos.toNat).toNat + 1 := by
    have h0 : f[0]? = some (p.get pos.toNat) := by
      rw [← hfs, Pointer.getElem?_slice p hlp, Nat.add_zero]
    rw [hf.length_eq hlp, (List.getElem_eq_iff hlp).mpr h0]
  have hfit : pos.toNat + ((p.get pos.toNat).toNat + 1) ≤ tcpDataLen.toNat := by omega
  have hnext := toNat_next p hfit
  rw [← hl] at hnext
  refine ⟨_, hnext, by omega, ?_, fun ret => ?_⟩
  · rw [hnext, (by omega : tcpDataLen.toNat - (pos.toNat + f.length) = m.length), hms]
    exact hm
  · have hr := result_nextPacket_frame p ret (by omega) hfit
    refine ⟨by rw [hr, ← hl, hfs], fun hp hs => ?_⟩
    rw [← completes_nextPacket_frame p ret (by omega) hfit hp hs hr, Completes, Safely]
    simp [hr]

end Frame

/-- The framing loop emits the decomposition of what lies ahead of it, by induction on the frames
that are still to come. Its reads stay inside the buffer exactly when these frames' headers do. -/
theorem loop_decomposes (hp : p.offset = 0) (hs : p.size = tcpDataLen.toNat)
    (pos : UInt32) (hpos : pos.toNat ≤ tcpDataLen.toNat) {fs : List (List UInt8)} {r : List UInt8} (hw : NoWrap tcpDataLen.toNat r)
    (hd : Decomposes UInt8.toNat (p.slice pos.toNat (tcpDataLen.toNat - pos.toNat)) fs r)
    {fuel : Nat} (hfuel : fs.length < fuel) (ret : Packets) :
    (loop (nextPacket p tcpDataLen) fuel (pos, ret)).result = some (ret ++ typedFrom p pos.toNat fs) ∧
      ((∀ e ∈ (loop (nextPacket p tcpDataLen) fuel (pos, ret)).trace, e.Ok) ↔
        HeadersInside tcpDataLen.toNat pos.toNat fs) := by
  induction fs generalizing pos ret fuel with
  | nil =>
      obtain ⟨fuel, rfl⟩ : ∃ m, fuel = m + 1 := ⟨fuel - 1, by omega⟩
      have hl : p.slice pos.toNat (tcpDataLen.toNat - pos.toNat) = r := by simpa using hd.covers
      simp only [typedFrom, HeadersInside, List.append_nil, iff_true]
      rcases remainder_at p hpos hl hd.remainder with he | ⟨hlt, hin⟩
      · have hb := nextPacket_end p ret (by omega : tcpDataLen.toNat ≤ pos.toNat)
        rw [loop_leave (by rw [hb, result_pure]), hb]
        simp
      · have hb := (completes_nextPacket_incomplete p ret hlt ((noWrap_at p hlt hl).mp hw) hin).mpr
          (by omega)
        rw [loop_leave hb.1]
        exact ⟨rfl, hb.2⟩
  | cons f fs ih =>
      obtain ⟨fuel, rfl⟩ : ∃ m, fuel = m + 1 := ⟨fuel - 1, by omega⟩
      obtain ⟨next, hnext, hle, hdn, hbody⟩ := frame_at p hpos hd
      obtain ⟨hr, ht⟩ := hbody ret
      obtain ⟨ihr, iht⟩ := ih next hle hdn (Nat.lt_of_succ_lt_succ hfuel)
        (ret ++ [(headerType (p.get (pos.toNat + 1)) (p.get (pos.toNat + 2)), f)])
      rw [loop_continue hr]
      refine ⟨?_, ?_⟩
      · rw [ihr, hnext, List.append_assoc]
        rfl
      · simp only [List.mem_append, or_imp, forall_and, iht, ht hp hs, HeadersInside, hnext]

/-- Where the end of the remainder wraps around, the loop reaches it and fails there. -/
theorem noWrap_of_loop (pos : UInt32) (hpos : pos.toNat ≤ tcpDataLen.toNat)
    {fs : List (List UInt8)} {r : List UInt8}
    (hd : Decomposes UInt8.toNat (p.slice pos.toNat (tcpDataLen.toNat - pos.toNat)) fs r)
    {fuel : Nat} {ret out : Packets}
    (h : Completes (loop (nextPacket p tcpDataLen) fuel (pos, ret)) out) : NoWrap tcpDataLen.toNat r := by
  induction fs generalizing pos ret fuel with
  | nil =>
      have hl : p.slice pos.toNat (tcpDataLen.toNat - pos.toNat) = r := by simpa using hd.covers
      rcases remainder_at p hpos hl hd.remainder with he | ⟨hlt, -⟩
      · have hr : r = [] := by
          rw [← hl, he, Nat.sub_self]
          rfl
        exact hr ▸ noWrap_nil _
      · by_contra hw
        rw [noWrap_at p hlt hl] at hw
        cases fuel with
        | zero => exact absurd h.1 (by simp [loop, stop])
        | succ fuel =>
            obtain ⟨next, hb, -⟩ := completes_bind.mp h
            exact not_completes_nextPacket_wrapped p ret hlt (by omega) next hb
  | cons f fs ih =>
      obtain ⟨next, hnext, hle, hdn, hbody⟩ := frame_at p hpos hd
      cases fuel with
      | zero => exact absurd h.1 (by simp [loop, stop])
      | succ fuel =>
          obtain ⟨st, hb, h⟩ := completes_bind.mp h
          obtain rfl := Option.some.inj (hb.1.symm.trans (hbody ret).1)
          exact ih next hle hdn h

end Extraction

section Captured

variable (bytes : Nat → UInt8) {tcpDataLen : UInt32}

/-- The `tcp_data_len` bytes that `tcp_data` points to. -/
def captured (tcpDataLen : UInt32) : List UInt8 :=
  (tcpPointer bytes tcpDataLen).slice 0 tcpDataLen.toNat

@[simp] theorem length_captured : (captured bytes tcpDataLen).length = tcpDataLen.toNat :=
  Pointer.length_slice _ _ _

theorem extractPackets_eq (hw : NoWrap tcpDataLen.toNat (leftover UInt8.toNat (captured bytes tcpDataLen)))
    {fuel : Nat} (hfuel : tcpDataLen.toNat < fuel) :
    (extractPackets (tcpPointer bytes tcpDataLen) tcpDataLen fuel).result =
        some (typedFrom (tcpPointer bytes tcpDataLen) 0 (frames UInt8.toNat (captured bytes tcpDataLen))) ∧
      ((∀ e ∈ (extractPackets (tcpPointer bytes tcpDataLen) tcpDataLen fuel).trace, e.Ok) ↔
        HeadersInside tcpDataLen.toNat 0 (frames UInt8.toNat (captured bytes tcpDataLen))) := by
  have hd := decomposes_frames UInt8.toNat (captured bytes tcpDataLen)
  have hf := hd.length_frames_le
  rw [length_captured] at hf
  have h := loop_decomposes (tcpPointer bytes tcpDataLen) rfl rfl 0 (Nat.zero_le _) hw hd
    (lt_of_le_of_lt hf hfuel) []
  rwa [UInt32.toNat_zero, List.nil_append] at h

theorem result_getPacketsFromRawTCP
    (hw : NoWrap tcpDataLen.toNat (leftover UInt8.toNat (captured bytes tcpDataLen))) :
    (getPacketsFromRawTCP (some bytes) tcpDataLen).result =
      some (typedFrom (tcpPointer bytes tcpDataLen) 0 (frames UInt8.toNat (captured bytes tcpDataLen))) :=
  (extractPackets_eq bytes hw (Nat.lt_succ_self _)).1

theorem completes_getPacketsFromRawTCP {pkts : Packets} :
    Completes (getPacketsFromRawTCP (some bytes) tcpDataLen) pkts ↔
      NoWrap tcpDataLen.toNat (leftover UInt8.toNat (captured bytes tcpDataLen)) ∧
        HeadersInside tcpDataLen.toNat 0 (frames UInt8.toNat (captured bytes tcpDataLen)) ∧
        typedFrom (tcpPointer bytes tcpDataLen) 0 (frames UInt8.toNat (captured bytes tcpDataLen)) = pkts := by
  constructor
  · intro h
    have hw := noWrap_of_loop (tcpPointer bytes tcpDataLen) 0 (Nat.zero_le _)
      (decomposes_frames UInt8.toNat (captured bytes tcpDataLen)) h
    obtain ⟨hr, ht⟩ := extractPackets_eq bytes hw (Nat.lt_succ_self _)
    exact ⟨hw, ht.mp h.2, Option.some.inj (hr.symm.trans h.1)⟩
  · rintro ⟨hw, hin, rfl⟩
    obtain ⟨hr, ht⟩ := extractPackets_eq bytes hw (Nat.lt_succ_self _)
    exact ⟨hr, ht.mpr hin⟩

end Captured

/-- Framing is the unique maximal decomposition. The loop ends, with any bound on its iterations
beyond `tcp_data_len`, and the byte vectors it returns are the only way to cut the captured bytes
into complete frames and a remainder that is empty or an incomplete frame. -/
theorem framing_unique (bytes : Nat → UInt8) (tcpDataLen : UInt32)
    (hlen : tcpDataLen.toNat ≤ 2 ^ 32 - 256) :
    ∃ pkts r, (getPacketsFromRawTCP (some bytes) tcpDataLen).result = some pkts ∧
      (∀ fuel, tcpDataLen.toNat < fuel →
        (extractPackets (tcpPointer bytes tcpDataLen) tcpDataLen fuel).result = some pkts) ∧
      Decomposes UInt8.toNat (captured bytes tcpDataLen) (pkts.map Prod.snd) r ∧
      ∀ fs s, Decomposes UInt8.toNat (captured bytes tcpDataLen) fs s → fs = pkts.map Prod.snd := by
  have hw := noWrap_of_le (by omega : tcpDataLen.toNat + 256 ≤ 2 ^ 32)
    (leftover UInt8.toNat (captured bytes tcpDataLen))
  have hr := decomposes_frames UInt8.toNat (captured bytes tcpDataLen)
  refine ⟨_, leftover UInt8.toNat (captured bytes tcpDataLen), result_getPacketsFromRawTCP bytes hw,
    ?_, ?_, ?_⟩
  · exact fun fuel hf => (extractPackets_eq bytes hw hf).1
  · rwa [map_snd_typedFrom]
  · intro fs s hs
    rw [map_snd_typedFrom]
    exact (hs.unique hr).1

theorem framing_unique_mixed :
    ∃ pkts r, (getPacketsFromRawTCP (some ([2, 0x52, 0x24, 0, 1].getD · 0)) 5).result = some pkts ∧
      (∀ fuel, (5 : UInt32).toNat < fuel →
        (extractPackets (tcpPointer ([2, 0x52, 0x24, 0, 1].getD · 0) 5) 5 fuel).result = some pkts) ∧
      Decomposes UInt8.toNat (captured ([2, 0x52, 0x24, 0, 1].getD · 0) 5) (pkts.map Prod.snd) r ∧
      ∀ fs s, Decomposes UInt8.toNat (captured ([2, 0x52, 0x24, 0, 1].getD · 0) 5) fs s →
        fs = pkts.map Prod.snd :=
  framing_unique ([2, 0x52, 0x24, 0, 1].getD · 0) 5 (by decide)

end Fopd.Framing
