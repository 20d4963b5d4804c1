import Fopd.Lib.CString

namespace Fopd.Ping

open Lib.Checked Lib.CString

def pingError : UInt32 := 9999

def bufSize : Nat := 4096

def equals : UInt8 := 0x3D

/-- What the reader takes for granted: that it reads inside `chBuf`, and that the string in memory at a
call of `parsePingOutput` is that of the chunk just read. -/
inductive Access
  | read (index : Int)
  | call (memory chunk : List UInt8)

def stringAt (memory : List UInt8) : Option (List UInt8) :=
  if 0 ∈ memory then some (memory.takeWhile (· ≠ 0)) else none

def textOf (chunk : List UInt8) : List UInt8 := chunk.takeWhile (· ≠ 0)

def Access.Ok : Access → Prop
  | .read index => 0 ≤ index ∧ index < bufSize
  | .call memory chunk => stringAt memory = some (textOf chunk)

/-- The bytes from an address on as far as memory is mapped, and the byte before it. -/
structure Pointer where
  before : UInt8
  bytes : List UInt8

namespace Pointer

def touch (i : Nat) : Access := .read i

/-- `*(p - 1)`, where `p` is `i` bytes behind the address. -/
def readBefore (buffer : Pointer) (i : Nat) : Exec Access UInt8 := do
  emit [.read (i - 1)]
  pure ((buffer.before :: buffer.bytes).getD i 0)

end Pointer

/-- From the result of `strtol` on. -/
def toPing (value : Int) : UInt32 :=
  let ping := UInt32.ofInt value
  if ping > 0 then ping else pingError

/-- Delivers the new value of `last_ping`. -/
def parsePingOutput (buffer : Pointer) : Exec Access UInt32 := do
  match ← strrchr Pointer.touch space buffer.bytes 0 none with
  | none => pure pingError
  | some p => do
      let c ← buffer.readBefore p
      if c ≠ equals then pure pingError
      else do
        let value ← strtol Pointer.touch (buffer.bytes.drop p) p
        pure (toPing value)

structure Chunk where
  bytes : List UInt8
  fits : bytes.length ≤ bufSize

inductive ReadFile
  | failed
  | delivered (chunk : Chunk)

/-- What lies around `chBuf` on the stack. -/
structure Stack where
  before : UInt8
  after : List UInt8

def fill (chBuf : List UInt8) (chunk : Chunk) : List UInt8 :=
  chunk.bytes ++ chBuf.drop chunk.bytes.length

def zeroMemory (chBuf : List UInt8) (n : Nat) : List UInt8 := List.replicate n 0 ++ chBuf.drop n

def bufferAt (stack : Stack) (chBuf : List UInt8) : Pointer := ⟨stack.before, chBuf ++ stack.after⟩

/-- The loop, up to the read that has not returned yet. -/
def readLoop (stack : Stack) : List ReadFile → List UInt8 → UInt32 → Exec Access UInt32
  | [], _, lastPing => pure lastPing
  | .failed :: _, _, lastPing => pure lastPing
  | .delivered chunk :: reads, chBuf, lastPing =>
      if chunk.bytes.length = 0 then pure lastPing
      else do
        let chBuf := fill chBuf chunk
        emit [.call (bufferAt stack chBuf).bytes chunk.bytes]
        let lastPing ← parsePingOutput (bufferAt stack chBuf)
        readLoop stack reads (zeroMemory chBuf chunk.bytes.length) lastPing

def zeroed : List UInt8 := List.replicate bufSize 0

def readDataFromPingProgram (stack : Stack) (reads : List ReadFile) (lastPing : UInt32) :
    Exec Access UInt32 := readLoop stack reads zeroed lastPing

def parsed (before : UInt8) (t : List UInt8) : UInt32 :=
  match splitLast space t with
  | none => pingError
  | some (pre, post) =>
      if pre.getLastD before = equals then toPing (scan post).value else pingError

/-- The byte before the last space is not in the text. -/
def LastSpaceFirst (t : List UInt8) : Prop := ∃ post, t = space :: post ∧ space ∉ post

section Parsing

variable {before : UInt8} {t pre post m : List UInt8} {v : UInt32} {ok : Access → Prop} {last : Nat}

theorem parsed_of_not_mem (h : space ∉ t) : parsed before t = pingError := by
  rw [parsed, splitLast_eq_none_iff.mpr h]

theorem parsed_of_split (h : space ∉ post) : parsed before (pre ++ space :: post) =
    if pre.getLastD before = equals then toPing (scan post).value else pingError := by
  rw [parsed, splitLast_of_split h]

theorem scan_space (t : List UInt8) : (scan (space :: t)).value = (scan t).value := by
  rw [Numeral.value, Numeral.value, scan, scan, List.dropWhile_cons_of_pos (by decide)]

theorem getD_before (before : UInt8) (pre m : List UInt8) :
    (before :: (pre ++ m)).getD pre.length 0 = pre.getLastD before := by
  rcases List.eq_nil_or_concat' pre with rfl | ⟨us, u, rfl⟩
  · rfl
  · simp

theorem readBefore_safely_iff {c : UInt8} :
    Safely ok (Pointer.readBefore ⟨before, pre ++ m⟩ pre.length) c ↔
      ok (.read (pre.length - 1)) ∧ pre.getLastD before = c := by
  rw [Pointer.readBefore, safely_emit_bind, getD_before, safely_pure, List.forall_mem_singleton]

theorem parse_safely_of_not_mem (hok : ∀ i ≤ t.length, ok (Pointer.touch i)) (h0 : 0 ∉ t) (ht : space ∉ t) :
    Safely ok (parsePingOutput ⟨before, t ++ 0 :: m⟩) v ↔ pingError = v := by
  have hr : Safely ok (strrchr Pointer.touch space (t ++ 0 :: m) 0 none) none :=
    strrchr_of_not_mem hok (by decide) ht h0 (by omega)
  rw [parsePingOutput, hr.bind_iff, safely_pure]

theorem parse_safely_of_split (hok : ∀ i ≤ (pre ++ space :: post).length, ok (Pointer.touch i))
    (h0 : 0 ∉ pre ++ space :: post) (hpost : space ∉ post) :
    Safely ok (parsePingOutput ⟨before, pre ++ space :: post ++ 0 :: m⟩) v ↔
      ok (.read (pre.length - 1)) ∧
        (if pre.getLastD before = equals then toPing (scan post).value else pingError) = v := by
  have hr : Safely ok (strrchr Pointer.touch space (pre ++ space :: post ++ 0 :: m) 0 none)
      (some (0 + pre.length)) := strrchr_of_split hok (by decide) hpost h0 (by omega)
  have hd : (pre ++ space :: post ++ 0 :: m).drop pre.length = space :: post ++ 0 :: m := by
    rw [List.append_assoc, List.drop_left]
  have hl : Safely ok (strtol Pointer.touch (space :: post ++ 0 :: m) pre.length) (scan (space :: post)).value :=
    strtol_safely hok (by simp)
  have hread (c : UInt8) :
      Safely ok (Pointer.readBefore ⟨before, pre ++ space :: post ++ 0 :: m⟩ pre.length) c ↔
        ok (.read (pre.length - 1)) ∧ pre.getLastD before = c := by
    rw [List.append_assoc]
    exact readBefore_safely_iff
  have hrest (c : UInt8) : Safely ok (if c ≠ equals then pure pingError else do
      let value ← strtol Pointer.touch (space :: post ++ 0 :: m) pre.length
      pure (toPing value)) v ↔ (if c = equals then toPing (scan post).value else pingError) = v := by
    by_cases he : c = equals
    · rw [if_neg (not_not.mpr he), if_pos he, hl.bind_iff, safely_pure, scan_space]
    · rw [if_pos he, if_neg he, safely_pure]
  rw [Nat.zero_add] at hr
  rw [parsePingOutput, hr.bind_iff]
  simp only [hd]
  simp only [safely_bind, hread, hrest]
  constructor
  · rintro ⟨c, ⟨hc, rfl⟩, hv⟩
    exact ⟨hc, hv⟩
  · rintro ⟨hc, hv⟩
    exact ⟨_, ⟨hc, rfl⟩, hv⟩

/-- The reads go from the byte before the last space, wherever that is, to the NUL. -/
theorem parse_safely_iff (hok : ∀ i ≤ t.length, ok (Pointer.touch i)) (h0 : 0 ∉ t) :
    Safely ok (parsePingOutput ⟨before, t ++ 0 :: m⟩) v ↔
      (∀ pre post, splitLast space t = some (pre, post) → ok (.read (pre.length - 1))) ∧
        parsed before t = v := by
  cases hs : splitLast space t with
  | none =>
      have ht := splitLast_eq_none_iff.mp hs
      rw [parse_safely_of_not_mem hok h0 ht, parsed_of_not_mem ht]
      exact iff_and_self.mpr fun _ _ _ h => nomatch h
  | some p =>
      obtain ⟨pre, post⟩ := p
      obtain ⟨rfl, hpost⟩ := split_of_splitLast hs
      rw [parse_safely_of_split hok h0 hpost, parsed_of_split hpost]
      simp

theorem parse_result (before : UInt8) {t : List UInt8} (h0 : 0 ∉ t) (m : List UInt8) :
    (parsePingOutput ⟨before, t ++ 0 :: m⟩).result = some (parsed before t) := by
  have h : Safely (fun _ => True) (parsePingOutput ⟨before, t ++ 0 :: m⟩) (parsed before t) :=
    (parse_safely_iff (fun _ _ => trivial) h0).mpr ⟨fun _ _ _ => trivial, rfl⟩
  exact h.1

end Parsing

theorem toNat_toPing {value : Int} (h : value % 2 ^ 32 ≠ 0) : (toPing value).toNat = (value % 2 ^ 32).toNat := by
  have hn : (UInt32.ofInt value).toNat = (value % 2 ^ 32).toNat := by
    rw [UInt32.ofInt, UInt32.toNat_ofNat', Nat.mod_eq_of_lt (by omega)]
  rw [toPing, if_pos, hn]
  rw [gt_iff_lt, UInt32.lt_iff_toNat_lt, hn, UInt32.toNat_zero]
  omega

theorem toNat_toPing_pos {n : Nat} (h : 1 ≤ n) : (toPing (signed false n)).toNat = min n (2 ^ 31 - 1) := by
  have hs : signed false n = min (n : Int) (2 ^ 31 - 1) := by
    simp only [signed, clamp, longMax, longMin, Bool.false_eq_true, if_false]
    omega
  rw [toNat_toPing (by omega), hs]
  omega

theorem toNat_toPing_neg {n : Nat} (h : 1 ≤ n) : (toPing (signed true n)).toNat = 2 ^ 32 - min n (2 ^ 31) := by
  have hs : signed true n = -min (n : Int) (2 ^ 31) := by
    simp only [signed, clamp, longMax, longMin, if_true]
    omega
  rw [toNat_toPing (by omega), hs]
  omega

theorem toPing_zero (negative : Bool) : toPing (signed negative 0) = pingError := by
  cases negative <;> decide

theorem zeroMemory_fill (chunk : Chunk) : zeroMemory (fill zeroed chunk) chunk.bytes.length = zeroed := by
  have hfits := chunk.fits
  rw [zeroMemory, fill, List.drop_left, zeroed, List.drop_replicate, List.replicate_append_replicate]
  congr 1
  omega

theorem textOf_append_zero {bytes : List UInt8} (h : 0 ∈ bytes) : ∃ m, bytes = textOf bytes ++ 0 :: m := by
  have hne : bytes.dropWhile (· ≠ 0) ≠ [] := by
    intro hn
    exact absurd (List.dropWhile_eq_nil_iff.mp hn 0 h) (by decide)
  obtain ⟨b, m, hm⟩ := List.exists_cons_of_ne_nil hne
  have hb := List.head?_dropWhile_not (fun b : UInt8 => decide (b ≠ 0)) bytes
  rw [hm] at hb
  obtain rfl : b = 0 := by simpa using hb
  exact ⟨m, by rw [textOf, ← hm, List.takeWhile_append_dropWhile]⟩

theorem textOf_eq_self {bytes : List UInt8} (h : 0 ∉ bytes) : textOf bytes = bytes := by
  rw [textOf, List.takeWhile_eq_self_iff]
  intro b hb
  exact decide_eq_true fun h0 => h (h0 ▸ hb)

theorem zero_not_mem_textOf (bytes : List UInt8) : 0 ∉ textOf bytes := fun h =>
  absurd (List.mem_takeWhile_imp h) (by decide)

/-- Unless a chunk fills the buffer and has no NUL of its own, its text ends in the buffer. -/
theorem fill_eq {chunk : Chunk} (h : chunk.bytes.length < bufSize ∨ 0 ∈ chunk.bytes) (after : List UInt8) :
    ∃ m, fill zeroed chunk ++ after = textOf chunk.bytes ++ 0 :: m := by
  rw [fill, zeroed, List.drop_replicate]
  by_cases h0 : 0 ∈ chunk.bytes
  · obtain ⟨m, hm⟩ := textOf_append_zero h0
    refine ⟨m ++ (List.replicate (bufSize - chunk.bytes.length) 0 ++ after), ?_⟩
    nth_rewrite 1 [hm]
    simp
  · obtain ⟨k, hk⟩ := Nat.exists_eq_succ_of_ne_zero (Nat.sub_ne_zero_of_lt (h.resolve_right h0))
    rw [textOf_eq_self h0, hk, List.replicate_succ]
    exact ⟨List.replicate k 0 ++ after, by simp⟩

end Fopd.Ping
