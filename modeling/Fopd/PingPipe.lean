import Fopd.PingGrammar

namespace Fopd.PingPipe

open Lib.Checked Lib.CString Ping PingGrammar

/-- The text of the chunk ends inside the buffer and does not have its last space at the start. -/
def Fits (chunk : Chunk) : Prop :=
  (chunk.bytes.length < bufSize ∨ 0 ∈ chunk.bytes) ∧ ¬ LastSpaceFirst (textOf chunk.bytes)

section Calls

variable (stack : Stack) {chunk : Chunk}

theorem length_textOf_lt (h : chunk.bytes.length < bufSize ∨ 0 ∈ chunk.bytes) :
    (textOf chunk.bytes).length < bufSize := by
  have hfits := chunk.fits
  by_cases h0 : 0 ∈ chunk.bytes
  · obtain ⟨m, hm⟩ := textOf_append_zero h0
    have hl := congrArg List.length hm
    rw [List.length_append, List.length_cons] at hl
    omega
  · rw [textOf_eq_self h0]
    exact h.resolve_right h0

theorem stringAt_text {t : List UInt8} (h0 : 0 ∉ t) (m : List UInt8) : stringAt (t ++ 0 :: m) = some t := by
  have hne : ∀ b ∈ t, decide (b ≠ 0) := by
    rintro b hb
    apply decide_eq_true
    rintro rfl
    exact h0 hb
  obtain ⟨ht, -⟩ := takeWhile_append_stop (v := 0 :: m) hne (by simp)
  rw [stringAt, if_pos (by simp), ht]

theorem read_ok_iff {t : List UInt8} (ht : t.length < bufSize) :
    (∀ pre post, splitLast space t = some (pre, post) → Access.Ok (.read (pre.length - 1))) ↔
      ¬ LastSpaceFirst t := by
  constructor
  · rintro h ⟨post, rfl, hpost⟩
    have hs : splitLast space (space :: post) = some ([], post) := by
      rw [← List.nil_append (space :: post), splitLast_of_split hpost]
    exact absurd (h [] post hs).1 (by decide)
  · intro h pre post hs
    obtain ⟨rfl, hpost⟩ := split_of_splitLast hs
    have hpre : pre ≠ [] := by
      rintro rfl
      exact h ⟨post, rfl, hpost⟩
    have hpos := List.length_pos_of_ne_nil hpre
    rw [List.length_append] at ht
    constructor <;> omega

/-- What one turn of the loop takes for granted. -/
theorem call_safely_iff :
    (Access.Ok (.call (bufferAt stack (fill zeroed chunk)).bytes chunk.bytes) ∧
      ∃ v, Safely Access.Ok (parsePingOutput (bufferAt stack (fill zeroed chunk))) v) ↔ Fits chunk := by
  by_cases hterm : chunk.bytes.length < bufSize ∨ 0 ∈ chunk.bytes
  · obtain ⟨m, hm⟩ := fill_eq hterm stack.after
    have hl := length_textOf_lt hterm
    have hok : ∀ i ≤ (textOf chunk.bytes).length, Access.Ok (Pointer.touch i) := by
      intro i hi
      exact ⟨Int.natCast_nonneg i, by omega⟩
    have h0 := zero_not_mem_textOf chunk.bytes
    have hcall : Access.Ok (.call (textOf chunk.bytes ++ 0 :: m) chunk.bytes) := stringAt_text h0 m
    rw [bufferAt, hm, and_iff_right hcall, Fits, and_iff_right hterm, ← read_ok_iff hl]
    simp only [parse_safely_iff hok h0, exists_and_left, exists_eq', and_true]
  · refine iff_of_false ?_ fun h => hterm h.1
    rintro ⟨-, v, hv⟩
    obtain ⟨hlen, h0⟩ := not_or.mp hterm
    -- the search for the last space leaves the buffer at its end
    obtain ⟨r, hr, -⟩ := safely_bind.mp hv
    have hend : Access.Ok (Pointer.touch (0 + chunk.bytes.length)) := by
      rw [bufferAt, fill, List.append_assoc] at hr
      exact strrchr_reads_past h0 hr
    have hlt : ((0 + chunk.bytes.length : Nat) : Int) < bufSize := hend.2
    omega

theorem readLoop_safely_iff (chunks : List Chunk) (hne : ∀ c ∈ chunks, c.bytes ≠ []) (lastPing : UInt32) :
    (∃ v, Safely Access.Ok (readLoop stack (chunks.map .delivered) zeroed lastPing) v) ↔
      ∀ c ∈ chunks, Fits c := by
  induction chunks generalizing lastPing with
  | nil => exact iff_of_true ⟨lastPing, safely_pure.mpr rfl⟩ (List.forall_mem_nil _)
  | cons c chunks ih =>
      obtain ⟨hc, hne⟩ := List.forall_mem_cons.mp hne
      have hlen : c.bytes.length ≠ 0 := fun h => hc (List.length_eq_zero_iff.mp h)
      rw [List.map_cons, readLoop, if_neg hlen, List.forall_mem_cons, ← call_safely_iff stack]
      simp only [safely_emit_bind, List.forall_mem_singleton, zeroMemory_fill]
      simp only [safely_bind]
      constructor
      · rintro ⟨v, hcall, ping, hp, hv⟩
        exact ⟨⟨hcall, ping, hp⟩, (ih hne ping).mp ⟨v, hv⟩⟩
      · rintro ⟨⟨hcall, ping, hp⟩, hfits⟩
        obtain ⟨v, hv⟩ := (ih hne ping).mpr hfits
        exact ⟨v, hcall, ping, hp, hv⟩

end Calls

/-- Every chunk is parsed by itself, inside `chBuf`, exactly when each chunk ends in it with a NUL and
does not have its last space at the start. -/
theorem reads_in_bounds_iff (stack : Stack) (chunks : List Chunk) (hne : ∀ c ∈ chunks, c.bytes ≠ [])
    (lastPing : UInt32) :
    (∃ v, Safely Access.Ok (readDataFromPingProgram stack (chunks.map .delivered) lastPing) v) ↔
      ∀ c ∈ chunks, Fits c := readLoop_safely_iff stack chunks hne lastPing

theorem fits_of_head {chunk : Chunk} (hlt : chunk.bytes.length < bufSize)
    (hs : (textOf chunk.bytes).head? ≠ some space) : Fits chunk := by
  refine ⟨Or.inl hlt, ?_⟩
  rintro ⟨post, ht, -⟩
  rw [ht] at hs
  exact hs rfl

/-- On `= 12` and `ms`. -/
theorem reads_in_bounds_iff_two : ∃ v, Safely Access.Ok (readDataFromPingProgram ⟨0, []⟩
    ([⟨[equals, space, 0x31, 0x32], by decide⟩, ⟨[0x6D, 0x73], by decide⟩].map .delivered) pingError) v := by
  apply (reads_in_bounds_iff ⟨0, []⟩ [⟨[equals, space, 0x31, 0x32], by decide⟩, ⟨[0x6D, 0x73], by decide⟩]
    (by simp) pingError).mpr
  intro c hc
  rcases List.mem_pair.mp hc with rfl | rfl
  · exact fits_of_head (by decide) (by decide)
  · exact fits_of_head (by decide) (by decide)

/-- On a single space the code reads `chBuf[-1]`. -/
theorem space_reads_before_buffer : ¬ ∃ v, Safely Access.Ok (readDataFromPingProgram ⟨0, []⟩
    ([⟨[space], by decide⟩].map .delivered) pingError) v := by
  intro h
  have hfits := (readLoop_safely_iff ⟨0, []⟩ [⟨[space], by decide⟩] (by simp) pingError).mp h
    _ (List.mem_singleton_self _)
  exact hfits.2 ⟨[], by decide, List.not_mem_nil⟩

def delivered (chunks : List Chunk) : List UInt8 := chunks.flatMap Chunk.bytes

/-- The chunk `c` decides on the latency as the whole text `u ++ c` does. -/
def Kept (before : UInt8) (u c : List UInt8) : Prop :=
  u = [] ∨ space ∈ c.tail ∨
    if c.head? = some space then Shows (scan c.tail) → (before = equals ↔ u.getLast? = some equals)
    else ¬ EndsIn Shows (before :: (u ++ c))

def Survives (before : UInt8) (lastPing : UInt32) (chunks : List Chunk) : Prop :=
  match chunks.getLast? with
  | none => lastPing = pingError
  | some c => Kept before (delivered chunks.dropLast) c.bytes

section Kept

variable {before : UInt8} {t u c post : List UInt8}

theorem parsed_eq_error_iff : parsed before t = pingError ↔ ¬ EndsIn Shows (before :: t) := by
  have hone : ∀ num, Shows num → 1 ≤ decimal num.digits := fun _ h => h.1
  cases hs : splitLast space t with
  | none =>
      have hn := splitLast_eq_none_iff.mp hs
      refine iff_of_true (parsed_of_not_mem hn) ?_
      by_cases hb : before = space
      · subst hb
        intro he
        have hi : EndsIn Shows ([] ++ space :: t) ↔ _ := endsIn_iff hone hn
        exact nomatch (hi.mp he).1
      · exact not_endsIn (List.not_mem_cons_of_ne_of_not_mem (Ne.symm hb) hn)
  | some p =>
      obtain ⟨pre, post⟩ := p
      obtain ⟨rfl, hpost⟩ := split_of_splitLast hs
      rw [parsed_of_split hpost, ← List.cons_append, endsIn_iff hone hpost, List.getLast?_cons,
        Option.some.injEq, ← List.getLastD_eq_getLast?]
      by_cases he : pre.getLastD before = equals
      · rw [if_pos he, toPing_value_eq_error_iff, and_iff_right he]
      · rw [if_neg he, iff_true_left rfl]
        exact fun h => he h.1

/-- Without a space the chunk says that there is no latency. -/
theorem parsed_eq_iff_of_not_mem (hc : space ∉ c) :
    parsed before c = parsed before (u ++ c) ↔ ¬ EndsIn Shows (before :: (u ++ c)) := by
  rw [parsed_of_not_mem hc, eq_comm, parsed_eq_error_iff]

/-- With its last space at the start it takes the byte before `chBuf` for that before the space. -/
theorem parsed_eq_iff_of_first (hu : u ≠ []) (hpost : space ∉ post) :
    parsed before (space :: post) = parsed before (u ++ space :: post) ↔
      (Shows (scan post) → (before = equals ↔ u.getLast? = some equals)) := by
  obtain ⟨us, x, rfl⟩ := (List.eq_nil_or_concat' u).resolve_left hu
  rw [← List.nil_append (space :: post), parsed_of_split hpost, List.nil_append, parsed_of_split hpost,
    List.getLastD_concat, List.getLast?_concat, Option.some.injEq, List.getLastD_nil]
  have hshows := toPing_value_eq_error_iff (scan post)
  by_cases hb : before = equals <;> by_cases hx : x = equals <;>
    simp [hb, hx, hshows, eq_comm (a := pingError)]

/-- A later space has the byte before it in the same chunk. -/
theorem parsed_eq_of_mem_tail (hc : space ∈ c.tail) : parsed before c = parsed before (u ++ c) := by
  cases c with
  | nil => exact absurd hc List.not_mem_nil
  | cons b c =>
      obtain ⟨p, hs⟩ := Option.ne_none_iff_exists'.mp (mt splitLast_eq_none_iff.mp (not_not.mpr hc))
      obtain ⟨pre, post⟩ := p
      obtain ⟨rfl, hpost⟩ := split_of_splitLast hs
      have hlast : (u ++ b :: pre).getLastD before = (b :: pre).getLastD before := by
        simp [List.getLastD_eq_getLast?, List.getLast?_cons]
      rw [← List.cons_append, parsed_of_split hpost, ← List.append_assoc, parsed_of_split hpost, hlast]

theorem parsed_eq_iff : parsed before c = parsed before (u ++ c) ↔ Kept before u c := by
  rw [Kept]
  by_cases hu : u = []
  · subst hu
    exact iff_of_true rfl (Or.inl rfl)
  by_cases ht : space ∈ c.tail
  · exact iff_of_true (parsed_eq_of_mem_tail ht) (Or.inr (Or.inl ht))
  rw [or_iff_right hu, or_iff_right ht]
  cases c with
  | nil => exact parsed_eq_iff_of_not_mem List.not_mem_nil
  | cons b c =>
      by_cases hb : b = space
      · subst hb
        rw [if_pos List.head?_cons]
        exact parsed_eq_iff_of_first hu ht
      · rw [if_neg (by simpa using hb)]
        exact parsed_eq_iff_of_not_mem (List.not_mem_cons_of_ne_of_not_mem (Ne.symm hb) ht)

end Kept

theorem parse_fill_result (stack : Stack) {chunk : Chunk} (h : chunk.bytes.length < bufSize)
    (h0 : 0 ∉ chunk.bytes) :
    (parsePingOutput (bufferAt stack (fill zeroed chunk))).result = some (parsed stack.before chunk.bytes) := by
  obtain ⟨m, hm⟩ := fill_eq (Or.inl h) stack.after
  rw [bufferAt, hm, textOf_eq_self h0]
  exact parse_result stack.before h0 m

/-- Each chunk overwrites what the chunks before it have left. -/
theorem readLoop_result (stack : Stack) (chunks : List Chunk) (hne : ∀ c ∈ chunks, c.bytes ≠ [])
    (h0 : ∀ c ∈ chunks, c.bytes.length < bufSize ∧ 0 ∉ c.bytes) (lastPing : UInt32) :
    (readLoop stack (chunks.map .delivered) zeroed lastPing).result =
      some (chunks.foldl (fun _ c => parsed stack.before c.bytes) lastPing) := by
  induction chunks generalizing lastPing with
  | nil => rfl
  | cons c chunks ih =>
      obtain ⟨hc, hne⟩ := List.forall_mem_cons.mp hne
      obtain ⟨⟨hlt, hc0⟩, h0⟩ := List.forall_mem_cons.mp h0
      have hlen : c.bytes.length ≠ 0 := fun h => hc (List.length_eq_zero_iff.mp h)
      rw [List.map_cons, readLoop, if_neg hlen, result_bind, result_emit, Option.bind_some, result_bind,
        parse_fill_result stack hlt hc0, Option.bind_some, zeroMemory_fill]
      exact ih hne h0 _

theorem bytes_sublist_delivered {chunks : List Chunk} {c : Chunk} (hc : c ∈ chunks) :
    c.bytes.Sublist (delivered chunks) := List.sublist_flatten_of_mem (List.mem_map_of_mem hc)

theorem foldl_eq_iff (before : UInt8) (chunks : List Chunk) (lastPing : UInt32) :
    chunks.foldl (fun _ c => parsed before c.bytes) lastPing = parsed before (delivered chunks) ↔
      Survives before lastPing chunks := by
  rw [Survives]
  rcases List.eq_nil_or_concat' chunks with rfl | ⟨us, c, rfl⟩
  · rfl
  · have happ : delivered (us ++ [c]) = delivered us ++ c.bytes := by
      rw [delivered, List.flatMap_append, List.flatMap_singleton, delivered]
    rw [List.foldl_concat, List.getLast?_concat, List.dropLast_concat, happ]
    exact parsed_eq_iff

/-- The latency does not depend on how the text is delivered exactly when the last chunk has in it what
decides on the latency, and for the empty text when there has been none before. -/
theorem delivery_irrelevant_iff (stack : Stack) (chunks : List Chunk) (hne : ∀ c ∈ chunks, c.bytes ≠ [])
    (h0 : 0 ∉ delivered chunks) (hlen : (delivered chunks).length < bufSize) (lastPing : UInt32) :
    ∃ piecewise atOnce,
      (readDataFromPingProgram stack (chunks.map .delivered) lastPing).result = some piecewise ∧
      (parsePingOutput (bufferAt stack (fill zeroed ⟨delivered chunks, hlen.le⟩))).result = some atOnce ∧
      (piecewise = atOnce ↔ Survives stack.before lastPing chunks) := by
  have hchunks : ∀ c ∈ chunks, c.bytes.length < bufSize ∧ 0 ∉ c.bytes := by
    intro c hc
    have hsub := bytes_sublist_delivered hc
    exact ⟨hsub.length_le.trans_lt hlen, fun hm => h0 (hsub.subset hm)⟩
  exact ⟨_, _, readLoop_result stack chunks hne hchunks lastPing, parse_fill_result stack hlen h0,
    foldl_eq_iff stack.before chunks lastPing⟩

/-- On `T` and `= 12`. -/
theorem delivery_irrelevant_iff_two : ∃ piecewise atOnce,
    (readDataFromPingProgram ⟨0, []⟩
      ([⟨[0x54], by decide⟩, ⟨[equals, space, 0x31, 0x32], by decide⟩].map .delivered) pingError).result =
        some piecewise ∧
    (parsePingOutput (bufferAt ⟨0, []⟩ (fill zeroed ⟨[0x54, equals, space, 0x31, 0x32], by decide⟩))).result =
      some atOnce ∧ piecewise = atOnce := by
  obtain ⟨piecewise, atOnce, hp, ha, hiff⟩ := delivery_irrelevant_iff ⟨0, []⟩
    [⟨[0x54], by decide⟩, ⟨[equals, space, 0x31, 0x32], by decide⟩] (by simp) (by decide) (by decide) pingError
  exact ⟨piecewise, atOnce, hp, ha, hiff.mpr (Or.inr (Or.inl (by decide)))⟩

/-- `= 12` delivered as `= 1` and `2`: the latency is lost. -/
theorem split_number_is_lost :
    (readDataFromPingProgram ⟨0, []⟩
      ([⟨[equals, space, 0x31], by decide⟩, ⟨[0x32], by decide⟩].map .delivered) pingError).result =
        some pingError ∧
    (parsePingOutput (bufferAt ⟨0, []⟩ (fill zeroed ⟨[equals, space, 0x31, 0x32], by decide⟩))).result =
      some 12 := by
  constructor
  · rw [readDataFromPingProgram, readLoop_result _ _ (by simp) (by decide)]
    decide
  · rw [parse_fill_result _ (by decide) (by decide)]
    decide

end Fopd.PingPipe
