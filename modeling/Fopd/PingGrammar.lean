import Fopd.Ping

namespace Fopd.PingGrammar

open Lib.Checked Lib.CString Ping

/-- The text has a `=` before its last space and behind it a numeral of some kind. -/
def EndsIn (P : Numeral → Prop) (t : List UInt8) : Prop :=
  ∃ pre num, t = pre ++ equals :: space :: num.text ∧ space ∉ num.text ∧ num.Valid ∧ P num

def Plain (num : Numeral) : Prop :=
  num.blanks = [] ∧ num.sign = [] ∧ 1 ≤ decimal num.digits ∧ decimal num.digits ≤ 2 ^ 31 - 1

instance : DecidablePred Plain := fun _ => inferInstanceAs (Decidable (_ ∧ _))

def PingText (t : List UInt8) (n : Nat) : Prop := EndsIn (fun num => Plain num ∧ decimal num.digits = n) t

/-- A number that does not come out as `PING_ERROR`. -/
def Shows (num : Numeral) : Prop :=
  1 ≤ decimal num.digits ∧ (num.sign = [minus] ∨ decimal num.digits ≠ 9999)

instance : DecidablePred Shows := fun _ => inferInstanceAs (Decidable (_ ∧ _))

/-- `strtol` takes a numeral that the grammar does not have: it skips white space, reads a sign, and
saturates. -/
def Slips (t : List UInt8) : Prop := EndsIn (fun num => ¬ Plain num ∧ Shows num) t

def FollowsGrammar (t : List UInt8) (lastPing : UInt32) : Prop :=
  (∀ n, PingText t n → lastPing.toNat = n) ∧ ((∀ n, ¬ PingText t n) → lastPing = pingError)

theorem digits_ne_nil {ds : List UInt8} (h : 1 ≤ decimal ds) : ds ≠ [] := by
  rintro rfl
  exact absurd h (by decide)

section EndsIn

variable {P : Numeral → Prop} {t pre post : List UInt8}

theorem not_endsIn (h : space ∉ t) : ¬ EndsIn P t := by
  rintro ⟨pre, num, rfl, -⟩
  exact h (by simp)

theorem endsIn_iff (hP : ∀ num, P num → 1 ≤ decimal num.digits) (hpost : space ∉ post) :
    EndsIn P (pre ++ space :: post) ↔ pre.getLast? = some equals ∧ P (scan post) := by
  constructor
  · rintro ⟨pre', num, ht, hs, hv, hp⟩
    have hsplit : pre ++ space :: post = (pre' ++ [equals]) ++ space :: num.text := by
      rw [ht, List.append_assoc, List.singleton_append]
    have he := congrArg (splitLast space) hsplit
    rw [splitLast_of_split hpost, splitLast_of_split hs] at he
    obtain ⟨rfl, rfl⟩ := Prod.mk.inj (Option.some.inj he)
    rw [scan_text hv (digits_ne_nil (hP num hp))]
    exact ⟨List.getLast?_concat, hp⟩
  · rintro ⟨he, hp⟩
    obtain ⟨pre', rfl⟩ := List.getLast?_eq_some_iff.mp he
    refine ⟨pre', scan post, ?_, ?_, valid_scan post, hp⟩
    · rw [text_scan, List.append_assoc, List.singleton_append]
    · rwa [text_scan]

end EndsIn

section Values

variable (num : Numeral)

theorem toPing_value_eq_error_iff : toPing num.value = pingError ↔ ¬ Shows num := by
  rw [Numeral.value, Shows]
  rcases Nat.eq_zero_or_pos (decimal num.digits) with h0 | hpos
  · rw [h0, toPing_zero]
    simp
  · rw [← UInt32.toNat_inj]
    have he : pingError.toNat = 9999 := rfl
    by_cases hm : num.sign = [minus]
    · rw [decide_eq_true hm, toNat_toPing_neg hpos, he]
      simp only [hm, true_or, and_true]
      omega
    · rw [decide_eq_false hm, toNat_toPing_pos hpos, he]
      simp only [hm, false_or]
      omega

variable {num}

theorem toNat_toPing_of_plain (h : Plain num) : (toPing num.value).toNat = decimal num.digits := by
  obtain ⟨-, hs, h1, hle⟩ := h
  have hm : num.sign ≠ [minus] := by simp [hs]
  rw [Numeral.value, decide_eq_false hm, toNat_toPing_pos h1]
  omega

end Values

/-- With a `=` before the last space, what follows it decides. -/
theorem followsGrammar_iff {t : List UInt8} {num : Numeral}
    (h : ∀ P : Numeral → Prop, (∀ num, P num → 1 ≤ decimal num.digits) → (EndsIn P t ↔ P num)) :
    FollowsGrammar t (toPing num.value) ↔ ¬ Slips t := by
  have hping (n : Nat) : PingText t n ↔ Plain num ∧ decimal num.digits = n :=
    h _ fun num hp => hp.1.2.2.1
  have hslips : Slips t ↔ ¬ Plain num ∧ Shows num := h _ fun num hp => hp.2.1
  rw [FollowsGrammar, hslips]
  simp only [hping, toPing_value_eq_error_iff]
  by_cases hp : Plain num
  · have hv := toNat_toPing_of_plain hp
    simp [hp, hv]
  · simp [hp]

theorem parsed_followsGrammar_iff (before : UInt8) {t : List UInt8}
    (hfirst : ¬ LastSpaceFirst t) : FollowsGrammar t (parsed before t) ↔ ¬ Slips t := by
  cases hs : splitLast space t with
  | none =>
      have hn := splitLast_eq_none_iff.mp hs
      rw [parsed_of_not_mem hn]
      exact iff_of_true ⟨fun n hp => absurd hp (not_endsIn hn), fun _ => rfl⟩ (not_endsIn hn)
  | some p =>
      obtain ⟨pre, post⟩ := p
      obtain ⟨rfl, hpost⟩ := split_of_splitLast hs
      have hpre : pre ≠ [] := by
        rintro rfl
        exact hfirst ⟨post, rfl, hpost⟩
      obtain ⟨us, u, rfl⟩ := (List.eq_nil_or_concat' pre).resolve_left hpre
      rw [parsed_of_split hpost, List.getLastD_concat]
      by_cases hu : u = equals
      · rw [if_pos hu]
        apply followsGrammar_iff
        intro P hP
        rw [endsIn_iff hP hpost, List.getLast?_concat, hu]
        simp
      · have hne : ∀ P : Numeral → Prop, (∀ num, P num → 1 ≤ decimal num.digits) →
            ¬ EndsIn P (us ++ [u] ++ space :: post) := by
          intro P hP he
          rw [endsIn_iff hP hpost, List.getLast?_concat] at he
          exact hu (Option.some.inj he.1)
        rw [if_neg hu]
        exact iff_of_true ⟨fun n hp => absurd hp (hne _ fun num hp => hp.1.2.2.1), fun _ => rfl⟩
          (hne _ fun num hp => hp.2.1)

/-- What `parsePingOutput` makes of a text whose last space is not its first byte is what the grammar
says, unless `strtol` reads a number that is not in the grammar. -/
theorem parsePingOutput_followsGrammar_iff (before : UInt8) (t m : List UInt8) (h0 : 0 ∉ t)
    (hfirst : ¬ LastSpaceFirst t) :
    ∃ lastPing, (parsePingOutput ⟨before, t ++ 0 :: m⟩).result = some lastPing ∧
      (FollowsGrammar t lastPing ↔ ¬ Slips t) :=
  ⟨parsed before t, parse_result before h0 m, parsed_followsGrammar_iff before hfirst⟩

/-- On `= 12ms`. -/
theorem parsePingOutput_followsGrammar_iff_twelve : ∃ lastPing,
    (parsePingOutput ⟨0, [equals, space, 0x31, 0x32, 0x6D, 0x73] ++ 0 :: []⟩).result = some lastPing ∧
      lastPing = 12 ∧ (FollowsGrammar [equals, space, 0x31, 0x32, 0x6D, 0x73] lastPing ↔
        ¬ Slips [equals, space, 0x31, 0x32, 0x6D, 0x73]) := by
  obtain ⟨lastPing, hr, hiff⟩ := parsePingOutput_followsGrammar_iff 0 [equals, space, 0x31, 0x32, 0x6D, 0x73] []
    (by decide) fun ⟨_, h, _⟩ => absurd (List.cons.inj h).1 (by decide)
  refine ⟨lastPing, hr, ?_, hiff⟩
  have hv : (parsePingOutput ⟨0, [equals, space, 0x31, 0x32, 0x6D, 0x73] ++ 0 :: []⟩).result = some 12 := by
    decide
  exact Option.some.inj (hr.symm.trans hv)

/-- On `= -1` the latency becomes 4294967295. -/
theorem sign_slips : ∃ lastPing,
    (parsePingOutput ⟨0, [equals, space, minus, 0x31] ++ 0 :: []⟩).result = some lastPing ∧
      lastPing = 4294967295 ∧ (∀ n, ¬ PingText [equals, space, minus, 0x31] n) ∧
      ¬ FollowsGrammar [equals, space, minus, 0x31] lastPing := by
  have hp (n : Nat) : ¬ PingText [equals, space, minus, 0x31] n := by
    intro h
    have hiff : EndsIn (fun num => Plain num ∧ decimal num.digits = n) ([equals] ++ space :: [minus, 0x31]) ↔ _ :=
      endsIn_iff (fun num hp => hp.1.2.2.1) (by decide)
    exact absurd (hiff.mp h).2.1 (by decide)
  refine ⟨4294967295, by decide, rfl, hp, fun h => ?_⟩
  exact absurd (h.2 hp) (by decide)

end Fopd.PingGrammar
