import Guion.Settings
import Guion.Proofs.Layout

/-!
# Integer literals

A run of digits is read as the number it writes in base ten, unless it is longer than the digit
limit, and a natural number within the limit is written as a run of digits that reads back as it.
Whatever is read is within the limit, and so is every limit of nested calls.
-/

namespace Guion.Num

open Token (IsDigits)

theorem toNat_of_isDigit {c : Char} (h : c.isDigit = true) : 48 ≤ c.toNat ∧ c.toNat ≤ 57 := by
  simpa [Char.isDigit, UInt32.le_iff_toNat_le] using h

theorem isNumberBlank_of_isDigit {c : Char} (h : c.isDigit = true) :
    Text.isNumberBlank c = false := by
  obtain ⟨hl, hu⟩ := toNat_of_isDigit h
  simp only [Text.isNumberBlank, Text.inRanges, Text.numberBlanks, List.any_cons, List.any_nil,
    Bool.or_false, Bool.or_eq_false_iff, Bool.and_eq_false_iff, decide_eq_false_iff_not]
  omega

theorem digitValue?_of_isDigit {c : Char} (h : c.isDigit = true) :
    Text.digitValue? c = some (c.toNat - 48) := by
  obtain ⟨hl, hu⟩ := toNat_of_isDigit h
  rw [Text.digitValue?, Text.digitZeros, List.find?_cons_of_pos]
  · rfl
  · simp only [Bool.and_eq_true, decide_eq_true_eq]
    omega

theorem trimBy_of_isDigits {cs : List Char} (h : IsDigits cs) :
    Text.trimBy Text.isNumberBlank cs = cs := by
  have keep : ∀ ds : List Char, (∀ c ∈ ds, c.isDigit = true) →
      ds.dropWhile Text.isNumberBlank = ds := by
    intro ds hd
    cases ds with
    | nil => rfl
    | cons d ds =>
      refine List.dropWhile_cons_of_neg ?_
      simp [isNumberBlank_of_isDigit (hd d List.mem_cons_self)]
  rw [Text.trimBy, keep cs h.2, keep _ (by simpa using h.2), List.reverse_reverse]

theorem literalDigits_of_isDigit (cs : List Char) : ∀ value count, (∀ c ∈ cs, c.isDigit = true) →
    literalDigits value count cs = some (Nat.ofDigitChars 10 cs value, count + cs.length) := by
  induction cs with
  | nil => intro value count _; rfl
  | cons c cs ih =>
    intro value count hd
    have hc : c.isDigit = true := hd c List.mem_cons_self
    rw [literalDigits]
    · rw [digitValue?_of_isDigit hc, Option.bind_some,
        ih _ _ fun d hd' => hd d (List.mem_cons_of_mem _ hd'), Nat.ofDigitChars_cons]
      simp only [List.length_cons, Option.some.injEq, Prod.mk.injEq]
      exact ⟨rfl, by omega⟩
    · rintro _ _ rfl
      cases hc

/-- A run of digits is read as its value if the digit limit admits it. -/
theorem readInt?_digits {s : String} (h : IsDigits s.toList) :
    readInt? s = if s.toList.length ≤ digitLimit then
      some (Nat.ofDigitChars 10 s.toList 0 : Int) else none := by
  rw [readInt?, trimBy_of_isDigits h]
  generalize s.toList = cs at h
  obtain ⟨hne, hd⟩ := h
  cases cs with
  | nil => exact absurd rfl hne
  | cons c cs =>
    have hc : c.isDigit = true := hd c List.mem_cons_self
    have hu : unsignedLiteral (c :: cs) = if (c :: cs).length ≤ digitLimit then
        some (Nat.ofDigitChars 10 (c :: cs) 0) else none := by
      simp only [unsignedLiteral, digitValue?_of_isDigit hc, Option.bind_some,
        literalDigits_of_isDigit cs _ _ fun d hd' => hd d (List.mem_cons_of_mem _ hd'),
        Nat.ofDigitChars_cons, List.length_cons, Nat.mul_zero, Nat.zero_add, Nat.add_comm 1]
      rfl
    rw [signedLiteral]
    · rw [hu]
      split <;> rfl
    · rintro _ ⟨⟩
      cases hc
    · rintro _ ⟨⟩
      cases hc

theorem ofDigitChars_lt {cs : List Char} (hd : ∀ c ∈ cs, c.isDigit = true) :
    ∀ value, Nat.ofDigitChars 10 cs value < (value + 1) * Nat.pow 10 cs.length := by
  induction cs with
  | nil =>
    intro value
    show value < (value + 1) * 1
    omega
  | cons c cs ih =>
    intro value
    obtain ⟨hl, hu⟩ := toNat_of_isDigit (hd c List.mem_cons_self)
    show Nat.ofDigitChars 10 (c :: cs) value < (value + 1) * (Nat.pow 10 cs.length * 10)
    rw [Nat.ofDigitChars_cons, Nat.mul_comm (Nat.pow 10 cs.length), ← Nat.mul_assoc]
    have hstep : 10 * value + (c.toNat - '0'.toNat) + 1 ≤ (value + 1) * 10 := by
      show 10 * value + (c.toNat - 48) + 1 ≤ (value + 1) * 10
      omega
    exact Nat.lt_of_lt_of_le (ih (fun d hd' => hd d (List.mem_cons_of_mem _ hd')) _)
      (Nat.mul_le_mul_right _ hstep)

theorem isDigits_natText (n : Nat) : IsDigits (natText n).toList := by
  rw [natText, String.toList_ofList]
  exact ⟨Nat.toDigits_ne_nil, fun c hc => Nat.isDigit_of_mem_toDigits (by omega) (by omega) hc⟩

theorem ofDigitChars_natText (n : Nat) : Nat.ofDigitChars 10 (natText n).toList 0 = n := by
  rw [natText, String.toList_ofList]
  exact Nat.ofDigitChars_ten_toDigits

theorem length_natText_le_iff {k : Nat} (hk : 0 < k) (n : Nat) :
    (natText n).toList.length ≤ k ↔ n < Nat.pow 10 k := by
  rw [natText, String.toList_ofList, Nat.pow_eq]
  exact Nat.length_toDigits_le_iff (by omega) hk

theorem intText_natCast {n : Nat} (h : n < Nat.pow 10 digitLimit) :
    intText n = .ok (natText n) := by
  have hdigits : intDigits n = natText n := by
    rw [intDigits, if_neg (by omega), Int.natAbs_natCast]
  rw [intText, Int.natAbs_natCast, if_pos h, hdigits]

/-! ## The digit limit -/

theorem digitValue?_lt {c : Char} {d : Nat} (h : Text.digitValue? c = some d) : d < 10 := by
  obtain ⟨z, hz, rfl⟩ := Option.map_eq_some_iff.1 h
  have hrange := List.find?_some hz
  simp only [Bool.and_eq_true, decide_eq_true_eq] at hrange
  omega

/-- Digits are worth less than the power of ten that their count gives. -/
theorem literalDigits_lt {value count : Nat} {cs : List Char} {r : Nat × Nat}
    (h : literalDigits value count cs = some r) (hv : value < Nat.pow 10 count) :
    r.1 < Nat.pow 10 r.2 := by
  have next {value count d : Nat} (hv : value < Nat.pow 10 count) (hd : d < 10) :
      10 * value + d < Nat.pow 10 (count + 1) := by
    show 10 * value + d < Nat.pow 10 count * 10
    omega
  fun_induction literalDigits value count cs with
  | case1 value count =>
    cases h
    exact hv
  | case2 value count c cs ih =>
    obtain ⟨d, hd, h⟩ := Option.bind_eq_some_iff.1 h
    exact ih d h (next hv (digitValue?_lt hd))
  | case3 value count c cs _ ih =>
    obtain ⟨d, hd, h⟩ := Option.bind_eq_some_iff.1 h
    exact ih d h (next hv (digitValue?_lt hd))

theorem unsignedLiteral_lt {cs : List Char} {n : Nat} (h : unsignedLiteral cs = some n) :
    n < Nat.pow 10 digitLimit := by
  cases cs with
  | nil => cases h
  | cons c cs =>
    obtain ⟨d, hd, h⟩ := Option.bind_eq_some_iff.1 h
    obtain ⟨r, hr, h⟩ := Option.bind_eq_some_iff.1 h
    obtain ⟨hle, h⟩ := Option.ite_none_right_eq_some.1 h
    cases h
    have hlt := literalDigits_lt hr (digitValue?_lt hd)
    generalize digitLimit = limit at hle ⊢
    exact Nat.lt_of_lt_of_le hlt (Nat.pow_le_pow_right (Nat.succ_pos 9) hle)

theorem signedLiteral_lt {cs : List Char} {i : Int} (h : signedLiteral cs = some i) :
    i.natAbs < Nat.pow 10 digitLimit := by
  have unsigned {sign : Int → Int} {ds : List Char}
      (h : ((unsignedLiteral ds).bind fun n => some (n : Int)).map sign = some i) :
      ∃ n : Nat, n < Nat.pow 10 digitLimit ∧ sign n = i := by
    obtain ⟨_, hread, hi⟩ := Option.map_eq_some_iff.1 h
    obtain ⟨n, hn, hsome⟩ := Option.bind_eq_some_iff.1 hread
    cases hsome
    exact ⟨n, unsignedLiteral_lt hn, hi⟩
  unfold signedLiteral at h
  split at h
  · obtain ⟨n, hn, rfl⟩ := unsigned h
    rwa [Int.natAbs_neg]
  · obtain ⟨n, hn, rfl⟩ := unsigned h
    exact hn
  · obtain ⟨n, hn, rfl⟩ := unsigned h
    exact hn

end Guion.Num

namespace Guion.Settings

theorem depthLimit_pos (settings : Settings) : 0 < settings.depthLimit := by
  fun_cases depthLimit settings with
  | case1 depth _ hpos => exact Int.pos_iff_toNat_pos.1 hpos
  | case2 => exact Nat.zero_lt_succ _
  | case3 => exact Nat.zero_lt_succ _

theorem depthLimit_lt (settings : Settings) : settings.depthLimit < Nat.pow 10 Num.digitLimit := by
  have hdefault : defaultMaxDepth < Nat.pow 10 Num.digitLimit := by decide +kernel
  fun_cases depthLimit settings with
  | case1 depth hdepth hpos =>
    obtain ⟨text, -, hread⟩ := Option.bind_eq_some_iff.1 hdepth
    have hlt := Num.signedLiteral_lt hread
    rwa [← Int.natAbs_of_nonneg (Int.le_of_lt hpos)]
  | case2 => exact hdefault
  | case3 => exact hdefault

end Guion.Settings
