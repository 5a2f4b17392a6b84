import Mathlib.Data.List.DropRight
import Guion.Proofs.Layout

/-!
# Characters outside the alphabet

The alphabet is the characters that are tokens by themselves, those of words and numbers, and the
blanks.  A scan goes on at every character of the alphabet, whatever run it is in the middle of, and
stops at the first other one.  The place that it has kept count of is then the place of that
character: a line for each line feed before it, and a column for each character behind the last of
these.

    (∃ fault, scan s = .error fault) ↔ ∃ c ∈ s.toList, inAlphabet c = false
                                                                      (scan_eq_error_iff)
-/

namespace Guion.Token

/-- The characters that texts are made of. -/
def inAlphabet (c : Char) : Bool := (single? c).isSome || isWordChar c || isSpace c

/-! ## One character -/

theorem inAlphabet_of_isWordChar {c : Char} (h : isWordChar c = true) : inAlphabet c = true := by
  simp [inAlphabet, h]

theorem inAlphabet_of_extend? {pending longer : Pending} {c : Char}
    (h : pending.extend? c = some longer) : inAlphabet c = true := by
  cases pending with
  | none => cases h
  | number cs =>
    obtain ⟨hc, -⟩ := Option.ite_none_right_eq_some.1 h
    exact inAlphabet_of_isWordChar (isWordChar_of_isDigit hc)
  | word cs =>
    obtain ⟨hc, -⟩ := Option.ite_none_right_eq_some.1 h
    exact inAlphabet_of_isWordChar hc

theorem opened?_eq_none_iff (c : Char) : Pending.opened? c = none ↔ isWordChar c = false := by
  constructor
  · intro h
    cases hw : isWordChar c with
    | false => rfl
    | true => cases hd : c.isDigit <;> simp [Pending.opened?, hd, hw] at h
  · exact opened?_of_not_isWordChar

/-- A character of the alphabet is read, and the scan goes on behind it. -/
theorem scanFrom_cons_of_inAlphabet {c : Char} (hc : inAlphabet c = true) (pending : Pending)
    (place : Place) (cs : List Char) : ∃ (next : Pending) (emit : List Token → List Token),
      scanFrom pending place (c :: cs) = (scanFrom next (place.after c) cs).map emit := by
  rw [scanFrom]
  split
  · next longer _ =>
    refine ⟨longer, id, ?_⟩
    cases scanFrom longer (place.after c) cs <;> rfl
  · split
    · exact ⟨.none, _, rfl⟩
    · next fresh _ _ => exact ⟨fresh, _, rfl⟩
    · next hs ho =>
      have hword : isWordChar c = false := (opened?_eq_none_iff c).1 ho
      have hspace : isSpace c = true := by simpa [inAlphabet, hs, hword] using hc
      rw [if_pos hspace]
      exact ⟨.none, _, rfl⟩

/-- At any other character the scan stops. -/
theorem scanFrom_cons_of_not_inAlphabet {c : Char} (hc : inAlphabet c = false) (pending : Pending)
    (place : Place) (cs : List Char) : scanFrom pending place (c :: cs) = .error ⟨c, place⟩ := by
  have hextend : pending.extend? c = none := by
    cases h : pending.extend? c with
    | none => rfl
    | some longer => rw [inAlphabet_of_extend? h] at hc; cases hc
  simp only [inAlphabet, Bool.or_eq_false_iff, Option.isSome_eq_false_iff,
    Option.isNone_iff_eq_none] at hc
  obtain ⟨⟨hsingle, hword⟩, hspace⟩ := hc
  simp [scanFrom, hextend, hsingle, opened?_of_not_isWordChar hword, hspace]

/-! ## A whole text -/

/-- The scan fails at the first character outside the alphabet and at no other one. -/
theorem scanFrom_eq_error_iff (cs : List Char) : ∀ (pending : Pending) (place : Place)
    (fault : Illegal), scanFrom pending place cs = .error fault ↔
      ∃ before after, cs = before ++ fault.char :: after ∧
        (∀ c ∈ before, inAlphabet c = true) ∧ inAlphabet fault.char = false ∧
        fault.place = before.foldl Place.after place := by
  induction cs with
  | nil =>
    intro pending place fault
    simp [scanFrom]
  | cons c cs ih =>
    intro pending place fault
    cases hc : inAlphabet c with
    | true =>
      obtain ⟨next, emit, e⟩ := scanFrom_cons_of_inAlphabet hc pending place cs
      have hmap : scanFrom pending place (c :: cs) = .error fault ↔
          scanFrom next (place.after c) cs = .error fault := by
        rw [e]
        cases scanFrom next (place.after c) cs <;> simp [Except.map]
      rw [hmap, ih next (place.after c) fault]
      constructor
      · rintro ⟨before, after, rfl, hbefore, hfault, hplace⟩
        exact ⟨c :: before, after, rfl, List.forall_mem_cons.2 ⟨hc, hbefore⟩, hfault, hplace⟩
      · rintro ⟨before, after, he, hbefore, hfault, hplace⟩
        cases before with
        | nil =>
          obtain ⟨rfl, -⟩ := List.cons.inj he
          rw [hc] at hfault
          cases hfault
        | cons d before =>
          obtain ⟨rfl, rfl⟩ := List.cons.inj he
          exact ⟨before, after, rfl, (List.forall_mem_cons.1 hbefore).2, hfault, hplace⟩
    | false =>
      rw [scanFrom_cons_of_not_inAlphabet hc]
      constructor
      · rintro ⟨⟩
        exact ⟨[], cs, rfl, List.forall_mem_nil _, hc, rfl⟩
      · rintro ⟨before, after, he, hbefore, hfault, hplace⟩
        cases before with
        | nil =>
          obtain ⟨rfl, -⟩ := List.cons.inj he
          rw [← show fault.place = place from hplace]
        | cons d before =>
          obtain ⟨rfl, -⟩ := List.cons.inj he
          rw [hbefore c List.mem_cons_self] at hc
          cases hc

/-- The place behind some characters from the start of a text. -/
theorem foldl_after_start (cs : List Char) :
    cs.foldl Place.after .start = ⟨1 + cs.count '\n', 1 + (cs.rtakeWhile (· ≠ '\n')).length⟩ := by
  induction cs using List.reverseRecOn with
  | nil => rfl
  | append_singleton cs c ih =>
    rw [List.foldl_append, ih, List.foldl_cons, List.foldl_nil, Place.after, List.count_append]
    by_cases hc : c = '\n'
    · rw [if_pos hc, List.rtakeWhile_concat_neg _ _ _ (by simp [hc])]
      simp [hc, Nat.add_assoc]
    · rw [if_neg hc, List.rtakeWhile_concat_pos _ _ _ (by simp [hc])]
      simp [hc, Nat.add_assoc]

/-- A scan fails exactly on texts with a character outside the alphabet, and the fault is then the
first such character, with a line for each line feed before it and a column for each character
between the last line feed before it, or the start of the text, and it. -/
theorem scan_eq_error_iff (s : String) :
    ((∃ fault, scan s = .error fault) ↔ ∃ c ∈ s.toList, inAlphabet c = false) ∧
      ∀ fault, scan s = .error fault ↔ ∃ before after, s.toList = before ++ fault.char :: after ∧
        (∀ c ∈ before, inAlphabet c = true) ∧ inAlphabet fault.char = false ∧
        fault.place.line = 1 + before.count '\n' ∧
        fault.place.column = 1 + (before.rtakeWhile (· ≠ '\n')).length := by
  have hfault : ∀ fault, scan s = .error fault ↔
      ∃ before after, s.toList = before ++ fault.char :: after ∧
        (∀ c ∈ before, inAlphabet c = true) ∧ inAlphabet fault.char = false ∧
        fault.place = before.foldl Place.after .start :=
    scanFrom_eq_error_iff s.toList .none .start
  refine ⟨⟨?_, ?_⟩, fun fault => ?_⟩
  · rintro ⟨fault, h⟩
    obtain ⟨before, after, he, -, hc, -⟩ := (hfault fault).1 h
    exact ⟨fault.char, by rw [he]; simp, hc⟩
  · rintro ⟨c, hmem, hc⟩
    obtain ⟨d, after, hd⟩ : ∃ d after, s.toList.dropWhile inAlphabet = d :: after := by
      refine List.exists_cons_of_ne_nil fun hnil => ?_
      rw [List.dropWhile_eq_nil_iff.1 hnil c hmem] at hc
      cases hc
    refine ⟨⟨d, _⟩, (hfault _).2 ⟨s.toList.takeWhile inAlphabet, after, ?_, ?_, ?_, rfl⟩⟩
    · rw [← hd, List.takeWhile_append_dropWhile]
    · intro c hc
      exact List.mem_takeWhile_imp hc
    · have := List.head?_dropWhile_not inAlphabet s.toList
      rw [hd] at this
      simpa using this
  · rw [hfault fault]
    obtain ⟨char, line, column⟩ := fault
    simp only [foldl_after_start, Place.mk.injEq]

end Guion.Token
