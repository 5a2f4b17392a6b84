import Mathlib.Data.List.Chain
import Guion.Proofs.Layout

/-!
# Tokens and the blanks between them

A text is blanks and then its tokens, each with the blanks that follow it.  How many blanks there
are makes no difference, except that two tokens which would run together have at least one between
them: a number goes on in a number, and a word in a word or a number.  A number does not go on in a
word, and no operator goes on in anything.

    scan s = .ok ts ↔ `s` is some tokens with blanks, and `ts` are these tokens and the end
                                                                        (scan_eq_ok_iff_spaced)
-/

namespace Guion.Token

/-! ## Texts with blanks -/

/-- A token and the blanks that follow it. -/
structure Spaced where
  token : Token
  blanks : List Char

/-- The kinds of identifiers and keywords. -/
def wordKinds : List Kind := [.identifier, .define, .constant, .function, .when, .otherwise]

/-- The first token would go on in the second. -/
def Fuses (t u : Token) : Prop :=
  t.kind = .number ∧ u.kind = .number ∨ t.kind ∈ wordKinds ∧ (u.kind ∈ wordKinds ∨ u.kind = .number)

/-- The text of tokens with the blanks in front of the first one. -/
def spacedText (lead : List Char) : List Spaced → List Char
  | [] => lead
  | p :: rest => lead ++ (p.token.text.toList ++ spacedText p.blanks rest)

/-- Only blanks stand around the tokens, and no two tokens run together. -/
structure WellSpaced (lead : List Char) (parts : List Spaced) : Prop where
  lead : ∀ c ∈ lead, isSpace c = true
  blanks : ∀ p ∈ parts, ∀ c ∈ p.blanks, isSpace c = true
  apart : parts.IsChain fun p q => Fuses p.token q.token → p.blanks ≠ []

theorem WellSpaced.cons_iff {lead : List Char} {p : Spaced} {rest : List Spaced} :
    WellSpaced lead (p :: rest) ↔ (∀ c ∈ lead, isSpace c = true) ∧
      (∀ q ∈ rest.head?, Fuses p.token q.token → p.blanks ≠ []) ∧ WellSpaced p.blanks rest := by
  constructor
  · rintro ⟨hlead, hblanks, hapart⟩
    obtain ⟨hp, hrest⟩ := List.forall_mem_cons.1 hblanks
    obtain ⟨hnext, htail⟩ := List.isChain_cons.1 hapart
    exact ⟨hlead, hnext, hp, hrest, htail⟩
  · rintro ⟨hlead, hnext, hp, hrest, htail⟩
    exact ⟨hlead, List.forall_mem_cons.2 ⟨hp, hrest⟩, List.isChain_cons.2 ⟨hnext, htail⟩⟩

/-! ## First characters -/

theorem kind_of_single? {c : Char} {kind : Kind} (h : single? c = some kind) :
    kind ∉ wordKinds := by
  unfold single? at h
  split at h <;> cases h <;> decide

theorem not_isWordChar_of_single? {c : Char} {kind : Kind} (h : single? c = some kind) :
    isWordChar c = false := by
  cases hw : isWordChar c with
  | false => rfl
  | true => rw [single?_of_isWordChar hw] at h; cases h

/-- The first character of a token tells numbers, words and single characters apart. -/
theorem WellFormed.head {t : Token} (h : t.WellFormed) : ∃ c cs, t.text.toList = c :: cs ∧
    (c.isDigit = true ↔ t.kind = .number) ∧
    (isWordChar c = true ↔ t.kind ∈ wordKinds ∨ t.kind = .number) := by
  cases h with
  | @number cs hd =>
    obtain ⟨hne, hall⟩ := hd
    cases cs with
    | nil => exact absurd rfl hne
    | cons c cs =>
      have hc : c.isDigit = true := hall c List.mem_cons_self
      exact ⟨c, cs, String.toList_ofList, by simp [hc], by simp [isWordChar_of_isDigit hc]⟩
  | @word cs hw =>
    obtain ⟨⟨c, hc, hdigit⟩, hall⟩ := hw
    cases cs with
    | nil => cases hc
    | cons d ds =>
      obtain rfl : d = c := by simpa using hc
      have hkind : (ofWord (String.ofList (d :: ds))).kind ∈ wordKinds := kind_ofWord _
      have hnumber : (ofWord (String.ofList (d :: ds))).kind ≠ .number := by
        intro e
        rw [e] at hkind
        exact absurd hkind (by decide)
      have hchar : isWordChar d = true := hall d List.mem_cons_self
      exact ⟨d, ds, String.toList_ofList, iff_of_false (by simp [hdigit]) hnumber,
        iff_of_true hchar (.inl hkind)⟩
  | @single c kind hs =>
    have hchar := not_isWordChar_of_single? hs
    exact ⟨c, [], by simp [Char.toString], by
      simp [isDigit_of_not_isWordChar hchar, (single?_eq_some hs).1],
      by simp [hchar, kind_of_single? hs, (single?_eq_some hs).1]⟩

/-- What follows a token goes on with it only if a token follows at once. -/
theorem notBefore_spacedText_iff {p : Char → Bool} {lead : List Char} {parts : List Spaced}
    (hp : ∀ c, isSpace c = true → p c = false) (hlead : ∀ c ∈ lead, isSpace c = true)
    (hwf : ∀ q ∈ parts, q.token.WellFormed) : NotBefore p (spacedText lead parts) ↔
      ∀ q ∈ parts.head?, (∃ c ∈ q.token.text.toList.head?, p c = true) → lead ≠ [] := by
  cases lead with
  | cons c lead =>
    have hblank : p c = false := hp c (hlead c List.mem_cons_self)
    have hcons : ∃ cs, spacedText (c :: lead) parts = c :: cs := by
      cases parts with
      | nil => exact ⟨lead, rfl⟩
      | cons q rest => exact ⟨_, rfl⟩
    obtain ⟨cs, e⟩ := hcons
    rw [e, notBefore_cons]
    simp [hblank]
  | nil =>
    cases parts with
    | nil => simp [spacedText, notBefore_nil]
    | cons q rest =>
      obtain ⟨c, cs, e, -, -⟩ := (hwf q List.mem_cons_self).head
      simp [spacedText, e, notBefore_cons]

/-! ## Layouts -/

theorem Layout.after_blanks {ts : List Token} {cs lead : List Char} (h : Layout ts cs)
    (hlead : ∀ c ∈ lead, isSpace c = true) : Layout ts (lead ++ cs) := by
  induction lead with
  | nil => exact h
  | cons c lead ih =>
    exact .blank (hlead c List.mem_cons_self) (ih fun d hd => hlead d (List.mem_cons_of_mem _ hd))

theorem not_isDigit_of_isSpace (c : Char) (h : isSpace c = true) : c.isDigit = false :=
  isDigit_of_not_isWordChar (isWordChar_of_isSpace h)

/-- Behind a number no digit follows exactly if a number that follows stands apart. -/
theorem notBefore_isDigit_iff {t : Token} {lead : List Char} {parts : List Spaced}
    (ht : t.kind = .number) (hlead : ∀ c ∈ lead, isSpace c = true)
    (hwf : ∀ q ∈ parts, q.token.WellFormed) : NotBefore Char.isDigit (spacedText lead parts) ↔
      ∀ q ∈ parts.head?, Fuses t q.token → lead ≠ [] := by
  rw [notBefore_spacedText_iff not_isDigit_of_isSpace hlead hwf]
  refine forall₂_congr fun q hq => imp_congr_left ?_
  obtain ⟨c, cs, e, hdigit, -⟩ := (hwf q (List.mem_of_mem_head? hq)).head
  have hword : Kind.number ∉ wordKinds := by decide
  simp [e, hdigit, Fuses, ht, hword]

/-- Behind a word no word character follows exactly if a word or number that follows stands
apart. -/
theorem notBefore_isWordChar_iff {t : Token} {lead : List Char} {parts : List Spaced}
    (ht : t.kind ∈ wordKinds) (hlead : ∀ c ∈ lead, isSpace c = true)
    (hwf : ∀ q ∈ parts, q.token.WellFormed) : NotBefore isWordChar (spacedText lead parts) ↔
      ∀ q ∈ parts.head?, Fuses t q.token → lead ≠ [] := by
  rw [notBefore_spacedText_iff (fun c => isWordChar_of_isSpace) hlead hwf]
  refine forall₂_congr fun q hq => imp_congr_left ?_
  obtain ⟨c, cs, e, -, hword⟩ := (hwf q (List.mem_of_mem_head? hq)).head
  have hnumber : t.kind ≠ .number := by
    intro e
    rw [e] at ht
    exact absurd ht (by decide)
  simp [e, hword, Fuses, ht, hnumber]

/-- Well-formed tokens with enough blanks are a layout. -/
theorem layout_of_wellSpaced (parts : List Spaced) : ∀ lead, WellSpaced lead parts →
    (∀ p ∈ parts, p.token.WellFormed) →
      Layout (parts.map Spaced.token) (spacedText lead parts) := by
  induction parts with
  | nil =>
    intro lead h _
    simpa [spacedText] using Layout.nil.after_blanks h.lead
  | cons p rest ih =>
    intro lead h hall
    obtain ⟨hlead, hapart, hrest⟩ := WellSpaced.cons_iff.1 h
    obtain ⟨hp, hwf⟩ := List.forall_mem_cons.1 hall
    refine Layout.after_blanks ?_ hlead
    have hlayout := ih p.blanks hrest hwf
    obtain ⟨t, blanks⟩ := p
    cases hp with
    | @number cs hd =>
      have hstop := (notBefore_isDigit_iff rfl hrest.lead hwf).2 hapart
      simpa using Layout.number hd hstop hlayout
    | @word cs hw =>
      have hstop := (notBefore_isWordChar_iff (kind_ofWord _) hrest.lead hwf).2 hapart
      simpa [ofWord] using Layout.word hw hstop hlayout
    | single hs => simpa [Char.toString] using Layout.single hs hlayout

/-- Every layout is well-formed tokens with enough blanks. -/
theorem Layout.exists_wellSpaced {ts : List Token} {cs : List Char} (h : Layout ts cs) :
    ∃ lead parts, cs = spacedText lead parts ∧ WellSpaced lead parts ∧
      (∀ p ∈ parts, p.token.WellFormed) ∧ ts = parts.map Spaced.token := by
  -- a token goes in front with the blanks that led the rest
  have push : ∀ {t : Token} {lead : List Char} {parts : List Spaced}, t.WellFormed →
      WellSpaced lead parts → (∀ p ∈ parts, p.token.WellFormed) →
      (∀ q ∈ parts.head?, Fuses t q.token → lead ≠ []) →
      ∃ lead' parts', t.text.toList ++ spacedText lead parts = spacedText lead' parts' ∧
        WellSpaced lead' parts' ∧ (∀ p ∈ parts', p.token.WellFormed) ∧
        t :: parts.map Spaced.token = parts'.map Spaced.token := by
    intro t lead parts ht hspaced hwf hapart
    refine ⟨[], ⟨t, lead⟩ :: parts, rfl, WellSpaced.cons_iff.2 ⟨nofun, hapart, hspaced⟩, ?_, rfl⟩
    exact List.forall_mem_cons.2 ⟨ht, hwf⟩
  induction h with
  | nil => exact ⟨[], [], rfl, ⟨nofun, nofun, .nil⟩, nofun, rfl⟩
  | @blank ts c cs hc _ ih =>
    obtain ⟨lead, parts, rfl, hspaced, hwf, rfl⟩ := ih
    refine ⟨c :: lead, parts, ?_, ⟨?_, hspaced.blanks, hspaced.apart⟩, hwf, rfl⟩
    · cases parts <;> rfl
    · exact List.forall_mem_cons.2 ⟨hc, hspaced.lead⟩
  | @number ts digits cs hd hn _ ih =>
    obtain ⟨lead, parts, rfl, hspaced, hwf, rfl⟩ := ih
    have hapart := (notBefore_isDigit_iff (t := ⟨.number, String.ofList digits⟩) rfl hspaced.lead
      hwf).1 hn
    simpa using push (.number hd) hspaced hwf hapart
  | @word ts word cs hw hn _ ih =>
    obtain ⟨lead, parts, rfl, hspaced, hwf, rfl⟩ := ih
    have hapart := (notBefore_isWordChar_iff (kind_ofWord (String.ofList word)) hspaced.lead
      hwf).1 hn
    simpa [ofWord] using push (.word hw) hspaced hwf hapart
  | @single ts c cs kind hs _ ih =>
    obtain ⟨lead, parts, rfl, hspaced, hwf, rfl⟩ := ih
    -- a single character goes on in nothing
    have hapart : ∀ q ∈ parts.head?, Fuses ⟨kind, c.toString⟩ q.token → lead ≠ [] := by
      rintro q - (⟨hk, -⟩ | ⟨hk, -⟩)
      · exact absurd hk (single?_eq_some hs).1
      · exact absurd hk (kind_of_single? hs)
    simpa [Char.toString] using push (.single hs) hspaced hwf hapart

/-- A scan succeeds exactly on texts of well-formed tokens with blanks around and between them where
no two tokens run together, and it gives these tokens and the end. -/
theorem scan_eq_ok_iff_spaced (s : String) (ts : List Token) :
    scan s = .ok ts ↔ ∃ lead parts, s.toList = spacedText lead parts ∧ WellSpaced lead parts ∧
      (∀ p ∈ parts, p.token.WellFormed) ∧ ts = parts.map Spaced.token ++ [eof] := by
  rw [scan_eq_ok_iff]
  constructor
  · rintro ⟨us, rfl, hlayout⟩
    obtain ⟨lead, parts, htext, hspaced, hwf, rfl⟩ := hlayout.exists_wellSpaced
    exact ⟨lead, parts, htext, hspaced, hwf, rfl⟩
  · rintro ⟨lead, parts, htext, hspaced, hwf, rfl⟩
    refine ⟨parts.map Spaced.token, rfl, ?_⟩
    rw [htext]
    exact layout_of_wellSpaced parts lead hspaced hwf

end Guion.Token
