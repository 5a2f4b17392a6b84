import Guion.Text.Lines
import Guion.Token.Scan

/-!
# Tokens laid out as text

`Layout ts cs` says that the characters `cs` spell the tokens `ts` one after the other, with blanks
anywhere between them, and that no token could be read longer than it is.  Scanning is the inverse:

    scan s = .ok ts ↔ ∃ us, ts = us ++ [eof] ∧ Layout us s.toList      (scan_eq_ok_iff)
    Layout ts cs → Layout us ds → Meets cs ds → Layout (ts ++ us) (cs ++ ds)     (Layout.append)
-/

namespace Guion.Token

/-! ## Spelling -/

/-- A run of digits. -/
def IsDigits (cs : List Char) : Prop := cs ≠ [] ∧ ∀ c ∈ cs, c.isDigit = true

/-- A run of word characters that starts with no digit. -/
def IsWord (cs : List Char) : Prop :=
  (∃ c ∈ cs.head?, c.isDigit = false) ∧ ∀ c ∈ cs, isWordChar c = true

/-- The tokens of texts, the end apart. -/
inductive WellFormed : Token → Prop
  | number {cs : List Char} : IsDigits cs → WellFormed ⟨.number, String.ofList cs⟩
  | word {cs : List Char} : IsWord cs → WellFormed (ofWord (String.ofList cs))
  | single {c : Char} {kind : Kind} : single? c = some kind → WellFormed ⟨kind, c.toString⟩

/-- The characters do not start with one of the class `p`. -/
def NotBefore (p : Char → Bool) (cs : List Char) : Prop := ∀ c ∈ cs.head?, p c = false

inductive Layout : List Token → List Char → Prop
  | nil : Layout [] []
  | blank {ts : List Token} {c : Char} {cs : List Char} :
      isSpace c = true → Layout ts cs → Layout ts (c :: cs)
  | number {ts : List Token} {digits cs : List Char} :
      IsDigits digits → NotBefore Char.isDigit cs → Layout ts cs →
      Layout (⟨.number, String.ofList digits⟩ :: ts) (digits ++ cs)
  | word {ts : List Token} {word cs : List Char} :
      IsWord word → NotBefore isWordChar cs → Layout ts cs →
      Layout (ofWord (String.ofList word) :: ts) (word ++ cs)
  | single {ts : List Token} {c : Char} {cs : List Char} {kind : Kind} :
      single? c = some kind → Layout ts cs → Layout (⟨kind, c.toString⟩ :: ts) (c :: cs)

/-! ## Classes of characters -/

theorem isWordChar_of_isDigit {c : Char} (h : c.isDigit = true) : isWordChar c = true := by
  simp [isWordChar, Char.isAlphanum, h]

theorem single?_of_isWordChar {c : Char} (h : isWordChar c = true) : single? c = none := by
  unfold single?
  split <;> first | rfl | exact absurd h (by decide)

theorem eq_of_isSpace {c : Char} (h : isSpace c = true) :
    c = ' ' ∨ c = '\n' ∨ c = '\t' ∨ c = '\r' := by
  simpa [isSpace, or_assoc] using h

theorem isWordChar_of_isSpace {c : Char} (h : isSpace c = true) : isWordChar c = false := by
  rcases eq_of_isSpace h with rfl | rfl | rfl | rfl <;> decide

theorem single?_of_isSpace {c : Char} (h : isSpace c = true) : single? c = none := by
  rcases eq_of_isSpace h with rfl | rfl | rfl | rfl <;> rfl

theorem isDigit_of_not_isWordChar {c : Char} (h : isWordChar c = false) : c.isDigit = false := by
  cases hd : c.isDigit with
  | false => rfl
  | true => rw [isWordChar_of_isDigit hd] at h; cases h

theorem opened?_of_not_isWordChar {c : Char} (h : isWordChar c = false) :
    Pending.opened? c = none := by
  simp [Pending.opened?, isDigit_of_not_isWordChar h, h]

theorem notBefore_nil (p : Char → Bool) : NotBefore p [] := by
  intro c hc
  cases hc

theorem notBefore_cons {p : Char → Bool} {c : Char} {cs : List Char} :
    NotBefore p (c :: cs) ↔ p c = false := by
  constructor
  · intro h
    exact h c rfl
  · rintro h d hd
    cases hd
    exact h

/-! ## Kinds of tokens -/

theorem kind_ofWord (word : String) :
    (ofWord word).kind ∈ [Kind.identifier, .define, .constant, .function, .when, .otherwise] := by
  unfold ofWord keyword?
  split
  · simp
  split
  · simp
  split
  · simp
  split
  · simp
  split <;> simp

theorem keyword?_of_kind_ofWord {word : String} (h : (ofWord word).kind = .identifier) :
    keyword? word = none := by
  cases hw : keyword? word with
  | none => rfl
  | some kind =>
    have hk : kind = .identifier := by simpa [ofWord, hw] using h
    subst hk
    unfold keyword? at hw
    repeat' split at hw
    all_goals cases hw

theorem single?_eq_some {c : Char} {kind : Kind} (h : single? c = some kind) :
    kind ≠ .number ∧ kind ≠ .identifier ∧ kind ≠ .eof ∧
      (kind = .operator → c.toString ∈ ["+", "-", "*", "/", "%"]) := by
  unfold single? at h
  split at h <;> cases h <;> decide

theorem WellFormed.kind_ne_eof {t : Token} (h : t.WellFormed) : t.kind ≠ .eof := by
  cases h with
  | number _ => simp
  | @word cs _ =>
    intro e
    have hk := kind_ofWord (String.ofList cs)
    simp [e] at hk
  | single hk => exact (single?_eq_some hk).2.2.1

/-- Every number is a run of digits. -/
theorem WellFormed.isDigits {t : Token} (h : t.WellFormed) (hk : t.kind = .number) :
    IsDigits t.text.toList := by
  cases h with
  | @number cs hd => simpa using hd
  | @word cs _ => exact absurd (kind_ofWord (String.ofList cs)) (by simp [hk])
  | @single c kind hs => exact absurd hk (single?_eq_some hs).1

/-- Every operator is one of the five. -/
theorem WellFormed.operator {t : Token} (h : t.WellFormed) (hk : t.kind = .operator) :
    t.text ∈ ["+", "-", "*", "/", "%"] := by
  cases h with
  | number _ => cases hk
  | @word cs _ => exact absurd (kind_ofWord (String.ofList cs)) (by simp [hk])
  | @single c kind hs => exact (single?_eq_some hs).2.2.2 hk

/-! ## Scanning a layout -/

/-- A run that the next character does not extend is closed in front of the tokens that follow. -/
theorem scanFrom_of_not_extend {pending : Pending} {cs : List Char} (place : Place)
    (h : ∀ c ∈ cs.head?, pending.extend? c = none) :
    scanFrom pending place cs = (scanFrom .none place cs).map pending.close := by
  cases cs with
  | nil => rfl
  | cons c cs =>
    have hc : pending.extend? c = none := h c rfl
    have hn : Pending.none.extend? c = none := rfl
    simp only [scanFrom, hc, hn]
    split
    · cases scanFrom .none (place.after c) cs <;> rfl
    · next fresh _ _ =>
      cases scanFrom fresh (place.after c) cs <;> rfl
    · split
      · cases scanFrom .none (place.after c) cs <;> rfl
      · rfl

theorem scanFrom_number (digits : List Char) (hd : ∀ c ∈ digits, c.isDigit = true) :
    ∀ (read : List Char) (place : Place) (cs : List Char), ∃ place',
      scanFrom (.number read) place (digits ++ cs) =
        scanFrom (.number (digits.reverse ++ read)) place' cs := by
  induction digits with
  | nil => exact fun read place cs => ⟨place, rfl⟩
  | cons d ds ih =>
    intro read place cs
    have hd0 : d.isDigit = true := hd d List.mem_cons_self
    obtain ⟨place', e⟩ := ih (fun c hc => hd c (List.mem_cons_of_mem _ hc)) (d :: read)
      (place.after d) cs
    refine ⟨place', ?_⟩
    simp only [List.cons_append, scanFrom, Pending.extend?, hd0, if_true]
    simpa using e

theorem scanFrom_word (word : List Char) (hw : ∀ c ∈ word, isWordChar c = true) :
    ∀ (read : List Char) (place : Place) (cs : List Char), ∃ place',
      scanFrom (.word read) place (word ++ cs) =
        scanFrom (.word (word.reverse ++ read)) place' cs := by
  induction word with
  | nil => exact fun read place cs => ⟨place, rfl⟩
  | cons d ds ih =>
    intro read place cs
    have hd0 : isWordChar d = true := hw d List.mem_cons_self
    obtain ⟨place', e⟩ := ih (fun c hc => hw c (List.mem_cons_of_mem _ hc)) (d :: read)
      (place.after d) cs
    refine ⟨place', ?_⟩
    simp only [List.cons_append, scanFrom, Pending.extend?, hd0, if_true]
    simpa using e

theorem scanFrom_layout {ts : List Token} {cs : List Char} (h : Layout ts cs) (place : Place) :
    scanFrom .none place cs = .ok (ts ++ [eof]) := by
  induction h generalizing place with
  | nil => rfl
  | @blank ts c cs hc _ ih =>
    simp only [scanFrom, Pending.extend?, single?_of_isSpace hc,
      opened?_of_not_isWordChar (isWordChar_of_isSpace hc), hc, if_true, ih]
    rfl
  | @number ts digits cs hd hn _ ih =>
    obtain ⟨hne, hall⟩ := hd
    cases digits with
    | nil => exact absurd rfl hne
    | cons d ds =>
      have hd0 : d.isDigit = true := hall d List.mem_cons_self
      obtain ⟨place', e⟩ := scanFrom_number ds (fun c hc => hall c (List.mem_cons_of_mem _ hc))
        [d] (place.after d) cs
      have hstop : ∀ c ∈ cs.head?, (Pending.number (ds.reverse ++ [d])).extend? c = none := by
        intro c hc
        simp [Pending.extend?, hn c hc]
      simp only [List.cons_append, scanFrom, Pending.extend?,
        single?_of_isWordChar (isWordChar_of_isDigit hd0), Pending.opened?, hd0, if_true, e]
      rw [scanFrom_of_not_extend _ hstop, ih]
      simp [Except.map, Pending.close]
  | @word ts word cs hw hn _ ih =>
    obtain ⟨⟨d, hd, hdig⟩, hall⟩ := hw
    cases word with
    | nil => cases hd
    | cons d' ds =>
      obtain rfl : d' = d := by simpa using hd
      have hd0 : isWordChar d' = true := hall d' List.mem_cons_self
      obtain ⟨place', e⟩ := scanFrom_word ds (fun c hc => hall c (List.mem_cons_of_mem _ hc))
        [d'] (place.after d') cs
      have hstop : ∀ c ∈ cs.head?, (Pending.word (ds.reverse ++ [d'])).extend? c = none := by
        intro c hc
        simp [Pending.extend?, hn c hc]
      simp only [List.cons_append, scanFrom, Pending.extend?, single?_of_isWordChar hd0,
        Pending.opened?, hdig, hd0, if_true, Bool.false_eq_true, if_false, e]
      rw [scanFrom_of_not_extend _ hstop, ih]
      simp [Except.map, Pending.close]
  | single hk _ ih =>
    simp only [scanFrom, Pending.extend?, hk, ih]
    rfl

/-! ## The layout that a scan has read -/

namespace Pending

/-- The characters of the run. -/
def chars : Pending → List Char
  | .none => []
  | .number cs => cs.reverse
  | .word cs => cs.reverse

/-- The run is one that the scanner opens and extends. -/
def Valid : Pending → Prop
  | .none => True
  | .number cs => IsDigits cs.reverse
  | .word cs => IsWord cs.reverse

theorem extend?_eq_some {pending longer : Pending} {c : Char} (h : pending.extend? c = some longer)
    (hv : pending.Valid) : longer.Valid ∧ longer.chars = pending.chars ++ [c] := by
  cases pending with
  | none => cases h
  | number cs =>
    simp only [extend?, Option.ite_none_right_eq_some, Option.some.injEq] at h
    obtain ⟨hc, rfl⟩ := h
    refine ⟨⟨by simp, ?_⟩, by simp [chars]⟩
    intro d hd
    rw [List.reverse_cons, List.mem_append, List.mem_singleton] at hd
    rcases hd with hd | rfl
    · exact hv.2 d hd
    · exact hc
  | word cs =>
    simp only [extend?, Option.ite_none_right_eq_some, Option.some.injEq] at h
    obtain ⟨hc, rfl⟩ := h
    obtain ⟨⟨d, hd, hdig⟩, hall⟩ := hv
    refine ⟨⟨⟨d, ?_, hdig⟩, ?_⟩, by simp [chars]⟩
    · rw [List.reverse_cons, List.head?_append, hd]
      rfl
    · intro e he
      rw [List.reverse_cons, List.mem_append, List.mem_singleton] at he
      rcases he with he | rfl
      · exact hall e he
      · exact hc

theorem opened?_eq_some {fresh : Pending} {c : Char} (h : opened? c = some fresh) :
    fresh.Valid ∧ fresh.chars = [c] := by
  unfold opened? at h
  split at h
  · next hd =>
    cases h
    exact ⟨⟨by simp, by simpa using hd⟩, rfl⟩
  · next hd =>
    split at h
    · next hw =>
      cases h
      exact ⟨⟨⟨c, rfl, by simpa using hd⟩, by simpa using hw⟩, rfl⟩
    · cases h

/-- A finished run is a token of the layout. -/
theorem layout_close {pending : Pending} {ts : List Token} {cs : List Char} (hv : pending.Valid)
    (hstop : ∀ c ∈ cs.head?, pending.extend? c = Option.none) (h : Layout ts cs) :
    Layout (pending.close ts) (pending.chars ++ cs) := by
  cases pending with
  | none => exact h
  | number ds =>
    refine .number hv (fun c hc => ?_) h
    have := hstop c hc
    cases hd : c.isDigit <;> simp_all [extend?]
  | word ds =>
    refine .word hv (fun c hc => ?_) h
    have := hstop c hc
    cases hd : isWordChar c <;> simp_all [extend?]

theorem close_append (pending : Pending) (ts us : List Token) :
    pending.close (ts ++ us) = pending.close ts ++ us := by
  cases pending <;> rfl

end Pending

theorem layout_of_scanFrom (cs : List Char) : ∀ (pending : Pending) (place : Place)
    (ts : List Token), pending.Valid → scanFrom pending place cs = .ok ts →
      ∃ us, ts = us ++ [eof] ∧ Layout us (pending.chars ++ cs) := by
  induction cs with
  | nil =>
    intro pending place ts hv h
    cases h
    exact ⟨pending.close [], pending.close_append [] [eof],
      pending.layout_close hv (by simp) .nil⟩
  | cons c cs ih =>
    intro pending place ts hv h
    simp only [scanFrom] at h
    split at h
    · next longer he =>
      obtain ⟨hv', hch⟩ := Pending.extend?_eq_some he hv
      obtain ⟨us, e, hl⟩ := ih longer _ _ hv' h
      refine ⟨us, e, ?_⟩
      rwa [hch, List.append_assoc] at hl
    · next he =>
      have hstop : ∀ d ∈ (c :: cs).head?, pending.extend? d = none := by
        rintro d ⟨⟩
        exact he
      -- what the rest gives is closed behind the run
      have close : ∀ us, Layout us (c :: cs) → ∃ vs, pending.close (us ++ [eof]) = vs ++ [eof] ∧
          Layout vs (pending.chars ++ c :: cs) := fun us hl =>
        ⟨pending.close us, pending.close_append us [eof], Pending.layout_close hv hstop hl⟩
      split at h
      · next kind _ hk =>
        cases hr : scanFrom .none (place.after c) cs with
        | error f => rw [hr] at h; cases h
        | ok rs =>
          rw [hr] at h
          cases h
          obtain ⟨us, rfl, hl⟩ := ih .none _ _ trivial hr
          exact close _ (.single hk hl)
      · next fresh hk hf =>
        cases hr : scanFrom fresh (place.after c) cs with
        | error f => rw [hr] at h; cases h
        | ok rs =>
          rw [hr] at h
          cases h
          obtain ⟨hv', hch⟩ := Pending.opened?_eq_some hf
          obtain ⟨us, rfl, hl⟩ := ih fresh _ _ hv' hr
          rw [hch] at hl
          exact close _ hl
      · split at h
        · next hs =>
          cases hr : scanFrom .none (place.after c) cs with
          | error f => rw [hr] at h; cases h
          | ok rs =>
            rw [hr] at h
            cases h
            obtain ⟨us, rfl, hl⟩ := ih .none _ _ trivial hr
            exact close _ (.blank hs hl)
        · cases h

/-- A scan gives the tokens of the layout that the text is, and the end. -/
theorem scan_eq_ok_iff (s : String) (ts : List Token) :
    scan s = .ok ts ↔ ∃ us, ts = us ++ [eof] ∧ Layout us s.toList := by
  constructor
  · intro h
    exact layout_of_scanFrom s.toList .none .start ts trivial h
  · rintro ⟨us, rfl, hl⟩
    exact scanFrom_layout hl .start

/-! ## Putting layouts together -/

/-- No word or number of the first text goes on in the second. -/
def Meets (cs ds : List Char) : Prop :=
  ∀ c ∈ cs.getLast?, isWordChar c = true → NotBefore isWordChar ds

theorem meets_of_notBefore {cs ds : List Char} (h : NotBefore isWordChar ds) : Meets cs ds :=
  fun _ _ _ => h

theorem Meets.of_append (bs : List Char) {cs ds : List Char} (h : Meets (bs ++ cs) ds) :
    Meets cs ds := by
  intro c hc hw
  refine h c ?_ hw
  rw [List.getLast?_append, hc]
  rfl

/-- What follows a token of the first text still stands apart from it. -/
theorem notBefore_append {p : Char → Bool} {bs cs ds : List Char} (hp : ∀ c, p c → isWordChar c)
    (hne : bs ≠ []) (hw : ∀ c ∈ bs, isWordChar c = true) (hn : NotBefore p cs)
    (hm : Meets (bs ++ cs) ds) : NotBefore p (cs ++ ds) := by
  cases cs with
  | cons c cs => exact notBefore_cons.2 (notBefore_cons.1 hn)
  | nil =>
    intro d hd
    obtain ⟨c, hc⟩ : ∃ c, bs.getLast? = some c :=
      ⟨bs.getLast hne, List.getLast?_eq_some_getLast hne⟩
    have := hm c (by simpa using hc) (hw c (List.mem_of_getLast? hc)) d hd
    cases hpd : p d with
    | false => rfl
    | true => rw [hp d hpd] at this; cases this

theorem IsDigits.isWordChar {cs : List Char} (h : IsDigits cs) :
    ∀ c ∈ cs, Token.isWordChar c = true := fun c hc => isWordChar_of_isDigit (h.2 c hc)

theorem IsWord.ne_nil {cs : List Char} (h : IsWord cs) : cs ≠ [] := by
  rintro rfl
  obtain ⟨⟨c, hc, -⟩, -⟩ := h
  cases hc

theorem Layout.append {ts us : List Token} {cs ds : List Char} (h : Layout ts cs)
    (h' : Layout us ds) (hm : Meets cs ds) : Layout (ts ++ us) (cs ++ ds) := by
  induction h with
  | nil => exact h'
  | @blank ts c cs hc _ ih => exact .blank hc (ih (Meets.of_append [c] hm))
  | @number ts digits cs hd hn _ ih =>
    rw [List.append_assoc]
    exact .number hd (notBefore_append (fun _ => isWordChar_of_isDigit) hd.1 hd.isWordChar hn hm)
      (ih (hm.of_append _))
  | @word ts word cs hw hn _ ih =>
    rw [List.append_assoc]
    exact .word hw (notBefore_append (fun _ => id) hw.ne_nil hw.2 hn hm) (ih (hm.of_append _))
  | @single ts c cs kind hk _ ih => exact .single hk (ih (Meets.of_append [c] hm))

theorem Layout.wellFormed {ts : List Token} {cs : List Char} (h : Layout ts cs) :
    ∀ t ∈ ts, WellFormed t := by
  induction h with
  | nil => simp
  | blank _ _ ih => exact ih
  | number hd _ _ ih => simpa using ⟨.number hd, ih⟩
  | word hw _ _ ih => simpa using ⟨.word hw, ih⟩
  | single hk _ ih => simpa using ⟨.single hk, ih⟩

/-! ## Margins

Indenting a text line by line puts blanks only where blanks were, so its tokens stay. -/

open Text

theorem isLineBoundary_of_isWordChar {c : Char} (h : isWordChar c = true) :
    isLineBoundary c = false := by
  cases hb : isLineBoundary c with
  | false => rfl
  | true =>
    simp only [isLineBoundary, lineBoundaries, List.contains_eq_mem, decide_eq_true_eq,
      List.mem_cons, List.not_mem_nil, or_false] at hb
    rcases hb with rfl | rfl | rfl | rfl | rfl | rfl | rfl | rfl | rfl | rfl <;> cases h

theorem isLineBoundary_of_single? {c : Char} {kind : Kind} (h : single? c = some kind) :
    isLineBoundary c = false := by
  cases hb : isLineBoundary c with
  | false => rfl
  | true =>
    simp only [isLineBoundary, lineBoundaries, List.contains_eq_mem, decide_eq_true_eq,
      List.mem_cons, List.not_mem_nil, or_false] at hb
    rcases hb with rfl | rfl | rfl | rfl | rfl | rfl | rfl | rfl | rfl | rfl <;> cases h

/-- The lines behind their margins, each with its line feed. -/
def marginLines (margin : List Char) (lines : List (List Char)) : List Char :=
  lines.flatMap fun line => margin ++ line ++ ['\n']

theorem indented_toList (margin s : String) :
    (indented margin s).toList = marginLines margin.toList (splitLines s.toList) := by
  have step : ∀ (lines : List (List Char)) (text : String),
      (lines.foldl (fun text line => text ++ margin ++ String.ofList line ++ "\n") text).toList =
        text.toList ++ marginLines margin.toList lines := by
    intro lines
    induction lines with
    | nil => simp [marginLines]
    | cons line lines ih =>
      intro text
      rw [List.foldl_cons, ih]
      simp [marginLines, String.toList_append]
  rw [indented, step]
  rfl

/-- The indented text without its first margin; of no text, a line feed. -/
def unmargined (margin : List Char) : List (List Char) → List Char
  | [] => ['\n']
  | line :: rest => line ++ '\n' :: marginLines margin rest

theorem unmargined_extendFirst (margin : List Char) (c : Char) (lines : List (List Char)) :
    unmargined margin (extendFirst c lines) = c :: unmargined margin lines := by
  cases lines <;> simp [unmargined, extendFirst, marginLines]

theorem splitLines_cons {c : Char} (cs : List Char) (h : isLineBoundary c = false) :
    splitLines (c :: cs) = extendFirst c (splitLines cs) := by
  have hr : c ≠ '\r' := by
    rintro rfl
    cases h
  rw [splitLines]
  · simp [h]
  · rintro cs' rfl
    exact absurd rfl hr

theorem unmargined_splitLines_append (margin : List Char) {bs : List Char} (cs : List Char)
    (hb : ∀ c ∈ bs, isLineBoundary c = false) :
    unmargined margin (splitLines (bs ++ cs)) = bs ++ unmargined margin (splitLines cs) := by
  induction bs with
  | nil => rfl
  | cons b bs ih =>
    rw [List.cons_append, splitLines_cons _ (hb b List.mem_cons_self), unmargined_extendFirst,
      ih fun c hc => hb c (List.mem_cons_of_mem _ hc), List.cons_append]

theorem splitLines_boundary {c : Char} {cs : List Char} (h : isLineBoundary c = true)
    (hc : c = '\r' → NotBefore (· == '\n') cs) : splitLines (c :: cs) = [] :: splitLines cs := by
  rw [splitLines]
  · simp [h]
  · rintro cs' rfl rfl
    exact absurd (notBefore_cons.1 (hc rfl)) (by decide)

theorem notBefore_unmargined {p : Char → Bool} (hp : p '\n' = false) (margin : List Char)
    {cs : List Char} (h : NotBefore p cs) : NotBefore p (unmargined margin (splitLines cs)) := by
  unfold splitLines
  split
  · exact notBefore_cons.2 hp
  · exact notBefore_cons.2 hp
  · split
    · exact notBefore_cons.2 hp
    · rw [unmargined_extendFirst]
      exact notBefore_cons.2 (notBefore_cons.1 h)

theorem splitLines_eq_nil {cs : List Char} (h : splitLines cs = []) : cs = [] := by
  unfold splitLines at h
  split at h
  · rfl
  · cases h
  · next c cs _ =>
    split at h
    · cases h
    · cases hc : splitLines cs <;> simp [extendFirst, hc] at h

theorem layout_marginLines {margin cs : List Char} {ts : List Token}
    (hm : ∀ c ∈ margin, isSpace c = true) (h : Layout ts cs)
    (hu : Layout ts (unmargined margin (splitLines cs))) :
    Layout ts (marginLines margin (splitLines cs)) := by
  cases hs : splitLines cs with
  | nil =>
    rw [splitLines_eq_nil hs] at h
    exact h
  | cons line rest =>
    rw [hs] at hu
    have blanks : ∀ bs : List Char, (∀ c ∈ bs, isSpace c = true) →
        Layout ts (bs ++ unmargined margin (line :: rest)) := by
      intro bs hb
      induction bs with
      | nil => exact hu
      | cons b bs ih =>
        exact .blank (hb b List.mem_cons_self) (ih fun c hc => hb c (List.mem_cons_of_mem _ hc))
    simpa [marginLines, unmargined] using blanks margin hm

theorem layout_unmargined {margin cs : List Char} {ts : List Token}
    (hm : ∀ c ∈ margin, isSpace c = true) (h : Layout ts cs) :
    Layout ts (unmargined margin (splitLines cs)) := by
  induction h with
  | nil => exact .blank rfl .nil
  | @blank ts c cs hc h ih =>
    by_cases hb : isLineBoundary c = true
    · by_cases hr : c = '\r' → NotBefore (· == '\n') cs
      · rw [splitLines_boundary hb hr]
        exact .blank rfl (layout_marginLines hm h ih)
      · -- a carriage return with its line feed is one boundary, that of the line feed
        obtain ⟨rfl, hn⟩ := Classical.not_imp.1 hr
        cases cs with
        | nil => exact absurd (notBefore_nil _) hn
        | cons d cs =>
          obtain rfl : d = '\n' := by simpa [notBefore_cons] using hn
          have e : splitLines ('\r' :: '\n' :: cs) = splitLines ('\n' :: cs) := by
            rw [splitLines_boundary (c := '\n') rfl (by simp), splitLines]
          rw [e]
          exact ih
    · rw [splitLines_cons _ (by simpa using hb), unmargined_extendFirst]
      exact .blank hc ih
  | number hd hn _ ih =>
    rw [unmargined_splitLines_append _ _ fun c hc =>
      isLineBoundary_of_isWordChar (hd.isWordChar c hc)]
    exact .number hd (notBefore_unmargined rfl margin hn) ih
  | word hw hn _ ih =>
    rw [unmargined_splitLines_append _ _ fun c hc => isLineBoundary_of_isWordChar (hw.2 c hc)]
    exact .word hw (notBefore_unmargined rfl margin hn) ih
  | single hk _ ih =>
    rw [splitLines_cons _ (isLineBoundary_of_single? hk), unmargined_extendFirst]
    exact .single hk ih

/-- What has a margin ends with a line feed. -/
theorem getLast?_marginLines (margin : List Char) (lines : List (List Char)) :
    ∀ c ∈ (marginLines margin lines).getLast?, c = '\n' := by
  induction lines with
  | nil => simp [marginLines]
  | cons line lines ih =>
    intro c hc
    have hcons : marginLines margin (line :: lines) =
        (margin ++ line ++ ['\n']) ++ marginLines margin lines := rfl
    rw [hcons, List.getLast?_append] at hc
    cases hl : (marginLines margin lines).getLast? with
    | none => simpa [hl] using hc.symm
    | some d =>
      obtain rfl : d = c := by simpa [hl] using hc
      exact ih d hl

theorem meets_indented (margin s : String) (ds : List Char) :
    Meets (indented margin s).toList ds := by
  intro c hc hw
  rw [indented_toList] at hc
  rw [getLast?_marginLines _ _ c hc] at hw
  cases hw

theorem layout_indented {margin s : String} {ts : List Token}
    (hm : ∀ c ∈ margin.toList, isSpace c = true) (h : Layout ts s.toList) :
    Layout ts (indented margin s).toList := by
  rw [indented_toList]
  exact layout_marginLines hm h (layout_unmargined hm h)

end Guion.Token
