import Guion.Node.Source
import Guion.Proofs.Shape

/-!
# The tokens of a tree's text

`tokens n` are the tokens of the source text of `n`, so that the structure of the text can be
studied without its layout.

    Fits position n → ∃ text, n.source = .ok text ∧ Writes n.tokens text        (Fits.source)
-/

namespace Guion.Node

open Token (Kind Layout isWordChar)

/-! ## Tokens of a tree -/

/-- The token that is one character. -/
def mark (c : Char) : Token := ⟨(Token.single? c).getD .eof, c.toString⟩

def name (s : String) : Token := ⟨.identifier, s⟩

def keyToken (s : String) : Token := if s.toList.all Char.isDigit then ⟨.number, s⟩ else name s

/-- The tokens of an operand, in parentheses if it binds less than its place requires. -/
def guardedTokens (node : Node) (least : Nat) (ts : List Token) : List Token :=
  if node.strength < least then mark '(' :: (ts ++ [mark ')']) else ts

def terminatedTokens (node : Node) (ts : List Token) : List Token :=
  if node.needsSemicolon then ts ++ [mark ';'] else ts

def blockTokens (body : List Token) : List Token := mark '{' :: (body ++ [mark '}'])

def functionTokens (label : String) (params : List String) (body : List Token) : List Token :=
  .ofWord "funcion" :: ((if label.isEmpty then [] else [name label]) ++
    mark '(' :: ([mark ','].intercalate (params.map fun p => [name p]) ++ mark ')' :: body))

mutual

/-- The tokens of the source text of a tree that fits its place. -/
def tokens : Node → List Token
  | .program body => bodyTokens body
  | .declare constant label value =>
    .ofWord (if constant then "const" else "def") :: name label :: mark '=' ::
      (tokens value ++ [mark ';'])
  | .giveBack value => name Token.returnWord :: (tokens value ++ [mark ';'])
  | .when condition body none =>
    .ofWord "si" :: mark '(' :: (tokens condition ++ mark ')' :: blockTokens (bodyTokens body))
  | .when condition body (some alternative) =>
    .ofWord "si" :: mark '(' :: (tokens condition ++ mark ')' ::
      (blockTokens (bodyTokens body) ++ tokens alternative))
  | .otherwise body => .ofWord "entonces" :: blockTokens (bodyTokens body)
  | .function label params body => functionTokens label params (blockTokens (bodyTokens body))
  | .assign target value =>
    guardedTokens target (assignStrength + 1) (tokens target) ++ mark '=' ::
      guardedTokens value assignStrength (tokens value)
  | .binary left right symbol =>
    guardedTokens left ((operatorStrength? symbol).getD 0) (tokens left) ++
      (symbol.toList.map mark ++
        guardedTokens right ((operatorStrength? symbol).getD 0 + 1) (tokens right))
  | .call callee args =>
    guardedTokens callee suffixStrength (tokens callee) ++
      mark '(' :: ([mark ','].intercalate (tokensList args) ++ [mark ')'])
  | .member owner key computed =>
    guardedTokens owner suffixStrength (tokens owner) ++
      if computed then mark '[' :: (tokens key ++ [mark ']']) else mark '.' :: tokens key
  | .ident symbol | .propertyName symbol => [name symbol]
  | .number value => [⟨.number, Num.natText value.natAbs⟩]
  | .property key none => [keyToken key]
  | .property key (some value) => keyToken key :: mark ':' :: tokens value
  | .object entries => mark '{' :: ([mark ','].intercalate (tokensList entries) ++ [mark '}'])
  | .list elements => mark '[' :: ([mark ','].intercalate (tokensList elements) ++ [mark ']'])
  | .string _ | .foreign _ => []

def tokensList : List Node → List (List Token)
  | [] => []
  | node :: rest => tokens node :: tokensList rest

/-- The tokens of statements, each ended as its kind requires. -/
def bodyTokens : List Node → List Token
  | [] => []
  | node :: rest => terminatedTokens node (tokens node) ++ bodyTokens rest

end

/-! ## Texts and their tokens -/

/-- The tokens of a text are the given ones. -/
def Writes (ts : List Token) (s : String) : Prop := Layout ts s.toList

theorem scan_of_writes {ts : List Token} {s : String} (h : Writes ts s) :
    Token.scan s = .ok (ts ++ [.eof]) := (Token.scan_eq_ok_iff s _).2 ⟨ts, rfl, h⟩

theorem writes_of_scan {ts : List Token} {s : String} (h : Token.scan s = .ok (ts ++ [.eof])) :
    Writes ts s := by
  obtain ⟨us, hus, hl⟩ := (Token.scan_eq_ok_iff s _).1 h
  rw [List.append_cancel_right hus]
  exact hl

/-- A text has no other tokens. -/
theorem writes_unique {ts us : List Token} {s : String} (h : Writes ts s) (h' : Writes us s) :
    ts = us := by
  have e := (scan_of_writes h).symm.trans (scan_of_writes h')
  exact List.append_cancel_right (Except.ok.inj e)

/-- A text that ends with no word character, so that any text may stand behind it. -/
def Closes (s : String) : Prop := s.toList.getLast?.any (fun c => !isWordChar c) = true

/-- A text that starts with no word character, so that any text may stand in front of it. -/
def Opens (s : String) : Prop := s.toList.head?.any (fun c => !isWordChar c) = true

theorem Writes.append_closes {ts us : List Token} {s t : String} (hs : Writes ts s) (hc : Closes s)
    (ht : Writes us t) : Writes (ts ++ us) (s ++ t) := by
  unfold Writes
  rw [String.toList_append]
  refine Layout.append hs ht fun c hlast hw => ?_
  simp [Closes, Option.mem_def.1 hlast, hw] at hc

theorem Writes.append_opens {ts us : List Token} {s t : String} (hs : Writes ts s)
    (ht : Writes us t) (ho : Opens t) : Writes (ts ++ us) (s ++ t) := by
  unfold Writes
  rw [String.toList_append]
  refine Layout.append hs ht (Token.meets_of_notBefore fun c hc => ?_)
  simpa [Opens, Option.mem_def.1 hc] using ho

theorem Closes.append {t : String} (s : String) (h : Closes t) : Closes (s ++ t) := by
  unfold Closes at *
  rw [String.toList_append, List.getLast?_append]
  cases ht : t.toList.getLast? with
  | none => simp [ht] at h
  | some c => simpa [ht] using h

/-- A text that may stand between any two others, with its tokens. -/
structure Separates (s : String) (ts : List Token) : Prop where
  scan : Token.scan s = .ok (ts ++ [.eof])
  opens : Opens s
  closes : Closes s

theorem Separates.writes {s : String} {ts : List Token} (h : Separates s ts) : Writes ts s :=
  writes_of_scan h.scan

/-- Two texts with another between them. -/
theorem Writes.between {ts us vs : List Token} {s m t : String} (hs : Writes ts s)
    (hm : Separates m us) (ht : Writes vs t) : Writes (ts ++ us ++ vs) (s ++ m ++ t) :=
  (hs.append_opens hm.writes hm.opens).append_closes (hm.closes.append s) ht

/-- A text with another behind it. -/
theorem Writes.before {ts us : List Token} {s m : String} (hs : Writes ts s)
    (hm : Separates m us) : Writes (ts ++ us) (s ++ m) := hs.append_opens hm.writes hm.opens

/-- A text with another in front of it. -/
theorem Writes.after {ts : List Token} {s : String} (hs : Writes ts s) (m : String)
    (us : List Token) (hm : Token.scan m = .ok (us ++ [.eof])) (hc : Closes m) :
    Writes (us ++ ts) (m ++ s) :=
  (writes_of_scan hm).append_closes hc hs

theorem separates_blank : Separates " " [] := ⟨rfl, rfl, rfl⟩
theorem separates_newline : Separates "\n" [] := ⟨rfl, rfl, rfl⟩
theorem separates_comma : Separates ", " [mark ','] := ⟨rfl, rfl, rfl⟩
theorem separates_colon : Separates ": " [mark ':'] := ⟨rfl, rfl, rfl⟩
theorem separates_assign : Separates " = " [mark '='] := ⟨rfl, rfl, rfl⟩
theorem separates_dot : Separates "." [mark '.'] := ⟨rfl, rfl, rfl⟩
theorem separates_semicolon : Separates ";" [mark ';'] := ⟨rfl, rfl, rfl⟩
theorem separates_openParen : Separates "(" [mark '('] := ⟨rfl, rfl, rfl⟩
theorem separates_closeParen : Separates ")" [mark ')'] := ⟨rfl, rfl, rfl⟩
theorem separates_closeParenBlank : Separates ") " [mark ')'] := ⟨rfl, rfl, rfl⟩
theorem separates_openBracket : Separates "[" [mark '['] := ⟨rfl, rfl, rfl⟩
theorem separates_closeBrace : Separates "\x7d" [mark '}'] := ⟨rfl, rfl, rfl⟩
theorem separates_closeBlankBrace : Separates " \x7d" [mark '}'] := ⟨rfl, rfl, rfl⟩
theorem separates_closeBracket : Separates "]" [mark ']'] := ⟨rfl, rfl, rfl⟩

/-! ## Words -/

theorem ofWord_of_isName {s : String} (h : IsName s) : Token.ofWord s = name s := by
  simp [Token.ofWord, h.2, name]

theorem writes_name {s : String} (h : IsName s) : Writes [name s] s := by
  have hl := Layout.word h.1 (Token.notBefore_nil isWordChar) .nil
  rwa [List.append_nil, String.ofList_toList, ofWord_of_isName h] at hl

theorem writes_digits {s : String} (h : Token.IsDigits s.toList) : Writes [⟨.number, s⟩] s := by
  have hl := Layout.number h (Token.notBefore_nil Char.isDigit) .nil
  rwa [List.append_nil, String.ofList_toList] at hl

theorem keyToken_of_isName {s : String} (h : IsName s) : keyToken s = name s := by
  obtain ⟨c, hc, hd⟩ := h.1.1
  have : s.toList.all Char.isDigit = false := by
    cases hs : s.toList with
    | nil => simp [hs] at hc
    | cons d ds =>
      rw [hs] at hc
      cases hc
      simp [hd]
  simp [keyToken, this]

theorem keyToken_of_isDigits {s : String} (h : Token.IsDigits s.toList) :
    keyToken s = ⟨.number, s⟩ := if_pos (List.all_eq_true.2 h.2)

theorem kind_keyToken (s : String) :
    (keyToken s).kind = .identifier ∨ (keyToken s).kind = .number := by
  unfold keyToken
  split
  · exact .inr rfl
  · exact .inl rfl

theorem text_keyToken (s : String) : (keyToken s).text = s := by
  unfold keyToken
  split <;> rfl

theorem writes_key {s : String} (h : IsKey s) : Writes [keyToken s] s := by
  rcases h with h | h
  · rw [keyToken_of_isName h]
    exact writes_name h
  · rw [keyToken_of_isDigits h]
    exact writes_digits h

theorem writes_symbol {s : String} (h : s ∈ symbols) : Writes (s.toList.map mark) s := by
  simp only [symbols, List.mem_cons, List.not_mem_nil, or_false] at h
  rcases h with rfl | rfl | rfl | rfl | rfl | rfl | rfl | rfl | rfl <;> exact writes_of_scan rfl

/-! ## Parts of a text -/

theorem Writes.guarded {ts : List Token} {s : String} (h : Writes ts s) (node : Node)
    (least : Nat) :
    Writes (guardedTokens node least ts) (node.guarded least s) := by
  unfold guardedTokens Node.guarded
  split
  · have hp := (h.after "(" [mark '('] rfl rfl).before separates_closeParen
    simpa using hp
  · exact h

theorem Writes.terminated {ts : List Token} {s : String} (h : Writes ts s) (node : Node) :
    Writes (terminatedTokens node ts) (node.terminated s) := by
  unfold terminatedTokens Node.terminated
  split
  · exact h.before separates_semicolon
  · exact h

/-- The text of every tree of a list, and its tokens. -/
def SourceWrites (n : Node) : Prop := ∃ text, n.source = .ok text ∧ Writes n.tokens text

theorem sourceList_writes {ns : List Node} (h : ∀ n ∈ ns, SourceWrites n) :
    ∃ texts, sourceList ns = .ok texts ∧ (texts = [] ↔ ns = []) ∧
      Writes ([mark ','].intercalate (tokensList ns)) (", ".intercalate texts) := by
  induction ns with
  | nil => exact ⟨[], rfl, by simp, .nil⟩
  | cons n ns ih =>
    obtain ⟨⟨text, hn, hw⟩, hns⟩ := List.forall_mem_cons.1 h
    obtain ⟨texts, hs, he, hws⟩ := ih hns
    refine ⟨text :: texts, by rw [sourceList, hn, hs]; rfl, by simp, ?_⟩
    cases ns with
    | nil =>
      obtain rfl := he.2 rfl
      simpa [tokensList] using hw
    | cons m ns =>
      have hne : texts ≠ [] := fun e => by simpa using he.1 e
      rw [String.intercalate_cons_of_ne_nil hne, tokensList,
        List.intercalate_cons_of_ne_nil (by simp [tokensList])]
      exact hw.between separates_comma hws

theorem writes_params {params : List String} (h : ∀ p ∈ params, IsName p) :
    Writes ([mark ','].intercalate (params.map fun p => [name p])) (", ".intercalate params) := by
  induction params with
  | nil => exact .nil
  | cons p ps ih =>
    obtain ⟨hp, hps⟩ := List.forall_mem_cons.1 h
    cases ps with
    | nil => simpa using writes_name hp
    | cons q qs =>
      rw [String.intercalate_cons_cons, List.map_cons, List.map_cons, List.intercalate_cons_cons]
      exact (writes_name hp).between separates_comma (ih hps)

theorem writes_join_indented {ts : List Token} {s t : String} {us : List Token} (hs : Writes ts s)
    (ht : Writes us t) : Writes (ts ++ us) (Text.indented margin s ++ t) := by
  have hm : margin.toList = [' ', ' '] := rfl
  have hspace : ∀ c ∈ margin.toList, Token.isSpace c = true := by
    rw [hm]
    exact List.forall_mem_cons.2 ⟨rfl, List.forall_mem_singleton.2 rfl⟩
  unfold Writes
  rw [String.toList_append]
  exact (Token.layout_indented hspace hs).append ht (Token.meets_indented margin s _)

/-- The statements of a body, on lines of their own or in a block. -/
theorem sourceStatements_writes {body : List Node} (h : ∀ n ∈ body, SourceWrites n) :
    ∃ texts, sourceStatements body = .ok texts ∧ (texts = [] ↔ body = []) ∧
      Writes (bodyTokens body) ("\n".intercalate texts) ∧
      Writes (bodyTokens body) (String.join (texts.map (Text.indented margin))) := by
  induction body with
  | nil => exact ⟨[], rfl, by simp, .nil, .nil⟩
  | cons n body ih =>
    obtain ⟨⟨text, hn, hw⟩, hbody⟩ := List.forall_mem_cons.1 h
    obtain ⟨texts, hs, he, hlines, hblock⟩ := ih hbody
    have hfirst := hw.terminated n
    refine ⟨n.terminated text :: texts, by rw [sourceStatements, hn, hs]; rfl, by simp, ?_, ?_⟩
    · cases texts with
      | nil =>
        obtain rfl := he.1 rfl
        simpa [bodyTokens] using hfirst
      | cons t texts =>
        rw [String.intercalate_cons_cons, bodyTokens]
        simpa using hfirst.between separates_newline hlines
    · rw [List.map_cons, String.join_cons, bodyTokens]
      exact writes_join_indented hfirst hblock

theorem writes_blockText {body : List Node} {texts : List String} (he : texts = [] ↔ body = [])
    (h : Writes (bodyTokens body) (String.join (texts.map (Text.indented margin)))) :
    Writes (blockTokens (bodyTokens body)) (blockText texts) := by
  unfold blockText blockTokens
  cases texts with
  | nil =>
    obtain rfl := he.1 rfl
    exact writes_of_scan rfl
  | cons t texts =>
    rw [if_neg (by simp)]
    have hb := (h.after "\x7b\n" [mark '{'] rfl rfl).before separates_closeBrace
    simpa using hb

/-- A block gets a text if its statements get one. -/
theorem block_writes {body : List Node} (h : ∀ n ∈ body, SourceWrites n) :
    ∃ texts, sourceStatements body = .ok texts ∧
      Writes (blockTokens (bodyTokens body)) (blockText texts) := by
  obtain ⟨texts, hs, he, -, hb⟩ := sourceStatements_writes h
  exact ⟨texts, hs, writes_blockText he hb⟩

theorem writes_functionText {label : String} {params : List String} {ts : List Token}
    {body : String}
    (hl : label = "" ∨ IsName label) (hp : ∀ p ∈ params, IsName p) (hb : Writes ts body) :
    Writes (functionTokens label params ts) (functionText label params body) := by
  have hps := writes_params hp
  unfold functionTokens functionText
  rcases hl with rfl | hl
  · have h := (hps.after "funcion (" [.ofWord "funcion", mark '('] rfl rfl).between
      separates_closeParen hb
    simpa using h
  · have hne : label.isEmpty = false := by simpa [String.isEmpty_iff] using hl.ne_empty
    have h := (((writes_name hl).after "funcion " [.ofWord "funcion"] rfl rfl).between
      separates_openParen hps).between separates_closeParen hb
    simpa [hne] using h

/-! ## Trees -/

theorem operatorStrength?_of_mem_symbols {symbol : String} (h : symbol ∈ symbols) :
    ∃ k, operatorStrength? symbol = some k := by
  simp only [symbols, List.mem_cons, List.not_mem_nil, or_false] at h
  rcases h with rfl | rfl | rfl | rfl | rfl | rfl | rfl | rfl | rfl <;> exact ⟨_, rfl⟩

/-- A tree that fits its place has a source text, and its tokens are those of the tree. -/
theorem Fits.source {position : Position} {n : Node} (h : Fits position n) : SourceWrites n := by
  induction h with
  | @declare constant label value hl _ ih =>
    obtain ⟨text, hv, hw⟩ := ih
    refine ⟨_, by rw [Node.source, hv]; rfl, ?_⟩
    cases constant with
    | false =>
      have hd := (((writes_name hl).after "def " [.ofWord "def"] rfl rfl).between
        separates_assign hw).before separates_semicolon
      simpa [tokens] using hd
    | true =>
      have hd := (((writes_name hl).after "const " [.ofWord "const"] rfl rfl).between
        separates_assign hw).before separates_semicolon
      simpa [tokens] using hd
  | @giveBack value _ ih =>
    obtain ⟨text, hv, hw⟩ := ih
    refine ⟨_, by rw [Node.source, hv]; rfl, ?_⟩
    have hr := (hw.after "retorna " [name Token.returnWord] rfl rfl).before separates_semicolon
    simpa [tokens] using hr
  | when _ _ ihc ihb =>
    obtain ⟨text, hc, hw⟩ := ihc
    obtain ⟨texts, hb, hwb⟩ := block_writes ihb
    refine ⟨_, by rw [Node.source, hc]; simp only [hb]; rfl, ?_⟩
    have hs := (hw.after "si (" [.ofWord "si", mark '('] rfl rfl).between
      separates_closeParenBlank hwb
    simpa [tokens] using hs
  | whenOtherwise _ _ _ ihc ihb iho =>
    obtain ⟨text, hc, hw⟩ := ihc
    obtain ⟨texts, hb, hwb⟩ := block_writes ihb
    obtain ⟨others, ho, hwo⟩ := block_writes iho
    refine ⟨_, by rw [Node.source, hc]; simp only [hb, Node.source, ho]; rfl, ?_⟩
    have hs := ((hw.after "si (" [.ofWord "si", mark '('] rfl rfl).between
      separates_closeParenBlank hwb).between separates_blank
      (hwo.after "entonces " [.ofWord "entonces"] rfl rfl)
    simpa [tokens] using hs
  | expression _ ih => exact ih
  | function hl hp _ ih =>
    obtain ⟨texts, hb, hwb⟩ := block_writes ih
    refine ⟨_, by rw [Node.source, hb]; rfl, ?_⟩
    exact writes_functionText hl hp hwb
  | @assign target value _ _ iht ihv =>
    obtain ⟨t, ht, hwt⟩ := iht
    obtain ⟨v, hv, hwv⟩ := ihv
    refine ⟨_, by rw [Node.source, ht, hv]; rfl, ?_⟩
    have ha := (hwt.guarded target (assignStrength + 1)).between separates_assign
      (hwv.guarded value assignStrength)
    simpa [tokens] using ha
  | @binary left right symbol _ hsymbol _ ihl ihr =>
    obtain ⟨l, hl, hwl⟩ := ihl
    obtain ⟨r, hr, hwr⟩ := ihr
    obtain ⟨k, hk⟩ := operatorStrength?_of_mem_symbols hsymbol
    refine ⟨_, by rw [Node.source, hk, hl, hr]; rfl, ?_⟩
    have hb := ((hwl.guarded left k).between separates_blank (writes_symbol hsymbol)).between
      separates_blank (hwr.guarded right (k + 1))
    simpa [tokens, hk] using hb
  | @call callee args _ _ ihc iha =>
    obtain ⟨c, hc, hwc⟩ := ihc
    obtain ⟨texts, ha, -, hwa⟩ := sourceList_writes iha
    refine ⟨_, by rw [Node.source, ha, hc]; rfl, ?_⟩
    have hcall := ((hwc.guarded callee suffixStrength).between separates_openParen hwa).before
      separates_closeParen
    simpa [tokens] using hcall
  | @member owner label _ hl ih =>
    obtain ⟨o, ho, hwo⟩ := ih
    refine ⟨_, by rw [Node.source, ho]; rfl, ?_⟩
    have hm := (hwo.guarded owner suffixStrength).between separates_dot (writes_name hl)
    simpa [tokens] using hm
  | @index owner key _ _ iho ihk =>
    obtain ⟨o, ho, hwo⟩ := iho
    obtain ⟨k, hk, hwk⟩ := ihk
    refine ⟨_, by rw [Node.source, ho, hk]; rfl, ?_⟩
    have hm := ((hwo.guarded owner suffixStrength).between separates_openBracket hwk).before
      separates_closeBracket
    simpa [tokens] using hm
  | ident hl => exact ⟨_, rfl, writes_name hl⟩
  | @number m hm =>
    refine ⟨Num.natText m, by rw [Node.source, numberText, Num.intText_natCast hm]; rfl, ?_⟩
    exact writes_digits (Num.isDigits_natText m)
  | @object entries _ ih =>
    obtain ⟨texts, hs, he, hw⟩ := sourceList_writes ih
    refine ⟨_, by rw [Node.source, hs]; rfl, ?_⟩
    cases texts with
    | nil =>
      obtain rfl := he.1 rfl
      exact writes_of_scan rfl
    | cons t texts =>
      have ho := (hw.after "\x7b " [mark '{'] rfl rfl).before separates_closeBlankBrace
      simpa [tokens] using ho
  | list _ ih =>
    obtain ⟨texts, hs, -, hw⟩ := sourceList_writes ih
    refine ⟨_, by rw [Node.source, hs]; rfl, ?_⟩
    have hb := (hw.after "[" [mark '['] rfl rfl).before separates_closeBracket
    simpa [tokens] using hb
  | shorthand hk => exact ⟨_, rfl, writes_key hk⟩
  | entry hk _ ih =>
    obtain ⟨v, hv, hwv⟩ := ih
    refine ⟨_, by rw [Node.source, hv]; rfl, ?_⟩
    simpa [tokens] using (writes_key hk).between separates_colon hwv

end Guion.Node
