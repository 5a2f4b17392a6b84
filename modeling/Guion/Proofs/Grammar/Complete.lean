import Guion.Proofs.Grammar.Follow

/-!
# The readers accept what the grammar derives

A derived phrase is read off the front of any tokens that end it (`Derives.readBy`).  The loops that
build trees to the left get no such statement of their own: after the first operands such a loop is
in the middle of its work, so what is said of it is that reading goes on from there
(`Phrase.ReadBy`, for chains and suffixes).
-/

namespace Guion.Node

open Token (Kind)
open Reader

/-! ## Steps of a reader -/

namespace Reader

variable {α β : Type}

theorem bind_ok {x : Reader α} {f : α → Reader β} {ts rest : List Token} {a : α}
    (h : x ts = .ok (a, rest)) : (x >>= f) ts = f a rest := by
  show (StateT.bind x f) ts = _
  simp only [StateT.bind, h]
  rfl

theorem peek_apply (ts : List Token) : peek ts = .ok (next ts, ts) := rfl

theorem advance_cons {t : Token} {ts : List Token} (h : t.kind ≠ .eof) :
    advance (t :: ts) = .ok (t, ts) := by
  simp [advance, h]

theorem expect_cons {kind : Kind} {t : Token} {ts : List Token} (what : Expected)
    (h : t.kind = kind) (hk : kind ≠ .eof) : expect kind what (t :: ts) = .ok (t.text, ts) := by
  unfold expect
  rw [bind_ok (advance_cons (h ▸ hk)), if_pos h]
  rfl

theorem skipSemicolons_append {gap ts : List Token} (hg : Semicolons gap)
    (ht : (next ts).kind ≠ .semicolon) : skipSemicolons (gap ++ ts) = .ok ((), ts) := by
  have : (gap ++ ts).dropWhile (fun t => t.kind == .semicolon) = ts := by
    rw [List.dropWhile_append_of_pos fun t htg => beq_iff_eq.2 (hg t htg)]
    cases ts with
    | nil => rfl
    | cons t ts => exact List.dropWhile_cons_of_neg (by simpa using ht)
  simp [skipSemicolons, this]

/-! ### Items between commas -/

variable {close : Kind} {comma : Expected} {item : Reader α} {ts rest : List Token} {n : Nat}

theorem items_close {c : Token} (hc : c.kind = close) (hk : close ≠ .eof) :
    items close comma item (n + 1) (c :: ts) = .ok ([], ts) := by
  rw [items, bind_ok (peek_apply _), if_pos (by exact hc), bind_ok (advance_cons (hc ▸ hk))]
  rfl

/-- One item and whether a comma follows it. -/
theorem items_step {x : α} (hf : (next ts).kind ≠ close) (hx : item ts = .ok (x, rest)) :
    items close comma item (n + 1) ts =
      (do separator close comma
          let xs ← items close comma item n
          return x :: xs : Reader (List α)) rest := by
  rw [items, bind_ok (peek_apply _), if_neg hf, bind_ok hx]

theorem separator_close (h : (next ts).kind = close) : separator close comma ts = .ok ((), ts) := by
  rw [separator, bind_ok (peek_apply _), if_pos h]
  rfl

theorem separator_comma {c : Token} (hc : c.kind = .comma) (hk : close ≠ .comma) :
    separator close comma (c :: ts) = .ok ((), ts) := by
  rw [separator, bind_ok (peek_apply _), if_neg (by simpa [hc] using hk.symm),
    bind_ok (expect_cons _ hc (by decide))]
  rfl

theorem items_last {x : α} {c : Token} (hf : (next ts).kind ≠ close)
    (hx : item ts = .ok (x, c :: rest)) (hc : c.kind = close) (hk : close ≠ .eof) (hn : 1 ≤ n) :
    items close comma item (n + 1) ts = .ok ([x], rest) := by
  obtain ⟨m, rfl⟩ : ∃ m, n = m + 1 := ⟨n - 1, by omega⟩
  rw [items_step hf hx, bind_ok (separator_close (by exact hc)), bind_ok (items_close hc hk)]
  rfl

theorem items_more {x : α} {xs : List α} {c : Token} {rest' : List Token}
    (hf : (next ts).kind ≠ close) (hx : item ts = .ok (x, c :: rest)) (hc : c.kind = .comma)
    (hk : close ≠ .comma) (hxs : items close comma item n rest = .ok (xs, rest')) :
    items close comma item (n + 1) ts = .ok (x :: xs, rest') := by
  rw [items_step hf hx, bind_ok (separator_comma hc hk), bind_ok hxs]
  rfl

end Reader

/-! ## Chains and suffixes -/

namespace Level

def reader : Level → Inner → Reader Node
  | .disjunction => readDisjunction
  | .conjunction => readConjunction
  | .equality => readEquality
  | .sum => readSum
  | .product => readProduct

def operandReader : Level → Inner → Reader Node
  | .disjunction => readConjunction
  | .conjunction => readEquality
  | .equality => readSum
  | .sum => readProduct
  | .product => readOperand

theorem reader_eq (level : Level) (inner : Inner) :
    level.reader inner = chain level.connective (level.operandReader inner) := by
  cases level <;> rfl

end Level

theorem chainRest_stop {operator : Connective} {operand : Reader Node} {rest : List Token}
    (n : Nat) (left : Node) (h : operator rest = none) :
    chainRest operator operand n left rest = .ok (left, rest) := by
  cases n with
  | zero => rfl
  | succ n => simp [chainRest, h]

theorem chainRest_step {operator : Connective} {operand : Reader Node} {ts v rest : List Token}
    {left right : Node} {symbol : String} (n : Nat) (ho : operator ts = some (symbol, v))
    (hr : operand v = .ok (right, rest)) :
    chainRest operator operand (n + 1) left ts =
      chainRest operator operand n (.binary left right symbol) rest := by
  simp only [chainRest, ho]
  exact bind_ok hr

theorem chain_first {operator : Connective} {operand : Reader Node} {ts rest : List Token}
    {first : Node} (h : operand ts = .ok (first, rest)) :
    chain operator operand ts = chainRest operator operand rest.length first rest := by
  rw [chain, bind_ok h]
  rfl

theorem suffixes_stop {inner : Inner} {rest : List Token} (n : Nat) (expression : Node)
    (h : EndsOperand rest) : suffixes inner n expression rest = .ok (expression, rest) := by
  obtain ⟨hdot, hbracket, hparen⟩ := h
  cases n with
  | zero => rfl
  | succ n =>
    rw [suffixes, bind_ok (peek_apply _)]
    cases hk : (next rest).kind with
    | dot => exact absurd hk hdot
    | openBracket => exact absurd hk hbracket
    | openParen => exact absurd hk hparen
    | _ => rfl

theorem suffixes_member {inner : Inner} {d i : Token} {rest : List Token} (n : Nat)
    (expression : Node) (hd : d.kind = .dot) (hi : i.kind = .identifier) :
    suffixes inner (n + 1) expression (d :: i :: rest) =
      suffixes inner n (.member expression (.propertyName i.text) false) rest := by
  rw [suffixes, bind_ok (peek_apply _), next_cons, hd]
  show (advance >>= _) (d :: i :: rest) = _
  rw [bind_ok (advance_cons (by simp [hd])), bind_ok (expect_cons _ hi (by decide))]

theorem suffixes_index {inner : Inner} {o c : Token} {ts rest : List Token} (n : Nat)
    {expression key : Node} (ho : o.kind = .openBracket)
    (hk : inner.expression ts = .ok (key, c :: rest)) (hc : c.kind = .closeBracket) :
    suffixes inner (n + 1) expression (o :: ts) =
      suffixes inner n (.member expression key true) rest := by
  rw [suffixes, bind_ok (peek_apply _), next_cons, ho]
  show (advance >>= _) (o :: ts) = _
  rw [bind_ok (advance_cons (by simp [ho])), bind_ok hk, bind_ok (expect_cons _ hc (by decide))]

theorem suffixes_call {inner : Inner} {o : Token} {ts rest : List Token} (n : Nat)
    {expression : Node} {args : List Node} (ho : o.kind = .openParen)
    (ha : items .closeParen .commaInArguments inner.expression ts.length ts = .ok (args, rest)) :
    suffixes inner (n + 1) expression (o :: ts) =
      suffixes inner n (.call expression args) rest := by
  rw [suffixes, bind_ok (peek_apply _), next_cons, ho]
  show (advance >>= _) (o :: ts) = _
  rw [bind_ok (advance_cons (by simp [ho])), bind_ok (x := bounded _) ha]

/-! ## Dispatch on the first tokens -/

theorem opensNamedFunction_iff (ts : List Token) :
    opensNamedFunction ts = true ↔ OpensNamed ts := by
  constructor
  · intro h
    unfold opensNamedFunction at h
    split at h
    · next t u v =>
      simp only [Bool.and_eq_true, beq_iff_eq] at h
      exact ⟨t, u, v, rfl, h.1, h.2⟩
    · cases h
  · rintro ⟨f, i, v, rfl, hf, hi⟩
    simp [opensNamedFunction, hf, hi]

theorem OpensNamed.next {ts : List Token} (h : OpensNamed ts) : (next ts).kind = .function := by
  obtain ⟨f, i, v, rfl, hf, -⟩ := h
  exact hf

section

variable {inner : Inner} {ts : List Token}

theorem readStatement_declaration (h : (next ts).kind = .define ∨ (next ts).kind = .constant) :
    readStatement inner ts = readDeclaration inner ts := by
  show (if _ then _ else _ : Reader Node) ts = _
  rw [if_pos h]

theorem readStatement_named (h : OpensNamed ts) :
    readStatement inner ts = readFunction inner ts := by
  show (if _ then _ else _ : Reader Node) ts = _
  rw [if_neg (by simp [h.next]), if_pos ((opensNamedFunction_iff ts).2 h)]

theorem readStatement_conditional (h : (next ts).kind = .when) :
    readStatement inner ts = readConditional inner ts := by
  have hn : ¬ opensNamedFunction ts = true := by
    rw [opensNamedFunction_iff]
    intro ho
    simp [ho.next] at h
  show (if _ then _ else _ : Reader Node) ts = _
  rw [if_neg (by simp [h]), if_neg hn, if_pos h]

theorem readStatement_return {r : Token} {value : Node} {rest : List Token}
    (hk : r.kind = .identifier) (ht : r.text = Token.returnWord)
    (hv : inner.expression ts = .ok (value, rest)) :
    readStatement inner (r :: ts) = .ok (.giveBack value, rest) := by
  have hn : ¬ opensNamedFunction (r :: ts) = true := by
    rw [opensNamedFunction_iff]
    intro ho
    have := ho.next
    simp [hk] at this
  show (if _ then _ else _ : Reader Node) (r :: ts) = _
  rw [if_neg (by simp [hk]), if_neg hn, if_neg (by simp [hk]), if_pos ⟨hk, ht⟩,
    bind_ok (advance_cons (by simp [hk])), bind_ok hv]
  rfl

theorem readStatement_expression (hs : StartsExpression (next ts)) (hn : ¬ OpensNamed ts)
    (hr : ¬ ((next ts).kind = .identifier ∧ (next ts).text = Token.returnWord)) :
    readStatement inner ts = readExpression inner ts := by
  have hk : (next ts).kind ≠ .define ∧ (next ts).kind ≠ .constant ∧ (next ts).kind ≠ .when := by
    rcases hs with h | h | h | h | h | h | ⟨h, -⟩ <;> simp [h]
  rw [← opensNamedFunction_iff] at hn
  show (if _ then _ else _ : Reader Node) ts = _
  rw [if_neg (not_or.2 ⟨hk.1, hk.2.1⟩), if_neg hn, if_neg hk.2.2, if_neg hr]

/-! ## One rule after the other -/

theorem statements_stop {stop : Kind} {gap rest : List Token} {c : Token} (n : Nat)
    (hg : Semicolons gap) (hc : c.kind = stop) (hk : stop ≠ .semicolon) :
    statements inner stop (n + 1) (gap ++ c :: rest) = .ok ([], c :: rest) := by
  rw [statements, bind_ok (skipSemicolons_append hg (by simpa [hc] using hk)),
    bind_ok (peek_apply _), if_pos (by exact hc)]
  rfl

theorem statements_more {stop : Kind} {gap rest rest' : List Token} {first : Node}
    {body : List Node} (n : Nat) (hg : Semicolons gap)
    (hs : (next ts).kind ≠ .semicolon ∧ (next ts).kind ≠ stop ∧ (next ts).kind ≠ .eof)
    (hf : inner.statement ts = .ok (first, rest))
    (hb : statements inner stop n rest = .ok (body, rest')) :
    statements inner stop (n + 1) (gap ++ ts) = .ok (first :: body, rest') := by
  rw [statements, bind_ok (skipSemicolons_append hg hs.1), bind_ok (peek_apply _),
    if_neg hs.2.1, if_neg hs.2.2, bind_ok hf, bind_ok hb]
  rfl

theorem block_ok {o c : Token} {rest : List Token} {body : List Node} (ho : o.kind = .openBrace)
    (hb : statements inner .closeBrace ts.length ts = .ok (body, c :: rest))
    (hc : c.kind = .closeBrace) : block inner (o :: ts) = .ok (body, rest) := by
  rw [block, bind_ok (expect_cons _ ho (by decide)), bind_ok (x := bounded _) hb,
    bind_ok (advance_cons (by simp [hc]))]
  rfl

theorem readDeclaration_ok {k i e : Token} {rest : List Token} {value : Node}
    (hk : k.kind = .define ∨ k.kind = .constant) (hi : i.kind = .identifier)
    (he : e.kind = .equals) (hv : inner.expression ts = .ok (value, rest)) :
    readDeclaration inner (k :: i :: e :: ts) =
      .ok (.declare (k.kind == .constant) i.text value, rest) := by
  have hk' : k.kind ≠ .eof := by rcases hk with hk | hk <;> simp [hk]
  rw [readDeclaration, bind_ok (advance_cons hk'), bind_ok (expect_cons _ hi (by decide)),
    bind_ok (expect_cons _ he (by decide)), bind_ok hv]
  rfl

theorem optionalName_ok {name : String} {i : List Token} {o : Token} (hi : Named name i)
    (ho : o.kind = .openParen) : optionalName (i ++ o :: ts) = .ok (name, o :: ts) := by
  cases hi with
  | anonymous =>
    rw [optionalName, List.nil_append, bind_ok (peek_apply _), if_neg (by simp [ho])]
    rfl
  | name hk =>
    rw [optionalName, List.singleton_append, bind_ok (peek_apply _), if_pos (by exact hk),
      bind_ok (advance_cons (by simp [hk]))]
    rfl

theorem params_ok {params : List String} {w : List Token} (hp : Params params w) {c : Token}
    (hc : c.kind = .closeParen) : ∀ n, (w ++ c :: ts).length ≤ n →
      items .closeParen .commaInParameters (expect .identifier .parameter) n (w ++ c :: ts) =
        .ok (params, ts) := by
  induction hp with
  | nil =>
    intro n hn
    obtain ⟨n, rfl⟩ : ∃ m, n = m + 1 := ⟨n - 1, by simp at hn; omega⟩
    exact items_close hc (by decide)
  | @last t ht =>
    intro n hn
    obtain ⟨n, rfl⟩ : ∃ m, n = m + 1 := ⟨n - 1, by simp at hn; omega⟩
    exact items_last (by simp [ht]) (expect_cons _ ht (by decide)) hc (by decide)
      (by simp at hn; omega)
  | @cons t c' ps w ht hc' _ ih =>
    intro n hn
    obtain ⟨n, rfl⟩ : ∃ m, n = m + 1 := ⟨n - 1, by simp at hn; omega⟩
    exact items_more (by simp [ht]) (expect_cons _ ht (by decide)) hc' (by decide)
      (ih n (by simp at hn ⊢; omega))

theorem readFunction_ok {f o c : Token} {i w rest : List Token} {name : String}
    {params : List String} {body : List Node} (hf : f.kind = .function) (hi : Named name i)
    (ho : o.kind = .openParen) (hp : Params params w) (hc : c.kind = .closeParen)
    (hb : block inner ts = .ok (body, rest)) :
    readFunction inner (f :: (i ++ o :: (w ++ c :: ts))) =
      .ok (.function name params body, rest) := by
  rw [readFunction, bind_ok (advance_cons (by simp [hf])), bind_ok (optionalName_ok hi ho),
    bind_ok (expect_cons _ ho (by decide)),
    bind_ok (x := bounded _) (params_ok hp hc _ (Nat.le_refl _)),
    bind_ok hb]
  rfl

theorem readAlternative_none (h : (next ts).kind ≠ .otherwise) :
    readAlternative inner ts = .ok (none, ts) := by
  rw [readAlternative, bind_ok (peek_apply _), if_neg h]
  rfl

theorem readAlternative_block {e : Token} {rest : List Token} {body : List Node}
    (he : e.kind = .otherwise) (hn : (next ts).kind ≠ .when)
    (hb : block inner ts = .ok (body, rest)) :
    readAlternative inner (e :: ts) = .ok (some (.otherwise body), rest) := by
  rw [readAlternative, bind_ok (peek_apply _), if_pos (by exact he),
    bind_ok (advance_cons (by simp [he])), bind_ok (peek_apply _), if_neg hn, bind_ok hb]
  rfl

theorem readAlternative_when {e : Token} {rest : List Token} {nested : Node}
    (he : e.kind = .otherwise) (hn : (next ts).kind = .when)
    (hc : inner.conditional ts = .ok (nested, rest)) :
    readAlternative inner (e :: ts) = .ok (some (.otherwise [nested]), rest) := by
  rw [readAlternative, bind_ok (peek_apply _), if_pos (by exact he),
    bind_ok (advance_cons (by simp [he])), bind_ok (peek_apply _), if_pos hn, bind_ok hc]
  rfl

theorem readConditional_ok {s : Token} {rest rest' rest'' : List Token} {condition : Node}
    {body : List Node} {alternative : Option Node} (hs : s.kind = .when)
    (hc : inner.expression ts = .ok (condition, rest)) (hb : block inner rest = .ok (body, rest'))
    (ha : readAlternative inner rest' = .ok (alternative, rest'')) :
    readConditional inner (s :: ts) = .ok (.when condition body alternative, rest'') := by
  rw [readConditional, bind_ok (advance_cons (by simp [hs])), bind_ok hc, bind_ok hb, bind_ok ha]
  rfl

theorem readPrimary_number {t : Token} (hk : t.kind = .number)
    (hd : Token.IsDigits t.text.toList) (hl : t.text.toList.length ≤ Num.digitLimit) :
    readPrimary inner (t :: ts) = .ok (.number (Nat.ofDigitChars 10 t.text.toList 0), ts) := by
  rw [readPrimary, bind_ok (peek_apply _), next_cons, hk]
  show (advance >>= _) (t :: ts) = _
  rw [bind_ok (advance_cons (by simp [hk])), Num.readInt?_digits hd, if_pos hl]
  rfl

theorem readPrimary_ident {t : Token} (hk : t.kind = .identifier) :
    readPrimary inner (t :: ts) = .ok (.ident t.text, ts) := by
  rw [readPrimary, bind_ok (peek_apply _), next_cons, hk]
  show (advance >>= _) (t :: ts) = _
  rw [bind_ok (advance_cons (by simp [hk]))]
  rfl

theorem readPrimary_parens {o c : Token} {rest : List Token} {n : Node} (ho : o.kind = .openParen)
    (he : inner.expression ts = .ok (n, c :: rest)) (hc : c.kind = .closeParen) :
    readPrimary inner (o :: ts) = .ok (n, rest) := by
  rw [readPrimary, bind_ok (peek_apply _), next_cons, ho]
  show (advance >>= _) (o :: ts) = _
  rw [bind_ok (advance_cons (by simp [ho])), bind_ok he, bind_ok (expect_cons _ hc (by decide))]
  rfl

theorem readPrimary_object {o : Token} {rest : List Token} {entries : List Node}
    (ho : o.kind = .openBrace)
    (he : items .closeBrace .commaInProperties (readEntry inner) ts.length ts =
      .ok (entries, rest)) : readPrimary inner (o :: ts) = .ok (.object entries, rest) := by
  rw [readPrimary, bind_ok (peek_apply _), next_cons, ho]
  show (advance >>= _) (o :: ts) = _
  rw [bind_ok (advance_cons (by simp [ho])), bind_ok (x := bounded _) he]
  rfl

theorem readPrimary_list {o : Token} {rest : List Token} {elements : List Node}
    (ho : o.kind = .openBracket)
    (he : items .closeBracket .commaInElements inner.expression ts.length ts =
      .ok (elements, rest)) : readPrimary inner (o :: ts) = .ok (.list elements, rest) := by
  rw [readPrimary, bind_ok (peek_apply _), next_cons, ho]
  show (advance >>= _) (o :: ts) = _
  rw [bind_ok (advance_cons (by simp [ho])), bind_ok (x := bounded _) he]
  rfl

theorem readPrimary_function (hf : (next ts).kind = .function) :
    readPrimary inner ts = readFunction inner ts := by
  rw [readPrimary, bind_ok (peek_apply _), hf]

theorem readPrimary_negation {t : Token} {rest : List Token} {n : Node} (hk : t.kind = .operator)
    (ht : t.text = "-") (hn : inner.operand ts = .ok (n, rest)) :
    readPrimary inner (t :: ts) = .ok (.binary (.number 0) n "-", rest) := by
  rw [readPrimary, bind_ok (peek_apply _), next_cons, hk]
  show (if _ then _ else _ : Reader Node) (t :: ts) = _
  rw [if_pos ht, bind_ok (advance_cons (by simp [hk])), bind_ok hn]
  rfl

theorem readEntry_shorthand {key : Token} (hk : key.kind = .identifier ∨ key.kind = .number)
    (hc : (next ts).kind ≠ .colon) :
    readEntry inner (key :: ts) = .ok (.property key.text none, ts) := by
  have hk' : key.kind ≠ .eof := by rcases hk with hk | hk <;> simp [hk]
  have hv : entryValue inner ts = .ok (none, ts) := by
    rw [entryValue, bind_ok (peek_apply _), if_neg hc]
    rfl
  rw [readEntry, bind_ok (advance_cons hk'), if_pos hk, bind_ok hv]
  rfl

theorem readEntry_value {key c : Token} {rest : List Token} {value : Node}
    (hk : key.kind = .identifier ∨ key.kind = .number) (hc : c.kind = .colon)
    (hv : inner.expression ts = .ok (value, rest)) :
    readEntry inner (key :: c :: ts) = .ok (.property key.text (some value), rest) := by
  have hk' : key.kind ≠ .eof := by rcases hk with hk | hk <;> simp [hk]
  have hv' : entryValue inner (c :: ts) = .ok (some value, rest) := by
    rw [entryValue, bind_ok (peek_apply _), if_pos (by exact hc),
      bind_ok (advance_cons (by simp [hc])), bind_ok hv]
    rfl
  rw [readEntry, bind_ok (advance_cons hk'), if_pos hk, bind_ok hv']
  rfl

theorem readExpression_single {rest : List Token} {n : Node}
    (h : readDisjunction inner ts = .ok (n, rest)) (he : (next rest).kind ≠ .equals) :
    readExpression inner ts = .ok (n, rest) := by
  rw [readExpression, bind_ok h, bind_ok (peek_apply _), if_neg he]
  rfl

theorem readExpression_assign {e : Token} {rest rest' : List Token} {target value : Node}
    (h : readDisjunction inner ts = .ok (target, e :: rest)) (he : e.kind = .equals)
    (hv : inner.expression rest = .ok (value, rest')) :
    readExpression inner ts = .ok (.assign target value, rest') := by
  rw [readExpression, bind_ok h, bind_ok (peek_apply _), if_pos (by exact he),
    bind_ok (advance_cons (by simp [he])), bind_ok hv]
  rfl

theorem readOperand_first {rest : List Token} {n : Node}
    (h : readPrimary inner ts = .ok (n, rest)) :
    readOperand inner ts = suffixes inner rest.length n rest := by
  rw [readOperand, bind_ok h]
  rfl

end

/-! ## What it means to read a phrase -/

/-- A token of the given kind comes next. -/
def At (kind : Kind) (rest : List Token) : Prop := ∃ c r, rest = c :: r ∧ c.kind = kind

/-- The phrase is read off `ts`, and `rest` remains.  The readers inside have room for `k`
tokens. -/
def Phrase.ReadBy (p : Phrase) (k : Nat) (ts rest : List Token) : Prop :=
  match p with
  | .statements body => ∀ stop n, (stop = .closeBrace ∨ stop = .eof) → At stop rest →
      ts.length ≤ n → Node.statements (inner (k + 1)) stop n ts = .ok (body, rest)
  | .statement _ tree => readStatement (inner k) ts = .ok (tree, rest)
  | .block body => Node.block (inner (k + 1)) ts = .ok (body, rest)
  | .conditional tree => readConditional (inner k) ts = .ok (tree, rest)
  | .alternative tree => readAlternative (inner (k + 1)) ts = .ok (tree, rest)
  | .function tree => readFunction (inner k) ts = .ok (tree, rest)
  | .expression tree => readExpression (inner k) ts = .ok (tree, rest)
  | .chain level tree => ∃ n, rest.length ≤ n ∧
      level.reader (inner k) ts =
        chainRest level.connective (level.operandReader (inner k)) n tree rest
  | .operand tree => readOperand (inner k) ts = .ok (tree, rest)
  | .suffixed tree => ∃ n, rest.length ≤ n ∧
      readOperand (inner k) ts = suffixes (inner k) n tree rest
  | .atom tree => readPrimary (inner k) ts = .ok (tree, rest)
  | .entry tree => readEntry (inner (k + 1)) ts = .ok (tree, rest)
  | .elements trees => ∀ close comma n, (close = .closeParen ∨ close = .closeBracket) →
      At close rest → ts.length ≤ n →
      items close comma (inner (k + 1)).expression n ts = .ok (trees, rest.tail)
  | .entries trees => ∀ n, At .closeBrace rest → ts.length ≤ n →
      items .closeBrace .commaInProperties (readEntry (inner (k + 1))) n ts =
        .ok (trees, rest.tail)

/-- The tokens that may stand behind a phrase. -/
def Phrase.Follow : Phrase → List Token → Prop
  | .statement .expression _, rest | .expression _, rest => EndsExpression rest
  | .statement .brace _, rest | .conditional _, rest | .alternative _, rest =>
    (next rest).kind ≠ .otherwise
  | .chain level _, rest => Ends (level.strength + 1) rest
  | .operand _, rest => EndsOperand rest
  | .entry _, rest => EndsExpression rest ∧ (next rest).kind ≠ .colon
  | _, _ => True

/-- A chain that nothing goes on with is read as a whole. -/
theorem reader_of_readBy {level : Level} {tree : Node} {k : Nat} {ts rest : List Token}
    (h : (Phrase.chain level tree).ReadBy k ts rest) (he : Ends level.strength rest) :
    level.reader (inner k) ts = .ok (tree, rest) := by
  obtain ⟨n, -, e⟩ := h
  rw [e]
  exact chainRest_stop n tree (he.2 level (Nat.le_refl _))

/-- The operands of a level, read as a whole. -/
theorem operandReader_of_readBy {level : Level} {tree : Node} {k : Nat} {ts rest : List Token}
    (h : (level.operand tree).Follow rest → (level.operand tree).ReadBy k ts rest)
    (he : Ends (level.strength + 1) rest) :
    level.operandReader (inner k) ts = .ok (tree, rest) := by
  cases level with
  | product => exact h he.1
  | disjunction | conjunction | equality | sum =>
    exact reader_of_readBy (h (he.mono (Nat.le_succ _))) he

theorem endsExpression_at {kind : Kind} {rest : List Token} (h : At kind rest)
    (hk : kind ∉ continuing) : EndsExpression rest := by
  obtain ⟨c, r, rfl, hc⟩ := h
  exact endsExpression_of_kind (by rwa [next_cons, hc])

/-! ## Every derived phrase is read -/

theorem StartsStatement.kind {t : Token} (h : StartsStatement t) :
    t.kind ≠ .semicolon ∧ t.kind ≠ .closeBrace ∧ t.kind ≠ .eof := by
  rcases h with h | h | h | h | h | h | h | h | h | ⟨h, -⟩ <;> simp [h]

theorem StartsExpression.kind_ne_close {t : Token} (h : StartsExpression t) :
    t.kind ≠ .closeParen ∧ t.kind ≠ .closeBracket := by
  rcases h with h | h | h | h | h | h | ⟨h, -⟩ <;> simp [h]

/-- Behind a statement of a body stands the next one or the end of the body. -/
theorem follow_statement {ending : Ending} {first : Node} {body : List Node} {v rest : List Token}
    {stop : Kind} (h : Derives (.statements body) v)
    (hj : ending = .expression → ∀ t ∈ v.head?, ¬ Joins t)
    (hs : stop = .closeBrace ∨ stop = .eof) (hr : At stop rest) :
    (Phrase.statement ending first).Follow (v ++ rest) := by
  obtain ⟨c, r, rfl, hc⟩ := hr
  have hr' : (next (c :: r)).kind = .closeBrace ∨ (next (c :: r)).kind = .eof := by
    rw [next_cons, hc]
    exact hs
  cases ending with
  | brace => exact next_statements_ne_otherwise h hr'
  | expression => exact endsExpression_statements h (hj rfl) hr'

/-- Whatever the grammar derives is read, with room for all tokens and a fitting one behind. -/
theorem Derives.readBy {p : Phrase} {w : List Token} (h : Derives p w) :
    ∀ (k : Nat) (rest : List Token), (w ++ rest).length ≤ k + 1 → p.Follow rest →
      p.ReadBy k (w ++ rest) rest := by
  -- one case a rule; a rule that goes into a reader inside gives up one token of room
  induction h with
  | noStatement hg =>
    intro k rest _ _ stop n hs hr hn
    obtain ⟨c, r, rfl, hc⟩ := hr
    obtain ⟨n, rfl⟩ : ∃ m, n = m + 1 := ⟨n - 1, by simp at hn; omega⟩
    exact statements_stop n hg hc (by rcases hs with rfl | rfl <;> simp)
  | @moreStatements gap w v ending first body hg hw hv hj ihw ihv =>
    intro k rest hl _ stop n hs hr hn
    obtain ⟨t, w', rfl, ht⟩ := hw.head id
    obtain ⟨n, rfl⟩ : ∃ m, n = m + 1 := ⟨n - 1, by simp at hn; omega⟩
    simp only [List.append_assoc, List.length_append, List.length_cons] at hl hn ⊢
    have hk := StartsStatement.kind ht
    have hstop : t.kind ≠ stop := by
      rcases hs with rfl | rfl
      · exact hk.2.1
      · exact hk.2.2
    refine statements_more n hg ⟨hk.1, hstop, hk.2.2⟩
      (ihw k (v ++ rest) (by simp; omega) (follow_statement hv hj hs hr)) ?_
    exact ihv k rest (by simp; omega) trivial stop n hs hr (by simp; omega)
  | @block o c w body ho _ hc ih =>
    intro k rest hl _
    simp only [List.cons_append, List.append_assoc, List.nil_append, List.length_cons] at hl ⊢
    exact block_ok ho (ih k (c :: rest) (by omega) trivial .closeBrace _ (.inl rfl)
      ⟨c, rest, rfl, hc⟩ (Nat.le_refl _)) hc
  | @declaration key i e w value hk hi he _ ih =>
    intro k rest hl hf
    simp only [List.cons_append, List.length_cons] at hl ⊢
    obtain ⟨k, rfl⟩ : ∃ m, k = m + 1 := ⟨k - 1, by omega⟩
    refine (readStatement_declaration (by exact hk)).trans ?_
    exact readDeclaration_ok hk hi he (ih k rest (by omega) hf)
  | @namedFunction w n hn _ ih =>
    intro k rest hl _
    obtain ⟨f, i, v, rfl, hf, hi⟩ := hn
    refine (readStatement_named ⟨f, i, v ++ rest, rfl, hf, hi⟩).trans ?_
    exact ih k rest hl trivial
  | @conditionalStatement w n hc ih =>
    intro k rest hl hf
    obtain ⟨t, w', rfl, ht⟩ := hc.head id
    refine (readStatement_conditional (by exact ht)).trans ?_
    exact ih k rest hl hf
  | @giveBack r w value hk ht hv ih =>
    intro k rest hl hf
    obtain ⟨t, w', rfl, -⟩ := hv.head id
    simp only [List.cons_append, List.length_cons] at hl ih ⊢
    obtain ⟨k, rfl⟩ : ∃ m, k = m + 1 := ⟨k - 1, by omega⟩
    exact readStatement_return hk ht (ih k rest (by omega) hf)
  | @expressionStatement w n hw hn hr ih =>
    intro k rest hl hf
    have hn' : ¬ OpensNamed (w ++ rest) := by rwa [hw.opensNamed_append id]
    obtain ⟨t, w', rfl, ht⟩ := hw.head id
    refine (readStatement_expression (by exact ht) hn' fun ⟨hk, htext⟩ => ?_).trans
      (ih k rest hl hf)
    exact hr ⟨t, w', rfl, hk, htext⟩
  | @conditional s w v u condition body alternative hs _ hv _ ihw ihv ihu =>
    intro k rest hl hf
    obtain ⟨b, v', rfl, hb⟩ := hv.head id
    have hends : EndsExpression (b :: v' ++ (u ++ rest)) :=
      endsExpression_of_kind (by rw [List.cons_append, next_cons, show b.kind = _ from hb]; decide)
    simp only [List.cons_append, List.append_assoc, List.length_cons, List.length_append]
      at hl ihw ihv ⊢
    obtain ⟨k, rfl⟩ : ∃ m, k = m + 1 := ⟨k - 1, by omega⟩
    exact readConditional_ok hs (ihw k (b :: v' ++ (u ++ rest)) (by simp; omega) hends)
      (ihv k (u ++ rest) (by simp; omega) trivial) (ihu k rest (by simp; omega) hf)
  | noAlternative =>
    intro k rest _ hf
    exact readAlternative_none hf
  | @otherwise e w body he hb ih =>
    intro k rest hl hf
    obtain ⟨t, w', rfl, ht⟩ := hb.head id
    simp only [List.cons_append, List.length_cons] at hl ih ⊢
    have hn : t.kind ≠ .when := by
      rw [show t.kind = .openBrace from ht]
      decide
    exact readAlternative_block he hn (ih k rest (by omega) trivial)
  | @otherwiseWhen e w n he hc ih =>
    intro k rest hl hf
    obtain ⟨t, w', rfl, ht⟩ := hc.head id
    simp only [List.cons_append, List.length_cons] at hl ih ⊢
    exact readAlternative_when he ht (ih k rest (by omega) hf)
  | @function f o c i w v name params body hf hi ho hp hc _ ih =>
    intro k rest hl _
    simp only [List.cons_append, List.append_assoc, List.length_cons, List.length_append] at hl ih ⊢
    obtain ⟨k, rfl⟩ : ∃ m, k = m + 1 := ⟨k - 1, by omega⟩
    exact readFunction_ok hf hi ho hp hc (ih k rest (by omega) trivial)
  | @disjunction w n _ ih =>
    intro k rest hl hf
    have hd := reader_of_readBy (ih k rest hl (hf.1.mono (Nat.zero_le _)))
      (hf.1.mono (Nat.zero_le _))
    exact readExpression_single hd hf.2
  | @assign e w v target value _ he hv ihw ihv =>
    intro k rest hl hf
    obtain ⟨t, v', rfl, ht⟩ := hv.head id
    have hends : Ends 0 (e :: t :: (v' ++ rest)) := ends_assign he ht _
    simp only [List.append_assoc, List.cons_append, List.length_append, List.length_cons]
      at hl ihv ⊢
    have hd := reader_of_readBy (ihw k (e :: t :: (v' ++ rest)) (by simp; omega)
      (hends.mono (Nat.zero_le _))) (hends.mono (Nat.zero_le _))
    obtain ⟨k, rfl⟩ : ∃ m, k = m + 1 := ⟨k - 1, by omega⟩
    exact readExpression_assign hd he (ihv k rest (by omega) hf)
  | @single level w n _ ih =>
    intro k rest hl hf
    have ho := operandReader_of_readBy (ih k rest hl) hf
    refine ⟨rest.length, Nat.le_refl _, ?_⟩
    rw [level.reader_eq]
    exact chain_first ho
  | @binary level w op v left right symbol _ hop hv ihw ihv =>
    intro k rest hl hf
    obtain ⟨t, v', rfl, ht⟩ := hv.head (level.nullable_operand right)
    rw [level.startsWith_operand] at ht
    obtain ⟨u, us, rfl, -⟩ := hop.head
    simp only [List.append_assoc, List.length_append, List.length_cons] at hl ihv ⊢
    -- the loop stands before the operator with the left operand made
    obtain ⟨n, hn, e⟩ := ihw k (u :: us ++ (t :: v' ++ rest)) (by simp; omega) (hop.ends _)
    have hr := operandReader_of_readBy (ihv k rest (by omega)) hf
    obtain ⟨n, rfl⟩ : ∃ m, n = m + 1 := ⟨n - 1, by simp at hn; omega⟩
    refine ⟨n, by simp at hn; omega, ?_⟩
    rw [e]
    exact chainRest_step n (hop.connective_eq ht _) hr
  | @negation t w n hk ht hw ih =>
    intro k rest hl hf
    obtain ⟨u, w', rfl, -⟩ := hw.head id
    simp only [List.cons_append, List.length_cons] at hl ih ⊢
    obtain ⟨k, rfl⟩ : ∃ m, k = m + 1 := ⟨k - 1, by omega⟩
    have hp : readPrimary (inner (k + 1)) (t :: u :: (w' ++ rest)) =
        .ok (.binary (.number 0) n "-", rest) :=
      readPrimary_negation hk ht (ih k rest (by omega) hf)
    exact (readOperand_first hp).trans (suffixes_stop _ _ hf)
  | @operand w n _ ih =>
    intro k rest hl hf
    obtain ⟨m, -, e⟩ := ih k rest hl trivial
    exact e.trans (suffixes_stop m n hf)
  | @suffixed w n _ ih =>
    intro k rest hl _
    exact ⟨rest.length, Nat.le_refl _, readOperand_first (ih k rest hl trivial)⟩
  | @member d i w n _ hd hi ih =>
    intro k rest hl _
    simp only [List.append_assoc, List.cons_append, List.nil_append] at hl ⊢
    obtain ⟨m, hm, e⟩ := ih k (d :: i :: rest) hl trivial
    obtain ⟨m, rfl⟩ : ∃ j, m = j + 1 := ⟨m - 1, by simp at hm; omega⟩
    refine ⟨m, by simp at hm; omega, ?_⟩
    rw [e]
    exact suffixes_member m n hd hi
  | @index o c w v n key _ ho hv hc ihw ihv =>
    intro k rest hl _
    simp only [List.append_assoc, List.cons_append, List.nil_append] at hl ⊢
    obtain ⟨m, hm, e⟩ := ihw k (o :: (v ++ c :: rest)) hl trivial
    simp only [List.length_append, List.length_cons] at hl hm
    obtain ⟨m, rfl⟩ : ∃ j, m = j + 1 := ⟨m - 1, by omega⟩
    obtain ⟨k, rfl⟩ : ∃ j, k = j + 1 := ⟨k - 1, by omega⟩
    refine ⟨m, by omega, ?_⟩
    rw [e]
    refine suffixes_index m ho (ihv k (c :: rest) (by simp; omega) ?_) hc
    exact endsExpression_at ⟨c, rest, rfl, hc⟩ (by decide)
  | @call o c w v n args _ ho _ hc ihw ihv =>
    intro k rest hl _
    simp only [List.append_assoc, List.cons_append, List.nil_append] at hl ⊢
    obtain ⟨m, hm, e⟩ := ihw k (o :: (v ++ c :: rest)) hl trivial
    simp only [List.length_append, List.length_cons] at hl hm
    obtain ⟨m, rfl⟩ : ∃ j, m = j + 1 := ⟨m - 1, by omega⟩
    obtain ⟨k, rfl⟩ : ∃ j, k = j + 1 := ⟨k - 1, by omega⟩
    refine ⟨m, by omega, ?_⟩
    rw [e]
    exact suffixes_call m ho (ihv k (c :: rest) (by simp; omega) trivial _ _ _ (.inl rfl)
      ⟨c, rest, rfl, hc⟩ (Nat.le_refl _))
  | number hk hd hlen =>
    intro k rest _ _
    exact readPrimary_number hk hd hlen
  | ident hk =>
    intro k rest _ _
    exact readPrimary_ident hk
  | @parens o c w n ho _ hc ih =>
    intro k rest hl _
    simp only [List.cons_append, List.append_assoc, List.nil_append, List.length_cons,
      List.length_append] at hl ⊢
    obtain ⟨k, rfl⟩ : ∃ j, k = j + 1 := ⟨k - 1, by omega⟩
    refine readPrimary_parens ho (ih k (c :: rest) (by simp; omega) ?_) hc
    exact endsExpression_at ⟨c, rest, rfl, hc⟩ (by decide)
  | @object o c w entries ho _ hc ih =>
    intro k rest hl _
    simp only [List.cons_append, List.append_assoc, List.nil_append, List.length_cons,
      List.length_append] at hl ⊢
    obtain ⟨k, rfl⟩ : ∃ j, k = j + 1 := ⟨k - 1, by omega⟩
    exact readPrimary_object ho (ih k (c :: rest) (by simp; omega) trivial _
      ⟨c, rest, rfl, hc⟩ (Nat.le_refl _))
  | @list o c w elements ho _ hc ih =>
    intro k rest hl _
    simp only [List.cons_append, List.append_assoc, List.nil_append, List.length_cons,
      List.length_append] at hl ⊢
    obtain ⟨k, rfl⟩ : ∃ j, k = j + 1 := ⟨k - 1, by omega⟩
    exact readPrimary_list ho (ih k (c :: rest) (by simp; omega) trivial _ _ _ (.inr rfl)
      ⟨c, rest, rfl, hc⟩ (Nat.le_refl _))
  | @functionAtom w n hw ih =>
    intro k rest hl _
    obtain ⟨t, w', rfl, ht⟩ := hw.head id
    exact (readPrimary_function (by exact ht)).trans (ih k rest hl trivial)
  | shorthand hk =>
    intro k rest _ hf
    exact readEntry_shorthand hk hf.2
  | @entry key c w value hk hc _ ih =>
    intro k rest hl hf
    simp only [List.cons_append, List.length_cons] at hl ⊢
    exact readEntry_value hk hc (ih k rest (by omega) hf.1)
  | noElement =>
    intro k rest _ _ close comma n hk hr hn
    obtain ⟨c, r, rfl, hc⟩ := hr
    obtain ⟨n, rfl⟩ : ∃ m, n = m + 1 := ⟨n - 1, by simp at hn; omega⟩
    exact items_close hc (by rcases hk with rfl | rfl <;> decide)
  | @lastElement w n hw ih =>
    intro k rest hl _ close comma m hk hr hm
    obtain ⟨t, w', rfl, ht⟩ := hw.head id
    have hclose := StartsExpression.kind_ne_close ht
    have he : EndsExpression rest :=
      endsExpression_at hr (by rcases hk with rfl | rfl <;> decide)
    obtain ⟨c, r, rfl, hc⟩ := hr
    simp only [List.cons_append, List.length_cons, List.length_append] at hm hl ih ⊢
    obtain ⟨m, rfl⟩ : ∃ j, m = j + 1 := ⟨m - 1, by omega⟩
    exact items_last (by rcases hk with rfl | rfl <;> simp [hclose]) (ih k (c :: r) hl he) hc
      (by rcases hk with rfl | rfl <;> decide) (by omega)
  | @moreElements c w v first elements hw hc _ ihw ihv =>
    intro k rest hl _ close comma m hk hr hm
    obtain ⟨t, w', rfl, ht⟩ := hw.head id
    have hclose := StartsExpression.kind_ne_close ht
    have he : EndsExpression (c :: (v ++ rest)) := endsExpression_at ⟨c, _, rfl, hc⟩ (by decide)
    simp only [List.cons_append, List.append_assoc, List.length_cons, List.length_append]
      at hm hl ihw ⊢
    obtain ⟨m, rfl⟩ : ∃ j, m = j + 1 := ⟨m - 1, by omega⟩
    refine items_more (by rcases hk with rfl | rfl <;> simp [hclose])
      (ihw k (c :: (v ++ rest)) (by simp; omega) he) hc (by rcases hk with rfl | rfl <;> decide) ?_
    exact ihv k rest (by simp; omega) trivial close comma m hk hr (by simp; omega)
  | noEntry =>
    intro k rest _ _ n hr hn
    obtain ⟨c, r, rfl, hc⟩ := hr
    obtain ⟨n, rfl⟩ : ∃ m, n = m + 1 := ⟨n - 1, by simp at hn; omega⟩
    exact items_close hc (by decide)
  | @lastEntry w n hw ih =>
    intro k rest hl _ m hr hm
    obtain ⟨t, w', rfl, ht⟩ := hw.head id
    have he : EndsExpression rest := endsExpression_at hr (by decide)
    obtain ⟨c, r, rfl, hc⟩ := hr
    simp only [List.cons_append, List.length_cons, List.length_append] at hm hl ih ⊢
    obtain ⟨m, rfl⟩ : ∃ j, m = j + 1 := ⟨m - 1, by omega⟩
    exact items_last (by rcases ht with ht | ht <;> simp [ht]) (ih k (c :: r) hl ⟨he, by simp [hc]⟩)
      hc (by decide) (by omega)
  | @moreEntries c w v first entries hw hc _ ihw ihv =>
    intro k rest hl _ m hr hm
    obtain ⟨t, w', rfl, ht⟩ := hw.head id
    have he : EndsExpression (c :: (v ++ rest)) := endsExpression_at ⟨c, _, rfl, hc⟩ (by decide)
    simp only [List.cons_append, List.append_assoc, List.length_cons, List.length_append]
      at hm hl ihw ⊢
    obtain ⟨m, rfl⟩ : ∃ j, m = j + 1 := ⟨m - 1, by omega⟩
    refine items_more (by rcases ht with ht | ht <;> simp [ht])
      (ihw k (c :: (v ++ rest)) (by simp; omega) ⟨he, by simp [hc]⟩) hc (by decide) ?_
    exact ihv k rest (by simp; omega) trivial m hr (by simp; omega)

end Guion.Node
