import Guion.Proofs.Grammar.Follow
import Guion.Proofs.Rendering

/-!
# The tokens of a tree derive it

The parentheses and semicolons of a tree's text are enough for the grammar: apart from expression
statements that start with the return word, its tokens derive the tree again.

    Fits position n → (∀ e ∈ n.statementsIn, e.misread = false) → position.Derived n  (Fits.derived)
-/

namespace Guion.Node

open Token (Kind)

/-! ## Statements of a tree -/

/-- Whether a node in the place of a statement is an expression. -/
def isExpression : Node → Bool
  | .program _ | .declare .. | .giveBack _ | .otherwise _ | .when .. | .foreign _ => false
  | _ => true

mutual

/-- The statements of all bodies in a tree, at any depth. -/
def statementsIn : Node → List Node
  | .program body | .otherwise body | .function _ _ body => body ++ statementsInList body
  | .declare _ _ value | .giveBack value => statementsIn value
  | .when condition body alternative =>
    statementsIn condition ++ (body ++ (statementsInList body ++ statementsInOption alternative))
  | .assign a b | .binary a b _ | .member a b _ => statementsIn a ++ statementsIn b
  | .call callee args => statementsIn callee ++ statementsInList args
  | .property _ value => statementsInOption value
  | .object ns | .list ns => statementsInList ns
  | .ident _ | .propertyName _ | .number _ | .string _ | .foreign _ => []

def statementsInList : List Node → List Node
  | [] => []
  | node :: rest => statementsIn node ++ statementsInList rest

def statementsInOption : Option Node → List Node
  | none => []
  | some node => statementsIn node

end

/-- An expression statement whose text starts like a return statement. -/
def misread (n : Node) : Bool :=
  n.isExpression && n.tokens.head? == some (name Token.returnWord)

theorem statementsIn_subset_list {ns : List Node} {n : Node} (h : n ∈ ns) :
    ∀ e ∈ n.statementsIn, e ∈ statementsInList ns := by
  induction ns with
  | nil => cases h
  | cons m ns ih =>
    intro e he
    rw [statementsInList, List.mem_append]
    rcases List.mem_cons.1 h with rfl | h
    · exact .inl he
    · exact .inr (ih h e he)

/-! ## Binding strength and levels -/

/-- What a tree of a binding strength is derived as. -/
def Phrase.ofStrength : Nat → Node → Phrase
  | 0 | 1 => .expression
  | 2 => .chain .disjunction
  | 3 => .chain .conjunction
  | 4 => .chain .equality
  | 5 => .chain .sum
  | 6 => .chain .product
  | _ => .suffixed

theorem Level.ofStrength_strength (level : Level) (n : Node) :
    Phrase.ofStrength level.strength n = .chain level n := by
  cases level <;> rfl

theorem Level.strength_pos (level : Level) : 0 < level.strength := by cases level <;> decide

theorem Level.strength_lt (level : Level) : level.strength < suffixStrength := by
  cases level <;> decide

theorem Level.derives_operand {level : Level} {n : Node} {w : List Token}
    (h : Derives (.ofStrength (level.strength + 1) n) w) : Derives (level.operand n) w := by
  cases level with
  | product => exact .operand h
  | _ => exact h

theorem derives_ofStrength_pred : ∀ {i : Nat} {n : Node} {w : List Token},
    Derives (.ofStrength (i + 1) n) w → Derives (.ofStrength i n) w
  | 0, _, _, h => h
  | 1, _, _, h => .disjunction h
  | 2, _, _, h => .single h
  | 3, _, _, h => .single h
  | 4, _, _, h => .single h
  | 5, _, _, h => .single h
  | 6, _, _, h => .single (.operand h)
  | _ + 7, _, _, h => h

/-- What binds more is derived wherever what binds less is. -/
theorem derives_of_le {i j : Nat} {n : Node} {w : List Token} (hij : i ≤ j)
    (h : Derives (.ofStrength j n) w) : Derives (.ofStrength i n) w := by
  induction hij with
  | refl => exact h
  | step _ ih => exact ih (derives_ofStrength_pred h)

theorem derives_parens {n : Node} {w : List Token} (h : Derives (.expression n) w) :
    Derives (.ofStrength suffixStrength n) (mark '(' :: (w ++ [mark ')'])) :=
  .suffixed (.parens rfl h rfl)

/-- An operand is derived at the strength that its place requires: if it binds less, its parentheses
make an atom of it. -/
theorem derives_guarded {n : Node} {w : List Token} (h : Derives (.ofStrength n.strength n) w)
    {least : Nat} (hl : least ≤ suffixStrength) :
    Derives (.ofStrength least n) (guardedTokens n least w) := by
  unfold guardedTokens
  split
  · exact derives_of_le hl (derives_parens (derives_of_le (Nat.zero_le _) h))
  · exact derives_of_le (by omega) h

theorem exists_level {symbol : String} (h : symbol ∈ symbols) :
    ∃ level : Level, operatorStrength? symbol = some level.strength ∧
      level.Operator (symbol.toList.map mark) symbol := by
  simp only [symbols, List.mem_cons, List.not_mem_nil, or_false] at h
  rcases h with rfl | rfl | rfl | rfl | rfl | rfl | rfl | rfl | rfl
  · exact ⟨.disjunction, rfl, .or rfl⟩
  · exact ⟨.conjunction, rfl, .and rfl⟩
  · exact ⟨.equality, rfl, .equal rfl rfl⟩
  · exact ⟨.equality, rfl, .differ rfl rfl⟩
  · exact ⟨.sum, rfl, .sum rfl (.inl rfl)⟩
  · exact ⟨.sum, rfl, .sum rfl (.inr rfl)⟩
  · exact ⟨.product, rfl, .product rfl (.inl rfl)⟩
  · exact ⟨.product, rfl, .product rfl (.inr (.inl rfl))⟩
  · exact ⟨.product, rfl, .product rfl (.inr (.inr rfl))⟩

/-! ## Parts of a text -/

/-- Trees with commas between them, for the two kinds of lists that a phrase may be. -/
theorem derives_intercalate {item : Node → Phrase} {list : List Node → Phrase}
    (nil : Derives (list []) [])
    (last : ∀ n w, Derives (item n) w → Derives (list [n]) w)
    (more : ∀ n w ns v, Derives (item n) w → Derives (list ns) v →
      Derives (list (n :: ns)) (w ++ mark ',' :: v))
    {ns : List Node} (h : ∀ n ∈ ns, Derives (item n) n.tokens) :
    Derives (list ns) ([mark ','].intercalate (tokensList ns)) := by
  induction ns with
  | nil => exact nil
  | cons n ns ih =>
    obtain ⟨hn, hns⟩ := List.forall_mem_cons.1 h
    cases ns with
    | nil => simpa [tokensList] using last n _ hn
    | cons m ns => simpa [tokensList] using more n _ (m :: ns) _ hn (ih hns)

theorem derives_elements {ns : List Node} (h : ∀ n ∈ ns, Derives (.expression n) n.tokens) :
    Derives (.elements ns) ([mark ','].intercalate (tokensList ns)) :=
  derives_intercalate .noElement (fun _ _ => .lastElement)
    (fun _ _ _ _ hn hns => .moreElements hn rfl hns) h

theorem derives_entries {ns : List Node} (h : ∀ n ∈ ns, Derives (.entry n) n.tokens) :
    Derives (.entries ns) ([mark ','].intercalate (tokensList ns)) :=
  derives_intercalate .noEntry (fun _ _ => .lastEntry)
    (fun _ _ _ _ hn hns => .moreEntries hn rfl hns) h

theorem params_intercalate (params : List String) :
    Params params ([mark ','].intercalate (params.map fun p => [name p])) := by
  induction params with
  | nil => exact .nil
  | cons p ps ih =>
    cases ps with
    | nil => exact .last (t := name p) rfl
    | cons q qs => exact .cons (t := name p) (c := mark ',') rfl rfl ih

theorem named_label (label : String) :
    Named label (if label.isEmpty then [] else [name label]) := by
  split
  · next he =>
    rw [String.isEmpty_iff.1 he]
    exact .anonymous
  · exact .name (t := name label) rfl

/-- Semicolons may stand in front of statements. -/
theorem Derives.after_semicolons {body : List Node} {gap v : List Token} (hg : Semicolons gap)
    (h : Derives (.statements body) v) : Derives (.statements body) (gap ++ v) := by
  cases h with
  | noStatement hv =>
    exact .noStatement fun t ht => (List.mem_append.1 ht).elim (hg t) (hv t)
  | @moreStatements gap' w v _ _ _ hg' hw hv hj =>
    rw [← List.append_assoc]
    exact .moreStatements (fun t ht => (List.mem_append.1 ht).elim (hg t) (hg' t)) hw hv hj

/-! ## Expressions -/

/-- The tokens of an expression derive it with its own binding strength.  If they start with the
word of functions, it is a function: as a left operand it would stand in parentheses. -/
structure DerivedExpression (n : Node) : Prop where
  derives : Derives (.ofStrength n.strength n) n.tokens
  function : n.strength = 0 → Derives (.function n) n.tokens
  head : ∀ t ∈ n.tokens.head?, t.kind = .function → n.strength = 0

namespace DerivedExpression

variable {n : Node}

theorem expression (h : DerivedExpression n) : Derives (.expression n) n.tokens :=
  derives_of_le (Nat.zero_le _) h.derives

theorem guarded (h : DerivedExpression n) (least : Nat) (hl : least ≤ suffixStrength) :
    Derives (.ofStrength least n) (guardedTokens n least n.tokens) := derives_guarded h.derives hl

theorem head_guarded (h : DerivedExpression n) {least : Nat} (hl : 0 < least) (v : List Token) :
    ∀ t ∈ (guardedTokens n least n.tokens ++ v).head?, t.kind ≠ .function := by
  obtain ⟨t, w, hw, -⟩ := h.expression.head id
  intro u hu hk
  unfold guardedTokens at hu
  split at hu
  · cases hu
    cases hk
  · next hge =>
    have := h.head t (by rw [hw]; rfl)
    rw [hw] at hu
    cases hu
    have := this hk
    omega

/-- An expression that starts with a left operand is no function and does not start with one. -/
theorem of_left {m : Node} (h : DerivedExpression m) (least : Nat) (hl : 0 < least) {v : List Token}
    (hn : n.tokens = guardedTokens m least m.tokens ++ v) (hs : n.strength ≠ 0)
    (hd : Derives (.ofStrength n.strength n) n.tokens) : DerivedExpression n where
  derives := hd
  function e := absurd e hs
  head t ht hk := by
    rw [hn] at ht
    exact absurd hk (h.head_guarded hl v t ht)

theorem of_atom (hs : n.strength = suffixStrength + 1) (hd : Derives (.suffixed n) n.tokens)
    (hh : ∀ t ∈ n.tokens.head?, t.kind ≠ .function) : DerivedExpression n where
  derives := by rwa [hs]
  function e := absurd (hs.symm.trans e) (by decide)
  head t ht hk := absurd hk (hh t ht)

end DerivedExpression

/-! ## Statements -/

/-- The tokens of a statement derive it, apart from semicolons that are left over if it ends with an
expression. -/
def DerivedStatement (n : Node) : Prop :=
  ∃ ending w gap, terminatedTokens n n.tokens = w ++ gap ∧ Derives (.statement ending n) w ∧
    Semicolons gap ∧ (ending = .expression → gap ≠ [])

theorem semicolons_mark : Semicolons [mark ';'] := by
  simp [Semicolons, mark, Token.single?]

namespace DerivedStatement

variable {n : Node}

theorem of_expression (hs : n.needsSemicolon = true)
    (hd : Derives (.statement .expression n) n.tokens) : DerivedStatement n :=
  ⟨.expression, n.tokens, [mark ';'], by simp [terminatedTokens, hs], hd, semicolons_mark, by simp⟩

theorem of_semicolon {w : List Token} (hs : n.needsSemicolon = false)
    (hw : n.tokens = w ++ [mark ';']) (hd : Derives (.statement .expression n) w) :
    DerivedStatement n :=
  ⟨.expression, w, [mark ';'], by simp [terminatedTokens, hs, hw], hd, semicolons_mark, by simp⟩

theorem of_brace (hs : n.needsSemicolon = false) (hd : Derives (.statement .brace n) n.tokens) :
    DerivedStatement n :=
  ⟨.brace, n.tokens, [], by simp [terminatedTokens, hs], hd, by simp [Semicolons], by simp⟩

end DerivedStatement

theorem derives_body {body : List Node} (h : ∀ n ∈ body, DerivedStatement n) :
    Derives (.statements body) (bodyTokens body) := by
  induction body with
  | nil => exact .noStatement (by simp [Semicolons, bodyTokens])
  | cons n body ih =>
    obtain ⟨⟨ending, w, gap, hw, hd, hg, he⟩, hbody⟩ := List.forall_mem_cons.1 h
    rw [bodyTokens, hw, List.append_assoc]
    show Derives _ ([] ++ (w ++ (gap ++ bodyTokens body)))
    refine .moreStatements (by simp [Semicolons]) hd ((ih hbody).after_semicolons hg) ?_
    intro hexp t ht
    obtain ⟨g, gap, rfl⟩ := List.exists_cons_of_ne_nil (he hexp)
    cases ht
    have hk := hg t List.mem_cons_self
    simp [Joins, hk]

theorem derives_block {body : List Node} (h : ∀ n ∈ body, DerivedStatement n) :
    Derives (.block body) (blockTokens (bodyTokens body)) := .block rfl (derives_body h) rfl

theorem Fits.isExpression {n : Node} (h : Fits .expression n) : n.isExpression = true := by
  cases h <;> rfl

theorem Fits.needsSemicolon {n : Node} (h : Fits .expression n) (hs : n.strength ≠ 0) :
    n.needsSemicolon = true := by
  cases h with
  | function => exact absurd rfl hs
  | _ => rfl

theorem Derives.eq_function {n : Node} {w : List Token} (h : Derives (.function n) w) :
    ∃ label params body, n = .function label params body := by
  cases h
  exact ⟨_, _, _, rfl⟩

theorem opensNamed_functionTokens {label : String} (h : ¬ label.isEmpty) (params : List String)
    (ts : List Token) : OpensNamed (functionTokens label params ts) := by
  unfold functionTokens
  rw [if_neg h]
  exact ⟨_, _, _, rfl, rfl, rfl⟩

theorem DerivedExpression.statement {n : Node} (h : DerivedExpression n) (hf : Fits .expression n)
    (hm : n.misread = false) : DerivedStatement n := by
  have hret : ¬ OpensReturn n.tokens := by
    rintro ⟨r, v, hv, hk, ht⟩
    obtain rfl : r = name Token.returnWord := by
      obtain ⟨kind, text⟩ := r
      cases hk
      cases ht
      rfl
    simp [misread, hf.isExpression, hv] at hm
  have ends : n.needsSemicolon = true → ¬ OpensNamed n.tokens → DerivedStatement n :=
    fun hs hn => .of_expression hs (.expressionStatement h.expression hn hret)
  by_cases hs : n.strength = 0
  · have hfun := h.function hs
    obtain ⟨label, params, body, rfl⟩ := hfun.eq_function
    by_cases he : label.isEmpty = true
    · refine ends he ?_
      rintro ⟨f, i, v, hv, -, hi⟩
      simp [tokens, functionTokens, he] at hv
      rw [← hv.2.1] at hi
      cases hi
    · have hn : OpensNamed (tokens (.function label params body)) := by
        rw [tokens]
        exact opensNamed_functionTokens he _ _
      exact .of_brace (by simpa [Node.needsSemicolon] using he) (.namedFunction hn hfun)
  · refine ends (hf.needsSemicolon hs) ?_
    rintro ⟨f, i, v, hv, hk, -⟩
    exact hs (h.head f (by rw [hv]; rfl) hk)

/-! ## Trees -/

/-- What the tokens of a tree are derived as where it stands. -/
def Position.Derived : Position → Node → Prop
  | .expression, n => DerivedExpression n
  | .statement, n => n.misread = false → DerivedStatement n
  | .entry, n => Derives (.entry n) n.tokens

theorem misread_eq_false_of_list {ns : List Node}
    (h : ∀ e ∈ statementsInList ns, e.misread = false) {n : Node} (hn : n ∈ ns) :
    ∀ e ∈ n.statementsIn, e.misread = false := fun e he => h e (statementsIn_subset_list hn e he)

/-- The statements of a body, if none of them and none inside them is misread. -/
theorem derivedStatement_of_body {body : List Node}
    (ih : ∀ n ∈ body, (∀ e ∈ n.statementsIn, e.misread = false) → Position.statement.Derived n)
    (hm : ∀ e ∈ body, e.misread = false) (hin : ∀ e ∈ statementsInList body, e.misread = false) :
    ∀ n ∈ body, DerivedStatement n :=
  fun n hn => ih n hn (misread_eq_false_of_list hin hn) (hm n hn)

theorem Fits.derived {position : Position} {n : Node} (h : Fits position n)
    (hm : ∀ e ∈ n.statementsIn, e.misread = false) : position.Derived n := by
  induction h with
  | @declare constant label value _ _ ih =>
    intro _
    have hd : Derives (.statement .expression (.declare constant label value))
        (.ofWord (if constant then "const" else "def") :: name label :: mark '=' ::
          value.tokens) := by
      cases constant
      · exact .declaration (k := .ofWord "def") (i := name label) (.inl rfl) rfl rfl
          (ih hm).expression
      · exact .declaration (k := .ofWord "const") (i := name label) (.inr rfl) rfl rfl
          (ih hm).expression
    exact .of_semicolon rfl (by simp [tokens]) hd
  | giveBack _ ih =>
    intro _
    exact .of_semicolon rfl (by rw [tokens]; rfl) (.giveBack rfl rfl (ih hm).expression)
  | when _ _ ihc ihb =>
    intro _
    simp only [statementsIn, statementsInOption, List.forall_mem_append] at hm
    have hc := ihc hm.1
    have hb := derivedStatement_of_body ihb hm.2.1 hm.2.2.1
    have hcond := derives_of_le (Nat.zero_le _) (derives_parens hc.expression)
    have hd := Derives.conditional (s := .ofWord "si") rfl hcond (derives_block hb) .noAlternative
    exact .of_brace rfl (.conditionalStatement (by simpa [tokens] using hd))
  | whenOtherwise _ _ _ ihc ihb iho =>
    intro _
    simp only [statementsIn, statementsInOption, List.forall_mem_append] at hm
    have hc := ihc hm.1
    have hb := derivedStatement_of_body ihb hm.2.1 hm.2.2.1
    have ho := derivedStatement_of_body iho hm.2.2.2.1 hm.2.2.2.2
    have hcond := derives_of_le (Nat.zero_le _) (derives_parens hc.expression)
    have hd := Derives.conditional (s := .ofWord "si") rfl hcond (derives_block hb)
      (.otherwise (e := .ofWord "entonces") rfl (derives_block ho))
    exact .of_brace rfl (.conditionalStatement (by simpa [tokens] using hd))
  | @expression n hf ih => exact (ih hm).statement hf
  | @function label params body _ _ _ ih =>
    simp only [statementsIn, List.forall_mem_append] at hm
    have hb := derivedStatement_of_body ih hm.1 hm.2
    have hd : Derives (.function (.function label params body))
        (tokens (.function label params body)) := by
      rw [tokens]
      exact .function rfl (named_label label) rfl (params_intercalate params) rfl (derives_block hb)
    exact ⟨derives_of_le (Nat.zero_le 7) (.suffixed (.functionAtom hd)), fun _ => hd,
      fun _ _ _ => rfl⟩
  | @assign target value _ _ iht ihv =>
    simp only [statementsIn, List.forall_mem_append] at hm
    have ht := iht hm.1
    have hv := ihv hm.2
    refine ht.of_left (assignStrength + 1) (by decide) (by rw [tokens]) (Nat.succ_ne_zero _) ?_
    rw [tokens]
    exact .assign (ht.guarded (assignStrength + 1) (by decide)) rfl
      (hv.guarded assignStrength (by decide))
  | @binary left right symbol _ hsymbol _ ihl ihr =>
    simp only [statementsIn, List.forall_mem_append] at hm
    have hl := ihl hm.1
    have hr := ihr hm.2
    obtain ⟨level, hs, hop⟩ := exists_level hsymbol
    have hw : tokens (.binary left right symbol) =
        guardedTokens left level.strength left.tokens ++ (symbol.toList.map mark ++
          guardedTokens right (level.strength + 1) right.tokens) := by
      rw [tokens, hs]
      rfl
    have hn : strength (.binary left right symbol) = level.strength := by
      rw [strength, hs]
      rfl
    have hpos := level.strength_pos
    refine hl.of_left level.strength hpos hw (by omega) ?_
    rw [hn, level.ofStrength_strength, hw]
    refine .binary ?_ hop (Level.derives_operand (hr.guarded _ (level.strength_lt)))
    rw [← level.ofStrength_strength]
    exact hl.guarded _ (Nat.le_of_lt level.strength_lt)
  | @call callee args _ _ ihc iha =>
    simp only [statementsIn, List.forall_mem_append] at hm
    have hc := ihc hm.1
    have ha := derives_elements fun n hn => (iha n hn (misread_eq_false_of_list hm.2 hn)).expression
    refine hc.of_left suffixStrength (by decide) (by rw [tokens]) (Nat.succ_ne_zero _) ?_
    rw [tokens]
    exact .call (hc.guarded suffixStrength (by decide)) rfl ha rfl
  | @member owner label _ _ ih =>
    simp only [statementsIn, List.forall_mem_append] at hm
    have ho := ih hm.1
    refine ho.of_left suffixStrength (by decide) (by rw [tokens]) (Nat.succ_ne_zero _) ?_
    rw [tokens]
    exact .member (d := mark '.') (i := name label) (ho.guarded suffixStrength (by decide)) rfl rfl
  | @index owner key _ _ iho ihk =>
    simp only [statementsIn, List.forall_mem_append] at hm
    have ho := iho hm.1
    have hk := ihk hm.2
    refine ho.of_left suffixStrength (by decide) (by rw [tokens]) (Nat.succ_ne_zero _) ?_
    rw [tokens]
    exact .index (o := mark '[') (c := mark ']') (ho.guarded suffixStrength (by decide)) rfl
      hk.expression rfl
  | @ident label _ =>
    exact .of_atom rfl (.suffixed (.ident (t := name label) rfl)) (by simp [tokens, name])
  | @number m hlt =>
    refine .of_atom rfl (.suffixed ?_) (by simp [tokens])
    have hd := Derives.number (t := ⟨.number, Num.natText m⟩) rfl (Num.isDigits_natText m)
      ((Num.length_natText_le_iff (by decide) m).2 hlt)
    rwa [Num.ofDigitChars_natText] at hd
  | @object entries _ ih =>
    have he := derives_entries fun n hn => ih n hn (misread_eq_false_of_list hm hn)
    refine .of_atom rfl (.suffixed ?_) (by simp [tokens, mark, Token.single?])
    rw [tokens]
    exact .object rfl he rfl
  | @list elements _ ih =>
    have he := derives_elements fun n hn => (ih n hn (misread_eq_false_of_list hm hn)).expression
    refine .of_atom rfl (.suffixed ?_) (by simp [tokens, mark, Token.single?])
    rw [tokens]
    exact .list rfl he rfl
  | @shorthand key _ =>
    have hd := Derives.shorthand (kind_keyToken key)
    rwa [text_keyToken] at hd
  | @entry key value _ _ ih =>
    have hd := Derives.entry (kind_keyToken key) (c := mark ':') rfl (ih hm).expression
    rwa [text_keyToken] at hd

end Guion.Node
