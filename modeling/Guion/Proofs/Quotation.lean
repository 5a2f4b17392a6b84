import Guion.Node.Source
import Guion.Proofs.Layout

/-!
# String literals in the text of a tree

A block is indented line by line, and what a line is, is decided on the text of its statements, in
which a string literal is not told from the rest.  So a literal stands in the text as it is only
outside all blocks or if no line ends in it; else each end of a line in it has become a line feed
and the margin of all blocks around it.

    q :: (cs ++ [q]) <:+: s.toList →
      relaid margin.toList (q :: (cs ++ [q])) <:+: (indented margin s).toList
                                                                            (relaid_infix_indented)
    n.source = .ok text → ∀ e ∈ n.literals, quotedAt e.1 e.2 <:+: text.toList  (literals_in_source)
-/

namespace Guion

/-! ## Ends of lines under a margin -/

namespace Token

open Text (isLineBoundary splitLines indented)

/-- The characters with a line feed and the margin for every end of a line, of which a carriage
return with its line feed counts once. -/
def relaid (margin : List Char) : List Char → List Char
  | [] => []
  | '\r' :: '\n' :: cs => '\n' :: (margin ++ relaid margin cs)
  | c :: cs =>
    if isLineBoundary c then '\n' :: (margin ++ relaid margin cs) else c :: relaid margin cs

theorem notBefore_of_ne {c : Char} {cs : List Char}
    (h : ∀ ds, c = '\r' → cs = '\n' :: ds → False) : c = '\r' → NotBefore (· == '\n') cs := by
  rintro hc d hd
  cases cs with
  | nil => cases hd
  | cons e ds =>
    obtain rfl : e = d := Option.some.inj hd
    exact beq_eq_false_iff_ne.2 fun he => h ds hc (he ▸ rfl)

theorem ne_feed {c : Char} (h : isLineBoundary c = false) : c ≠ '\n' := by
  rintro rfl
  cases h

variable (margin : List Char)

theorem relaid_cons {c : Char} (cs : List Char) (h : isLineBoundary c = false) :
    relaid margin (c :: cs) = c :: relaid margin cs := by
  rw [relaid]
  · simp [h]
  · rintro cs' rfl rfl
    cases h

theorem relaid_boundary {c : Char} {cs : List Char} (h : isLineBoundary c = true)
    (hc : c = '\r' → NotBefore (· == '\n') cs) :
    relaid margin (c :: cs) = '\n' :: (margin ++ relaid margin cs) := by
  rw [relaid]
  · simp [h]
  · rintro cs' rfl rfl
    exact absurd (notBefore_cons.1 (hc rfl)) (by decide)

theorem relaid_append_plain {bs : List Char} (cs : List Char)
    (hb : ∀ c ∈ bs, isLineBoundary c = false) :
    relaid margin (bs ++ cs) = bs ++ relaid margin cs := by
  induction bs with
  | nil => rfl
  | cons b bs ih =>
    obtain ⟨hb, hbs⟩ := List.forall_mem_cons.1 hb
    rw [List.cons_append, relaid_cons _ _ hb, ih hbs, List.cons_append]

theorem relaid_plain {cs : List Char} (h : ∀ c ∈ cs, isLineBoundary c = false) :
    relaid margin cs = cs := by
  have happend := relaid_append_plain margin [] h
  rwa [List.append_nil, relaid, List.append_nil] at happend

theorem notBefore_append_cons {cs ds : List Char} {d : Char} (hd : d ≠ '\n')
    (h : NotBefore (· == '\n') cs) : NotBefore (· == '\n') (cs ++ d :: ds) := by
  cases cs with
  | nil => exact notBefore_cons.2 (beq_eq_false_iff_ne.2 hd)
  | cons c cs => exact h

/-- The ends of the lines on both sides of a character that is no line feed are apart. -/
theorem relaid_append {d : Char} (hd : d ≠ '\n') (cs ds : List Char) :
    relaid margin (cs ++ d :: ds) = relaid margin cs ++ relaid margin (d :: ds) := by
  induction cs using relaid.induct with
  | case1 => rfl
  | case2 cs ih =>
    rw [List.cons_append, List.cons_append, relaid, ih, relaid]
    simp
  | case3 c cs hne hb ih =>
    have hc := notBefore_of_ne hne
    rw [List.cons_append, relaid_boundary _ hb fun h => notBefore_append_cons hd (hc h), ih,
      relaid_boundary _ hb hc]
    simp
  | case4 c cs _ hb ih =>
    have hb : isLineBoundary c = false := by simpa using hb
    rw [List.cons_append, relaid_cons _ _ hb, ih, relaid_cons _ _ hb, List.cons_append]

/-- The characters around a piece that end no line stay where they are. -/
theorem relaid_between {q : Char} (hq : isLineBoundary q = false) (cs : List Char) :
    relaid margin (q :: (cs ++ [q])) = q :: (relaid margin cs ++ [q]) := by
  rw [relaid_cons _ _ hq, relaid_append _ (ne_feed hq),
    relaid_plain _ (List.forall_mem_singleton.2 hq)]

/-- What has a margin takes another one in front of it. -/
theorem relaid_relaid {inner : List Char} (hinner : ∀ c ∈ inner, isLineBoundary c = false)
    (cs : List Char) : relaid margin (relaid inner cs) = relaid (margin ++ inner) cs := by
  have hfeed (cs : List Char) : relaid margin ('\n' :: (inner ++ relaid inner cs)) =
      '\n' :: (margin ++ (inner ++ relaid margin (relaid inner cs))) := by
    rw [relaid_boundary _ rfl (by rintro ⟨⟩), relaid_append_plain _ _ hinner]
  induction cs using relaid.induct with
  | case1 => rfl
  | case2 cs ih =>
    rw [relaid, hfeed, ih, relaid, List.append_assoc]
  | case3 c cs hne hb ih =>
    rw [relaid_boundary _ hb (notBefore_of_ne hne), hfeed, ih,
      relaid_boundary _ hb (notBefore_of_ne hne), List.append_assoc]
  | case4 c cs _ hb ih =>
    have hb : isLineBoundary c = false := by simpa using hb
    rw [relaid_cons _ _ hb, relaid_cons _ _ hb, ih, relaid_cons _ _ hb]

/-- A margin of two characters is longer than any end of a line. -/
theorem length_relaid (hm : 2 ≤ margin.length) (cs : List Char) :
    cs.length ≤ (relaid margin cs).length ∧
      ((∃ c ∈ cs, isLineBoundary c = true) → cs.length < (relaid margin cs).length) := by
  induction cs using relaid.induct with
  | case1 => simp [relaid]
  | case2 cs ih =>
    rw [relaid]
    simp only [List.length_cons, List.length_append]
    omega
  | case3 c cs hne hb ih =>
    rw [relaid_boundary _ hb (notBefore_of_ne hne)]
    simp only [List.length_cons, List.length_append]
    omega
  | case4 c cs _ hb ih =>
    rw [relaid_cons _ _ (by simpa using hb)]
    simp only [List.length_cons, List.mem_cons, exists_eq_or_imp]
    refine ⟨by omega, ?_⟩
    rintro (hc | hcs)
    · exact absurd hc hb
    · have hlt := ih.2 hcs
      omega

theorem relaid_eq_self_iff (hm : 2 ≤ margin.length) (cs : List Char) :
    relaid margin cs = cs ↔ ∀ c ∈ cs, isLineBoundary c = false := by
  refine ⟨fun h c hc => ?_, relaid_plain margin⟩
  cases hb : isLineBoundary c with
  | false => rfl
  | true =>
    have hlt := (length_relaid margin hm cs).2 ⟨c, hc, hb⟩
    rw [h] at hlt
    exact absurd hlt (Nat.lt_irrefl _)

/-! ## Indented text -/

theorem marginLines_eq {lines : List (List Char)} (h : lines ≠ []) :
    marginLines margin lines = margin ++ unmargined margin lines := by
  cases lines with
  | nil => exact absurd rfl h
  | cons line rest => simp [marginLines, unmargined]

theorem unmargined_feed {cs : List Char} (h : cs ≠ []) :
    unmargined margin ([] :: splitLines cs) =
      '\n' :: (margin ++ unmargined margin (splitLines cs)) := by
  rw [unmargined, marginLines_eq _ fun hs => h (splitLines_eq_nil hs), List.nil_append]

theorem unmargined_append {d : Char} (hd : d ≠ '\n') (cs ds : List Char) :
    unmargined margin (splitLines (cs ++ d :: ds)) =
      relaid margin cs ++ unmargined margin (splitLines (d :: ds)) := by
  induction cs using relaid.induct with
  | case1 => rfl
  | case2 cs ih =>
    rw [List.cons_append, List.cons_append, splitLines, unmargined_feed _ (by simp), ih, relaid]
    simp
  | case3 c cs hne hb ih =>
    have hc := notBefore_of_ne hne
    rw [List.cons_append, splitLines_boundary hb fun h => notBefore_append_cons hd (hc h),
      unmargined_feed _ (by simp), ih, relaid_boundary _ hb hc]
    simp
  | case4 c cs _ hb ih =>
    have hb : isLineBoundary c = false := by simpa using hb
    rw [List.cons_append, splitLines_cons _ hb, unmargined_extendFirst, ih, relaid_cons _ _ hb,
      List.cons_append]

/-- A piece between two characters that end no line is relaid as it would be by itself. -/
theorem relaid_infix_indented {margin s : String} {q : Char} (hq : isLineBoundary q = false)
    {cs : List Char} (h : q :: (cs ++ [q]) <:+: s.toList) :
    relaid margin.toList (q :: (cs ++ [q])) <:+: (indented margin s).toList := by
  rw [indented_toList]
  obtain ⟨before, after, hs⟩ := h
  have hsplit : s.toList = before ++ q :: (cs ++ q :: after) := by
    rw [← hs]
    simp
  have hne : splitLines s.toList ≠ [] := fun h => by
    rw [splitLines_eq_nil h] at hsplit
    simp at hsplit
  generalize margin.toList = m at *
  refine ⟨m ++ relaid m before, unmargined m (splitLines after), ?_⟩
  calc m ++ relaid m before ++ relaid m (q :: (cs ++ [q])) ++ unmargined m (splitLines after)
      = m ++ (relaid m before ++
          q :: (relaid m cs ++ q :: unmargined m (splitLines after))) := by
        rw [relaid_between _ hq]
        simp
    _ = m ++ unmargined m (splitLines s.toList) := by
        rw [hsplit, unmargined_append _ (ne_feed hq), splitLines_cons _ hq, unmargined_extendFirst,
          unmargined_append _ (ne_feed hq), splitLines_cons _ hq, unmargined_extendFirst]
    _ = marginLines m (splitLines s.toList) := by
        rw [marginLines_eq _ hne]

end Token

/-! ## Literals and their places -/

namespace Node

open Text (isLineBoundary verbatim indented)
open Token (relaid)

/-- One block further in. -/
def deeper (e : Nat × String) : Nat × String := (e.1 + 1, e.2)

mutual

/-- The string literals in a tree, each with the number of blocks around it. -/
def literals : Node → List (Nat × String)
  | .string value => [(0, value)]
  | .program body => literalsInList body
  | .otherwise body | .function _ _ body => (literalsInList body).map deeper
  | .declare _ _ value | .giveBack value => literals value
  | .when condition body alternative =>
    literals condition ++ ((literalsInList body).map deeper ++ literalsInOption alternative)
  | .assign a b | .member a b _ | .binary a b _ => literals a ++ literals b
  | .call callee args => literals callee ++ literalsInList args
  | .property _ value => literalsInOption value
  | .object ns | .list ns => literalsInList ns
  | .ident _ | .propertyName _ | .number _ | .foreign _ => []

def literalsInList : List Node → List (Nat × String)
  | [] => []
  | node :: rest => literals node ++ literalsInList rest

def literalsInOption : Option Node → List (Nat × String)
  | none => []
  | some node => literals node

end

/-- How a string literal stands in the text inside so many blocks. -/
def quotedAt (depth : Nat) (value : String) : List Char :=
  if depth = 0 then (verbatim value).toList
  else relaid (List.replicate (2 * depth) ' ') (verbatim value).toList

theorem verbatim_toList (value : String) : ∃ q, isLineBoundary q = false ∧
    (verbatim value).toList = q :: (value.toList ++ [q]) := by
  unfold verbatim Text.quotesFor
  split
  · exact ⟨'\'', rfl, by simp [String.toList_append]⟩
  · exact ⟨'"', rfl, by simp [String.toList_append]⟩

/-- A literal without an end of a line stands in the text as it is, and so does one outside all
blocks; no other does. -/
theorem quotedAt_eq_verbatim_iff (depth : Nat) (value : String) :
    quotedAt depth value = (verbatim value).toList ↔
      depth = 0 ∨ ∀ c ∈ value.toList, isLineBoundary c = false := by
  obtain ⟨q, hq, hvalue⟩ := verbatim_toList value
  unfold quotedAt
  split
  · next h => exact ⟨fun _ => .inl h, fun _ => rfl⟩
  · next h =>
    have hm : 2 ≤ (List.replicate (2 * depth) ' ').length := by
      rw [List.length_replicate]
      omega
    rw [Token.relaid_eq_self_iff _ hm, hvalue]
    simp [h, hq, or_imp, forall_and]

/-- A block more puts its margin behind each line feed. -/
theorem quotedAt_succ (depth : Nat) (value : String) :
    quotedAt (depth + 1) value = relaid margin.toList (quotedAt depth value) := by
  have hspaces (n : Nat) : ∀ c ∈ List.replicate n ' ', isLineBoundary c = false :=
    fun c hc => (List.eq_of_mem_replicate hc) ▸ rfl
  have hmargin : margin.toList = List.replicate 2 ' ' := rfl
  unfold quotedAt
  rw [if_neg (Nat.succ_ne_zero depth), hmargin]
  split
  · next h => rw [h]
  · rw [Token.relaid_relaid _ (hspaces _), List.replicate_append_replicate]
    congr 2
    omega

theorem quotedAt_between (depth : Nat) (value : String) : ∃ q cs, isLineBoundary q = false ∧
    quotedAt depth value = q :: (cs ++ [q]) := by
  obtain ⟨q, hq, hvalue⟩ := verbatim_toList value
  unfold quotedAt
  split
  · exact ⟨q, _, hq, hvalue⟩
  · refine ⟨q, relaid (List.replicate (2 * depth) ' ') value.toList, hq, ?_⟩
    rw [hvalue, Token.relaid_between _ hq]

/-! ## Texts that show literals -/

/-- Each literal stands in the text, as it does inside the blocks around it. -/
def Shows (es : List (Nat × String)) (text : String) : Prop :=
  ∀ e ∈ es, quotedAt e.1 e.2 <:+: text.toList

/-- Each literal stands in one of the texts. -/
def ShowsAmong (es : List (Nat × String)) (texts : List String) : Prop :=
  ∀ e ∈ es, ∃ text ∈ texts, quotedAt e.1 e.2 <:+: text.toList

theorem shows_nil (text : String) : Shows [] text := List.forall_mem_nil _

namespace Shows

variable {es fs : List (Nat × String)} {text other : String}

theorem left (h : Shows es text) : Shows es (text ++ other) := fun e he => by
  rw [String.toList_append]
  exact List.infix_append_of_infix_left (h e he)

theorem right (h : Shows es text) : Shows es (other ++ text) := fun e he => by
  rw [String.toList_append]
  exact List.infix_append_of_infix_right (h e he)

theorem both (h : Shows es text) (h' : Shows fs text) : Shows (es ++ fs) text :=
  List.forall_mem_append.2 ⟨h, h'⟩

theorem guarded (h : Shows es text) (node : Node) (least : Nat) :
    Shows es (node.guarded least text) := by
  unfold Node.guarded
  split
  · exact h.right.left
  · exact h

theorem terminated (h : Shows es text) (node : Node) : Shows es (node.terminated text) := by
  unfold Node.terminated
  split
  · exact h.left
  · exact h

theorem functionText (h : Shows es text) (name : String) (params : List String) :
    Shows es (functionText name params text) := h.right

/-- Indented, the text shows the literals as they stand one block further in. -/
theorem indented (h : Shows es text) : Shows (es.map deeper) (indented margin text) := by
  refine List.forall_mem_map.2 fun e he => ?_
  obtain ⟨q, cs, hq, hshape⟩ := quotedAt_between e.1 e.2
  have hinfix := h e he
  rw [hshape] at hinfix
  have hindented : relaid margin.toList (q :: (cs ++ [q])) <:+:
      (Text.indented margin text).toList := Token.relaid_infix_indented hq hinfix
  rwa [← hshape, ← quotedAt_succ] at hindented

end Shows

theorem infix_intercalate {text : String} {texts : List String} (h : text ∈ texts)
    (separator : String) : text.toList <:+: (separator.intercalate texts).toList := by
  induction texts with
  | nil => cases h
  | cons first rest ih =>
    cases rest with
    | nil =>
      have heq : text = separator.intercalate [first] :=
        (List.mem_singleton.1 h).trans String.intercalate_singleton.symm
      exact heq ▸ List.infix_rfl
    | cons second rest =>
      rw [String.intercalate_cons_cons, String.toList_append, String.toList_append]
      rcases List.mem_cons.1 h with rfl | h
      · exact List.infix_append_of_infix_left (List.infix_append_of_infix_left List.infix_rfl)
      · exact List.infix_append_of_infix_right (ih h)

namespace ShowsAmong

variable {es fs : List (Nat × String)} {text : String} {texts : List String}

theorem cons (h : Shows es text) (h' : ShowsAmong fs texts) :
    ShowsAmong (es ++ fs) (text :: texts) := by
  refine List.forall_mem_append.2 ⟨fun e he => ?_, fun e he => ?_⟩
  · exact ⟨text, List.mem_cons_self, h e he⟩
  · obtain ⟨t, ht, hinfix⟩ := h' e he
    exact ⟨t, List.mem_cons_of_mem _ ht, hinfix⟩

/-- Among no texts there are no literals. -/
theorem shows_of_isEmpty (h : ShowsAmong es texts) (hempty : texts.isEmpty = true)
    (text : String) : Shows es text := by
  intro e he
  obtain ⟨t, ht, -⟩ := h e he
  rw [List.isEmpty_iff.1 hempty] at ht
  cases ht

theorem intercalate (h : ShowsAmong es texts) (separator : String) :
    Shows es (separator.intercalate texts) := by
  intro e he
  obtain ⟨t, ht, hinfix⟩ := h e he
  exact hinfix.trans (infix_intercalate ht separator)

theorem block (h : ShowsAmong es texts) : Shows (es.map deeper) (blockText texts) := by
  refine List.forall_mem_map.2 fun e he => ?_
  obtain ⟨t, ht, hinfix⟩ := h e he
  have hline : Shows [e] t := List.forall_mem_singleton.2 hinfix
  have hjoin : (Text.indented margin t).toList <:+:
      (String.join (texts.map (Text.indented margin))).toList := by
    rw [String.toList_join, List.flatMap_def]
    exact List.infix_of_mem_flatten (List.mem_map_of_mem (List.mem_map_of_mem ht))
  have hlines : Shows [deeper e] (String.join (texts.map (Text.indented margin))) :=
    List.forall_mem_singleton.2 ((hline.indented _ List.mem_cons_self).trans hjoin)
  unfold blockText
  rw [if_neg (by simp [List.ne_nil_of_mem ht])]
  exact hlines.right.left _ List.mem_cons_self

end ShowsAmong

/-! ## The text of a tree -/

/-- If there is a result, it has the property. -/
def OnSuccess {ε α : Type} (P : α → Prop) (x : Except ε α) : Prop := ∀ a, x = .ok a → P a

section

variable {ε α β : Type} {P : α → Prop} {Q : β → Prop}

theorem onSuccess_pure {a : α} (h : P a) : OnSuccess P (pure a : Except ε α) := by
  rintro _ ⟨⟩
  exact h

theorem onSuccess_error (e : ε) : OnSuccess P (.error e : Except ε α) := by rintro a ⟨⟩

theorem onSuccess_bind {x : Except ε α} {f : α → Except ε β} (hx : OnSuccess P x)
    (hf : ∀ a, P a → OnSuccess Q (f a)) : OnSuccess Q (x >>= f) := by
  cases x with
  | error e => exact onSuccess_error e
  | ok a => exact hf a (hx a rfl)

end

mutual

theorem shows_source : ∀ n : Node, OnSuccess (Shows n.literals) n.source
  | .program body => by
    rw [source]
    exact onSuccess_bind (shows_sourceStatements body) fun _ h =>
      onSuccess_pure (h.intercalate "\n")
  | .declare _ _ value => by
    rw [source]
    exact onSuccess_bind (shows_source value) fun _ h => onSuccess_pure h.right.left
  | .string value => by
    rw [source]
    exact onSuccess_pure (List.forall_mem_singleton.2 (List.infix_refl _))
  | .number value => fun text _ => shows_nil text
  | .giveBack value => by
    rw [source]
    exact onSuccess_bind (shows_source value) fun _ h => onSuccess_pure h.right.left
  | .ident _ => fun text _ => shows_nil text
  | .propertyName _ => fun text _ => shows_nil text
  | .property _ none => fun text _ => shows_nil text
  | .property _ (some value) => by
    rw [source]
    exact onSuccess_bind (shows_source value) fun _ h => onSuccess_pure h.right
  | .object entries => by
    rw [source]
    refine onSuccess_bind (shows_sourceList entries) fun texts h => onSuccess_pure ?_
    split
    · next hempty => exact h.shows_of_isEmpty hempty _
    · exact (h.intercalate ", ").right.left
  | .list elements => by
    rw [source]
    exact onSuccess_bind (shows_sourceList elements) fun _ h =>
      onSuccess_pure (h.intercalate ", ").right.left
  | .member owner key computed => by
    rw [source]
    refine onSuccess_bind (shows_source owner) fun _ ho => onSuccess_bind (shows_source key)
      fun _ hk => onSuccess_pure ?_
    have ho := ho.guarded owner suffixStrength
    split
    · exact ho.left.left.left.both hk.right.left
    · exact ho.left.left.both hk.right
  | .call callee args => by
    rw [source]
    refine onSuccess_bind (shows_sourceList args) fun _ ha => onSuccess_bind (shows_source callee)
      fun _ hc => onSuccess_pure ?_
    have hc := hc.guarded callee suffixStrength
    exact hc.left.left.left.both (ha.intercalate ", ").right.left
  | .binary left right symbol => by
    rw [source]
    split
    · exact onSuccess_error _
    · next k _ =>
      refine onSuccess_bind (shows_source left) fun _ hl => onSuccess_bind (shows_source right)
        fun _ hr => onSuccess_pure ?_
      exact (hl.guarded left k).left.left.left.left.both (hr.guarded right (k + 1)).right
  | .assign target value => by
    rw [source]
    refine onSuccess_bind (shows_source target) fun _ ht => onSuccess_bind (shows_source value)
      fun _ hv => onSuccess_pure ?_
    exact (ht.guarded target _).left.left.both (hv.guarded value _).right
  | .function name params body => by
    rw [source]
    exact onSuccess_bind (shows_sourceStatements body) fun _ h =>
      onSuccess_pure (h.block.functionText name params)
  | .when condition body none => by
    rw [source]
    refine onSuccess_bind (shows_source condition) fun _ hc =>
      onSuccess_bind (shows_sourceStatements body) fun _ hb => onSuccess_pure ?_
    exact hc.right.left.left.both (hb.block.right.both (shows_nil _))
  | .when condition body (some alternative) => by
    rw [source]
    refine onSuccess_bind (shows_source condition) fun _ hc =>
      onSuccess_bind (shows_sourceStatements body) fun _ hb =>
        onSuccess_bind (shows_source alternative) fun _ ha => onSuccess_pure ?_
    exact hc.right.left.left.left.left.both (hb.block.right.left.left.both ha.right)
  | .otherwise body => by
    rw [source]
    exact onSuccess_bind (shows_sourceStatements body) fun _ h => onSuccess_pure h.block.right
  | .foreign _ => fun text _ => shows_nil text

theorem shows_sourceList : ∀ ns : List Node,
    OnSuccess (ShowsAmong (literalsInList ns)) (sourceList ns)
  | [] => onSuccess_pure (List.forall_mem_nil _)
  | n :: rest => by
    rw [sourceList]
    exact onSuccess_bind (shows_source n) fun _ h => onSuccess_bind (shows_sourceList rest)
      fun _ hrest => onSuccess_pure (.cons h hrest)

theorem shows_sourceStatements : ∀ ns : List Node,
    OnSuccess (ShowsAmong (literalsInList ns)) (sourceStatements ns)
  | [] => onSuccess_pure (List.forall_mem_nil _)
  | n :: rest => by
    rw [sourceStatements]
    exact onSuccess_bind (shows_source n) fun _ h => onSuccess_bind (shows_sourceStatements rest)
      fun _ hrest => onSuccess_pure (.cons (h.terminated n) hrest)

end

/-- Every string literal of a tree stands in its text: as it is if it stands outside all blocks or
no line ends in it, and else with the margin of the blocks around it behind each line. -/
theorem literals_in_source {n : Node} {text : String} (h : n.source = .ok text) :
    ∀ e ∈ n.literals, quotedAt e.1 e.2 <:+: text.toList ∧
      (quotedAt e.1 e.2 = (verbatim e.2).toList ↔
        e.1 = 0 ∨ ∀ c ∈ e.2.toList, isLineBoundary c = false) :=
  fun e he => ⟨shows_source n text h e he, quotedAt_eq_verbatim_iff e.1 e.2⟩

/-- A function whose body is a literal of two lines. -/
def twoLines : Node := .function "f" [] [.string "a\nb"]

/-- Inside the block the second line of the literal is behind a margin. -/
theorem literals_in_source_twoLines :
    twoLines.source = .ok "funcion f()\x7b\n  \"a\n  b\";\n\x7d" ∧
      String.ofList (quotedAt 1 "a\nb") = "\"a\n  b\"" ∧
      quotedAt 1 "a\nb" <:+: "funcion f()\x7b\n  \"a\n  b\";\n\x7d".toList := by
  have hsource : twoLines.source = .ok "funcion f()\x7b\n  \"a\n  b\";\n\x7d" := rfl
  have hmem : (1, "a\nb") ∈ twoLines.literals := by decide
  exact ⟨hsource, by decide, (literals_in_source hsource _ hmem).1⟩

/-- As it is, the literal stands nowhere in the text. -/
theorem source_breaks_literal : ∃ text, twoLines.source = .ok text ∧
    ∃ e ∈ twoLines.literals, ¬ (verbatim e.2).toList <:+: text.toList := by
  have hsource : twoLines.source = .ok "funcion f()\x7b\n  \"a\n  b\";\n\x7d" := rfl
  have hmem : (1, "a\nb") ∈ twoLines.literals := by decide
  have htext : "funcion f()\x7b\n  \"a\n  b\";\n\x7d".toList = _ := String.toList_ofList
  have hliteral : (verbatim "a\nb").toList = ['"', 'a', '\n', 'b', '"'] := by decide
  refine ⟨_, hsource, _, hmem, ?_⟩
  rw [hliteral, htext]
  decide

end Node

end Guion
