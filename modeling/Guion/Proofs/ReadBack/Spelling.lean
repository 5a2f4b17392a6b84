import Guion.Proofs.Conversion
import Guion.Proofs.Growth
import Guion.Proofs.Rendering
import Guion.Proofs.Stepping

/-!
# Plain data and the expressions that spell it

Data of nulls, booleans, integers, lists and records with keys that can be written has an expression
that its text is read as, and evaluating the expression where the constants have their values makes
a value that shows the data.  Text and value are both followed over the data, one case for each kind
of data, and lists and records take the same two steps: their parts one after the other, then what
stands around them.

    d.Spells node → d.nestedText s = .ok text, and text is read as node           (Spells.reads)
    d.Spells node → eval apply node scope w = (.ok u, …), and u shows d           (Spells.evaluates)
-/

namespace Guion

open Node (Derives IsKey Writes keyToken mark name)

/-- The expression is what the text of the data is read as.  A negative number is written with a
sign in front, which is read as a subtraction from zero. -/
inductive Datum.Spells : Datum → Node → Prop
  | null : Spells .null (.ident "nulo")
  | bool (b : Bool) : Spells (.bool b) (.ident (if b then "verdadero" else "falso"))
  | natural {n : Nat} : n < Nat.pow 10 Num.digitLimit → Spells (.num (.int n)) (.number n)
  | negative {n : Nat} : 0 < n → n < Nat.pow 10 Num.digitLimit →
      Spells (.num (.int (-n))) (.binary (.number 0) (.number n) "-")
  | list {items : List (Datum × Node)} : (∀ e ∈ items, Spells e.1 e.2) →
      Spells (.list (items.map Prod.fst)) (.list (items.map Prod.snd))
  | record {entries : List (String × Datum × Node)} : (entries.map Prod.fst).Nodup →
      (∀ e ∈ entries, isHidden e.1 = false ∧ IsKey e.1) → (∀ e ∈ entries, Spells e.2.1 e.2.2) →
      Spells (.record (entries.map fun e => (.text e.1, e.2.1)))
        (.object (entries.map fun e => .property e.1 (some e.2.2)))

/-! ## Text -/

theorem Num.intText_neg {n : Nat} (hpos : 0 < n) (h : n < Nat.pow 10 digitLimit) :
    intText (-n) = .ok ("-" ++ natText n) := by
  have hneg : -(n : Int) < 0 := Int.neg_neg_of_pos (Int.natCast_pos.2 hpos)
  rw [intText, Int.natAbs_neg, Int.natAbs_natCast, if_pos h, intDigits, if_pos hneg,
    Int.natAbs_neg, Int.natAbs_natCast]

namespace Node

/-- Texts with commas between them. -/
theorem writes_intercalate {tss : List (List Token)} {texts : List String}
    (h : List.Forall₂ Writes tss texts) :
    Writes ([mark ','].intercalate tss) (", ".intercalate texts) := by
  induction h with
  | nil => exact .nil
  | @cons ts text tss texts hts hrest ih =>
    cases hrest with
    | nil => simpa using hts
    | cons =>
      rw [String.intercalate_cons_cons, List.intercalate_cons_cons]
      exact hts.between separates_comma ih

/-- Phrases with commas between them are a list of the phrases. -/
theorem derives_joined {item : Node → Phrase} {list : List Node → Phrase}
    (nil : Derives (list []) [])
    (last : ∀ {n w}, Derives (item n) w → Derives (list [n]) w)
    (more : ∀ {n w ns v}, Derives (item n) w → Derives (list ns) v →
      Derives (list (n :: ns)) (w ++ mark ',' :: v))
    {ns : List Node} {tss : List (List Token)}
    (h : List.Forall₂ (fun n w => Derives (item n) w) ns tss) :
    Derives (list ns) ([mark ','].intercalate tss) := by
  induction h with
  | nil => exact nil
  | @cons n w ns tss hn hrest ih =>
    cases hrest with
    | nil => simpa using last hn
    | cons =>
      rw [List.intercalate_cons_cons, List.append_assoc]
      exact more hn ih

theorem Derives.expression_of_operand {n : Node} {w : List Token} (h : Derives (.operand n) w) :
    Derives (.expression n) w := .disjunction (h.chain_of_operand .disjunction)

theorem Derives.operand_of_atom {n : Node} {w : List Token} (h : Derives (.atom n) w) :
    Derives (.operand n) w := .operand (.suffixed h)

theorem isName_of_all {s : String} (hhead : ∃ c ∈ s.toList.head?, c.isDigit = false)
    (hall : s.toList.all Token.isWordChar = true) (hword : Token.keyword? s = none) : IsName s :=
  ⟨⟨hhead, List.all_eq_true.1 hall⟩, hword⟩

theorem writes_natText (n : Nat) : Writes [⟨.number, Num.natText n⟩] (Num.natText n) :=
  writes_digits (Num.isDigits_natText n)

theorem derives_natText {n : Nat} (h : n < Nat.pow 10 Num.digitLimit) :
    Derives (.operand (.number n)) [⟨.number, Num.natText n⟩] := by
  have hd := Derives.number (t := ⟨.number, Num.natText n⟩) rfl (Num.isDigits_natText n)
    ((Num.length_natText_le_iff (by decide) n).2 h)
  rw [Num.ofDigitChars_natText] at hd
  exact hd.operand_of_atom

/-- Words that start with neither a function nor a return. -/
def StartsPlainly (ts : List Token) : Prop :=
  ∀ t ∈ ts.head?, t.kind ≠ .function ∧ (t.kind = .identifier → t.text ≠ Token.returnWord)

theorem startsPlainly_of_kind {t : Token} (hfunction : t.kind ≠ .function)
    (hidentifier : t.kind ≠ .identifier) (ts : List Token) : StartsPlainly (t :: ts) := by
  rintro _ ⟨⟩
  exact ⟨hfunction, fun h => absurd h hidentifier⟩

end Node

namespace Datum

/-- The text of the data inside other data, its tokens, and the expression that they are. -/
structure ReadsAs (s : Store) (d : Datum) (node : Node) (text : String) (ts : List Token) :
    Prop where
  nestedText : d.nestedText s = .ok text
  writes : Writes ts text
  derives : Derives (.operand node) ts
  starts : Node.StartsPlainly ts

variable {s : Store}

theorem readsAs_name {d : Datum} {symbol : String} (hd : d.nestedText s = .ok symbol)
    (hname : Node.IsName symbol) (hne : symbol ≠ Token.returnWord) :
    ReadsAs s d (.ident symbol) symbol [name symbol] where
  nestedText := hd
  writes := Node.writes_name hname
  derives := (Derives.ident (t := name symbol) rfl).operand_of_atom
  starts := by
    rintro t ⟨⟩
    exact ⟨by rintro ⟨⟩, fun _ => hne⟩

theorem exists_listTexts {items : List (Datum × Node)}
    (h : ∀ e ∈ items, ∃ text ts, ReadsAs s e.1 e.2 text ts) : ∃ texts tss,
      listTexts s (items.map Prod.fst) = .ok texts ∧ List.Forall₂ Writes tss texts ∧
      List.Forall₂ (fun n w => Derives (.expression n) w) (items.map Prod.snd) tss := by
  induction items with
  | nil => exact ⟨[], [], rfl, .nil, .nil⟩
  | cons e items ih =>
    obtain ⟨⟨text, ts, he⟩, hitems⟩ := List.forall_mem_cons.1 h
    obtain ⟨texts, tss, htexts, hwrites, hderives⟩ := ih hitems
    refine ⟨text :: texts, ts :: tss, ?_, .cons he.writes hwrites,
      .cons he.derives.expression_of_operand hderives⟩
    rw [List.map_cons, listTexts, he.nestedText, htexts]
    rfl

theorem exists_entryTexts {entries : List (String × Datum × Node)}
    (hkeys : ∀ e ∈ entries, IsKey e.1)
    (h : ∀ e ∈ entries, ∃ text ts, ReadsAs s e.2.1 e.2.2 text ts) : ∃ texts tss,
      entryTexts s (entries.map fun e => (.text e.1, e.2.1)) = .ok texts ∧
      List.Forall₂ Writes tss texts ∧
      List.Forall₂ (fun n w => Derives (.entry n) w)
        (entries.map fun e => .property e.1 (some e.2.2)) tss := by
  induction entries with
  | nil => exact ⟨[], [], rfl, .nil, .nil⟩
  | cons e entries ih =>
    obtain ⟨hkey, hkeys⟩ := List.forall_mem_cons.1 hkeys
    obtain ⟨⟨text, ts, he⟩, hentries⟩ := List.forall_mem_cons.1 h
    obtain ⟨texts, tss, htexts, hwrites, hderives⟩ := ih hkeys hentries
    have hentry := Derives.entry (Node.kind_keyToken e.1) (c := mark ':') rfl
      he.derives.expression_of_operand
    rw [Node.text_keyToken] at hentry
    have hwrite := (Node.writes_key hkey).between Node.separates_colon he.writes
    refine ⟨(e.1 ++ ": " ++ text) :: texts, (keyToken e.1 :: mark ':' :: ts) :: tss, ?_,
      .cons hwrite hwrites, .cons hentry hderives⟩
    rw [List.map_cons, entryTexts, keyText, he.nestedText, htexts]
    rfl

/-- The text of the data is read as the expression. -/
theorem Spells.reads (s : Store) {d : Datum} {node : Node} (h : d.Spells node) :
    ∃ text ts, ReadsAs s d node text ts := by
  induction h with
  | null =>
    exact ⟨_, _, readsAs_name rfl (Node.isName_of_all ⟨'n', rfl, rfl⟩ rfl rfl) (by decide)⟩
  | bool b =>
    cases b with
    | false =>
      exact ⟨_, _, readsAs_name rfl (Node.isName_of_all ⟨'f', rfl, rfl⟩ rfl rfl) (by decide)⟩
    | true =>
      exact ⟨_, _, readsAs_name rfl (Node.isName_of_all ⟨'v', rfl, rfl⟩ rfl rfl) (by decide)⟩
  | @natural n hn =>
    refine ⟨_, _, ?_, Node.writes_natText n, Node.derives_natText hn,
      Node.startsPlainly_of_kind (by rintro ⟨⟩) (by rintro ⟨⟩) _⟩
    rw [nestedText, Num.text, Num.intText_natCast hn]
  | @negative n hpos hn =>
    refine ⟨_, _, ?_, (Node.writes_natText n).after "-" [mark '-'] rfl rfl,
      .negation rfl rfl (Node.derives_natText hn),
      Node.startsPlainly_of_kind (by decide) (by decide) _⟩
    rw [nestedText, Num.text, Num.intText_neg hpos hn]
  | list _ ih =>
    obtain ⟨texts, tss, htexts, hwrites, hderives⟩ := exists_listTexts ih
    refine ⟨"[" ++ ", ".intercalate texts ++ "]", _, by rw [nestedText, htexts]; rfl,
      ((Node.writes_intercalate hwrites).after "[" [mark '['] rfl rfl).before
        Node.separates_closeBracket, ?_, Node.startsPlainly_of_kind (by decide) (by decide) _⟩
    exact (Derives.list (o := mark '[') (c := mark ']') rfl (Node.derives_joined .noElement
      .lastElement (fun hn hns => .moreElements hn rfl hns) hderives) rfl).operand_of_atom
  | record _ hkeys _ ih =>
    obtain ⟨texts, tss, htexts, hwrites, hderives⟩ :=
      exists_entryTexts (fun e he => (hkeys e he).2) ih
    have hobject := (Derives.object (o := mark '{') (c := mark '}') rfl (Node.derives_joined
      .noEntry .lastEntry (fun hn hns => .moreEntries hn rfl hns) hderives) rfl).operand_of_atom
    cases texts with
    | nil =>
      cases hwrites
      exact ⟨"\x7b\x7d", _, by rw [nestedText, htexts]; rfl, Node.writes_of_scan rfl, hobject,
        Node.startsPlainly_of_kind (by decide) (by decide) _⟩
    | cons text texts =>
      refine ⟨"\x7b " ++ ", ".intercalate (text :: texts) ++ " \x7d", _,
        by rw [nestedText, htexts]; rfl, ?_, hobject,
        Node.startsPlainly_of_kind (by decide) (by decide) _⟩
      exact ((Node.writes_intercalate hwrites).after "\x7b " [mark '{'] rfl rfl).before
        Node.separates_closeBlankBrace

end Datum

/-! ## Values -/

namespace Store

variable {s s' : Store} {f : FrameId} {entries : List (String × Value)}

/-- Constants stay when nothing changes. -/
theorem Fixes.extends (h : s.Fixes f entries) (hs : s.Extends s') : s'.Fixes f entries := by
  refine ⟨Nat.lt_of_lt_of_le h.1 hs.frames_size, fun e he => ?_⟩
  rw [hs.frame f h.1]
  exact h.2 e he

/-- A value by itself is shown as it is. -/
theorem yields_of_show {v : Value} {d : Datum} (hknown : v.Known fun _ => False)
    (h : ∀ (t : Store) depth, t.showWithin depth v = some d) :
    s.Yields s [v] fun t depth => t.showWithin depth v = some d where
  made := .refl s
  fresh := List.forall_mem_singleton.2 (hknown.mono fun _ => False.elim)
  shown t depth _ _ := h t depth

end Store

namespace Datum

open Eval

variable {apply : Applier} {scope : Scope}

/-- Where the constants have their values, the expression evaluates to a new value that shows the
data, and nothing else happens. -/
def Evaluates (apply : Applier) (scope : Scope) (d : Datum) (node : Node) : Prop :=
  ∀ w : World, w.store.Fixes scope.frame Builtin.constants → ∃ u s',
    eval apply node scope w = (.ok u, { w with store := s' }) ∧
    w.store.Yields s' [u] fun t depth => t.showWithin depth u = some d

theorem evaluates_constant {symbol : String} {v : Value} {d : Datum}
    (hmem : (symbol, v) ∈ Builtin.constants) (hknown : v.Known fun _ => False)
    (hshow : ∀ (t : Store) depth, t.showWithin depth v = some d) :
    Evaluates apply scope d (.ident symbol) := fun w hw =>
  ⟨v, w.store, eval_ident (Store.lookup_inner (hw.2 _ hmem) scope.outer),
    Store.yields_of_show hknown hshow⟩

theorem exists_evalAll {items : List (Datum × Node)}
    (h : ∀ e ∈ items, Evaluates apply scope e.1 e.2) (w : World)
    (hw : w.store.Fixes scope.frame Builtin.constants) : ∃ values s',
      evalAll apply (items.map Prod.snd) scope w = (.ok values, { w with store := s' }) ∧
      w.store.Yields s' values fun t depth =>
        List.Forall₂ (fun v d => t.showWithin depth v = some d) values (items.map Prod.fst) := by
  induction items generalizing w with
  | nil => exact ⟨[], w.store, rfl, .refl _, List.forall_mem_nil _, fun _ _ _ _ => .nil⟩
  | cons e items ih =>
    obtain ⟨he, hitems⟩ := List.forall_mem_cons.1 h
    obtain ⟨u, s₁, heval, hu⟩ := he w hw
    obtain ⟨us, s₂, hevals, hus⟩ :=
      ih hitems { w with store := s₁ } (hw.extends hu.made.extends)
    refine ⟨u :: us, s₂, ?_, (hu.append hus).imp fun t depth hboth => .cons hboth.1 hboth.2⟩
    rw [List.map_cons, evalAll, Run.bind_of_ok heval, Run.bind_of_ok hevals]
    rfl

theorem exists_evalEntries {entries : List (String × Datum × Node)}
    (h : ∀ e ∈ entries, Evaluates apply scope e.2.1 e.2.2) (w : World)
    (hw : w.store.Fixes scope.frame Builtin.constants) (made : Table Value) : ∃ pairs s',
      evalEntries apply (entries.map fun e => .property e.1 (some e.2.2)) scope made w =
        (.ok (made.insertAll pairs), { w with store := s' }) ∧
      w.store.Yields s' (pairs.map Prod.snd) fun t depth =>
        List.Forall₂ (fun e e' => e'.1 = e.1 ∧ t.showWithin depth e.2 = some e'.2) pairs
          (entries.map fun e => (e.1, e.2.1)) := by
  induction entries generalizing w made with
  | nil => exact ⟨[], w.store, rfl, .refl _, List.forall_mem_nil _, fun _ _ _ _ => .nil⟩
  | cons e entries ih =>
    obtain ⟨he, hentries⟩ := List.forall_mem_cons.1 h
    obtain ⟨u, s₁, heval, hu⟩ := he w hw
    obtain ⟨pairs, s₂, hevals, hpairs⟩ :=
      ih hentries { w with store := s₁ } (hw.extends hu.made.extends) (made.insert e.1 u)
    refine ⟨(e.1, u) :: pairs, s₂, ?_,
      (hu.append hpairs).imp fun t depth hboth => .cons ⟨rfl, hboth.1⟩ hboth.2⟩
    rw [List.map_cons, evalEntries, Run.bind_of_ok heval]
    exact hevals

/-- Evaluating the expression makes a value that shows the data. -/
theorem Spells.evaluates {d : Datum} {node : Node} (h : d.Spells node) (apply : Applier)
    (scope : Scope) : Evaluates apply scope d node := by
  induction h with
  | null =>
    exact evaluates_constant (v := .null) (by decide) trivial fun _ depth => by
      cases depth <;> rfl
  | bool b =>
    cases b with
    | false =>
      exact evaluates_constant (v := .bool false) (by decide) trivial fun _ depth => by
        cases depth <;> rfl
    | true =>
      exact evaluates_constant (v := .bool true) (by decide) trivial fun _ depth => by
        cases depth <;> rfl
  | @natural n _ =>
    exact fun w _ => ⟨.num (.int n), w.store, rfl,
      Store.yields_of_show trivial fun _ depth => by cases depth <;> rfl⟩
  | @negative n _ _ =>
    refine fun w _ => ⟨.num (.int (-n)), w.store, ?_,
      Store.yields_of_show trivial fun _ depth => by cases depth <;> rfl⟩
    refine eval_binary (l := .num (.int 0)) (r := .num (.int n)) (by decide) rfl rfl ?_
    show Except.ok (Value.num (.int (0 - n))) = _
    rw [Int.zero_sub]
  | list _ ih =>
    intro w hw
    obtain ⟨values, s', heval, hvalues⟩ := exists_evalAll ih w hw
    refine ⟨_, _, ?_, hvalues.makeList⟩
    rw [eval, Run.bind_of_ok heval]
    rfl
  | @record entries hnames hkeys _ ih =>
    intro w hw
    obtain ⟨pairs, s', heval, hpairs⟩ := exists_evalEntries ih w hw .empty
    refine ⟨_, _, ?_, hpairs.makeObject.imp fun t depth hshows => ?_⟩
    · rw [eval, Run.bind_of_ok heval]
      rfl
    · -- no key comes twice or is hidden, so that the entries stay what they are
      have hnodup : ((entries.map fun e => (e.1, e.2.1)).map Prod.fst).Nodup := by
        rwa [List.map_map]
      have htable : (Table.ofList (entries.map fun e => (e.1, e.2.1))).entries =
          entries.map fun e => (e.1, e.2.1) := Table.entries_insertAll (t := .empty) hnodup
      have hshown : ∀ e ∈ entries.map fun e => (e.1, e.2.1), (!isHidden e.1) = true := by
        intro e he
        obtain ⟨entry, hentry, rfl⟩ := List.mem_map.1 he
        rw [(hkeys entry hentry).1]
        rfl
      rw [hshows, htable, List.filter_eq_self.2 hshown, List.map_map]
      rfl

end Datum

end Guion
