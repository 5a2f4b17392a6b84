import Guion.Proofs.Whole
import Guion.Proofs.Shape

/-!
# Programs without division

In a text without the sign of division no token is one, so no operator of the trees that are read
from it is a division.  Such a tree evaluates exactly: the induction is on the tree for one body and
on the budget of nested calls for the bodies behind it, which are those of a whole store.  A call
finds no room only if the recursion limit that the calls of a script need cannot be set.

    Derives p w → (∀ t ∈ w, t.text ≠ "/") → "/" ∉ p.symbolsIn          (Derives.not_mem_symbolsIn)
    Fits position n → "/" ∉ n.symbolsIn → ExactAt fits apply position n         (exactAt_of_fits)
    Undivided body → Exact (roomFor limit ≤ mostRoom) Value.Whole
      (evaluate host limit (.program body) scope)                                  (exact_program)
-/

namespace Guion

namespace Node

/-! ## Symbols -/

theorem not_mem_symbolsInList {symbol : String} {ns : List Node} :
    symbol ∉ symbolsInList ns ↔ ∀ n ∈ ns, symbol ∉ n.symbolsIn := by
  induction ns with
  | nil => simp [symbolsInList]
  | cons n ns ih => rw [symbolsInList, List.mem_append, not_or, ih, List.forall_mem_cons]

/-- The symbols of the operators in the trees of a phrase. -/
def Phrase.symbolsIn : Phrase → List String
  | .statements ns | .block ns | .elements ns | .entries ns => symbolsInList ns
  | .statement _ n | .conditional n | .function n | .expression n | .chain _ n | .operand n
  | .suffixed n | .atom n | .entry n => n.symbolsIn
  | .alternative n => symbolsInOption n

theorem Level.symbolsIn_operand (level : Level) (n : Node) :
    (level.operand n).symbolsIn = n.symbolsIn := by cases level <;> rfl

/-- An operator that is a division is written with its sign. -/
theorem Level.Operator.ne_division {level : Level} {op : List Token} {symbol : String}
    (h : level.Operator op symbol) (hop : ∀ t ∈ op, t.text ≠ "/") : symbol ≠ "/" := by
  cases h with
  | sum => exact hop _ List.mem_cons_self
  | product => exact hop _ List.mem_cons_self
  | _ => decide

theorem Derives.not_mem_symbolsIn {p : Phrase} {w : List Token} (h : Derives p w)
    (hw : ∀ t ∈ w, t.text ≠ "/") : "/" ∉ p.symbolsIn := by
  induction h with
  | binary _ hop _ ihl ihr =>
    simp only [List.forall_mem_append] at hw
    have hl := ihl hw.1
    have hr := ihr hw.2.2
    rw [Level.symbolsIn_operand] at hr
    simp only [Phrase.symbolsIn, symbolsIn, List.mem_cons, List.mem_append, not_or] at hl ⊢
    exact ⟨(hop.ne_division hw.2.1).symm, hl, hr⟩
  | single _ ih =>
    have h := ih hw
    rwa [Level.symbolsIn_operand] at h
  | _ =>
    simp_all [Phrase.symbolsIn, symbolsIn, symbolsInList, symbolsInOption, or_imp, forall_and]

end Node

namespace Eval

open Node (Fits Position symbolsIn symbolsInList not_mem_symbolsInList)

/-! ## Parts of the rules -/

section

variable {fits : Prop}

theorem exact_declare (scope : Scope) (name : String) {b : Binding} (hb : b.value.Whole) :
    Exact fits (fun _ => True) (declare scope name b) := by
  refine exact_bind (exact_inspect fun s _ => gives_true ?_) fun _ _ => ?_
  · exact s.failsWith_mayDeclare scope trivial
  · exact exact_update fun _ hs => hs.bindName _ name hb

theorem exact_openInside (scope : Scope) : Exact fits (fun _ => True) (openInside scope) :=
  exact_create fun _ hs => ⟨hs.openFrame scope.chain, trivial⟩

theorem exact_ownerOf (v : Value) : Exact fits (fun _ => True) (ownerOf v) := by
  unfold ownerOf
  split
  · exact exact_pure trivial
  · exact exact_inspect fun _ _ => gives_error trivial

theorem exact_lookup (scope : Scope) (name : String) :
    Exact fits Value.Whole (Run.inspect fun s => s.lookup scope name) := by
  refine exact_inspect fun s hs => ⟨fun v hv => ?_, s.failsWith_lookup scope trivial⟩
  obtain ⟨f, _, b, hb, rfl⟩ := Store.exists_of_lookup hv
  exact hs.bindings f _ (Table.mem_of_find? hb)

theorem exact_getProperty (a : Address) (name : String) :
    Exact fits Value.Whole (Run.inspect fun s => .ok (s.getProperty a name)) :=
  exact_inspect fun _ hs => gives_ok (hs.getProperty a name)

theorem exact_assignName (scope : Scope) (name : String) {v : Value} (hv : v.Whole) :
    Exact fits Value.Whole (assignName scope name v) := by
  refine exact_bind (exact_inspect fun s _ => gives_true ?_) fun f _ => ?_
  · exact s.failsWith_assignable scope trivial trivial
  refine exact_bind (exact_update fun _ hs => hs.bindName f name hv) fun _ _ => ?_
  exact exact_pure hv

theorem exact_makeFunction (scope : Scope) (name : String) (params : List String)
    {body : List Node} (hb : Node.Undivided body) :
    Exact fits Value.Whole (makeFunction scope name params body) := by
  have hc : (Shape.function ⟨params, body, some scope, none⟩).Whole := ⟨hb, by rintro _ ⟨⟩⟩
  refine exact_bind (exact_create fun s hs => ⟨hs.makeFunction hc name, Value.whole_ref _⟩)
    fun f hf => ?_
  split
  · exact exact_pure hf
  · refine exact_bind (exact_declare scope name hf) fun _ _ => ?_
    exact exact_pure hf

theorem exact_target_computed {owner keyValue : Run Value} (ho : Exact fits Value.Whole owner)
    (key : Node) (hk : Exact fits Value.Whole keyValue) :
    Exact fits (fun _ => True) (target owner key true keyValue) := by
  refine exact_bind ho fun v _ => exact_bind (exact_ownerOf v) fun a _ => ?_
  refine exact_bind hk fun k hk => ?_
  refine exact_bind (exact_inspect fun s _ => gives_key s hk) fun name _ => ?_
  exact exact_pure trivial

theorem exact_target_named {owner : Run Value} (ho : Exact fits Value.Whole owner) (name : String)
    (keyValue : Run Value) :
    Exact fits (fun _ => True) (target owner (.propertyName name) false keyValue) := by
  refine exact_bind ho fun v _ => exact_bind (exact_ownerOf v) fun a _ => ?_
  exact exact_pure trivial

end

/-! ## Trees -/

section

variable {fits : Prop} {apply : Applier}

/-- Calls on whole values are exact. -/
def AppliesExactly (fits : Prop) (apply : Applier) : Prop :=
  ∀ (f : Value) (args : List Value) (self : Option Value),
    f.Whole → (∀ v ∈ args, v.Whole) → (∀ v ∈ self, v.Whole) →
      Exact fits Value.Whole (apply f args self)

/-- What the rules need of a tree at its place.  An expression may also be called or assigned to,
and then a property is not read but only looked for. -/
def ExactAt (fits : Prop) (apply : Applier) : Position → Node → Prop
  | .statement, n => ∀ scope, Exact fits Value.Whole (eval apply n scope)
  | .expression, n => (∀ scope, Exact fits Value.Whole (eval apply n scope)) ∧
      ∀ owner key computed, n = .member owner key computed → ∀ scope,
        Exact fits (fun _ => True)
          (target (eval apply owner scope) key computed (eval apply key scope))
  | .entry, n => ∃ key value, n = .property key value ∧
      ∀ v ∈ value, ∀ scope, Exact fits Value.Whole (eval apply v scope)

theorem exact_evalBody {body : List Node} (h : ∀ n ∈ body, ExactAt fits apply .statement n) :
    ∀ (scope : Scope) {last : Value}, last.Whole →
      Exact fits Value.Whole (evalBody apply body scope last) := by
  induction body with
  | nil => exact fun _ _ hlast => exact_pure hlast
  | cons n body ih =>
    obtain ⟨hn, hbody⟩ := List.forall_mem_cons.1 h
    intro scope last _
    exact exact_bind (hn scope) fun v hv => ih hbody scope hv

theorem exact_evalInside {body : List Node} (h : ∀ n ∈ body, ExactAt fits apply .statement n)
    (scope : Scope) : Exact fits Value.Whole (do evalBody apply body (← openInside scope) .null) :=
  exact_bind (exact_openInside scope) fun inside _ => exact_evalBody h inside Value.whole_null

theorem exact_evalAll {ns : List Node} (h : ∀ n ∈ ns, ExactAt fits apply .expression n)
    (scope : Scope) : Exact fits (fun vs => ∀ v ∈ vs, v.Whole) (evalAll apply ns scope) := by
  induction ns with
  | nil => exact exact_pure (List.forall_mem_nil _)
  | cons n ns ih =>
    obtain ⟨hn, hns⟩ := List.forall_mem_cons.1 h
    refine exact_bind (hn.1 scope) fun v hv => exact_bind (ih hns) fun vs hvs => ?_
    exact exact_pure (List.forall_mem_cons.2 ⟨hv, hvs⟩)

theorem exact_evalEntries {ns : List Node} (h : ∀ n ∈ ns, ExactAt fits apply .entry n)
    (scope : Scope) : ∀ {made : Table Value}, (∀ e ∈ made.entries, e.2.Whole) →
      Exact fits (fun table => ∀ e ∈ table.entries, e.2.Whole)
        (evalEntries apply ns scope made) := by
  induction ns with
  | nil => exact fun hmade => exact_pure hmade
  | cons n ns ih =>
    obtain ⟨⟨key, value, rfl, hv⟩, hns⟩ := List.forall_mem_cons.1 h
    intro made hmade
    have hinsert {v : Value} (hv : v.Whole) : ∀ e ∈ (made.insert key v).entries, e.2.Whole := by
      intro e he
      rcases Table.mem_insert he with rfl | he
      · exact hv
      · exact hmade e he
    cases value with
    | none => exact exact_bind (exact_lookup scope key) fun v hv => ih hns (hinsert hv)
    | some value => exact exact_bind (hv value rfl scope) fun v hv => ih hns (hinsert hv)

theorem exact_assign {target value : Node} (hf : Fits .expression target)
    (ht : ExactAt fits apply .expression target) (hv : ExactAt fits apply .expression value)
    (scope : Scope) : Exact fits Value.Whole (eval apply (.assign target value) scope) := by
  cases hf with
  | ident _ => exact exact_bind (hv.1 scope) fun v hv => exact_assignName scope _ hv
  | member _ _ | index _ _ =>
    refine exact_bind (hv.1 scope) fun v hv => exact_bind (ht.2 _ _ _ rfl scope) fun p _ => ?_
    refine exact_bind (exact_update fun _ hs => hs.setProperty p.1 p.2 hv) fun _ _ => ?_
    exact exact_pure hv
  | _ => exact exact_fail trivial

theorem exact_binary {left right : Node} {symbol : String} (hs : symbol ≠ "/")
    (hl : ExactAt fits apply .expression left) (hr : ExactAt fits apply .expression right)
    (scope : Scope) : Exact fits Value.Whole (eval apply (.binary left right symbol) scope) := by
  refine exact_bind (hl.1 scope) fun l hl => ?_
  split
  · split
    · exact exact_pure hl
    · exact hr.1 scope
  · exact exact_bind (hr.1 scope) fun r hr =>
      exact_inspect fun s hw => Operator.gives_apply hs hw hl hr

/-- A place that is no property needs only its evaluation. -/
theorem exactAt_of_eval {n : Node} (h : ∀ scope, Exact fits Value.Whole (eval apply n scope))
    (hn : ∀ owner key computed, n ≠ .member owner key computed) :
    ExactAt fits apply .expression n :=
  ⟨h, fun owner key computed he => absurd he (hn owner key computed)⟩

theorem exactAt_of_target {owner key : Node} {computed : Bool}
    (h : ∀ scope, Exact fits (fun _ => True)
      (target (eval apply owner scope) key computed (eval apply key scope))) :
    ExactAt fits apply .expression (.member owner key computed) := by
  refine ⟨fun scope => exact_bind (h scope) fun p _ => exact_getProperty p.1 p.2, ?_⟩
  rintro _ _ _ ⟨⟩
  exact h

variable (ha : AppliesExactly fits apply)
include ha

theorem exact_call {callee : Node} {args : List Node} (hf : Fits .expression callee)
    (hc : ExactAt fits apply .expression callee)
    (hargs : ∀ n ∈ args, ExactAt fits apply .expression n) (scope : Scope) :
    Exact fits Value.Whole (eval apply (.call callee args) scope) := by
  have plain : Exact fits Value.Whole (do
      let f ← eval apply callee scope
      let values ← evalAll apply args scope
      apply f values none) := by
    refine exact_bind (hc.1 scope) fun f hf => ?_
    refine exact_bind (exact_evalAll hargs scope) fun values hvalues => ?_
    exact ha f values none hf hvalues (by rintro _ ⟨⟩)
  cases hf with
  | member _ _ | index _ _ =>
    refine exact_bind (hc.2 _ _ _ rfl scope) fun p _ => ?_
    refine exact_bind (exact_getProperty p.1 p.2) fun f hf => ?_
    refine exact_bind (exact_evalAll hargs scope) fun values hvalues => ?_
    refine ha f values _ hf hvalues ?_
    rintro _ ⟨⟩
    exact Value.whole_ref p.1
  | _ => exact plain

/-- Without a division the rules compute exactly. -/
theorem exactAt_of_fits {position : Position} {n : Node} (h : Fits position n)
    (hn : "/" ∉ n.symbolsIn) : ExactAt fits apply position n := by
  -- the operators below a node are among its own, so no hypothesis of the induction is lost
  induction h with
  | declare _ _ ih =>
    intro scope
    refine exact_bind ((ih hn).1 scope) fun v hv => ?_
    refine exact_bind (exact_declare scope _ hv) fun _ _ => ?_
    exact exact_pure hv
  | giveBack _ ih =>
    intro scope
    refine exact_bind ((ih hn).1 scope) fun v hv => ?_
    exact fun w hw => ⟨.returned hv, hw⟩
  | when _ _ ihc ihb =>
    simp only [symbolsIn, List.mem_append, not_or, not_mem_symbolsInList] at hn
    refine fun scope => exact_bind ((ihc hn.1).1 scope) fun v _ => ?_
    split
    · exact exact_evalInside (fun n h => ihb n h (hn.2.1 n h)) scope
    · exact exact_pure Value.whole_null
  | whenOtherwise _ _ _ ihc ihb iho =>
    simp only [symbolsIn, Node.symbolsInOption, List.mem_append, not_or, not_mem_symbolsInList]
      at hn
    refine fun scope => exact_bind ((ihc hn.1).1 scope) fun v _ => ?_
    split
    · exact exact_evalInside (fun n h => ihb n h (hn.2.1 n h)) scope
    · exact exact_evalInside (fun n h => iho n h (hn.2.2 n h)) scope
  | expression _ ih => exact (ih hn).1
  | function _ _ hb _ =>
    exact exactAt_of_eval (fun scope => exact_makeFunction scope _ _ ⟨hb, hn⟩)
      (by rintro _ _ _ ⟨⟩)
  | assign hf _ ih ih' =>
    simp only [symbolsIn, List.mem_append, not_or] at hn
    exact exactAt_of_eval (exact_assign hf (ih hn.1) (ih' hn.2)) (by rintro _ _ _ ⟨⟩)
  | binary _ _ _ ih ih' =>
    simp only [symbolsIn, List.mem_cons, List.mem_append, not_or] at hn
    exact exactAt_of_eval (exact_binary (Ne.symm hn.1) (ih hn.2.1) (ih' hn.2.2))
      (by rintro _ _ _ ⟨⟩)
  | call hf _ ih ih' =>
    simp only [symbolsIn, List.mem_append, not_or, not_mem_symbolsInList] at hn
    exact exactAt_of_eval (exact_call ha hf (ih hn.1) fun n h => ih' n h (hn.2 n h))
      (by rintro _ _ _ ⟨⟩)
  | member _ _ ih =>
    simp only [symbolsIn, List.mem_append, not_or] at hn
    exact exactAt_of_target fun scope => exact_target_named ((ih hn.1).1 scope) _ _
  | index _ _ ih ih' =>
    simp only [symbolsIn, List.mem_append, not_or] at hn
    exact exactAt_of_target fun scope =>
      exact_target_computed ((ih hn.1).1 scope) _ ((ih' hn.2).1 scope)
  | ident _ => exact exactAt_of_eval (fun scope => exact_lookup scope _) (by rintro _ _ _ ⟨⟩)
  | number _ =>
    exact exactAt_of_eval (fun _ => exact_pure (Value.whole_int _)) (by rintro _ _ _ ⟨⟩)
  | object _ ih =>
    have hn := not_mem_symbolsInList.1 hn
    refine exactAt_of_eval (fun scope => ?_) (by rintro _ _ _ ⟨⟩)
    have hempty : ∀ e ∈ (Table.empty : Table Value).entries, e.2.Whole := List.forall_mem_nil _
    have hentries := exact_evalEntries (fun n h => ih n h (hn n h)) scope hempty
    refine exact_bind hentries fun table htable => ?_
    exact exact_create fun _ hs => ⟨hs.make .object trivial htable, Value.whole_ref _⟩
  | list _ ih =>
    have hn := not_mem_symbolsInList.1 hn
    refine exactAt_of_eval (fun scope => ?_) (by rintro _ _ _ ⟨⟩)
    have hitems := exact_evalAll (fun n h => ih n h (hn n h)) scope
    refine exact_bind hitems fun values hvalues => ?_
    exact exact_create fun _ hs => ⟨hs.makeList hvalues, Value.whole_ref _⟩
  | shorthand _ => exact ⟨_, none, rfl, by rintro _ ⟨⟩⟩
  | entry _ _ ih =>
    refine ⟨_, _, rfl, ?_⟩
    rintro _ ⟨⟩
    exact (ih hn).1

/-- A body in which nothing is divided, run statement by statement. -/
theorem exact_body {body : List Node} (h : Node.Undivided body) (scope : Scope) {last : Value}
    (hlast : last.Whole) : Exact fits Value.Whole (evalBody apply body scope last) :=
  exact_evalBody (fun n hn => exactAt_of_fits ha (h.1 n hn) (not_mem_symbolsInList.1 h.2 n hn))
    scope hlast

end

/-! ## Calls -/

section

variable {fits : Prop}

theorem exact_bindAll (scope : Scope) (params : List String) : ∀ {args : List Value},
    (∀ v ∈ args, v.Whole) → Exact fits (fun _ => True) (bindAll scope params args) := by
  induction params with
  | nil => exact fun _ => exact_pure trivial
  | cons p ps ih =>
    intro args hargs
    cases args with
    | nil => exact exact_bind (exact_declare scope p Value.whole_null) fun _ _ => ih hargs
    | cons v args =>
      obtain ⟨hv, hargs⟩ := List.forall_mem_cons.1 hargs
      exact exact_bind (exact_declare scope p hv) fun _ _ => ih hargs

theorem exact_callScope (c : Closure) {args : List Value} (hargs : ∀ v ∈ args, v.Whole) :
    Exact fits (fun _ => True) (callScope c args) := by
  have hopen : Exact fits (fun _ => True) (Run.create fun s => s.openFrame c.chain) :=
    exact_create fun _ hs => ⟨hs.openFrame _, trivial⟩
  refine exact_bind hopen fun scope _ => ?_
  refine exact_bind (exact_bindAll scope c.params hargs) fun _ _ => ?_
  exact exact_pure trivial

theorem exact_inCall {body : Run Value} (h : Exact fits Value.Whole body) :
    Exact fits Value.Whole (inCall body) := by
  intro w hw
  obtain ⟨he, hs⟩ := h w.enter hw
  unfold inCall
  rcases hb : body w.enter with ⟨outcome, w'⟩
  rw [hb] at he hs
  refine ⟨?_, hs⟩
  cases he with
  | value _ => exact .value Value.whole_null
  | @failed cause h =>
    cases cause with
    | endless => exact .failed trivial
    | _ => exact .failed h
  | noRoom h => exact .noRoom h
  | returned hv => exact .value hv
  | exhausted => exact .exhausted

theorem exact_callWithin (limit : Nat) {inner : Option Applier}
    (h : ∀ apply ∈ inner, AppliesExactly fits apply) (name : String) {c : Closure}
    (hc : Node.Undivided c.body) {args : List Value} (hargs : ∀ v ∈ args, v.Whole) :
    Exact fits Value.Whole (callWithin limit inner name c args) := by
  have hworld : Exact fits (fun _ => True) Run.world := fun w hw => ⟨.value trivial, hw⟩
  refine exact_bind hworld fun w _ => ?_
  split
  · exact exact_fail trivial
  · cases inner with
    | none => exact fun w hw => ⟨.exhausted, hw⟩
    | some apply =>
      refine exact_bind (exact_note _) fun _ _ => ?_
      refine exact_bind (exact_callScope c hargs) fun scope _ => ?_
      exact exact_inCall (exact_body (h apply rfl) hc scope Value.whole_null)

end

/-- No room can be made only for a recursion limit that cannot be set. -/
theorem exact_reserve (limit : Nat) :
    Exact (roomFor limit ≤ mostRoom) (fun _ => True) (reserve limit) := by
  intro w hw
  refine ⟨?_, (reserve_kept limit w).1.symm ▸ hw⟩
  rcases reserve_cases limit w with ⟨-, h⟩ | ⟨-, -, -, h⟩ | ⟨-, -, hmost, h⟩
  · exact h.symm ▸ .value trivial
  · exact h.symm ▸ .value trivial
  · exact h.symm ▸ .noRoom (Int.not_le.2 hmost)

theorem exact_callScript (limit : Nat) {inner : Option Applier}
    (h : ∀ apply ∈ inner, AppliesExactly (roomFor limit ≤ mostRoom) apply) (name : String)
    {c : Closure} (hc : Node.Undivided c.body) {args : List Value}
    (hargs : ∀ v ∈ args, v.Whole) :
    Exact (roomFor limit ≤ mostRoom) Value.Whole (callScript limit inner name c args) :=
  exact_bind (exact_reserve limit) fun _ _ => exact_callWithin limit h name hc hargs

/-- A call finds in a whole store a native of the language or a body in which nothing is divided. -/
theorem appliesExactly_applyOver (host : Host) (limit : Nat) {inner : Option Applier}
    (h : ∀ apply ∈ inner, AppliesExactly (roomFor limit ≤ mostRoom) apply) :
    AppliesExactly (roomFor limit ≤ mostRoom) (applyOver host limit inner) := by
  intro f args self hf hargs hself
  refine exact_ofStore fun s hs => ?_
  split
  · next a =>
    have hwhole := hs.shapes a
    split
    · next c hshape =>
      rw [hshape] at hwhole
      split
      · next native hn =>
        refine exact_native host (hwhole.2 native hn) ?_ hargs
        cases self with
        | none => exact hf
        | some v => exact hself v rfl
      · exact exact_callScript limit h _ hwhole.1 hargs
    · exact exact_fail trivial
  · exact exact_fail trivial

theorem appliesExactly_applier (host : Host) (limit : Nat) :
    ∀ n, AppliesExactly (roomFor limit ≤ mostRoom) (applier host limit n)
  | 0 => appliesExactly_applyOver host limit (by rintro _ ⟨⟩)
  | n + 1 => by
    refine appliesExactly_applyOver host limit ?_
    rintro _ ⟨⟩
    exact appliesExactly_applier host limit n

/-! ## Programs -/

theorem exact_endProgram {fits : Prop} {m : Run Value} (h : Exact fits Value.Whole m) :
    Exact fits Value.Whole (endProgram m) := by
  intro w hw
  obtain ⟨he, hs⟩ := h w hw
  unfold endProgram
  rcases hm : m w with ⟨outcome, w'⟩
  rw [hm] at he hs
  cases he with
  | value hv => exact ⟨.value hv, hs⟩
  | failed h => exact ⟨.failed h, hs⟩
  | noRoom h => exact ⟨.noRoom h, hs⟩
  | returned hv => exact ⟨.value hv, hs⟩
  | exhausted => exact ⟨.exhausted, hs⟩

/-- A program in which nothing is divided computes exactly. -/
theorem exact_program (host : Host) (limit : Nat) {body : List Node} (hb : Node.Undivided body)
    (scope : Scope) :
    Exact (roomFor limit ≤ mostRoom) Value.Whole (evaluate host limit (.program body) scope) :=
  exact_endProgram (exact_body (appliesExactly_applier host limit limit) hb scope Value.whole_null)

end Eval

end Guion
