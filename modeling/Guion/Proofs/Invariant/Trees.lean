import Guion.Proofs.Invariant

/-!
# Evaluation keeps every invariant

Natives give back data that become new values; a tree runs in the chain that it is given; a call
runs in the chain of the function that it found.  So the induction is on the tree for one body and
on the budget of nested calls for the bodies behind it, as it is for every property of evaluation.

    inv.Keeps i inv.Known (native.call host self args)                          (keeps_native)
    inv.Keeps i inv.Known (eval apply node scope)           if `apply` keeps it    (keeps_eval)
    inv.Keeps i inv.Known (evaluate host limit node scope)                    (keeps_evaluate)
-/

namespace Guion.Eval.Invariant

variable {host : Host} {I : Type} [Preorder I] {inv : Invariant host I} {i : I}

/-! ## From data to a value -/

section

variable {α β : Type}

/-- A step of the store that fails or leads to a later index. -/
def Gives (inv : Invariant host I) (i : I) (w : World) (Q : I → α → Prop)
    (x : Except Failure (Store × α)) : Prop :=
  ∀ p, x = .ok p → ∃ j, i ≤ j ∧ inv.Holds j { w with store := p.1 } ∧ Q j p.2

theorem gives_ok {w : World} {Q : I → α → Prop} {p : Store × α}
    (h : ∃ j, i ≤ j ∧ inv.Holds j { w with store := p.1 } ∧ Q j p.2) :
    inv.Gives i w Q (.ok p) := by
  rintro _ ⟨⟩
  exact h

theorem gives_error (w : World) (Q : I → α → Prop) (cause : Failure) :
    inv.Gives i w Q (.error cause) := nofun

theorem gives_bind {w : World} {P : I → α → Prop} {Q : I → β → Prop}
    {x : Except Failure (Store × α)} {f : Store × α → Except Failure (Store × β)}
    (hx : inv.Gives i w P x)
    (hf : ∀ j p, i ≤ j → inv.Holds j { w with store := p.1 } → P j p.2 →
      inv.Gives j { w with store := p.1 } Q (f p)) : inv.Gives i w Q (x >>= f) := by
  intro q hq
  cases x with
  | error cause => cases hq
  | ok p =>
    obtain ⟨j, hij, hw, hp⟩ := hx p rfl
    obtain ⟨k, hjk, hk⟩ := hf j p hij hw hp q hq
    exact ⟨k, hij.trans hjk, hk⟩

theorem gives_look {w : World} {Q : I → β → Prop} {x : Except Failure α}
    {f : α → Except Failure (Store × β)} (hf : ∀ a, inv.Gives i w Q (f a)) :
    inv.Gives i w Q (x >>= f) := by
  cases x with
  | error cause => exact gives_error w Q cause
  | ok a => exact hf a

theorem keeps_attempt {Q : I → α → Prop} {step : Store → Except Failure (Store × α)}
    (h : ∀ j w, i ≤ j → inv.Holds j w → inv.Gives j w Q (step w.store)) :
    inv.Keeps i Q (Run.attempt step) := by
  intro j w hij hw
  unfold Run.attempt
  cases hs : step w.store with
  | error cause => exact ⟨j, le_rfl, hw, trivial⟩
  | ok p => exact h j w hij hw p hs

end

/-- Data become a known value. -/
def Becomes (inv : Invariant host I) (i : I) (d : Datum) : Prop :=
  ∀ j w, i ≤ j → inv.Holds j w → inv.Gives j w inv.Known (w.store.ofDatum d)

theorem gives_ofItems {items : List Datum} (h : ∀ d ∈ items, inv.Becomes i d) :
    ∀ j w, i ≤ j → inv.Holds j w →
      inv.Gives j w (fun k vs => ∀ v ∈ vs, inv.Known k v) (w.store.ofItems items) := by
  induction items with
  | nil => exact fun j w _ hw => gives_ok ⟨j, le_rfl, hw, nofun⟩
  | cons d ds ih =>
    obtain ⟨hd, hds⟩ := List.forall_mem_cons.1 h
    intro j w hij hw
    rw [Store.ofItems]
    refine gives_bind (hd j w hij hw) fun k p hjk hp hv => ?_
    refine gives_bind (ih hds k { w with store := p.1 } (hij.trans hjk) hp) fun l q hkl hq hvs => ?_
    exact gives_ok ⟨l, le_rfl, hq, List.forall_mem_cons.2 ⟨hv.mono hkl, hvs⟩⟩

/-- A table whose values are known. -/
def KnownTable (inv : Invariant host I) (i : I) (t : Table Value) : Prop :=
  ∀ e ∈ t.entries, inv.Known i e.2

theorem knownTable_empty (i : I) : inv.KnownTable i .empty := nofun

theorem KnownTable.mono {i j : I} (h : i ≤ j) {t : Table Value} (ht : inv.KnownTable i t) :
    inv.KnownTable j t := fun e he => (ht e he).mono h

theorem KnownTable.insert {t : Table Value} (ht : inv.KnownTable i t) (key : String) {v : Value}
    (hv : inv.Known i v) : inv.KnownTable i (t.insert key v) := by
  intro e he
  rcases Table.mem_insert he with rfl | he
  · exact hv
  · exact ht e he

theorem gives_ofEntries {entries : List (Datum × Datum)} (h : ∀ e ∈ entries, inv.Becomes i e.2) :
    ∀ j w made, i ≤ j → inv.Holds j w → inv.KnownTable j made →
      inv.Gives j w inv.KnownTable (w.store.ofEntries made entries) := by
  induction entries with
  | nil => exact fun j w made _ hw hm => gives_ok ⟨j, le_rfl, hw, hm⟩
  | cons e rest ih =>
    obtain ⟨he, hrest⟩ := List.forall_mem_cons.1 h
    obtain ⟨key, d⟩ := e
    intro j w made hij hw hm
    rw [Store.ofEntries]
    refine gives_look fun name => gives_bind (he j w hij hw) fun k p hjk hp hv => ?_
    exact ih hrest k { w with store := p.1 } _ (hij.trans hjk) hp
      ((hm.mono hjk).insert name hv)

theorem known_indexed {vs : List Value} (h : ∀ v ∈ vs, inv.Known i v) :
    ∀ e ∈ Store.indexed vs, inv.Known i e.2 := by
  intro e he
  obtain ⟨p, hp, rfl⟩ := List.mem_map.1 he
  exact h p.1 (List.fst_mem_of_mem_zipIdx hp)

theorem gives_makeList {items : List Datum} (h : ∀ d ∈ items, inv.Becomes i d) {j : I} {w : World}
    (hij : i ≤ j) (hw : inv.Holds j w) :
    inv.Gives j w inv.Known (w.store.ofItems items >>= fun p => .ok (p.1.makeList p.2)) :=
  gives_bind (gives_ofItems h j w hij hw) fun _ _ _ hp hvs =>
    gives_ok (inv.make hp (.inr rfl) (known_indexed hvs))

theorem becomes_of_carries {d : Datum} (h : d.Carries (inv.Knows i) inv.Admits) :
    inv.Becomes i d := by
  induction h with
  | list _ ih =>
    intro j w hij hw
    rw [Store.ofDatum]
    exact gives_makeList ih hij hw
  | sequence _ ih =>
    intro j w hij hw
    rw [Store.ofDatum]
    exact gives_makeList ih hij hw
  | record _ ih =>
    intro j w hij hw
    rw [Store.ofDatum]
    exact gives_bind (gives_ofEntries ih j w .empty hij hw (knownTable_empty j)) fun k p _ hp ht =>
      gives_ok (inv.make hp (.inl rfl) ht)
  | @function id name hf =>
    intro j w hij hw
    refine gives_ok (inv.makeFunction name hw (inv.covers_nil j) ?_)
    rintro _ ⟨⟩
    exact hf
  | unsupported thing => exact fun j w _ _ => gives_error w inv.Known _
  | value held hv => exact fun j w hij hw => gives_ok ⟨j, le_rfl, hw, Known.mono hij hv⟩
  | _ => exact fun j w _ hw => gives_ok ⟨j, le_rfl, hw, trivial⟩

/-! ## Natives -/

/-- Runs that give back data of known values. -/
abbrev KeepsData (inv : Invariant host I) (i : I) (m : Run Datum) : Prop :=
  inv.Keeps i (fun j d => d.Carries (inv.Knows j) inv.Admits) m

theorem keepsData_plain {look : Store → Except Failure Datum}
    (h : ∀ s d, look s = .ok d → d.Plain) : inv.KeepsData i (Run.inspect look) :=
  keeps_inspect fun _ w d _ _ hl => (h w.store d hl).carries _ _

theorem plain_of_mapM_showOrFail {s : Store} : ∀ {args : List Value} {data : List Datum},
    args.mapM s.showOrFail = .ok data → ∀ d ∈ data, d.Plain := by
  intro args
  induction args with
  | nil =>
    rintro _ ⟨⟩
    exact nofun
  | cons v args ih =>
    intro data h
    rw [List.mapM_cons] at h
    cases hv : s.showOrFail v with
    | error cause =>
      rw [hv] at h
      cases h
    | ok d =>
      cases hvs : args.mapM s.showOrFail with
      | error cause =>
        rw [hv, hvs] at h
        cases h
      | ok ds =>
        rw [hv, hvs] at h
        cases h
        exact List.forall_mem_cons.2 ⟨plain_showOrFail hv, ih hvs⟩

theorem keepsData_dataFunction {name : String} (hn : inv.Admits (.dataFunction name))
    (args : List Value) : inv.KeepsData i (Run.inspect fun s =>
      (args.mapM s.showOrFail).map (host.dataFunction name)) := by
  refine keeps_inspect fun j w d _ hw hl => ?_
  cases hd : args.mapM w.store.showOrFail with
  | error cause =>
    rw [hd] at hl
    cases hl
  | ok data =>
    rw [hd] at hl
    cases hl
    exact inv.dataFunction hw hn (plain_of_mapM_showOrFail hd)

theorem keeps_printArguments (args : List Value) :
    inv.Keeps i (fun _ _ => True) (Native.printArguments args) :=
  keeps_bind (P := fun _ _ => True) (keeps_inspect fun _ _ _ _ _ _ => trivial) fun _ _ _ _ =>
    keeps_of_step fun _ _ _ hw => ⟨inv.quiet hw rfl ⟨_, rfl⟩, trivial⟩

theorem keepsData_result {native : Native} (hn : inv.Admits native) {self : Value}
    {args : List Value} (hself : inv.Known i self) (hargs : ∀ v ∈ args, inv.Known i v) :
    inv.KeepsData i (native.result host self args) := by
  cases native with
  | showSelf => exact keepsData_plain fun _ _ => plain_showOrFail
  | typeOfSelf =>
    refine keepsData_plain ?_
    rintro s _ ⟨⟩
    exact .text _
  | sourceOfSelf => exact keepsData_plain fun _ _ => plain_map Datum.Plain.text
  | printLine =>
    exact keeps_bind (keeps_printArguments args) fun _ _ _ _ => keeps_pure fun _ _ => .null
  | typeName =>
    refine keepsData_plain ?_
    rintro s _ ⟨⟩
    exact .text _
  | length =>
    cases args with
    | nil => exact keeps_fail _
    | cons v args => exact keepsData_plain fun _ _ => plain_map fun n => .num _
  | text =>
    cases args with
    | nil => exact keeps_pure fun _ _ => .text ""
    | cons v args => exact keepsData_plain fun _ _ => plain_map Datum.Plain.text
  | foreign name =>
    exact fun j w hij hw => inv.foreign hw hn (hself.mono hij) (known_all_mono hij hargs)
  | dataFunction name => exact keepsData_dataFunction hn args

theorem keeps_native {native : Native} (hn : inv.Admits native) {self : Value} {args : List Value}
    (hself : inv.Known i self) (hargs : ∀ v ∈ args, inv.Known i v) :
    inv.Keeps i inv.Known (native.call host self args) :=
  keeps_bind (keepsData_result hn hself hargs) fun _ _ _ hd => keeps_attempt (becomes_of_carries hd)

/-! ## The tree -/

/-- Calls of known values on known arguments keep the invariant. -/
def Applies (inv : Invariant host I) (apply : Applier) : Prop :=
  ∀ i f args self, inv.Known i f → (∀ v ∈ args, inv.Known i v) → (∀ v ∈ self, inv.Known i v) →
    inv.Keeps i inv.Known (apply f args self)

section

variable {apply : Applier} (ha : inv.Applies apply)
include ha

-- the theorems below use `ha` through each other, which the linter does not see
set_option linter.unusedSectionVars false

mutual

theorem keeps_eval : ∀ (n : Node) (i : I) (scope : Scope), inv.Covers i scope.chain →
    inv.Keeps i inv.Known (eval apply n scope)
  | .program body, i, scope, hs => keeps_endProgram (keeps_evalBody body i scope .null hs trivial)
  | .declare _ name value, i, scope, hs =>
    keeps_bind (keeps_eval value i scope hs) fun _ _ hij hv =>
      keeps_bind (keeps_declare name (inv.covers_mono hij hs) hv) fun _ _ hjk _ =>
        keeps_pure fun _ hkl => hv.mono (hjk.trans hkl)
  | .function name params body, i, scope, hs => keeps_makeFunction name params body hs
  | .giveBack value, i, scope, hs =>
    keeps_bind (keeps_eval value i scope hs) fun _ _ _ hv =>
      keeps_of_step fun _ _ hjk hw => ⟨hw, hv.mono hjk⟩
  | .when condition body alternative, i, scope, hs => by
    refine keeps_bind (keeps_eval condition i scope hs) fun j v hij _ => ?_
    split
    · exact keeps_bind (keeps_openFrame (inv.covers_mono hij hs)) fun k inside _ hin =>
        keeps_evalBody body k inside .null hin trivial
    · exact keeps_evalAlternative alternative j scope (inv.covers_mono hij hs)
  | .otherwise body, i, scope, hs =>
    keeps_bind (keeps_openFrame hs) fun j inside _ hin =>
      keeps_evalBody body j inside .null hin trivial
  | .number _, _, _, _ => keeps_pure fun _ _ => trivial
  | .string _, _, _, _ => keeps_pure fun _ _ => trivial
  | .ident symbol, _, _, hs => keeps_lookup symbol hs
  | .propertyName _, _, _, _ => keeps_pure fun _ _ => trivial
  | .object entries, i, scope, hs =>
    keeps_bind (keeps_evalEntries entries i scope .empty hs (knownTable_empty i)) fun _ _ _ ht =>
      keeps_make (.inl rfl) ht
  | .list elements, i, scope, hs =>
    keeps_bind (keeps_evalAll elements i scope hs) fun _ _ _ hvs =>
      keeps_make (.inr rfl) (known_indexed hvs)
  | .member owner key computed, i, scope, hs =>
    keeps_bind (keeps_target key computed (keeps_eval owner i scope hs)
      (keeps_eval key i scope hs)) fun _ p _ hp => keeps_getProperty p.2 hp
  | .binary left right symbol, i, scope, hs => by
    refine keeps_bind (keeps_eval left i scope hs) fun j l hij hl => ?_
    split
    · split
      · exact keeps_pure fun _ hjk => hl.mono hjk
      · exact keeps_eval right j scope (inv.covers_mono hij hs)
    · exact keeps_bind (keeps_eval right j scope (inv.covers_mono hij hs)) fun k r _ _ =>
        keeps_inspect fun _ _ _ _ _ h => Operator.known_apply h
  | .assign target value, i, scope, hs => by
    cases target with
    | ident symbol =>
      exact keeps_bind (keeps_eval value i scope hs) fun j v hij hv =>
        keeps_assignName symbol (inv.covers_mono hij hs) hv
    | member owner key computed =>
      refine keeps_bind (keeps_eval value i scope hs) fun j v hij hv => ?_
      have hsj := inv.covers_mono hij hs
      refine keeps_bind (keeps_target key computed (keeps_eval owner j scope hsj)
        (keeps_eval key j scope hsj)) fun k p hjk hp => ?_
      exact keeps_bind (keeps_setProperty p.2 hp (hv.mono hjk)) fun l _ hkl _ =>
        keeps_pure fun _ hlm => hv.mono (hjk.trans (hkl.trans hlm))
    | _ => exact keeps_fail _
  | .call callee args, i, scope, hs => by
    cases callee with
    | member owner key computed =>
      refine keeps_bind (keeps_target key computed (keeps_eval owner i scope hs)
        (keeps_eval key i scope hs)) fun j p hij hp => ?_
      refine keeps_bind (keeps_getProperty p.2 hp) fun k f hjk hf => ?_
      refine keeps_bind (keeps_evalAll args k scope (inv.covers_mono (hij.trans hjk) hs))
        fun l values hkl hvs => ?_
      refine ha l f values _ (hf.mono hkl) hvs ?_
      rintro _ ⟨⟩
      exact inv.knows_mono (hjk.trans hkl) hp
    | _ =>
      exact keeps_bind (keeps_eval _ i scope hs) fun j f hij hf =>
        keeps_bind (keeps_evalAll args j scope (inv.covers_mono hij hs)) fun k values hjk hvs =>
          ha k f values none (hf.mono hjk) hvs nofun
  | .property .., _, _, _ => keeps_fail _
  | .foreign _, _, _, _ => keeps_fail _

theorem keeps_evalBody : ∀ (ns : List Node) (i : I) (scope : Scope) (last : Value),
    inv.Covers i scope.chain → inv.Known i last →
      inv.Keeps i inv.Known (evalBody apply ns scope last)
  | [], _, _, _, _, hl => keeps_pure fun _ hij => hl.mono hij
  | n :: ns, i, scope, _, hs, _ =>
    keeps_bind (keeps_eval n i scope hs) fun j v hij hv =>
      keeps_evalBody ns j scope v (inv.covers_mono hij hs) hv

theorem keeps_evalAlternative : ∀ (n : Option Node) (i : I) (scope : Scope),
    inv.Covers i scope.chain → inv.Keeps i inv.Known (evalAlternative apply n scope)
  | none, _, _, _ => keeps_pure fun _ _ => trivial
  | some n, i, scope, hs => keeps_eval n i scope hs

theorem keeps_evalAll : ∀ (ns : List Node) (i : I) (scope : Scope), inv.Covers i scope.chain →
    inv.Keeps i (fun j vs => ∀ v ∈ vs, inv.Known j v) (evalAll apply ns scope)
  | [], _, _, _ => keeps_pure fun _ _ => nofun
  | n :: ns, i, scope, hs =>
    keeps_bind (keeps_eval n i scope hs) fun j _ hij hv =>
      keeps_bind (keeps_evalAll ns j scope (inv.covers_mono hij hs)) fun _ _ hjk hvs =>
        keeps_pure fun _ hkl => List.forall_mem_cons.2
          ⟨hv.mono (hjk.trans hkl), known_all_mono hkl hvs⟩

theorem keeps_evalEntries : ∀ (ns : List Node) (i : I) (scope : Scope) (made : Table Value),
    inv.Covers i scope.chain → inv.KnownTable i made →
    inv.Keeps i inv.KnownTable (evalEntries apply ns scope made)
  | [], _, _, _, _, hm => keeps_pure fun _ hij => hm.mono hij
  | n :: ns, i, scope, made, hs, hm => by
    -- nodes that are no properties have a part evaluated at most, and then fail
    have ends (m : Run Value) (h : inv.Keeps i inv.Known m) : inv.Keeps i inv.KnownTable
        (m >>= fun _ => Run.fail .malformed) := keeps_bind h fun _ _ _ _ => keeps_fail _
    cases n with
    | property key value =>
      cases value with
      | none =>
        exact keeps_bind (keeps_lookup key hs) fun j v hij hv =>
          keeps_evalEntries ns j scope _ (inv.covers_mono hij hs) ((hm.mono hij).insert key hv)
      | some value =>
        exact keeps_bind (keeps_eval value i scope hs) fun j v hij hv =>
          keeps_evalEntries ns j scope _ (inv.covers_mono hij hs) ((hm.mono hij).insert key hv)
    | declare constant name value =>
      by_cases hv : value = .foreign .nothing
      · rw [hv]
        exact keeps_fail _
      · rw [evalEntries]
        · exact ends _ (keeps_eval value i scope hs)
        · exact hv
    | giveBack value =>
      by_cases hv : value = .foreign .nothing
      · rw [hv]
        exact keeps_fail _
      · rw [evalEntries]
        · exact ends _ (keeps_eval value i scope hs)
        · exact hv
    | _ => exact keeps_fail _

end

end

/-! ## Calls -/

theorem keeps_bindAll {scope : Scope} : ∀ (params : List String) {args : List Value} {i : I},
    inv.Covers i scope.chain → (∀ v ∈ args, inv.Known i v) →
    inv.Keeps i (fun _ _ => True) (bindAll scope params args)
  | [], _, _, _, _ => keeps_pure fun _ _ => trivial
  | p :: ps, args, i, hs, hargs => by
    have first : inv.Known i (args.headD .null) := by
      cases args with
      | nil => trivial
      | cons v vs => exact hargs v List.mem_cons_self
    refine keeps_bind (keeps_declare p hs first) fun j _ hij _ => ?_
    exact keeps_bindAll ps (inv.covers_mono hij hs) fun v hv =>
      (hargs v (List.mem_of_mem_tail hv)).mono hij

theorem keeps_callScope {c : Closure} (hc : inv.Covers i c.chain) {args : List Value}
    (hargs : ∀ v ∈ args, inv.Known i v) :
    inv.Keeps i (fun j scope => inv.Covers j scope.chain) (callScope c args) :=
  keeps_bind (keeps_openFrame hc) fun _ _ hij hs =>
    keeps_bind (keeps_bindAll c.params hs (known_all_mono hij hargs)) fun _ _ hjk _ =>
      keeps_pure fun _ hkl => inv.covers_mono (hjk.trans hkl) hs

theorem keeps_inCall {body : Run Value} (h : inv.Keeps i inv.Known body) :
    inv.Keeps i inv.Known (inCall body) := by
  intro j w hij hw
  have silent (w : World) : ∃ text, w.output = w.output ++ text := ⟨"", String.append_empty.symm⟩
  obtain ⟨k, hjk, hk, he⟩ := h j w.enter hij (inv.quiet hw rfl (silent w))
  unfold inCall
  rcases hb : body w.enter with ⟨outcome, w'⟩
  rw [hb] at hk he
  refine ⟨k, hjk, inv.quiet hk rfl (silent w'), ?_⟩
  rcases outcome with (v | cause | _) | v
  · exact he
  · cases cause <;> trivial
  · trivial
  · trivial

theorem keeps_reserve (limit : Nat) : inv.Keeps i (fun _ _ => True) (reserve limit) := by
  refine keeps_of_step fun j w _ hw => ?_
  obtain ⟨hstore, houtput, -⟩ := reserve_kept limit w
  have hprints : ∃ text, (reserve limit w).2.output = w.output ++ text :=
    ⟨"", houtput.trans String.append_empty.symm⟩
  refine ⟨inv.quiet hw hstore hprints, ?_⟩
  rcases reserve_ends limit w with h | h <;> rw [h] <;> trivial

theorem keeps_callWithin (limit : Nat) {inner : Option Applier}
    (h : ∀ apply ∈ inner, inv.Applies apply) (name : String) {c : Closure}
    (hc : inv.Covers i c.chain) {args : List Value} (hargs : ∀ v ∈ args, inv.Known i v) :
    inv.Keeps i inv.Known (callWithin limit inner name c args) := by
  refine keeps_bind (m := Run.world) (P := fun _ _ => True)
    (keeps_of_step fun _ _ _ hw => ⟨hw, trivial⟩) fun j w hij _ => ?_
  split
  · exact keeps_fail _
  · cases inner with
    | none => exact keeps_of_step fun _ _ _ hw => ⟨hw, trivial⟩
    | some apply =>
      refine keeps_bind (keeps_note _) fun k _ hjk _ => ?_
      have hik := hij.trans hjk
      refine keeps_bind (keeps_callScope (inv.covers_mono hik hc) (known_all_mono hik hargs))
        fun l scope _ hs => ?_
      exact keeps_inCall (keeps_evalBody (h apply rfl) c.body l scope .null hs trivial)

theorem keeps_callScript (limit : Nat) {inner : Option Applier}
    (h : ∀ apply ∈ inner, inv.Applies apply) (name : String) {c : Closure}
    (hc : inv.Covers i c.chain) {args : List Value} (hargs : ∀ v ∈ args, inv.Known i v) :
    inv.Keeps i inv.Known (callScript limit inner name c args) :=
  keeps_bind (keeps_reserve limit) fun _ _ hij _ =>
    keeps_callWithin limit h name (inv.covers_mono hij hc) (known_all_mono hij hargs)

theorem applies_applyOver (limit : Nat) {inner : Option Applier}
    (h : ∀ apply ∈ inner, inv.Applies apply) : inv.Applies (applyOver host limit inner) := by
  intro i f args self hf hargs hself
  refine keeps_store fun j w hij hw => ?_
  split
  · next a =>
    split
    · next c hshape =>
      obtain ⟨hc, hnative⟩ := inv.closure hw (inv.knows_mono hij hf) hshape
      have hargs' := known_all_mono hij hargs
      split
      · next native hn =>
        refine keeps_native (hnative native hn) ?_ hargs'
        cases self with
        | none => exact Known.mono hij hf
        | some v => exact (hself v rfl).mono hij
      · exact keeps_callScript limit h _ hc hargs'
    · exact keeps_fail _
  · exact keeps_fail _

theorem applies_applier (limit : Nat) : ∀ n, inv.Applies (applier host limit n)
  | 0 => applies_applyOver limit nofun
  | n + 1 => by
    refine applies_applyOver limit ?_
    rintro _ ⟨⟩
    exact applies_applier limit n

theorem keeps_evaluate (limit : Nat) (node : Node) (scope : Scope)
    (hs : inv.Covers i scope.chain) : inv.Keeps i inv.Known (evaluate host limit node scope) :=
  keeps_eval (applies_applier limit limit) node i scope hs

end Guion.Eval.Invariant
