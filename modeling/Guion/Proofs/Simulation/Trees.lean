import Guion.Proofs.Simulation

/-!
# Evaluation keeps runs in step

The induction is the one of every property of evaluation, on the tree for one body and on the budget
of nested calls for the bodies behind it, here for two runs at once.  A tree may only use names that
match; a function that is called was found at corresponding addresses, so its code does too.

    sim.Simulates i sim.Values (native.call host self args) (native.call host self' args')
                                                                          (simulates_native)
    sim.Simulates i sim.Values (eval apply node scope) (eval apply node scope')
                                          if `apply` is in step with itself  (simulates_eval)
-/

namespace Guion.Eval.Simulation

variable {host : Host} {I : Type} [Preorder I] {sim : Simulation host I} {i : I}

/-! ## From data to values -/

section

variable {α β : Type}

/-- Both steps of the store fail for one cause, or both lead to a later index. -/
inductive Gives (sim : Simulation host I) (i : I) (w w' : World) (Q : I → α → α → Prop) :
    Except Failure (Store × α) → Except Failure (Store × α) → Prop
  | ok {p p' : Store × α} {j : I} : i ≤ j →
      sim.Holds j { w with store := p.1 } { w' with store := p'.1 } → Q j p.2 p'.2 →
      Gives sim i w w' Q (.ok p) (.ok p')
  | error (cause : Failure) : Gives sim i w w' Q (.error cause) (.error cause)

theorem gives_bind {w w' : World} {P : I → α → α → Prop} {Q : I → β → β → Prop}
    {x x' : Except Failure (Store × α)} {f f' : Store × α → Except Failure (Store × β)}
    (hx : sim.Gives i w w' P x x')
    (hf : ∀ j p p', i ≤ j → sim.Holds j { w with store := p.1 } { w' with store := p'.1 } →
      P j p.2 p'.2 →
      sim.Gives j { w with store := p.1 } { w' with store := p'.1 } Q (f p) (f' p')) :
    sim.Gives i w w' Q (x >>= f) (x' >>= f') := by
  cases hx with
  | error cause => exact .error cause
  | @ok p p' j hij hp ha =>
    have hnext := hf j p p' hij hp ha
    show sim.Gives i w w' Q (f p) (f' p')
    generalize f p = y, f' p' = y' at hnext
    cases hnext with
    | error cause => exact .error cause
    | ok hjk hq hb => exact .ok (hij.trans hjk) hq hb

theorem simulates_attempt {Q : I → α → α → Prop}
    {step step' : Store → Except Failure (Store × α)}
    (h : ∀ j w w', i ≤ j → sim.Holds j w w' →
      sim.Gives j w w' Q (step w.store) (step' w'.store)) :
    sim.Simulates i Q (Run.attempt step) (Run.attempt step') := by
  intro j w w' hij hw
  have hstep := h j w w' hij hw
  unfold Run.attempt
  generalize step w.store = x, step' w'.store = x' at hstep
  cases hstep with
  | error cause => exact ⟨j, le_rfl, hw, .failed cause⟩
  | ok hjk hp ha => exact ⟨_, hjk, hp, .ok ha⟩

end

/-- Data become values that match. -/
def Becomes (sim : Simulation host I) (i : I) (d : Datum) : Prop :=
  ∀ j w w', i ≤ j → sim.Holds j w w' →
    sim.Gives j w w' sim.Values (w.store.ofDatum d) (w'.store.ofDatum d)

theorem gives_ofItems {items : List Datum} (h : ∀ d ∈ items, sim.Becomes i d) :
    ∀ j w w', i ≤ j → sim.Holds j w w' →
      sim.Gives j w w' (fun k => List.Forall₂ (sim.Values k)) (w.store.ofItems items)
        (w'.store.ofItems items) := by
  induction items with
  | nil => exact fun j w w' _ hw => .ok le_rfl hw .nil
  | cons d ds ih =>
    obtain ⟨hd, hds⟩ := List.forall_mem_cons.1 h
    intro j w w' hij hw
    rw [Store.ofItems, Store.ofItems]
    refine gives_bind (hd j w w' hij hw) fun k p p' hjk hp hv => ?_
    refine gives_bind (ih hds k { w with store := p.1 } { w' with store := p'.1 }
      (hij.trans hjk) hp) fun l q q' hkl hq hvs => ?_
    exact .ok le_rfl hq (.cons (hv.mono hkl) hvs)

/-- Tables whose values match. -/
def Tables (sim : Simulation host I) (i : I) (t t' : Table Value) : Prop :=
  t.Matches (sim.Values i) t'

theorem Tables.mono {i j : I} (h : i ≤ j) {t t' : Table Value} (ht : sim.Tables i t t') :
    sim.Tables j t t' :=
  Table.Matches.mono (fun _ _ hv => Values.mono h hv) ht

theorem gives_ofEntries {entries : List (Datum × Datum)}
    (hkeys : ∀ e ∈ entries, e.1.Fixed (fun a => sim.Objects i a a) sim.Natives)
    (h : ∀ e ∈ entries, sim.Becomes i e.2) :
    ∀ j w w' made made', i ≤ j → sim.Holds j w w' → sim.Tables j made made' →
      sim.Gives j w w' sim.Tables (w.store.ofEntries made entries)
        (w'.store.ofEntries made' entries) := by
  induction entries with
  | nil => exact fun j w w' made made' _ hw hm => .ok le_rfl hw hm
  | cons e rest ih =>
    obtain ⟨key, d⟩ := e
    obtain ⟨hkey, hkeys⟩ := List.forall_mem_cons.1 hkeys
    obtain ⟨he, hrest⟩ := List.forall_mem_cons.1 h
    intro j w w' made made' hij hw hm
    have hfixed := hkey.mono fun _ => sim.objects_mono hij
    rw [Store.ofEntries, Store.ofEntries, (sim.stores hw).keyText_eq hfixed]
    cases key.keyText w.store with
    | error fault => exact .error _
    | ok name =>
      refine gives_bind (he j w w' hij hw) fun k p p' hjk hp hv => ?_
      exact ih hkeys hrest k { w with store := p.1 } { w' with store := p'.1 } _ _
        (hij.trans hjk) hp ((hm.mono hjk).insert name hv)

theorem entriesMatch_indexed {vs vs' : List Value} (h : List.Forall₂ (sim.Values i) vs vs') :
    EntriesMatch (sim.Objects i) (Store.indexed vs) (Store.indexed vs') := by
  have hzip : ∀ n, List.Forall₂ (fun p p' => p'.2 = p.2 ∧ sim.Values i p.1 p'.1)
      (vs.zipIdx n) (vs'.zipIdx n) := by
    induction h with
    | nil => exact fun _ => .nil
    | cons hv _ ih => exact fun n => .cons ⟨rfl, hv⟩ (ih (n + 1))
  unfold Store.indexed
  rw [EntriesMatch, List.forall₂_map_left_iff, List.forall₂_map_right_iff]
  exact (hzip 0).imp fun _ _ hp => ⟨congrArg Num.natText hp.1, hp.2⟩

theorem gives_makeList {items : List Datum} (h : ∀ d ∈ items, sim.Becomes i d) {j : I}
    {w w' : World} (hij : i ≤ j) (hw : sim.Holds j w w') :
    sim.Gives j w w' sim.Values (w.store.ofItems items >>= fun p => .ok (p.1.makeList p.2))
      (w'.store.ofItems items >>= fun p => .ok (p.1.makeList p.2)) := by
  refine gives_bind (gives_ofItems h j w w' hij hw) fun k p p' _ hp hvs => ?_
  obtain ⟨l, hkl, hl, ha⟩ := sim.make hp .list nofun (entriesMatch_indexed hvs)
  exact .ok hkl hl (.ref ha)

theorem becomes_of_fixed {d : Datum} (h : d.Fixed (fun a => sim.Objects i a a) sim.Natives) :
    sim.Becomes i d := by
  induction h with
  | null => exact fun j w w' _ hw => .ok le_rfl hw .null
  | bool b => exact fun j w w' _ hw => .ok le_rfl hw (.bool b)
  | num n => exact fun j w w' _ hw => .ok le_rfl hw (.num n)
  | text t => exact fun j w w' _ hw => .ok le_rfl hw (.str t)
  | list _ ih =>
    intro j w w' hij hw
    rw [Store.ofDatum, Store.ofDatum]
    exact gives_makeList ih hij hw
  | sequence _ ih =>
    intro j w w' hij hw
    rw [Store.ofDatum, Store.ofDatum]
    exact gives_makeList ih hij hw
  | record hkeys _ _ ih =>
    intro j w w' hij hw
    rw [Store.ofDatum, Store.ofDatum]
    refine gives_bind (gives_ofEntries hkeys ih j w w' .empty .empty hij hw Table.matches_empty)
      fun k p p' _ hp ht => ?_
    obtain ⟨l, hkl, hl, ha⟩ := sim.make hp .object nofun ht
    exact .ok hkl hl (.ref ha)
  | @function id name hf =>
    intro j w w' hij hw
    have hc : Closure.Matches (sim.Frames j) (Store.nativeClosure (.dataFunction id))
        (Store.nativeClosure (.dataFunction id)) := ⟨rfl, rfl, rfl, .nil⟩
    have huses : ∀ c, Shape.function (Store.nativeClosure (.dataFunction id)) = .function c →
        c.Uses sim.Names sim.Natives := by
      rintro _ ⟨⟩
      refine ⟨nofun, ?_⟩
      rintro _ ⟨⟩
      exact hf
    obtain ⟨k, hjk, hk, ha⟩ := sim.make hw (.function hc) huses
      (entriesMatch_self (Store.known_functionProperties (sim.shared hw) name))
    exact .ok hjk hk (.ref ha)
  | unsupported thing => exact fun j w w' _ _ => .error _
  | value held hv => exact fun j w w' hij hw => .ok le_rfl hw (Values.mono hij hv.matches)

/-! ## Natives -/

/-- The same data, whose values match themselves. -/
def Data (sim : Simulation host I) (i : I) (d d' : Datum) : Prop :=
  d' = d ∧ d.Fixed (fun a => sim.Objects i a a) sim.Natives

/-- Looks that give the same data, in which no values are left. -/
theorem simulates_plain {look look' : Store → Except Failure Datum}
    (heq : ∀ j w w', i ≤ j → sim.Holds j w w' → look' w'.store = look w.store)
    (hd : ∀ s d, look s = .ok d → d.Fixed (fun _ => False) sim.Natives) :
    sim.Simulates i sim.Data (Run.inspect look) (Run.inspect look') := by
  refine simulates_inspect fun j w w' hij hw => ?_
  rw [heq j w w' hij hw]
  cases hl : look w.store with
  | error cause => exact .error cause
  | ok d => exact .ok ⟨rfl, (hd w.store d hl).mono fun _ => False.elim⟩

theorem fixed_of_map {α : Type} {x : Except Failure α} {f : α → Datum} {d : Datum}
    {fixes : Address → Prop} {admits : Native → Prop} (h : x.map f = .ok d)
    (hf : ∀ a, (f a).Fixed fixes admits) : d.Fixed fixes admits := by
  cases x with
  | error cause => cases h
  | ok a =>
    cases h
    exact hf a

theorem fixed_showOrFail {s : Store} {v : Value} {d : Datum} {fixes : Address → Prop}
    {admits : Native → Prop} (h : s.showOrFail v = .ok d) : d.Fixed fixes admits := by
  unfold Store.showOrFail at h
  cases hs : s.show? v with
  | none =>
    rw [hs] at h
    cases h
  | some shown =>
    rw [hs] at h
    cases h
    exact s.fixed_showWithin _ v d hs

theorem simulates_printArguments {args args' : List Value}
    (hargs : List.Forall₂ (sim.Values i) args args') : sim.Simulates i (fun _ _ _ => True)
      (Native.printArguments args) (Native.printArguments args') := by
  refine simulates_bind (P := fun _ texts texts' => texts' = texts)
    (simulates_inspect fun j w w' hij hw => ?_) fun j texts texts' _ htexts => ?_
  · have hdisplay : args'.mapM w'.store.display = args.mapM w.store.display :=
      mapM_eq_of_forall₂ (fun _ _ hv => (sim.stores hw).display_eq hv) (values_all_mono hij hargs)
    exact agrees_of_eq hdisplay fun _ => rfl
  · rw [htexts]
    exact simulates_of_step fun _ _ _ _ hw => ⟨sim.print _ hw, .ok trivial⟩

theorem simulates_dataFunction {name : String} (hn : sim.Natives (.dataFunction name))
    {args args' : List Value} (hargs : List.Forall₂ (sim.Values i) args args') :
    sim.Simulates i sim.Data
      (Run.inspect fun s => (args.mapM s.showOrFail).map (host.dataFunction name))
      (Run.inspect fun s => (args'.mapM s.showOrFail).map (host.dataFunction name)) := by
  refine simulates_inspect fun j w w' hij hw => ?_
  have hshown : args'.mapM w'.store.showOrFail = args.mapM w.store.showOrFail :=
    mapM_eq_of_forall₂ (fun _ _ hv => (sim.stores hw).showOrFail_eq hv) (values_all_mono hij hargs)
  rw [hshown]
  cases args.mapM w.store.showOrFail with
  | error cause => exact .error cause
  | ok data => exact .ok ⟨rfl, sim.dataFunction data hw hn⟩

theorem values_headD {args args' : List Value} (h : List.Forall₂ (sim.Values i) args args') :
    sim.Values i (args.headD .null) (args'.headD .null) := by
  cases h with
  | nil => exact .null
  | cons hv _ => exact hv

theorem simulates_result {native : Native} (hn : sim.Natives native) {self self' : Value}
    {args args' : List Value} (hself : sim.Values i self self')
    (hargs : List.Forall₂ (sim.Values i) args args') :
    sim.Simulates i sim.Data (native.result host self args) (native.result host self' args') := by
  cases native with
  | showSelf =>
    exact simulates_plain (fun _ _ _ hij hw => (sim.stores hw).showOrFail_eq (hself.mono hij))
      fun _ _ h => fixed_showOrFail h
  | typeOfSelf =>
    refine simulates_plain (fun _ _ _ hij hw => ?_) ?_
    · rw [(sim.stores hw).typeName_eq (hself.mono hij)]
    · rintro s _ ⟨⟩
      exact .text _
  | sourceOfSelf =>
    refine simulates_plain (fun _ _ _ hij hw => ?_) fun _ _ h => fixed_of_map h .text
    rw [(sim.stores hw).sourceOf_eq (hself.mono hij)]
  | printLine =>
    exact simulates_bind (simulates_printArguments hargs) fun _ _ _ _ _ =>
      simulates_pure fun _ _ => ⟨rfl, .null⟩
  | typeName =>
    refine simulates_plain (fun _ _ _ hij hw => ?_) ?_
    · rw [(sim.stores hw).typeName_eq ((values_headD hargs).mono hij)]
    · rintro s _ ⟨⟩
      exact .text _
  | length =>
    cases hargs with
    | nil => exact simulates_fail _
    | cons hv _ =>
      refine simulates_plain (fun _ _ _ hij hw => ?_) fun _ _ h => fixed_of_map h fun n => .num _
      rw [(sim.stores hw).lengthOf_eq (hv.mono hij)]
  | text =>
    cases hargs with
    | nil => exact simulates_pure fun _ _ => ⟨rfl, .text ""⟩
    | cons hv _ =>
      refine simulates_plain (fun _ _ _ hij hw => ?_) fun _ _ h => fixed_of_map h .text
      rw [(sim.stores hw).display_eq (hv.mono hij)]
  | foreign name =>
    intro j w w' hij hw
    obtain ⟨k, hjk, hk, hdata⟩ := sim.foreign hw hn (hself.mono hij) (values_all_mono hij hargs)
    exact ⟨k, hjk, hk, .ok hdata⟩
  | dataFunction name => exact simulates_dataFunction hn hargs

theorem simulates_native {native : Native} (hn : sim.Natives native) {self self' : Value}
    {args args' : List Value} (hself : sim.Values i self self')
    (hargs : List.Forall₂ (sim.Values i) args args') :
    sim.Simulates i sim.Values (native.call host self args) (native.call host self' args') := by
  refine simulates_bind (simulates_result hn hself hargs) fun j d d' _ hd => ?_
  rw [hd.1]
  exact simulates_attempt (becomes_of_fixed hd.2)

/-! ## The tree -/

/-- Calls of values that match on arguments that match are in step. -/
def Applies (sim : Simulation host I) (apply apply' : Applier) : Prop :=
  ∀ i f f' args args' self self', sim.Values i f f' → List.Forall₂ (sim.Values i) args args' →
    Option.Rel (sim.Values i) self self' →
    sim.Simulates i sim.Values (apply f args self) (apply' f' args' self')

/-- Names that may be used by all of the code. -/
def UsesOnly (sim : Simulation host I) (names : List String) : Prop := ∀ x ∈ names, sim.Names x

theorem UsesOnly.left {xs ys : List String} (h : sim.UsesOnly (xs ++ ys)) : sim.UsesOnly xs :=
  (List.forall_mem_append.1 h).1

theorem UsesOnly.right {xs ys : List String} (h : sim.UsesOnly (xs ++ ys)) : sim.UsesOnly ys :=
  (List.forall_mem_append.1 h).2

section

variable {apply apply' : Applier} (ha : sim.Applies apply apply')
include ha

-- the theorems below use `ha` through each other, which the linter does not see
set_option linter.unusedSectionVars false

mutual

theorem simulates_eval : ∀ (n : Node) (i : I) (scope scope' : Scope), sim.UsesOnly n.names →
    sim.Chains i scope.chain scope'.chain →
    sim.Simulates i sim.Values (eval apply n scope) (eval apply' n scope')
  | .program body, i, scope, scope', hn, hs =>
    simulates_endProgram (simulates_evalBody body i scope scope' .null .null hn hs .null)
  | .declare constant name value, i, scope, scope', hn, hs =>
    simulates_bind (simulates_eval value i scope scope' (List.forall_mem_cons.1 hn).2 hs)
      fun _ _ _ hij hv =>
        simulates_bind (simulates_declare (hs.mono hij) (List.forall_mem_cons.1 hn).1 constant hv)
          fun _ _ _ hjk _ => simulates_pure fun _ hkl => hv.mono (hjk.trans hkl)
  | .function name params body, i, scope, scope', hn, hs => simulates_makeFunction hs name hn
  | .giveBack value, i, scope, scope', hn, hs =>
    simulates_bind (simulates_eval value i scope scope' hn hs) fun _ _ _ _ hv =>
      simulates_of_step fun _ _ _ hjk hw => ⟨hw, .returned (hv.mono hjk)⟩
  | .when condition body alternative, i, scope, scope', hn, hs => by
    refine simulates_bind (simulates_eval condition i scope scope' hn.left hs)
      fun j v v' hij hv => ?_
    rw [show v'.isTrue = v.isTrue by cases hv <;> rfl]
    split
    · exact simulates_bind (simulates_openFrame (hs.mono hij)) fun k inside inside' _ hin =>
        simulates_evalBody body k inside inside' .null .null hn.right.left hin .null
    · exact simulates_evalAlternative alternative j scope scope' hn.right.right (hs.mono hij)
  | .otherwise body, i, scope, scope', hn, hs =>
    simulates_bind (simulates_openFrame hs) fun j inside inside' _ hin =>
      simulates_evalBody body j inside inside' .null .null hn hin .null
  | .number n, _, _, _, _, _ => simulates_pure fun _ _ => .num _
  | .string t, _, _, _, _, _ => simulates_pure fun _ _ => .str t
  | .ident symbol, _, _, _, hn, hs => simulates_lookup hs (hn symbol List.mem_cons_self)
  | .propertyName symbol, _, _, _, _, _ => simulates_pure fun _ _ => .str symbol
  | .object entries, i, scope, scope', hn, hs =>
    simulates_bind (simulates_evalEntries entries i scope scope' .empty .empty hn hs
      Table.matches_empty) fun _ _ _ _ ht =>
        simulates_make (fun _ _ => .object) nofun fun _ _ _ hjk _ => ht.mono hjk
  | .list elements, i, scope, scope', hn, hs =>
    simulates_bind (simulates_evalAll elements i scope scope' hn hs) fun _ _ _ _ hvs =>
      simulates_make (fun _ _ => .list) nofun fun _ _ _ hjk _ =>
        entriesMatch_indexed (values_all_mono hjk hvs)
  | .member owner key computed, i, scope, scope', hn, hs => by
    refine simulates_bind (simulates_target key computed
      (simulates_eval owner i scope scope' hn.left hs)
      (simulates_eval key i scope scope' hn.right hs)) fun j p p' _ hp => ?_
    obtain ⟨a, name⟩ := p
    obtain ⟨a', name'⟩ := p'
    obtain ⟨ha, rfl⟩ := hp
    exact simulates_getProperty _ ha
  | .binary left right symbol, i, scope, scope', hn, hs => by
    refine simulates_bind (simulates_eval left i scope scope' hn.left hs) fun j l l' hij hl => ?_
    have hright := simulates_eval right j scope scope' hn.right (hs.mono hij)
    split
    · rw [show Operator.decidedBy symbol l' = Operator.decidedBy symbol l by cases hl <;> rfl]
      split
      · exact simulates_pure fun _ hjk => hl.mono hjk
      · exact hright
    · exact simulates_bind hright fun k r r' hjk hr => simulates_apply symbol (hl.mono hjk) hr
  | .assign target value, i, scope, scope', hn, hs => by
    cases target with
    | ident symbol =>
      exact simulates_bind (simulates_eval value i scope scope' hn.right hs)
        fun j v v' hij hv =>
          simulates_assignName (hs.mono hij) (hn.left symbol List.mem_cons_self) hv
    | member owner key computed =>
      refine simulates_bind (simulates_eval value i scope scope' hn.right hs)
        fun j v v' hij hv => ?_
      have hsj := hs.mono hij
      refine simulates_bind (simulates_target key computed
        (simulates_eval owner j scope scope' hn.left.left hsj)
        (simulates_eval key j scope scope' hn.left.right hsj)) fun k p p' hjk hp => ?_
      obtain ⟨a, name⟩ := p
      obtain ⟨a', name'⟩ := p'
      obtain ⟨ha, rfl⟩ := hp
      exact simulates_bind (simulates_setProperty _ ha (hv.mono hjk)) fun l _ _ hkl _ =>
        simulates_pure fun _ hlm => hv.mono (hjk.trans (hkl.trans hlm))
    | _ => exact simulates_fail _
  | .call callee args, i, scope, scope', hn, hs => by
    cases callee with
    | member owner key computed =>
      refine simulates_bind (simulates_target key computed
        (simulates_eval owner i scope scope' hn.left.left hs)
        (simulates_eval key i scope scope' hn.left.right hs)) fun j p p' hij hp => ?_
      obtain ⟨a, name⟩ := p
      obtain ⟨a', name'⟩ := p'
      obtain ⟨ho, rfl⟩ := hp
      refine simulates_bind (simulates_getProperty _ ho) fun k f f' hjk hf => ?_
      refine simulates_bind (simulates_evalAll args k scope scope' hn.right
        (hs.mono (hij.trans hjk))) fun l values values' hkl hvs => ?_
      exact ha l f f' values values' _ _ (hf.mono hkl) hvs
        (.some (.ref (sim.objects_mono (hjk.trans hkl) ho)))
    | _ =>
      exact simulates_bind (simulates_eval _ i scope scope' hn.left hs) fun j f f' hij hf =>
        simulates_bind (simulates_evalAll args j scope scope' hn.right (hs.mono hij))
          fun k values values' hjk hvs =>
            ha k f f' values values' none none (hf.mono hjk) hvs .none
  | .property .., _, _, _, _, _ => simulates_fail _
  | .foreign _, _, _, _, _, _ => simulates_fail _

theorem simulates_evalBody : ∀ (ns : List Node) (i : I) (scope scope' : Scope)
    (last last' : Value), sim.UsesOnly (Node.namesInList ns) →
    sim.Chains i scope.chain scope'.chain → sim.Values i last last' →
    sim.Simulates i sim.Values (evalBody apply ns scope last) (evalBody apply' ns scope' last')
  | [], _, _, _, _, _, _, _, hl => simulates_pure fun _ hij => hl.mono hij
  | n :: ns, i, scope, scope', _, _, hn, hs, _ =>
    simulates_bind (simulates_eval n i scope scope' hn.left hs) fun j v v' hij hv =>
      simulates_evalBody ns j scope scope' v v' hn.right (hs.mono hij) hv

theorem simulates_evalAlternative : ∀ (n : Option Node) (i : I) (scope scope' : Scope),
    sim.UsesOnly (Node.namesInOption n) → sim.Chains i scope.chain scope'.chain →
    sim.Simulates i sim.Values (evalAlternative apply n scope) (evalAlternative apply' n scope')
  | none, _, _, _, _, _ => simulates_pure fun _ _ => .null
  | some n, i, scope, scope', hn, hs => simulates_eval n i scope scope' hn hs

theorem simulates_evalAll : ∀ (ns : List Node) (i : I) (scope scope' : Scope),
    sim.UsesOnly (Node.namesInList ns) → sim.Chains i scope.chain scope'.chain →
    sim.Simulates i (fun j => List.Forall₂ (sim.Values j)) (evalAll apply ns scope)
      (evalAll apply' ns scope')
  | [], _, _, _, _, _ => simulates_pure fun _ _ => .nil
  | n :: ns, i, scope, scope', hn, hs =>
    simulates_bind (simulates_eval n i scope scope' hn.left hs) fun j _ _ hij hv =>
      simulates_bind (simulates_evalAll ns j scope scope' hn.right (hs.mono hij))
        fun _ _ _ hjk hvs => simulates_pure fun _ hkl =>
          .cons (hv.mono (hjk.trans hkl)) (values_all_mono hkl hvs)

theorem simulates_evalEntries : ∀ (ns : List Node) (i : I) (scope scope' : Scope)
    (made made' : Table Value), sim.UsesOnly (Node.namesInList ns) →
    sim.Chains i scope.chain scope'.chain → sim.Tables i made made' →
    sim.Simulates i sim.Tables (evalEntries apply ns scope made)
      (evalEntries apply' ns scope' made')
  | [], _, _, _, _, _, _, _, hm => simulates_pure fun _ hij => hm.mono hij
  | n :: ns, i, scope, scope', made, made', hn, hs, hm => by
    -- nodes that are no properties have a part evaluated at most, and then fail
    have ends (m m' : Run Value) (h : sim.Simulates i sim.Values m m') :
        sim.Simulates i sim.Tables (m >>= fun _ => Run.fail .malformed)
          (m' >>= fun _ => Run.fail .malformed) :=
      simulates_bind h fun _ _ _ _ _ => simulates_fail _
    cases n with
    | property key value =>
      cases value with
      | none =>
        exact simulates_bind (simulates_lookup hs (hn.left key List.mem_cons_self))
          fun j v v' hij hv => simulates_evalEntries ns j scope scope' _ _ hn.right (hs.mono hij)
            ((hm.mono hij).insert key hv)
      | some value =>
        exact simulates_bind (simulates_eval value i scope scope' hn.left hs)
          fun j v v' hij hv => simulates_evalEntries ns j scope scope' _ _ hn.right (hs.mono hij)
            ((hm.mono hij).insert key hv)
    | declare constant name value =>
      by_cases hv : value = .foreign .nothing
      · rw [hv]
        exact simulates_fail _
      · rw [evalEntries, evalEntries]
        · exact ends _ _ (simulates_eval value i scope scope' (List.forall_mem_cons.1 hn.left).2 hs)
        · exact hv
        · exact hv
    | giveBack value =>
      by_cases hv : value = .foreign .nothing
      · rw [hv]
        exact simulates_fail _
      · rw [evalEntries, evalEntries]
        · exact ends _ _ (simulates_eval value i scope scope' hn.left hs)
        · exact hv
        · exact hv
    | _ => exact simulates_fail _

end

end

/-! ## Calls -/

theorem simulates_bindAll {scope scope' : Scope} : ∀ (params : List String)
    {args args' : List Value} {i : I}, sim.UsesOnly params →
    sim.Chains i scope.chain scope'.chain → List.Forall₂ (sim.Values i) args args' →
    sim.Simulates i (fun _ _ _ => True) (bindAll scope params args) (bindAll scope' params args')
  | [], _, _, _, _, _, _ => simulates_pure fun _ _ => trivial
  | p :: ps, args, args', i, hn, hs, hargs => by
    obtain ⟨hp, hps⟩ := List.forall_mem_cons.1 hn
    refine simulates_bind (simulates_declare hs hp false (values_headD hargs))
      fun j _ _ hij _ => ?_
    have htail : List.Forall₂ (sim.Values i) args.tail args'.tail := by
      cases hargs with
      | nil => exact .nil
      | cons _ hvs => exact hvs
    exact simulates_bindAll ps hps (hs.mono hij) (values_all_mono hij htail)

theorem simulates_callScope {c c' : Closure} (hc : c.Matches (sim.Frames i) c')
    (hn : sim.UsesOnly c.params) {args args' : List Value}
    (hargs : List.Forall₂ (sim.Values i) args args') :
    sim.Simulates i (fun j scope scope' => sim.Chains j scope.chain scope'.chain)
      (callScope c args) (callScope c' args') := by
  refine simulates_bind (simulates_openFrame hc.chain) fun j scope scope' hij hs => ?_
  rw [hc.params]
  exact simulates_bind (simulates_bindAll c.params hn hs (values_all_mono hij hargs))
    fun _ _ _ hjk _ => simulates_pure fun _ hkl => hs.mono (hjk.trans hkl)

theorem Ends.outcomeOfBody {x x' : Except Exit Value} (h : sim.Ends i sim.Values x x') :
    sim.Ends i sim.Values (outcomeOfBody x) (outcomeOfBody x') := by
  cases h with
  | ok _ => exact .ok .null
  | returned hv => exact .ok hv
  | exhausted => exact .exhausted
  | failed cause => cases cause <;> exact .failed _

theorem simulates_inCall {body body' : Run Value} (h : sim.Simulates i sim.Values body body') :
    sim.Simulates i sim.Values (inCall body) (inCall body') := by
  intro j w w' hij hw
  have henter : sim.Holds j w.enter w'.enter := by
    unfold World.enter
    rw [sim.depths hw]
    exact sim.note (.entered (w.depth + 1)) (sim.atDepth (w.depth + 1) hw)
  obtain ⟨k, hjk, hk, he⟩ := h j w.enter w'.enter hij henter
  have hleave : sim.Holds k (body w.enter).2.leave (body' w'.enter).2.leave := by
    unfold World.leave
    rw [sim.depths hk]
    generalize (body w.enter).2 = u at hk
    exact sim.note (.left (u.depth - 1)) (sim.atDepth (u.depth - 1) hk)
  exact ⟨k, hjk, hleave, he.outcomeOfBody⟩

theorem simulates_reserve (limit : Nat) :
    sim.Simulates i (fun _ _ _ => True) (Eval.reserve limit) (Eval.reserve limit) := by
  refine simulates_of_step fun j w w' _ hw => ?_
  obtain ⟨hends, hholds⟩ := sim.reserve limit hw
  refine ⟨hholds, ?_⟩
  rw [hends]
  rcases reserve_ends limit w with h | h <;> rw [h]
  · exact .ok trivial
  · exact .failed .noRoom

theorem simulates_callWithin (limit : Nat) {inner : Option Applier}
    (h : ∀ apply ∈ inner, sim.Applies apply apply) (name : String) {c c' : Closure}
    (hc : c.Matches (sim.Frames i) c') (hn : sim.UsesOnly c.names) {args args' : List Value}
    (hargs : List.Forall₂ (sim.Values i) args args') :
    sim.Simulates i sim.Values (callWithin limit inner name c args)
      (callWithin limit inner name c' args') := by
  refine simulates_bind (m := Run.world) (P := fun _ w w' => w'.depth = w.depth)
    (simulates_of_step fun _ _ _ _ hw => ⟨hw, .ok (sim.depths hw)⟩) fun j w w' hij hd => ?_
  rw [hd]
  split
  · exact simulates_fail _
  · cases inner with
    | none => exact simulates_of_step fun _ _ _ _ hw => ⟨hw, .exhausted⟩
    | some apply =>
      rw [hargs.length_eq, hc.body]
      refine simulates_bind (simulates_note _) fun k _ _ hjk _ => ?_
      have hik := hij.trans hjk
      have hck : c.Matches (sim.Frames k) c' :=
        ⟨hc.params, hc.body, hc.native, Chains.mono hik hc.chain⟩
      refine simulates_bind (simulates_callScope hck hn.left (values_all_mono hik hargs))
        fun l scope scope' _ hs => ?_
      exact simulates_inCall
        (simulates_evalBody (h apply rfl) c.body l scope scope' .null .null hn.right hs .null)

theorem simulates_callScript (limit : Nat) {inner : Option Applier}
    (h : ∀ apply ∈ inner, sim.Applies apply apply) (name : String) {c c' : Closure}
    (hc : c.Matches (sim.Frames i) c') (hn : sim.UsesOnly c.names) {args args' : List Value}
    (hargs : List.Forall₂ (sim.Values i) args args') :
    sim.Simulates i sim.Values (callScript limit inner name c args)
      (callScript limit inner name c' args') := by
  refine simulates_bind (simulates_reserve limit) fun j _ _ hij _ => ?_
  have hcj : c.Matches (sim.Frames j) c' :=
    ⟨hc.params, hc.body, hc.native, Chains.mono hij hc.chain⟩
  exact simulates_callWithin limit h name hcj hn (values_all_mono hij hargs)

theorem applies_applyOver (limit : Nat) {inner : Option Applier}
    (h : ∀ apply ∈ inner, sim.Applies apply apply) :
    sim.Applies (applyOver host limit inner) (applyOver host limit inner) := by
  intro i f f' args args' self self' hf hargs hself
  refine simulates_store fun j w w' hij hw => ?_
  have refused (u : Value) (hu : sim.Values j u u) : sim.Simulates j sim.Values
      (Run.fail (.notCallable (w.store.typeName u)))
      (Run.fail (.notCallable (w'.store.typeName u))) := by
    rw [(sim.stores hw).typeName_eq hu]
    exact simulates_fail _
  cases hf with
  | null => exact refused _ .null
  | bool b => exact refused _ (.bool b)
  | num n => exact refused _ (.num n)
  | str t => exact refused _ (.str t)
  | @ref a a' ha =>
    have haj := sim.objects_mono hij ha
    have ho := (sim.stores hw).object haj
    have hcode := fun c => sim.code (c := c) hw haj
    have hshape := ho.shape
    dsimp only
    rw [ho.functionName_eq]
    generalize (w.store.object a).shape = shape at hshape hcode
    generalize (w'.store.object a').shape = shape' at hshape
    cases hshape with
    | object => exact simulates_fail _
    | list => exact simulates_fail _
    | tagged type extendsObject => exact simulates_fail _
    | @function c c' hc =>
      have huses := hcode c rfl
      dsimp only
      rw [hc.native]
      cases hn : c.native with
      | some native =>
        refine simulates_native (huses.native native hn) ?_ (values_all_mono hij hargs)
        cases hself with
        | none => exact .ref haj
        | some hv => exact hv.mono hij
      | none => exact simulates_callScript limit h _ hc huses.names (values_all_mono hij hargs)

theorem applies_applier (limit : Nat) : ∀ n,
    sim.Applies (applier host limit n) (applier host limit n)
  | 0 => applies_applyOver limit fun _ ha => absurd ha (Option.not_mem_none _)
  | n + 1 => by
    refine applies_applyOver limit ?_
    rintro _ ⟨⟩
    exact applies_applier limit n

theorem simulates_evaluate (limit : Nat) (node : Node) {scope scope' : Scope}
    (hn : sim.UsesOnly node.names) (hs : sim.Chains i scope.chain scope'.chain) :
    sim.Simulates i sim.Values (evaluate host limit node scope)
      (evaluate host limit node scope') :=
  simulates_eval (applies_applier limit limit) node i scope scope' hn hs

end Guion.Eval.Simulation
