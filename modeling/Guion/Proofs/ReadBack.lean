import Guion.Proofs.ReadBack.Spelling
import Guion.Proofs.RoundTrip
import Guion.Proofs.WellFormed

/-!
# Plain data reads back

A value that holds nothing but nulls, booleans, integers within the digit limit, lists and objects
whose shown keys can be written, and that does not contain itself, is shown as a text which a fresh
session evaluates to a value that shows the same.  Nothing ties the store of the value to the world
of the session.

    s.Legible v → s.show? v = some d, d.Spells node                            (Legible.spells)
    s.display v = .ok text → session.eval host limit text w = (.ok u, w'),
      w'.store.show? u = s.show? v                                               (eval_display)
-/

namespace Guion

/-! ## Values -/

/-- Every integer within the digit limit is spelled. -/
theorem Datum.exists_spells_int {i : Int} (h : i.natAbs < Nat.pow 10 Num.digitLimit) :
    ∃ node, (Datum.num (.int i)).Spells node := by
  obtain ⟨n, rfl | rfl⟩ := Int.eq_nat_or_neg i
  · rw [Int.natAbs_natCast] at h
    exact ⟨_, .natural h⟩
  · rw [Int.natAbs_neg, Int.natAbs_natCast] at h
    rcases Nat.eq_zero_or_pos n with rfl | hpos
    · exact ⟨_, .natural h⟩
    · exact ⟨_, .negative hpos h⟩

namespace Store

/-- A value of plain data, whose keys are words that are no keywords or runs of digits.  That it
does not contain itself is the well-foundedness of the predicate. -/
inductive Legible (s : Store) : Value → Prop
  | null : Legible s .null
  | bool (b : Bool) : Legible s (.bool b)
  | int {i : Int} : i.natAbs < Nat.pow 10 Num.digitLimit → Legible s (.num (.int i))
  | list {a : Address} : (s.object a).shape = .list →
      (∀ e ∈ (s.object a).shown, Legible s e.2) → Legible s (.ref a)
  | object {a : Address} : (s.object a).shape = .object →
      (∀ e ∈ (s.object a).shown, Node.IsKey e.1) →
      (∀ e ∈ (s.object a).shown, Legible s e.2) → Legible s (.ref a)

variable {s : Store}

/-- Data of the parts of a value, with the expressions that spell them. -/
theorem exists_parts {depth : Nat} {pairs : List (String × Value)}
    (h : ∀ e ∈ pairs, ∃ d node, s.showWithin depth e.2 = some d ∧ d.Spells node) :
    ∃ parts : List (String × Datum × Node),
      List.Forall₂ (fun e part => part.1 = e.1 ∧ s.showWithin depth e.2 = some part.2.1)
        pairs parts ∧ ∀ part ∈ parts, part.2.1.Spells part.2.2 := by
  induction pairs with
  | nil => exact ⟨[], .nil, List.forall_mem_nil _⟩
  | cons e pairs ih =>
    obtain ⟨⟨d, node, hd, hspells⟩, hpairs⟩ := List.forall_mem_cons.1 h
    obtain ⟨parts, hparts, hall⟩ := ih hpairs
    exact ⟨(e.1, d, node) :: parts, .cons ⟨rfl, hd⟩ hparts, List.forall_mem_cons.2 ⟨hspells, hall⟩⟩

/-- A value of plain data is shown, and there is an expression that spells what is shown. -/
theorem Legible.spells (hs : ∀ a, (s.object a).Tidy s.objects.size) {v : Value}
    (h : s.Legible v) (hv : v.Known (· < s.objects.size)) :
    ∃ d node, s.show? v = some d ∧ d.Spells node := by
  have known : ∀ a, ∀ e ∈ (s.object a).shown, e.2.Known (· < s.objects.size) := fun a e he =>
    (hs a).values e (List.mem_of_mem_filter he)
  -- one level more is never too deep for a value that is there
  have deeper {v : Value} {d : Datum} (hv : v.Known (· < s.objects.size))
      (h : s.showWithin (s.objects.size + 1) v = some d) : s.show? v = some d :=
    (show?_eq_some_iff (fun _ ha => ha) (fun a _ => (hs a).values) hv).2 ⟨_, h⟩
  induction h with
  | null => exact ⟨.null, _, by rw [show?]; cases s.objects.size <;> rfl, .null⟩
  | bool b => exact ⟨.bool b, _, by rw [show?]; cases s.objects.size <;> rfl, .bool b⟩
  | @int i hi =>
    obtain ⟨node, hspells⟩ := Datum.exists_spells_int hi
    exact ⟨.num (.int i), node, by rw [show?]; cases s.objects.size <;> rfl, hspells⟩
  | @list a hshape _ ih =>
    obtain ⟨parts, hparts, hall⟩ := exists_parts fun e he => ih e he (known a e he)
    have hitems : (s.object a).shown.mapM (fun e => s.showWithin s.objects.size e.2) =
        some ((parts.map Prod.snd).map Prod.fst) := by
      rw [mapM_eq_some_iff, List.map_map, List.forall₂_map_right_iff]
      exact hparts.imp fun e part he => he.2
    refine ⟨.list ((parts.map Prod.snd).map Prod.fst), _, deeper hv ?_, .list fun e he => ?_⟩
    · rw [showWithin, hshape, hitems]
      rfl
    · obtain ⟨part, hpart, rfl⟩ := List.mem_map.1 he
      exact hall part hpart
  | @object a hshape hkeys _ ih =>
    obtain ⟨parts, hparts, hall⟩ := exists_parts fun e he => ih e he (known a e he)
    have hnames : parts.map Prod.fst = (s.object a).shown.map Prod.fst :=
      Table.map_fst_eq (S := fun v part => s.showWithin s.objects.size v = some part.1) hparts
    have hentries : (s.object a).shown.mapM (fun e =>
        (s.showWithin s.objects.size e.2).map fun d => (Datum.text e.1, d)) =
        some (parts.map fun part => (.text part.1, part.2.1)) := by
      rw [mapM_eq_some_iff, List.forall₂_map_right_iff]
      refine hparts.imp fun e part he => ?_
      rw [he.1, he.2]
      rfl
    refine ⟨_, _, deeper hv ?_, .record ?_ ?_ hall⟩
    · rw [showWithin, hshape, hentries]
      rfl
    · rw [hnames]
      exact Object.nodup_shownKeys (hs a).keys
    · intro part hpart
      have hname : part.1 ∈ (s.object a).shown.map Prod.fst := hnames ▸ List.mem_map_of_mem hpart
      obtain ⟨e, he, hname⟩ := List.mem_map.1 hname
      rw [← hname]
      exact ⟨by simpa using List.of_mem_filter he, hkeys e he⟩

theorem display_of_spells {v : Value} {d : Datum} {node : Node} (hshow : s.show? v = some d)
    (h : d.Spells node) : ∃ text ts, s.display v = .ok text ∧ d.ReadsAs s node text ts := by
  obtain ⟨text, ts, hreads⟩ := h.reads s
  refine ⟨text, ts, ?_, hreads⟩
  have htop : d.topText s = d.nestedText s := by cases h <;> rfl
  rw [display, hshow]
  dsimp only
  rw [htop, hreads.nestedText]
  rfl

end Store

/-! ## A fresh session -/

namespace Builtin

theorem exists_makeFunctions : ∀ (natives : List (String × Native)) (w : World), ∃ made w',
    makeFunctions natives w = (.ok made, w') ∧ made.map Prod.fst = natives.map Prod.fst ∧
      w'.store.frames = w.store.frames
  | [], w => ⟨[], w, rfl, rfl, rfl⟩
  | (label, native) :: rest, w => by
    obtain ⟨made, w', hmade, hnames, hframes⟩ := exists_makeFunctions rest { w with store :=
      (w.store.makeFunction (Store.nativeClosure native) [("name", .str label)] false).1 }
    refine ⟨(label, .ref w.store.objects.size) :: made, w', ?_, congrArg (label :: ·) hnames,
      hframes⟩
    rw [makeFunctions]
    exact (Run.bind_of_ok rfl).trans (Run.bind_of_ok hmade)

/-- Names that are new and all different can be declared. -/
theorem exists_declareAll (scope : Scope) (constant : Bool) : ∀ (entries : List (String × Value))
    (w : World), scope.frame < w.store.frames.size →
    ((w.store.frame scope.frame).vars.keys ++ entries.map Prod.fst).Nodup → ∃ w',
      declareAll scope constant entries w = (.ok (), w') ∧
      w'.store.frames.size = w.store.frames.size ∧
      (w'.store.frame scope.frame).vars.keys =
        (w.store.frame scope.frame).vars.keys ++ entries.map Prod.fst
  | [], w, _, _ => ⟨w, rfl, rfl, (List.append_nil _).symm⟩
  | (label, v) :: rest, w, hf, hnodup => by
    have hnew : label ∉ (w.store.frame scope.frame).vars.keys := fun hmem =>
      (List.nodup_append.1 hnodup).2.2 _ hmem _ List.mem_cons_self rfl
    have hstep := declareName_apply scope label v constant w
    rw [Store.mayDeclare_of_not_mem hnew] at hstep
    have hkeys : ((((w.store.bindName scope.frame label ⟨v, constant⟩).noteGlobal scope
        label).frame scope.frame).vars.keys) =
        (w.store.frame scope.frame).vars.keys ++ [label] := by
      rw [Store.vars_noteGlobal, Store.frame_bindName, if_pos ⟨rfl, hf⟩, Table.keys_insert,
        if_neg hnew]
    have hsize := ((w.store.bindName scope.frame label ⟨v, constant⟩).frames_size_noteGlobal scope
      label).trans (w.store.frames_size_bindName scope.frame label ⟨v, constant⟩)
    obtain ⟨w', hrest, hsize', hkeys'⟩ := exists_declareAll scope constant rest
      { w with
        store := (w.store.bindName scope.frame label ⟨v, constant⟩).noteGlobal scope label
        trace := .registeredGlobal label constant :: w.trace }
      (Nat.lt_of_lt_of_eq hf hsize.symm) (by rwa [hkeys, ← List.append_cons])
    refine ⟨w', ?_, hsize'.trans hsize, ?_⟩
    · rw [declareAll, Run.bind_of_ok hstep]
      exact hrest
    · rw [hkeys', hkeys, ← List.append_cons]
      rfl

/-- The built-ins can be installed in a frame with nothing in it. -/
theorem exists_register (scope : Scope) {w : World} (hf : scope.frame < w.store.frames.size)
    (hempty : (w.store.frame scope.frame).vars.keys = []) :
    ∃ w', register scope w = (.ok (), w') := by
  obtain ⟨made, w₁, hmade, hnames, hframes⟩ := exists_makeFunctions functions w
  have hframe : w₁.store.frame scope.frame = w.store.frame scope.frame := by
    rw [Store.frame, hframes, Store.frame]
  obtain ⟨w₂, hvariables, hsize, hkeys⟩ := exists_declareAll scope false made w₁
    (by rwa [hframes]) (by rw [hframe, hempty, hnames]; decide)
  obtain ⟨w₃, hconstants, -, -⟩ := exists_declareAll scope true constants w₂
    (by rwa [hsize, hframes]) (by rw [hkeys, hframe, hempty, hnames]; decide)
  have hdefine : defineGlobals scope made constants w₁ = (.ok (), w₃) := by
    rw [defineGlobals, Run.bind_of_ok hvariables, hconstants]
  have hstore : Run.store w₃ = (.ok w₃.store, w₃) := rfl
  rw [register, Run.bind_of_ok hmade, Run.bind_of_ok hdefine, Run.bind_of_ok hstore]
  exact ⟨_, rfl⟩

end Builtin

namespace Session

/-- Without a prelude a session starts in every world, and with its constants. -/
theorem exists_start (host : Host) (settings : Settings) (files : Files) (w : World) :
    ∃ session w', start host settings files .none w = (.ok session, w') ∧
      w'.store.Fixes session.scope.frame Builtin.constants := by
  have hsize := w.store.frames_size_openFrame []
  have hempty : ((w.store.openFrame []).1.frame w.store.frames.size).vars.keys = [] := by
    rw [Store.frame_openFrame, w.store.frame_of_size_le (Nat.le_refl _)]
    rfl
  obtain ⟨w', hregister⟩ := Builtin.exists_register ⟨w.store.frames.size, []⟩
    (w := { w with store := (w.store.openFrame []).1 })
    (by rw [hsize]; exact Nat.lt_succ_self _) hempty
  have hscope : globalScope w = (.ok ⟨w.store.frames.size, []⟩, w') := by
    have hopen : emptyScope w = (.ok ⟨w.store.frames.size, []⟩,
      { w with store := (w.store.openFrame []).1 }) := rfl
    rw [globalScope, Run.bind_of_ok hopen, Run.bind_of_ok hregister]
    rfl
  refine ⟨⟨⟨w.store.frames.size, []⟩⟩, w', ?_, fixes_globalScope hscope⟩
  rw [start_eq, Run.bind_of_ok hscope]
  rfl

/-- A text that is read as an expression is evaluated as that expression. -/
theorem eval_of_readsAs (host : Host) (limit : Nat) (session : Session) (w : World) {s : Store}
    {d : Datum} {node : Node} {text : String} {ts : List Token}
    (hreads : d.ReadsAs s node text ts) : ∃ w₀, w₀.store = w.store ∧
      ∀ u w', Eval.eval (Eval.call host limit) node session.scope w₀ = (.ok u, w') →
        session.eval host limit text w = (.ok u, w') := by
  have hstatement : Node.Derives (.statement .expression node) ts := by
    refine .expressionStatement hreads.derives.expression_of_operand ?_ ?_
    · rintro ⟨f, i, v, rfl, hf, -⟩
      exact (hreads.starts f rfl).1 hf
    · rintro ⟨r, v, rfl, hr, ht⟩
      exact (hreads.starts r rfl).2 hr ht
  have hbody : Node.Derives (.statements [node]) ts := by
    have h : Node.Derives (.statements [node]) ([] ++ (ts ++ [])) :=
      .moreStatements nofun hstatement (.noStatement nofun) nofun
    simpa using h
  have hparse : (parse text w).1 = .ok [node] :=
    (parse_eq_ok_iff text w [node]).2 ⟨ts, hreads.writes, hbody⟩
  have hparse : parse text w = (.ok [node], (parse text w).2) := Prod.ext hparse rfl
  have hnote : Run.note (.evaluating [node].length) (parse text w).2 = (.ok (),
    { (parse text w).2 with trace := .evaluating 1 :: (parse text w).2.trace }) := rfl
  refine ⟨{ (parse text w).2 with trace := .evaluating 1 :: (parse text w).2.trace },
    parse_store text w, fun u w' heval => ?_⟩
  rw [eval, Run.bind_of_ok hparse, Run.bind_of_ok hnote, Eval.evaluate, Eval.eval,
    Eval.endProgram, Eval.evalBody, Run.bind_of_ok heval]
  rfl

/-- The text of a value of plain data, whatever store the value is in, is evaluated by a fresh
session without a prelude, in whatever world it starts, to a value that shows the same. -/
theorem eval_display (host : Host) (limit : Nat) (settings : Settings) (files : Files) (w : World)
    {s : Store} (hs : ∀ a, (s.object a).Tidy s.objects.size) {v : Value}
    (hv : v.Known (· < s.objects.size)) (h : s.Legible v) :
    ∃ d text session w₁ u w₂, s.show? v = some d ∧ s.display v = .ok text ∧
      start host settings files .none w = (.ok session, w₁) ∧
      session.eval host limit text w₁ = (.ok u, w₂) ∧ w₂.store.show? u = some d := by
  obtain ⟨d, node, hshow, hspells⟩ := h.spells hs hv
  obtain ⟨text, ts, hdisplay, hreads⟩ := Store.display_of_spells hshow hspells
  obtain ⟨session, w₁, hstart, hconstants⟩ := exists_start host settings files w
  obtain ⟨w₀, hstore, hrun⟩ := eval_of_readsAs host limit session w₁ hreads
  obtain ⟨u, s', heval, hmade⟩ := hspells.evaluates (Eval.call host limit) session.scope w₀
    (hstore ▸ hconstants)
  exact ⟨d, text, session, w₁, u, _, hshow, hdisplay, hstart, hrun u _ heval, hmade.show?⟩

/-- A negative number, a constant and an empty object in a list, and a key with leading zeros. -/
def nested : String := "\x7b a: [0 - 5, nulo, \x7b\x7d], 007: verdadero \x7d"

def nestedWorld : World := (eval silent 10 ⟨⟨0, []⟩⟩ nested (firstWorld silent)).2

/-- A new session in the same world reads what the object is shown as. -/
theorem eval_display_nested :
    nestedWorld.store.Legible (.ref 9) ∧
    nestedWorld.store.display (.ref 9) = .ok "\x7b a: [-5, nulo, \x7b\x7d], 007: verdadero \x7d" ∧
    ∃ d session w₁ u w₂, nestedWorld.store.show? (.ref 9) = some d ∧
      start silent ⟨none, none, none⟩ .empty .none nestedWorld = (.ok session, w₁) ∧
      session.eval silent 10 "\x7b a: [-5, nulo, \x7b\x7d], 007: verdadero \x7d" w₁ = (.ok u, w₂) ∧
      w₂.store.show? u = some d := by
  have hhistory : History silent [⟨⟨0, []⟩⟩] nestedWorld :=
    (History.first silent).eval 10 nested List.mem_cons_self
  have hnine : (nestedWorld.store.object 9).shape = .object ∧
      (nestedWorld.store.object 9).shown = [("a", .ref 8), ("007", .bool true)] := by
    decide +kernel
  have height : (nestedWorld.store.object 8).shape = .list ∧
      (nestedWorld.store.object 8).shown =
        [("0", .num (.int (-5))), ("1", .null), ("2", .ref 7)] := by
    decide +kernel
  have hseven : (nestedWorld.store.object 7).shape = .object ∧
      (nestedWorld.store.object 7).shown = [] := by
    decide +kernel
  have hempty : nestedWorld.store.Legible (.ref 7) :=
    .object hseven.1 (by rw [hseven.2]; nofun) (by rw [hseven.2]; nofun)
  have hlist : nestedWorld.store.Legible (.ref 8) := by
    refine .list height.1 ?_
    rw [height.2]
    simp only [List.forall_mem_cons]
    exact ⟨.int (by decide +kernel), .null, hempty, nofun⟩
  have hlegible : nestedWorld.store.Legible (.ref 9) := by
    refine .object hnine.1 ?_ ?_ <;> rw [hnine.2] <;> simp only [List.forall_mem_cons]
    · exact ⟨.inl (Node.isName_of_all ⟨'a', rfl, rfl⟩ rfl rfl),
        .inr ⟨nofun, List.all_eq_true.1 rfl⟩, nofun⟩
    · exact ⟨hlist, .bool true, nofun⟩
  have hdisplay : nestedWorld.store.display (.ref 9) =
      .ok "\x7b a: [-5, nulo, \x7b\x7d], 007: verdadero \x7d" := by decide +kernel
  have hsize : 9 < nestedWorld.store.objects.size := by decide +kernel
  obtain ⟨d, text, session, w₁, u, w₂, hshow, htext, hstart, heval, hshown⟩ :=
    eval_display silent 10 ⟨none, none, none⟩ .empty nestedWorld hhistory.tidy.objects
      (v := .ref 9) hsize hlegible
  rw [hdisplay] at htext
  cases htext
  exact ⟨hlegible, hdisplay, d, session, w₁, u, w₂, hshow, hstart, heval, hshown⟩

end Session

end Guion
