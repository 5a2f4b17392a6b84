import Guion.Proofs.ListOrder
import Guion.Proofs.Extension

/-!
# Evaluation step by step

What a construct of the language evaluates to once it is known what its parts evaluate to, and what
a call of a script function starts from: a frame of its own with its parameters in it, one level
deeper, and calls of its own that are as free as this one.

    call host limit (.ref a) args self w = (outcomeOfBody (…).1, (…).2.leave)         (call_script)
-/

namespace Guion

namespace Run

variable {α β : Type} {m : Run α} {f : α → Run β} {w w' : World}

theorem bind_of_ok {a : α} (h : m w = (.ok a, w')) : (m >>= f) w = f a w' := by
  rw [bind_apply, h]

theorem bind_of_error {e : Exit} (h : m w = (.error e, w')) : (m >>= f) w = (.error e, w') := by
  rw [bind_apply, h]

end Run

/-! ## Look-ups -/

namespace Store

variable {s t : Store} {f g : FrameId} {name : String}

theorem lookup_inner {b : Binding} (h : (s.frame f).vars.find? name = some b)
    (outer : List FrameId) : s.lookup ⟨f, outer⟩ name = .ok b.value := by
  have hbinds : s.binds f name = true := by
    rw [binds, Table.contains, h]
    rfl
  have hresolve : s.resolve? name (Scope.chain ⟨f, outer⟩) = some f :=
    List.find?_cons_of_pos hbinds
  rw [lookup, binding, binding?, hresolve, Option.bind_some, h]
  rfl

/-- A name that the innermost frame does not bind is looked up around it. -/
theorem lookup_outer (h : (s.frame f).vars.find? name = none) (g : FrameId)
    (outer : List FrameId) : s.lookup ⟨f, g :: outer⟩ name = s.lookup ⟨g, outer⟩ name := by
  have hbinds : ¬ s.binds f name = true := by
    rw [binds, Table.contains, h]
    exact Bool.false_ne_true
  have hresolve : s.resolve? name (Scope.chain ⟨f, g :: outer⟩) =
      s.resolve? name (Scope.chain ⟨g, outer⟩) := List.find?_cons_of_neg hbinds
  rw [lookup, binding, binding?, hresolve]
  rfl

theorem mayDeclare_of_not_mem {scope : Scope} (h : name ∉ (s.frame scope.frame).vars.keys) :
    s.mayDeclare scope name = .ok () := by
  have hbinds : s.binds scope.frame name = false := (Table.contains_eq_false_iff _ _).2 h
  rw [mayDeclare, hbinds]
  rfl

theorem mayDeclare_of_mem {scope : Scope} (h : name ∈ (s.frame scope.frame).vars.keys) :
    s.mayDeclare scope name = .error (.redeclared name) := by
  have hbinds : s.binds scope.frame name = true := by
    rw [← Bool.not_eq_false, binds, Table.contains_eq_false_iff, not_not]
    exact h
  rw [mayDeclare, hbinds]
  rfl

end Store

namespace Eval

/-! ## Parts of the rules -/

section

variable {w : World} {scope : Scope} {name : String}

theorem declare_of_not_mem (h : name ∉ (w.store.frame scope.frame).vars.keys) (b : Binding) :
    declare scope name b w =
      (.ok (), { w with store := w.store.bindName scope.frame name b }) := by
  have hmay : Run.inspect (fun s => s.mayDeclare scope name) w = (.ok (), w) := by
    rw [Run.inspect, Store.mayDeclare_of_not_mem h]
  rw [declare, Run.bind_of_ok hmay]
  rfl

theorem declare_of_mem (h : name ∈ (w.store.frame scope.frame).vars.keys) (b : Binding) :
    declare scope name b w = (.error (.failed (.redeclared name)), w) := by
  have hmay : Run.inspect (fun s => s.mayDeclare scope name) w =
      (.error (.failed (.redeclared name)), w) := by
    rw [Run.inspect, Store.mayDeclare_of_mem h]
  rw [declare, Run.bind_of_error hmay]

end

/-! ## Trees -/

section

variable {apply : Applier} {scope : Scope} {w w₁ w₂ w₃ : World}

theorem eval_ident {name : String} {v : Value} (h : w.store.lookup scope name = .ok v) :
    eval apply (.ident name) scope w = (.ok v, w) := by
  rw [eval, Run.inspect, h]

theorem eval_declare {constant : Bool} {name : String} {value : Node} {v : Value}
    (hvalue : eval apply value scope w = (.ok v, w₁))
    (hnew : name ∉ (w₁.store.frame scope.frame).vars.keys) :
    eval apply (.declare constant name value) scope w =
      (.ok v, { w₁ with store := w₁.store.bindName scope.frame name ⟨v, constant⟩ }) := by
  rw [eval, Run.bind_of_ok hvalue, Run.bind_of_ok (declare_of_not_mem hnew _)]
  rfl

/-- The store after a function has been made and declared. -/
def withFunction (scope : Scope) (name : String) (params : List String) (body : List Node)
    (s : Store) : Store :=
  (s.makeFunction ⟨params, body, some scope, none⟩ [("name", .str name)] false).1.bindName
    scope.frame name ⟨.ref s.objects.size, false⟩

section

variable (scope : Scope) (name : String) (params : List String) (body : List Node) (s : Store)

theorem frame_withFunction (f : FrameId) : (withFunction scope name params body s).frame f =
    if f = scope.frame ∧ scope.frame < s.frames.size then
      { s.frame scope.frame with
        vars := (s.frame scope.frame).vars.insert name ⟨.ref s.objects.size, false⟩ }
    else s.frame f :=
  Store.frame_bindName _ scope.frame f name _

theorem frames_size_withFunction :
    (withFunction scope name params body s).frames.size = s.frames.size :=
  Store.frames_size_bindName _ scope.frame name _

theorem object_withFunction (a : Address) : (withFunction scope name params body s).object a =
    if a = s.objects.size then
      ⟨.function ⟨params, body, some scope, none⟩, Store.baseProperties.insertAll
        (Store.functionProperties ++ [("name", .str name)])⟩
    else s.object a :=
  s.object_make _ _ a

theorem objects_size_withFunction :
    (withFunction scope name params body s).objects.size = s.objects.size + 1 :=
  s.objects_size_make _ _

end

theorem extends_withFunction {since s : Store} (h : since.Extends s) {scope : Scope}
    (hframe : since.frames.size ≤ scope.frame) (name : String) (params : List String)
    (body : List Node) : since.Extends (withFunction scope name params body s) :=
  (h.trans (s.extends_make _ _)).bindName hframe name _

/-- A function with a name is made and then declared. -/
theorem eval_function_eq {name : String} (hname : name.isEmpty = false) (params : List String)
    (body : List Node) : eval apply (.function name params body) scope w =
      (declare scope name ⟨.ref w.store.objects.size, false⟩ >>= fun _ =>
        pure (.ref w.store.objects.size)) { w with store := (w.store.makeFunction
          ⟨params, body, some scope, none⟩ [("name", .str name)] false).1 } := by
  rw [eval, makeFunction, hname]
  rfl

theorem eval_function {name : String} (hname : name.isEmpty = false)
    (hnew : name ∉ (w.store.frame scope.frame).vars.keys) (params : List String)
    (body : List Node) : eval apply (.function name params body) scope w =
      (.ok (.ref w.store.objects.size),
        { w with store := withFunction scope name params body w.store }) := by
  rw [eval_function_eq hname]
  exact Run.bind_of_ok (declare_of_not_mem (by exact hnew) _)

theorem eval_binary {left right : Node} {symbol : String} {l r v : Value}
    (hsymbol : Operator.isShortCircuit symbol = false)
    (hleft : eval apply left scope w = (.ok l, w₁))
    (hright : eval apply right scope w₁ = (.ok r, w₂))
    (hv : Operator.apply w₂.store symbol l r = .ok v) :
    eval apply (.binary left right symbol) scope w = (.ok v, w₂) := by
  rw [eval, Run.bind_of_ok hleft, hsymbol]
  simp only [Bool.false_eq_true, if_false]
  rw [Run.bind_of_ok hright, Run.inspect, hv]

theorem target_computed {owner keyValue : Run Value} {node : Node} {a : Address} {key : Value}
    {name : String} (howner : owner w = (.ok (.ref a), w₁)) (hkey : keyValue w₁ = (.ok key, w₂))
    (hname : key.key w₂.store = .ok name) :
    target owner node true keyValue w = (.ok (a, name), w₂) := by
  have hinspect : Run.inspect (fun s => key.key s) w₂ = (.ok name, w₂) := by
    rw [Run.inspect, hname]
  rw [target, Run.bind_of_ok howner]
  show (keyValue >>= fun v => Run.inspect (fun s => v.key s) >>= fun name => pure (a, name)) w₁ = _
  rw [Run.bind_of_ok hkey, Run.bind_of_ok hinspect]
  rfl

theorem eval_member {owner node : Node} {a : Address} {key : Value} {name : String}
    (howner : eval apply owner scope w = (.ok (.ref a), w₁))
    (hkey : eval apply node scope w₁ = (.ok key, w₂)) (hname : key.key w₂.store = .ok name) :
    eval apply (.member owner node true) scope w = (.ok (w₂.store.getProperty a name), w₂) := by
  rw [eval, Run.bind_of_ok (target_computed howner hkey hname)]
  rfl

theorem eval_assign_member {owner node value : Node} {v : Value} {a : Address} {key : Value}
    {name : String} (hvalue : eval apply value scope w = (.ok v, w₁))
    (howner : eval apply owner scope w₁ = (.ok (.ref a), w₂))
    (hkey : eval apply node scope w₂ = (.ok key, w₃)) (hname : key.key w₃.store = .ok name) :
    eval apply (.assign (.member owner node true) value) scope w =
      (.ok v, { w₃ with store := w₃.store.setProperty a name v }) := by
  rw [eval, Run.bind_of_ok hvalue, Run.bind_of_ok (target_computed howner hkey hname)]
  rfl

theorem eval_assign_member_of_error {owner node value : Node} {e : Exit}
    (hvalue : eval apply value scope w = (.error e, w₁)) :
    eval apply (.assign (.member owner node true) value) scope w = (.error e, w₁) := by
  rw [eval, Run.bind_of_error hvalue]

/-- A call of a name on one argument. -/
theorem eval_call {name : String} {arg : Node} {f x : Value}
    (hf : w.store.lookup scope name = .ok f) (harg : eval apply arg scope w = (.ok x, w₁)) :
    eval apply (.call (.ident name) [arg]) scope w = apply f [x] none w₁ := by
  have hargs : evalAll apply [arg] scope w = (.ok [x], w₁) := by
    rw [evalAll, Run.bind_of_ok harg]
    rfl
  rw [eval, Run.bind_of_ok (eval_ident hf), Run.bind_of_ok hargs]
  rintro _ _ _ ⟨⟩

/-- How a return leaves, given how its value ends. -/
def exitOf : Except Exit Value → Exit
  | .ok v => .returned v
  | .error e => e

theorem eval_giveBack {value : Node} {outcome : Except Exit Value}
    (h : eval apply value scope w = (outcome, w₁)) :
    eval apply (.giveBack value) scope w = (.error (exitOf outcome), w₁) := by
  rw [eval]
  cases outcome with
  | ok v => rw [Run.bind_of_ok h]; rfl
  | error e => rw [Run.bind_of_error h]; rfl

theorem evalBody_cons_of_ok {node : Node} {v : Value} (h : eval apply node scope w = (.ok v, w₁))
    (rest : List Node) (last : Value) :
    evalBody apply (node :: rest) scope last w = evalBody apply rest scope v w₁ := by
  rw [evalBody, Run.bind_of_ok h]

theorem evalBody_cons_of_error {node : Node} {e : Exit}
    (h : eval apply node scope w = (.error e, w₁)) (rest : List Node) (last : Value) :
    evalBody apply (node :: rest) scope last w = (.error e, w₁) := by
  rw [evalBody, Run.bind_of_error h]

theorem eval_when_true {condition : Node} {body : List Node} {alternative : Option Node}
    (h : eval apply condition scope w = (.ok (.bool true), w₁)) :
    eval apply (.when condition body alternative) scope w =
      evalBody apply body ⟨w₁.store.frames.size, scope.chain⟩ .null
        { w₁ with store := (w₁.store.openFrame scope.chain).1 } := by
  rw [eval, Run.bind_of_ok h]
  rfl

theorem eval_when_false {condition : Node} {body : List Node}
    (h : eval apply condition scope w = (.ok (.bool false), w₁)) :
    eval apply (.when condition body none) scope w = (.ok .null, w₁) := by
  rw [eval, Run.bind_of_ok h]
  rfl

end

/-! ## Calls -/

/-- The bindings of parameters to arguments. -/
def bound : List String → List Value → List (String × Binding)
  | [], _ => []
  | p :: ps, args => (p, ⟨args.headD .null, false⟩) :: bound ps args.tail

/-- Parameters that are all different go into the frame in order, and nothing else changes. -/
theorem bindAll_of_nodup (scope : Scope) {globals : List String} :
    ∀ (params : List String) (args : List Value) {w : World} {entries : List (String × Binding)},
      scope.frame < w.store.frames.size →
      w.store.frame scope.frame = ⟨⟨entries⟩, globals⟩ →
      (entries.map Prod.fst ++ params).Nodup → ∃ t : Store,
        bindAll scope params args w = (.ok (), { w with store := t }) ∧
        t.objects = w.store.objects ∧ t.frames.size = w.store.frames.size ∧
        t.frame scope.frame = ⟨⟨entries ++ bound params args⟩, globals⟩ ∧
        ∀ f, f ≠ scope.frame → t.frame f = w.store.frame f
  | [], _, w, entries, _, hframe, _ =>
    ⟨w.store, rfl, rfl, rfl, by rw [hframe, bound, List.append_nil], fun _ _ => rfl⟩
  | p :: ps, args, w, entries, hsize, hframe, hnodup => by
    have hnew : p ∉ entries.map Prod.fst := fun hp =>
      (List.nodup_append.1 hnodup).2.2 _ hp _ List.mem_cons_self rfl
    have hdeclare : declare scope p ⟨args.headD .null, false⟩ w = (.ok (),
        { w with store := w.store.bindName scope.frame p ⟨args.headD .null, false⟩ }) :=
      declare_of_not_mem (by rw [hframe]; exact hnew) _
    have hentries : (w.store.bindName scope.frame p ⟨args.headD .null, false⟩).frame scope.frame =
        ⟨⟨entries ++ [(p, ⟨args.headD .null, false⟩)]⟩, globals⟩ := by
      rw [Store.frame_bindName, if_pos ⟨rfl, hsize⟩, hframe, Table.insert,
        Table.insertIn_of_not_mem _ hnew]
    obtain ⟨t, hrest, hobjects, hframes, hbound, hothers⟩ :=
      bindAll_of_nodup scope ps args.tail
        (w := { w with store := w.store.bindName scope.frame p ⟨args.headD .null, false⟩ })
        (Nat.lt_of_lt_of_eq hsize (w.store.frames_size_bindName ..).symm) hentries
        (by rwa [List.map_append, List.append_assoc])
    refine ⟨t, ?_, hobjects, hframes.trans (w.store.frames_size_bindName ..), ?_, fun f hf => ?_⟩
    · rw [bindAll, Run.bind_of_ok hdeclare]
      exact hrest
    · rw [hbound, bound, ← List.append_cons]
    · rw [hothers f hf, Store.frame_bindName, if_neg fun h => hf h.1]

/-- A call starts in a frame of its own, which holds its parameters. -/
structure Entered (c : Closure) (args : List Value) (s t : Store) : Prop where
  frames_size : t.frames.size = s.frames.size + 1
  objects : t.objects = s.objects
  old : ∀ f, f < s.frames.size → t.frame f = s.frame f
  own : t.frame s.frames.size = ⟨⟨bound c.params args⟩, []⟩

theorem Entered.extends {c : Closure} {args : List Value} {s t : Store} (h : Entered c args s t) :
    s.Extends t where
  frames_size := by
    rw [h.frames_size]
    exact Nat.le_succ _
  objects_size := Nat.le_of_eq (congrArg Array.size h.objects).symm
  frame := h.old
  object a _ := by rw [Store.object, Store.object, h.objects]

theorem callScope_of_nodup {c : Closure} (h : c.params.Nodup) (args : List Value) (w : World) :
    ∃ t, Entered c args w.store t ∧
      callScope c args w = (.ok ⟨w.store.frames.size, c.chain⟩, { w with store := t }) := by
  have hopen : Run.create (fun s => s.openFrame c.chain) w =
      (.ok ⟨w.store.frames.size, c.chain⟩,
        { w with store := (w.store.openFrame c.chain).1 }) := rfl
  have hsize := w.store.frames_size_openFrame c.chain
  have hframe : (w.store.openFrame c.chain).1.frame w.store.frames.size = ⟨⟨[]⟩, []⟩ := by
    rw [Store.frame_openFrame, w.store.frame_of_size_le (Nat.le_refl _)]
    rfl
  obtain ⟨t, hbind, hobjects, hframes, hown, hothers⟩ :=
    bindAll_of_nodup ⟨w.store.frames.size, c.chain⟩ c.params args
      (w := { w with store := (w.store.openFrame c.chain).1 })
      (by rw [hsize]; exact Nat.lt_succ_self _)
      hframe h
  refine ⟨t, ⟨hframes.trans hsize, hobjects, fun f hf => ?_, hown⟩, ?_⟩
  · rw [hothers f (Nat.ne_of_lt hf), Store.frame_openFrame]
  · rw [callScope]
    exact (Run.bind_of_ok hopen).trans (Run.bind_of_ok hbind)

theorem callWithin_body {limit : Nat} {w : World} (hlt : w.depth < limit) (apply : Applier)
    (name : String) {c : Closure} (hparams : c.params.Nodup) (args : List Value) : ∃ v : World,
    v.depth = w.depth + 1 ∧ Entered c args w.store v.store ∧
    callWithin limit (some apply) name c args w =
      (outcomeOfBody (evalBody apply c.body ⟨w.store.frames.size, c.chain⟩ .null v).1,
        (evalBody apply c.body ⟨w.store.frames.size, c.chain⟩ .null v).2.leave) := by
  obtain ⟨t, hentered, hscope⟩ := callScope_of_nodup hparams args
    { w with trace := .calling name args.length :: w.trace }
  refine ⟨World.enter ⟨t, w.output, w.depth, .calling name args.length :: w.trace, w.room⟩, rfl,
    hentered, ?_⟩
  have hnote : Run.note (.calling name args.length) w =
      (.ok (), { w with trace := .calling name args.length :: w.trace }) := rfl
  rw [callWithin_of_lt hlt, Run.bind_of_ok hnote, Run.bind_of_ok hscope]
  rfl

/-- With room for it the call goes on, in a world with the same store and depth. -/
theorem callScript_of_hasRoom {limit : Nat} {w : World} (hroom : HasRoom limit w)
    (inner : Option Applier) (name : String) (c : Closure) (args : List Value) :
    callScript limit inner name c args w =
      callWithin limit inner name c args (reserve limit w).2 := by
  rw [callScript, Run.bind_of_ok (Prod.fst_eq_iff.1 (reserve_of_hasRoom hroom))]

theorem callScript_body {limit : Nat} {w : World} (hlt : w.depth < limit)
    (hroom : HasRoom limit w) (apply : Applier) (name : String) {c : Closure}
    (hparams : c.params.Nodup) (args : List Value) : ∃ v : World,
    v.depth = w.depth + 1 ∧ Entered c args w.store v.store ∧
    callScript limit (some apply) name c args w =
      (outcomeOfBody (evalBody apply c.body ⟨w.store.frames.size, c.chain⟩ .null v).1,
        (evalBody apply c.body ⟨w.store.frames.size, c.chain⟩ .null v).2.leave) := by
  obtain ⟨hstore, -, hdepth⟩ := reserve_kept limit w
  have hbody := callWithin_body (w := (reserve limit w).2) (hdepth.symm ▸ hlt) apply name hparams
    args
  rwa [hstore, hdepth, ← callScript_of_hasRoom hroom] at hbody

section

variable {host : Host} {limit : Nat} {w : World} {a : Address} {c : Closure} {args : List Value}
  {self : Option Value} (hshape : (w.store.object a).shape = .function c)
  (hnative : c.native = none)

variable (host limit) in
/-- The depth comes back after every call. -/
theorem depth_call (f : Value) (args : List Value) (self : Option Value) (w : World) :
    (call host limit f args self w).2.depth = w.depth :=
  (steady_applier host limit limit limit w.depth (Nat.sub_le _ _) (Nat.sub_le _ _) f args self w
    rfl).2.2.1

include hshape hnative

theorem call_script_of_le (hle : limit ≤ w.depth) : call host limit (.ref a) args self w =
    (.error (.failed (.tooDeep (nameOrAnonymous (w.store.object a).functionName))),
      (reserve limit w).2) := by
  have hkept : (reserve limit w).2.depth = w.depth := (reserve_kept limit w).2.2
  have hroom : HasRoom limit w := hasRoom_of_le hle
  unfold call
  cases limit with
  | zero =>
    rw [applier, applyOver_script hshape hnative, callScript_of_hasRoom hroom]
    exact callWithin_of_le (hkept.symm ▸ hle) _ _ _ _
  | succ limit =>
    rw [applier, applyOver_script hshape hnative, callScript_of_hasRoom hroom]
    exact callWithin_of_le (hkept.symm ▸ hle) _ _ _ _

variable (host args self) in
/-- Where no room can be made no function of a script can be called at all. -/
theorem call_script_of_not_hasRoom (hroom : ¬ HasRoom limit w) :
    (call host limit (.ref a) args self w).1 = .error (.failed .noRoom) := by
  have hends : ∀ (inner : Option Applier) (name : String),
      (callScript limit inner name c args w).1 = .error (.failed .noRoom) := by
    intro inner name
    have hreserve := reserve_of_not_hasRoom hroom
    rw [callScript, Run.bind_apply]
    rcases hr : reserve limit w with ⟨outcome, w'⟩
    rw [hr] at hreserve
    cases hreserve
    rfl
  unfold call
  cases limit with
  | zero =>
    rw [applier, applyOver_script hshape hnative]
    exact hends _ _
  | succ limit =>
    rw [applier, applyOver_script hshape hnative]
    exact hends _ _

variable (host args self) in
/-- Below the limit the body runs one level deeper, and may itself call whatever the limit admits
there. -/
theorem call_script (hlt : w.depth < limit) (hroom : HasRoom limit w)
    (hparams : c.params.Nodup) : ∃ v : World,
    v.depth = w.depth + 1 ∧ Entered c args w.store v.store ∧
    call host limit (.ref a) args self w =
      (outcomeOfBody
        (evalBody (call host limit) c.body ⟨w.store.frames.size, c.chain⟩ .null v).1,
        (evalBody (call host limit) c.body ⟨w.store.frames.size, c.chain⟩ .null v).2.leave) := by
  have happly : call host limit (.ref a) args self w = callScript limit (some (call host limit))
      (nameOrAnonymous (w.store.object a).functionName) c args w := by
    obtain ⟨budget, hbudget⟩ := Nat.exists_eq_succ_of_ne_zero (Nat.ne_zero_of_lt hlt)
    have hcall : call host limit = applyOver host limit (some (applier host limit budget)) := by
      unfold call
      conv => lhs; arg 3; rw [hbudget]
      rfl
    rw [hcall, applyOver_script hshape hnative]
    -- the budget for the body is as good as the one that the call had
    refine (steady_callScript (fun _ => ⟨_, _, rfl, rfl, fun f args self => ?_⟩) _ c args w rfl).1
    rw [← hcall]
    exact steady_applier host limit budget limit (w.depth + 1) (by omega) (by omega) f args self
  rw [happly]
  exact callScript_body hlt hroom _ _ hparams args

end

end Eval

end Guion
