import Guion.Proofs.Loading

/-!
# One step of mapping a function over a list

The function `mapear` of the built-in prelude fills a new list by a function `paso` that calls
itself.  Before the end of the list a call of `paso` applies the function to the next element, puts
the result at the end of the new list and goes on; at the end it hands out the new list.
-/

namespace Guion

/-! ## Lists that grow at the end -/

theorem Object.assign_ofElements (ys : List Value) (y : Value) :
    (Object.ofElements ys).assign (Num.natText ys.length) y = .ofElements (ys ++ [y]) := by
  have hindexed : Store.indexed (ys ++ [y]) = Store.indexed ys ++ [(Num.natText ys.length, y)] := by
    rw [Store.indexed, Store.indexed, List.zipIdx_append, List.map_append, Nat.zero_add]
    rfl
  rw [ofElements, ofElements, hindexed, Table.insertAll, Table.insertAll, List.foldl_append]
  rfl

namespace Store

/-- The root frame binds `longitud` to the built-in function, and the list is in order. -/
structure Site (s : Store) (root : FrameId) (list : Address) : Prop where
  length : s.Offers root "longitud" (nativeClosure .length)
  isList : (s.object list).shape = .list
  inOrder : (s.object list).InOrder

variable {s t : Store} {root : FrameId} {list : Address}

theorem Site.extends (h : s.Site root list) (hst : s.Extends t) :
    t.Site root list ∧ t.object list = s.object list := by
  have hlist := hst.object list (lt_of_list h.isList)
  exact ⟨⟨h.length.extends hst, hlist ▸ h.isList, hlist ▸ h.inOrder⟩, hlist⟩

end Store

/-! ## Stages -/

namespace Mapping

open Store Eval

/-- What a call of `mapear` that began in the store has bound when it calls `paso`. -/
def bindings (since : Store) (list f : Address) : Table Binding :=
  ⟨[("lista", ⟨.ref list, false⟩), ("f", ⟨.ref f, false⟩),
    ("resultado", ⟨.ref since.objects.size, false⟩),
    ("paso", ⟨.ref (since.objects.size + 1), false⟩)]⟩

/-- A call of `mapear` that began in the one store has, in the other, filled the new list with the
given elements. -/
structure Stage (since : Store) (root : FrameId) (list f : Address) (ys : List Value)
    (s : Store) : Prop where
  extends_since : since.Extends s
  frames_size : since.frames.size < s.frames.size
  objects_size : since.objects.size + 1 < s.objects.size
  frame : s.frame since.frames.size = ⟨bindings since list f, []⟩
  result : s.object since.objects.size = .ofElements ys
  step : (s.object (since.objects.size + 1)).shape =
    .function (Prelude.stepClosure since.frames.size root)

variable {since s t : Store} {root : FrameId} {list f : Address} {ys : List Value}

theorem Stage.extends (h : Stage since root list f ys s) (hst : s.Extends t) :
    Stage since root list f ys t where
  extends_since := h.extends_since.trans hst
  frames_size := Nat.lt_of_lt_of_le h.frames_size hst.frames_size
  objects_size := Nat.lt_of_lt_of_le h.objects_size hst.objects_size
  frame := (hst.frame _ h.frames_size).trans h.frame
  result := (hst.object _ (Nat.lt_of_succ_lt h.objects_size)).trans h.result
  step := (hst.object _ h.objects_size).symm ▸ h.step

/-- An element at the next index. -/
theorem Stage.append (h : Stage since root list f ys s) (y : Value) :
    Stage since root list f (ys ++ [y])
      (s.setProperty since.objects.size (Num.natText ys.length) y) where
  extends_since := h.extends_since.setProperty (Nat.le_refl _) _ _
  frames_size := h.frames_size
  objects_size := (s.objects_size_setProperty ..).symm ▸ h.objects_size
  frame := h.frame
  result := by
    rw [object_setProperty, if_pos ⟨rfl, Nat.lt_of_succ_lt h.objects_size⟩, h.result]
    exact Object.assign_ofElements ys y
  step := by
    rw [shape_setProperty]
    exact h.step

/-- The world after the element has been put at the end of the new list. -/
def put (since : Store) (ys : List Value) (y : Value) (v : World) : World :=
  { v with store := v.store.setProperty since.objects.size (Num.natText ys.length) y }

/-! ## Names that `paso` uses -/

/-- The frame of a call of `paso`. -/
def OwnFrame (s : Store) (own : FrameId) (i : Nat) : Prop :=
  s.frame own = ⟨⟨[("i", ⟨.num (.int i), false⟩)]⟩, []⟩

section

variable {own : FrameId} {i : Nat} (hown : OwnFrame s own i)
include hown

theorem lookup_index (outer : List FrameId) : s.lookup ⟨own, outer⟩ "i" = .ok (.num (.int i)) :=
  lookup_inner (b := ⟨.num (.int i), false⟩) (by rw [hown]; rfl) outer

theorem lookup_around {name : String} (hname : name ≠ "i") (frame : FrameId)
    (outer : List FrameId) :
    s.lookup ⟨own, frame :: outer⟩ name = s.lookup ⟨frame, outer⟩ name := by
  refine lookup_outer ?_ frame outer
  rw [hown]
  exact if_neg hname.symm

variable (h : Stage since root list f ys s)
include h

theorem lookup_bound (name : String) {b : Binding} (hname : name ≠ "i")
    (hbound : (bindings since list f).find? name = some b) :
    s.lookup ⟨own, [since.frames.size, root]⟩ name = .ok b.value := by
  rw [lookup_around hown hname]
  exact lookup_inner (by rw [h.frame]; exact hbound) _

/-- The built-in function is found beyond the frame of `mapear`. -/
theorem lookup_length (hsite : s.Site root list) : ∃ a,
    s.lookup ⟨own, [since.frames.size, root]⟩ "longitud" = .ok (.ref a) ∧
      (s.object a).shape = .function (nativeClosure .length) := by
  obtain ⟨a, hlookup, hshape⟩ := hsite.length.lookup
  refine ⟨a, ?_, hshape⟩
  rw [lookup_around hown (by decide), lookup_outer (by rw [h.frame]; rfl), hlookup]

end

/-! ## The body of `paso` -/

theorem key_index (s : Store) {i : Nat} (h : i < Nat.pow 10 Num.digitLimit) :
    (Value.num (.int i)).key s = .ok (Num.natText i) := by
  rw [Value.key, Num.keyText, Num.intText_natCast h]
  rfl

section

variable {host : Host} {limit : Nat} {v : World} {own : FrameId} {i : Nat}

theorem call_length {a : Address}
    (hshape : (v.store.object a).shape = .function (nativeClosure .length)) (list : Address) :
    call host limit (.ref a) [.ref list] none v =
      (.ok (.num (.int (v.store.object list).elements.length)), v) := by
  have hlength : v.store.lengthOf (.ref list) = .ok (v.store.object list).elements.length := by
    rw [lengthOf, Object.elements, List.length_map]
  rw [call_native hshape rfl, Native.call, Native.result, Run.bind_apply, Run.inspect, hlength]
  rfl

variable (host limit) (hown : OwnFrame v.store own i) (h : Stage since root list f ys v.store)
  (hsite : v.store.Site root list)
include hown h hsite

theorem eval_condition : eval (call host limit)
    (.binary (.ident "i") (.call (.ident "longitud") [.ident "lista"]) "==")
    ⟨own, [since.frames.size, root]⟩ v =
      (.ok (.bool ((i : Int) == (v.store.object list).elements.length)), v) := by
  obtain ⟨a, ha, hshape⟩ := lookup_length hown h hsite
  have hlist := lookup_bound hown h "lista" (b := ⟨.ref list, false⟩) (by decide) rfl
  have hlength : eval (call host limit) (.call (.ident "longitud") [.ident "lista"])
      ⟨own, [since.frames.size, root]⟩ v =
        (.ok (.num (.int (v.store.object list).elements.length)), v) := by
    rw [eval_call ha (eval_ident hlist)]
    exact call_length hshape list
  exact eval_binary (by decide) (eval_ident (lookup_index hown _)) hlength rfl

theorem eval_item {x : Value} (hi : i < Nat.pow 10 Num.digitLimit)
    (hx : (v.store.object list).elements[i]? = some x) :
    eval (call host limit) (.member (.ident "lista") (.ident "i") true)
      ⟨own, [since.frames.size, root]⟩ v = (.ok x, v) := by
  have hlist := lookup_bound hown h "lista" (b := ⟨.ref list, false⟩) (by decide) rfl
  have hmember : eval (call host limit) (.member (.ident "lista") (.ident "i") true)
      ⟨own, [since.frames.size, root]⟩ v =
        (.ok (v.store.getProperty list (Num.natText i)), v) :=
    eval_member (eval_ident hlist) (eval_ident (lookup_index hown _)) (key_index v.store hi)
  have hget := hsite.inOrder.getElem? (List.getElem?_eq_some_iff.1 hx).1
  rw [hx] at hget
  rw [hmember, getProperty, ← Option.some.inj hget]

/-- The function is called on the element at the index. -/
theorem eval_application {x : Value} (hi : i < Nat.pow 10 Num.digitLimit)
    (hx : (v.store.object list).elements[i]? = some x) :
    eval (call host limit) (.call (.ident "f") [.member (.ident "lista") (.ident "i") true])
      ⟨own, [since.frames.size, root]⟩ v = call host limit (.ref f) [x] none v := by
  have hfound := lookup_bound hown h "f" (b := ⟨.ref f, false⟩) (by decide) rfl
  exact eval_call hfound (eval_item host limit hown h hsite hi hx)

/-- The call at the end of the list hands out the list that was filled. -/
theorem evalBody_at_end (hi : i = (v.store.object list).elements.length) :
    evalBody (call host limit) Prelude.stepBody ⟨own, [since.frames.size, root]⟩ .null v =
      (.error (.returned (.ref since.objects.size)),
        { v with store := (v.store.openFrame [own, since.frames.size, root]).1 }) := by
  have hcondition := eval_condition host limit hown h hsite
  rw [hi, beq_self_eq_true] at hcondition
  refine evalBody_cons_of_error ?_ _ _
  rw [eval_when_true hcondition]
  refine evalBody_cons_of_error (eval_giveBack (eval_ident ?_)) _ _
  have hextends := v.store.extends_openFrame [own, since.frames.size, root]
  have hempty : (v.store.openFrame [own, since.frames.size, root]).1.frame v.store.frames.size =
      ⟨.empty, []⟩ := by
    rw [frame_openFrame, v.store.frame_of_size_le (Nat.le_refl _)]
  have hown' : OwnFrame (v.store.openFrame [own, since.frames.size, root]).1 own i :=
    (v.store.frame_openFrame _ own).trans hown
  have hnone : ((v.store.openFrame [own, since.frames.size, root]).1.frame
      v.store.frames.size).vars.find? "resultado" = none := by
    rw [hempty]
    rfl
  refine (lookup_outer hnone own _).trans ?_
  exact lookup_bound hown' (h.extends hextends) "resultado"
    (b := ⟨.ref since.objects.size, false⟩) (by decide) rfl

/-- A call before the end of the list does not hand out anything by itself. -/
theorem eval_before_end (hi : i < (v.store.object list).elements.length) :
    eval (call host limit)
      (.when (.binary (.ident "i") (.call (.ident "longitud") [.ident "lista"]) "==")
        [.giveBack (.ident "resultado")] none) ⟨own, [since.frames.size, root]⟩ v =
      (.ok .null, v) := by
  have hcondition := eval_condition host limit hown h hsite
  have hne : ((i : Int) == (v.store.object list).elements.length) = false :=
    beq_false_of_ne (by omega)
  rw [hne] at hcondition
  exact eval_when_false hcondition

/-- If the function fails, so does the call. -/
theorem evalBody_of_error {x : Value} (hi : i < Nat.pow 10 Num.digitLimit)
    (hx : (v.store.object list).elements[i]? = some x) {e : Exit} {v' : World}
    (hf : call host limit (.ref f) [x] none v = (.error e, v')) :
    evalBody (call host limit) Prelude.stepBody ⟨own, [since.frames.size, root]⟩ .null v =
      (.error e, v') := by
  have hbefore := eval_before_end host limit hown h hsite (List.getElem?_eq_some_iff.1 hx).1
  have hvalue := (eval_application host limit hown h hsite hi hx).trans hf
  refine (evalBody_cons_of_ok hbefore _ _).trans ?_
  exact evalBody_cons_of_error (eval_assign_member_of_error hvalue) _ _

/-- If the function gives a value, the value goes to the end of the new list and the call goes on
with the next element. -/
theorem evalBody_of_ok {x : Value} (hi : i < Nat.pow 10 Num.digitLimit)
    (hx : (v.store.object list).elements[i]? = some x) {y : Value} {v' : World}
    (hf : call host limit (.ref f) [x] none v = (.ok y, v')) (hv' : v.store.Extends v'.store)
    (hlt : own < v.store.frames.size) (hlength : ys.length = i) {outcome : Except Exit Value}
    {w : World}
    (hnext : call host limit (.ref (since.objects.size + 1)) [.num (.int (i + 1 : Nat))] none
      (put since ys y v') = (outcome, w)) :
    evalBody (call host limit) Prelude.stepBody ⟨own, [since.frames.size, root]⟩ .null v =
      (.error (exitOf outcome), w) := by
  have hbefore := eval_before_end host limit hown h hsite (List.getElem?_eq_some_iff.1 hx).1
  have hvalue := (eval_application host limit hown h hsite hi hx).trans hf
  have hown' : OwnFrame v'.store own i := (hv'.frame own hlt).trans hown
  have hresult := lookup_bound hown' (h.extends hv') "resultado"
    (b := ⟨.ref since.objects.size, false⟩) (by decide) rfl
  have hassign := eval_assign_member hvalue (eval_ident hresult)
    (eval_ident (lookup_index hown' _)) (key_index v'.store hi)
  subst hlength
  have hown'' : OwnFrame (put since ys y v').store own ys.length := hown'
  have hpaso := lookup_bound hown'' ((h.extends hv').append y) "paso"
    (b := ⟨.ref (since.objects.size + 1), false⟩) (by decide) rfl
  have hindex : eval (call host limit) (.binary (.ident "i") (.number 1) "+")
      ⟨own, [since.frames.size, root]⟩ (put since ys y v') =
        (.ok (.num (.int (ys.length + 1 : Nat))), put since ys y v') :=
    eval_binary (by decide) (eval_ident (lookup_index hown'' _)) rfl rfl
  refine (evalBody_cons_of_ok hbefore _ _).trans ((evalBody_cons_of_ok hassign _ _).trans ?_)
  have hcall := (eval_call (w := put since ys y v') hpaso hindex).trans hnext
  exact evalBody_cons_of_error (eval_giveBack hcall) _ _

end

/-! ## Calls of `paso` -/

section

variable (host : Host) {limit : Nat} {v : World} (h : Stage since root list f ys v.store)
  (hinside : 0 < v.depth)
include h hinside

/-- A call of `paso` runs its body one level deeper, with its index in a frame of its own. -/
theorem call_step (hlt : v.depth < limit) (i : Nat) : ∃ u : World, u.depth = v.depth + 1 ∧
    v.store.Extends u.store ∧ v.store.frames.size < u.store.frames.size ∧
    OwnFrame u.store v.store.frames.size i ∧
    call host limit (.ref (since.objects.size + 1)) [.num (.int i)] none v =
      (outcomeOfBody (evalBody (call host limit) Prelude.stepBody
          ⟨v.store.frames.size, [since.frames.size, root]⟩ .null u).1,
        (evalBody (call host limit) Prelude.stepBody
          ⟨v.store.frames.size, [since.frames.size, root]⟩ .null u).2.leave) := by
  obtain ⟨u, hdepth, hentered, hcall⟩ :=
    call_script host [.num (.int i)] none h.step rfl hlt (hasRoom_of_pos hinside)
      (List.nodup_singleton _)
  have hsize : v.store.frames.size < u.store.frames.size := by
    rw [hentered.frames_size]
    exact Nat.lt_succ_self _
  exact ⟨u, hdepth, hentered.extends, hsize, hentered.own, hcall⟩

variable (hsite : since.Site root list)
include hsite

/-- At the end of the list the call gives the list that was filled. -/
theorem call_step_at_end (hlt : v.depth < limit)
    (hend : ys.length = (since.object list).elements.length) : ∃ v' : World,
    call host limit (.ref (since.objects.size + 1)) [.num (.int ys.length)] none v =
      (.ok (.ref since.objects.size), v') ∧ v.store.Extends v'.store := by
  obtain ⟨u, -, hextends, -, hown, hcall⟩ := call_step host h hinside hlt ys.length
  obtain ⟨hsite', hlist⟩ := hsite.extends (h.extends hextends).extends_since
  have hbody := evalBody_at_end host limit hown (h.extends hextends) hsite'
    (hlist ▸ hend)
  rw [hbody] at hcall
  refine ⟨_, hcall, hextends.trans ?_⟩
  exact u.store.extends_openFrame [v.store.frames.size, since.frames.size, root]

/-- Before the end a call fails if the function fails on the next element, and else goes on with
the result of the function at the end of the new list. -/
theorem call_step_before_end (hlt : v.depth < limit) {x : Value}
    (hx : (since.object list).elements[ys.length]? = some x)
    (hi : ys.length < Nat.pow 10 Num.digitLimit) : ∃ u : World,
    u.depth = v.depth + 1 ∧ v.store.Extends u.store ∧
    (∀ e u', call host limit (.ref f) [x] none u = (.error e, u') →
      call host limit (.ref (since.objects.size + 1)) [.num (.int ys.length)] none v =
        (outcomeOfBody (.error e), u'.leave)) ∧
    ∀ y u' outcome w, call host limit (.ref f) [x] none u = (.ok y, u') →
      u.store.Extends u'.store →
      call host limit (.ref (since.objects.size + 1)) [.num (.int (ys.length + 1 : Nat))] none
        (put since ys y u') = (outcome, w) →
      call host limit (.ref (since.objects.size + 1)) [.num (.int ys.length)] none v =
        (outcomeOfBody (.error (exitOf outcome)), w.leave) := by
  obtain ⟨u, hdepth, hextends, hsize, hown, hcall⟩ := call_step host h hinside hlt ys.length
  have hstage := h.extends hextends
  obtain ⟨hsite', hlist⟩ := hsite.extends hstage.extends_since
  rw [← hlist] at hx
  refine ⟨u, hdepth, hextends, fun e u' hf => ?_, fun y u' outcome w hf hu' hnext => ?_⟩
  · rw [hcall, evalBody_of_error host limit hown hstage hsite' hi hx hf]
  · rw [hcall, evalBody_of_ok host limit hown hstage hsite' hi hx hf hu' hsize rfl hnext]

end

end Mapping

end Guion
