import Guion.Proofs.Mapping.Steps
import Guion.Proofs.Growth

/-!
# Mapping a function over a list

The function `mapear` of the built-in prelude calls `paso` once for each element and once at the
end, each from within the one before, so it needs two calls more than the list has elements.  The
host must have room for the limit or be able to make it; else no function can be called, `mapear`
among them.

    n + 2 ≤ limit ↔ the call of mapear on a list of n elements gives a list         (call_mapear)
      if `roomFor limit ≤ w.room` or `roomFor limit ≤ mostRoom`
-/

namespace Guion

namespace Store

variable {s t : Store}

/-- What a run has made between two stores stands in a third one as the run left it. -/
structure Retains (s old new : Store) : Prop where
  frames_size : new.frames.size ≤ s.frames.size
  objects_size : new.objects.size ≤ s.objects.size
  frame : ∀ g, old.frames.size ≤ g → g < new.frames.size → s.frame g = new.frame g
  object : ∀ a, old.objects.size ≤ a → a < new.objects.size → s.object a = new.object a

theorem Retains.refl (old new : Store) : new.Retains old new :=
  ⟨Nat.le_refl _, Nat.le_refl _, fun _ _ _ => rfl, fun _ _ _ => rfl⟩

variable {old new : Store}

theorem Retains.extends (h : s.Retains old new) (hst : s.Extends t) : t.Retains old new where
  frames_size := Nat.le_trans h.frames_size hst.frames_size
  objects_size := Nat.le_trans h.objects_size hst.objects_size
  frame g hg hlt := (hst.frame g (Nat.lt_of_lt_of_le hlt h.frames_size)).trans (h.frame g hg hlt)
  object a ha hlt :=
    (hst.object a (Nat.lt_of_lt_of_le hlt h.objects_size)).trans (h.object a ha hlt)

/-- What was there before the run may change. -/
theorem Retains.setProperty (h : s.Retains old new) {a : Address} (ha : a < old.objects.size)
    (key : String) (v : Value) : (s.setProperty a key v).Retains old new where
  frames_size := h.frames_size
  objects_size := (s.objects_size_setProperty a key v).symm ▸ h.objects_size
  frame := h.frame
  object b hb hlt := by
    have hne : b ≠ a := Nat.ne_of_gt (Nat.lt_of_lt_of_le ha hb)
    rw [object_setProperty, if_neg fun e => hne e.1]
    exact h.object b hb hlt

end Store

namespace Mapping

open Store Eval

variable {since s t : Store} {root : FrameId} {list f : Address} {ys : List Value}

/-! ## All calls of `paso` -/

/-- The function gave the one value for the other in a store that only had more, and what the call
made is as it left it. -/
def Gave (host : Host) (limit : Nat) (since : Store) (f : Address) (s : Store) (x y : Value) :
    Prop :=
  ∃ v v' : World, since.Extends v.store ∧ call host limit (.ref f) [x] none v = (.ok y, v') ∧
    since.objects.size < v.store.objects.size ∧ s.Retains v.store v'.store

/-- Every call of the function on one of the values that the limit admits, and for which there is
room, gives a result, as the relation says, and changes nothing. -/
def Admitted (host : Host) (limit : Nat) (since : Store) (f : Address) (xs : List Value)
    (returns : Value → Value → Prop) : Prop :=
  ∀ v : World, since.Extends v.store →
    (∀ c, (since.object f).shape = .function c → c.native = none →
      v.depth < limit ∧ HasRoom limit v) →
    ∀ x ∈ xs, ∃ y v', call host limit (.ref f) [x] none v = (.ok y, v') ∧ returns x y ∧
      v.store.Extends v'.store

/-- A stage at which the new list holds what the function gave for the first elements. -/
structure Filled (host : Host) (limit : Nat) (since : Store) (root : FrameId) (list f : Address)
    (returns : Value → Value → Prop) (ys : List Value) (s : Store) : Prop where
  stage : Stage since root list f ys s
  gave : List.Forall₂ (fun x y => returns x y ∧ Gave host limit since f s x y)
    ((since.object list).elements.take ys.length) ys

section

variable {host : Host} {limit : Nat} {returns : Value → Value → Prop}

theorem Gave.extends {x y : Value} (h : Gave host limit since f s x y) (hst : s.Extends t) :
    Gave host limit since f t x y := by
  obtain ⟨v, v', hv, hcall, hsize, hretains⟩ := h
  exact ⟨v, v', hv, hcall, hsize, hretains.extends hst⟩

/-- The new list is older than what the function makes. -/
theorem Gave.setProperty {x y : Value} (h : Gave host limit since f s x y) (key : String)
    (z : Value) : Gave host limit since f (s.setProperty since.objects.size key z) x y := by
  obtain ⟨v, v', hv, hcall, hsize, hretains⟩ := h
  exact ⟨v, v', hv, hcall, hsize, hretains.setProperty hsize key z⟩

theorem Filled.extends (h : Filled host limit since root list f returns ys s)
    (hst : s.Extends t) : Filled host limit since root list f returns ys t where
  stage := h.stage.extends hst
  gave := h.gave.imp fun _ _ hxy => ⟨hxy.1, hxy.2.extends hst⟩

theorem Filled.put {v u u' : World} (h : Filled host limit since root list f returns ys v.store)
    {x y : Value} (hx : (since.object list).elements[ys.length]? = some x) (hxy : returns x y)
    (hvu : v.store.Extends u.store) (hcall : call host limit (.ref f) [x] none u = (.ok y, u'))
    (huu' : u.store.Extends u'.store) :
    Filled host limit since root list f returns (ys ++ [y]) (put since ys y u').store where
  stage := ((h.stage.extends hvu).extends huu').append y
  gave := by
    have hu := h.stage.extends hvu
    have hgave : Gave host limit since f u'.store x y :=
      ⟨u, u', hu.extends_since, hcall, Nat.lt_of_succ_lt hu.objects_size, .refl _ _⟩
    have hbefore := (h.extends (hvu.trans huu')).gave.imp fun x' y' hxy' =>
      (⟨hxy'.1, hxy'.2.setProperty (Num.natText ys.length) y⟩ :
        returns x' y' ∧ Gave host limit since f (Mapping.put since ys y u').store x' y')
    rw [List.length_append, List.length_singleton, List.take_add_one, hx]
    exact List.rel_append hbefore (.cons ⟨hxy, hgave.setProperty _ _⟩ .nil)

/-- If the function can be applied to the next element, a call of `paso` is a call on the element
after it. -/
theorem round {v : World} (hsite : since.Site root list)
    (hf : Admitted host limit since f (since.object list).elements returns)
    (h : Filled host limit since root list f returns ys v.store) (hinside : 0 < v.depth)
    (hlt : v.depth < limit)
    (hadmits : ∀ c, (since.object f).shape = .function c → c.native = none → v.depth + 1 < limit)
    (hi : ys.length < Nat.pow 10 Num.digitLimit)
    (hmore : ys.length < (since.object list).elements.length) : ∃ y next,
    Filled host limit since root list f returns (ys ++ [y]) (next : World).store ∧
    next.depth = v.depth + 1 ∧ ∀ outcome w,
      call host limit (.ref (since.objects.size + 1)) [.num (.int (ys ++ [y]).length)] none next =
        (outcome, w) →
      call host limit (.ref (since.objects.size + 1)) [.num (.int ys.length)] none v =
        (outcomeOfBody (.error (exitOf outcome)), w.leave) := by
  obtain ⟨x, hx⟩ : ∃ x, (since.object list).elements[ys.length]? = some x :=
    ⟨_, List.getElem?_eq_getElem hmore⟩
  obtain ⟨u, hdepth, hextends, -, hgoes⟩ :=
    call_step_before_end host h.stage hinside hsite hlt hx hi
  have hdeeper : 0 < u.depth := by omega
  obtain ⟨y, u', hcall, hxy, hu'⟩ := hf u (h.stage.extends hextends).extends_since
    (fun c hc hnative => ⟨hdepth ▸ hadmits c hc hnative, hasRoom_of_pos hdeeper⟩) x
    (List.mem_of_getElem? hx)
  refine ⟨y, put since ys y u', h.put hx hxy hextends hcall hu', ?_, fun outcome w hnext => ?_⟩
  · have hback := depth_call host limit (.ref f) [x] none u
    rw [hcall] at hback
    exact hback.trans hdepth
  · rw [List.length_append, List.length_singleton] at hnext
    exact hgoes y u' outcome w hcall hu' hnext

/-- A call of `paso` that has room for the rest of the list fills the new list to its end. -/
theorem call_step_fills (hsite : since.Site root list)
    (hf : Admitted host limit since f (since.object list).elements returns)
    (hroom : (since.object list).elements.length + 2 ≤ limit)
    (hlimit : limit < Nat.pow 10 Num.digitLimit) : ∀ (rest : Nat) {ys : List Value} {v : World},
    ys.length + rest = (since.object list).elements.length → v.depth = ys.length + 1 →
    Filled host limit since root list f returns ys v.store → ∃ zs v',
      call host limit (.ref (since.objects.size + 1)) [.num (.int ys.length)] none v =
        (.ok (.ref since.objects.size), v') ∧
      zs.length = (since.object list).elements.length ∧
      Filled host limit since root list f returns zs (v' : World).store := by
  intro rest
  induction rest with
  | zero =>
    intro ys v hlength hdepth h
    have hlt : v.depth < limit := by omega
    obtain ⟨v', hcall, hextends⟩ := call_step_at_end host h.stage (by omega) hsite hlt hlength
    exact ⟨ys, v', hcall, hlength, h.extends hextends⟩
  | succ rest ih =>
    intro ys v hlength hdepth h
    obtain ⟨y, next, hnext, hnextDepth, hgoes⟩ := round hsite hf h (by omega) (by omega)
      (fun _ _ _ => by omega) (by omega) (by omega)
    have hone : (ys ++ [y]).length = ys.length + 1 := by
      rw [List.length_append, List.length_singleton]
    obtain ⟨zs, v', hcall, hzs, hfilled⟩ := ih (by omega) (by omega) hnext
    exact ⟨zs, v'.leave, hgoes _ _ hcall, hzs, hfilled⟩

/-- A call of `paso` that has no room for the rest of the list is refused at the limit: either the
call itself, or one of the function, or a later one. -/
theorem call_step_refused (hsite : since.Site root list)
    (hf : Admitted host limit since f (since.object list).elements returns)
    (hroom : limit < (since.object list).elements.length + 2)
    (hlimit : limit < Nat.pow 10 Num.digitLimit) : ∀ (rest : Nat) {ys : List Value} {v : World},
    ys.length + 1 + rest = limit → v.depth = ys.length + 1 →
    Filled host limit since root list f returns ys v.store → ∃ name v',
      call host limit (.ref (since.objects.size + 1)) [.num (.int ys.length)] none v =
        (.error (.failed (.tooDeep name)), v') := by
  intro rest
  induction rest with
  | zero =>
    intro ys v hlength hdepth h
    exact ⟨_, _, call_script_of_le h.stage.step rfl (by omega)⟩
  | succ rest ih =>
    intro ys v hlength hdepth h
    by_cases hadmits : ∀ c, (since.object f).shape = .function c → c.native = none →
        v.depth + 1 < limit
    · obtain ⟨y, next, hnext, hnextDepth, hgoes⟩ := round hsite hf h (by omega) (by omega) hadmits
        (by omega) (by omega)
      have hone : (ys ++ [y]).length = ys.length + 1 := by
        rw [List.length_append, List.length_singleton]
      obtain ⟨name, v', hcall⟩ := ih (by omega) (by omega) hnext
      exact ⟨name, v'.leave, hgoes _ _ hcall⟩
    · -- the limit is reached one level deeper, where the function is called
      simp only [not_forall] at hadmits
      obtain ⟨c, hc, hnative, hdeep⟩ := hadmits
      obtain ⟨x, hx⟩ : ∃ x, (since.object list).elements[ys.length]? = some x :=
        ⟨_, List.getElem?_eq_getElem (by omega)⟩
      have hlt : v.depth < limit := by omega
      obtain ⟨u, hu, hextends, hfails, -⟩ :=
        call_step_before_end host h.stage (by omega) hsite hlt hx (by omega)
      have hshape : (u.store.object f).shape = .function c := by
        rw [(h.stage.extends hextends).extends_since.object f (lt_of_function hc)]
        exact hc
      exact ⟨_, _, hfails _ _ (call_script_of_le hshape hnative (by omega))⟩

end

/-! ## The call of `mapear` -/

/-- The store with the new list, which is still empty. -/
def withResult (since s : Store) : Store :=
  (s.makeList []).1.bindName since.frames.size "resultado" ⟨.ref since.objects.size, false⟩

/-- The store in which `paso` is called first. -/
def prepared (since : Store) (root : FrameId) (s : Store) : Store :=
  withFunction ⟨since.frames.size, [root]⟩ "paso" ["i"] Prelude.stepBody (withResult since s)

section

variable (h : Entered (Prelude.mapClosure root) [.ref list, .ref f] since s)
include h

theorem frames_size_withResult : since.frames.size < (withResult since s).frames.size := by
  rw [withResult, frames_size_bindName]
  show since.frames.size < s.frames.size
  rw [h.frames_size]
  exact Nat.lt_succ_self _

theorem frame_withResult : (withResult since s).frame since.frames.size =
    ⟨⟨[("lista", ⟨.ref list, false⟩), ("f", ⟨.ref f, false⟩),
      ("resultado", ⟨.ref since.objects.size, false⟩)]⟩, []⟩ := by
  have hsize : since.frames.size < s.frames.size := by
    rw [h.frames_size]
    exact Nat.lt_succ_self _
  have hown : (s.makeList []).1.frame since.frames.size =
      ⟨⟨bound ["lista", "f"] [.ref list, .ref f]⟩, []⟩ := h.own
  rw [withResult, frame_bindName, if_pos ⟨rfl, hsize⟩, hown]
  rfl

theorem objects_size_withResult : (withResult since s).objects.size = since.objects.size + 1 := by
  rw [← congrArg Array.size h.objects]
  exact s.objects_size_make .list []

/-- When `paso` is called first, nothing has been put into the new list. -/
theorem stage_prepared : Stage since root list f [] (prepared since root s) where
  extends_since := by
    refine extends_withFunction ?_ (Nat.le_refl _) _ _ _
    exact (h.extends.trans (s.extends_make .list [])).bindName (Nat.le_refl _) _ _
  frames_size := by
    rw [prepared, frames_size_withFunction]
    exact frames_size_withResult h
  objects_size := by
    rw [prepared, objects_size_withFunction, objects_size_withResult h]
    exact Nat.lt_succ_self _
  frame := by
    rw [prepared, frame_withFunction, if_pos ⟨rfl, frames_size_withResult h⟩, frame_withResult h,
      objects_size_withResult h]
    rfl
  result := by
    have hsize : since.objects.size = s.objects.size := congrArg Array.size h.objects.symm
    rw [prepared, object_withFunction, objects_size_withResult h, if_neg (Nat.succ_ne_self _).symm]
    exact (s.object_make .list (indexed []) since.objects.size).trans (if_pos hsize)
  step := by
    rw [prepared, object_withFunction, objects_size_withResult h, if_pos rfl]
    rfl

/-- The body of `mapear` is the first call of `paso`. -/
theorem evalBody_map {host : Host} {limit : Nat} {u : World} (hu : u.store = s)
    {outcome : Except Exit Value} {w : World}
    (hcall : call host limit (.ref (since.objects.size + 1)) [.num (.int (0 : Nat))] none
      { u with store := prepared since root s } = (outcome, w)) :
    evalBody (call host limit) Prelude.mapBody ⟨since.frames.size, [root]⟩ .null u =
      (.error (exitOf outcome), w) := by
  subst hu
  have hsize : u.store.objects.size = since.objects.size := congrArg Array.size h.objects
  have hown : (u.store.makeList []).1.frame since.frames.size =
      ⟨⟨bound ["lista", "f"] [.ref list, .ref f]⟩, []⟩ := h.own
  have hnew : "resultado" ∉ ((u.store.makeList []).1.frame since.frames.size).vars.keys := by
    rw [hown]
    show "resultado" ∉ ["lista", "f"]
    decide
  have hresult : eval (call host limit) (.declare false "resultado" (.list []))
      ⟨since.frames.size, [root]⟩ u =
        (.ok (.ref since.objects.size), { u with store := withResult since u.store }) := by
    have hlist : eval (call host limit) (.list []) ⟨since.frames.size, [root]⟩ u =
        (.ok (.ref since.objects.size), { u with store := (u.store.makeList []).1 }) := by
      rw [← hsize]
      rfl
    exact eval_declare hlist hnew
  have hnew' : "paso" ∉ ((withResult since u.store).frame since.frames.size).vars.keys := by
    rw [frame_withResult h]
    show "paso" ∉ ["lista", "f", "resultado"]
    decide
  have hpaso : eval (call host limit) (.function "paso" ["i"] Prelude.stepBody)
      ⟨since.frames.size, [root]⟩ { u with store := withResult since u.store } =
        (.ok (.ref (withResult since u.store).objects.size),
          { u with store := prepared since root u.store }) :=
    eval_function (by decide) (by exact hnew') _ _
  rw [objects_size_withResult h] at hpaso
  have hfound : (prepared since root u.store).lookup ⟨since.frames.size, [root]⟩ "paso" =
      .ok (.ref (since.objects.size + 1)) :=
    lookup_inner (b := ⟨.ref (since.objects.size + 1), false⟩)
      (by rw [(stage_prepared h).frame]; rfl) [root]
  refine (evalBody_cons_of_ok hresult _ _).trans ((evalBody_cons_of_ok hpaso _ _).trans ?_)
  refine evalBody_cons_of_error (eval_giveBack ?_) _ _
  exact (eval_call (w := { u with store := prepared since root u.store }) hfound rfl).trans hcall

end

section

variable (host : Host) {limit : Nat} {w : World} {map : Address} (list f : Address)
  (returns : Value → Value → Prop)
  (hmap : (w.store.object map).shape = .function (Prelude.mapClosure root)) (hdepth : w.depth = 0)
include hmap hdepth

/-- A call of `mapear` is a call of `paso` with nothing in the new list yet. -/
theorem call_map (hlt : 0 < limit) (hroom : HasRoom limit w) : ∃ v : World, v.depth = 1 ∧
    Filled host limit w.store root list f returns [] v.store ∧ ∀ outcome w',
      call host limit (.ref (w.store.objects.size + 1)) [.num (.int (0 : Nat))] none v =
        (outcome, w') →
      call host limit (.ref map) [.ref list, .ref f] none w =
        (outcomeOfBody (.error (exitOf outcome)), w'.leave) := by
  obtain ⟨u, hu, hentered, hcall⟩ := call_script host [.ref list, .ref f] none hmap rfl
    (hdepth ▸ hlt) hroom (show ["lista", "f"].Nodup by decide)
  refine ⟨{ u with store := prepared w.store root u.store }, ?_, ⟨stage_prepared hentered, .nil⟩,
    fun outcome w' hnext => ?_⟩
  · show u.depth = 1
    rw [hu, hdepth]
  · have hbody := evalBody_map hentered rfl hnext
    exact hcall.trans (congrArg (fun end_ => (outcomeOfBody end_.1, end_.2.leave)) hbody)

end

end Mapping

/-! ## The function `identidad` -/

namespace Prelude

open Store Eval

def identityClosure (root : FrameId) : Closure :=
  ⟨["x"], [.giveBack (.ident "x")], some ⟨root, []⟩, none⟩

theorem call_identity (host : Host) {limit : Nat} {v : World} {a : Address} {root : FrameId}
    (hshape : (v.store.object a).shape = .function (identityClosure root))
    (hlt : v.depth < limit) (hroom : HasRoom limit v) (x : Value) : ∃ v',
    call host limit (.ref a) [x] none v = (.ok x, v') ∧ v.store.Extends v'.store := by
  obtain ⟨u, -, hentered, hcall⟩ :=
    call_script host [x] none hshape rfl hlt hroom (List.nodup_singleton _)
  have hfound : u.store.lookup ⟨v.store.frames.size, [root]⟩ "x" = .ok x :=
    lookup_inner (b := ⟨x, false⟩) (by rw [hentered.own]; rfl) [root]
  have hbody : evalBody (call host limit) [.giveBack (.ident "x")] ⟨v.store.frames.size, [root]⟩
      .null u = (.error (.returned x), u) :=
    evalBody_cons_of_error (eval_giveBack (eval_ident hfound)) _ _
  exact ⟨u.leave, hcall.trans (congrArg (fun end_ => (outcomeOfBody end_.1, end_.2.leave)) hbody),
    hentered.extends⟩

theorem admitted_identity {host : Host} {limit : Nat} {since : Store} {a : Address} {root : FrameId}
    (hshape : (since.object a).shape = .function (identityClosure root)) (xs : List Value) :
    Mapping.Admitted host limit since a xs Eq := by
  intro v hv hadmits x _
  have hshape' : (v.store.object a).shape = .function (identityClosure root) := by
    rw [hv.object a (lt_of_function hshape)]
    exact hshape
  obtain ⟨hlt, hroom⟩ := hadmits _ hshape rfl
  obtain ⟨v', hcall, hv'⟩ := call_identity host hshape' hlt hroom x
  exact ⟨x, v', hcall, rfl, hv'⟩

end Prelude

/-! ## Sessions -/

namespace Session

open Eval Mapping

/-- A script lets the world grow. -/
theorem grows_eval {host : Host} {admits : Native → Prop} (hhost : host.ReadOnly admits)
    (limit : Nat) (session : Session) (code : String) {w : World} (hw : w.store.Admits admits) :
    w.Grows (eval host limit session code w).2 := by
  have h : (growth hhost w).Keeps .mk (growth hhost w).Known (eval host limit session code) :=
    keeps_eval trivial limit code
  obtain ⟨_, -, hgrows, -⟩ := h .mk w le_rfl ⟨.refl w, hw⟩
  exact hgrows.1

/-- Whatever has run since a session with the built-in prelude started, as long as `mapear` and
`longitud` still mean what they meant, and as long as the host has room for the limit or can be set
to give it: `mapear` gives a new list of what a function gives for the elements of a list if the
limit admits two nested calls more than there are elements, and nothing that was there changes, the
list itself included; a lower limit refuses a call. -/
theorem call_mapear {host : Host} {given settings : Settings} {files : Files} {w₀ w₁ w : World}
    {session : Session} {list f : Address} {returns : Value → Value → Prop}
    (hroot : Prelude.root given files = .builtin)
    (hstart : start host given files .folder w₀ = (.ok session, w₁))
    (hgrows : w₁.store.Grows w.store)
    (hnames : ∀ name ∈ ["longitud", "mapear"],
      w.store.lookup session.scope name = w₁.store.lookup session.scope name)
    (hdepth : w.depth = 0)
    (hroom : roomFor settings.depthLimit ≤ w.room ∨ roomFor settings.depthLimit ≤ mostRoom)
    (hlist : (w.store.object list).shape = .list)
    (horder : (w.store.object list).InOrder)
    (hf : Admitted host settings.depthLimit w.store f (w.store.object list).elements returns) :
    ∃ map, w.store.lookup session.scope "mapear" = .ok map ∧
      ((w.store.object list).elements.length + 2 ≤ settings.depthLimit → ∃ w',
        call host settings.depthLimit map [.ref list, .ref f] none w =
          (.ok (.ref w.store.objects.size), w') ∧
        w.store.Extends w'.store ∧ (w'.store.object w.store.objects.size).shape = .list ∧
        (w'.store.object w.store.objects.size).InOrder ∧
        List.Forall₂
          (fun x y => returns x y ∧ Gave host settings.depthLimit w.store f w'.store x y)
          (w.store.object list).elements (w'.store.object w.store.objects.size).elements) ∧
      (settings.depthLimit < (w.store.object list).elements.length + 2 → ∃ name w',
        call host settings.depthLimit map [.ref list, .ref f] none w =
          (.error (.failed (.tooDeep name)), w')) := by
  obtain ⟨houter, hbuiltins, hdefined⟩ := offers_start hroot hstart
  obtain ⟨⟨root, outer⟩⟩ := session
  cases houter
  have hmapear : w₁.store.Offers root "mapear" (Prelude.mapClosure root) :=
    hdefined ("mapear", ["lista", "f"], Prelude.mapBody) (by decide)
  have hlongitud : w₁.store.Offers root "longitud" (Store.nativeClosure .length) :=
    hbuiltins ("longitud", .length) (by decide)
  obtain ⟨map, hlookup, hmap⟩ := (hmapear.grows hgrows (hnames _ (by decide))).lookup
  have hsite : w.store.Site root list :=
    ⟨hlongitud.grows hgrows (hnames _ (by decide)), hlist, horder⟩
  obtain ⟨v, hv, hfilled, hcalls⟩ :=
    call_map host list f returns hmap hdepth settings.depthLimit_pos fun _ => hroom
  have hdigits := settings.depthLimit_lt
  refine ⟨.ref map, hlookup, fun hadmits => ?_, fun hexceeds => ?_⟩
  · obtain ⟨ys, v', hstep, hlength, hdone⟩ := call_step_fills hsite hf hadmits hdigits
      (w.store.object list).elements.length (Nat.zero_add _) hv hfilled
    have hgave := hdone.gave
    rw [hlength, List.take_length] at hgave
    have hresult : v'.leave.store.object w.store.objects.size = .ofElements ys :=
      hdone.stage.result
    refine ⟨v'.leave, hcalls _ _ hstep, hdone.stage.extends_since, ?_, ?_, ?_⟩
    · rw [hresult]
      rfl
    · rw [hresult]
      exact Object.inOrder_ofElements ys
    · rw [hresult, Object.elements_ofElements]
      exact hgave
  · have hrest : ([] : List Value).length + 1 + (settings.depthLimit - 1) = settings.depthLimit :=
      Nat.add_sub_cancel' settings.depthLimit_pos
    obtain ⟨name, v', hstep⟩ := call_step_refused hsite hf hexceeds hdigits _ hrest hv hfilled
    exact ⟨name, v'.leave, hcalls _ _ hstep⟩

/-- The world in which a session with the built-in prelude has started. -/
def preludeWorld : World :=
  (endProgram (evalBody (call silent 500) (Prelude.definitions.map Prelude.Definition.node) ⟨0, []⟩
    .null) (Prelude.read (globalScope (.initial 1000)).2)).2

theorem start_preludeWorld : start silent ⟨none, none, none⟩ .empty .folder (.initial 1000) =
    (.ok ⟨⟨0, []⟩⟩, preludeWorld) := by
  have hscope : (globalScope (.initial 1000)).1 = .ok ⟨0, []⟩ := by decide +kernel
  have hroot : Prelude.root ⟨none, none, none⟩ .empty = .builtin := by decide +kernel
  have hlimit : (⟨none, none, none⟩ : Settings).depthLimit = 500 := by decide +kernel
  have hends : (endProgram (evalBody (call silent 500)
      (Prelude.definitions.map Prelude.Definition.node) ⟨0, []⟩ .null)
        (Prelude.read (globalScope (.initial 1000)).2)).1 = .ok (.ref 9) := by decide +kernel
  rw [start_builtin hroot (Prod.fst_eq_iff.1 hscope), hlimit,
    Run.bind_of_ok (Prod.fst_eq_iff.1 hends), preludeWorld]
  rfl

def mappingWorld : World := (eval silent 10 ⟨⟨0, []⟩⟩ "def l = [4, verdadero]" preludeWorld).2

theorem grows_mappingWorld : preludeWorld.Grows mappingWorld :=
  grows_eval readOnly_silent 10 ⟨⟨0, []⟩⟩ "def l = [4, verdadero]" fun _ _ _ _ _ => trivial

/-- Two elements need four nested calls. -/
theorem call_mapear_identidad : ∃ map, mappingWorld.store.lookup ⟨0, []⟩ "mapear" = .ok map ∧
    (∃ w', call silent 4 map [.ref 10, .ref 7] none mappingWorld = (.ok (.ref 11), w') ∧
      (w'.store.object 11).elements = [.num (.int 4), .bool true]) ∧
    ∃ name w', call silent 3 map [.ref 10, .ref 7] none mappingWorld =
      (.error (.failed (.tooDeep name)), w') := by
  have hroot : Prelude.root ⟨none, none, none⟩ .empty = .builtin := by decide +kernel
  have hnames : ∀ name ∈ ["longitud", "mapear"], mappingWorld.store.lookup ⟨0, []⟩ name =
      preludeWorld.store.lookup ⟨0, []⟩ name := by decide +kernel
  have hdepth : mappingWorld.depth = 0 := by decide +kernel
  have hlist : (mappingWorld.store.object 10).shape = .list := by decide +kernel
  have horder : (mappingWorld.store.object 10).InOrder := by decide +kernel
  have helements : (mappingWorld.store.object 10).elements = [.num (.int 4), .bool true] := by
    decide +kernel
  have hsize : mappingWorld.store.objects.size = 11 := by decide +kernel
  have hidentity : (mappingWorld.store.object 7).shape = .function (Prelude.identityClosure 0) := by
    decide +kernel
  have hfour : (⟨none, none, some "4"⟩ : Settings).depthLimit = 4 := by decide +kernel
  have hthree : (⟨none, none, some "3"⟩ : Settings).depthLimit = 3 := by decide +kernel
  have hstart := start_preludeWorld
  have hgrows := grows_mappingWorld
  generalize mappingWorld = w at *
  generalize preludeWorld = w₁ at *
  have hadmitted (settings : Settings) : Admitted silent settings.depthLimit w.store 7
      (w.store.object 10).elements Eq := Prelude.admitted_identity hidentity _
  have hroomFour : roomFor (⟨none, none, some "4"⟩ : Settings).depthLimit ≤ mostRoom := by
    rw [hfour]
    decide
  have hroomThree : roomFor (⟨none, none, some "3"⟩ : Settings).depthLimit ≤ mostRoom := by
    rw [hthree]
    decide
  obtain ⟨map, hmap, hfills, -⟩ := call_mapear hroot hstart hgrows.store hnames hdepth
    (.inr hroomFour) hlist horder (hadmitted ⟨none, none, some "4"⟩)
  obtain ⟨map', hmap', -, hrefused⟩ := call_mapear hroot hstart hgrows.store hnames hdepth
    (.inr hroomThree) hlist horder (hadmitted ⟨none, none, some "3"⟩)
  rw [hfour, hsize, helements] at hfills
  rw [hthree, helements] at hrefused
  obtain ⟨w', hcall, -, -, -, hgave⟩ := hfills (by decide)
  cases Except.ok.inj (hmap.symm.trans hmap')
  refine ⟨map, hmap, ⟨w', hcall, ?_⟩, hrefused (by decide)⟩
  have hequal : List.Forall₂ Eq [.num (.int 4), .bool true] (w'.store.object 11).elements :=
    hgave.imp fun _ _ hxy => hxy.1
  rw [List.forall₂_eq_eq_eq] at hequal
  exact hequal.symm

/-- Under a limit for which no host can be set `mapear` maps nothing. -/
theorem call_mapear_beyond_mostRoom : ∃ map,
    mappingWorld.store.lookup ⟨0, []⟩ "mapear" = .ok map ∧
    (call silent 200000000 map [.ref 10, .ref 7] none mappingWorld).1 =
      .error (.failed .noRoom) := by
  have hmap : mappingWorld.store.lookup ⟨0, []⟩ "mapear" = .ok (.ref 9) := by decide +kernel
  have hshape : (mappingWorld.store.object 9).shape = .function (Prelude.mapClosure 0) := by
    decide +kernel
  have hdepth : mappingWorld.depth = 0 := by decide +kernel
  have hlow : ¬ (roomFor (200000000 : Nat) ≤ mappingWorld.room ∨
      roomFor (200000000 : Nat) ≤ mostRoom) := by decide +kernel
  have hroom : ¬ HasRoom 200000000 mappingWorld := fun h => hlow (h hdepth)
  exact ⟨.ref 9, hmap, call_script_of_not_hasRoom silent [.ref 10, .ref 7] none hshape rfl hroom⟩

end Session

end Guion
