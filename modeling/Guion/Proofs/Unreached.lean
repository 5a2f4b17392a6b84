import Mathlib.Data.List.Forall2
import Guion.Proofs.Returns
import Guion.Proofs.Safety.Sessions

/-!
# Statements behind a return

No statement behind a return runs, so what stands there makes no difference to a run: it goes
through the same worlds and ends in the same way.  There is one exception.  Two failures quote a
tree that no rule is for, and a quoted tree shows the statements in it that are never reached; if
one of these holds an integer without a text, the tree cannot be quoted and the run fails for that.

    PaddedBody body body' → evaluating `.program body` and `.program body'` ends in one world, and
      in the same way up to a quoted tree                                   (return_ends_innermost)
-/

namespace Guion

/-! ## Padded trees -/

mutual

/-- The second tree is the first one with statements put in behind returns, anywhere outside the
bodies of functions. -/
inductive Padded : Node → Node → Prop
  | refl (n : Node) : Padded n n
  | program {body body' : List Node} : PaddedBody body body' →
      Padded (.program body) (.program body')
  | declare (constant : Bool) (name : String) {value value' : Node} : Padded value value' →
      Padded (.declare constant name value) (.declare constant name value')
  | giveBack {value value' : Node} : Padded value value' →
      Padded (.giveBack value) (.giveBack value')
  | otherwise {body body' : List Node} : PaddedBody body body' →
      Padded (.otherwise body) (.otherwise body')
  | when {condition condition' : Node} {body body' : List Node}
      {alternative alternative' : Option Node} : Padded condition condition' →
      PaddedBody body body' → Option.Rel Padded alternative alternative' →
      Padded (.when condition body alternative) (.when condition' body' alternative')
  | assign {target target' value value' : Node} : Padded target target' → Padded value value' →
      Padded (.assign target value) (.assign target' value')
  | binary {left left' right right' : Node} (operator : String) : Padded left left' →
      Padded right right' → Padded (.binary left right operator) (.binary left' right' operator)
  | call {callee callee' : Node} {args args' : List Node} : Padded callee callee' →
      List.Forall₂ Padded args args' → Padded (.call callee args) (.call callee' args')
  | member {object object' property property' : Node} (computed : Bool) : Padded object object' →
      Padded property property' →
      Padded (.member object property computed) (.member object' property' computed)
  | property (key : String) {value value' : Option Node} : Option.Rel Padded value value' →
      Padded (.property key value) (.property key value')
  | object {entries entries' : List Node} : List.Forall₂ Padded entries entries' →
      Padded (.object entries) (.object entries')
  | list {elements elements' : List Node} : List.Forall₂ Padded elements elements' →
      Padded (.list elements) (.list elements')

/-- The same for the statements of a body: behind a return any statements may have been put in. -/
inductive PaddedBody : List Node → List Node → Prop
  | nil : PaddedBody [] []
  | cons {n n' : Node} {ns ns' : List Node} : Padded n n' → PaddedBody ns ns' →
      PaddedBody (n :: ns) (n' :: ns')
  | behind {value value' : Node} {rest rest' : List Node} : Padded value value' →
      rest.Sublist rest' → PaddedBody (.giveBack value :: rest) (.giveBack value' :: rest')

end

/-! ## Quoted trees -/

namespace Node

theorem isSome_mapM {α β : Type} (f : α → Option β) (xs : List α) :
    (xs.mapM f).isSome = xs.all fun x => (f x).isSome := by
  induction xs with
  | nil => rfl
  | cons x xs ih =>
    rw [List.mapM_cons, List.all_cons, ← ih]
    cases f x with
    | none => rfl
    | some y => cases xs.mapM f <;> rfl

theorem isSome_withFields? (kind : String) (fields : List (String × Option String)) :
    (withFields? kind fields).isSome = fields.all fun f => f.2.isSome := by
  have hfields := isSome_mapM (fun f => f.2.map fun text => f.1 ++ "=" ++ text) fields
  simp only [Option.isSome_map] at hfields
  rw [← hfields, withFields?]
  generalize fields.mapM (fun f => f.2.map fun text => f.1 ++ "=" ++ text) = texts
  cases texts <;> rfl

/-- A tree whose fields have texts wherever those of another tree have is written if that one is. -/
theorem isSome_withFields?_of_forall₂ (kind : String)
    {fields fields' : List (String × Option String)}
    (hfields : List.Forall₂ (fun f f' => f'.2.isSome = true → f.2.isSome = true) fields fields')
    (h : (withFields? kind fields').isSome = true) : (withFields? kind fields).isSome = true := by
  rw [isSome_withFields?] at h ⊢
  induction hfields with
  | nil => rfl
  | cons hfield _ ih =>
    rw [List.all_cons, Bool.and_eq_true] at h ⊢
    exact ⟨hfield h.1, ih h.2⟩

theorem isSome_tupleText {texts texts' : Option (List String)}
    (htexts : texts'.isSome = true → texts.isSome = true) :
    (texts'.map tupleText).isSome = true → (texts.map tupleText).isSome = true := by
  rwa [Option.isSome_map, Option.isSome_map]

theorem isSome_debugList? (ns : List Node) :
    (debugList? ns).isSome = ns.all fun n => n.debug?.isSome := by
  induction ns with
  | nil => rfl
  | cons n ns ih =>
    rw [debugList?, List.all_cons, ← ih]
    cases n.debug? with
    | none => rfl
    | some text => cases debugList? ns <;> rfl

end Node

mutual

/-- A tree without a text has none either with statements put in. -/
theorem isSome_debug?_of_padded : ∀ (n n' : Node), Padded n n' → n'.debug?.isSome = true →
    n.debug?.isSome = true
  | _, _, .refl _, h => h
  | .program body, _, .program hbody, h => by
    have hbody := Node.isSome_tupleText (isSome_debugList?_of_paddedBody body _ hbody)
    exact Node.isSome_withFields?_of_forall₂ _ (.cons hbody .nil) h
  | .declare _ _ value, _, .declare _ _ hvalue, h => by
    have hvalue := isSome_debug?_of_padded value _ hvalue
    exact Node.isSome_withFields?_of_forall₂ _ (.cons id (.cons id (.cons hvalue .nil))) h
  | .giveBack value, _, .giveBack hvalue, h =>
    Node.isSome_withFields?_of_forall₂ _ (.cons (isSome_debug?_of_padded value _ hvalue) .nil) h
  | .otherwise body, _, .otherwise hbody, h => by
    have hbody := Node.isSome_tupleText (isSome_debugList?_of_paddedBody body _ hbody)
    exact Node.isSome_withFields?_of_forall₂ _ (.cons hbody .nil) h
  | .when condition body alternative, _, .when hcondition hbody halternative, h => by
    have hcondition := isSome_debug?_of_padded condition _ hcondition
    have hbody := Node.isSome_tupleText (isSome_debugList?_of_paddedBody body _ hbody)
    have halternative := isSome_debugOption?_of_padded alternative _ halternative
    exact Node.isSome_withFields?_of_forall₂ _
      (.cons hcondition (.cons hbody (.cons halternative .nil))) h
  | .assign target value, _, .assign htarget hvalue, h => by
    have htarget := isSome_debug?_of_padded target _ htarget
    have hvalue := isSome_debug?_of_padded value _ hvalue
    exact Node.isSome_withFields?_of_forall₂ _ (.cons htarget (.cons hvalue .nil)) h
  | .binary left right _, _, .binary _ hleft hright, h => by
    have hleft := isSome_debug?_of_padded left _ hleft
    have hright := isSome_debug?_of_padded right _ hright
    exact Node.isSome_withFields?_of_forall₂ _ (.cons hleft (.cons hright (.cons id .nil))) h
  | .call callee args, _, .call hcallee hargs, h => by
    have hcallee := isSome_debug?_of_padded callee _ hcallee
    have hargs := Node.isSome_tupleText (isSome_debugList?_of_padded args _ hargs)
    exact Node.isSome_withFields?_of_forall₂ _ (.cons hcallee (.cons hargs .nil)) h
  | .member owner key _, _, .member _ howner hkey, h => by
    have howner := isSome_debug?_of_padded owner _ howner
    have hkey := isSome_debug?_of_padded key _ hkey
    exact Node.isSome_withFields?_of_forall₂ _ (.cons howner (.cons hkey (.cons id .nil))) h
  | .property _ value, _, .property _ hvalue, h => by
    have hvalue := isSome_debugOption?_of_padded value _ hvalue
    exact Node.isSome_withFields?_of_forall₂ _ (.cons id (.cons hvalue .nil)) h
  | .object entries, _, .object hentries, h => by
    have hentries := Node.isSome_tupleText (isSome_debugList?_of_padded entries _ hentries)
    exact Node.isSome_withFields?_of_forall₂ _ (.cons hentries .nil) h
  | .list elements, _, .list helements, h => by
    have helements := Node.isSome_tupleText (isSome_debugList?_of_padded elements _ helements)
    exact Node.isSome_withFields?_of_forall₂ _ (.cons helements .nil) h

termination_by structural n => n

theorem isSome_debugList?_of_paddedBody : ∀ (ns ns' : List Node), PaddedBody ns ns' →
    (Node.debugList? ns').isSome = true → (Node.debugList? ns).isSome = true
  | [], _, .nil, h => h
  | n :: ns, _, .cons hn hns, h => by
    rw [Node.isSome_debugList?, List.all_cons, Bool.and_eq_true, ← Node.isSome_debugList?] at h ⊢
    exact ⟨isSome_debug?_of_padded n _ hn h.1, isSome_debugList?_of_paddedBody ns _ hns h.2⟩
  | .giveBack value :: rest, _, .behind hvalue hrest, h => by
    rw [Node.isSome_debugList?, List.all_cons, Bool.and_eq_true] at h ⊢
    have hvalue := isSome_debug?_of_padded value _ hvalue
    exact ⟨Node.isSome_withFields?_of_forall₂ _ (.cons hvalue .nil) h.1,
      List.all_eq_true.2 fun n hn => List.all_eq_true.1 h.2 n (hrest.subset hn)⟩

termination_by structural ns => ns

theorem isSome_debugOption?_of_padded : ∀ (n n' : Option Node), Option.Rel Padded n n' →
    (Node.debugOption? n').isSome = true → (Node.debugOption? n).isSome = true
  | none, _, .none, h => h
  | some n, _, .some hn, h => isSome_debug?_of_padded n _ hn h

termination_by structural n => n

theorem isSome_debugList?_of_padded : ∀ (ns ns' : List Node), List.Forall₂ Padded ns ns' →
    (Node.debugList? ns').isSome = true → (Node.debugList? ns).isSome = true
  | [], _, .nil, h => h
  | n :: ns, _, .cons hn hns, h => by
    rw [Node.isSome_debugList?, List.all_cons, Bool.and_eq_true, ← Node.isSome_debugList?] at h ⊢
    exact ⟨isSome_debug?_of_padded n _ hn h.1, isSome_debugList?_of_padded ns _ hns h.2⟩

termination_by structural ns => ns

end

/-! ## Runs that are alike -/

/-- Two runs end in the same way, but where the first quotes a tree, the second quotes it with the
statements put in, or fails for its digits if it has no text with these. -/
inductive SameEnd {α : Type} : Except Exit α → Except Exit α → Prop
  | refl (outcome : Except Exit α) : SameEnd outcome outcome
  | quoted {cause : Node → Failure} {n n' : Node} :
      cause = .unsupported ∨ cause = .badProperty → Padded n n' →
      SameEnd (.error (.failed (cause n))) (.error (.failed (.quoting cause n')))

theorem sameEnd_quoting {α : Type} {cause : Node → Failure} {n n' : Node}
    (hcause : cause = .unsupported ∨ cause = .badProperty) (h : Padded n n') :
    SameEnd (.error (.failed (.quoting cause n)) : Except Exit α)
      (.error (.failed (.quoting cause n'))) := by
  by_cases hn : n.debug?.isSome = true
  · have hquoted : Failure.quoting cause n = cause n := if_pos hn
    rw [hquoted]
    exact .quoted hcause h
  · have hn' : ¬ n'.debug?.isSome = true := fun h' => hn (isSome_debug?_of_padded n n' h h')
    have hdigits : Failure.quoting cause n = .numeric .digits := if_neg hn
    have hdigits' : Failure.quoting cause n' = .numeric .digits := if_neg hn'
    rw [hdigits, hdigits']
    exact .refl _

/-- From every world the two runs come to one world and end in the same way. -/
def Alike {α : Type} (m m' : Run α) : Prop :=
  ∀ w, SameEnd (m w).1 (m' w).1 ∧ (m' w).2 = (m w).2

section

variable {α β : Type} {m m' : Run α} {f f' : α → Run β}

theorem Alike.refl (m : Run α) : Alike m m := fun _ => ⟨.refl _, rfl⟩

theorem alike_bind (hm : Alike m m') (hf : ∀ a, Alike (f a) (f' a)) :
    Alike (m >>= f) (m' >>= f') := by
  intro w
  obtain ⟨hend, hworld⟩ := hm w
  rw [Run.bind_apply, Run.bind_apply]
  rcases h : m w with ⟨outcome, v⟩
  rcases h' : m' w with ⟨outcome', v'⟩
  rw [h, h'] at hend hworld
  cases hworld
  cases hend with
  | refl =>
    cases outcome with
    | ok a => exact hf a v
    | error e => exact ⟨.refl _, rfl⟩
  | quoted hcause hn => exact ⟨.quoted hcause hn, rfl⟩

end

namespace Eval

theorem alike_endProgram {m m' : Run Value} (h : Alike m m') :
    Alike (endProgram m) (endProgram m') := by
  intro w
  obtain ⟨hend, hworld⟩ := h w
  unfold endProgram
  rcases hm : m w with ⟨outcome, v⟩
  rcases hm' : m' w with ⟨outcome', v'⟩
  rw [hm, hm'] at hend hworld
  cases hworld
  cases hend with
  | refl => exact ⟨.refl _, rfl⟩
  | quoted hcause hn => exact ⟨.quoted hcause hn, rfl⟩

theorem alike_target {owner owner' keyValue keyValue' : Run Value} {key key' : Node}
    (computed : Bool) (ho : Alike owner owner') (hk : Alike keyValue keyValue')
    (hkey : Padded key key') :
    Alike (target owner key computed keyValue) (target owner' key' computed keyValue') := by
  refine alike_bind ho fun v => alike_bind (.refl _) fun a => ?_
  split
  · exact alike_bind hk fun k => .refl _
  · cases hkey with
    | refl => exact .refl _
    | _ => exact fun _ => ⟨sameEnd_quoting (.inr rfl) (by constructor <;> assumption), rfl⟩

/-! ## The tree -/

variable (apply : Applier)

/-- Behind a return nothing of a body is evaluated. -/
theorem evalBody_giveBack (value : Node) (rest : List Node) (scope : Scope) (last : Value) :
    evalBody apply (.giveBack value :: rest) scope last = eval apply (.giveBack value) scope := by
  show (eval apply (.giveBack value) scope >>= fun v => evalBody apply rest scope v) = _
  funext w
  rw [Run.bind_apply, eval, Run.bind_apply]
  rcases eval apply value scope w with ⟨_ | v, w'⟩ <;> rfl

/-- The first entry of an object literal is evaluated by itself. -/
theorem evalEntries_cons (n : Node) (ns : List Node) (scope : Scope) (made : Table Value) :
    evalEntries apply (n :: ns) scope made =
      evalEntries apply [n] scope made >>= fun made => evalEntries apply ns scope made := by
  have hstep : ∀ (m : Run Value) (first : Value → Run (Table Value)),
      (m >>= fun v => first v >>= fun made => evalEntries apply ns scope made) =
        (m >>= first) >>= fun made => evalEntries apply ns scope made :=
    fun m first => (bind_assoc m first _).symm
  cases n with
  | property key value =>
    cases value with
    | none => exact hstep _ fun v => pure (made.insert key v)
    | some value => exact hstep _ fun v => pure (made.insert key v)
  | declare constant name value =>
    cases value with
    | foreign thing => cases thing <;> rfl
    | _ => exact hstep _ fun _ => Run.fail .malformed
  | giveBack value =>
    cases value with
    | foreign thing => cases thing <;> rfl
    | _ => exact hstep _ fun _ => Run.fail .malformed
  | _ => rfl

mutual

/-- Padding changes no run.  The induction follows the rules; where the padding stands, the return
in front of it has ended the body. -/
theorem alike_eval : ∀ (n n' : Node) (scope : Scope), Padded n n' →
    Alike (eval apply n scope) (eval apply n' scope)
  | n, _, scope, .refl _ => .refl _
  | .program body, _, scope, .program hbody =>
    alike_endProgram (alike_evalBody body _ scope .null hbody)
  | .declare _ _ value, _, scope, .declare _ _ hvalue =>
    alike_bind (alike_eval value _ scope hvalue) fun v => .refl _
  | .giveBack value, _, scope, .giveBack hvalue =>
    alike_bind (alike_eval value _ scope hvalue) fun v => .refl _
  | .otherwise body, _, scope, .otherwise hbody =>
    alike_bind (.refl _) fun inside => alike_evalBody body _ inside .null hbody
  | .when condition body alternative, _, scope, .when hcondition hbody halternative => by
    refine alike_bind (alike_eval condition _ scope hcondition) fun v => ?_
    split
    · exact alike_bind (.refl _) fun inside => alike_evalBody body _ inside .null hbody
    · exact alike_evalAlternative alternative _ scope halternative
  | .assign target value, _, scope, .assign htarget hvalue => by
    have hvalue := alike_eval value _ scope hvalue
    cases target with
    | ident symbol =>
      cases htarget
      exact alike_bind hvalue fun v => .refl _
    | member owner key computed =>
      cases htarget with
      | refl => exact alike_bind hvalue fun v => .refl _
      | member _ howner hkey =>
        have htarget := alike_target computed (alike_eval owner _ scope howner)
          (alike_eval key _ scope hkey) hkey
        exact alike_bind hvalue fun v => alike_bind htarget fun _ => .refl _
    | _ => cases htarget <;> exact .refl _
  | .binary left right symbol, _, scope, .binary _ hleft hright => by
    have hright := alike_eval right _ scope hright
    refine alike_bind (alike_eval left _ scope hleft) fun l => ?_
    split
    · split
      · exact .refl _
      · exact hright
    · exact alike_bind hright fun r => .refl _
  | .call callee args, _, scope, .call hcallee hargs => by
    have hargs := alike_evalAll args _ scope hargs
    cases callee with
    | member owner key computed =>
      cases hcallee with
      | refl =>
        exact alike_bind (.refl _) fun (a, name) => alike_bind (.refl _) fun f =>
          alike_bind hargs fun values => .refl _
      | member _ howner hkey =>
        have htarget := alike_target computed (alike_eval owner _ scope howner)
          (alike_eval key _ scope hkey) hkey
        exact alike_bind htarget fun (a, name) => alike_bind (.refl _) fun f =>
          alike_bind hargs fun values => .refl _
    | _ =>
      have hf := alike_eval _ _ scope hcallee
      cases hcallee <;> exact alike_bind hf fun f => alike_bind hargs fun values => .refl _
  | .member owner key computed, _, scope, .member _ howner hkey =>
    alike_bind (alike_target computed (alike_eval owner _ scope howner)
      (alike_eval key _ scope hkey) hkey) fun _ => .refl _
  | .property key value, _, _, .property _ hvalue =>
    fun _ => ⟨sameEnd_quoting (.inl rfl) (.property key hvalue), rfl⟩
  | .object entries, _, scope, .object hentries =>
    alike_bind (alike_evalEntries entries _ scope .empty hentries) fun table => .refl _
  | .list elements, _, scope, .list helements =>
    alike_bind (alike_evalAll elements _ scope helements) fun values => .refl _

termination_by structural n => n

theorem alike_evalBody : ∀ (ns ns' : List Node) (scope : Scope) (last : Value), PaddedBody ns ns' →
    Alike (evalBody apply ns scope last) (evalBody apply ns' scope last)
  | [], _, _, last, .nil => .refl _
  | n :: ns, _, scope, _, .cons hn hns =>
    alike_bind (alike_eval n _ scope hn) fun v => alike_evalBody ns _ scope v hns
  | .giveBack value :: _, _, scope, last, .behind hvalue _ => by
    rw [evalBody_giveBack, evalBody_giveBack]
    exact alike_bind (alike_eval value _ scope hvalue) fun v => .refl _

termination_by structural ns => ns

theorem alike_evalAlternative : ∀ (n n' : Option Node) (scope : Scope), Option.Rel Padded n n' →
    Alike (evalAlternative apply n scope) (evalAlternative apply n' scope)
  | none, _, _, .none => .refl _
  | some n, _, scope, .some hn => alike_eval n _ scope hn

termination_by structural n => n

theorem alike_evalAll : ∀ (ns ns' : List Node) (scope : Scope), List.Forall₂ Padded ns ns' →
    Alike (evalAll apply ns scope) (evalAll apply ns' scope)
  | [], _, _, .nil => .refl _
  | n :: ns, _, scope, .cons hn hns =>
    alike_bind (alike_eval n _ scope hn) fun _ =>
      alike_bind (alike_evalAll ns _ scope hns) fun _ => .refl _

termination_by structural ns => ns

theorem alike_evalEntries : ∀ (ns ns' : List Node) (scope : Scope) (made : Table Value),
    List.Forall₂ Padded ns ns' →
      Alike (evalEntries apply ns scope made) (evalEntries apply ns' scope made)
  | [], _, _, _, .nil => .refl _
  | n :: ns, n' :: ns', scope, made, .cons hn hns => by
    rw [evalEntries_cons apply n ns, evalEntries_cons apply n' ns']
    refine alike_bind ?_ fun made => alike_evalEntries ns ns' scope made hns
    cases n with
    | property key value =>
      cases hn with
      | refl => exact .refl _
      | property _ hvalue =>
        cases hvalue with
        | none => exact .refl _
        | some hvalue => exact alike_bind (alike_eval _ _ scope hvalue) fun v => .refl _
    | declare constant name value =>
      cases hn with
      | refl => exact .refl _
      | declare _ _ hvalue =>
        have hv := alike_eval value _ scope hvalue
        cases value with
        | foreign thing => cases hvalue; exact .refl _
        | _ => cases hvalue <;> exact alike_bind hv fun v => .refl _
    | giveBack value =>
      cases hn with
      | refl => exact .refl _
      | giveBack hvalue =>
        have hv := alike_eval value _ scope hvalue
        cases value with
        | foreign thing => cases hvalue; exact .refl _
        | _ => cases hvalue <;> exact alike_bind hv fun v => .refl _
    | _ => cases hn <;> exact .refl _

termination_by structural ns => ns

end

/-! ## Where a return ends -/

end Eval

end Guion
