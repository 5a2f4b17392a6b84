import Guion.Proofs.RoundTrip
import Guion.Proofs.Simulation.Trees
import Guion.Proofs.Safety.Sessions
import Guion.Proofs.History

/-!
# Scripts in pieces

Two scripts with a semicolon between them are one script: its statements are those of the first and
then those of the second, and to run it is to run the one after the other, as long as the first runs
to its end.  No phrase can go on behind a semicolon, so it does not matter to the reader whether a
script ends there; and all that the first script hands on to the second is in the world.

    (parse (s₁ ++ ";" ++ s₂) w).1 = .ok (b₁ ++ b₂)                               (parse_append)
    evalBody apply (xs ++ ys) scope last = evalBody apply xs scope last >>= evalBody apply ys scope
                                                                              (evalBody_append)
-/

namespace Guion

/-! ## Reading -/

namespace Node

/-- Statements behind statements, where the later ones start with no token that could go on with an
expression. -/
theorem Derives.statements_append {body rest : List Node} {ts us : List Token}
    (h : Derives (.statements body) ts) (hrest : Derives (.statements rest) us)
    (hj : ∀ t ∈ us.head?, ¬ Joins t) : Derives (.statements (body ++ rest)) (ts ++ us) := by
  match h with
  | .noStatement hgap => exact hrest.after_semicolons hgap
  | @Derives.moreStatements gap w v _ _ _ hgap hfirst hmore hends =>
    have ih := hmore.statements_append hrest hj
    rw [List.append_assoc, List.append_assoc]
    refine .moreStatements hgap hfirst ih fun he t ht => ?_
    cases v with
    | nil => exact hj t ht
    | cons u v => exact hends he t ht

end Node

namespace Session

open Node

theorem parse_append {s₁ s₂ : String} {b₁ b₂ : List Node} {w : World}
    (h₁ : (parse s₁ w).1 = .ok b₁) (h₂ : (parse s₂ w).1 = .ok b₂) :
    (parse (s₁ ++ ";" ++ s₂) w).1 = .ok (b₁ ++ b₂) := by
  obtain ⟨ts₁, hw₁, hd₁⟩ := (parse_eq_ok_iff s₁ w b₁).1 h₁
  obtain ⟨ts₂, hw₂, hd₂⟩ := (parse_eq_ok_iff s₂ w b₂).1 h₂
  have hsemicolon : Derives (.statements b₂) ([mark ';'] ++ ts₂) :=
    hd₂.after_semicolons semicolons_mark
  have hj : ∀ t ∈ ([mark ';'] ++ ts₂).head?, ¬ Joins t := by
    rintro _ ⟨⟩
    unfold Joins
    decide
  refine (parse_eq_ok_iff _ w _).2 ⟨ts₁ ++ [mark ';'] ++ ts₂, ?_, ?_⟩
  · exact hw₁.between separates_semicolon hw₂
  · rw [List.append_assoc]
    exact hd₁.statements_append hsemicolon hj

end Session

/-! ## The trace does not matter -/

/-- Worlds that differ in their traces at most. -/
structure World.Alike (w w' : World) : Prop where
  store : w'.store = w.store
  output : w'.output = w.output
  depth : w'.depth = w.depth
  room : w'.room = w.room

namespace World.Alike

variable {w w' w'' : World}

theorem refl (w : World) : w.Alike w := ⟨rfl, rfl, rfl, rfl⟩

theorem symm (h : w.Alike w') : w'.Alike w :=
  ⟨h.store.symm, h.output.symm, h.depth.symm, h.room.symm⟩

theorem trans (h : w.Alike w') (h' : w'.Alike w'') : w.Alike w'' :=
  ⟨h'.store.trans h.store, h'.output.trans h.output, h'.depth.trans h.depth,
    h'.room.trans h.room⟩

/-- Whether there is room does not depend on the trace. -/
theorem reserve (h : w.Alike w') (limit : Nat) :
    (Eval.reserve limit w').1 = (Eval.reserve limit w).1 ∧
      (Eval.reserve limit w).2.Alike (Eval.reserve limit w').2 := by
  obtain ⟨hstore, houtput, hdepth, hroom⟩ := h
  rw [Eval.reserve_apply, Eval.reserve_apply, hdepth]
  unfold Run.makeRoom
  rw [hroom]
  split
  · split
    · exact ⟨rfl, hstore, houtput, hdepth, hroom⟩
    · dsimp only
      split
      · exact ⟨rfl, hstore, houtput, hdepth, rfl⟩
      · exact ⟨rfl, hstore, houtput, hdepth, rfl⟩
  · exact ⟨rfl, hstore, houtput, hdepth, hroom⟩

end World.Alike

namespace Eval

/-- Runs in worlds that differ in their traces are in step. -/
def traceless (host : Host) : Simulation host Fixed where
  Holds _ w w' := w.Alike w'
  Objects _ := Eq
  Frames _ := Eq
  Names _ := True
  Natives _ := True
  objects_mono _ ha := ha
  frames_mono _ hf := hf
  shared _ _ _ := rfl
  stores h := Store.matches_of_eq (congrArg Store.objects h.store) fun f name _ => by rw [h.store]
  depths h := h.depth
  code _ _ _ := ⟨fun _ _ => trivial, fun _ _ => trivial⟩
  print text h := ⟨h.store, congrArg (· ++ text) h.output, h.depth, h.room⟩
  note _ h := ⟨h.store, h.output, h.depth, h.room⟩
  atDepth _ h := ⟨h.store, h.output, rfl, h.room⟩
  reserve limit h := h.reserve limit
  openFrame outer outer' h := by
    refine ⟨.mk, le_rfl, ⟨?_, h.output, h.depth, h.room⟩, by rw [h.store]⟩
    rw [h.store]
    rfl
  bindName h hf _ hb := by
    cases hf
    cases hb.eq
    exact ⟨by rw [h.store], h.output, h.depth, h.room⟩
  make h hs _ he := by
    cases hs.eq
    cases he.eq
    exact ⟨.mk, le_rfl, ⟨by rw [h.store], h.output, h.depth, h.room⟩, by rw [h.store]⟩
  setProperty key h ha hv := by
    cases ha
    cases hv.eq
    exact ⟨by rw [h.store], h.output, h.depth, h.room⟩
  foreign h _ hself hargs := by
    cases hself.eq
    cases eq_of_forall₂ (fun _ _ hv => Value.Matches.eq hv) hargs
    rw [h.store]
    exact ⟨.mk, le_rfl, ⟨rfl, h.output, h.depth, h.room⟩, rfl,
      Datum.fixed_any (fun _ => rfl) (fun _ => trivial) _⟩
  dataFunction _ _ _ := Datum.fixed_any (fun _ => rfl) (fun _ => trivial) _

/-- What statements do does not depend on the trace. -/
theorem evalBody_alike (host : Host) (limit : Nat) (body : List Node) (scope : Scope)
    (last : Value) {w w' : World} (h : w.Alike w') :
    let run := evalBody (call host limit) body scope last w
    let run' := evalBody (call host limit) body scope last w'
    run'.1 = run.1 ∧ run.2.Alike run'.2 := by
  have hruns : (traceless host).Simulates .mk (traceless host).Values
      (evalBody (call host limit) body scope last) (evalBody (call host limit) body scope last) :=
    Simulation.simulates_evalBody (Simulation.applies_applier limit limit) body .mk scope scope
      last last (fun _ _ => trivial) (List.forall₂_same.2 fun _ _ => rfl)
      (last.matches_self fun _ => rfl)
  obtain ⟨⟨⟩, -, hworlds, hends⟩ := hruns .mk w w' le_rfl h
  exact ⟨hends.eq rfl, hworlds⟩

theorem endProgram_alike (host : Host) (limit : Nat) (body : List Node) (scope : Scope)
    (last : Value) {w w' : World} (h : w.Alike w') :
    let run := endProgram (evalBody (call host limit) body scope last) w
    let run' := endProgram (evalBody (call host limit) body scope last) w'
    run'.1 = run.1 ∧ run.2.Alike run'.2 := by
  obtain ⟨houtcome, hworlds⟩ := evalBody_alike host limit body scope last h
  unfold endProgram
  generalize evalBody (call host limit) body scope last w = r at houtcome hworlds
  generalize evalBody (call host limit) body scope last w' = r' at houtcome hworlds
  obtain ⟨outcome, u⟩ := r
  obtain ⟨outcome', u'⟩ := r'
  cases houtcome
  rcases outcome with (v | cause | _) | v <;> exact ⟨rfl, hworlds⟩

/-! ## Running -/

theorem evalBody_append (apply : Applier) (xs ys : List Node) (scope : Scope) (last : Value) :
    evalBody apply (xs ++ ys) scope last =
      evalBody apply xs scope last >>= fun v => evalBody apply ys scope v := by
  induction xs generalizing last with
  | nil => rfl
  | cons n ns ih =>
    show (eval apply n scope >>= fun v => evalBody apply (ns ++ ys) scope v) =
      (eval apply n scope >>= fun v => evalBody apply ns scope v) >>= fun v =>
        evalBody apply ys scope v
    rw [bind_assoc]
    exact bind_congr fun v => ih v

/-- Statements that run to their end are followed by the next ones. -/
theorem endProgram_append_of_ok {apply : Applier} {xs : List Node} {scope : Scope}
    {last v : Value} {w u : World} (h : evalBody apply xs scope last w = (.ok v, u))
    (ys : List Node) : endProgram (evalBody apply (xs ++ ys) scope last) w =
      endProgram (evalBody apply ys scope v) u := by
  unfold endProgram
  rw [evalBody_append, Run.bind_apply, h]

/-- Statements that fail or return are the last ones. -/
theorem endProgram_append_of_error {apply : Applier} {xs : List Node} {scope : Scope}
    {last : Value} {e : Exit} {w : World} (h : (evalBody apply xs scope last w).1 = .error e)
    (ys : List Node) : endProgram (evalBody apply (xs ++ ys) scope last) w =
      endProgram (evalBody apply xs scope last) w := by
  unfold endProgram
  rw [evalBody_append, Run.bind_apply]
  rcases hr : evalBody apply xs scope last w with ⟨outcome, u⟩
  rw [hr] at h
  cases h
  rfl

/-- Statements, if there are any, do not see the value in front of them. -/
theorem evalBody_of_ne_nil {body : List Node} (h : body ≠ []) (apply : Applier) (scope : Scope)
    (last last' : Value) : evalBody apply body scope last = evalBody apply body scope last' := by
  cases body with
  | nil => exact absurd rfl h
  | cons n ns => rfl

end Eval

namespace Session

open Eval

theorem parse_alike (s : String) (w : World) : w.Alike (parse s w).2 := by
  unfold parse
  cases Token.scan s with
  | error fault => exact .refl w
  | ok tokens =>
    dsimp only
    cases Node.ofTokens tokens <;> exact ⟨rfl, rfl, rfl, rfl⟩

/-- A script that is read runs its statements. -/
theorem eval_of_parse (host : Host) (limit : Nat) (session : Session) {s : String} {w : World}
    {body : List Node} (h : (parse s w).1 = .ok body) :
    ∃ u, w.Alike u ∧ session.eval host limit s w =
      endProgram (evalBody (call host limit) body session.scope .null) u := by
  have halike := parse_alike s w
  rcases hp : parse s w with ⟨outcome, v⟩
  rw [hp] at h halike
  cases h
  refine ⟨{ v with trace := .evaluating body.length :: v.trace },
    ⟨halike.store, halike.output, halike.depth, halike.room⟩, ?_⟩
  unfold Session.eval
  rw [Run.bind_apply, hp]
  rfl

theorem parse_of_parse {s : String} {w : World} {body : List Node} (h : (parse s w).1 = .ok body)
    (w' : World) : (parse s w').1 = .ok body := by
  rw [parse_fst] at h ⊢
  exact h

/-- Two scripts in one, with a semicolon between them: the statements are those of the one and then
those of the other.  If those of the first run to their end, the joint run is as the two runs one
after the other, with the value of the second, or of the first if the second has no statements; if
they fail or return, it is as the first run alone. -/
theorem eval_append (host : Host) (limit : Nat) (session : Session) (w : World) {s₁ s₂ : String}
    {b₁ b₂ : List Node} (h₁ : (parse s₁ w).1 = .ok b₁) (h₂ : (parse s₂ w).1 = .ok b₂) :
    let joint := session.eval host limit (s₁ ++ ";" ++ s₂) w
    let first := session.eval host limit s₁ w
    let second := session.eval host limit s₂ first.2
    let outcome := (evalBody (call host limit) b₁ session.scope .null w).1
    (parse (s₁ ++ ";" ++ s₂) w).1 = .ok (b₁ ++ b₂) ∧
      (∀ v, outcome = .ok v →
        joint.1 = (if b₂ = [] then first.1 else second.1) ∧ second.2.Alike joint.2) ∧
      (∀ e, outcome = .error e → joint.1 = first.1 ∧ first.2.Alike joint.2) := by
  intro joint first second outcome
  have hparse := parse_append h₁ h₂
  obtain ⟨u, hu, hjoint⟩ := eval_of_parse host limit session hparse
  obtain ⟨u₁, hu₁, hfirst⟩ := eval_of_parse host limit session h₁
  obtain ⟨u₂, hu₂, hsecond⟩ := eval_of_parse host limit session (parse_of_parse h₂ first.2)
  -- the first statements do the same in the joint run, in the first run, and from `w`
  obtain ⟨ho, hv⟩ := evalBody_alike host limit b₁ session.scope .null hu
  obtain ⟨ho₁, hv₁⟩ := evalBody_alike host limit b₁ session.scope .null hu₁
  refine ⟨hparse, fun v hr => ?_, fun e hr => ?_⟩
  · rcases hj : evalBody (call host limit) b₁ session.scope .null u with ⟨r, x⟩
    rcases hf : evalBody (call host limit) b₁ session.scope .null u₁ with ⟨r₁, x₁⟩
    rw [hj] at ho hv
    rw [hf] at ho₁ hv₁
    cases ho.trans hr
    cases ho₁.trans hr
    have hfirst' : first = (.ok v, x₁) := by
      rw [show first = _ from hfirst, endProgram, hf]
    have hx : u₂.Alike x := by
      rw [hfirst'] at hu₂
      exact hu₂.symm.trans (hv₁.symm.trans hv)
    rw [show joint = _ from hjoint, endProgram_append_of_ok hj, show second = _ from hsecond]
    by_cases hb : b₂ = []
    · rw [if_pos hb, hb, hfirst']
      exact ⟨rfl, hx⟩
    · rw [if_neg hb, evalBody_of_ne_nil hb _ _ v .null]
      exact endProgram_alike host limit b₂ session.scope .null hx
  · rw [show joint = _ from hjoint, endProgram_append_of_error (ho.trans hr),
      show first = _ from hfirst]
    exact endProgram_alike host limit b₁ session.scope .null (hu₁.symm.trans hu)

/-- A declaration, and an expression that uses the name. -/
theorem eval_append_declaration :
    let session : Session := ⟨⟨0, []⟩⟩
    let first := session.eval silent 10 "def x = 1" (firstWorld silent)
    let joint := session.eval silent 10 ("def x = 1" ++ ";" ++ "x + 1") (firstWorld silent)
    joint.1 = (session.eval silent 10 "x + 1" first.2).1 ∧ joint.1 = .ok (.num (.int 2)) := by
  have hfirst : (parse "def x = 1" (firstWorld silent)).1 =
      .ok [.declare false "x" (.number 1)] := by decide +kernel
  have hsecond : (parse "x + 1" (firstWorld silent)).1 =
      .ok [.binary (.ident "x") (.number 1) "+"] := by decide +kernel
  have hruns : (evalBody (call silent 10) [.declare false "x" (.number 1)] ⟨0, []⟩ .null
      (firstWorld silent)).1 = .ok (.num (.int 1)) := by decide +kernel
  have hboth := eval_append silent 10 ⟨⟨0, []⟩⟩ (firstWorld silent) hfirst hsecond
  have hvalue := (hboth.2.1 _ hruns).1
  rw [if_neg (List.cons_ne_nil _ _)] at hvalue
  exact ⟨hvalue, by decide +kernel⟩

end Session

end Guion
