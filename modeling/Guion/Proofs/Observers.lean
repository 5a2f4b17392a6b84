import Guion.Proofs.Stepping
import Guion.Builtin

/-!
# What every scope sees of a declaration and of an assignment

Scopes are chains of frames, and any number of them may share a frame.  A binding that is written
into a frame is seen from the scopes on whose chain the frame comes before every other frame that
binds the name; from all the others, and under all other names, what was found is found again.
Nothing is asked of how the chains of different scopes fit together.

    (s.bindName f n b).resolve? n chain = some f   if the chain sees f   (resolve?_bindName_of_sees)
    (s.bindName f n b).resolve? m chain = s.resolve? m chain   otherwise  (resolve?_bindName_of_not)
    s.Sees n f chain ↔ s.resolve? n chain = some f             if f binds n  (sees_iff_of_binds)
-/

namespace Guion

namespace Store

/-- The frame is on the chain, and no frame before it binds the name. -/
def Sees (s : Store) (name : String) (f : FrameId) (chain : List FrameId) : Prop :=
  ∃ before after, chain = before ++ f :: after ∧ ∀ g ∈ before, s.binds g name = false

/-- Between two stores one binding of a name has come: the scopes that are `near` it find it, and
nothing else that any scope finds has changed. -/
structure Observed (s t : Store) (name : String) (b : Binding) (near : Scope → Prop) : Prop where
  found {o : Scope} : near o →
    t.lookup o name = .ok b.value ∧ t.isConstant o name = .ok b.constant
  kept {o : Scope} {m : String} : ¬ (m = name ∧ near o) →
    t.lookup o m = s.lookup o m ∧ t.isConstant o m = s.isConstant o m

variable {s t : Store} {f g : FrameId} {name m : String} {chain : List FrameId} {b : Binding}

/-! ## Chains -/

theorem not_sees_nil : ¬ s.Sees name f [] := by
  rintro ⟨before, after, h, -⟩
  exact List.append_ne_nil_of_right_ne_nil before (List.cons_ne_nil f after) h.symm

theorem sees_cons : s.Sees name f (g :: chain) ↔
    g = f ∨ s.binds g name = false ∧ s.Sees name f chain := by
  constructor
  · rintro ⟨_ | ⟨g', before⟩, after, h, hbefore⟩
    · exact .inl (List.cons.inj h).1
    · obtain ⟨rfl, rfl⟩ := List.cons.inj h
      obtain ⟨hg, hbefore⟩ := List.forall_mem_cons.1 hbefore
      exact .inr ⟨hg, before, after, rfl, hbefore⟩
  · rintro (rfl | ⟨hg, before, after, rfl, hbefore⟩)
    · exact ⟨[], chain, rfl, fun _ h => absurd h List.not_mem_nil⟩
    · exact ⟨g :: before, after, rfl, List.forall_mem_cons.2 ⟨hg, hbefore⟩⟩

theorem resolve?_cons_of_binds (h : s.binds g m = true) :
    s.resolve? m (g :: chain) = some g :=
  List.find?_cons_of_pos (p := fun g => s.binds g m) h

theorem resolve?_cons_of_not_binds (h : s.binds g m = false) :
    s.resolve? m (g :: chain) = s.resolve? m chain :=
  List.find?_cons_of_neg (p := fun g => s.binds g m) (Bool.eq_false_iff.1 h)

theorem binds_of_resolve? (h : s.resolve? m chain = some g) : s.binds g m = true :=
  List.find?_some (p := fun g => s.binds g m) h

/-- A frame that binds the name is seen where the name is resolved to it. -/
theorem sees_iff_of_binds (hf : s.binds f name = true) :
    s.Sees name f chain ↔ s.resolve? name chain = some f := by
  simp only [Sees, resolve?, List.find?_eq_some_iff_append, hf, true_and, Bool.not_eq_true']

/-! ## One binding more -/

section Write

variable (hf : f < s.frames.size)
include hf

theorem find?_bindName (m : String) :
    ((s.bindName f name b).frame g).vars.find? m =
      if g = f ∧ m = name then some b else (s.frame g).vars.find? m := by
  rw [frame_bindName]
  by_cases hg : g = f
  · subst hg
    rw [if_pos ⟨rfl, hf⟩, Table.find?_insert]
    simp only [true_and]
  · rw [if_neg fun h => hg h.1, if_neg fun h => hg h.1]

theorem binds_bindName_self : (s.bindName f name b).binds f name = true := by
  rw [binds, Table.contains, find?_bindName hf, if_pos ⟨rfl, rfl⟩]
  rfl

theorem binds_bindName_of_not (h : ¬ (g = f ∧ m = name)) :
    (s.bindName f name b).binds g m = s.binds g m := by
  rw [binds, binds, Table.contains, Table.contains, find?_bindName hf, if_neg h]

theorem resolve?_bindName_of_sees (h : s.Sees name f chain) :
    (s.bindName f name b).resolve? name chain = some f := by
  obtain ⟨before, after, rfl, hbefore⟩ := h
  induction before with
  | nil => exact resolve?_cons_of_binds (binds_bindName_self hf)
  | cons g before ih =>
    obtain ⟨hg, hbefore⟩ := List.forall_mem_cons.1 hbefore
    by_cases hgf : g = f
    · subst hgf
      exact resolve?_cons_of_binds (binds_bindName_self hf)
    · have hg' : (s.bindName f name b).binds g name = false :=
        (binds_bindName_of_not hf fun h => hgf h.1).trans hg
      exact (resolve?_cons_of_not_binds hg').trans (ih hbefore)

/-- The frames that are resolved to stay the same, by induction on the chain: where the written
frame comes up, the name is another one or a frame before it binds the name already. -/
theorem resolve?_bindName_of_not (h : ¬ (m = name ∧ s.Sees name f chain)) :
    (s.bindName f name b).resolve? m chain = s.resolve? m chain := by
  induction chain with
  | nil => rfl
  | cons g chain ih =>
    have hgf : ¬ (g = f ∧ m = name) := by
      rintro ⟨rfl, rfl⟩
      exact h ⟨rfl, sees_cons.2 (.inl rfl)⟩
    have hbinds := binds_bindName_of_not (b := b) hf hgf
    cases hg : s.binds g m with
    | true =>
      rw [resolve?_cons_of_binds (hbinds.trans hg), resolve?_cons_of_binds hg]
    | false =>
      have hrest : ¬ (m = name ∧ s.Sees name f chain) := by
        rintro ⟨rfl, hsees⟩
        exact h ⟨rfl, sees_cons.2 (.inr ⟨hg, hsees⟩)⟩
      rw [resolve?_cons_of_not_binds (hbinds.trans hg), resolve?_cons_of_not_binds hg, ih hrest]

theorem binding?_bindName_of_sees {o : Scope} (h : s.Sees name f o.chain) :
    (s.bindName f name b).binding? o name = some b := by
  rw [binding?, resolve?_bindName_of_sees hf h, Option.bind_some, find?_bindName hf,
    if_pos ⟨rfl, rfl⟩]

theorem binding?_bindName_of_not {o : Scope} (h : ¬ (m = name ∧ s.Sees name f o.chain)) :
    (s.bindName f name b).binding? o m = s.binding? o m := by
  rw [binding?, binding?, resolve?_bindName_of_not hf h]
  cases hg : s.resolve? m o.chain with
  | none => rfl
  | some g =>
    have hgf : ¬ (g = f ∧ m = name) := by
      rintro ⟨rfl, rfl⟩
      exact h ⟨rfl, (sees_iff_of_binds (binds_of_resolve? hg)).2 hg⟩
    rw [Option.bind_some, Option.bind_some, find?_bindName hf, if_neg hgf]

end Write

theorem binding?_noteGlobal (scope o : Scope) (name m : String) :
    (s.noteGlobal scope name).binding? o m = s.binding? o m := by
  have hbinds : ∀ g, (s.noteGlobal scope name).binds g m = s.binds g m := fun g => by
    rw [binds, binds, vars_noteGlobal]
  simp only [binding?, resolve?, hbinds, vars_noteGlobal]

/-! ## Looks -/

theorem lookup_eq_of_binding? {o : Scope} (h : t.binding? o m = s.binding? o m) :
    t.lookup o m = s.lookup o m ∧ t.isConstant o m = s.isConstant o m := by
  simp only [lookup, isConstant, binding, h, true_and]

theorem lookup_of_binding? {o : Scope} (h : s.binding? o m = some b) :
    s.lookup o m = .ok b.value ∧ s.isConstant o m = .ok b.constant := by
  simp only [lookup, isConstant, binding, h]
  exact ⟨rfl, rfl⟩

theorem observed_of_binding? {near : Scope → Prop}
    (hfound : ∀ o, near o → t.binding? o name = some b)
    (hkept : ∀ o m, ¬ (m = name ∧ near o) → t.binding? o m = s.binding? o m) :
    Observed s t name b near :=
  ⟨fun h => lookup_of_binding? (hfound _ h), fun h => lookup_eq_of_binding? (hkept _ _ h)⟩

theorem observed_bindName (hf : f < s.frames.size) :
    Observed s (s.bindName f name b) name b fun o => s.Sees name f o.chain :=
  observed_of_binding? (fun _ => binding?_bindName_of_sees hf) fun _ _ =>
    binding?_bindName_of_not hf

theorem observed_noteGlobal (hf : f < s.frames.size) (scope : Scope) :
    Observed s ((s.bindName f name b).noteGlobal scope name) name b fun o =>
      s.Sees name f o.chain :=
  observed_of_binding?
    (fun o h => (binding?_noteGlobal scope o name name).trans (binding?_bindName_of_sees hf h))
    fun o m h => (binding?_noteGlobal scope o name m).trans (binding?_bindName_of_not hf h)

/-- A name that is resolved to a frame is bound there. -/
theorem find?_of_resolve? (h : s.resolve? name chain = some f) :
    f < s.frames.size ∧ ∃ b, (s.frame f).vars.find? name = some b := by
  have hbinds := binds_of_resolve? h
  refine ⟨?_, Option.isSome_iff_exists.1 hbinds⟩
  by_contra hsize
  rw [binds, frame_of_size_le s (Nat.le_of_not_lt hsize)] at hbinds
  exact Bool.false_ne_true hbinds

theorem binding?_of_resolve? {o : Scope} (h : s.resolve? name o.chain = some f) :
    s.binding? o name = (s.frame f).vars.find? name := by
  rw [binding?, h, Option.bind_some]

theorem binding?_of_resolve?_none {o : Scope} (h : s.resolve? name o.chain = none) :
    s.binding? o name = none := by
  rw [binding?, h, Option.bind_none]

/-- All four ways to look for a name find it, or none of them does. -/
theorem looks_agree (s : Store) (o : Scope) (m : String) :
    (s.isDeclared o m = true ∧ ∃ (f : FrameId) (b : Binding), s.resolve o m = .ok f ∧
      s.lookup o m = .ok b.value ∧ s.isConstant o m = .ok b.constant) ∨
    (s.isDeclared o m = false ∧ s.resolve o m = .error (.undeclared m) ∧
      s.lookup o m = .error (.undeclared m) ∧ s.isConstant o m = .error (.undeclared m)) := by
  cases hr : s.resolve? m o.chain with
  | some f =>
    obtain ⟨-, b, hb⟩ := find?_of_resolve? hr
    refine .inl ⟨by rw [isDeclared, hr]; rfl, f, b, by rw [resolve, hr], ?_⟩
    exact lookup_of_binding? ((binding?_of_resolve? hr).trans hb)
  | none =>
    refine .inr ⟨by rw [isDeclared, hr]; rfl, by rw [resolve, hr], ?_⟩
    simp only [lookup, isConstant, binding, binding?_of_resolve?_none hr]
    exact ⟨rfl, rfl⟩

/-- What an assignment finds: no binding, a constant, or a variable in the nearest frame. -/
theorem assignable_cases (s : Store) (e : Scope) (name : String) :
    (s.resolve? name e.chain = none ∧ s.assignable e name = .error (.undeclared name)) ∨
    (∃ f b, s.resolve? name e.chain = some f ∧ (s.frame f).vars.find? name = some b ∧
      b.constant = true ∧ s.assignable e name = .error (.constantAssigned name)) ∨
    (∃ f b, s.resolve? name e.chain = some f ∧ (s.frame f).vars.find? name = some b ∧
      b.constant = false ∧ s.assignable e name = .ok f) := by
  cases hr : s.resolve? name e.chain with
  | none =>
    refine .inl ⟨rfl, ?_⟩
    simp only [assignable, isConstant, binding, binding?_of_resolve?_none hr]
    rfl
  | some f =>
    obtain ⟨-, b, hb⟩ := find?_of_resolve? hr
    have hconstant := (lookup_of_binding? ((binding?_of_resolve? hr).trans hb)).2
    obtain ⟨v, constant⟩ := b
    cases constant with
    | true => exact .inr (.inl ⟨f, _, rfl, hb, rfl, by rw [assignable, hconstant]; rfl⟩)
    | false =>
      refine .inr (.inr ⟨f, _, rfl, hb, rfl, ?_⟩)
      rw [assignable, hconstant]
      show s.resolve e name = .ok f
      rw [resolve, hr]

end Store

/-! ## Declarations -/

/-- How a declaration in the scope `e` ends, and what every scope finds after it. -/
structure Declares (w : World) (e : Scope) (name : String) (b : Binding)
    (outcome : Except Exit Value) (w' : World) : Prop where
  refused : outcome = .error (.failed (.redeclared name)) ↔ w.store.binds e.frame name = true
  unchanged {x : Exit} : outcome = .error x → x = .failed (.redeclared name) ∧ w' = w
  observed {u : Value} : outcome = .ok u → u = b.value ∧
    Store.Observed w.store w'.store name b fun o => w.store.Sees name e.frame o.chain

theorem Builtin.declares {w : World} {e : Scope} (he : e.frame < w.store.frames.size)
    (name : String) (v : Value) (constant isGlobal : Bool) :
    Declares w e name ⟨v, constant⟩ (declareName e name v constant isGlobal w).1
      (declareName e name v constant isGlobal w).2 := by
  cases hb : w.store.binds e.frame name with
  | true =>
    have hmem : name ∈ (w.store.frame e.frame).vars.keys := by
      by_contra hnot
      rw [Store.binds, (Table.contains_eq_false_iff _ _).2 hnot] at hb
      exact Bool.false_ne_true hb
    rw [declareName, Run.bind_of_error (Eval.declare_of_mem hmem _)]
    exact ⟨iff_of_true rfl hb, by rintro x ⟨⟩; exact ⟨rfl, rfl⟩, by rintro u ⟨⟩⟩
  | false =>
    have hnew := (Table.contains_eq_false_iff _ _).1 hb
    have hb : ¬ w.store.binds e.frame name = true := Bool.eq_false_iff.1 hb
    rw [declareName, Run.bind_of_ok (Eval.declare_of_not_mem hnew ⟨v, constant⟩)]
    cases isGlobal with
    | true =>
      refine ⟨iff_of_false (by rintro ⟨⟩) hb, by rintro x ⟨⟩, ?_⟩
      rintro u ⟨⟩
      exact ⟨rfl, Store.observed_noteGlobal he e⟩
    | false =>
      refine ⟨iff_of_false (by rintro ⟨⟩) hb, by rintro x ⟨⟩, ?_⟩
      rintro u ⟨⟩
      exact ⟨rfl, Store.observed_bindName he⟩

/-! ## Assignments -/

/-- How an assignment in the scope `e` ends, and what every scope finds after it. -/
structure Assigns (w : World) (e : Scope) (name : String) (v : Value)
    (outcome : Except Exit Value) (w' : World) : Prop where
  undeclared : outcome = .error (.failed (.undeclared name)) ↔
    ∀ f ∈ e.chain, w.store.binds f name = false
  constant : outcome = .error (.failed (.constantAssigned name)) ↔
    ∃ b, w.store.binding? e name = some b ∧ b.constant = true
  unchanged {x : Exit} : outcome = .error x →
    (x = .failed (.undeclared name) ∨ x = .failed (.constantAssigned name)) ∧ w' = w
  observed {u : Value} : outcome = .ok u → u = v ∧ w.store.isConstant e name = .ok false ∧
    Store.Observed w.store w'.store name ⟨v, false⟩ fun o =>
      w.store.resolve? name o.chain = w.store.resolve? name e.chain

namespace Eval

theorem assignName_of_error {w : World} {e : Scope} {name : String} {cause : Failure}
    (h : w.store.assignable e name = .error cause) (v : Value) :
    assignName e name v w = (.error (.failed cause), w) := by
  have hlook : Run.inspect (fun s => s.assignable e name) w = (.error (.failed cause), w) := by
    rw [Run.inspect, h]
  rw [assignName, Run.bind_of_error hlook]

theorem assignName_of_ok {w : World} {e : Scope} {name : String} {f : FrameId}
    (h : w.store.assignable e name = .ok f) (v : Value) :
    assignName e name v w =
      (.ok v, { w with store := w.store.bindName f name ⟨v, false⟩ }) := by
  have hlook : Run.inspect (fun s => s.assignable e name) w = (.ok f, w) := by
    rw [Run.inspect, h]
  rw [assignName, Run.bind_of_ok hlook]
  rfl

theorem assigns (w : World) (e : Scope) (name : String) (v : Value) :
    Assigns w e name v (assignName e name v w).1 (assignName e name v w).2 := by
  have hnone : w.store.resolve? name e.chain = none ↔
      ∀ f ∈ e.chain, w.store.binds f name = false := by
    simp only [Store.resolve?, List.find?_eq_none, Bool.not_eq_true]
  obtain ⟨hr, ha⟩ | ⟨f, b, hr, hb, hconstant, ha⟩ | ⟨f, b, hr, hb, hconstant, ha⟩ :=
    w.store.assignable_cases e name
  · rw [assignName_of_error ha]
    refine ⟨iff_of_true rfl (hnone.1 hr), iff_of_false nofun ?_, ?_, nofun⟩
    · rintro ⟨b, hb, -⟩
      rw [Store.binding?_of_resolve?_none hr] at hb
      cases hb
    · rintro x ⟨⟩
      exact ⟨.inl rfl, rfl⟩
  · rw [assignName_of_error ha]
    refine ⟨iff_of_false nofun ?_, iff_of_true rfl ?_, ?_, nofun⟩
    · rw [← hnone, hr]
      exact nofun
    · exact ⟨b, (Store.binding?_of_resolve? hr).trans hb, hconstant⟩
    · rintro x ⟨⟩
      exact ⟨.inr rfl, rfl⟩
  · have hbinding := (Store.binding?_of_resolve? hr).trans hb
    rw [assignName_of_ok ha]
    refine ⟨iff_of_false nofun ?_, iff_of_false nofun ?_, nofun, ?_⟩
    · rw [← hnone, hr]
      exact nofun
    · rintro ⟨b', hb', hconstant'⟩
      rw [hbinding] at hb'
      cases hb'
      rw [hconstant] at hconstant'
      cases hconstant'
    · rintro u ⟨⟩
      refine ⟨rfl, ?_, ?_⟩
      · rw [(Store.lookup_of_binding? hbinding).2, hconstant]
      · simp only [hr, ← Store.sees_iff_of_binds (Store.binds_of_resolve? hr)]
        exact Store.observed_bindName (Store.find?_of_resolve? hr).1

end Eval

/-! ## Both operations, for every scope -/

/-- What declaring and assigning a name in a scope do, whatever other scopes there are, and that
the ways to look for a name agree on whether it is there. -/
theorem Scope.writes_observed (w : World) (e : Scope) (he : e.frame < w.store.frames.size)
    (name : String) (v : Value) :
    (∀ constant isGlobal, Declares w e name ⟨v, constant⟩
      (Builtin.declareName e name v constant isGlobal w).1
      (Builtin.declareName e name v constant isGlobal w).2) ∧
    Assigns w e name v (Eval.assignName e name v w).1 (Eval.assignName e name v w).2 ∧
    ∀ (o : Scope) (m : String),
      (w.store.isDeclared o m = true ∧ ∃ (f : FrameId) (b : Binding),
        w.store.resolve o m = .ok f ∧
        w.store.lookup o m = .ok b.value ∧ w.store.isConstant o m = .ok b.constant) ∨
      (w.store.isDeclared o m = false ∧ w.store.resolve o m = .error (.undeclared m) ∧
        w.store.lookup o m = .error (.undeclared m) ∧
        w.store.isConstant o m = .error (.undeclared m)) :=
  ⟨Builtin.declares he name v, Eval.assigns w e name v, w.store.looks_agree⟩

/-- A root that binds `x`, a scope inside it, one inside that which binds `x` again, one which does
not, and one beside them. -/
def Store.forked : Store :=
  let x (n : Int) : Frame := ⟨.ofList [("x", ⟨.num (.int n), false⟩)], []⟩
  let bare : Frame := ⟨.empty, []⟩
  ⟨#[x 1, bare, x 2, bare, bare], #[]⟩

/-- A constant declared in the inner scope hides the name of the root from the scope itself and from
the one inside it that does not bind the name; the others find what they found. -/
theorem Scope.writes_observed_forked :
    1 < Store.forked.frames.size ∧
    ∀ w', (Builtin.declareName ⟨1, [0]⟩ "x" (.num (.int 5)) true false
        { World.initial 1000 with store := Store.forked }).2 = w' →
      w'.store.lookup ⟨3, [1, 0]⟩ "x" = .ok (.num (.int 5)) ∧
      w'.store.isConstant ⟨3, [1, 0]⟩ "x" = .ok true ∧
      w'.store.lookup ⟨2, [1, 0]⟩ "x" = .ok (.num (.int 2)) ∧
      w'.store.lookup ⟨4, [0]⟩ "x" = .ok (.num (.int 1)) := by
  refine ⟨by decide, ?_⟩
  rintro w' rfl
  have hall := (Scope.writes_observed { World.initial 1000 with store := Store.forked } ⟨1, [0]⟩
    (by decide) "x" (.num (.int 5))).1 true false
  obtain ⟨-, hobserved⟩ := hall.observed rfl
  have hnear : Store.forked.Sees "x" 1 [3, 1, 0] := ⟨[3], [0], rfl, by decide⟩
  have hhidden : ¬ Store.forked.Sees "x" 1 [2, 1, 0] := by
    rw [Store.sees_cons]
    rintro (h | ⟨h, -⟩) <;> exact absurd h (by decide)
  have hbeside : ¬ Store.forked.Sees "x" 1 [4, 0] := by
    rw [Store.sees_cons, Store.sees_cons]
    rintro (h | ⟨-, h | ⟨-, h⟩⟩)
    · exact absurd h (by decide)
    · exact absurd h (by decide)
    · exact Store.not_sees_nil h
  obtain ⟨hlookup, hconstant⟩ := hobserved.found (o := ⟨3, [1, 0]⟩) hnear
  refine ⟨hlookup, hconstant, ?_, ?_⟩
  · rw [(hobserved.kept (o := ⟨2, [1, 0]⟩) (m := "x") fun h => hhidden h.2).1]
    rfl
  · rw [(hobserved.kept (o := ⟨4, [0]⟩) (m := "x") fun h => hbeside h.2).1]
    rfl

end Guion
