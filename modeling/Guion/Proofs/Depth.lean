import Guion.Proofs.Termination
import Guion.Proofs.History
import Guion.Proofs.Safety.Sessions

/-!
# The depth of calls

A run notes every body that it enters and leaves with the depth that this leads to.  From a depth
within the limit the depth goes up by one with each body that is entered and down by one with each
that is left, never below where the run started and never above the limit, and however the run ends
it is back there.  A call is made below the limit and refused at the limit; a run that fails so has
made its way up to the limit, and since then it has only left bodies.

    w.depth ≤ limit → ∃ events, w'.trace = events.reverse ++ w.trace ∧
      DepthPath w.depth limit w.depth events w.depth                            (accounts_evaluate)
-/

namespace Guion

/-! ## Paths -/

namespace Event

def isEntered : Event → Bool
  | .entered _ => true
  | _ => false

def isLeft : Event → Bool
  | .left _ => true
  | _ => false

/-- The depth to which an event leads. -/
def depthAfter (depth : Nat) : Event → Nat
  | .entered k | .left k => k
  | _ => depth

end Event

/-- The depth after the events, the oldest first. -/
def depthAfter (depth : Nat) (events : List Event) : Nat := events.foldl Event.depthAfter depth

/-- Bodies entered. -/
def begun (events : List Event) : Nat := events.countP Event.isEntered

/-- Bodies left. -/
def ended (events : List Event) : Nat := events.countP Event.isLeft

/-- Events that lead from one depth to another one, step by step between two bounds. -/
inductive DepthPath (low limit : Nat) : Nat → List Event → Nat → Prop
  | nil (k : Nat) : DepthPath low limit k [] k
  | makingRoom {k l : Nat} {events : List Event} (room : Int) : DepthPath low limit k events l →
      DepthPath low limit k (.makingRoom room :: events) l
  | calling {k l : Nat} {events : List Event} (name : String) (arguments : Nat) : k < limit →
      DepthPath low limit k events l → DepthPath low limit k (.calling name arguments :: events) l
  | entered {k l : Nat} {events : List Event} : k < limit → DepthPath low limit (k + 1) events l →
      DepthPath low limit k (.entered (k + 1) :: events) l
  | left {k l : Nat} {events : List Event} : low ≤ k → DepthPath low limit k events l →
      DepthPath low limit (k + 1) (.left k :: events) l

namespace DepthPath

variable {low limit k l m : Nat} {events events' : List Event}

theorem append (h : DepthPath low limit k events l) (h' : DepthPath low limit l events' m) :
    DepthPath low limit k (events ++ events') m := by
  induction h with
  | nil k => exact h'
  | makingRoom room _ ih => exact .makingRoom room (ih h')
  | calling name arguments hk _ ih => exact .calling name arguments hk (ih h')
  | entered hk _ ih => exact .entered hk (ih h')
  | left hk _ ih => exact .left hk (ih h')

theorem split (h : DepthPath low limit k (events ++ events') m) :
    ∃ l, DepthPath low limit k events l ∧ DepthPath low limit l events' m := by
  induction events generalizing k with
  | nil => exact ⟨k, .nil k, h⟩
  | cons e events ih =>
    cases h with
    | makingRoom room h =>
      obtain ⟨l, hl, hm⟩ := ih h
      exact ⟨l, .makingRoom room hl, hm⟩
    | calling name arguments hk h =>
      obtain ⟨l, hl, hm⟩ := ih h
      exact ⟨l, .calling name arguments hk hl, hm⟩
    | entered hk h =>
      obtain ⟨l, hl, hm⟩ := ih h
      exact ⟨l, .entered hk hl, hm⟩
    | left hk h =>
      obtain ⟨l, hl, hm⟩ := ih h
      exact ⟨l, .left hk hl, hm⟩

theorem lower (h : DepthPath low limit k events l) {low' : Nat} (hlow : low' ≤ low) :
    DepthPath low' limit k events l := by
  induction h with
  | nil k => exact .nil k
  | makingRoom room _ ih => exact .makingRoom room ih
  | calling name arguments hk _ ih => exact .calling name arguments hk ih
  | entered hk _ ih => exact .entered hk ih
  | left hk _ ih => exact .left (Nat.le_trans hlow hk) ih

theorem depthAfter_eq (h : DepthPath low limit k events l) : depthAfter k events = l := by
  induction h with
  | nil k => rfl
  | makingRoom room _ ih => exact ih
  | calling name arguments _ _ ih => exact ih
  | entered _ _ ih => exact ih
  | left _ _ ih => exact ih

theorem balance (h : DepthPath low limit k events l) : l + ended events = k + begun events := by
  induction h with
  | nil k => rfl
  | makingRoom room _ ih => exact ih
  | calling name arguments _ _ ih => exact ih
  | @entered k l events _ _ ih =>
    have hb : begun (.entered (k + 1) :: events) = begun events + 1 :=
      List.countP_cons_of_pos rfl
    have he : ended (.entered (k + 1) :: events) = ended events :=
      List.countP_cons_of_neg nofun
    omega
  | @left k l events _ _ ih =>
    have hb : begun (.left k :: events) = begun events := List.countP_cons_of_neg nofun
    have he : ended (.left k :: events) = ended events + 1 := List.countP_cons_of_pos rfl
    omega

theorem bounds (h : DepthPath low limit k events l) (hlow : low ≤ k) (hlimit : k ≤ limit) :
    low ≤ l ∧ l ≤ limit := by
  induction h with
  | nil k => exact ⟨hlow, hlimit⟩
  | makingRoom room _ ih => exact ih hlow hlimit
  | calling name arguments _ _ ih => exact ih hlow hlimit
  | entered hk _ ih => exact ih (by omega) (by omega)
  | left hk _ ih => exact ih hk (by omega)

end DepthPath

/-- The events lead up to the limit, and from there on bodies are only left. -/
def Refused (low limit : Nat) (events : List Event) : Prop :=
  ∃ past lefts, events = past ++ lefts ∧ DepthPath low limit low past limit ∧
    ∀ e ∈ lefts, ∃ k, e = .left k

theorem Refused.after {low limit : Nat} {events events' : List Event}
    (h : Refused low limit events') (hp : DepthPath low limit low events low) :
    Refused low limit (events ++ events') := by
  obtain ⟨past, lefts, rfl, hpast, hlefts⟩ := h
  exact ⟨events ++ past, lefts, (List.append_assoc ..).symm, hp.append hpast, hlefts⟩

/-! ## Runs -/

namespace Eval

/-- From a world of the depth, the run notes events that lead back to that depth, and it ends there;
if it fails as a refused call does, it has met the limit. -/
def Accounts (limit depth : Nat) {α : Type} (m : Run α) : Prop :=
  ∀ w : World, w.depth = depth → ∃ events, (m w).2.trace = events.reverse ++ w.trace ∧
    (m w).2.depth = depth ∧ DepthPath depth limit depth events depth ∧
    ∀ name, (m w).1 = .error (.failed (.tooDeep name)) → Refused depth limit events

section

variable {limit depth : Nat} {α β : Type}

/-- A step that notes nothing, keeps the depth and is not refused. -/
theorem accounts_of_step {m : Run α} (h : ∀ w, (m w).2.trace = w.trace ∧
    (m w).2.depth = w.depth ∧ ∀ name, (m w).1 ≠ .error (.failed (.tooDeep name))) :
    Accounts limit depth m := by
  rintro w rfl
  obtain ⟨ht, hd, hr⟩ := h w
  exact ⟨[], ht, hd, .nil _, fun name he => absurd he (hr name)⟩

theorem accounts_bind {m : Run α} {f : α → Run β} (hm : Accounts limit depth m)
    (hf : ∀ a, Accounts limit depth (f a)) : Accounts limit depth (m >>= f) := by
  intro w hw
  obtain ⟨events, ht, hd, hp, hr⟩ := hm w hw
  rw [Run.bind_apply]
  rcases hmw : m w with ⟨e | a, w'⟩ <;> rw [hmw] at ht hd hr
  · refine ⟨events, ht, hd, hp, fun name he => hr name ?_⟩
    cases he
    rfl
  · obtain ⟨events', ht', hd', hp', hr'⟩ := hf a w' hd
    refine ⟨events ++ events', ?_, hd', hp.append hp', fun name he => (hr' name he).after hp⟩
    rw [ht', ht, List.reverse_append, List.append_assoc]

theorem accounts_pure (a : α) : Accounts limit depth (pure a : Run α) :=
  accounts_of_step fun _ => ⟨rfl, rfl, nofun⟩

theorem accounts_fail {cause : Failure} (h : cause.isTooDeep = false) :
    Accounts limit depth (Run.fail cause : Run α) := by
  refine accounts_of_step fun _ => ⟨rfl, rfl, ?_⟩
  rintro name ⟨⟩
  cases h

theorem accounts_inspect {look : Store → Except Failure α}
    (h : ∀ s, FailsWith (·.isTooDeep = false) (look s)) :
    Accounts limit depth (Run.inspect look) := by
  refine accounts_of_step fun w => ?_
  unfold Run.inspect
  cases hl : look w.store with
  | ok a => exact ⟨rfl, rfl, nofun⟩
  | error cause =>
    refine ⟨rfl, rfl, ?_⟩
    rintro name ⟨⟩
    cases h _ _ hl

theorem accounts_attempt {step : Store → Except Failure (Store × α)}
    (h : ∀ s, FailsWith (·.isTooDeep = false) (step s)) :
    Accounts limit depth (Run.attempt step) := by
  refine accounts_of_step fun w => ?_
  unfold Run.attempt
  cases hl : step w.store with
  | ok p => exact ⟨rfl, rfl, nofun⟩
  | error cause =>
    refine ⟨rfl, rfl, ?_⟩
    rintro name ⟨⟩
    cases h _ _ hl

theorem accounts_create (step : Store → Store × α) : Accounts limit depth (Run.create step) :=
  accounts_of_step fun _ => ⟨rfl, rfl, nofun⟩

theorem accounts_update (step : Store → Store) : Accounts limit depth (Run.update step) :=
  accounts_of_step fun _ => ⟨rfl, rfl, nofun⟩

theorem accounts_endProgram {m : Run Value} (h : Accounts limit depth m) :
    Accounts limit depth (endProgram m) := by
  intro w hw
  obtain ⟨events, ht, hd, hp, hr⟩ := h w hw
  unfold endProgram
  rcases hm : m w with ⟨(v | cause | _) | v, w'⟩ <;> rw [hm] at ht hd hr
  · exact ⟨events, ht, hd, hp, nofun⟩
  · exact ⟨events, ht, hd, hp, hr⟩
  · exact ⟨events, ht, hd, hp, nofun⟩
  · exact ⟨events, ht, hd, hp, nofun⟩

end

theorem accounts_congruence (limit depth : Nat) :
    Congruence fun m _ => Accounts limit depth m where
  pure := accounts_pure
  bind := accounts_bind
  fail := accounts_fail
  giveBack _ := accounts_of_step fun _ => ⟨rfl, rfl, nofun⟩
  inspect := accounts_inspect
  openFrame _ := accounts_create _
  bindName _ _ _ := accounts_update _
  setProperty _ _ _ := accounts_update _
  make _ _ := accounts_create _
  endProgram := accounts_endProgram

/-! ## Calls -/

theorem accounts_native (limit depth : Nat) (host : Host) (native : Native) (self : Value)
    (args : List Value) : Accounts limit depth (native.call host self args) := by
  have displayed (s : Store) (v : Value) : FailsWith (·.isTooDeep = false) (s.display v) :=
    s.failsWith_display v rfl fun _ => rfl
  have shown (s : Store) (v : Value) : FailsWith (·.isTooDeep = false) (s.showOrFail v) :=
    s.failsWith_showOrFail v rfl
  have counted (s : Store) (v : Value) : FailsWith (·.isTooDeep = false) (s.lengthOf v) :=
    s.failsWith_lengthOf v fun _ => rfl
  refine accounts_bind ?_ fun data => accounts_attempt fun s =>
    s.failsWith_ofDatum (fun _ => rfl) (fun _ => rfl) data
  unfold Native.result
  cases native with
  | showSelf => exact accounts_inspect fun s => shown s self
  | sourceOfSelf =>
    exact accounts_inspect fun s =>
      failsWith_map (s.failsWith_sourceOf self (fun _ => rfl) fun _ => rfl) _
  | printLine =>
    refine accounts_bind (accounts_bind ?_ fun _ => ?_) fun _ => accounts_pure _
    · exact accounts_inspect fun s => failsWith_mapM (displayed s) args
    · exact accounts_of_step fun _ => ⟨rfl, rfl, nofun⟩
  | length =>
    cases args with
    | nil => exact accounts_fail rfl
    | cons v args =>
      exact accounts_inspect fun s =>
        failsWith_map (failsWith_bind (counted s v) fun _ => failsWith_ok _) _
  | text =>
    cases args with
    | nil => exact accounts_pure _
    | cons v args => exact accounts_inspect fun s => failsWith_map (displayed s v) _
  | foreign name => exact accounts_create _
  | dataFunction name =>
    exact accounts_inspect fun s => failsWith_map (failsWith_mapM (shown s) args) _
  | _ => exact accounts_inspect fun _ => failsWith_ok _

theorem accounts_bindAll (limit depth : Nat) (scope : Scope) :
    ∀ (params : List String) (args : List Value), Accounts limit depth (bindAll scope params args)
  | [], _ => accounts_pure ()
  | p :: ps, args => by
    refine accounts_bind ((accounts_congruence limit depth).declare scope p _) fun _ => ?_
    exact accounts_bindAll limit depth scope ps args.tail

theorem accounts_callScope (limit depth : Nat) (c : Closure) (args : List Value) :
    Accounts limit depth (callScope c args) := by
  refine accounts_bind (accounts_create _) fun scope => ?_
  refine accounts_bind (accounts_bindAll limit depth scope c.params args) fun _ => ?_
  exact accounts_pure scope

theorem accounts_note_calling {limit depth : Nat} (h : depth < limit) (name : String)
    (arguments : Nat) : Accounts limit depth (Run.note (.calling name arguments)) :=
  fun _ hw => ⟨[.calling name arguments], rfl, hw, .calling name arguments h (.nil depth), nofun⟩

/-- A call hands on the refusal that its body ended in, and turns no other outcome into one. -/
theorem eq_of_outcomeOfBody_eq_tooDeep {outcome : Except Exit Value} {name : String}
    (h : outcomeOfBody outcome = .error (.failed (.tooDeep name))) :
    outcome = .error (.failed (.tooDeep name)) := by
  unfold outcomeOfBody at h
  split at h
  · cases h
  · cases h
  · cases h
  · exact h

/-- A body is entered and left; what it notes in between stays above the depth of the call. -/
theorem accounts_inCall {limit depth : Nat} (h : depth < limit) {body : Run Value}
    (hbody : Accounts limit (depth + 1) body) : Accounts limit depth (inCall body) := by
  intro w hw
  obtain ⟨events, ht, hd, hp, hr⟩ := hbody w.enter (by rw [World.enter, hw])
  unfold inCall
  rcases hb : body w.enter with ⟨outcome, w'⟩
  rw [hb] at ht hd hr
  have hd : w'.depth = depth + 1 := hd
  have hlow : DepthPath depth limit (depth + 1) events (depth + 1) := hp.lower (Nat.le_succ depth)
  refine ⟨.entered (depth + 1) :: (events ++ [.left depth]), ?_, ?_, ?_, fun name he => ?_⟩
  · show Event.left (w'.depth - 1) :: w'.trace = _
    rw [ht, hd, World.enter, hw]
    simp
  · show w'.depth - 1 = depth
    omega
  · exact .entered h (hlow.append (.left (Nat.le_refl depth) (.nil depth)))
  · obtain ⟨past, lefts, rfl, hpast, hlefts⟩ := hr name (eq_of_outcomeOfBody_eq_tooDeep he)
    refine ⟨.entered (depth + 1) :: past, lefts ++ [.left depth], by simp, ?_, ?_⟩
    · exact .entered h (hpast.lower (Nat.le_succ depth))
    · intro e hmem
      rcases List.mem_append.1 hmem with hmem | hmem
      · exact hlefts e hmem
      · exact ⟨depth, List.mem_singleton.1 hmem⟩

theorem accounts_callBody {limit depth : Nat} (hlt : depth < limit) {apply : Applier}
    (h : ∀ f args self, Accounts limit (depth + 1) (apply f args self)) (c : Closure)
    (args : List Value) : Accounts limit depth
      (do let scope ← callScope c args
          inCall (evalBody apply c.body scope .null)) := by
  refine accounts_bind (accounts_callScope limit depth c args) fun scope => accounts_inCall hlt ?_
  exact @Congruence.evalBody _ (accounts_congruence limit (depth + 1)) apply apply h c.body scope
    .null

theorem accounts_reserve (limit depth : Nat) : Accounts limit depth (reserve limit) := by
  rintro w rfl
  have noted : DepthPath w.depth limit w.depth [.makingRoom (roomFor limit)] w.depth :=
    .makingRoom _ (.nil w.depth)
  rcases reserve_cases limit w with ⟨-, h⟩ | ⟨-, -, -, h⟩ | ⟨-, -, -, h⟩ <;> rw [h]
  · exact ⟨[], rfl, rfl, .nil w.depth, nofun⟩
  · exact ⟨_, rfl, rfl, noted, nofun⟩
  · exact ⟨_, rfl, rfl, noted, nofun⟩

theorem accounts_callWithin {limit depth : Nat} (hd : depth ≤ limit) {inner : Option Applier}
    (h : depth < limit → ∀ apply ∈ inner, ∀ f args self,
      Accounts limit (depth + 1) (apply f args self))
    (name : String) (c : Closure) (args : List Value) :
    Accounts limit depth (callWithin limit inner name c args) := by
  intro w hw
  rcases Nat.lt_or_eq_of_le hd with hlt | rfl
  · cases inner with
    | none =>
      rw [callWithin_none_of_lt (by omega)]
      exact ⟨[], rfl, hw, .nil depth, nofun⟩
    | some apply =>
      rw [callWithin_of_lt (by omega)]
      exact accounts_bind (accounts_note_calling hlt name args.length)
        (fun _ => accounts_callBody hlt (h hlt apply rfl) c args) w hw
  · rw [callWithin_of_le (by omega)]
    exact ⟨[], rfl, hw, .nil depth, fun _ _ => ⟨[], [], rfl, .nil depth, nofun⟩⟩

theorem accounts_callScript {limit depth : Nat} (hd : depth ≤ limit) {inner : Option Applier}
    (h : depth < limit → ∀ apply ∈ inner, ∀ f args self,
      Accounts limit (depth + 1) (apply f args self))
    (name : String) (c : Closure) (args : List Value) :
    Accounts limit depth (callScript limit inner name c args) :=
  accounts_bind (accounts_reserve limit depth) fun _ => accounts_callWithin hd h name c args

theorem accounts_applyOver {limit depth : Nat} (hd : depth ≤ limit) {inner : Option Applier}
    (host : Host) (h : depth < limit → ∀ apply ∈ inner, ∀ f args self,
      Accounts limit (depth + 1) (apply f args self))
    (f : Value) (args : List Value) (self : Option Value) :
    Accounts limit depth (applyOver host limit inner f args self) := by
  refine accounts_bind (accounts_of_step (m := Run.store) fun _ => ⟨rfl, rfl, nofun⟩) fun s => ?_
  split
  · split
    · split
      · exact accounts_native limit depth host _ _ args
      · exact accounts_callScript hd h _ _ args
    · exact accounts_fail rfl
  · exact accounts_fail rfl

theorem accounts_applier (host : Host) (limit : Nat) : ∀ (budget depth : Nat), depth ≤ limit →
    ∀ f args self, Accounts limit depth (applier host limit budget f args self) := by
  -- one call less in the budget for one level more; where the budget ends, so do the events
  intro budget
  induction budget with
  | zero => exact fun depth hd => accounts_applyOver hd host fun _ _ => nofun
  | succ budget ih =>
    intro depth hd
    refine accounts_applyOver hd host fun hlt apply ha => ?_
    cases ha
    exact ih (depth + 1) hlt

theorem accounts_evaluate {limit depth : Nat} (h : depth ≤ limit) (host : Host) (node : Node)
    (scope : Scope) : Accounts limit depth (evaluate host limit node scope) :=
  @Congruence.eval _ (accounts_congruence limit depth) (call host limit) (call host limit)
    (accounts_applier host limit limit depth h) node scope

/-! ## Refused calls -/

/-- A call that is made notes at least itself, so only a refused one leaves the world as it was. -/
theorem callWithin_refused_iff {limit : Nat} {w : World} (hd : w.depth ≤ limit)
    {inner : Option Applier} (h : ∀ apply ∈ inner, ∀ f args self, w.depth < limit →
      Accounts limit (w.depth + 1) (apply f args self))
    (name : String) (c : Closure) (args : List Value) :
    callWithin limit inner name c args w = (.error (.failed (.tooDeep name)), w) ↔
      w.depth = limit := by
  refine ⟨fun hrefused => ?_, fun he => callWithin_of_le (Nat.le_of_eq he.symm) inner name c args⟩
  by_contra hne
  have hlt : w.depth < limit := Nat.lt_of_le_of_ne hd hne
  cases inner with
  | none =>
    rw [callWithin_none_of_lt hlt] at hrefused
    cases hrefused
  | some apply =>
    rw [callWithin_of_lt hlt] at hrefused
    obtain ⟨events, ht, -⟩ := accounts_callBody hlt (fun f args self => h apply rfl f args self hlt)
      c args { w with trace := .calling name args.length :: w.trace } rfl
    have hsame : w.trace = events.reverse ++ .calling name args.length :: w.trace :=
      (congrArg (fun p => p.2.trace) hrefused).symm.trans ht
    have hlength := congrArg List.length hsame
    simp only [List.length_append, List.length_cons] at hlength
    omega

/-- A refused call has made room, as every call does, and nothing else. -/
theorem callScript_refused_iff {limit : Nat} {w : World} (hd : w.depth ≤ limit)
    {inner : Option Applier} (h : ∀ apply ∈ inner, ∀ f args self, w.depth < limit →
      Accounts limit (w.depth + 1) (apply f args self))
    (name : String) (c : Closure) (args : List Value) :
    callScript limit inner name c args w =
      (.error (.failed (.tooDeep name)), (reserve limit w).2) ↔ w.depth = limit := by
  have hkept : (reserve limit w).2.depth = w.depth := (reserve_kept limit w).2.2
  have hdepth : (reserve limit w).2.depth ≤ limit := hkept.symm ▸ hd
  have hiff := callWithin_refused_iff hdepth (hkept.symm ▸ h) name c args
  rw [hkept] at hiff
  rw [← hiff, callScript, Run.bind_apply]
  rcases hr : reserve limit w with ⟨e | _, w'⟩
  · -- a call without room fails for that cause
    rw [hr] at hiff
    refine ⟨fun hfails => ?_, fun hrefused => ?_⟩
    · rcases reserve_ends limit w with he | he <;> rw [hr] at he <;> cases he
      cases hfails
    · have hok := reserve_of_hasRoom (hasRoom_of_le (Nat.le_of_eq (hiff.1 hrefused).symm))
      rw [hr] at hok
      cases hok
  · exact Iff.rfl

/-- A call of a script function is refused exactly at the limit. -/
theorem applier_refused_iff (host : Host) {limit : Nat} {w : World} (hd : w.depth ≤ limit)
    {a : Address} {c : Closure} (hshape : (w.store.object a).shape = .function c)
    (hnative : c.native = none) (budget : Nat) (args : List Value) (self : Option Value) :
    applier host limit budget (.ref a) args self w =
      (.error (.failed (.tooDeep (nameOrAnonymous (w.store.object a).functionName))),
        (reserve limit w).2) ↔ w.depth = limit := by
  cases budget with
  | zero =>
    rw [applier, applyOver_script hshape hnative]
    exact callScript_refused_iff hd (fun _ ha => absurd ha (Option.not_mem_none _)) _ c args
  | succ budget =>
    rw [applier, applyOver_script hshape hnative]
    refine callScript_refused_iff hd (fun apply ha f args self hlt => ?_) _ c args
    cases ha
    exact accounts_applier host limit budget (w.depth + 1) hlt f args self

end Eval

/-! ## Sessions -/

namespace Builtin

open Eval

theorem steady_note (depth : Nat) (e : Event) : Steady depth (Run.note e) (Run.note e) :=
  steady_of_step fun _ => ⟨nofun, rfl, rfl⟩

theorem steady_declareName (depth : Nat) (scope : Scope) (name : String) (v : Value)
    (constant : Bool) : Steady depth (declareName scope name v constant true)
      (declareName scope name v constant true) := by
  refine steady_of_step fun w => ?_
  rw [declareName_apply]
  cases w.store.mayDeclare scope name <;> exact ⟨nofun, rfl, rfl⟩

theorem steady_declareAll (depth : Nat) (scope : Scope) (constant : Bool)
    (entries : List (String × Value)) :
    Steady depth (declareAll scope constant entries) (declareAll scope constant entries) := by
  induction entries with
  | nil => exact steady_pure ()
  | cons e rest ih =>
    obtain ⟨name, v⟩ := e
    exact steady_bind (steady_declareName depth scope name v constant) fun _ => ih

theorem steady_makeFunctions (depth : Nat) (natives : List (String × Native)) :
    Steady depth (makeFunctions natives) (makeFunctions natives) := by
  induction natives with
  | nil => exact steady_pure []
  | cons e rest ih =>
    refine steady_bind (steady_create _) fun f => ?_
    refine steady_bind ih fun made => ?_
    exact steady_pure _

theorem steady_register (depth : Nat) (scope : Scope) :
    Steady depth (register scope) (register scope) := by
  have hlook : Steady depth Run.store Run.store := steady_of_step fun _ => ⟨nofun, rfl, rfl⟩
  have hdefine (made : List (String × Value)) :
      Steady depth (defineGlobals scope made constants) (defineGlobals scope made constants) := by
    refine steady_bind (steady_declareAll depth scope false made) fun _ => ?_
    exact steady_declareAll depth scope true constants
  refine steady_bind (steady_makeFunctions depth functions) fun made => ?_
  refine steady_bind (hdefine made) fun _ => ?_
  exact steady_bind hlook fun s => steady_note depth _

end Builtin

namespace Session

open Eval Builtin

theorem steady_parse (depth : Nat) (code : String) : Steady depth (parse code) (parse code) := by
  unfold parse
  split
  · exact steady_fail _
  · refine steady_bind (steady_note depth _) fun _ => ?_
    split
    · exact steady_fail _
    · exact steady_bind (steady_note depth _) fun _ => steady_pure _

variable (depth : Nat) (host : Host) (limit : Nat) (session : Session)

theorem steady_load (code : String) :
    Steady depth (session.load host limit code) (session.load host limit code) := by
  refine steady_bind (steady_parse depth code) fun body => ?_
  refine steady_bind (steady_evaluate depth host limit (.program body) session.scope) fun _ => ?_
  exact steady_pure ()

theorem steady_eval (code : String) :
    Steady depth (session.eval host limit code) (session.eval host limit code) := by
  refine steady_bind (steady_parse depth code) fun body => ?_
  refine steady_bind (steady_note depth _) fun _ => ?_
  exact steady_evaluate depth host limit (.program body) session.scope

theorem steady_loadScripts (scripts : List Prelude.Script) :
    Steady depth (session.loadScripts host limit scripts)
      (session.loadScripts host limit scripts) := by
  induction scripts with
  | nil => exact steady_pure ()
  | cons script rest ih =>
    refine steady_bind (steady_note depth _) fun _ => ?_
    split
    · exact steady_bind (steady_load depth host limit session _) fun _ => ih
    · exact steady_fail _

theorem steady_runPrelude (settings : Settings) (files : Files) (prelude : PreludeChoice) :
    Steady depth (runPrelude host settings files prelude session)
      (runPrelude host settings files prelude session) := by
  unfold runPrelude
  split
  · exact steady_pure session
  · split
    · exact steady_pure session
    · exact steady_bind (steady_load depth host _ session _) fun _ => steady_pure session
  · split
    · exact steady_bind (steady_loadScripts depth host _ session _) fun _ => steady_pure session
    · exact steady_bind (steady_note depth _) fun _ => steady_pure session

theorem steady_start (settings : Settings) (files : Files) (prelude : PreludeChoice) :
    Steady depth (start host settings files prelude) (start host settings files prelude) := by
  rw [start_eq]
  have hglobal : Steady depth globalScope globalScope := by
    refine steady_bind (steady_create _) fun scope => ?_
    refine steady_bind (steady_register depth scope) fun _ => ?_
    exact steady_pure scope
  refine steady_bind hglobal fun scope => ?_
  exact steady_runPrelude depth host ⟨scope⟩ settings files prelude

/-- Between scripts no call is in progress. -/
theorem History.depth_eq_zero {host : Host} {sessions : List Session} {w : World}
    (h : History host sessions w) : w.depth = 0 := by
  induction h with
  | initial => rfl
  | start settings files prelude _ ih =>
    exact (steady_start 0 host settings files prelude _ ih).2.2.1
  | load limit code _ _ ih => exact (steady_load 0 host limit _ code _ ih).2.2.1
  | eval limit code _ _ ih => exact (steady_eval 0 host limit _ code _ ih).2.2.1

/-- From a depth within the limit, at every point of a run the depth is between these two and counts
the bodies in progress, calls are made below the limit, a run that ends in a refused call was at the
limit, and however it ends its depth is the one it started with.  A call is refused exactly at the
limit, and has then done nothing but make room.  Between scripts the depth is zero. -/
theorem depth_counts_bodies_in_progress (host : Host) (limit : Nat) :
    (∀ (node : Node) (scope : Scope) (w : World), w.depth ≤ limit →
      ∃ events, (evaluate host limit node scope w).2.trace = events.reverse ++ w.trace ∧
        (∀ past, past <+: events →
          depthAfter w.depth past + ended past = w.depth + begun past ∧
          w.depth ≤ depthAfter w.depth past ∧ depthAfter w.depth past ≤ limit) ∧
        (∀ past name arguments, past ++ [.calling name arguments] <+: events →
          depthAfter w.depth past < limit) ∧
        (∀ name, (evaluate host limit node scope w).1 = .error (.failed (.tooDeep name)) →
          ∃ past lefts, events = past ++ lefts ∧ depthAfter w.depth past = limit ∧
            ∀ e ∈ lefts, ∃ k, e = .left k) ∧
        (evaluate host limit node scope w).2.depth = w.depth) ∧
    (∀ (w : World) (a : Address) (c : Closure), w.depth ≤ limit →
      (w.store.object a).shape = .function c → c.native = none → ∀ budget args self,
        (applier host limit budget (.ref a) args self w =
          (.error (.failed (.tooDeep (nameOrAnonymous (w.store.object a).functionName))),
            (reserve limit w).2) ↔ w.depth = limit)) ∧
    ∀ (sessions : List Session) (w : World), History host sessions w → w.depth = 0 := by
  refine ⟨fun node scope w hd => ?_, fun w a c hd hshape hnative budget args self => ?_,
    fun sessions w h => h.depth_eq_zero⟩
  · obtain ⟨events, ht, hdepth, hpath, hrefused⟩ := accounts_evaluate hd host node scope w rfl
    refine ⟨events, ht, fun past hpast => ?_, fun past name arguments hpast => ?_,
      fun name he => ?_, hdepth⟩
    · obtain ⟨rest, rfl⟩ := hpast
      obtain ⟨k, hk, -⟩ := hpath.split
      rw [hk.depthAfter_eq]
      exact ⟨hk.balance, hk.bounds (Nat.le_refl _) hd⟩
    · obtain ⟨rest, rfl⟩ := hpast
      rw [List.append_assoc] at hpath
      obtain ⟨k, hk, hcall⟩ := hpath.split
      rw [hk.depthAfter_eq]
      cases hcall with
      | calling _ _ hlt _ => exact hlt
    · obtain ⟨past, lefts, he, hpast, hlefts⟩ := hrefused name he
      exact ⟨past, lefts, he, hpast.depthAfter_eq, hlefts⟩
  · exact applier_refused_iff host hd hshape hnative budget args self

/-- A function that calls itself without end. -/
def endlessCall : World where
  store :=
    { frames := #[⟨⟨[("f", ⟨.ref 3, false⟩)]⟩, []⟩]
      objects := Store.initial.objects.push ⟨.function ⟨[], [.call (.ident "f") []], some ⟨0, []⟩,
        none⟩, Store.baseProperties.insertAll (Store.functionProperties ++ [("name", .str "f")])⟩ }
  output := ""
  depth := 0
  trace := []
  room := 1000

/-- Under a limit of two the third call is refused, and the depth is zero again. -/
theorem depth_counts_bodies_in_progress_endless :
    (evaluate silent 2 (.call (.ident "f") []) ⟨0, []⟩ endlessCall).1 =
        .error (.failed (.tooDeep "f")) ∧
      (∃ past lefts, (evaluate silent 2 (.call (.ident "f") []) ⟨0, []⟩ endlessCall).2.trace =
          (past ++ lefts).reverse ∧ depthAfter 0 past = 2 ∧ ∀ e ∈ lefts, ∃ k, e = .left k) ∧
      (evaluate silent 2 (.call (.ident "f") []) ⟨0, []⟩ endlessCall).2.depth = 0 ∧
      applier silent 2 5 (.ref 3) [] none { endlessCall with depth := 2 } =
        (.error (.failed (.tooDeep "f")), { endlessCall with depth := 2 }) ∧
      (firstWorld silent).depth = 0 := by
  obtain ⟨hruns, hcalls, hsessions⟩ := depth_counts_bodies_in_progress silent 2
  have hfails : (evaluate silent 2 (.call (.ident "f") []) ⟨0, []⟩ endlessCall).1 =
      .error (.failed (.tooDeep "f")) := by decide +kernel
  obtain ⟨events, ht, -, -, hrefused, hdepth⟩ := hruns (.call (.ident "f") []) ⟨0, []⟩ endlessCall
    (by decide)
  obtain ⟨past, lefts, rfl, hlimit, hlefts⟩ := hrefused "f" hfails
  refine ⟨hfails, ⟨past, lefts, ?_, hlimit, hlefts⟩, hdepth, ?_,
    hsessions _ _ (History.first silent)⟩
  · rw [ht]
    exact List.append_nil _
  · exact (hcalls { endlessCall with depth := 2 } 3 _ (by decide) rfl rfl 5 [] none).2 rfl

end Session

end Guion
