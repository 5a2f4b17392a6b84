import Guion.Proofs.Embedding
import Guion.Proofs.Encapsulation
import Guion.Proofs.WellFormed
import Guion.Proofs.Depth

/-!
# Sessions that share a process

A process runs the scripts of several sessions in one world, in any order.  What the sessions have
in common are the shared methods, values like others with properties that every script can write,
and the recursion limit of the host, which calls raise.  As long as the turns of the others leave
the shared methods as they are, and find no reference there to anything that a session has made, the
session answers as it does alone.  Its turns begin under a recursion limit that is at least as high,
and the same one if the turns of the others leave it as it is.

    (initial room).Unshared setup b turns →
      (initial room).answers setup b turns =
        (initial room).answers setup b (turns.filter (·.session = b))    (answers_eq_alone)

The proof keeps the store of the session alone inside the store of the process.  A turn of another
session changes what its scope reaches, which nothing of the inner store is; a turn of the session
itself is done in both stores at once.
-/

namespace Guion

/-! ## Processes -/

/-- What stays the same throughout a process. -/
structure Setup where
  host : Host
  settings : Settings
  files : Files

/-- What is asked of a session. -/
inductive Request where
  | start (prelude : PreludeChoice)
  | eval (code : String)
deriving DecidableEq, Repr

/-- A session, by its number, and what is asked of it. -/
structure Turn where
  session : Nat
  request : Request
deriving DecidableEq, Repr

/-- What a request ended with.  A value is known by its text, which may itself fail. -/
inductive Reply where
  | value (text : Except Failure String)
  | failure (cause : Failure)
  | nothing
deriving DecidableEq

def Reply.of {α : Type} (reply : α → Reply) : Except Exit α → Reply
  | .ok a => reply a
  | .error (.failed cause) => .failure cause
  | .error _ => .nothing

structure Answer where
  reply : Reply
  printed : String
deriving DecidableEq

/-- A world and the sessions that have started in it. -/
structure Process where
  world : World
  sessions : Nat → Option Session

namespace Process

/-- No session has started yet; the host has some recursion limit. -/
def initial (room : Int) : Process := ⟨.initial room, fun _ => none⟩

/-- What was printed since an earlier world. -/
def printed (before after : World) : String :=
  String.ofList (after.output.toList.drop before.output.toList.length)

/-- The sessions after one has started, or has failed to start. -/
def enlist (p : Process) (c : Nat) : Except Exit Session → Nat → Option Session
  | .ok session => Function.update p.sessions c (some session)
  | .error _ => p.sessions

def afterStart (p : Process) (c : Nat) (ended : Except Exit Session × World) : Answer × Process :=
  (⟨.of (fun _ => .nothing) ended.1, printed p.world ended.2⟩, ⟨ended.2, p.enlist c ended.1⟩)

def afterEval (p : Process) (ended : Except Exit Value × World) : Answer × Process :=
  (⟨.of (fun v => .value (ended.2.store.display v)) ended.1, printed p.world ended.2⟩,
    ⟨ended.2, p.sessions⟩)

/-- One turn.  Nothing can be asked of a session that has not started. -/
def handle (setup : Setup) (p : Process) (turn : Turn) : Answer × Process :=
  match turn.request with
  | .start prelude =>
    p.afterStart turn.session
      (Session.start setup.host setup.settings setup.files prelude p.world)
  | .eval code =>
    match p.sessions turn.session with
    | none => (⟨.nothing, ""⟩, p)
    | some session =>
      p.afterEval (session.eval setup.host setup.settings.depthLimit code p.world)

/-- What a session answers at its turns. -/
def answers (setup : Setup) (b : Nat) (p : Process) : List Turn → List Answer
  | [] => []
  | turn :: turns =>
    let (answer, next) := p.handle setup turn
    if turn.session = b then answer :: answers setup b next turns else answers setup b next turns

/-- The recursion limits under which the turns of a session begin. -/
def rooms (setup : Setup) (b : Nat) (p : Process) : List Turn → List Int
  | [] => []
  | turn :: turns =>
    let next := (p.handle setup turn).2
    if turn.session = b then p.world.room :: rooms setup b next turns
    else rooms setup b next turns

end Process

/-! ## What the sessions share -/

instance (knows : Address → Prop) [DecidablePred knows] : DecidablePred (Value.Known knows)
  | .ref a => inferInstanceAs (Decidable (knows a))
  | .null | .bool _ | .num _ | .str _ => .isTrue trivial

namespace Store

/-- The properties of the shared methods refer to nothing but these methods. -/
def SharedOnly (s : Store) : Prop :=
  ∀ a ∈ sharedAddresses, ∀ e ∈ (s.object a).properties.entries, e.2.Known (· ∈ sharedAddresses)

/-- The shared methods are the same in both stores. -/
def SameShared (s s' : Store) : Prop := ∀ a ∈ sharedAddresses, s'.object a = s.object a

instance (s : Store) : Decidable s.SharedOnly :=
  inferInstanceAs (Decidable (∀ a ∈ sharedAddresses, ∀ e ∈ (s.object a).properties.entries, _))

instance (s s' : Store) : Decidable (s.SameShared s') :=
  inferInstanceAs (Decidable (∀ a ∈ sharedAddresses, _))

end Store

/-- The turns of other sessions find no reference in the shared methods but to these, and leave the
shared methods as they are. -/
def Process.Unshared (setup : Setup) (b : Nat) (p : Process) : List Turn → Prop
  | [] => True
  | turn :: turns =>
    (turn.session ≠ b → p.world.store.SharedOnly ∧
      p.world.store.SameShared (p.handle setup turn).2.world.store) ∧
    Unshared setup b (p.handle setup turn).2 turns

instance Process.decidableUnshared (setup : Setup) (b : Nat) :
    ∀ (p : Process) (turns : List Turn), Decidable (p.Unshared setup b turns)
  | _, [] => .isTrue trivial
  | p, turn :: turns =>
    have := decidableUnshared setup b (p.handle setup turn).2 turns
    inferInstanceAs (Decidable (_ ∧ _))

/-- The turns of other sessions leave the recursion limit as it is. -/
def Process.Level (setup : Setup) (b : Nat) (p : Process) : List Turn → Prop
  | [] => True
  | turn :: turns =>
    (turn.session ≠ b → (p.handle setup turn).2.world.room = p.world.room) ∧
    Level setup b (p.handle setup turn).2 turns

instance Process.decidableLevel (setup : Setup) (b : Nat) :
    ∀ (p : Process) (turns : List Turn), Decidable (p.Level setup b turns)
  | _, [] => .isTrue trivial
  | p, turn :: turns =>
    have := decidableLevel setup b (p.handle setup turn).2 turns
    inferInstanceAs (Decidable (_ ∧ _))

/-! ## Steps between places -/

namespace Store

variable {s s' : Store} {x y : Place}

theorem WellFormed.has_of_leads {around : FrameId → List FrameId} (h : s.WellFormed around)
    (hxy : s.Leads x y) : s.Has y := by
  cases hxy with
  | @binding f name b a hb hv =>
    have hknown := (h.tidy.frames f).values _ (Table.mem_of_find? hb)
    rwa [hv] at hknown
  | @property a c e he hv =>
    have hknown := (h.tidy.objects a).values e he
    rwa [hv] at hknown
  | closure hc hf => exact h.closures _ _ hc _ hf

/-- From the shared methods no step leads elsewhere: they are natives, with no scope. -/
theorem SharedOnly.leads (h : s.SharedOnly)
    (hmethods : ∀ a ∈ sharedAddresses, (s.object a).shape = (initial.object a).shape) {a : Address}
    (ha : a ∈ sharedAddresses) (hy : s.Leads (.object a) y) :
    ∃ c ∈ sharedAddresses, y = .object c := by
  cases hy with
  | @property _ c e he hv =>
    have hknown := h a ha e he
    rw [hv] at hknown
    exact ⟨c, hknown, rfl⟩
  | closure hc hf =>
    rw [hmethods a ha] at hc
    obtain ⟨native, -, rfl⟩ := exists_of_function_initial hc
    cases hf

end Store

/-! ## Places of the inner store -/

namespace Track

def Covers (t : Track) : Place → Prop
  | .frame f => f ∈ t.2.list
  | .object a => a ∈ t.1.list

/-- The covered places without the shared methods. -/
def Owns (t : Track) (x : Place) : Prop :=
  t.Covers x ∧ ∀ a ∈ Store.sharedAddresses, x ≠ .object a

/-- The same places in a store that has more of them. -/
def around (t : Track) (s : Store) : Track :=
  (⟨t.1.list, s.objects.size⟩, ⟨t.2.list, s.frames.size⟩)

theorem covers_around (t : Track) (s : Store) (x : Place) : (t.around s).Covers x ↔ t.Covers x := by
  cases x <;> rfl

theorem owns_around (t : Track) (s : Store) (x : Place) : (t.around s).Owns x ↔ t.Owns x :=
  and_congr_left' (t.covers_around s x)

end Track

namespace Store.Embeds

variable {t k : Track} {s s' q q' : Store} {x : Place}

theorem has_of_covers (h : s.Embeds t s') (hx : t.Covers x) : s'.Has x := by
  cases x with
  | frame f => exact Nat.lt_of_lt_of_eq (h.frames.lt f hx) h.frames.size
  | object a => exact Nat.lt_of_lt_of_eq (h.objects.lt a hx) h.objects.size

/-- Where both stores have grown, what is covered was covered or is new. -/
theorem covers_iff (h : s.Embeds t s') (hq : q.Embeds k q') (hk : t ≤ k) (x : Place) :
    Track.Covers k x ↔ Track.Covers t x ∨ (¬ s'.Has x ∧ q'.Has x) := by
  cases x with
  | frame f =>
    refine (Places.mem_list_of_le hk.2).trans (or_congr_right (and_congr ?_ ?_))
    · exact h.frames.size ▸ Nat.not_lt.symm
    · exact hq.frames.size ▸ Iff.rfl
  | object a =>
    refine (Places.mem_list_of_le hk.1).trans (or_congr_right (and_congr ?_ ?_))
    · exact h.objects.size ▸ Nat.not_lt.symm
    · exact hq.objects.size ▸ Iff.rfl

/-- A scope with no frame of the inner store does not reach what that store owns, unless by way of
the shared methods. -/
theorem not_owns_of_territory (h : s.Embeds t s')
    (hleads : ∀ x y, s'.Leads x y → t.Owns y → t.Covers x) (hshared : s'.SharedOnly) {scope : Scope}
    (hscope : ∀ f ∈ scope.chain, f ∉ t.2.list) (hx : s'.Territory scope.Starts x) : ¬ t.Owns x := by
  rcases hx with hreach | hnew
  · induction hreach with
    | given hstart =>
      cases hstart with
      | frame hf => exact fun hown => hscope _ hf hown.1
      | shared ha => exact fun hown => hown.2 _ ha rfl
    | @step x y _ hxy ih =>
      intro hown
      refine ih ⟨hleads x y hxy hown, fun a ha hxa => ?_⟩
      obtain ⟨c, hc, hyc⟩ := hshared.leads h.methods ha (hxa ▸ hxy)
      exact hown.2 c hc hyc
  · exact fun hown => hnew (h.has_of_covers hown.1)

end Store.Embeds

/-! ## Turns -/

theorem Reply.of_eq {host : Host} {I : Type} [Preorder I] {sim : Eval.Simulation host I} {i : I}
    {α : Type} {Q : I → α → α → Prop} {outcome outcome' : Except Exit α}
    (h : sim.Ends i Q outcome outcome') {reply reply' : α → Reply}
    (hreply : ∀ a a', Q i a a' → reply' a' = reply a) : of reply' outcome' = of reply outcome := by
  cases h with
  | ok ha => exact hreply _ _ ha
  | returned hv => rfl
  | failed cause => rfl
  | exhausted => rfl

namespace Process

theorem printed_eq {before after : World} {text : String}
    (h : after.output = before.output ++ text) : printed before after = text := by
  rw [printed, h, String.toList_append, List.drop_left, String.ofList_toList]

section

variable (setup : Setup) (p : Process) (c : Nat)

theorem handle_start (prelude : PreludeChoice) : p.handle setup ⟨c, .start prelude⟩ =
    p.afterStart c (Session.start setup.host setup.settings setup.files prelude p.world) := rfl

variable {p c}

theorem handle_eval_none (code : String) (h : p.sessions c = none) :
    p.handle setup ⟨c, .eval code⟩ = (⟨.nothing, ""⟩, p) := by
  simp only [handle, h]

theorem handle_eval_some (code : String) {session : Session} (h : p.sessions c = some session) :
    p.handle setup ⟨c, .eval code⟩ =
      p.afterEval (session.eval setup.host setup.settings.depthLimit code p.world) := by
  simp only [handle, h]

end

theorem answers_cons (setup : Setup) (b : Nat) (p : Process) (turn : Turn) (turns : List Turn) :
    p.answers setup b (turn :: turns) =
      if turn.session = b then
        (p.handle setup turn).1 :: (p.handle setup turn).2.answers setup b turns
      else (p.handle setup turn).2.answers setup b turns := rfl

theorem rooms_cons (setup : Setup) (b : Nat) (p : Process) (turn : Turn) (turns : List Turn) :
    p.rooms setup b (turn :: turns) =
      if turn.session = b then p.world.room :: (p.handle setup turn).2.rooms setup b turns
      else (p.handle setup turn).2.rooms setup b turns := rfl

/-- A turn lowers no recursion limit. -/
theorem handle_roomLe (setup : Setup) (p : Process) (turn : Turn) :
    p.world.RoomLe (p.handle setup turn).2.world := by
  obtain ⟨c, prelude | code⟩ := turn
  · exact (Session.steady_start p.world.depth setup.host setup.settings setup.files prelude
      p.world rfl).2.2.2
  · cases hs : p.sessions c with
    | none =>
      rw [handle_eval_none setup code hs]
      exact .refl _
    | some session =>
      rw [handle_eval_some setup code hs]
      exact (Session.steady_eval p.world.depth setup.host setup.settings.depthLimit session code
        p.world rfl).2.2.2

theorem enlist_of_ne (p : Process) {b c : Nat} (h : b ≠ c) (outcome : Except Exit Session) :
    p.enlist c outcome b = p.sessions b := by
  cases outcome with
  | ok session => exact Function.update_of_ne h _ _
  | error e => rfl

theorem enlist_cases {p : Process} {b c : Nat} {outcome : Except Exit Session} {session : Session}
    (h : p.enlist c outcome b = some session) :
    outcome = .ok session ∨ p.sessions b = some session := by
  by_cases hb : b = c
  · subst hb
    cases outcome with
    | ok made =>
      rw [enlist, Function.update_self] at h
      exact .inl (congrArg _ (Option.some.inj h))
    | error e => exact .inr h
  · rw [enlist_of_ne p hb] at h
    exact .inr h

/-! ### Worlds that processes lead to -/

def Reached (host : Host) (p : Process) : Prop :=
  ∃ sessions, Session.History host sessions p.world ∧
    ∀ c session, p.sessions c = some session → session ∈ sessions

theorem reached_initial (host : Host) (room : Int) : (initial room).Reached host :=
  ⟨[], .initial room, nofun⟩

namespace Reached

variable {host : Host} {p : Process} (h : p.Reached host)
include h

theorem depth_eq_zero : p.world.depth = 0 := by
  obtain ⟨sessions, hist, -⟩ := h
  exact hist.depth_eq_zero

theorem wellFormed : ∃ around, p.world.store.WellFormed around ∧
    ∀ c session, p.sessions c = some session → session.scope.Within p.world.store around := by
  obtain ⟨sessions, hist, hsessions⟩ := h
  obtain ⟨around, hnested, hwithin⟩ := hist.nested
  exact ⟨around, hist.tidy.wellFormed hnested,
    fun c session hs => hwithin session (hsessions c session hs)⟩

theorem own : p.world.store.Admits (Native.isOwn · = true) := by
  obtain ⟨around, hstore, -⟩ := h.wellFormed
  exact hstore.tidy.own

/-- The frames of a session exist. -/
theorem has_frame {c : Nat} {session : Session} (hs : p.sessions c = some session) {f : FrameId}
    (hf : f ∈ session.scope.chain) : p.world.store.Has (.frame f) := by
  obtain ⟨around, hstore, hwithin⟩ := h.wellFormed
  exact hstore.nested.lt_of_mem_chain (hwithin c session hs) hf

end Reached

theorem reached_handle {setup : Setup} {p : Process} (h : p.Reached setup.host) (turn : Turn) :
    (p.handle setup turn).2.Reached setup.host := by
  obtain ⟨sessions, hist, hsessions⟩ := h
  obtain ⟨c, prelude | code⟩ := turn
  · have hend := hist.start setup.settings setup.files prelude
    rw [handle_start]
    generalize Session.start setup.host setup.settings setup.files prelude p.world = ended at hend ⊢
    refine ⟨_, hend, fun d session hs => ?_⟩
    rcases enlist_cases hs with hmade | hold
    · rw [hmade]
      exact List.mem_cons_self
    · exact List.mem_append_right _ (hsessions d session hold)
  · cases hs : p.sessions c with
    | none =>
      rw [handle_eval_none setup code hs]
      exact ⟨sessions, hist, hsessions⟩
    | some session =>
      have hend := hist.eval setup.settings.depthLimit code (hsessions c session hs)
      rw [handle_eval_some setup code hs]
      exact ⟨sessions, hend, hsessions⟩

/-! ### The session alone and in company -/

/-- Sessions whose frames correspond. -/
def SessionsMatch (t : Track) : Option Session → Option Session → Prop :=
  Option.Rel fun session session' =>
    List.Forall₂ t.2.Pairs session.scope.chain session'.scope.chain

theorem SessionsMatch.cases {t : Track} {made made' : Option Session}
    (h : SessionsMatch t made made') : (made = none ∧ made' = none) ∨
      ∃ session session', made = some session ∧ made' = some session' ∧
        List.Forall₂ t.2.Pairs session.scope.chain session'.scope.chain := by
  cases h with
  | none => exact .inl ⟨rfl, rfl⟩
  | some hs => exact .inr ⟨_, _, rfl, rfl, hs⟩

theorem SessionsMatch.mono {t k : Track} (hk : t ≤ k) {made made' : Option Session}
    (h : SessionsMatch t made made') : SessionsMatch k made made' := by
  cases h with
  | none => exact .none
  | some hs => exact .some (hs.imp fun _ _ hf => hf.mono hk.2)

/-- The first process, which has one session only, stands inside the second one.  Nothing leads from
the rest of the second process to what the first one owns. -/
structure Apart (host : Host) (b : Nat) (t : Track) (p p' : Process) : Prop where
  alone : p.Reached host
  company : p'.Reached host
  store : p.world.store.Embeds t p'.world.store
  room : p.world.RoomLe p'.world
  session : SessionsMatch t (p.sessions b) (p'.sessions b)
  leads : ∀ x y, p'.world.store.Leads x y → t.Owns y → t.Covers x
  others {c : Nat} {session : Session} : c ≠ b → p'.sessions c = some session →
    ∀ f ∈ session.scope.chain, f ∉ t.2.list

theorem apart_initial (host : Host) (b : Nat) (room : Int) :
    Apart host b (.whole 3, .whole 0) (initial room) (initial room) where
  alone := reached_initial host room
  company := reached_initial host room
  room := .refl _
  store :=
    { objects := Places.spans_whole 3
      frames := Places.spans_whole 0
      shared := fun a ha => Places.pairs_whole.2 ⟨rfl, Store.tidy_initial.shared a ha⟩
      methods := fun _ _ => rfl
      object := by
        intro a a' ha
        obtain ⟨rfl, hlt⟩ := Places.pairs_whole.1 ha
        refine ⟨?_, entriesMatch_self fun e he => ?_⟩
        · match a' with
          | 0 | 1 | 2 => exact .function ⟨rfl, rfl, rfl, .nil⟩
          | _ + 3 => exact .object
        · exact ((Store.tidy_initial.objects a').values e he).mono fun c hc =>
            Places.pairs_whole.2 ⟨rfl, hc⟩
      vars := fun hf => absurd (Places.pairs_whole.1 hf).2 (Nat.not_lt_zero _)
      own := Store.tidy_initial.own }
  session := .none
  leads := by
    rintro x y hxy -
    have hx := hxy.has
    cases x with
    | frame f => exact absurd hx (Nat.not_lt_zero f)
    | object a => exact List.mem_range.2 hx
  others _ := nofun

namespace Apart

variable {host : Host} {b : Nat} {t : Track} {p p' : Process} (h : Apart host b t p p')
include h

/-- The other sessions run beside what the session owns. -/
theorem beside (hshared : p'.world.store.SharedOnly) {scope : Scope}
    (hscope : ∀ f ∈ scope.chain, f ∉ t.2.list) {q : Process} (hq : q.Reached host)
    (hrun : q.world.store.Confined (p'.world.store.Territory scope.Starts) (Native.isOwn · = true)
      p'.world.store)
    (hsame : p'.world.store.SameShared q.world.store) (hroom : p'.world.RoomLe q.world)
    (hown : q.sessions b = p'.sessions b)
    (hothers : ∀ c session, q.sessions c = some session → p'.sessions c = some session ∨
      ∀ f ∈ session.scope.chain, p'.world.store.Territory scope.Starts (.frame f)) :
    Apart host b (t.around q.world.store) p q := by
  have apart {x : Place} (hx : p'.world.store.Territory scope.Starts x) : ¬ t.Owns x :=
    h.store.not_owns_of_territory h.leads hshared hscope hx
  have same {x : Place} (hx : t.Covers x) : p'.world.store.SameAt q.world.store x := by
    by_cases hmethod : ∀ a ∈ Store.sharedAddresses, x ≠ .object a
    · exact hrun.outside fun hterritory => apart hterritory ⟨hx, hmethod⟩
    · push Not at hmethod
      obtain ⟨a, ha, rfl⟩ := hmethod
      exact hsame a ha
  have store : p.world.store.Embeds (t.around q.world.store) q.world.store :=
    { objects := h.store.objects.grow hrun.objects_size
      frames := h.store.frames.grow hrun.frames_size
      shared := h.store.shared
      methods := fun a ha => (congrArg Object.shape (hsame a ha)).trans (h.store.methods a ha)
      object := by
        intro a a' ha
        have hobject : q.world.store.object a' = p'.world.store.object a' :=
          same (x := .object a') ha.mem
        rw [hobject]
        exact h.store.object ha
      vars := by
        intro f f' hf
        have hframe : q.world.store.frame f' = p'.world.store.frame f' :=
          same (x := .frame f') hf.mem
        rw [hframe]
        exact h.store.vars hf
      own := h.store.own }
  refine ⟨h.alone, hq, store, h.room.trans hroom, hown ▸ h.session, fun x y hxy hy => ?_, ?_⟩
  · rw [t.owns_around] at hy
    rw [t.covers_around]
    by_cases hx : p'.world.store.Territory scope.Starts x
    · exact absurd hy (apart (hrun.closed.leads hx hxy))
    · exact h.leads x y (hxy.of_sameAt (hrun.outside hx)) hy
  · intro c session hc hs f hf hmem
    rcases hothers c session hs with hold | hnew
    · exact h.others hc hold f hf hmem
    · exact apart (hnew f hf) ⟨hmem, fun _ _ => nofun⟩

/-- The session's own runs are in step in both processes. -/
theorem within {q q' : Process} (hq : q.Reached host) (hq' : q'.Reached host) {k : Track}
    {level : Prop} (hk : t ≤ k)
    (hworlds : q.world.Embeds p'.world.store p.world.output p'.world.output level k q'.world)
    (hsession : SessionsMatch k (q.sessions b) (q'.sessions b))
    (hothers : ∀ c, c ≠ b → q'.sessions c = p'.sessions c) : Apart host b k q q' := by
  have covers (x : Place) : Track.Covers k x ↔
      Track.Covers t x ∨ (¬ p'.world.store.Has x ∧ q'.world.store.Has x) :=
    h.store.covers_iff hworlds.store hk x
  refine ⟨hq, hq', hworlds.store, hworlds.room, hsession, fun x y hxy hy => ?_, ?_⟩
  · by_contra hx
    have hhas : p'.world.store.Has x := by
      by_contra hnew
      exact hx ((covers x).2 (.inr ⟨hnew, hxy.has⟩))
    have hsame : p'.world.store.SameAt q'.world.store x := by
      cases x with
      | frame f => exact hworlds.rest.frame hhas hx
      | object a => exact hworlds.rest.object hhas hx
    -- the step was there before, so it leads to nothing new
    have hold := hxy.of_sameAt hsame
    obtain ⟨around, hstore, -⟩ := h.company.wellFormed
    have hcovered : Track.Covers t y :=
      ((covers y).1 hy.1).resolve_right fun hnew => hnew.1 (hstore.has_of_leads hold)
    exact hx ((covers x).2 (.inl (h.leads x y hold ⟨hcovered, hy.2⟩)))
  · intro c session hc hs f hf hmem
    rw [hothers c hc] at hs
    rcases (covers (.frame f)).1 hmem with hold | hnew
    · exact h.others hc hs f hf hold
    · exact hnew.1 (h.company.has_frame hs hf)

/-- From here the runs of the session are in step. -/
theorem worlds : p.world.Embeds p'.world.store p.world.output p'.world.output
    (p'.world.room = p.world.room) t p'.world where
  store := h.store
  rest := ⟨h.store.objects.size.ge, h.store.frames.size.ge, fun _ _ => rfl, fun _ _ => rfl⟩
  depth := h.company.depth_eq_zero.trans h.alone.depth_eq_zero.symm
  room := h.room
  level := id
  output := ⟨"", String.append_empty.symm, String.append_empty.symm⟩

end Apart

theorem printed_eq_of_embeds {base : Store} {p p' q q' : World} {level : Prop} {k : Track}
    (h : q.Embeds base p.output p'.output level k q') : printed p' q' = printed p q := by
  obtain ⟨text, hout, hout'⟩ := h.output
  rw [printed_eq hout, printed_eq hout']

theorem sessionsMatch_enlist {host : Host} {base : Store} {out out' : String} {level : Prop}
    {b : Nat} {t k : Track} {p p' : Process}
    (h : SessionsMatch t (p.sessions b) (p'.sessions b)) (hk : t ≤ k)
    {outcome outcome' : Except Exit Session}
    (hends : (Eval.embedding host base out out' level).Ends k
      (fun j made made' => List.Forall₂ j.2.Pairs made.scope.chain made'.scope.chain)
      outcome outcome') :
    SessionsMatch k (p.enlist b outcome b) (p'.enlist b outcome' b) := by
  have hold := h.mono hk
  cases hends with
  | ok hs =>
    rw [enlist, enlist, Function.update_self, Function.update_self]
    exact .some hs
  | returned hv => exact hold
  | failed cause => exact hold
  | exhausted => exact hold

variable {setup : Setup} {b : Nat} {t : Track} {p p' : Process}

/-- A turn of another session. -/
theorem Apart.other (h : Apart setup.host b t p p') {turn : Turn} (hne : turn.session ≠ b)
    (hshared : p'.world.store.SharedOnly)
    (hsame : p'.world.store.SameShared (p'.handle setup turn).2.world.store) :
    ∃ t', Apart setup.host b t' p (p'.handle setup turn).2 := by
  have hq := reached_handle h.company turn
  have hroom := handle_roomLe setup p' turn
  have hcontained := setup.host.contained_isOwn
  obtain ⟨c, prelude | code⟩ := turn
  · -- a session starts in a scope that does not exist yet
    have hscope : ∀ f ∈ (⟨p'.world.store.frames.size, []⟩ : Scope).chain, f ∉ t.2.list := by
      intro f hf hmem
      rw [List.mem_singleton.1 hf] at hmem
      exact Nat.lt_irrefl _ (h.store.has_of_covers (x := .frame _) hmem)
    have hfounds := Eval.confinement_founds hcontained (fun _ hown => hown) p'.world.store
      ⟨p'.world.store.frames.size, []⟩
    obtain ⟨_, -, hrun, hends⟩ := Session.keeps_start hfounds setup.settings setup.files prelude .mk
      p'.world le_rfl (Store.confined_self h.company.own _)
    rw [handle_start] at hq hsame hroom ⊢
    generalize Session.start setup.host setup.settings setup.files prelude p'.world = ended
      at hq hsame hrun hends hroom ⊢
    refine ⟨_, h.beside hshared hscope hq hrun hsame hroom (enlist_of_ne p' hne.symm _) ?_⟩
    intro d session hs
    rcases enlist_cases hs with hmade | hold
    · rw [hmade] at hends
      exact .inr hends
    · exact .inl hold
  · cases hs : p'.sessions c with
    | none =>
      rw [handle_eval_none setup code hs]
      exact ⟨t, h⟩
    | some session =>
      have hcovers : (Eval.confinement hcontained p'.world.store session.scope).Covers .mk
          session.scope.chain := fun f hf => .inl (.given (.frame hf))
      obtain ⟨_, -, hrun, -⟩ := Session.keeps_eval hcovers setup.settings.depthLimit code .mk
        p'.world le_rfl (Store.confined_self h.company.own _)
      rw [handle_eval_some setup code hs] at hq hsame hroom ⊢
      exact ⟨_, h.beside hshared (h.others hne hs) hq hrun hsame hroom rfl fun _ _ hs => .inl hs⟩

/-- A turn of the session itself. -/
theorem Apart.own (h : Apart setup.host b t p p') {turn : Turn} (heq : turn.session = b) :
    ∃ t', Apart setup.host b t' (p.handle setup turn).2 (p'.handle setup turn).2 ∧
      (p'.handle setup turn).1 = (p.handle setup turn).1 ∧
      (p'.world.room = p.world.room →
        (p'.handle setup turn).2.world.room = (p.handle setup turn).2.world.room) := by
  have hq := reached_handle h.alone turn
  have hq' := reached_handle h.company turn
  have hfounds := Eval.embedding_founds setup.host p'.world.store p.world.output p'.world.output
    (p'.world.room = p.world.room)
  obtain ⟨c, prelude | code⟩ := turn
  · obtain rfl : c = b := heq
    obtain ⟨k, hk, hworlds, hends⟩ := Session.simulates_start hfounds setup.settings setup.files
      prelude t p.world p'.world le_rfl h.worlds
    rw [handle_start] at hq hq' ⊢
    rw [handle_start]
    generalize Session.start setup.host setup.settings setup.files prelude p.world = ended
      at hq hworlds hends ⊢
    generalize Session.start setup.host setup.settings setup.files prelude p'.world = ended'
      at hq' hworlds hends ⊢
    refine ⟨k, h.within hq hq' hk hworlds (sessionsMatch_enlist h.session hk hends)
      fun d hd => enlist_of_ne p' hd _, ?_, hworlds.level⟩
    exact congrArg₂ Answer.mk (Reply.of_eq hends fun _ _ _ => rfl) (printed_eq_of_embeds hworlds)
  · obtain rfl : c = b := heq
    rcases h.session.cases with ⟨hs, hs'⟩ | ⟨session, session', hs, hs', hchains⟩
    · rw [handle_eval_none setup code hs, handle_eval_none setup code hs']
      exact ⟨t, h, rfl, id⟩
    · obtain ⟨k, hk, hworlds, hends⟩ := Session.simulates_eval hfounds hchains
        setup.settings.depthLimit code t p.world p'.world le_rfl h.worlds
      rw [handle_eval_some setup code hs] at hq ⊢
      rw [handle_eval_some setup code hs'] at hq' ⊢
      have hreply (v v' : Value) (hv : v.Matches k.1.Pairs v') :=
        congrArg Reply.value (hworlds.store.stores.display_eq hv)
      exact ⟨k, h.within hq hq' hk hworlds (h.session.mono hk) fun _ _ => rfl,
        congrArg₂ Answer.mk (Reply.of_eq hends hreply) (printed_eq_of_embeds hworlds),
        hworlds.level⟩

/-- By induction on the turns: the two processes stay apart, whoever's turn it is. -/
theorem Apart.answers_eq {turns : List Turn} (h : Apart setup.host b t p p')
    (hturns : p'.Unshared setup b turns) :
    p'.answers setup b turns = p.answers setup b (turns.filter (·.session = b)) ∧
      List.Forall₂ (· ≤ ·) (p.rooms setup b (turns.filter (·.session = b)))
        (p'.rooms setup b turns) ∧
      (p'.world.room = p.world.room → p'.Level setup b turns →
        p'.rooms setup b turns = p.rooms setup b (turns.filter (·.session = b))) := by
  induction turns generalizing t p p' with
  | nil => exact ⟨rfl, .nil, fun _ _ => rfl⟩
  | cons turn turns ih =>
    obtain ⟨hturn, hrest⟩ := hturns
    by_cases heq : turn.session = b
    · obtain ⟨t', hnext, hanswer, hlevel⟩ := h.own heq
      obtain ⟨hanswers, hrooms, hsame⟩ := ih hnext hrest
      have hkept : (turn :: turns).filter (·.session = b) = turn :: turns.filter (·.session = b) :=
        List.filter_cons_of_pos (decide_eq_true heq)
      rw [hkept, answers_cons, answers_cons, rooms_cons, rooms_cons, if_pos heq, if_pos heq,
        if_pos heq, if_pos heq, hanswer, hanswers]
      refine ⟨rfl, .cons h.room.le hrooms, fun hroom hturns => ?_⟩
      rw [hroom, hsame (hlevel hroom) hturns.2]
    · obtain ⟨hshared, hsame⟩ := hturn heq
      obtain ⟨t', hnext⟩ := h.other heq hshared hsame
      obtain ⟨hanswers, hrooms, hlevel⟩ := ih hnext hrest
      have hdropped : (turn :: turns).filter (·.session = b) = turns.filter (·.session = b) :=
        List.filter_cons_of_neg (by simpa using heq)
      rw [hdropped, answers_cons, rooms_cons, if_neg heq, if_neg heq]
      exact ⟨hanswers, hrooms, fun hroom hturns =>
        hlevel ((hturns.1 heq).trans hroom) hturns.2⟩

/-- Whatever the turns of the other sessions do, as long as they leave the shared methods as they
are and find no reference to anything else there, a session gives the replies and prints the texts
that it does when the turns of the others are left out.  Each of its turns begins under a recursion
limit that is no lower than it is then, and under the same one if the turns of the others leave the
limit as it is. -/
theorem answers_eq_alone (setup : Setup) (b : Nat) (room : Int) (turns : List Turn)
    (h : (initial room).Unshared setup b turns) :
    (initial room).answers setup b turns =
        (initial room).answers setup b (turns.filter (·.session = b)) ∧
      List.Forall₂ (· ≤ ·) ((initial room).rooms setup b (turns.filter (·.session = b)))
        ((initial room).rooms setup b turns) ∧
      ((initial room).Level setup b turns → (initial room).rooms setup b turns =
        (initial room).rooms setup b (turns.filter (·.session = b))) := by
  obtain ⟨hanswers, hrooms, hlevel⟩ := (apart_initial setup.host b room).answers_eq h
  exact ⟨hanswers, hrooms, hlevel rfl⟩

/-- No functions of the embedding program, no settings and no files. -/
def bare : Setup := ⟨Session.silent, ⟨none, none, none⟩, .empty⟩

/-- Both sessions declare one name.  The second one writes a number to a shared method, and the
first one reads it, prints, calls a function, for which room is made, and fails. -/
def interleaved : List Turn :=
  [⟨0, .start .none⟩, ⟨1, .start .none⟩, ⟨1, .eval "def n = [1]; n.__pintar__.x = 5"⟩,
    ⟨0, .eval "def n = [].__pintar__.x + 1; pintar(n); funcion f() \x7b\x7d f(); n()"⟩,
    ⟨1, .eval "pintar(n); n.y = 2; n"⟩]

/-- The session answers as it does alone; its last turn begins under the recursion limit that the
other session has raised. -/
theorem answers_eq_alone_interleaved :
    (initial 1000).Unshared bare 1 interleaved ∧
      (initial 1000).answers bare 1 interleaved =
        (initial 1000).answers bare 1 (interleaved.filter (·.session = 1)) ∧
      (initial 1000).answers bare 1 interleaved = [⟨.nothing, ""⟩, ⟨.value (.ok "5"), ""⟩,
        ⟨.value (.ok "[1, 2]"), "[1]\n"⟩] ∧
      (initial 1000).rooms bare 1 interleaved = [1000, 1000, 9000] := by
  have h : (initial 1000).Unshared bare 1 interleaved := by decide +kernel
  exact ⟨h, (answers_eq_alone bare 1 1000 interleaved h).1, by decide +kernel, by decide +kernel⟩

/-- The first session writes to a shared method what the second one then reads. -/
def written : List Turn :=
  [⟨0, .start .none⟩, ⟨1, .start .none⟩, ⟨0, .eval "[].__pintar__.x = 5"⟩,
    ⟨1, .eval "[].__pintar__.x"⟩]

/-- The second session leaves one of its values at a shared method, and the first one changes this
value, but not the method. -/
def handedOut : List Turn :=
  [⟨0, .start .none⟩, ⟨1, .start .none⟩, ⟨1, .eval "def o = []; o.__pintar__.x = o"⟩,
    ⟨0, .eval "[].__pintar__.x.y = 5"⟩, ⟨1, .eval "o.y"⟩]

/-- The shared methods are a way from one session to another, in two ways. -/
theorem answers_through_shared_methods :
    (initial 1000).answers bare 1 written ≠
        (initial 1000).answers bare 1 (written.filter (·.session = 1)) ∧
      (initial 1000).answers bare 1 handedOut ≠
        (initial 1000).answers bare 1 (handedOut.filter (·.session = 1)) := by
  constructor
  · decide +kernel
  · decide +kernel

end Process

end Guion
