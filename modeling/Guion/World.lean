import Guion.Datum

/-!
# Running

A run takes a world to a world and ends in a value or leaves early: a return on its way to the
enclosing call, a failure, or (never in a run that starts with enough fuel) an exhausted budget of
nested calls.  The world holds the store, the text printed so far, the number of calls of script
functions that are in progress, a trace of what happened, and the recursion limit of the host, which
is that of the whole process.

The recursion limit is state and no more: calls raise it, and a call for which it cannot be raised
far enough fails.  A run that meets the limit itself is not modelled; the host's stack is taken to
be as deep as the run needs.
-/

namespace Guion

/-- What a run notes as it goes. -/
inductive Event where
  | tokenized (characters tokens : Nat)
  | parsed (statements : Nat)
  | registeredGlobal (name : String) (constant : Bool)
  | registeredAll (count : Nat)
  | evaluating (statements : Nat)
  | noPrelude
  | loadingPrelude (path : String)
  /-- The recursion limit is about to be raised. -/
  | makingRoom (room : Int)
  | calling (function : String) (arguments : Nat)
  /-- The body of a script function starts; the depth that it runs at. -/
  | entered (depth : Nat)
  /-- The body of a script function has ended; the depth that is left. -/
  | left (depth : Nat)
deriving DecidableEq, Repr

/-- The line that an event puts into the log, if it puts one there. -/
def Event.message? : Event → Option String
  | .tokenized characters tokens =>
    some ("tokenized " ++ Num.natText characters ++ " characters into " ++ Num.natText tokens ++
      " tokens")
  | .parsed statements => some ("parsed " ++ Num.natText statements ++ " top-level statements")
  | .registeredGlobal name constant =>
    some ("registered global " ++ name ++ " (constant=" ++ flagText constant ++ ")")
  | .registeredAll count => some ("registered " ++ Num.natText count ++ " built-in globals")
  | .evaluating statements =>
    some ("evaluating program with " ++ Num.natText statements ++ " statement(s)")
  | .noPrelude => some "no prelude directory found; continuing without prelude"
  | .loadingPrelude path => some ("loading prelude file " ++ path)
  | .makingRoom room =>
    (Num.intText room).toOption.map fun text => "raising recursion limit to " ++ text
  | .calling function arguments =>
    some ("calling " ++ function ++ " with " ++ Num.natText arguments ++ " argument(s)")
  | .entered _ | .left _ => none

structure World where
  store : Store
  output : String
  /-- Calls of script functions in progress. -/
  depth : Nat
  /-- Events, the latest first. -/
  trace : List Event
  /-- The recursion limit of the host. -/
  room : Int
deriving DecidableEq, Repr, Inhabited

/-- A world in which nothing has run yet, under the recursion limit that the host has then. -/
def World.initial (room : Int) : World := ⟨.initial, "", 0, [], room⟩

/-- A call starts. -/
def World.enter (w : World) : World :=
  { w with depth := w.depth + 1, trace := .entered (w.depth + 1) :: w.trace }

/-- The latest call ends. -/
def World.leave (w : World) : World :=
  { w with depth := w.depth - 1, trace := .left (w.depth - 1) :: w.trace }

/-! ## Room for nested calls -/

/-- The recursion limit that calls of the given depth need. -/
def roomFor (depth : Int) : Int := depth * 16 + 1000

/-- The highest recursion limit that the host can be set to. -/
def mostRoom : Int := 2147483647

/-- The recursion limit once there is room for calls of the given depth; it is never lowered, and
there is none if the host cannot be set so high. -/
def reserveRoom? (current depth : Int) : Option Int :=
  if roomFor depth ≤ current then some current
  else if roomFor depth ≤ mostRoom then some (roomFor depth)
  else none

/-! ## Runs -/

/-- How a run leaves early. -/
inductive Exit where
  | returned (value : Value)
  | failed (cause : Failure)
  | exhausted
deriving DecidableEq, Repr

/-- The message for a return that no call or program encloses. -/
def Exit.strayReturn : String := "retorna fuera de contexto"

def Run (α : Type) : Type := World → Except Exit α × World

namespace Run

variable {α β : Type}

@[always_inline, inline]
protected def pure (a : α) : Run α := fun w => (.ok a, w)

@[always_inline, inline]
protected def bind (m : Run α) (f : α → Run β) : Run β := fun w =>
  match m w with
  | (.ok a, w') => f a w'
  | (.error e, w') => (.error e, w')

@[always_inline]
instance : Monad Run where
  pure := Run.pure
  bind := Run.bind

@[simp]
theorem pure_apply (a : α) (w : World) : (pure a : Run α) w = (.ok a, w) := rfl

theorem bind_apply (m : Run α) (f : α → Run β) (w : World) :
    (m >>= f) w = match m w with
      | (.ok a, w') => f a w'
      | (.error e, w') => (.error e, w') := rfl

theorem bind_eq_ok {m : Run α} {f : α → Run β} {w w' : World} {b : β}
    (h : (m >>= f) w = (.ok b, w')) : ∃ a v, m w = (.ok a, v) ∧ f a v = (.ok b, w') := by
  rw [bind_apply] at h
  split at h
  · next a v hm => exact ⟨a, v, hm, h⟩
  · cases h

instance : LawfulMonad Run :=
  LawfulMonad.mk' Run
    (fun m => by
      funext w
      show Run.bind m _ w = m w
      rw [Run.bind]
      rcases m w with ⟨_ | _, _⟩ <;> rfl)
    (fun _ _ => rfl)
    (fun m f g => by
      funext w
      show Run.bind (Run.bind m f) g w = Run.bind m (fun a => Run.bind (f a) g) w
      simp only [Run.bind]
      rcases m w with ⟨_ | _, _⟩ <;> rfl)

def exit (e : Exit) : Run α := fun w => (.error e, w)

def fail (cause : Failure) : Run α := exit (.failed cause)

/-- The world as it is. -/
def world : Run World := fun w => (.ok w, w)

def store : Run Store := fun w => (.ok w.store, w)

def print (text : String) : Run Unit := fun w => (.ok (), { w with output := w.output ++ text })

def note (e : Event) : Run Unit := fun w => (.ok (), { w with trace := e :: w.trace })

/-- A look at the store. -/
def inspect (look : Store → Except Failure α) : Run α := fun w =>
  match look w.store with
  | .ok a => (.ok a, w)
  | .error cause => (.error (.failed cause), w)

/-- A step that changes the store. -/
def create (step : Store → Store × α) : Run α
  | ⟨store, output, depth, trace, room⟩ =>
    match step store with
    | (s, a) => (.ok a, ⟨s, output, depth, trace, room⟩)

def update (step : Store → Store) : Run Unit
  | ⟨store, output, depth, trace, room⟩ => (.ok (), ⟨step store, output, depth, trace, room⟩)

/-- A step that changes the store or fails and leaves it as it was. -/
def attempt (step : Store → Except Failure (Store × α)) : Run α := fun w =>
  match step w.store with
  | .ok (s, a) => (.ok a, { w with store := s })
  | .error cause => (.error (.failed cause), w)

/-- Makes room for calls of the given depth.  That the recursion limit has to be raised is noted
before it turns out whether it can be. -/
def makeRoom (depth : Nat) : Run Unit := fun w =>
  if roomFor depth ≤ w.room then (.ok (), w)
  else
    let noted := { w with trace := .makingRoom (roomFor depth) :: w.trace }
    match reserveRoom? w.room depth with
    | some room => (.ok (), { noted with room := room })
    | none => (.error (.failed .noRoom), noted)

/-- What making room can do. -/
theorem makeRoom_cases (depth : Nat) (w : World) :
    (roomFor depth ≤ w.room ∧ makeRoom depth w = (.ok (), w)) ∨
    (w.room < roomFor depth ∧ roomFor depth ≤ mostRoom ∧
      makeRoom depth w = (.ok (), { w with
        trace := .makingRoom (roomFor depth) :: w.trace, room := roomFor depth })) ∨
    (w.room < roomFor depth ∧ mostRoom < roomFor depth ∧
      makeRoom depth w = (.error (.failed .noRoom), { w with
        trace := .makingRoom (roomFor depth) :: w.trace })) := by
  unfold makeRoom
  by_cases hroom : roomFor depth ≤ w.room
  · exact .inl ⟨hroom, if_pos hroom⟩
  · have hlt : w.room < roomFor depth := Int.lt_of_not_ge hroom
    rw [if_neg hroom, reserveRoom?, if_neg hroom]
    by_cases hmost : roomFor depth ≤ mostRoom
    · rw [if_pos hmost]
      exact .inr (.inl ⟨hlt, hmost, rfl⟩)
    · rw [if_neg hmost]
      exact .inr (.inr ⟨hlt, Int.lt_of_not_ge hmost, rfl⟩)

end Run

end Guion
