import Guion.Builtin
import Guion.Prelude

/-!
# Sessions

A session owns a global scope with the built-ins, which lives on from one script to the next.
Several sessions may share a world.
-/

namespace Guion

/-- What runs before a session starts. -/
inductive PreludeChoice where
  | none
  | folder
  | code (text : String)
deriving DecidableEq, Repr

structure Session where
  scope : Scope
deriving DecidableEq, Repr

namespace Session

/-- Reads a script. -/
def parse (code : String) : Run (List Node) := do
  match Token.scan code with
  | .error fault => Run.fail (.illegal fault)
  | .ok tokens =>
    Run.note (.tokenized code.length tokens.length)
    match Node.ofTokens tokens with
    | .error fault => Run.fail (.grammar fault)
    | .ok reading =>
      Run.note (.parsed reading.body.length)
      return reading.body

/-- Runs a script for its effects on the session. -/
def load (host : Host) (limit : Nat) (session : Session) (code : String) : Run Unit := do
  let body ← parse code
  let _ ← Eval.evaluate host limit (.program body) session.scope

/-- Runs a script and gives its value. -/
def eval (host : Host) (limit : Nat) (session : Session) (code : String) : Run Value := do
  let body ← parse code
  Run.note (.evaluating body.length)
  Eval.evaluate host limit (.program body) session.scope

def loadScripts (host : Host) (limit : Nat) (session : Session) : List Prelude.Script → Run Unit
  | [] => return ()
  | script :: rest => do
    Run.note (.loadingPrelude script.path)
    match script.code with
    | some code =>
      load host limit session code
      loadScripts host limit session rest
    | none => Run.fail (.notFile script.path)

/-- A root scope with nothing in it. -/
def emptyScope : Run Scope := Run.create fun s => s.openFrame []

/-- A root scope with the built-ins. -/
def globalScope : Run Scope := do
  let scope ← emptyScope
  Builtin.register scope
  return scope

def start (host : Host) (settings : Settings) (files : Files) (prelude : PreludeChoice) :
    Run Session := do
  let session : Session := ⟨← globalScope⟩
  match prelude with
  | .none => return session
  | .code text =>
    if text.isEmpty then return session
    else
      load host settings.depthLimit session text
      return session
  | .folder =>
    match Prelude.scripts? files (Prelude.root settings files) with
    | some scripts =>
      loadScripts host settings.depthLimit session scripts
      return session
    | none =>
      Run.note .noPrelude
      return session

end Session

end Guion
