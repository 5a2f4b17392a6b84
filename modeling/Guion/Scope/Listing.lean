import Guion.Datum

/-!
# Listings of scopes

One line with the variables of a frame in order of declaration, constants marked, and whether or
how the scope goes on outward.
-/

namespace Guion.Store

def bindingText (s : Store) (name : String) (b : Binding) : Except Num.Fault String := do
  return (if b.constant then "const " else "") ++ name ++ ": " ++ (← b.value.debug s)

def frameText (s : Store) (f : FrameId) : Except Num.Fault String := do
  let texts ← (s.frame f).vars.entries.mapM fun e => s.bindingText e.1 e.2
  return "\x7b" ++ ", ".intercalate texts ++ "\x7d"

/-- The innermost frame and a sign that there are others. -/
def innermostText (s : Store) (scope : Scope) : Except Num.Fault String := do
  return (← s.frameText scope.frame) ++ (if scope.outer.isEmpty then "" else " -> ...")

/-- All frames from the innermost outward. -/
def chainText (s : Store) (scope : Scope) : Except Num.Fault String := do
  let texts ← scope.chain.mapM s.frameText
  return "<Environment chain: " ++ " -> ".intercalate texts ++ ">"

end Guion.Store
