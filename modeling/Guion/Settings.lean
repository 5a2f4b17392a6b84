import Guion.Num

/-!
# Settings

Settings come as texts and each has a rule for texts that make no sense: the depth limit falls back
to its default, the log level to the level of warnings.
-/

namespace Guion

/-- The texts of the settings that are set. -/
structure Settings where
  preludePath : Option String
  logLevel : Option String
  maxDepth : Option String
deriving DecidableEq, Repr, Inhabited

namespace Settings

def defaultMaxDepth : Nat := 500

/-- The limit of nested calls: a positive integer literal, or else the default. -/
def depthLimit (settings : Settings) : Nat :=
  match settings.maxDepth.bind Num.readInt? with
  | some depth => if 0 < depth then depth.toNat else defaultMaxDepth
  | none => defaultMaxDepth

/-! ## Log level -/

def warningLevel : Nat := 30

def levels : List (String × Nat) :=
  [("CRITICAL", 50), ("FATAL", 50), ("ERROR", 40), ("WARN", 30), ("WARNING", 30), ("INFO", 20),
   ("DEBUG", 10), ("NOTSET", 0)]

/-- Upper case, as far as it can yield an ASCII letter: the dotless i and the long s count. -/
def upperChar (c : Char) : Char :=
  if c = 'ı' then 'I' else if c = 'ſ' then 'S' else c.toUpper

def upper (s : String) : String := String.ofList (s.toList.map upperChar)

def isLevelSet (settings : Settings) : Bool :=
  !(Text.trim (settings.logLevel.getD "")).isEmpty

/-- The number of the named level; a name that is unknown or missing is a warning. -/
def level (settings : Settings) : Nat :=
  let name := upper (Text.trim (settings.logLevel.getD ""))
  ((levels.find? fun e => e.1 == name).map Prod.snd).getD warningLevel

/-- The level that a session installs; zero leaves it to the surroundings. -/
def installedLevel (settings : Settings) : Nat :=
  if settings.isLevelSet then settings.level else 0

/-- All events of a run are of this level. -/
def eventLevel : Nat := 10

/-- Whether events reach the log; without an installed level only warnings do. -/
def logsEvents (installed : Nat) : Bool :=
  (if installed = 0 then warningLevel else installed) ≤ eventLevel

end Settings

end Guion
