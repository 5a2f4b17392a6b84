import Guion.Settings

/-!
# Preludes

A prelude is a folder of scripts that run, in the order of their names, before a session starts.
Which folder is a setting: a path to a folder, or to a file whose folder is meant; without a path it
is the built-in prelude.
-/

namespace Guion

/-! ## Paths -/

/-- Where a path starts. -/
inductive Anchor where
  /-- At the working folder. -/
  | here
  /-- At the top folder, written with one slash. -/
  | top
  /-- At the top folder, written with two slashes. -/
  | doubledTop
deriving DecidableEq, Repr

/-- A path as written, without empty and `.` parts. -/
structure Path where
  anchor : Anchor
  parts : List String
deriving DecidableEq, Repr

namespace Anchor

/-- Exactly two slashes in front are kept; any other number of them counts as one. -/
def ofChars : List Char → Anchor
  | '/' :: '/' :: '/' :: _ => .top
  | '/' :: '/' :: _ => .doubledTop
  | '/' :: _ => .top
  | _ => .here

def text : Anchor → String
  | .here => ""
  | .top => "/"
  | .doubledTop => "//"

end Anchor

namespace Path

/-- The pieces between slashes. -/
def pieces : List Char → List (List Char)
  | [] => [[]]
  | c :: cs =>
    match pieces cs with
    | [] => [[c]]
    | first :: rest => if c = '/' then [] :: first :: rest else (c :: first) :: rest

def ofString (s : String) : Path :=
  let parts := (pieces s.toList).filter fun p => p != [] && p != ['.']
  ⟨.ofChars s.toList, parts.map String.ofList⟩

def text (p : Path) : String :=
  let written := p.anchor.text ++ "/".intercalate p.parts
  if written.isEmpty then "." else written

def isAbsolute (p : Path) : Bool := p.anchor != .here

def parent (p : Path) : Path := { p with parts := p.parts.dropLast }

def child (p : Path) (name : String) : Path := { p with parts := p.parts ++ [name] }

/-- The places where the parts lead one after the other, from the given place on. -/
def placesFrom (place : List String) : List String → List (List String)
  | [] => [place]
  | part :: rest =>
    place :: placesFrom (if part = ".." then place.dropLast else place ++ [part]) rest

/-- The folders that a path goes through and the place where it ends. -/
def places (p : Path) : List Path := (placesFrom [] p.parts).map fun parts => ⟨p.anchor, parts⟩

/-- What a path adds to the parts of a folder around it. -/
def below? (p : Path) (absolute : Bool) (parts : List String) : Option (List String) :=
  if p.isAbsolute == absolute && parts.isPrefixOf p.parts then some (p.parts.drop parts.length)
  else none

end Path

/-! ## Files -/

/-- The files and folders around a session.  The folders of the files are among the folders. -/
structure Files where
  files : List (Path × String)
  folders : List Path

namespace Files

def empty : Files := ⟨[], []⟩

/-- Makes a folder and the folders on the way to it. -/
def addFolder (fs : Files) (p : Path) : Files := { fs with folders := fs.folders ++ p.places }

/-- Writes a file, in place of one that is there already, and makes the folders on the way to it. -/
def addFile (fs : Files) (p : Path) (text : String) : Files :=
  match p.places.getLast? with
  | some place =>
    ⟨fs.files.filter (fun f => f.1 != place) ++ [(place, text)], fs.folders ++ p.places.dropLast⟩
  | none => fs

/-- A folder that a path leads to. -/
inductive Spot where
  /-- A folder at these parts below the top folder or below the working folder. -/
  | below (absolute : Bool) (parts : List String)
  /-- One of the folders around the working folder; they hold nothing of interest. -/
  | above

/-- Whether the parts lead to a folder. -/
def hasFolder (fs : Files) (absolute : Bool) (parts : List String) : Bool :=
  parts.isEmpty || fs.folders.any fun f => (f.below? absolute parts).isSome

/-- Follows one part of a path, which has to be a folder.  The top folder is around itself. -/
def step (fs : Files) (spot : Spot) (part : String) : Option Spot :=
  match spot with
  | .below absolute parts =>
    if part = ".." then
      some (if !absolute && parts.isEmpty then .above else .below absolute parts.dropLast)
    else if fs.hasFolder absolute (parts ++ [part]) then some (.below absolute (parts ++ [part]))
    else none
  | .above => if part = ".." then some .above else none

/-- The folder at a path. -/
def folder? (fs : Files) (p : Path) : Option Spot :=
  p.parts.foldlM fs.step (.below p.isAbsolute [])

/-- What stands in a folder itself: its files with their texts, then its folders. -/
def entries (fs : Files) : Spot → List (String × Option String)
  | .above => []
  | .below absolute parts =>
    let files := fs.files.filterMap fun f =>
      match f.1.below? absolute parts with
      | some [name] => some (name, some f.2)
      | _ => none
    let folders := fs.folders.filterMap fun f =>
      match f.below? absolute parts with
      | some (name :: _) => some name
      | _ => none
    files ++ folders.eraseDups.map fun name => (name, none)

end Files

/-! ## Scripts of a prelude -/

namespace Prelude

/-- The ending of the names of scripts. -/
def ending : String := ".chispa"

/-- Reads every line end as a line feed. -/
def unifyLines : List Char → List Char
  | [] => []
  | '\r' :: '\n' :: cs => '\n' :: unifyLines cs
  | '\r' :: cs => '\n' :: unifyLines cs
  | c :: cs => c :: unifyLines cs

structure Script where
  path : String
  /-- The text; a folder with the name of a script has none. -/
  code : Option String
deriving DecidableEq, Repr

/-- The built-in prelude. -/
def builtin : String :=
"funcion identidad(x)\x7b
  retorna x;
\x7d

funcion no(x)\x7b
  si (x) \x7b
    retorna falso;
  \x7d
  retorna verdadero;
\x7d

funcion mapear(lista, f)\x7b
  def resultado = [];
  funcion paso(i)\x7b
    si (i == longitud(lista)) \x7b
      retorna resultado;
    \x7d
    resultado[i] = f(lista[i]);
    retorna paso(i + 1);
  \x7d
  retorna paso(0);
\x7d
"

/-- The folder that a session takes its prelude from. -/
inductive Root where
  | builtin
  | at (path : Path)
deriving DecidableEq, Repr

def Root.text : Root → String
  | .builtin => "<default>"
  | .at path => path.text

/-- The folder that the setting names; of a path to no folder, the one it lies in. -/
def root (settings : Settings) (fs : Files) : Root :=
  let named := Text.trim (settings.preludePath.getD "")
  if named.isEmpty then .builtin
  else
    let path := Path.ofString named
    if (fs.folder? path).isSome then .at path else .at path.parent

/-- The scripts of a folder in the order of their names. -/
def scriptsOf (path : Path) (entries : List (String × Option String)) : List Script :=
  let scripts := entries.filter fun e => e.1.endsWith ending
  let sorted := scripts.mergeSort fun a b => !(b.1 < a.1)
  sorted.map fun e =>
    ⟨(path.child e.1).text, e.2.map fun text => String.ofList (unifyLines text.toList)⟩

/-- The scripts of the prelude; there are none to tell of if the folder does not exist. -/
def scripts? (fs : Files) : Root → Option (List Script)
  | .builtin => some [⟨Root.builtin.text ++ "/base" ++ ending, some builtin⟩]
  | .at path => (fs.folder? path).map fun spot => scriptsOf path (fs.entries spot)

/-- The message for a folder that does not exist. -/
def missingMessage (root : Root) : String := "Prelude directory not found: " ++ root.text

end Prelude

end Guion
