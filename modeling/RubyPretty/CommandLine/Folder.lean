import RubyPretty.Text.Basic
/-!
# Files by path

A folder gives the texts of its files, and `Folder.read` follows a path from there, component by
component, as far as it leads.
-/

namespace RubyPretty.CommandLine

inductive ReadError where
  | missing
  | notDirectory
  | isDirectory
  | longName
deriving DecidableEq, Repr

def ReadError.message : ReadError → String
  | .missing => "[Errno 2] No such file or directory"
  | .notDirectory => "[Errno 20] Not a directory"
  | .isDirectory => "[Errno 21] Is a directory"
  | .longName => "[Errno 36] File name too long"

/-- The components of a path. Slashes that stand together enclose empty ones. -/
def components (path : String) : List String :=
  (Text.pieces '/' path.toList).map String.ofList

def isHere (component : String) : Bool := component = "" || component = "."

structure Folder where
  texts : List (List String × String)
deriving Repr

/-- Where a path leads: to a text, to a directory in the folder, or to one around it, of which
nothing is known. -/
inductive Place where
  | text (content : String)
  | branch (path : List String)
  | around
deriving DecidableEq, Repr

namespace Folder

/-- The folder of these files. A later file replaces an earlier one with the same path. -/
def ofFiles (files : List (String × String)) : Folder :=
  ⟨files.reverse.map fun (path, text) => ((components path).filter (!isHere ·), text)⟩

def place? (f : Folder) (path : List String) : Option Place :=
  match f.texts.lookup path with
  | some content => some (.text content)
  | none => if f.texts.any (path.isPrefixOf ·.1) then some (.branch path) else none

/-- Follows one component of a path. A text has none, not even an empty one. -/
def step (f : Folder) (place : Place) (component : String) : Except ReadError Place :=
  match place with
  | .text _ => .error .notDirectory
  | .branch path =>
      if isHere component then .ok place
      else if component = ".." then .ok (if path.isEmpty then .around else .branch path.dropLast)
      else if component.utf8ByteSize > 255 then .error .longName
      else (f.place? (path ++ [component])).elim (.error .missing) .ok
  | .around =>
      if isHere component || component = ".." then .ok place
      else if component.utf8ByteSize > 255 then .error .longName
      else .error .missing

/-- The text at a path. A path has at most 4095 bytes, and each of its components at most 255. -/
def read (f : Folder) (path : String) : Except ReadError String := do
  if path = "" then .error .missing
  else if path.utf8ByteSize > 4095 then .error .longName
  else
    let start := if Text.startsWith "/" path then .around else .branch []
    match ← (components path).foldlM f.step start with
    | .text content => .ok content
    | _ => .error .isDirectory

end Folder

end RubyPretty.CommandLine
