import RubyPretty.Text.Basic
/-!
# Layout documents

A `Doc` describes a piece of source text together with the places where its lines may end.
Which of those places are used is decided by the page width, in `RubyPretty.Layout`.

The smart constructors (`Doc.cat`, `Doc.grouped`, `Doc.indented`, ...) flatten nested sequences
and drop empty documents, so that printing rules can be written without case distinctions.
-/

namespace RubyPretty

/-- A place where a line may end. Inside a flat group a soft break is written as `flat`; a hard
break always ends the line, and a literal one starts the next line at the current root instead
of the current indentation. -/
structure Break where
  flat : String
  hard : Bool
  literal : Bool
deriving DecidableEq, Repr, Inhabited

inductive Doc where
  | empty
  | text (s : String)
  | newline (b : Break)
  /-- Forces every enclosing group to break. -/
  | breakParent
  | seq (docs : List Doc)
  | indent (child : Doc)
  | align (amount : Int) (child : Doc)
  /-- A group is written flat if it fits on the rest of the line. -/
  | group (child : Doc) (id : Option String) (broken : Bool)
  /-- One of two documents, by the mode of the named group or else of the enclosing one. -/
  | ifBreak (broken flat : Doc) (id : Option String)
  /-- Contents and separators in turn; each separator breaks only if the next content does not
  fit beside it. -/
  | fill (items : List Doc)
  /-- Held back until the current line ends. -/
  | suffix (child : Doc)
  /-- Makes the current indentation the root of literal breaks. -/
  | root (child : Doc)
deriving Repr, BEq, Inhabited

namespace Doc

/-- Nothing when flat, a line end when broken. -/
def softline : Doc := .newline ⟨"", false, false⟩

/-- A space when flat, a line end when broken. -/
def line : Doc := .newline ⟨" ", false, false⟩

def hardline : Doc := .newline ⟨"", true, false⟩

/-- Always a line end, and the next line is not indented. -/
def literalLine : Doc := .newline ⟨"", true, true⟩

def ofString (s : String) : Doc := if s = "" then .empty else .text s

instance : Coe String Doc := ⟨ofString⟩

def parts : Doc → List Doc
  | .empty => []
  | .seq ds => ds
  | d => [d]

/-- A sequence of elements; short sequences need no `seq`. -/
def ofParts : List Doc → Doc
  | [] => .empty
  | [d] => d
  | ds => .seq ds

def cat (ds : List Doc) : Doc := ofParts (ds.flatMap parts)

def groupedWith (id : Option String) (broken : Bool) (ds : List Doc) : Doc :=
  match cat ds with
  | .empty => .empty
  | .group child id' broken' =>
      if id.isNone && !broken then .group child id' broken'
      else .group (.group child id' broken') id broken
  | d => .group d id broken

/-- A group without a name; a lone group is not wrapped again. -/
def grouped (ds : List Doc) : Doc := groupedWith none false ds

def indented (ds : List Doc) : Doc :=
  match cat ds with
  | .empty => .empty
  | d => .indent d

def aligned (amount : Int) (ds : List Doc) : Doc :=
  match cat ds with
  | .empty => .empty
  | d => if amount = 0 then d else .align amount d

def eitherIn (id : Option String) : Doc → Doc → Doc
  | .empty, .empty => .empty
  | broken, flat => .ifBreak broken flat id

def either (broken flat : Doc) : Doc := eitherIn none broken flat

def filled : List Doc → Doc
  | [] => .empty
  | items => .fill items

def suffixed (ds : List Doc) : Doc :=
  match cat ds with
  | .empty => .empty
  | d => .suffix d

def rooted (ds : List Doc) : Doc :=
  match cat ds with
  | .empty => .empty
  | d => .root d

def joined (separator : Doc) (ds : List Doc) : Doc := cat (ds.intersperse separator)

/-- Text that keeps its own line ends and never picks up indentation. -/
def verbatim (s : String) : Doc := joined literalLine ((Text.lines s).map ofString)

end Doc

end RubyPretty
