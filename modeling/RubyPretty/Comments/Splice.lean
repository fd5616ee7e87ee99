import RubyPretty.Doc.Basic
import RubyPretty.Syntax.Coordinate
/-!
# Comments around a document

Leading comments go above a node, one a line. Other comments go behind the last line of the node,
unless they are known to have stood on a later line: those go below it.
-/

namespace RubyPretty

def Comment.doc (c : Comment) : Doc := if c.isBlock then .verbatim c.text else .ofString c.text

namespace Comments

def above (comments : List Comment) : List Doc :=
  (comments.filter (·.leading)).flatMap fun c => [c.doc, .hardline]

def isBelow (endLine : Option Coordinate) (c : Comment) : Outcome Bool :=
  match endLine with
  | none | some .null => return false
  | some line => if c.line.isNull then return false else Coordinate.lt line c.line

def after (endLine : Option Coordinate) (c : Comment) : Outcome (List Doc) := do
  if ← isBelow endLine c then return [.hardline, c.doc]
  else return [.suffixed [" ", c.doc], .breakParent]

def splice (doc : Doc) (comments : List Comment) (endLine : Option Coordinate) : Outcome Doc := do
  if comments.isEmpty then return doc
  let behind ← (comments.filter (!·.leading)).mapM (after endLine)
  return .cat (above comments ++ doc :: behind.flatten)

def only (comments : List Comment) : Doc :=
  .cat [.breakParent, .joined .hardline (comments.map Comment.doc)]

def isInside (span : Span) (c : Comment) : Outcome Bool := do
  if c.line.isNull then return false
  if !(← Coordinate.le span.startLine c.line) then return false
  return (← Coordinate.lt c.line span.endLine) && !c.leading

/-- The comments that stood between the brackets of an empty collection, and all others. -/
def partitionInner (n : Tree) : Outcome (List Comment × List Comment) := do
  match n.loc with
  | none => return ([], n.comments)
  | some span =>
      if span.isOneLine then return ([], n.comments)
      let marked ← n.comments.mapM fun c => do return (c, ← isInside span c)
      let (inside, outside) := marked.partition (·.2)
      return (inside.map (·.1), outside.map (·.1))

end Comments

end RubyPretty
