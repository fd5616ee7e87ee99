import RubyPretty.Comments.Attach
import RubyPretty.Layout.Render
import RubyPretty.Printing.Registry
import RubyPretty.Rules.Default
import RubyPretty.Syntax.Reading
/-!
# Formatting

From a tree to its document, and from there to the text.
-/

namespace RubyPretty

structure Printout where
  doc : Doc
  attached : List Comments.Attached
  chains : List ChainNote

/-- Whether a program comes with a list of comments that have no place in it yet. -/
def hasLooseComments (tree : Tree) : Bool :=
  tree.tag == "program" && tree.comments.any (!·.line.isNull)

def settleComments (tree : Tree) : Outcome (Tree × List Comments.Attached) :=
  if hasLooseComments tree then
    let settled := Comments.attach { tree with comments := [] } tree.comments
    match settled.fault? with
    | none => return (settled.tree, settled.attached)
    | some cause => .error cause
  else return (tree, [])

namespace Registry

def print (r : Registry) (o : Options) (formatter : Option Formatter) (tree : Tree) :
    Outcome Printout := do
  r.check tree
  let (tree, attached) ← settleComments tree
  let (printed, chains) ← (r.visitRoot o formatter tree).run []
  return ⟨printed.doc, attached, chains⟩

end Registry

def Options.page (o : Options) : Layout.Page := ⟨o.printWidth, o.tabWidth⟩

def Printout.text (o : Options) (p : Printout) : Outcome String :=
  (Layout.render? o.page p.doc).elim (.error .malformed) .ok

def printTree (o : Options) (formatter : Option Formatter) (tree : Tree) : Outcome Doc := do
  return (← Registry.default.print o formatter tree).doc

def formatTree (o : Options) (formatter : Option Formatter) (tree : Tree) : Outcome String := do
  (← Registry.default.print o formatter tree).text o

def formatJson (o : Options) (formatter : Option Formatter) (source : String) : Outcome String := do
  formatTree o formatter (← Node.ofText source)

end RubyPretty
