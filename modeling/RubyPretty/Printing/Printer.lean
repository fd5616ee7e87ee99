import RubyPretty.Comments.Splice
import RubyPretty.Options.Basic
import RubyPretty.Syntax.Access
/-!
# Printing rules

A rule turns a node, which it sees together with the nodes around it, into a document. It prints
the children through the `Printer` that it is given, so a rule says nothing about how their own
rules are found.
-/

namespace RubyPretty

/-- A node together with the nodes around it, the nearest first. -/
structure Place where
  node : Tree
  around : List Tree
deriving Repr

namespace Place

def root (tree : Tree) : Place := ⟨tree, []⟩

def below (p : Place) (child : Tree) : Place := ⟨child, p.node :: p.around⟩

def parent? (p : Place) : Option Tree := p.around.head?

def parentIs (p : Place) (tags : List String) : Bool := p.parent?.any (tags.contains ·.tag)

def inside (p : Place) (tags : List String) : Bool := p.around.any (tags.contains ·.tag)

end Place

/-- What a link of a method chain hands to the call on it: the length of the chain so far, how
many of its last links are calls without arguments or block, and the pieces of the layout with
one call a line. -/
structure Link where
  depth : Nat
  callDepth : Nat
  fragments : List Doc
deriving Repr

structure Printed where
  doc : Doc
  link : Option Link
deriving Repr

structure ChainNote where
  tag : String
  depth : Nat
  limit : Nat
deriving DecidableEq, Repr

def ChainNote.message (n : ChainNote) : String :=
  n.tag ++ " closes a chain of " ++ toString n.depth ++ " (threshold " ++ toString n.limit ++ ")"

/-- Printing may fail, and takes note of the chains that it closes. -/
abbrev PrintM := StateT (List ChainNote) (Except Fault)

/-- Formats a text in another language, given the text and the name of the language. It is given
from outside, and may fail with any fault. -/
abbrev Formatter := String → String → Except Fault String

structure Printer where
  options : Options
  formatter : Option Formatter
  ownComments : String → Bool
  visit : Place → PrintM Printed

abbrev Rule := Printer → Place → PrintM Printed

/-- A rule whose node is never a link of a chain. -/
abbrev DocRule := Printer → Place → PrintM Doc

def Rule.ofDoc (rule : DocRule) : Rule := fun pr p => do return ⟨← rule pr p, none⟩

namespace Printer

/-- Applies a rule and puts the comments of the node around its document. -/
def apply (pr : Printer) (rule : Rule) (p : Place) : PrintM Printed := do
  let printed ← rule pr p
  if p.node.hasComments && !pr.ownComments p.node.tag then
    let doc ← Comments.splice printed.doc p.node.comments p.node.endLine?
    return { printed with doc := doc }
  return printed

/-- Prints an optional child of the node at `p`; an absent one is empty. -/
def visitChild (pr : Printer) (p : Place) : Value → PrintM Printed
  | .null => return ⟨.empty, none⟩
  | .node n => pr.visit (p.below n)
  | _ => throw .malformed

def print (pr : Printer) (p : Place) (child : Value) : PrintM Doc := do
  return (← pr.visitChild p child).doc

def printAll (pr : Printer) (p : Place) (children : List Value) : PrintM (List Doc) :=
  children.mapM (pr.print p)

def printChild (pr : Printer) (p : Place) (i : Nat) : PrintM Doc := do
  pr.print p (← p.node.child i)

end Printer

namespace Doc

/-- Documents divided by commas, each comma followed by a possible line end. -/
def listed (ds : List Doc) : Doc := joined (.cat [",", .line]) ds

/-- A group between brackets, indented if it breaks. -/
def enclosed (opening : String) (content : List Doc) (closing : String) : Doc :=
  .grouped [opening, .indented (.softline :: content), .softline, closing]

end Doc

end RubyPretty
