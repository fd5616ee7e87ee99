import RubyPretty.Rules.Arrays
import RubyPretty.Shape.Labels
import RubyPretty.Shape.Statements
/-!
# Hashes
-/

namespace RubyPretty.Rules

def labelKey (pr : Printer) (p : Place) (key : Tree) : PrintM Doc := do
  match key.tag with
  | "@label" => pr.print p (.node key)
  | "symbol_literal" => return .cat [← pr.printChild (p.below key) 0, ":"]
  | "dyna_symbol" =>
      match ← Shape.quotedSymbolText key with
      | some text => return .cat [text, ":"]
      | none => throw .malformed
  | _ => throw .malformed

def rocketKey (pr : Printer) (p : Place) (key : Tree) : PrintM Doc := do
  match key.tag with
  | "@label" =>
      return .cat [":", String.ofList (← key.token).toList.dropLast, " =>"]
  | "dyna_symbol" =>
      if isPercentSymbol (← (← key.child 0).asText) then
        return .cat [← pr.print p (.node key), " =>"]
      return .cat [":", ← quotedSymbolBody pr (p.below key), " =>"]
  | _ => return .cat [← pr.print p (.node key), " =>"]

/-- The key of a pair in the chosen style. A label that was no label before keeps its comments. -/
def pairKey (pr : Printer) (p : Place) (labels : Bool) (key : Tree) : PrintM Doc := do
  if !labels then return ← rocketKey pr p key
  let doc ← labelKey pr p key
  if key.tag = "@label" then return doc
  Comments.splice doc key.comments none

/-- A pair. A nested hash breaks along with the hash around it. -/
def pairWith (labels : Bool) : DocRule := fun pr p => do
  let [key, value] := p.node.body | throw .malformed
  let key ← key.asNode
  let keyDoc ← pairKey pr p labels key
  let valueDoc ← pr.print p value
  if (← value.asNode).tag = "hash" then return .cat [keyDoc, " ", valueDoc]
  if !(← Shape.skipsAssignIndent value) || key.hasComments then
    return .grouped [keyDoc, .indented [.line, valueDoc]]
  return .grouped [keyDoc, " ", valueDoc]

def usesLabels (o : Options) (pairs : List Value) : Outcome Bool :=
  if o.hashLabel then Shape.canUseLabels pairs else return false

def pairListTags : List String := ["assoclist_from_args", "bare_assoc_hash"]

/-- A pair on its own; its style is the one of the list around it. -/
def pair : DocRule := fun pr p => do
  let pairs := match p.parent? with
    | some parent => if pairListTags.contains parent.tag then parent.body else [.node p.node]
    | none => [.node p.node]
  pairWith (← usesLabels pr.options pairs) pr p

def pairSplat : DocRule := fun pr p => do return .cat ["**", ← pr.printChild p 0]

def pairIn (pr : Printer) (p : Place) (labels : Bool) (v : Value) : PrintM Doc := do
  let n ← v.asNode
  if n.tag = "assoc_new" then
    return (← pr.apply (.ofDoc (pairWith labels)) (p.below n)).doc
  pr.print p v

def pairList : DocRule := fun pr p => do
  let labels ← usesLabels pr.options p.node.body
  return .listed (← p.node.body.mapM (pairIn pr p labels))

def hash : DocRule := fun pr p => do
  match ← p.node.child 0 with
  | .null => emptyCollection p.node "\x7b" "\x7d"
  | contents =>
      let doc ← pr.print p contents
      let doc := Doc.cat
        ["\x7b", .indented [.line, doc, trailingComma pr.options], .line, "\x7d"]
      let doc := if p.parentIs ["assoc_new"] then doc else .grouped [doc]
      Comments.splice doc p.node.comments p.node.endLine?

end RubyPretty.Rules
