import RubyPretty.Rules.Conditionals
/-!
# Loops
-/

namespace RubyPretty.Rules

def loopWithBody (keyword : String) (isModifier : Bool) : DocRule := fun pr p => do
  let [predicate, body] := p.node.body | throw .malformed
  let predicateDoc ← pr.print p predicate
  let bodyDoc ← pr.print p body
  let inlined := inlineForm p [bodyDoc, " " ++ keyword ++ " ", predicateDoc]
  -- `begin ... end while x` runs its body before the first test
  let runsFirst ← if isModifier then do pure ((← body.asNode).tag == "begin") else pure false
  if runsFirst then return inlined
  let onLines := Doc.cat
    [keywordPredicate keyword predicateDoc, .indented [.softline, bodyDoc], .softline, "end"]
  if !pr.options.modifier || Shape.containsAssignment predicate then
    return .cat [.breakParent, onLines]
  return .grouped [.either onLines inlined]

def loop (keyword : String) (isModifier : Bool) : DocRule := fun pr p => do
  let [predicate, body] := p.node.body | throw .malformed
  let isEmpty ← if isModifier then pure false else Shape.isEmptyStatements body
  if isEmpty then
    return .grouped [.grouped [keyword, " ", ← pr.print p predicate], .hardline, "end"]
  loopWithBody keyword isModifier pr p

def forLoop : DocRule := fun pr p => do
  let [target, iterable, stmts] := p.node.body | throw .malformed
  let target ← pr.print p target
  let iterable ← pr.print p iterable
  return .grouped ["for ", target, " in ", iterable, ← indentedBody pr p stmts, .hardline, "end"]

end RubyPretty.Rules
