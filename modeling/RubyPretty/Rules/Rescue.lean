import RubyPretty.Rules.Statements
/-!
# Rescue and ensure
-/

namespace RubyPretty.Rules

def rescue : DocRule := fun pr p => do
  let [exceptions, stmts, next] := p.node.body | throw .malformed
  -- a clause without exceptions catches standard errors, and says so
  let exceptions ←
    if exceptions.isNull then pure (Doc.text " StandardError")
    else do pure (.aligned 7 [← pr.print p exceptions])
  let body ← indentedBody pr p stmts
  return .grouped (Doc.text "rescue" :: exceptions :: body :: (← clauseBelow pr p next))

def exceptionList (ds : List Doc) : Doc := .cat [" ", .grouped [.listed ds]]

/-- The exceptions of a clause: a list, a container of arguments or a single one. -/
def exceptions (pr : Printer) (p : Place) : Value → PrintM Doc
  | .null | .list [] => return " StandardError"
  | .list vs => do return exceptionList (← pr.printAll p vs)
  | v => do
      let n ← v.asNode
      if containerTags.contains n.tag || n.tag = "mrhs" then
        return exceptionList (← argumentList pr p v)
      return .cat [" ", ← pr.print p v]

def rescueExceptions : DocRule := fun pr p => do
  let [list, variable_] := p.node.body | throw .malformed
  let list ← exceptions pr p list
  if variable_.isNull then return .grouped [list]
  return .grouped [list, " => ", ← pr.print p variable_]

def ensure : DocRule := fun pr p => do
  return .cat ["ensure", ← indentedBody pr p (← p.node.child 0)]

/-- The modifier is written out: it catches standard errors too. -/
def rescueModifier : DocRule := fun pr p => do
  let [statement, value] := p.node.body | throw .malformed
  let statement ← pr.print p statement
  let value ← pr.print p value
  return .cat
    ["begin", .indented [.hardline, statement], .hardline, "rescue StandardError",
      .indented [.hardline, value], .hardline, "end"]

end RubyPretty.Rules
