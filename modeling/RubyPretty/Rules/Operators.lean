import RubyPretty.Printing.Chain
import RubyPretty.Rules.Tokens
import RubyPretty.Text.Basic
/-!
# Operators
-/

namespace RubyPretty.Rules

def binary : DocRule := fun pr p => do
  let [left, operator, right] := p.node.body | throw .malformed
  let operator ← operatorValue operator
  let isPower := operator.text? == some "**"
  let space : Doc := if isPower then .empty else " "
  let leftDoc := Doc.grouped [← pr.print p left]
  let rightDoc ← pr.print p right
  let operator ← plainText operator
  -- an operand that opens a bracket stays beside the operator
  if Chain.noIndentTags.contains (← right.asNode).tag then
    return .grouped [leftDoc, space, operator, space, .grouped [rightDoc]]
  let lineEnd := if isPower then Doc.softline else Doc.line
  return .grouped [leftDoc, space, .grouped [.indented [operator, lineEnd, rightDoc]]]

def unary : DocRule := fun pr p => do
  let [operator, operand] := p.node.body | throw .malformed
  let operator ← (← operatorValue operator).asText
  let operand ← pr.print p operand
  if operator = "not" then return .cat ["not ", operand]
  -- the names of the unary minus and plus end with an at sign
  return .cat [Text.trimEndOf (· == '@') operator, operand]

def negation : DocRule := fun pr p => do
  match ← p.node.child 0 with
  | .null => return "not()"
  | operand =>
      if (← operand.asNode).tag = "paren" then return .cat ["not", ← pr.print p operand]
      return .cat ["not ", ← pr.print p operand]

def range (dots : String) : DocRule := fun pr p => do
  let [left, right] := p.node.body | throw .malformed
  return .cat [← pr.print p left, dots, ← pr.print p right]

end RubyPretty.Rules
