import RubyPretty.Rules.Calls
import RubyPretty.Shape.Statements
/-!
# Variables, constants and assignment
-/

namespace RubyPretty.Rules

def variableName : DocRule := fun pr p => pr.printChild p 0

def constPath : DocRule := fun pr p => do return .joined "::" (← pr.printAll p p.node.body)

def topConst : DocRule := fun pr p => do return .cat ["::", ← pr.printChild p 0]

def field : DocRule := fun pr p => do
  let [receiver, operator, name] := p.node.body | throw .malformed
  let receiver ← pr.print p receiver
  let operator ← callOperator operator name
  let name ← pr.print p name
  return .grouped [receiver, ← plainText operator, name]

def index : DocRule := fun pr p => do
  let [collection, index] := p.node.body | throw .malformed
  let collection ← pr.print p collection
  if index.isNull then return .cat [collection, "[]"]
  let docs ← argumentList pr p index
  return .grouped [collection, "[", .indented [.softline, .listed docs], .softline, "]"]

def definedCheck : DocRule := fun pr p => do
  return .enclosed "defined?(" [← pr.printChild p 0] ")"

def assign : DocRule := fun pr p => do
  let [target, value] := p.node.body | throw .malformed
  let targetDoc ← pr.print p target
  let valueDoc ← pr.print p value
  if ← Shape.skipsAssignIndent value then return .grouped [targetDoc, " = ", valueDoc]
  return .grouped [targetDoc, " =", .indented [.line, valueDoc]]

def operatorAssign : DocRule := fun pr p => do
  let [target, operator, value] := p.node.body | throw .malformed
  return .grouped
    [← pr.print p target, " ", ← pr.print p operator, .indented [.line, ← pr.print p value]]

def multipleAssign : DocRule := fun pr p => do
  let [targets, value] := p.node.body | throw .malformed
  return .grouped
    [.grouped [← pr.print p targets], " =", .indented [.line, ← pr.print p value]]

def isSplat (target : Tree) : Bool := ["arg_star", "rest_param"].contains target.tag

def targets : DocRule := fun pr p => do
  let docs ← pr.printAll p p.node.body
  match p.node.body with
  | [only] =>
      if isSplat (← only.asNode) then return .listed docs
      -- with the comma the first element is assigned, without it the whole list
      return .cat [.listed docs, ","]
  | _ => return .listed docs

/-- Targets between parentheses, which those of the whole assignment do not need. -/
def targetsParen : DocRule := fun pr p => do
  let doc ← pr.printChild p 0
  if p.parentIs ["massign", "mlhs_paren"] then return doc
  return .enclosed "(" [doc] ")"

def values : DocRule := fun pr p => do return .grouped [.listed (← pr.printAll p p.node.body)]

end RubyPretty.Rules
