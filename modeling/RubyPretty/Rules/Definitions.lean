import RubyPretty.Rules.Parameters
import RubyPretty.Rules.Tokens
/-!
# Definitions
-/

namespace RubyPretty.Rules

def isBareBody (body : Tree) : Outcome Bool := do
  if ← Shape.isEmptyBody body then return !body.hasComments else return false

def definitionBody? (pr : Printer) (p : Place) (body : Value) : PrintM (Option Doc) := do
  if ← isBareBody (← body.asNode) then return none else return some (← pr.print p body)

def methodDoc (declaration : List Doc) : Option Doc → Doc
  | none => .grouped (declaration ++ [Doc.text "; end"])
  | some body => .grouped [.grouped declaration, body, .hardline, "end"]

def methodDefinition : DocRule := fun pr p => do
  let [name, params, body] := p.node.body | throw .malformed
  let name ← pr.print p name
  let params ← parameterList pr p (← params.asNode)
  return methodDoc ["def ", name, params] (← definitionBody? pr p body)

def singletonMethod : DocRule := fun pr p => do
  let [target, operator, name, params, body] := p.node.body | throw .malformed
  let operator ← operatorValue operator
  let target ← pr.print p target
  let name ← pr.print p name
  let params ← parameterList pr p (← params.asNode)
  let body ← definitionBody? pr p body
  return methodDoc ["def ", target, ← plainText operator, name, params] body

def scopeDoc (declaration : Doc) : Option Doc → Doc
  | none => .grouped [declaration, .either .line "; ", "end"]
  | some body => .grouped [declaration, body, .hardline, "end"]

def classDefinition : DocRule := fun pr p => do
  let [constant, superclass, body] := p.node.body | throw .malformed
  let constant ← pr.print p constant
  let superclass ←
    if superclass.isNull then pure .empty else do pure (.cat [" < ", ← pr.print p superclass])
  return scopeDoc (.cat ["class ", constant, superclass]) (← definitionBody? pr p body)

def moduleDefinition : DocRule := fun pr p => do
  let [constant, body] := p.node.body | throw .malformed
  let constant ← pr.print p constant
  return scopeDoc (.grouped ["module ", constant]) (← definitionBody? pr p body)

def singletonClass : DocRule := fun pr p => do
  let [target, body] := p.node.body | throw .malformed
  let target ← pr.print p target
  return scopeDoc (.cat ["class << ", target]) (← definitionBody? pr p body)

def bareWord (pr : Printer) (p : Place) (symbol : Value) : PrintM Doc := do
  let n ← symbol.asNode
  if n.tag ≠ "symbol_literal" then return ← pr.print p symbol
  Comments.splice (← pr.printChild (p.below n) 0) n.comments n.endLine?

def aliasName : DocRule := fun pr p => do
  let [left, right] := p.node.body | throw .malformed
  -- a comment behind the first name has to end its line
  let separator := if (← left.asNode).hasComments then Doc.hardline else Doc.line
  let left ← bareWord pr p left
  let right ← bareWord pr p right
  return .grouped ["alias ", left, .grouped [.aligned 6 [separator, right]]]

def undefNames : DocRule := fun pr p => do
  let names ← p.node.body.mapM (bareWord pr p)
  return .grouped ["undef ", .aligned 6 [.listed names]]

end RubyPretty.Rules
