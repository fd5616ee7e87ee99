import RubyPretty.Rules.Conditionals
import RubyPretty.Rules.Parameters
import RubyPretty.Syntax.Outline
/-!
# Case distinctions and patterns
-/

namespace RubyPretty.Rules

def case : DocRule := fun pr p => do
  let [value, clause] := p.node.body | throw .malformed
  let value ← if value.isNull then pure .empty else do pure (.cat [" ", ← pr.print p value])
  return .cat ["case", value, .hardline, ← pr.print p clause, .hardline, "end"]

/-- Contents and separators in turn; a comma stays with the content before it. -/
def commaItems : List Doc → List Doc
  | [] => []
  | [d] => [d]
  | d :: ds => .cat [d, ","] :: .line :: commaItems ds

def caseClause (pr : Printer) (p : Place) (head : Doc) (stmts addition : Value) : PrintM Doc := do
  let body ← indentedBody pr p stmts
  return .grouped (head :: body :: (← clauseBelow pr p addition))

def whenClause : DocRule := fun pr p => do
  let [args, stmts, addition] := p.node.body | throw .malformed
  let predicates ← argumentList pr p args
  caseClause pr p (keywordPredicate "when" (.filled (commaItems predicates))) stmts addition

def inClause : DocRule := fun pr p => do
  let [pattern, stmts, addition] := p.node.body | throw .malformed
  caseClause pr p (keywordPredicate "in" (← pr.print p pattern)) stmts addition

def patternParentTags : List String := ["aryptn", "binary", "hshptn", "rassign"]

def arrayPattern : DocRule := fun pr p => do
  let constant :: items := p.node.body | throw .malformed
  let args := Doc.grouped [.listed (← pr.printAll p items)]
  if !constant.isNull then return .cat [← pr.print p constant, "[", args, "]"]
  -- a lone element without brackets would match the whole value
  if p.parentIs patternParentTags || items.length < 2 then return .cat ["[", args, "]"]
  return args

def patternPair (pr : Printer) (p : Place) (v : Value) : PrintM Doc := do
  if v.node?.isSome then return ← pr.print p v
  let (key, value) ← pairParts v
  let key ← pr.print p key
  if value.isNull then return key
  return .cat [key, " ", ← pr.print p value]

def hashPattern : DocRule := fun pr p => do
  let [constant, pairs] := p.node.body | throw .malformed
  match ← pairs.asElements with
  | [] =>
      if constant.isNull then return "\x7b\x7d"
      return .cat [← pr.print p constant, "[]"]
  | pairs =>
      let args := Doc.grouped [.listed (← pairs.mapM (patternPair pr p))]
      if !constant.isNull then return .cat [← pr.print p constant, "[", args, "]"]
      if p.parentIs patternParentTags then return .cat ["\x7b ", args, " \x7d"]
      return args

def rightAssign : DocRule := fun pr p => do
  let [value, operator, pattern] := p.node.body | throw .malformed
  let value ← pr.print p value
  return .grouped
    [value, " " ++ operator.display, .grouped [.indented [.line, ← pr.print p pattern]]]

end RubyPretty.Rules
