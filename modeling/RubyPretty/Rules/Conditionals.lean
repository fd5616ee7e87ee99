import RubyPretty.Printing.Printer
import RubyPretty.Rules.Statements
import RubyPretty.Shape.Conditionals
/-!
# Conditionals
-/

namespace RubyPretty.Rules

/-- A branch of a ternary, where `not x` is written as `not(x)`. -/
def ternaryClause (pr : Printer) (p : Place) (clause : Value) : PrintM Doc := do
  let n ← clause.asNode
  let place ←
    if n.tag = "stmts" then do pure ((p.below n).below (← n.childNode 0))
    else pure (p.below n)
  if place.node.tag = "not" then
    match ← place.node.child 0 with
    | .null => pr.print p clause
    | operand => return .cat ["not(", ← pr.print place operand, ")"]
  else pr.print p clause

/-- The keywords of a condition; the branches of `unless` come in the other order. -/
inductive Condition where
  | isTrue
  | isFalse
deriving DecidableEq, Repr

def Condition.keyword : Condition → String
  | .isTrue => "if"
  | .isFalse => "unless"

def Condition.branches : Condition → Doc → Doc → List Doc
  | .isTrue, truthy, falsy => [truthy, " : ", falsy]
  | .isFalse, truthy, falsy => [falsy, " : ", truthy]

def keywordPredicate (keyword : String) (predicate : Doc) : Doc :=
  .cat [keyword ++ " ", .aligned (keyword.length + 1) [predicate]]

def clauseBody (pr : Printer) (p : Place) (stmts : Value) : PrintM Doc := do
  if ← Shape.isEmptyStatements stmts then return .empty
  return .indented [.softline, ← pr.print p stmts]

def withAddition (pr : Printer) (p : Place) (keyword : String) : PrintM Doc := do
  let [predicate, stmts, addition] := p.node.body | throw .malformed
  let predicate ← pr.print p predicate
  let body ← clauseBody pr p stmts
  let addition ← pr.print p addition
  return .cat
    [keywordPredicate keyword predicate, body, .softline, addition, .softline, "end"]

def blockForm (keyword : String) (predicate body : Doc) : Doc :=
  let body := match body with
    | .empty => .empty
    | body => .indented [.hardline, body]
  .cat [keywordPredicate keyword predicate, body, .hardline, "end"]

/-- Parents that bind tighter than a modifier. -/
def inlineParenTags : List String :=
  ["args", "assign", "assoc_new", "binary", "call", "massign", "opassign"]

/-- A modifier form, between parentheses where the parent would take a part of it. -/
def inlineForm (p : Place) (ds : List Doc) : Doc :=
  if p.parentIs inlineParenTags then .cat (Doc.text "(" :: ds ++ [.text ")"]) else .cat ds

def bodyHasComments (stmts : Value) : Outcome Bool := do
  let n ← stmts.asNode
  if n.hasComments then return true
  n.body.anyM fun s => do return (← s.asNode).hasComments

def singleConditional (keyword : String) (isModifier : Bool) : DocRule := fun pr p => do
  let predicate :: statements :: _ := p.node.body | throw .malformed
  let predicateDoc ← pr.print p predicate
  let statementsDoc ← pr.print p statements
  let multiline := Doc.cat
    [keywordPredicate keyword predicateDoc, .indented [.softline, statementsDoc], .softline, "end"]
  let commented ← if isModifier then pure false else bodyHasComments statements
  if !pr.options.modifier || commented then return .cat [multiline, .breakParent]
  let inlined := inlineForm p [statementsDoc, " " ++ keyword ++ " ", predicateDoc]
  -- the predicate may read what the body declares, so the body has to come first
  if isModifier && Shape.containsAssignment statements then return inlined
  return .grouped [.either multiline inlined]

def ternary (pr : Printer) (p : Place) (condition : Condition) : PrintM Doc := do
  let [predicate, stmts, addition] := p.node.body | throw .malformed
  let predicate ← pr.print p predicate
  let truthy ← ternaryClause pr p stmts
  let addition ← addition.asNode
  let falsy ← ternaryClause pr (p.below addition) (← addition.child 0)
  let ds := predicate :: Doc.text " ? " :: condition.branches truthy falsy
  return if p.parentIs ["binary", "call"] then .cat (Doc.text "(" :: ds ++ [.text ")"]) else .cat ds

def canBeTernary (o : Options) (n : Tree) : Outcome Bool :=
  if o.inlineConditionals then Shape.canTernary n else return false

/-- Whether a modifier would hide an assignment from the body, or pile up on another one. -/
def refusesModifier (predicate stmts : Value) : Outcome Bool := do
  if Shape.containsAssignment predicate then return true
  Shape.isSingleConditional (← stmts.asNode)

def conditional (condition : Condition) : DocRule := fun pr p => do
  let [predicate, stmts, addition] := p.node.body | throw .malformed
  let keyword := condition.keyword
  if ← canBeTernary pr.options p.node then
    let flat ← ternary pr p condition
    return .grouped [.either (← withAddition pr p keyword) flat]
  if !addition.isNull then return .grouped [← withAddition pr p keyword, .breakParent]
  if ← Shape.isEmptyStatements stmts then
    return blockForm keyword (← pr.print p predicate) .empty
  if ← refusesModifier predicate stmts then
    let predicate ← pr.print p predicate
    return blockForm keyword predicate (← pr.print p stmts)
  singleConditional keyword false pr p

def elsif : DocRule := fun pr p => do
  let [predicate, stmts, addition] := p.node.body | throw .malformed
  let head := Doc.grouped [keywordPredicate "elsif" (← pr.print p predicate)]
  let body ← indentedBody pr p stmts
  return .grouped [head, body, .grouped (← clauseBelow pr p addition)]

def elseClause : DocRule := fun pr p => do
  let stmts ← p.node.childNode 0
  let isCommand ← match stmts.body with
    | [stmt] => do pure ((← stmt.asNode).tag == "command")
    | _ => pure false
  -- a command reads badly in a ternary
  let forced := if isCommand then .breakParent else .empty
  return .cat [forced, "else", ← clauseBody pr p (.node stmts)]

def ternaryOperator : DocRule := fun pr p => do
  let [predicate, truthy, falsy] := p.node.body | throw .malformed
  let predicate ← pr.print p predicate
  let truthy ← ternaryClause pr p truthy
  let falsy ← ternaryClause pr p falsy
  return .grouped [.either
    (.cat
      [keywordPredicate "if" predicate, .indented [.softline, truthy], .softline, "else",
        .indented [.softline, falsy], .softline, "end"])
    (.cat (predicate :: Doc.text " ? " :: Condition.isTrue.branches truthy falsy))]

end RubyPretty.Rules
