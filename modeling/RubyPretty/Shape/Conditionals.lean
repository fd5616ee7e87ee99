import RubyPretty.Syntax.Access
/-!
# Conditions on one line

When a condition with two branches can be written as `a ? b : c`, and when a body is only another
condition.
-/

namespace RubyPretty.Shape

def noTernaryTags : List String :=
  ["alias", "assign", "break", "command", "command_call", "heredoc", "if", "if_mod", "ifop",
    "lambda", "massign", "next", "opassign", "rescue_mod", "return", "return0", "super", "undef",
    "unless", "unless_mod", "until_mod", "var_alias", "void_stmt", "while_mod", "yield", "yield0",
    "zsuper"]

/-- Whether an operator is one of these texts; a value that is no operator is none of them. -/
def operatorIn (texts : List String) : Value → Outcome Bool
  | .node n => do return (← n.carried).text?.any texts.contains
  | v => return v.text?.any texts.contains

def isAndOr (n : Tree) : Outcome Bool := do
  if n.tag ≠ "binary" then return false
  operatorIn ["and", "or"] (← n.child 1)

/-- Whether a predicate binds looser than a ternary: `and`, `or` and `not` do. -/
def isKeywordPredicate (n : Tree) : Outcome Bool := do
  if n.tag = "not" then return true
  if n.tag = "unary" then return ← operatorIn ["not"] (← n.child 0)
  isAndOr n

/-- A branch of one statement that needs no parentheses. -/
def isTernaryBranch (stmts : Tree) : Outcome Bool := do
  if stmts.hasComments then return false
  match stmts.body with
  | [stmt] =>
      let stmt ← stmt.asNode
      if stmt.hasComments then return false
      if ← isAndOr stmt then return false
      return !noTernaryTags.contains stmt.tag
  | _ => return false

def canTernary (condition : Tree) : Outcome Bool := do
  let [predicate, stmts, addition] := condition.body | .error .malformed
  let predicate ← predicate.asNode
  if ["assign", "opassign", "command_call", "command"].contains predicate.tag then return false
  if ← isKeywordPredicate predicate then return false
  if addition.isNull then return false
  let addition ← addition.asNode
  if addition.tag ≠ "else" then return false
  if !(← isTernaryBranch (← stmts.asNode)) then return false
  isTernaryBranch (← addition.childNode 0)

def isSingleConditional (stmts : Tree) : Outcome Bool := do
  match stmts.body with
  | [stmt] =>
      return ["if", "if_mod", "ifop", "unless", "unless_mod"].contains (← stmt.asNode).tag
  | _ => return false

end RubyPretty.Shape
