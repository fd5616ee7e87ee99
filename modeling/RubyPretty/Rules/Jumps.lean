import RubyPretty.Rules.Arguments
/-!
# Return, break and next
-/

namespace RubyPretty.Rules

/-- The place of the only argument in a container, if there is just one and no container around
it has comments. -/
def onlyArgument? (around : List Tree) : Value → Outcome (Option Place)
  | .node ⟨tag, body, comments, loc⟩ =>
      if tag = "args_add_block" then
        match body with
        | [inner, block] =>
            if !block.isNull || inner.isNull || !comments.isEmpty then return none
            else onlyArgument? (⟨tag, body, comments, loc⟩ :: around) inner
        | _ => .error .malformed
      else if tag = "args" then
        match body with
        | [inner] =>
            if !comments.isEmpty then return none
            else onlyArgument? (⟨tag, body, comments, loc⟩ :: around) inner
        | _ => return none
      else return some ⟨⟨tag, body, comments, loc⟩, around⟩
  | _ => .error .malformed

/-- The place of the only statement between parentheses, if there is just one and no comment
around it. -/
def parenStatement? (paren : Place) : Outcome (Option Place) := do
  if paren.node.hasComments then return none
  match ← paren.node.child 0 with
  | .null => return none
  | contents =>
      let stmts ← contents.asNode
      if stmts.tag ≠ "stmts" || stmts.hasComments then return none
      match stmts.body with
      | [stmt] => return some ((paren.below stmts).below (← stmt.asNode))
      | _ => return none

/-- Whether a statement means the same behind `return` without its parentheses. -/
def canSkipReturnParens (stmt : Tree) : Outcome Bool := do
  if stmt.tag = "not" then return false
  if stmt.tag ≠ "binary" then return true
  let operator ← stmt.child 1
  return operator.text? != some "and" && operator.text? != some "or"

/-- The values of a `return` with one argument. Those of an array of several are listed. -/
def returnedValues (pr : Printer) (arg : Place) : PrintM (List Doc) := do
  if arg.node.tag = "array" then
    if let .node list ← arg.node.child 0 then
      if list.tag = "args" && list.body.length > 1 then
        return ← argumentList pr arg (.node list)
  return [(← pr.visit arg).doc]

def returnDoc (values : List Doc) : Doc :=
  let several := values.length > 1
  .grouped
    ["return", .either (if several then " [" else "(") " ", .indented [.softline, .listed values],
      .softline, .either (if several then "]" else ")") ""]

def returnJump : DocRule := fun pr p => do
  let args ← p.node.child 0
  if (← argumentNodes args).isEmpty then return "return"
  match ← onlyArgument? (p.node :: p.around) args with
  | none => return returnDoc (← argumentList pr p args)
  | some arg =>
      if arg.node.tag ≠ "paren" then return returnDoc (← returnedValues pr arg)
      match ← parenStatement? arg with
      | none => return .cat ["return", ← pr.print p args]
      | some stmt =>
          if ← canSkipReturnParens stmt.node then return returnDoc (← returnedValues pr stmt)
          return .cat ["return", ← pr.print p args]

/-- Statements that would swallow the keyword if their parentheses were left out. -/
def parenBoundTags : List String :=
  ["if_mod", "rescue_mod", "unless_mod", "until_mod", "while_mod"]

def parenJump (pr : Printer) (keyword : String) (paren : Place) : PrintM Doc := do
  match ← parenStatement? paren with
  | some stmt =>
      if !parenBoundTags.contains stmt.node.tag then
        return .cat [keyword ++ " ", ← pr.printChild paren 0]
      return .cat [keyword, (← pr.visit paren).doc]
  | none => return .cat [keyword, (← pr.visit paren).doc]

def jump (keyword : String) : DocRule := fun pr p => do
  let args ← p.node.child 0
  if (← argumentNodes args).isEmpty then return keyword
  match ← onlyArgument? (p.node :: p.around) args with
  | some arg =>
      if arg.node.tag = "paren" then return ← parenJump pr keyword arg
      return .cat [keyword ++ " ", .joined ", " (← argumentList pr p args)]
  | none => return .cat [keyword ++ " ", .joined ", " (← argumentList pr p args)]

end RubyPretty.Rules
