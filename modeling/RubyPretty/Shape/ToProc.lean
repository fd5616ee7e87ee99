import RubyPretty.Shape.Conditionals
import RubyPretty.Syntax.Outline
/-!
# Blocks that only call a method

A block whose single statement calls a method without arguments on its only parameter can be
passed as `&:method`.
-/

namespace RubyPretty.Shape

def singleParam? (params : Tree) : Outcome (Option Tree) := do
  let [reqs, opts, rest, posts, keywords, kwrest, block] := params.body | .error .malformed
  let reqs ← reqs.asOptionalElements
  if [opts, rest, posts, keywords, kwrest, block].any (·.truth) then return none
  match reqs with
  | [.node param] => return if param.tag = "@ident" then some param else none
  | _ => return none

/-- The statements of a block; none if it has clauses of its own. -/
def blockStatements? (block : Tree) : Outcome (Option Tree) := do
  if block.tag ≠ "do_block" then return some (← block.childNode 1)
  let [stmts, rescue, elseClause, ensure] := (← block.childNode 1).body | .error .malformed
  if rescue.isNull && elseClause.isNull && ensure.isNull then return some (← stmts.asNode)
  return none

def methodOn? (param stmt : Tree) : Outcome (Option String) := do
  if stmt.tag ≠ "call" || stmt.hasComments then return none
  let [receiver, operator, message] := stmt.body | .error .malformed
  let receiver ← receiver.asNode
  if receiver.tag ≠ "var_ref" || receiver.hasComments then return none
  let name ← (← receiver.childNode 0).carried
  if !name.same (← param.carried) then return none
  if !(← operatorIn [".", "::"] operator) then return none
  match message with
  | .node m =>
      if m.tag = "@ident" && !m.hasComments then return some (← m.carried).display
      else return none
  | _ => return none

/-- The `&:method` form of a block that can be passed in that way. -/
def toProc (block : Tree) : Outcome (Option String) := do
  match ← block.child 0 with
  | .null => return none
  | blockVar =>
      let params ← (← blockVar.item 0).asNode
      let some param ← singleParam? params | return none
      let some stmts ← blockStatements? block | return none
      let statements ← stmts.body.mapM Value.asNode
      match statements with
      | [stmt] =>
          if stmt.tag = "void_stmt" then return none
          return (← methodOn? param stmt).map ("&:" ++ ·)
      | _ => return none

end RubyPretty.Shape
