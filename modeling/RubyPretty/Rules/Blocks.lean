import RubyPretty.Doc.Flat
import RubyPretty.Rules.Commands
import RubyPretty.Rules.Parameters
import RubyPretty.Shape.Labels
import RubyPretty.Shape.ToProc
/-!
# Blocks and lambdas
-/

namespace RubyPretty.Rules

def commandTags : List String := ["command", "command_call"]

def inIndex : List Tree → Bool
  | [] => false
  | n :: ns =>
      if ["args", "args_add_block", "arg_paren"].contains n.tag then inIndex ns
      else ["aref", "aref_field"].contains n.tag

/-- Whether the block at a place may be passed as `&:method`: never inside the brackets of an
index, and not as the value of a guarded hash key. -/
def toProcAllowed (o : Options) (p : Place) : Outcome Bool := do
  if inIndex p.around then return false
  match p.parent? with
  | some pair =>
      if pair.tag ≠ "assoc_new" then return true
      let name ← Shape.keyName? (← pair.childNode 0)
      return !(name.any o.guardedKeys.contains)
  | none => return true

def shorthand? (pr : Printer) (p : Place) (block : Tree) : Outcome (Option String) := do
  if !pr.options.toProc || block.hasComments then return none
  if ← toProcAllowed pr.options p then Shape.toProc block else return none

/-- A call with its block passed as an argument; none for a callee that cannot take it. -/
def withBlockArgument? (pr : Printer) (p : Place) (callee : Tree) (block : Doc) :
    PrintM (Option Doc) := do
  let through (rule : Rule) : PrintM (Option Doc) := do
    return some (← pr.apply rule (p.below callee)).doc
  match callee.tag with
  | "call" =>
      return some (.grouped
        [← pr.print p (.node callee), "(", .indented [.softline, block], .softline, ")"])
  | "method_add_arg" => through (callWithArgumentsAnd [block])
  | "command" => through (.ofDoc (commandAnd [block]))
  | "command_call" => through (.ofDoc (receiverCommandAnd [block]))
  | "fcall" | "vcall" => return some (.cat [← pr.print p (.node callee), "(", block, ")"])
  | _ => return none

def callWithPlainBlock (pr : Printer) (p : Place) (callee block : Value) : PrintM Printed := do
  let called ← pr.visitChild p callee
  let blockDoc ← pr.print p block
  let link ← Chain.next p callee called.link called.doc [blockDoc] false
  match ← Chain.closing? pr p called.link with
  | some chain => return ⟨Chain.finish chain called.doc blockDoc, none⟩
  | none => return ⟨.cat [called.doc, blockDoc], link⟩

def callWithBlock : Rule := fun pr p => do
  let [callee, block] := p.node.body | throw .malformed
  let proc ← if pr.options.toProc then shorthand? pr p (← block.asNode) else pure none
  match proc with
  | none => callWithPlainBlock pr p callee block
  | some proc =>
      match ← withBlockArgument? pr p (← callee.asNode) proc with
      | some doc => return ⟨doc, none⟩
      | none => callWithPlainBlock pr p callee block

def blockVar : DocRule := fun pr p => do
  let [params, locals] := p.node.body | throw .malformed
  let paramsDoc := (← pr.print p params).flatten
  let localsDoc ←
    if locals.truth then do
      pure (.cat ["; ", .joined ", " (← pr.printAll p (← locals.asElements))])
    else pure .empty
  return .cat ["|", paramsDoc, localsDoc, "|"]

def isVoid (v : Value) : Outcome Bool := do return (← v.asNode).tag = "void_stmt"

def holdsOnlyVoid (stmts : Value) : Outcome Bool := do (← stmts.asNode).body.allM isVoid

def bodyParts (body : Tree) : Outcome (Value × Bool) := do
  return (← body.child 0, (body.body.drop 1).any (!·.isNull))

def block : DocRule := fun pr p => do
  let [vars, body] := p.node.body | throw .malformed
  let isBrace := p.node.tag = "brace_block"
  let (stmts, hasClauses) ←
    if isBrace then pure (body, false) else bodyParts (← body.asNode)
  -- in the arguments of a command `do` would belong to the command
  let useBraces := isBrace && p.inside commandTags
  let opening : Doc := if useBraces then "\x7b" else "do"
  let closing : Doc := if useBraces then "\x7d" else "end"
  let varsDoc ← if vars.isNull then pure .empty else do pure (.cat [" ", ← pr.print p vars])
  if hasClauses then
    return .cat [.breakParent, " ", opening, varsDoc, ← pr.print p body, .hardline, closing]
  let statements ←
    if p.node.tag = "do_block" then do pr.print (p.below (← body.asNode)) stmts
    else pr.print p stmts
  let empty ← Shape.isEmptyStatements stmts
  let onLines := Doc.cat
    [" ", opening, varsDoc, if empty then .empty else .indented [.softline, statements],
      .softline, closing]
  let onlyComments := (← holdsOnlyVoid stmts) && !empty
  let ofCommand ← match p.parent? with
    | some parent =>
        if parent.tag = "method_add_block" then do
          pure (commandTags.contains (← parent.childNode 0).tag)
        else pure false
    | none => pure false
  if onlyComments || ofCommand then return .cat [.breakParent, onLines]
  let onOneLine : Doc :=
    if empty && vars.isNull then " \x7b\x7d"
    else .cat [" \x7b", varsDoc, if empty then .empty else .cat [" ", statements], " \x7d"]
  return .grouped [.either onLines onOneLine]

/-- The statements of a lambda with their printed form; none if it has clauses. -/
def lambdaStatements (pr : Printer) (p : Place) (body : Tree) : PrintM (Option (Value × Doc)) := do
  if body.tag ≠ "bodystmt" then return some (.node body, ← pr.print p (.node body))
  let (stmts, hasClauses) ← bodyParts body
  if hasClauses then return none
  return some (stmts, ← pr.print (p.below body) stmts)

def lambda : DocRule := fun pr p => do
  let [params, body] := p.node.body | throw .malformed
  let paramsDoc ← parameterList pr p (← params.asNode)
  let body ← body.asNode
  match ← lambdaStatements pr p body with
  | none =>
      return .cat
        [.breakParent, "->", paramsDoc, " do", ← pr.print p (.node body), .hardline, "end"]
  | some (stmts, statements) =>
      if ← Shape.isEmptyStatements stmts then return .cat ["->", paramsDoc, " \x7b\x7d"]
      let inCommand := p.inside commandTags
      let opening : Doc := if inCommand then "\x7b" else "do"
      let closing : Doc := if inCommand then "\x7d" else "end"
      return .grouped [.either
        (.cat ["->", paramsDoc, " ", opening, .indented [.line, statements], .line, closing])
        (.cat ["->", paramsDoc, " \x7b ", statements, " \x7d"])]

end RubyPretty.Rules
