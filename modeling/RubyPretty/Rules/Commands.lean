import RubyPretty.Doc.Flat
import RubyPretty.Rules.Calls
/-!
# Commands

Calls whose arguments have no parentheses. Arguments that break are aligned behind the name.
-/

namespace RubyPretty.Rules

def hasTernaryArgument (args : Value) : Outcome Bool := do
  (← argumentNodes args).anyM fun arg => do return (← arg.asNode).tag = "ifop"

def startsWithDef (args : Value) : Outcome Bool := do
  match ← argumentNodes args with
  | [] => return false
  | first :: _ => return ["def", "defs"].contains (← first.asNode).tag

def commandAnd (extra : List Doc) : DocRule := fun pr p => do
  let [name, args] := p.node.body | throw .malformed
  let command ← pr.print p name
  let joined := Doc.listed ((← argumentList pr p args) ++ extra)
  let broken ←
    if ← hasTernaryArgument args then
      pure (.cat [command, "(", .indented [.softline, joined], .softline, ")"])
    else do
      if ← startsWithDef args then pure (.cat [command, " ", joined])
      else pure (.cat [command, " ", .aligned (command.flatWidth + 1) [joined]])
  return .grouped [.either broken (.cat [command, " ", joined])]

def command : DocRule := commandAnd []

/-- Messages of expectations, which read better without alignment. -/
def expectationNames : List String := ["to", "not_to", "to_not"]

/-- A command on a receiver, with the arguments in `extra` after its own. -/
def receiverCommandAnd (extra : List Doc) : DocRule := fun pr p => do
  let [receiver, operator, message, args] := p.node.body | throw .malformed
  let receiver ← pr.print p receiver
  let operator ← callOperator operator message
  let name ← pr.print p message
  let docs := (← argumentList pr p args) ++ extra
  let parts := [receiver, ← plainText operator, name]
  if docs.isEmpty then return .cat parts
  let joined := Doc.listed docs
  let flat := Doc.cat (parts ++ [Doc.text " ", joined])
  let broken ←
    if ← hasTernaryArgument args then
      pure (.cat (parts ++ [Doc.text "(", .indented [.softline, joined], .softline, ")"]))
    else do
      if expectationNames.contains (← (← message.asNode).token) then pure flat
      else
        let head := Doc.cat (parts ++ [Doc.text " "])
        pure (.cat [head, .aligned head.flatWidth [joined]])
  return .grouped [.either broken flat]

def receiverCommand : DocRule := receiverCommandAnd []

def superCall : DocRule := fun pr p => do
  let args ← p.node.childNode 0
  if args.tag = "arg_paren" then return .cat ["super", ← pr.print p (.node args)]
  let docs ← argumentList pr p (.node args)
  return .grouped ["super ", .aligned 6 [.grouped [.listed docs]]]

def yieldCall : DocRule := fun pr p => do
  let args ← p.node.childNode 0
  if args.tag = "paren" then return .cat ["yield", ← pr.print p (.node args)]
  return .cat ["yield ", .joined ", " (← argumentList pr p (.node args))]

end RubyPretty.Rules
