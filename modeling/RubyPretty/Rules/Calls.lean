import RubyPretty.Printing.Chain
import RubyPretty.Rules.Arguments
import RubyPretty.Rules.Tokens
/-!
# Calls with receivers and arguments
-/

namespace RubyPretty.Rules

def isConstToken (v : Value) : Bool := v.tag? == some "@const"

/-- The operator of a call. `Foo::bar` is written as `Foo.bar`, which means the same. -/
def callOperator (operator message : Value) : Outcome Value := do
  match ← operatorValue operator with
  | .text "::" => return .text (if isConstToken message then "::" else ".")
  | v => return v

/-- Whether a message continues `.where` with `.not`, which stay together. -/
def isWhereNot (receiver : Tree) (message : Value) : Outcome Bool := do
  if receiver.tag ≠ "call" then return false
  let .node message := message | return false
  if message.tag = "@op" then return false
  let .node inner ← receiver.child 2 | return false
  if (← inner.token) ≠ "where" then return false
  return (← message.token) = "not"

/-- Whether a value is the message of a call without a name: `foo.()`. -/
def isBareMessage : Value → Bool
  | .text s => s == "call"
  | _ => false

def call : Rule := fun pr p => do
  let [receiver, operator, message] := p.node.body | throw .malformed
  let received ← pr.visitChild p receiver
  let operator ← callOperator operator message
  let messageDoc ← if isBareMessage message then pure .empty else pr.print p message
  let operatorDoc ← plainText operator
  -- a comment above the message keeps the operator on the line of the receiver
  let operatorTrails := message.node?.any (·.hasLeadingComments)
  let left := if operatorTrails then .cat [received.doc, operatorDoc] else received.doc
  let right := if operatorTrails then [messageDoc] else [operatorDoc, messageDoc]
  let source ← receiver.asNode
  if Chain.noIndentTags.contains source.tag then return ⟨.cat (left :: right), none⟩
  let right ←
    if ← isWhereNot source message then pure right
    else pure ((if source.hasComments then Doc.hardline else Doc.softline) :: right)
  let tail := if operatorTrails then operatorDoc :: right else right
  let pieces := if received.link.isSome then tail else right
  let link ← Chain.next p receiver received.link left pieces true
  match ← Chain.closing? pr p received.link with
  | some chain => return ⟨Chain.vertical chain (.cat tail) (.cat [left, .grouped right]), none⟩
  | none => return ⟨.grouped [left, .grouped [.indented right]], link⟩

def callName : DocRule := fun pr p => pr.printChild p 0

/-- Whether a call without arguments keeps its parentheses: a constant would be no call without
them, and a call without a name has nothing else. -/
def keepsParens (callee : Tree) : Outcome Bool := do
  if callee.tag = "fcall" then return isConstToken (.node (← callee.childNode 0))
  if callee.tag = "call" then return isBareMessage (← callee.child 2)
  return false

def callWithArgumentsAnd (extra : List Doc) : Rule := fun pr p => do
  let [callee, argument] := p.node.body | throw .malformed
  let method ← pr.visitChild p callee
  let argument ← argument.asNode
  let isParen := argument.tag = "arg_paren"
  let (inner, contents) ←
    if isParen then do pure (p.below argument, ← argument.child 0)
    else pure (p, .node argument)
  let docs := (← argumentList pr inner contents) ++ extra
  if docs.isEmpty && contents.tag? ≠ some "@args_forward" then
    if ← keepsParens (← callee.asNode) then return ⟨.cat [method.doc, "()"], none⟩
    return ⟨method.doc, none⟩
  let argsDoc ← parenthesized pr (if extra.isEmpty then contents else .null) docs
  let argsDoc ←
    if isParen && argument.hasComments then Comments.splice argsDoc argument.comments none
    else pure argsDoc
  let link ← Chain.next p callee method.link method.doc [argsDoc] false
  match ← Chain.closing? pr p method.link with
  | some chain => return ⟨Chain.finish chain method.doc argsDoc, none⟩
  | none => return ⟨.cat [method.doc, argsDoc], link⟩

def callWithArguments : Rule := callWithArgumentsAnd []

end RubyPretty.Rules
