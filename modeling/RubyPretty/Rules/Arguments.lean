import RubyPretty.Printing.Printer
/-!
# Arguments
-/

namespace RubyPretty.Rules

def containerTags : List String := ["args", "args_add_block"]

def spliceLast (comments : List Comment) : List Doc → Outcome (List Doc)
  | [] => return []
  | [d] => do return [← Comments.splice d comments none]
  | d :: ds => do return d :: (← spliceLast comments ds)

def arguments (pr : Printer) (around : List Tree) : Value → PrintM (List Doc)
  | .node ⟨tag, body, comments, loc⟩ => do
      let p : Place := ⟨⟨tag, body, comments, loc⟩, around⟩
      let docs ←
        if tag = "args" then pr.printAll p body
        else match body with
          | [args, block] => do
              let docs ← match args with
                | .null => pure []
                | args => arguments pr (p.node :: around) args
              if block.isNull then pure docs
              else pure (docs ++ [.cat ["&", ← pr.print p block]])
          | _ => throw .malformed
      spliceLast comments docs
  | _ => throw .malformed

/-- The printed arguments of a child that is a container or a single argument. -/
def argumentList (pr : Printer) (p : Place) (child : Value) : PrintM (List Doc) :=
  match child with
  | .null => return []
  | .node n =>
      if containerTags.contains n.tag then arguments pr (p.node :: p.around) child
      else return [← pr.print p child]
  | _ => throw .malformed

/-- The arguments in a child that is a container or a single argument. -/
def argumentNodes : Value → Outcome (List Value)
  | .null => return []
  | .node ⟨tag, body, comments, loc⟩ =>
      if tag = "args" then return body
      else if tag = "args_add_block" then
        match body with
        | [args, block] => do
            let nodes ← argumentNodes args
            return if block.isNull then nodes else nodes ++ [block]
        | _ => .error .malformed
      else return [.node ⟨tag, body, comments, loc⟩]
  | _ => .error .malformed

/-- A comma after the last element of a broken list, if the options ask for it. -/
def trailingComma (o : Options) : Doc := if o.trailingCommas then .either "," "" else .empty

def hasBlockArgument (contents : Tree) : Outcome Bool := do
  if contents.tag ≠ "args_add_block" then return false
  return !(← contents.child 1).isNull

/-- As `trailingComma`, for arguments: nothing may follow a block argument or a command. -/
def argumentsComma (o : Options) (contents : Value) : Outcome Doc := do
  if !o.trailingCommas || contents.isNull then return .empty
  if ← hasBlockArgument (← contents.asNode) then return .empty
  match ← argumentNodes contents with
  | [only] =>
      if ["command", "command_call"].contains (← only.asNode).tag then return .empty
      return trailingComma o
  | _ => return trailingComma o

def parenthesized (pr : Printer) (contents : Value) (docs : List Doc) : Outcome Doc := do
  if contents.tag? = some "@args_forward" then return .enclosed "(" ["..."] ")"
  return .enclosed "(" [.listed docs, ← argumentsComma pr.options contents] ")"

def args : DocRule := fun pr p => do
  return .joined ", " (← arguments pr p.around (.node p.node))

def argParen : DocRule := fun pr p => do
  match ← p.node.child 0 with
  | .null => return "()"
  | contents => parenthesized pr contents (← argumentList pr p contents)

def argStar : DocRule := fun pr p => do return .cat ["*", ← pr.printChild p 0]

def blockArg : DocRule := fun pr p => do return .cat ["&", ← pr.printChild p 0]

end RubyPretty.Rules
