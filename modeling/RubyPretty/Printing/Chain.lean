import RubyPretty.Printing.Printer
/-!
# Method chains

A chain is a run of calls, argument lists and blocks that hang on each other by their receivers.
Each link is printed on its own; the rule at the end of a chain that is long enough also offers
the layout with one call a line, which the links have gathered on the way.
-/

namespace RubyPretty.Chain

def linkTags : List String := ["call", "method_add_arg", "method_add_block"]

/-- Receivers that the call on them follows directly. -/
def noIndentTags : List String :=
  ["array", "hash", "heredoc", "if", "method_add_block", "xstring_literal"]

/-- Whether the node at a place is a link that is followed by another one. -/
def continues (p : Place) : Bool := p.parentIs linkTags && !p.node.hasComments

def isSignatureCall (callee : Tree) : Outcome Bool := do
  let callee ← if callee.tag = "method_add_arg" then callee.childNode 0 else pure callee
  if ["fcall", "vcall", "var_ref"].contains callee.tag then
    return (← (← callee.childNode 0).token) = "sig"
  return false

def nearestIsSignature : List Tree → Outcome Bool
  | [] => return false
  | n :: ns =>
      if n.tag = "method_add_block" then do isSignatureCall (← n.childNode 0)
      else nearestIsSignature ns

/-- Whether a node is the body of a type signature, which is broken early. -/
def inSignature (p : Place) : Outcome Bool := nearestIsSignature ((p.around.drop 1).take 3)

def threshold (o : Options) (p : Place) : Outcome Nat := do
  return if ← inSignature p then o.signatureChainThreshold else o.chainThreshold

/-- Adds the pieces of a node to the chain below it, or starts one with `first`. -/
def extend (link : Option Link) (first : Doc) (pieces : List Doc) (isCall : Bool) : Link :=
  match link with
  | none => ⟨1, if isCall then 1 else 0, first :: pieces⟩
  | some l => ⟨l.depth + 1, if isCall then l.callDepth + 1 else 0, l.fragments ++ pieces⟩

/-- The link that a node hands on, if another link follows it. A chain starts at a receiver. -/
def next (p : Place) (receiver : Value) (link : Option Link) (first : Doc) (pieces : List Doc)
    (isCall : Bool) : Outcome (Option Link) := do
  if !continues p then return none
  if link.isNone then let _ ← receiver.asNode
  return some (extend link first pieces isCall)

def closing? (pr : Printer) (p : Place) (link : Option Link) : PrintM (Option Link) := do
  match link with
  | none => return none
  | some l =>
      if p.parentIs linkTags then return none
      let limit ← threshold pr.options p
      if l.depth ≥ limit then
        modify (· ++ [⟨p.node.tag, l.depth, limit⟩])
        return some l
      return none

/-- One call a line if the flat form does not fit. -/
def vertical (link : Link) (tail flat : Doc) : Doc :=
  .grouped [.either (.grouped [.indented (link.fragments ++ [tail])]) flat]

/-- A chain of bare calls that ends with arguments or a block: those break first. -/
def splitArguments (link : Link) (tail : Doc) : Doc :=
  .cat [.grouped [.indented link.fragments], .grouped [tail]]

def finish (link : Link) (flat tail : Doc) : Doc :=
  if link.callDepth = link.depth then splitArguments link tail
  else vertical link tail (.cat [flat, tail])

end RubyPretty.Chain
