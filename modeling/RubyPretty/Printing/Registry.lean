import RubyPretty.Printing.Printer
import RubyPretty.Syntax.Grammar
/-!
# The registry of rules

Each tag of the grammar has at most one rule. A tree is checked against the registry before
anything of it is printed.
-/

namespace RubyPretty

structure Entry where
  name : String
  rule : Rule

structure Registration where
  tags : List String
  entry : Entry
  /-- Whether the rule places the comments of its node itself. -/
  ownComments : Bool

structure Registry where
  entries : List (String × Entry)
  owners : List String

inductive Refusal where
  | unknownTag (tag : String)
  | taken (tag name : String)
deriving DecidableEq, Repr

def Refusal.message : Refusal → String
  | .unknownTag tag => "Cannot register a printer for unknown node type " ++ tag
  | .taken tag name => "Node type " ++ tag ++ " already has a printer (" ++ name ++ ")"

namespace Registry

def empty : Registry := ⟨[], []⟩

def find? (r : Registry) (tag : String) : Option Entry := r.entries.lookup tag

def contains (r : Registry) (tag : String) : Bool := (r.find? tag).isSome

def ownComments (r : Registry) (tag : String) : Bool := r.owners.contains tag

/-- Gives a rule to one tag, and then takes note of the tag if the rule places comments. -/
def add (r : Registry) (e : Entry) (own : Bool) (tag : String) : Except Refusal Registry :=
  if Grammar.tags.contains tag then
    match r.find? tag with
    | some existing => .error (.taken tag existing.name)
    | none =>
        let r := { r with entries := r.entries ++ [(tag, e)] }
        .ok (if own then { r with owners := r.owners ++ [tag] } else r)
  else .error (.unknownTag tag)

/-- Gives a rule to several tags. The tags before one that is refused keep it. -/
def register (r : Registry) (e : Entry) (own : Bool) : List String → Registry × Option Refusal
  | [] => (r, none)
  | tag :: tags =>
      match r.add e own tag with
      | .ok r => r.register e own tags
      | .error refusal => (r, some refusal)

def missing (r : Registry) : List String :=
  (Grammar.tags.filter (!r.contains ·)).mergeSort fun a b => decide (a ≤ b)

def dispatch (r : Registry) (n : Tree) : Outcome Entry :=
  match r.find? n.tag with
  | some e => .ok e
  | none => .error (.unsupported n)

def isTokenBody : List Value → Bool
  | [.text _] => true
  | _ => false

/-- Checks one node: it has a rule, the text of a token, and the number of children that its tag
asks for. -/
def checkNode (r : Registry) (n : Tree) : Outcome Unit := do
  let _ ← r.dispatch n
  if n.isToken then
    if isTokenBody n.body then return () else throw (.tokenBody n)
  match Grammar.arity? n.tag with
  | some expected => if n.body.length = expected then return () else throw (.childCount n expected)
  | none => return ()

def check (r : Registry) (tree : Tree) : Outcome Unit := tree.walk.forM r.checkNode

/-- The printer that goes down at most `depth` nodes. -/
def printer (r : Registry) (o : Options) (formatter : Option Formatter) : Nat → Printer
  | 0 => ⟨o, formatter, r.ownComments, fun p => throw (.unsupported p.node)⟩
  | depth + 1 =>
      ⟨o, formatter, r.ownComments, fun p => do
        let e ← r.dispatch p.node
        (r.printer o formatter depth).apply e.rule p⟩

/-- Prints a whole tree. A rule only visits nodes below its own, so the depth of the tree is
enough. -/
def visitRoot (r : Registry) (o : Options) (formatter : Option Formatter) (tree : Tree) :
    PrintM Printed :=
  (r.printer o formatter tree.depth).visit (.root tree)

end Registry

end RubyPretty
