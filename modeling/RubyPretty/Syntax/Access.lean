import RubyPretty.Fault
import RubyPretty.Json.Order
/-!
# Parts of a node

The rules take nodes apart by the shape that the grammar gives them. A node of another shape is a
`malformed` fault.
-/

namespace RubyPretty

abbrev Outcome (α : Type) := Except Fault α

namespace Value

def asNode : Value → Outcome Tree
  | .node n => .ok n
  | _ => .error .malformed

def asText : Value → Outcome String
  | .text s => .ok s
  | _ => .error .malformed

def asElements (v : Value) : Outcome (List Value) :=
  match v.elements? with
  | some vs => .ok vs
  | none => .error .malformed

def item (v : Value) (i : Nat) : Outcome Value := do
  match (← v.asElements)[i]? with
  | some element => .ok element
  | none => .error .malformed

/-- Whether two values are the same, with numbers by value and nodes part by part. -/
def same (v w : Value) : Bool := v.toJson.same w.toJson

/-- The elements of an optional sequence: none if it is absent or empty. -/
def asOptionalElements (v : Value) : Outcome (List Value) :=
  if v.truth then v.asElements else .ok []

end Value

namespace Node

def child (n : Tree) (i : Nat) : Outcome Value :=
  match n.body[i]? with
  | some v => .ok v
  | none => .error .malformed

def childNode (n : Tree) (i : Nat) : Outcome Tree := do (← n.child i).asNode

def bodyNodes (n : Tree) : Outcome (List Tree) := n.body.mapM (·.asNode)

/-- What a token carries. In a tree that was checked it is a text. -/
def carried (n : Tree) : Outcome Value := if n.isToken then n.child 0 else .error .malformed

def token (n : Tree) : Outcome String :=
  match n.text? with
  | some s => .ok s
  | none => .error .malformed

def plainText? (n : Tree) : Option String :=
  if n.tag = "@tstring_content" then n.text? else none

end Node

def Value.plainText? (v : Value) : Option String := v.node?.bind (·.plainText?)

end RubyPretty
