import RubyPretty.Json.Basic
import RubyPretty.Text.Basic
/-!
# Syntax trees

A tree is a node with a tag and a body. What the body holds depends on the tag: child nodes,
lists of them, plain values such as an operator's text, or nothing where an optional child is
missing. The leaves are tokens: their tags start with `@` and their body is their source text.
-/

namespace RubyPretty

/-- A line or column as the parser gave it: as a rule an integer, and `null` where it is not known.
Any other value is kept and compared as a JSON value. -/
abbrev Coordinate := Json

structure Span where
  startLine : Coordinate
  startColumn : Coordinate
  endLine : Coordinate
  endColumn : Coordinate
deriving BEq, Repr, Inhabited

structure Comment where
  text : String
  /-- A leading comment stands above its node, any other one behind or below it. -/
  leading : Bool
  line : Coordinate
deriving BEq, Repr, Inhabited

def Comment.isBlock (c : Comment) : Bool := Text.startsWith "=begin" c.text

structure Node (α : Type) where
  tag : String
  body : List α
  comments : List Comment
  loc : Option Span
deriving BEq, Repr, Inhabited

inductive Value where
  | null
  | bool (b : Bool)
  | int (n : Int)
  | real (r : Real)
  | text (s : String)
  | list (items : List Value)
  | node (n : Node Value)
deriving Repr, Inhabited

abbrev Tree := Node Value

def isTokenTag (tag : String) : Bool := Text.startsWith "@" tag

namespace Value

def node? : Value → Option Tree
  | .node n => some n
  | _ => none

def text? : Value → Option String
  | .text s => some s
  | _ => none

def isNull : Value → Bool
  | .null => true
  | _ => false

def tag? (v : Value) : Option String := v.node?.map (·.tag)

/-- Whether a value is present and not empty. A node counts by its body. -/
def truth : Value → Bool
  | .null => false
  | .bool b => b
  | .int n => n != 0
  | .real (.decimal _ digits _) => digits != 0
  | .real _ => true
  | .text s => s != ""
  | .list vs => !vs.isEmpty
  | .node n => !n.body.isEmpty

/-- The elements of a value that is walked as a sequence: those of a list, the body of a node,
the characters of a text. -/
def elements? : Value → Option (List Value)
  | .list vs => some vs
  | .node n => some n.body
  | .text s => some (s.toList.map fun c => .text (String.singleton c))
  | _ => none

mutual

/-- The nodes of a value, from the top down and from left to right. Tokens have nothing below
them. -/
def walk : Value → List Tree
  | .node ⟨tag, body, comments, loc⟩ =>
      ⟨tag, body, comments, loc⟩ :: if isTokenTag tag then [] else walkAll body
  | .list vs => walkAll vs
  | _ => []

def walkAll : List Value → List Tree
  | [] => []
  | v :: vs => walk v ++ walkAll vs

end

mutual

def nodes : Value → List Tree
  | .node n => [n]
  | .list vs => nodesOf vs
  | _ => []

def nodesOf : List Value → List Tree
  | [] => []
  | v :: vs => nodes v ++ nodesOf vs

end

mutual

def depth : Value → Nat
  | .node ⟨_, body, _, _⟩ => depthAll body + 1
  | .list vs => depthAll vs + 1
  | _ => 0

def depthAll : List Value → Nat
  | [] => 0
  | v :: vs => max (depth v) (depthAll vs)

end

end Value

namespace Node

def isToken (n : Tree) : Bool := isTokenTag n.tag

def hasComments (n : Tree) : Bool := !n.comments.isEmpty

def hasLeadingComments (n : Tree) : Bool := n.comments.any (·.leading)

/-- The nodes right below a node, also those inside the lists of its body. -/
def children (n : Tree) : List Tree := if n.isToken then [] else Value.nodesOf n.body

def walk (n : Tree) : List Tree := (Value.node n).walk

def depth (n : Tree) : Nat := (Value.node n).depth

def startLine? (n : Tree) : Option Coordinate := n.loc.map (·.startLine)

def endLine? (n : Tree) : Option Coordinate := n.loc.map (·.endLine)

def text? (n : Tree) : Option String :=
  if n.isToken then
    match n.body with
    | .text s :: _ => some s
    | _ => none
  else none

end Node

end RubyPretty
