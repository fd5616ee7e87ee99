import RubyPretty.Syntax.Tree
import RubyPretty.Json.Printer
/-!
# Trees as JSON values

A node is an object with its tag as `type`, its `body`, its `comments` if there are any and its
`loc` if it is known.
-/

namespace RubyPretty

def Span.coordinates (s : Span) : List Coordinate :=
  [s.startLine, s.startColumn, s.endLine, s.endColumn]

def Comment.toJson (c : Comment) : Json :=
  .obj [("text", .str c.text), ("leading", .bool c.leading), ("line", c.line)]

def attachments (comments : List Comment) (loc : Option Span) : List (String × Json) :=
  (if comments.isEmpty then [] else [("comments", .arr (comments.map Comment.toJson))]) ++
    match loc with
    | none => []
    | some span => [("loc", .arr span.coordinates)]

namespace Value

mutual

def toJson : Value → Json
  | .null => .null
  | .bool b => .bool b
  | .int n => .int n
  | .real r => .real r
  | .text s => .str s
  | .list vs => .arr (toJsonAll vs)
  | .node ⟨tag, body, comments, loc⟩ =>
      .obj (("type", .str tag) :: ("body", .arr (toJsonAll body)) :: attachments comments loc)

def toJsonAll : List Value → List Json
  | [] => []
  | v :: vs => toJson v :: toJsonAll vs

end

end Value

def Node.toJson (n : Tree) : Json := (Value.node n).toJson

/-- The first `limit` characters and dots; a negative limit counts from the end. -/
def clip (limit : Int) (s : String) : String :=
  if (s.length : Int) > limit then
    let kept := if 0 ≤ limit then limit else max 0 (s.length + limit)
    Text.takeChars kept.toNat s ++ "..."
  else s

def Node.payload (n : Tree) (limit : Int) : String := clip limit n.toJson.pretty

end RubyPretty
