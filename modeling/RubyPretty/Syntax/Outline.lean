import RubyPretty.Syntax.Tree
import RubyPretty.Json.Inspect
/-!
# Outlines of trees

`Node.outline?` shows a tree with one node a line, two columns further in for each level, and
tokens with their quoted text. The lines of a node that was located name its first and last line.
-/

namespace RubyPretty

def Comment.inspect (c : Comment) : String :=
  "Comment(text=" ++ Text.quoted c.text ++ ", leading=" ++ (Json.bool c.leading).inspect ++
    ", line=" ++ c.line.inspect ++ ")"

def Span.inspect (s : Span) : String :=
  "Span(start_line=" ++ s.startLine.inspect ++ ", start_column=" ++ s.startColumn.inspect ++
    ", end_line=" ++ s.endLine.inspect ++ ", end_column=" ++ s.endColumn.inspect ++ ")"

namespace Value

mutual

def inspect : Value → String
  | .null => "None"
  | .bool b => (Json.bool b).inspect
  | .int n => (Json.int n).inspect
  | .real r => (Json.real r).inspect
  | .text s => Text.quoted s
  | .list vs => Json.bracketed "[" "]" (inspectAll vs)
  | .node ⟨tag, body, comments, loc⟩ =>
      "Node(type=" ++ Text.quoted tag ++ ", body=" ++ Json.tupleText (inspectAll body) ++
        ", comments=" ++ Json.bracketed "[" "]" (comments.map Comment.inspect) ++
        ", loc=" ++ (loc.map Span.inspect).getD "None" ++ ")"

def inspectAll : List Value → List String
  | [] => []
  | v :: vs => inspect v :: inspectAll vs

end

def display : Value → String
  | .text s => s
  | v => inspect v

def spaces (n : Nat) : String := String.ofList (List.replicate n ' ')

def whereabouts : Option Span → String
  | none => ""
  | some span => " [" ++ span.startLine.display ++ ", " ++ span.endLine.display ++ "]"

mutual

/-- The outline of a value; a token without any body has none. -/
def outline? (level : Nat) : Value → Option (List String)
  | .node ⟨tag, body, _, loc⟩ =>
      if isTokenTag tag then
        match body with
        | [] => none
        | v :: _ => some [spaces level ++ tag ++ ":" ++ v.inspect]
      else do
        let below ← outlineAll? (level + 2) body
        return (spaces level ++ tag ++ whereabouts loc) :: below
  | .list vs => outlineAll? level vs
  | _ => some []

def outlineAll? (level : Nat) : List Value → Option (List String)
  | [] => some []
  | v :: vs => do
      let first ← outline? level v
      let rest ← outlineAll? level vs
      return first ++ rest

end

end Value

/-- The outline of a tree, unless one of its tokens has no body. -/
def Node.outline? (n : Tree) : Option String :=
  ((Value.node n).outline? 0).map ("\n".intercalate ·)

end RubyPretty
