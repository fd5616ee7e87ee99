import RubyPretty.Fault
import RubyPretty.Text.Basic
/-!
# Reading trees

The inverse of `Value.toJson`, with some freedom in the form: a body that is no list is a list of
one, comments may come as the bare text after their mark, and unknown members are passed over.
-/

namespace RubyPretty

/-- A location is absent or a list of four coordinates. -/
def Span.ofJson (tag : String) (object : Json) : Except Fault (Option Span) :=
  match object.get "loc" with
  | .null => .ok none
  | .arr [sl, sc, el, ec] => .ok (some ⟨sl, sc, el, ec⟩)
  | _ => .error (.badSpan tag object)

/-- The text of a comment: given whole, or without its mark. -/
def Comment.textOfJson (object : Json) : Except Fault String :=
  match object.get "text" with
  | .str s => .ok s
  | .null =>
      match object.get "value" with
      | .str s => .ok ("#" ++ s)
      | _ => .error (.commentWithoutText object)
  | _ => .error .malformed

def Comment.ofJson (json : Json) : Except Fault Comment :=
  match json with
  | .obj ms => do
      let text ← Comment.textOfJson (.obj ms)
      return ⟨Text.chomp text, ((Json.obj ms).get "leading").truth, (Json.obj ms).get "line"⟩
  | v => .error (.commentNotObject v)

/-- The elements of a list of comments; an absent or empty one has none, a text or an object
stands for the list of its characters or keys. -/
def commentItems (json : Json) : Except Fault (List Json) :=
  if !json.truth then .ok []
  else match json with
    | .arr vs => .ok vs
    | .str s => .ok (s.toList.map fun c => .str (String.singleton c))
    | .obj ms => .ok (ms.map fun (k, _) => .str k)
    | _ => .error .malformed

def commentsOfJson (json : Json) : Except Fault (List Comment) := do
  (← commentItems json).mapM Comment.ofJson

namespace Value

mutual

def ofJson : Json → Except Fault Value
  | .null => .ok .null
  | .bool b => .ok (.bool b)
  | .int n => .ok (.int n)
  | .real r => .ok (.real r)
  | .str s => .ok (.text s)
  | .arr vs => do return .list (← ofJsonAll vs)
  | .obj ms =>
      match (Json.obj ms).get "type" with
      | .str tag => do
          let loc ← Span.ofJson tag (.obj ms)
          let body ← bodyOfJson ms
          let comments ← commentsOfJson ((Json.obj ms).get "comments")
          return .node ⟨tag, body, comments, loc⟩
      | _ => .error (.notANode (.obj ms))

def ofJsonAll : List Json → Except Fault (List Value)
  | [] => .ok []
  | v :: vs => do
      let first ← ofJson v
      let rest ← ofJsonAll vs
      return first :: rest

def bodyOfJson : List (String × Json) → Except Fault (List Value)
  | [] => .ok []
  | (key, v) :: ms =>
      if key = "body" then
        match v with
        | .arr vs => ofJsonAll vs
        | v => do return [← ofJson v]
      else bodyOfJson ms

end

end Value

def Node.ofJson (json : Json) : Except Fault Tree :=
  match json with
  | .obj ms => do
      match ← Value.ofJson (.obj ms) with
      | .node n => return n
      | _ => .error (.notANode (.obj ms))
  | v => .error (.notANode v)

/-- The tree of a JSON text. A number that is too long to be read is a value without a form, not
an error of the text. -/
def Node.ofText (text : String) : Except Fault Tree :=
  match Json.read text with
  | .ok json => Node.ofJson json
  | .error e => .error (if e.cause = .longNumber then .malformed else .notJson e)

end RubyPretty
