import RubyPretty.Syntax.Access
import RubyPretty.Text.Basic
/-!
# Arrays of words

Two or more plain strings can be written as `%w[...]`, two or more plain symbols as `%i[...]`,
if none of them holds a blank, a bracket or a backslash.
-/

namespace RubyPretty.Shape

def isWordBreaker (c : Char) : Bool := Text.isBlank c || c == '\\' || c == '[' || c == ']'

def isWord (s : String) : Bool := !s.toList.any isWordBreaker

def isStringWord (element : Value) : Outcome Bool := do
  let n ← element.asNode
  if n.tag ≠ "string_literal" || n.hasComments then return false
  let [_, parts] := n.body | .error .malformed
  match ← parts.asElements with
  | [part] =>
      let part ← part.asNode
      if part.tag ≠ "@tstring_content" then return false
      return isWord (← part.token)
  | _ => return false

def isSymbolWord (element : Value) : Outcome Bool := do
  let n ← element.asNode
  if n.tag ≠ "symbol_literal" || n.hasComments then return false
  return isWord (← (← n.childNode 0).token)

def isStringArray (elements : List Value) : Outcome Bool :=
  if elements.length < 2 then return false else elements.allM isStringWord

def isSymbolArray (elements : List Value) : Outcome Bool :=
  if elements.length < 2 then return false else elements.allM isSymbolWord

end RubyPretty.Shape
