import RubyPretty.Printing.Printer
import RubyPretty.Shape.Integer
import RubyPretty.Text.Basic
/-!
# Tokens and texts
-/

namespace RubyPretty.Rules

def plainText : Value → Outcome Doc
  | .null => return .empty
  | .text s => return s
  | _ => .error .malformed

def operatorValue : Value → Outcome Value
  | .node n => do return .text (← n.token)
  | v => return v

def keyword (text : String) : DocRule := fun _ _ => return text

def token : DocRule := fun _ p => do return ← p.node.token

def integer : DocRule := fun _ p => do return Shape.canonicalInt (← p.node.token)

def stringContent : DocRule := fun _ p => do return .verbatim (← p.node.token)

def isLockedCharacter (c : Char) : Bool := c == '\\' || c == '\'' || c == '"' || c == '#'

/-- A character literal becomes a string of one character. -/
def character : DocRule := fun pr p => do
  let value ← p.node.token
  match value.toList with
  | [_, c] =>
      if isLockedCharacter c then return value
      return pr.options.quote.text ++ String.singleton c ++ pr.options.quote.text
  | _ => return value

def endText (content : String) : String :=
  let text :=
    if Text.startsWith "__END__" content then
      String.ofList ((content.toList.drop 7).dropWhile Text.isLineEnd)
    else content
  if Text.endsWith "\n" text then String.ofList text.toList.dropLast else text

def endMarker : DocRule := fun _ p => do
  match endText (← p.node.token) with
  | "" => return "__END__"
  | text => return .cat ["__END__", .literalLine, .verbatim text]

end RubyPretty.Rules
