import RubyPretty.Syntax.Access
/-!
# The quotes of a string

A string is written with the preferred quote unless that could change its value: its content may
hold no escape, nothing that double quotes would interpolate, and no preferred quote.
-/

namespace RubyPretty.Shape

def closingBracket : Char → Char
  | '(' => ')'
  | '[' => ']'
  | '\x7b' => '\x7d'
  | '<' => '>'
  | c => c

def closingQuote (quote : String) : String :=
  if Text.startsWith "%" quote then
    match quote.toList.getLast? with
    | some c => String.singleton (closingBracket c)
    | none => quote
  else quote

def isPlainPart (part : Value) : Bool := part.tag? == some "@tstring_content"

def isPlain (parts : List Value) : Bool := parts.all isPlainPart

/-- What starts an escape or an interpolation. -/
def escapeMarks : List String := ["\\", "#\x7b", "#@", "#$"]

def hasEscapes (s : String) : Bool := escapeMarks.any (Text.contains · s)

/-- Whether what a plain part carries means something else between other quotes. Where it is no
text but a sequence, a mark can only be one of its elements. -/
def holdsEscapes : Value → Outcome Bool
  | .text s => return hasEscapes s
  | v => do return (← v.asElements).any fun e => e.text?.any escapeMarks.contains

def isLockedPart (part : Value) : Outcome Bool := do
  if isPlainPart part then holdsEscapes (← (← part.asNode).carried) else return true

def isQuoteLocked (parts : List Value) : Outcome Bool := parts.anyM isLockedPart

def plainContent (parts : List Value) : Outcome String := do
  return String.join (← parts.mapM fun part => do (← part.asNode).token)

/-- Whether a content would end or change between the preferred quotes, or is better left to the
brackets that it stands in. -/
def keepsQuote (source content preferred : String) : Bool :=
  Text.contains preferred content ||
    (Text.startsWith "%" source && Text.contains (closingQuote source) content)

def preferredQuote (source : String) (parts : List Value) (preferred : String) :
    Outcome String := do
  if parts.isEmpty then return preferred
  if ← isQuoteLocked parts then return source
  return if keepsQuote source (← plainContent parts) preferred then source else preferred

end RubyPretty.Shape
