import RubyPretty.Doc.Flat
import RubyPretty.Rules.Tokens
import RubyPretty.Shape.Quotes
/-!
# Strings, symbols and regular expressions
-/

namespace RubyPretty.Rules

def stringPart (pr : Printer) (p : Place) (part : Value) : PrintM Doc := do
  let n ← part.asNode
  if n.tag = "@tstring_content" then return .verbatim (← n.token)
  pr.print p part

def stringParts (pr : Printer) (p : Place) (parts : List Value) : PrintM (List Doc) :=
  parts.mapM (stringPart pr p)

def quoted (quote : String) (parts : List Doc) : Doc :=
  .cat (Doc.ofString quote :: parts ++ [Doc.ofString (Shape.closingQuote quote)])

def stringLiteral : DocRule := fun pr p => do
  let [source, parts] := p.node.body | throw .malformed
  let preferred := pr.options.quote.text
  match ← parts.asElements with
  | [] => return preferred ++ preferred
  | parts =>
      let docs ← stringParts pr p parts
      return quoted (← Shape.preferredQuote (← source.asText) parts preferred) docs

def shellString : DocRule := fun pr p => do
  let parts ← stringParts pr p (← (← p.node.child 0).asElements)
  return .cat (Doc.text "\x60" :: parts ++ [.text "\x60"])

def stringConcat : DocRule := fun pr p => do
  let [left, right] := p.node.body | throw .malformed
  return .grouped [← pr.print p left, " \\", .indented [.hardline, ← pr.print p right]]

/-- Whether a node was written on one line, as far as is known. -/
def onOneLine (n : Tree) : Bool := n.loc.all (·.isOneLine)

/-- An interpolation. One that was written on one line stays on one line. -/
def interpolation : DocRule := fun pr p => do
  let statements ← pr.printChild p 0
  if onOneLine p.node then return .cat ["#\x7b", statements.flatten, "\x7d"]
  return .enclosed "#\x7b" [statements] "\x7d"

def variableInterpolation : DocRule := fun pr p => do
  return .cat ["#\x7b", ← pr.printChild p 0, "\x7d"]

def symbolLiteral : DocRule := fun pr p => do return .cat [":", ← pr.printChild p 0]

/-- Whether a symbol is written with `%s`, which has no colon and keeps its delimiter. -/
def isPercentSymbol (source : String) : Bool := Text.startsWith "%s" source

def quotedSymbolBody (pr : Printer) (p : Place) : PrintM Doc := do
  let [source, parts] := p.node.body | throw .malformed
  let source ← source.asText
  let parts ← parts.asElements
  let docs ← stringParts pr p parts
  if isPercentSymbol source then return quoted source docs
  let source := if Text.startsWith ":" source then Text.dropChars 1 source else source
  return quoted (← Shape.preferredQuote source parts pr.options.quote.text) docs

def quotedSymbol : DocRule := fun pr p => do
  let body ← quotedSymbolBody pr p
  if isPercentSymbol (← (← p.node.child 0).asText) then return body
  return .cat [":", body]

def partsHold (cs : List Char) (parts : List Value) : Bool :=
  parts.any fun part => part.plainText?.any fun s => s.toList.any cs.contains

/-- Whether an opening slash would read as a division in the arguments of a command. -/
def isAmbiguousRegexp (p : Place) (parts : List Value) : Bool :=
  match parts with
  | [] => false
  | first :: _ =>
      (first.plainText?.any fun s => s.toList.head?.any [' ', '='].contains)
        && p.inside ["command", "command_call"]

def regexp : DocRule := fun pr p => do
  let [opening, parts, closing] := p.node.body | throw .malformed
  let parts ← parts.asElements
  let docs ← stringParts pr p parts
  let useBraces := isAmbiguousRegexp p parts || partsHold ['/'] parts
  -- neither slashes nor braces will do, so it stays as it was written
  if useBraces && partsHold ['\x7b', '\x7d'] parts then
    return .cat ((← plainText opening) :: docs ++ [← plainText closing])
  let flags := Doc.ofString (Text.dropChars 1 (← closing.asText))
  if useBraces then return .cat (Doc.text "%r\x7b" :: docs ++ [.text "\x7d", flags])
  return .cat (Doc.text "/" :: docs ++ [.text "/", flags])

end RubyPretty.Rules
