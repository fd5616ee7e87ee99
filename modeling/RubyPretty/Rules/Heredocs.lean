import RubyPretty.Heredoc.Indentation
import RubyPretty.Heredoc.Opener
import RubyPretty.Printing.Printer
import RubyPretty.Shape.Quotes
/-!
# Heredocs

The opener stands where the expression was and the body waits for the end of the line. The body
is written with literal line ends, so that the indentation around it never gets into it.

If the delimiter names a known language and the body has no interpolation, the body goes through
the formatter of that language. Every other heredoc is written exactly as it was.
-/

namespace RubyPretty.Rules

def heredocLanguage? (o : Options) (opener : Option Heredoc.Opener) : Option String :=
  opener.bind fun opener => o.languages.lookup opener.tag.toLower

def heredocContent? (parts : List Value) : Outcome (Option String) := do
  let isPlain ← parts.allM fun part => do return (← part.asNode).tag == "@tstring_content"
  if isPlain then return some (← Shape.plainContent parts) else return none

/-- What a formatter makes of a body; none where it fails and the body may stay as it is. Otherwise
its fault is passed on as it is. -/
def runFormatter (o : Options) (format : Formatter) (content language : String) :
    Outcome (Option String) :=
  match format content language with
  | .ok text => .ok (some text)
  | .error fault => if o.embeddedFallback then .ok none else .error fault

def formattedBody? (pr : Printer) (opener : Option Heredoc.Opener) (parts : Value) :
    Outcome (Option String) := do
  let some format := pr.formatter | return none
  let some language := heredocLanguage? pr.options opener | return none
  let some content ← heredocContent? (← parts.asElements) | return none
  let content := if opener.any (·.isSquiggly) then Heredoc.dedent content else content
  runFormatter pr.options format content language

/-- A formatted body. Below a squiggly opener it goes one level in from the code around it. -/
def formattedHeredoc (squiggly : Bool) (opening content closing : String) : Doc :=
  let text := Text.trimEndOf (· == '\n') content
  let lines := [Doc.literalLine, .verbatim text]
  if squiggly then
    let body := if text = "" then .empty else .indented [.rooted lines]
    .cat [opening, .suffixed [body, .hardline, Text.trim closing]]
  else
    let body := if text = "" then .empty else .cat lines
    .cat [opening, .suffixed [body, .literalLine, Text.trim closing]]

def heredocPart (pr : Printer) (p : Place) (part : Value) : PrintM Doc := do
  let n ← part.asNode
  if n.tag = "@tstring_content" then return .verbatim (Text.unixLines (← n.token))
  pr.print p part

def heredoc : DocRule := fun pr p => do
  let [opening, parts, closing] := p.node.body | throw .malformed
  let opening ← opening.asText
  let opener := Heredoc.Opener.parse? opening
  match ← formattedBody? pr opener parts with
  | some content =>
      return formattedHeredoc (opener.any (·.isSquiggly)) opening content (← closing.asText)
  | none =>
      let docs ← (← parts.asElements).mapM (heredocPart pr p)
      let terminator := Doc.ofString (Text.chomp (← closing.asText))
      return .cat [opening, .suffixed [.grouped (.literalLine :: docs ++ [terminator])]]

end RubyPretty.Rules
