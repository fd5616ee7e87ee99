import RubyPretty.Text.Basic
/-!
# Heredoc openers

An opener is `<<`, a mode, and a delimiter word that may stand between quotes.
-/

namespace RubyPretty.Heredoc

inductive Mode where
  | plain
  /-- `<<-`: the terminator may be indented. -/
  | dash
  /-- `<<~`: the common indentation of the body does not count. -/
  | squiggly
deriving DecidableEq, Repr

def Mode.text : Mode → String
  | .plain => ""
  | .dash => "-"
  | .squiggly => "~"

structure Opener where
  mode : Mode
  quote : Option Char
  tag : String
deriving DecidableEq, Repr

def Opener.isSquiggly (o : Opener) : Bool := o.mode == .squiggly

def readMode : List Char → Mode × List Char
  | '~' :: cs => (.squiggly, cs)
  | '-' :: cs => (.dash, cs)
  | cs => (.plain, cs)

def isQuote (c : Char) : Bool := c == '\'' || c == '"' || c == '\x60'

def readQuote : List Char → Option Char × List Char
  | c :: cs => if isQuote c then (some c, cs) else (none, c :: cs)
  | [] => (none, [])

def Opener.parse? (s : String) : Option Opener :=
  match (Text.trim s).toList with
  | '<' :: '<' :: cs =>
      let (mode, cs) := readMode cs
      let (quote, cs) := readQuote cs
      let tag := cs.takeWhile Text.isWordChar
      if tag.head?.any Text.isWordStart && cs.dropWhile Text.isWordChar == quote.toList then
        some ⟨mode, quote, String.ofList tag⟩
      else none
  | _ => none

end RubyPretty.Heredoc
