import RubyPretty.Syntax.Encoding
import RubyPretty.Json.Reader
import RubyPretty.Options.Settings
/-!
# Faults

Everything that can stop a run, by its cause. The wording of all of them is in `Fault.message`.
-/

namespace RubyPretty

inductive ParserFault where
  | notFound (command : String)
  | notOpen
  | timedOut (limit : String)
  | failed (code : Int) (stderr : String)
  | rejected (reason : String)
deriving DecidableEq, Repr

def ParserFault.message : ParserFault → String
  | .notFound command => "Parser command not found: " ++ command
  | .notOpen => "The parser client is not open"
  | .timedOut limit => "Parser timed out after " ++ limit ++ "s"
  | .failed code "" => "Parser failed (exit " ++ toString code ++ ")"
  | .failed code stderr => "Parser failed (exit " ++ toString code ++ "): " ++ stderr
  | .rejected reason => reason

inductive Fault where
  | notANode (value : Json)
  | badSpan (tag : String) (value : Json)
  | commentNotObject (value : Json)
  | commentWithoutText (value : Json)
  | notJson (error : Json.ReadError)
  /-- A token without exactly one text. -/
  | tokenBody (node : Tree)
  | childCount (node : Tree) (expected : Nat)
  | noStatementList (tree : Tree)
  | commentWithoutLine (text : String)
  | unsupported (node : Tree)
  | badSetting (setting : BadSetting)
  | parser (fault : ParserFault)
  /-- A failure of a formatter for an embedded language that is of none of these kinds. -/
  | embedded (reason : String)
  /-- A value that has none of the forms that its place asks for. -/
  | malformed
deriving Repr

namespace Fault

def place : Option Span → String
  | none => ""
  | some span =>
      " at line " ++ span.startLine.display ++ ", column " ++ span.startColumn.display

/-- The message on a tree: reason, tag, place and the JSON text of the culprit. -/
def report (reason tag : String) (span : Option Span) (payload : String) : String :=
  reason ++ ": " ++ tag ++ place span ++ "\n" ++ payload

def payload : Json → String
  | .str s => s
  | v => v.pretty

def reportNode (reason : String) (node : Tree) : String :=
  report reason node.tag node.loc (payload node.toJson)

def message : Fault → String
  | .notANode v => report "expected a node object with a 'type'" "<unknown>" none (payload v)
  | .badSpan tag v => report "'loc' must be [sl, sc, el, ec]" tag none (payload v)
  | .commentNotObject v => report "comments must be objects" "comment" none (payload v)
  | .commentWithoutText v => report "comment has no text" "comment" none (payload v)
  | .notJson e =>
      report ("invalid JSON tree: " ++ e.message) "<json>" none (Text.takeChars 80 e.text)
  | .tokenBody node => reportNode "token must carry exactly one string" node
  | .childCount node expected =>
      reportNode
        ("expected " ++ toString expected ++ " children, found " ++ toString node.body.length) node
  | .noStatementList tree =>
      report "no statement list to attach comments to" tree.tag tree.loc (tree.payload 400)
  | .commentWithoutLine text =>
      report "unattached comments need a line number" "comment" none text
  | .unsupported node => reportNode "Unsupported node encountered" node
  | .badSetting setting => setting.message
  | .parser fault => fault.message
  | .embedded reason => reason
  | .malformed => ""

end Fault

end RubyPretty
