import RubyPretty.Rules.Arguments
import RubyPretty.Rules.Strings
import RubyPretty.Shape.Words
/-!
# Arrays
-/

namespace RubyPretty.Rules

def emptyCollection (n : Tree) (opening closing : String) : Outcome Doc := do
  let (inside, outside) ← Comments.partitionInner n
  let doc : Doc :=
    if inside.isEmpty then opening ++ closing
    else .grouped
      [opening, .indented [.hardline, .joined .hardline (inside.map Comment.doc)], .hardline,
        closing]
  Comments.splice doc outside n.endLine?

def wordBrackets : List (Char × Char) := [('[', ']'), ('(', ')'), ('\x7b', '\x7d'), ('<', '>')]

def bracketsFree (texts : List String) (brackets : Char × Char) : Bool :=
  texts.all fun s => !s.toList.contains brackets.1 && !s.toList.contains brackets.2

/-- The first brackets that no word holds, or else square ones. -/
def chooseBrackets (texts : List String) : Char × Char :=
  (wordBrackets.find? (bracketsFree texts)).getD ('[', ']')

def wordArray (start : String) (words : List Doc) (texts : List String) : Doc :=
  let (opening, closing) := chooseBrackets texts
  .grouped
    [start, String.singleton opening, .indented [.softline, .joined .line words], .softline,
      String.singleton closing]

def wordText (word : Value) : Outcome String := do
  let n ← word.asNode
  if n.tag = "@tstring_content" then return ← n.token
  let parts ← n.bodyNodes
  return String.join (← (parts.filter (·.tag == "@tstring_content")).mapM (·.token))

def wordTexts (words : List Value) : Outcome (List String) := words.mapM wordText

def wordList (start : String) : DocRule := fun pr p => do
  let words ← pr.printAll p p.node.body
  return wordArray start words (← wordTexts p.node.body)

def word : DocRule := fun pr p => do return .cat (← stringParts pr p p.node.body)

def stringWordText (element : Value) : Outcome String := do
  match ← (← (← element.asNode).child 1).asElements with
  | part :: _ => (← part.asNode).token
  | [] => .error .malformed

def symbolWordText (element : Value) : Outcome String := do
  (← (← element.asNode).childNode 0).token

/-- The elements of an array as words, if they are all strings or all symbols that can be. -/
def asWords? (o : Options) (elements : List Value) : Outcome (Option Doc) := do
  if !o.arrayLiteral then return none
  if ← Shape.isStringArray elements then
    let texts ← elements.mapM stringWordText
    return some (wordArray "%w" (texts.map Doc.ofString) texts)
  if ← Shape.isSymbolArray elements then
    let texts ← elements.mapM symbolWordText
    return some (wordArray "%i" (texts.map Doc.ofString) texts)
  return none

def arrayContents (pr : Printer) (p : Place) (contents : Value) : PrintM Doc := do
  if ["qwords", "qsymbols", "words", "symbols"].contains (← contents.asNode).tag then
    return ← pr.print p contents
  match ← asWords? pr.options (← argumentNodes contents) with
  | some doc => return doc
  | none =>
      let docs ← argumentList pr p contents
      return .enclosed "[" [.listed docs, trailingComma pr.options] "]"

def array : DocRule := fun pr p => do
  match ← p.node.child 0 with
  | .null => emptyCollection p.node "[" "]"
  | contents => Comments.splice (← arrayContents pr p contents) p.node.comments p.node.endLine?

end RubyPretty.Rules
