import RubyPretty.Shape.Quotes
import RubyPretty.Text.Basic
/-!
# Hash labels

A hash is written with labels (`key: value`) if every one of its keys can be a label, and with
rockets (`:key => value`) otherwise; the two are never mixed.
-/

namespace RubyPretty.Shape

/-- What may follow the letters of a bare word: one mark or none, and a final line feed or none. -/
def isWordEnd (cs : List Char) : Bool :=
  [[], ['?'], ['!'], ['\n'], ['?', '\n'], ['!', '\n']].contains cs

def isBareWord (s : String) : Bool :=
  match s.toList with
  | [] => false
  | c :: cs => Text.isWordStart c && isWordEnd (cs.dropWhile Text.isWordChar)

/-- Labels start with a letter or an underscore and do not end with an equals sign. -/
def isLabelText (s : String) : Bool :=
  s.toList.head?.any Text.isWordStart && !Text.endsWith "=" s

def isValidLabel (symbol : Tree) : Outcome Bool := do
  return isLabelText (← (← symbol.childNode 0).token)

def quotedSymbolText (symbol : Tree) : Outcome (Option String) := do
  let [_, parts] := symbol.body | .error .malformed
  let parts ← parts.asElements
  if isPlain parts then return some (← plainContent parts) else return none

def canBeLabel (key : Tree) : Outcome Bool :=
  match key.tag with
  | "@label" => return true
  | "symbol_literal" => isValidLabel key
  | "dyna_symbol" => do return (← quotedSymbolText key).any isBareWord
  | _ => return false

def canUseLabels (pairs : List Value) : Outcome Bool :=
  pairs.allM fun pair => do
    let pair ← pair.asNode
    if pair.tag = "assoc_splat" then return true
    canBeLabel (← pair.childNode 0)

def keyName? (key : Tree) : Outcome (Option String) :=
  match key.tag with
  | "@label" => do
      let label ← key.token
      return some (String.ofList label.toList.dropLast)
  | "symbol_literal" => do return some (← (← key.childNode 0).token)
  | _ => return none

end RubyPretty.Shape
