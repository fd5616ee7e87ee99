import RubyPretty.Printing.Printer
import RubyPretty.Shape.Statements
/-!
# Parameters
-/

namespace RubyPretty.Rules

def pairParts (v : Value) : Outcome (Value × Value) := do
  let [a, b] ← v.asElements | .error .malformed
  return (a, b)

def optionalParam (pr : Printer) (p : Place) (v : Value) : PrintM Doc := do
  let (name, value) ← pairParts v
  return .cat [← pr.print p name, " = ", ← pr.print p value]

def keywordParam (pr : Printer) (p : Place) (v : Value) : PrintM Doc := do
  let (label, value) ← pairParts v
  if value.isNull then pr.print p label
  else return .grouped [← pr.print p label, " ", ← pr.print p value]

def restParams (pr : Printer) (p : Place) (rest : Value) : PrintM (List Doc) := do
  if rest.isNull then return []
  -- the comma of `|a,|` takes the place of the parameter and is written at the end
  if (← rest.asNode).tag = "excessed_comma" then return []
  return [← pr.print p rest]

def keywordRest (pr : Printer) (p : Place) : Value → PrintM (List Doc)
  | .null => return []
  | .text "nil" => return ["**nil"]
  | v => do return [← pr.print p v]

def blockParam (pr : Printer) (p : Place) (v : Value) : PrintM (List Doc) := do
  if v.isNull then return [] else return [← pr.print p v]

def params : DocRule := fun pr p => do
  let [required, optional, rest, posts, keywords, keywordsRest, block] := p.node.body
    | throw .malformed
  let required ← pr.printAll p (← required.asOptionalElements)
  let optional ← (← optional.asOptionalElements).mapM (optionalParam pr p)
  let restDocs ← restParams pr p rest
  let posts ← pr.printAll p (← posts.asOptionalElements)
  let keywords ← (← keywords.asOptionalElements).mapM (keywordParam pr p)
  let keywordsRest ← keywordRest pr p keywordsRest
  let block ← blockParam pr p block
  let trailing : Doc := if rest.tag? = some "excessed_comma" then "," else .empty
  return .grouped
    [.listed (required ++ optional ++ restDocs ++ posts ++ keywords ++ keywordsRest ++ block),
      trailing]

def restParam : DocRule := fun pr p => do return .cat ["*", ← pr.printChild p 0]

def keywordRestParam : DocRule := fun pr p => do return .cat ["**", ← pr.printChild p 0]

def excessedComma : DocRule := fun _ _ => return ","

/-- Parameters between parentheses, one a line if they break; empty ones are left out. -/
def parameterList (pr : Printer) (p : Place) (params : Tree) : PrintM Doc := do
  let (place, inner) ←
    if params.tag = "paren" then do pure (p.below params, ← params.child 0)
    else pure (p, .node params)
  if ← Shape.isEmptyParams inner then return .empty
  return .enclosed "(" [← pr.print place inner] ")"

end RubyPretty.Rules
