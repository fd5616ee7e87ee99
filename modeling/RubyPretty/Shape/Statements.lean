import RubyPretty.Syntax.Access
/-!
# Empty bodies and parameter lists, assignments
-/

namespace RubyPretty.Shape

def isPlainVoid (v : Value) : Bool :=
  match v with
  | .node n => n.tag == "void_stmt" && !n.hasComments
  | _ => false

/-- A statement list with nothing in it but placeholders, and no comment anywhere. -/
def isEmptyStatements : Value → Outcome Bool
  | .null => return false
  | .node n => return n.tag == "stmts" && !n.hasComments && n.body.all isPlainVoid
  | _ => .error .malformed

def isEmptyBody (body : Tree) : Outcome Bool := do
  let [stmts, rescue, elseClause, ensure] := body.body | .error .malformed
  let isEmpty ← isEmptyStatements stmts
  return isEmpty && rescue.isNull && elseClause.isNull && ensure.isNull

def isEmptyParams (params : Value) : Outcome Bool :=
  match params with
  | .null => return true
  | .node n => do
      if n.tag ≠ "paren" then return n.body.all (!·.truth)
      match ← n.child 0 with
      | .null => return true
      | .node inner => return inner.body.all (!·.truth)
      | _ => .error .malformed
  | _ => .error .malformed

mutual

def containsAssignment : Value → Bool
  | .node ⟨tag, body, _, _⟩ =>
      if isTokenTag tag then false
      else ["assign", "massign", "opassign"].contains tag || anyAssignment body
  | .list vs => anyAssignment vs
  | _ => false

def anyAssignment : List Value → Bool
  | [] => false
  | v :: vs => containsAssignment v || anyAssignment vs

end

/-- Values that start on the line of the sign that introduces them, however long they are. -/
def hangingTags : List String :=
  ["array", "dyna_symbol", "hash", "heredoc", "lambda", "qsymbols", "qwords", "regexp_literal",
    "symbols", "words"]

/-- Whether a value stays on the line of its assignment, as does a call on such a value. -/
def skipsAssignIndent : Value → Outcome Bool
  | .node ⟨tag, body, _, _⟩ =>
      if hangingTags.contains tag then return true
      else if tag = "call" then
        match body with
        | [] => .error .malformed
        | receiver :: _ => skipsAssignIndent receiver
      else return false
  | _ => .error .malformed

end RubyPretty.Shape
