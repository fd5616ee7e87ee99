import RubyPretty.Rules.Arguments
import RubyPretty.Shape.Statements
/-!
# Statement lists and bodies
-/

namespace RubyPretty.Rules

/-- Bare calls that change the visibility of what follows. A blank line stands on both sides. -/
def accessControls : List String := ["private", "protected", "public"]

def isAccessControl (stmt : Tree) : Outcome Bool := do
  if stmt.tag ≠ "vcall" && stmt.tag ≠ "var_ref" then return false
  let name ← stmt.childNode 0
  if name.tag ≠ "@ident" then return false
  return accessControls.contains (← name.token)

/-- The first of the coordinates that none of the others comes before in the order. -/
def extreme (before : Coordinate → Coordinate → Outcome Bool) :
    List Coordinate → Outcome (Option Coordinate)
  | [] => return none
  | c :: cs => do
      return some (← cs.foldlM (fun best c => do return if ← before c best then c else best) c)

def knownLine (line : Option Coordinate) : List Coordinate := line.toList.filter (!·.isNull)

def firstLine (stmt : Tree) : Outcome (Option Coordinate) :=
  let above := stmt.comments.filter fun c => c.leading || stmt.tag == "void_stmt"
  extreme Coordinate.lt ((above.map (·.line)).filter (!·.isNull) ++ knownLine stmt.startLine?)

def lastLine (stmt : Tree) : Outcome (Option Coordinate) :=
  let behind := stmt.comments.filter (!·.leading)
  extreme (fun a b => Coordinate.lt b a)
    ((behind.map (·.line)).filter (!·.isNull) ++ knownLine stmt.endLine?)

def isGap (fst last : Option Coordinate) : Outcome Bool :=
  match fst, last with
  | some fst, some last =>
      match fst.number?, last.number? with
      | some m, some n => return decide (m - n > 1)
      | _, _ => .error .malformed
  | _, _ => return false

/-- Whether a statement in an interpolation started on the line where the one before it ended. -/
def onSameLine (previous stmt : Tree) : Bool :=
  match stmt.startLine? with
  | none | some .null => false
  | some line => previous.endLine?.any line.same

def statementBreak (inInterpolation : Bool) (previous stmt : Tree) : Outcome (List Doc) := do
  -- several blank lines of the source become one
  if ← isGap (← firstLine stmt) (← lastLine previous) then return [.hardline, .hardline]
  if ← isAccessControl stmt then return [.hardline, .hardline]
  if ← isAccessControl previous then return [.hardline, .hardline]
  if inInterpolation && onSameLine previous stmt then return ["; "]
  return [.hardline]

def statement (pr : Printer) (p : Place) (stmt : Tree) : PrintM Doc := do
  if stmt.tag = "void_stmt" then return Comments.only stmt.comments
  pr.print p (.node stmt)

def firstStatement (pr : Printer) (p : Place) (stmt : Tree) : PrintM Doc := do
  let doc ← statement pr p stmt
  -- its lines have to be in order even though there is none before it
  let _ ← firstLine stmt
  return doc

def statementsAfter (pr : Printer) (p : Place) (previous : Tree) : List Tree → PrintM (List Doc)
  | [] => return []
  | stmt :: stmts => do
      let doc ← statement pr p stmt
      let break_ ← statementBreak (p.parentIs ["string_embexpr"]) previous stmt
      return break_ ++ doc :: (← statementsAfter pr p stmt stmts)

/-- A statement list. One that holds nothing but comments is printed as those. -/
def stmts : DocRule := fun pr p => do
  let body ← p.node.bodyNodes
  let body := body.filter fun s => s.tag != "void_stmt" || s.hasComments
  if body.all (·.tag == "void_stmt") then
    match p.node.comments ++ body.flatMap (·.comments) with
    | [] => return .empty
    | comments => return Comments.only comments
  match body with
  | [] => return .empty
  | first :: rest =>
      let doc ← firstStatement pr p first
      let docs := doc :: (← statementsAfter pr p first rest)
      Comments.splice (.cat docs) p.node.comments p.node.endLine?

def program : DocRule := fun pr p => do return .cat [← pr.printChild p 0, .hardline]

def voidStmt : DocRule := fun _ _ => return .empty

/-- Statements one level in, below what introduces them; nothing for an empty list. -/
def indentedBody (pr : Printer) (p : Place) (stmts : Value) : PrintM Doc := do
  if ← Shape.isEmptyStatements stmts then return .empty
  return .indented [.hardline, ← pr.print p stmts]

/-- A clause on a line of its own; nothing for an absent one. -/
def clauseBelow (pr : Printer) (p : Place) (clause : Value) : PrintM (List Doc) := do
  if clause.isNull then return [] else return [.hardline, ← pr.print p clause]

/-- The alternative of a body, which comes with or without its keyword. -/
def elseBelow (pr : Printer) (p : Place) (clause : Value) : PrintM (List Doc) := do
  if clause.isNull then return []
  if (← clause.asNode).tag = "else" then clauseBelow pr p clause
  else return [.hardline, "else", ← indentedBody pr p clause]

/-- The body of a definition or a block: the statements one level in, and the clauses below them.
The closing keyword is not part of it. -/
def bodystmt : DocRule := fun pr p => do
  let [stmts, rescue, elseClause, ensure] := p.node.body | throw .malformed
  let stmts ← indentedBody pr p stmts
  let rescue ← clauseBelow pr p rescue
  let elseClause ← elseBelow pr p elseClause
  let ensure ← clauseBelow pr p ensure
  return .grouped (stmts :: rescue ++ elseClause ++ ensure)

def paren : DocRule := fun pr p => do
  match ← p.node.child 0 with
  | .null => return "()"
  | contents =>
      if containerTags.contains (← contents.asNode).tag then
        return .enclosed "(" [.listed (← argumentList pr p contents)] ")"
      return .enclosed "(" [← pr.print p contents] ")"

def beginBlock : DocRule := fun pr p => do
  return .cat ["begin", ← pr.printChild p 0, .hardline, "end"]

def hook (name : String) : DocRule := fun pr p => do
  return .grouped [name, " \x7b", .indented [.line, ← pr.printChild p 0], .line, "\x7d"]

end RubyPretty.Rules
