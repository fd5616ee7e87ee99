import RubyPretty.Syntax.Coordinate
/-!
# Attaching comments

Comments that come in one list with the program are attached to its statements by their lines.
Only statements, and statement lists without any, can hold a comment that survives printing.

Nodes are addressed by their position in the walk of the tree.
-/

namespace RubyPretty

namespace Value

mutual

def nodeCount : Value → Nat
  | .node ⟨tag, body, _, _⟩ => 1 + if isTokenTag tag then 0 else nodeCountAll body
  | .list vs => nodeCountAll vs
  | _ => 0

def nodeCountAll : List Value → Nat
  | [] => 0
  | v :: vs => nodeCount v + nodeCountAll vs

end

mutual

def addComment (c : Comment) (position : Nat) : Value → Value
  | .node ⟨tag, body, comments, loc⟩ =>
      match position with
      | 0 => .node ⟨tag, body, comments ++ [c], loc⟩
      | below + 1 =>
          if isTokenTag tag then .node ⟨tag, body, comments, loc⟩
          else .node ⟨tag, addCommentAll c below body, comments, loc⟩
  | .list vs => .list (addCommentAll c position vs)
  | v => v

def addCommentAll (c : Comment) (position : Nat) : List Value → List Value
  | [] => []
  | v :: vs =>
      if position < nodeCount v then addComment c position v :: vs
      else v :: addCommentAll c (position - nodeCount v) vs

end

end Value

def Node.addComment (n : Tree) (c : Comment) (position : Nat) : Tree :=
  match (Value.node n).addComment c position with
  | .node n => n
  | _ => n

namespace Comments

structure Statement where
  position : Nat
  node : Tree
deriving Repr

/-- A statement list, the span that it covers and how deep it is nested. Without a location of
its own it covers the nearest span around it, and without any span the whole file. -/
structure StatementList where
  position : Nat
  length : Nat
  statements : List Statement
  span : Option Span
  depth : Nat
deriving Repr

def statementsAt (position : Nat) : List Value → List Statement
  | [] => []
  | .node n :: vs =>
      ⟨position, n⟩ :: statementsAt (position + (Value.node n).nodeCount) vs
  | v :: vs => statementsAt (position + v.nodeCount) vs

mutual

def listsIn (span : Option Span) (depth position : Nat) : Value → List StatementList
  | .node ⟨tag, body, _, loc⟩ =>
      let span := loc.or span
      let here :=
        if tag = "stmts" then
          [⟨position, body.length, statementsAt (position + 1) body, span, depth⟩]
        else []
      here ++ if isTokenTag tag then [] else listsInAll span (depth + 1) (position + 1) body
  | .list vs => listsInAll span depth position vs
  | _ => []

def listsInAll (span : Option Span) (depth position : Nat) : List Value → List StatementList
  | [] => []
  | v :: vs =>
      listsIn span depth position v ++ listsInAll span depth (position + v.nodeCount) vs

end

def statementLists (tree : Tree) : List StatementList := listsIn none 0 0 (.node tree)

inductive Placement where
  /-- Behind the outermost statement that ends on its line. -/
  | behind (stmt : Statement)
  | emptyList (position : Nat)
  | placeholder (stmt : Statement)
  | above (stmt : Statement)
  /-- Below the last statement before it. -/
  | below (stmt : Statement)
deriving Repr

def Placement.position : Placement → Nat
  | .emptyList position => position
  | .behind stmt | .placeholder stmt | .above stmt | .below stmt => stmt.position

def Placement.leading : Placement → Bool
  | .above _ => true
  | _ => false

def Statement.isVoid (s : Statement) : Bool := s.node.tag == "void_stmt"

def firstLeast {α : Type} (key : α → Nat) : List α → Option α
  | [] => none
  | a :: as =>
      match firstLeast key as with
      | none => some a
      | some b => if key a ≤ key b then some a else some b

def firstGreatest {α : Type} (key : α → Nat) : List α → Option α
  | [] => none
  | a :: as =>
      match firstGreatest key as with
      | none => some a
      | some b => if key b ≤ key a then some a else some b

def endingOn (line : Coordinate) (lists : List StatementList) : List (Nat × Statement) :=
  lists.flatMap fun entry =>
    (entry.statements.filter fun s => s.node.endLine?.any line.same && !s.isVoid).map
      fun s => (entry.depth, s)

def StatementList.covers (entry : StatementList) (line : Coordinate) : Outcome Bool :=
  match entry.span with
  | none => return true
  | some span => span.containsLine line

/-- The innermost list around a line; a line outside of all lists belongs to the first one. -/
def innermost? (line : Coordinate) (lists : List StatementList) :
    Outcome (Option StatementList) := do
  match ← lists.filterM (·.covers line) with
  | [] => return lists.head?
  | around => return firstGreatest (·.depth) around

def startsAfter (line : Coordinate) (s : Statement) : Outcome Bool :=
  match s.node.startLine? with
  | none => return false
  | some start => Coordinate.lt line start

/-- Whether a statement starts before a line, as one without a location is taken to do. -/
def startsBefore (line : Coordinate) (s : Statement) : Outcome Bool :=
  match s.node.startLine? with
  | none => return true
  | some start => Coordinate.lt start line

def placeIn (line : Coordinate) (entry : StatementList) : Outcome Placement := do
  match entry.statements.filter (!·.isVoid) with
  | [] =>
      match entry.statements with
      | [] => return .emptyList entry.position
      | stmt :: _ => return .placeholder stmt
  | first :: more =>
      let real := first :: more
      match ← real.filterM (startsAfter line) with
      | next :: _ => return .above next
      | [] =>
          let preceding ← real.filterM (startsBefore line)
          return .below (preceding.getLast?.getD ((first :: more).getLast (by simp)))

def place (line : Coordinate) (lists : List StatementList) : Outcome Placement := do
  match firstLeast (·.1) (endingOn line lists) with
  | some (_, stmt) => return .behind stmt
  | none =>
      match ← innermost? line lists with
      | some entry => placeIn line entry
      | none => .error .malformed

structure Attached where
  comment : Comment
  placement : Placement
deriving Repr

def Attached.message (a : Attached) : String :=
  let lineText (line : Option Coordinate) : String := (line.getD .null).display
  "Line " ++ a.comment.line.display ++ ": " ++
    match a.placement with
    | .behind s =>
        "trailing comment on " ++ s.node.tag ++ " [" ++ lineText s.node.startLine? ++ ", " ++
          lineText s.node.endLine? ++ "]"
    | .emptyList _ => "comment on empty statement list"
    | .placeholder _ => "comment on placeholder statement"
    | .above s => "leading comment on " ++ s.node.tag ++ " at line " ++ lineText s.node.startLine?
    | .below s => "trailing comment on " ++ s.node.tag ++ " (own line)"

/-- Puts a comment in front of the first one that stood on no earlier line. -/
def insertByLine (c : Comment) : List Comment → Outcome (List Comment)
  | [] => return [c]
  | d :: ds => do
      if ← Coordinate.lt d.line c.line then return d :: (← insertByLine c ds)
      else return c :: d :: ds

/-- The comments in the order of their lines; those of one line stay as they are. -/
def sortByLine : List Comment → Outcome (List Comment)
  | [] => return []
  | c :: cs => do insertByLine c (← sortByLine cs)

def schedule (tree : Tree) (comments : List Comment) : Outcome (List Comment) := do
  if (statementLists tree).isEmpty then throw (.noStatementList tree)
  if let some c := comments.find? (·.line.isNull) then throw (.commentWithoutLine c.text)
  sortByLine comments

/-- Finds the places of comments, up to the first one that has none. -/
def placeAll (lists : List StatementList) : List Comment → List Attached × Option Fault
  | [] => ([], none)
  | c :: cs =>
      match place c.line lists with
      | .error cause => ([], some cause)
      | .ok placement =>
          let (attached, fault?) := placeAll lists cs
          (⟨{ c with leading := placement.leading }, placement⟩ :: attached, fault?)

structure Attachment where
  tree : Tree
  attached : List Attached
  fault? : Option Fault

def attach (tree : Tree) (comments : List Comment) : Attachment :=
  match schedule tree comments with
  | .error cause => ⟨tree, [], some cause⟩
  | .ok comments =>
      let (attached, fault?) := placeAll (statementLists tree) comments
      ⟨attached.foldl (fun t a => t.addComment a.comment a.placement.position) tree, attached,
        fault?⟩

end Comments

end RubyPretty
