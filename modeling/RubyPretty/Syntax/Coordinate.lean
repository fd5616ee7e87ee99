import RubyPretty.Syntax.Access
/-!
# Order of coordinates

Coordinates are compared as JSON values. Two that have no order are a `malformed` fault wherever
an order is asked for; whether they are the same can always be told.
-/

namespace RubyPretty

namespace Coordinate

def isOrdered : Coordinate → Bool
  | .null | .obj _ => false
  | _ => true

def order (a b : Coordinate) : Outcome Ordering :=
  match isOrdered a, a.compare? b with
  | true, some o => return o
  | _, _ => .error .malformed

def lt (a b : Coordinate) : Outcome Bool := do return (← order a b) == .lt

def le (a b : Coordinate) : Outcome Bool := do return (← order a b) != .gt

end Coordinate

def Span.isOneLine (s : Span) : Bool := s.startLine.same s.endLine

def Span.containsLine (s : Span) (line : Coordinate) : Outcome Bool := do
  if ← Coordinate.le s.startLine line then Coordinate.le line s.endLine else return false

end RubyPretty
