/-!
# JSON values

Objects are lists of members in the order in which they were written, with each key once.
-/

namespace RubyPretty

/-- A number with a fraction or an exponent: `± digits * 10 ^ exponent`, or one of the three
values that no decimal has. -/
inductive Real where
  | decimal (negative : Bool) (digits : Nat) (exponent : Int)
  | infinity (negative : Bool)
  | nan
deriving DecidableEq, Repr, Inhabited

inductive Json where
  | null
  | bool (b : Bool)
  | int (n : Int)
  | real (r : Real)
  | str (s : String)
  | arr (items : List Json)
  | obj (members : List (String × Json))
deriving BEq, Repr, Inhabited

namespace Json

/-- Sets a member: an old key keeps its place, a new one goes to the end. -/
def setMember (key : String) (value : Json) : List (String × Json) → List (String × Json)
  | [] => [(key, value)]
  | (k, v) :: rest => if k = key then (k, value) :: rest else (k, v) :: setMember key value rest

def members : Json → List (String × Json)
  | .obj ms => ms
  | _ => []

def get? (json : Json) (key : String) : Option Json := json.members.lookup key

def get (json : Json) (key : String) : Json := (json.get? key).getD .null

def isNull : Json → Bool
  | .null => true
  | _ => false

/-- Zero, the empty text, array and object, `false` and `null` are false; all else is true. -/
def truth : Json → Bool
  | .null => false
  | .bool b => b
  | .int n => n != 0
  | .real (.decimal _ digits _) => digits != 0
  | .real _ => true
  | .str s => s != ""
  | .arr items => !items.isEmpty
  | .obj ms => !ms.isEmpty

/-- Booleans count as the numbers zero and one. -/
def number? : Json → Option Int
  | .int n => some n
  | .bool b => some (if b then 1 else 0)
  | _ => none

def str? : Json → Option String
  | .str s => some s
  | _ => none

end Json

end RubyPretty
