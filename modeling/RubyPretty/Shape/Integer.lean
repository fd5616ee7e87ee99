import RubyPretty.Text.Integer
/-!
# Integer literals

An octal literal gets an explicit `0o`, and a decimal one of five or more digits is grouped in
threes. Neither changes the number.
-/

namespace RubyPretty.Shape

/-- Digits after the first one, with a mark before every group of three counted from the end. -/
def groupRest : List Char → List Char
  | [] => []
  | d :: ds => if (ds.length + 1) % 3 = 0 then '_' :: d :: groupRest ds else d :: groupRest ds

def groupDigits : List Char → List Char
  | [] => []
  | d :: ds => d :: groupRest ds

def canonicalDigits (ds : List Char) : List Char :=
  match ds with
  | '0' :: d :: rest => if Text.isDigit d then '0' :: 'o' :: d :: rest else ds
  | '0' :: [] => ds
  | _ => if 5 ≤ ds.length ∧ ds.all Text.isDigit then groupDigits ds else ds

def canonicalChars : List Char → List Char
  | '-' :: ds => '-' :: canonicalDigits ds
  | '+' :: ds => '+' :: canonicalDigits ds
  | ds => canonicalDigits ds

def canonicalInt (s : String) : String := String.ofList (canonicalChars s.toList)

end RubyPretty.Shape
