import RubyPretty.Json.Basic
/-!
# Order of JSON values

Whole numbers are ordered by value, with `false` and `true` as zero and one, texts by their
characters, and arrays by their first elements that differ. Of any other two values one can only
say whether they are the same.
-/

namespace RubyPretty.Json

mutual

/-- How a value stands to another one; `none` if they differ and neither comes first. -/
def compare? : Json → Json → Option Ordering
  | .null, .null => some .eq
  | .real r, .real s => if r = s then some .eq else none
  | .str s, .str t => some (compare s t)
  | .arr vs, .arr ws => compareItems? vs ws
  | .obj ms, .obj ns =>
      if ms.length = ns.length && haveMembers ns ms then some .eq else none
  | v, w =>
      match v.number?, w.number? with
      | some m, some n => some (compare m n)
      | _, _ => none

/-- The first elements that differ decide; without any, the shorter array comes first. -/
def compareItems? : List Json → List Json → Option Ordering
  | [], [] => some .eq
  | [], _ :: _ => some .lt
  | _ :: _, [] => some .gt
  | v :: vs, w :: ws =>
      match compare? v w with
      | some .eq => compareItems? vs ws
      | decided => decided

def haveMembers (ns : List (String × Json)) : List (String × Json) → Bool
  | [] => true
  | (key, v) :: ms =>
      (match ns.lookup key with
        | some w => compare? v w == some .eq
        | none => false) && haveMembers ns ms

end

/-- Whether two values are the same. The order of an object's members does not matter, nor
whether one or zero is written as a boolean. -/
def same (v w : Json) : Bool := v.compare? w == some .eq

end RubyPretty.Json
