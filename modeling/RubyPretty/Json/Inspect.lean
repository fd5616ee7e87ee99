import RubyPretty.Text.Quoted
import RubyPretty.Decimal.Shortest
/-!
# Values in messages

The form in which a message shows the value it complains about.
-/

namespace RubyPretty.Json

def bracketed (opening closing : String) (elements : List String) : String :=
  opening ++ ", ".intercalate elements ++ closing

/-- A fixed sequence; one element alone keeps its comma. -/
def tupleText : List String → String
  | [e] => "(" ++ e ++ ",)"
  | es => bracketed "(" ")" es

mutual

def inspect : Json → String
  | .null => "None"
  | .bool b => if b then "True" else "False"
  | .int n => toString n
  | .real r => r.textWith "inf" "nan"
  | .str s => Text.quoted s
  | .arr vs => bracketed "[" "]" (inspectItems vs)
  | .obj ms => bracketed "\x7b" "\x7d" (inspectMembers ms)

def inspectItems : List Json → List String
  | [] => []
  | v :: vs => inspect v :: inspectItems vs

def inspectMembers : List (String × Json) → List String
  | [] => []
  | (k, v) :: ms => (Text.quoted k ++ ": " ++ inspect v) :: inspectMembers ms

end

def display : Json → String
  | .str s => s
  | v => inspect v

end RubyPretty.Json
