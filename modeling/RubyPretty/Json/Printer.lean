import RubyPretty.Text.Quoted
import RubyPretty.Decimal.Shortest
/-!
# Writing JSON text

Texts are written in ASCII: every other character is escaped. `Json.pretty` puts each element
on a line of its own, two spaces further in; `Json.compact` writes no blanks at all.
-/

namespace RubyPretty.Json

def unicodeEscape (n : Nat) : List Char := '\\' :: 'u' :: Text.hex 4 n

def escapeChar (c : Char) : List Char :=
  match c with
  | '"' => ['\\', '"']
  | '\\' => ['\\', '\\']
  | '\n' => ['\\', 'n']
  | '\r' => ['\\', 'r']
  | '\t' => ['\\', 't']
  | '\x08' => ['\\', 'b']
  | '\x0c' => ['\\', 'f']
  | c =>
      if ' ' ≤ c ∧ c ≤ '~' then [c]
      else if c.toNat < 0x10000 then unicodeEscape c.toNat
      else
        let n := c.toNat - 0x10000
        unicodeEscape (0xd800 + n / 0x400) ++ unicodeEscape (0xdc00 + n % 0x400)

def quotedText (s : String) : String :=
  String.ofList ('"' :: s.toList.flatMap escapeChar ++ ['"'])

def scalarText : Json → String
  | .null => "null"
  | .bool b => if b then "true" else "false"
  | .int n => toString n
  | .real r => r.textWith "Infinity" "NaN"
  | .str s => quotedText s
  | .arr _ => "[]"
  | .obj _ => "\x7b\x7d"

mutual

def compact : Json → String
  | .arr vs => "[" ++ ",".intercalate (compactItems vs) ++ "]"
  | .obj ms => "\x7b" ++ ",".intercalate (compactMembers ms) ++ "\x7d"
  | v => scalarText v

def compactItems : List Json → List String
  | [] => []
  | v :: vs => compact v :: compactItems vs

def compactMembers : List (String × Json) → List String
  | [] => []
  | (k, v) :: ms => (quotedText k ++ ":" ++ compact v) :: compactMembers ms

end

def levelBreak (level : Nat) : String := String.ofList ('\n' :: List.replicate (2 * level) ' ')

/-- Elements between brackets, each on its own line one level further in. -/
def block (level : Nat) (opening closing : String) (elements : List String) : String :=
  opening ++ levelBreak (level + 1) ++ ("," ++ levelBreak (level + 1)).intercalate elements ++
    levelBreak level ++ closing

mutual

def prettyAt (level : Nat) : Json → String
  | .arr (v :: vs) => block level "[" "]" (prettyItems (level + 1) (v :: vs))
  | .obj (m :: ms) => block level "\x7b" "\x7d" (prettyMembers (level + 1) (m :: ms))
  | v => scalarText v

def prettyItems (level : Nat) : List Json → List String
  | [] => []
  | v :: vs => prettyAt level v :: prettyItems level vs

def prettyMembers (level : Nat) : List (String × Json) → List String
  | [] => []
  | (k, v) :: ms => (quotedText k ++ ": " ++ prettyAt level v) :: prettyMembers level ms

end

def pretty (json : Json) : String := prettyAt 0 json

end RubyPretty.Json
