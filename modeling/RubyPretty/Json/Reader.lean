import RubyPretty.Json.Basic
import RubyPretty.Text.Integer
/-!
# Reading JSON text

`Json.read` accepts RFC 8259 texts and the three numeric constants `NaN`, `Infinity` and
`-Infinity`. Whole numbers are limited in length. A failure carries its cause and the offset, in
characters, where it was noticed.
-/

namespace RubyPretty.Json

inductive ReadCause where
  | value
  | propertyName
  | colon
  | comma
  | extraData
  | unterminatedString
  | controlCharacter
  | escape
  | unicodeEscape
  | byteOrderMark
  | longNumber
deriving DecidableEq, Repr

def ReadCause.message : ReadCause → String
  | .value => "Expecting value"
  | .propertyName => "Expecting property name enclosed in double quotes"
  | .colon => "Expecting ':' delimiter"
  | .comma => "Expecting ',' delimiter"
  | .extraData => "Extra data"
  | .unterminatedString => "Unterminated string starting at"
  | .controlCharacter => "Invalid control character at"
  | .escape => "Invalid \\escape"
  | .unicodeEscape => "Invalid \\uXXXX escape"
  | .byteOrderMark => "Unexpected UTF-8 BOM (decode using utf-8-sig)"
  | .longNumber => "Number has too many digits"

/-- A failure while reading, at the point where `left` characters were still to come. -/
structure Stuck where
  cause : ReadCause
  left : Nat
deriving DecidableEq, Repr

abbrev Reader (α : Type) := List Char → Except Stuck (α × List Char)

def isSpace (c : Char) : Bool := c == ' ' || c == '\t' || c == '\n' || c == '\r'

def skipSpace (cs : List Char) : List Char := cs.dropWhile isSpace

def hexValue? (c : Char) : Option Nat :=
  if '0' ≤ c ∧ c ≤ '9' then some (c.toNat - '0'.toNat)
  else if 'a' ≤ c ∧ c ≤ 'f' then some (c.toNat - 'a'.toNat + 10)
  else if 'A' ≤ c ∧ c ≤ 'F' then some (c.toNat - 'A'.toNat + 10)
  else none

def hexQuad? : List Char → Option Nat
  | a :: b :: c :: d :: _ => do
      let a ← hexValue? a
      let b ← hexValue? b
      let c ← hexValue? c
      let d ← hexValue? d
      return ((a * 16 + b) * 16 + c) * 16 + d
  | _ => none

def simpleEscape? : Char → Option Char
  | '"' => some '"'
  | '\\' => some '\\'
  | '/' => some '/'
  | 'b' => some '\x08'
  | 'f' => some '\x0c'
  | 'n' => some '\n'
  | 'r' => some '\r'
  | 't' => some '\t'
  | _ => none

/-- What follows a high surrogate, if that is an escaped low one. -/
def lowSurrogate? : List Char → Option (Nat × List Char)
  | '\\' :: 'u' :: cs => do
      let low ← hexQuad? cs
      if 0xdc00 ≤ low ∧ low ≤ 0xdfff then some (low, cs.drop 4) else none
  | _ => none

/-- One step inside a string, whose opening quote stood before the last `start` characters. -/
inductive StringStep where
  | close (rest : List Char)
  | char (c : Char) (rest : List Char)

def stringStep (start : Nat) : List Char → Except Stuck StringStep
  | [] => .error ⟨.unterminatedString, start⟩
  | '"' :: cs => .ok (.close cs)
  | '\\' :: [] => .error ⟨.unterminatedString, start⟩
  | '\\' :: 'u' :: cs =>
      if cs.length ≤ 4 then .error ⟨.unicodeEscape, cs.length + 1⟩
      else match hexQuad? cs with
        | none => .error ⟨.unicodeEscape, cs.length + 1⟩
        | some n =>
            if 0xd800 ≤ n ∧ n ≤ 0xdbff then
              match lowSurrogate? (cs.drop 4) with
              | some (low, rest) =>
                  .ok (.char (Char.ofNat (0x10000 + (n - 0xd800) * 0x400 + (low - 0xdc00))) rest)
              | none => .ok (.char (Char.ofNat 0xfffd) (cs.drop 4))
            else if 0xdc00 ≤ n ∧ n ≤ 0xdfff then .ok (.char (Char.ofNat 0xfffd) (cs.drop 4))
            else .ok (.char (Char.ofNat n) (cs.drop 4))
  | '\\' :: c :: cs =>
      match simpleEscape? c with
      | some e => .ok (.char e cs)
      | none => .error ⟨.escape, cs.length + 2⟩
  | c :: cs =>
      if c.toNat ≤ 0x1f then .error ⟨.controlCharacter, cs.length + 1⟩ else .ok (.char c cs)

def stringBody (start : Nat) : Nat → Reader (List Char)
  | 0, cs => .error ⟨.unterminatedString, cs.length⟩
  | fuel + 1, cs => do
      match ← stringStep start cs with
      | .close rest => return ([], rest)
      | .char c rest =>
          let (body, rest) ← stringBody start fuel rest
          return (c :: body, rest)

def string : Reader String := fun cs => do
  let (body, rest) ← stringBody (cs.length + 1) (cs.length + 1) cs
  return (String.ofList body, rest)

def isAsciiDigit (c : Char) : Bool := '0' ≤ c && c ≤ '9'

def digitsValue (ds : List Char) : Nat :=
  ds.foldl (fun n c => n * 10 + (c.toNat - '0'.toNat)) 0

/-- The digits before a fraction or exponent: no leading zero unless it stands alone. -/
def integerPart? : List Char → Option (List Char × List Char)
  | '0' :: cs => some (['0'], cs)
  | c :: cs =>
      if isAsciiDigit c then some (c :: cs.takeWhile isAsciiDigit, cs.dropWhile isAsciiDigit)
      else none
  | [] => none

def fraction? : List Char → Option (List Char × List Char)
  | '.' :: c :: cs =>
      if isAsciiDigit c then some (c :: cs.takeWhile isAsciiDigit, cs.dropWhile isAsciiDigit)
      else none
  | _ => none

def exponent? : List Char → Option (Int × List Char)
  | c :: cs =>
      if c == 'e' || c == 'E' then
        let (negative, cs) := match cs with
          | '-' :: cs => (true, cs)
          | '+' :: cs => (false, cs)
          | cs => (false, cs)
        match cs.takeWhile isAsciiDigit with
        | [] => none
        | ds =>
            let n : Int := digitsValue ds
            some (if negative then -n else n, cs.dropWhile isAsciiDigit)
      else none
  | [] => none

def unsigned? (negative : Bool) (cs : List Char) : Option (Json × List Char) := do
  let (whole, rest) ← integerPart? cs
  match fraction? rest, exponent? rest with
  | some (part, rest), _ =>
      let (e, rest) := (exponent? rest).getD (0, rest)
      return (.real (.decimal negative (digitsValue (whole ++ part)) (e - part.length)), rest)
  | none, some (e, rest) => return (.real (.decimal negative (digitsValue whole) e), rest)
  | none, none =>
      let n : Int := digitsValue whole
      return (.int (if negative then -n else n), rest)

def integerBound : Nat := Nat.pow 10 Text.maxDigits

def isReadable (n : Int) : Bool := n.natAbs < integerBound

def word? : List Char → List Char → Option (List Char)
  | [], cs => some cs
  | w :: ws, c :: cs => if w = c then word? ws cs else none
  | _ :: _, [] => none

def atom? (cs : List Char) : Option (Json × List Char) :=
  let constant (text : String) (value : Json) : Option (Json × List Char) :=
    (word? text.toList cs).map fun rest => (value, rest)
  constant "null" .null
    <|> constant "true" (.bool true)
    <|> constant "false" (.bool false)
    <|> constant "NaN" (.real .nan)
    <|> constant "Infinity" (.real (.infinity false))
    <|> constant "-Infinity" (.real (.infinity true))
    <|> match cs with
      | '-' :: cs => unsigned? true cs
      | cs => unsigned? false cs

mutual

def value : Nat → Reader Json
  | 0, cs => .error ⟨.value, cs.length⟩
  | fuel + 1, cs =>
      match cs with
      | '"' :: cs => do
          let (s, rest) ← string cs
          return (.str s, rest)
      | '[' :: cs =>
          match skipSpace cs with
          | ']' :: rest => return (.arr [], rest)
          | cs => do
              let (vs, rest) ← items fuel cs
              return (.arr vs, rest)
      | '\x7b' :: cs =>
          match skipSpace cs with
          | '\x7d' :: rest => return (.obj [], rest)
          | cs => do
              let (ms, rest) ← pairs fuel [] cs
              return (.obj ms, rest)
      | cs =>
          match atom? cs with
          | some (.int n, rest) =>
              if isReadable n then return (.int n, rest) else .error ⟨.longNumber, cs.length⟩
          | some result => return result
          | none => .error ⟨.value, cs.length⟩

def items : Nat → Reader (List Json)
  | 0, cs => .error ⟨.value, cs.length⟩
  | fuel + 1, cs => do
      let (v, rest) ← value fuel cs
      match skipSpace rest with
      | ']' :: rest => return ([v], rest)
      | ',' :: rest => do
          let (vs, rest) ← items fuel (skipSpace rest)
          return (v :: vs, rest)
      | rest => .error ⟨.comma, rest.length⟩

/-- The members of an object up to its closing brace, added to those read before. -/
def pairs : Nat → List (String × Json) → Reader (List (String × Json))
  | 0, _, cs => .error ⟨.propertyName, cs.length⟩
  | fuel + 1, ms, cs => do
      let '"' :: cs := cs | .error ⟨.propertyName, cs.length⟩
      let (key, rest) ← string cs
      let ':' :: rest := skipSpace rest | .error ⟨.colon, (skipSpace rest).length⟩
      let (v, rest) ← value fuel (skipSpace rest)
      let ms := setMember key v ms
      match skipSpace rest with
      | '\x7d' :: rest => return (ms, rest)
      | ',' :: rest => pairs fuel ms (skipSpace rest)
      | rest => .error ⟨.comma, rest.length⟩

end

structure ReadError where
  cause : ReadCause
  text : String
  offset : Nat
deriving DecidableEq, Repr

/-- The number of the line that holds the offset, counted from one. -/
def ReadError.line (e : ReadError) : Nat :=
  ((e.text.toList.take e.offset).filter (· == '\n')).length + 1

/-- The position inside that line, counted from one. -/
def ReadError.column (e : ReadError) : Nat :=
  ((e.text.toList.take e.offset).reverse.takeWhile (· != '\n')).length + 1

def ReadError.message (e : ReadError) : String :=
  e.cause.message ++ ": line " ++ toString e.line ++ " column " ++ toString e.column ++
    " (char " ++ toString e.offset ++ ")"

def read (text : String) : Except ReadError Json :=
  let cs := text.toList
  let fail (stuck : Stuck) : Except ReadError Json :=
    .error ⟨stuck.cause, text, cs.length - stuck.left⟩
  match cs with
  | '\ufeff' :: _ => fail ⟨.byteOrderMark, cs.length⟩
  | _ =>
      match value (2 * cs.length + 2) (skipSpace cs) with
      | .error stuck => fail stuck
      | .ok (v, rest) =>
          match skipSpace rest with
          | [] => .ok v
          | rest => fail ⟨.extraData, rest.length⟩

end RubyPretty.Json
