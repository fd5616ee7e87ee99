import RubyPretty.Text.Basic
import RubyPretty.Text.Integer
import RubyPretty.Text.Quoted
/-!
# Arguments

The arguments of the command line, read by the usual conventions: long options may be shortened
as long as they stay unambiguous, `--name=value` and `--name value` mean the same, `--` ends the
options, and a negative number is no option.
-/

namespace RubyPretty.CommandLine

inductive Flag where
  | help
  | noModifier
  | noInlineConditionals
  | noArrayLiteral
  | noHashLabel
  | toProc
  | debug
  | doc
deriving DecidableEq, Repr

inductive Parameter where
  | parserCommand
  | printWidth
  | tabWidth
  | quote
  | trailingComma
deriving DecidableEq, Repr

inductive Switch where
  | flag (f : Flag)
  | parameter (p : Parameter)
deriving DecidableEq, Repr

def switches : List (String × Switch) :=
  [("-h", .flag .help), ("--help", .flag .help), ("--parser-command", .parameter .parserCommand),
    ("--print-width", .parameter .printWidth), ("--tab-width", .parameter .tabWidth),
    ("--no-modifier", .flag .noModifier),
    ("--no-inline-conditionals", .flag .noInlineConditionals),
    ("--no-array-literal", .flag .noArrayLiteral), ("--no-hash-label", .flag .noHashLabel),
    ("--to-proc", .flag .toProc), ("--quote", .parameter .quote),
    ("--trailing-comma", .parameter .trailingComma), ("--debug", .flag .debug),
    ("--doc", .flag .doc)]

def Switch.names (s : Switch) : String :=
  "/".intercalate ((switches.filter (·.2 == s)).map (·.1))

inductive UsageError where
  | ambiguous (argument : String) (matching : List String)
  | missingValue (switch : Switch)
  | unwantedValue (switch : Switch) (value : String)
  | badInteger (switch : Switch) (value : String)
  | badChoice (switch : Switch) (value : String) (choices : List String)
  | unrecognized (arguments : List String)
deriving DecidableEq, Repr

namespace UsageError

def about (switch : Switch) (text : String) : String :=
  "argument " ++ switch.names ++ ": " ++ text

def message : UsageError → String
  | .ambiguous argument matching =>
      "ambiguous option: " ++ argument ++ " could match " ++ ", ".intercalate matching
  | .missingValue switch => about switch "expected one argument"
  | .unwantedValue switch value => about switch ("ignored explicit argument " ++ Text.quoted value)
  | .badInteger switch value => about switch ("invalid int value: " ++ Text.quoted value)
  | .badChoice switch value choices =>
      about switch ("invalid choice: " ++ Text.quoted value ++ " (choose from " ++
        ", ".intercalate (choices.map Text.quoted) ++ ")")
  | .unrecognized arguments => "unrecognized arguments: " ++ " ".intercalate arguments

end UsageError

inductive Argument where
  | plain (s : String)
  | endOfOptions
  | option (switch : Switch) (name : String) (value : Option String)
  /-- Letters behind a short option, with or without an equals sign. -/
  | cluster (switch : Switch) (letters : List Char)
  | unknown (s : String)
deriving DecidableEq, Repr

def splitValue (s : String) : String × Option String :=
  match s.toList.dropWhile (· != '=') with
  | [] => (s, none)
  | _ :: value => (String.ofList (s.toList.takeWhile (· != '=')), some (String.ofList value))

def isDecimal (c : Char) : Bool := (Text.decimalValue? c).isSome

/-- Digits, or a point with digits behind it; a final line feed does not count. -/
def isUnsignedNumber (cs : List Char) : Bool :=
  let digits := cs.takeWhile isDecimal
  let atEnd (rest : List Char) : Bool := rest == [] || rest == ['\n']
  match cs.dropWhile isDecimal with
  | '.' :: rest => rest.head?.any isDecimal && atEnd (rest.dropWhile isDecimal)
  | rest => !digits.isEmpty && atEnd rest

def isNegativeNumber (s : String) : Bool :=
  match s.toList with
  | '-' :: cs => isUnsignedNumber cs
  | _ => false

def otherwise (s : String) : Argument :=
  if isNegativeNumber s || s.toList.contains ' ' then .plain s else .unknown s

def classifyLong (s : String) : Except UsageError Argument :=
  let (name, value) := splitValue s
  match switches.filter fun (full, _) => Text.startsWith name full with
  | [] => .ok (otherwise s)
  | [(full, switch)] => .ok (.option switch full value)
  | several => .error (.ambiguous s (several.map (·.1)))

def classifyShort (s : String) : Argument :=
  match switches.lookup (Text.takeChars 2 s) with
  | some switch => .cluster switch (s.toList.drop 2)
  | none => otherwise s

def classify (s : String) : Except UsageError Argument :=
  if s = "-" || !Text.startsWith "-" s then .ok (.plain s)
  else match switches.lookup s with
    | some switch => .ok (.option switch s none)
    | none =>
        let (name, value) := splitValue s
        match value, switches.lookup name with
        | some value, some switch =>
            if Text.startsWith "--" name || value = "" then .ok (.option switch name (some value))
            else .ok (.cluster switch value.toList)
        | _, _ => if Text.startsWith "--" s then classifyLong s else .ok (classifyShort s)

def classifyAll : List String → Except UsageError (List Argument)
  | [] => .ok []
  | s :: rest =>
      if s = "--" then .ok (.endOfOptions :: rest.map .plain)
      else do return (← classify s) :: (← classifyAll rest)

/-- What an option was given. The value `--` ends the options and nothing else, so it leaves the
option with nothing. -/
inductive Given (α : Type) where
  | nothing
  | value (a : α)
deriving DecidableEq, Repr

structure Request where
  input : Option String
  parserCommand : Option (Given String)
  printWidth : Given Int
  tabWidth : Given Int
  modifier : Bool
  inlineConditionals : Bool
  arrayLiteral : Bool
  hashLabel : Bool
  toProc : Bool
  quote : Option (Given String)
  trailingComma : Given String
  debug : Bool
  doc : Bool
deriving DecidableEq, Repr

def Request.default : Request :=
  ⟨none, none, .value 80, .value 2, true, true, true, true, false, none, .value "none", false,
    false⟩

inductive Stop where
  | help
  | usage (error : UsageError)
deriving DecidableEq, Repr

def Request.apply (r : Request) : Flag → Except Stop Request
  | .help => .error .help
  | .noModifier => .ok { r with modifier := false }
  | .noInlineConditionals => .ok { r with inlineConditionals := false }
  | .noArrayLiteral => .ok { r with arrayLiteral := false }
  | .noHashLabel => .ok { r with hashLabel := false }
  | .toProc => .ok { r with toProc := true }
  | .debug => .ok { r with debug := true }
  | .doc => .ok { r with doc := true }

def integerFor (p : Parameter) (value : String) : Except Stop Int :=
  match Text.readInt? value with
  | some n => .ok n
  | none => .error (.usage (.badInteger (.parameter p) value))

def choiceFor (p : Parameter) (choices : List String) (value : String) : Except Stop String :=
  if choices.contains value then .ok value
  else .error (.usage (.badChoice (.parameter p) value choices))

def Given.read {α : Type} (read : String → Except Stop α) (value : String) :
    Except Stop (Given α) := do
  if value = "--" then return .nothing else return .value (← read value)

def Request.set (r : Request) (p : Parameter) (value : String) : Except Stop Request := do
  match p with
  | .parserCommand => return { r with parserCommand := some (← Given.read .ok value) }
  | .printWidth => return { r with printWidth := ← Given.read (integerFor p) value }
  | .tabWidth => return { r with tabWidth := ← Given.read (integerFor p) value }
  | .quote => return { r with quote := some (← Given.read (choiceFor p ["'", "\""]) value) }
  | .trailingComma =>
      return { r with trailingComma := ← Given.read (choiceFor p ["none", "all", "es5"]) value }

/-- Letters behind a short flag stand for further short flags; anything else is a value, which it
does not take. -/
def checkCluster (switch : Switch) : List Char → Except Stop Unit
  | [] => .ok ()
  | c :: cs =>
      match switches.lookup (String.ofList ['-', c]) with
      | some switch => checkCluster switch cs
      | none => .error (.usage (.unwantedValue switch (String.ofList (c :: cs))))

structure Progress where
  request : Request
  settled : Bool
  extras : List String
deriving DecidableEq, Repr

def Progress.skip (p : Progress) (s : String) : Progress := { p with extras := p.extras ++ [s] }

def Progress.settle (p : Progress) (s : String) : Progress :=
  { p with request := { p.request with input := some s }, settled := true }

/-- Takes the arguments from left to right. The first plain argument is the input; the end of the
options goes with it if it stands right beside it. -/
def Progress.take (p : Progress) : List Argument → Except Stop Progress
  | [] => .ok p
  | .option (.parameter q) _ (some value) :: rest => do
      ({ p with request := ← p.request.set q value } : Progress).take rest
  | .option (.parameter q) _ none :: .plain value :: rest => do
      ({ p with request := ← p.request.set q value } : Progress).take rest
  | .option (.parameter q) _ none :: _ => .error (.usage (.missingValue (.parameter q)))
  | .option (.flag f) _ (some value) :: _ => .error (.usage (.unwantedValue (.flag f) value))
  | .option (.flag f) _ none :: rest => do
      ({ p with request := ← p.request.apply f } : Progress).take rest
  | .cluster (.flag f) letters :: rest => do
      checkCluster (.flag f) letters
      ({ p with request := ← p.request.apply f } : Progress).take rest
  | .cluster (.parameter q) letters :: rest => do
      ({ p with request := ← p.request.set q (String.ofList letters) } : Progress).take rest
  | .unknown s :: rest => (p.skip s).take rest
  | .plain s :: .endOfOptions :: rest =>
      if p.settled then ((p.skip s).skip "--").take rest else (p.settle s).take rest
  | .plain s :: rest => if p.settled then (p.skip s).take rest else (p.settle s).take rest
  | .endOfOptions :: rest => if p.settled then (p.skip "--").take rest else p.take rest

def parse (arguments : List String) : Except Stop Request := do
  let arguments ← (classifyAll arguments).mapError .usage
  let p ← Progress.take ⟨.default, false, []⟩ arguments
  if p.extras.isEmpty then return p.request
  throw (.usage (.unrecognized p.extras))

end RubyPretty.CommandLine
