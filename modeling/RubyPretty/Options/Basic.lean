import RubyPretty.Text.Basic
/-!
# Options

The settings of a run. They are fixed before anything is printed.
-/

namespace RubyPretty

inductive Quote where
  | single
  | double
deriving DecidableEq, Repr, Inhabited

def Quote.text : Quote → String
  | .single => "'"
  | .double => "\""

/-- Whether a list that is broken over several lines ends with a comma. -/
inductive TrailingComma where
  | none
  | all
  | es5
deriving DecidableEq, Repr, Inhabited

def TrailingComma.text : TrailingComma → String
  | .none => "none"
  | .all => "all"
  | .es5 => "es5"

/-- The languages of heredoc bodies, by the delimiter in lower case. -/
def defaultLanguages : List (String × String) :=
  [("css", "css"), ("javascript", "javascript"), ("js", "javascript"), ("less", "less"),
    ("markdown", "markdown"), ("ruby", "ruby"), ("scss", "scss"), ("sql", "sql")]

structure Options where
  printWidth : Nat
  tabWidth : Nat
  /-- Allow `foo if bar` and `foo while bar` where they fit. -/
  modifier : Bool
  /-- Allow `a ? b : c` for a plain condition. -/
  inlineConditionals : Bool
  /-- Prefer `%w[]` and `%i[]` for arrays of plain words and symbols. -/
  arrayLiteral : Bool
  /-- Prefer `key: value` where every key of the hash allows it. -/
  hashLabel : Bool
  /-- Write a block that only calls a method as `(&:method)`. -/
  toProc : Bool
  /-- The hash keys under which a block is never written in that way. -/
  guardedKeys : List String
  quote : Quote
  trailingComma : TrailingComma
  /-- The length from which a chain of calls is offered one call a line. -/
  chainThreshold : Nat
  signatureChainThreshold : Nat
  languages : List (String × String)
  /-- Keep a heredoc as it is when the formatter for its language fails. -/
  embeddedFallback : Bool
deriving DecidableEq, Repr

namespace Options

def default : Options where
  printWidth := 80
  tabWidth := 2
  modifier := true
  inlineConditionals := true
  arrayLiteral := true
  hashLabel := true
  toProc := false
  guardedKeys := ["if", "unless"]
  quote := .single
  trailingComma := .none
  chainThreshold := 3
  signatureChainThreshold := 2
  languages := defaultLanguages
  embeddedFallback := false

instance : Inhabited Options := ⟨default⟩

/-- One step of indentation, unless it is too wide to be written. -/
def indent? (o : Options) : Option String :=
  if Text.canHoldBlanks o.tabWidth then some (Text.blanks o.tabWidth) else none

def trailingCommas (o : Options) : Bool := o.trailingComma != .none

end Options

end RubyPretty
