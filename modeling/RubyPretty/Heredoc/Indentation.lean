import RubyPretty.Text.Basic
/-!
# The indentation of heredoc bodies

Ruby measures the indentation of a `<<~` body with tabs that stop at every eighth column, and
takes off what all lines share. Blank lines, and what follows the last line feed, do not count.
-/

namespace RubyPretty.Heredoc

def tabStop : Nat := 8

def advance (column : Nat) : Char → Option Nat
  | ' ' => some (column + 1)
  | '\t' => some ((column / tabStop + 1) * tabStop)
  | _ => none

def widthFrom (column : Nat) : List Char → Nat
  | [] => column
  | c :: cs =>
      match advance column c with
      | some next => widthFrom next cs
      | none => column

def indentWidth (line : String) : Nat := widthFrom 0 line.toList

def isBlankLine (line : String) : Bool := line.toList.all Text.isBlank

/-- The indentation shared by all lines that are not blank. -/
def commonIndent (content : String) : Nat :=
  (((Text.lines content).dropLast.filter (!isBlankLine ·)).map indentWidth).min?.getD 0

/-- A line without its first `amount` columns of indentation. A tab that would go past them
stays. -/
def dedentFrom (amount column : Nat) : List Char → List Char
  | [] => []
  | c :: cs =>
      if column ≥ amount then c :: cs
      else match advance column c with
        | some next => if next > amount then c :: cs else dedentFrom amount next cs
        | none => c :: cs

def dedentLine (amount : Nat) (line : String) : String :=
  String.ofList (dedentFrom amount 0 line.toList)

def dedent (content : String) : String :=
  match commonIndent content with
  | 0 => content
  | amount => "\n".intercalate ((Text.lines content).map (dedentLine amount))

end RubyPretty.Heredoc
