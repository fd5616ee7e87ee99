import RubyPretty.Text.Basic
/-!
# Shell words

Splitting a command line into words by the rules of a POSIX shell, and quoting words so that they
can be read back. Nothing is expanded and `#` starts no comment.
-/

namespace RubyPretty.Text.ShellWords

inductive SplitError where
  | openQuote
  | loneEscape
deriving DecidableEq, Repr

def SplitError.message : SplitError → String
  | .openQuote => "No closing quotation"
  | .loneEscape => "No escaped character"

inductive Mode where
  | bare
  | quoted (quote : Char)
  | escaped
  | quotedEscape
deriving DecidableEq, Repr

def isSeparator (c : Char) : Bool := c == ' ' || c == '\t' || c == '\r' || c == '\n'

/-- The word that is being read, if one has started: quotes start a word even if they are
empty. -/
abbrev Current := Option (List Char)

def append (word : Current) (cs : List Char) : Current := some (word.getD [] ++ cs)

def emit (word : Current) (words : List String) : List String :=
  match word with
  | some cs => String.ofList cs :: words
  | none => words

/-- Reads the words of the rest of a line. Inside double quotes a backslash escapes only a
backslash and a double quote, and stays in front of everything else. -/
def read (mode : Mode) (word : Current) : List Char → Except SplitError (List String)
  | [] =>
      match mode with
      | .bare => .ok (emit word [])
      | .quoted _ => .error .openQuote
      | .escaped | .quotedEscape => .error .loneEscape
  | c :: cs =>
      match mode with
      | .bare =>
          if isSeparator c then (read .bare none cs).map (emit word)
          else if c == '\\' then read .escaped word cs
          else if c == '\'' || c == '"' then read (.quoted c) (append word []) cs
          else read .bare (append word [c]) cs
      | .quoted quote =>
          if c == quote then read .bare word cs
          else if c == '\\' && quote == '"' then read .quotedEscape word cs
          else read (.quoted quote) (append word [c]) cs
      | .escaped => read .bare (append word [c]) cs
      | .quotedEscape =>
          let kept := if c == '\\' || c == '"' then [c] else ['\\', c]
          read (.quoted '"') (append word kept) cs

def split (s : String) : Except SplitError (List String) := read .bare none s.toList

def isSafe (c : Char) : Bool := isWordChar c || "@%+=:,./-".toList.contains c

/-- A single quote closes the quotes, stands between double quotes and opens them again. -/
def quoteChar (c : Char) : List Char := if c == '\'' then "'\"'\"'".toList else [c]

def quote (s : String) : String :=
  if s = "" then "''"
  else if s.toList.all isSafe then s
  else String.ofList ('\'' :: s.toList.flatMap quoteChar ++ ['\''])

def join (words : List String) : String := " ".intercalate (words.map quote)

end RubyPretty.Text.ShellWords
