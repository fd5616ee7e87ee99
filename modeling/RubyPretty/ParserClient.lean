import RubyPretty.Syntax.Access
import RubyPretty.Syntax.Reading
import RubyPretty.Text.ShellWords
/-!
# The parser client

A parser is a command that reads Ruby source and writes the tree as JSON. A client is opened,
parses any number of sources, and refuses to run when it is not open.

What the command does is an input here: a `Host` says which commands there are and how each
launch ends.
-/

namespace RubyPretty.ParserClient

inductive Launch where
  | timedOut
  | finished (code : Int) (stdout stderr : String)
deriving DecidableEq, Repr

structure Host where
  commands : List String
  launches : List Launch
deriving Repr

inductive BadCommand where
  | split (error : Text.ShellWords.SplitError)
  | empty
deriving DecidableEq, Repr

def BadCommand.message : BadCommand → String
  | .split error => error.message
  | .empty => "The parser command cannot be empty"

inductive Event where
  | opened (words : List String)
  | parsing (length : Nat)
  | closed
deriving DecidableEq, Repr

def Event.message : Event → String
  | .opened words => "Opened parser client for " ++ Text.ShellWords.join words
  | .parsing length => "Parsing " ++ toString length ++ " characters"
  | .closed => "Closed parser client"

structure Command where
  name : String
  arguments : List String
deriving DecidableEq, Repr

def Command.words (c : Command) : List String := c.name :: c.arguments

def Command.ofWords : List String → Except BadCommand Command
  | [] => .error .empty
  | name :: arguments => .ok ⟨name, arguments⟩

def Command.ofLine (line : String) : Except BadCommand Command := do
  Command.ofWords (← (Text.ShellWords.split line).mapError .split)

structure Session where
  command : Command
  /-- The time that a launch may take, as it was given. -/
  limit : Json
  host : Host
  isOpen : Bool
  sources : List String
  events : List Event
deriving Repr

namespace Session

def start (command : Command) (limit : Json) (host : Host) : Session :=
  ⟨command, limit, host, false, [], []⟩

def log (s : Session) (e : Event) : Session := { s with events := s.events ++ [e] }

def enter (s : Session) : Session × Outcome Unit :=
  if s.host.commands.contains s.command.name then
    ({ s with isOpen := true }.log (.opened s.command.words), .ok ())
  else (s, .error (.parser (.notFound s.command.name)))

def exit (s : Session) : Session := { s with isOpen := false }.log .closed

end Session

/-- What a parser writes in front of the reason for which it rejects a source. -/
def rejectMark : String := "ERROR: "

def Launch.tree (limit : Json) : Launch → Outcome Tree
  | .timedOut => .error (.parser (.timedOut limit.display))
  | .finished code stdout stderr =>
      if code ≠ 0 then .error (.parser (.failed code (Text.trim stderr)))
      else if Text.startsWith rejectMark stdout then
        .error (.parser (.rejected (Text.trim (Text.dropChars rejectMark.length stdout))))
      else Node.ofText stdout

def Session.parse (s : Session) (source : String) : Session × Outcome Tree :=
  if s.isOpen then
    let s := { s.log (.parsing source.length) with sources := s.sources ++ [source] }
    match s.host.launches with
    | [] => (s, .error .malformed)
    | launch :: launches =>
        ({ s with host := { s.host with launches := launches } }, launch.tree s.limit)
  else (s, .error (.parser .notOpen))

end RubyPretty.ParserClient
