import RubyPretty.CommandLine.Arguments
import RubyPretty.CommandLine.Folder
import RubyPretty.Doc.Outline
import RubyPretty.Formatting
import RubyPretty.Json.Printer
import RubyPretty.ParserClient
/-!
# A run of the command

What a run reads is collected in a `World`, and what it gives is a `Reply`, so a run is a
function.
-/

namespace RubyPretty.CommandLine

structure World where
  stdin : String
  file : String → Except ReadError String
  host : ParserClient.Host

structure Reply where
  code : Nat
  stdout : String
  stderr : String
deriving DecidableEq, Repr

def program : String := "rubyfmt"

def helpText : String :=
  "usage: rubyfmt [options] [input]\n\nFormat a parsed Ruby syntax tree\n\noptions:\n" ++
    String.join (switches.map fun (name, _) => "  " ++ name ++ "\n")

/-- A setting of a value. Nothing is an empty list, which no setting takes. -/
def Given.toJson {α : Type} (toJson : α → Json) : Given α → Json
  | .nothing => .arr []
  | .value a => toJson a

def Request.settings (r : Request) : List (String × Json) :=
  [("print_width", r.printWidth.toJson .int), ("tab_width", r.tabWidth.toJson .int),
    ("modifier", .bool r.modifier), ("inline_conditionals", .bool r.inlineConditionals),
    ("array_literal", .bool r.arrayLiteral), ("hash_label", .bool r.hashLabel),
    ("to_proc", .bool r.toProc), ("trailing_comma", r.trailingComma.toJson .str)] ++
    r.quote.toList.map fun q => ("quote", q.toJson .str)

inductive Failure where
  | fault (cause : Fault)
  | unreadable (path : String) (error : ReadError)

def Failure.message : Failure → String
  | .fault cause => cause.message
  | .unreadable path error => error.message ++ ": " ++ Text.quoted path

def Request.path? (r : Request) : Option String := r.input.filter (· != "-")

/-- The text of the input. The lines of a file may end in any of the usual ways. No path holds a
null character. -/
def World.input (w : World) (r : Request) : Except Failure String :=
  match r.path? with
  | none => .ok w.stdin
  | some path =>
      if path.toList.contains '\x00' then .error (.fault .malformed)
      else (Text.plainLines <$> w.file path).mapError (.unreadable path)

inductive Note where
  | client (event : ParserClient.Event)
  | comment (attached : Comments.Attached)
  | chain (note : ChainNote)

def Note.line : Note → String
  | .client event => "DEBUG:rubyfmt.client:" ++ event.message ++ "\n"
  | .comment attached => "DEBUG:rubyfmt.comments:" ++ attached.message ++ "\n"
  | .chain note => "DEBUG:rubyfmt.chain:" ++ note.message ++ "\n"

/-- A step of a run: its notes, and its result if it did not fail. -/
abbrev Step (α : Type) := List Note × Except Failure α

def Given.command : Given String → Except ParserClient.BadCommand ParserClient.Command
  | .nothing => ParserClient.Command.ofWords []
  | .value line => ParserClient.Command.ofLine line

def parseWith (w : World) (command : Given String) (source : String) : Step Tree :=
  match command.command with
  | .error _ => ([], .error (.fault .malformed))
  | .ok command =>
      match (ParserClient.Session.start command .null w.host).enter with
      | (session, .error fault) => (session.events.map .client, .error (.fault fault))
      | (session, .ok ()) =>
          let (session, tree) := session.parse source
          (session.exit.events.map .client, tree.mapError .fault)

def readTree (w : World) (r : Request) (source : String) : Step Tree :=
  match r.parserCommand with
  | some command => parseWith w command source
  | none => ([], (Node.ofText source).mapError .fault)

def Printout.notes (p : Printout) : List Note := p.attached.map .comment ++ p.chains.map .chain

def Request.output (r : Request) (o : Options) (p : Printout) : Outcome String :=
  if r.doc then return (Json.arr p.doc.outline).pretty ++ "\n" else p.text o

def write (r : Request) (o : Options) (tree : Tree) : Step String :=
  match Registry.default.print o none tree with
  | .ok p => (Printout.notes p, (r.output o p).mapError .fault)
  | .error fault => ([], .error (.fault fault))

def perform (w : World) (r : Request) : Step String :=
  let prepared := do
    let o ← (Options.ofLoose r.settings).mapError fun bad => Failure.fault (.badSetting bad)
    return (o, ← w.input r)
  match prepared with
  | .error failure => ([], .error failure)
  | .ok (o, source) =>
      match readTree w r source with
      | (notes, .error failure) => (notes, .error failure)
      | (notes, .ok tree) =>
          let (more, result) := write r o tree
          (notes ++ more, result)

/-- Runs the command. A tree that no rule can read leaves no reply. -/
def run (w : World) (arguments : List String) : Outcome Reply :=
  match parse arguments with
  | .error .help => .ok ⟨0, helpText, ""⟩
  | .error (.usage error) =>
      .ok ⟨2, "", program ++ ": error: " ++ error.message ++ "\n"⟩
  | .ok r =>
      let (notes, result) := perform w r
      let log := if r.debug then String.join (notes.map Note.line) else ""
      match result with
      | .ok text => .ok ⟨0, text, log⟩
      | .error (.fault .malformed) => .error .malformed
      | .error failure => .ok ⟨1, "", log ++ program ++ ": " ++ failure.message ++ "\n"⟩

end RubyPretty.CommandLine
