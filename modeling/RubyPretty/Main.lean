import RubyPretty.CommandLine.Run
/-!
# The command
-/

namespace RubyPretty.CommandLine

/-- Reads a file. A directory can be opened, so that the error of reading it names no path. -/
def readFile (path : String) : IO (Except ReadError String) := do
  try
    return .ok (← IO.FS.readFile path)
  catch
    | .inappropriateType (some _) .. => return .error .notDirectory
    | .inappropriateType none .. => return .error .isDirectory
    | .invalidArgument .. => return .error .longName
    | _ => return .error .missing

/-- The world as far as a run with these arguments looks at it. No parser can be launched. -/
def worldFor (arguments : List String) : IO World := do
  let host : ParserClient.Host := ⟨[], []⟩
  match parse arguments with
  | .error _ => return ⟨"", fun _ => .error .missing, host⟩
  | .ok request =>
      match request.path? with
      | some path =>
          let file ← readFile path
          return ⟨"", fun _ => file, host⟩
      | none =>
          let text ← (← IO.getStdin).readToEnd
          return ⟨Text.plainLines text, fun _ => .error .missing, host⟩

end RubyPretty.CommandLine

open RubyPretty in
def main (arguments : List String) : IO UInt32 := do
  match CommandLine.run (← CommandLine.worldFor arguments) arguments with
  | .ok reply =>
      IO.print reply.stdout
      IO.eprint reply.stderr
      return reply.code.toUInt32
  | .error _ =>
      IO.eprintln (CommandLine.program ++ ": malformed tree")
      return 1
