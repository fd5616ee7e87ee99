import RubyPretty.Doc.Basic
/-!
# Fitting on a line

A chunk is a document together with the place and mode in which it is written. `fits` looks
ahead over a list of chunks: it asks whether the text up to the first line end stays within the
columns that are left.
-/

namespace RubyPretty.Layout

structure Chunk where
  doc : Doc
  indent : Nat
  root : Nat
  flat : Bool
deriving Repr, Inhabited

def Chunk.withDoc (chunk : Chunk) (doc : Doc) : Chunk := { chunk with doc := doc }

/-- The modes of the named groups written so far, the latest first. -/
abbrev Modes := List (String × Bool)

/-- The mode that decides a choice: that of the named group, or else of the enclosing one. -/
def Modes.flat (modes : Modes) (enclosing : Bool) : Option String → Bool
  | none => enclosing
  | some id => (modes.lookup id).getD enclosing

inductive Scan where
  | overflow
  | lineEnd
  | left (room : Nat)
deriving DecidableEq, Repr

def Scan.spend (room width : Nat) : Scan :=
  if width ≤ room then .left (room - width) else .overflow

mutual

def scan (modes : Modes) (flat : Bool) (room : Nat) : Doc → Scan
  | .empty | .suffix _ | .breakParent => .left room
  | .text s => .spend room s.length
  | .newline b => if flat && !b.hard then .spend room b.flat.length else .lineEnd
  | .seq ds | .fill ds => scanAll modes flat room ds
  | .indent d | .align _ d | .root d => scan modes flat room d
  | .group d _ broken => scan modes (flat && !broken) room d
  | .ifBreak b f id => if modes.flat flat id then scan modes flat room f else scan modes flat room b

def scanAll (modes : Modes) (flat : Bool) (room : Nat) : List Doc → Scan
  | [] => .left room
  | d :: ds =>
      match scan modes flat room d with
      | .left room => scanAll modes flat room ds
      | done => done

end

def scanChunks (modes : Modes) (room : Nat) : List Chunk → Scan
  | [] => .left room
  | c :: cs =>
      match scan modes c.flat room c.doc with
      | .left room => scanChunks modes room cs
      | done => done

/-- Whether the chunks, up to the first line end, need no more than `room` columns. -/
def fits (modes : Modes) (room : Int) (chunks : List Chunk) : Bool :=
  if room < 0 then false else scanChunks modes room.toNat chunks != .overflow

end RubyPretty.Layout
