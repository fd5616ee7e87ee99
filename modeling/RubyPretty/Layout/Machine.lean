import RubyPretty.Doc.Breaks
import RubyPretty.Layout.Chunk
/-!
# The layout machine

The machine holds a stack of chunks still to be written and the suffixes that wait for the end of
the line. Each `step` takes the first chunk off the stack: it writes it, or puts its parts back
in the mode that has been decided for them.
-/

namespace RubyPretty.Layout

/-- The page to write on: its width, and the columns of one step of indentation, where less than
none are none. -/
structure Page where
  width : Int
  tab : Int
deriving DecidableEq, Repr

structure State where
  /-- The characters written so far, the last one first. -/
  out : List Char
  column : Nat
  /-- The root padding written last, as long as nothing has been written after it. -/
  padding : Option Nat
  modes : Modes
  suffixes : List Chunk
  stack : List Chunk
deriving Repr, Inhabited

namespace State

def write (s : State) (text : String) : State :=
  { s with
    out := text.toList.reverse ++ s.out
    column := s.column + text.length
    padding := none }

def push (s : State) (chunks : List Chunk) : State := { s with stack := chunks ++ s.stack }

/-- Moves the waiting suffixes onto the stack: those of a single line first, since one that ends
a line would leave the others on its last line. -/
def flush (s : State) : State :=
  { s with
    stack :=
      s.suffixes.filter (fun c => !c.doc.hasForcedBreak) ++
        s.suffixes.filter (fun c => c.doc.hasForcedBreak) ++ s.stack
    suffixes := [] }

def isTrailingBlank (c : Char) : Bool := c == ' ' || c == '\t'

/-- Ends the line at the root of the chunk; a line that holds only root padding loses it. -/
def endLiteral (s : State) (chunk : Chunk) : State :=
  { s with
    out := List.replicate chunk.root ' ' ++ '\n' :: s.out.drop (s.padding.getD 0)
    column := chunk.root
    padding := some chunk.root }

/-- Ends the line at the indentation of the chunk, without blanks at its end. -/
def endIndented (s : State) (chunk : Chunk) : State :=
  { s with
    out := List.replicate chunk.indent ' ' ++ '\n' :: s.out.dropWhile isTrailingBlank
    column := chunk.indent
    padding := none }

def fits (s : State) (page : Page) (chunks : List Chunk) : Bool :=
  Layout.fits s.modes (page.width - s.column) chunks

/-- The mode of a group whose chunk has been taken off the stack. -/
def groupFlat (s : State) (page : Page) (chunk : Chunk) (d : Doc) (broken : Bool) : Bool :=
  chunk.flat || (!broken && s.fits page ({ chunk with doc := d, flat := true } :: s.stack))

def fillChunks (s : State) (page : Page) (chunk : Chunk) : List Doc → List Chunk
  | [] => []
  | content :: rest =>
      let contentFits := !content.hasForcedBreak &&
        s.fits page [{ chunk with doc := content, flat := true }]
      let first := { chunk with doc := content, flat := contentFits || chunk.flat }
      match rest with
      | [] => [first]
      | [separator] => [first, { chunk with doc := separator, flat := contentFits }]
      | separator :: next :: more =>
          let pairFits :=
            s.fits page [{ chunk with doc := .seq [content, separator, next], flat := true }]
          [first, { chunk with doc := separator, flat := pairFits },
            chunk.withDoc (.fill (next :: more))]

def take (s : State) (page : Page) (chunk : Chunk) : State :=
  match chunk.doc with
  | .empty | .breakParent => s
  | .text t => s.write t
  | .newline b =>
      if chunk.flat && !b.hard then s.write b.flat
      else if !s.suffixes.isEmpty then (s.push [chunk]).flush
      else if b.literal then s.endLiteral chunk
      else s.endIndented chunk
  | .seq ds => s.push (ds.map chunk.withDoc)
  | .indent d =>
      s.push [{ chunk with
        doc := d
        indent := chunk.indent + if chunk.flat then 0 else page.tab.toNat }]
  | .align n d =>
      s.push [{ chunk with doc := d, indent := chunk.indent + if chunk.flat then 0 else n.toNat }]
  | .root d => s.push [{ chunk with doc := d, root := chunk.indent }]
  | .group d id broken =>
      let flat := s.groupFlat page chunk d broken
      let s := s.push [{ chunk with doc := d, flat := flat }]
      match id with
      | none => s
      | some id => { s with modes := (id, flat) :: s.modes }
  | .ifBreak b f id => s.push [chunk.withDoc (if s.modes.flat chunk.flat id then f else b)]
  | .suffix d => { s with suffixes := s.suffixes ++ [{ chunk with doc := d, flat := false }] }
  | .fill items => s.push (s.fillChunks page chunk items)

/-- One step; a machine with nothing left to write has none. -/
def step (page : Page) (s : State) : Option State :=
  match s.stack with
  | chunk :: rest => some ({ s with stack := rest }.take page chunk)
  | [] => if s.suffixes.isEmpty then none else some s.flush

def start (doc : Doc) : State :=
  ⟨[], 0, none, [], [], [⟨doc, 0, 0, false⟩]⟩

def text (s : State) : String := String.ofList s.out.reverse

end State

end RubyPretty.Layout
