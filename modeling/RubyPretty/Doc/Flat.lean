import RubyPretty.Doc.Basic
/-!
# Flat documents
-/

namespace RubyPretty.Doc

mutual

/-- The width of a document written entirely flat. Hard breaks and suffixes count as nothing. -/
def flatWidth : Doc → Nat
  | .empty | .breakParent | .suffix _ => 0
  | .text s => s.length
  | .newline b => if b.hard then 0 else b.flat.length
  | .seq ds | .fill ds => flatWidthAll ds
  | .indent d | .align _ d | .group d _ _ | .root d => flatWidth d
  | .ifBreak _ flat _ => flatWidth flat

def flatWidthAll : List Doc → Nat
  | [] => 0
  | d :: ds => flatWidth d + flatWidthAll ds

end

mutual

/-- The document with every soft break written as its flat text, without groups and with every
choice decided for its flat side. Hard breaks stay. -/
def flatten : Doc → Doc
  | .empty => .empty
  | .text s => .text s
  | .breakParent => .breakParent
  | .newline b => if b.hard then .newline b else ofString b.flat
  | .seq ds | .fill ds => cat (flattenAll ds)
  | .indent d => indented [flatten d]
  | .align n d => aligned n [flatten d]
  | .group d _ _ => flatten d
  | .ifBreak _ f _ => flatten f
  | .suffix d => suffixed [flatten d]
  | .root d => rooted [flatten d]

def flattenAll : List Doc → List Doc
  | [] => []
  | d :: ds => flatten d :: flattenAll ds

end

end RubyPretty.Doc
