/-!
# Texts

Classes of characters, which are lists of inclusive ranges of code points, and what is asked of
texts: whether one stands in another, what is left of one without its blanks, and its lines.

A character is blank if it has the Unicode white space property or is one of the four information
separators U+001C to U+001F.
-/

namespace RubyPretty.Text

/-! ## Characters -/

abbrev Ranges := List (Nat × Nat)

def Ranges.contains (ranges : Ranges) (c : Char) : Bool :=
  ranges.any fun (lo, hi) => lo ≤ c.toNat && c.toNat ≤ hi

def whiteSpaceRanges : Ranges :=
  [(0x09, 0x0d), (0x20, 0x20), (0x85, 0x85), (0xa0, 0xa0), (0x1680, 0x1680), (0x2000, 0x200a),
    (0x2028, 0x2029), (0x202f, 0x202f), (0x205f, 0x205f), (0x3000, 0x3000)]

def separatorRanges : Ranges := [(0x1c, 0x1f)]

def isWhiteSpace (c : Char) : Bool := whiteSpaceRanges.contains c

def isBlank (c : Char) : Bool := isWhiteSpace c || separatorRanges.contains c

def isLineEnd (c : Char) : Bool := c == '\r' || c == '\n'

def isAsciiLetter (c : Char) : Bool := ('a' ≤ c && c ≤ 'z') || ('A' ≤ c && c ≤ 'Z')

def isWordStart (c : Char) : Bool := c == '_' || isAsciiLetter c

def isWordChar (c : Char) : Bool := isWordStart c || ('0' ≤ c && c ≤ '9')

/-! ## Parts of texts -/

def startsWith (start s : String) : Bool := start.toList.isPrefixOf s.toList

def endsWith (ending s : String) : Bool := ending.toList.isSuffixOf s.toList

def occursIn (part : List Char) : List Char → Bool
  | [] => part.isEmpty
  | c :: cs => part.isPrefixOf (c :: cs) || occursIn part cs

def contains (part s : String) : Bool := occursIn part.toList s.toList

def dropChars (n : Nat) (s : String) : String := String.ofList (s.toList.drop n)

def takeChars (n : Nat) (s : String) : String := String.ofList (s.toList.take n)

/-- `xs` without its longest final part of elements that satisfy `p`. -/
def dropEndWhile {α : Type} (p : α → Bool) (xs : List α) : List α :=
  (xs.reverse.dropWhile p).reverse

def trimEndOf (p : Char → Bool) (s : String) : String := String.ofList (dropEndWhile p s.toList)

def trimOf (p : Char → Bool) (s : String) : String :=
  String.ofList (dropEndWhile p (s.toList.dropWhile p))

def trim (s : String) : String := trimOf isBlank s

def chomp (s : String) : String := trimEndOf isLineEnd s

/-- Whether a text of so many blanks is built at all; less than none are none. The lower bound is
that of a number of 64 bits. The upper bound is a limit of this model: how many blanks a machine
has memory for is not fixed by the program. -/
def canHoldBlanks (n : Int) : Bool := -0x8000000000000000 ≤ n && n < 0x1000000000

def blanks (n : Int) : String := String.ofList (List.replicate n.toNat ' ')

/-! ## Lines -/

/-- The pieces of `cs` between the occurrences of `sep`; always one more than those. -/
def pieces (sep : Char) : List Char → List (List Char)
  | [] => [[]]
  | c :: cs => if c = sep then [] :: pieces sep cs else (pieces sep cs).modifyHead (c :: ·)

/-- The lines of a text, without their line feeds. A final line feed is followed by an empty
line. -/
def lines (s : String) : List String := (pieces '\n' s.toList).map String.ofList

/-- Every carriage return that stands before a line feed is left out. -/
def unixChars : List Char → List Char
  | '\r' :: '\n' :: cs => '\n' :: unixChars cs
  | c :: cs => c :: unixChars cs
  | [] => []

def unixLines (s : String) : String := String.ofList (unixChars s.toList)

/-- Every line end, whether written with a carriage return, a line feed or both, becomes a line
feed. -/
def plainChars : List Char → List Char
  | '\r' :: '\n' :: cs => '\n' :: plainChars cs
  | '\r' :: cs => '\n' :: plainChars cs
  | c :: cs => c :: plainChars cs
  | [] => []

def plainLines (s : String) : String := String.ofList (plainChars s.toList)

end RubyPretty.Text
