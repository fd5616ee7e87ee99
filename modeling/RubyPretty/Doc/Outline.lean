import RubyPretty.Doc.Basic
import RubyPretty.Json.Basic
import RubyPretty.Text.Quoted
/-!
# Outlines of documents

A nested list that shows the structure of a document, for inspection.
-/

namespace RubyPretty.Doc

def breakLabel (b : Break) : String :=
  if b.literal then "<literalline>"
  else if b.hard then "<hardline>"
  else "<newline " ++ Text.quoted b.flat ++ ">"

def groupLabel (id : Option String) (broken : Bool) : String :=
  let name := match id with
    | none => ""
    | some id => " " ++ id
  (if broken then "<group!" else "<group") ++ name ++ ">"

mutual

def outline : Doc → List Json
  | .empty => []
  | .text s => [.str s]
  | .newline b => [.str (breakLabel b)]
  | .breakParent => [.str "<break-parent>"]
  | .seq ds => outlineAll ds
  | .indent d => [.arr (.str "<indent>" :: outline d)]
  | .align n d => [.arr (.str ("<align " ++ toString n ++ ">") :: outline d)]
  | .group d id broken => [.arr (.str (groupLabel id broken) :: outline d)]
  | .ifBreak b f _ => [.arr [.str "<if-break>", .arr (outline b), .arr (outline f)]]
  | .fill ds => [.arr (.str "<fill>" :: outlineEach ds)]
  | .suffix d => [.arr (.str "<line-suffix>" :: outline d)]
  | .root d => [.arr (.str "<root>" :: outline d)]

def outlineAll : List Doc → List Json
  | [] => []
  | d :: ds => outline d ++ outlineAll ds

def outlineEach : List Doc → List Json
  | [] => []
  | d :: ds => .arr (outline d) :: outlineEach ds

end

end RubyPretty.Doc
