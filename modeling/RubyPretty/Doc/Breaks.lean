import RubyPretty.Doc.Basic
/-!
# Forced breaks

A hard line end or a `breakParent` forces every group around it to break, unless it is held in a
suffix, which is written only after the line has ended.
-/

namespace RubyPretty.Doc

mutual

/-- Whether a document holds a forced break outside of suffixes. -/
def hasForcedBreak : Doc → Bool
  | .empty | .text _ | .suffix _ => false
  | .breakParent => true
  | .newline b => b.hard
  | .seq ds | .fill ds => anyForcedBreak ds
  | .indent d | .align _ d | .group d _ _ | .root d => hasForcedBreak d
  | .ifBreak broken flat _ => hasForcedBreak broken || hasForcedBreak flat

def anyForcedBreak : List Doc → Bool
  | [] => false
  | d :: ds => hasForcedBreak d || anyForcedBreak ds

end

mutual

/-- The document with every group marked that has to break, and whether it forces the groups
around it to break. -/
def settle : Doc → Doc × Bool
  | .empty => (.empty, false)
  | .text s => (.text s, false)
  | .breakParent => (.breakParent, true)
  | .newline b => (.newline b, b.hard)
  | .suffix d => (.suffix (settle d).1, false)
  | .seq ds =>
      let (ds, forced) := settleAll ds
      (.seq ds, forced)
  | .fill ds =>
      let (ds, forced) := settleAll ds
      (.fill ds, forced)
  | .indent d =>
      let (d, forced) := settle d
      (.indent d, forced)
  | .align n d =>
      let (d, forced) := settle d
      (.align n d, forced)
  | .root d =>
      let (d, forced) := settle d
      (.root d, forced)
  | .group d id broken =>
      let (d, forced) := settle d
      (.group d id (broken || forced), broken || forced)
  | .ifBreak b f id =>
      let (b, forcedB) := settle b
      let (f, forcedF) := settle f
      (.ifBreak b f id, forcedB || forcedF)

def settleAll : List Doc → List Doc × Bool
  | [] => ([], false)
  | d :: ds =>
      let (d, forced) := settle d
      let (ds, forcedAll) := settleAll ds
      (d :: ds, forced || forcedAll)

end

def propagateBreaks (d : Doc) : Doc := (settle d).1

end RubyPretty.Doc
