import RubyPretty.Doc.Basic
/-!
# The texts of a document

What a document holds apart from its layout: its texts in order (`leaves`), the ways to decide its
choices (`resolve`), and the characters that stay when all blanks are taken out (`ink`). Questions
on every part of a document are asked with `every`.
-/

namespace RubyPretty

namespace Doc

/-- Induction on documents, where a list of documents is taken as a whole. -/
@[elab_as_elim] theorem induction {P : Doc → Prop} (empty : P .empty)
    (text : ∀ s, P (.text s)) (newline : ∀ b, P (.newline b)) (breakParent : P .breakParent)
    (seq : ∀ ds, (∀ d ∈ ds, P d) → P (.seq ds)) (indent : ∀ d, P d → P (.indent d))
    (align : ∀ n d, P d → P (.align n d)) (group : ∀ d id broken, P d → P (.group d id broken))
    (ifBreak : ∀ b f id, P b → P f → P (.ifBreak b f id))
    (fill : ∀ ds, (∀ d ∈ ds, P d) → P (.fill ds)) (suffix : ∀ d, P d → P (.suffix d))
    (root : ∀ d, P d → P (.root d)) (d : Doc) : P d := by
  refine @Doc.rec P (fun ds => ∀ d ∈ ds, P d) empty text newline breakParent seq indent align
    (fun d id broken => group d id broken) (fun b f id => ifBreak b f id) fill suffix root ?_ ?_ d
  · simp
  · intro d ds hd hds e he
    rcases List.mem_cons.mp he with rfl | he
    · exact hd
    · exact hds e he

/-! ## Parts of a document -/

mutual

/-- Whether `p` holds of a document and of every part of it. -/
def every (p : Doc → Bool) : Doc → Bool
  | .seq ds => p (.seq ds) && everyIn p ds
  | .fill ds => p (.fill ds) && everyIn p ds
  | .indent d => p (.indent d) && every p d
  | .align n d => p (.align n d) && every p d
  | .group d id broken => p (.group d id broken) && every p d
  | .ifBreak b f id => p (.ifBreak b f id) && (every p b && every p f)
  | .suffix d => p (.suffix d) && every p d
  | .root d => p (.root d) && every p d
  | d => p d

def everyIn (p : Doc → Bool) : List Doc → Bool
  | [] => true
  | d :: ds => every p d && everyIn p ds

end

theorem everyIn_eq (p : Doc → Bool) (ds : List Doc) : everyIn p ds = ds.all (every p) := by
  induction ds with
  | nil => rfl
  | cons d ds ih => rw [everyIn, ih, List.all_cons]

theorem every_self {p : Doc → Bool} {d : Doc} (h : d.every p = true) : p d = true := by
  cases d <;> simp_all [every]

theorem every_seq {p : Doc → Bool} {ds : List Doc} (h : (Doc.seq ds).every p = true) :
    ∀ d ∈ ds, d.every p = true := by
  simp only [every, everyIn_eq, Bool.and_eq_true, List.all_eq_true] at h
  exact h.2

theorem every_fill {p : Doc → Bool} {ds : List Doc} (h : (Doc.fill ds).every p = true) :
    ∀ d ∈ ds, d.every p = true := by
  simp only [every, everyIn_eq, Bool.and_eq_true, List.all_eq_true] at h
  exact h.2

theorem every_of_every {p q : Doc → Bool} (hpq : ∀ d : Doc, d.every p = true → q d = true) (d : Doc)
    (h : d.every p = true) : d.every q = true := by
  have hself := hpq d h
  induction d using Doc.induction with
  | empty | text | newline | breakParent => exact hself
  | seq ds ih | fill ds ih =>
      simp only [every, everyIn_eq, Bool.and_eq_true, List.all_eq_true] at h ⊢
      exact ⟨hself, fun d hd => ih d hd (h.2 d hd) (hpq d (h.2 d hd))⟩
  | indent d ih | align _ d ih | group d _ _ ih | suffix d ih | root d ih =>
      simp only [every, Bool.and_eq_true] at h ⊢
      exact ⟨hself, ih h.2 (hpq d h.2)⟩
  | ifBreak b f id ihb ihf =>
      simp only [every, Bool.and_eq_true] at h ⊢
      exact ⟨hself, ihb h.2.1 (hpq b h.2.1), ihf h.2.2 (hpq f h.2.2)⟩

theorem every_mono {p q : Doc → Bool} (hpq : ∀ d, p d = true → q d = true) (d : Doc)
    (h : d.every p = true) : d.every q = true :=
  every_of_every (fun d hd => hpq d (every_self hd)) d h

def isUnheld : Doc → Bool
  | .suffix _ => false
  | _ => true

def isDecided : Doc → Bool
  | .ifBreak _ _ _ => false
  | _ => true

def isBreak : Doc → Bool
  | .newline _ => true
  | _ => false

/-! ## Leaves -/

mutual

/-- The texts of a document in order, those of both sides of a choice. -/
def leaves : Doc → List String
  | .empty | .newline _ | .breakParent => []
  | .text s => [s]
  | .seq ds | .fill ds => leavesAll ds
  | .indent d | .align _ d | .group d _ _ | .suffix d | .root d => leaves d
  | .ifBreak b f _ => leaves b ++ leaves f

def leavesAll : List Doc → List String
  | [] => []
  | d :: ds => leaves d ++ leavesAll ds

end

theorem leavesAll_eq (ds : List Doc) : leavesAll ds = ds.flatMap leaves := by
  induction ds with
  | nil => rfl
  | cons d ds ih => rw [leavesAll, ih, List.flatMap_cons]

/-- A side for each choice in a document, given by the numbers of the parts that lead to it:
`true` is the flat side. -/
abbrev Way := List Nat → Bool

def Way.into (way : Way) (i : Nat) : Way := fun path => way (i :: path)

mutual

/-- The document with each of its choices decided on its own. -/
def resolve (way : Way) : Doc → Doc
  | .seq ds => .seq (resolveFrom way 0 ds)
  | .fill ds => .fill (resolveFrom way 0 ds)
  | .indent d => .indent (resolve way d)
  | .align n d => .align n (resolve way d)
  | .group d id broken => .group (resolve way d) id broken
  | .ifBreak b f _ => if way [] then resolve (way.into 1) f else resolve (way.into 0) b
  | .suffix d => .suffix (resolve way d)
  | .root d => .root (resolve way d)
  | d => d

def resolveFrom (way : Way) (i : Nat) : List Doc → List Doc
  | [] => []
  | d :: ds => resolve (way.into i) d :: resolveFrom way (i + 1) ds

end

end Doc

end RubyPretty
