import RubyPretty.Proofs.Doc.Flat
/-!
# The marks of a document

What a reader finds on paper: the characters and the hard breaks, in order. Two documents have the
same text if they have the same marks when they are flattened.
-/

namespace RubyPretty

namespace Doc

mutual

/-- The characters and the hard breaks of a document in order; of a choice, those of the flat
side. -/
def marks : Doc → List (Char ⊕ Break)
  | .empty | .breakParent => []
  | .text s => s.toList.map .inl
  | .newline b => if b.hard then [.inr b] else b.flat.toList.map .inl
  | .seq ds | .fill ds => marksAll ds
  | .indent d | .align _ d | .group d _ _ | .suffix d | .root d => marks d
  | .ifBreak _ f _ => marks f

def marksAll : List Doc → List (Char ⊕ Break)
  | [] => []
  | d :: ds => marks d ++ marksAll ds

end

theorem marksAll_eq (ds : List Doc) : marksAll ds = ds.flatMap marks := by
  induction ds with
  | nil => rfl
  | cons d ds ih => rw [marksAll, ih, List.flatMap_cons]

@[simp] theorem marks_seq (ds : List Doc) : (seq ds).marks = ds.flatMap marks := marksAll_eq ds

@[simp] theorem marks_cat (ds : List Doc) : (cat ds).marks = ds.flatMap marks :=
  flatMap_cat rfl marks_seq ds

@[simp] theorem marks_grouped (ds : List Doc) : (grouped ds).marks = ds.flatMap marks := by
  rw [← marks_cat, grouped, groupedWith]
  split
  · next h => rw [h]
  · next h => rw [h]; rfl
  · rfl

@[simp] theorem marks_indented (ds : List Doc) : (indented ds).marks = ds.flatMap marks :=
  (apply_indented (f := marks) (fun _ => rfl) ds).trans (marks_cat ds)

@[simp] theorem marks_either (broken flat : Doc) : (either broken flat).marks = flat.marks := by
  unfold either eitherIn
  split <;> rfl

theorem marks_suffixed (ds : List Doc) : (suffixed ds).marks = ds.flatMap marks := by
  rw [← marks_cat]
  rcases suffixed_cases ds with ⟨hempty, he⟩ | he
  · rw [he, hempty]
  · rw [he, marks]

theorem marks_flatten (d : Doc) : d.flatten.marks = d.marks := by
  have hcat {e : Doc} (he : e.flatten.marks = e.marks) : (cat [e.flatten]).marks = e.marks := by
    rw [marks_cat, List.flatMap_singleton, he]
  induction d using Doc.induction with
  | empty | text | breakParent => rfl
  | newline b =>
      rw [flatten, marks]
      split
      · next h => rw [marks, if_pos h]
      · unfold ofString
        split
        · next hempty => rw [hempty]; rfl
        · rfl
  | seq ds ih | fill ds ih =>
      show (cat (flattenAll ds)).marks = marksAll ds
      rw [marks_cat, flattenAll_eq, marksAll_eq, List.flatMap_map]
      exact List.flatMap_congr ih
  | indent d ih => exact (apply_indented (f := marks) (fun _ => rfl) _).trans (hcat ih)
  | align n d ih => exact (apply_aligned (f := marks) (fun _ _ => rfl) n _).trans (hcat ih)
  | root d ih => exact (apply_rooted (f := marks) (fun _ => rfl) _).trans (hcat ih)
  | suffix d ih =>
      show (suffixed [d.flatten]).marks = d.marks
      rw [marks_suffixed, List.flatMap_singleton, ih]
  | group d id broken ih => exact ih
  | ifBreak b f id ihb ihf => exact ihf

/-- Flattened, both documents have the same characters and hard breaks. -/
def SameText (d e : Doc) : Prop := d.flatten.marks = e.flatten.marks

theorem sameText_iff {d e : Doc} : d.SameText e ↔ d.marks = e.marks := by
  rw [SameText, marks_flatten, marks_flatten]

end Doc

end RubyPretty
