import Mathlib.Data.List.Basic
import RubyPretty.Doc.Flat
import RubyPretty.Proofs.Doc.Builders
import RubyPretty.Proofs.Doc.Settled
/-!
# The flat text of a document

`flatChars` is what a document reads on a single line. Its length is the flat width, flattening a
document does not change it, and neither does settling. A flexible document forces no line to end,
so it can be written on a single line; flattened, it is plain and has no other way to be written.
-/

namespace RubyPretty.Doc

mutual

/-- The characters of a document on a single line. Hard breaks and suffixes have none. -/
def flatChars : Doc → List Char
  | .empty | .breakParent | .suffix _ => []
  | .text s => s.toList
  | .newline b => if b.hard then [] else b.flat.toList
  | .seq ds | .fill ds => flatCharsAll ds
  | .indent d | .align _ d | .group d _ _ | .root d => flatChars d
  | .ifBreak _ flat _ => flatChars flat

def flatCharsAll : List Doc → List Char
  | [] => []
  | d :: ds => flatChars d ++ flatCharsAll ds

end

theorem flatCharsAll_eq (ds : List Doc) : flatCharsAll ds = ds.flatMap flatChars := by
  induction ds with
  | nil => rfl
  | cons d ds ih => rw [flatCharsAll, ih, List.flatMap_cons]

@[simp] theorem flatChars_seq (ds : List Doc) : (seq ds).flatChars = ds.flatMap flatChars :=
  flatCharsAll_eq ds

@[simp] theorem flatChars_fill (ds : List Doc) : (fill ds).flatChars = ds.flatMap flatChars :=
  flatCharsAll_eq ds

theorem flattenAll_eq (ds : List Doc) : flattenAll ds = ds.map flatten := by
  induction ds with
  | nil => rfl
  | cons d ds ih => rw [flattenAll, ih, List.map_cons]

theorem length_flatChars (d : Doc) : d.flatChars.length = d.flatWidth := by
  induction d using Doc.induction with
  | empty | breakParent | suffix => rfl
  | text s => exact String.length_toList
  | newline b =>
      rw [flatChars, flatWidth]
      split
      · rfl
      · exact String.length_toList
  | seq ds ih | fill ds ih =>
      show (flatCharsAll ds).length = flatWidthAll ds
      induction ds with
      | nil => rfl
      | cons d ds ihs =>
          have hhead := ih d List.mem_cons_self
          have htail := ihs fun e he => ih e (List.mem_cons_of_mem d he)
          rw [flatCharsAll, flatWidthAll, List.length_append, hhead, htail]
  | indent d ih | align _ d ih | group d _ _ ih | root d ih => exact ih
  | ifBreak b f id ihb ihf => exact ihf

/-! ## Flattening -/

theorem flatChars_ofString (s : String) : (ofString s).flatChars = s.toList := by
  unfold ofString
  split
  · next h => rw [h]; rfl
  · rfl

theorem flatChars_cat (ds : List Doc) : (cat ds).flatChars = ds.flatMap flatChars :=
  flatMap_cat rfl flatChars_seq ds

theorem flatChars_flatten (d : Doc) : d.flatten.flatChars = d.flatChars := by
  have hcat {e : Doc} (he : e.flatten.flatChars = e.flatChars) :
      (cat [e.flatten]).flatChars = e.flatChars := by
    rw [flatChars_cat, List.flatMap_singleton, he]
  induction d using Doc.induction with
  | empty | text | breakParent => rfl
  | newline b =>
      rw [flatten, flatChars]
      split
      · next h => rw [flatChars, if_pos h]
      · exact flatChars_ofString b.flat
  | seq ds ih | fill ds ih =>
      show (cat (flattenAll ds)).flatChars = flatCharsAll ds
      rw [flatChars_cat, flattenAll_eq, flatCharsAll_eq, List.flatMap_map]
      exact List.flatMap_congr ih
  | indent d ih => exact (apply_indented (f := flatChars) (fun _ => rfl) _).trans (hcat ih)
  | align n d ih => exact (apply_aligned (f := flatChars) (fun _ _ => rfl) n _).trans (hcat ih)
  | root d ih => exact (apply_rooted (f := flatChars) (fun _ => rfl) _).trans (hcat ih)
  | suffix d ih =>
      rcases suffixed_cases [d.flatten] with ⟨-, he⟩ | he
      · rw [flatten, he]
        rfl
      · rw [flatten, he]
        rfl
  | group d id broken ih => exact ih
  | ifBreak b f id ihb ihf => exact ihf

theorem flatChars_settle (d : Doc) : (settle d).1.flatChars = d.flatChars := by
  induction d using Doc.induction with
  | empty | text | newline | breakParent | suffix => rfl
  | seq ds ih | fill ds ih =>
      simp only [settle_seq, settle_fill, flatChars_seq, flatChars_fill, List.flatMap_map]
      exact List.flatMap_congr ih
  | indent d ih | align _ d ih | group d _ _ ih | root d ih => exact ih
  | ifBreak b f id ihb ihf => exact ihf

/-! ## Flexible documents -/

/-- The document neither always ends a line nor holds anything back. -/
def isFlexible : Doc → Bool
  | .newline b => !b.hard
  | .breakParent | .suffix _ => false
  | .group _ _ broken => !broken
  | _ => true

def isPlain : Doc → Bool
  | .newline _ | .breakParent | .group _ _ _ | .ifBreak _ _ _ | .fill _ | .suffix _ => false
  | _ => true

def isAligned : Doc → Bool
  | .align _ _ => true
  | _ => false

theorem settle_of_flexible (d : Doc) (h : d.every isFlexible = true) : settle d = (d, false) := by
  induction d using Doc.induction with
  | empty | text => rfl
  | newline b =>
      have hsoft := every_self h
      rw [isFlexible, Bool.not_eq_true'] at hsoft
      rw [settle, hsoft]
  | breakParent | suffix => cases every_self h
  | seq ds ih =>
      have hparts := every_seq h
      rw [settle_seq, Prod.mk.injEq, seq.injEq, List.any_eq_false]
      refine ⟨(List.map_congr_left fun d hd => ?_).trans (List.map_id ds), fun d hd => ?_⟩
      · rw [ih d hd (hparts d hd)]
        rfl
      · rw [ih d hd (hparts d hd)]
        exact Bool.false_ne_true
  | fill ds ih =>
      have hparts := every_fill h
      rw [settle_fill, Prod.mk.injEq, fill.injEq, List.any_eq_false]
      refine ⟨(List.map_congr_left fun d hd => ?_).trans (List.map_id ds), fun d hd => ?_⟩
      · rw [ih d hd (hparts d hd)]
        rfl
      · rw [ih d hd (hparts d hd)]
        exact Bool.false_ne_true
  | indent d ih | align _ d ih | root d ih =>
      rw [every, Bool.and_eq_true] at h
      simp only [settle_indent, settle_align, settle_root, ih h.2]
  | group d id broken ih =>
      rw [every, Bool.and_eq_true, isFlexible, Bool.not_eq_true'] at h
      rw [settle_group, ih h.2, h.1]
      rfl
  | ifBreak b f id ihb ihf =>
      rw [every, Bool.and_eq_true, Bool.and_eq_true] at h
      rw [settle_ifBreak, ihb h.2.1, ihf h.2.2]
      rfl

theorem hasForcedBreak_of_flexible {d : Doc} (h : d.every isFlexible = true) :
    d.hasForcedBreak = false :=
  hasForcedBreak_of_forcesNoBreak (congrArg Prod.snd (settle_of_flexible d h))

/-- What holds of every plain document holds of all parts of a flattened one; its alignments are
those of the document itself. -/
theorem every_flatten {p q : Doc → Bool}
    (hplain : ∀ d : Doc, d.isPlain = true → d.isAligned = false → p d = true)
    (halign : ∀ n d e, q (.align n d) = true → p (.align n e) = true) (d : Doc)
    (hd : d.every isFlexible = true) (h : d.every q = true) : d.flatten.every p = true := by
  have hempty : p .empty = true := hplain _ rfl rfl
  have hseq : ∀ ds, p (.seq ds) = true := fun _ => hplain _ rfl rfl
  -- a wrapping is around a row of one
  have hcat {d : Doc} (hd : d.every p = true) : (cat [d]).every p = true :=
    every_cat hempty hseq (List.forall_mem_singleton.mpr hd)
  induction d using Doc.induction with
  | empty => exact hempty
  | text s => exact hplain _ rfl rfl
  | newline b =>
      have hsoft := every_self hd
      rw [isFlexible, Bool.not_eq_true'] at hsoft
      rw [flatten, if_neg (by rw [hsoft]; exact Bool.false_ne_true), ofString]
      split
      · exact hempty
      · exact hplain _ rfl rfl
  | breakParent | suffix => cases every_self hd
  | seq ds ih =>
      rw [flatten, flattenAll_eq]
      apply every_cat hempty hseq
      rw [List.forall_mem_map]
      exact fun d hmem => ih d hmem (every_seq hd d hmem) (every_seq h d hmem)
  | fill ds ih =>
      rw [flatten, flattenAll_eq]
      apply every_cat hempty hseq
      rw [List.forall_mem_map]
      exact fun d hmem => ih d hmem (every_fill hd d hmem) (every_fill h d hmem)
  | indent d ih =>
      rw [every, Bool.and_eq_true] at hd h
      exact every_indented hempty (hcat (ih hd.2 h.2)) (hplain _ rfl rfl)
  | align n d ih =>
      rw [every, Bool.and_eq_true] at hd h
      exact every_aligned hempty (hcat (ih hd.2 h.2)) (halign n d _ h.1)
  | root d ih =>
      rw [every, Bool.and_eq_true] at hd h
      exact every_rooted hempty (hcat (ih hd.2 h.2)) (hplain _ rfl rfl)
  | group d id broken ih =>
      rw [every, Bool.and_eq_true] at hd h
      exact ih hd.2 h.2
  | ifBreak b f id ihb ihf =>
      rw [every, Bool.and_eq_true, Bool.and_eq_true] at hd h
      exact ihf hd.2.2 h.2.2

theorem isPlain_flatten {d : Doc} (h : d.every isFlexible = true) :
    d.flatten.every isPlain = true :=
  every_flatten (fun _ hplain _ => hplain) (fun _ _ _ _ => rfl) d h h

end RubyPretty.Doc
