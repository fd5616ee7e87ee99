import RubyPretty.Proofs.Doc.Flat
/-!
# Flattened documents

Flattening leaves no soft line end, no group, no choice and no fill. What it leaves is also in the
form that the builders give it: a row has at least two documents, none of which is a row or nothing,
and a wrapping is around something (`isNormal_flatten`). A document of that form is flattened to
itself (`flatten_of_isNormal`), so flattening twice is the same as flattening once.
-/

namespace RubyPretty.Doc

/-- The document is no group, choice or fill, and no soft line end. -/
def isFlattened : Doc → Bool
  | .newline b => b.hard
  | .group _ _ _ | .ifBreak _ _ _ | .fill _ => false
  | _ => true

def isItem : Doc → Bool
  | .empty | .seq _ => false
  | _ => true

/-- The document is flattened and is what its builder makes of its parts. -/
def isNormal : Doc → Bool
  | .seq ds => decide (2 ≤ ds.length) && ds.all isItem
  | .indent d | .suffix d | .root d => !d.isNothing
  | .align n d => n != 0 && !d.isNothing
  | d => d.isFlattened

theorem isFlattened_of_isNormal (d : Doc) (h : d.isNormal = true) : d.isFlattened = true := by
  cases d with
  | newline | group | ifBreak | fill => exact h
  | _ => rfl

/-! ## Rows -/

theorem ofParts_of_two_le {ds : List Doc} (h : 2 ≤ ds.length) : ofParts ds = .seq ds := by
  match ds with
  | [] | [_] => simp at h
  | _ :: _ :: _ => rfl

theorem parts_of_isItem {d : Doc} (h : d.isItem = true) : d.parts = [d] := by
  cases d with
  | empty | seq => cases h
  | _ => rfl

theorem cat_of_items {ds : List Doc} (h : ∀ d ∈ ds, d.isItem = true) : cat ds = ofParts ds := by
  rw [cat, List.flatMap_congr fun d hd => parts_of_isItem (h d hd), List.flatMap_singleton']

theorem cat_singleton_of_isNormal {d : Doc} (h : d.isNormal = true) : cat [d] = d := by
  cases d with
  | seq ds =>
      rw [isNormal, Bool.and_eq_true, decide_eq_true_eq] at h
      rw [cat, List.flatMap_singleton]
      exact ofParts_of_two_le h.1
  | _ => rfl

theorem isNormal_parts {d : Doc} (h : d.every isNormal = true) :
    ∀ e ∈ d.parts, e.every isNormal = true ∧ e.isItem = true := by
  cases d with
  | empty => exact List.forall_mem_nil _
  | seq ds =>
      have hself := every_self h
      rw [isNormal, Bool.and_eq_true, List.all_eq_true] at hself
      exact fun e he => ⟨every_seq h e he, hself.2 e he⟩
  | _ => exact List.forall_mem_singleton.mpr ⟨h, rfl⟩

theorem isNormal_ofParts {ds : List Doc}
    (h : ∀ d ∈ ds, d.every isNormal = true ∧ d.isItem = true) :
    (ofParts ds).every isNormal = true := by
  rcases ds with _ | ⟨d, _ | ⟨e, ds⟩⟩
  · rfl
  · exact (h d List.mem_cons_self).1
  · show (seq (d :: e :: ds)).every isNormal = true
    rw [every, everyIn_eq, isNormal, Bool.and_eq_true, Bool.and_eq_true, decide_eq_true_eq,
      List.all_eq_true, List.all_eq_true]
    exact ⟨⟨Nat.le_add_left 2 ds.length, fun d hd => (h d hd).2⟩, fun d hd => (h d hd).1⟩

theorem isNormal_cat {ds : List Doc} (h : ∀ d ∈ ds, d.every isNormal = true) :
    (cat ds).every isNormal = true := by
  apply isNormal_ofParts
  intro e he
  obtain ⟨d, hd, hmem⟩ := List.mem_flatMap.mp he
  exact isNormal_parts (h d hd) e hmem

/-! ## Normal forms -/

theorem isNormal_ofString (s : String) : (ofString s).every isNormal = true := by
  unfold ofString
  split <;> rfl

theorem isNormal_flatten (d : Doc) : d.flatten.every isNormal = true := by
  -- a flattened child is normal, so its builder is given a row that is the child itself
  induction d using Doc.induction with
  | empty | text | breakParent => rfl
  | newline b =>
      rw [flatten]
      split
      · next hhard => exact hhard
      · exact isNormal_ofString b.flat
  | seq ds ih | fill ds ih =>
      show (cat (flattenAll ds)).every isNormal = true
      rw [flattenAll_eq]
      exact isNormal_cat (List.forall_mem_map.mpr ih)
  | indent d ih =>
      rw [flatten, indented_eq, cat_singleton_of_isNormal (every_self ih)]
      exact every_wrapped rfl ih rfl fun hsome => by rw [isNormal, hsome]; rfl
  | suffix d ih =>
      rw [flatten, suffixed_eq, cat_singleton_of_isNormal (every_self ih)]
      exact every_wrapped rfl ih rfl fun hsome => by rw [isNormal, hsome]; rfl
  | root d ih =>
      rw [flatten, rooted_eq, cat_singleton_of_isNormal (every_self ih)]
      exact every_wrapped rfl ih rfl fun hsome => by rw [isNormal, hsome]; rfl
  | align n d ih =>
      rw [flatten, aligned_eq, cat_singleton_of_isNormal (every_self ih)]
      split
      · exact ih
      · next hn =>
          apply every_wrapped rfl ih rfl
          intro hsome
          rw [isNormal, hsome, bne_iff_ne.mpr hn]
          rfl
  | group d id broken ih => exact ih
  | ifBreak b f id ihb ihf => exact ihf

theorem flatten_of_isNormal (d : Doc) (h : d.every isNormal = true) : d.flatten = d := by
  have hself := every_self h
  induction d using Doc.induction with
  | empty | text | breakParent => rfl
  | newline b => exact if_pos hself
  | seq ds ih =>
      have hparts := every_seq h
      rw [isNormal, Bool.and_eq_true, decide_eq_true_eq, List.all_eq_true] at hself
      have hsame : ds.map flatten = ds :=
        (List.map_congr_left fun d hd =>
          ih d hd (hparts d hd) (every_self (hparts d hd))).trans (List.map_id ds)
      rw [flatten, flattenAll_eq, hsame, cat_of_items hself.2, ofParts_of_two_le hself.1]
  | group | ifBreak | fill => cases hself
  | indent d ih =>
      rw [every, Bool.and_eq_true] at h
      have hd := every_self h.2
      rw [flatten, ih h.2 hd, indented_eq, cat_singleton_of_isNormal hd, wrapped_of_something hself]
  | suffix d ih =>
      rw [every, Bool.and_eq_true] at h
      have hd := every_self h.2
      rw [flatten, ih h.2 hd, suffixed_eq, cat_singleton_of_isNormal hd, wrapped_of_something hself]
  | root d ih =>
      rw [every, Bool.and_eq_true] at h
      have hd := every_self h.2
      rw [flatten, ih h.2 hd, rooted_eq, cat_singleton_of_isNormal hd, wrapped_of_something hself]
  | align n d ih =>
      rw [every, Bool.and_eq_true] at h
      have hd := every_self h.2
      rw [isNormal, Bool.and_eq_true, bne_iff_ne] at hself
      rw [flatten, ih h.2 hd, aligned_eq, cat_singleton_of_isNormal hd, if_neg hself.1,
        wrapped_of_something hself.2]

theorem flatten_flatten (d : Doc) : d.flatten.flatten = d.flatten :=
  flatten_of_isNormal d.flatten (isNormal_flatten d)

theorem isFlattened_flatten (d : Doc) : d.flatten.every isFlattened = true :=
  every_mono isFlattened_of_isNormal d.flatten (isNormal_flatten d)

theorem flatWidth_flatten (d : Doc) : d.flatten.flatWidth = d.flatWidth := by
  rw [← length_flatChars, flatChars_flatten, length_flatChars]

theorem isFlattened_settle (d : Doc) (h : d.isFlattened = true) :
    (settle d).1.isFlattened = true := by
  cases d with
  | group | ifBreak | fill => cases h
  | newline => exact h
  | seq ds => rw [settle_seq]; rfl
  | _ => rfl

end RubyPretty.Doc
