import Mathlib.Algebra.Ring.Nat
import RubyPretty.Doc.Flat
import RubyPretty.Printing.Printer
import RubyPretty.Proofs.Doc.Builders
import RubyPretty.Proofs.Doc.Settled
/-!
# Texts that every layout has

`minCount x d` counts the leaves `x` that stay in a document whichever way its choices go. Each
builder of documents has one lemma here, so that a printing rule is measured by adding up its parts.
-/

namespace RubyPretty.Doc

mutual

/-- How often a text is a leaf of a document at least, over all ways to decide its choices. -/
def minCount (x : String) : Doc → Nat
  | .empty | .newline _ | .breakParent => 0
  | .text s => if s = x then 1 else 0
  | .seq ds | .fill ds => minCountAll x ds
  | .indent d | .align _ d | .group d _ _ | .suffix d | .root d => minCount x d
  | .ifBreak b f _ => min (minCount x b) (minCount x f)

def minCountAll (x : String) : List Doc → Nat
  | [] => 0
  | d :: ds => minCount x d + minCountAll x ds

end

variable {x : String}

@[simp] theorem minCount_empty : minCount x .empty = 0 := rfl

@[simp] theorem minCount_newline (b : Break) : minCount x (.newline b) = 0 := rfl

@[simp] theorem minCount_breakParent : minCount x .breakParent = 0 := rfl

@[simp] theorem minCount_seq (ds : List Doc) : minCount x (.seq ds) = minCountAll x ds := rfl

@[simp] theorem minCount_fill (ds : List Doc) : minCount x (.fill ds) = minCountAll x ds := rfl

@[simp] theorem minCount_ifBreak (b f : Doc) (id : Option String) :
    minCount x (.ifBreak b f id) = min (minCount x b) (minCount x f) := rfl

@[simp] theorem minCountAll_nil : minCountAll x [] = 0 := rfl

@[simp] theorem minCountAll_cons (d : Doc) (ds : List Doc) :
    minCountAll x (d :: ds) = minCount x d + minCountAll x ds := rfl

@[simp] theorem minCountAll_append (ds es : List Doc) :
    minCountAll x (ds ++ es) = minCountAll x ds + minCountAll x es := by
  induction ds with
  | nil => simp
  | cons d ds ih => simp [ih, Nat.add_assoc]

theorem minCountAll_eq_sum (ds : List Doc) : minCountAll x ds = (ds.map (minCount x)).sum := by
  induction ds with
  | nil => rfl
  | cons d ds ih => rw [minCountAll_cons, List.map_cons, List.sum_cons, ih]

theorem minCount_le_count (d : Doc) (way : Way) :
    minCount x d ≤ (d.resolve way).leaves.count x := by
  induction d using Doc.induction generalizing way with
  | empty | newline | breakParent => exact Nat.zero_le _
  | text s =>
      show (if s = x then 1 else 0) ≤ [s].count x
      split
      · next h => simp [h]
      · exact Nat.zero_le _
  | seq ds ih | fill ds ih =>
      show minCountAll x ds ≤ (leavesAll (resolveFrom way 0 ds)).count x
      generalize 0 = i
      induction ds generalizing i with
      | nil => exact Nat.zero_le _
      | cons d ds ihs =>
          have hhead := ih d List.mem_cons_self (way.into i)
          have htail := ihs (fun e he => ih e (List.mem_cons_of_mem d he)) (i + 1)
          show minCount x d + minCountAll x ds ≤
            ((resolve (way.into i) d).leaves ++ leavesAll (resolveFrom way (i + 1) ds)).count x
          rw [List.count_append]
          omega
  | indent d ih | align _ d ih | group d _ _ ih | suffix d ih | root d ih => exact ih way
  | ifBreak b f id ihb ihf =>
      show min (minCount x b) (minCount x f) ≤
        (if way [] then resolve (way.into 1) f else resolve (way.into 0) b).leaves.count x
      split
      · exact Nat.le_trans (Nat.min_le_right _ _) (ihf _)
      · exact Nat.le_trans (Nat.min_le_left _ _) (ihb _)

theorem minCount_settle (d : Doc) : minCount x (settle d).1 = minCount x d := by
  induction d using Doc.induction with
  | empty | text | newline | breakParent => rfl
  | seq ds ih | fill ds ih =>
      simp only [settle_seq, settle_fill, minCount_seq, minCount_fill, minCountAll_eq_sum,
        List.map_map]
      exact congrArg List.sum (List.map_congr_left ih)
  | indent d ih | align _ d ih | group d _ _ ih | suffix d ih | root d ih => exact ih
  | ifBreak b f id ihb ihf => simp only [settle_ifBreak, minCount_ifBreak, ihb, ihf]

/-! ## Builders -/

theorem minCountAll_parts (d : Doc) : minCountAll x d.parts = minCount x d := by
  cases d <;> simp [parts, minCount]

@[simp] theorem minCount_cat (ds : List Doc) : minCount x (cat ds) = minCountAll x ds := by
  rw [cat, apply_ofParts (f := minCount x) (g := minCountAll x) rfl (fun d => rfl) minCount_seq]
  induction ds with
  | nil => rfl
  | cons d ds ih =>
      rw [List.flatMap_cons, minCountAll_append, minCountAll_parts, ih, minCountAll_cons]

@[simp] theorem minCount_groupedWith (id : Option String) (broken : Bool) (ds : List Doc) :
    minCount x (groupedWith id broken ds) = minCountAll x ds := by
  rw [← minCount_cat, groupedWith]
  cases cat ds with
  | group d id' broken' => simp only; split <;> rfl
  | _ => rfl

@[simp] theorem minCount_grouped (ds : List Doc) : minCount x (grouped ds) = minCountAll x ds :=
  minCount_groupedWith none false ds

@[simp] theorem minCount_indented (ds : List Doc) : minCount x (indented ds) = minCountAll x ds :=
  (apply_indented (f := minCount x) (fun _ => rfl) ds).trans (minCount_cat ds)

@[simp] theorem minCount_aligned (amount : Int) (ds : List Doc) :
    minCount x (aligned amount ds) = minCountAll x ds :=
  (apply_aligned (f := minCount x) (fun _ _ => rfl) amount ds).trans (minCount_cat ds)

@[simp] theorem minCount_suffixed (ds : List Doc) :
    minCount x (suffixed ds) = minCountAll x ds := by
  rw [← minCount_cat, suffixed]
  cases cat ds <;> rfl

@[simp] theorem minCount_rooted (ds : List Doc) : minCount x (rooted ds) = minCountAll x ds :=
  (apply_rooted (f := minCount x) (fun _ => rfl) ds).trans (minCount_cat ds)

@[simp] theorem minCount_either (b f : Doc) :
    minCount x (either b f) = min (minCount x b) (minCount x f) := by
  unfold either eitherIn
  split <;> simp

@[simp] theorem minCount_filled (ds : List Doc) : minCount x (filled ds) = minCountAll x ds := by
  cases ds <;> rfl

theorem minCount_ofString (hx : x ≠ "") : minCount x (ofString x) = 1 := by
  rw [ofString, if_neg hx]
  exact if_pos rfl

theorem minCountAll_le_intersperse (separator : Doc) (ds : List Doc) :
    minCountAll x ds ≤ minCountAll x (ds.intersperse separator) := by
  match ds with
  | [] | [_] => exact Nat.le_refl _
  | d :: e :: ds =>
      have ih := minCountAll_le_intersperse separator (e :: ds)
      rw [List.intersperse_cons_cons]
      simp only [minCountAll_cons] at ih ⊢
      omega

theorem minCountAll_le_joined (separator : Doc) (ds : List Doc) :
    minCountAll x ds ≤ minCount x (joined separator ds) := by
  rw [joined, minCount_cat]
  exact minCountAll_le_intersperse separator ds

theorem minCountAll_le_listed (ds : List Doc) : minCountAll x ds ≤ minCount x (listed ds) :=
  minCountAll_le_joined _ ds

theorem minCountAll_le_enclosed (opening : String) (content : List Doc) (closing : String) :
    minCountAll x content ≤ minCount x (enclosed opening content closing) := by
  simp only [enclosed, minCount_grouped, minCountAll_cons, minCount_indented]
  omega

theorem minCount_le_flatten (d : Doc) : minCount x d ≤ minCount x d.flatten := by
  induction d using Doc.induction with
  | empty | text | breakParent => exact Nat.le_refl _
  | newline b => exact Nat.zero_le _
  | seq ds ih | fill ds ih =>
      show minCountAll x ds ≤ minCount x (cat (flattenAll ds))
      rw [minCount_cat]
      induction ds with
      | nil => exact Nat.le_refl _
      | cons d ds ihs =>
          have hhead := ih d List.mem_cons_self
          have htail := ihs fun e he => ih e (List.mem_cons_of_mem d he)
          show minCount x d + minCountAll x ds ≤
            minCount x d.flatten + minCountAll x (flattenAll ds)
          omega
  | indent d ih =>
      show minCount x d ≤ minCount x (indented [d.flatten])
      simpa using ih
  | align n d ih =>
      show minCount x d ≤ minCount x (aligned n [d.flatten])
      simpa using ih
  | group d id broken ih => exact ih
  | ifBreak b f id ihb ihf => exact Nat.le_trans (Nat.min_le_right _ _) ihf
  | suffix d ih =>
      show minCount x d ≤ minCount x (suffixed [d.flatten])
      simpa using ih
  | root d ih =>
      show minCount x d ≤ minCount x (rooted [d.flatten])
      simpa using ih

end RubyPretty.Doc
