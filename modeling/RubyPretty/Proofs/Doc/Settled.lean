import RubyPretty.Doc.Breaks
import RubyPretty.Proofs.Doc.Leaves
/-!
# Settled documents

`settle` only changes the marks of groups, and nothing more when it is done again. A document that
it leaves as it is has all its parts settled, and a group in it that is not marked holds nothing
that forces a break.
-/

namespace RubyPretty

namespace Doc

theorem any_congr_of_mem {p q : Doc → Bool} {ds : List Doc} (h : ∀ d ∈ ds, p d = q d) :
    ds.any p = ds.any q := by
  rw [Bool.eq_iff_iff, List.any_eq_true, List.any_eq_true]
  apply exists_congr
  intro d
  apply and_congr_right
  intro hd
  rw [h d hd]

theorem settleAll_eq (ds : List Doc) :
    settleAll ds = (ds.map fun d => (settle d).1, ds.any fun d => (settle d).2) := by
  induction ds with
  | nil => rfl
  | cons d ds ih =>
      show ((settle d).1 :: (settleAll ds).1, (settle d).2 || (settleAll ds).2) = _
      rw [ih, List.map_cons, List.any_cons]

/-! ## One step of settling

Proofs cite these and do not unfold `settle`. -/

@[simp] theorem settle_seq (ds : List Doc) :
    settle (.seq ds) = (.seq (ds.map fun d => (settle d).1), ds.any fun d => (settle d).2) := by
  show (seq (settleAll ds).1, (settleAll ds).2) = _
  rw [settleAll_eq]

@[simp] theorem settle_fill (ds : List Doc) :
    settle (.fill ds) = (.fill (ds.map fun d => (settle d).1), ds.any fun d => (settle d).2) := by
  show (fill (settleAll ds).1, (settleAll ds).2) = _
  rw [settleAll_eq]

@[simp] theorem settle_indent (d : Doc) :
    settle (.indent d) = (.indent (settle d).1, (settle d).2) :=
  rfl

@[simp] theorem settle_align (n : Int) (d : Doc) :
    settle (.align n d) = (.align n (settle d).1, (settle d).2) := rfl

@[simp] theorem settle_root (d : Doc) : settle (.root d) = (.root (settle d).1, (settle d).2) := rfl

@[simp] theorem settle_suffix (d : Doc) : settle (.suffix d) = (.suffix (settle d).1, false) := rfl

@[simp] theorem settle_group (d : Doc) (id : Option String) (broken : Bool) :
    settle (.group d id broken) =
      (.group (settle d).1 id (broken || (settle d).2), broken || (settle d).2) := rfl

@[simp] theorem settle_ifBreak (b f : Doc) (id : Option String) :
    settle (.ifBreak b f id) =
      (.ifBreak (settle b).1 (settle f).1 id, (settle b).2 || (settle f).2) := rfl

/-! ## What settling keeps -/

theorem every_settle {p q : Doc → Bool} (hpq : ∀ d, p d = true → q (settle d).1 = true) (d : Doc)
    (h : d.every p = true) : (settle d).1.every q = true := by
  induction d using Doc.induction with
  | empty | text | newline | breakParent => exact hpq _ h
  | seq ds ih | fill ds ih =>
      have hself := hpq _ (every_self h)
      simp only [every, everyIn_eq, Bool.and_eq_true, List.all_eq_true] at h
      simp only [settle_seq, settle_fill] at hself ⊢
      simp only [every, everyIn_eq, hself, Bool.true_and, List.all_map, List.all_eq_true]
      exact fun d hd => ih d hd (h.2 d hd)
  | indent d ih | align _ d ih | group d _ _ ih | suffix d ih | root d ih =>
      have hself := hpq _ (every_self h)
      simp only [every, Bool.and_eq_true] at h
      simp only [settle_indent, settle_align, settle_group, settle_suffix, settle_root] at hself ⊢
      simp only [every, hself, ih h.2, Bool.and_self]
  | ifBreak b f id ihb ihf =>
      have hself := hpq _ (every_self h)
      simp only [every, Bool.and_eq_true] at h
      rw [settle_ifBreak] at hself ⊢
      simp only [every, hself, ihb h.2.1, ihf h.2.2, Bool.and_self]

def IsSettled (d : Doc) : Prop := (settle d).1 = d

/-- Nothing in the document forces the groups around it to break. -/
def ForcesNoBreak (d : Doc) : Prop := (settle d).2 = false

theorem settle_settle (d : Doc) : settle (settle d).1 = settle d := by
  induction d using Doc.induction with
  | empty | text | newline | breakParent => rfl
  | seq ds ih | fill ds ih =>
      simp only [settle_seq, settle_fill, List.map_map, List.any_map, Prod.mk.injEq, seq.injEq,
        fill.injEq]
      constructor
      · exact List.map_congr_left fun d hd => by simp only [Function.comp_apply, ih d hd]
      · exact any_congr_of_mem fun d hd => by simp only [Function.comp_apply, ih d hd]
  | indent d ih | align _ d ih | suffix d ih | root d ih =>
      simp only [settle_indent, settle_align, settle_suffix, settle_root, ih]
  | group d id broken ih => simp only [settle_group, ih, Bool.or_assoc, Bool.or_self]
  | ifBreak b f id ihb ihf => simp only [settle_ifBreak, ihb, ihf]

theorem isSettled_propagateBreaks (d : Doc) : d.propagateBreaks.IsSettled := by
  rw [IsSettled, propagateBreaks, settle_settle]

/-! ## Forced breaks -/

theorem anyForcedBreak_eq (ds : List Doc) : anyForcedBreak ds = ds.any hasForcedBreak := by
  induction ds with
  | nil => rfl
  | cons d ds ih => rw [anyForcedBreak, ih, List.any_cons]

@[simp] theorem hasForcedBreak_seq (ds : List Doc) :
    (seq ds).hasForcedBreak = ds.any hasForcedBreak := anyForcedBreak_eq ds

@[simp] theorem hasForcedBreak_fill (ds : List Doc) :
    (fill ds).hasForcedBreak = ds.any hasForcedBreak := anyForcedBreak_eq ds

@[simp] theorem hasForcedBreak_ifBreak (b f : Doc) (id : Option String) :
    (ifBreak b f id).hasForcedBreak = (b.hasForcedBreak || f.hasForcedBreak) := rfl

theorem hasForcedBreak_settle (d : Doc) : (settle d).1.hasForcedBreak = d.hasForcedBreak := by
  induction d using Doc.induction with
  | empty | text | newline | breakParent | suffix => rfl
  | seq ds ih | fill ds ih =>
      simp only [settle_seq, settle_fill, hasForcedBreak_seq, hasForcedBreak_fill, List.any_map]
      exact any_congr_of_mem ih
  | indent d ih | align _ d ih | group d _ _ ih | root d ih => exact ih
  | ifBreak b f id ihb ihf => simp only [settle_ifBreak, hasForcedBreak_ifBreak, ihb, ihf]

/-- Not the other way round: a group that is marked by hand forces those around it as well. -/
theorem hasForcedBreak_of_forcesNoBreak {d : Doc} (h : d.ForcesNoBreak) :
    d.hasForcedBreak = false := by
  unfold ForcesNoBreak at h
  induction d using Doc.induction with
  | empty | text | suffix => rfl
  | newline b => exact h
  | breakParent => cases h
  | seq ds ih | fill ds ih =>
      simp only [settle_seq, settle_fill, List.any_eq_false, Bool.not_eq_true] at h
      simp only [hasForcedBreak_seq, hasForcedBreak_fill, List.any_eq_false, Bool.not_eq_true]
      intro d hd
      exact ih d hd (h d hd)
  | indent d ih | align _ d ih | root d ih => exact ih h
  | group d id broken ih =>
      rw [settle_group, Bool.or_eq_false_iff] at h
      exact ih h.2
  | ifBreak b f id ihb ihf =>
      rw [settle_ifBreak, Bool.or_eq_false_iff] at h
      rw [hasForcedBreak_ifBreak, ihb h.1, ihf h.2]
      rfl

def isUnbroken : Doc → Bool
  | .group _ _ broken => !broken
  | _ => true

theorem settle_snd_of_unbroken (d : Doc) (h : d.every isUnbroken = true) :
    (settle d).2 = d.hasForcedBreak := by
  induction d using Doc.induction with
  | empty | text | newline | breakParent | suffix => rfl
  | seq ds ih =>
      rw [settle_seq, hasForcedBreak_seq]
      exact any_congr_of_mem fun d hd => ih d hd (every_seq h d hd)
  | fill ds ih =>
      rw [settle_fill, hasForcedBreak_fill]
      exact any_congr_of_mem fun d hd => ih d hd (every_fill h d hd)
  | indent d ih | align _ d ih | root d ih =>
      rw [every, Bool.and_eq_true] at h
      exact ih h.2
  | group d id broken ih =>
      rw [every, Bool.and_eq_true, isUnbroken, Bool.not_eq_true'] at h
      rw [settle_group, h.1, ih h.2]
      rfl
  | ifBreak b f id ihb ihf =>
      rw [every, Bool.and_eq_true, Bool.and_eq_true] at h
      rw [settle_ifBreak, ihb h.2.1, ihf h.2.2]
      rfl

/-! ## Parts of documents that are settled or force no break -/

@[simp] theorem isSettled_seq (ds : List Doc) : (seq ds).IsSettled ↔ ∀ d ∈ ds, d.IsSettled := by
  simp only [IsSettled, settle_seq, seq.injEq]
  exact ⟨fun h => List.map_inj_left.mp (h.trans ds.map_id.symm),
    fun h => (List.map_congr_left h).trans ds.map_id⟩

@[simp] theorem isSettled_fill (ds : List Doc) : (fill ds).IsSettled ↔ ∀ d ∈ ds, d.IsSettled := by
  simp only [IsSettled, settle_fill, fill.injEq]
  exact ⟨fun h => List.map_inj_left.mp (h.trans ds.map_id.symm),
    fun h => (List.map_congr_left h).trans ds.map_id⟩

@[simp] theorem isSettled_indent (d : Doc) : (indent d).IsSettled ↔ d.IsSettled := by
  simp only [IsSettled, settle_indent, indent.injEq]

@[simp] theorem isSettled_align (n : Int) (d : Doc) : (align n d).IsSettled ↔ d.IsSettled := by
  simp only [IsSettled, settle_align, align.injEq, true_and]

@[simp] theorem isSettled_root (d : Doc) : (root d).IsSettled ↔ d.IsSettled := by
  simp only [IsSettled, settle_root, root.injEq]

@[simp] theorem isSettled_suffix (d : Doc) : (suffix d).IsSettled ↔ d.IsSettled := by
  simp only [IsSettled, settle_suffix, suffix.injEq]

@[simp] theorem isSettled_group (d : Doc) (id : Option String) (broken : Bool) :
    (group d id broken).IsSettled ↔ d.IsSettled ∧ (broken = false → d.ForcesNoBreak) := by
  simp only [IsSettled, ForcesNoBreak, settle_group, group.injEq, true_and]
  cases broken <;> simp

@[simp] theorem isSettled_ifBreak (b f : Doc) (id : Option String) :
    (ifBreak b f id).IsSettled ↔ b.IsSettled ∧ f.IsSettled := by
  simp only [IsSettled, settle_ifBreak, ifBreak.injEq, and_true]

@[simp] theorem forcesNoBreak_newline (b : Break) :
    (newline b).ForcesNoBreak ↔ b.hard = false := Iff.rfl

@[simp] theorem forcesNoBreak_seq (ds : List Doc) :
    (seq ds).ForcesNoBreak ↔ ∀ d ∈ ds, d.ForcesNoBreak := by
  simp [ForcesNoBreak]

@[simp] theorem forcesNoBreak_fill (ds : List Doc) :
    (fill ds).ForcesNoBreak ↔ ∀ d ∈ ds, d.ForcesNoBreak := by
  simp [ForcesNoBreak]

@[simp] theorem forcesNoBreak_indent (d : Doc) :
    (indent d).ForcesNoBreak ↔ d.ForcesNoBreak := Iff.rfl

@[simp] theorem forcesNoBreak_align (n : Int) (d : Doc) :
    (align n d).ForcesNoBreak ↔ d.ForcesNoBreak := Iff.rfl

@[simp] theorem forcesNoBreak_root (d : Doc) : (root d).ForcesNoBreak ↔ d.ForcesNoBreak := Iff.rfl

@[simp] theorem forcesNoBreak_group (d : Doc) (id : Option String) (broken : Bool) :
    (group d id broken).ForcesNoBreak ↔ broken = false ∧ d.ForcesNoBreak := by
  simp [ForcesNoBreak]

@[simp] theorem forcesNoBreak_ifBreak (b f : Doc) (id : Option String) :
    (ifBreak b f id).ForcesNoBreak ↔ b.ForcesNoBreak ∧ f.ForcesNoBreak := by
  simp [ForcesNoBreak]

end Doc

end RubyPretty
