import RubyPretty.Proofs.Rules.Arguments
/-!
# Variables, assignments and operators are kept
-/

namespace RubyPretty

open Doc Keep

namespace Rules

variable {k : Keep}

/-! ## Variables -/

@[simp] theorem keeps_variableName {tags : List String} (htags : tags ⊆ ["var_ref", "var_field"]) :
    k.Keeps tags variableName :=
  keeps_subset (keeps_only (by decide)) htags

@[simp] theorem keeps_constPath : k.Keeps ["const_path_ref", "const_path_field"] constPath := by
  refine keeps_of_children (by decide) fun pr p hpr hp hfits htag => ?_
  exact .bind (hpr.printAll p hfits) fun ds hds =>
    .pure (Nat.le_trans hds (minCountAll_le_joined _ ds))

@[simp] theorem keeps_topConst : k.Keeps ["top_const_ref", "top_const_field"] topConst :=
  keeps_wrapped (by decide) fun d => by simp

@[simp] theorem keeps_field : k.Keeps ["field"] field := by
  refine keeps_of_children (by decide) fun pr p hpr hp hfits htag => ?_
  have htag := List.mem_singleton.mp htag
  unfold field
  split
  · next receiver operator name hbody =>
      rw [hbody] at hfits ⊢
      have hoperator : k.owed operator = 0 :=
        owed_of_mark hp 1 (by rw [htag]; rfl) (by rw [hbody]; rfl)
      refine .bind (hpr.print p (hfits receiver (by simp))) fun r hr => ?_
      refine .liftBind fun sign _ => ?_
      refine .bind (hpr.print p (hfits name (by simp))) fun n hn => ?_
      refine .liftBind fun o _ => .pure ?_
      simp [hoperator]
      omega
  · exact .throw _

@[simp] theorem keeps_index : k.Keeps ["aref", "aref_field"] index := by
  refine keeps_of_children (by decide) fun pr p hpr hp hfits htag => ?_
  unfold index
  split
  · next collection index hbody =>
      rw [hbody] at hfits ⊢
      refine .bind (hpr.print p (hfits collection (by simp))) fun c hc => ?_
      split
      · next hnull =>
          rw [Value.isNull_iff.mp hnull]
          exact .pure (by simpa using Nat.le_trans hc (Nat.le_add_right _ _))
      · refine .bind (yields_argumentList hpr p (hfits index (by simp))) fun ds hds => .pure ?_
        have := minCountAll_le_listed (x := k.text) ds
        simp
        omega
  · exact .throw _

@[simp] theorem keeps_definedCheck : k.Keeps ["defined"] definedCheck :=
  keeps_wrapped (by decide) fun d => by simpa using minCountAll_le_enclosed "defined?(" [d] ")"

/-! ## Assignment -/

@[simp] theorem keeps_assign : k.Keeps ["assign"] assign := by
  refine keeps_of_children (by decide) fun pr p hpr hp hfits htag => ?_
  unfold assign
  split
  · next target value hbody =>
      rw [hbody] at hfits ⊢
      refine .bind (hpr.print p (hfits target (by simp))) fun t ht => ?_
      refine .bind (hpr.print p (hfits value (by simp))) fun v hv => ?_
      refine .liftBind fun stays _ => ?_
      split <;> refine .pure ?_ <;> simp <;> omega
  · exact .throw _

@[simp] theorem keeps_operatorAssign : k.Keeps ["opassign"] operatorAssign := by
  refine keeps_of_children (by decide) fun pr p hpr hp hfits htag => ?_
  unfold operatorAssign
  split
  · next target operator value hbody =>
      rw [hbody] at hfits ⊢
      refine .bind (hpr.print p (hfits target (by simp))) fun t ht => ?_
      refine .bind (hpr.print p (hfits operator (by simp))) fun o ho => ?_
      refine .bind (hpr.print p (hfits value (by simp))) fun v hv => .pure ?_
      simp
      omega
  · exact .throw _

@[simp] theorem keeps_multipleAssign : k.Keeps ["massign"] multipleAssign := by
  refine keeps_of_children (by decide) fun pr p hpr hp hfits htag => ?_
  unfold multipleAssign
  split
  · next targets value hbody =>
      rw [hbody] at hfits ⊢
      refine .bind (hpr.print p (hfits targets (by simp))) fun t ht => ?_
      refine .bind (hpr.print p (hfits value (by simp))) fun v hv => .pure ?_
      simp
      omega
  · exact .throw _

@[simp] theorem keeps_targets : k.Keeps ["mlhs"] targets := by
  refine keeps_of_children (by decide) fun pr p hpr hp hfits htag => ?_
  refine .bind (hpr.printAll p hfits) fun ds hds => ?_
  have hlisted := Nat.le_trans hds (minCountAll_le_listed ds)
  split
  · refine .liftBind fun target _ => ?_
    split
    · exact .pure hlisted
    · exact .pure (by simpa using Nat.le_trans hlisted (Nat.le_add_right _ _))
  · exact .pure hlisted

@[simp] theorem keeps_targetsParen : k.Keeps ["mlhs_paren"] targetsParen := by
  refine keeps_of_child (by decide) fun pr p v hpr _ _ hbody hv => ?_
  refine .bind (hpr.printChild p hbody hv) fun d hd => ?_
  split
  · exact .pure hd
  · have := minCountAll_le_enclosed (x := k.text) "(" [d] ")"
    exact .pure (by simp at this ⊢; omega)

@[simp] theorem keeps_values : k.Keeps ["mrhs"] values := by
  refine keeps_of_children (by decide) fun pr p hpr hp hfits htag => ?_
  exact .bind (hpr.printAll p hfits) fun ds hds =>
    .pure (by simpa using Nat.le_trans hds (minCountAll_le_listed ds))

/-! ## Operators -/

@[simp] theorem keeps_binary : k.Keeps ["binary"] binary := by
  refine keeps_of_children (by decide) fun pr p hpr hp hfits htag => ?_
  have htag := List.mem_singleton.mp htag
  unfold binary
  split
  · next left operator right hbody =>
      rw [hbody] at hfits ⊢
      have hoperator : k.owed operator = 0 :=
        owed_of_mark hp 1 (by rw [htag]; rfl) (by rw [hbody]; rfl)
      refine .liftBind fun sign _ => ?_
      refine .bind (hpr.print p (hfits left (by simp))) fun l hl => ?_
      refine .bind (hpr.print p (hfits right (by simp))) fun r hr => ?_
      refine .liftBind fun o _ => .liftBind fun n _ => ?_
      split <;> refine .pure ?_ <;> simp [hoperator] <;> omega
  · exact .throw _

@[simp] theorem keeps_unary : k.Keeps ["unary"] unary := by
  refine keeps_of_children (by decide) fun pr p hpr hp hfits htag => ?_
  have htag := List.mem_singleton.mp htag
  unfold unary
  split
  · next operator operand hbody =>
      rw [hbody] at hfits ⊢
      have hoperator : k.owed operator = 0 :=
        owed_of_mark hp 0 (by rw [htag]; rfl) (by rw [hbody]; rfl)
      refine .liftBind fun sign _ => .liftBind fun text _ => ?_
      refine .bind (hpr.print p (hfits operand (by simp))) fun d hd => ?_
      split <;> refine .pure ?_ <;> simp [hoperator] <;> omega
  · exact .throw _

@[simp] theorem keeps_negation : k.Keeps ["not"] negation := by
  refine keeps_of_child (by decide) fun pr p v hpr _ _ hbody hv => ?_
  refine .firstChild hbody ?_
  split
  · exact .pure (Nat.zero_le _)
  · refine .liftBind fun n _ => ?_
    split <;> refine .bind (hpr.print p hv) fun d hd => .pure ?_ <;> simp <;> omega

@[simp] theorem keeps_range (dots : String) {tags : List String} (htags : tags ⊆ ["dot2", "dot3"]) :
    k.Keeps tags (range dots) := by
  refine keeps_subset ?_ htags
  refine keeps_of_children (by decide) fun pr p hpr hp hfits htag => ?_
  unfold range
  split
  · next left right hbody =>
      rw [hbody] at hfits ⊢
      refine .bind (hpr.print p (hfits left (by simp))) fun l hl => ?_
      refine .bind (hpr.print p (hfits right (by simp))) fun r hr => .pure ?_
      simp
      omega
  · exact .throw _

end Rules

end RubyPretty
