import RubyPretty.Proofs.Rules.Blocks
/-!
# Jumps are kept

`return` leaves out the parentheses around its only argument and the brackets of an array between
them. The comments on such an array go with the brackets: `lostComments` lists them, and all else is
kept.
-/

namespace RubyPretty

open Doc Keep

namespace Rules

variable {k : Keep} {pr : Printer}

/-! ## The argument of a jump -/

/-- A container owes what its first child does if nothing counts of the others. -/
theorem owed_first {n : Tree} (hn : Value.Conforms (.node n))
    (htag : n.tag ∈ ["args_add_block", "args"]) {inner : Value} {rest : List Value}
    (hbody : n.body = inner :: rest) (hrest : k.owedAll rest = 0) :
    k.owed inner = k.owed (.node n) ∧ inner.Conforms := by
  have hall : ∀ tag ∈ ["args_add_block", "args"], isPlainProduction tag = true := by decide
  obtain ⟨howed, hfits⟩ := owed_children (k := k) hn (hall _ htag)
  rw [howed, hbody, owedAll_cons, hrest, Nat.add_zero]
  exact ⟨rfl, hfits inner (by rw [hbody]; exact List.mem_cons_self)⟩

/-- The only argument owes what the containers around it do. Which argument that is does not depend
on the place of the containers. -/
theorem onlyArgument?_spec (v : Value) {around : List Tree} {arg : Place}
    (h : onlyArgument? around v = .ok (some arg)) :
    (∀ others, ∃ arg', onlyArgument? others v = .ok (some arg') ∧ arg'.node = arg.node) ∧
      (v.Conforms → k.owed (.node arg.node) = k.owed v ∧ Value.Conforms (.node arg.node)) := by
  induction v using Value.induction generalizing around with
  | null | bool | int | real | text | list => cases h
  | node n ih =>
      obtain ⟨tag, body, comments, loc⟩ := n
      unfold onlyArgument? at h ⊢
      split at h
      · next htag =>
          split at h
          · next inner block =>
              split at h
              · cases h
              · next hplain =>
                  obtain ⟨hothers, howed⟩ := ih inner (by simp) h
                  refine ⟨fun others => ?_, fun hn => ?_⟩
                  · simp only [if_pos htag, if_neg hplain]
                    exact hothers _
                  · have hblock : block.isNull = true := by
                      simp only [Bool.or_eq_true, not_or] at hplain
                      simpa using hplain.1.1
                    obtain ⟨hsame, hinner⟩ := owed_first (k := k) hn (by simp [htag]) rfl
                      (by rw [Value.isNull_iff.mp hblock]; rfl)
                    exact hsame ▸ howed hinner
          · cases h
      · next htag =>
          split at h
          · next hargs =>
              split at h
              · next inner =>
                  split at h
                  · cases h
                  · next hplain =>
                      obtain ⟨hothers, howed⟩ := ih inner (by simp) h
                      refine ⟨fun others => ?_, fun hn => ?_⟩
                      · simp only [if_neg htag, if_pos hargs, if_neg hplain]
                        exact hothers _
                      · obtain ⟨hsame, hinner⟩ := owed_first (k := k) hn (by simp [hargs]) rfl rfl
                        exact hsame ▸ howed hinner
              · cases h
          · next hargs =>
              cases h
              exact ⟨fun others =>
                ⟨⟨⟨tag, body, comments, loc⟩, others⟩, by rw [if_neg htag, if_neg hargs]; rfl, rfl⟩,
                fun hn => ⟨rfl, hn⟩⟩

theorem parenStatement?_eq_some {paren stmt : Place} :
    parenStatement? paren = .ok (some stmt) ↔ paren.node.comments = [] ∧ ∃ stmts m : Tree,
      paren.node.body[0]? = some (.node stmts) ∧ stmts.tag = "stmts" ∧ stmts.comments = [] ∧
        stmts.body = [.node m] ∧ stmt = (paren.below stmts).below m := by
  constructor
  · intro h
    unfold parenStatement? at h
    split at h
    · cases h
    · next hcomments =>
        refine ⟨by simpa [Node.hasComments] using hcomments, ?_⟩
        rw [Except.bind_eq_ok] at h
        obtain ⟨contents, hcontents, h⟩ := h
        split at h
        · cases h
        · rw [Except.bind_eq_ok] at h
          obtain ⟨stmts, hstmts, h⟩ := h
          obtain rfl := Value.asNode_eq_ok.mp hstmts
          split at h
          · cases h
          · next hbare =>
              obtain ⟨htag, hbare⟩ := bare_of_not hbare
              split at h
              · next v hbody =>
                  rw [Except.bind_eq_ok] at h
                  obtain ⟨m, hm, h⟩ := h
                  obtain rfl := Value.asNode_eq_ok.mp hm
                  exact ⟨stmts, m, Node.child_eq_ok.mp hcontents, htag, hbare, hbody,
                    (Option.some.inj (Except.ok.inj h)).symm⟩
              · cases h
  · rintro ⟨hcomments, stmts, m, hcontents, htag, hbare, hbody, rfl⟩
    unfold parenStatement?
    rw [if_neg (by simp [Node.hasComments, hcomments]), Node.child_eq_ok.mpr hcontents]
    show (if (decide (stmts.tag ≠ "stmts") || stmts.hasComments) = true then _ else _) = _
    rw [if_neg (by simp [Node.hasComments, htag, hbare]), hbody]
    rfl

/-- The only statement between parentheses is all that counts of them, with its comments. -/
theorem owed_parenStatement {paren stmt : Place} (hparen : Value.Conforms (.node paren.node))
    (htag : paren.node.tag = "paren") (h : parenStatement? paren = .ok (some stmt)) :
    k.owed (.node paren.node) = k.due stmt.node ∧ Value.Conforms (.node stmt.node) := by
  obtain ⟨-, stmts, m, hcontents, hstmts, -, hbody, rfl⟩ := parenStatement?_eq_some.mp h
  obtain ⟨v, hv⟩ := Node.exists_body_eq hparen.isShaped (by rw [htag]; decide)
  obtain ⟨howed, hfits⟩ := owed_children (k := k) hparen (by rw [htag]; decide)
  rw [hv] at hcontents howed hfits
  obtain rfl : v = .node stmts := Option.some.inj hcontents
  refine ⟨?_, conforms_of_mem (hfits _ (by simp)) (isToken_stmts hstmts) (by rw [hbody]; simp; rfl)⟩
  rw [howed, owedAll_cons, owedAll_nil, owed_stmts hstmts, hbody]
  simp [ownOf, due, Place.below]
  omega

/-! ## Lost comments -/

/-- The comments on an array that a `return` unwraps are those that are lost there. -/
theorem lost_unwrapped {n : Tree} {args : Value} (htag : n.tag = "return") (hbody : n.body = [args])
    {around : List Tree} {arg stmt : Place} (harg : onlyArgument? around args = .ok (some arg))
    (hparen : arg.node.tag = "paren") (hstmt : parenStatement? arg = .ok (some stmt))
    (harray : isUnwrappedArray stmt.node = true) : k.lost n = k.notes stmt.node.comments := by
  obtain ⟨arg', harg', hnode⟩ := (onlyArgument?_spec (k := k) args harg).1 []
  obtain ⟨hcomments, stmts, m, hcontents, hstmts, hbare, hsingle, rfl⟩ :=
    parenStatement?_eq_some.mp hstmt
  have hstmt' : parenStatement? arg' = .ok (some ((arg'.below stmts).below m)) :=
    parenStatement?_eq_some.mpr
      ⟨hnode ▸ hcomments, stmts, m, hnode ▸ hcontents, hstmts, hbare, hsingle, rfl⟩
  have hlost : lostComments n = m.comments := by
    rw [← hnode] at hparen
    have harray : isUnwrappedArray m = true := harray
    simp [lostComments, htag, hbody, harg', hparen, hstmt', harray, Place.below]
  rw [lost, hlost]
  rfl

theorem owed_return {n : Tree} {args : Value} (htag : n.tag = "return") (hbody : n.body = [args]) :
    k.owed (.node n) = k.owed args - k.lost n := by
  have htoken : n.isToken = false := by rw [Node.isToken, htag]; decide
  rw [owed_node, here, name_eq_zero (nameTags_of_not_token htoken), htoken, htag, hbody]
  simp

/-! ## Rules -/

theorem minCountAll_le_returnDoc (ds : List Doc) :
    minCountAll k.text ds ≤ minCount k.text (returnDoc ds) := by
  have hlisted := minCountAll_le_listed (x := k.text) ds
  simp [returnDoc]
  omega

/-- The values of an array that is unwrapped are kept, and of another argument its comments too. -/
theorem yields_returnedValues (hpr : k.Sound pr) (arg : Place)
    (harg : Value.Conforms (.node arg.node)) :
    Yields (returnedValues pr arg) fun ds =>
      k.owed (.node arg.node) ≤ minCountAll k.text ds ∧
        (isUnwrappedArray arg.node = false → k.due arg.node ≤ minCountAll k.text ds) := by
  have hvisit : Yields (do return [(← pr.visit arg).doc]) fun ds =>
      k.due arg.node ≤ minCountAll k.text ds :=
    .bind (hpr.visit arg harg) fun printed h => .pure (by simpa using h.1)
  have hwhole := hvisit.mono fun ds h =>
    (⟨Nat.le_trans (owed_le_due _) h, fun _ => h⟩ : _ ∧ (isUnwrappedArray arg.node = false → _))
  unfold returnedValues
  split
  · next htag =>
      obtain ⟨v, hbody⟩ := Node.exists_body_eq harg.isShaped (by rw [htag]; decide)
      obtain ⟨howed, hfits⟩ := owed_children harg (by rw [htag]; decide)
      refine .firstChild hbody ?_
      split
      · next list =>
          split
          · next hseveral =>
              refine (yields_argumentList hpr arg (hfits _ (by rw [hbody]; simp))).mono ?_
              intro ds hds
              have hunwrapped : isUnwrappedArray arg.node = true := by
                simpa [isUnwrappedArray, htag, hbody] using hseveral
              rw [hunwrapped, howed, hbody]
              exact ⟨by simpa using hds, fun h => by cases h⟩
          · exact hwhole
      · exact hwhole
  · exact hwhole

theorem yields_returnJump (hpr : k.Sound pr) (p : Place) (htag : p.node.tag = "return")
    {args : Value} (hbody : p.node.body = [args]) (hargs : args.Conforms) :
    Yields (returnJump pr p) fun d => k.owed args ≤ minCount k.text d + k.lost p.node := by
  refine .firstChild hbody (.liftBind fun vs hvs => ?_)
  have hprinted : Yields (do return .cat ["return", ← pr.print p args])
      fun d => k.owed args ≤ minCount k.text d + k.lost p.node :=
    .bind (hpr.print p hargs) fun d hd => .pure (by simp; omega)
  split
  · next hempty =>
      rw [← (owedAll_argumentNodes args hargs hvs).1, List.isEmpty_iff.mp hempty]
      exact .pure (Nat.zero_le _)
  · refine .liftBind fun arg? harg => ?_
    cases arg? with
    | none =>
        refine .bind (yields_argumentList hpr p hargs) fun ds hds => .pure ?_
        exact Nat.le_add_right_of_le (Nat.le_trans hds (minCountAll_le_returnDoc ds))
    | some arg =>
        obtain ⟨hsame, hargFits⟩ := (onlyArgument?_spec (k := k) args harg).2 hargs
        rw [← hsame]
        show Yields (if arg.node.tag ≠ "paren" then _ else _) _
        split
        · refine .bind (yields_returnedValues hpr arg hargFits) fun ds hds => .pure ?_
          exact Nat.le_add_right_of_le (Nat.le_trans hds.1 (minCountAll_le_returnDoc ds))
        · next hparen =>
            rw [Decidable.not_not] at hparen
            refine .liftBind fun stmt? hstmt => ?_
            cases stmt? with
            | none => exact hsame ▸ hprinted
            | some stmt =>
                obtain ⟨hdue, hstmtFits⟩ := owed_parenStatement (k := k) hargFits hparen hstmt
                refine .liftBind fun skips _ => ?_
                cases skips with
                | false => exact hsame ▸ hprinted
                | true =>
                    refine .bind (yields_returnedValues hpr stmt hstmtFits) fun ds hds => .pure ?_
                    have hdoc := minCountAll_le_returnDoc (k := k) ds
                    rw [hdue]
                    cases harray : isUnwrappedArray stmt.node with
                    | false => exact Nat.le_add_right_of_le (Nat.le_trans (hds.2 harray) hdoc)
                    | true =>
                        -- the comments that the array owes its parent are those that are lost
                        have hown := own_le (k := k) stmt.node
                        have hlost := lost_unwrapped (k := k) htag hbody harg hparen hstmt harray
                        rw [due]
                        omega

@[simp] theorem keeps_returnJump : k.Keeps ["return"] returnJump := by
  intro pr p hpr hp htag
  have htag := List.mem_singleton.mp htag
  obtain ⟨args, hbody⟩ := Node.exists_body_eq hp.isShaped (by rw [htag]; decide)
  have htoken : p.node.isToken = false := by rw [Node.isToken, htag]; decide
  have hargs := conforms_of_mem hp htoken (v := args) (by rw [hbody]; exact List.mem_cons_self)
  rw [owed_return htag hbody]
  exact (yields_returnJump hpr p htag hbody hargs).mono fun d hd => by omega

theorem yields_parenJump (hpr : k.Sound pr) (keyword : String) (paren : Place)
    (hparen : Value.Conforms (.node paren.node)) (htag : paren.node.tag = "paren") :
    Yields (parenJump pr keyword paren) fun d => k.owed (.node paren.node) ≤ minCount k.text d := by
  have hvisit : Yields (do return Doc.cat [keyword, (← pr.visit paren).doc])
      fun d => k.owed (.node paren.node) ≤ minCount k.text d := by
    refine .bind (hpr.visit paren hparen) fun printed h => .pure ?_
    have := Nat.le_trans (owed_le_due _) h.1
    simp
    omega
  unfold parenJump
  refine .liftBind fun stmt? hstmt => ?_
  cases stmt? with
  | none => exact hvisit
  | some stmt =>
      show Yields (if (!parenBoundTags.contains stmt.node.tag) = true then _ else _) _
      split
      · obtain ⟨v, hbody⟩ := Node.exists_body_eq hparen.isShaped (by rw [htag]; decide)
        obtain ⟨howed, hfits⟩ := owed_children (k := k) hparen (by rw [htag]; decide)
        rw [howed, hbody]
        have hv := hfits v (by rw [hbody]; simp)
        refine .bind (hpr.printChild paren hbody hv) fun d hd => .pure ?_
        simp
        omega
      · exact hvisit

@[simp] theorem keeps_jump (keyword : String) {tags : List String}
    (htags : tags ⊆ ["break", "next"]) : k.Keeps tags (jump keyword) := by
  refine keeps_subset ?_ htags
  refine keeps_of_child (by decide) fun pr p args hpr _ _ hbody hargs => ?_
  refine .firstChild hbody (.liftBind fun vs hvs => ?_)
  have hlist : Yields (do return .cat [keyword ++ " ", .joined ", " (← argumentList pr p args)])
      fun d => k.owed args ≤ minCount k.text d := by
    refine .bind (yields_argumentList hpr p hargs) fun ds hds => .pure ?_
    have hjoined := minCountAll_le_joined (x := k.text) ", " ds
    simp
    omega
  split
  · next hempty =>
      rw [← (owedAll_argumentNodes args hargs hvs).1, List.isEmpty_iff.mp hempty]
      exact .pure (Nat.zero_le _)
  · refine .liftBind fun arg? harg => ?_
    cases arg? with
    | none => exact hlist
    | some arg =>
        show Yields (if arg.node.tag = "paren" then _ else _) _
        split
        · next hparen =>
            obtain ⟨hsame, hargFits⟩ := (onlyArgument?_spec args harg).2 hargs
            exact hsame ▸ yields_parenJump hpr keyword arg hargFits hparen
        · exact hlist

end Rules

end RubyPretty
