import RubyPretty.Proofs.Rules.Definitions
/-!
# Conditions, loops and case distinctions are kept

Most of these have two layouts, and a text is kept only if both of them have it. The branches of a
ternary are the one place where a node is passed over: `not x` is written by way of `x`.
-/

namespace RubyPretty

open Doc Keep

namespace Rules

variable {k : Keep} {pr : Printer}

/-! ## Ternaries -/

theorem isTernaryBranch_eq {n : Tree} (h : Shape.isTernaryBranch n = .ok true) :
    ∃ stmt, n.body = [.node stmt] ∧ stmt.comments = [] := by
  unfold Shape.isTernaryBranch at h
  split at h
  · cases h
  · split at h
    · next v hbody =>
        rw [Except.bind_eq_ok] at h
        obtain ⟨stmt, hstmt, h⟩ := h
        rw [Value.asNode_eq_ok.mp hstmt] at hbody
        split at h
        · cases h
        · next hcomments =>
            refine ⟨stmt, hbody, ?_⟩
            simpa [Node.hasComments] using hcomments
    · cases h

theorem owed_single {n stmt : Tree} (htag : n.tag = "stmts") (hbody : n.body = [.node stmt])
    (hcomments : stmt.comments = []) : k.owed (.node n) = k.owed (.node stmt) := by
  have hown := own_le (k := k) stmt
  rw [hcomments, notes_nil] at hown
  rw [owed_stmts htag, hbody]
  simp [ownOf]
  omega

theorem yields_negated (hpr : k.Sound pr) (place : Place)
    (hplace : Value.Conforms (.node place.node)) (htag : place.node.tag = "not") {v : Value}
    (hv : place.node.body[0]? = some v) :
    Yields (do return .cat ["not(", ← pr.print place v, ")"])
      fun d => k.owed (.node place.node) ≤ minCount k.text d := by
  obtain ⟨w, hbody, hfits, howed⟩ := owed_only (k := k) hplace (by rw [htag]; decide)
    (by rw [htag]; decide)
  rw [hbody] at hv
  obtain rfl : w = v := Option.some.inj hv
  rw [howed]
  exact .bind (hpr.print place hfits) fun d hd => .pure (by simp; omega)

/-- A clause is printed as it is, or as the operand of the negation at the place that is looked at,
which owes as much as the clause. -/
theorem yields_clauseAt (hpr : k.Sound pr) (p place : Place) {n : Tree}
    (hn : Value.Conforms (.node n)) (hplace : Value.Conforms (.node place.node))
    (howed : k.owed (.node n) = k.owed (.node place.node)) {rest : Value → PrintM Doc}
    (hrest : ∀ v, rest v = pr.print p (.node n) ∨
      rest v = do return .cat ["not(", ← pr.print place v, ")"]) :
    Yields (if place.node.tag = "not" then liftM (place.node.child 0) >>= rest
      else pr.print p (.node n)) fun d => k.owed (.node n) ≤ minCount k.text d := by
  split
  · next htag =>
      refine .liftBind fun operand hoperand => ?_
      rw [Node.child_eq_ok] at hoperand
      rcases hrest operand with h | h <;> rw [h]
      · exact hpr.print p hn
      · rw [howed]
        exact yields_negated hpr place hplace htag hoperand
  · exact hpr.print p hn

theorem yields_ternaryClause (hpr : k.Sound pr) (p : Place) {v : Value} (hv : v.Conforms)
    (hsingle : ∀ n, v = .node n → n.tag = "stmts" → Shape.isTernaryBranch n = .ok true) :
    Yields (ternaryClause pr p v) fun d => k.owed v ≤ minCount k.text d := by
  refine .liftBind fun n hn => ?_
  obtain rfl := Value.asNode_eq_ok.mp hn
  simp only
  split
  · next htag =>
      obtain ⟨stmt, hbody, hcomments⟩ := isTernaryBranch_eq (hsingle n rfl htag)
      refine .firstNode hbody ?_
      intro m hm
      obtain rfl : stmt = m := Value.node.inj hm
      have hstmt : Value.Conforms (.node stmt) :=
        conforms_of_mem hv (isToken_stmts htag) (by rw [hbody]; exact List.mem_singleton_self _)
      refine .pureBind (yields_clauseAt hpr p ((p.below n).below stmt) hv hstmt
        (owed_single htag hbody hcomments) fun v => ?_)
      cases v with
      | null => exact .inl rfl
      | _ => exact .inr rfl
  · refine .pureBind (yields_clauseAt hpr p (p.below n) hv hv rfl fun v => ?_)
    cases v with
    | null => exact .inl rfl
    | _ => exact .inr rfl

theorem minCountAll_branches (condition : Condition) (truthy falsy : Doc) :
    minCount k.text truthy + minCount k.text falsy ≤
      minCountAll k.text (condition.branches truthy falsy) := by
  cases condition with
  | isTrue =>
      simp [Condition.branches]
  | isFalse =>
      simp [Condition.branches]
      omega

theorem minCount_le_keywordPredicate (keyword : String) (d : Doc) :
    minCount k.text d ≤ minCount k.text (keywordPredicate keyword d) := by
  simp [keywordPredicate]

theorem canTernary_eq {n : Tree} {predicate stmts addition : Value}
    (hbody : n.body = [predicate, stmts, addition]) (h : Shape.canTernary n = .ok true) :
    ∃ s a e, stmts = .node s ∧ Shape.isTernaryBranch s = .ok true ∧ addition = .node a ∧
      a.tag = "else" ∧ a.body[0]? = some (.node e) ∧ Shape.isTernaryBranch e = .ok true := by
  unfold Shape.canTernary at h
  rw [hbody] at h
  simp only [Except.bind_eq_ok] at h
  obtain ⟨q, -, h⟩ := h
  split at h
  · cases h
  · rw [Except.bind_eq_ok] at h
    obtain ⟨isKeyword, -, h⟩ := h
    split at h
    · cases h
    · split at h
      · cases h
      · rw [Except.bind_eq_ok] at h
        obtain ⟨a, ha, h⟩ := h
        split at h
        · cases h
        · next htag =>
            simp only [Except.bind_eq_ok] at h
            obtain ⟨s, hs, truthy, htruthy, h⟩ := h
            split at h
            · cases h
            · next hbranch =>
                rw [Except.bind_eq_ok] at h
                obtain ⟨e, he, h⟩ := h
                have hbranch : truthy = true := by simpa using hbranch
                exact ⟨s, a, e, Value.asNode_eq_ok.mp hs, hbranch ▸ htruthy,
                  Value.asNode_eq_ok.mp ha, by simpa using htag, Node.childNode_eq_ok.mp he, h⟩

theorem yields_ternary (hpr : k.Sound pr) (p : Place) (condition : Condition)
    {predicate stmts addition : Value} (hbody : p.node.body = [predicate, stmts, addition])
    (hfits : ∀ v ∈ p.node.body, v.Conforms) (h : Shape.canTernary p.node = .ok true) :
    Yields (ternary pr p condition) fun d => k.owedAll p.node.body ≤ minCount k.text d := by
  obtain ⟨s, a, e, rfl, hs, rfl, htag, he, helse⟩ := canTernary_eq hbody h
  unfold ternary
  rw [hbody] at hfits ⊢
  have ha : Value.Conforms (.node a) := hfits _ (by simp)
  obtain ⟨w, hw, hfits_e, howed⟩ := owed_only (k := k) ha (by rw [htag]; decide)
    (by rw [htag]; decide)
  rw [hw] at he
  obtain rfl : w = .node e := Option.some.inj he
  refine .bind (hpr.print p (hfits predicate (by simp))) fun q hq => ?_
  refine .bind (yields_ternaryClause hpr p (hfits (.node s) (by simp)) ?_) fun t ht => ?_
  · rintro n hn -
    exact Value.node.inj hn ▸ hs
  · refine .liftBind fun a' ha' => ?_
    obtain rfl : a = a' := Value.node.inj (Value.asNode_eq_ok.mp ha')
    refine .firstChild hw (.bind (yields_ternaryClause hpr _ hfits_e ?_) fun f hf => .pure ?_)
    · rintro n hn -
      exact Value.node.inj hn ▸ helse
    · have hbranches := minCountAll_branches (k := k) condition t f
      split <;> simp [howed] <;> omega

/-! ## Conditions -/

theorem yields_clauseBody (hpr : k.Sound pr) (p : Place) {v : Value} (hv : v.Conforms) :
    Yields (clauseBody pr p v) fun d => k.owed v ≤ minCount k.text d := by
  refine .liftBind fun isEmpty hempty => ?_
  split
  · next h =>
      rw [owed_of_isEmptyStatements hv (h ▸ hempty)]
      exact .pure (Nat.zero_le _)
  · exact .bind (hpr.print p hv) fun d hd => .pure (by simpa [softline] using hd)

theorem yields_withAddition (hpr : k.Sound pr) (p : Place) (keyword : String)
    (hfits : ∀ v ∈ p.node.body, v.Conforms) :
    Yields (withAddition pr p keyword) fun d => k.owedAll p.node.body ≤ minCount k.text d := by
  unfold withAddition
  split
  · next predicate stmts addition hbody =>
      rw [hbody] at hfits ⊢
      refine .bind (hpr.print p (hfits predicate (by simp))) fun q hq => ?_
      refine .bind (yields_clauseBody hpr p (hfits stmts (by simp))) fun b hb => ?_
      refine .bind (hpr.print p (hfits addition (by simp))) fun a ha => .pure ?_
      have := minCount_le_keywordPredicate (k := k) keyword q
      simp
      omega
  · exact .throw _

theorem minCount_le_blockForm (keyword : String) (predicate body : Doc) :
    minCount k.text predicate + minCount k.text body ≤
      minCount k.text (blockForm keyword predicate body) := by
  have := minCount_le_keywordPredicate (k := k) keyword predicate
  unfold blockForm
  split
  · simp
    omega
  · simp
    omega

theorem minCountAll_le_inlineForm (p : Place) (ds : List Doc) :
    minCountAll k.text ds ≤ minCount k.text (inlineForm p ds) := by
  unfold inlineForm
  split
  · simp
    omega
  · simp

theorem yields_singleConditional (hpr : k.Sound pr) (p : Place) (keyword : String)
    (isModifier : Bool) {predicate statements : Value} {rest : List Value}
    (hbody : p.node.body = predicate :: statements :: rest) (hpredicate : predicate.Conforms)
    (hstatements : statements.Conforms) :
    Yields (singleConditional keyword isModifier pr p)
      fun d => k.owed predicate + k.owed statements ≤ minCount k.text d := by
  unfold singleConditional
  rw [hbody]
  refine .bind (hpr.print p hpredicate) fun q hq => ?_
  refine .bind (hpr.print p hstatements) fun b hb => ?_
  have hhead := minCount_le_keywordPredicate (k := k) keyword q
  have hinline := minCountAll_le_inlineForm (k := k) p [b, ofString (" " ++ keyword ++ " "), q]
  have hrest : ∀ commented : Bool, Yields
      (if !pr.options.modifier || commented then
          return .cat
            [.cat [keywordPredicate keyword q, .indented [.softline, b], .softline, "end"],
              .breakParent]
        else if isModifier && Shape.containsAssignment statements then
          return inlineForm p [b, " " ++ keyword ++ " ", q]
        else
          return .grouped [.either
            (.cat [keywordPredicate keyword q, .indented [.softline, b], .softline, "end"])
            (inlineForm p [b, " " ++ keyword ++ " ", q])] : PrintM Doc)
      fun d => k.owed predicate + k.owed statements ≤ minCount k.text d := by
    intro commented
    simp only [minCountAll_cons, minCountAll_nil] at hinline
    split
    · exact .pure (by simp; omega)
    · split
      · exact .pure (by omega)
      · exact .pure (by simp; omega)
  cases isModifier with
  | true => exact .pureBind (hrest false)
  | false => exact .liftBind fun commented _ => hrest commented

@[simp] theorem keeps_singleConditional (keyword : String) {tags : List String}
    (htags : tags ⊆ ["if_mod", "unless_mod"]) :
    k.Keeps tags (singleConditional keyword true) := by
  refine keeps_subset ?_ htags
  refine keeps_of_children (by decide) fun pr p hpr hp hfits htag => ?_
  have hlength : p.node.body.length = 2 := Node.length_body hp (by
    rcases List.mem_pair.mp htag with h | h <;> rw [h] <;> decide)
  obtain ⟨predicate, statement, hbody⟩ := List.length_eq_two.mp hlength
  rw [hbody] at hfits ⊢
  refine (yields_singleConditional hpr p keyword true hbody (hfits predicate (by simp))
    (hfits statement (by simp))).mono fun d hd => ?_
  simpa using hd

@[simp] theorem keeps_conditional (condition : Condition) {tags : List String}
    (htags : tags ⊆ ["if", "unless"]) : k.Keeps tags (conditional condition) := by
  refine keeps_subset ?_ htags
  refine keeps_of_children (by decide) fun pr p hpr hp hfits htag => ?_
  unfold conditional
  split
  · next predicate stmts addition hbody =>
      refine .liftBind fun canBe hcanBe => ?_
      split
      · next htrue =>
          rw [canBeTernary, htrue] at hcanBe
          have hternary : Shape.canTernary p.node = .ok true := by
            split at hcanBe
            · exact hcanBe
            · cases hcanBe
          refine .bind (yields_ternary hpr p condition hbody hfits hternary) fun f hf => ?_
          refine .bind (yields_withAddition hpr p _ hfits) fun b hb => .pure ?_
          simp
          omega
      · split
        · refine .bind (yields_withAddition hpr p _ hfits) fun b hb => .pure ?_
          simpa using hb
        · next haddition =>
            rw [hbody] at hfits ⊢
            have hnull : addition = .null := Value.isNull_iff.mp (by simpa using haddition)
            have hpredicate := hfits predicate (by simp)
            have hstmts := hfits stmts (by simp)
            simp only [hnull, owedAll_cons, owedAll_nil, owed_null, Nat.add_zero]
            refine .liftBind fun isEmpty hempty => ?_
            split
            · next h =>
                rw [owed_of_isEmptyStatements hstmts (h ▸ hempty)]
                refine .bind (hpr.print p hpredicate) fun q hq => .pure ?_
                exact Nat.le_trans hq (Nat.le_trans (Nat.le_add_right _ _)
                  (minCount_le_blockForm _ q .empty))
            · refine .liftBind fun refuses _ => ?_
              split
              · refine .bind (hpr.print p hpredicate) fun q hq => ?_
                refine .bind (hpr.print p hstmts) fun b hb => .pure ?_
                exact Nat.le_trans (Nat.add_le_add hq hb) (minCount_le_blockForm _ q b)
              · exact yields_singleConditional hpr p _ false hbody hpredicate hstmts
  · exact .throw _

@[simp] theorem keeps_elsif : k.Keeps ["elsif"] elsif := by
  refine keeps_of_children (by decide) fun pr p hpr hp hfits htag => ?_
  unfold elsif
  split
  · next predicate stmts addition hbody =>
      rw [hbody] at hfits ⊢
      refine .bind (hpr.print p (hfits predicate (by simp))) fun q hq => ?_
      refine .bind (yields_indentedBody hpr p (hfits stmts (by simp))) fun b hb => ?_
      refine .bind (yields_clauseBelow hpr p (hfits addition (by simp))) fun a ha => .pure ?_
      have := minCount_le_keywordPredicate (k := k) "elsif" q
      simp
      omega
  · exact .throw _

@[simp] theorem keeps_elseClause : k.Keeps ["else"] elseClause := by
  refine keeps_of_child (by decide) fun pr p v hpr _ _ hbody hv => ?_
  refine .firstNode hbody ?_
  rintro stmts rfl
  have hrest : ∀ isCommand : Bool, Yields
      (do return .cat [if isCommand then .breakParent else .empty, "else",
        ← clauseBody pr p (.node stmts)]) fun d => k.owed (.node stmts) ≤ minCount k.text d := by
    intro isCommand
    refine .bind (yields_clauseBody hpr p hv) fun b hb => .pure ?_
    simp
    omega
  simp only
  split
  · exact .liftBind fun n _ => .pureBind (hrest _)
  · exact .pureBind (hrest _)

@[simp] theorem keeps_ternaryOperator : k.Keeps ["ifop"] ternaryOperator := by
  refine keeps_of_children (by decide) fun pr p hpr hp hfits htag => ?_
  have htag := List.mem_singleton.mp htag
  unfold ternaryOperator
  split
  · next predicate truthy falsy hbody =>
      -- a branch of the operator is no statement list
      have hinner : ∀ (i : Nat) (v : Value), p.node.body[i]? = some v →
          (Grammar.slotsOf p.node.tag)[i]? = some Grammar.Slot.inner →
          ∀ n, v = .node n → n.tag = "stmts" → Shape.isTernaryBranch n = .ok true := by
        rintro i v hv hslot n rfl hn
        have := Node.admits_slot hp hslot hv
        simp [Grammar.Slot.admits, Value.tag?, Value.node?, hn] at this
      have htruthy := hinner 1 truthy (by rw [hbody]; rfl) (by rw [htag]; rfl)
      have hfalsy := hinner 2 falsy (by rw [hbody]; rfl) (by rw [htag]; rfl)
      rw [hbody] at hfits ⊢
      refine .bind (hpr.print p (hfits predicate (by simp))) fun q hq => ?_
      refine .bind (yields_ternaryClause hpr p (hfits truthy (by simp)) htruthy) fun t ht => ?_
      refine .bind (yields_ternaryClause hpr p (hfits falsy (by simp)) hfalsy) fun f hf => .pure ?_
      have hbranches := minCountAll_branches (k := k) .isTrue t f
      have hhead := minCount_le_keywordPredicate (k := k) "if" q
      simp
      omega
  · exact .throw _

/-! ## Loops -/

theorem yields_loopWithBody (hpr : k.Sound pr) (p : Place) (keyword : String) (isModifier : Bool)
    (hfits : ∀ v ∈ p.node.body, v.Conforms) :
    Yields (loopWithBody keyword isModifier pr p)
      fun d => k.owedAll p.node.body ≤ minCount k.text d := by
  unfold loopWithBody
  split
  · next predicate body hbody =>
      rw [hbody] at hfits ⊢
      refine .bind (hpr.print p (hfits predicate (by simp))) fun q hq => ?_
      refine .bind (hpr.print p (hfits body (by simp))) fun b hb => ?_
      have hhead := minCount_le_keywordPredicate (k := k) keyword q
      have hinline := minCountAll_le_inlineForm (k := k) p [b, ofString (" " ++ keyword ++ " "), q]
      simp only [minCountAll_cons, minCountAll_nil] at hinline
      have hrest : ∀ runsFirst : Bool, Yields
          (if runsFirst then return inlineForm p [b, " " ++ keyword ++ " ", q]
            else if !pr.options.modifier || Shape.containsAssignment predicate then
              return .cat [.breakParent,
                .cat [keywordPredicate keyword q, .indented [.softline, b], .softline, "end"]]
            else
              return .grouped [.either
                (.cat [keywordPredicate keyword q, .indented [.softline, b], .softline, "end"])
                (inlineForm p [b, " " ++ keyword ++ " ", q])] : PrintM Doc)
          fun d => k.owedAll [predicate, body] ≤ minCount k.text d := by
        intro runsFirst
        simp only [owedAll_cons, owedAll_nil]
        split
        · exact .pure (by omega)
        · split
          · exact .pure (by simp; omega)
          · exact .pure (by simp; omega)
      cases isModifier with
      | true => exact .liftBind fun n _ => .pureBind (hrest _)
      | false => exact .pureBind (hrest _)
  · exact .throw _

@[simp] theorem keeps_loop (keyword : String) (isModifier : Bool) {tags : List String}
    (htags : tags ⊆ ["while", "until", "while_mod", "until_mod"]) :
    k.Keeps tags (loop keyword isModifier) := by
  refine keeps_subset ?_ htags
  refine keeps_of_children (by decide) fun pr p hpr hp hfits htag => ?_
  have hwhole := yields_loopWithBody hpr p keyword isModifier hfits
  unfold loop
  split
  · next predicate body hbody =>
      have hrest : ∀ isEmpty : Bool,
          (isEmpty = true → Shape.isEmptyStatements body = .ok true) → Yields
          (if isEmpty then do
              return .grouped [.grouped [keyword, " ", ← pr.print p predicate], .hardline, "end"]
            else loopWithBody keyword isModifier pr p)
          fun d => k.owedAll p.node.body ≤ minCount k.text d := by
        intro isEmpty hempty
        split
        · next h =>
            rw [hbody] at hfits ⊢
            have hzero := owed_of_isEmptyStatements (k := k) (hfits body (by simp)) (hempty h)
            refine .bind (hpr.print p (hfits predicate (by simp))) fun q hq => .pure ?_
            simp [hzero]
            omega
        · exact hwhole
      cases isModifier with
      | true => exact .pureBind (hrest false Bool.noConfusion)
      | false => exact .liftBind fun isEmpty h => hrest isEmpty fun ht => ht ▸ h
  · exact .throw _

@[simp] theorem keeps_forLoop : k.Keeps ["for"] forLoop := by
  refine keeps_of_children (by decide) fun pr p hpr hp hfits htag => ?_
  unfold forLoop
  split
  · next target iterable stmts hbody =>
      rw [hbody] at hfits ⊢
      refine .bind (hpr.print p (hfits target (by simp))) fun t ht => ?_
      refine .bind (hpr.print p (hfits iterable (by simp))) fun i hi => ?_
      refine .bind (yields_indentedBody hpr p (hfits stmts (by simp))) fun b hb => .pure ?_
      simp
      omega
  · exact .throw _

/-! ## Case distinctions -/

@[simp] theorem keeps_case : k.Keeps ["case"] case := by
  refine keeps_of_children (by decide) fun pr p hpr hp hfits htag => ?_
  unfold case
  split
  · next value clause hbody =>
      rw [hbody] at hfits ⊢
      have hrest : ∀ v, k.owed value ≤ minCount k.text v → Yields
          (do return .cat ["case", v, .hardline, ← pr.print p clause, .hardline, "end"])
          fun d => k.owedAll [value, clause] ≤ minCount k.text d := by
        intro v hv
        refine .bind (hpr.print p (hfits clause (by simp))) fun c hc => .pure ?_
        simp
        omega
      split
      · next hnull =>
          refine .pureBind (hrest _ ?_)
          rw [Value.isNull_iff.mp hnull]
          exact Nat.zero_le _
      · refine .bind (hpr.print p (hfits value (by simp))) fun v hv => .pureBind (hrest _ ?_)
        simp
        omega
  · exact .throw _

theorem minCountAll_le_commaItems (ds : List Doc) :
    minCountAll k.text ds ≤ minCountAll k.text (commaItems ds) := by
  match ds with
  | [] | [_] => exact Nat.le_refl _
  | d :: e :: ds =>
      have ih := minCountAll_le_commaItems (e :: ds)
      show _ ≤ minCountAll k.text (.cat [d, ","] :: .line :: commaItems (e :: ds))
      simp only [minCountAll_cons, minCount_cat] at ih ⊢
      omega

theorem yields_caseClause (hpr : k.Sound pr) (p : Place) (head : Doc) {stmts addition : Value}
    (hstmts : stmts.Conforms) (haddition : addition.Conforms) :
    Yields (caseClause pr p head stmts addition)
      fun d => minCount k.text head + k.owed stmts + k.owed addition ≤ minCount k.text d := by
  refine .bind (yields_indentedBody hpr p hstmts) fun b hb => ?_
  refine .bind (yields_clauseBelow hpr p haddition) fun a ha => .pure ?_
  simp
  omega

@[simp] theorem keeps_whenClause : k.Keeps ["when"] whenClause := by
  refine keeps_of_children (by decide) fun pr p hpr hp hfits htag => ?_
  unfold whenClause
  split
  · next args stmts addition hbody =>
      rw [hbody] at hfits ⊢
      refine .bind (yields_argumentList hpr p (hfits args (by simp))) fun ds hds => ?_
      refine (yields_caseClause hpr p _ (hfits stmts (by simp)) (hfits addition (by simp))).mono ?_
      intro d hd
      have hitems := minCountAll_le_commaItems (k := k) ds
      have hhead := minCount_le_keywordPredicate (k := k) "when" (.filled (commaItems ds))
      simp only [minCount_filled, owedAll_cons, owedAll_nil] at hhead ⊢
      omega
  · exact .throw _

@[simp] theorem keeps_inClause : k.Keeps ["in"] inClause := by
  refine keeps_of_children (by decide) fun pr p hpr hp hfits htag => ?_
  unfold inClause
  split
  · next pattern stmts addition hbody =>
      rw [hbody] at hfits ⊢
      refine .bind (hpr.print p (hfits pattern (by simp))) fun q hq => ?_
      refine (yields_caseClause hpr p _ (hfits stmts (by simp)) (hfits addition (by simp))).mono ?_
      intro d hd
      have hhead := minCount_le_keywordPredicate (k := k) "in" q
      simp only [owedAll_cons, owedAll_nil]
      omega
  · exact .throw _

/-! ## Patterns -/

@[simp] theorem keeps_arrayPattern : k.Keeps ["aryptn"] arrayPattern := by
  refine keeps_of_children (by decide) fun pr p hpr hp hfits htag => ?_
  unfold arrayPattern
  split
  · next constant items hbody =>
      rw [hbody] at hfits ⊢
      refine .bind (hpr.printAll p fun v hv => hfits v (List.mem_cons_of_mem _ hv)) fun ds hds => ?_
      have hlisted := minCountAll_le_listed (x := k.text) ds
      split
      · refine .bind (hpr.print p (hfits constant List.mem_cons_self)) fun c hc => .pure ?_
        simp
        omega
      · next hconstant =>
          have hnull : constant = .null := Value.isNull_iff.mp (by simpa using hconstant)
          split <;> refine .pure ?_ <;> simp [hnull] <;> omega
  · exact .throw _

theorem yields_patternPair (hpr : k.Sound pr) (p : Place) {v : Value} (hv : v.Conforms) :
    Yields (patternPair pr p v) fun d => k.owed v ≤ minCount k.text d := by
  unfold patternPair
  split
  · exact hpr.print p hv
  · next hnode =>
      refine .liftBind fun ⟨key, value⟩ hparts => ?_
      obtain ⟨howed, hkey, hvalue⟩ := owed_pairParts (k := k) hv (by simpa using hnode) hparts
      rw [howed]
      refine .bind (hpr.print p hkey) fun d hd => ?_
      split
      · next hnull =>
          rw [Value.isNull_iff.mp hnull]
          exact .pure (by simpa using hd)
      · refine .bind (hpr.print p hvalue) fun e he => .pure ?_
        simp
        omega

@[simp] theorem keeps_hashPattern : k.Keeps ["hshptn"] hashPattern := by
  refine keeps_of_children (by decide) fun pr p hpr hp hfits htag => ?_
  have htag := List.mem_singleton.mp htag
  unfold hashPattern
  split
  · next constant pairs hbody =>
      have hnode : pairs.node? = none := by
        have : Grammar.Slot.items.admits pairs = true :=
          Node.admits_slot hp (i := 1) (by rw [htag]; rfl) (by rw [hbody]; rfl)
        simpa [Grammar.Slot.admits] using this
      rw [hbody] at hfits ⊢
      have hconstant : constant.Conforms := hfits constant (by simp)
      refine .liftBind fun vs hvs => ?_
      obtain ⟨hsum, hin⟩ := owedAll_elements (k := k) (hfits pairs (by simp)) hnode hvs
      simp only [owedAll_cons, owedAll_nil, ← hsum]
      split
      · split
        · next hnull =>
            rw [Value.isNull_iff.mp hnull]
            exact .pure (Nat.zero_le _)
        · refine .bind (hpr.print p hconstant) fun c hc => .pure ?_
          simp
          omega
      · refine .bind (yields_mapM _ fun v hv => yields_patternPair hpr p (hin v hv)) ?_
        intro ds hds
        have hlisted := minCountAll_le_listed (x := k.text) ds
        split
        · refine .bind (hpr.print p hconstant) fun c hc => .pure ?_
          simp
          omega
        · next hnull =>
            have hnull : constant = .null := Value.isNull_iff.mp (by simpa using hnull)
            split <;> refine .pure ?_ <;> simp [hnull] <;> omega
  · exact .throw _

@[simp] theorem keeps_rightAssign : k.Keeps ["rassign"] rightAssign := by
  refine keeps_of_children (by decide) fun pr p hpr hp hfits htag => ?_
  have htag := List.mem_singleton.mp htag
  unfold rightAssign
  split
  · next value operator pattern hbody =>
      rw [hbody] at hfits ⊢
      have hoperator : k.owed operator = 0 :=
        owed_of_mark hp 1 (by rw [htag]; rfl) (by rw [hbody]; rfl)
      refine .bind (hpr.print p (hfits value (by simp))) fun v hv => ?_
      refine .bind (hpr.print p (hfits pattern (by simp))) fun q hq => .pure ?_
      simp [hoperator]
      omega
  · exact .throw _

end Rules

end RubyPretty
