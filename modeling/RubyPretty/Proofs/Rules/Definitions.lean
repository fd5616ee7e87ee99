import RubyPretty.Proofs.Rules.Statements
/-!
# Parameters and definitions are kept
-/

namespace RubyPretty

open Doc Keep

namespace Rules

variable {k : Keep} {pr : Printer}

/-! ## Parameters -/

theorem owed_pairParts {v a b : Value} (hv : v.Conforms) (hnode : v.node? = none)
    (h : pairParts v = .ok (a, b)) : k.owed v = k.owed a + k.owed b ∧ a.Conforms ∧ b.Conforms := by
  unfold pairParts at h
  rw [Except.bind_eq_ok] at h
  obtain ⟨vs, hvs, h⟩ := h
  split at h
  · cases h
    obtain ⟨hsum, hfits⟩ := owedAll_elements (k := k) hv hnode hvs
    exact ⟨by simpa using hsum.symm, hfits a (by simp), hfits b (by simp)⟩
  · cases h

theorem yields_optionalParam (hpr : k.Sound pr) (p : Place) {v : Value} (hv : v.Conforms)
    (hnode : v.node? = none) :
    Yields (optionalParam pr p v) fun d => k.owed v ≤ minCount k.text d := by
  refine .liftBind fun ⟨name, value⟩ hparts => ?_
  obtain ⟨howed, hname, hvalue⟩ := owed_pairParts (k := k) hv hnode hparts
  rw [howed]
  refine .bind (hpr.print p hname) fun n hn => .bind (hpr.print p hvalue) fun d hd => .pure ?_
  simp
  omega

theorem yields_keywordParam (hpr : k.Sound pr) (p : Place) {v : Value} (hv : v.Conforms)
    (hnode : v.node? = none) :
    Yields (keywordParam pr p v) fun d => k.owed v ≤ minCount k.text d := by
  refine .liftBind fun ⟨label, value⟩ hparts => ?_
  obtain ⟨howed, hlabel, hvalue⟩ := owed_pairParts (k := k) hv hnode hparts
  rw [howed]
  simp only
  split
  · next hnull =>
      rw [Value.isNull_iff.mp hnull]
      exact hpr.print p hlabel
  · refine .bind (hpr.print p hlabel) fun l hl => .bind (hpr.print p hvalue) fun d hd => .pure ?_
    simp
    omega

theorem yields_restParams (hpr : k.Sound pr) (p : Place) {v : Value} (hv : v.Conforms) :
    Yields (restParams pr p v) fun ds => k.owed v ≤ minCountAll k.text ds := by
  unfold restParams
  split
  · next hnull =>
      rw [Value.isNull_iff.mp hnull]
      exact .pure (Nat.zero_le _)
  · refine .liftBind fun n hn => ?_
    obtain rfl := Value.asNode_eq_ok.mp hn
    split
    · next htag =>
        rw [owed_of_body_nil (Node.body_eq_nil hv.isShaped (by rw [htag]; decide))
          (by rw [htag]; decide)]
        exact .pure (Nat.zero_le _)
    · exact .bind (hpr.print p hv) fun d hd => .pure (by simpa using hd)

theorem yields_keywordRest (hpr : k.Sound pr) (p : Place) {v : Value} (hv : v.Conforms) :
    Yields (keywordRest pr p v) fun ds => k.owed v ≤ minCountAll k.text ds := by
  unfold keywordRest
  split
  · exact .pure (Nat.zero_le _)
  · exact .pure (Nat.zero_le _)
  · exact .bind (hpr.print p hv) fun d hd => .pure (by simpa using hd)

theorem yields_blockParam (hpr : k.Sound pr) (p : Place) {v : Value} (hv : v.Conforms) :
    Yields (blockParam pr p v) fun ds => k.owed v ≤ minCountAll k.text ds := by
  unfold blockParam
  split
  · next hnull =>
      rw [Value.isNull_iff.mp hnull]
      exact .pure (Nat.zero_le _)
  · exact .bind (hpr.print p hv) fun d hd => .pure (by simpa using hd)

theorem node?_of_items {v : Value} (h : Grammar.Slot.items.admits v = true) : v.node? = none := by
  simpa [Grammar.Slot.admits] using h

theorem node?_of_pairs {v : Value} (h : Grammar.Slot.pairs.admits v = true) :
    v.node? = none ∧ ∀ vs, v.asElements = .ok vs → ∀ w ∈ vs, w.node? = none := by
  cases v with
  | list vs =>
      refine ⟨rfl, fun ws hws w hw => ?_⟩
      obtain rfl : vs = ws := Except.ok.inj hws
      simpa using List.all_eq_true.mp h w hw
  | text s =>
      refine ⟨rfl, fun ws hws w hw => ?_⟩
      obtain rfl := Except.ok.inj hws
      obtain ⟨c, -, rfl⟩ := List.mem_map.mp hw
      rfl
  | node n => cases h
  | _ => exact ⟨rfl, fun ws hws => by cases hws⟩

theorem yields_pairs {g : Value → PrintM Doc} {v : Value} (hv : v.Conforms)
    (hslot : Grammar.Slot.pairs.admits v = true)
    (hg : ∀ w, w.Conforms → w.node? = none → Yields (g w) fun d => k.owed w ≤ minCount k.text d) :
    Yields (do (← liftM v.asOptionalElements).mapM g : PrintM (List Doc))
      fun ds => k.owed v ≤ minCountAll k.text ds := by
  obtain ⟨hnode, hpairs⟩ := node?_of_pairs hslot
  refine .liftBind fun vs hvs => ?_
  obtain ⟨hsum, hfits⟩ := owedAll_optionalElements (k := k) hv hnode hvs
  have hin : ∀ w ∈ vs, w.node? = none := by
    unfold Value.asOptionalElements at hvs
    split at hvs
    · exact hpairs vs hvs
    · cases hvs
      simp
  rw [← hsum]
  exact yields_mapM vs fun w hw => hg w (hfits w hw) (hin w hw)

theorem yields_plainParams (hpr : k.Sound pr) (p : Place) {v : Value} (hv : v.Conforms)
    (hslot : Grammar.Slot.items.admits v = true) :
    Yields (do pr.printAll p (← liftM v.asOptionalElements))
      fun ds => k.owed v ≤ minCountAll k.text ds := by
  refine .liftBind fun vs hvs => ?_
  obtain ⟨hsum, hfits⟩ := owedAll_optionalElements (k := k) hv (node?_of_items hslot) hvs
  rw [← hsum]
  exact hpr.printAll p hfits

@[simp] theorem keeps_params : k.Keeps ["params"] params := by
  refine keeps_of_children (by decide) fun pr p hpr hp hfits htag => ?_
  have htag := List.mem_singleton.mp htag
  unfold params
  split
  · next required optional rest posts keywords keywordsRest block hbody =>
      have hslot : ∀ (i : Nat) (slot : Grammar.Slot) (v : Value),
          (Grammar.slotsOf "params")[i]? = some slot →
          [required, optional, rest, posts, keywords, keywordsRest, block][i]? = some v →
          slot.admits v = true :=
        fun i slot v hs hv => Node.admits_slot hp (htag ▸ hs) (hbody ▸ hv)
      rw [hbody] at hfits ⊢
      refine .bindBoth (yields_plainParams hpr p (hfits required (by simp))
        (hslot 0 .items required rfl rfl)) fun r hr => ?_
      refine .bindBoth (yields_pairs (hfits optional (by simp)) (hslot 1 .pairs optional rfl rfl)
        fun w hw hn => yields_optionalParam hpr p hw hn) fun o ho => ?_
      refine .bind (yields_restParams hpr p (hfits rest (by simp))) fun s hs => ?_
      refine .bindBoth (yields_plainParams hpr p (hfits posts (by simp))
        (hslot 3 .items posts rfl rfl)) fun q hq => ?_
      refine .bindBoth (yields_pairs (hfits keywords (by simp)) (hslot 4 .pairs keywords rfl rfl)
        fun w hw hn => yields_keywordParam hpr p hw hn) fun w hw => ?_
      refine .bind (yields_keywordRest hpr p (hfits keywordsRest (by simp))) fun x hx => ?_
      refine .bind (yields_blockParam hpr p (hfits block (by simp))) fun b hb => .pure ?_
      have := minCountAll_le_listed (x := k.text) (r ++ o ++ s ++ q ++ w ++ x ++ b)
      simp only [minCountAll_append] at this
      simp only [owedAll_cons, owedAll_nil, minCount_grouped, minCountAll_cons]
      omega
  · exact .throw _

@[simp] theorem keeps_restParam : k.Keeps ["rest_param"] restParam :=
  keeps_wrapped (by decide) fun d => by simp

@[simp] theorem keeps_keywordRestParam : k.Keeps ["kwrest_param"] keywordRestParam :=
  keeps_wrapped (by decide) fun d => by simp

theorem params_slot (i : Nat) (hi : i < 7) :
    ∃ slot ∈ [Grammar.Slot.items, .pairs, .inner], (Grammar.slotsOf "params")[i]? = some slot := by
  revert i
  decide

theorem tag?_ne_stmts {slot : Grammar.Slot} {v : Value}
    (hslot : slot ∈ [Grammar.Slot.items, .pairs, .inner]) (h : slot.admits v = true) :
    v.tag? ≠ some "stmts" := by
  simp only [List.mem_cons, List.not_mem_nil, or_false] at hslot
  rcases hslot with rfl | rfl | rfl
  · simp [Value.tag?, node?_of_items h]
  · simp [Value.tag?, (node?_of_pairs h).1]
  · simpa [Grammar.Slot.admits] using h

theorem owed_absentParam {n : Tree} (hn : Value.Conforms (.node n)) (htag : n.tag = "params")
    {v : Value} (hv : v ∈ n.body) (h : v.truth = false) : k.owed v = 0 := by
  obtain ⟨i, hi⟩ := List.mem_iff_getElem?.mp hv
  have hlength := Node.length_body hn.isShaped (m := 7) (by rw [htag]; decide)
  obtain ⟨slot, hmem, hslot⟩ := params_slot i (hlength ▸ (List.getElem?_eq_some_iff.mp hi).1)
  exact owed_of_not_truth h (tag?_ne_stmts hmem (Node.admits_slot hn.isShaped (htag ▸ hslot) hi))

theorem owed_params {n : Tree} (hn : Value.Conforms (.node n)) (htag : n.tag = "params")
    (h : n.body.all (!·.truth) = true) : k.owed (.node n) = 0 := by
  rw [owed_production (by rw [htag]; decide)]
  refine owedAll_eq_zero fun v hv => ?_
  exact owed_absentParam hn htag hv (by simpa using List.all_eq_true.mp h v hv)

theorem owed_of_isEmptyParams {v : Value} (hv : v.Conforms) (hparams : Grammar.isParams v = true)
    (h : Shape.isEmptyParams v = .ok true) : k.owed v = 0 := by
  cases v with
  | null => rfl
  | node n =>
      have htag : n.tag = "params" := by
        simpa [Grammar.isParams, Value.isNull, Value.tag?, Value.node?] using hparams
      have hne : n.tag ≠ "paren" := by rw [htag]; decide
      refine owed_params hv htag ?_
      simp only [Shape.isEmptyParams, if_pos hne] at h
      exact Except.ok.inj h
  | _ => cases h

theorem yields_parameterList (hpr : k.Sound pr) (p : Place) {n : Tree}
    (hn : Value.Conforms (.node n)) (hslot : Grammar.Slot.parameters.admits (.node n) = true) :
    Yields (parameterList pr p n) fun d => k.owed (.node n) ≤ minCount k.text d := by
  have hrest : ∀ (place : Place) (inner : Value), inner.Conforms → Grammar.isParams inner = true →
      k.owed (.node n) = k.owed inner →
      Yields (do
        if ← liftM (Shape.isEmptyParams inner) then return .empty
        return .enclosed "(" [← pr.print place inner] ")")
        fun d => k.owed (.node n) ≤ minCount k.text d := by
    intro place inner hinner hparams howed
    rw [howed]
    refine .liftBind fun isEmpty hempty => ?_
    split
    · next h =>
        rw [owed_of_isEmptyParams hinner hparams (h ▸ hempty)]
        exact .pure (Nat.zero_le _)
    · refine .bind (hpr.print place hinner) fun d hd => .pure ?_
      have := minCountAll_le_enclosed (x := k.text) "(" [d] ")"
      simp at this
      omega
  unfold parameterList
  split
  · next htag =>
      obtain ⟨v, hbody, hv, howed⟩ := owed_only (k := k) hn (by rw [htag]; decide)
        (by rw [htag]; decide)
      refine .firstChild hbody (.pureBind (hrest _ v hv ?_ howed))
      simpa [Grammar.Slot.admits, Grammar.isParams, Value.isNull, Value.tag?, Value.node?, htag,
        hbody] using hslot
  · next htag =>
      refine .pureBind (hrest p (.node n) hn ?_ rfl)
      simpa [Grammar.Slot.admits, Value.node?, htag] using hslot

/-! ## Definitions -/

theorem owed_of_isBareBody {n : Tree} (hn : Value.Conforms (.node n)) (htag : n.tag = "bodystmt")
    (h : isBareBody n = .ok true) : k.owed (.node n) = 0 := by
  obtain ⟨howed, hfits⟩ := owed_children (k := k) hn (by rw [htag]; decide)
  unfold isBareBody Shape.isEmptyBody at h
  rw [Except.bind_eq_ok] at h
  obtain ⟨isEmpty, hempty, h⟩ := h
  split at hempty
  · next stmts rescue elseClause ensure hbody =>
      rw [Except.bind_eq_ok] at hempty
      obtain ⟨noStatements, hstatements, hempty⟩ := hempty
      split at h
      · next htrue =>
          rw [htrue] at hempty
          have hempty := Except.ok.inj hempty
          simp only [Bool.and_eq_true, Value.isNull_iff] at hempty
          obtain ⟨⟨⟨rfl, rfl⟩, rfl⟩, rfl⟩ := hempty
          rw [howed, hbody]
          simp [owed_of_isEmptyStatements (hfits stmts (by rw [hbody]; simp)) hstatements]
      · cases h
  · cases hempty

/-- What a body comes to: none of it counts if it is left out. -/
def bodyKept (k : Keep) (body : Value) : Option Doc → Prop
  | none => k.owed body = 0
  | some d => k.owed body ≤ minCount k.text d

theorem yields_definitionBody? (hpr : k.Sound pr) (p : Place) {v : Value} (hv : v.Conforms)
    (hslot : Grammar.Slot.body.admits v = true) :
    Yields (definitionBody? pr p v) (bodyKept k v) := by
  refine .liftBind fun n hn => .liftBind fun isBare hbare => ?_
  obtain rfl := Value.asNode_eq_ok.mp hn
  split
  · next h =>
      refine .pure (owed_of_isBareBody hv ?_ (h ▸ hbare))
      simpa [Grammar.Slot.body, Grammar.Slot.admits, Value.isNull, Value.tag?, Value.node?]
        using hslot
  · exact .bind (hpr.print p hv) fun d hd => .pure hd

theorem minCount_methodDoc {body : Value} (declaration : List Doc) (d : Option Doc)
    (h : bodyKept k body d) :
    minCountAll k.text declaration + k.owed body ≤ minCount k.text (methodDoc declaration d) := by
  cases d with
  | none =>
      have h : k.owed body = 0 := h
      simp [methodDoc, h]
  | some d =>
      have h : k.owed body ≤ minCount k.text d := h
      simp [methodDoc]
      omega

theorem minCount_scopeDoc {body : Value} (declaration : Doc) (d : Option Doc)
    (h : bodyKept k body d) :
    minCount k.text declaration + k.owed body ≤ minCount k.text (scopeDoc declaration d) := by
  cases d with
  | none =>
      have h : k.owed body = 0 := h
      simp [scopeDoc, h]
  | some d =>
      have h : k.owed body ≤ minCount k.text d := h
      simp [scopeDoc]
      omega

@[simp] theorem keeps_methodDefinition : k.Keeps ["def"] methodDefinition := by
  refine keeps_of_children (by decide) fun pr p hpr hp hfits htag => ?_
  have htag := List.mem_singleton.mp htag
  unfold methodDefinition
  split
  · next name params body hbody =>
      have hparams : Grammar.Slot.parameters.admits params = true :=
        Node.admits_slot hp (i := 1) (by rw [htag]; rfl) (by rw [hbody]; rfl)
      have hslot : Grammar.Slot.body.admits body = true :=
        Node.admits_slot hp (i := 2) (by rw [htag]; rfl) (by rw [hbody]; rfl)
      rw [hbody] at hfits ⊢
      refine .bind (hpr.print p (hfits name (by simp))) fun n hn => .liftBind fun q hq => ?_
      obtain rfl := Value.asNode_eq_ok.mp hq
      refine .bind (yields_parameterList hpr p (hfits _ (by simp)) hparams) fun d hd => ?_
      refine .bind (yields_definitionBody? hpr p (hfits body (by simp)) hslot) fun b hb => .pure ?_
      have := minCount_methodDoc ["def ", n, d] b hb
      simp at this ⊢
      omega
  · exact .throw _

@[simp] theorem keeps_singletonMethod : k.Keeps ["defs"] singletonMethod := by
  refine keeps_of_children (by decide) fun pr p hpr hp hfits htag => ?_
  have htag := List.mem_singleton.mp htag
  unfold singletonMethod
  split
  · next target operator name params body hbody =>
      have hoperator : k.owed operator = 0 :=
        owed_of_mark hp 1 (by rw [htag]; rfl) (by rw [hbody]; rfl)
      have hparams : Grammar.Slot.parameters.admits params = true :=
        Node.admits_slot hp (i := 3) (by rw [htag]; rfl) (by rw [hbody]; rfl)
      have hslot : Grammar.Slot.body.admits body = true :=
        Node.admits_slot hp (i := 4) (by rw [htag]; rfl) (by rw [hbody]; rfl)
      rw [hbody] at hfits ⊢
      refine .liftBind fun sign _ => ?_
      refine .bind (hpr.print p (hfits target (by simp))) fun t ht => ?_
      refine .bind (hpr.print p (hfits name (by simp))) fun n hn => .liftBind fun q hq => ?_
      obtain rfl := Value.asNode_eq_ok.mp hq
      refine .bind (yields_parameterList hpr p (hfits _ (by simp)) hparams) fun d hd => ?_
      refine .bind (yields_definitionBody? hpr p (hfits body (by simp)) hslot) fun b hb => ?_
      refine .liftBind fun o _ => .pure ?_
      have := minCount_methodDoc ["def ", t, o, n, d] b hb
      simp [hoperator] at this ⊢
      omega
  · exact .throw _

@[simp] theorem keeps_classDefinition : k.Keeps ["class"] classDefinition := by
  refine keeps_of_children (by decide) fun pr p hpr hp hfits htag => ?_
  have htag := List.mem_singleton.mp htag
  unfold classDefinition
  split
  · next constant superclass body hbody =>
      have hslot : Grammar.Slot.body.admits body = true :=
        Node.admits_slot hp (i := 2) (by rw [htag]; rfl) (by rw [hbody]; rfl)
      rw [hbody] at hfits ⊢
      refine .bind (hpr.print p (hfits constant (by simp))) fun c hc => ?_
      have hrest : ∀ s, k.owed superclass ≤ minCount k.text s → Yields
          (do return scopeDoc (.cat ["class ", c, s]) (← definitionBody? pr p body))
          fun d => k.owedAll [constant, superclass, body] ≤ minCount k.text d := by
        intro s hs
        refine .bind (yields_definitionBody? hpr p (hfits body (by simp)) hslot) ?_
        refine fun b hb => .pure ?_
        have := minCount_scopeDoc (.cat ["class ", c, s]) b hb
        simp at this ⊢
        omega
      split
      · next hnull =>
          refine .pureBind (hrest _ ?_)
          rw [Value.isNull_iff.mp hnull]
          exact Nat.zero_le _
      · refine .bind (hpr.print p (hfits superclass (by simp))) fun s hs => .pureBind (hrest _ ?_)
        simp
        omega
  · exact .throw _

theorem yields_scope (hpr : k.Sound pr) (p : Place) {head body : Value} (hhead : head.Conforms)
    (hbody : body.Conforms) (hslot : Grammar.Slot.body.admits body = true) (declare : Doc → Doc)
    (hdeclare : ∀ d, minCount k.text d ≤ minCount k.text (declare d)) :
    Yields (do
      let d ← pr.print p head
      return scopeDoc (declare d) (← definitionBody? pr p body))
      fun d => k.owedAll [head, body] ≤ minCount k.text d := by
  refine .bind (hpr.print p hhead) fun d hd => ?_
  refine .bind (yields_definitionBody? hpr p hbody hslot) fun b hb => .pure ?_
  have hscope := minCount_scopeDoc (declare d) b hb
  have := hdeclare d
  simp only [owedAll_cons, owedAll_nil]
  omega

@[simp] theorem keeps_moduleDefinition : k.Keeps ["module"] moduleDefinition := by
  refine keeps_of_children (by decide) fun pr p hpr hp hfits htag => ?_
  have htag := List.mem_singleton.mp htag
  unfold moduleDefinition
  split
  · next constant body hbody =>
      have hslot : Grammar.Slot.body.admits body = true :=
        Node.admits_slot hp (i := 1) (by rw [htag]; rfl) (by rw [hbody]; rfl)
      rw [hbody] at hfits ⊢
      exact yields_scope hpr p (hfits constant (by simp)) (hfits body (by simp)) hslot
        (fun d => .grouped ["module ", d]) fun d => by simp
  · exact .throw _

@[simp] theorem keeps_singletonClass : k.Keeps ["sclass"] singletonClass := by
  refine keeps_of_children (by decide) fun pr p hpr hp hfits htag => ?_
  have htag := List.mem_singleton.mp htag
  unfold singletonClass
  split
  · next target body hbody =>
      have hslot : Grammar.Slot.body.admits body = true :=
        Node.admits_slot hp (i := 1) (by rw [htag]; rfl) (by rw [hbody]; rfl)
      rw [hbody] at hfits ⊢
      exact yields_scope hpr p (hfits target (by simp)) (hfits body (by simp)) hslot
        (fun d => .cat ["class << ", d]) fun d => by simp
  · exact .throw _

/-! ## Aliases -/

theorem owed_symbolLiteral {n : Tree} (hn : Value.Conforms (.node n))
    (htag : n.tag = "symbol_literal") :
    ∃ v, n.body = [v] ∧ v.Conforms ∧ k.owed (.node n) = k.owed v :=
  owed_only hn (by rw [htag]; decide) (by rw [htag]; decide)

theorem yields_bareWord (hpr : k.Sound pr) (p : Place) {v : Value} (hv : v.Conforms) :
    Yields (bareWord pr p v) fun d => k.owed v ≤ minCount k.text d := by
  refine .liftBind fun n hn => ?_
  obtain rfl := Value.asNode_eq_ok.mp hn
  split
  · exact hpr.print p hv
  · next htag =>
      obtain ⟨w, hbody, hw, howed⟩ := owed_symbolLiteral (k := k) hv (by simpa using htag)
      rw [howed]
      refine .bind (hpr.printChild (p.below n) hbody hw) fun d hd => .lift fun e he => ?_
      have := minCount_splice (k := k) he
      omega

@[simp] theorem keeps_aliasName : k.Keeps ["alias", "var_alias"] aliasName := by
  refine keeps_of_children (by decide) fun pr p hpr hp hfits htag => ?_
  unfold aliasName
  split
  · next left right hbody =>
      rw [hbody] at hfits ⊢
      refine .liftBind fun n _ => ?_
      refine .bind (yields_bareWord hpr p (hfits left (by simp))) fun l hl => ?_
      refine .bind (yields_bareWord hpr p (hfits right (by simp))) fun r hr => .pure ?_
      simp
      omega
  · exact .throw _

@[simp] theorem keeps_undefNames : k.Keeps ["undef"] undefNames := by
  refine keeps_of_children (by decide) fun pr p hpr hp hfits htag => ?_
  refine .bind (yields_mapM _ fun v hv => yields_bareWord hpr p (hfits v hv)) fun ds hds => .pure ?_
  have := minCountAll_le_listed (x := k.text) ds
  simp
  omega

end Rules

end RubyPretty
