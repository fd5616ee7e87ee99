import RubyPretty.Proofs.Rules.Expressions
/-!
# Statements and bodies are kept

A statement list answers for the comments of its statements, and its rule for its own comments too.
-/

namespace RubyPretty

open Doc Keep

namespace Rules

variable {k : Keep} {pr : Printer}

/-! ## Empty lists -/

theorem ownOf_of_isPlainVoid {v : Value} (h : Shape.isPlainVoid v = true) : k.ownOf v = 0 := by
  cases v with
  | node n =>
      simp only [Shape.isPlainVoid, Node.hasComments, Bool.and_eq_true, Bool.not_not,
        List.isEmpty_iff] at h
      have := own_le (k := k) n
      rw [h.2, notes_nil] at this
      exact Nat.le_zero.mp this
  | _ => rfl

theorem owed_void {n : Tree} (hn : Value.Conforms (.node n)) (htag : n.tag = "void_stmt") :
    k.owed (.node n) = 0 :=
  owed_of_body_nil (Node.body_eq_nil hn.isShaped (by rw [htag]; decide)) (by rw [htag]; decide)

theorem owed_of_isPlainVoid {v : Value} (hv : v.Conforms) (h : Shape.isPlainVoid v = true) :
    k.owed v = 0 := by
  cases v with
  | node n =>
      simp only [Shape.isPlainVoid, Bool.and_eq_true, beq_iff_eq] at h
      exact owed_void hv h.1
  | _ => cases h

theorem isToken_stmts {n : Tree} (h : n.tag = "stmts") : n.isToken = false := by
  rw [Node.isToken, h]
  decide

theorem owed_stmts {n : Tree} (htag : n.tag = "stmts") :
    k.owed (.node n) =
      (if n.body = [] then k.notes n.comments else (n.body.map k.ownOf).sum) +
        k.owedAll n.body := by
  have htoken := isToken_stmts htag
  rw [owed_node, here, name_eq_zero (nameTags_of_not_token htoken), if_pos htag, htoken,
    lost_eq_zero (by rw [htag]; decide)]
  simp

theorem owed_of_isEmptyStatements {v : Value} (hv : v.Conforms)
    (h : Shape.isEmptyStatements v = .ok true) : k.owed v = 0 := by
  cases v with
  | node n =>
      have h := Except.ok.inj h
      simp only [Node.hasComments, Bool.and_eq_true, beq_iff_eq, Bool.not_not, List.isEmpty_iff,
        List.all_eq_true] at h
      obtain ⟨⟨htag, hcomments⟩, hvoid⟩ := h
      have hfits : ∀ w ∈ n.body, w.Conforms := fun w hw =>
        conforms_of_mem hv (isToken_stmts htag) hw
      have hown : (n.body.map k.ownOf).sum = 0 :=
        List.sum_eq_zero_iff_forall_eq_nat.mpr fun m hm => by
          obtain ⟨w, hw, rfl⟩ := List.mem_map.mp hm
          exact ownOf_of_isPlainVoid (hvoid w hw)
      have howed : k.owedAll n.body = 0 :=
        owedAll_eq_zero fun w hw => owed_of_isPlainVoid (hfits w hw) (hvoid w hw)
      rw [owed_stmts htag, hown, howed, hcomments, notes_nil]
      split <;> rfl
  | _ => cases h

/-! ## Statements -/

theorem yields_statement (hpr : k.Sound pr) (p : Place) {n : Tree} (hn : Value.Conforms (.node n)) :
    Yields (statement pr p n) fun d => k.due n ≤ minCount k.text d := by
  unfold statement
  split
  · next htag =>
      refine .pure ?_
      have hown := own_le (k := k) n
      have honly := notes_le_only (k := k) n.comments
      rw [due, owed_void hn htag]
      omega
  · exact hpr.printNode p hn

def dueAll (k : Keep) (ns : List Tree) : Nat := (ns.map k.due).sum

theorem yields_statementsAfter (hpr : k.Sound pr) (p : Place) (previous : Tree) (ns : List Tree)
    (hns : ∀ n ∈ ns, Value.Conforms (.node n)) :
    Yields (statementsAfter pr p previous ns) fun ds => dueAll k ns ≤ minCountAll k.text ds := by
  induction ns generalizing previous with
  | nil => exact .pure (Nat.le_refl _)
  | cons n ns ih =>
      refine .bind (yields_statement hpr p (hns n List.mem_cons_self)) fun d hd => ?_
      refine .liftBind fun between _ => ?_
      refine .bind (ih n fun m hm => hns m (List.mem_cons_of_mem n hm)) fun ds hds => .pure ?_
      simp only [dueAll, List.map_cons, List.sum_cons, minCountAll_append, minCountAll_cons]
        at hds ⊢
      omega

theorem dueAll_filter (ns : List Tree) (hns : ∀ n ∈ ns, Value.Conforms (.node n)) :
    dueAll k (ns.filter fun n => n.tag != "void_stmt" || n.hasComments) = dueAll k ns := by
  induction ns with
  | nil => rfl
  | cons n ns ih =>
      have ih := ih fun m hm => hns m (List.mem_cons_of_mem n hm)
      cases hkeep : n.tag != "void_stmt" || n.hasComments with
      | true =>
          rw [List.filter_cons_of_pos (by simpa using hkeep)]
          simp only [dueAll, List.map_cons, List.sum_cons] at ih ⊢
          rw [ih]
      | false =>
          rw [List.filter_cons_of_neg (by simp [hkeep]), ih]
          simp only [Bool.or_eq_false_iff, bne_eq_false_iff_eq, Node.hasComments,
            Bool.not_eq_false', List.isEmpty_iff] at hkeep
          have hown := own_le (k := k) n
          rw [hkeep.2, notes_nil] at hown
          have hzero : k.due n = 0 := by
            rw [due, owed_void (hns n List.mem_cons_self) hkeep.1]
            omega
          simp [dueAll, hzero]

theorem dueAll_void (ns : List Tree) (hns : ∀ n ∈ ns, Value.Conforms (.node n))
    (hvoid : ∀ n ∈ ns, n.tag = "void_stmt") : dueAll k ns ≤ k.notes (ns.flatMap (·.comments)) := by
  rw [notes_flatMap]
  induction ns with
  | nil => exact Nat.le_refl _
  | cons n ns ih =>
      have ih := ih (fun m hm => hns m (List.mem_cons_of_mem n hm))
        fun m hm => hvoid m (List.mem_cons_of_mem n hm)
      have hown := own_le (k := k) n
      have howed := owed_void (k := k) (hns n List.mem_cons_self) (hvoid n List.mem_cons_self)
      simp only [dueAll, List.map_cons, List.sum_cons, due, howed] at ih ⊢
      omega

/-- A statement list owes what is due of its statements, and its own comments. -/
theorem due_stmts {n : Tree} {ns : List Tree} (htag : n.tag = "stmts")
    (hbody : n.body = ns.map .node) : k.due n = dueAll k ns + k.notes n.comments := by
  have hsum : (n.body.map k.ownOf).sum + k.owedAll n.body = dueAll k ns := by
    rw [hbody]
    clear hbody
    induction ns with
    | nil => rfl
    | cons m ns ih =>
        simp only [List.map_cons, List.sum_cons, owedAll_cons, dueAll, due, ownOf] at ih ⊢
        omega
  rw [due, owed_stmts htag, own]
  by_cases hnil : n.body = []
  · rw [if_pos hnil, if_pos ⟨htag, hnil⟩]
    rw [hnil] at hsum ⊢
    simp only [List.map_nil, List.sum_nil, owedAll_nil] at hsum ⊢
    omega
  · rw [if_neg hnil, if_neg fun h => hnil h.2]
    omega

theorem yields_stmts (hpr : k.Sound pr) (p : Place) (hp : Value.Conforms (.node p.node))
    (htag : p.node.tag = "stmts") :
    Yields (stmts pr p) fun d => k.due p.node ≤ minCount k.text d := by
  refine .liftBind fun ns hns => ?_
  have hbody := Node.body_of_bodyNodes hns
  have hfits : ∀ n ∈ ns, Value.Conforms (.node n) := fun n hn =>
    conforms_of_mem hp (isToken_stmts htag) (by rw [hbody]; exact List.mem_map_of_mem hn)
  -- the placeholders that are left out owe nothing
  rw [due_stmts htag hbody, ← dueAll_filter ns hfits]
  have hkept : ∀ n ∈ ns.filter (fun n => n.tag != "void_stmt" || n.hasComments),
      Value.Conforms (.node n) :=
    fun n hn => hfits n (List.mem_of_mem_filter hn)
  revert hkept
  generalize ns.filter (fun n => n.tag != "void_stmt" || n.hasComments) = kept
  intro hkept
  simp only
  split
  · next hall =>
      have hvoid := dueAll_void (k := k) kept hkept (by simpa using hall)
      have hnotes := notes_append (k := k) p.node.comments (kept.flatMap (·.comments))
      split
      · next hnil =>
          rw [hnil, notes_nil] at hnotes
          exact .pure (by omega)
      · refine .pure (Nat.le_trans ?_ (notes_le_only _))
        omega
  · split
    · next hall => exact absurd rfl hall
    · next first rest hall =>
        have hsplit : dueAll k (first :: rest) = k.due first + dueAll k rest := rfl
        refine .bind (P := fun d => k.due first ≤ minCount k.text d) ?_ fun d hd => ?_
        · refine .bind (yields_statement hpr p (hkept first List.mem_cons_self)) fun d hd => ?_
          exact .liftBind fun _ _ => .pure hd
        · refine .bind (yields_statementsAfter hpr p first rest
            fun m hm => hkept m (List.mem_cons_of_mem first hm)) fun ds hds => ?_
          refine .lift fun e he => ?_
          have := minCount_splice (k := k) he
          simp only [minCount_cat, minCountAll_cons] at this
          omega

/-! ## Bodies -/

@[simp] theorem keeps_program : k.Keeps ["program"] program :=
  keeps_wrapped (by decide) fun d => by simp

theorem keeps_childless {tags : List String}
    (htags : tags.all (fun t => isPlainProduction t && Grammar.arity? t == some 0) = true)
    (rule : DocRule) : k.Keeps tags rule := by
  simp only [List.all_eq_true, Bool.and_eq_true, beq_iff_eq] at htags
  refine keeps_of_children (List.all_eq_true.mpr fun t ht => (htags t ht).1) ?_
  intro pr p hpr hp hfits htag
  rw [Node.body_eq_nil hp (htags _ htag).2]
  exact fun _ _ _ _ => Nat.zero_le _

theorem yields_indentedBody (hpr : k.Sound pr) (p : Place) {v : Value} (hv : v.Conforms) :
    Yields (indentedBody pr p v) fun d => k.owed v ≤ minCount k.text d := by
  refine .liftBind fun isEmpty hempty => ?_
  split
  · next h =>
      rw [owed_of_isEmptyStatements hv (h ▸ hempty)]
      exact .pure (Nat.zero_le _)
  · exact .bind (hpr.print p hv) fun d hd => .pure (by simpa [hardline] using hd)

theorem yields_clauseBelow (hpr : k.Sound pr) (p : Place) {v : Value} (hv : v.Conforms) :
    Yields (clauseBelow pr p v) fun ds => k.owed v ≤ minCountAll k.text ds := by
  unfold clauseBelow
  split
  · next hnull =>
      rw [Value.isNull_iff.mp hnull]
      exact .pure (Nat.zero_le _)
  · exact .bind (hpr.print p hv) fun d hd => .pure (by simpa [hardline] using hd)

theorem yields_elseBelow (hpr : k.Sound pr) (p : Place) {v : Value} (hv : v.Conforms) :
    Yields (elseBelow pr p v) fun ds => k.owed v ≤ minCountAll k.text ds := by
  unfold elseBelow
  split
  · next hnull =>
      rw [Value.isNull_iff.mp hnull]
      exact .pure (Nat.zero_le _)
  · refine .liftBind fun n _ => ?_
    split
    · exact yields_clauseBelow hpr p hv
    · refine .bind (yields_indentedBody hpr p hv) fun d hd => .pure ?_
      simp
      omega

@[simp] theorem keeps_bodystmt : k.Keeps ["bodystmt"] bodystmt := by
  refine keeps_of_children (by decide) fun pr p hpr hp hfits htag => ?_
  unfold bodystmt
  split
  · next stmts rescue elseClause ensure hbody =>
      rw [hbody] at hfits ⊢
      refine .bind (yields_indentedBody hpr p (hfits stmts (by simp))) fun s hs => ?_
      refine .bind (yields_clauseBelow hpr p (hfits rescue (by simp))) fun r hr => ?_
      refine .bind (yields_elseBelow hpr p (hfits elseClause (by simp))) fun e he => ?_
      refine .bind (yields_clauseBelow hpr p (hfits ensure (by simp))) fun n hn => .pure ?_
      simp
      omega
  · exact .throw _

@[simp] theorem keeps_paren : k.Keeps ["paren"] paren := by
  refine keeps_of_child (by decide) fun pr p v hpr _ _ hbody hv => ?_
  refine .firstChild hbody ?_
  split
  · exact .pure (Nat.zero_le _)
  · refine .liftBind fun n _ => ?_
    split
    · refine .bind (yields_argumentList hpr p hv) fun ds hds => .pure ?_
      have hlisted := minCountAll_le_listed (x := k.text) ds
      have henclosed := minCountAll_le_enclosed (x := k.text) "(" [.listed ds] ")"
      simp at henclosed ⊢
      omega
    · refine .bind (hpr.print p hv) fun d hd => .pure ?_
      have henclosed := minCountAll_le_enclosed (x := k.text) "(" [d] ")"
      simp at henclosed ⊢
      omega

@[simp] theorem keeps_beginBlock : k.Keeps ["begin"] beginBlock :=
  keeps_wrapped (by decide) fun d => by simp; omega

@[simp] theorem keeps_hook (name : String) {tags : List String} (htags : tags ⊆ ["BEGIN", "END"]) :
    k.Keeps tags (hook name) :=
  keeps_subset (keeps_wrapped (by decide) fun d => by simp; omega) htags

/-! ## Rescue -/

@[simp] theorem keeps_rescue : k.Keeps ["rescue"] rescue := by
  refine keeps_of_children (by decide) fun pr p hpr hp hfits htag => ?_
  unfold rescue
  split
  · next exceptions stmts next hbody =>
      rw [hbody] at hfits ⊢
      have hrest : ∀ e, k.owed exceptions ≤ minCount k.text e →
          Yields (do
            let body ← indentedBody pr p stmts
            return .grouped (Doc.text "rescue" :: e :: body :: (← clauseBelow pr p next)))
            fun d => k.owedAll [exceptions, stmts, next] ≤ minCount k.text d := by
        intro e he
        refine .bind (yields_indentedBody hpr p (hfits stmts (by simp))) fun b hb => ?_
        refine .bind (yields_clauseBelow hpr p (hfits next (by simp))) fun n hn => .pure ?_
        simp
        omega
      split
      · next hnull =>
          refine .pureBind (hrest _ ?_)
          rw [Value.isNull_iff.mp hnull]
          exact Nat.zero_le _
      · refine .bind (hpr.print p (hfits exceptions (by simp))) fun e he => .pureBind (hrest _ ?_)
        simpa using he
  · exact .throw _

theorem minCountAll_le_exceptionList (ds : List Doc) :
    minCountAll k.text ds ≤ minCount k.text (exceptionList ds) := by
  have := minCountAll_le_listed (x := k.text) ds
  simp [exceptionList]
  omega

theorem yields_exceptions (hpr : k.Sound pr) (p : Place) {v : Value} (hv : v.Conforms) :
    Yields (exceptions pr p v) fun d => k.owed v ≤ minCount k.text d := by
  unfold exceptions
  split
  · exact .pure (Nat.zero_le _)
  · exact .pure (by simp)
  · next vs _ =>
      refine .bind (hpr.printAll p fun w hw => conforms_of_mem_list hv hw) fun ds hds => .pure ?_
      rw [owed_list]
      exact Nat.le_trans hds (minCountAll_le_exceptionList ds)
  · refine .liftBind fun n _ => ?_
    split
    · exact .bind (yields_argumentList hpr p hv) fun ds hds =>
        .pure (Nat.le_trans hds (minCountAll_le_exceptionList ds))
    · exact .bind (hpr.print p hv) fun d hd => .pure (by simp; omega)

@[simp] theorem keeps_rescueExceptions : k.Keeps ["rescue_ex"] rescueExceptions := by
  refine keeps_of_children (by decide) fun pr p hpr hp hfits htag => ?_
  unfold rescueExceptions
  split
  · next list name hbody =>
      rw [hbody] at hfits ⊢
      refine .bind (yields_exceptions hpr p (hfits list (by simp))) fun l hl => ?_
      split
      · next hnull =>
          rw [Value.isNull_iff.mp hnull]
          exact .pure (by simpa using hl)
      · refine .bind (hpr.print p (hfits name (by simp))) fun n hn => .pure ?_
        simp
        omega
  · exact .throw _

@[simp] theorem keeps_ensure : k.Keeps ["ensure"] ensure := by
  refine keeps_of_child (by decide) fun pr p v hpr _ _ hbody hv => ?_
  refine .firstChild hbody (.bind (yields_indentedBody hpr p hv) fun d hd => .pure ?_)
  simp
  omega

@[simp] theorem keeps_rescueModifier : k.Keeps ["rescue_mod"] rescueModifier := by
  refine keeps_of_children (by decide) fun pr p hpr hp hfits htag => ?_
  unfold rescueModifier
  split
  · next statement value hbody =>
      rw [hbody] at hfits ⊢
      refine .bind (hpr.print p (hfits statement (by simp))) fun s hs => ?_
      refine .bind (hpr.print p (hfits value (by simp))) fun v hv => .pure ?_
      simp
      omega
  · exact .throw _

end Rules

end RubyPretty
