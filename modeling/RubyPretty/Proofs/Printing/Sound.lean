import RubyPretty.Proofs.Printing.Keeping
/-!
# Sound printers

What a sound printer yields for a child, for a list of them and for comments. The lemmas on printing
rules only use these.
-/

namespace RubyPretty

open Doc

namespace Keep

variable {k : Keep} {pr : Printer} {p : Place}

/-- All that is due of a node is counted in its document, and in the pieces of the chain that it
hands on. -/
def Covers (k : Keep) (n : Tree) (printed : Printed) : Prop :=
  k.due n ≤ minCount k.text printed.doc ∧
    ∀ link, printed.link = some link → k.due n ≤ minCountAll k.text link.fragments

structure Sound (k : Keep) (pr : Printer) : Prop where
  visit : ∀ p, Value.Conforms (.node p.node) → Yields (pr.visit p) (k.Covers p.node)
  /-- The parameter and the receiver of a block vanish with it in the `&:name` form. -/
  writesBlocks : k.names = true → pr.options.toProc = false
  ownComments : pr.ownComments = Registry.default.ownComments

/-! ## Children -/

theorem owed_children {n : Tree} (hn : Value.Conforms (.node n))
    (h : isPlainProduction n.tag = true) :
    k.owed (.node n) = k.owedAll n.body ∧ ∀ v ∈ n.body, v.Conforms := by
  refine ⟨owed_production h, fun v hv => conforms_of_mem hn ?_ hv⟩
  simp only [isPlainProduction, Bool.and_eq_true, Bool.not_eq_true'] at h
  exact h.1.1

theorem owed_only {n : Tree} (hn : Value.Conforms (.node n)) (h : isPlainProduction n.tag = true)
    (harity : Grammar.arity? n.tag = some 1) :
    ∃ v, n.body = [v] ∧ v.Conforms ∧ k.owed (.node n) = k.owed v := by
  obtain ⟨v, hbody⟩ := Node.exists_body_eq hn.isShaped harity
  obtain ⟨howed, hfits⟩ := owed_children (k := k) hn h
  rw [howed, hbody]
  exact ⟨v, rfl, hfits v (by rw [hbody]; exact List.mem_cons_self), Nat.add_zero _⟩

theorem owedAll_elements {v : Value} (hv : v.Conforms) (hnode : v.node? = none) {vs : List Value}
    (h : v.asElements = .ok vs) : k.owedAll vs = k.owed v ∧ ∀ w ∈ vs, w.Conforms := by
  cases v with
  | list ws =>
      obtain rfl : ws = vs := Except.ok.inj h
      exact ⟨(owed_list ws).symm, fun w hw => conforms_of_mem_list hv hw⟩
  | text s =>
      obtain rfl := Except.ok.inj h
      induction s.toList with
      | nil => exact ⟨rfl, by simp⟩
      | cons c cs ih =>
          refine ⟨?_, List.forall_mem_cons.mpr ⟨(fun n hn => by cases hn), ih.2⟩⟩
          rw [List.map_cons, owedAll_cons, owed_text, Nat.zero_add]
          exact ih.1
  | node n => cases hnode
  | _ => cases h

theorem owedAll_optionalElements {v : Value} (hv : v.Conforms) (hnode : v.node? = none)
    {vs : List Value} (h : v.asOptionalElements = .ok vs) :
    k.owedAll vs = k.owed v ∧ ∀ w ∈ vs, w.Conforms := by
  unfold Value.asOptionalElements at h
  split at h
  · exact owedAll_elements hv hnode h
  · next htruth =>
      cases h
      refine ⟨(owed_of_not_truth (by simpa using htruth) ?_).symm, by simp⟩
      simp [Value.tag?, hnode]

theorem Sound.visitChild (hpr : k.Sound pr) (p : Place) {v : Value} (hv : v.Conforms) :
    Yields (pr.visitChild p v) fun printed =>
      k.owed v ≤ minCount k.text printed.doc ∧
        ∀ link, printed.link = some link → k.owed v ≤ minCountAll k.text link.fragments := by
  cases v with
  | null => exact .pure ⟨Nat.zero_le _, fun _ h => by cases h⟩
  | node n =>
      refine (hpr.visit (p.below n) hv).mono fun printed h => ?_
      exact ⟨Nat.le_trans (owed_le_due n) h.1, fun l hl => Nat.le_trans (owed_le_due n) (h.2 l hl)⟩
  | _ => exact .throw _

theorem Sound.print (hpr : k.Sound pr) (p : Place) {v : Value} (hv : v.Conforms) :
    Yields (pr.print p v) fun d => k.owed v ≤ minCount k.text d :=
  .bind (hpr.visitChild p hv) fun _ h => .pure h.1

theorem Sound.printNode (hpr : k.Sound pr) (p : Place) {n : Tree} (hn : Value.Conforms (.node n)) :
    Yields (pr.print p (.node n)) fun d => k.due n ≤ minCount k.text d :=
  .bind (hpr.visit (p.below n) hn) fun _ h => .pure h.1

theorem yields_mapM {g : Value → PrintM Doc} (vs : List Value)
    (h : ∀ v ∈ vs, Yields (g v) fun d => k.owed v ≤ minCount k.text d) :
    Yields (vs.mapM g) fun ds => k.owedAll vs ≤ minCountAll k.text ds := by
  refine (Yields.mapM vs h).mono fun ds hds => ?_
  induction hds with
  | nil => exact Nat.le_refl _
  | cons hd _ ih =>
      have ih := ih fun v hv => h v (List.mem_cons_of_mem _ hv)
      rw [owedAll_cons, minCountAll_cons]
      omega

theorem Sound.printAll (hpr : k.Sound pr) (p : Place) {vs : List Value}
    (hvs : ∀ v ∈ vs, v.Conforms) :
    Yields (pr.printAll p vs) fun ds => k.owedAll vs ≤ minCountAll k.text ds :=
  yields_mapM vs fun v hv => hpr.print p (hvs v hv)

theorem Sound.printChild (hpr : k.Sound pr) (p : Place) {v : Value} (hbody : p.node.body = [v])
    (hv : v.Conforms) : Yields (pr.printChild p 0) fun d => k.owed v ≤ minCount k.text d := by
  refine .liftBind fun w hw => ?_
  rw [Node.child_eq_ok, hbody] at hw
  obtain rfl : v = w := Option.some.inj hw
  exact hpr.print p hv

/-! ## Comments -/

theorem minCount_comment (hk : k.comments = true) {c : Comment} (h : c.text = k.text) :
    minCount k.text c.doc = 1 := by
  rw [Comment.doc, Comment.isBlock, h, k.isLine hk, if_neg (by simp)]
  exact minCount_ofString k.text_ne

theorem notes_cons_le (c : Comment) (cs : List Comment) :
    k.notes (c :: cs) ≤ minCount k.text c.doc + k.notes cs := by
  unfold notes
  split
  · next hk =>
      rw [List.countP_cons]
      split
      · next h =>
          rw [minCount_comment hk (by simpa using h)]
          omega
      · omega
  · exact Nat.zero_le _

theorem notes_le_docs (cs : List Comment) :
    k.notes cs ≤ minCountAll k.text (cs.map Comment.doc) := by
  induction cs with
  | nil => simp [notes]
  | cons c cs ih =>
      have h := notes_cons_le (k := k) c cs
      rw [List.map_cons, minCountAll_cons]
      omega

theorem notes_append (cs ds : List Comment) : k.notes (cs ++ ds) = k.notes cs + k.notes ds := by
  unfold notes
  split
  · exact List.countP_append
  · rfl

@[simp] theorem notes_nil : k.notes [] = 0 := by
  unfold notes
  split <;> rfl

theorem notes_flatMap {α : Type} (f : α → List Comment) (as : List α) :
    k.notes (as.flatMap f) = (as.map fun a => k.notes (f a)).sum := by
  induction as with
  | nil => exact notes_nil
  | cons a as ih => rw [List.flatMap_cons, notes_append, ih, List.map_cons, List.sum_cons]

theorem notes_le_only (cs : List Comment) : k.notes cs ≤ minCount k.text (Comments.only cs) := by
  have hjoined := minCountAll_le_joined (x := k.text) .hardline (cs.map Comment.doc)
  have hdocs := notes_le_docs (k := k) cs
  simp only [Comments.only, minCount_cat, minCountAll_cons]
  omega

theorem minCountAll_above (cs : List Comment) :
    minCountAll k.text (Comments.above cs) =
      minCountAll k.text ((cs.filter (·.leading)).map Comment.doc) := by
  unfold Comments.above
  induction cs.filter (·.leading) with
  | nil => rfl
  | cons c cs ih =>
      rw [List.flatMap_cons, minCountAll_append, ih, List.map_cons, minCountAll_cons]
      rfl

theorem minCountAll_after {endLine : Option Coordinate} {c : Comment} {ds : List Doc}
    (h : Comments.after endLine c = .ok ds) : minCount k.text c.doc ≤ minCountAll k.text ds := by
  rw [Comments.after, Except.bind_eq_ok] at h
  obtain ⟨below, -, h⟩ := h
  split at h
  · cases h
    simp only [minCountAll_cons]
    omega
  · cases h
    simp only [minCountAll_cons, minCount_suffixed]
    omega

theorem minCountAll_behind {endLine : Option Coordinate} {cs : List Comment} {dss : List (List Doc)}
    (h : cs.mapM (Comments.after endLine) = .ok dss) :
    k.notes cs ≤ minCountAll k.text dss.flatten := by
  have hall := Except.mapM_eq_ok h
  clear h
  induction hall with
  | nil => simp
  | @cons c ds cs dss hc _ ih =>
      have hcount := notes_cons_le (k := k) c cs
      have hafter := minCountAll_after (k := k) hc
      rw [List.flatten_cons, minCountAll_append]
      omega

theorem notes_perm {cs ds : List Comment} (h : cs.Perm ds) : k.notes cs = k.notes ds := by
  unfold notes
  split
  · exact h.countP_eq _
  · rfl

/-- The comments around a document keep their texts, and the document keeps its own. -/
theorem minCount_splice {d e : Doc} {cs : List Comment} {endLine : Option Coordinate}
    (h : Comments.splice d cs endLine = .ok e) :
    minCount k.text d + k.notes cs ≤ minCount k.text e := by
  unfold Comments.splice at h
  split at h
  · next hempty =>
      rw [List.isEmpty_iff.mp hempty, notes_nil]
      cases h
      exact Nat.le_refl _
  · rw [Except.bind_eq_ok] at h
    obtain ⟨behind, hbehind, h⟩ := h
    cases h
    have hsplit :
        k.notes (cs.filter (·.leading)) + k.notes (cs.filter (!·.leading)) = k.notes cs := by
      rw [← notes_append]
      exact notes_perm (List.filter_append_perm _ _)
    have habove := notes_le_docs (k := k) (cs.filter (·.leading))
    have hbehind := minCountAll_behind (k := k) hbehind
    simp only [minCount_cat, minCountAll_append, minCountAll_cons, minCountAll_above]
    omega

theorem yields_apply {rule : Rule} {m : Nat} (p : Place)
    (h : Yields (rule pr p) fun printed => m ≤ minCount k.text printed.doc) :
    Yields (pr.apply rule p) fun printed => m ≤ minCount k.text printed.doc := by
  refine .bind h fun printed hprinted => ?_
  split
  · refine .liftBind fun d hd => .pure ?_
    have := minCount_splice (k := k) hd
    exact Nat.le_trans hprinted (Nat.le_trans (Nat.le_add_right _ _) this)
  · exact .pure hprinted

/-! ## Rules -/

/-- A rule keeps all that is owed of the nodes with these tags. -/
def Keeps (k : Keep) (tags : List String) (rule : DocRule) : Prop :=
  ∀ pr p, k.Sound pr → Value.Conforms (.node p.node) → p.node.tag ∈ tags →
    Yields (rule pr p) fun d => k.owed (.node p.node) ≤ minCount k.text d

theorem keeps_subset {tags all : List String} {rule : DocRule} (h : k.Keeps all rule)
    (htags : tags ⊆ all) : k.Keeps tags rule :=
  fun pr p hpr hp htag => h pr p hpr hp (htags htag)

/-- A rule for productions keeps what is owed of the children. -/
theorem keeps_of_children {tags : List String} {rule : DocRule}
    (htags : tags.all isPlainProduction = true)
    (h : ∀ pr p, k.Sound pr → p.node.isShaped = true → (∀ v ∈ p.node.body, v.Conforms) →
      p.node.tag ∈ tags → Yields (rule pr p) fun d => k.owedAll p.node.body ≤ minCount k.text d) :
    k.Keeps tags rule := by
  intro pr p hpr hp htag
  obtain ⟨howed, hfits⟩ := owed_children hp (List.all_eq_true.mp htags _ htag)
  rw [howed]
  exact h pr p hpr hp.isShaped hfits htag

/-- A rule for productions of one child keeps what is owed of it. -/
theorem keeps_of_child {tags : List String} {rule : DocRule}
    (htags : tags.all (fun t => isPlainProduction t && Grammar.arity? t == some 1) = true)
    (h : ∀ pr p v, k.Sound pr → p.node.isShaped = true → p.node.tag ∈ tags → p.node.body = [v] →
      v.Conforms → Yields (rule pr p) fun d => k.owed v ≤ minCount k.text d) :
    k.Keeps tags rule := by
  simp only [List.all_eq_true, Bool.and_eq_true, beq_iff_eq] at htags
  intro pr p hpr hp htag
  obtain ⟨v, hbody, hv, howed⟩ := owed_only (k := k) hp (htags _ htag).1 (htags _ htag).2
  rw [howed]
  exact h pr p v hpr hp.isShaped htag hbody hv

theorem keeps_only {tags : List String}
    (htags : tags.all (fun t => isPlainProduction t && Grammar.arity? t == some 1) = true) :
    k.Keeps tags fun pr p => pr.printChild p 0 :=
  keeps_of_child htags fun _ p _ hpr _ _ hbody hv => hpr.printChild p hbody hv

theorem keeps_wrapped {tags : List String} {wrap : Doc → Doc}
    (htags : tags.all (fun t => isPlainProduction t && Grammar.arity? t == some 1) = true)
    (hwrap : ∀ d, minCount k.text d ≤ minCount k.text (wrap d)) :
    k.Keeps tags fun pr p => do return wrap (← pr.printChild p 0) := by
  intro pr p hpr hp htag
  exact .bind (keeps_only htags pr p hpr hp htag) fun d hd => .pure (Nat.le_trans hd (hwrap d))

end Keep

end RubyPretty
