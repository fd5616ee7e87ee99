import Mathlib.Data.Multiset.Count
import RubyPretty.Proofs.Comments.Placement
import RubyPretty.Proofs.Layout.Texts
import RubyPretty.Proofs.Printing.Names
/-!
# Which comments are kept

The loose comments of a program all go to statements, and the comments on statements are written,
apart from those on an array that `return` unwraps.
-/

namespace RubyPretty

open Doc

/-- A comment from `#` to the end of a line, where the number of the line is known. -/
def Comment.isLineComment (c : Comment) : Bool :=
  c.text.toList.head? == some '#' && !c.line.isNull

/-- The comments of a statement. Those on an empty list are left to the list. -/
def Value.ownComments : Value → List Comment
  | .node n => if n.tag = "stmts" ∧ n.body = [] then [] else n.comments
  | _ => []

/-- The comments on the statements of a list, or on the list if it is empty. -/
def Node.heldComments (n : Tree) : List Comment :=
  if n.tag = "stmts" then
    if n.body = [] then n.comments else n.body.flatMap Value.ownComments
  else []

/-- The texts of the comments on statements and on empty statement lists. -/
def Node.statementComments (tree : Tree) : List String :=
  (tree.walk.flatMap heldComments).map (·.text)

/-- The texts of the comments on arrays that are unwrapped behind `return`. -/
def Node.unwrappedComments (tree : Tree) : List String :=
  (tree.walk.flatMap Rules.lostComments).map (·.text)

namespace Keep

variable {k : Keep}

theorem here_eq_notes (hnames : k.names = false) (n : Tree) :
    k.here n = k.notes n.heldComments := by
  have hname : k.name n = 0 := by simp [name, hnames]
  have hown : ∀ v, k.notes (Value.ownComments v) = k.ownOf v := by
    intro v
    cases v with
    | node m =>
        show k.notes (if _ then [] else _) = if _ then 0 else _
        split
        · exact notes_nil
        · rfl
    | _ => exact notes_nil
  rw [here, hname, Nat.zero_add, Node.heldComments]
  split
  · split
    · rfl
    · rw [notes_flatMap]
      exact congrArg List.sum (List.map_congr_left fun v _ => (hown v).symm)
  · exact notes_nil.symm

/-- The comments with a text that starts with `#`. -/
def ofComment (x : String) (hx : x.toList.head? = some '#') : Keep where
  text := x
  names := false
  comments := true
  text_ne := by
    rintro rfl
    cases hx
  isLine := by
    intro _
    cases hchars : x.toList with
    | nil => simp [hchars] at hx
    | cons c cs =>
        obtain rfl : c = '#' := by simpa [hchars] using hx
        rw [Text.startsWith, hchars]
        rfl

variable {x : String} (hx : x.toList.head? = some '#')

theorem notes_ofComment (cs : List Comment) :
    (ofComment x hx).notes cs = (cs.map (·.text)).count x :=
  notes_eq_count cs

theorem sum_here_ofComment (tree : Tree) :
    (tree.walk.map (ofComment x hx).here).sum = tree.statementComments.count x := by
  rw [Node.statementComments, ← notes_ofComment hx, notes_flatMap]
  exact congrArg List.sum (List.map_congr_left fun n _ => here_eq_notes rfl n)

theorem sum_lost_ofComment (tree : Tree) :
    (tree.walk.map (ofComment x hx).lost).sum = tree.unwrappedComments.count x := by
  rw [Node.unwrappedComments, ← notes_ofComment hx, notes_flatMap]
  rfl

/-- More comments on statements than are lost leave one that has to be kept. -/
theorem count_statementComments_le (tree : Tree) :
    tree.statementComments.count x ≤
      (ofComment x hx).due tree + tree.unwrappedComments.count x := by
  have howed : (tree.walk.map (ofComment x hx).here).sum ≤
      (ofComment x hx).owed (.node tree) + (tree.walk.map (ofComment x hx).lost).sum :=
    sum_here_le_owed (.node tree)
  have hdue := owed_le_due (k := ofComment x hx) tree
  rw [sum_here_ofComment hx, sum_lost_ofComment hx] at howed
  omega

end Keep

theorem count_comments_le {tree settled : Tree} {attached : List Comments.Attached}
    (hprogram : tree.tag = "program") (hgrammar : tree.followsGrammar = true) {c : Comment}
    (hmem : c ∈ tree.comments) (hc : c.isLineComment = true)
    (h : settleComments tree = .ok (settled, attached)) :
    (tree.comments.map (·.text)).count c.text ≤ settled.statementComments.count c.text := by
  simp only [Comment.isLineComment, Bool.and_eq_true, beq_iff_eq] at hc
  have hloose : hasLooseComments tree = true := by
    rw [hasLooseComments, hprogram, beq_self_eq_true, Bool.true_and, List.any_eq_true]
    exact ⟨c, hmem, hc.2⟩
  rw [settleComments, if_pos hloose] at h
  have hbare : Node.followsGrammar { tree with comments := [] } = true := by
    rw [← hgrammar, ← Node.followsGrammar_bare tree, ← Node.followsGrammar_bare]
    rfl
  simp only at h
  split at h
  case h_2 => cases h
  case h_1 hfault =>
    cases h
    have hnotes := Keep.notes_le_attach (k := .ofComment c.text hc.1) rfl hbare hfault
    rwa [Keep.notes_ofComment, Keep.sum_here_ofComment] at hnotes

theorem exists_printTree_of_formatTree {o : Options} {formatter : Option Formatter} {tree : Tree}
    {text : String} (h : formatTree o formatter tree = .ok text) :
    ∃ doc, printTree o formatter tree = .ok doc ∧ text = Layout.render o.page doc := by
  rw [formatTree, Except.bind_eq_ok] at h
  obtain ⟨printed, hprinted, h⟩ := h
  refine ⟨printed.doc, Except.bind_eq_ok.mpr ⟨printed, hprinted, rfl⟩, ?_⟩
  rw [Printout.text] at h
  cases hrender : Layout.render? o.page printed.doc with
  | none =>
      rw [hrender] at h
      cases h
  | some rendered =>
      rw [hrender] at h
      rw [← Layout.State.eq_render_of_render? hrender]
      exact (Except.ok.inj h).symm

/-- The loose comments of a program are kept. All of them go to statements, and each is written,
without the blanks at its end, unless all comments of its text stand on arrays that `return`
unwraps. -/
theorem formatTree_keeps_comments (o : Options) (formatter : Option Formatter) (tree : Tree)
    (text : String) (hprogram : tree.tag = "program") (hgrammar : tree.followsGrammar = true)
    (hcomments : ∀ c ∈ tree.comments, c.isLineComment = true)
    (h : formatTree o formatter tree = .ok text) :
    ∃ settled attached, settleComments tree = .ok (settled, attached) ∧
      ((tree.comments.map (·.text) : List String) : Multiset String) ≤ settled.statementComments ∧
      ∀ c ∈ tree.comments,
        settled.unwrappedComments.count c.text < settled.statementComments.count c.text →
          c.text.toList.rdropWhile Layout.State.isTrailingBlank <:+: text.toList := by
  obtain ⟨doc, hdoc, rfl⟩ := exists_printTree_of_formatTree h
  obtain ⟨settled, attached, hsettled, hcovers⟩ := covers_printTree hdoc
  have hfollows : settled.followsGrammar = true := by
    rw [← Node.followsGrammar_bare, bare_settleComments hsettled, Node.followsGrammar_bare,
      hgrammar]
  -- comments of one text cannot be told apart in a document, so both parts go by counts
  refine ⟨settled, attached, hsettled, ?_, fun c hmem hcount => ?_⟩
  · rw [Multiset.le_iff_count]
    intro x
    rw [Multiset.coe_count, Multiset.coe_count]
    by_cases hx : x ∈ tree.comments.map (·.text)
    · obtain ⟨c, hmem, rfl⟩ := List.mem_map.mp hx
      exact count_comments_le hprogram hgrammar hmem (hcomments c hmem) hsettled
    · rw [List.count_eq_zero.mpr hx]
      exact Nat.zero_le _
  · have hc := hcomments c hmem
    simp only [Comment.isLineComment, Bool.and_eq_true, beq_iff_eq] at hc
    have hdue := hcovers (.ofComment c.text hc.1) (fun hnames => by cases hnames)
      (Node.conforms hfollows)
    have hle := Keep.count_statementComments_le hc.1 settled
    refine Layout.State.render_keeps_text o.page ?_
    calc 0 < (Keep.ofComment c.text hc.1).due settled := by omega
      _ ≤ minCount c.text doc := hdue

/-- A `return` of an array between parentheses, with its brackets on a line of their own. -/
def sampleReturn (comments : List Comment) : Tree :=
  let items : Tree := .plain "args" [.node (.variableCall "a"), .node (.variableCall "b")]
  let array : Tree :=
    { Node.plain "array" [.node items] with loc := some ⟨.int 2, .int 2, .int 2, .int 8⟩ }
  let paren : Tree := .plain "paren" [.node (.statements [array])]
  let args : Tree := .plain "args_add_block" [.node (.plain "args" [.node paren]), .null]
  let jump : Tree :=
    { Node.plain "return" [.node args] with loc := some ⟨.int 1, .int 0, .int 3, .int 1⟩ }
  { Node.program [jump] with comments }

theorem formatTree_keeps_comments_sample :
    (sampleReturn [⟨"# note", false, .int 2⟩, ⟨"# kept\t", false, .int 3⟩]).followsGrammar = true ∧
      formatTree Options.default none
          (sampleReturn [⟨"# note", false, .int 2⟩, ⟨"# kept\t", false, .int 3⟩]) =
        .ok "return a, b # kept\n" ∧
      "# kept".toList <:+: "return a, b # kept\n".toList := by
  refine ⟨by decide, rfl, ?_⟩
  obtain ⟨settled, attached, hsettled, -, hkept⟩ :=
    formatTree_keeps_comments Options.default none
      (sampleReturn [⟨"# note", false, .int 2⟩, ⟨"# kept\t", false, .int 3⟩]) "return a, b # kept\n"
      rfl (by decide) (by decide) rfl
  cases hsettled
  exact hkept ⟨"# kept\t", false, .int 3⟩ (.tail _ (.head _)) (by decide)

/-- A comment on an array that `return` unwraps is lost. -/
theorem formatTree_drops_unwrapped_comment :
    (sampleReturn [⟨"# note", false, .int 2⟩]).followsGrammar = true ∧
      formatTree Options.default none (sampleReturn [⟨"# note", false, .int 2⟩]) =
        .ok "return a, b\n" ∧
      ¬ "# note".toList <:+: "return a, b\n".toList :=
  ⟨by decide, rfl, fun h => absurd (h.subset (by decide : '#' ∈ "# note".toList)) (by decide)⟩

end RubyPretty
