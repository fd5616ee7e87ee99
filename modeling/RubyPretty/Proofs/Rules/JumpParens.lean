import RubyPretty.Formatting
import RubyPretty.Proofs.Layout.Order
import RubyPretty.Proofs.Printing.Registration
import RubyPretty.Proofs.Rules.Default
import RubyPretty.Proofs.Shape.MethodBlocks
/-!
# The parentheses behind a jump

A `return`, `break` or `next` may have just one argument, and this may be one statement between
parentheses. Whether the parentheses are printed depends on the jump and on the statement: a comment
on what is around the statement keeps them, `return` keeps them around a negation and around `and`
and `or` given as texts, and the other jumps keep them around modifiers.
Then the statement is between parentheses on every page. All other parentheses are left out. Those
of modifiers behind `return`, and of `and`, `or` and `not` behind the other jumps, would be needed.
-/

namespace RubyPretty

open Doc

namespace Doc

theorem atoms_infix_cat {d : Doc} {ds : List Doc} (h : d ∈ ds) : d.atoms <:+: (cat ds).atoms := by
  rw [atoms_cat]
  exact List.infix_flatMap_of_mem h atoms

theorem atoms_indented (ds : List Doc) : (indented ds).atoms = (cat ds).atoms :=
  apply_indented atoms_indent ds

end Doc

namespace Comments

theorem atoms_infix_splice {d spliced : Doc} {cs : List Comment} {endLine : Option Coordinate}
    (h : splice d cs endLine = .ok spliced) : d.atoms <:+: spliced.atoms := by
  unfold splice at h
  split at h
  · cases h
    exact List.infix_rfl
  · obtain ⟨behind, -, h⟩ := Except.bind_eq_ok.mp h
    cases h
    exact atoms_infix_cat (List.mem_append_right _ List.mem_cons_self)

end Comments

namespace Rules

variable {o : Options} {formatter : Option Formatter} {depth : Nat}

/-! ## What stands behind a jump -/

/-- The only argument of a jump, inside containers that have no other one. -/
inductive OnlyArgument : Value → List Tree → Tree → Prop where
  | here {n : Tree} (htag : n.tag ≠ "args" ∧ n.tag ≠ "args_add_block") :
      OnlyArgument (.node n) [] n
  | args {n m : Tree} {v : Value} {containers : List Tree} (htag : n.tag = "args")
      (hbody : n.body = [v]) (h : OnlyArgument v containers m) :
      OnlyArgument (.node n) (n :: containers) m
  | addBlock {n m : Tree} {v : Value} {containers : List Tree} (htag : n.tag = "args_add_block")
      (hbody : n.body = [v, .null]) (h : OnlyArgument v containers m) :
      OnlyArgument (.node n) (n :: containers) m

/-- Parentheses without comments around one statement. -/
structure Parenthesizes (parens contents stmt : Tree) : Prop where
  tag : parens.tag = "paren"
  bare : parens.comments = []
  body : parens.body = [.node contents]
  list : contents.tag = "stmts"
  single : contents.body = [.node stmt]

/-- A statement that binds looser than a jump: a modifier, `and`, `or` or `not`. -/
def Loose (stmt : Tree) : Prop :=
  stmt.tag ∈ ["if_mod", "unless_mod", "while_mod", "until_mod"] ∨
    (stmt.tag = "binary" ∧ ∃ operator, stmt.body[1]? = some operator ∧
      (Shape.operatorText? operator = some "and" ∨ Shape.operatorText? operator = some "or")) ∨
    stmt.tag = "not" ∨
    (stmt.tag = "unary" ∧ ∃ operator, stmt.body[0]? = some operator ∧
      Shape.operatorText? operator = some "not")

/-- The statements whose parentheses are kept behind `return`. -/
def KeptByReturn (stmt : Tree) : Prop :=
  stmt.tag = "not" ∨
    (stmt.tag = "binary" ∧
      (stmt.body[1]? = some (.text "and") ∨ stmt.body[1]? = some (.text "or")))

def KeepsParens (keyword : String) (containers : List Tree) (contents stmt : Tree) : Prop :=
  (∃ n ∈ contents :: containers, n.comments ≠ []) ∨
    (keyword = "return" ∧ KeptByReturn stmt) ∨
    (keyword ≠ "return" ∧ stmt.tag ∈ parenBoundTags)

/-- A statement behind a jump without its parentheses. Those of `return` are printed if the
statement is broken. -/
def bareJump (keyword : String) (e : Doc) : Doc :=
  if keyword = "return" then returnDoc [e] else .cat [keyword ++ " ", .cat [e]]

/-- The document of a node at some place. -/
def PrintedAs (o : Options) (formatter : Option Formatter) (n : Tree) (e : Doc) : Prop :=
  ∃ depth around notes printed notes',
    (Registry.default.printer o formatter depth).visit ⟨n, around⟩ notes = .ok (printed, notes') ∧
      e = printed.doc

variable {v : Value} {containers : List Tree} {m parens contents stmt : Tree}

theorem Loose.tag_ne (h : Loose stmt) : stmt.tag ≠ "void_stmt" ∧ stmt.tag ≠ "array" := by
  have hmods : ∀ tag ∈ ["if_mod", "unless_mod", "while_mod", "until_mod"],
      tag ≠ "void_stmt" ∧ tag ≠ "array" := by decide
  rcases h with h | ⟨h, -⟩ | h | ⟨h, -⟩
  · exact hmods _ h
  all_goals
    rw [h]
    decide

/-! ## The tests -/

theorem onlyArgument?_args {n : Tree} (htag : n.tag = "args") (hbody : n.body = [v])
    (around : List Tree) : onlyArgument? around (.node n) =
      if n.comments = [] then onlyArgument? (n :: around) v else .ok none := by
  obtain ⟨tag, body, comments, loc⟩ := n
  cases htag
  cases hbody
  cases comments <;> rfl

theorem onlyArgument?_addBlock {n : Tree} (htag : n.tag = "args_add_block")
    (hbody : n.body = [v, .null]) (h : OnlyArgument v containers m) (around : List Tree) :
    onlyArgument? around (.node n) =
      if n.comments = [] then onlyArgument? (n :: around) v else .ok none := by
  obtain ⟨tag, body, comments, loc⟩ := n
  cases htag
  cases hbody
  cases h <;> cases comments <;> rfl

theorem onlyArgument?_of_bare (h : OnlyArgument v containers m)
    (hbare : ∀ n ∈ containers, n.comments = []) (around : List Tree) :
    ∃ outer, onlyArgument? around v = .ok (some ⟨m, outer⟩) := by
  induction h generalizing around with
  | @here n htag =>
      obtain ⟨tag, body, comments, loc⟩ := n
      refine ⟨around, ?_⟩
      unfold onlyArgument?
      rw [if_neg htag.2, if_neg htag.1]
      rfl
  | args htag hbody h ih =>
      obtain ⟨hn, hinner⟩ := List.forall_mem_cons.mp hbare
      rw [onlyArgument?_args htag hbody, if_pos hn]
      exact ih hinner _
  | addBlock htag hbody h ih =>
      obtain ⟨hn, hinner⟩ := List.forall_mem_cons.mp hbare
      rw [onlyArgument?_addBlock htag hbody h, if_pos hn]
      exact ih hinner _

theorem onlyArgument?_of_commented (h : OnlyArgument v containers m)
    (hnote : ∃ n ∈ containers, n.comments ≠ []) (around : List Tree) :
    onlyArgument? around v = .ok none := by
  induction h generalizing around with
  | here =>
      obtain ⟨n, hn, -⟩ := hnote
      cases hn
  | args htag hbody h ih =>
      rw [onlyArgument?_args htag hbody]
      split
      · next hn => exact ih (by simpa [hn] using hnote) _
      · rfl
  | addBlock htag hbody h ih =>
      rw [onlyArgument?_addBlock htag hbody h]
      split
      · next hn => exact ih (by simpa [hn] using hnote) _
      · rfl

theorem argumentNodes_ne_nil (h : OnlyArgument v containers m) :
    ∃ w ws, argumentNodes v = .ok (w :: ws) := by
  induction h with
  | @here n htag =>
      obtain ⟨tag, body, comments, loc⟩ := n
      refine ⟨.node ⟨tag, body, comments, loc⟩, [], ?_⟩
      unfold argumentNodes
      rw [if_neg htag.1, if_neg htag.2]
      rfl
  | @args n _ v _ htag hbody =>
      obtain ⟨tag, body, comments, loc⟩ := n
      cases htag
      cases hbody
      exact ⟨v, [], rfl⟩
  | @addBlock n _ v _ htag hbody h ih =>
      obtain ⟨tag, body, comments, loc⟩ := n
      obtain ⟨w, ws, hnodes⟩ := ih
      cases htag
      cases hbody
      refine ⟨w, ws, ?_⟩
      unfold argumentNodes
      rw [if_neg (by decide), if_pos rfl]
      show (argumentNodes v >>= fun nodes => _) = _
      rw [hnodes]
      rfl

theorem parenStatement?_eq (h : Parenthesizes parens contents stmt) (around : List Tree) :
    parenStatement? ⟨parens, around⟩ = .ok (if contents.comments = [] then
      some ⟨stmt, contents :: parens :: around⟩ else none) := by
  split
  · next hbare =>
      refine parenStatement?_eq_some.mpr ⟨h.bare, contents, stmt, ?_, h.list, hbare, h.single, rfl⟩
      rw [h.body]
      rfl
  · next hnote =>
      have hchild : parens.child 0 = .ok (.node contents) := by
        rw [Node.child_eq_ok, h.body]
        rfl
      have hcomments : contents.hasComments = true := by simpa [Node.hasComments] using hnote
      unfold parenStatement?
      rw [if_neg (by simp [Node.hasComments, h.bare]), hchild]
      show (if (decide (contents.tag ≠ "stmts") || contents.hasComments) = true then _ else _) = _
      rw [hcomments, Bool.or_true, if_pos rfl]
      rfl

theorem canSkipReturnParens_eq_ok {skips : Bool} (h : canSkipReturnParens stmt = .ok skips) :
    skips = false ↔ KeptByReturn stmt := by
  have htext (v : Value) (s : String) : v.text? = some s ↔ v = .text s := by
    cases v <;> simp [Value.text?]
  unfold canSkipReturnParens at h
  unfold KeptByReturn
  split at h
  · next htag =>
      cases h
      exact iff_of_true rfl (.inl htag)
  · next hnot =>
      split at h
      · next hbinary =>
          cases h
          simp [hnot, hbinary]
      · next hbinary =>
          obtain ⟨operator, hoperator, h⟩ := Except.bind_eq_ok.mp h
          obtain rfl := Except.ok.inj h
          rw [Decidable.not_not] at hbinary
          rw [Node.child_eq_ok.mp hoperator]
          simp only [bne_eq_false_iff_eq, Bool.and_eq_false_iff, htext, hbinary, Option.some.injEq]
          simp

/-! ## Printing -/

theorem yields_visit_printedAs (p : Place) :
    Yields ((Registry.default.printer o formatter depth).visit p) fun printed =>
      PrintedAs o formatter p.node printed.doc :=
  fun notes printed notes' h => ⟨depth, p.around, notes, printed, notes', h, rfl⟩

theorem yields_ofDoc {rule : DocRule} {pr : Printer} {p : Place} {P : Doc → Prop}
    (h : Yields (rule pr p) P) : Yields (Rule.ofDoc rule pr p) fun printed => P printed.doc :=
  .bind h fun _ hd => .pure hd

theorem yields_visit_rule {p : Place} {name : String} {rule : DocRule} {P : Doc → Prop}
    (hfind : Registry.default.Holds p.node.tag ⟨name, .ofDoc rule⟩ false)
    (h : ∀ depth, Yields (rule (Registry.default.printer o formatter depth) p) P) :
    Yields ((Registry.default.printer o formatter depth).visit p) fun printed =>
      ∃ base, P base ∧ Comments.splice base p.node.comments p.node.endLine? = .ok printed.doc := by
  refine Registry.yields_visit_spliced fun e he => ?_
  obtain rfl := Option.some.inj (hfind.1.symm.trans he)
  exact ⟨hfind.2, fun depth => yields_ofDoc (h depth)⟩

/-- One statement of a list, with the comments of the list around it. -/
def ContentsOf (o : Options) (formatter : Option Formatter) (contents stmt : Tree) (d : Doc) :
    Prop :=
  ∃ e, PrintedAs o formatter stmt e ∧
    Comments.splice (.cat [e]) contents.comments contents.endLine? = .ok d

theorem yields_firstStatement (p : Place) (htag : stmt.tag ≠ "void_stmt") :
    Yields (firstStatement (Registry.default.printer o formatter depth) p stmt)
      (PrintedAs o formatter stmt) := by
  have hprint : Yields ((Registry.default.printer o formatter depth).print p (.node stmt))
      (PrintedAs o formatter stmt) :=
    .bind (yields_visit_printedAs (p.below stmt)) fun _ h => .pure h
  have hstatement : Yields (statement (Registry.default.printer o formatter depth) p stmt)
      (PrintedAs o formatter stmt) := by
    unfold statement
    rw [if_neg htag]
    exact hprint
  exact .bind hstatement fun e he => .liftBind fun _ _ => .pure he

theorem yields_stmts_single {p : Place} (hbody : p.node.body = [.node stmt])
    (htag : stmt.tag ≠ "void_stmt") :
    Yields (stmts (Registry.default.printer o formatter depth) p)
      (ContentsOf o formatter p.node stmt) := by
  have hnodes : p.node.bodyNodes = .ok [stmt] := by
    rw [Node.bodyNodes, hbody]
    rfl
  have hkept : [stmt].filter (fun s => s.tag != "void_stmt" || s.hasComments) = [stmt] := by
    simp [htag]
  have hall : ([stmt].all fun s => s.tag == "void_stmt") = false := by simp [htag]
  refine .liftBind fun body hbody => ?_
  obtain rfl := Except.ok.inj (hnodes.symm.trans hbody)
  simp only [hkept, hall]
  rw [if_neg Bool.false_ne_true]
  exact .bind (yields_firstStatement p htag) fun e he => .pureBind (.lift fun d hd => ⟨e, he, hd⟩)

theorem yields_print_contents (h : Parenthesizes parens contents stmt)
    (htag : stmt.tag ≠ "void_stmt") (p : Place) :
    Yields ((Registry.default.printer o formatter depth).print p (.node contents))
      (ContentsOf o formatter contents stmt) := by
  have hfind : Registry.default.Holds contents.tag ⟨"print_stmts", .ofDoc stmts⟩ true := by
    rw [h.list]
    exact ⟨rfl, rfl⟩
  refine .bind (Registry.yields_visit_placed (p := p.below contents) fun e he => ?_) fun _ h =>
    .pure h
  obtain rfl := Option.some.inj (hfind.1.symm.trans he)
  exact ⟨hfind.2, fun depth => yields_ofDoc (yields_stmts_single h.single htag)⟩

/-- What a document has between parentheses is printed from the statement. -/
def PrintsEnclosed (o : Options) (formatter : Option Formatter) (stmt : Tree) (d : Doc) : Prop :=
  ∃ e, PrintedAs o formatter stmt e ∧ d.Encloses e

theorem PrintsEnclosed.widen {d d' : Doc} (h : PrintsEnclosed o formatter stmt d)
    (hd : d.atoms <:+: d'.atoms) : PrintsEnclosed o formatter stmt d' := by
  obtain ⟨e, he, henclosed⟩ := h
  exact ⟨e, he, henclosed.widen hd⟩

/-- What a rule prints between parentheses stays there when comments are put around it. -/
theorem yields_visit_enclosed {p : Place} {name : String} {rule : DocRule}
    (hfind : Registry.default.Holds p.node.tag ⟨name, .ofDoc rule⟩ false)
    (h : ∀ depth, Yields (rule (Registry.default.printer o formatter depth) p)
      (PrintsEnclosed o formatter stmt)) :
    Yields ((Registry.default.printer o formatter depth).visit p) fun printed =>
      PrintsEnclosed o formatter stmt printed.doc := by
  refine (yields_visit_rule hfind h).mono ?_
  rintro printed ⟨base, hbase, hspliced⟩
  exact hbase.widen (Comments.atoms_infix_splice hspliced)

theorem encloses_enclosed {d e : Doc} (h : e.atoms <:+: d.atoms) :
    (Doc.enclosed "(" [d] ")").Encloses e := by
  refine ⟨.cat [.indented [.softline, d], .softline], h.trans ?_, ?_⟩
  · have hindented : d.atoms <:+: (indented [.softline, d]).atoms := by
      rw [atoms_indented]
      exact atoms_infix_cat (by simp)
    exact hindented.trans (atoms_infix_cat (by simp))
  · rw [Doc.enclosed, atoms_grouped, atoms_cat]
    simp

theorem yields_paren (h : Parenthesizes parens contents stmt) (htag : stmt.tag ≠ "void_stmt")
    {p : Place} (hp : p.node = parens) :
    Yields (paren (Registry.default.printer o formatter depth) p)
      (PrintsEnclosed o formatter stmt) := by
  refine .firstChild (hp ▸ h.body) ?_
  show Yields (if containerTags.contains contents.tag = true then _ else _) _
  rw [if_neg (by rw [h.list]; decide)]
  refine .bind (yields_print_contents h htag p) fun d hd => .pure ?_
  obtain ⟨e, he, hspliced⟩ := hd
  refine ⟨e, he, encloses_enclosed (.trans ?_ (Comments.atoms_infix_splice hspliced))⟩
  exact atoms_infix_cat (List.mem_singleton_self e)

theorem yields_visit_paren (h : Parenthesizes parens contents stmt)
    (htag : stmt.tag ≠ "void_stmt") {p : Place} (hp : p.node = parens) :
    Yields ((Registry.default.printer o formatter depth).visit p) fun printed =>
      PrintsEnclosed o formatter stmt printed.doc := by
  have hfind : Registry.default.Holds p.node.tag ⟨"print_paren", .ofDoc paren⟩ false := by
    rw [hp, h.tag]
    exact ⟨rfl, rfl⟩
  exact yields_visit_enclosed hfind fun depth => yields_paren h htag hp

/-! ## Arguments -/

theorem spliceLast_singleton {cs : List Comment} {d : Doc} {ds : List Doc}
    (h : spliceLast cs [d] = .ok ds) : ∃ d', ds = [d'] ∧ d.atoms <:+: d'.atoms := by
  obtain ⟨d', hspliced, h⟩ := Except.bind_eq_ok.mp h
  exact ⟨d', (Except.ok.inj h).symm, Comments.atoms_infix_splice hspliced⟩

def OneEnclosed (o : Options) (formatter : Option Formatter) (stmt : Tree) (ds : List Doc) : Prop :=
  ∃ d, ds = [d] ∧ PrintsEnclosed o formatter stmt d

theorem oneEnclosed_spliceLast {ds es : List Doc} {cs : List Comment}
    (h : OneEnclosed o formatter stmt ds) (hspliced : spliceLast cs ds = .ok es) :
    OneEnclosed o formatter stmt es := by
  obtain ⟨d, rfl, hd⟩ := h
  obtain ⟨d', rfl, hd'⟩ := spliceLast_singleton hspliced
  exact ⟨d', rfl, hd.widen hd'⟩

theorem OneEnclosed.joined {ds : List Doc} (h : OneEnclosed o formatter stmt ds)
    (separator : Doc) : PrintsEnclosed o formatter stmt (.joined separator ds) := by
  obtain ⟨d, rfl, hd⟩ := h
  exact hd.widen (atoms_infix_cat (List.mem_singleton_self d))

theorem yields_arguments_short {pr : Printer} {around : List Tree} {n : Tree} {P : List Doc → Prop}
    (htag : n.tag ≠ "args") (hbody : n.body = [v]) :
    Yields (arguments pr around (.node n)) P := by
  obtain ⟨tag, body, comments, loc⟩ := n
  cases hbody
  unfold arguments
  rw [if_neg htag]
  exact .bind (.throw _) fun _ h => h

theorem yields_arguments_args {pr : Printer} {around : List Tree} {n : Tree} (htag : n.tag = "args")
    (hbody : n.body = [v])
    (h : ∀ p, Yields (pr.print p v) (PrintsEnclosed o formatter stmt)) :
    Yields (arguments pr around (.node n)) (OneEnclosed o formatter stmt) := by
  obtain ⟨tag, body, comments, loc⟩ := n
  cases htag
  cases hbody
  unfold arguments
  rw [if_pos rfl]
  have hall (p : Place) : Yields (pr.printAll p [v]) (OneEnclosed o formatter stmt) := by
    refine (Yields.mapM (S := fun _ d => PrintsEnclosed o formatter stmt d) [v] ?_).mono ?_
    · intro w hw
      rw [List.mem_singleton.mp hw]
      exact h p
    · intro ds hds
      obtain ⟨d, _, hd, hnil, rfl⟩ := List.forall₂_cons_left_iff.mp hds
      obtain rfl := List.forall₂_nil_left_iff.mp hnil
      exact ⟨d, rfl, hd⟩
  exact .bind (hall _) fun ds hds => .lift fun es hes => oneEnclosed_spliceLast hds hes

theorem yields_arguments_addBlock {pr : Printer} {around : List Tree} {n : Tree}
    (htag : n.tag = "args_add_block") (hbody : n.body = [v, .null])
    (harg : OnlyArgument v containers m)
    (h : ∀ around, Yields (arguments pr around v) (OneEnclosed o formatter stmt)) :
    Yields (arguments pr around (.node n)) (OneEnclosed o formatter stmt) := by
  have hnode : ∃ w, v = .node w := by
    cases harg <;> exact ⟨_, rfl⟩
  obtain ⟨w, rfl⟩ := hnode
  obtain ⟨tag, body, comments, loc⟩ := n
  cases htag
  cases hbody
  unfold arguments
  rw [if_neg (by decide)]
  refine .bind (h _) fun ds hds => ?_
  exact .pureBind (.lift fun es hes => oneEnclosed_spliceLast hds hes)

theorem yields_print_container {n : Tree} (htag : n.tag = "args" ∨ n.tag = "args_add_block")
    (h : ∀ depth around, Yields
      (arguments (Registry.default.printer o formatter depth) around (.node n))
      (OneEnclosed o formatter stmt)) (depth : Nat) (p : Place) :
    Yields ((Registry.default.printer o formatter depth).print p (.node n))
      (PrintsEnclosed o formatter stmt) := by
  have hfind : Registry.default.Holds n.tag ⟨"print_args", .ofDoc args⟩ false := by
    rcases htag with htag | htag <;> rw [htag] <;> exact ⟨rfl, rfl⟩
  refine .bind (yields_visit_enclosed (p := p.below n) hfind fun depth => ?_) fun _ h => .pure h
  exact .bind (h depth _) fun ds hds => .pure (hds.joined _)

theorem yields_onlyArgument (h : Parenthesizes parens contents stmt)
    (htag : stmt.tag ≠ "void_stmt") (harg : OnlyArgument v containers parens) :
    (∀ depth p, Yields ((Registry.default.printer o formatter depth).print p v)
      (PrintsEnclosed o formatter stmt)) ∧
    (∀ depth around, Yields (arguments (Registry.default.printer o formatter depth) around v)
      (OneEnclosed o formatter stmt)) := by
  induction harg with
  | @here n hn =>
      refine ⟨fun depth p => ?_, fun depth around => ?_⟩
      · exact .bind (yields_visit_paren h htag (p := p.below n) rfl) fun _ h => .pure h
      · exact yields_arguments_short hn.1 h.body
  | @args n m v containers hargs hbody _ ih =>
      have hn (depth : Nat) (around : List Tree) :
          Yields (arguments (Registry.default.printer o formatter depth) around (.node n))
            (OneEnclosed o formatter stmt) :=
        yields_arguments_args hargs hbody ((ih h).1 depth)
      exact ⟨yields_print_container (.inl hargs) hn, hn⟩
  | @addBlock n m v containers hblock hbody harg ih =>
      have hn (depth : Nat) (around : List Tree) :
          Yields (arguments (Registry.default.printer o formatter depth) around (.node n))
            (OneEnclosed o formatter stmt) :=
        yields_arguments_addBlock hblock hbody harg ((ih h).2 depth)
      exact ⟨yields_print_container (.inr hblock) hn, hn⟩

/-! ## Jumps -/

/-- How a statement between parentheses is printed behind a jump. -/
def JumpDoc (o : Options) (formatter : Option Formatter) (keyword : String)
    (containers : List Tree) (contents stmt : Tree) (base : Doc) : Prop :=
  ∃ e, PrintedAs o formatter stmt e ∧
    (KeepsParens keyword containers contents stmt → base.Encloses e) ∧
    (¬ KeepsParens keyword containers contents stmt → base = bareJump keyword e)

theorem jumpDoc_of_kept {keyword : String} {base : Doc}
    (hkept : KeepsParens keyword containers contents stmt)
    (h : PrintsEnclosed o formatter stmt base) :
    JumpDoc o formatter keyword containers contents stmt base := by
  obtain ⟨e, he, henclosed⟩ := h
  exact ⟨e, he, fun _ => henclosed, fun hnot => absurd hkept hnot⟩

theorem jumpDoc_of_bare {keyword : String} {e : Doc}
    (hbare : ¬ KeepsParens keyword containers contents stmt) (he : PrintedAs o formatter stmt e) :
    JumpDoc o formatter keyword containers contents stmt (bareJump keyword e) :=
  ⟨e, he, fun hkept => absurd hkept hbare, fun _ => rfl⟩

theorem OneEnclosed.returnDoc {ds : List Doc} (h : OneEnclosed o formatter stmt ds) :
    PrintsEnclosed o formatter stmt (Rules.returnDoc ds) := by
  have hlisted : PrintsEnclosed o formatter stmt (Doc.listed ds) := h.joined _
  refine hlisted.widen ?_
  have hindented : (Doc.listed ds).atoms <:+: (indented [.softline, .listed ds]).atoms := by
    rw [atoms_indented]
    exact atoms_infix_cat (by simp)
  rw [Rules.returnDoc, atoms_grouped]
  exact hindented.trans (List.infix_flatMap_of_mem (by simp) atoms)

theorem yields_argumentList_enclosed (h : Parenthesizes parens contents stmt)
    (htag : stmt.tag ≠ "void_stmt") (harg : OnlyArgument v containers parens)
    (hnote : ∃ n ∈ containers, n.comments ≠ []) (p : Place) :
    Yields (argumentList (Registry.default.printer o formatter depth) p v)
      (OneEnclosed o formatter stmt) := by
  have hprinted : ∀ around, Yields
      (arguments (Registry.default.printer o formatter depth) around v)
      (OneEnclosed o formatter stmt) := (yields_onlyArgument h htag harg).2 depth
  have hcontainer {n : Tree} (htag : n.tag = "args" ∨ n.tag = "args_add_block") :
      argumentList (Registry.default.printer o formatter depth) p (.node n) =
        arguments (Registry.default.printer o formatter depth) (p.node :: p.around) (.node n) := by
    rcases htag with htag | htag <;> exact if_pos (by rw [htag]; decide)
  cases harg with
  | here =>
      obtain ⟨n, hn, -⟩ := hnote
      cases hn
  | args hargs =>
      rw [hcontainer (.inl hargs)]
      exact hprinted _
  | addBlock hblock =>
      rw [hcontainer (.inr hblock)]
      exact hprinted _

theorem not_keepsParens {keyword : String} (hbare : ∀ n ∈ containers, n.comments = [])
    (hcontents : contents.comments = [])
    (hreturn : keyword = "return" → ¬ KeptByReturn stmt)
    (hother : keyword ≠ "return" → stmt.tag ∉ parenBoundTags) :
    ¬ KeepsParens keyword containers contents stmt := by
  rintro (⟨n, hn, hnote⟩ | ⟨hkeyword, hkept⟩ | ⟨hkeyword, hkept⟩)
  · rcases List.mem_cons.mp hn with rfl | hn
    · exact hnote hcontents
    · exact hnote (hbare n hn)
  · exact hreturn hkeyword hkept
  · exact hother hkeyword hkept

theorem yields_returnedValues_single {p : Place} (htag : p.node.tag ≠ "array") :
    Yields (returnedValues (Registry.default.printer o formatter depth) p) fun ds =>
      ∃ e, ds = [e] ∧ PrintedAs o formatter p.node e := by
  unfold returnedValues
  rw [if_neg htag]
  exact .bind (yields_visit_printedAs p) fun printed he => .pure ⟨printed.doc, rfl, he⟩

theorem yields_returnJump_parens (h : Parenthesizes parens contents stmt) (hloose : Loose stmt)
    (harg : OnlyArgument v containers parens) {p : Place} (hbody : p.node.body = [v]) :
    Yields (returnJump (Registry.default.printer o formatter depth) p)
      (JumpDoc o formatter "return" containers contents stmt) := by
  obtain ⟨hvoid, harray⟩ := hloose.tag_ne
  obtain ⟨w, ws, hnodes⟩ := argumentNodes_ne_nil harg
  have hprinted : Yields
      (do return Doc.cat ["return", ← (Registry.default.printer o formatter depth).print p v])
      (PrintsEnclosed o formatter stmt) :=
    .bind ((yields_onlyArgument h hvoid harg).1 depth p) fun d hd =>
      .pure (hd.widen (atoms_infix_cat (by simp)))
  refine .firstChild hbody ?_
  rw [hnodes, PrintM.lift_ok_bind, if_neg (by simp)]
  -- a comment on a container hides the argument, and the container is printed as it stands
  by_cases hnote : ∃ n ∈ containers, n.comments ≠ []
  · rw [onlyArgument?_of_commented harg hnote, PrintM.lift_ok_bind]
    obtain ⟨n, hn, hcomments⟩ := hnote
    exact .bind (yields_argumentList_enclosed h hvoid harg ⟨n, hn, hcomments⟩ p) fun ds hds =>
      .pure (jumpDoc_of_kept (.inl ⟨n, List.mem_cons_of_mem _ hn, hcomments⟩) hds.returnDoc)
  · have hbare : ∀ n ∈ containers, n.comments = [] := by simpa using hnote
    obtain ⟨outer, houter⟩ := onlyArgument?_of_bare harg hbare (p.node :: p.around)
    rw [houter, PrintM.lift_ok_bind]
    show Yields (if parens.tag ≠ "paren" then _ else _) _
    rw [if_neg (not_not.mpr h.tag), parenStatement?_eq h, PrintM.lift_ok_bind]
    by_cases hcontents : contents.comments = []
    · rw [if_pos hcontents]
      refine .liftBind fun skips hskips => ?_
      have hiff := canSkipReturnParens_eq_ok hskips
      cases skips with
      | false => exact hprinted.mono fun d => jumpDoc_of_kept (.inr (.inl ⟨rfl, hiff.mp rfl⟩))
      | true =>
          have hdropped := not_keepsParens hbare hcontents
            (fun _ hkept => Bool.noConfusion (hiff.mpr hkept)) (fun h => absurd rfl h)
          refine .bind (yields_returnedValues_single harray) fun ds hds => .pure ?_
          obtain ⟨e, rfl, he⟩ := hds
          exact jumpDoc_of_bare hdropped he
    · rw [if_neg hcontents]
      exact hprinted.mono fun d => jumpDoc_of_kept (.inl ⟨contents, List.mem_cons_self, hcontents⟩)

theorem yields_parenJump_parens {keyword : String} (hkeyword : keyword ≠ "return")
    (h : Parenthesizes parens contents stmt) (hvoid : stmt.tag ≠ "void_stmt")
    (hbare : ∀ n ∈ containers, n.comments = []) (around : List Tree) :
    Yields (parenJump (Registry.default.printer o formatter depth) keyword ⟨parens, around⟩)
      (JumpDoc o formatter keyword containers contents stmt) := by
  have hvisit : Yields (do
        return Doc.cat [keyword,
          (← (Registry.default.printer o formatter depth).visit ⟨parens, around⟩).doc])
      (PrintsEnclosed o formatter stmt) :=
    .bind (yields_visit_paren h hvoid rfl) fun printed hd =>
      .pure (hd.widen (atoms_infix_cat (by simp)))
  unfold parenJump
  rw [parenStatement?_eq h, PrintM.lift_ok_bind]
  by_cases hcontents : contents.comments = []
  · rw [if_pos hcontents]
    show Yields (if (!parenBoundTags.contains stmt.tag) = true then _ else _) _
    split
    · next hfree =>
        have hdropped : ¬ KeepsParens keyword containers contents stmt :=
          not_keepsParens hbare hcontents (fun h => absurd h hkeyword)
            (fun _ => by simpa using hfree)
        refine .bind (.firstChild h.body (yields_print_contents h hvoid _)) fun d hd => .pure ?_
        obtain ⟨e, he, hspliced⟩ := hd
        -- a list without comments is printed as its one statement
        rw [hcontents] at hspliced
        obtain rfl := Except.ok.inj hspliced
        have hdoc : bareJump keyword e = .cat [keyword ++ " ", .cat [e]] := if_neg hkeyword
        rw [← hdoc]
        exact jumpDoc_of_bare hdropped he
    · next hbound =>
        have hmem : stmt.tag ∈ parenBoundTags := by simpa using hbound
        exact hvisit.mono fun d => jumpDoc_of_kept (.inr (.inr ⟨hkeyword, hmem⟩))
  · rw [if_neg hcontents]
    exact hvisit.mono fun d => jumpDoc_of_kept (.inl ⟨contents, List.mem_cons_self, hcontents⟩)

theorem yields_jump_parens {keyword : String} (hkeyword : keyword ≠ "return")
    (h : Parenthesizes parens contents stmt) (hloose : Loose stmt)
    (harg : OnlyArgument v containers parens) {p : Place} (hbody : p.node.body = [v]) :
    Yields (jump keyword (Registry.default.printer o formatter depth) p)
      (JumpDoc o formatter keyword containers contents stmt) := by
  obtain ⟨hvoid, -⟩ := hloose.tag_ne
  obtain ⟨w, ws, hnodes⟩ := argumentNodes_ne_nil harg
  refine .firstChild hbody ?_
  rw [hnodes, PrintM.lift_ok_bind, if_neg (by simp)]
  by_cases hnote : ∃ n ∈ containers, n.comments ≠ []
  · rw [onlyArgument?_of_commented harg hnote, PrintM.lift_ok_bind]
    refine .bind (yields_argumentList_enclosed h hvoid harg hnote p) fun ds hds => .pure ?_
    obtain ⟨n, hn, hcomments⟩ := hnote
    refine jumpDoc_of_kept (.inl ⟨n, List.mem_cons_of_mem _ hn, hcomments⟩) ?_
    exact (hds.joined ", ").widen (atoms_infix_cat (by simp))
  · have hbare : ∀ n ∈ containers, n.comments = [] := by simpa using hnote
    obtain ⟨outer, houter⟩ := onlyArgument?_of_bare harg hbare (p.node :: p.around)
    rw [houter, PrintM.lift_ok_bind]
    show Yields (if parens.tag = "paren" then _ else _) _
    rw [if_pos h.tag]
    exact yields_parenJump_parens hkeyword h hvoid hbare outer

/-- A jump whose only argument is a loose statement between parentheses keeps these in some cases.
Then the statement is written between parentheses on every page. In all other cases the jump is
printed as if there were none. -/
theorem jump_parens (o : Options) (formatter : Option Formatter) (depth : Nat) (p : Place)
    (notes notes' : List ChainNote) (printed : Printed) (v : Value) (containers : List Tree)
    (parens contents stmt : Tree) (hjump : p.node.tag ∈ ["return", "break", "next"])
    (hbody : p.node.body = [v]) (harg : OnlyArgument v containers parens)
    (hparens : Parenthesizes parens contents stmt) (hloose : Loose stmt)
    (h : (Registry.default.printer o formatter depth).visit p notes = .ok (printed, notes')) :
    ∃ e base, PrintedAs o formatter stmt e ∧
      Comments.splice base p.node.comments p.node.endLine? = .ok printed.doc ∧
      (KeepsParens p.node.tag containers contents stmt →
        ∀ page, Layout.WritesEnclosed page printed.doc e) ∧
      (¬ KeepsParens p.node.tag containers contents stmt → base = bareJump p.node.tag e) := by
  have hrule : ∃ name rule,
      Registry.default.Holds p.node.tag ⟨name, .ofDoc rule⟩ false ∧
      ∀ depth, Yields (rule (Registry.default.printer o formatter depth) p)
        (JumpDoc o formatter p.node.tag containers contents stmt) := by
    simp only [List.mem_cons, List.not_mem_nil, or_false] at hjump
    rcases hjump with htag | htag | htag <;> rw [htag]
    · exact ⟨_, _, ⟨rfl, rfl⟩, fun depth => yields_returnJump_parens hparens hloose harg hbody⟩
    · exact ⟨_, _, ⟨rfl, rfl⟩, fun depth =>
        yields_jump_parens (by decide) hparens hloose harg hbody⟩
    · exact ⟨_, _, ⟨rfl, rfl⟩, fun depth =>
        yields_jump_parens (by decide) hparens hloose harg hbody⟩
  obtain ⟨name, rule, hfind, hrule⟩ := hrule
  obtain ⟨base, ⟨e, he, hkept, hdropped⟩, hspliced⟩ :=
    yields_visit_rule hfind hrule notes printed notes' h
  refine ⟨e, base, he, hspliced, fun hkeeps page => ?_, hdropped⟩
  have henclosed := (hkept hkeeps).widen (Comments.atoms_infix_splice hspliced)
  exact Layout.writesEnclosed_of_encloses page henclosed

def sampleModifier : Tree :=
  .plain "if_mod" [.node (.variableCall "b"), .node (.variableCall "a")]

def sampleContents : Tree := .statements [sampleModifier]

def sampleParens : Tree := .plain "paren" [.node sampleContents]

def sampleArgs : Tree := .plain "args" [.node sampleParens]

def sampleArguments : Tree := .plain "args_add_block" [.node sampleArgs, .null]

def sampleJump (keyword : String) : Tree := .plain keyword [.node sampleArguments]

theorem onlyArgument_sample :
    OnlyArgument (.node sampleArguments) [sampleArguments, sampleArgs] sampleParens :=
  .addBlock rfl rfl (.args rfl rfl (.here (by decide)))

/-- The parentheses of a modifier are kept behind `break`. -/
theorem jump_parens_sample :
    ∃ e printed, (Registry.default.printer Options.default none 12).visit
        (.root (sampleJump "break")) [] = .ok (printed, []) ∧
      PrintedAs Options.default none sampleModifier e ∧
      ∀ page, Layout.WritesEnclosed page printed.doc e := by
  obtain ⟨e, base, he, -, hkept, -⟩ := jump_parens Options.default none 12
    (.root (sampleJump "break")) [] [] _ (.node sampleArguments) [sampleArguments, sampleArgs]
    sampleParens sampleContents sampleModifier (by decide) rfl onlyArgument_sample
    ⟨rfl, rfl, rfl, rfl, rfl⟩ (.inl (by decide)) rfl
  exact ⟨e, _, rfl, he, hkept (.inr (.inr ⟨by decide, by decide⟩))⟩

/-- Those behind `return` are left out. -/
theorem return_drops_parens :
    Loose sampleModifier ∧
      formatTree Options.default none (.program [sampleJump "return"]) = .ok "return a if b\n" ∧
      '(' ∉ "return a if b\n".toList :=
  ⟨.inl (by decide), rfl, by decide⟩

end Rules

end RubyPretty
