import RubyPretty.Proofs.Rules.NeverRejects
/-!
# What rules of expressions reject

A rule prints only what stands in the body of its node, at any depth. Where a printer can print all
of that, the rule itself rejects nothing. Here are the rules of arguments, statements, operators,
literals, collections and calls. Among them is that of heredocs, which passes on whatever the
formatter raises (`formatterRaises_of_formattedBody?`).
-/

namespace RubyPretty

variable {raised : Fault → Prop} {pr : Printer} {p : Place} {v w : Value} {vs : List Value}
  {n : Tree}

theorem Chain.rejectsOnly_closing? (link : Option Link) :
    RejectsOnly raised (closing? pr p link) := by
  unfold closing?
  split
  · exact .pure _
  · split
    · exact .pure _
    · refine .liftBind (by simp) fun limit _ => ?_
      split
      · intro s e h
        cases h
      · exact .pure _

namespace Rules

open Chain (rejectsOnly_closing?)

/-! ## Arguments -/

theorem rejectsOnly_arguments (around : List Tree) (h : CanPrintBelow raised pr n) :
    RejectsOnly raised (arguments pr around (.node n)) := by
  generalize hv : Value.node n = v
  induction v using Value.induction generalizing n around with
  | node m ih =>
      cases hv
      obtain ⟨tag, body, comments, loc⟩ := m
      unfold arguments
      extract_lets p splice
      have hsplice : ∀ docs, RejectsOnly raised (splice docs) := fun _ => .lift (by simp)
      split
      · exact .bind (rejectsOnly_printAll h) hsplice
      · split
        · next args block =>
            obtain ⟨hargs, hblock⟩ := h.parts rfl
            extract_lets addBlock
            have haddBlock : ∀ docs, RejectsOnly raised (addBlock docs) := by
              intro docs
              unfold addBlock
              split
              · exact hsplice _
              · exact .bind hblock.print fun _ => hsplice _
            cases args with
            | null => exact haddBlock []
            | node inner =>
                exact .bind (ih (.node inner) (.head _) _ hargs.below rfl) haddBlock
            | bool | int | real | text | list => exact .bind .malformed haddBlock
        · exact .bind .malformed hsplice
  | null | bool | int | real | text | list => cases hv

theorem rejectsOnly_argumentList (h : CanPrint raised pr v) :
    RejectsOnly raised (argumentList pr p v) := by
  unfold argumentList
  split
  · exact .pure _
  · split
    · exact rejectsOnly_arguments _ h.below
    · exact .bind h.print fun _ => .pure _
  · exact .malformed

@[simp] theorem rejectsOnly_args (h : CanPrintBelow raised pr p.node) :
    RejectsOnly raised (args pr p) :=
  .bind (rejectsOnly_arguments _ h) fun _ => .pure _

@[simp] theorem rejectsOnly_argParen (h : CanPrintBelow raised pr p.node) :
    RejectsOnly raised (argParen pr p) := by
  refine .liftBind (by simp) fun contents hcontents => ?_
  split
  · exact .pure _
  · exact .bind (rejectsOnly_argumentList (h.child hcontents)) fun _ => .lift (by simp)

/-! ## Statements -/

theorem rejectsOnly_statement (h : CanPrint raised pr (.node n)) :
    RejectsOnly raised (statement pr p n) := by
  unfold statement
  split
  · exact .pure _
  · exact h.print

theorem rejectsOnly_statementsAfter (previous : Tree) {stmts : List Tree}
    (h : ∀ n ∈ stmts, CanPrint raised pr (.node n)) :
    RejectsOnly raised (statementsAfter pr p previous stmts) := by
  induction stmts generalizing previous with
  | nil => exact .pure _
  | cons stmt stmts ih =>
      obtain ⟨hstmt, hstmts⟩ := List.forall_mem_cons.mp h
      refine .bind (rejectsOnly_statement hstmt) fun doc => .liftBind (by simp) fun _ _ => ?_
      exact .bind (ih stmt hstmts) fun _ => .pure _

theorem rejectsOnly_firstStatement (h : CanPrint raised pr (.node n)) :
    RejectsOnly raised (firstStatement pr p n) :=
  .bind (rejectsOnly_statement h) fun _ => .liftBind (by simp) fun _ _ => .pure _

@[simp] theorem rejectsOnly_stmts (h : CanPrintBelow raised pr p.node) :
    RejectsOnly raised (stmts pr p) := by
  refine .liftBind (by simp) fun all hall => ?_
  extract_lets body
  have hbody : ∀ n ∈ body, CanPrint raised pr (.node n) := fun n hn =>
    h.bodyNodes hall n (List.mem_of_mem_filter hn)
  clear_value body
  split
  · split <;> exact .pure _
  · split
    · exact .pure _
    · obtain ⟨hfirst, hrest⟩ := List.forall_mem_cons.mp hbody
      exact .bind (rejectsOnly_firstStatement hfirst) fun _ =>
        .bind (rejectsOnly_statementsAfter _ hrest) fun _ => .lift (by simp)

theorem rejectsOnly_indentedBody (h : CanPrint raised pr v) :
    RejectsOnly raised (indentedBody pr p v) := by
  refine .liftBind (by simp) fun empty _ => ?_
  split
  · exact .pure _
  · exact .bind h.print fun _ => .pure _

theorem rejectsOnly_clauseBelow (h : CanPrint raised pr v) :
    RejectsOnly raised (clauseBelow pr p v) := by
  unfold clauseBelow
  split
  · exact .pure _
  · exact .bind h.print fun _ => .pure _

theorem rejectsOnly_elseBelow (h : CanPrint raised pr v) :
    RejectsOnly raised (elseBelow pr p v) := by
  unfold elseBelow
  split
  · exact .pure _
  · refine .liftBind (by simp) fun n _ => ?_
    split
    · exact rejectsOnly_clauseBelow h
    · exact .bind (rejectsOnly_indentedBody h) fun _ => .pure _

@[simp] theorem rejectsOnly_bodystmt (h : CanPrintBelow raised pr p.node) :
    RejectsOnly raised (bodystmt pr p) := by
  unfold bodystmt
  split
  · next hbody =>
      obtain ⟨hstmts, hrescue, helse, hensure⟩ := h.parts hbody
      exact .bind (rejectsOnly_indentedBody hstmts) fun _ =>
        .bind (rejectsOnly_clauseBelow hrescue) fun _ =>
        .bind (rejectsOnly_elseBelow helse) fun _ =>
        .bind (rejectsOnly_clauseBelow hensure) fun _ => .pure _
  · exact .malformed

@[simp] theorem rejectsOnly_paren (h : CanPrintBelow raised pr p.node) :
    RejectsOnly raised (paren pr p) := by
  refine .liftBind (by simp) fun contents hcontents => ?_
  have hcontents := h.child hcontents
  split
  · exact .pure _
  · refine .liftBind (by simp) fun n _ => ?_
    split
    · exact .bind (rejectsOnly_argumentList hcontents) fun _ => .pure _
    · exact .bind hcontents.print fun _ => .pure _

@[simp] theorem rejectsOnly_rescue (h : CanPrintBelow raised pr p.node) :
    RejectsOnly raised (rescue pr p) := by
  unfold rescue
  split
  · next hbody =>
      obtain ⟨hexceptions, hstmts, hnext⟩ := h.parts hbody
      extract_lets rest
      have hrest : ∀ doc, RejectsOnly raised (rest doc) := fun doc =>
        .bind (rejectsOnly_indentedBody hstmts) fun _ =>
        .bind (rejectsOnly_clauseBelow hnext) fun _ => .pure _
      split
      · exact hrest _
      · exact .bind hexceptions.print fun _ => hrest _
  · exact .malformed

theorem rejectsOnly_exceptions (h : CanPrint raised pr v) :
    RejectsOnly raised (exceptions pr p v) := by
  unfold exceptions
  split
  · exact .pure _
  · exact .pure _
  · exact .bind (rejectsOnly_printAll fun w hw => h.of_mem hw) fun _ => .pure _
  · refine .liftBind (by simp) fun n _ => ?_
    split
    · exact .bind (rejectsOnly_argumentList h) fun _ => .pure _
    · exact .bind h.print fun _ => .pure _

@[simp] theorem rejectsOnly_rescueExceptions (h : CanPrintBelow raised pr p.node) :
    RejectsOnly raised (rescueExceptions pr p) := by
  unfold rescueExceptions
  split
  · next hbody =>
      obtain ⟨hlist, hvariable⟩ := h.parts hbody
      refine .bind (rejectsOnly_exceptions hlist) fun list => ?_
      split
      · exact .pure _
      · exact .bind hvariable.print fun _ => .pure _
  · exact .malformed

@[simp] theorem rejectsOnly_ensure (h : CanPrintBelow raised pr p.node) :
    RejectsOnly raised (ensure pr p) :=
  .liftBind (by simp) fun _ hstmts =>
    .bind (rejectsOnly_indentedBody (h.child hstmts)) fun _ => .pure _

/-! ## Expressions -/

@[simp] theorem rejectsOnly_field (h : CanPrintBelow raised pr p.node) :
    RejectsOnly raised (field pr p) := by
  unfold field
  split
  · next hbody =>
      obtain ⟨hreceiver, -, hname⟩ := h.parts hbody
      exact .bind hreceiver.print fun _ => .liftBind (by simp) fun _ _ => .bind hname.print fun _ =>
        .liftBind (by simp) fun _ _ => .pure _
  · exact .malformed

@[simp] theorem rejectsOnly_index (h : CanPrintBelow raised pr p.node) :
    RejectsOnly raised (index pr p) := by
  unfold index
  split
  · next hbody =>
      obtain ⟨hcollection, hindex⟩ := h.parts hbody
      refine .bind hcollection.print fun collection => ?_
      split
      · exact .pure _
      · exact .bind (rejectsOnly_argumentList hindex) fun _ => .pure _
  · exact .malformed

@[simp] theorem rejectsOnly_assign (h : CanPrintBelow raised pr p.node) :
    RejectsOnly raised (assign pr p) := by
  unfold assign
  split
  · next hbody =>
      obtain ⟨htarget, hvalue⟩ := h.parts hbody
      refine .bind htarget.print fun _ => .bind hvalue.print fun _ => ?_
      refine .liftBind (by simp) fun _ _ => ?_
      split <;> exact .pure _
  · exact .malformed

@[simp] theorem rejectsOnly_operatorAssign (h : CanPrintBelow raised pr p.node) :
    RejectsOnly raised (operatorAssign pr p) := by
  unfold operatorAssign
  split
  · next hbody =>
      obtain ⟨htarget, hoperator, hvalue⟩ := h.parts hbody
      exact .bind htarget.print fun _ => .bind hoperator.print fun _ =>
        .bind hvalue.print fun _ => .pure _
  · exact .malformed

@[simp] theorem rejectsOnly_multipleAssign (h : CanPrintBelow raised pr p.node) :
    RejectsOnly raised (multipleAssign pr p) := by
  unfold multipleAssign
  split
  · next hbody =>
      obtain ⟨htargets, hvalue⟩ := h.parts hbody
      exact .bind htargets.print fun _ => .bind hvalue.print fun _ => .pure _
  · exact .malformed

@[simp] theorem rejectsOnly_targets (h : CanPrintBelow raised pr p.node) :
    RejectsOnly raised (targets pr p) := by
  refine .bind (rejectsOnly_printAll h) fun docs => ?_
  split
  · refine .liftBind (by simp) fun only _ => ?_
    split <;> exact .pure _
  · exact .pure _

@[simp] theorem rejectsOnly_targetsParen (h : CanPrintBelow raised pr p.node) :
    RejectsOnly raised (targetsParen pr p) := by
  refine .bind h.printChild fun doc => ?_
  split <;> exact .pure _

@[simp] theorem rejectsOnly_binary (h : CanPrintBelow raised pr p.node) :
    RejectsOnly raised (binary pr p) := by
  unfold binary
  split
  · next hbody =>
      obtain ⟨hleft, -, hright⟩ := h.parts hbody
      refine .liftBind (by simp) fun operator _ => ?_
      refine .bind hleft.print fun left => .bind hright.print fun right => ?_
      refine .liftBind (by simp) fun _ _ => .liftBind (by simp) fun _ _ => ?_
      split <;> exact .pure _
  · exact .malformed

@[simp] theorem rejectsOnly_unary (h : CanPrintBelow raised pr p.node) :
    RejectsOnly raised (unary pr p) := by
  unfold unary
  split
  · next hbody =>
      obtain ⟨-, hoperand⟩ := h.parts hbody
      refine .liftBind (by simp) fun _ _ => .liftBind (by simp) fun _ _ => ?_
      refine .bind hoperand.print fun operand => ?_
      split <;> exact .pure _
  · exact .malformed

@[simp] theorem rejectsOnly_negation (h : CanPrintBelow raised pr p.node) :
    RejectsOnly raised (negation pr p) := by
  refine .liftBind (by simp) fun operand hoperand => ?_
  have hoperand := h.child hoperand
  split
  · exact .pure _
  · refine .liftBind (by simp) fun n _ => ?_
    split <;> exact .bind hoperand.print fun _ => .pure _

@[simp] theorem rejectsOnly_range (dots : String) (h : CanPrintBelow raised pr p.node) :
    RejectsOnly raised (range dots pr p) := by
  unfold range
  split
  · next hbody =>
      obtain ⟨hleft, hright⟩ := h.parts hbody
      exact .bind hleft.print fun _ => .bind hright.print fun _ => .pure _
  · exact .malformed

/-! ## Literals -/

@[simp] theorem rejectsOnly_character : RejectsOnly raised (character pr p) := by
  refine .liftBind (by simp) fun value _ => ?_
  split
  · split <;> exact .pure _
  · exact .pure _

@[simp] theorem rejectsOnly_endMarker : RejectsOnly raised (endMarker pr p) := by
  refine .liftBind (by simp) fun content _ => ?_
  split <;> exact .pure _

theorem rejectsOnly_stringPart (h : CanPrint raised pr v) :
    RejectsOnly raised (stringPart pr p v) := by
  refine .liftBind (by simp) fun n _ => ?_
  split
  · exact .liftBind (by simp) fun _ _ => .pure _
  · exact h.print

theorem rejectsOnly_stringParts (h : ∀ v ∈ vs, CanPrint raised pr v) :
    RejectsOnly raised (stringParts pr p vs) :=
  .mapM fun v hv => rejectsOnly_stringPart (h v hv)

@[simp] theorem rejectsOnly_stringLiteral (h : CanPrintBelow raised pr p.node) :
    RejectsOnly raised (stringLiteral pr p) := by
  unfold stringLiteral
  split
  · next hbody =>
      obtain ⟨-, hparts⟩ := h.parts hbody
      refine .liftBind (by simp) fun parts hin => ?_
      split
      · exact .pure _
      · exact .bind (rejectsOnly_stringParts (hparts.elements hin)) fun _ =>
          .liftBind (by simp) fun _ _ => .liftBind (by simp) fun _ _ => .pure _
  · exact .malformed

@[simp] theorem rejectsOnly_shellString (h : CanPrintBelow raised pr p.node) :
    RejectsOnly raised (shellString pr p) :=
  .liftBind (by simp) fun _ hchild => .liftBind (by simp) fun _ hin =>
    .bind (rejectsOnly_stringParts ((h.child hchild).elements hin)) fun _ => .pure _

@[simp] theorem rejectsOnly_stringConcat (h : CanPrintBelow raised pr p.node) :
    RejectsOnly raised (stringConcat pr p) := by
  unfold stringConcat
  split
  · next hbody =>
      obtain ⟨hleft, hright⟩ := h.parts hbody
      exact .bind hleft.print fun _ => .bind hright.print fun _ => .pure _
  · exact .malformed

@[simp] theorem rejectsOnly_interpolation (h : CanPrintBelow raised pr p.node) :
    RejectsOnly raised (interpolation pr p) := by
  refine .bind h.printChild fun statements => ?_
  split <;> exact .pure _

theorem rejectsOnly_quotedSymbolBody (h : CanPrintBelow raised pr p.node) :
    RejectsOnly raised (quotedSymbolBody pr p) := by
  unfold quotedSymbolBody
  split
  · next hbody =>
      obtain ⟨-, hparts⟩ := h.parts hbody
      refine .liftBind (by simp) fun source _ => .liftBind (by simp) fun parts hin => ?_
      refine .bind (rejectsOnly_stringParts (hparts.elements hin)) fun docs => ?_
      split
      · exact .pure _
      · exact .liftBind (by simp) fun _ _ => .pure _
  · exact .malformed

@[simp] theorem rejectsOnly_quotedSymbol (h : CanPrintBelow raised pr p.node) :
    RejectsOnly raised (quotedSymbol pr p) := by
  refine .bind (rejectsOnly_quotedSymbolBody h) fun body => ?_
  refine .liftBind (by simp) fun _ _ => .liftBind (by simp) fun _ _ => ?_
  split <;> exact .pure _

@[simp] theorem rejectsOnly_regexp (h : CanPrintBelow raised pr p.node) :
    RejectsOnly raised (regexp pr p) := by
  unfold regexp
  split
  · next hbody =>
      obtain ⟨-, hparts, -⟩ := h.parts hbody
      refine .liftBind (by simp) fun parts hin => ?_
      refine .bind (rejectsOnly_stringParts (hparts.elements hin)) fun _ => ?_
      extract_lets useBraces
      split
      · exact .liftBind (by simp) fun _ _ => .liftBind (by simp) fun _ _ => .pure _
      · refine .liftBind (by simp) fun _ _ => ?_
        split <;> exact .pure _
  · exact .malformed

theorem rejectsOnly_heredocPart (h : CanPrint raised pr v) :
    RejectsOnly raised (heredocPart pr p v) := by
  refine .liftBind (by simp) fun n _ => ?_
  split
  · exact .liftBind (by simp) fun _ _ => .pure _
  · exact h.print

/-- What the formatter is given for a heredoc: the text of its body, without the common indentation
below a squiggly opener, and the language that the opener names. -/
def Embeds (o : Options) (n : Tree) (content language : String) : Prop :=
  ∃ opening parts closing elements text,
    n.body = [.text opening, parts, closing] ∧ parts.elements? = some elements ∧
      heredocContent? elements = .ok (some text) ∧
      heredocLanguage? o (Heredoc.Opener.parse? opening) = some language ∧
      content = if (Heredoc.Opener.parse? opening).any (·.isSquiggly) then Heredoc.dedent text
        else text

/-- The formatter itself raises a fault on the body of a heredoc, and no body may stay as it is. -/
def FormatterRaises (o : Options) (formatter : Option Formatter) (n : Tree) (e : Fault) : Prop :=
  n.tag = "heredoc" ∧ o.embeddedFallback = false ∧ ∃ format content language,
    formatter = some format ∧ Embeds o n content language ∧ format content language = .error e

theorem runFormatter_eq_error {o : Options} {format : Formatter} {content language : String}
    {e : Fault} (h : runFormatter o format content language = .error e) :
    o.embeddedFallback = false ∧ format content language = .error e := by
  unfold runFormatter at h
  split at h
  · cases h
  · next fault hfault =>
      split at h
      · cases h
      · next hfallback =>
          cases h
          exact ⟨Bool.eq_false_iff.mpr hfallback, hfault⟩

/-- A rejection that comes from the body of a heredoc has been raised by the formatter. -/
theorem formatterRaises_of_formattedBody? {opening : String} {parts closing : Value} {e : Fault}
    (htag : n.tag = "heredoc") (hbody : n.body = [.text opening, parts, closing])
    (h : formattedBody? pr (Heredoc.Opener.parse? opening) parts = .error e)
    (hrejection : e.isRejection = true) : FormatterRaises pr.options pr.formatter n e := by
  have hnever {α : Type} {step : Outcome α} (hstep : NeverRejects step) : step ≠ .error e := by
    intro he
    rw [hstep e he] at hrejection
    cases hrejection
  unfold formattedBody? at h
  split at h
  · next format hformat =>
      split at h
      · next language hlanguage =>
          obtain hfails | ⟨elements, helements, h⟩ := Except.bind_eq_error.mp h
          · exact absurd hfails (hnever (neverRejects_asElements parts))
          · obtain hfails | ⟨content, hcontent, h⟩ := Except.bind_eq_error.mp h
            · exact absurd hfails (hnever (neverRejects_heredocContent? elements))
            · cases content with
              | none => cases h
              | some text =>
                  obtain ⟨hfallback, hraised⟩ := runFormatter_eq_error h
                  have helements : parts.elements? = some elements := by
                    unfold Value.asElements at helements
                    split at helements
                    · next hsome => rw [hsome, Except.ok.inj helements]
                    · cases helements
                  exact ⟨htag, hfallback, format, _, language, hformat,
                    ⟨opening, parts, closing, elements, text, hbody, helements, hcontent, hlanguage,
                      rfl⟩, hraised⟩
      · cases h
  · cases h

theorem heredoc_of_formatterRaises {e : Fault}
    (h : FormatterRaises pr.options pr.formatter p.node e) : heredoc pr p = throw e := by
  obtain ⟨-, hfallback, format, content, language, hformat, hembeds, hraised⟩ := h
  obtain ⟨opening, parts, closing, elements, text, hbody, helements, hcontent, hlanguage, rfl⟩ :=
    hembeds
  have hfails : formattedBody? pr (Heredoc.Opener.parse? opening) parts = .error e := by
    unfold formattedBody?
    simp only [hformat, hlanguage, Value.asElements, helements, Except.ok_bind, hcontent]
    rw [runFormatter, hraised]
    simp [hfallback]
  unfold heredoc
  rw [hbody]
  simp only [Value.asText, PrintM.lift_ok_bind, hfails]
  rfl

theorem rejectsOnly_heredoc (htag : p.node.tag = "heredoc") (h : CanPrintBelow raised pr p.node)
    (hraised : ∀ e, FormatterRaises pr.options pr.formatter p.node e → raised e) :
    RejectsOnly raised (heredoc pr p) := by
  unfold heredoc
  split
  · next opening parts closing hbody =>
      obtain ⟨-, hparts, -⟩ := h.parts hbody
      refine .liftBind (by simp) fun text htext => .liftRaisedBind (fun e he hrejection => ?_)
        fun formatted _ => ?_
      · rw [Value.asText_eq_ok.mp htext] at hbody
        exact hraised e (formatterRaises_of_formattedBody? htag hbody he hrejection)
      · split
        · exact .liftBind (by simp) fun _ _ => .pure _
        · refine .liftBind (by simp) fun parts hin => .bind (.mapM fun v hv => ?_) fun docs => ?_
          · exact rejectsOnly_heredocPart (hparts.elements hin v hv)
          · exact .liftBind (by simp) fun _ _ => .pure _
  · exact .malformed

/-! ## Collections -/

@[simp] theorem rejectsOnly_wordList (start : String) (h : CanPrintBelow raised pr p.node) :
    RejectsOnly raised (wordList start pr p) :=
  .bind (rejectsOnly_printAll h) fun _ =>
    .liftBind (neverRejects_mapM neverRejects_wordText) fun _ _ => .pure _

theorem rejectsOnly_arrayContents (h : CanPrint raised pr v) :
    RejectsOnly raised (arrayContents pr p v) := by
  refine .liftBind (by simp) fun n _ => ?_
  split
  · exact h.print
  · refine .liftBind (by simp) fun _ _ => .liftBind (by simp) fun words _ => ?_
    split
    · exact .pure _
    · exact .bind (rejectsOnly_argumentList h) fun _ => .pure _

@[simp] theorem rejectsOnly_array (h : CanPrintBelow raised pr p.node) :
    RejectsOnly raised (array pr p) := by
  refine .liftBind (by simp) fun contents hcontents => ?_
  split
  · exact .lift (by simp)
  · exact .bind (rejectsOnly_arrayContents (h.child hcontents)) fun _ => .lift (by simp)

theorem rejectsOnly_labelKey (h : CanPrint raised pr (.node n)) :
    RejectsOnly raised (labelKey pr p n) := by
  unfold labelKey
  split
  · exact h.print
  · exact .bind (CanPrintBelow.printChild (p := p.below n) h.below) fun _ => .pure _
  · refine .liftBind (by simp) fun text _ => ?_
    split
    · exact .pure _
    · exact .malformed
  · exact .malformed

theorem rejectsOnly_rocketKey (h : CanPrint raised pr (.node n)) :
    RejectsOnly raised (rocketKey pr p n) := by
  unfold rocketKey
  split
  · exact .liftBind (by simp) fun _ _ => .pure _
  · refine .liftBind (by simp) fun _ _ => .liftBind (by simp) fun source _ => ?_
    split
    · exact .bind h.print fun _ => .pure _
    · exact .bind (rejectsOnly_quotedSymbolBody (p := p.below n) h.below) fun _ => .pure _
  · exact .bind h.print fun _ => .pure _

theorem rejectsOnly_pairKey (labels : Bool) (h : CanPrint raised pr (.node n)) :
    RejectsOnly raised (pairKey pr p labels n) := by
  unfold pairKey
  split
  · exact rejectsOnly_rocketKey h
  · refine .bind (rejectsOnly_labelKey h) fun doc => ?_
    split
    · exact .pure _
    · exact .lift (by simp)

theorem rejectsOnly_pairWith (labels : Bool) (h : CanPrintBelow raised pr p.node) :
    RejectsOnly raised (pairWith labels pr p) := by
  unfold pairWith
  split
  · next hbody =>
      obtain ⟨hkey, hvalue⟩ := h.parts hbody
      refine .liftBind (by simp) fun key hnode => ?_
      refine .bind (rejectsOnly_pairKey _ (hkey.asNode hnode)) fun keyDoc => ?_
      refine .bind hvalue.print fun valueDoc => .liftBind (by simp) fun value _ => ?_
      split
      · exact .pure _
      · refine .liftBind (by simp) fun skips _ => ?_
        split <;> exact .pure _
  · exact .malformed

@[simp] theorem rejectsOnly_pair (h : CanPrintBelow raised pr p.node) :
    RejectsOnly raised (pair pr p) :=
  .liftBind (by simp) fun _ _ => rejectsOnly_pairWith _ h

theorem rejectsOnly_apply {rule : Rule} (h : RejectsOnly raised (rule pr p)) :
    RejectsOnly raised (pr.apply rule p) := by
  refine .bind h fun printed => ?_
  split
  · exact .liftBind (by simp) fun _ _ => .pure _
  · exact .pure _

theorem rejectsOnly_ofDoc {rule : DocRule} (h : RejectsOnly raised (rule pr p)) :
    RejectsOnly raised (Rule.ofDoc rule pr p) :=
  .bind h fun _ => .pure _

theorem rejectsOnly_pairIn (labels : Bool) (h : CanPrint raised pr v) :
    RejectsOnly raised (pairIn pr p labels v) := by
  refine .liftBind (by simp) fun n hn => ?_
  split
  · have hpair := rejectsOnly_pairWith (p := p.below n) labels (h.asNode hn).below
    exact .bind (rejectsOnly_apply (rejectsOnly_ofDoc hpair)) fun _ => .pure _
  · exact h.print

@[simp] theorem rejectsOnly_pairList (h : CanPrintBelow raised pr p.node) :
    RejectsOnly raised (pairList pr p) :=
  .liftBind (by simp) fun _ _ =>
    .bind (.mapM fun v hv => rejectsOnly_pairIn _ (h v hv)) fun _ => .pure _

@[simp] theorem rejectsOnly_hash (h : CanPrintBelow raised pr p.node) :
    RejectsOnly raised (hash pr p) := by
  refine .liftBind (by simp) fun contents hcontents => ?_
  split
  · exact .lift (by simp)
  · exact .bind (h.child hcontents).print fun _ => .lift (by simp)

/-! ## Calls -/

@[simp] theorem rejectsOnly_call (h : CanPrintBelow raised pr p.node) :
    RejectsOnly raised (call pr p) := by
  unfold call
  split
  · next hbody =>
      obtain ⟨hreceiver, -, hmessage⟩ := h.parts hbody
      refine .bind hreceiver.visitChild fun received => .liftBind (by simp) fun operator _ => ?_
      extract_lets operatorTrails rest
      have hrest : ∀ doc, RejectsOnly raised (rest doc) := by
        intro messageDoc
        refine .liftBind (by simp) fun operatorDoc _ => ?_
        extract_lets left right link
        have hlink : ∀ right, RejectsOnly raised (link right) := by
          intro right
          refine .liftBind (by simp) fun _ _ => .bind (rejectsOnly_closing? _) fun chain => ?_
          split <;> exact .pure _
        refine .liftBind (by simp) fun source _ => ?_
        split
        · exact .pure _
        · refine .liftBind (by simp) fun _ _ => ?_
          split <;> exact hlink _
      split
      · exact hrest _
      · exact .bind hmessage.print hrest
  · exact .malformed

@[simp] theorem rejectsOnly_callWithArgumentsAnd (extra : List Doc)
    (h : CanPrintBelow raised pr p.node) :
    RejectsOnly raised (callWithArgumentsAnd extra pr p) := by
  unfold callWithArgumentsAnd
  split
  · next hbody =>
      obtain ⟨hcallee, hargument⟩ := h.parts hbody
      refine .bind hcallee.visitChild fun method => .liftBind (by simp) fun argument hnode => ?_
      have hargument := hargument.asNode hnode
      extract_lets isParen link rest
      have hlink : ∀ doc, RejectsOnly raised (link doc) := by
        intro doc
        refine .liftBind (by simp) fun _ _ => .bind (rejectsOnly_closing? _) fun chain => ?_
        split <;> exact .pure _
      have hrest : ∀ x, CanPrint raised pr x.2 → RejectsOnly raised (rest x) := by
        rintro ⟨inner, contents⟩ hcontents
        refine .bind (rejectsOnly_argumentList hcontents) fun own => ?_
        extract_lets docs
        split
        · refine .liftBind (by simp) fun _ _ => .liftBind (by simp) fun keeps _ => ?_
          split <;> exact .pure _
        · refine .liftBind (by simp) fun argsDoc _ => ?_
          split
          · exact .liftBind (by simp) fun _ _ => hlink _
          · exact hlink _
      split
      · exact .liftBind (by simp) fun contents hchild =>
          hrest (p.below argument, contents) (hargument.below.child hchild)
      · exact hrest (p, .node argument) hargument
  · exact .malformed

@[simp] theorem rejectsOnly_commandAnd (extra : List Doc) (h : CanPrintBelow raised pr p.node) :
    RejectsOnly raised (commandAnd extra pr p) := by
  unfold commandAnd
  split
  · next hbody =>
      obtain ⟨hname, hargs⟩ := h.parts hbody
      refine .bind hname.print fun command => .bind (rejectsOnly_argumentList hargs) fun docs => ?_
      refine .liftBind (by simp) fun ternary _ => ?_
      split
      · exact .pure _
      · refine .liftBind (by simp) fun starts _ => ?_
        split <;> exact .pure _
  · exact .malformed

@[simp] theorem rejectsOnly_receiverCommandAnd (extra : List Doc)
    (h : CanPrintBelow raised pr p.node) :
    RejectsOnly raised (receiverCommandAnd extra pr p) := by
  unfold receiverCommandAnd
  split
  · next hbody =>
      obtain ⟨hreceiver, -, hmessage, hargs⟩ := h.parts hbody
      refine .bind hreceiver.print fun _ => .liftBind (by simp) fun _ _ => ?_
      refine .bind hmessage.print fun _ => ?_
      refine .bind (rejectsOnly_argumentList hargs) fun docs =>
        .liftBind (by simp) fun operator _ => ?_
      split
      · exact .pure _
      · refine .liftBind (by simp) fun ternary _ => ?_
        split
        · exact .pure _
        · refine .liftBind (by simp) fun _ _ => .liftBind (by simp) fun _ _ => ?_
          split <;> exact .pure _
  · exact .malformed

@[simp] theorem rejectsOnly_superCall (h : CanPrintBelow raised pr p.node) :
    RejectsOnly raised (superCall pr p) := by
  refine .liftBind (by simp) fun args hargs => ?_
  have hargs := h.childNode hargs
  split
  · exact .bind hargs.print fun _ => .pure _
  · exact .bind (rejectsOnly_argumentList hargs) fun _ => .pure _

@[simp] theorem rejectsOnly_yieldCall (h : CanPrintBelow raised pr p.node) :
    RejectsOnly raised (yieldCall pr p) := by
  refine .liftBind (by simp) fun args hargs => ?_
  have hargs := h.childNode hargs
  split
  · exact .bind hargs.print fun _ => .pure _
  · exact .bind (rejectsOnly_argumentList hargs) fun _ => .pure _

end Rules

end RubyPretty
