import RubyPretty.Proofs.Rules.Default
import RubyPretty.Proofs.Rules.RejectsOnlyExpressions
/-!
# What all rules reject

The rules of definitions, blocks, conditions, loops and jumps, and with them all entries of the
registry.
-/

namespace RubyPretty

variable {raised : Fault → Prop} {pr : Printer} {p : Place} {v w : Value} {n : Tree}

namespace Rules

open Chain (rejectsOnly_closing?)

/-! ## Parameters and definitions -/

theorem canPrint_pairParts (h : CanPrint raised pr v) {pair : Value × Value}
    (hpair : pairParts v = .ok pair) : CanPrint raised pr pair.1 ∧ CanPrint raised pr pair.2 := by
  obtain ⟨parts, hparts, hpure⟩ := Except.bind_eq_ok.mp hpair
  have hparts := h.elements hparts
  split at hpure
  · cases hpure
    exact ⟨hparts _ (.head _), hparts _ (.tail _ (.head _))⟩
  · cases hpure

theorem rejectsOnly_optionalParam (h : CanPrint raised pr v) :
    RejectsOnly raised (optionalParam pr p v) :=
  .liftBind (by simp) fun _ hpair => .bind (canPrint_pairParts h hpair).1.print fun _ =>
    .bind (canPrint_pairParts h hpair).2.print fun _ => .pure _

theorem rejectsOnly_keywordParam (h : CanPrint raised pr v) :
    RejectsOnly raised (keywordParam pr p v) := by
  refine .liftBind (by simp) ?_
  rintro ⟨label, value⟩ hpair
  obtain ⟨hlabel, hvalue⟩ := canPrint_pairParts h hpair
  dsimp only
  split
  · exact hlabel.print
  · exact .bind hlabel.print fun _ => .bind hvalue.print fun _ => .pure _

theorem rejectsOnly_restParams (h : CanPrint raised pr v) :
    RejectsOnly raised (restParams pr p v) := by
  unfold restParams
  split
  · exact .pure _
  · refine .liftBind (by simp) fun n _ => ?_
    split
    · exact .pure _
    · exact .bind h.print fun _ => .pure _

theorem rejectsOnly_keywordRest (h : CanPrint raised pr v) :
    RejectsOnly raised (keywordRest pr p v) := by
  unfold keywordRest
  split
  · exact .pure _
  · exact .pure _
  · exact .bind h.print fun _ => .pure _

theorem rejectsOnly_blockParam (h : CanPrint raised pr v) :
    RejectsOnly raised (blockParam pr p v) := by
  unfold blockParam
  split
  · exact .pure _
  · exact .bind h.print fun _ => .pure _

@[simp] theorem rejectsOnly_params (h : CanPrintBelow raised pr p.node) :
    RejectsOnly raised (params pr p) := by
  unfold params
  split
  · next hbody =>
      obtain ⟨hrequired, hoptional, hrest, hposts, hkeywords, hkeywordRest, hblock⟩ :=
        h.parts hbody
      refine .liftBind (by simp) fun _ hin => ?_
      refine .bind (rejectsOnly_printAll (hrequired.optionalElements hin)) ?_
      refine fun _ => .liftBind (by simp) fun _ hin => .bind (.mapM fun v hv =>
        rejectsOnly_optionalParam (hoptional.optionalElements hin v hv)) ?_
      refine fun _ => .bind (rejectsOnly_restParams hrest) fun _ => ?_
      refine .liftBind (by simp) fun _ hin =>
        .bind (rejectsOnly_printAll (hposts.optionalElements hin)) ?_
      refine fun _ => .liftBind (by simp) fun _ hin => .bind (.mapM fun v hv =>
        rejectsOnly_keywordParam (hkeywords.optionalElements hin v hv)) ?_
      exact fun _ => .bind (rejectsOnly_keywordRest hkeywordRest) fun _ =>
        .bind (rejectsOnly_blockParam hblock) fun _ => .pure _
  · exact .malformed

theorem rejectsOnly_parameterList (h : CanPrint raised pr (.node n)) :
    RejectsOnly raised (parameterList pr p n) := by
  unfold parameterList
  extract_lets rest
  have hrest : ∀ x, CanPrint raised pr x.2 → RejectsOnly raised (rest x) := by
    rintro ⟨place, inner⟩ hinner
    refine .liftBind (by simp) fun empty _ => ?_
    split
    · exact .pure _
    · exact .bind hinner.print fun _ => .pure _
  split
  · exact .liftBind (by simp) fun inner hinner => hrest (p.below n, inner) (h.below.child hinner)
  · exact hrest (p, .node n) h

theorem rejectsOnly_definitionBody? (h : CanPrint raised pr v) :
    RejectsOnly raised (definitionBody? pr p v) := by
  refine .liftBind (by simp) fun n _ => .liftBind (by simp) fun bare _ => ?_
  split
  · exact .pure _
  · exact .bind h.print fun _ => .pure _

@[simp] theorem rejectsOnly_methodDefinition (h : CanPrintBelow raised pr p.node) :
    RejectsOnly raised (methodDefinition pr p) := by
  unfold methodDefinition
  split
  · next hbody =>
      obtain ⟨hname, hparams, hbody⟩ := h.parts hbody
      exact .bind hname.print fun _ => .liftBind (by simp) fun _ hnode =>
        .bind (rejectsOnly_parameterList (hparams.asNode hnode)) fun _ =>
          .bind (rejectsOnly_definitionBody? hbody) fun _ => .pure _
  · exact .malformed

@[simp] theorem rejectsOnly_singletonMethod (h : CanPrintBelow raised pr p.node) :
    RejectsOnly raised (singletonMethod pr p) := by
  unfold singletonMethod
  split
  · next hbody =>
      obtain ⟨htarget, -, hname, hparams, hbody⟩ := h.parts hbody
      refine .liftBind (by simp) fun _ _ => ?_
      refine .bind htarget.print fun _ => .bind hname.print fun _ => ?_
      refine .liftBind (by simp) fun _ hnode => ?_
      exact .bind (rejectsOnly_parameterList (hparams.asNode hnode)) fun _ =>
        .bind (rejectsOnly_definitionBody? hbody) fun _ => .liftBind (by simp) fun _ _ => .pure _
  · exact .malformed

@[simp] theorem rejectsOnly_classDefinition (h : CanPrintBelow raised pr p.node) :
    RejectsOnly raised (classDefinition pr p) := by
  unfold classDefinition
  split
  · next hbody =>
      obtain ⟨hconstant, hsuperclass, hbody⟩ := h.parts hbody
      refine .bind hconstant.print fun constant => ?_
      extract_lets rest
      have hrest : ∀ doc, RejectsOnly raised (rest doc) := fun _ =>
        .bind (rejectsOnly_definitionBody? hbody) fun _ => .pure _
      split
      · exact hrest _
      · exact .bind hsuperclass.print fun _ => hrest _
  · exact .malformed

@[simp] theorem rejectsOnly_moduleDefinition (h : CanPrintBelow raised pr p.node) :
    RejectsOnly raised (moduleDefinition pr p) := by
  unfold moduleDefinition
  split
  · next hbody =>
      obtain ⟨hconstant, hbody⟩ := h.parts hbody
      exact .bind hconstant.print fun _ =>
        .bind (rejectsOnly_definitionBody? hbody) fun _ => .pure _
  · exact .malformed

@[simp] theorem rejectsOnly_singletonClass (h : CanPrintBelow raised pr p.node) :
    RejectsOnly raised (singletonClass pr p) := by
  unfold singletonClass
  split
  · next hbody =>
      obtain ⟨htarget, hbody⟩ := h.parts hbody
      exact .bind htarget.print fun _ => .bind (rejectsOnly_definitionBody? hbody) fun _ => .pure _
  · exact .malformed

theorem rejectsOnly_bareWord (h : CanPrint raised pr v) : RejectsOnly raised (bareWord pr p v) := by
  refine .liftBind (by simp) fun n hn => ?_
  split
  · exact h.print
  · refine .bind (CanPrintBelow.printChild (p := p.below n) (h.asNode hn).below) fun _ => ?_
    exact .lift (by simp)

@[simp] theorem rejectsOnly_aliasName (h : CanPrintBelow raised pr p.node) :
    RejectsOnly raised (aliasName pr p) := by
  unfold aliasName
  split
  · next hbody =>
      obtain ⟨hleft, hright⟩ := h.parts hbody
      exact .liftBind (by simp) fun _ _ => .bind (rejectsOnly_bareWord hleft) fun _ =>
        .bind (rejectsOnly_bareWord hright) fun _ => .pure _
  · exact .malformed

@[simp] theorem rejectsOnly_undefNames (h : CanPrintBelow raised pr p.node) :
    RejectsOnly raised (undefNames pr p) :=
  .bind (.mapM fun v hv => rejectsOnly_bareWord (h v hv)) fun _ => .pure _

/-! ## Blocks -/

theorem rejectsOnly_withBlockArgument? (block : Doc) (h : CanPrint raised pr (.node n)) :
    RejectsOnly raised (withBlockArgument? pr p n block) := by
  have hthrough : ∀ rule : Rule, RejectsOnly raised (rule pr (p.below n)) →
      RejectsOnly raised (do return some (← pr.apply rule (p.below n)).doc : PrintM (Option Doc)) :=
    fun rule hrule => .bind (rejectsOnly_apply hrule) fun _ => .pure _
  unfold withBlockArgument?
  extract_lets through
  split
  · exact .bind h.print fun _ => .pure _
  · exact hthrough _ (rejectsOnly_callWithArgumentsAnd _ h.below)
  · exact hthrough _ (rejectsOnly_ofDoc (rejectsOnly_commandAnd _ h.below))
  · exact hthrough _ (rejectsOnly_ofDoc (rejectsOnly_receiverCommandAnd _ h.below))
  · exact .bind h.print fun _ => .pure _
  · exact .bind h.print fun _ => .pure _
  · exact .pure _

theorem rejectsOnly_callWithPlainBlock (hv : CanPrint raised pr v) (hw : CanPrint raised pr w) :
    RejectsOnly raised (callWithPlainBlock pr p v w) := by
  refine .bind hv.visitChild fun called => .bind hw.print fun block => ?_
  refine .liftBind (by simp) fun _ _ => .bind (rejectsOnly_closing? _) fun chain => ?_
  split <;> exact .pure _

@[simp] theorem rejectsOnly_callWithBlock (h : CanPrintBelow raised pr p.node) :
    RejectsOnly raised (callWithBlock pr p) := by
  unfold callWithBlock
  split
  · next hbody =>
      obtain ⟨hcallee, hblock⟩ := h.parts hbody
      have hplain := rejectsOnly_callWithPlainBlock (p := p) hcallee hblock
      extract_lets rest
      have hrest : ∀ proc, RejectsOnly raised (rest proc) := by
        intro proc
        unfold rest
        split
        · exact hplain
        · refine .liftBind (by simp) fun callee hnode => ?_
          refine .bind (rejectsOnly_withBlockArgument? _ (hcallee.asNode hnode)) fun doc => ?_
          split
          · exact .pure _
          · exact hplain
      split
      · exact .liftBind (by simp) fun _ _ => .liftBind (by simp) fun _ _ => hrest _
      · exact .pureBind (hrest none)
  · exact .malformed

@[simp] theorem rejectsOnly_blockVar (h : CanPrintBelow raised pr p.node) :
    RejectsOnly raised (blockVar pr p) := by
  unfold blockVar
  split
  · next hbody =>
      obtain ⟨hparams, hlocals⟩ := h.parts hbody
      refine .bind hparams.print fun params => ?_
      split
      · refine .liftBind (by simp) fun _ hin => ?_
        exact .bind (rejectsOnly_printAll (hlocals.elements hin)) fun _ => .pure _
      · exact .pure _
  · exact .malformed

theorem canPrint_bodyParts (h : CanPrint raised pr (.node n)) {found : Value × Bool}
    (hfound : bodyParts n = .ok found) : CanPrint raised pr found.1 := by
  obtain ⟨stmts, hstmts, hpure⟩ := Except.bind_eq_ok.mp hfound
  cases hpure
  exact h.below.child hstmts

@[simp] theorem rejectsOnly_block (h : CanPrintBelow raised pr p.node) :
    RejectsOnly raised (block pr p) := by
  unfold block
  split
  · next vars body hbody =>
      obtain ⟨hvars, hbody⟩ := h.parts hbody
      extract_lets isBrace useBraces opening closing rest
      have hrest : ∀ found, CanPrint raised pr found.1 → RejectsOnly raised (rest found) := by
        rintro ⟨stmts, hasClauses⟩ hstmts
        unfold rest
        dsimp -zeta only
        extract_lets withVars
        have hwithVars : ∀ varsDoc, RejectsOnly raised (withVars varsDoc) := by
          intro varsDoc
          unfold withVars
          split
          · exact .bind hbody.print fun _ => .pure _
          · extract_lets layout
            have hlayout : ∀ statements, RejectsOnly raised (layout statements) := by
              intro statements
              refine .liftBind (by simp) fun empty _ => ?_
              extract_lets onLines onOneLine
              refine .liftBind (by simp) fun onlyVoid _ => ?_
              extract_lets onlyComments finish
              have hfinish : ∀ ofCommand, RejectsOnly raised (finish ofCommand) := by
                intro ofCommand
                unfold finish
                split <;> exact .pure _
              split
              · split
                · exact .liftBind (by simp) fun _ _ => .pureBind (hfinish _)
                · exact .pureBind (hfinish _)
              · exact .pureBind (hfinish _)
            split
            · exact .liftBind (by simp) fun _ _ => .bind hstmts.print hlayout
            · exact .bind hstmts.print hlayout
        split
        · exact .pureBind (hwithVars _)
        · exact .bind hvars.print fun _ => .pureBind (hwithVars _)
      split
      · exact .pureBind (hrest (body, false) hbody)
      · exact .liftBind (by simp) fun n hn => .liftBind (by simp) fun found hfound =>
          hrest found (canPrint_bodyParts (hbody.asNode hn) hfound)
  · exact .malformed

theorem rejectsOnly_lambdaStatements (h : CanPrint raised pr (.node n)) :
    RejectsOnly raised (lambdaStatements pr p n) := by
  unfold lambdaStatements
  split
  · exact .bind h.print fun _ => .pure _
  · refine .liftBind (by simp) ?_
    rintro ⟨stmts, hasClauses⟩ hfound
    have hstmts := canPrint_bodyParts h hfound
    dsimp only
    split
    · exact .pure _
    · exact .bind hstmts.print fun _ => .pure _

@[simp] theorem rejectsOnly_lambda (h : CanPrintBelow raised pr p.node) :
    RejectsOnly raised (lambda pr p) := by
  unfold lambda
  split
  · next hbody =>
      obtain ⟨hparams, hbody⟩ := h.parts hbody
      refine .liftBind (by simp) fun params hnode => ?_
      refine .bind (rejectsOnly_parameterList (hparams.asNode hnode)) fun paramsDoc => ?_
      refine .liftBind (by simp) fun body hnode => ?_
      have hbody := hbody.asNode hnode
      refine .bind (rejectsOnly_lambdaStatements hbody) fun found => ?_
      split
      · exact .bind hbody.print fun _ => .pure _
      · refine .liftBind (by simp) fun empty _ => ?_
        split <;> exact .pure _
  · exact .malformed

/-! ## Conditions and loops -/

theorem rejectsOnly_ternaryClause (h : CanPrint raised pr v) :
    RejectsOnly raised (ternaryClause pr p v) := by
  refine .liftBind (by simp) fun n hn => ?_
  have hn := h.asNode hn
  extract_lets rest
  have hrest : ∀ place : Place, CanPrintBelow raised pr place.node →
      RejectsOnly raised (rest place) := by
    intro place hplace
    unfold rest
    split
    · refine .liftBind (by simp) fun operand hoperand => ?_
      split
      · exact h.print
      · exact .bind (hplace.child hoperand).print fun _ => .pure _
    · exact h.print
  split
  · exact .liftBind (by simp) fun m hm => hrest ((p.below n).below m) (hn.below.childNode hm).below
  · exact hrest (p.below n) hn.below

theorem rejectsOnly_clauseBody (h : CanPrint raised pr v) :
    RejectsOnly raised (clauseBody pr p v) := by
  refine .liftBind (by simp) fun empty _ => ?_
  split
  · exact .pure _
  · exact .bind h.print fun _ => .pure _

theorem rejectsOnly_withAddition (keyword : String) (h : CanPrintBelow raised pr p.node) :
    RejectsOnly raised (withAddition pr p keyword) := by
  unfold withAddition
  split
  · next hbody =>
      obtain ⟨hpredicate, hstmts, haddition⟩ := h.parts hbody
      exact .bind hpredicate.print fun _ => .bind (rejectsOnly_clauseBody hstmts) fun _ =>
        .bind haddition.print fun _ => .pure _
  · exact .malformed

@[simp] theorem rejectsOnly_singleConditional (keyword : String) (isModifier : Bool)
    (h : CanPrintBelow raised pr p.node) :
    RejectsOnly raised (singleConditional keyword isModifier pr p) := by
  unfold singleConditional
  split
  · next hbody =>
      have hpredicate := h _ (by rw [hbody]; exact .head _)
      have hstatements := h _ (by rw [hbody]; exact .tail _ (.head _))
      refine .bind hpredicate.print fun _ => .bind hstatements.print fun _ => ?_
      extract_lets multiline inlined rest
      have hrest : ∀ commented, RejectsOnly raised (rest commented) := by
        intro commented
        unfold rest
        split
        · exact .pure _
        · split <;> exact .pure _
      split
      · exact hrest _
      · exact .liftBind (by simp) fun _ _ => hrest _
  · exact .malformed

theorem rejectsOnly_ternary (condition : Condition) (h : CanPrintBelow raised pr p.node) :
    RejectsOnly raised (ternary pr p condition) := by
  unfold ternary
  split
  · next hbody =>
      obtain ⟨hpredicate, hstmts, haddition⟩ := h.parts hbody
      refine .bind hpredicate.print fun _ => .bind (rejectsOnly_ternaryClause hstmts) fun _ => ?_
      refine .liftBind (by simp) fun n hn => .liftBind (by simp) fun clause hclause => ?_
      exact .bind (rejectsOnly_ternaryClause ((haddition.asNode hn).below.child hclause)) fun _ =>
        .pure _
  · exact .malformed

@[simp] theorem rejectsOnly_conditional (condition : Condition)
    (h : CanPrintBelow raised pr p.node) :
    RejectsOnly raised (conditional condition pr p) := by
  unfold conditional
  split
  · next hbody =>
      obtain ⟨hpredicate, hstmts, -⟩ := h.parts hbody
      refine .liftBind (by simp) fun asTernary _ => ?_
      split
      · exact .bind (rejectsOnly_ternary condition h) fun _ =>
          .bind (rejectsOnly_withAddition _ h) fun _ => .pure _
      · split
        · exact .bind (rejectsOnly_withAddition _ h) fun _ => .pure _
        · refine .liftBind (by simp) fun empty _ => ?_
          split
          · exact .bind hpredicate.print fun _ => .pure _
          · refine .liftBind (by simp) fun refuses _ => ?_
            split
            · exact .bind hpredicate.print fun _ => .bind hstmts.print fun _ => .pure _
            · exact rejectsOnly_singleConditional _ _ h
  · exact .malformed

@[simp] theorem rejectsOnly_elsif (h : CanPrintBelow raised pr p.node) :
    RejectsOnly raised (elsif pr p) := by
  unfold elsif
  split
  · next hbody =>
      obtain ⟨hpredicate, hstmts, haddition⟩ := h.parts hbody
      exact .bind hpredicate.print fun _ => .bind (rejectsOnly_indentedBody hstmts) fun _ =>
        .bind (rejectsOnly_clauseBelow haddition) fun _ => .pure _
  · exact .malformed

@[simp] theorem rejectsOnly_elseClause (h : CanPrintBelow raised pr p.node) :
    RejectsOnly raised (elseClause pr p) := by
  refine .liftBind (by simp) fun stmts hstmts => ?_
  extract_lets rest
  have hrest : ∀ isCommand, RejectsOnly raised (rest isCommand) := fun _ =>
    .bind (rejectsOnly_clauseBody (h.childNode hstmts)) fun _ => .pure _
  split
  · exact .liftBind (by simp) fun _ _ => hrest _
  · exact hrest _

@[simp] theorem rejectsOnly_ternaryOperator (h : CanPrintBelow raised pr p.node) :
    RejectsOnly raised (ternaryOperator pr p) := by
  unfold ternaryOperator
  split
  · next hbody =>
      obtain ⟨hpredicate, htruthy, hfalsy⟩ := h.parts hbody
      exact .bind hpredicate.print fun _ => .bind (rejectsOnly_ternaryClause htruthy) fun _ =>
        .bind (rejectsOnly_ternaryClause hfalsy) fun _ => .pure _
  · exact .malformed

theorem rejectsOnly_loopWithBody (keyword : String) (isModifier : Bool)
    (h : CanPrintBelow raised pr p.node) :
    RejectsOnly raised (loopWithBody keyword isModifier pr p) := by
  unfold loopWithBody
  split
  · next hbody =>
      obtain ⟨hpredicate, hbody⟩ := h.parts hbody
      refine .bind hpredicate.print fun _ => .bind hbody.print fun _ => ?_
      extract_lets inlined onLines rest
      have hrest : ∀ runsFirst, RejectsOnly raised (rest runsFirst) := by
        intro runsFirst
        unfold rest
        split
        · exact .pure _
        · split <;> exact .pure _
      split
      · exact .liftBind (by simp) fun _ _ => .pureBind (hrest _)
      · exact .pureBind (hrest false)
  · exact .malformed

@[simp] theorem rejectsOnly_loop (keyword : String) (isModifier : Bool)
    (h : CanPrintBelow raised pr p.node) :
    RejectsOnly raised (loop keyword isModifier pr p) := by
  unfold loop
  split
  · next hbody =>
      obtain ⟨hpredicate, -⟩ := h.parts hbody
      extract_lets rest
      have hrest : ∀ isEmpty, RejectsOnly raised (rest isEmpty) := by
        intro isEmpty
        unfold rest
        split
        · exact .bind hpredicate.print fun _ => .pure _
        · exact rejectsOnly_loopWithBody _ _ h
      split
      · exact .pureBind (hrest false)
      · exact .liftBind (by simp) fun _ _ => hrest _
  · exact .malformed

@[simp] theorem rejectsOnly_forLoop (h : CanPrintBelow raised pr p.node) :
    RejectsOnly raised (forLoop pr p) := by
  unfold forLoop
  split
  · next hbody =>
      obtain ⟨htarget, hiterable, hstmts⟩ := h.parts hbody
      exact .bind htarget.print fun _ => .bind hiterable.print fun _ =>
        .bind (rejectsOnly_indentedBody hstmts) fun _ => .pure _
  · exact .malformed

/-! ## Case distinctions -/

@[simp] theorem rejectsOnly_case (h : CanPrintBelow raised pr p.node) :
    RejectsOnly raised (case pr p) := by
  unfold case
  split
  · next hbody =>
      obtain ⟨hvalue, hclause⟩ := h.parts hbody
      extract_lets rest
      have hrest : ∀ doc, RejectsOnly raised (rest doc) := fun _ =>
        .bind hclause.print fun _ => .pure _
      split
      · exact hrest _
      · exact .bind hvalue.print fun _ => hrest _
  · exact .malformed

theorem rejectsOnly_caseClause (head : Doc) (hv : CanPrint raised pr v)
    (hw : CanPrint raised pr w) :
    RejectsOnly raised (caseClause pr p head v w) :=
  .bind (rejectsOnly_indentedBody hv) fun _ => .bind (rejectsOnly_clauseBelow hw) fun _ => .pure _

@[simp] theorem rejectsOnly_whenClause (h : CanPrintBelow raised pr p.node) :
    RejectsOnly raised (whenClause pr p) := by
  unfold whenClause
  split
  · next hbody =>
      obtain ⟨hargs, hstmts, haddition⟩ := h.parts hbody
      exact .bind (rejectsOnly_argumentList hargs) fun _ =>
        rejectsOnly_caseClause _ hstmts haddition
  · exact .malformed

@[simp] theorem rejectsOnly_inClause (h : CanPrintBelow raised pr p.node) :
    RejectsOnly raised (inClause pr p) := by
  unfold inClause
  split
  · next hbody =>
      obtain ⟨hpattern, hstmts, haddition⟩ := h.parts hbody
      exact .bind hpattern.print fun _ => rejectsOnly_caseClause _ hstmts haddition
  · exact .malformed

@[simp] theorem rejectsOnly_arrayPattern (h : CanPrintBelow raised pr p.node) :
    RejectsOnly raised (arrayPattern pr p) := by
  unfold arrayPattern
  split
  · next hbody =>
      have hconstant := h _ (by rw [hbody]; exact .head _)
      have hitems := fun v hv => h v (by rw [hbody]; exact .tail _ hv)
      refine .bind (rejectsOnly_printAll hitems) fun items => ?_
      extract_lets args
      split
      · exact .bind hconstant.print fun _ => .pure _
      · split <;> exact .pure _
  · exact .malformed

theorem rejectsOnly_patternPair (h : CanPrint raised pr v) :
    RejectsOnly raised (patternPair pr p v) := by
  unfold patternPair
  split
  · exact h.print
  · refine .liftBind (by simp) ?_
    rintro ⟨key, value⟩ hpair
    obtain ⟨hkey, hvalue⟩ := canPrint_pairParts h hpair
    dsimp only
    refine .bind hkey.print fun key => ?_
    split
    · exact .pure _
    · exact .bind hvalue.print fun _ => .pure _

@[simp] theorem rejectsOnly_hashPattern (h : CanPrintBelow raised pr p.node) :
    RejectsOnly raised (hashPattern pr p) := by
  unfold hashPattern
  split
  · next hbody =>
      obtain ⟨hconstant, hpairs⟩ := h.parts hbody
      refine .liftBind (by simp) fun pairs hin => ?_
      split
      · split
        · exact .pure _
        · exact .bind hconstant.print fun _ => .pure _
      · refine .bind (.mapM fun v hv => rejectsOnly_patternPair (hpairs.elements hin v hv))
          fun _ => ?_
        extract_lets args
        split
        · exact .bind hconstant.print fun _ => .pure _
        · split <;> exact .pure _
  · exact .malformed

@[simp] theorem rejectsOnly_rightAssign (h : CanPrintBelow raised pr p.node) :
    RejectsOnly raised (rightAssign pr p) := by
  unfold rightAssign
  split
  · next hbody =>
      obtain ⟨hvalue, -, hpattern⟩ := h.parts hbody
      exact .bind hvalue.print fun _ => .bind hpattern.print fun _ => .pure _
  · exact .malformed

@[simp] theorem rejectsOnly_rescueModifier (h : CanPrintBelow raised pr p.node) :
    RejectsOnly raised (rescueModifier pr p) := by
  unfold rescueModifier
  split
  · next hbody =>
      obtain ⟨hstatement, hvalue⟩ := h.parts hbody
      exact .bind hstatement.print fun _ => .bind hvalue.print fun _ => .pure _
  · exact .malformed

/-! ## Jumps -/

theorem canPrint_onlyArgument? {around : List Tree} {arg : Place} (h : CanPrint raised pr v)
    (harg : onlyArgument? around v = .ok (some arg)) : CanPrint raised pr (.node arg.node) := by
  induction v using Value.induction generalizing around with
  | node n ih =>
      obtain ⟨tag, body, comments, loc⟩ := n
      unfold onlyArgument? at harg
      split at harg
      · split at harg
        · split at harg
          · cases harg
          · exact ih _ (.head _) (h.below.parts rfl).1 harg
        · cases harg
      · split at harg
        · split at harg
          · split at harg
            · cases harg
            · exact ih _ (.head _) (h.below _ (.head _)) harg
          · cases harg
        · cases harg
          exact h
  | null | bool | int | real | text | list => cases harg

theorem canPrint_parenStatement? {stmt : Place} (h : CanPrintBelow raised pr p.node)
    (hstmt : parenStatement? p = .ok (some stmt)) : CanPrint raised pr (.node stmt.node) := by
  obtain ⟨-, stmts, m, hstmts, -, -, hbody, rfl⟩ := parenStatement?_eq_some.mp hstmt
  exact (h _ (List.mem_of_getElem? hstmts)).below _ (by rw [hbody]; exact .head _)

theorem rejectsOnly_returnedValues (h : CanPrint raised pr (.node p.node)) :
    RejectsOnly raised (returnedValues pr p) := by
  have hvisit : RejectsOnly raised (do return [(← pr.visit p).doc] : PrintM (List Doc)) :=
    .bind h.visit fun _ => .pure _
  unfold returnedValues
  split
  · refine .liftBind (by simp) fun list hlist => ?_
    split
    · split
      · exact rejectsOnly_argumentList (h.below.child hlist)
      · exact hvisit
    · exact hvisit
  · exact hvisit

@[simp] theorem rejectsOnly_returnJump (h : CanPrintBelow raised pr p.node) :
    RejectsOnly raised (returnJump pr p) := by
  refine .liftBind (by simp) fun args hargs => .liftBind (by simp) fun nodes _ => ?_
  have hargs := h.child hargs
  split
  · exact .pure _
  · refine .liftBind (by simp) fun only honly => ?_
    split
    · exact .bind (rejectsOnly_argumentList hargs) fun _ => .pure _
    · have harg := canPrint_onlyArgument? hargs honly
      split
      · exact .bind (rejectsOnly_returnedValues harg) fun _ => .pure _
      · refine .liftBind (by simp) fun found hfound => ?_
        split
        · exact .bind hargs.print fun _ => .pure _
        · refine .liftBind (by simp) fun skips _ => ?_
          split
          · exact .bind (rejectsOnly_returnedValues (canPrint_parenStatement? harg.below hfound))
              fun _ => .pure _
          · exact .bind hargs.print fun _ => .pure _

theorem rejectsOnly_parenJump (keyword : String) (h : CanPrint raised pr (.node p.node)) :
    RejectsOnly raised (parenJump pr keyword p) := by
  have hvisit : RejectsOnly raised (do return .cat [keyword, (← pr.visit p).doc] : PrintM Doc) :=
    .bind h.visit fun _ => .pure _
  refine .liftBind (by simp) fun found _ => ?_
  split
  · split
    · exact .bind h.below.printChild fun _ => .pure _
    · exact hvisit
  · exact hvisit

@[simp] theorem rejectsOnly_jump (keyword : String) (h : CanPrintBelow raised pr p.node) :
    RejectsOnly raised (jump keyword pr p) := by
  refine .liftBind (by simp) fun args hargs => .liftBind (by simp) fun nodes _ => ?_
  have hargs := h.child hargs
  split
  · exact .pure _
  · refine .liftBind (by simp) fun only honly => ?_
    split
    · split
      · exact rejectsOnly_parenJump keyword (canPrint_onlyArgument? hargs honly)
      · exact .bind (rejectsOnly_argumentList hargs) fun _ => .pure _
    · exact .bind (rejectsOnly_argumentList hargs) fun _ => .pure _

/-! ## Entries -/

/-- On nodes whose bodies can be printed, an entry rejects only what the formatter raises. -/
def EntryRejectsOnly (x : Registration) : Prop :=
  ∀ (raised : Fault → Prop) (pr : Printer) (p : Place), p.node.tag ∈ x.tags →
    CanPrintBelow raised pr p.node →
    (∀ e, FormatterRaises pr.options pr.formatter p.node e → raised e) →
      RejectsOnly raised (x.entry.rule pr p)

section

variable {tags : List String} {name : String}

@[simp] theorem entryRejectsOnly_plain {rule : DocRule}
    (h : ∀ {raised : Fault → Prop} {pr : Printer} {p : Place},
      CanPrintBelow raised pr p.node → RejectsOnly raised (rule pr p)) :
    EntryRejectsOnly (plain tags name rule) :=
  fun _ _ _ _ hp _ => rejectsOnly_ofDoc (h hp)

@[simp] theorem entryRejectsOnly_placing {rule : DocRule}
    (h : ∀ {raised : Fault → Prop} {pr : Printer} {p : Place},
      CanPrintBelow raised pr p.node → RejectsOnly raised (rule pr p)) :
    EntryRejectsOnly (placing tags name rule) :=
  fun _ _ _ _ hp _ => rejectsOnly_ofDoc (h hp)

@[simp] theorem entryRejectsOnly_linking {rule : Rule}
    (h : ∀ {raised : Fault → Prop} {pr : Printer} {p : Place},
      CanPrintBelow raised pr p.node → RejectsOnly raised (rule pr p)) :
    EntryRejectsOnly (linking tags name rule) :=
  fun _ _ _ _ hp _ => h hp

theorem entryRejectsOnly_heredoc : EntryRejectsOnly (plain ["heredoc"] name heredoc) :=
  fun _ _ _ htag hp hraised =>
    rejectsOnly_ofDoc (rejectsOnly_heredoc (List.mem_singleton.mp htag) hp hraised)

end

/-- Every rule rejects only what the formatter raises. The lemmas of the rules are tagged where they
stand; what is left are rules of a line. -/
theorem entryRejectsOnly_all : ∀ x ∈ all, EntryRejectsOnly x := by
  simp only [all, tokens, literals, statements, expressions, collections, calls, definitions,
    branches, flow, List.forall_mem_append, List.forall_mem_cons, List.not_mem_nil, false_imp_iff,
    implies_true, and_true]
  and_intros
  all_goals first
    | exact entryRejectsOnly_heredoc
    | simp +contextual [callWithArguments, command, receiverCommand]
    | refine entryRejectsOnly_plain fun h => ?_
      simp [-bind_pure_comp, RejectsOnly.pure, RejectsOnly.bind, RejectsOnly.lift, h.printChild,
        rejectsOnly_printAll h, rejectsOnly_stringParts h, token, integer, stringContent,
        variableInterpolation, symbolLiteral, program, voidStmt, beginBlock, hook, variableName,
        constPath, topConst, definedCheck, values, word, pairSplat, argStar, blockArg, callName,
        keyword, restParam, keywordRestParam, excessedComma]

end Rules

end RubyPretty
