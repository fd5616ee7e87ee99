import RubyPretty.Proofs.Rules.Default
import RubyPretty.Proofs.Rules.PlainForm
/-!
# The two layouts of a chain

A link hands on the pieces of the layout with one call a line. Three rules add to it, each in its
own way: a call may keep its operator on the line of the receiver, a call with arguments may lose
its parentheses, and a block may be passed as an argument. Whichever it is, the pieces have the text
of the document (`laid_of_isLinkRule`), and so both layouts have the text of the plain form where
the chain ends (`readsAs_of_isLinkRule`).
-/

namespace RubyPretty

namespace Chain

open Doc

variable {o : Options} {pr : Printer} {p : Place} {extra : List Doc} {receiver : Value}
  {received : Printed}

/-! ## Calls -/

theorem yields_callTail (hoptions : pr.options = o) (htag : p.node.tag = "call")
    (hjoins : joins o extra p = true) (hbody : p.node.body.head? = some receiver)
    (hgives : Gives pr p receiver received) (hreceived : HandsOn (below o p) received)
    (operatorTrails : Bool) (operatorDoc : Doc) (right : List Doc) :
    let left := if operatorTrails then .cat [received.doc, operatorDoc] else received.doc
    let tail := if operatorTrails then operatorDoc :: right else right
    let pieces := if received.link.isSome then tail else right
    Yields (do
      let link ← liftM (next p receiver received.link left pieces true)
      match ← closing? pr p received.link with
      | some chain => return ⟨vertical chain (.cat tail) (.cat [left, .grouped right]), none⟩
      | none => return ⟨.grouped [left, .grouped [.indented right]], link⟩)
      (Laid o pr extra p) := by
  intro left tail pieces
  have hleft : left.marks ++ right.flatMap marks = received.doc.marks ++ (cat tail).marks := by
    cases operatorTrails <;> simp [left, tail]
  refine yields_joined hoptions hjoins hbody hgives hreceived (iff_of_true rfl htag) (.cat tail)
    ?_ ?_ ?_ ?_
  · rw [← hleft]
    simp
  · intro hnone
    simp [pieces, hnone]
  · intro hsome
    have hpieces : pieces = tail := if_pos (Option.isSome_iff_ne_none.mpr hsome)
    rw [hpieces, marks_cat]
  · intro link hlink
    refine endsChain_vertical hreceived hlink (.inl htag) ?_ ?_
    · rw [← hleft]
      simp
    · simp

theorem yields_callWithMessage (hoptions : pr.options = o) (htag : p.node.tag = "call")
    {message : Value} (hbody : p.node.body.head? = some receiver)
    (hgives : Gives pr p receiver received) (hreceived : HandsOn (below o p) received)
    (sign : Value) (messageDoc : Doc) :
    Yields (do
      let operatorDoc ← liftM (Rules.plainText sign)
      let operatorTrails := message.node?.any (·.hasLeadingComments)
      let left := if operatorTrails then .cat [received.doc, operatorDoc] else received.doc
      let right := if operatorTrails then [messageDoc] else [operatorDoc, messageDoc]
      let source ← liftM receiver.asNode
      if noIndentTags.contains source.tag then return ⟨.cat (left :: right), none⟩
      let right ←
        if ← liftM (Rules.isWhereNot source message) then pure right
        else pure ((if source.hasComments then Doc.hardline else Doc.softline) :: right)
      let tail := if operatorTrails then operatorDoc :: right else right
      let pieces := if received.link.isSome then tail else right
      let link ← liftM (next p receiver received.link left pieces true)
      match ← closing? pr p received.link with
      | some chain => return ⟨vertical chain (.cat tail) (.cat [left, .grouped right]), none⟩
      | none => return ⟨.grouped [left, .grouped [.indented right]], link⟩)
      (Laid o pr extra p) := by
  refine .liftBind fun operatorDoc _ => ?_
  simp only
  generalize message.node?.any (·.hasLeadingComments) = operatorTrails
  refine .liftBind fun source hsource => ?_
  obtain rfl := Value.asNode_eq_ok.mp hsource
  have hjoins : joins o extra p = !noIndentTags.contains source.tag := by
    rw [joins, if_pos htag, hbody]
    rfl
  split
  · next hdirect =>
      refine .pure (laid_of_not_joins ?_ _)
      rw [hjoins, hdirect]
      rfl
  · next hindirect =>
      have hjoins : joins o extra p = true := by
        rw [hjoins, Bool.eq_false_iff.mpr hindirect]
        rfl
      refine .liftBind fun isWhere _ => ?_
      split
      all_goals
        exact .pureBind (yields_callTail hoptions htag hjoins hbody hgives hreceived
          operatorTrails operatorDoc _)

theorem laid_call (h : Folds o pr) (htag : p.node.tag = "call") :
    Yields (Rules.call pr p) (Laid o pr extra p) := by
  unfold Rules.call
  split
  · next receiver operator message hbody =>
      have hhead : p.node.body.head? = some receiver := by
        rw [hbody]
        rfl
      refine .bind (h.visitReceiver (by rw [htag]; decide) hhead) fun received hreceived => ?_
      refine .liftBind fun sign _ => ?_
      obtain ⟨hhands, hgives⟩ := hreceived
      cases Rules.isBareMessage message with
      | true =>
          exact .pureBind (yields_callWithMessage h.options htag hhead hgives hhands sign .empty)
      | false =>
          exact .anyBind fun messageDoc =>
            yields_callWithMessage h.options htag hhead hgives hhands sign messageDoc
  · exact .throw _

/-! ## Arguments -/

theorem length_spliceLast {cs : List Comment} {ds es : List Doc}
    (h : Rules.spliceLast cs ds = .ok es) : es.length = ds.length := by
  induction ds generalizing es with
  | nil =>
      cases h
      rfl
  | cons d ds ih =>
      cases ds with
      | nil =>
          obtain ⟨e, -, h⟩ := Except.bind_eq_ok.mp h
          cases h
          rfl
      | cons d' ds =>
          obtain ⟨es', hes', h⟩ := Except.bind_eq_ok.mp h
          cases h
          rw [List.length_cons, List.length_cons, ih hes']

theorem yields_printAll (pr : Printer) (p : Place) (vs : List Value) :
    Yields (pr.printAll p vs) fun ds => ds.length = vs.length :=
  (Yields.mapM (S := fun _ _ => True) vs fun _ _ _ _ _ _ => trivial).mono fun _ h =>
    h.length_eq.symm

theorem yields_arguments (pr : Printer) (around : List Tree) (v : Value) :
    Yields (Rules.arguments pr around v) fun ds => ds.length = containedCount v := by
  induction v using Value.induction generalizing around with
  | null | bool | int | real | text | list => exact .throw _
  | node n ih =>
      obtain ⟨tag, body, comments, loc⟩ := n
      have hsplice {ds : List Doc} {m : Nat} (h : ds.length = m) :
          Yields (liftM (Rules.spliceLast comments ds) : PrintM _) fun es => es.length = m :=
        .lift fun es hes => (length_spliceLast hes).trans h
      unfold Rules.arguments containedCount
      split
      · exact .bind (yields_printAll pr _ body) fun _ hds => hsplice hds
      · split
        · next args block =>
            -- the block argument comes behind the inner arguments
            have hrest {ds : List Doc} (h : ds.length = containedCount args) :
                Yields
                  (if block.isNull then pure ds >>= fun ds => liftM (Rules.spliceLast comments ds)
                  else do
                    let d ← pr.print ⟨⟨tag, [args, block], comments, loc⟩, around⟩ block
                    let ds ← pure (ds ++ [.cat ["&", d]])
                    liftM (Rules.spliceLast comments ds))
                  fun es => es.length = containedCount args + if block.isNull then 0 else 1 := by
              split
              · exact .pureBind (hsplice h)
              · refine .anyBind fun d => ?_
                refine .pureBind (hsplice ?_)
                rw [List.length_append, h]
                rfl
            have hinner := ih args (by simp) (⟨tag, [args, block], comments, loc⟩ :: around)
            cases args with
            | null => exact .pureBind (hrest rfl)
            | _ => exact .bind hinner fun _ hds => hrest hds
        · exact .throw _

theorem yields_argumentList (pr : Printer) (p : Place) (v : Value) :
    Yields (Rules.argumentList pr p v) fun ds => ds.length = argumentCount v := by
  cases v with
  | null => exact .pure rfl
  | node n =>
      show Yields (if Rules.containerTags.contains n.tag then
        Rules.arguments pr (p.node :: p.around) (.node n) else do return [← pr.print p (.node n)])
        fun ds => ds.length =
          if Rules.containerTags.contains n.tag then containedCount (.node n) else 1
      split
      · exact yields_arguments pr _ _
      · exact .anyBind fun _ => .pure rfl
  | _ => exact .throw _

theorem yields_added (hoptions : pr.options = o) (htag : p.node.tag ≠ "call")
    (hjoins : joins o extra p = true) (hbody : p.node.body.head? = some receiver)
    (hgives : Gives pr p receiver received) (hreceived : HandsOn (below o p) received)
    (tail : Doc) :
    Yields (do
      let link ← liftM (next p receiver received.link received.doc [tail] false)
      match ← closing? pr p received.link with
      | some chain => return ⟨finish chain received.doc tail, none⟩
      | none => return ⟨.cat [received.doc, tail], link⟩) (Laid o pr extra p) := by
  refine yields_joined hoptions hjoins hbody hgives hreceived
    (iff_of_false Bool.false_ne_true htag) tail ?_ (fun _ => ?_) (fun _ => ?_) fun link hlink => ?_
  · simp
  · simp
  · simp
  · exact endsChain_finish htag hreceived hlink tail

theorem argumentCount_forward {v : Value} (h : v.tag? = some "@args_forward") :
    argumentCount v = 1 := by
  cases v with
  | node n =>
      have htag : n.tag = "@args_forward" := Option.some.inj h
      rw [argumentCount, htag]
      rfl
  | _ => cases h

theorem yields_callWithContents (hoptions : pr.options = o)
    (htag : p.node.tag = "method_add_arg") (hbody : p.node.body.head? = some receiver)
    (hgives : Gives pr p receiver received) (hreceived : HandsOn (below o p) received)
    (n : Tree) (inner : Place) {contents : Value}
    (hcontents : joins o extra p = (!extra.isEmpty || argumentCount contents != 0)) :
    Yields (do
      let docs := (← Rules.argumentList pr inner contents) ++ extra
      if docs.isEmpty && contents.tag? ≠ some "@args_forward" then
        if ← liftM (Rules.keepsParens (← liftM receiver.asNode)) then
          return ⟨.cat [received.doc, "()"], none⟩
        return ⟨received.doc, none⟩
      let argsDoc ← liftM (Rules.parenthesized pr (if extra.isEmpty then contents else .null) docs)
      let argsDoc ←
        if n.tag = "arg_paren" && n.hasComments then
          liftM (Comments.splice argsDoc n.comments none)
        else pure argsDoc
      let link ← liftM (next p receiver received.link received.doc [argsDoc] false)
      match ← closing? pr p received.link with
      | some chain => return ⟨finish chain received.doc argsDoc, none⟩
      | none => return ⟨.cat [received.doc, argsDoc], link⟩) (Laid o pr extra p) := by
  refine .bind (yields_argumentList pr inner contents) fun ds hds => ?_
  simp only
  split
  · next hnone =>
      have hjoins : joins o extra p = false := by
        simp only [Bool.and_eq_true, List.isEmpty_iff, List.append_eq_nil_iff] at hnone
        obtain ⟨⟨rfl, rfl⟩, -⟩ := hnone
        rw [hcontents, ← hds]
        rfl
      refine .liftBind fun _ _ => .liftBind fun _ _ => ?_
      split <;> exact .pure (laid_of_not_joins hjoins _)
  · next hsome =>
      have hjoins : joins o extra p = true := by
        rw [hcontents, ← hds]
        by_contra hfalse
        simp only [Bool.or_eq_true, Bool.not_eq_true', List.isEmpty_eq_false_iff, bne_iff_ne,
          not_or, not_not] at hfalse
        obtain ⟨rfl, hzero⟩ := hfalse
        obtain rfl := List.length_eq_zero_iff.mp hzero
        have hforward : contents.tag? = some "@args_forward" := by simpa using hsome
        rw [argumentCount_forward hforward] at hds
        cases hds
      have hcall : p.node.tag ≠ "call" := by
        rw [htag]
        decide
      refine .liftBind fun d _ => ?_
      split
      · exact .liftBind fun spliced _ =>
          yields_added hoptions hcall hjoins hbody hgives hreceived spliced
      · exact .pureBind (yields_added hoptions hcall hjoins hbody hgives hreceived d)

theorem laid_callWithArgumentsAnd (h : Folds o pr) (htag : p.node.tag = "method_add_arg") :
    Yields (Rules.callWithArgumentsAnd extra pr p) (Laid o pr extra p) := by
  unfold Rules.callWithArgumentsAnd
  split
  · next callee argument hbody =>
      have hhead : p.node.body.head? = some callee := by
        rw [hbody]
        rfl
      refine .bind (h.visitReceiver (by rw [htag]; decide) hhead) fun received hreceived => ?_
      obtain ⟨hhands, hgives⟩ := hreceived
      refine .liftBind fun n hn => ?_
      obtain rfl := Value.asNode_eq_ok.mp hn
      have hjoins : joins o extra p =
          (!extra.isEmpty || argumentCount (argumentsOf p.node) != 0) := by
        rw [joins, if_neg (by rw [htag]; decide), if_pos htag]
      rw [argumentsOf, hbody] at hjoins
      show Yields (if n.tag = "arg_paren" then _ else _) _
      split
      · next hparen =>
          refine .liftBind fun contents hcontents => ?_
          have hhead' : n.body.headD .null = contents := by
            rw [List.headD_eq_head?_getD, List.head?_eq_getElem?, Node.child_eq_ok.mp hcontents]
            rfl
          simp only [if_pos hparen, hhead'] at hjoins
          exact .pureBind
            (yields_callWithContents h.options htag hhead hgives hhands n (p.below n) hjoins)
      · next hplain =>
          simp only [if_neg hplain] at hjoins
          exact .pureBind (yields_callWithContents h.options htag hhead hgives hhands n p hjoins)
  · exact .throw _

/-! ## Blocks -/

theorem yields_withBlockArgument? (pr : Printer) (p : Place) (callee : Tree) (block : Doc) :
    Yields (Rules.withBlockArgument? pr p callee block) fun d =>
      d.isSome = passingTags.contains callee.tag := by
  have hsome {α : Type} {m : PrintM α} {g : α → Doc} {tag : String} (htag : callee.tag = tag)
      (hmem : tag ∈ passingTags) : Yields (do return some (g (← m))) fun d =>
        d.isSome = passingTags.contains callee.tag := by
    refine .anyBind fun _ => .pure ?_
    rw [htag]
    exact (List.contains_iff_mem.mpr hmem).symm
  unfold Rules.withBlockArgument?
  split
  · next htag => exact hsome htag (by decide)
  · next htag => exact hsome htag (by decide)
  · next htag => exact hsome htag (by decide)
  · next htag => exact hsome htag (by decide)
  · next htag => exact hsome htag (by decide)
  · next htag => exact hsome htag (by decide)
  · refine .pure ?_
    simp_all [passingTags]

theorem isPassed_eq_false {callee block : Value} (hbody : p.node.body = [callee, block])
    (h : ∀ n, block = .node n → hasShorthand o p n = false) : isPassed o p = false := by
  unfold isPassed
  split
  · next heq =>
      rw [hbody] at heq
      cases heq
      rw [h _ rfl]
      rfl
  · rfl

theorem yields_callWithPlainBlock (h : Folds o pr) (htag : p.node.tag = "method_add_block")
    (hjoins : joins o extra p = true) (hbody : p.node.body.head? = some receiver) (block : Value) :
    Yields (Rules.callWithPlainBlock pr p receiver block) (Laid o pr extra p) := by
  have hcall : p.node.tag ≠ "call" := by
    rw [htag]
    decide
  refine .bind (h.visitReceiver (by rw [htag]; decide) hbody) fun received hreceived => ?_
  refine .anyBind fun d => ?_
  exact yields_added h.options hcall hjoins hbody hreceived.2 hreceived.1 d

theorem joins_block (htag : p.node.tag = "method_add_block") :
    joins o extra p = !isPassed o p := by
  rw [joins, if_neg (by rw [htag]; decide), if_neg (by rw [htag]; decide), htag]
  rfl

theorem laid_callWithBlock (h : Folds o pr) (htag : p.node.tag = "method_add_block") :
    Yields (Rules.callWithBlock pr p) (Laid o pr extra p) := by
  have hjoins : joins o extra p = !isPassed o p := joins_block htag
  unfold Rules.callWithBlock
  split
  · next callee block hbody =>
      have hhead : p.node.body.head? = some callee := by
        rw [hbody]
        rfl
      have hplain (hpassed : isPassed o p = false) :
          Yields (Rules.callWithPlainBlock pr p callee block) (Laid o pr extra p) :=
        yields_callWithPlainBlock h htag (by rw [hjoins, hpassed]; rfl) hhead block
      cases htoProc : pr.options.toProc with
      | false =>
          refine .pureBind (hplain (isPassed_eq_false hbody fun n _ => ?_))
          rw [hasShorthand, ← h.options, htoProc]
          rfl
      | true =>
          refine .liftBind fun n hn => .liftBind fun proc hproc => ?_
          obtain rfl := Value.asNode_eq_ok.mp hn
          have hshorthand := isSome_shorthand? hproc
          rw [h.options] at hshorthand
          cases proc with
          | none =>
              refine hplain (isPassed_eq_false hbody fun n' hn' => ?_)
              cases hn'
              exact hshorthand.symm
          | some s =>
              refine .liftBind fun m hm => ?_
              obtain rfl := Value.asNode_eq_ok.mp hm
              have hpassed := isPassed_of_shorthand h.options hbody hproc
              refine .bind (yields_withBlockArgument? pr p m s) fun d hd => ?_
              rw [← hpassed] at hd
              cases d with
              | none => exact hplain hd.symm
              | some d =>
                  refine .pure (laid_of_not_joins ?_ d)
                  rw [hjoins, ← hd]
                  rfl
  · exact .throw _

/-! ## All rules -/

/-- The rules for the links of a chain. A call with arguments may be printed with further ones. -/
inductive IsLinkRule (extra : List Doc) : String → Rule → Prop where
  | call : IsLinkRule extra "call" Rules.call
  | arguments : IsLinkRule extra "method_add_arg" (Rules.callWithArgumentsAnd extra)
  | block : IsLinkRule extra "method_add_block" Rules.callWithBlock

theorem laid_of_isLinkRule {rule : Rule} {tag : String} (hrule : IsLinkRule extra tag rule)
    (htag : p.node.tag = tag) (h : Folds o pr) : Yields (rule pr p) (Laid o pr extra p) := by
  cases hrule with
  | call => exact laid_call h htag
  | arguments => exact laid_callWithArgumentsAnd h htag
  | block => exact laid_callWithBlock h htag

theorem readsAs_of_isLinkRule {rule : Rule} {tag : String} (hrule : IsLinkRule extra tag rule)
    (htag : p.node.tag = tag) (h : Folds o pr) (hjoins : joins o extra p = true)
    (hlast : p.parentIs linkTags = false) : ReadsAs (rule pr p) (rule pr.unlinked p) := by
  cases hrule with
  | call => exact readsAs_call h htag hlast
  | arguments => exact readsAs_callWithArgumentsAnd h htag hlast
  | block =>
      rw [joins_block htag, Bool.not_eq_true'] at hjoins
      exact readsAs_callWithBlock h htag hjoins hlast

/-- The rule of an entry is one for links, or it never hands on a link. -/
def IsLinkOrDoc (x : Registration) : Prop :=
  (∀ tag ∈ x.tags, IsLinkRule [] tag x.entry.rule) ∨
    (∀ tag ∈ x.tags, tag ∉ linkTags) ∧ ∃ rule : DocRule, x.entry.rule = .ofDoc rule

theorem isLinkOrDoc_of_doc {tags : List String} {name : String} {own : Bool} {rule : DocRule}
    (h : ∀ tag ∈ tags, tag ∉ linkTags) : IsLinkOrDoc ⟨tags, ⟨name, .ofDoc rule⟩, own⟩ :=
  .inr ⟨h, rule, rfl⟩

theorem isLinkOrDoc_of_link {tag name : String} {own : Bool} {rule : Rule}
    (h : IsLinkRule [] tag rule) : IsLinkOrDoc ⟨[tag], ⟨name, rule⟩, own⟩ :=
  .inl (List.forall_mem_singleton.mpr h)

theorem isLinkOrDoc_all : ∀ x ∈ Rules.all, IsLinkOrDoc x := by
  simp only [Rules.all, Rules.tokens, Rules.literals, Rules.statements, Rules.expressions,
    Rules.collections, Rules.calls, Rules.definitions, Rules.branches, Rules.flow,
    List.forall_mem_append, List.forall_mem_cons, List.not_mem_nil, false_imp_iff, implies_true,
    and_true]
  and_intros
  all_goals first
    | exact isLinkOrDoc_of_link .call
    | exact isLinkOrDoc_of_link .arguments
    | exact isLinkOrDoc_of_link .block
    | exact isLinkOrDoc_of_doc (by decide)

theorem joins_of_not_link (h : p.node.tag ∉ linkTags) : joins o extra p = false := by
  simp only [linkTags, List.mem_cons, List.not_mem_nil, or_false, not_or] at h
  rw [joins, if_neg h.1, if_neg h.2.1, beq_false_of_ne h.2.2, Bool.false_and]

/-- With the comments of its node around it, what a rule hands on stays as it is, since a node with
comments hands on nothing. -/
theorem handsOn_of_laid {printed : Printed} (h : Laid o pr [] p printed)
    (hparent : p.parentIs linkTags = true) {d : Doc}
    (hd : p.node.hasComments = false → d = printed.doc) :
    HandsOn (gathered o p.around (.node p.node)) { printed with doc := d } := by
  have hcontinues : continues p = !p.node.hasComments := by
    rw [continues, hparent, Bool.true_and]
  have hnone := h.alone
  have hsome := h.linked
  rw [hcontinues] at hnone hsome
  rw [gathered_node]
  refine ⟨fun hlink => ?_, fun link hlink => ?_⟩
  · rw [hnone hlink]
    rfl
  · obtain ⟨hjoined, hmade⟩ := hsome link hlink
    rw [if_pos hjoined]
    rw [Bool.and_eq_true, Bool.not_eq_true'] at hjoined
    rw [hd hjoined.1]
    exact ⟨List.cons_ne_nil _ _, hmade⟩

theorem handsOn_apply (h : Folds o pr) (hparent : p.parentIs linkTags = true) {e : Entry}
    (he : Registry.default.find? p.node.tag = some e) :
    Yields (pr.apply e.rule p) (HandsOn (gathered o p.around (.node p.node))) := by
  obtain ⟨x, hx, htag, rfl⟩ := Registry.mem_all_of_find? he
  rcases isLinkOrDoc_all x hx with hlink | ⟨hother, rule, hrule⟩
  · refine .bind (laid_of_isLinkRule (hlink _ htag) rfl h) fun printed hlaid => ?_
    split
    · next hcomments =>
        refine .liftBind fun d _ => .pure (handsOn_of_laid hlaid hparent fun hnone => ?_)
        rw [hnone] at hcomments
        cases hcomments
    · exact .pure (handsOn_of_laid hlaid hparent fun _ => rfl)
  · have hnone : gathered o p.around (.node p.node) = [] := by
      rw [gathered_node, joins_of_not_link (hother _ htag), Bool.and_false]
      rfl
    have hrun : Yields (x.entry.rule pr p) fun printed => printed.link = none := by
      rw [hrule]
      exact .anyBind fun _ => .pure rfl
    have hdoc {printed : Printed} (hprinted : printed.link = none) :
        HandsOn (gathered o p.around (.node p.node)) printed :=
      ⟨fun _ => hnone, fun link hlink => by rw [hprinted] at hlink; cases hlink⟩
    refine .bind hrun fun printed hprinted => ?_
    split
    · exact .liftBind fun d _ => .pure (hdoc hprinted)
    · exact .pure (hdoc hprinted)

theorem folds_printer (o : Options) (formatter : Option Formatter) (depth : Nat) :
    Folds o (Registry.default.printer o formatter depth) := by
  induction depth with
  | zero => exact ⟨rfl, fun _ _ => .throw _⟩
  | succ depth ih =>
      refine ⟨rfl, fun q hq => .liftBind fun e he => ?_⟩
      exact handsOn_apply ih hq (Registry.find?_of_dispatch he)

/-- The two layouts of a chain agree. A rule for links hands on a link exactly where the chain goes
on; the link is made of its node and of the nodes below, and its pieces have the text of its
document. Where a chain ends that is long enough, both sides of the choice between the layouts have
the same text, and so have the calls with their arguments split off and the plain form, which is
what the rule gives without a link. -/
theorem chain_layouts_agree (o : Options) (formatter : Option Formatter) (depth : Nat) (p : Place)
    (extra : List Doc) (rule : Rule) (hrule : IsLinkRule extra p.node.tag rule)
    (notes notes' : List ChainNote) (printed : Printed)
    (h : rule (Registry.default.printer o formatter depth) p notes = .ok (printed, notes')) :
    printed.link.isSome = (continues p && joins o extra p) ∧
      (∀ link, printed.link = some link → MadeOf (p.node :: below o p) printed.doc link) ∧
      ∀ limit, joins o extra p = true → Closes o p limit →
        ∃ receiver received plain notes'', p.node.body.head? = some receiver ∧
          Gives (Registry.default.printer o formatter depth) p receiver received ∧
          rule (Registry.default.printer o formatter depth).unlinked p notes =
            .ok (⟨plain, none⟩, notes'') ∧
          EndsChain o p received plain printed.doc := by
  have hfolds := folds_printer o formatter depth
  have hlaid : Laid o (Registry.default.printer o formatter depth) extra p printed :=
    laid_of_isLinkRule hrule rfl hfolds notes printed notes' h
  refine ⟨?_, fun link hlink => (hlaid.linked link hlink).2, fun limit hjoins hcloses => ?_⟩
  · cases hlink : printed.link with
    | none => exact (hlaid.alone hlink).symm
    | some link => exact (hlaid.linked link hlink).1.symm
  · obtain ⟨receiver, received, _, hbody, hgives, hends⟩ := hlaid.ended limit hjoins hcloses
    obtain ⟨plain, notes'', hrun, hplain⟩ :=
      readsAs_of_isLinkRule hrule rfl hfolds hjoins hcloses.last notes printed notes' h
    exact ⟨receiver, received, plain, notes'', hbody, hgives, hrun, hends.of_sameText hplain⟩

def sampleCall (receiver : Tree) (name : String) : Tree :=
  .plain "call" [.node receiver, .node (.plain "@period" [.text "."]),
    .node (.plain "@ident" [.text name])]

def sampleLink : Tree :=
  let arguments : Tree :=
    .plain "args_add_block" [.node (.plain "args" [.node (.variableCall "c")]), .null]
  sampleCall (.plain "method_add_arg" [.node (sampleCall (.variableCall "a") "b"),
    .node (.plain "arg_paren" [.node arguments])]) "d"

/-- The link `a.b(c).d` is handed on, and `a.b(c).d.e` ends the chain. -/
theorem chain_layouts_agree_sample :
    (∃ printed link notes, Rules.call (Registry.default.printer Options.default none 9)
        ⟨sampleLink, [sampleCall sampleLink "e"]⟩ [] = .ok (printed, notes) ∧
      printed.link = some link ∧ (cat link.fragments).SameText printed.doc ∧ link.depth = 3 ∧
      link.callDepth ≠ link.depth) ∧
    ∃ printed notes received plain notes',
      Rules.call (Registry.default.printer Options.default none 9)
        (.root (sampleCall sampleLink "e")) [] = .ok (printed, notes) ∧
      Rules.call (Registry.default.printer Options.default none 9).unlinked
        (.root (sampleCall sampleLink "e")) [] = .ok (⟨plain, none⟩, notes') ∧
      EndsChain Options.default (.root (sampleCall sampleLink "e")) received plain
        printed.doc := by
  constructor
  · obtain ⟨-, hlinked, -⟩ := chain_layouts_agree Options.default none 9
      ⟨sampleLink, [sampleCall sampleLink "e"]⟩ [] Rules.call .call [] _ _ rfl
    have hmade := hlinked _ rfl
    refine ⟨_, _, _, rfl, rfl, hmade.text, hmade.depth, fun hequal => ?_⟩
    exact absurd (hmade.calls.mp hequal) (by decide)
  · obtain ⟨-, -, hended⟩ := chain_layouts_agree Options.default none 9
      (.root (sampleCall sampleLink "e")) [] Rules.call .call [] _ _ rfl
    obtain ⟨-, received, plain, notes', -, -, hplain, hends⟩ :=
      hended Options.default.chainThreshold (by decide) ⟨by decide, by decide, rfl, by decide⟩
    exact ⟨_, _, received, plain, notes', rfl, hplain, hends⟩

end Chain

end RubyPretty
