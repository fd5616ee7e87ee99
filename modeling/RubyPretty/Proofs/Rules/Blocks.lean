import RubyPretty.Proofs.Rules.Calls
import RubyPretty.Proofs.Rules.Conditionals
/-!
# Blocks and lambdas are kept

A block that only calls a method on its parameter may be passed as `&:method`. The parameter is
then gone, so names are kept only where that form is not asked for. Comments are kept anyway,
because a block with comments is never passed so.
-/

namespace RubyPretty

open Doc Keep

namespace Rules

variable {k : Keep} {pr : Printer}

/-! ## Blocks that are passed as arguments -/

theorem owed_of_isToken (hnames : k.names = false) {n : Tree} (h : n.isToken = true) :
    k.owed (.node n) = 0 := by
  rw [owed_eq_name h]
  simp [name, hnames]

theorem isToken_of_carried {n : Tree} {v : Value} (h : n.carried = .ok v) : n.isToken = true := by
  unfold Node.carried at h
  split at h
  · assumption
  · cases h

theorem owed_singleParam (hnames : k.names = false) {params param : Tree}
    (hparams : Value.Conforms (.node params)) (htag : params.tag = "params")
    (h : Shape.singleParam? params = .ok (some param)) : k.owed (.node params) = 0 := by
  obtain ⟨howed, hfits⟩ := owed_children (k := k) hparams (by rw [htag]; decide)
  have habsent := fun v => owed_absentParam (k := k) (v := v) hparams htag
  have hreqs : ∀ v, params.body[0]? = some v → Grammar.Slot.items.admits v = true := fun v hv =>
    Node.admits_slot hparams.isShaped (by rw [htag]; rfl) hv
  rw [howed]
  unfold Shape.singleParam? at h
  split at h
  · next reqs opts rest posts keywords kwrest block hbody =>
      rw [hbody] at habsent hreqs hfits ⊢
      rw [Except.bind_eq_ok] at h
      obtain ⟨elements, helements, h⟩ := h
      obtain ⟨hsum, -⟩ := owedAll_optionalElements (k := k) (hfits reqs (by simp))
        (node?_of_items (hreqs reqs rfl)) helements
      split at h
      · cases h
      · next hothers =>
          have hothers : ∀ v ∈ [opts, rest, posts, keywords, kwrest, block], k.owed v = 0 := by
            intro v hv
            refine habsent v (List.mem_cons_of_mem _ hv) ?_
            simpa using fun ht => hothers (List.any_eq_true.mpr ⟨v, hv, ht⟩)
          have hparam : k.owedAll elements = 0 := by
            split at h
            · next param' =>
                split at h
                · next hident =>
                    have htoken : param'.isToken = true := by rw [Node.isToken, hident]; decide
                    simp [owed_of_isToken hnames htoken]
                · cases h
            · cases h
          simp only [List.mem_cons, List.not_mem_nil, or_false, forall_eq_or_imp, forall_eq]
            at hothers
          simp [hothers, ← hsum, hparam]
  · cases h

theorem bare_of_not {n : Tree} {tag : String}
    (h : ¬(decide (n.tag ≠ tag) || n.hasComments) = true) : n.tag = tag ∧ n.comments = [] := by
  simpa [Node.hasComments] using h

/-- A statement that calls a method on a parameter: the receiver is a variable, and both it and the
message are written as tokens. -/
theorem methodOn?_eq_some {param stmt : Tree} {s : String}
    (h : Shape.methodOn? param stmt = .ok (some s)) :
    stmt.tag = "call" ∧ stmt.comments = [] ∧ ∃ (receiver token message : Tree) (operator : Value),
      stmt.body = [.node receiver, operator, .node message] ∧ receiver.tag = "var_ref" ∧
        receiver.body[0]? = some (.node token) ∧ token.isToken = true ∧ message.isToken = true := by
  unfold Shape.methodOn? at h
  split at h
  · cases h
  · next hcall =>
      obtain ⟨htag, hcomments⟩ := bare_of_not hcall
      refine ⟨htag, hcomments, ?_⟩
      split at h
      · next receiver operator message hbody =>
          rw [Except.bind_eq_ok] at h
          obtain ⟨r, hr, h⟩ := h
          obtain rfl := Value.asNode_eq_ok.mp hr
          split at h
          · cases h
          · next hvar =>
              simp only [Except.bind_eq_ok] at h
              obtain ⟨token, htoken, name, hname, _, _, h⟩ := h
              split at h
              · cases h
              · rw [Except.bind_eq_ok] at h
                obtain ⟨isDot, -, h⟩ := h
                split at h
                · cases h
                · split at h
                  · next m =>
                      split at h
                      · rw [Except.bind_eq_ok] at h
                        obtain ⟨_, hm, -⟩ := h
                        exact ⟨r, token, m, operator, hbody, (bare_of_not hvar).1,
                          Node.childNode_eq_ok.mp htoken, isToken_of_carried hname,
                          isToken_of_carried hm⟩
                      · cases h
                  · cases h
      · cases h

theorem owed_methodOn (hnames : k.names = false) {param stmt : Tree}
    (hstmt : Value.Conforms (.node stmt)) {s : String}
    (h : Shape.methodOn? param stmt = .ok (some s)) :
    stmt.comments = [] ∧ k.owed (.node stmt) = 0 := by
  obtain ⟨htag, hcomments, receiver, token, message, operator, hbody, hvar, hfirst, htoken,
    hmessage⟩ := methodOn?_eq_some h
  refine ⟨hcomments, ?_⟩
  obtain ⟨howed, hreceiver, -⟩ := owed_call (k := k) hstmt htag hbody
  obtain ⟨v, hv, -, hvariable⟩ := owed_only (k := k) hreceiver (by rw [hvar]; decide)
    (by rw [hvar]; decide)
  rw [hv] at hfirst
  obtain rfl : v = .node token := Option.some.inj hfirst
  rw [howed, hvariable, owed_of_isToken hnames htoken, owed_of_isToken hnames hmessage]

theorem owed_onlyMethodOn (hnames : k.names = false) {param stmts stmt : Tree}
    (hstmts : Value.Conforms (.node stmts)) (hbody : stmts.body = [.node stmt]) {s : String}
    (h : Shape.methodOn? param stmt = .ok (some s)) : k.owed (.node stmts) = 0 := by
  cases htoken : stmts.isToken with
  | true => exact owed_of_isToken hnames htoken
  | false =>
      obtain ⟨hcomments, howed⟩ := owed_methodOn hnames
        (conforms_of_mem hstmts htoken (by rw [hbody]; exact List.mem_cons_self)) h
      have hname : k.name stmts = 0 := by simp [name, hnames]
      have hown := own_le (k := k) stmt
      rw [hcomments, notes_nil, Nat.le_zero] at hown
      rw [owed_node, here, hname, hbody]
      simp [ownOf, hown, howed]

theorem owed_plainBody {n : Tree} (hn : Value.Conforms (.node n)) (htag : n.tag = "bodystmt")
    {stmts : Value} {clauses : List Value} (hbody : n.body = stmts :: clauses)
    (hnull : clauses.any (!·.isNull) = false) :
    k.owed (.node n) = k.owed stmts ∧ stmts.Conforms := by
  obtain ⟨howed, hfits⟩ := owed_children (k := k) hn (by rw [htag]; decide)
  have hclauses : k.owedAll clauses = 0 := by
    refine owedAll_eq_zero fun v hv => ?_
    have hv : v.isNull = true := by simpa using List.any_eq_false.mp hnull v hv
    rw [Value.isNull_iff.mp hv, owed_null]
  rw [howed, hbody, owedAll_cons, hclauses, Nat.add_zero]
  exact ⟨rfl, hfits stmts (by rw [hbody]; exact List.mem_cons_self)⟩

theorem tag_of_optional {tags : List String} {n : Tree}
    (h : (Grammar.Slot.optional tags).admits (.node n) = true) : n.tag ∈ tags := by
  simpa [Grammar.Slot.admits, Value.isNull, Value.tag?, Value.node?] using h

theorem owed_blockStatements {block stmts : Tree} (hblock : block.isShaped = true)
    {vars body : Value} (hbody : block.body = [vars, body]) (hfits : body.Conforms)
    (h : Shape.blockStatements? block = .ok (some stmts)) :
    k.owed body = k.owed (.node stmts) ∧ Value.Conforms (.node stmts) := by
  unfold Shape.blockStatements? at h
  split at h
  · rw [Except.bind_eq_ok] at h
    obtain ⟨n, hn, h⟩ := h
    cases h
    rw [Node.childNode_eq_ok, hbody] at hn
    obtain rfl : body = .node stmts := Option.some.inj hn
    exact ⟨rfl, hfits⟩
  · next htag =>
      rw [Decidable.not_not] at htag
      rw [Except.bind_eq_ok] at h
      obtain ⟨n, hn, h⟩ := h
      rw [Node.childNode_eq_ok, hbody] at hn
      obtain rfl : body = .node n := Option.some.inj hn
      have hslot : n.tag ∈ ["bodystmt"] :=
        tag_of_optional (Node.admits_slot hblock (i := 1) (by rw [htag]; rfl) (by rw [hbody]; rfl))
      split at h
      · next s r e en hparts =>
          split at h
          · next hnull =>
              rw [Except.bind_eq_ok] at h
              obtain ⟨m, hm, h⟩ := h
              cases h
              obtain rfl := Value.asNode_eq_ok.mp hm
              refine owed_plainBody hfits (List.mem_singleton.mp hslot) hparts ?_
              simp only [Bool.and_eq_true] at hnull
              simp [hnull]
          · cases h
      · cases h

theorem owed_tokens (hnames : k.names = false) {v : Value}
    (h : Grammar.Slot.tokens.admits v = true) : k.owed v = 0 := by
  cases v with
  | list vs =>
      rw [owed_list]
      refine owedAll_eq_zero fun w hw => ?_
      have hw := List.all_eq_true.mp h w hw
      cases w with
      | node n =>
          exact owed_of_isToken hnames (by simpa [Grammar.isTokenValue, Value.node?] using hw)
      | _ => cases hw
  | node n => cases h
  | _ => rfl

/-- A block takes one parameter, and its statements are all that may count of it. -/
theorem owed_blockVar (hnames : k.names = false) {blockVar params param : Tree}
    (hvars : Value.Conforms (.node blockVar)) (htag : blockVar.tag = "block_var")
    (hparams : blockVar.body[0]? = some (.node params))
    (h : Shape.singleParam? params = .ok (some param)) : k.owed (.node blockVar) = 0 := by
  obtain ⟨howed, hfits⟩ := owed_children (k := k) hvars (by rw [htag]; decide)
  obtain ⟨v, locals, hbody⟩ := List.length_eq_two.mp
    (Node.length_body hvars.isShaped (m := 2) (by rw [htag]; decide))
  rw [hbody] at hparams
  obtain rfl : v = .node params := Option.some.inj hparams
  have hslot : params.tag ∈ ["params"] := tag_of_optional
    (Node.admits_slot hvars.isShaped (i := 0) (by rw [htag]; rfl) (by rw [hbody]; rfl))
  have hlocals := owed_tokens hnames (Node.admits_slot hvars.isShaped (i := 1) (v := locals)
    (by rw [htag]; rfl) (by rw [hbody]; rfl))
  have hsingle := owed_singleParam hnames (hfits _ (by rw [hbody]; exact List.mem_cons_self))
    (List.mem_singleton.mp hslot) h
  rw [howed, hbody]
  simp [hsingle, hlocals]

theorem toProc_eq_some {block : Tree} {s : String} (h : Shape.toProc block = .ok (some s)) :
    ∃ (vars : Value) (params param stmts stmt : Tree) (method : String),
      block.body[0]? = some vars ∧ vars.item 0 = .ok (.node params) ∧
        Shape.singleParam? params = .ok (some param) ∧
        Shape.blockStatements? block = .ok (some stmts) ∧ stmts.body = [.node stmt] ∧
        Shape.methodOn? param stmt = .ok (some method) := by
  unfold Shape.toProc at h
  rw [Except.bind_eq_ok] at h
  obtain ⟨vars, hvars, h⟩ := h
  split at h
  · cases h
  · simp only [Except.bind_eq_ok] at h
    obtain ⟨v, hitem, params, hparams, single?, hsingle, h⟩ := h
    obtain rfl := Value.asNode_eq_ok.mp hparams
    cases single? with
    | none => cases h
    | some param =>
        simp only [Except.bind_eq_ok] at h
        obtain ⟨stmts?, hstmts, h⟩ := h
        cases stmts? with
        | none => cases h
        | some stmts =>
            simp only [Except.bind_eq_ok] at h
            obtain ⟨ns, hns, h⟩ := h
            split at h
            · next stmt =>
                split at h
                · cases h
                · rw [Except.bind_eq_ok] at h
                  obtain ⟨method?, hmethod, h⟩ := h
                  cases method? with
                  | none => cases h
                  | some method =>
                      exact ⟨vars, params, param, stmts, stmt, method, Node.child_eq_ok.mp hvars,
                        hitem, hsingle, hstmts, Node.body_of_bodyNodes hns, hmethod⟩
            · cases h

/-- Where names do not count, nothing counts of a block that can be passed as `&:method`. -/
theorem owed_toProc (hnames : k.names = false) {block : Tree}
    (hblock : Value.Conforms (.node block)) (htag : block.tag ∈ ["brace_block", "do_block"])
    {s : String} (h : Shape.toProc block = .ok (some s)) : k.owed (.node block) = 0 := by
  have hall : ∀ t ∈ ["brace_block", "do_block"], isPlainProduction t = true ∧
      Grammar.arity? t = some 2 ∧ (Grammar.slotsOf t)[0]? = some (.optional ["block_var"]) := by
    decide
  obtain ⟨hplain, harity, hslot⟩ := hall _ htag
  obtain ⟨howed, hfits⟩ := owed_children (k := k) hblock hplain
  obtain ⟨vars, params, param, stmts, stmt, method, hvars, hitem, hsingle, hstmts, honly,
    hmethod⟩ := toProc_eq_some h
  have hadmits := Node.admits_slot hblock.isShaped hslot hvars
  obtain ⟨w, body, hbody⟩ := List.length_eq_two.mp (Node.length_body hblock.isShaped harity)
  rw [hbody] at hvars hfits howed
  obtain rfl : w = vars := Option.some.inj hvars
  cases w with
  | null => cases hitem
  | node blockVar =>
      have hvar := owed_blockVar hnames (hfits _ (by simp))
        (List.mem_singleton.mp (tag_of_optional hadmits)) (Node.child_eq_ok.mp hitem) hsingle
      obtain ⟨hsame, hstmtsFits⟩ := owed_blockStatements (k := k) hblock.isShaped hbody
        (hfits body (by simp)) hstmts
      rw [howed]
      simp [hvar, hsame, owed_onlyMethodOn hnames hstmtsFits honly hmethod]
  | _ => cases hadmits

theorem owed_shorthand (hpr : k.Sound pr) (p : Place) {block : Tree}
    (hblock : Value.Conforms (.node block)) (htag : block.tag ∈ ["brace_block", "do_block"])
    {s : String} (h : shorthand? pr p block = .ok (some s)) : k.owed (.node block) = 0 := by
  unfold shorthand? at h
  split at h
  · cases h
  · next hwanted =>
      have hnames : k.names = false := by
        cases hnames : k.names with
        | false => rfl
        | true => exact absurd (by simp [hpr.writesBlocks hnames]) hwanted
      rw [Except.bind_eq_ok] at h
      obtain ⟨allowed, -, h⟩ := h
      split at h
      · exact owed_toProc hnames hblock htag h
      · cases h

/-! ## Calls with blocks -/

theorem yields_through (p : Place) {rule : Rule} {n : Tree}
    (h : Yields (rule pr (p.below n)) fun printed =>
      k.owed (.node n) ≤ minCount k.text printed.doc) :
    Yields (do return some (← pr.apply rule (p.below n)).doc) fun d? =>
      ∀ d, d? = some d → k.owed (.node n) ≤ minCount k.text d :=
  .bind (yields_apply _ h) fun _ hprinted => .pure fun _ hd => Option.some.inj hd ▸ hprinted

theorem yields_withBlockArgument? (hpr : k.Sound pr) (p : Place) {n : Tree}
    (hn : Value.Conforms (.node n)) (block : Doc) :
    Yields (withBlockArgument? pr p n block) fun d? =>
      ∀ d, d? = some d → k.owed (.node n) ≤ minCount k.text d := by
  unfold withBlockArgument?
  split
  · refine .bind (hpr.print p hn) fun d hd => .pure fun e he => ?_
    cases he
    simp
    omega
  · next htag =>
      refine yields_through p ((links_callWithArgumentsAnd [block] pr (p.below n) hpr hn ?_).mono
        fun _ h => h.1)
      exact List.mem_singleton.mpr htag
  · next htag =>
      refine yields_through p (.bind (keeps_commandAnd [block] pr (p.below n) hpr hn ?_)
        fun _ h => .pure h)
      exact List.mem_singleton.mpr htag
  · next htag =>
      refine yields_through p (.bind (keeps_receiverCommandAnd [block] pr (p.below n) hpr hn ?_)
        fun _ h => .pure h)
      exact List.mem_singleton.mpr htag
  · refine .bind (hpr.print p hn) fun d hd => .pure fun e he => ?_
    cases he
    simp
    omega
  · refine .bind (hpr.print p hn) fun d hd => .pure fun e he => ?_
    cases he
    simp
    omega
  · exact .pure fun _ h => by cases h

@[simp] theorem links_callWithBlock : Links k ["method_add_block"] callWithBlock := by
  intro pr p hpr hp htag
  have htag := List.mem_singleton.mp htag
  obtain ⟨howed, hfits⟩ := owed_children (k := k) hp (by rw [htag]; decide)
  unfold callWithBlock
  split
  · next callee block hbody =>
      rw [hbody] at howed hfits
      simp only [owedAll_cons, owedAll_nil] at howed
      have hplain : Yields (callWithPlainBlock pr p callee block) (Chained k p.node) := by
        refine .bind (hpr.visitChild p (hfits callee (by simp))) fun called hcalled => ?_
        refine .bind (hpr.print p (hfits block (by simp))) fun d hd => ?_
        exact yields_extended p callee hcalled d (by omega)
      cases htoProc : pr.options.toProc with
      | false => exact .pureBind hplain
      | true =>
          refine .liftBind fun n hn => .liftBind fun proc hproc => ?_
          obtain rfl := Value.asNode_eq_ok.mp hn
          cases proc with
          | none => exact hplain
          | some s =>
              have hslot := Node.admits_slot hp.isShaped (i := 1) (by rw [htag]; rfl)
                (by rw [hbody]; rfl)
              have hblock := owed_shorthand (k := k) hpr p (hfits _ (by simp))
                (tag_of_optional hslot) hproc
              refine .liftBind fun m hm => ?_
              obtain rfl := Value.asNode_eq_ok.mp hm
              refine .bind (yields_withBlockArgument? hpr p (hfits _ (by simp)) s) fun d? hd => ?_
              cases d? with
              | none => exact hplain
              | some d =>
                  refine .pure (chained_of_doc ?_)
                  have := hd d rfl
                  omega
  · exact .throw _

/-! ## Blocks and lambdas -/

@[simp] theorem keeps_blockVar : k.Keeps ["block_var"] blockVar := by
  refine keeps_of_children (by decide) fun pr p hpr hp hfits htag => ?_
  have htag := List.mem_singleton.mp htag
  unfold blockVar
  split
  · next params locals hbody =>
      have hnode : locals.node? = none := by
        have hslot : Grammar.Slot.tokens.admits locals = true :=
          Node.admits_slot hp (i := 1) (by rw [htag]; rfl) (by rw [hbody]; rfl)
        cases locals with
        | node n => cases hslot
        | _ => rfl
      rw [hbody] at hfits ⊢
      refine .bind (hpr.print p (hfits params (by simp))) fun d hd => ?_
      have hflat := minCount_le_flatten (x := k.text) d
      have hrest : ∀ e, k.owed locals ≤ minCount k.text e →
          Yields (pure (Doc.cat ["|", d.flatten, e, "|"]))
            fun d => k.owedAll [params, locals] ≤ minCount k.text d := by
        intro e he
        refine .pure ?_
        simp
        omega
      cases htruth : locals.truth with
      | true =>
          refine .liftBind fun vs hvs => ?_
          obtain ⟨hsum, hvfits⟩ := owedAll_elements (k := k) (hfits locals (by simp)) hnode hvs
          refine .bind (hpr.printAll p hvfits) fun ds hds => .pureBind (hrest _ ?_)
          have hjoined := minCountAll_le_joined (x := k.text) ", " ds
          simp
          omega
      | false =>
          refine .pureBind (hrest .empty ?_)
          rw [owed_of_not_truth htruth (by simp [Value.tag?, hnode])]
          exact Nat.zero_le _
  · exact .throw _

/-- The statements of a body owe what the body does, unless there are clauses. -/
theorem owed_bodyParts {n : Tree} (hn : Value.Conforms (.node n)) (htag : n.tag = "bodystmt")
    {stmts : Value} (h : bodyParts n = .ok (stmts, false)) :
    k.owed (.node n) = k.owed stmts ∧ stmts.Conforms := by
  unfold bodyParts at h
  rw [Except.bind_eq_ok] at h
  obtain ⟨v, hv, h⟩ := h
  obtain ⟨rfl, hclauses⟩ := Prod.mk.inj (Except.ok.inj h)
  rw [Node.child_eq_ok] at hv
  have hlength := Node.length_body hn.isShaped (m := 4) (by rw [htag]; decide)
  cases hbody : n.body with
  | nil => simp [hbody] at hlength
  | cons w clauses =>
      rw [hbody] at hv hclauses
      obtain rfl : w = v := Option.some.inj hv
      exact owed_plainBody hn htag hbody hclauses

theorem yields_blockLayout (p : Place) {m : Nat} {onLines onOneLine : Doc}
    (hlines : m ≤ minCount k.text onLines) (hline : m ≤ minCount k.text onOneLine)
    (onlyComments : Bool) :
    Yields (do
      let ofCommand ← match p.parent? with
        | some parent =>
            if parent.tag = "method_add_block" then do
              pure (commandTags.contains (← liftM (parent.childNode 0)).tag)
            else pure false
        | none => pure false
      if onlyComments || ofCommand then return .cat [.breakParent, onLines]
      return .grouped [.either onLines onOneLine]) fun d => m ≤ minCount k.text d := by
  have hrest : ∀ ofCommand : Bool, Yields (do
      if onlyComments || ofCommand then return .cat [.breakParent, onLines]
      return .grouped [.either onLines onOneLine]) fun d => m ≤ minCount k.text d := by
    intro ofCommand
    split
    · exact .pure (by simp; omega)
    · exact .pure (by simp; omega)
  split
  · split
    · exact .liftBind fun _ _ => .pureBind (hrest _)
    · exact .pureBind (hrest _)
  · exact .pureBind (hrest _)

theorem yields_blockStatements (p : Place) {m : Nat} (vars stmts : Value)
    (opening closing varsDoc statements : Doc) (hvars : m ≤ minCount k.text varsDoc)
    (hnull : vars.isNull = true → m = 0) (hstmts : stmts.Conforms)
    (hstatements : k.owed stmts ≤ minCount k.text statements) :
    Yields (do
      let empty ← liftM (Shape.isEmptyStatements stmts)
      let onLines := Doc.cat
        [" ", opening, varsDoc, if empty then .empty else .indented [.softline, statements],
          .softline, closing]
      let onlyComments := (← liftM (holdsOnlyVoid stmts)) && !empty
      let ofCommand ← match p.parent? with
        | some parent =>
            if parent.tag = "method_add_block" then do
              pure (commandTags.contains (← liftM (parent.childNode 0)).tag)
            else pure false
        | none => pure false
      if onlyComments || ofCommand then return .cat [.breakParent, onLines]
      let onOneLine : Doc :=
        if empty && vars.isNull then " \x7b\x7d"
        else .cat [" \x7b", varsDoc, if empty then .empty else .cat [" ", statements], " \x7d"]
      return .grouped [.either onLines onOneLine])
      fun d => m + k.owed stmts ≤ minCount k.text d := by
  refine .liftBind fun empty hempty => .liftBind fun onlyVoid _ => ?_
  have hzero : empty = true → k.owed stmts = 0 := fun h =>
    owed_of_isEmptyStatements hstmts (h ▸ hempty)
  have hlines : m + k.owed stmts ≤ minCount k.text (Doc.cat
      [" ", opening, varsDoc, if empty then .empty else .indented [.softline, statements],
        .softline, closing]) := by
    cases empty with
    | true => simp [hzero rfl]; omega
    | false => simp; omega
  have hline : m + k.owed stmts ≤ minCount k.text (if empty && vars.isNull then " \x7b\x7d"
      else .cat [" \x7b", varsDoc, if empty then .empty else .cat [" ", statements], " \x7d"]) := by
    cases empty with
    | true =>
        cases hnone : vars.isNull with
        | true => simp [hzero rfl, hnull hnone]
        | false => simp [hzero rfl]; omega
    | false => simp; omega
  exact yields_blockLayout p hlines hline _

theorem yields_blockBody (hpr : k.Sound pr) (p : Place) {vars body stmts : Value}
    (hbody : body.Conforms) {hasClauses : Bool}
    (hplain : hasClauses = false → k.owed body = k.owed stmts ∧ stmts.Conforms)
    (opening closing varsDoc : Doc) (hvars : k.owed vars ≤ minCount k.text varsDoc) :
    Yields (do
      if hasClauses then
        return .cat [.breakParent, " ", opening, varsDoc, ← pr.print p body, .hardline, closing]
      let statements ←
        if p.node.tag = "do_block" then do pr.print (p.below (← liftM body.asNode)) stmts
        else pr.print p stmts
      let empty ← liftM (Shape.isEmptyStatements stmts)
      let onLines := Doc.cat
        [" ", opening, varsDoc, if empty then .empty else .indented [.softline, statements],
          .softline, closing]
      let onlyComments := (← liftM (holdsOnlyVoid stmts)) && !empty
      let ofCommand ← match p.parent? with
        | some parent =>
            if parent.tag = "method_add_block" then do
              pure (commandTags.contains (← liftM (parent.childNode 0)).tag)
            else pure false
        | none => pure false
      if onlyComments || ofCommand then return .cat [.breakParent, onLines]
      let onOneLine : Doc :=
        if empty && vars.isNull then " \x7b\x7d"
        else .cat [" \x7b", varsDoc, if empty then .empty else .cat [" ", statements], " \x7d"]
      return .grouped [.either onLines onOneLine])
      fun d => k.owed vars + k.owed body ≤ minCount k.text d := by
  cases hasClauses with
  | true =>
      refine .bind (hpr.print p hbody) fun d hd => .pure ?_
      simp
      omega
  | false =>
      obtain ⟨hsame, hstmts⟩ := hplain rfl
      rw [hsame]
      have hnull : vars.isNull = true → k.owed vars = 0 := fun h => by
        rw [Value.isNull_iff.mp h, owed_null]
      have htail := fun d => yields_blockStatements p vars stmts opening closing varsDoc d
        hvars hnull hstmts
      by_cases hdo : p.node.tag = "do_block"
      · simp only [if_pos hdo, Bool.false_eq_true, if_false]
        exact .liftBind fun n _ => .bind (hpr.print _ hstmts) htail
      · simp only [if_neg hdo, Bool.false_eq_true, if_false]
        exact .bind (hpr.print p hstmts) htail

@[simp] theorem keeps_block : k.Keeps ["brace_block", "do_block"] block := by
  refine keeps_of_children (by decide) fun pr p hpr hp hfits htag => ?_
  unfold block
  split
  · next vars body hbody =>
      have hslot : p.node.tag = "do_block" → Grammar.Slot.body.admits body = true := fun h =>
        Node.admits_slot hp (i := 1) (by rw [h]; rfl) (by rw [hbody]; rfl)
      rw [hbody] at hfits ⊢
      have hvars := hfits vars (by simp)
      have hbodyFits := hfits body (by simp)
      have hnone : vars.isNull = true → k.owed vars ≤ minCount k.text .empty := fun h => by
        rw [Value.isNull_iff.mp h, owed_null]
        exact Nat.zero_le _
      have hsome : ∀ d, k.owed vars ≤ minCount k.text d →
          k.owed vars ≤ minCount k.text (.cat [" ", d]) :=
        fun d hd => by simp; omega
      simp only [owedAll_cons, owedAll_nil, Nat.add_zero]
      by_cases hbrace : p.node.tag = "brace_block"
      · simp only [if_pos hbrace]
        refine .pureBind ?_
        have hplain : false = false → k.owed body = k.owed body ∧ body.Conforms :=
          fun _ => ⟨rfl, hbodyFits⟩
        by_cases hnull : vars.isNull = true
        · rw [if_pos hnull]
          exact .pureBind (yields_blockBody hpr p hbodyFits hplain _ _ _ (hnone hnull))
        · rw [if_neg hnull]
          exact .bind (hpr.print p hvars) fun d hd =>
            .pureBind (yields_blockBody hpr p hbodyFits hplain _ _ _ (hsome d hd))
      · -- the statements of `do` stand in a body, which may have clauses
        have hdo : p.node.tag = "do_block" := by simpa [hbrace] using htag
        simp only [if_neg hbrace]
        refine .liftBind fun n hn => .liftBind fun (stmts, hasClauses) hparts => ?_
        obtain rfl := Value.asNode_eq_ok.mp hn
        have hplain : hasClauses = false → k.owed (.node n) = k.owed stmts ∧ stmts.Conforms := by
          rintro rfl
          exact owed_bodyParts hbodyFits (List.mem_singleton.mp (tag_of_optional (hslot hdo)))
            hparts
        simp only
        by_cases hnull : vars.isNull = true
        · rw [if_pos hnull]
          exact .pureBind (yields_blockBody hpr p hbodyFits hplain _ _ _ (hnone hnull))
        · rw [if_neg hnull]
          exact .bind (hpr.print p hvars) fun d hd =>
            .pureBind (yields_blockBody hpr p hbodyFits hplain _ _ _ (hsome d hd))
  · exact .throw _

theorem yields_lambdaStatements (hpr : k.Sound pr) (p : Place) {n : Tree}
    (hn : Value.Conforms (.node n)) :
    Yields (lambdaStatements pr p n) fun found => ∀ stmts d, found = some (stmts, d) →
      stmts.Conforms ∧ k.owed (.node n) = k.owed stmts ∧ k.owed stmts ≤ minCount k.text d := by
  unfold lambdaStatements
  split
  · refine .bind (hpr.print p hn) fun d hd => .pure fun _ _ h => ?_
    cases h
    exact ⟨hn, rfl, hd⟩
  · next htag =>
      rw [Decidable.not_not] at htag
      refine .liftBind fun (stmts, hasClauses) hparts => ?_
      cases hasClauses with
      | true => exact .pure fun _ _ h => by cases h
      | false =>
          obtain ⟨hsame, hstmts⟩ := owed_bodyParts (k := k) hn htag hparts
          refine .bind (hpr.print _ hstmts) fun d hd => .pure fun _ _ h => ?_
          cases h
          exact ⟨hstmts, hsame, hd⟩

@[simp] theorem keeps_lambda : k.Keeps ["lambda"] lambda := by
  refine keeps_of_children (by decide) fun pr p hpr hp hfits htag => ?_
  have htag := List.mem_singleton.mp htag
  unfold lambda
  split
  · next params body hbody =>
      have hslot : Grammar.Slot.parameters.admits params = true :=
        Node.admits_slot hp (i := 0) (by rw [htag]; rfl) (by rw [hbody]; rfl)
      rw [hbody] at hfits ⊢
      refine .liftBind fun list hlist => ?_
      obtain rfl := Value.asNode_eq_ok.mp hlist
      refine .bind (yields_parameterList hpr p (hfits _ (by simp)) hslot) fun ps hps => ?_
      refine .liftBind fun n hn => ?_
      obtain rfl := Value.asNode_eq_ok.mp hn
      have hn := hfits (.node n) (by simp)
      refine .bind (yields_lambdaStatements hpr p hn) fun found hfound => ?_
      cases found with
      | none =>
          refine .bind (hpr.print p hn) fun d hd => .pure ?_
          simp
          omega
      | some pair =>
          obtain ⟨stmts, d⟩ := pair
          obtain ⟨hstmts, hsame, hd⟩ := hfound stmts d rfl
          refine .liftBind fun isEmpty hempty => ?_
          cases isEmpty with
          | true =>
              rw [owed_of_isEmptyStatements hstmts hempty] at hsame
              refine .pure ?_
              simp [hsame]
              omega
          | false =>
              refine .pure ?_
              simp
              omega
  · exact .throw _

end Rules

end RubyPretty
