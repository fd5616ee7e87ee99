import RubyPretty.Proofs.Rules.Collections
/-!
# Calls and commands are kept

A call on a chain has its receiver twice: in its own document and in the pieces of the chain. What
counts of a link has to be counted in both, because either may be the one that is written.
-/

namespace RubyPretty

open Doc Keep

namespace Rules

variable {k : Keep} {pr : Printer}

/-! ## Chains -/

/-- All that is owed of a node is in its document, and in the pieces that it hands on. A node with
comments hands on nothing. -/
def Chained (k : Keep) (n : Tree) (printed : Printed) : Prop :=
  k.owed (.node n) ≤ minCount k.text printed.doc ∧
    ∀ link, printed.link = some link →
      n.comments = [] ∧ k.owed (.node n) ≤ minCountAll k.text link.fragments

def Links (k : Keep) (tags : List String) (rule : Rule) : Prop :=
  ∀ pr p, k.Sound pr → Value.Conforms (.node p.node) → p.node.tag ∈ tags →
    Yields (rule pr p) (Chained k p.node)

theorem chained_of_doc {n : Tree} {d : Doc} (h : k.owed (.node n) ≤ minCount k.text d) :
    Chained k n ⟨d, none⟩ :=
  ⟨h, fun _ hl => by cases hl⟩

/-- A link that is handed on continues the chain below it, or starts one. -/
theorem next_eq {p : Place} {receiver : Value} {link : Option Link} {first : Doc}
    {pieces : List Doc} {isCall : Bool} {l : Link}
    (h : Chain.next p receiver link first pieces isCall = .ok (some l)) :
    p.node.comments = [] ∧
      l.fragments = (link.map (·.fragments)).getD [first] ++ pieces := by
  unfold Chain.next at h
  split at h
  · cases h
  · next hcontinues =>
      have hcomments : p.node.comments = [] := by
        simp only [Chain.continues, Bool.not_eq_true, Bool.not_eq_false', Bool.and_eq_true,
          Node.hasComments, Bool.not_not, List.isEmpty_iff] at hcontinues
        exact hcontinues.2
      refine ⟨hcomments, ?_⟩
      cases link with
      | none =>
          simp only [Option.isNone_none, if_true, Except.bind_eq_ok] at h
          obtain ⟨-, -, h⟩ := h
          cases h
          rfl
      | some l₀ =>
          cases h
          rfl

theorem yields_closing? (p : Place) (link : Option Link) :
    Yields (Chain.closing? pr p link) fun c => ∀ l, c = some l → link = some l := by
  unfold Chain.closing?
  split
  · exact .pure fun _ h => by cases h
  · split
    · exact .pure fun _ h => by cases h
    · refine .liftBind fun limit _ => ?_
      split
      · exact .anyBind fun _ => .pure fun _ h => h
      · exact .pure fun _ h => by cases h

theorem minCount_vertical {m : Nat} {link : Link} {tail flat : Doc}
    (hlink : m ≤ minCountAll k.text link.fragments + minCount k.text tail)
    (hflat : m ≤ minCount k.text flat) :
    m ≤ minCount k.text (Chain.vertical link tail flat) := by
  simp [Chain.vertical]
  omega

theorem minCount_finish {m : Nat} {link : Link} {flat tail : Doc}
    (hlink : m ≤ minCountAll k.text link.fragments) (hflat : m ≤ minCount k.text flat) :
    m + minCount k.text tail ≤ minCount k.text (Chain.finish link flat tail) := by
  unfold Chain.finish
  split
  · simp [Chain.splitArguments]
    omega
  · exact minCount_vertical (by omega) (by simp; omega)

def Received (k : Keep) (m : Nat) (printed : Printed) : Prop :=
  m ≤ minCount k.text printed.doc ∧
    ∀ link, printed.link = some link → m ≤ minCountAll k.text link.fragments

theorem minCountAll_received {m : Nat} {called : Printed} (h : Received k m called) {first : Doc}
    (hfirst : m ≤ minCount k.text first) :
    m ≤ minCountAll k.text ((called.link.map (·.fragments)).getD [first]) := by
  cases hlink : called.link with
  | none => simpa using hfirst
  | some l => exact h.2 l hlink

theorem yields_extended (p : Place) (callee : Value) {m : Nat} {called : Printed}
    (hcalled : Received k m called) (tail : Doc)
    (howed : k.owed (.node p.node) ≤ m + minCount k.text tail) :
    Yields (do
      let link ← liftM (Chain.next p callee called.link called.doc [tail] false)
      match ← Chain.closing? pr p called.link with
      | some chain => return ⟨Chain.finish chain called.doc tail, none⟩
      | none => return ⟨.cat [called.doc, tail], link⟩) (Chained k p.node) := by
  refine .liftBind fun link hlink => .bind (yields_closing? p called.link) fun c hc => ?_
  split
  · next chain =>
      refine .pure (chained_of_doc (Nat.le_trans howed ?_))
      exact minCount_finish (hcalled.2 chain (hc chain rfl)) hcalled.1
  · have hdoc := hcalled.1
    refine .pure ⟨by simp; omega, fun l hl => ?_⟩
    simp only at hl
    obtain ⟨hcomments, hfragments⟩ := next_eq (hl ▸ hlink)
    have hreceived := minCountAll_received hcalled hcalled.1
    refine ⟨hcomments, ?_⟩
    rw [hfragments, minCountAll_append]
    simp only [minCountAll_cons, minCountAll_nil]
    omega

/-! ## Calls -/

theorem owed_of_isBareMessage {v : Value} (h : isBareMessage v = true) : k.owed v = 0 := by
  cases v with
  | text s => rfl
  | _ => cases h

theorem yields_callTail (p : Place) (receiver : Value) {m : Nat} {called : Printed}
    (hcalled : Received k m called) (operatorTrails : Bool) (operator message : Doc)
    (right : List Doc)
    (hright : minCount k.text message ≤ minCountAll k.text right)
    (howed : k.owed (.node p.node) ≤ m + minCount k.text message) (left : Doc)
    (hleft : minCount k.text called.doc ≤ minCount k.text left) :
    Yields (do
      let tail := if operatorTrails then operator :: right else right
      let pieces := if called.link.isSome then tail else right
      let link ← liftM (Chain.next p receiver called.link left pieces true)
      match ← Chain.closing? pr p called.link with
      | some chain => return ⟨Chain.vertical chain (.cat tail) (.cat [left, .grouped right]), none⟩
      | none => return ⟨.grouped [left, .grouped [.indented right]], link⟩) (Chained k p.node) := by
  have hdoc := hcalled.1
  have htail : minCountAll k.text right ≤
      minCountAll k.text (if operatorTrails then operator :: right else right) := by
    split
    · simp
    · exact Nat.le_refl _
  have hpieces : minCountAll k.text right ≤ minCountAll k.text
      (if called.link.isSome then if operatorTrails then operator :: right else right
        else right) := by
    split
    · exact htail
    · exact Nat.le_refl _
  refine .liftBind fun link hlink => .bind (yields_closing? p called.link) fun c hc => ?_
  split
  · next chain =>
      have hchain := hcalled.2 chain (hc chain rfl)
      refine .pure (chained_of_doc (minCount_vertical ?_ ?_))
      · simp only [minCount_cat]
        omega
      · simp
        omega
  · refine .pure ⟨by simp; omega, fun l hl => ?_⟩
    simp only at hl
    obtain ⟨hcomments, hfragments⟩ := next_eq (hl ▸ hlink)
    have hreceived := minCountAll_received hcalled (Nat.le_trans hdoc hleft)
    refine ⟨hcomments, ?_⟩
    rw [hfragments, minCountAll_append]
    omega

theorem owed_call {n : Tree} (hn : Value.Conforms (.node n)) (htag : n.tag = "call")
    {receiver operator message : Value} (hbody : n.body = [receiver, operator, message]) :
    k.owed (.node n) = k.owed receiver + k.owed message ∧ receiver.Conforms ∧ message.Conforms := by
  have hoperator : k.owed operator = 0 :=
    owed_of_mark hn.isShaped 1 (by rw [htag]; rfl) (by rw [hbody]; rfl)
  obtain ⟨howed, hfits⟩ := owed_children (k := k) hn (by rw [htag]; decide)
  rw [hbody] at howed hfits
  exact ⟨by simp [howed, hoperator], hfits receiver (by simp), hfits message (by simp)⟩

theorem yields_callWithMessage (p : Place) {receiver message : Value} (sign : Value)
    {called : Printed} (hcalled : Received k (k.owed receiver) called)
    (howed : k.owed (.node p.node) = k.owed receiver + k.owed message) (messageDoc : Doc)
    (hmessage : k.owed message ≤ minCount k.text messageDoc) :
    Yields (do
      let operatorDoc ← liftM (plainText sign)
      let operatorTrails := message.node?.any (·.hasLeadingComments)
      let left := if operatorTrails then .cat [called.doc, operatorDoc] else called.doc
      let right := if operatorTrails then [messageDoc] else [operatorDoc, messageDoc]
      let source ← liftM receiver.asNode
      if Chain.noIndentTags.contains source.tag then return ⟨.cat (left :: right), none⟩
      let right ←
        if ← liftM (isWhereNot source message) then pure right
        else pure ((if source.hasComments then Doc.hardline else Doc.softline) :: right)
      let tail := if operatorTrails then operatorDoc :: right else right
      let pieces := if called.link.isSome then tail else right
      let link ← liftM (Chain.next p receiver called.link left pieces true)
      match ← Chain.closing? pr p called.link with
      | some chain => return ⟨Chain.vertical chain (.cat tail) (.cat [left, .grouped right]), none⟩
      | none => return ⟨.grouped [left, .grouped [.indented right]], link⟩)
      (Chained k p.node) := by
  have hdoc := hcalled.1
  refine .liftBind fun operatorDoc _ => ?_
  simp only
  generalize message.node?.any (·.hasLeadingComments) = operatorTrails
  have hleft : minCount k.text called.doc ≤
      minCount k.text (if operatorTrails then .cat [called.doc, operatorDoc] else called.doc) := by
    split <;> simp
  have hright : minCount k.text messageDoc ≤
      minCountAll k.text (if operatorTrails then [messageDoc] else [operatorDoc, messageDoc]) := by
    split <;> simp
  -- on which side the operator stands no longer matters
  revert hleft hright
  generalize (if operatorTrails then cat [called.doc, operatorDoc] else called.doc) = left
  generalize (if operatorTrails then [messageDoc] else [operatorDoc, messageDoc]) = right
  intro hleft hright
  refine .liftBind fun source _ => ?_
  split
  · exact .pure (chained_of_doc (by simp; omega))
  · refine .liftBind fun isWhere _ => ?_
    split
    · exact .pureBind (yields_callTail p receiver hcalled operatorTrails operatorDoc
        messageDoc right hright (by omega) left hleft)
    · refine .pureBind (yields_callTail p receiver hcalled operatorTrails operatorDoc
        messageDoc _ ?_ (by omega) left hleft)
      simp only [minCountAll_cons]
      omega

@[simp] theorem links_call : Links k ["call"] call := by
  intro pr p hpr hp htag
  unfold call
  split
  · next receiver operator message hbody =>
      obtain ⟨howed, hreceiver, hmessage⟩ :=
        owed_call (k := k) hp (List.mem_singleton.mp htag) hbody
      refine .bind (hpr.visitChild p hreceiver) fun called hcalled => ?_
      refine .liftBind fun sign _ => ?_
      cases hbare : isBareMessage message with
      | true =>
          refine .pureBind (yields_callWithMessage p sign hcalled howed .empty ?_)
          rw [owed_of_isBareMessage hbare]
          exact Nat.zero_le _
      | false => exact .bind (hpr.print p hmessage) (yields_callWithMessage p sign hcalled howed)
  · exact .throw _

@[simp] theorem keeps_callName : k.Keeps ["fcall", "vcall"] callName := keeps_only (by decide)

/-! ## Calls with arguments -/

theorem owed_le_arguments {contents : Value} {ds extra : List Doc} {d : Doc}
    (hds : k.owed contents ≤ minCountAll k.text ds)
    (h : parenthesized pr (if extra.isEmpty then contents else .null) (ds ++ extra) = .ok d) :
    k.owed contents ≤ minCount k.text d := by
  have hall : k.owed contents ≤ minCountAll k.text (ds ++ extra) := by
    rw [minCountAll_append]
    omega
  split at h
  · exact owed_le_parenthesized h hall
  · exact Nat.le_trans hall (minCountAll_parenthesized h (by simp [Value.tag?, Value.node?]))

theorem yields_callWithContents (hpr : k.Sound pr) (p : Place) (extra : List Doc) {callee : Value}
    {n : Tree} {method : Printed} (hmethod : Received k (k.owed callee) method)
    (howed : k.owed (.node p.node) = k.owed callee + k.owed (.node n)) (inner : Place)
    {contents : Value} (hcontents : contents.Conforms)
    (hsame : k.owed (.node n) = k.owed contents) :
    Yields (do
      let docs := (← argumentList pr inner contents) ++ extra
      if docs.isEmpty && contents.tag? ≠ some "@args_forward" then
        if ← liftM (keepsParens (← liftM callee.asNode)) then
          return ⟨.cat [method.doc, "()"], none⟩
        return ⟨method.doc, none⟩
      let argsDoc ← liftM (parenthesized pr (if extra.isEmpty then contents else .null) docs)
      let argsDoc ←
        if n.tag = "arg_paren" && n.hasComments then
          liftM (Comments.splice argsDoc n.comments none)
        else pure argsDoc
      let link ← liftM (Chain.next p callee method.link method.doc [argsDoc] false)
      match ← Chain.closing? pr p method.link with
      | some chain => return ⟨Chain.finish chain method.doc argsDoc, none⟩
      | none => return ⟨.cat [method.doc, argsDoc], link⟩) (Chained k p.node) := by
  refine .bind (yields_argumentList hpr inner hcontents) fun ds hds => ?_
  simp only
  split
  · next hnone =>
      simp only [Bool.and_eq_true, List.isEmpty_iff, List.append_eq_nil_iff,
        decide_eq_true_eq] at hnone
      rw [hnone.1.1] at hds
      simp only [minCountAll_nil] at hds
      have hdoc := hmethod.1
      refine .liftBind fun _ _ => .liftBind fun _ _ => ?_
      split
      · exact .pure (chained_of_doc (by simp; omega))
      · exact .pure (chained_of_doc (by omega))
  · refine .liftBind fun d hd => ?_
    have hd := owed_le_arguments hds hd
    split
    · refine .liftBind fun spliced hspliced => yields_extended p callee hmethod spliced ?_
      have hspliced := minCount_splice (k := k) hspliced
      omega
    · exact .pureBind (yields_extended p callee hmethod d (by omega))

@[simp] theorem links_callWithArgumentsAnd (extra : List Doc) :
    Links k ["method_add_arg"] (callWithArgumentsAnd extra) := by
  intro pr p hpr hp htag
  have htag := List.mem_singleton.mp htag
  obtain ⟨howed, hfits⟩ := owed_children (k := k) hp (by rw [htag]; decide)
  unfold callWithArgumentsAnd
  split
  · next callee argument hbody =>
      rw [hbody] at howed hfits
      simp only [owedAll_cons, owedAll_nil, Nat.add_zero] at howed
      refine .bind (hpr.visitChild p (hfits callee (by simp))) fun method hmethod => ?_
      refine .liftBind fun n hn => ?_
      obtain rfl := Value.asNode_eq_ok.mp hn
      show Yields (if n.tag = "arg_paren" then _ else _) _
      split
      · next hparen =>
          obtain ⟨v, hv, hvfits, hvowed⟩ := owed_only (k := k) (hfits (.node n) (by simp))
            (by rw [hparen]; decide) (by rw [hparen]; decide)
          exact .firstChild hv
            (.pureBind (yields_callWithContents hpr p extra hmethod howed _ hvfits hvowed))
      · exact .pureBind
          (yields_callWithContents hpr p extra hmethod howed p (hfits _ (by simp)) rfl)
  · exact .throw _

/-! ## Commands -/

@[simp] theorem keeps_commandAnd (extra : List Doc) : k.Keeps ["command"] (commandAnd extra) := by
  refine keeps_of_children (by decide) fun pr p hpr hp hfits _ => ?_
  unfold commandAnd
  split
  · next name args hbody =>
      rw [hbody] at hfits ⊢
      refine .bind (hpr.print p (hfits name (by simp))) fun head hhead => ?_
      refine .bind (yields_argumentList hpr p (hfits args (by simp))) fun ds hds => ?_
      have hlisted := minCountAll_le_listed (x := k.text) (ds ++ extra)
      rw [minCountAll_append] at hlisted
      have hrest : ∀ broken, k.owed name + k.owed args ≤ minCount k.text broken →
          Yields (pure (Doc.grouped [.either broken (.cat [head, " ", .listed (ds ++ extra)])]))
            fun d => k.owedAll [name, args] ≤ minCount k.text d := by
        intro broken hbroken
        refine .pure ?_
        simp
        omega
      refine .liftBind fun ternary _ => ?_
      cases ternary with
      | true =>
          refine .pureBind (hrest _ ?_)
          simp
          omega
      | false =>
          refine .liftBind fun definition _ => ?_
          cases definition
          all_goals
            refine .pureBind (hrest _ ?_)
            simp
            omega
  · exact .throw _

@[simp] theorem keeps_receiverCommandAnd (extra : List Doc) :
    k.Keeps ["command_call"] (receiverCommandAnd extra) := by
  refine keeps_of_children (by decide) fun pr p hpr hp hfits htag => ?_
  have htag := List.mem_singleton.mp htag
  unfold receiverCommandAnd
  split
  · next receiver operator message args hbody =>
      have hoperator : k.owed operator = 0 :=
        owed_of_mark hp 1 (by rw [htag]; rfl) (by rw [hbody]; rfl)
      rw [hbody] at hfits ⊢
      refine .bind (hpr.print p (hfits receiver (by simp))) fun left hleft => ?_
      refine .liftBind fun sign _ => ?_
      refine .bind (hpr.print p (hfits message (by simp))) fun name hname => ?_
      refine .bind (yields_argumentList hpr p (hfits args (by simp))) fun ds hds => ?_
      refine .liftBind fun operatorDoc _ => ?_
      have hlisted := minCountAll_le_listed (x := k.text) (ds ++ extra)
      rw [minCountAll_append] at hlisted
      simp only
      split
      · next hnone =>
          rw [List.isEmpty_iff, List.append_eq_nil_iff] at hnone
          rw [hnone.1, minCountAll_nil] at hds
          refine .pure ?_
          simp [hoperator]
          omega
      · have hrest : ∀ broken,
            k.owed receiver + k.owed message + k.owed args ≤ minCount k.text broken →
            Yields (pure (Doc.grouped [.either broken
              (.cat ([left, operatorDoc, name] ++ [Doc.text " ", .listed (ds ++ extra)]))]))
              fun d => k.owedAll [receiver, operator, message, args] ≤ minCount k.text d := by
          intro broken hbroken
          refine .pure ?_
          simp [hoperator]
          omega
        refine .liftBind fun ternary _ => ?_
        cases ternary with
        | true =>
            refine .pureBind (hrest _ ?_)
            simp
            omega
        | false =>
            refine .liftBind fun _ _ => .liftBind fun token _ => ?_
            cases expectationNames.contains token
            all_goals
              refine .pureBind (hrest _ ?_)
              simp
              omega
  · exact .throw _

@[simp] theorem keeps_superCall : k.Keeps ["super"] superCall := by
  refine keeps_of_child (by decide) fun pr p v hpr _ _ hbody hv => ?_
  refine .firstNode hbody ?_
  rintro args rfl
  split
  · refine .bind (hpr.print p hv) fun d hd => .pure ?_
    simp
    omega
  · refine .bind (yields_argumentList hpr p hv) fun ds hds => .pure ?_
    have hlisted := minCountAll_le_listed (x := k.text) ds
    simp
    omega

@[simp] theorem keeps_yieldCall : k.Keeps ["yield"] yieldCall := by
  refine keeps_of_child (by decide) fun pr p v hpr _ _ hbody hv => ?_
  refine .firstNode hbody ?_
  rintro args rfl
  split
  · refine .bind (hpr.print p hv) fun d hd => .pure ?_
    simp
    omega
  · refine .bind (yields_argumentList hpr p hv) fun ds hds => .pure ?_
    have hjoined := minCountAll_le_joined (x := k.text) ", " ds
    simp
    omega

end Rules

end RubyPretty
