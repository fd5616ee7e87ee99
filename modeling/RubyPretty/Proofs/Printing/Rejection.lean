import RubyPretty.Proofs.Comments.Conservation
import RubyPretty.Proofs.Printing.Registration
import RubyPretty.Proofs.Rules.Fallback
import RubyPretty.Proofs.Rules.RejectsOnly
/-!
# What turns a tree down

A tree is turned down before anything of it is printed: by the first of its nodes that is bad, or
else because its loose comments cannot all be placed. No rule turns down a tree that passes both
checks. Only the formatter, which comes from outside, may raise such a fault itself later, and then
it is passed on as it is.
-/

namespace RubyPretty

namespace Node

/-- A node of an unknown tag, a token without its one text, or a node with another number of
children than its tag asks for. -/
def IsBad (n : Tree) : Prop :=
  n.tag ∉ Grammar.tags ∨ (n.isToken = true ∧ ¬ ∃ s, n.body = [.text s]) ∨
    ∃ arity ∈ Grammar.arity? n.tag, n.body.length ≠ arity

/-- A program with loose comments, but without a statement list to put them in or without the line
of one of them. -/
def LacksPlaces (tree : Tree) : Prop :=
  tree.tag = "program" ∧ (∃ c ∈ tree.comments, c.line ≠ .null) ∧
    ((∀ n ∈ tree.walk, n.tag ≠ "stmts") ∨ ∃ c ∈ tree.comments, c.line = .null)

end Node

/-! ## Checking -/

namespace Registry

theorem isTokenBody_iff {body : List Value} : isTokenBody body = true ↔ ∃ s, body = [.text s] := by
  constructor
  · intro h
    unfold isTokenBody at h
    split at h
    · exact ⟨_, rfl⟩
    · cases h
  · rintro ⟨s, rfl⟩
    rfl

theorem exists_find?_iff {tag : String} :
    (∃ e, Registry.default.find? tag = some e) ↔ tag ∈ Grammar.tags := by
  rw [← perm_tags.mem_iff, List.mem_flatMap]
  constructor
  · rintro ⟨e, he⟩
    obtain ⟨x, hx, htag, -⟩ := mem_all_of_find? he
    exact ⟨x, hx, htag⟩
  · rintro ⟨x, hx, htag⟩
    have hmem : (tag, x.entry) ∈ Registry.default.entries :=
      List.mem_flatMap.mpr ⟨x, hx, List.mem_map_of_mem htag⟩
    rw [← Option.ne_none_iff_exists', find?, Ne, List.lookup_eq_none_iff]
    intro h
    exact bne_iff_ne.mp (h _ hmem) rfl

theorem isToken_of_arity? {n : Tree} {arity : Nat} (h : Grammar.arity? n.tag = some arity) :
    n.isToken = false := by
  have hfixed : (Grammar.fixed.all fun x => !isTokenTag x.1) = true := by decide +kernel
  have hin := List.all_eq_true.mp hfixed _ (mem_of_lookup_eq_some h)
  exact (Bool.not_eq_true' _).mp hin

theorem dispatch_of_mem {n : Tree} (h : n.tag ∈ Grammar.tags) :
    ∃ e, Registry.default.dispatch n = .ok e ∧ Registry.default.find? n.tag = some e := by
  obtain ⟨e, he⟩ := exists_find?_iff.mpr h
  refine ⟨e, ?_, he⟩
  rw [dispatch, he]

theorem not_isBad_iff {n : Tree} : ¬ n.IsBad ↔ n.tag ∈ Grammar.tags ∧
    (n.isToken = true → isTokenBody n.body = true) ∧
      ∀ arity ∈ Grammar.arity? n.tag, n.body.length = arity := by
  simp only [Node.IsBad, not_or, not_and, not_not, ← isTokenBody_iff, not_exists]

instance (n : Tree) : Decidable n.IsBad :=
  decidable_of_iff _ (not_isBad_iff.not.symm.trans not_not)

theorem checkNode_of_not_isBad {n : Tree} (h : ¬ n.IsBad) :
    Registry.default.checkNode n = .ok () := by
  obtain ⟨htag, htoken, harity⟩ := not_isBad_iff.mp h
  obtain ⟨e, he, -⟩ := dispatch_of_mem htag
  unfold checkNode
  rw [he, Except.ok_bind]
  by_cases hn : n.isToken = true
  · rw [if_pos hn, if_pos (htoken hn)]
    rfl
  · rw [if_neg hn]
    split
    · next expected hexpected => exact if_pos (harity expected hexpected)
    · rfl

/-- The fault of a bad node is about that node, and tells whether its tag is unknown. -/
theorem checkNode_of_isBad {n : Tree} (h : n.IsBad) :
    ∃ e, Registry.default.checkNode n = .error e ∧
      (n.tag ∉ Grammar.tags ∧ e = .unsupported n ∨
        n.tag ∈ Grammar.tags ∧ (e = .tokenBody n ∨ ∃ expected, e = .childCount n expected)) := by
  by_cases htag : n.tag ∈ Grammar.tags
  · obtain ⟨entry, hentry, -⟩ := dispatch_of_mem htag
    unfold checkNode
    rw [hentry, Except.ok_bind]
    rcases h with hunknown | ⟨htoken, htext⟩ | ⟨arity, harity, hlength⟩
    · exact absurd htag hunknown
    · rw [if_pos htoken, if_neg (mt isTokenBody_iff.mp htext)]
      exact ⟨_, rfl, .inr ⟨htag, .inl rfl⟩⟩
    · rw [if_neg (by rw [isToken_of_arity? harity]; exact Bool.false_ne_true), harity]
      simp only [if_neg hlength]
      exact ⟨_, rfl, .inr ⟨htag, .inr ⟨arity, rfl⟩⟩⟩
  · have hnone : Registry.default.find? n.tag = none := by
      cases hfind : Registry.default.find? n.tag with
      | none => rfl
      | some e => exact absurd (exists_find?_iff.mp ⟨e, hfind⟩) htag
    refine ⟨.unsupported n, ?_, .inl ⟨htag, rfl⟩⟩
    rw [checkNode, dispatch, hnone]
    rfl

/-! ## Printing -/

theorem walk_subset_walk {v : Value} {n : Tree} (h : n ∈ v.walk) : n.walk ⊆ v.walk := by
  induction v using Value.induction with
  | node m ih =>
      rw [Value.walk_node] at h ⊢
      rcases List.mem_cons.mp h with rfl | h
      · rw [Node.walk, Value.walk_node]
        exact fun _ => id
      · apply List.subset_cons_of_subset
        split at h
        · cases h
        · next hm =>
            rw [if_neg hm]
            obtain ⟨w, hw, hn⟩ := List.mem_flatMap.mp h
            exact fun k hk => List.mem_flatMap.mpr ⟨w, hw, ih w hw hn hk⟩
  | list vs ih =>
      rw [Value.walk_list] at h ⊢
      obtain ⟨w, hw, hn⟩ := List.mem_flatMap.mp h
      exact fun k hk => List.mem_flatMap.mpr ⟨w, hw, ih w hw hn hk⟩
  | null | bool | int | real | text => cases h

theorem mem_walk_of_mem_body {n m : Tree} {v : Value} (h : ¬ n.IsBad) (hv : v ∈ n.body)
    (hm : m ∈ v.walk) : m ∈ n.walk := by
  rw [Node.walk, Value.walk_node]
  apply List.mem_cons_of_mem
  cases htoken : n.isToken with
  | true =>
      obtain ⟨s, hs⟩ := isTokenBody_iff.mp ((not_isBad_iff.mp h).2.1 htoken)
      rw [hs, List.mem_singleton] at hv
      subst hv
      cases hm
  | false => exact List.mem_flatMap.mpr ⟨v, hv, hm⟩

theorem depth_le_depthAll {vs : List Value} {v : Value} (h : v ∈ vs) :
    v.depth ≤ Value.depthAll vs := by
  induction vs with
  | nil => cases h
  | cons w vs ih =>
      show v.depth ≤ max w.depth (Value.depthAll vs)
      rcases List.mem_cons.mp h with rfl | h
      · exact Nat.le_max_left ..
      · exact Nat.le_trans (ih h) (Nat.le_max_right ..)

theorem depth_node (n : Tree) : n.depth = Value.depthAll n.body + 1 := rfl

theorem depth_le_of_mem_walk {v : Value} {n : Tree} (h : n ∈ v.walk) : n.depth ≤ v.depth := by
  induction v using Value.induction with
  | node m ih =>
      rw [Value.walk_node] at h
      rcases List.mem_cons.mp h with rfl | h
      · exact Nat.le_refl _
      · split at h
        · cases h
        · obtain ⟨w, hw, hn⟩ := List.mem_flatMap.mp h
          have hdepth := depth_le_depthAll hw
          have hin := ih w hw hn
          show n.depth ≤ m.depth
          rw [depth_node m]
          omega
  | list vs ih =>
      rw [Value.walk_list] at h
      obtain ⟨w, hw, hn⟩ := List.mem_flatMap.mp h
      have hdepth := depth_le_depthAll hw
      have hin := ih w hw hn
      show n.depth ≤ Value.depthAll vs + 1
      omega
  | null | bool | int | real | text => cases h

/-- A printer that goes deep enough rejects only what the formatter raises on the heredocs below. -/
theorem rejectsOnly_printer (o : Options) (formatter : Option Formatter) {raised : Fault → Prop}
    (depth : Nat) (p : Place) (hgood : ∀ n ∈ p.node.walk, ¬ n.IsBad) (hdepth : p.node.depth ≤ depth)
    (hraised : ∀ n ∈ p.node.walk, ∀ e, Rules.FormatterRaises o formatter n e → raised e) :
    RejectsOnly raised ((Registry.default.printer o formatter depth).visit p) := by
  induction depth generalizing p with
  | zero =>
      rw [depth_node] at hdepth
      omega
  | succ depth ih =>
      have hp : p.node ∈ p.node.walk := by
        rw [Node.walk, Value.walk_node]
        exact List.mem_cons_self
      have hbelow : CanPrintBelow raised (Registry.default.printer o formatter depth) p.node := by
        intro v hv m hm
        have hmem : m ∈ p.node.walk := mem_walk_of_mem_body (hgood p.node hp) hv hm
        have hwalk : m.walk ⊆ p.node.walk := walk_subset_walk hmem
        have hm' := depth_le_of_mem_walk hm
        have hv' := depth_le_depthAll hv
        rw [depth_node] at hdepth
        refine ⟨fun around => ih ⟨m, around⟩ (fun k hk => hgood k (hwalk hk)) ?_
          fun k hk => hraised k (hwalk hk), fun htoken => ?_⟩
        · show m.depth ≤ depth
          omega
        · exact (not_isBad_iff.mp (hgood m hmem)).2.1 htoken
      obtain ⟨e, he, hfind⟩ := dispatch_of_mem (not_isBad_iff.mp (hgood p.node hp)).1
      obtain ⟨x, hx, htag, rfl⟩ := mem_all_of_find? hfind
      have hdispatch : NeverRejects (Registry.default.dispatch p.node) := by
        rw [he]
        exact neverRejects_ok _
      refine .liftBind hdispatch fun entry hentry => ?_
      obtain rfl : x.entry = entry := Except.ok.inj (he.symm.trans hentry)
      refine Rules.rejectsOnly_apply (Rules.entryRejectsOnly_all x hx raised _ p htag hbelow ?_)
      rw [options_printer, formatter_printer]
      exact hraised p.node hp

/-- What the formatter raises on a heredoc comes out of printing the heredoc as it is. -/
theorem visit_of_formatterRaises {o : Options} {formatter : Option Formatter} {p : Place}
    {e : Fault} (h : Rules.FormatterRaises o formatter p.node e) (depth : Nat) :
    (Registry.default.printer o formatter (depth + 1)).visit p = throw e := by
  have hfind : Registry.default.find? p.node.tag =
      some ⟨"print_heredoc", .ofDoc Rules.heredoc⟩ := by
    rw [h.1]
    rfl
  have hrule : Rules.heredoc (Registry.default.printer o formatter depth) p = throw e :=
    Rules.heredoc_of_formatterRaises (by rwa [options_printer, formatter_printer])
  unfold printer
  simp only [dispatch, hfind]
  show (Registry.default.printer o formatter depth).apply (.ofDoc Rules.heredoc) p = throw e
  rw [Printer.apply, Rule.ofDoc, hrule]
  rfl

end Registry

/-! ## Loose comments -/

theorem neverRejects_filterM {α : Type} {f : α → Outcome Bool} (h : ∀ a, NeverRejects (f a))
    (as : List α) :
    NeverRejects (as.filterM f) := by
  have haux : ∀ found, NeverRejects (as.filterAuxM f found) := by
    induction as with
    | nil => exact fun found => neverRejects_pure found
    | cons a as ih =>
        intro found
        exact .bind (h a) fun _ => ih _
  exact .bind (haux []) fun _ => neverRejects_pure _

namespace Comments

variable (line : Coordinate)

@[simp] theorem neverRejects_covers (entry : StatementList) : NeverRejects (entry.covers line) := by
  unfold StatementList.covers
  split <;> simp [Span.containsLine]

@[simp] theorem neverRejects_startsAfter (s : Statement) : NeverRejects (startsAfter line s) := by
  unfold startsAfter
  split <;> simp

@[simp] theorem neverRejects_startsBefore (s : Statement) : NeverRejects (startsBefore line s) := by
  unfold startsBefore
  split <;> simp

theorem neverRejects_innermost? (lists : List StatementList) :
    NeverRejects (innermost? line lists) := by
  refine .bind (neverRejects_filterM (neverRejects_covers line) lists) fun around => ?_
  split <;> simp

theorem neverRejects_placeIn (entry : StatementList) : NeverRejects (placeIn line entry) := by
  unfold placeIn
  split
  · split <;> simp
  · refine .bind (neverRejects_filterM (neverRejects_startsAfter line) _) fun later => ?_
    split
    · simp
    · exact .bind (neverRejects_filterM (neverRejects_startsBefore line) _) fun _ =>
        neverRejects_pure _

theorem neverRejects_place (lists : List StatementList) : NeverRejects (place line lists) := by
  unfold place
  split
  · simp
  · refine .bind (neverRejects_innermost? line lists) fun found => ?_
    split
    · exact neverRejects_placeIn line _
    · simp

theorem isRejection_of_placeAll {lists : List StatementList} {comments : List Comment} {e : Fault}
    (h : (placeAll lists comments).2 = some e) : e.isRejection = false := by
  induction comments with
  | nil => cases h
  | cons c cs ih =>
      unfold placeAll at h
      split at h
      · next hcause =>
          cases h
          exact neverRejects_place c.line lists e hcause
      · exact ih h

theorem neverRejects_insertByLine (c : Comment) (cs : List Comment) :
    NeverRejects (insertByLine c cs) := by
  induction cs with
  | nil => exact neverRejects_pure _
  | cons d ds ih => simp [insertByLine, ih]

theorem neverRejects_sortByLine (cs : List Comment) : NeverRejects (sortByLine cs) := by
  induction cs with
  | nil => exact neverRejects_pure _
  | cons c cs ih => exact .bind ih fun _ => neverRejects_insertByLine c _

end Comments

theorem Json.isNull_iff {j : Json} : j.isNull = true ↔ j = .null := by
  cases j <;> simp [isNull]

theorem hasLooseComments_iff {tree : Tree} : hasLooseComments tree = true ↔
    tree.tag = "program" ∧ ∃ c ∈ tree.comments, c.line ≠ .null := by
  simp [hasLooseComments, ← Json.isNull_iff]

theorem forall_ne_stmts_iff (tree : Tree) :
    (∀ n ∈ ({ tree with comments := [] } : Tree).walk, n.tag ≠ "stmts") ↔
      ∀ n ∈ tree.walk, n.tag ≠ "stmts" := by
  simp only [Node.walk, Value.walk_node, List.forall_mem_cons]
  rfl

theorem settleComments_of_lacksPlaces {tree : Tree} (h : tree.LacksPlaces) :
    ∃ e, e.isStructural = true ∧ settleComments tree = .error e := by
  obtain ⟨htag, hloose, hlacks⟩ := h
  obtain ⟨e, he, hschedule⟩ : ∃ e, e.isStructural = true ∧
      Comments.schedule { tree with comments := [] } tree.comments = .error e := by
    by_cases hnone : ∀ n ∈ tree.walk, n.tag ≠ "stmts"
    · exact ⟨_, rfl, Comments.schedule_of_no_stmts ((forall_ne_stmts_iff tree).mpr hnone) _⟩
    · have hsome := mt (forall_ne_stmts_iff tree).mp hnone
      push Not at hsome
      obtain ⟨c, -, -, hc⟩ := Comments.schedule_of_missing_line hsome (hlacks.resolve_left hnone)
      exact ⟨_, rfl, hc⟩
  refine ⟨e, he, ?_⟩
  unfold settleComments
  rw [if_pos (hasLooseComments_iff.mpr ⟨htag, hloose⟩)]
  simp only [Comments.attach, hschedule]

/-- Comments that have their places may still have no order, but that is no rejection. -/
theorem neverRejects_settleComments {tree : Tree} (h : ¬ tree.LacksPlaces) :
    NeverRejects (settleComments tree) := by
  unfold settleComments
  split
  · next hloose =>
      obtain ⟨htag, hsome⟩ := hasLooseComments_iff.mp hloose
      obtain ⟨hstmts, hlines⟩ := not_or.mp fun hlacks => h ⟨htag, hsome, hlacks⟩
      rw [← forall_ne_stmts_iff] at hstmts
      push Not at hstmts hlines
      have hnone : tree.comments.find? (·.line.isNull) = none := by
        rw [List.find?_eq_none]
        exact fun c hc hnull => hlines c hc (Json.isNull_iff.mp hnull)
      have hschedule :
          NeverRejects (Comments.schedule { tree with comments := [] } tree.comments) := by
        rw [Comments.schedule, Comments.isEmpty_statementLists hstmts, hnone]
        exact Comments.neverRejects_sortByLine _
      simp only
      split
      · exact neverRejects_pure _
      · next cause hcause =>
          rw [neverRejects_error]
          unfold Comments.attach at hcause
          split at hcause
          · next hcause' =>
              cases hcause
              exact hschedule _ hcause'
          · exact Comments.isRejection_of_placeAll hcause
  · exact neverRejects_pure _

/-! ## Formatting -/

namespace Node

theorem bare_eq_text {v : Value} {s : String} (h : v.bare = .text s) : v = .text s := by
  cases v with
  | node m =>
      rw [Value.bare_node] at h
      cases h
  | list vs =>
      rw [Value.bare_list] at h
      cases h
  | _ => exact h

theorem isBad_bare (n : Tree) : n.bare.IsBad ↔ n.IsBad := by
  have htext : (∃ s, n.bare.body = [.text s]) ↔ ∃ s, n.body = [.text s] := by
    constructor
    · rintro ⟨s, hs⟩
      obtain ⟨v, hv, hbare⟩ := List.map_eq_singleton_iff.mp hs
      exact ⟨s, by rw [hv, bare_eq_text hbare]⟩
    · rintro ⟨s, hs⟩
      exact ⟨s, by rw [bare, hs]; rfl⟩
  have hlength : n.bare.body.length = n.body.length := List.length_map _
  unfold IsBad
  rw [htext, hlength]
  rfl

theorem exists_mem_walk_bare {tree other n : Tree} (h : other.bare = tree.bare)
    (hn : n ∈ other.walk) : ∃ m ∈ tree.walk, m.bare = n.bare := by
  have hwalk : other.walk.map bare = tree.walk.map bare := by
    have hbare := Value.walk_bare (.node other)
    rw [Value.bare_node, h, ← Value.bare_node, Value.walk_bare] at hbare
    exact hbare.symm
  have hmem : n.bare ∈ tree.walk.map bare := hwalk ▸ List.mem_map_of_mem hn
  exact List.mem_map.mp hmem

theorem forall_not_isBad {tree other : Tree} (h : other.bare = tree.bare)
    (hgood : ∀ n ∈ tree.walk, ¬ n.IsBad) : ∀ n ∈ other.walk, ¬ n.IsBad := by
  intro n hn hbad
  obtain ⟨m, hm, hmn⟩ := exists_mem_walk_bare h hn
  exact hgood m hm ((isBad_bare m).mp (hmn ▸ (isBad_bare n).mpr hbad))

end Node

/-! ## What the formatter is given -/

namespace Value

theorem elements?_bare (v : Value) : v.bare.elements? = v.elements?.map (List.map bare) := by
  cases v with
  | node n => rw [bare_node]; rfl
  | list vs => rw [bare_list]; rfl
  | text s =>
      show some (s.toList.map _) = some ((s.toList.map _).map bare)
      rw [List.map_map]
      rfl
  | _ => rfl

theorem asNode_bare (v : Value) : v.bare.asNode = v.asNode.map Node.bare := by
  cases v with
  | node n => rw [bare_node]; rfl
  | _ => rfl

end Value

namespace Rules

theorem heredocContent?_bare (vs : List Value) :
    heredocContent? (vs.map Value.bare) = heredocContent? vs := by
  have htest (v : Value) : (do return (← v.bare.asNode).tag == "@tstring_content" : Outcome Bool) =
      (do return (← v.asNode).tag == "@tstring_content") := by
    rw [Value.asNode_bare]
    cases v.asNode <;> rfl
  have htoken (v : Value) : (do (← v.bare.asNode).token : Outcome String) =
      (do (← v.asNode).token) := by
    rw [Value.asNode_bare]
    cases v.asNode with
    | error => rfl
    | ok n =>
        show n.bare.token = n.token
        rw [Node.token, Node.text?_bare]
        rfl
  have hall : (vs.map Value.bare).allM
      (fun part => do return (← part.asNode).tag == "@tstring_content") =
        (vs.allM fun part => do return (← part.asNode).tag == "@tstring_content" :
          Outcome Bool) := by
    induction vs with
    | nil => rfl
    | cons v vs ih => rw [List.map_cons, List.allM, List.allM, htest, ih]
  unfold heredocContent? Shape.plainContent
  rw [hall, List.mapM_map]
  simp only [Function.comp_def, htoken]

theorem Embeds.of_bare {o : Options} {m n : Tree} {content language : String}
    (h : m.bare = n.bare) (hembeds : Embeds o n content language) :
    Embeds o m content language := by
  obtain ⟨opening, parts, closing, elements, text, hbody, helements, hcontent, hlanguage, rfl⟩ :=
    hembeds
  have hbodies : m.body.map Value.bare = n.body.map Value.bare := congrArg Node.body h
  rw [hbody, List.map_cons, List.map_cons, List.map_singleton] at hbodies
  obtain ⟨first, rest, hm, hfirst, hrest⟩ := List.map_eq_cons_iff.mp hbodies
  obtain ⟨second, rest, rfl, hsecond, hrest⟩ := List.map_eq_cons_iff.mp hrest
  obtain ⟨third, rfl, -⟩ := List.map_eq_singleton_iff.mp hrest
  obtain rfl : first = .text opening := Node.bare_eq_text hfirst
  have hparts : second.elements?.map (List.map Value.bare) = some (elements.map Value.bare) := by
    rw [← Value.elements?_bare, hsecond, Value.elements?_bare, helements]
    rfl
  obtain ⟨others, hothers, hsame⟩ := Option.map_eq_some_iff.mp hparts
  refine ⟨opening, second, third, others, text, hm, hothers, ?_, hlanguage, rfl⟩
  rw [← heredocContent?_bare, hsame, heredocContent?_bare, hcontent]

theorem FormatterRaises.of_bare {o : Options} {formatter : Option Formatter} {m n : Tree}
    {e : Fault} (h : m.bare = n.bare) (hraises : FormatterRaises o formatter n e) :
    FormatterRaises o formatter m e := by
  obtain ⟨htag, hfallback, format, content, language, hformat, hembeds, hraised⟩ := hraises
  have htags : m.bare.tag = n.bare.tag := congrArg Node.tag h
  exact ⟨htags.trans htag, hfallback, format, content, language, hformat, hembeds.of_bare h,
    hraised⟩

end Rules

/-- The first bad node of a tree is the one that the check is about. -/
theorem check_of_first {tree n : Tree} {before after : List Tree}
    (hwalk : tree.walk = before ++ n :: after) (hbefore : ∀ m ∈ before, ¬ m.IsBad)
    (hbad : n.IsBad) :
    ∃ e, Registry.default.check tree = .error e ∧
      (n.tag ∉ Grammar.tags ∧ e = .unsupported n ∨
        n.tag ∈ Grammar.tags ∧ (e = .tokenBody n ∨ ∃ expected, e = .childCount n expected)) := by
  obtain ⟨e, he, hkind⟩ := Registry.checkNode_of_isBad hbad
  refine ⟨e, ?_, hkind⟩
  rw [Registry.check, hwalk]
  exact Except.forM_eq_error (fun m hm => Registry.checkNode_of_not_isBad (hbefore m hm)) he

theorem exists_first_isBad {tree : Tree} (h : ∃ n ∈ tree.walk, n.IsBad) :
    ∃ before n after, tree.walk = before ++ n :: after ∧ (∀ m ∈ before, ¬ m.IsBad) ∧ n.IsBad := by
  obtain ⟨n, hn, hbad⟩ := h
  have hsome : (tree.walk.find? fun n => decide n.IsBad).isSome :=
    List.find?_isSome.mpr ⟨n, hn, decide_eq_true hbad⟩
  obtain ⟨first, hfirst⟩ := Option.isSome_iff_exists.mp hsome
  obtain ⟨hfirst, before, after, hwalk, hbefore⟩ := List.find?_eq_some_iff_append.mp hfirst
  refine ⟨before, first, after, hwalk, fun m hm => ?_, of_decide_eq_true hfirst⟩
  simpa using hbefore m hm

theorem check_eq_ok_iff {tree : Tree} :
    Registry.default.check tree = .ok () ↔ ∀ n ∈ tree.walk, ¬ n.IsBad := by
  constructor
  · intro hcheck n hn hbad
    obtain ⟨before, first, after, hwalk, hbefore, hfirst⟩ := exists_first_isBad ⟨n, hn, hbad⟩
    obtain ⟨e, he, -⟩ := check_of_first hwalk hbefore hfirst
    rw [hcheck] at he
    cases he
  · exact fun hgood =>
      Except.forM_eq_ok fun n hn => Registry.checkNode_of_not_isBad (hgood n hn)

theorem formatTree_of_check {tree : Tree} {e : Fault} (h : Registry.default.check tree = .error e)
    (o : Options) (formatter : Option Formatter) : formatTree o formatter tree = .error e := by
  rw [formatTree, Registry.print, h]
  rfl

theorem formatTree_of_settleComments {tree : Tree} {e : Fault}
    (hgood : ∀ n ∈ tree.walk, ¬ n.IsBad) (h : settleComments tree = .error e) (o : Options)
    (formatter : Option Formatter) : formatTree o formatter tree = .error e := by
  rw [formatTree, Registry.print, check_eq_ok_iff.mpr hgood, Except.ok_bind, h]
  rfl

/-- A tree without bad nodes whose comments are placed is turned down by the formatter only. -/
theorem rejectsOnly_visitRoot (o : Options) (formatter : Option Formatter) {tree : Tree}
    (hgood : ∀ n ∈ tree.walk, ¬ n.IsBad) :
    RejectsOnly (fun e => ∃ n ∈ tree.walk, Rules.FormatterRaises o formatter n e)
      (Registry.default.visitRoot o formatter tree) :=
  Registry.rejectsOnly_printer o formatter tree.depth (.root tree) hgood (Nat.le_refl _)
    fun n hn _ hraises => ⟨n, hn, hraises⟩

theorem neverRejects_text (o : Options) (printout : Printout) : NeverRejects (printout.text o) := by
  unfold Printout.text
  cases Layout.render? o.page printout.doc <;> simp

/-- What turns down a tree that passes both checks has been raised by the formatter. -/
theorem formatterRaises_of_formatTree {o : Options} {formatter : Option Formatter} {tree : Tree}
    {e : Fault} (hgood : ∀ n ∈ tree.walk, ¬ n.IsBad) (hplaces : ¬ tree.LacksPlaces)
    (h : formatTree o formatter tree = .error e) (hrejection : e.isRejection = true) :
    ∃ n ∈ tree.walk, Rules.FormatterRaises o formatter n e := by
  have hnever {α : Type} {step : Outcome α} (hstep : NeverRejects step) : step ≠ .error e := by
    intro he
    rw [hstep e he] at hrejection
    cases hrejection
  obtain hprint | ⟨printout, -, htext⟩ := Except.bind_eq_error.mp h
  · unfold Registry.print at hprint
    rw [check_eq_ok_iff.mpr hgood, Except.ok_bind] at hprint
    obtain hsettle | ⟨⟨settled, attached⟩, hsettled, hprint⟩ := Except.bind_eq_error.mp hprint
    · exact absurd hsettle (hnever (neverRejects_settleComments hplaces))
    · obtain hvisit | ⟨printed, -, hpure⟩ := Except.bind_eq_error.mp hprint
      · have hbare := bare_settleComments hsettled
        obtain ⟨n, hn, hraises⟩ := rejectsOnly_visitRoot o formatter
          (Node.forall_not_isBad hbare hgood) [] e hvisit hrejection
        obtain ⟨m, hm, hmn⟩ := Node.exists_mem_walk_bare hbare hn
        exact ⟨m, hm, hraises.of_bare hmn⟩
      · cases hpure
  · exact absurd htext (hnever (neverRejects_text o printout))

/-- What turns a tree down is decided before anything of it is printed, unless the formatter turns
it down itself. The first bad node decides the fault, and if all are good a lack of places for the
comments does, whatever the formatter. Nothing else turns a tree down but a fault that the formatter
has raised on the body of one of its heredocs, where no body may stay as it is, and this fault is
passed on unchanged. So if the formatter raises no such fault, a tree is turned down if and only if
some node of it is bad, or all are good and it lacks places for its comments. -/
theorem formatTree_rejects_before_printing (o : Options) (formatter : Option Formatter)
    (tree : Tree) :
    ((∀ n ∈ tree.walk, ∀ e, Rules.FormatterRaises o formatter n e → e.isRejection = false) →
      ((∃ e, formatTree o formatter tree = .error e ∧ e.isRejection = true) ↔
        (∃ n ∈ tree.walk, n.IsBad) ∨ (∀ n ∈ tree.walk, ¬ n.IsBad) ∧ tree.LacksPlaces)) ∧
    (∀ before n after, tree.walk = before ++ n :: after → (∀ m ∈ before, ¬ m.IsBad) → n.IsBad →
      ∃ e, (∀ other, formatTree o other tree = .error e) ∧
        (n.tag ∉ Grammar.tags ∧ e = .unsupported n ∨
          n.tag ∈ Grammar.tags ∧ (e = .tokenBody n ∨ ∃ expected, e = .childCount n expected))) ∧
    ((∀ n ∈ tree.walk, ¬ n.IsBad) → tree.LacksPlaces →
      ∃ e, (∀ other, formatTree o other tree = .error e) ∧ e.isStructural = true) ∧
    (∀ e, formatTree o formatter tree = .error e → e.isRejection = true →
      (∀ n ∈ tree.walk, ¬ n.IsBad) → ¬ tree.LacksPlaces →
        ∃ n ∈ tree.walk, Rules.FormatterRaises o formatter n e) ∧
    (∀ settled attached, Registry.default.check tree = .ok () →
      settleComments tree = .ok (settled, attached) →
      ∀ notes e, (Registry.default.visitRoot o formatter settled).run notes = .error e →
        e.isRejection = true → ∃ n ∈ settled.walk, Rules.FormatterRaises o formatter n e) ∧
    ∀ n ∈ tree.walk, ∀ e, Rules.FormatterRaises o formatter n e → ∀ depth around notes,
      ((Registry.default.printer o formatter (depth + 1)).visit ⟨n, around⟩).run notes =
        .error e := by
  refine ⟨fun hformatter => ⟨?_, ?_⟩, ?_, ?_, ?_, ?_, ?_⟩
  · rintro ⟨e, he, hrejection⟩
    by_cases hbad : ∃ n ∈ tree.walk, n.IsBad
    · exact .inl hbad
    · have hgood : ∀ n ∈ tree.walk, ¬ n.IsBad := fun n hn hn' => hbad ⟨n, hn, hn'⟩
      refine .inr ⟨hgood, ?_⟩
      by_contra hplaces
      obtain ⟨n, hn, hraises⟩ := formatterRaises_of_formatTree hgood hplaces he hrejection
      rw [hformatter n hn e hraises] at hrejection
      cases hrejection
  · rintro (hbad | ⟨hgood, hlacks⟩)
    · obtain ⟨before, n, after, hwalk, hbefore, hn⟩ := exists_first_isBad hbad
      obtain ⟨e, he, hkind⟩ := check_of_first hwalk hbefore hn
      refine ⟨e, formatTree_of_check he o formatter, ?_⟩
      rcases hkind with ⟨-, rfl⟩ | ⟨-, rfl | ⟨expected, rfl⟩⟩ <;> rfl
    · obtain ⟨e, hstructural, he⟩ := settleComments_of_lacksPlaces hlacks
      refine ⟨e, formatTree_of_settleComments hgood he o formatter, ?_⟩
      rw [Fault.isRejection, hstructural, Bool.or_true]
  · intro before n after hwalk hbefore hn
    obtain ⟨e, he, hkind⟩ := check_of_first hwalk hbefore hn
    exact ⟨e, fun other => formatTree_of_check he o other, hkind⟩
  · intro hgood hlacks
    obtain ⟨e, hstructural, he⟩ := settleComments_of_lacksPlaces hlacks
    exact ⟨e, fun other => formatTree_of_settleComments hgood he o other, hstructural⟩
  · exact fun e he hrejection hgood hplaces =>
      formatterRaises_of_formatTree hgood hplaces he hrejection
  · intro settled attached hcheck hsettled
    have hgood := Node.forall_not_isBad (bare_settleComments hsettled) (check_eq_ok_iff.mp hcheck)
    exact rejectsOnly_visitRoot o formatter hgood
  · intro n _ e hraises depth around notes
    rw [Registry.visit_of_formatterRaises (p := ⟨n, around⟩) hraises depth]
    rfl

def sampleMystery : Tree := .plain "mystery" []

def sampleTwoBad : Tree :=
  .program [sampleMystery, .plain "@ident" []]

def sampleUnplaced : Tree :=
  { Node.plain "program" [.node (.plain "void_stmt" [])] with
    comments := [⟨"# note", false, .int 1⟩] }

/-- A formatter that raises the fault of an unknown node on every text. -/
def sampleRejecting : Formatter := fun _ _ => .error (.unsupported sampleMystery)

theorem isRejected_sampleQuery :
    isRejected (formatTree Options.default (some sampleRejecting) sampleQuery) = true := by
  decide +kernel

theorem not_isBad_sampleQuery : ∀ n ∈ sampleQuery.walk, ¬ n.IsBad := by decide +kernel

theorem not_lacksPlaces_sampleQuery : ¬ sampleQuery.LacksPlaces := by
  rintro ⟨-, ⟨c, hc, -⟩, -⟩
  cases hc

theorem formatTree_rejects_before_printing_sample :
    (∀ other, formatTree Options.default other sampleTwoBad =
      .error (.unsupported sampleMystery)) ∧
    (∃ e, (∀ other, formatTree Options.default other sampleUnplaced = .error e) ∧
      e.isStructural = true) ∧
    ∃ e, e.isRejection = true ∧
      ∃ n ∈ sampleQuery.walk, Rules.FormatterRaises Options.default (some sampleRejecting) n e := by
  refine ⟨?_, ?_, ?_⟩
  · obtain ⟨-, hfirst, -⟩ :=
      formatTree_rejects_before_printing Options.default none sampleTwoBad
    obtain ⟨e, he, hkind⟩ := hfirst [_, _] sampleMystery [_] rfl (by decide +kernel)
      (by decide +kernel)
    have hunknown : sampleMystery.tag ∉ Grammar.tags := by decide +kernel
    rcases hkind with ⟨-, rfl⟩ | ⟨hknown, -⟩
    · exact he
    · exact absurd hknown hunknown
  · obtain ⟨-, -, hplaces, -⟩ :=
      formatTree_rejects_before_printing Options.default none sampleUnplaced
    refine hplaces (by decide +kernel) ⟨rfl, ?_, .inl (by decide +kernel)⟩
    exact ⟨_, List.mem_singleton_self _, nofun⟩
  · obtain ⟨-, -, -, hraised, -⟩ :=
      formatTree_rejects_before_printing Options.default (some sampleRejecting) sampleQuery
    obtain ⟨e, he, hrejection⟩ := isRejected_iff.mp isRejected_sampleQuery
    exact ⟨e, hrejection,
      hraised e he hrejection not_isBad_sampleQuery not_lacksPlaces_sampleQuery⟩

/-- A tree that passes both checks is turned down by a formatter that raises a rejection. -/
theorem formatTree_passes_on_rejection :
    (∃ e, formatTree Options.default (some sampleRejecting) sampleQuery = .error e ∧
      e.isRejection = true) ∧
    ¬ ((∃ n ∈ sampleQuery.walk, n.IsBad) ∨
      (∀ n ∈ sampleQuery.walk, ¬ n.IsBad) ∧ sampleQuery.LacksPlaces) := by
  refine ⟨isRejected_iff.mp isRejected_sampleQuery, ?_⟩
  rintro (⟨n, hn, hbad⟩ | ⟨-, hlacks⟩)
  · exact not_isBad_sampleQuery n hn hbad
  · exact not_lacksPlaces_sampleQuery hlacks

end RubyPretty
