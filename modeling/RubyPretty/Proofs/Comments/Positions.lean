import RubyPretty.Proofs.Comments.Attach
/-!
# Positions of statements

A position in the walk of a tree is all that is known of a node when a comment is added to it. The
statement lists of a tree and their statements stand in the walk at their positions
(`isIn_of_mem`), and there are none only if no node of the walk is one
(`statementLists_eq_nil_iff`).
-/

namespace RubyPretty

namespace Comments

/-! ## Stretches of a walk -/

/-- A stretch of a walk starts at a position. -/
def StandsAt (part : List Tree) (i : Nat) (walk : List Tree) : Prop :=
  ∃ before after, walk = before ++ part ++ after ∧ before.length = i

theorem StandsAt.head (part after : List Tree) : StandsAt part 0 (part ++ after) :=
  ⟨[], after, rfl, rfl⟩

theorem StandsAt.tail (before part : List Tree) : StandsAt part before.length (before ++ part) :=
  ⟨before, [], (List.append_nil _).symm, rfl⟩

theorem StandsAt.trans {part middle walk : List Tree} {i j : Nat} (hi : StandsAt middle i walk)
    (hj : StandsAt part j middle) : StandsAt part (i + j) walk := by
  obtain ⟨before, after, rfl, rfl⟩ := hi
  obtain ⟨before', after', rfl, rfl⟩ := hj
  refine ⟨before ++ before', after' ++ after, ?_, List.length_append⟩
  simp only [List.append_assoc]

theorem StandsAt.subset {part walk : List Tree} {i : Nat} (h : StandsAt part i walk) :
    part ⊆ walk := by
  obtain ⟨before, after, rfl, -⟩ := h
  intro n hn
  simp [hn]

theorem StandsAt.lt {n : Tree} {walk : List Tree} {i : Nat}
    (h : StandsAt (Value.node n).walk i walk) : i < walk.length := by
  obtain ⟨before, after, rfl, rfl⟩ := h
  rw [Value.walk_node]
  simp only [List.length_append, List.length_cons]
  omega

theorem standsAt_body {n : Tree} (htoken : n.isToken = false) :
    StandsAt (n.body.flatMap Value.walk) 1 (Value.node n).walk := by
  rw [Value.walk_node, htoken]
  exact StandsAt.tail [n] _

theorem standsAt_head (v : Value) (vs : List Value) :
    StandsAt v.walk 0 ((v :: vs).flatMap Value.walk) := by
  rw [List.flatMap_cons]
  exact StandsAt.head _ _

theorem standsAt_tail (v : Value) (vs : List Value) :
    StandsAt (vs.flatMap Value.walk) v.nodeCount ((v :: vs).flatMap Value.walk) := by
  rw [List.flatMap_cons, Value.nodeCount_eq]
  exact StandsAt.tail _ _

theorem standsAt_of_mem_statementsAt (vs : List Value) (start : Nat) :
    ∀ s ∈ statementsAt start vs, ∃ i, s.position = start + i ∧
      StandsAt (Value.node s.node).walk i (vs.flatMap Value.walk) := by
  induction vs generalizing start with
  | nil => intro s hs; cases hs
  | cons v vs ih =>
      have hrest : ∀ s ∈ statementsAt (start + v.nodeCount) vs, ∃ i, s.position = start + i ∧
          StandsAt (Value.node s.node).walk i ((v :: vs).flatMap Value.walk) := by
        intro s hs
        obtain ⟨i, hi, hstands⟩ := ih _ s hs
        exact ⟨v.nodeCount + i, by omega, (standsAt_tail v vs).trans hstands⟩
      cases v with
      | node n =>
          intro s hs
          rcases List.mem_cons.mp hs with rfl | hs
          · exact ⟨0, rfl, standsAt_head (.node n) vs⟩
          · exact hrest s hs
      | _ => exact hrest

/-! ## Statement lists -/

/-- A statement list belongs to a walk that starts at a position, with a span around it: the list
is one of the nodes there, and so are its statements. -/
structure StatementList.IsIn (entry : StatementList) (walk : List Tree) (around : Option Span)
    (start : Nat) : Prop where
  list : ∃ i n, entry.position = start + i ∧ StandsAt (Value.node n).walk i walk ∧ n.tag = "stmts"
  statements : ∀ s ∈ entry.statements, ∃ i, s.position = start + i ∧
    StandsAt (Value.node s.node).walk i walk
  span : ∀ span, entry.span = some span → around = some span ∨ ∃ n ∈ walk, n.loc = some span

theorem StatementList.IsIn.widen {entry : StatementList} {part walk : List Tree}
    {inner around : Option Span} {start i : Nat} (h : entry.IsIn part inner (start + i))
    (hpart : StandsAt part i walk)
    (hspan : ∀ span, inner = some span → around = some span ∨ ∃ n ∈ walk, n.loc = some span) :
    entry.IsIn walk around start := by
  obtain ⟨⟨j, n, hj, hn, htag⟩, hstatements, hspans⟩ := h
  refine ⟨⟨i + j, n, by omega, hpart.trans hn, htag⟩, fun s hs => ?_, fun span h => ?_⟩
  · obtain ⟨k, hk, hstands⟩ := hstatements s hs
    exact ⟨i + k, by omega, hpart.trans hstands⟩
  · rcases hspans span h with hinner | ⟨m, hm, hloc⟩
    · exact hspan span hinner
    · exact .inr ⟨m, hpart.subset hm, hloc⟩

theorem isIn_listsInAll (vs : List Value)
    (h : ∀ v ∈ vs, ∀ span depth start, ∀ e ∈ listsIn span depth start v,
      e.IsIn v.walk span start)
    (span : Option Span) (depth start : Nat) :
    ∀ e ∈ listsInAll span depth start vs, e.IsIn (vs.flatMap Value.walk) span start := by
  induction vs generalizing start with
  | nil => intro e he; cases he
  | cons v vs ih =>
      intro e he
      rcases List.mem_append.mp he with he | he
      · exact (h v List.mem_cons_self _ _ _ e he).widen (standsAt_head v vs) fun _ => .inl
      · have hrest := ih (fun w hw => h w (List.mem_cons_of_mem v hw)) _ e he
        exact hrest.widen (standsAt_tail v vs) fun _ => .inl

theorem isIn_of_mem (v : Value) (span : Option Span) (depth start : Nat) :
    ∀ e ∈ listsIn span depth start v, e.IsIn v.walk span start := by
  induction v using Value.induction generalizing span depth start with
  | null | bool | int | real | text => intro e he; cases he
  | list vs ih =>
      rw [Value.walk_list]
      exact isIn_listsInAll vs (fun v hv => ih v hv) span depth start
  | node n ih =>
      have hself : n ∈ (Value.node n).walk := by
        rw [Value.walk_node]
        exact List.mem_cons_self
      -- the span of a list that has none of its own is that of the node or of what is around it
      have hspan : ∀ s, n.loc.or span = some s →
          span = some s ∨ ∃ m ∈ (Value.node n).walk, m.loc = some s := by
        intro s hs
        cases hloc : n.loc with
        | none => exact .inl (by simpa [hloc] using hs)
        | some own => exact .inr ⟨n, hself, by simpa [hloc] using hs⟩
      intro e he
      rcases List.mem_append.mp he with he | he
      · split at he
        case isTrue htag =>
          obtain rfl := List.mem_singleton.mp he
          have htag : n.tag = "stmts" := htag
          have htoken : n.isToken = false := by rw [Node.isToken, htag]; decide
          refine ⟨⟨0, n, rfl, ⟨[], [], by simp, rfl⟩, htag⟩, fun s hs => ?_, hspan⟩
          obtain ⟨i, hi, hstands⟩ := standsAt_of_mem_statementsAt n.body (start + 1) s hs
          exact ⟨1 + i, by omega, (standsAt_body htoken).trans hstands⟩
        case isFalse => cases he
      · split at he
        case isTrue => cases he
        case isFalse htoken =>
          have htoken : n.isToken = false := by simpa [Node.isToken] using htoken
          have hbody := isIn_listsInAll n.body (fun v hv => ih v hv) _ _ _ e he
          exact hbody.widen (standsAt_body htoken) hspan

theorem listsInAll_ne_nil (vs : List Value)
    (h : ∀ v ∈ vs, ∀ span depth start, (∃ n ∈ v.walk, n.tag = "stmts") →
      listsIn span depth start v ≠ [])
    (span : Option Span) (depth start : Nat)
    (hstmts : ∃ n ∈ vs.flatMap Value.walk, n.tag = "stmts") :
    listsInAll span depth start vs ≠ [] := by
  induction vs generalizing start with
  | nil => obtain ⟨n, hn, -⟩ := hstmts; cases hn
  | cons v vs ih =>
      obtain ⟨n, hn, htag⟩ := hstmts
      rw [List.flatMap_cons, List.mem_append] at hn
      show listsIn span depth start v ++ _ ≠ []
      rcases hn with hn | hn
      · exact List.append_ne_nil_of_left_ne_nil
          (h v List.mem_cons_self _ _ _ ⟨n, hn, htag⟩) _
      · exact List.append_ne_nil_of_right_ne_nil _
          (ih (fun w hw => h w (List.mem_cons_of_mem v hw)) _ ⟨n, hn, htag⟩)

theorem listsIn_ne_nil (v : Value) (span : Option Span) (depth start : Nat)
    (hstmts : ∃ n ∈ v.walk, n.tag = "stmts") : listsIn span depth start v ≠ [] := by
  induction v using Value.induction generalizing span depth start with
  | null | bool | int | real | text => obtain ⟨n, hn, -⟩ := hstmts; cases hn
  | list vs ih =>
      rw [Value.walk_list] at hstmts
      exact listsInAll_ne_nil vs (fun v hv => fun _ _ _ => ih v hv _ _ _) _ _ _ hstmts
  | node n ih =>
      obtain ⟨m, hm, htag⟩ := hstmts
      rw [Value.walk_node] at hm
      show (if n.tag = "stmts" then _ else _) ++ (if n.isToken then [] else _) ≠ []
      rcases List.mem_cons.mp hm with rfl | hm
      · rw [if_pos htag]
        exact List.cons_ne_nil _ _
      · cases htoken : n.isToken with
        | true => simp [htoken] at hm
        | false =>
            rw [htoken] at hm
            exact List.append_ne_nil_of_right_ne_nil _ (listsInAll_ne_nil n.body
              (fun v hv => fun _ _ _ => ih v hv _ _ _) _ _ _ ⟨m, hm, htag⟩)

theorem statementLists_eq_nil_iff (tree : Tree) :
    statementLists tree = [] ↔ ∀ n ∈ tree.walk, n.tag ≠ "stmts" := by
  constructor
  · intro h n hn htag
    exact listsIn_ne_nil (.node tree) none 0 0 ⟨n, hn, htag⟩ h
  · intro h
    apply List.eq_nil_iff_forall_not_mem.mpr
    intro e he
    obtain ⟨i, n, -, hstands, htag⟩ := (isIn_of_mem (.node tree) none 0 0 e he).list
    refine h n (hstands.subset ?_) htag
    rw [Value.walk_node]
    exact List.mem_cons_self

end Comments

end RubyPretty
