import RubyPretty.Proofs.Comments.Attach
import RubyPretty.Proofs.Printing.Sound
/-!
# Where comments count

The comments that are kept are those on statements and on statement lists without any. `anchors`
marks these nodes in the walk. Comments are attached to such nodes only, so each of them counts.
-/

namespace RubyPretty

namespace Value

mutual

/-- For each node of the walk, whether its comments count. -/
def anchors (isStatement : Bool) : Value → List Bool
  | .node ⟨tag, body, _, _⟩ =>
      (isStatement || (tag == "stmts" && body.isEmpty)) ::
        if isTokenTag tag then [] else anchorsAll (tag == "stmts") body
  | .list vs => anchorsAll false vs
  | _ => []

def anchorsAll (isStatement : Bool) : List Value → List Bool
  | [] => []
  | v :: vs => anchors isStatement v ++ anchorsAll isStatement vs

end

theorem anchorsAll_eq (isStatement : Bool) (vs : List Value) :
    anchorsAll isStatement vs = vs.flatMap (anchors isStatement) := by
  induction vs with
  | nil => rfl
  | cons v vs ih =>
      show anchors isStatement v ++ anchorsAll isStatement vs = _
      rw [ih, List.flatMap_cons]

theorem anchors_node (isStatement : Bool) (n : Tree) :
    anchors isStatement (.node n) =
      (isStatement || (n.tag == "stmts" && n.body.isEmpty)) ::
        if n.isToken then [] else n.body.flatMap (anchors (n.tag == "stmts")) := by
  rw [← anchorsAll_eq]
  rfl

theorem anchors_list (isStatement : Bool) (vs : List Value) :
    anchors isStatement (.list vs) = vs.flatMap (anchors false) := by
  rw [← anchorsAll_eq]
  rfl

theorem flatMap_anchors_bare (vs : List Value)
    (h : ∀ v ∈ vs, ∀ isStatement, v.bare.anchors isStatement = v.anchors isStatement)
    (isStatement : Bool) :
    (vs.map bare).flatMap (anchors isStatement) = vs.flatMap (anchors isStatement) := by
  induction vs with
  | nil => rfl
  | cons v vs ih =>
      rw [List.map_cons, List.flatMap_cons, List.flatMap_cons, h v List.mem_cons_self,
        ih fun w hw => h w (List.mem_cons_of_mem v hw)]

theorem anchors_bare (v : Value) (isStatement : Bool) :
    v.bare.anchors isStatement = v.anchors isStatement := by
  induction v using Value.induction generalizing isStatement with
  | null | bool | int | real | text => rfl
  | list vs ih => rw [bare_list, anchors_list, anchors_list, flatMap_anchors_bare vs ih]
  | node n ih =>
      rw [bare_node, anchors_node, anchors_node]
      show (_ :: if n.isToken then [] else (n.body.map bare).flatMap _) = _
      rw [flatMap_anchors_bare n.body ih]
      simp [Node.bare]

theorem anchors_addComment (c : Comment) (v : Value) (i : Nat) (isStatement : Bool) :
    (v.addComment c i).anchors isStatement = v.anchors isStatement := by
  rw [← anchors_bare, bare_addComment, anchors_bare]

theorem length_anchors (v : Value) (isStatement : Bool) :
    (v.anchors isStatement).length = v.commentLists.length := by
  induction v using Value.induction generalizing isStatement with
  | null | bool | int | real | text => rfl
  | list vs ih =>
      rw [anchors_list, commentLists_list, List.length_flatMap, List.length_flatMap]
      exact congrArg List.sum (List.map_congr_left fun v hv => ih v hv false)
  | node n ih =>
      rw [anchors_node, commentLists_node]
      split
      · rfl
      · rw [List.length_cons, List.length_cons, List.length_flatMap, List.length_flatMap]
        exact congrArg (List.sum · + 1) (List.map_congr_left fun v hv => ih v hv _)

end Value

namespace Keep

variable {k : Keep}

def marked (k : Keep) (css : List (List Comment)) (marks : List Bool) : Nat :=
  (List.zipWith (fun cs mark => if mark then k.notes cs else 0) css marks).sum

theorem marked_cons (cs : List Comment) (css : List (List Comment)) (mark : Bool)
    (marks : List Bool) :
    k.marked (cs :: css) (mark :: marks) =
      (if mark then k.notes cs else 0) + k.marked css marks := by
  simp [marked]

theorem marked_append {css dss : List (List Comment)} {marks others : List Bool}
    (h : marks.length = css.length) :
    k.marked (css ++ dss) (marks ++ others) = k.marked css marks + k.marked dss others := by
  rw [marked, List.zipWith_append h.symm, List.sum_append]
  rfl

theorem marked_flatMap (vs : List Value) (isStatement : Bool)
    (h : ∀ v ∈ vs, k.marked v.commentLists (v.anchors isStatement) =
      (v.walk.map k.here).sum + if isStatement then k.ownOf v else 0) :
    k.marked (vs.flatMap Value.commentLists) (vs.flatMap (Value.anchors isStatement)) =
      ((vs.flatMap Value.walk).map k.here).sum +
        if isStatement then (vs.map k.ownOf).sum else 0 := by
  induction vs with
  | nil => cases isStatement <;> rfl
  | cons v vs ih =>
      have hv := h v List.mem_cons_self
      have ih := ih fun w hw => h w (List.mem_cons_of_mem v hw)
      rw [List.flatMap_cons, List.flatMap_cons, marked_append (Value.length_anchors v isStatement),
        hv, ih, List.flatMap_cons, List.map_append, List.sum_append, List.map_cons, List.sum_cons]
      cases isStatement with
      | false => simp
      | true =>
          simp
          omega

theorem marked_eq (hnames : k.names = false) (v : Value) (isStatement : Bool) :
    k.marked v.commentLists (v.anchors isStatement) =
      (v.walk.map k.here).sum + if isStatement then k.ownOf v else 0 := by
  induction v using Value.induction generalizing isStatement with
  | null | bool | int | real | text => cases isStatement <;> rfl
  | list vs ih =>
      rw [Value.commentLists_list, Value.anchors_list, Value.walk_list,
        marked_flatMap vs false fun v hv => ih v hv false]
      cases isStatement <;> rfl
  | node n ih =>
      have hbody := marked_flatMap n.body (n.tag == "stmts") fun v hv => ih v hv _
      have hname : k.name n = 0 := by simp [name, hnames]
      rw [Value.commentLists_node, Value.anchors_node, Value.walk_node, marked_cons, List.map_cons,
        List.sum_cons, here, hname, ownOf, own]
      -- an empty list holds its own comments, and any other one those of its statements
      by_cases hstmts : n.tag = "stmts"
      · have htoken : n.isToken = false := by rw [Node.isToken, hstmts]; decide
        by_cases hnil : n.body = []
        · simp [hstmts, htoken, hnil, marked]
        · simp only [hstmts, htoken, hnil, beq_self_eq_true, if_true] at hbody ⊢
          simp [hbody, hnil]
          omega
      · have hplain : (n.tag == "stmts") = false := by simpa using hstmts
        rw [hplain] at hbody ⊢
        cases htoken : n.isToken with
        | true => simp [hstmts, marked]
        | false =>
            simp [hstmts, hbody]
            omega

theorem marked_modify (c : Comment) (css : List (List Comment)) (marks : List Bool) (i : Nat)
    (hlength : marks.length = css.length) (hi : marks[i]? = some true) :
    k.marked (css.modify i (· ++ [c])) marks = k.marked css marks + k.notes [c] := by
  induction css generalizing marks i with
  | nil =>
      rw [List.length_nil, List.length_eq_zero_iff] at hlength
      simp [hlength] at hi
  | cons cs css ih =>
      cases marks with
      | nil => simp at hi
      | cons mark marks =>
          rw [List.length_cons, List.length_cons, Nat.add_right_cancel_iff] at hlength
          cases i with
          | zero =>
              rw [List.getElem?_cons_zero, Option.some.injEq] at hi
              rw [List.modify_zero_cons, marked_cons, marked_cons, hi, notes_append]
              simp
              omega
          | succ i =>
              rw [List.modify_succ_cons, marked_cons, marked_cons, ih marks i hlength hi]
              omega

theorem sum_here_addComment (hnames : k.names = false) (n : Tree) (c : Comment) (i : Nat)
    (hi : ((Value.node n).anchors false)[i]? = some true) :
    ((n.addComment c i).walk.map k.here).sum = (n.walk.map k.here).sum + k.notes [c] := by
  have hbefore := marked_eq hnames (.node n) false
  have hafter := marked_eq hnames (.node (n.addComment c i)) false
  rw [Node.node_addComment, Value.anchors_addComment, Value.commentLists_addComment,
    marked_modify c _ _ i (Value.length_anchors _ _) hi, hbefore, ← Node.node_addComment] at hafter
  exact hafter.symm

end Keep

namespace Comments

/-- Whether a comment among the statements of a list may go to a position: to one of them, or to the
list if there are none. -/
def StatementList.Holds (entry : StatementList) (position : Nat) : Prop :=
  (∃ s ∈ entry.statements, s.position = position) ∨
    (entry.statements = [] ∧ entry.position = position)

theorem getElem?_anchors_tail {v : Value} {vs : List Value} {isStatement : Bool} {i : Nat}
    (h : (vs.flatMap (Value.anchors isStatement))[i]? = some true) :
    ((v :: vs).flatMap (Value.anchors isStatement))[v.nodeCount + i]? = some true := by
  have hlength : (v.anchors isStatement).length = v.nodeCount := by
    rw [Value.length_anchors, Value.commentLists, List.length_map, Value.nodeCount_eq]
  rw [List.flatMap_cons, List.getElem?_append_right (by omega), hlength, Nat.add_sub_cancel_left]
  exact h

theorem getElem?_anchors_head {v : Value} {vs : List Value} {isStatement : Bool} {i : Nat}
    (h : (v.anchors isStatement)[i]? = some true) :
    ((v :: vs).flatMap (Value.anchors isStatement))[i]? = some true := by
  rw [List.flatMap_cons, List.getElem?_append_left (List.getElem?_eq_some_iff.mp h).1]
  exact h

theorem anchored_statementsAt (vs : List Value) (start : Nat) :
    ∀ s ∈ statementsAt start vs, ∃ i, s.position = start + i ∧
      (vs.flatMap (Value.anchors true))[i]? = some true := by
  induction vs generalizing start with
  | nil => intro s hs; cases hs
  | cons v vs ih =>
      have hrest : ∀ s ∈ statementsAt (start + v.nodeCount) vs, ∃ i, s.position = start + i ∧
          ((v :: vs).flatMap (Value.anchors true))[i]? = some true := by
        intro s hs
        obtain ⟨i, hi, hanchor⟩ := ih _ s hs
        exact ⟨v.nodeCount + i, by omega, getElem?_anchors_tail hanchor⟩
      cases v with
      | node n =>
          intro s hs
          rcases List.mem_cons.mp hs with rfl | hs
          · exact ⟨0, rfl, by rw [List.flatMap_cons, Value.anchors_node]; rfl⟩
          · exact hrest s hs
      | _ => exact hrest

theorem body_eq_nil_of_statementsAt {vs : List Value} {start : Nat}
    (hnodes : ∀ v ∈ vs, v.node?.isSome = true) (h : statementsAt start vs = []) : vs = [] := by
  cases vs with
  | nil => rfl
  | cons v vs =>
      have hv := hnodes v List.mem_cons_self
      cases v with
      | node n => cases h
      | _ => cases hv

/-- The places that a statement list has for comments are anchors. -/
def Anchored (v : Value) : Prop :=
  ∀ span depth start isStatement, ∀ e ∈ listsIn span depth start v, ∀ position, e.Holds position →
    ∃ i, position = start + i ∧ (v.anchors isStatement)[i]? = some true

theorem anchored_listsInAll (vs : List Value) (h : ∀ v ∈ vs, Anchored v) (span : Option Span)
    (depth start : Nat) (isStatement : Bool) :
    ∀ e ∈ listsInAll span depth start vs, ∀ position, e.Holds position →
      ∃ i, position = start + i ∧ (vs.flatMap (Value.anchors isStatement))[i]? = some true := by
  induction vs generalizing start with
  | nil => intro e he; cases he
  | cons v vs ih =>
      intro e he position hp
      rcases List.mem_append.mp he with he | he
      · obtain ⟨i, hi, hanchor⟩ := h v List.mem_cons_self _ _ _ isStatement e he position hp
        exact ⟨i, hi, getElem?_anchors_head hanchor⟩
      · obtain ⟨i, hi, hanchor⟩ :=
          ih (fun w hw => h w (List.mem_cons_of_mem v hw)) _ e he position hp
        exact ⟨v.nodeCount + i, by omega, getElem?_anchors_tail hanchor⟩

theorem anchored_stmts {n : Tree} (hn : n.isShaped = true) (htag : n.tag = "stmts") {start : Nat}
    {e : StatementList} (hposition : e.position = start)
    (hstatements : e.statements = statementsAt (start + 1) n.body) {position : Nat}
    (hp : e.Holds position) (isStatement : Bool) :
    ∃ i, position = start + i ∧ ((Value.node n).anchors isStatement)[i]? = some true := by
  have htoken : n.isToken = false := by rw [Node.isToken, htag]; decide
  rw [Value.anchors_node, htag]
  rcases hp with ⟨s, hs, rfl⟩ | ⟨hnone, rfl⟩
  · rw [hstatements] at hs
    obtain ⟨i, hi, hanchor⟩ := anchored_statementsAt n.body (start + 1) s hs
    refine ⟨i + 1, by omega, ?_⟩
    rw [List.getElem?_cons_succ, if_neg (by simp [htoken])]
    exact hanchor
  · have hnil := body_eq_nil_of_statementsAt (Node.isSome_statement hn htag) (hstatements ▸ hnone)
    exact ⟨0, hposition, by simp [hnil]⟩

theorem anchored (v : Value) (hv : v.Conforms) : Anchored v := by
  induction v using Value.induction with
  | null | bool | int | real | text => intro _ _ _ _ e he; cases he
  | list vs ih =>
      intro span depth start isStatement e he position hp
      rw [Value.anchors_list]
      exact anchored_listsInAll vs (fun v hmem => ih v hmem (conforms_of_mem_list hv hmem)) _ _ _ _
        e he position hp
  | node n ih =>
      intro span depth start isStatement e he position hp
      rcases List.mem_append.mp he with he | he
      · split at he
        case isTrue htag =>
          obtain rfl := List.mem_singleton.mp he
          exact anchored_stmts hv.isShaped htag rfl rfl hp isStatement
        case isFalse => cases he
      · split at he
        case isTrue => cases he
        case isFalse htoken =>
          have htoken : n.isToken = false := by simpa [Node.isToken] using htoken
          obtain ⟨i, hi, hanchor⟩ := anchored_listsInAll n.body
            (fun v hmem => ih v hmem (conforms_of_mem hv htoken hmem)) _ _ _ (n.tag == "stmts")
            e he position hp
          refine ⟨i + 1, by omega, ?_⟩
          rw [Value.anchors_node, List.getElem?_cons_succ, if_neg (by simp [htoken])]
          exact hanchor

end Comments

end RubyPretty
