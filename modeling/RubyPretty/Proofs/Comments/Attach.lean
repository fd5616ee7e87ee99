import RubyPretty.Formatting
import RubyPretty.Proofs.Syntax.Bare
/-!
# Attaching comments

A comment goes behind those of the node at its position (`commentLists_addComment`) and changes
nothing else (`bare_addComment`).
-/

namespace RubyPretty

namespace Value

theorem bareAll_addCommentAll (c : Comment) (vs : List Value)
    (h : ∀ v ∈ vs, ∀ i, (v.addComment c i).bare = v.bare) (i : Nat) :
    (addCommentAll c i vs).map bare = vs.map bare := by
  induction vs generalizing i with
  | nil => rfl
  | cons v vs ih =>
      unfold addCommentAll
      split
      · rw [List.map_cons, List.map_cons, h v List.mem_cons_self]
      · rw [List.map_cons, List.map_cons, ih fun w hw => h w (List.mem_cons_of_mem v hw)]

theorem bare_addComment (c : Comment) (v : Value) (i : Nat) : (v.addComment c i).bare = v.bare := by
  induction v using Value.induction generalizing i with
  | null | bool | int | real | text => rfl
  | list vs ih =>
      show (Value.list (addCommentAll c i vs)).bare = _
      rw [bare_list, bare_list, bareAll_addCommentAll c vs ih]
  | node n ih =>
      obtain ⟨tag, body, comments, loc⟩ := n
      cases i with
      | zero => rfl
      | succ i =>
          show (if isTokenTag tag then Value.node ⟨tag, body, comments, loc⟩
            else .node ⟨tag, addCommentAll c i body, comments, loc⟩).bare = _
          split
          · rfl
          · rw [bare_node, bare_node, Node.bare, Node.bare, bareAll_addCommentAll c body ih]

theorem nodeCountAll_eq (vs : List Value) (h : ∀ v ∈ vs, v.nodeCount = v.walk.length) :
    nodeCountAll vs = (vs.flatMap walk).length := by
  induction vs with
  | nil => rfl
  | cons v vs ih =>
      show nodeCount v + nodeCountAll vs = _
      rw [h v List.mem_cons_self, ih fun w hw => h w (List.mem_cons_of_mem v hw), List.flatMap_cons,
        List.length_append]

theorem nodeCount_eq (v : Value) : v.nodeCount = v.walk.length := by
  induction v using Value.induction with
  | null | bool | int | real | text => rfl
  | list vs ih =>
      rw [walk_list]
      exact nodeCountAll_eq vs ih
  | node n ih =>
      show (1 + if n.isToken then 0 else nodeCountAll n.body) = _
      rw [walk_node]
      split
      · rfl
      · rw [nodeCountAll_eq n.body ih, List.length_cons, Nat.add_comm]

theorem modify_append {α : Type} (f : α → α) (l r : List α) (i : Nat) :
    (l ++ r).modify i f =
      if i < l.length then l.modify i f ++ r else l ++ r.modify (i - l.length) f := by
  induction l generalizing i with
  | nil => simp
  | cons a l ih =>
      cases i with
      | zero => simp [List.modify_cons]
      | succ i =>
          simp only [List.cons_append, List.modify_succ_cons, ih, List.length_cons,
            Nat.add_lt_add_iff_right, Nat.add_sub_add_right]
          split <;> rfl

def commentLists (v : Value) : List (List Comment) := v.walk.map (·.comments)

theorem commentLists_addCommentAll (c : Comment) (vs : List Value)
    (h : ∀ v ∈ vs, ∀ i, (v.addComment c i).commentLists = v.commentLists.modify i (· ++ [c]))
    (i : Nat) :
    (addCommentAll c i vs).flatMap commentLists =
      (vs.flatMap commentLists).modify i (· ++ [c]) := by
  induction vs generalizing i with
  | nil => simp [addCommentAll]
  | cons v vs ih =>
      have hlength : v.nodeCount = v.commentLists.length := by
        rw [nodeCount_eq, commentLists, List.length_map]
      unfold addCommentAll
      rw [List.flatMap_cons, modify_append, hlength]
      split
      · rw [List.flatMap_cons, h v List.mem_cons_self]
      · rw [List.flatMap_cons, ih fun w hw => h w (List.mem_cons_of_mem v hw)]

theorem commentLists_list (vs : List Value) :
    (Value.list vs).commentLists = vs.flatMap commentLists := by
  rw [commentLists, walk_list, List.map_flatMap]
  rfl

theorem commentLists_node (n : Tree) :
    (Value.node n).commentLists =
      n.comments :: if n.isToken then [] else n.body.flatMap commentLists := by
  rw [commentLists, walk_node, List.map_cons]
  split
  · rfl
  · rw [List.map_flatMap]
    rfl

theorem commentLists_addComment (c : Comment) (v : Value) (i : Nat) :
    (v.addComment c i).commentLists = v.commentLists.modify i (· ++ [c]) := by
  induction v using Value.induction generalizing i with
  | null | bool | int | real | text => simp [addComment, commentLists, walk]
  | list vs ih =>
      show (Value.list (addCommentAll c i vs)).commentLists = _
      rw [commentLists_list, commentLists_list, commentLists_addCommentAll c vs ih]
  | node n ih =>
      obtain ⟨tag, body, comments, loc⟩ := n
      cases i with
      | zero =>
          show (Value.node ⟨tag, body, comments ++ [c], loc⟩).commentLists = _
          rw [commentLists_node, commentLists_node]
          rfl
      | succ i =>
          show (if isTokenTag tag then Value.node ⟨tag, body, comments, loc⟩
            else .node ⟨tag, addCommentAll c i body, comments, loc⟩).commentLists = _
          rw [commentLists_node, List.modify_succ_cons]
          cases htoken : isTokenTag tag with
          | true => simp [commentLists_node, Node.isToken, htoken]
          | false =>
              simp [commentLists_node, Node.isToken, htoken, commentLists_addCommentAll c body ih]

end Value

namespace Node

theorem node_addComment (n : Tree) (c : Comment) (i : Nat) :
    Value.node (n.addComment c i) = (Value.node n).addComment c i := by
  obtain ⟨m, hm⟩ : ∃ m, (Value.node n).addComment c i = .node m := by
    obtain ⟨tag, body, comments, loc⟩ := n
    cases i with
    | zero => exact ⟨_, rfl⟩
    | succ i =>
        cases htoken : isTokenTag tag with
        | true => exact ⟨_, if_pos htoken⟩
        | false => exact ⟨_, if_neg (by simp [htoken])⟩
  rw [addComment, hm]

theorem bare_addComment (n : Tree) (c : Comment) (i : Nat) : (n.addComment c i).bare = n.bare := by
  have h := Value.bare_addComment c (.node n) i
  rw [← node_addComment, Value.bare_node, Value.bare_node] at h
  exact Value.node.inj h

end Node

namespace Comments

theorem bare_addAll (attached : List Attached) (tree : Tree) :
    (attached.foldl (fun t a => t.addComment a.comment a.placement.position) tree).bare =
      tree.bare := by
  induction attached generalizing tree with
  | nil => rfl
  | cons a attached ih => rw [List.foldl_cons, ih, Node.bare_addComment]

theorem bare_attach (tree : Tree) (comments : List Comment) :
    (attach tree comments).tree.bare = tree.bare := by
  unfold attach
  split
  · rfl
  · exact bare_addAll _ tree

end Comments

theorem bare_settleComments {tree settled : Tree} {attached : List Comments.Attached}
    (h : settleComments tree = .ok (settled, attached)) : settled.bare = tree.bare := by
  unfold settleComments at h
  split at h
  · simp only at h
    split at h
    · cases h
      rw [Comments.bare_attach]
      rfl
    · cases h
  · cases h
    rfl

end RubyPretty
