import RubyPretty.Proofs.Syntax.Schema
/-!
# Trees without comments

What a tree is does not depend on the comments in it: trees that are the same without comments have
the same shapes and the same names.
-/

namespace RubyPretty

namespace Value

mutual

/-- A value without the comments of its nodes. -/
def bare : Value → Value
  | .node ⟨tag, body, _, loc⟩ => .node ⟨tag, bareAll body, [], loc⟩
  | .list vs => .list (bareAll vs)
  | v => v

def bareAll : List Value → List Value
  | [] => []
  | v :: vs => bare v :: bareAll vs

end

theorem bareAll_eq (vs : List Value) : bareAll vs = vs.map bare := by
  induction vs with
  | nil => rfl
  | cons v vs ih =>
      show bare v :: bareAll vs = _
      rw [ih, List.map_cons]

end Value

def Node.bare (n : Tree) : Tree := ⟨n.tag, n.body.map Value.bare, [], n.loc⟩

namespace Value

@[simp] theorem bare_node (n : Tree) : (Value.node n).bare = .node n.bare := by
  obtain ⟨tag, body, comments, loc⟩ := n
  show Value.node ⟨tag, bareAll body, [], loc⟩ = _
  rw [bareAll_eq]
  rfl

@[simp] theorem bare_list (vs : List Value) : (Value.list vs).bare = .list (vs.map bare) := by
  show Value.list (bareAll vs) = _
  rw [bareAll_eq]

@[simp] theorem node?_bare (v : Value) : v.bare.node? = v.node?.map Node.bare := by
  cases v with
  | node n => rw [bare_node]; rfl
  | _ => rfl

@[simp] theorem tag?_bare (v : Value) : v.bare.tag? = v.tag? := by
  rw [tag?, node?_bare, tag?, Option.map_map]
  rfl

@[simp] theorem isNull_bare (v : Value) : v.bare.isNull = v.isNull := by
  cases v with
  | node n => rw [bare_node]; rfl
  | _ => rfl

theorem flatMap_walk_bare (vs : List Value) (h : ∀ v ∈ vs, v.bare.walk = v.walk.map Node.bare) :
    (vs.map bare).flatMap walk = (vs.flatMap walk).map Node.bare := by
  induction vs with
  | nil => rfl
  | cons v vs ih =>
      rw [List.map_cons, List.flatMap_cons, List.flatMap_cons, List.map_append,
        h v List.mem_cons_self, ih fun w hw => h w (List.mem_cons_of_mem v hw)]

theorem walk_bare (v : Value) : v.bare.walk = v.walk.map Node.bare := by
  induction v using Value.induction with
  | null | bool | int | real | text => rfl
  | list vs ih => rw [bare_list, walk_list, walk_list, flatMap_walk_bare vs ih]
  | node n ih =>
      rw [bare_node, walk_node, walk_node, List.map_cons]
      show n.bare :: (if n.isToken then [] else (n.body.map bare).flatMap walk) = _
      split
      · rfl
      · rw [flatMap_walk_bare n.body ih]

end Value

/-! ## Shapes -/

namespace Grammar

theorem isParams_bare (v : Value) : isParams v.bare = isParams v := by
  simp [isParams]

theorem isTokenValue_bare (v : Value) : isTokenValue v.bare = isTokenValue v := by
  cases v with
  | node n => rw [Value.bare_node]; rfl
  | _ => rfl

theorem Slot.admits_bare (slot : Slot) (v : Value) : slot.admits v.bare = slot.admits v := by
  cases slot with
  | free => rfl
  | inner => simp [Slot.admits]
  | items => simp [Slot.admits]
  | optional tags => simp [Slot.admits]
  | parameters =>
      simp only [Slot.admits, isParams_bare, Value.node?_bare]
      cases v.node? with
      | none => rfl
      | some n => simp [Node.bare, Function.comp_def, isParams_bare]
  | mark | pairs | tokens =>
      cases v with
      | node n => rfl
      | list vs => simp [Slot.admits, Function.comp_def, isTokenValue_bare]
      | _ => rfl

end Grammar

namespace Node

theorem isShaped_bare (n : Tree) : n.bare.isShaped = n.isShaped := by
  unfold isShaped bare
  rw [List.length_map, List.zip_map_right, List.all_map, List.all_map]
  congr 2
  · congr 2
    funext x
    exact Grammar.Slot.admits_bare x.1 x.2
  · simp [Function.comp_def]

theorem text?_bare (n : Tree) : n.bare.text? = n.text? := by
  obtain ⟨tag, body, comments, loc⟩ := n
  cases body with
  | nil => rfl
  | cons v vs =>
      cases v with
      | node m =>
          simp only [text?, bare, isToken, List.map_cons, Value.bare_node]
          rfl
      | _ => rfl

theorem followsGrammar_bare (n : Tree) : n.bare.followsGrammar = n.followsGrammar := by
  have hwalk := Value.walk_bare (.node n)
  rw [Value.bare_node] at hwalk
  rw [followsGrammar, followsGrammar, walk, hwalk, List.all_map]
  congr 1
  funext m
  exact isShaped_bare m

end Node

end RubyPretty
