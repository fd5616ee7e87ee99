import RubyPretty.Proofs.Doc.MinCount
import RubyPretty.Proofs.Printing.Yields
import RubyPretty.Proofs.Syntax.Schema
import RubyPretty.Rules.Default
/-!
# What has to be kept

A text has to come out as often as it stands in the tree in the places that count: as a name, or as
the text of a comment on a statement. `owed` adds this up over the walk of a value. A printer is
sound if each node that it visits gets a document in which all of this is counted.
-/

namespace RubyPretty

namespace Rules

/-- Whether an array is printed as a mere list of values behind `return`. -/
def isUnwrappedArray (n : Tree) : Bool :=
  n.tag == "array" && match n.body with
    | .node list :: _ => list.tag == "args" && decide (list.body.length > 1)
    | _ => false

/-- The comments that are lost with the brackets of an array between the parentheses of a `return`:
those parentheses and brackets are left out, and with the brackets what stood around them. -/
def lostComments (n : Tree) : List Comment :=
  match n.tag, n.body with
  | "return", [args] =>
      match onlyArgument? [] args with
      | .ok (some arg) =>
          match arg.node.tag, parenStatement? arg with
          | "paren", .ok (some stmt) =>
              if isUnwrappedArray stmt.node then stmt.node.comments else []
          | _, _ => []
      | _ => []
  | _, _ => []

end Rules

/-- A text and what counts as an occurrence of it in a tree. -/
structure Keep where
  text : String
  names : Bool
  comments : Bool
  text_ne : text ≠ ""
  /-- Block comments are not kept in one piece. -/
  isLine : comments = true → Text.startsWith "=begin" text = false

namespace Keep

variable (k : Keep)

/-- Whether a token is the text as a name. -/
def name (n : Tree) : Nat :=
  if k.names && nameTags.contains n.tag && n.text? == some k.text then 1 else 0

def notes (comments : List Comment) : Nat :=
  if k.comments then comments.countP (·.text == k.text) else 0

/-- The comments of a node that its parent answers for: those on an empty statement list count at
the list itself. -/
def own (n : Tree) : Nat := if n.tag = "stmts" ∧ n.body = [] then 0 else k.notes n.comments

def ownOf : Value → Nat
  | .node n => k.own n
  | _ => 0

/-- What counts at a node itself: its name, the comments on the statements of a list, and those on
a list without statements. -/
def here (n : Tree) : Nat :=
  k.name n +
    if n.tag = "stmts" then
      if n.body = [] then k.notes n.comments else (n.body.map k.ownOf).sum
    else 0

def lost (n : Tree) : Nat := k.notes (Rules.lostComments n)

mutual

/-- What has to be kept of a value. -/
def owed : Value → Nat
  | .node ⟨tag, body, comments, loc⟩ =>
      k.here ⟨tag, body, comments, loc⟩ +
        if isTokenTag tag then 0 else owedAll body - k.lost ⟨tag, body, comments, loc⟩
  | .list vs => owedAll vs
  | _ => 0

def owedAll : List Value → Nat
  | [] => 0
  | v :: vs => owed v + owedAll vs

end

/-- What has to be kept of a node that is visited: its own comments count too. -/
def due (n : Tree) : Nat := k.owed (.node n) + k.own n

variable {k}

@[simp] theorem owedAll_nil : k.owedAll [] = 0 := rfl

@[simp] theorem owedAll_cons (v : Value) (vs : List Value) :
    k.owedAll (v :: vs) = k.owed v + k.owedAll vs := rfl

@[simp] theorem owedAll_append (vs ws : List Value) :
    k.owedAll (vs ++ ws) = k.owedAll vs + k.owedAll ws := by
  induction vs with
  | nil => simp
  | cons v vs ih => simp [ih, Nat.add_assoc]

theorem owedAll_eq_zero {vs : List Value} (h : ∀ v ∈ vs, k.owed v = 0) : k.owedAll vs = 0 := by
  induction vs with
  | nil => rfl
  | cons v vs ih =>
      rw [owedAll_cons, h v List.mem_cons_self, ih fun w hw => h w (List.mem_cons_of_mem v hw)]

@[simp] theorem owed_null : k.owed .null = 0 := rfl

@[simp] theorem owed_text (s : String) : k.owed (.text s) = 0 := rfl

@[simp] theorem owed_list (vs : List Value) : k.owed (.list vs) = k.owedAll vs := rfl

theorem owed_node (n : Tree) :
    k.owed (.node n) = k.here n + if n.isToken then 0 else k.owedAll n.body - k.lost n := rfl

theorem lost_eq_zero {n : Tree} (h : n.tag ≠ "return") : k.lost n = 0 := by
  have hlost : Rules.lostComments n = [] := by
    unfold Rules.lostComments
    split
    · next htag _ => exact absurd htag h
    · rfl
  rw [lost, hlost, notes]
  split <;> rfl

theorem own_le (n : Tree) : k.own n ≤ k.notes n.comments := by
  unfold own
  split
  · exact Nat.zero_le _
  · exact Nat.le_refl _

theorem owed_le_due (n : Tree) : k.owed (.node n) ≤ k.due n := Nat.le_add_right _ _

theorem name_eq_zero {n : Tree} (h : nameTags.contains n.tag = false) : k.name n = 0 := by
  simp only [name, h, Bool.and_false, Bool.false_and]
  rfl

theorem nameTags_of_not_token {n : Tree} (h : n.isToken = false) :
    nameTags.contains n.tag = false := by
  rw [Bool.eq_false_iff]
  intro hmem
  have hall : ∀ tag ∈ nameTags, isTokenTag tag = true := by decide
  rw [Node.isToken, hall _ (List.contains_iff_mem.mp hmem)] at h
  cases h

/-- A tag of a production that neither holds comments for its children nor loses any. -/
def isPlainProduction (tag : String) : Bool :=
  !isTokenTag tag && tag != "stmts" && tag != "return"

theorem owed_production {n : Tree} (h : isPlainProduction n.tag = true) :
    k.owed (.node n) = k.owedAll n.body := by
  simp only [isPlainProduction, Bool.and_eq_true, Bool.not_eq_true', bne_iff_ne] at h
  obtain ⟨⟨htoken, hstmts⟩, hreturn⟩ := h
  rw [owed_node, here, name_eq_zero (nameTags_of_not_token htoken), if_neg hstmts, Node.isToken,
    htoken, lost_eq_zero hreturn]
  simp

theorem sum_here_le_owedAll (vs : List Value)
    (h : ∀ v ∈ vs, (v.walk.map k.here).sum ≤ k.owed v + (v.walk.map k.lost).sum) :
    ((vs.flatMap Value.walk).map k.here).sum ≤
      k.owedAll vs + ((vs.flatMap Value.walk).map k.lost).sum := by
  induction vs with
  | nil => exact Nat.le_refl _
  | cons v vs ih =>
      have hv := h v List.mem_cons_self
      have ih := ih fun w hw => h w (List.mem_cons_of_mem v hw)
      simp only [List.flatMap_cons, List.map_append, List.sum_append, owedAll_cons]
      omega

theorem sum_here_le_owed (v : Value) :
    (v.walk.map k.here).sum ≤ k.owed v + (v.walk.map k.lost).sum := by
  induction v using Value.induction with
  | null | bool | int | real | text => exact Nat.le_refl _
  | list vs ih =>
      rw [Value.walk_list, owed_list]
      exact sum_here_le_owedAll vs ih
  | node n ih =>
      have hbody := sum_here_le_owedAll n.body ih
      rw [Value.walk_node, owed_node]
      split
      · simp
      · -- what is taken off at the node is what it adds to the lost side
        simp only [List.map_cons, List.sum_cons]
        omega

theorem owed_token {n : Tree} (htoken : n.isToken = true)
    (hname : nameTags.contains n.tag = false) : k.owed (.node n) = 0 := by
  have htag : n.tag ≠ "stmts" := by
    intro h
    rw [Node.isToken, h] at htoken
    revert htoken
    decide
  rw [owed_node, here, name_eq_zero hname, if_neg htag, htoken]
  simp

theorem owed_mark {v : Value} (h : Grammar.Slot.admits .mark v = true) : k.owed v = 0 := by
  cases v with
  | node n =>
      simp only [Grammar.Slot.admits, Bool.and_eq_true, Bool.not_eq_true'] at h
      exact owed_token h.1 h.2
  | list vs => cases h
  | _ => rfl

theorem owed_of_mark {n : Tree} (hn : n.isShaped = true) (i : Nat) {v : Value}
    (hslot : (Grammar.slotsOf n.tag)[i]? = some .mark) (hv : n.body[i]? = some v) :
    k.owed v = 0 :=
  owed_mark (Node.admits_slot hn hslot hv)

theorem owed_of_body_nil {n : Tree} (hbody : n.body = []) (htag : n.tag ≠ "stmts") :
    k.owed (.node n) = 0 := by
  have hname : k.name n = 0 := by
    have htext : n.text? = none := by
      rw [Node.text?, hbody]
      split <;> rfl
    simp [name, htext]
  rw [owed_node, here, hname, if_neg htag, hbody]
  simp

theorem owed_of_not_truth {v : Value} (h : v.truth = false) (htag : v.tag? ≠ some "stmts") :
    k.owed v = 0 := by
  cases v with
  | list vs =>
      rw [Value.truth, Bool.not_eq_false', List.isEmpty_iff] at h
      rw [owed_list, h, owedAll_nil]
  | node n =>
      rw [Value.truth, Bool.not_eq_false', List.isEmpty_iff] at h
      exact owed_of_body_nil h fun ht => htag (congrArg some ht)
  | _ => rfl

end Keep

end RubyPretty
