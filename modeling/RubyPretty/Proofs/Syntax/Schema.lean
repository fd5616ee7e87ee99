import RubyPretty.Syntax.Access
import RubyPretty.Syntax.Grammar
/-!
# Schemas of productions

A tree follows the grammar if each of its nodes has the number of children that its tag asks for,
and what stands at a position is of the kind that belongs there. Only the positions where the kind
makes a difference to what is printed are listed; all others are free.
-/

namespace RubyPretty

def nameTags : List String := ["@ident", "@const", "@ivar", "@cvar", "@gvar", "@backref"]

namespace Grammar

/-- What may stand at a position of a production. -/
inductive Slot where
  | free
  /-- An operator or a quote: its text, or the token of one. -/
  | mark
  /-- Anything but a statement list. -/
  | inner
  /-- A list, and no node in its place. -/
  | items
  /-- A list of pairs, each of which is a list too. -/
  | pairs
  /-- A list of tokens. -/
  | tokens
  /-- A node with one of these tags, or nothing. -/
  | optional (tags : List String)
  /-- Parameters, with or without parentheses around them. -/
  | parameters
deriving DecidableEq, Repr

def isParams (v : Value) : Bool := v.isNull || v.tag? == some "params"

def isTokenValue (v : Value) : Bool := v.node?.any (·.isToken)

def Slot.admits : Slot → Value → Bool
  | .free, _ => true
  | .mark, .node n => n.isToken && !nameTags.contains n.tag
  | .mark, .list _ => false
  | .mark, _ => true
  | .inner, v => v.tag? != some "stmts"
  | .items, v => v.node?.isNone
  | .pairs, .list vs => vs.all (·.node?.isNone)
  | .pairs, v => v.node?.isNone
  | .tokens, .list vs => vs.all isTokenValue
  | .tokens, v => v.node?.isNone
  | .optional tags, v => v.isNull || v.tag?.any tags.contains
  | .parameters, v => isParams v || v.node?.any fun n => n.tag == "paren" && n.body.all isParams

def Slot.arguments : Slot := .optional ["args", "args_add_block"]

def Slot.body : Slot := .optional ["bodystmt"]

/-- The positions of the productions in which not everything is free. -/
def slots : List (String × List Slot) :=
  [("field", [.free, .mark, .free]), ("binary", [.free, .mark, .free]), ("unary", [.mark, .free]),
    ("string_literal", [.mark, .items]), ("xstring_literal", [.items]),
    ("dyna_symbol", [.mark, .items]), ("regexp_literal", [.mark, .items, .mark]),
    ("heredoc", [.mark, .items, .mark]), ("args_add_block", [.arguments, .free]),
    ("call", [.free, .mark, .free]), ("command_call", [.free, .mark, .free, .free]),
    ("method_add_block", [.free, .optional ["brace_block", "do_block"]]),
    ("brace_block", [.optional ["block_var"], .free]),
    ("do_block", [.optional ["block_var"], .body]),
    ("block_var", [.optional ["params"], .tokens]), ("lambda", [.parameters, .free]),
    ("params", [.items, .pairs, .inner, .items, .pairs, .inner, .inner]),
    ("def", [.free, .parameters, .body]), ("defs", [.free, .mark, .free, .parameters, .body]),
    ("class", [.free, .free, .body]), ("module", [.free, .body]), ("sclass", [.free, .body]),
    ("ifop", [.free, .inner, .inner]), ("hshptn", [.free, .items]),
    ("rassign", [.free, .mark, .free])]

def slotsOf (tag : String) : List Slot := (slots.lookup tag).getD []

end Grammar

namespace Node

/-- Whether a node has as many children as its tag asks for, each of the kind that belongs to its
position. The statements of a list are nodes. -/
def isShaped (n : Tree) : Bool :=
  (Grammar.arity? n.tag).all (· == n.body.length) &&
    (((Grammar.slotsOf n.tag).zip n.body).all fun (slot, v) => slot.admits v) &&
      (n.tag != "stmts" || n.body.all (·.node?.isSome))

def followsGrammar (n : Tree) : Bool := n.walk.all isShaped

theorem length_body {n : Tree} (h : n.isShaped = true) {m : Nat}
    (ha : Grammar.arity? n.tag = some m) : n.body.length = m := by
  simp only [isShaped, ha, Option.all_some, Bool.and_eq_true, beq_iff_eq] at h
  exact h.1.1.symm

theorem exists_body_eq {n : Tree} (h : n.isShaped = true) (ha : Grammar.arity? n.tag = some 1) :
    ∃ v, n.body = [v] :=
  List.length_eq_one_iff.mp (length_body h ha)

theorem body_eq_nil {n : Tree} (h : n.isShaped = true) (ha : Grammar.arity? n.tag = some 0) :
    n.body = [] :=
  List.length_eq_zero_iff.mp (length_body h ha)

theorem admits_slot {n : Tree} (h : n.isShaped = true) {i : Nat} {slot : Grammar.Slot} {v : Value}
    (hslot : (Grammar.slotsOf n.tag)[i]? = some slot) (hv : n.body[i]? = some v) :
    slot.admits v = true := by
  simp only [isShaped, Bool.and_eq_true, List.all_eq_true] at h
  refine h.1.2 (slot, v) (List.mem_of_getElem? (i := i) ?_)
  rw [List.getElem?_zip_eq_some]
  exact ⟨hslot, hv⟩

theorem isSome_statement {n : Tree} (h : n.isShaped = true) (htag : n.tag = "stmts") :
    ∀ v ∈ n.body, v.node?.isSome = true := by
  simp only [isShaped, Bool.and_eq_true, htag, bne_self_eq_false, Bool.false_or] at h
  exact List.all_eq_true.mp h.2

end Node

/-! ## The walk -/

namespace Value

/-- Induction on values, where the body of a node is taken as a whole. -/
@[elab_as_elim] theorem induction {P : Value → Prop} (null : P .null) (bool : ∀ b, P (.bool b))
    (int : ∀ n, P (.int n)) (real : ∀ r, P (.real r)) (text : ∀ s, P (.text s))
    (list : ∀ vs, (∀ v ∈ vs, P v) → P (.list vs))
    (node : ∀ n : Tree, (∀ v ∈ n.body, P v) → P (.node n)) (v : Value) : P v := by
  refine @Value.rec P (fun vs => ∀ v ∈ vs, P v) (fun n => ∀ v ∈ n.body, P v) null bool int real text
    list node ?_ ?_ (fun _ _ _ _ h => h) v
  · simp
  · intro v vs hv hvs w hw
    rcases List.mem_cons.mp hw with rfl | hw
    · exact hv
    · exact hvs w hw

theorem walkAll_eq (vs : List Value) : walkAll vs = vs.flatMap walk := by
  induction vs with
  | nil => rfl
  | cons v vs ih =>
      show walk v ++ walkAll vs = _
      rw [ih, List.flatMap_cons]

theorem walk_node (n : Tree) :
    (Value.node n).walk = n :: if n.isToken then [] else n.body.flatMap walk := by
  obtain ⟨tag, body, comments, loc⟩ := n
  show _ :: (if isTokenTag tag then [] else walkAll body) = _
  rw [walkAll_eq]
  rfl

theorem walk_list (vs : List Value) : (Value.list vs).walk = vs.flatMap walk := by
  show walkAll vs = _
  exact walkAll_eq vs

def Conforms (v : Value) : Prop := ∀ n ∈ v.walk, n.isShaped = true

theorem Conforms.isShaped {n : Tree} (h : Conforms (.node n)) : n.isShaped = true := by
  refine h n ?_
  rw [walk_node]
  exact List.mem_cons_self

end Value

theorem conforms_of_mem {n : Tree} (h : Value.Conforms (.node n)) (htoken : n.isToken = false)
    {v : Value} (hv : v ∈ n.body) : v.Conforms := by
  intro m hm
  refine h m ?_
  rw [Value.walk_node, htoken]
  exact List.mem_cons_of_mem _ (List.mem_flatMap.mpr ⟨v, hv, hm⟩)

theorem conforms_of_mem_list {vs : List Value} (h : Value.Conforms (.list vs)) {v : Value}
    (hv : v ∈ vs) : v.Conforms := by
  intro m hm
  refine h m ?_
  rw [Value.walk_list]
  exact List.mem_flatMap.mpr ⟨v, hv, hm⟩

theorem Node.conforms {n : Tree} (h : n.followsGrammar = true) : Value.Conforms (.node n) :=
  fun m hm => List.all_eq_true.mp h m hm

/-! ## Small trees -/

namespace Node

/-- A node without comments, whose place in the source is not known. -/
def plain (tag : String) (body : List Value) : Tree := ⟨tag, body, [], none⟩

def stringPart (s : String) : Tree := plain "@tstring_content" [.text s]

def variableCall (name : String) : Tree := plain "vcall" [.node (plain "@ident" [.text name])]

def statements (trees : List Tree) : Tree := plain "stmts" (trees.map .node)

def program (trees : List Tree) : Tree := plain "program" [.node (statements trees)]

end Node

end RubyPretty
