import RubyPretty.Printing.Registry
import RubyPretty.Proofs.Rules.Blocks
import RubyPretty.Proofs.Syntax.Schema
import RubyPretty.Shape.ToProc
/-!
# Blocks that only call a method on their parameter

In a tree that follows the grammar a block can be passed as `&:method` exactly if it takes a single
parameter, its body is a single statement, and that statement calls the method on the parameter
(`OnlyCalls`). Whether parameters of another kind are there is told by whether their place is empty.
The mark of a trailing comma is a node without children and counts as empty too, so it is not
noticed.
-/

namespace RubyPretty

namespace Grammar

/-- What stands at a position of the productions that a block is read from. -/
inductive Part where
  | any
  /-- A node with one of these tags. -/
  | node (tags : List String)
  /-- A node with one of these tags, or nothing. -/
  | optional (tags : List String)
  /-- A node with any tag. -/
  | expression
  | token
  /-- Any number of parameters. -/
  | parameters
  /-- A parameter for all other keywords, or the word that refuses them. -/
  | keywordRest
  /-- An operator: its text, or the token of one. -/
  | operator
deriving DecidableEq, Repr

def Part.admits : Part → Value → Bool
  | .any, _ => true
  | .node tags, v => v.tag?.any tags.contains
  | .optional tags, v => v.isNull || v.tag?.any tags.contains
  | .expression, v => v.node?.isSome
  | .token, v => isTokenValue v
  | .parameters, .null | .parameters, .list _ => true
  | .parameters, _ => false
  | .keywordRest, v => v.isNull || v.text? == some "nil" || v.tag? == some "kwrest_param"
  | .operator, v => v.text?.isSome || isTokenValue v

/-- What stands for the parameters that have no name of their own. -/
def restTags : List String := ["rest_param", "@args_forward", "excessed_comma"]

def blockParts : List (String × List Part) :=
  [("brace_block", [.optional ["block_var"], .node ["stmts"]]),
    ("do_block", [.optional ["block_var"], .node ["bodystmt"]]),
    ("block_var", [.node ["params"], .any]),
    ("params", [.parameters, .parameters, .optional restTags, .parameters, .parameters,
      .keywordRest, .optional ["blockarg"]]),
    ("bodystmt", [.node ["stmts"], .any, .any, .any]), ("call", [.expression, .operator, .any]),
    ("var_ref", [.token])]

def partsOf (tag : String) : List Part := (blockParts.lookup tag).getD []

end Grammar

namespace Node

/-- Whether a node has its shape, a token its text, and a node of a block what belongs to each of
its positions. -/
def isFormed (n : Tree) : Bool :=
  n.isShaped && (!n.isToken || Registry.isTokenBody n.body) &&
    ((Grammar.partsOf n.tag).zip n.body).all fun (part, v) => part.admits v

def isFormedTree (n : Tree) : Bool := n.walk.all isFormed

end Node

namespace Value

def Formed (v : Value) : Prop := ∀ n ∈ v.walk, n.isFormed = true

end Value

section Formed

variable {n m : Tree} {v : Value}

theorem Value.Formed.isFormed (h : Value.Formed (.node n)) : n.isFormed = true :=
  h n (by rw [Value.walk_node]; exact List.mem_cons_self)

theorem Value.Formed.isShaped (h : Value.Formed (.node n)) : n.isShaped = true := by
  have hn := h.isFormed
  simp only [Node.isFormed, Bool.and_eq_true] at hn
  exact hn.1.1

theorem Value.Formed.child (h : Value.Formed (.node n)) (htoken : n.isToken = false)
    (hv : v ∈ n.body) : v.Formed := by
  intro m hm
  refine h m ?_
  rw [Value.walk_node, htoken]
  exact List.mem_cons_of_mem _ (List.mem_flatMap.mpr ⟨v, hv, hm⟩)

theorem Value.Formed.element {vs : List Value} (h : Value.Formed (.list vs)) (hv : v ∈ vs) :
    v.Formed := by
  intro m hm
  refine h m ?_
  rw [Value.walk_list]
  exact List.mem_flatMap.mpr ⟨v, hv, hm⟩

theorem Value.Formed.exists_text (h : Value.Formed (.node n)) (htoken : n.isToken = true) :
    ∃ s, n.body = [.text s] := by
  have hn := h.isFormed
  simp only [Node.isFormed, htoken, Bool.not_true, Bool.false_or, Bool.and_eq_true] at hn
  obtain ⟨⟨-, hbody⟩, -⟩ := hn
  unfold Registry.isTokenBody at hbody
  split at hbody
  · next s hs => exact ⟨s, hs⟩
  · cases hbody

theorem Value.Formed.token (h : Value.Formed (.node n)) (htoken : n.isToken = true) :
    ∃ s, n.text? = some s ∧ n.carried = .ok (.text s) := by
  obtain ⟨s, hs⟩ := h.exists_text htoken
  exact ⟨s, by simp [Node.text?, htoken, hs], by simp [Node.carried, Node.child, htoken, hs]⟩

theorem Value.Formed.admits (h : Value.Formed (.node n)) {i : Nat} {part : Grammar.Part}
    (hpart : (Grammar.partsOf n.tag)[i]? = some part) (hv : n.body[i]? = some v) :
    part.admits v = true := by
  have hn := h.isFormed
  simp only [Node.isFormed, Bool.and_eq_true, List.all_eq_true] at hn
  refine hn.2 (part, v) (List.mem_of_getElem? (i := i) ?_)
  rw [List.getElem?_zip_eq_some]
  exact ⟨hpart, hv⟩

end Formed

/-! ## Outcomes that decide -/

/-- The computation succeeds, and what it finds is what has the property. -/
def Decides {α : Type} (o : Outcome (Option α)) (P : α → Prop) : Prop :=
  ∃ found, o = .ok found ∧ ∀ a, found = some a ↔ P a

namespace Decides

variable {α β : Type} {o : Outcome (Option α)} {P Q : α → Prop}

theorem absent (h : ∀ a, ¬ P a) : Decides (.ok none) P := by
  refine ⟨none, rfl, fun a => iff_of_false (fun ha => ?_) (h a)⟩
  cases ha

theorem found {a : α} (h : ∀ b, P b ↔ b = a) : Decides (.ok (some a)) P :=
  ⟨some a, rfl, fun b => by rw [h, Option.some.injEq, eq_comm]⟩

theorem congr (h : Decides o P) (hpq : ∀ a, P a ↔ Q a) : Decides o Q := by
  obtain ⟨r, hr, hiff⟩ := h
  exact ⟨r, hr, fun a => (hiff a).trans (hpq a)⟩

theorem andThen {g : Option α → Outcome (Option β)} {R : α → β → Prop} (h : Decides o P)
    (hnone : g none = .ok none) (hsome : ∀ a, P a → Decides (g (some a)) (R a)) :
    Decides (o >>= g) fun b => ∃ a, P a ∧ R a b := by
  obtain ⟨r, rfl, hr⟩ := h
  cases r with
  | none =>
      show Decides (g none) _
      rw [hnone]
      refine absent ?_
      rintro b ⟨a, ha, -⟩
      cases (hr a).mpr ha
  | some a =>
      have ha : P a := (hr a).mp rfl
      refine (hsome a ha).congr fun b => ⟨fun hb => ⟨a, ha, hb⟩, ?_⟩
      rintro ⟨a', ha', hb⟩
      rwa [Option.some.inj ((hr a').mpr ha')]

theorem map {f : α → β} (h : Decides o P) :
    Decides (o >>= fun found => pure (found.map f)) fun b => ∃ a, P a ∧ b = f a := by
  refine h.andThen rfl fun a _ => ?_
  exact found fun b => Iff.rfl

end Decides

namespace Shape

/-! ## What a block must be made of -/

/-- A place for parameters with none in it. -/
def isVacant : Value → Bool
  | .null => true
  | .list vs => vs.isEmpty
  | _ => false

/-- The parameters are a single name. There is none of another kind, though a trailing comma may
stand behind the name. -/
def SingleName (params param : Tree) : Prop :=
  ∃ opts rest posts keywords kwrest blockParam,
    params.body = [.list [.node param], opts, rest, posts, keywords, kwrest, blockParam] ∧
    param.tag = "@ident" ∧ (rest = .null ∨ rest.tag? = some "excessed_comma") ∧
    ∀ v ∈ [opts, posts, keywords, kwrest, blockParam], isVacant v = true

def HasStatements (block stmts : Tree) : Prop :=
  (block.tag = "brace_block" ∧ block.body[1]? = some (.node stmts)) ∨
    (block.tag = "do_block" ∧ ∃ body : Tree, block.body[1]? = some (.node body) ∧
      body.body = [.node stmts, .null, .null, .null])

def operatorText? : Value → Option String
  | .node n => n.text?
  | v => v.text?

/-- The statement calls a method on a variable, without arguments and without comments. -/
def CallsOn (name method : String) (stmt : Tree) : Prop :=
  stmt.tag = "call" ∧ stmt.comments = [] ∧
    ∃ (receiver token message : Tree) (operator : Value),
      stmt.body = [.node receiver, operator, .node message] ∧
      (receiver.tag = "var_ref" ∧ receiver.comments = [] ∧ receiver.body = [.node token] ∧
        token.text? = some name) ∧
      (operatorText? operator = some "." ∨ operatorText? operator = some "::") ∧
      message.tag = "@ident" ∧ message.comments = [] ∧ message.text? = some method

/-- The block takes one parameter and does nothing but call a method on it. -/
def OnlyCalls (block : Tree) (method : String) : Prop :=
  ∃ (vars params param stmts stmt : Tree) (name : String),
    block.body[0]? = some (.node vars) ∧ vars.body[0]? = some (.node params) ∧
    SingleName params param ∧ param.text? = some name ∧
    HasStatements block stmts ∧ stmts.body = [.node stmt] ∧ CallsOn name method stmt

/-! ## Parameters -/

variable {block params param stmts stmt : Tree}

theorem truth_of_child {n : Tree} (h : ∃ v, n.body = [v]) : (Value.node n).truth = true := by
  obtain ⟨v, hbody⟩ := h
  rw [Value.truth, hbody]
  rfl

theorem mem_of_admits {tags : List String} {n : Tree}
    (h : (Grammar.Part.optional tags).admits (.node n) = true) : n.tag ∈ tags := by
  simpa [Grammar.Part.admits, Value.isNull, Value.tag?, Value.node?] using h

/-- Whether there are parameters of a kind is told by whether their place is empty. -/
theorem truth_of_part {part : Grammar.Part} {v : Value} (hv : v.Formed)
    (hpart : part ∈ [.parameters, .keywordRest, .optional ["blockarg"]])
    (h : part.admits v = true) : v.truth = !isVacant v := by
  simp only [List.mem_cons, List.not_mem_nil, or_false] at hpart
  rcases hpart with rfl | rfl | rfl
  · cases v with
    | null | list => rfl
    | _ => cases h
  · cases v with
    | null => rfl
    | text s =>
        obtain rfl : s = "nil" := by
          simpa [Grammar.Part.admits, Value.isNull, Value.text?, Value.tag?, Value.node?] using h
        rfl
    | node n =>
        have htag : n.tag = "kwrest_param" := by
          simpa [Grammar.Part.admits, Value.isNull, Value.text?, Value.tag?, Value.node?] using h
        exact truth_of_child (Node.exists_body_eq hv.isShaped (by rw [htag]; decide))
    | _ => cases h
  · cases v with
    | null => rfl
    | node n =>
        have htag := List.mem_singleton.mp (mem_of_admits h)
        exact truth_of_child (Node.exists_body_eq hv.isShaped (by rw [htag]; decide))
    | _ => cases h

theorem truth_of_rest {v : Value} (hv : v.Formed)
    (h : (Grammar.Part.optional Grammar.restTags).admits v = true) :
    v.truth = false ↔ v = .null ∨ v.tag? = some "excessed_comma" := by
  cases v with
  | null => exact iff_of_true rfl (.inl rfl)
  | node n =>
      have hmem := mem_of_admits h
      simp only [Grammar.restTags, List.mem_cons, List.not_mem_nil, or_false] at hmem
      rcases hmem with hrest | hforward | hcomma
      · have htruth := truth_of_child (Node.exists_body_eq hv.isShaped (by rw [hrest]; decide))
        simp [htruth, Value.tag?, Value.node?, hrest]
      · obtain ⟨s, hbody⟩ := hv.exists_text (by rw [Node.isToken, hforward]; decide)
        have htruth := truth_of_child ⟨.text s, hbody⟩
        simp [htruth, Value.tag?, Value.node?, hforward]
      · have hbody := Node.body_eq_nil hv.isShaped (by rw [hcomma]; decide)
        simp [Value.truth, hbody, Value.tag?, Value.node?, hcomma]
  | _ => cases h

theorem exists_seven {vs : List Value} (h : vs.length = 7) :
    ∃ v₀ v₁ v₂ v₃ v₄ v₅ v₆, vs = [v₀, v₁, v₂, v₃, v₄, v₅, v₆] := by
  rcases vs with _ | ⟨v₀, _ | ⟨v₁, _ | ⟨v₂, _ | ⟨v₃, _ | ⟨v₄, _ | ⟨v₅, _ | ⟨v₆, _ | ⟨_, _⟩⟩⟩⟩⟩⟩⟩⟩
  all_goals simp at h ⊢

theorem singleName_iff (h : Value.Formed (.node params)) (htag : params.tag = "params")
    {reqs opts rest posts keywords kwrest blockParam : Value}
    (hbody : params.body = [reqs, opts, rest, posts, keywords, kwrest, blockParam]) :
    SingleName params param ↔ reqs = .list [.node param] ∧ param.tag = "@ident" ∧
      [opts, rest, posts, keywords, kwrest, blockParam].any (·.truth) = false := by
  have hformed : ∀ v ∈ params.body, v.Formed :=
    fun v => h.child (by rw [Node.isToken, htag]; decide)
  have hadmits (i : Nat) (part : Grammar.Part) (v : Value)
      (hpart : (Grammar.partsOf "params")[i]? = some part) (hv : params.body[i]? = some v) :
      part.admits v = true := h.admits (htag ▸ hpart) hv
  rw [hbody] at hformed hadmits
  have hothers : ∀ v ∈ [opts, posts, keywords, kwrest, blockParam], v.truth = !isVacant v := by
    simp only [List.forall_mem_cons] at hformed ⊢
    obtain ⟨-, hopts, -, hposts, hkeywords, hkwrest, hblock, -⟩ := hformed
    exact ⟨truth_of_part hopts (by simp) (hadmits 1 _ _ rfl rfl),
      truth_of_part hposts (by simp) (hadmits 3 _ _ rfl rfl),
      truth_of_part hkeywords (by simp) (hadmits 4 _ _ rfl rfl),
      truth_of_part hkwrest (by simp) (hadmits 5 _ _ rfl rfl),
      truth_of_part hblock (by simp) (hadmits 6 _ _ rfl rfl), List.forall_mem_nil _⟩
  have hrest := truth_of_rest (hformed rest (by simp)) (hadmits 2 _ _ rfl rfl)
  have hvacant : [opts, rest, posts, keywords, kwrest, blockParam].any (·.truth) = false ↔
      (rest = .null ∨ rest.tag? = some "excessed_comma") ∧
        ∀ v ∈ [opts, posts, keywords, kwrest, blockParam], isVacant v = true := by
    simp only [List.forall_mem_cons] at hothers
    simp only [← hrest, List.any_cons, List.any_nil, Bool.or_eq_false_iff, List.forall_mem_cons,
      hothers, Bool.not_eq_false']
    tauto
  rw [hvacant, SingleName, hbody]
  constructor
  · rintro ⟨_, _, _, _, _, _, hsame, hname, hcomma, hothers⟩
    simp only [List.cons.injEq, and_true] at hsame
    obtain ⟨rfl, rfl, rfl, rfl, rfl, rfl, rfl⟩ := hsame
    exact ⟨rfl, hname, hcomma, hothers⟩
  · rintro ⟨rfl, hname, hcomma, hothers⟩
    exact ⟨_, _, _, _, _, _, rfl, hname, hcomma, hothers⟩

theorem singleParam?_decides (h : Value.Formed (.node params)) (htag : params.tag = "params") :
    Decides (singleParam? params) (SingleName params) := by
  obtain ⟨reqs, opts, rest, posts, keywords, kwrest, blockParam, hbody⟩ :=
    exists_seven (Node.length_body h.isShaped (by rw [htag]; decide))
  have hsingle (param : Tree) : SingleName params param ↔ reqs = .list [.node param] ∧
      param.tag = "@ident" ∧
      [opts, rest, posts, keywords, kwrest, blockParam].any (·.truth) = false :=
    singleName_iff h htag hbody
  obtain ⟨elements, helements, hreqs⟩ : ∃ vs, reqs.asOptionalElements = .ok vs ∧
      ∀ v, reqs = .list [v] ↔ vs = [v] := by
    have hlist : Grammar.Part.parameters.admits reqs = true :=
      h.admits (i := 0) (by rw [htag]; rfl) (by rw [hbody]; rfl)
    cases reqs with
    | null => exact ⟨[], rfl, by simp⟩
    | list vs => exact ⟨vs, by cases vs <;> rfl, by simp⟩
    | _ => cases hlist
  unfold singleParam?
  rw [hbody]
  show Decides (reqs.asOptionalElements >>= _) _
  rw [helements]
  show Decides (if _ then _ else _) _
  split
  · next hthere =>
      refine .absent fun param hparam => ?_
      rw [((hsingle param).mp hparam).2.2] at hthere
      cases hthere
  · next hthere =>
      rw [Bool.not_eq_true] at hthere
      split
      · next param =>
          have honly := (hreqs (.node param)).mpr rfl
          show Decides (.ok (if param.tag = "@ident" then some param else none)) _
          split
          · next hname =>
              refine .found fun other => (hsingle other).trans ⟨fun hother => ?_, ?_⟩
              · rw [honly] at hother
                simpa using hother.1.symm
              · rintro rfl
                exact ⟨honly, hname, hthere⟩
          · next hname =>
              refine .absent fun other hother => hname ?_
              obtain ⟨hsame, hident, -⟩ := (hsingle other).mp hother
              rw [honly] at hsame
              obtain rfl : param = other := by simpa using hsame
              exact hident
      · next hmany =>
          refine .absent fun other hother => hmany other ?_
          exact (hreqs _).mp ((hsingle other).mp hother).1

/-- The only parameter carries its name. -/
theorem SingleName.token (h : Value.Formed (.node params)) (htag : params.tag = "params")
    (hparam : SingleName params param) :
    ∃ name, param.text? = some name ∧ param.carried = .ok (.text name) := by
  obtain ⟨_, _, _, _, _, _, hbody, hname, -⟩ := hparam
  have hlist : (Value.list [.node param]).Formed :=
    h.child (by rw [Node.isToken, htag]; decide) (by rw [hbody]; exact List.mem_cons_self)
  exact (hlist.element List.mem_cons_self).token (by rw [Node.isToken, hname]; decide)

/-! ## Statements -/

theorem node_of_part {tags : List String} {v : Value}
    (h : (Grammar.Part.node tags).admits v = true) : ∃ n : Tree, v = .node n ∧ n.tag ∈ tags := by
  cases v with
  | node n => exact ⟨n, rfl, by simpa [Grammar.Part.admits, Value.tag?, Value.node?] using h⟩
  | _ => cases h

theorem tag_of_node {tags : List String} {n : Tree}
    (h : (Grammar.Part.node tags).admits (.node n) = true) : n.tag ∈ tags := by
  simpa [Grammar.Part.admits, Value.tag?, Value.node?] using h

theorem blockStatements?_decides (h : Value.Formed (.node block))
    (htag : block.tag ∈ ["brace_block", "do_block"]) :
    Decides (blockStatements? block) (HasStatements block) := by
  have htoken : block.isToken = false := by
    have hall : ∀ tag ∈ ["brace_block", "do_block"], isTokenTag tag = false := by decide
    exact hall _ htag
  simp only [List.mem_cons, List.not_mem_nil, or_false] at htag
  rcases htag with htag | htag
  · obtain ⟨vars, body, hbody⟩ := List.length_eq_two.mp
      (Node.length_body h.isShaped (m := 2) (by rw [htag]; decide))
    have hpart : (Grammar.Part.node ["stmts"]).admits body = true :=
      h.admits (i := 1) (by rw [htag]; rfl) (by rw [hbody]; rfl)
    obtain ⟨stmts, rfl, -⟩ := node_of_part hpart
    have hfound : blockStatements? block = .ok (some stmts) := by
      unfold blockStatements?
      rw [if_pos (by rw [htag]; decide), Node.childNode_eq_ok.mpr (by rw [hbody]; rfl)]
      rfl
    rw [hfound]
    refine .found fun other => ?_
    simp [HasStatements, htag, hbody, eq_comm]
  · obtain ⟨vars, v, hbody⟩ := List.length_eq_two.mp
      (Node.length_body h.isShaped (m := 2) (by rw [htag]; decide))
    have hpart : (Grammar.Part.node ["bodystmt"]).admits v = true :=
      h.admits (i := 1) (by rw [htag]; rfl) (by rw [hbody]; rfl)
    obtain ⟨body, rfl, hbodystmt⟩ := node_of_part hpart
    have hbodystmt := List.mem_singleton.mp hbodystmt
    have hformed := h.child htoken (v := .node body) (by rw [hbody]; simp)
    obtain ⟨w, rescue, elseClause, ensure, hparts⟩ := List.length_eq_four.mp
      (Node.length_body hformed.isShaped (m := 4) (by rw [hbodystmt]; decide))
    have hfirst : (Grammar.Part.node ["stmts"]).admits w = true :=
      hformed.admits (i := 0) (by rw [hbodystmt]; rfl) (by rw [hparts]; rfl)
    obtain ⟨stmts, rfl, -⟩ := node_of_part hfirst
    have hiff (other : Tree) : HasStatements block other ↔
        other = stmts ∧ rescue = .null ∧ elseClause = .null ∧ ensure = .null := by
      simp [HasStatements, htag, hbody, hparts, eq_comm]
    have hchild : block.childNode 1 = .ok body := Node.childNode_eq_ok.mpr (by rw [hbody]; rfl)
    unfold blockStatements?
    rw [if_neg (by rw [htag]; decide), hchild]
    simp only [Except.ok_bind, hparts]
    split
    · next hnull =>
        simp only [Bool.and_eq_true, Value.isNull_iff] at hnull
        refine .found fun other => (hiff other).trans (and_iff_left ?_)
        exact ⟨hnull.1.1, hnull.1.2, hnull.2⟩
    · next hclause =>
        refine .absent fun other hother => hclause ?_
        obtain ⟨-, rfl, rfl, rfl⟩ := (hiff other).mp hother
        rfl

theorem HasStatements.formed (h : Value.Formed (.node block)) (hstmts : HasStatements block stmts) :
    Value.Formed (.node stmts) ∧ stmts.tag = "stmts" := by
  rcases hstmts with ⟨htag, hbody⟩ | ⟨htag, body, hbody, hparts⟩
  · have hpart : (Grammar.Part.node ["stmts"]).admits (.node stmts) = true :=
      h.admits (by rw [htag]; rfl) hbody
    exact ⟨h.child (by rw [Node.isToken, htag]; decide) (List.mem_of_getElem? hbody),
      List.mem_singleton.mp (tag_of_node hpart)⟩
  · have hpart : (Grammar.Part.node ["bodystmt"]).admits (.node body) = true :=
      h.admits (by rw [htag]; rfl) hbody
    have hformed := h.child (by rw [Node.isToken, htag]; decide) (List.mem_of_getElem? hbody)
    have hbodystmt := List.mem_singleton.mp (tag_of_node hpart)
    have hstmts : (Grammar.Part.node ["stmts"]).admits (.node stmts) = true :=
      hformed.admits (i := 0) (by rw [hbodystmt]; rfl) (by rw [hparts]; rfl)
    exact ⟨hformed.child (by rw [Node.isToken, hbodystmt]; decide)
      (by rw [hparts]; exact List.mem_cons_self), List.mem_singleton.mp (tag_of_node hstmts)⟩

theorem exists_statements (h : Value.Formed (.node stmts)) (htag : stmts.tag = "stmts") :
    ∃ ns : List Tree, stmts.body.mapM Value.asNode = .ok ns ∧ stmts.body = ns.map .node := by
  have hnodes := Node.isSome_statement h.isShaped htag
  generalize stmts.body = vs at hnodes
  induction vs with
  | nil => exact ⟨[], rfl, rfl⟩
  | cons v vs ih =>
      obtain ⟨hv, hvs⟩ := List.forall_mem_cons.mp hnodes
      obtain ⟨ns, hns, hmap⟩ := ih hvs
      cases v with
      | node n =>
          refine ⟨n :: ns, ?_, by rw [hmap]; rfl⟩
          rw [List.mapM_cons, hns]
          rfl
      | _ => cases hv

/-! ## The call -/

theorem same_text (s t : String) : (Value.text s).same (.text t) = (s == t) := by
  show (some (compare s t) == some .eq) = (s == t)
  rw [Bool.eq_iff_iff, beq_iff_eq, beq_iff_eq, Option.some.injEq, Std.compare_eq_iff_eq]

theorem operatorIn_eq {v : Value} (hv : v.Formed) (h : Grammar.Part.operator.admits v = true)
    (texts : List String) :
    operatorIn texts v = .ok ((operatorText? v).any texts.contains) := by
  cases v with
  | text s => rfl
  | node n =>
      have htoken : n.isToken = true := by
        simpa [Grammar.Part.admits, Value.text?, Grammar.isTokenValue, Value.node?] using h
      obtain ⟨s, htext, hcarried⟩ := hv.token htoken
      rw [operatorIn, hcarried, operatorText?, htext]
      rfl
  | _ => cases h

theorem callsOn_iff {receiver token : Tree} {operator message : Value} {called name method : String}
    (htag : stmt.tag = "call") (hcomments : stmt.comments = [])
    (hbody : stmt.body = [.node receiver, operator, message]) (hvar : receiver.tag = "var_ref")
    (hbare : receiver.comments = []) (honly : receiver.body = [.node token])
    (htext : token.text? = some called) :
    CallsOn name method stmt ↔
      called = name ∧ (operatorText? operator).any [".", "::"].contains = true ∧
        ∃ m : Tree, message = .node m ∧ m.tag = "@ident" ∧ m.comments = [] ∧
          m.text? = some method := by
  have hdot : (operatorText? operator).any [".", "::"].contains = true ↔
      operatorText? operator = some "." ∨ operatorText? operator = some "::" := by
    cases operatorText? operator <;> simp
  rw [hdot]
  constructor
  · rintro ⟨-, -, _, _, m, _, hsame, ⟨-, -, honly', htext'⟩, hdots, hmessage⟩
    rw [hbody] at hsame
    cases hsame
    rw [honly] at honly'
    cases honly'
    rw [htext] at htext'
    exact ⟨Option.some.inj htext', hdots, m, rfl, hmessage⟩
  · rintro ⟨rfl, hdots, m, rfl, hmessage⟩
    exact ⟨htag, hcomments, receiver, token, m, operator, hbody, ⟨hvar, hbare, honly, htext⟩, hdots,
      hmessage⟩

theorem exists_node_of_expression {v : Value} (h : Grammar.Part.expression.admits v = true) :
    ∃ n, v = .node n := by
  cases v with
  | node n => exact ⟨n, rfl⟩
  | _ => cases h

theorem exists_node_of_token {v : Value} (h : Grammar.Part.token.admits v = true) :
    ∃ n : Tree, v = .node n ∧ n.isToken = true := by
  cases v with
  | node n =>
      exact ⟨n, rfl, by simpa [Grammar.Part.admits, Grammar.isTokenValue, Value.node?] using h⟩
  | _ => cases h

theorem methodOn?_decides (h : Value.Formed (.node stmt)) {name : String}
    (hparam : param.carried = .ok (.text name)) :
    Decides (methodOn? param stmt) fun method => CallsOn name method stmt := by
  unfold methodOn?
  split
  · next hother =>
      refine .absent fun method hcalls => ?_
      obtain ⟨htag, hcomments, -⟩ := hcalls
      simp [htag, hcomments, Node.hasComments] at hother
  next hcall =>
  obtain ⟨htag, hcomments⟩ := Rules.bare_of_not hcall
  obtain ⟨r, operator, message, hbody⟩ := List.length_eq_three.mp
    (Node.length_body h.isShaped (m := 3) (by rw [htag]; decide))
  have hformed : ∀ v ∈ [r, operator, message], v.Formed := fun v hv =>
    h.child (by rw [Node.isToken, htag]; decide) (hbody ▸ hv)
  have hoperator := operatorIn_eq (hformed operator (by simp))
    (h.admits (i := 1) (by rw [htag]; rfl) (by rw [hbody]; rfl)) [".", "::"]
  obtain ⟨receiver, rfl⟩ := exists_node_of_expression
    (h.admits (i := 0) (by rw [htag]; rfl) (by rw [hbody]; rfl))
  simp only [hbody, Value.asNode, Except.ok_bind]
  split
  · next hother =>
      refine .absent fun method hcalls => ?_
      obtain ⟨-, -, _, _, _, _, hsame, ⟨hvar, hbare, -⟩, -⟩ := hcalls
      rw [hbody] at hsame
      cases hsame
      simp [hvar, hbare, Node.hasComments] at hother
  next hvariable =>
  obtain ⟨hvar, hbare⟩ := Rules.bare_of_not hvariable
  have hreceiver := hformed (.node receiver) (by simp)
  obtain ⟨v, honly⟩ := Node.exists_body_eq hreceiver.isShaped (by rw [hvar]; decide)
  obtain ⟨token, rfl, htoken⟩ := exists_node_of_token
    (hreceiver.admits (i := 0) (by rw [hvar]; rfl) (by rw [honly]; rfl))
  have hvariable : (Value.node token).Formed :=
    hreceiver.child (by rw [Node.isToken, hvar]; decide) (by rw [honly]; exact List.mem_cons_self)
  obtain ⟨called, htext, hcarried⟩ := hvariable.token htoken
  have hchild : receiver.childNode 0 = .ok token := Node.childNode_eq_ok.mpr (by rw [honly]; rfl)
  have hiff (method : String) : CallsOn name method stmt ↔ _ :=
    callsOn_iff htag hcomments hbody hvar hbare honly htext
  simp only [hchild, hcarried, hparam, hoperator, Except.ok_bind, same_text, hiff]
  split
  · next hother =>
      refine .absent fun method hcalls => ?_
      simp [hcalls.1] at hother
  next hname =>
  obtain rfl : called = name := by simpa using hname
  split
  · next hother =>
      refine .absent fun method hcalls => ?_
      rw [hcalls.2.1] at hother
      cases hother
  next hdot =>
  have hdot : (operatorText? operator).any [".", "::"].contains = true := by simpa using hdot
  simp only [hdot, true_and]
  cases message with
  | node m =>
      simp only [Value.node.injEq, exists_eq_left']
      split
      · next hident =>
          obtain ⟨hident, hbare⟩ : m.tag = "@ident" ∧ m.comments = [] := by
            simpa [Node.hasComments] using hident
          obtain ⟨method, htext, hcarried⟩ :=
            (hformed (.node m) (by simp)).token (by rw [Node.isToken, hident]; decide)
          rw [hcarried]
          refine .found fun other => ?_
          simp [hident, hbare, htext, Value.display, eq_comm]
      · next hother =>
          refine .absent fun method hcalls => hother ?_
          simp [hcalls.1, hcalls.2.1, Node.hasComments]
  | _ =>
      refine .absent ?_
      rintro method ⟨m, hm, -⟩
      cases hm

/-! ## Blocks -/

theorem exists_params (h : Value.Formed (.node block))
    (htag : block.tag ∈ ["brace_block", "do_block"]) :
    block.body[0]? = some .null ∨ ∃ vars params : Tree, block.body[0]? = some (.node vars) ∧
      vars.body[0]? = some (.node params) ∧ params.tag = "params" ∧
      Value.Formed (.node params) := by
  have hall : ∀ tag ∈ ["brace_block", "do_block"], isTokenTag tag = false ∧
      Grammar.arity? tag = some 2 ∧
      (Grammar.partsOf tag)[0]? = some (.optional ["block_var"]) := by decide
  obtain ⟨htoken, harity, hpart⟩ := hall _ htag
  obtain ⟨v, body, hbody⟩ := List.length_eq_two.mp (Node.length_body h.isShaped harity)
  have hadmits := h.admits hpart (v := v) (by rw [hbody]; rfl)
  have hformed := h.child htoken (v := v) (by rw [hbody]; exact List.mem_cons_self)
  rw [hbody]
  cases v with
  | null => exact .inl rfl
  | node vars =>
      have hvars := List.mem_singleton.mp (mem_of_admits hadmits)
      obtain ⟨w, locals, hbody⟩ := List.length_eq_two.mp
        (Node.length_body hformed.isShaped (m := 2) (by rw [hvars]; decide))
      have hpart : (Grammar.Part.node ["params"]).admits w = true :=
        hformed.admits (i := 0) (by rw [hvars]; rfl) (by rw [hbody]; rfl)
      obtain ⟨params, rfl, hparams⟩ := node_of_part hpart
      refine .inr ⟨vars, params, rfl, by rw [hbody]; rfl, List.mem_singleton.mp hparams, ?_⟩
      exact hformed.child (by rw [Node.isToken, hvars]; decide)
        (by rw [hbody]; exact List.mem_cons_self)
  | _ => cases hadmits

/-- The statements only call a method on a parameter, and this is the short form for that. -/
def ShortFor (param stmts : Tree) (s : String) : Prop :=
  ∃ stmt name method, stmts.body = [.node stmt] ∧ param.text? = some name ∧
    CallsOn name method stmt ∧ s = "&:" ++ method

/-- What a block with these parameters has to have for a short form, one part after the other. -/
theorem onlyCalls_iff {vars params : Tree} (hvars : block.body[0]? = some (.node vars))
    (hparams : vars.body[0]? = some (.node params)) (s : String) :
    (∃ method, s = "&:" ++ method ∧ OnlyCalls block method) ↔
      ∃ param, SingleName params param ∧ ∃ stmts, HasStatements block stmts ∧
        ShortFor param stmts s := by
  constructor
  · rintro ⟨method, rfl, vars', params', param, stmts, stmt, name, hvars', hparams', hparam, hname,
      hstmts, hstmt, hcalls⟩
    obtain rfl : vars = vars' := by simpa [hvars] using hvars'
    obtain rfl : params = params' := by simpa [hparams] using hparams'
    exact ⟨param, hparam, stmts, hstmts, stmt, name, method, hstmt, hname, hcalls, rfl⟩
  · rintro ⟨param, hparam, stmts, hstmts, stmt, name, method, hstmt, hname, hcalls, rfl⟩
    exact ⟨method, rfl, vars, params, param, stmts, stmt, name, hvars, hparams, hparam, hname,
      hstmts, hstmt, hcalls⟩

/-- A block is passed as `&:method` exactly if it only calls the method on its parameter. -/
theorem toProc_eq_some_iff_onlyCalls (block : Tree)
    (htag : block.tag ∈ ["brace_block", "do_block"]) (hformed : block.isFormedTree = true) :
    ∃ shorthand, toProc block = .ok shorthand ∧
      ∀ s, shorthand = some s ↔ ∃ method, s = "&:" ++ method ∧ OnlyCalls block method := by
  have h : Value.Formed (.node block) := List.all_eq_true.mp hformed
  show Decides (toProc block) fun s => ∃ method, s = "&:" ++ method ∧ OnlyCalls block method
  unfold toProc
  rcases exists_params h htag with hnull | ⟨vars, params, hvars, hfirst, hparamsTag, hparams⟩
  · rw [Node.child_eq_ok.mpr hnull]
    refine .absent ?_
    rintro s ⟨method, -, vars, params, param, stmts, stmt, name, hvars, -⟩
    rw [hnull] at hvars
    cases hvars
  have hitem : (Value.node vars).item 0 = .ok (.node params) := by
    show vars.child 0 = _
    exact Node.child_eq_ok.mpr hfirst
  simp only [Node.child_eq_ok.mpr hvars, Except.ok_bind, hitem, Value.asNode]
  -- Each step looks for one thing: the parameter, then the statements, then the call.
  refine Decides.congr (Decides.andThen
    (R := fun param s => ∃ stmts, HasStatements block stmts ∧ ShortFor param stmts s)
    (singleParam?_decides hparams hparamsTag) ?_ ?_) ?_
  · rfl
  · intro param hparam
    refine Decides.andThen (blockStatements?_decides h htag) ?_ ?_
    · rfl
    intro stmts hstmts
    obtain ⟨name, htext, hcarried⟩ := hparam.token hparams hparamsTag
    obtain ⟨hstmtsFormed, hstmtsTag⟩ := hstmts.formed h
    obtain ⟨ns, hns, hstatements⟩ := exists_statements hstmtsFormed hstmtsTag
    simp only [Except.ok_bind, hns]
    split
    · next stmt =>
        split
        · next hvoid =>
            refine .absent ?_
            rintro s ⟨_, _, _, honly, -, ⟨hcall, -⟩, -⟩
            rw [hstatements] at honly
            cases honly
            rw [hvoid] at hcall
            exact absurd hcall (by decide)
        · have hstmt : (Value.node stmt).Formed := hstmtsFormed.child
            (by rw [Node.isToken, hstmtsTag]; decide)
            (by rw [hstatements]; exact List.mem_cons_self)
          refine (methodOn?_decides hstmt hcarried).map.congr fun s => ?_
          simp [ShortFor, hstatements, htext]
    · next hmany =>
        refine .absent ?_
        rintro s ⟨stmt, _, _, honly, -⟩
        rw [hstatements] at honly
        obtain ⟨n, rfl, -⟩ := List.map_eq_singleton_iff.mp honly
        exact hmany n rfl
  · exact fun s => (onlyCalls_iff hvars hfirst s).symm

/-- A block that takes `x` and calls `name` on it, with `rest` behind the parameter. -/
def sampleBlock (rest : Value) : Tree :=
  let ident (s : String) : Value := .node (.plain "@ident" [.text s])
  let params : Tree :=
    .plain "params" [.list [ident "x"], .null, rest, .null, .list [], .null, .null]
  let call : Tree :=
    .plain "call" [.node (.plain "var_ref" [ident "x"]), .text ".", ident "name"]
  .plain "brace_block"
    [.node (.plain "block_var" [.node params, .null]), .node (.statements [call])]

/-- The theorem at the block `{ |x| x.name }`. -/
theorem toProc_eq_some_iff_onlyCalls_sample : (sampleBlock .null).isFormedTree = true ∧
    toProc (sampleBlock .null) = .ok (some "&:name") ∧ OnlyCalls (sampleBlock .null) "name" := by
  have hformed : (sampleBlock .null).isFormedTree = true := by decide
  have hfires : toProc (sampleBlock .null) = .ok (some "&:name") := rfl
  obtain ⟨shorthand, hshorthand, hiff⟩ :=
    toProc_eq_some_iff_onlyCalls (sampleBlock .null) (by decide) hformed
  rw [hfires] at hshorthand
  cases hshorthand
  obtain ⟨method, hmethod, hcalls⟩ := (hiff "&:name").mp rfl
  have hname : "name" = method := String.append_right_inj "&:" |>.mp hmethod
  exact ⟨hformed, hfires, hname ▸ hcalls⟩

/-- The trailing comma of `{ |x,| x.name }`, which takes the block's argument apart, is lost. -/
theorem toProc_trailing_comma :
    let block := sampleBlock (.node (.plain "excessed_comma" []))
    block.isFormedTree = true ∧ toProc block = .ok (some "&:name") :=
  ⟨by decide, rfl⟩

end Shape

end RubyPretty
