import RubyPretty.Proofs.Doc.Marks
import RubyPretty.Proofs.Printing.Yields
import RubyPretty.Rules.Blocks
/-!
# Links of chains

Which nodes a link is made of can be told from the tree (`gathered`): those that follow each other
by their receivers, down to a node that has comments or does not join the chain. A node that joins
one adds itself to the link of its receiver (`madeOf_extend`), so the pieces of the link keep the
text of the document, and the document at the end of the chain has it in every layout
(`yields_joined`).
-/

namespace RubyPretty

namespace Chain

open Doc

/-! ## The nodes of a chain -/

def containedCount : Value → Nat
  | .node ⟨tag, body, _, _⟩ =>
      if tag = "args" then body.length
      else match body with
        | [args, block] => containedCount args + if block.isNull then 0 else 1
        | _ => 0
  | _ => 0

/-- The number of arguments in a child that is a container or a single argument. -/
def argumentCount : Value → Nat
  | .null => 0
  | .node n => if Rules.containerTags.contains n.tag then containedCount (.node n) else 1
  | _ => 0

/-- The child that holds the arguments of a call, inside of parentheses if it has them. -/
def argumentsOf (n : Tree) : Value :=
  match n.body with
  | [_, .node argument] =>
      if argument.tag = "arg_paren" then argument.body.headD .null else .node argument
  | _ => .null

def passingTags : List String :=
  ["call", "method_add_arg", "command", "command_call", "fcall", "vcall"]

/-- Whether a block of the call at a place can be passed as `&:method`. -/
def hasShorthand (o : Options) (p : Place) (block : Tree) : Bool :=
  o.toProc && !block.hasComments &&
    match Rules.toProcAllowed o p, Shape.toProc block with
    | .ok true, .ok (some _) => true
    | _, _ => false

/-- Whether the block of the call at a place is passed as an argument. -/
def isPassed (o : Options) (p : Place) : Bool :=
  match p.node.body with
  | [.node callee, .node block] => hasShorthand o p block && passingTags.contains callee.tag
  | _ => false

/-- Whether the node at a place adds to the chain below it. A call on a receiver that it follows
directly does not, nor does a call without arguments that has lost its parentheses, nor one whose
block is passed as an argument. -/
def joins (o : Options) (extra : List Doc) (p : Place) : Bool :=
  if p.node.tag = "call" then
    !(p.node.body.head?.bind Value.tag?).any noIndentTags.contains
  else if p.node.tag = "method_add_arg" then
    !extra.isEmpty || argumentCount (argumentsOf p.node) != 0
  else p.node.tag == "method_add_block" && !isPassed o p

/-- The nodes of the chain that a receiver hands on, the last one first. -/
def gathered (o : Options) (around : List Tree) : Value → List Tree
  | .node ⟨tag, body, comments, loc⟩ =>
      if comments.isEmpty && joins o [] ⟨⟨tag, body, comments, loc⟩, around⟩ then
        ⟨tag, body, comments, loc⟩ ::
          match body with
          | receiver :: _ => gathered o (⟨tag, body, comments, loc⟩ :: around) receiver
          | [] => []
      else []
  | _ => []

/-- The nodes of the chain below a place. -/
def below (o : Options) (p : Place) : List Tree :=
  match p.node.body with
  | receiver :: _ => gathered o (p.node :: p.around) receiver
  | [] => []

theorem gathered_node (o : Options) (p : Place) :
    gathered o p.around (.node p.node) =
      if !p.node.hasComments && joins o [] p then p.node :: below o p else [] := by
  obtain ⟨⟨tag, body, comments, loc⟩, around⟩ := p
  unfold gathered
  rw [Node.hasComments, Bool.not_not]
  cases body <;> rfl

/-! ## What is handed on -/

variable {o : Options} {pr : Printer} {p : Place} {extra : List Doc} {ns : List Tree}
  {receiver : Value} {received : Printed} {first : Doc} {pieces : List Doc} {isCall : Bool}

/-- A link is made of these nodes: its pieces read as the document does, its depth is their number,
and it counts all of them as calls exactly if they are. -/
structure MadeOf (ns : List Tree) (d : Doc) (link : Link) : Prop where
  text : (cat link.fragments).SameText d
  depth : link.depth = ns.length
  calls : link.callDepth = link.depth ↔ ∀ n ∈ ns, n.tag = "call"

theorem MadeOf.marks {d : Doc} {link : Link} (h : MadeOf ns d link) :
    link.fragments.flatMap Doc.marks = d.marks := by
  rw [← marks_cat]
  exact sameText_iff.mp h.text

/-- What is handed on with a document is made of these nodes, and nothing is if there are none. -/
def HandsOn (ns : List Tree) (printed : Printed) : Prop :=
  (printed.link = none → ns = []) ∧
    ∀ link, printed.link = some link → ns ≠ [] ∧ MadeOf ns printed.doc link

theorem next_cases {link : Option Link} {handed : Option Link}
    (h : next p receiver link first pieces isCall = .ok handed) :
    (continues p = false ∧ handed = none) ∨
      (continues p = true ∧ handed = some (extend link first pieces isCall)) := by
  unfold next at h
  cases hcontinues : continues p with
  | false =>
      rw [hcontinues] at h
      exact .inl ⟨rfl, (Except.ok.inj h).symm⟩
  | true =>
      rw [hcontinues] at h
      refine .inr ⟨rfl, ?_⟩
      cases link with
      | some l => exact (Except.ok.inj h).symm
      | none =>
          obtain ⟨-, -, h⟩ := Except.bind_eq_ok.mp h
          exact (Except.ok.inj h).symm

theorem madeOf_extend {plain tail : Doc} (h : HandsOn ns received)
    (hcall : isCall = true ↔ p.node.tag = "call")
    (hplain : plain.marks = received.doc.marks ++ tail.marks)
    (hfirst : received.link = none → first.marks ++ pieces.flatMap Doc.marks = plain.marks)
    (hpieces : received.link ≠ none → pieces.flatMap Doc.marks = tail.marks) :
    MadeOf (p.node :: ns) plain (extend received.link first pieces isCall) := by
  cases hlink : received.link with
  | none =>
      obtain rfl : ns = [] := h.1 hlink
      refine ⟨sameText_iff.mpr ?_, rfl, ?_⟩
      · rw [marks_cat]
        exact hfirst hlink
      · show (if isCall then 1 else 0) = 1 ↔ _
        rw [List.forall_mem_singleton, ← hcall]
        cases isCall <;> simp
  | some l =>
      obtain ⟨-, hmade⟩ := h.2 l hlink
      refine ⟨sameText_iff.mpr ?_, ?_, ?_⟩
      · show (cat (l.fragments ++ pieces)).marks = plain.marks
        rw [marks_cat, List.flatMap_append, hmade.marks,
          hpieces (by rw [hlink]; exact Option.some_ne_none l), hplain]
      · show l.depth + 1 = _
        rw [hmade.depth, List.length_cons]
      · show (if isCall then l.callDepth + 1 else 0) = l.depth + 1 ↔ _
        rw [List.forall_mem_cons, ← hmade.calls, ← hcall]
        cases isCall <;> simp

/-! ## Passed blocks -/

theorem isSome_shorthand? {block : Tree} {proc : Option String}
    (h : Rules.shorthand? pr p block = .ok proc) :
    proc.isSome = hasShorthand pr.options p block := by
  unfold Rules.shorthand? at h
  unfold hasShorthand
  cases htoProc : pr.options.toProc with
  | false =>
      rw [htoProc] at h
      cases h
      rfl
  | true =>
      cases hcomments : block.hasComments with
      | true =>
          rw [htoProc, hcomments] at h
          cases h
          rfl
      | false =>
          rw [htoProc, hcomments] at h
          obtain ⟨allowed, hallowed, h⟩ := Except.bind_eq_ok.mp h
          rw [hallowed]
          cases allowed with
          | false =>
              cases h
              rfl
          | true =>
              have hproc : Shape.toProc block = .ok proc := h
              rw [hproc]
              cases proc <;> rfl

theorem isPassed_of_shorthand {callee block : Tree} {proc : String} (hoptions : pr.options = o)
    (hbody : p.node.body = [.node callee, .node block])
    (h : Rules.shorthand? pr p block = .ok (some proc)) :
    isPassed o p = passingTags.contains callee.tag := by
  have hshorthand := isSome_shorthand? h
  rw [hoptions] at hshorthand
  rw [isPassed, hbody]
  show (hasShorthand o p block && passingTags.contains callee.tag) = _
  rw [← hshorthand]
  rfl

/-! ## Receivers -/

/-- What the printer gives for a receiver. -/
def Gives (pr : Printer) (p : Place) (receiver : Value) (received : Printed) : Prop :=
  ∃ notes notes', pr.visitChild p receiver notes = .ok (received, notes')

/-- The links that a printer gives are made of the nodes of their chains. -/
structure Folds (o : Options) (pr : Printer) : Prop where
  options : pr.options = o
  visit : ∀ q : Place, q.parentIs linkTags = true →
    Yields (pr.visit q) (HandsOn (gathered o q.around (.node q.node)))

theorem below_eq (hbody : p.node.body.head? = some receiver) :
    below o p = gathered o (p.node :: p.around) receiver := by
  obtain ⟨rest, hrest⟩ := List.head?_eq_some_iff.mp hbody
  rw [below, hrest]

theorem Folds.visitReceiver (h : Folds o pr) (htag : p.node.tag ∈ linkTags)
    (hbody : p.node.body.head? = some receiver) :
    Yields (pr.visitChild p receiver) fun received =>
      HandsOn (below o p) received ∧ Gives pr p receiver received := by
  have hvisit : Yields (pr.visitChild p receiver) (HandsOn (below o p)) := by
    rw [below_eq hbody]
    cases receiver with
    | null => exact .pure ⟨fun _ => rfl, fun _ hlink => (by cases hlink)⟩
    | node n =>
        refine h.visit (p.below n) ?_
        show linkTags.contains p.node.tag = true
        exact List.contains_iff_mem.mpr htag
    | _ => exact .throw _
  intro notes received notes' hrun
  exact ⟨hvisit notes received notes' hrun, notes, notes', hrun⟩

/-! ## The end of a chain -/

/-- The place ends a chain that is long enough. -/
structure Closes (o : Options) (p : Place) (limit : Nat) : Prop where
  last : p.parentIs linkTags = false
  nonempty : below o p ≠ []
  threshold : threshold o p = .ok limit
  long : limit ≤ (below o p).length

theorem yields_closing (p : Place) (link : Option Link) :
    Yields (closing? pr p link) fun chain =>
      (∀ l, chain = some l → link = some l ∧ p.parentIs linkTags = false) ∧
        ∀ l limit, link = some l → p.parentIs linkTags = false →
          threshold pr.options p = .ok limit → limit ≤ l.depth → chain = some l := by
  unfold closing?
  cases link with
  | none => exact .pure ⟨fun _ h => (by cases h), fun _ _ h => (by cases h)⟩
  | some l =>
      cases hlast : p.parentIs linkTags with
      | true => exact .pure ⟨fun _ h => (by cases h), fun _ _ _ h => (by cases h)⟩
      | false =>
          refine .liftBind fun limit hlimit => ?_
          split
          · refine .anyBind fun _ => .pure ?_
            exact ⟨fun _ h => ⟨h, rfl⟩, fun _ _ h _ _ _ => h⟩
          · next hshort =>
              refine .pure ⟨fun _ h => (by cases h), fun l' limit' hl' _ hlimit' hlong => ?_⟩
              obtain rfl := Option.some.inj hl'
              rw [hlimit] at hlimit'
              obtain rfl := Except.ok.inj hlimit'
              exact absurd hlong hshort

/-- The document at the end of a chain, by the link that the receiver has handed on and the plain
form, which has the text of the receiver with the rest behind it. A chain of bare calls that ends
with arguments or a block breaks those first. Any other one is a group with a choice of two layouts,
of which the broken one has the pieces of the link. All of them have the text of the plain form. -/
def EndsChain (o : Options) (p : Place) (received : Printed) (plain d : Doc) : Prop :=
  ∃ link tail, received.link = some link ∧ plain.SameText (cat [received.doc, tail]) ∧
    ((p.node.tag ≠ "call" ∧ (∀ n ∈ below o p, n.tag = "call") ∧
        d = cat [grouped [indented link.fragments], grouped [tail]] ∧ d.SameText plain) ∨
      ((p.node.tag = "call" ∨ ∃ n ∈ below o p, n.tag ≠ "call") ∧
        ∃ broken flat, d = grouped [either broken flat] ∧
          broken = grouped [indented (link.fragments ++ [tail])] ∧ broken.SameText flat ∧
          flat.SameText plain))

/-- What a rule for links gives: it hands on a link exactly if the chain goes on, and offers the
other layout where the chain ends. -/
structure Laid (o : Options) (pr : Printer) (extra : List Doc) (p : Place) (printed : Printed) :
    Prop where
  alone : printed.link = none → (continues p && joins o extra p) = false
  linked : ∀ link, printed.link = some link →
    (continues p && joins o extra p) = true ∧ MadeOf (p.node :: below o p) printed.doc link
  ended : ∀ limit, joins o extra p = true → Closes o p limit →
    ∃ receiver received plain, p.node.body.head? = some receiver ∧ Gives pr p receiver received ∧
      EndsChain o p received plain printed.doc

theorem laid_of_not_joins (h : joins o extra p = false) (d : Doc) :
    Laid o pr extra p ⟨d, none⟩ where
  alone _ := by rw [h, Bool.and_false]
  linked _ hlink := by cases hlink
  ended _ hjoins := by
    rw [h] at hjoins
    cases hjoins

theorem not_continues (h : p.parentIs linkTags = false) : continues p = false := by
  rw [continues, h, Bool.false_and]

/-- A node that joins the chain below it hands on the longer one, or closes it. -/
theorem yields_joined (hoptions : pr.options = o) (hjoins : joins o extra p = true)
    (hbody : p.node.body.head? = some receiver) (hgives : Gives pr p receiver received)
    (hreceived : HandsOn (below o p) received) (hcall : isCall = true ↔ p.node.tag = "call")
    {plain : Doc} (tail : Doc) {close : Link → Doc}
    (hplain : plain.marks = received.doc.marks ++ tail.marks)
    (hfirst : received.link = none → first.marks ++ pieces.flatMap Doc.marks = plain.marks)
    (hpieces : received.link ≠ none → pieces.flatMap Doc.marks = tail.marks)
    (hclose : ∀ link, received.link = some link → EndsChain o p received plain (close link)) :
    Yields (do
      let link ← liftM (next p receiver received.link first pieces isCall)
      match ← closing? pr p received.link with
      | some chain => return ⟨close chain, none⟩
      | none => return ⟨plain, link⟩) (Laid o pr extra p) := by
  refine .liftBind fun link hlink => .bind (yields_closing p received.link) fun chain hchain => ?_
  split
  · next chain =>
      obtain ⟨hsome, hlast⟩ := hchain.1 chain rfl
      refine .pure ⟨fun _ => ?_, fun _ h => (by cases h), fun _ _ _ => ?_⟩
      · rw [not_continues hlast, Bool.false_and]
      · exact ⟨receiver, received, plain, hbody, hgives, hclose chain hsome⟩
  · refine .pure ⟨fun hnone => ?_, fun l hl => ?_, fun limit _ hcloses => ?_⟩
    · rcases next_cases hlink with ⟨hends, -⟩ | ⟨-, hsome⟩
      · rw [hends, Bool.false_and]
      · rw [hsome] at hnone
        cases hnone
    · rcases next_cases hlink with ⟨-, hnone⟩ | ⟨hcontinues, hsome⟩
      · rw [hnone] at hl
        cases hl
      · rw [hsome] at hl
        cases hl
        rw [hcontinues, hjoins]
        exact ⟨rfl, madeOf_extend hreceived hcall hplain hfirst hpieces⟩
    · -- a chain that is long enough is closed
      cases hl : received.link with
      | none => exact absurd (hreceived.1 hl) hcloses.nonempty
      | some l =>
          have hdepth := (hreceived.2 l hl).2.depth
          have hclosed := hchain.2 l limit hl hcloses.last (hoptions ▸ hcloses.threshold)
            (hdepth ▸ hcloses.long)
          cases hclosed

theorem endsChain_vertical (hreceived : HandsOn (below o p) received) {link : Link}
    (hlink : received.link = some link) {plain tail flat : Doc}
    (hcalls : p.node.tag = "call" ∨ ∃ n ∈ below o p, n.tag ≠ "call")
    (hplain : plain.marks = received.doc.marks ++ tail.marks) (hflat : flat.marks = plain.marks) :
    EndsChain o p received plain (vertical link tail flat) := by
  have hmarks := (hreceived.2 link hlink).2.marks
  refine ⟨link, tail, hlink, sameText_iff.mpr ?_, .inr ⟨hcalls, _, flat, rfl, rfl,
    sameText_iff.mpr ?_, sameText_iff.mpr hflat⟩⟩
  · simp [hplain]
  · simp [hmarks, hflat, hplain]

theorem endsChain_finish (htag : p.node.tag ≠ "call") (hreceived : HandsOn (below o p) received)
    {link : Link} (hlink : received.link = some link) (tail : Doc) :
    EndsChain o p received (cat [received.doc, tail]) (finish link received.doc tail) := by
  obtain ⟨-, hmade⟩ := hreceived.2 link hlink
  unfold finish
  split
  · next hbare =>
      refine ⟨link, tail, hlink, rfl, .inl ⟨htag, hmade.calls.mp hbare, rfl, sameText_iff.mpr ?_⟩⟩
      simp [splitArguments, hmade.marks]
  · next hmixed =>
      refine endsChain_vertical hreceived hlink (.inr ?_) (by simp) rfl
      by_contra hnone
      refine hmixed (hmade.calls.mpr fun n hn => ?_)
      by_contra hother
      exact hnone ⟨n, hn, hother⟩

theorem EndsChain.sameText {plain d : Doc} (h : EndsChain o p received plain d) :
    d.SameText plain := by
  obtain ⟨link, tail, -, -, ⟨-, -, -, hd⟩ | ⟨-, broken, flat, rfl, -, -, hflat⟩⟩ := h
  · exact hd
  · rw [sameText_iff] at hflat ⊢
    simpa using hflat

/-- Any document with the text of the plain form may stand for it. -/
theorem EndsChain.of_sameText {plain plain' d : Doc} (h : EndsChain o p received plain d)
    (hplain : d.SameText plain') : EndsChain o p received plain' d := by
  have hsame : plain.SameText plain' := h.sameText.symm.trans hplain
  obtain ⟨link, tail, hlink, htail, hends⟩ := h
  refine ⟨link, tail, hlink, hsame.symm.trans htail, ?_⟩
  rcases hends with ⟨htag, hcalls, hd, -⟩ | ⟨hcalls, broken, flat, hd, hbroken, hsides, hflat⟩
  · exact .inl ⟨htag, hcalls, hd, hplain⟩
  · exact .inr ⟨hcalls, broken, flat, hd, hbroken, hsides, hflat.trans hsame⟩

end Chain

end RubyPretty
