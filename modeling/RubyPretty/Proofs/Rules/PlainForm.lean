import RubyPretty.Proofs.Printing.Links
import RubyPretty.Proofs.Rules.Arguments
/-!
# The plain form of a chain

The plain form of the end of a chain is what its rule gives if the receiver hands on no link. With a
link the rule may give another layout. The plain form is there whenever the rule returns, and the
layouts have its text (`readsAs_joined`).
-/

namespace RubyPretty

/-! ## Printers that cut chains -/

namespace Printer

variable (pr : Printer) (p : Place) (v : Value)

/-- The printer that hands on no links. -/
def unlinked : Printer :=
  { pr with visit := fun q => do return { ← pr.visit q with link := none } }

theorem visitChild_unlinked :
    pr.unlinked.visitChild p v = do return { ← pr.visitChild p v with link := none } := by
  cases v <;> rfl

theorem print_unlinked : pr.unlinked.print p v = pr.print p v := by
  unfold print
  rw [visitChild_unlinked, bind_assoc]
  rfl

end Printer

theorem Rules.argumentList_unlinked (pr : Printer) (p : Place) (v : Value) :
    argumentList pr.unlinked p v = argumentList pr p v :=
  argumentList_congr (Printer.print_unlinked pr) p v

/-! ## Documents that read the same -/

/-- Whenever the one computation returns, so does the other from the same notes, and their documents
have the same text. -/
def ReadsAs (m plain : PrintM Printed) : Prop :=
  ∀ notes printed notes', m notes = .ok (printed, notes') →
    ∃ d notes'', plain notes = .ok (⟨d, none⟩, notes'') ∧ printed.doc.SameText d

namespace ReadsAs

variable {α : Type} {m : PrintM α} {f g : α → PrintM Printed} {P : α → Prop}

theorem pure {m : PrintM Printed} {d : Doc} (h : Yields m fun printed => printed.doc.SameText d) :
    ReadsAs m (Pure.pure ⟨d, none⟩) :=
  fun notes printed notes' hrun => ⟨d, notes, rfl, h notes printed notes' hrun⟩

theorem throw (e : Fault) (plain : PrintM Printed) : ReadsAs (MonadExcept.throw e) plain := by
  intro notes printed notes' hrun
  cases hrun

theorem bind (hm : Yields m P) (h : ∀ a, P a → ReadsAs (f a) (g a)) :
    ReadsAs (m >>= f) (m >>= g) := by
  intro notes printed notes' hrun
  simp only [Bind.bind, StateT.bind] at hrun ⊢
  cases hm' : m notes with
  | error e =>
      rw [hm'] at hrun
      cases hrun
  | ok r =>
      rw [hm'] at hrun
      exact h r.1 (hm notes r.1 r.2 hm') r.2 printed notes' hrun

theorem anyBind (h : ∀ a, ReadsAs (f a) (g a)) : ReadsAs (m >>= f) (m >>= g) :=
  bind (P := fun _ => True) (fun _ _ _ _ => trivial) fun a _ => h a

theorem liftBind {r : Outcome α} (h : ∀ a, r = .ok a → ReadsAs (f a) (g a)) :
    ReadsAs (liftM r >>= f) (liftM r >>= g) :=
  bind (.lift fun _ hr => hr) h

theorem ite {c : Prop} [Decidable c] {m₁ m₂ plain₁ plain₂ : PrintM Printed}
    (h₁ : ReadsAs m₁ plain₁) (h₂ : ReadsAs m₂ plain₂) :
    ReadsAs (if c then m₁ else m₂) (if c then plain₁ else plain₂) := by
  split
  · exact h₁
  · exact h₂

theorem visit {pr : Printer} {p : Place} {v : Value} {f g : Printed → PrintM Printed}
    {P : Printed → Prop} (hv : Yields (pr.visitChild p v) P)
    (h : ∀ r, P r → ReadsAs (f r) (g { r with link := none })) :
    ReadsAs (pr.visitChild p v >>= f) (pr.unlinked.visitChild p v >>= g) := by
  rw [Printer.visitChild_unlinked, bind_assoc]
  exact bind hv h

theorem print {pr : Printer} {p : Place} {v : Value} {f g : Doc → PrintM Printed}
    (h : ∀ d, ReadsAs (f d) (g d)) :
    ReadsAs (pr.print p v >>= f) (pr.unlinked.print p v >>= g) := by
  rw [Printer.print_unlinked]
  exact anyBind h

end ReadsAs

namespace Chain

open Doc

variable {o : Options} {pr pr' : Printer} {p : Place} {extra : List Doc} {receiver : Value}
  {received : Printed} {first plain : Doc} {pieces : List Doc} {isCall : Bool}

theorem next_of_last (h : p.parentIs linkTags = false) (link : Option Link) :
    next p receiver link first pieces isCall = .ok none := by
  unfold next
  rw [not_continues h]
  rfl

/-- Without a link the plain form is all that is left, and with one the chain may be closed. -/
theorem readsAs_joined (hlast : p.parentIs linkTags = false) {close close' : Link → Doc}
    {pieces' : List Doc}
    (hclose : ∀ link, received.link = some link → (close link).SameText plain) :
    ReadsAs (do
      let link ← liftM (next p receiver received.link first pieces isCall)
      match ← closing? pr p received.link with
      | some chain => return ⟨close chain, none⟩
      | none => return ⟨plain, link⟩) (do
      let link ← liftM (next p receiver none first pieces' isCall)
      match ← closing? pr' p none with
      | some chain => return ⟨close' chain, none⟩
      | none => return ⟨plain, link⟩) := by
  rw [next_of_last hlast, next_of_last hlast]
  refine .pure (.pureBind (.bind (yields_closing p received.link) fun chain hchain => ?_))
  split
  · next chain => exact .pure (hclose chain (hchain.1 chain rfl).1)
  · exact .pure rfl

/-! ## Calls -/

theorem readsAs_call (h : Folds o pr) (htag : p.node.tag = "call")
    (hlast : p.parentIs linkTags = false) :
    ReadsAs (Rules.call pr p) (Rules.call pr.unlinked p) := by
  unfold Rules.call
  split
  · next receiver operator message hbody =>
      refine .visit (h.visitReceiver (by rw [htag]; decide) (by rw [hbody]; rfl))
        fun received hreceived => ?_
      refine .anyBind fun sign => ?_
      refine .ite (.anyBind fun messageDoc => ?_) (.print fun messageDoc => ?_)
      all_goals
        refine .anyBind fun operatorDoc => .anyBind fun source => ?_
        refine .ite (.pure (.pure rfl)) (.anyBind fun isWhere => ?_)
        refine .ite (.anyBind fun right => ?_) (.anyBind fun right => ?_)
        all_goals
          refine readsAs_joined hlast fun link _ => sameText_iff.mpr ?_
          simp [vertical]
  · exact .throw _ _

/-! ## Arguments -/

theorem readsAs_added (htag : p.node.tag ≠ "call") (hlast : p.parentIs linkTags = false)
    (hreceived : HandsOn (below o p) received) (tail : Doc) :
    ReadsAs (do
      let link ← liftM (next p receiver received.link received.doc [tail] false)
      match ← closing? pr p received.link with
      | some chain => return ⟨finish chain received.doc tail, none⟩
      | none => return ⟨.cat [received.doc, tail], link⟩) (do
      let link ← liftM (next p receiver none received.doc [tail] false)
      match ← closing? pr' p none with
      | some chain => return ⟨finish chain received.doc tail, none⟩
      | none => return ⟨.cat [received.doc, tail], link⟩) :=
  readsAs_joined hlast fun _ hlink => (endsChain_finish htag hreceived hlink tail).sameText

theorem readsAs_callWithArgumentsAnd (h : Folds o pr) (htag : p.node.tag = "method_add_arg")
    (hlast : p.parentIs linkTags = false) :
    ReadsAs (Rules.callWithArgumentsAnd extra pr p)
      (Rules.callWithArgumentsAnd extra pr.unlinked p) := by
  have hcall : p.node.tag ≠ "call" := by
    rw [htag]
    decide
  unfold Rules.callWithArgumentsAnd
  split
  · next callee argument hbody =>
      refine .visit (h.visitReceiver (by rw [htag]; decide) (by rw [hbody]; rfl))
        fun received hreceived => ?_
      refine .anyBind fun n => ?_
      simp only [Rules.argumentList_unlinked]
      refine .ite (.anyBind fun _ => .anyBind fun contents => ?_) (.anyBind fun contents => ?_)
      all_goals
        refine .anyBind fun docs => .ite ?_ (.anyBind fun argsDoc => ?_)
        · refine .anyBind fun _ => .anyBind fun _ => .ite ?_ ?_
          all_goals exact .pure (.pure rfl)
        · refine .ite ?_ ?_
          all_goals exact .anyBind fun tail => readsAs_added hcall hlast hreceived.1 tail
  · exact .throw _ _

/-! ## Blocks -/

theorem readsAs_callWithPlainBlock (h : Folds o pr) (htag : p.node.tag = "method_add_block")
    (hlast : p.parentIs linkTags = false) (hbody : p.node.body.head? = some receiver)
    (block : Value) :
    ReadsAs (Rules.callWithPlainBlock pr p receiver block)
      (Rules.callWithPlainBlock pr.unlinked p receiver block) := by
  have hcall : p.node.tag ≠ "call" := by
    rw [htag]
    decide
  refine .visit (h.visitReceiver (by rw [htag]; decide) hbody) fun received hreceived => ?_
  exact .print fun tail => readsAs_added hcall hlast hreceived.1 tail

theorem withBlockArgument?_of_not_passing {callee : Tree}
    (h : passingTags.contains callee.tag = false) (block : Doc) :
    Rules.withBlockArgument? pr p callee block = pure none := by
  unfold Rules.withBlockArgument?
  split
  all_goals simp_all [passingTags]

/-- A block that is not passed as an argument is written behind the call. -/
theorem readsAs_callWithBlock (h : Folds o pr) (htag : p.node.tag = "method_add_block")
    (hpassed : isPassed o p = false) (hlast : p.parentIs linkTags = false) :
    ReadsAs (Rules.callWithBlock pr p) (Rules.callWithBlock pr.unlinked p) := by
  unfold Rules.callWithBlock
  split
  · next callee block hbody =>
      have hplain := readsAs_callWithPlainBlock h htag hlast (by rw [hbody]; rfl) block
      refine .ite (.liftBind fun n hn => .liftBind fun proc hproc => ?_) hplain
      obtain rfl := Value.asNode_eq_ok.mp hn
      cases proc with
      | none => exact hplain
      | some s =>
          refine .liftBind fun m hm => ?_
          obtain rfl := Value.asNode_eq_ok.mp hm
          rw [isPassed_of_shorthand h.options hbody hproc] at hpassed
          rw [withBlockArgument?_of_not_passing hpassed, withBlockArgument?_of_not_passing hpassed]
          exact hplain
  · exact .throw _ _

end Chain

end RubyPretty
