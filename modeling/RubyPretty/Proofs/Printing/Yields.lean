import RubyPretty.Printing.Printer
import RubyPretty.Proofs.Outcome
/-!
# What printing yields

Printing may fail. `Yields m P` says that whatever `m` returns, in whichever state it is run, has
the property `P`; a run that fails returns nothing. A rule is followed through its steps with one
lemma for each way to put steps together.
-/

namespace RubyPretty

/-- Everything that a computation returns has the property. -/
def Yields {α : Type} (m : PrintM α) (P : α → Prop) : Prop :=
  ∀ s a s', m s = .ok (a, s') → P a

namespace Yields

variable {α β : Type} {m : PrintM α} {f : α → PrintM β} {P Q : α → Prop} {R : β → Prop}

theorem mono (h : Yields m P) (hpq : ∀ a, P a → Q a) : Yields m Q :=
  fun s a s' hm => hpq a (h s a s' hm)

theorem pure {a : α} (h : P a) : Yields (Pure.pure a) P := by
  intro s b s' hm
  cases hm
  exact h

theorem throw (e : Fault) : Yields (MonadExcept.throw e : PrintM α) P := by
  intro s a s' hm
  cases hm

theorem bind (hm : Yields m P) (hf : ∀ a, P a → Yields (f a) R) : Yields (m >>= f) R := by
  intro s b s' hrun
  simp only [Bind.bind, StateT.bind] at hrun
  cases hrun' : m s with
  | error e =>
      rw [hrun'] at hrun
      cases hrun
  | ok r =>
      obtain ⟨a, t⟩ := r
      rw [hrun'] at hrun
      exact hf a (hm s a t hrun') t b s' hrun

theorem anyBind (h : ∀ a, Yields (f a) R) : Yields (m >>= f) R :=
  bind (P := fun _ => True) (fun _ _ _ _ => trivial) fun a _ => h a

theorem pureBind {a : α} (h : Yields (f a) R) : Yields (Pure.pure a >>= f) R :=
  bind (P := (· = a)) (pure rfl) fun _ hb => hb ▸ h

theorem lift {o : Outcome α} (h : ∀ a, o = .ok a → P a) : Yields (liftM o) P := by
  intro s a s' hm
  cases o with
  | error e => cases hm
  | ok b =>
      cases hm
      exact h a rfl

theorem liftBind {o : Outcome α} (h : ∀ a, o = .ok a → Yields (f a) R) :
    Yields (liftM o >>= f) R :=
  bind (lift fun _ ho => ho) h

theorem bindBoth {γ : Type} {g : β → PrintM γ} {T : γ → Prop} (h : Yields (m >>= f) R)
    (hg : ∀ b, R b → Yields (g b) T) : Yields (m >>= fun a => f a >>= g) T := by
  rw [← bind_assoc]
  exact bind h hg

/-- What one step yields of each element, a walk over a list yields of all. -/
theorem mapM {g : α → PrintM β} {S : α → β → Prop} (as : List α)
    (h : ∀ a ∈ as, Yields (g a) (S a)) : Yields (as.mapM g) (List.Forall₂ S as) := by
  induction as with
  | nil => exact pure .nil
  | cons a as ih =>
      rw [List.mapM_cons]
      refine bind (h a List.mem_cons_self) fun b hb => ?_
      refine bind (ih fun c hc => h c (List.mem_cons_of_mem a hc)) fun bs hbs => ?_
      exact pure (.cons hb hbs)

end Yields

/-! ## Steps without notes -/

section Outcomes

variable {α β : Type}

theorem PrintM.lift_ok_bind (a : α) (f : α → PrintM β) :
    ((liftM (Except.ok a : Outcome α) : PrintM α) >>= f) = f a := rfl

theorem Value.asNode_eq_ok {v : Value} {n : Tree} : v.asNode = .ok n ↔ v = .node n := by
  cases v <;> simp [asNode]

theorem Value.asText_eq_ok {v : Value} {s : String} : v.asText = .ok s ↔ v = .text s := by
  cases v <;> simp [asText]

theorem Value.isNull_iff {v : Value} : v.isNull = true ↔ v = .null := by
  cases v <;> simp [isNull]

theorem Node.child_eq_ok {n : Tree} {i : Nat} {v : Value} :
    n.child i = .ok v ↔ n.body[i]? = some v := by
  unfold child
  cases n.body[i]? <;> simp

theorem Node.childNode_eq_ok {n m : Tree} {i : Nat} :
    n.childNode i = .ok m ↔ n.body[i]? = some (.node m) := by
  unfold childNode
  rw [Except.bind_eq_ok]
  simp only [child_eq_ok, Value.asNode_eq_ok]
  constructor
  · rintro ⟨v, hv, rfl⟩
    exact hv
  · exact fun h => ⟨_, h, rfl⟩

theorem Node.body_of_bodyNodes {n : Tree} {ns : List Tree} (h : n.bodyNodes = .ok ns) :
    n.body = ns.map .node := by
  have hall : List.Forall₂ (fun v m => v.asNode = .ok m) n.body ns := Except.mapM_eq_ok h
  clear h
  generalize n.body = vs at hall ⊢
  induction hall with
  | nil => rfl
  | cons hv _ ih => rw [Value.asNode_eq_ok.mp hv, List.map_cons, ih]

theorem Yields.firstChild {n : Tree} {v : Value} {vs : List Value} {f : Value → PrintM β}
    {P : β → Prop} (hbody : n.body = v :: vs) (h : Yields (f v) P) :
    Yields (liftM (n.child 0) >>= f) P := by
  refine .liftBind fun w hw => ?_
  rw [Node.child_eq_ok, hbody] at hw
  obtain rfl : v = w := Option.some.inj hw
  exact h

theorem Yields.firstNode {n : Tree} {v : Value} {vs : List Value} {f : Tree → PrintM β}
    {P : β → Prop} (hbody : n.body = v :: vs) (h : ∀ m, v = .node m → Yields (f m) P) :
    Yields (liftM (n.childNode 0) >>= f) P := by
  refine .liftBind fun m hm => h m ?_
  rw [Node.childNode_eq_ok, hbody] at hm
  exact Option.some.inj hm

end Outcomes

end RubyPretty
