import Mathlib.Data.List.Basic
import RubyPretty.Printing.Registry
import RubyPretty.Proofs.Printing.Yields
import RubyPretty.Proofs.Syntax.Schema
/-!
# Steps that turn no tree down

A tree is turned down by a *rejection*: a node without a rule, a node that has not the form of its
tag, or a comment without a place. `NeverRejects` is a step that never ends with one. A step of
printing `RejectsOnly` what comes from outside: the rejections that it ends with are among given
ones, which are those that the formatter raises itself. Steps are put together with one lemma for
each way to do so. A printer that does so on all nodes of a value `CanPrint` it, and with it all of
its parts.
-/

namespace RubyPretty

namespace Fault

/-- A fault of the form of a tree or of its comments. -/
def isStructural : Fault → Bool
  | .notANode _ | .badSpan .. | .commentNotObject _ | .commentWithoutText _ | .notJson _
  | .tokenBody _ | .childCount .. | .noStatementList _ | .commentWithoutLine _ => true
  | _ => false

def isUnsupported : Fault → Bool
  | .unsupported _ => true
  | _ => false

def isRejection (f : Fault) : Bool := f.isUnsupported || f.isStructural

end Fault

def isRejected {α : Type} : Outcome α → Bool
  | .ok _ => false
  | .error e => e.isRejection

theorem isRejected_iff {α : Type} {o : Outcome α} :
    isRejected o = true ↔ ∃ e, o = .error e ∧ e.isRejection = true := by
  cases o <;> simp [isRejected]

/-- A step that ends with no rejection. -/
def NeverRejects {α : Type} (o : Outcome α) : Prop := ∀ e, o = .error e → e.isRejection = false

/-- A step of printing that ends with no rejection but the given ones, whatever has been noted
before. -/
def RejectsOnly {α : Type} (raised : Fault → Prop) (m : PrintM α) : Prop :=
  ∀ s e, m s = .error e → e.isRejection = true → raised e

section NeverRejects

variable {α β : Type}

@[simp] theorem neverRejects_ok (a : α) : NeverRejects (.ok a : Outcome α) := by
  intro e h
  cases h

@[simp] theorem neverRejects_pure (a : α) : NeverRejects (pure a : Outcome α) := neverRejects_ok a

@[simp] theorem neverRejects_error {e : Fault} :
    NeverRejects (.error e : Outcome α) ↔ e.isRejection = false := by
  constructor
  · exact fun h => h e rfl
  · intro h e' he
    cases he
    exact h

@[simp] theorem isRejection_malformed : Fault.malformed.isRejection = false := rfl

@[simp] theorem neverRejects_bind {o : Outcome α} {f : α → Outcome β} :
    NeverRejects (o >>= f) ↔ NeverRejects o ∧ ∀ a, o = .ok a → NeverRejects (f a) := by
  cases o with
  | error e =>
      change NeverRejects (.error e) ↔ _
      simp
  | ok a =>
      change NeverRejects (f a) ↔ _
      simp

theorem NeverRejects.bind {o : Outcome α} {f : α → Outcome β} (ho : NeverRejects o)
    (hf : ∀ a, NeverRejects (f a)) :
    NeverRejects (o >>= f) :=
  neverRejects_bind.mpr ⟨ho, fun a _ => hf a⟩

@[simp] theorem neverRejects_map {o : Outcome α} {g : α → β} :
    NeverRejects (g <$> o) ↔ NeverRejects o := by
  rw [map_eq_pure_bind, neverRejects_bind]
  simp

@[simp] theorem neverRejects_ite {c : Prop} [Decidable c] {o o' : Outcome α} :
    NeverRejects (if c then o else o') ↔ (c → NeverRejects o) ∧ (¬ c → NeverRejects o') := by
  split <;> simp [*]

@[simp] theorem neverRejects_mapM {f : α → Outcome β} {as : List α} (h : ∀ a, NeverRejects (f a)) :
    NeverRejects (as.mapM f) := by
  induction as with
  | nil => exact neverRejects_pure []
  | cons a as ih => simp [List.mapM_cons, h, ih]

@[simp] theorem neverRejects_allM {f : α → Outcome Bool} {as : List α}
    (h : ∀ a, NeverRejects (f a)) :
    NeverRejects (as.allM f) := by
  induction as with
  | nil => exact neverRejects_pure true
  | cons a as ih =>
      rw [List.allM, neverRejects_bind]
      refine ⟨h a, fun b _ => ?_⟩
      cases b
      · exact neverRejects_pure false
      · exact ih

@[simp] theorem neverRejects_anyM {f : α → Outcome Bool} {as : List α}
    (h : ∀ a, NeverRejects (f a)) :
    NeverRejects (as.anyM f) := by
  induction as with
  | nil => exact neverRejects_pure false
  | cons a as ih =>
      rw [List.anyM, neverRejects_bind]
      refine ⟨h a, fun b _ => ?_⟩
      cases b
      · exact ih
      · exact neverRejects_pure true

@[simp] theorem neverRejects_foldlM {f : β → α → Outcome β} {as : List α} {b : β}
    (h : ∀ b a, NeverRejects (f b a)) : NeverRejects (as.foldlM f b) := by
  induction as generalizing b with
  | nil => exact neverRejects_pure b
  | cons a as ih => simp [List.foldlM_cons, h, ih]

end NeverRejects

namespace RejectsOnly

variable {α β : Type} {raised : Fault → Prop} {m : PrintM α} {f : α → PrintM β} {o : Outcome α}

theorem pure (a : α) : RejectsOnly raised (Pure.pure a) := by
  intro s e h
  cases h

theorem malformed : RejectsOnly raised (throw .malformed : PrintM α) := by
  intro s e h hrejection
  cases h
  cases hrejection

theorem bind (hm : RejectsOnly raised m) (hf : ∀ a, RejectsOnly raised (f a)) :
    RejectsOnly raised (m >>= f) := by
  intro s e h
  simp only [Bind.bind, StateT.bind] at h
  cases hrun : m s with
  | error e' =>
      rw [hrun] at h
      cases h
      exact hm s e hrun
  | ok r =>
      rw [hrun] at h
      exact hf r.1 r.2 e h

theorem pureBind {a : α} (h : RejectsOnly raised (f a)) :
    RejectsOnly raised (Pure.pure a >>= f) := h

/-- A step that cannot change the notes but may fail as given, and what comes after it. -/
theorem liftRaisedBind (ho : ∀ e, o = .error e → e.isRejection = true → raised e)
    (hf : ∀ a, o = .ok a → RejectsOnly raised (f a)) : RejectsOnly raised (liftM o >>= f) := by
  intro s e h
  cases o with
  | error e' =>
      cases h
      exact ho e rfl
  | ok a => exact hf a rfl s e h

theorem liftBind (ho : NeverRejects o) (hf : ∀ a, o = .ok a → RejectsOnly raised (f a)) :
    RejectsOnly raised (liftM o >>= f) := by
  refine liftRaisedBind (fun e he hrejection => ?_) hf
  rw [ho e he] at hrejection
  cases hrejection

theorem lift (h : NeverRejects o) : RejectsOnly raised (liftM o) := by
  rw [← bind_pure (liftM o)]
  exact liftBind h fun a _ => pure a

theorem mapM {g : α → PrintM β} {as : List α} (h : ∀ a ∈ as, RejectsOnly raised (g a)) :
    RejectsOnly raised (as.mapM g) := by
  induction as with
  | nil => exact pure []
  | cons a as ih =>
      rw [List.mapM_cons]
      obtain ⟨ha, has⟩ := List.forall_mem_cons.mp h
      exact bind ha fun b => bind (ih has) fun bs => pure (b :: bs)

end RejectsOnly

/-! ## Parts of nodes -/

section

variable (v : Value) (n : Tree) (i : Nat)

@[simp] theorem neverRejects_asNode : NeverRejects v.asNode := by
  cases v <;> simp [Value.asNode]

@[simp] theorem neverRejects_asText : NeverRejects v.asText := by
  cases v <;> simp [Value.asText]

@[simp] theorem neverRejects_asElements : NeverRejects v.asElements := by
  unfold Value.asElements
  split <;> simp

@[simp] theorem neverRejects_item : NeverRejects (v.item i) := by
  refine .bind (neverRejects_asElements v) fun vs => ?_
  split <;> simp

@[simp] theorem neverRejects_asOptionalElements : NeverRejects v.asOptionalElements := by
  simp [Value.asOptionalElements]

@[simp] theorem neverRejects_child : NeverRejects (n.child i) := by
  unfold Node.child
  split <;> simp

@[simp] theorem neverRejects_childNode : NeverRejects (n.childNode i) := by
  simp [Node.childNode]

@[simp] theorem neverRejects_bodyNodes : NeverRejects n.bodyNodes := by
  simp [Node.bodyNodes]

@[simp] theorem neverRejects_carried : NeverRejects n.carried := by
  simp [Node.carried]

@[simp] theorem neverRejects_token : NeverRejects n.token := by
  unfold Node.token
  split <;> simp

end

section

variable (a b : Coordinate)

@[simp] theorem neverRejects_order : NeverRejects (Coordinate.order a b) := by
  unfold Coordinate.order
  split <;> simp

@[simp] theorem neverRejects_lt : NeverRejects (Coordinate.lt a b) := by
  simp [Coordinate.lt]

@[simp] theorem neverRejects_le : NeverRejects (Coordinate.le a b) := by
  simp [Coordinate.le]

end

/-! ## Values that a printer can print -/

/-- On all nodes of a value a printer rejects only what is given, and the tokens have texts. -/
def CanPrint (raised : Fault → Prop) (pr : Printer) (v : Value) : Prop :=
  ∀ n ∈ v.walk, (∀ around, RejectsOnly raised (pr.visit ⟨n, around⟩)) ∧
    (n.isToken = true → Registry.isTokenBody n.body = true)

/-- A printer can print all that stands in the body of a node. -/
def CanPrintBelow (raised : Fault → Prop) (pr : Printer) (n : Tree) : Prop :=
  ∀ v ∈ n.body, CanPrint raised pr v

section

variable {raised : Fault → Prop} {pr : Printer} {p : Place} {n m : Tree} {v : Value}
  {vs : List Value} {i : Nat}

theorem canPrint_text (s : String) : CanPrint raised pr (.text s) := by
  intro n hn
  cases hn

theorem CanPrint.visit (h : CanPrint raised pr (.node p.node)) :
    RejectsOnly raised (pr.visit p) := by
  refine (h p.node ?_).1 p.around
  rw [Value.walk_node]
  exact List.mem_cons_self

theorem CanPrint.below (h : CanPrint raised pr (.node n)) : CanPrintBelow raised pr n := by
  intro v hv m hm
  cases htoken : n.isToken with
  | true =>
      have hbody := (h n (by rw [Value.walk_node]; exact List.mem_cons_self)).2 htoken
      unfold Registry.isTokenBody at hbody
      split at hbody
      · next s hs =>
          rw [hs, List.mem_singleton] at hv
          subst hv
          cases hm
      · cases hbody
  | false =>
      apply h m
      rw [Value.walk_node, htoken]
      exact List.mem_cons_of_mem n (List.mem_flatMap.mpr ⟨v, hv, hm⟩)

theorem CanPrint.of_mem (h : CanPrint raised pr (.list vs)) (hv : v ∈ vs) :
    CanPrint raised pr v := by
  intro m hm
  apply h m
  rw [Value.walk_list]
  exact List.mem_flatMap.mpr ⟨v, hv, hm⟩

theorem CanPrint.asNode (h : CanPrint raised pr v) (hv : v.asNode = .ok n) :
    CanPrint raised pr (.node n) := by
  rw [Value.asNode_eq_ok] at hv
  exact hv ▸ h

/-- All that a value is walked as can be printed if the value can. -/
theorem CanPrint.elements (h : CanPrint raised pr v) (hv : v.asElements = .ok vs) :
    ∀ w ∈ vs, CanPrint raised pr w := by
  cases v with
  | list ws =>
      cases hv
      exact fun w hw => h.of_mem hw
  | node n =>
      cases hv
      exact h.below
  | text s =>
      cases hv
      intro w hw
      obtain ⟨c, -, rfl⟩ := List.mem_map.mp hw
      exact canPrint_text _
  | null | bool | int | real => cases hv

theorem CanPrint.optionalElements (h : CanPrint raised pr v) (hv : v.asOptionalElements = .ok vs) :
    ∀ w ∈ vs, CanPrint raised pr w := by
  unfold Value.asOptionalElements at hv
  split at hv
  · exact h.elements hv
  · cases hv
    exact List.forall_mem_nil _

theorem CanPrintBelow.child (h : CanPrintBelow raised pr n) (hv : n.child i = .ok v) :
    CanPrint raised pr v := by
  rw [Node.child_eq_ok] at hv
  exact h v (List.mem_of_getElem? hv)

theorem CanPrintBelow.childNode (h : CanPrintBelow raised pr n) (hm : n.childNode i = .ok m) :
    CanPrint raised pr (.node m) := by
  rw [Node.childNode_eq_ok] at hm
  exact h _ (List.mem_of_getElem? hm)

theorem CanPrintBelow.bodyNodes (h : CanPrintBelow raised pr n) {ns : List Tree}
    (hns : n.bodyNodes = .ok ns) : ∀ m ∈ ns, CanPrint raised pr (.node m) := by
  intro m hm
  apply h
  rw [Node.body_of_bodyNodes hns]
  exact List.mem_map_of_mem hm

theorem CanPrintBelow.parts (h : CanPrintBelow raised pr n) (hbody : n.body = vs) :
    vs.Forall (CanPrint raised pr) :=
  List.forall_iff_forall_mem.mpr (hbody ▸ h)

theorem CanPrint.visitChild (h : CanPrint raised pr v) :
    RejectsOnly raised (pr.visitChild p v) := by
  cases v with
  | null => exact .pure _
  | node n => exact CanPrint.visit (p := p.below n) h
  | bool | int | real | text | list => exact .malformed

theorem CanPrint.print (h : CanPrint raised pr v) : RejectsOnly raised (pr.print p v) :=
  .bind h.visitChild fun _ => .pure _

theorem rejectsOnly_printAll (h : ∀ v ∈ vs, CanPrint raised pr v) :
    RejectsOnly raised (pr.printAll p vs) :=
  .mapM fun v hv => (h v hv).print

theorem CanPrintBelow.printChild (h : CanPrintBelow raised pr p.node) :
    RejectsOnly raised (pr.printChild p i) :=
  .liftBind (by simp) fun _ hv => (h.child hv).print

end

end RubyPretty
