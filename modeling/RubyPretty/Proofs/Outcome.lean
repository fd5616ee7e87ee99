import Mathlib.Data.List.Forall2
/-!
# Steps that may fail

A computation in `Except` ends with a result or with the fault of the first step that has failed.
The lemmas take such computations apart: a step and what comes after it, and walks over a list,
which end at the first element that fails.
-/

namespace RubyPretty.Except

variable {ε α β : Type} {as before after : List α} {a : α} {e : ε}

theorem ok_bind (a : α) (f : α → Except ε β) : (Except.ok a >>= f) = f a := rfl

theorem error_bind (e : ε) (f : α → Except ε β) : (Except.error e >>= f) = .error e := rfl

theorem throw_bind (e : ε) (f : α → Except ε β) : (throw e >>= f) = .error e := rfl

theorem bind_eq_ok {x : Except ε α} {f : α → Except ε β} {b : β} :
    (x >>= f) = .ok b ↔ ∃ a, x = .ok a ∧ f a = .ok b := by
  cases x with
  | error e =>
      constructor
      · intro h
        cases h
      · rintro ⟨a, h, -⟩
        cases h
  | ok a =>
      constructor
      · exact fun h => ⟨a, rfl, h⟩
      · rintro ⟨b, h, hf⟩
        cases h
        exact hf

theorem bind_eq_error {x : Except ε α} {f : α → Except ε β} {e : ε} :
    (x >>= f) = .error e ↔ x = .error e ∨ ∃ a, x = .ok a ∧ f a = .error e := by
  cases x with
  | error e' =>
      constructor
      · intro h
        cases h
        exact .inl rfl
      · rintro (h | ⟨a, h, -⟩)
        · cases h
          rfl
        · cases h
  | ok a =>
      constructor
      · exact fun h => .inr ⟨a, rfl, h⟩
      · rintro (h | ⟨b, h, hf⟩)
        · cases h
        · cases h
          exact hf

theorem pure_eq_ok {a b : α} : (pure a : Except ε α) = .ok b ↔ a = b :=
  ⟨fun h => by cases h; rfl, fun h => by rw [h]; rfl⟩

/-! ## Walks over lists -/

section mapM

variable {f : α → Except ε β} {bs : List β} {P : β → Prop}

theorem mapM_eq_ok (h : as.mapM f = .ok bs) : List.Forall₂ (fun a b => f a = .ok b) as bs := by
  induction as generalizing bs with
  | nil =>
      cases h
      exact .nil
  | cons a as ih =>
      rw [List.mapM_cons, bind_eq_ok] at h
      obtain ⟨b, hb, h⟩ := h
      rw [bind_eq_ok] at h
      obtain ⟨cs, hcs, h⟩ := h
      cases h
      exact .cons hb (ih hcs)

theorem exists_mapM_eq_ok (h : ∀ a ∈ as, ∃ b, f a = .ok b ∧ P b) :
    ∃ bs, as.mapM f = .ok bs ∧ bs.length = as.length ∧ ∀ b ∈ bs, P b := by
  induction as with
  | nil => exact ⟨[], rfl, rfl, List.forall_mem_nil _⟩
  | cons a as ih =>
      obtain ⟨⟨b, hb, hP⟩, has⟩ := List.forall_mem_cons.mp h
      obtain ⟨bs, hbs, hlength, hall⟩ := ih has
      refine ⟨b :: bs, ?_, congrArg (· + 1) hlength, List.forall_mem_cons.mpr ⟨hP, hall⟩⟩
      rw [List.mapM_cons, hb, ok_bind, hbs]
      rfl

theorem mapM_eq_error (h : as.mapM f = .error e) :
    ∃ before a after, as = before ++ a :: after ∧ f a = .error e := by
  induction as with
  | nil => cases h
  | cons a as ih =>
      rw [List.mapM_cons] at h
      rcases bind_eq_error.mp h with ha | ⟨b, -, h⟩
      · exact ⟨[], a, as, rfl, ha⟩
      · rcases bind_eq_error.mp h with h | ⟨bs, -, h⟩
        · obtain ⟨before, a', after, rfl, ha'⟩ := ih h
          exact ⟨a :: before, a', after, rfl, ha'⟩
        · cases h

end mapM

section forM

variable {f : α → Except ε Unit}

theorem forM_eq_ok (h : ∀ a ∈ as, f a = .ok ()) : as.forM f = .ok () := by
  induction as with
  | nil => rfl
  | cons a as ih =>
      obtain ⟨ha, has⟩ := List.forall_mem_cons.mp h
      show (f a >>= fun _ => as.forM f) = .ok ()
      rw [ha]
      exact ih has

theorem forM_eq_error (hbefore : ∀ b ∈ before, f b = .ok ()) (ha : f a = .error e) :
    (before ++ a :: after).forM f = .error e := by
  induction before with
  | nil =>
      show (f a >>= fun _ => after.forM f) = .error e
      rw [ha]
      rfl
  | cons b before ih =>
      obtain ⟨hb, hbefore⟩ := List.forall_mem_cons.mp hbefore
      show (f b >>= fun _ => (before ++ a :: after).forM f) = .error e
      rw [hb]
      exact ih hbefore

end forM

section allM

variable {f : α → Except ε Bool}

theorem allM_eq_ok (h : as.allM f = .ok true) : ∀ a ∈ as, f a = .ok true := by
  induction as with
  | nil => simp
  | cons a as ih =>
      rw [List.allM, bind_eq_ok] at h
      obtain ⟨b, hb, h⟩ := h
      cases b with
      | true => exact List.forall_mem_cons.mpr ⟨hb, ih h⟩
      | false => cases h

theorem allM_eq_ok_iff {P : α → Prop} {b : Bool}
    (hf : ∀ a ∈ as, ∀ b, f a = .ok b → (b = true ↔ P a)) (h : as.allM f = .ok b) :
    b = true ↔ ∀ a ∈ as, P a := by
  induction as with
  | nil =>
      cases h
      simp
  | cons a as ih =>
      obtain ⟨ha, has⟩ := List.forall_mem_cons.mp hf
      rw [List.allM, bind_eq_ok] at h
      obtain ⟨first, hfirst, h⟩ := h
      rw [List.forall_mem_cons, ← ha first hfirst]
      cases first with
      | true => rw [ih has h]; simp
      | false => cases h; simp

theorem allM_eq_error (h : as.allM f = .error e) :
    ∃ before a after, as = before ++ a :: after ∧ (∀ b ∈ before, f b = .ok true) ∧
      f a = .error e := by
  induction as with
  | nil => cases h
  | cons a as ih =>
      rw [List.allM] at h
      rcases bind_eq_error.mp h with ha | ⟨b, hb, h⟩
      · exact ⟨[], a, as, rfl, List.forall_mem_nil _, ha⟩
      · cases b with
        | false => cases h
        | true =>
            obtain ⟨before, a', after, rfl, hbefore, ha'⟩ := ih h
            exact ⟨a :: before, a', after, rfl, List.forall_mem_cons.mpr ⟨hb, hbefore⟩, ha'⟩

end allM

section filterM

variable {f : α → β} {p : β → Except ε Bool} {q : α → Bool}

theorem filterAuxM_map_eq_ok (h : ∀ a ∈ as, p (f a) = .ok (q a)) (acc : List β) :
    (as.map f).filterAuxM p acc = .ok (((as.filter q).map f).reverse ++ acc) := by
  induction as generalizing acc with
  | nil => rfl
  | cons a as ih =>
      have hrest := ih fun b hb => h b (List.mem_cons_of_mem a hb)
      rw [List.map_cons, List.filterAuxM, h a List.mem_cons_self]
      show List.filterAuxM p (as.map f) (bif q a then f a :: acc else acc) = _
      rw [hrest]
      cases hq : q a <;> simp [hq]

theorem filterM_map_eq_ok (h : ∀ a ∈ as, p (f a) = .ok (q a)) :
    (as.map f).filterM p = .ok ((as.filter q).map f) := by
  rw [List.filterM, filterAuxM_map_eq_ok h, List.append_nil]
  exact congrArg Except.ok (List.reverse_reverse _)

theorem filterM_eq_ok {p : α → Except ε Bool} (h : ∀ a ∈ as, p a = .ok (q a)) :
    as.filterM p = .ok (as.filter q) := by
  simpa using filterM_map_eq_ok (f := id) h

end filterM

end RubyPretty.Except
