import RubyPretty.Proofs.Doc.Leaves
/-!
# What the builders of documents give

A builder puts its documents in a row and wraps them, or gives the empty document where they come to
nothing. One lemma for each says which of the two it is. So a property of all parts passes from the
documents to what is built of them, and a function that does not see a wrapping does not see its
builder.
-/

namespace RubyPretty.Doc

theorem every_ofParts {p : Doc → Bool} (hempty : p .empty = true) (hseq : ∀ ds, p (.seq ds) = true)
    {ds : List Doc} (h : ∀ d ∈ ds, d.every p = true) : (ofParts ds).every p = true := by
  match ds with
  | [] => exact hempty
  | [d] => exact h d List.mem_cons_self
  | d :: e :: ds =>
      show (seq (d :: e :: ds)).every p = true
      rw [every, hseq, everyIn_eq, Bool.true_and, List.all_eq_true]
      exact h

theorem every_parts {p : Doc → Bool} {d : Doc} (h : d.every p = true) :
    ∀ e ∈ d.parts, e.every p = true := by
  cases d with
  | empty => exact List.forall_mem_nil _
  | seq ds => exact every_seq h
  | _ => exact List.forall_mem_singleton.mpr h

/-- A row is made of its parts, unless it comes to a single document that has other parts. -/
theorem parts_ofParts {ds : List Doc} {d : Doc} (hd : d ∈ ds) (hself : d.parts = [d]) :
    (ofParts ds).parts = ds := by
  match ds with
  | [] => cases hd
  | [e] =>
      obtain rfl := List.mem_singleton.mp hd
      exact hself
  | _ :: _ :: _ => rfl

theorem every_cat {p : Doc → Bool} (hempty : p .empty = true) (hseq : ∀ ds, p (.seq ds) = true)
    {ds : List Doc} (h : ∀ d ∈ ds, d.every p = true) : (cat ds).every p = true := by
  apply every_ofParts hempty hseq
  intro e he
  obtain ⟨d, hd, hmem⟩ := List.mem_flatMap.mp he
  exact every_parts (h d hd) e hmem

/-- A function that reads a row as it reads its documents together reads `ofParts` so. -/
theorem apply_ofParts {α : Type} {f : Doc → α} {g : List Doc → α} (hempty : f .empty = g [])
    (hone : ∀ d, f d = g [d]) (hseq : ∀ ds, f (.seq ds) = g ds) (ds : List Doc) :
    f (ofParts ds) = g ds := by
  match ds with
  | [] => exact hempty
  | [d] => exact hone d
  | d :: e :: ds => exact hseq (d :: e :: ds)

/-- What a document gives in a list, it gives in a row of documents as well. -/
theorem flatMap_cat {α : Type} {f : Doc → List α} (hempty : f .empty = [])
    (hseq : ∀ ds, f (.seq ds) = ds.flatMap f) (ds : List Doc) : f (cat ds) = ds.flatMap f := by
  have hparts (d : Doc) : d.parts.flatMap f = f d := by
    cases d with
    | empty => exact hempty.symm
    | seq ds => exact (hseq ds).symm
    | _ => exact List.flatMap_singleton f _
  rw [cat, apply_ofParts hempty (fun d => (List.flatMap_singleton f d).symm) hseq,
    List.flatMap_assoc]
  exact congrArg (ds.flatMap ·) (funext hparts)

theorem any_cat {p : Doc → Bool} (hempty : p .empty = false)
    (hseq : ∀ ds, p (.seq ds) = ds.any p) (ds : List Doc) : p (cat ds) = ds.any p := by
  have hone (d : Doc) : [d].any p = p d := by rw [List.any_cons, List.any_nil, Bool.or_false]
  have hparts (d : Doc) : d.parts.any p = p d := by
    cases d with
    | empty => exact hempty.symm
    | seq ds => exact (hseq ds).symm
    | _ => exact hone _
  rw [cat, apply_ofParts hempty (fun d => (hone d).symm) hseq, List.any_flatMap]
  exact congrArg ds.any (funext hparts)

/-! ## Wrappings -/

def isNothing : Doc → Bool
  | .empty => true
  | _ => false

/-- A document in a wrapping; where there is nothing, there is nothing to wrap. -/
def wrapped (wrap : Doc → Doc) (d : Doc) : Doc := if d.isNothing then .empty else wrap d

theorem indented_eq (ds : List Doc) : indented ds = wrapped .indent (cat ds) := by
  unfold indented
  cases cat ds <;> rfl

theorem suffixed_eq (ds : List Doc) : suffixed ds = wrapped .suffix (cat ds) := by
  unfold suffixed
  cases cat ds <;> rfl

theorem rooted_eq (ds : List Doc) : rooted ds = wrapped .root (cat ds) := by
  unfold rooted
  cases cat ds <;> rfl

theorem aligned_eq (n : Int) (ds : List Doc) :
    aligned n ds = if n = 0 then cat ds else wrapped (.align n) (cat ds) := by
  unfold aligned
  by_cases hn : n = 0
  · simp only [if_pos hn]
    cases cat ds <;> rfl
  · simp only [if_neg hn]
    cases cat ds <;> rfl

theorem wrapped_of_something {wrap : Doc → Doc} {d : Doc} (h : (!d.isNothing) = true) :
    wrapped wrap d = wrap d := by
  rw [Bool.not_eq_true'] at h
  rw [wrapped, h]
  rfl

theorem wrapped_cases (wrap : Doc → Doc) (d : Doc) :
    (d = .empty ∧ wrapped wrap d = .empty) ∨ wrapped wrap d = wrap d := by
  cases d with
  | empty => exact .inl ⟨rfl, rfl⟩
  | _ => exact .inr rfl

theorem indented_cases (ds : List Doc) :
    (cat ds = .empty ∧ indented ds = .empty) ∨ indented ds = .indent (cat ds) := by
  rw [indented_eq]
  exact wrapped_cases .indent (cat ds)

theorem suffixed_cases (ds : List Doc) :
    (cat ds = .empty ∧ suffixed ds = .empty) ∨ suffixed ds = .suffix (cat ds) := by
  rw [suffixed_eq]
  exact wrapped_cases .suffix (cat ds)

theorem rooted_cases (ds : List Doc) :
    (cat ds = .empty ∧ rooted ds = .empty) ∨ rooted ds = .root (cat ds) := by
  rw [rooted_eq]
  exact wrapped_cases .root (cat ds)

theorem aligned_cases (n : Int) (ds : List Doc) :
    (cat ds = .empty ∧ aligned n ds = .empty) ∨ (n = 0 ∧ aligned n ds = cat ds) ∨
      aligned n ds = .align n (cat ds) := by
  rw [aligned_eq]
  split
  · next hn => exact .inr (.inl ⟨hn, rfl⟩)
  · exact (wrapped_cases (.align n) (cat ds)).imp_right .inr

theorem eitherIn_cases (id : Option String) (b f : Doc) :
    (b = .empty ∧ f = .empty ∧ eitherIn id b f = .empty) ∨ eitherIn id b f = .ifBreak b f id := by
  unfold eitherIn
  split
  · exact .inl ⟨rfl, rfl, rfl⟩
  · exact .inr rfl

theorem filled_cases (ds : List Doc) :
    (ds = [] ∧ filled ds = .empty) ∨ (ds ≠ [] ∧ filled ds = .fill ds) := by
  cases ds with
  | nil => exact .inl ⟨rfl, rfl⟩
  | cons d ds => exact .inr ⟨List.cons_ne_nil d ds, rfl⟩

/-! ## Parts of what has been built -/

section Parts

variable {p : Doc → Bool} {ds : List Doc}

theorem every_wrapped {wrap : Doc → Doc} {d : Doc} (hempty : p .empty = true)
    (h : d.every p = true) (hwrap : (wrap d).every p = (p (wrap d) && d.every p))
    (hself : d.isNothing = false → p (wrap d) = true) : (wrapped wrap d).every p = true := by
  unfold wrapped
  split
  · exact hempty
  · next hsome =>
      rw [hwrap, hself (Bool.not_eq_true _ ▸ hsome), h]
      rfl

theorem every_indented (hempty : p .empty = true) (h : (cat ds).every p = true)
    (hself : p (.indent (cat ds)) = true) : (indented ds).every p = true := by
  rw [indented_eq]
  exact every_wrapped hempty h rfl fun _ => hself

theorem every_suffixed (hempty : p .empty = true) (h : (cat ds).every p = true)
    (hself : p (.suffix (cat ds)) = true) : (suffixed ds).every p = true := by
  rw [suffixed_eq]
  exact every_wrapped hempty h rfl fun _ => hself

theorem every_rooted (hempty : p .empty = true) (h : (cat ds).every p = true)
    (hself : p (.root (cat ds)) = true) : (rooted ds).every p = true := by
  rw [rooted_eq]
  exact every_wrapped hempty h rfl fun _ => hself

theorem every_aligned (hempty : p .empty = true) {n : Int} (h : (cat ds).every p = true)
    (hself : p (.align n (cat ds)) = true) : (aligned n ds).every p = true := by
  rw [aligned_eq]
  split
  · exact h
  · exact every_wrapped hempty h rfl fun _ => hself

end Parts

/-! ## Wrappings that are not seen -/

section Unseen

variable {α : Type} {f : Doc → α}

theorem apply_wrapped {wrap : Doc → Doc} (hf : ∀ d, f (wrap d) = f d) (d : Doc) :
    f (wrapped wrap d) = f d := by
  rcases wrapped_cases wrap d with ⟨hempty, he⟩ | he
  · rw [he, hempty]
  · rw [he, hf]

theorem apply_indented (hf : ∀ d, f (.indent d) = f d) (ds : List Doc) :
    f (indented ds) = f (cat ds) := by
  rw [indented_eq]
  exact apply_wrapped hf (cat ds)

theorem apply_rooted (hf : ∀ d, f (.root d) = f d) (ds : List Doc) :
    f (rooted ds) = f (cat ds) := by
  rw [rooted_eq]
  exact apply_wrapped hf (cat ds)

theorem apply_aligned (hf : ∀ n d, f (.align n d) = f d) (n : Int) (ds : List Doc) :
    f (aligned n ds) = f (cat ds) := by
  rw [aligned_eq]
  split
  · rfl
  · exact apply_wrapped (hf n) (cat ds)

end Unseen

end RubyPretty.Doc
