import RubyPretty.Proofs.Doc.Flattened
import RubyPretty.Proofs.Doc.Marks
import RubyPretty.Proofs.Layout.Runs
/-!
# Layouts that do not see the width of the page

The machine asks for the width of the page at groups and at fills only. A flattened document has
none of them, so each step on it is the same for all widths (`step_of_isFlattened`) and so is the
run, with its hard line ends and its suffixes.
-/

namespace RubyPretty.Layout

namespace State

variable {page page' : Page} {s : State}

/-! ## Runs on two pages -/

/-- Two pages on which the machine takes the same steps see the same run. -/
theorem run_congr {P : State → Prop} (hkeep : ∀ s t, s.step page = some t → P s → P t)
    (hsame : ∀ s, P s → s.step page' = s.step page) (n : Nat) (s : State) (h : P s) :
    s.run page' n = s.run page n := by
  induction n generalizing s with
  | zero => rfl
  | succ n ih =>
      rw [run, run, hsame s h]
      cases hs : s.step page with
      | none => rfl
      | some t => exact ih t (hkeep s t hs h)

theorem isWritable_congr {P : State → Prop} (hkeep : ∀ s t, s.step page = some t → P s → P t)
    (hsame : ∀ s, P s → s.step page' = s.step page) (n : Nat) (s : State) (h : P s) :
    s.isWritable page' n = s.isWritable page n := by
  induction n generalizing s with
  | zero => rfl
  | succ n ih =>
      rw [isWritable, isWritable, hsame s h]
      cases hs : s.step page with
      | none => rfl
      | some t => exact congrArg (!s.isTooWide && ·) (ih t (hkeep s t hs h))

/-! ## Steps on flattened documents -/

theorem take_of_isFlattened (s : State) {chunk : Chunk} (h : chunk.doc.isFlattened = true)
    (htab : page'.tab = page.tab) : s.take page' chunk = s.take page chunk := by
  obtain ⟨doc, indent, root, flat⟩ := chunk
  cases doc with
  | indent d => rw [take, take, htab]
  | group | ifBreak | fill => cases h
  | _ => rfl

theorem step_of_isFlattened (h : s.Holds Doc.isFlattened) (htab : page'.tab = page.tab) :
    s.step page' = s.step page := by
  unfold step
  split
  · next chunk rest hstack =>
      have hmem : chunk ∈ s.stack := by rw [hstack]; exact List.mem_cons_self
      rw [take_of_isFlattened _ (Doc.every_self (h chunk (.inl hmem))) htab]
  · rfl

theorem fillClosed_isFlattened : FillClosed Doc.isFlattened := fun _ _ _ _ h => by cases h

theorem holds_start_of_isFlattened {d : Doc} (h : d.every Doc.isFlattened = true) :
    (start d.propagateBreaks).Holds Doc.isFlattened :=
  holds_start (Doc.every_settle Doc.isFlattened_settle d h)

theorem render_of_isFlattened {d : Doc} (h : d.every Doc.isFlattened = true)
    (htab : page'.tab = page.tab) : render page' d = render page d :=
  congrArg State.text <|
    run_congr (fun _ _ => holds_step fillClosed_isFlattened)
      (fun _ hs => step_of_isFlattened hs htab) _ _ (holds_start_of_isFlattened h)

theorem render?_of_isFlattened {d : Doc} (h : d.every Doc.isFlattened = true)
    (htab : page'.tab = page.tab) : render? page' d = render? page d := by
  rw [render?, render?, htab, render_of_isFlattened h htab,
    isWritable_congr (fun _ _ => holds_step fillClosed_isFlattened)
      (fun _ hs => step_of_isFlattened hs htab) _ _ (holds_start_of_isFlattened h)]

end State

open State

/-- A flattened document leaves nothing to decide. Nowhere in it, not even in a suffix, is there a
soft line end, a group, a choice or a fill. It is as wide as the document and has the same
characters and hard line ends in the same order. Flattened again it stays as it is. And its layout
is the same on pages of all widths, or its indentation is too wide for a text on all of them. -/
theorem flatten_leaves_no_choice (d : Doc) :
    d.flatten.every Doc.isFlattened = true ∧
      d.flatten.flatWidth = d.flatWidth ∧
      d.flatten.marks = d.marks ∧
      d.flatten.flatten = d.flatten ∧
      ∀ width width' tab, render ⟨width, tab⟩ d.flatten = render ⟨width', tab⟩ d.flatten ∧
        render? ⟨width, tab⟩ d.flatten = render? ⟨width', tab⟩ d.flatten := by
  have hflattened := Doc.isFlattened_flatten d
  exact ⟨hflattened, Doc.flatWidth_flatten d, Doc.marks_flatten d, Doc.flatten_flatten d,
    fun _ _ _ => ⟨render_of_isFlattened hflattened rfl, render?_of_isFlattened hflattened rfl⟩⟩

end RubyPretty.Layout
