import RubyPretty.Layout.Weight
import RubyPretty.Text.Basic
/-!
# Rendering documents

`render` runs the layout machine until nothing is left to write. The weight of the first state
bounds the number of steps, so the run is always complete: `step_run`.
-/

namespace RubyPretty.Layout

def State.run (page : Page) : Nat → State → State
  | 0, s => s
  | steps + 1, s =>
      match s.step page with
      | none => s
      | some next => next.run page steps

/-- A machine that may take as many steps as it weighs comes to its end. -/
theorem State.step_run (page : Page) (steps : Nat) (s : State) (h : s.weight ≤ steps) :
    (s.run page steps).step page = none := by
  induction steps generalizing s with
  | zero =>
      cases hs : s.step page with
      | none => rw [State.run, hs]
      | some next => have := State.weight_step hs; omega
  | succ steps ih =>
      cases hs : s.step page with
      | none => simp [State.run, hs]
      | some next =>
          have hlt := State.weight_step hs
          simp only [State.run, hs]
          exact ih next (by omega)

def render (page : Page) (doc : Doc) : String :=
  let start := State.start doc.propagateBreaks
  (start.run page start.weight).text

/-- Whether the next chunk asks for more indentation than a text can hold. -/
def State.isTooWide (s : State) : Bool :=
  match s.stack with
  | ⟨.align amount _, _, _, false⟩ :: _ => !Text.canHoldBlanks amount
  | _ => false

def State.isWritable (page : Page) : Nat → State → Bool
  | 0, s => !s.isTooWide
  | steps + 1, s =>
      !s.isTooWide && (s.step page).all (State.isWritable page steps)

/-- As `render`, with no text for a document whose indentation is too wide to be written. -/
def render? (page : Page) (doc : Doc) : Option String :=
  let start := State.start doc.propagateBreaks
  if Text.canHoldBlanks page.tab && start.isWritable page start.weight then some (render page doc)
  else none

end RubyPretty.Layout
