import RubyPretty.Proofs.Doc.Atoms
import RubyPretty.Proofs.Layout.Content
/-!
# The order of what is written

The machine makes each choice of a document in one way and writes the ink of what is left in order
(`exists_inks_render`). What the document holds back may come in between. So a text that stands
between two parentheses in the document does so on every page (`writesEnclosed_of_encloses`).
-/

namespace RubyPretty

namespace Doc

mutual

/-- The document may write this ink itself: each of its choices is made in some way, and what it
holds back does not count. -/
def Inks : Doc → List Char → Prop
  | .empty, x | .breakParent, x | .suffix _, x => x = []
  | .text s, x => x = inked s
  | .newline b, x => x = [] ∨ x = inked b.flat
  | .seq ds, x | .fill ds, x => InksAll ds x
  | .indent d, x | .align _ d, x | .group d _ _, x | .root d, x => Inks d x
  | .ifBreak b f _, x => Inks b x ∨ Inks f x

def InksAll : List Doc → List Char → Prop
  | [], x => x = []
  | d :: ds, x => ∃ y z, x = y ++ z ∧ Inks d y ∧ InksAll ds z

end

variable {d : Doc} {ds es : List Doc} {x : List Char}

theorem inksAll_append :
    InksAll (ds ++ es) x ↔ ∃ y z, x = y ++ z ∧ InksAll ds y ∧ InksAll es z := by
  induction ds generalizing x with
  | nil => simp [InksAll]
  | cons d ds ih =>
      simp only [List.cons_append, InksAll, ih]
      constructor
      · rintro ⟨y, _, rfl, hy, z, w, rfl, hz, hw⟩
        exact ⟨y ++ z, w, by rw [List.append_assoc], ⟨y, z, rfl, hy, hz⟩, hw⟩
      · rintro ⟨_, w, rfl, ⟨y, z, rfl, hy, hz⟩, hw⟩
        exact ⟨y, z ++ w, by rw [List.append_assoc], hy, z, w, rfl, hz, hw⟩

theorem inksAll_singleton : InksAll [d] x ↔ Inks d x := by
  simp [InksAll]

theorem inksAll_congr {f : Doc → List Doc} (h : ∀ d ∈ ds, ∀ x, InksAll (f d) x ↔ Inks d x) :
    InksAll (ds.flatMap f) x ↔ InksAll ds x := by
  induction ds generalizing x with
  | nil => rfl
  | cons d ds ih =>
      obtain ⟨hd, hds⟩ := List.forall_mem_cons.mp h
      rw [List.flatMap_cons, inksAll_append, InksAll]
      simp only [hd, ih hds]

theorem inksAll_atoms : InksAll d.atoms x ↔ Inks d x := by
  induction d using Doc.induction generalizing x with
  | empty => rfl
  | text s =>
      rw [atoms]
      split
      · next hs => rw [hs]; rfl
      · exact inksAll_singleton
  | seq ds ih => rw [atoms_seq]; exact inksAll_congr fun d hd x => ih d hd
  | indent d ih | align _ d ih | group d _ _ ih => exact ih
  | newline | breakParent | suffix | root | ifBreak | fill => exact inksAll_singleton

theorem inks_settle : Inks (settle d).1 x ↔ Inks d x := by
  have hall {ds : List Doc} (ih : ∀ d ∈ ds, ∀ x, Inks (settle d).1 x ↔ Inks d x) (x : List Char) :
      InksAll (ds.map fun d => (settle d).1) x ↔ InksAll ds x := by
    rw [List.map_eq_flatMap]
    exact inksAll_congr fun d hd x => inksAll_singleton.trans (ih d hd x)
  induction d using Doc.induction generalizing x with
  | empty | text | newline | breakParent | suffix => rfl
  | seq ds ih => rw [settle_seq]; exact hall (fun d hd x => ih d hd) x
  | fill ds ih => rw [settle_fill]; exact hall (fun d hd x => ih d hd) x
  | indent d ih | align _ d ih | group d _ _ ih | root d ih => exact ih
  | ifBreak b f _ ihb ihf => exact or_congr ihb ihf

/-- The document has another one in it, between parentheses. -/
def Encloses (d e : Doc) : Prop :=
  ∃ inner : Doc, e.atoms <:+: inner.atoms ∧ (cat ["(", inner, ")"]).atoms <:+: d.atoms

theorem Encloses.widen {d' e : Doc} (h : d.Encloses e) (hd : d.atoms <:+: d'.atoms) :
    d'.Encloses e := by
  obtain ⟨inner, he, hinner⟩ := h
  exact ⟨inner, he, hinner.trans hd⟩

end Doc

namespace Layout

namespace State

open Doc

variable {page : Page} {s t : State}

def shown (s : State) : List Char := s.out.reverse.filter isInk

def InksIn (cs : List Chunk) : List Char → Prop := InksAll (cs.map (·.doc))

theorem shown_write (s : State) (x : String) : (s.write x).shown = s.shown ++ inked x := by
  simp [shown, inked]

theorem shown_endLiteral (h : s.Padded) (chunk : Chunk) : (s.endLiteral chunk).shown = s.shown := by
  simp only [shown, endLiteral, List.filter_reverse, filter_isInk_lineStart, filter_drop_padding h]

theorem shown_endIndented (s : State) (chunk : Chunk) : (s.endIndented chunk).shown = s.shown := by
  simp only [shown, endIndented, List.filter_reverse, filter_isInk_lineStart,
    filter_isInk_dropWhile]

theorem inksAll_fillChunks {chunk : Chunk} {items : List Doc} {x : List Char}
    (h : InksIn (s.fillChunks page chunk items) x) : InksAll items x := by
  rcases items with _ | ⟨content, _ | ⟨separator, _ | ⟨next, more⟩⟩⟩
  · exact h
  · exact h
  · exact h
  · obtain ⟨y, _, rfl, hy, z, _, rfl, hz, hmore⟩ := h
    exact ⟨y, _, rfl, hy, z, _, rfl, hz, inksAll_singleton.mp hmore⟩

/-- What a chunk writes, and the chunks that it leaves to be written, make up the ink of the chunk
and of those below it. -/
theorem inksIn_take (hpad : s.Padded) (chunk : Chunk) {z : List Char}
    (hz : InksIn (s.take page chunk).stack z) :
    ∃ x y, InksIn (chunk :: s.stack) x ∧ (s.take page chunk).shown = s.shown ++ y ∧
      x.Sublist (y ++ z) := by
  -- chunks in the place of the one that has been taken
  have hopen (cs : List Chunk) {t : State} (hstack : t.stack = cs ++ s.stack)
      (hshown : t.shown = s.shown) (hcs : ∀ x, InksIn cs x → chunk.doc.Inks x)
      (hz : InksIn t.stack z) :
      ∃ x y, InksIn (chunk :: s.stack) x ∧ t.shown = s.shown ++ y ∧ x.Sublist (y ++ z) := by
    rw [hstack, InksIn, List.map_append, inksAll_append] at hz
    obtain ⟨u, v, rfl, hu, hv⟩ := hz
    refine ⟨u ++ v, [], ⟨u, v, rfl, hcs u hu, hv⟩, ?_, List.Sublist.refl _⟩
    rw [hshown, List.append_nil]
  -- a text that has been written
  have hwrite (x : String) (hx : chunk.doc.Inks (inked x)) (hz : InksIn s.stack z) :
      ∃ w y, InksIn (chunk :: s.stack) w ∧ (s.write x).shown = s.shown ++ y ∧
        w.Sublist (y ++ z) :=
    ⟨inked x ++ z, inked x, ⟨_, z, rfl, hx, hz⟩, shown_write s x, List.Sublist.refl _⟩
  obtain ⟨doc, indent, root, flat⟩ := chunk
  cases doc with
  | empty | breakParent | suffix => exact hopen [] rfl rfl (fun x hx => hx) hz
  | text x => exact hwrite x rfl hz
  | newline b =>
      rcases take_newline s page ⟨.newline b, indent, root, flat⟩ rfl with
        ⟨-, -, he⟩ | ⟨-, ⟨-, he⟩ | ⟨-, -, he⟩ | ⟨-, -, he⟩⟩ <;> rw [he] at hz ⊢
      · exact hwrite b.flat (.inr rfl) hz
      · -- the chunk waits below what has been held back
        have hstack : ∃ cs, (s.push [⟨.newline b, indent, root, flat⟩]).flush.stack =
            cs ++ ⟨.newline b, indent, root, flat⟩ :: s.stack := ⟨_, rfl⟩
        obtain ⟨cs, hcs⟩ := hstack
        rw [hcs, InksIn, List.map_append, inksAll_append] at hz
        obtain ⟨u, v, rfl, -, hv⟩ := hz
        exact ⟨v, [], hv, (List.append_nil _).symm, List.sublist_append_right u v⟩
      · exact hopen [] rfl (shown_endLiteral hpad _) (fun x hx => .inl hx) hz
      · exact hopen [] rfl (shown_endIndented s _) (fun x hx => .inl hx) hz
  | seq ds =>
      refine hopen _ rfl rfl (fun x hx => ?_) hz
      rw [InksIn, List.map_map] at hx
      exact (congrArg (InksAll · x) (List.map_id ds)).mp hx
  | indent d | align n d | root d =>
      exact hopen _ rfl rfl (fun x hx => inksAll_singleton.mp hx) hz
  | group d id broken =>
      rw [take_group s page _ rfl] at hz ⊢
      exact hopen [_] rfl rfl (fun x hx => inksAll_singleton.mp hx) hz
  | ifBreak b f id =>
      refine hopen _ rfl rfl (fun x hx => ?_) hz
      have hside := inksAll_singleton.mp hx
      simp only [Chunk.withDoc] at hside
      split at hside
      · exact .inr hside
      · exact .inl hside
  | fill items => exact hopen _ rfl rfl (fun x hx => inksAll_fillChunks hx) hz

theorem inksIn_step (hs : s.step page = some t) (hpad : s.Padded) {z : List Char}
    (hz : InksIn t.stack z) :
    ∃ x y, InksIn s.stack x ∧ t.shown = s.shown ++ y ∧ x.Sublist (y ++ z) := by
  rcases step_cases hs with ⟨chunk, rest, hstack, rfl⟩ | ⟨hstack, -, rfl⟩
  · rw [hstack]
    exact inksIn_take (s := { s with stack := rest }) hpad chunk hz
  · rw [hstack]
    exact ⟨[], [], rfl, (List.append_nil _).symm, List.nil_sublist _⟩

/-- A run that leaves nothing to be written has written the ink of its first stack in order. -/
theorem inksIn_run (page : Page) (n : Nat) (hpad : s.Padded)
    (hdone : (s.run page n).stack = []) :
    ∃ x y, InksIn s.stack x ∧ (s.run page n).shown = s.shown ++ y ∧ x.Sublist y := by
  induction n generalizing s with
  | zero =>
      have hstack : s.stack = [] := hdone
      rw [hstack]
      exact ⟨[], [], rfl, (List.append_nil _).symm, List.nil_sublist _⟩
  | succ n ih =>
      cases hs : s.step page with
      | none =>
          rw [run, hs, (done_of_step hs).1]
          exact ⟨[], [], rfl, (List.append_nil _).symm, List.nil_sublist _⟩
      | some t =>
          rw [run, hs] at hdone ⊢
          obtain ⟨z, w, hz, hshown, hzw⟩ := ih (padded_step hs hpad) hdone
          obtain ⟨x, y, hx, hstep, hxy⟩ := inksIn_step hs hpad hz
          refine ⟨x, y ++ w, hx, ?_, hxy.trans (hzw.append_left y)⟩
          rw [hshown, hstep, List.append_assoc]

end State

open State Doc

/-- On every page a document is written with its choices made in some way, in order. -/
theorem exists_inks_render (page : Page) (d : Doc) :
    ∃ x, d.Inks x ∧ x.Sublist (inked (render page d)) := by
  have hstack : (finish page d).stack = [] := (done_finish page d).1
  obtain ⟨x, y, hx, hshown, hxy⟩ := inksIn_run page _ (padded_start _) hstack
  have hrender : inked (render page d) = y := by
    rw [render_eq, inked, State.text, String.toList_ofList]
    exact hshown
  exact ⟨x, inks_settle.mp (inksAll_singleton.mp hx), hrender ▸ hxy⟩

/-- The text of a document has the ink of another one between parentheses. What is held back may
come in between. -/
def WritesEnclosed (page : Page) (d e : Doc) : Prop :=
  ∃ before inside behind x, inked (render page d) = before ++ '(' :: inside ++ ')' :: behind ∧
    e.Inks x ∧ x.Sublist inside

/-- Where two marks have been kept in order, what stood between them still does. -/
theorem exists_between {a b : Char} {start between rest cs : List Char}
    (h : (start ++ a :: between ++ b :: rest).Sublist cs) :
    ∃ before inside behind, cs = before ++ a :: inside ++ b :: behind ∧
      between.Sublist inside := by
  obtain ⟨upTo, onward, rfl, hupTo, honward⟩ := List.append_sublist_iff.mp h
  obtain ⟨first, opened, rfl, -, hopened⟩ := List.append_sublist_iff.mp hupTo
  obtain ⟨opening, body, rfl, ha, hbody⟩ := List.cons_sublist_iff.mp hopened
  obtain ⟨closing, behind, rfl, hb, -⟩ := List.cons_sublist_iff.mp honward
  obtain ⟨s₁, s₂, rfl⟩ := List.append_of_mem ha
  obtain ⟨t₁, t₂, rfl⟩ := List.append_of_mem hb
  refine ⟨first ++ s₁, s₂ ++ body ++ t₁, t₂ ++ behind, by simp, ?_⟩
  exact (hbody.trans (List.sublist_append_right s₂ body)).trans (List.sublist_append_left _ t₁)

theorem writesEnclosed_of_encloses (page : Page) {d e : Doc} (h : d.Encloses e) :
    WritesEnclosed page d e := by
  obtain ⟨inner, ⟨left, right, hinner⟩, pre, post, hatoms⟩ := h
  obtain ⟨w, hw, hsub⟩ := exists_inks_render page d
  have hcat : pre ++ (cat ["(", inner, ")"]).atoms ++ post =
      pre ++ .text "(" :: (left ++ e.atoms ++ right) ++ .text ")" :: post := by
    simp [atoms, ← hinner]
  rw [← inksAll_atoms, ← hatoms, hcat] at hw
  obtain ⟨_, _, rfl, hopened, _, _, rfl, rfl, -⟩ := inksAll_append.mp hw
  obtain ⟨_, _, rfl, -, _, _, rfl, rfl, hbody⟩ := inksAll_append.mp hopened
  obtain ⟨_, _, rfl, hleft, -⟩ := inksAll_append.mp hbody
  obtain ⟨_, x, rfl, -, hx⟩ := inksAll_append.mp hleft
  have hmarks : inked "(" = ['('] ∧ inked ")" = [')'] := by decide
  rw [hmarks.1, hmarks.2] at hsub
  obtain ⟨before, inside, behind, htext, hinside⟩ := exists_between hsub
  refine ⟨before, inside, behind, x, htext, inksAll_atoms.mp hx, .trans ?_ hinside⟩
  exact (List.sublist_append_right _ x).trans (List.sublist_append_left _ _)

end Layout

end RubyPretty
