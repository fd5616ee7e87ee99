import RubyPretty.Layout.Render
import RubyPretty.Proofs.Doc.Leaves
/-!
# Runs of the layout machine

What a step keeps, a run keeps (`run_induction`), and a run of `render` ends with nothing left to
write (`done_finish`). The other facts here are on single steps: which part of the state each
operation touches, what holds of all documents that wait to be written (`Holds`), and where the
padding of a literal line end stands (`Padded`).
-/

namespace RubyPretty.Layout

def Modes.noting (modes : Modes) (id : Option String) (flat : Bool) : Modes :=
  match id with
  | none => modes
  | some id => (id, flat) :: modes

namespace State

variable {page : Page} {s t : State}

/-! ## Fields -/

@[simp] theorem write_out (s : State) (x : String) :
    (s.write x).out = x.toList.reverse ++ s.out := rfl

@[simp] theorem write_column (s : State) (x : String) :
    (s.write x).column = s.column + x.length := rfl

@[simp] theorem write_padding (s : State) (x : String) : (s.write x).padding = none := rfl

@[simp] theorem write_stack (s : State) (x : String) : (s.write x).stack = s.stack := rfl

@[simp] theorem write_suffixes (s : State) (x : String) : (s.write x).suffixes = s.suffixes := rfl

@[simp] theorem push_out (s : State) (cs : List Chunk) : (s.push cs).out = s.out := rfl

@[simp] theorem push_column (s : State) (cs : List Chunk) : (s.push cs).column = s.column := rfl

@[simp] theorem push_padding (s : State) (cs : List Chunk) : (s.push cs).padding = s.padding := rfl

@[simp] theorem push_stack (s : State) (cs : List Chunk) : (s.push cs).stack = cs ++ s.stack := rfl

@[simp] theorem push_modes (s : State) (cs : List Chunk) : (s.push cs).modes = s.modes := rfl

@[simp] theorem push_suffixes (s : State) (cs : List Chunk) :
    (s.push cs).suffixes = s.suffixes := rfl

@[simp] theorem flush_out (s : State) : s.flush.out = s.out := rfl

@[simp] theorem flush_column (s : State) : s.flush.column = s.column := rfl

@[simp] theorem flush_padding (s : State) : s.flush.padding = s.padding := rfl

@[simp] theorem flush_suffixes (s : State) : s.flush.suffixes = [] := rfl

theorem flush_stack_perm (s : State) : s.flush.stack.Perm (s.suffixes ++ s.stack) := by
  have h := List.filter_append_perm (fun c : Chunk => !c.doc.hasForcedBreak) s.suffixes
  simp only [Bool.not_not] at h
  exact h.append_right s.stack

theorem mem_flush_stack {c : Chunk} : c ∈ s.flush.stack ↔ c ∈ s.suffixes ∨ c ∈ s.stack := by
  rw [(flush_stack_perm s).mem_iff, List.mem_append]

theorem take_group (s : State) (page : Page) (chunk : Chunk) {d : Doc} {id : Option String}
    {broken : Bool} (hc : chunk.doc = .group d id broken) :
    s.take page chunk =
      { s with
        stack := { chunk with doc := d, flat := s.groupFlat page chunk d broken } :: s.stack
        modes := s.modes.noting id (s.groupFlat page chunk d broken) } := by
  unfold take
  rw [hc]
  cases id <;> rfl

theorem take_newline (s : State) (page : Page) (chunk : Chunk) {b : Break}
    (hc : chunk.doc = .newline b) :
    (chunk.flat = true ∧ b.hard = false ∧ s.take page chunk = s.write b.flat) ∨
      ((chunk.flat = false ∨ b.hard = true) ∧
        ((s.suffixes ≠ [] ∧ s.take page chunk = (s.push [chunk]).flush) ∨
          (s.suffixes = [] ∧ b.literal = true ∧ s.take page chunk = s.endLiteral chunk) ∨
          (s.suffixes = [] ∧ b.literal = false ∧ s.take page chunk = s.endIndented chunk))) := by
  unfold take
  rw [hc]
  by_cases hwrite : chunk.flat = true ∧ b.hard = false
  · exact .inl ⟨hwrite.1, hwrite.2, by simp [hwrite]⟩
  · have hends : chunk.flat = false ∨ b.hard = true := by
      cases hflat : chunk.flat <;> cases hhard : b.hard <;> simp_all
    have hnot : (chunk.flat && !b.hard) = false := by
      rcases hends with h | h <;> simp [h]
    refine .inr ⟨hends, ?_⟩
    by_cases hsuffixes : s.suffixes = []
    · cases hliteral : b.literal <;> simp [hnot, hsuffixes, hliteral]
    · simp [hnot, hsuffixes]

/-! ## Steps and runs -/

/-- A step takes the first chunk, or flushes when there is none. -/
theorem step_cases (h : s.step page = some t) :
    (∃ chunk rest, s.stack = chunk :: rest ∧ t = { s with stack := rest }.take page chunk) ∨
      (s.stack = [] ∧ s.suffixes ≠ [] ∧ t = s.flush) := by
  unfold step at h
  split at h
  · next chunk rest hs => exact .inl ⟨chunk, rest, hs, (Option.some.inj h).symm⟩
  · next hs =>
      split at h
      · cases h
      · next hne =>
          refine .inr ⟨hs, ?_, (Option.some.inj h).symm⟩
          intro he
          rw [he] at hne
          exact hne rfl

theorem done_of_step (h : s.step page = none) : s.stack = [] ∧ s.suffixes = [] := by
  unfold step at h
  split at h
  · cases h
  · next hs =>
      split at h
      · next he => exact ⟨hs, List.isEmpty_iff.mp he⟩
      · cases h

theorem run_induction (page : Page) {P : State → Prop}
    (hstep : ∀ s t, s.step page = some t → P s → P t) (n : Nat) (s : State) (h : P s) :
    P (s.run page n) := by
  induction n generalizing s with
  | zero => exact h
  | succ n ih =>
      rw [run]
      split
      · exact h
      · next t ht => exact ih t (hstep s t ht h)

def finish (page : Page) (d : Doc) : State :=
  (start d.propagateBreaks).run page (start d.propagateBreaks).weight

theorem render_eq (page : Page) (d : Doc) : render page d = (finish page d).text := rfl

theorem eq_render_of_render? {d : Doc} {text : String} (h : render? page d = some text) :
    text = render page d := by
  rw [render?] at h
  split at h
  · exact (Option.some.inj h).symm
  · cases h

theorem done_finish (page : Page) (d : Doc) :
    (finish page d).stack = [] ∧ (finish page d).suffixes = [] :=
  done_of_step (step_run page _ _ (Nat.le_refl _))

/-! ## Documents that wait -/

/-- `p` holds of all parts of the documents that wait to be written. -/
def Holds (p : Doc → Bool) (s : State) : Prop :=
  ∀ c, c ∈ s.stack ∨ c ∈ s.suffixes → c.doc.every p = true

theorem holds_start {p : Doc → Bool} {d : Doc} (h : d.every p = true) : (start d).Holds p := by
  intro c hc
  simp only [start, List.mem_singleton, List.not_mem_nil, or_false] at hc
  rw [hc]
  exact h

theorem holds_push {p : Doc → Bool} (h : s.Holds p) (cs : List Chunk)
    (hcs : ∀ c ∈ cs, c.doc.every p = true) : (s.push cs).Holds p := by
  intro c hc
  simp only [push_stack, push_suffixes, List.mem_append] at hc
  rcases hc with (hc | hc) | hc
  · exact hcs c hc
  · exact h c (.inl hc)
  · exact h c (.inr hc)

theorem holds_flush {p : Doc → Bool} (h : s.Holds p) : s.flush.Holds p := by
  intro c hc
  rw [mem_flush_stack, flush_suffixes] at hc
  rcases hc with (hc | hc) | hc
  · exact h c (.inr hc)
  · exact h c (.inl hc)
  · cases hc

/-- A fill leaves its items, and what comes after the first two of them as a fill. -/
theorem mem_fillChunks {chunk c : Chunk} {items : List Doc}
    (h : c ∈ s.fillChunks page chunk items) :
    c.doc ∈ items ∨ ∃ content separator next more,
      items = content :: separator :: next :: more ∧ c.doc = .fill (next :: more) := by
  match items with
  | [] => cases h
  | [content] =>
      rw [fillChunks, List.mem_singleton] at h
      exact .inl (by rw [h]; exact List.mem_cons_self)
  | [content, separator] =>
      rw [fillChunks, List.mem_cons, List.mem_singleton] at h
      rcases h with rfl | rfl
      · exact .inl List.mem_cons_self
      · exact .inl (List.mem_cons_of_mem _ List.mem_cons_self)
  | content :: separator :: next :: more =>
      rw [fillChunks, List.mem_cons, List.mem_cons, List.mem_singleton] at h
      rcases h with rfl | rfl | rfl
      · exact .inl List.mem_cons_self
      · exact .inl (List.mem_cons_of_mem _ List.mem_cons_self)
      · exact .inr ⟨content, separator, next, more, rfl, rfl⟩

theorem flatMap_fillChunks {α : Type} (f : Doc → List α)
    (hf : ∀ ds, f (.fill ds) = ds.flatMap f) (s : State) (page : Page) (chunk : Chunk)
    (items : List Doc) :
    (s.fillChunks page chunk items).flatMap (fun c => f c.doc) = items.flatMap f := by
  match items with
  | [] | [_] | [_, _] => rfl
  | _ :: _ :: _ :: _ =>
      simp only [fillChunks, Chunk.withDoc, List.flatMap_cons, List.flatMap_nil, List.append_nil,
        hf]

/-- What holds of a fill holds of the fill without its first two items. -/
def FillClosed (p : Doc → Bool) : Prop :=
  ∀ a b c ds, p (.fill (a :: b :: c :: ds)) = true → p (.fill (c :: ds)) = true

theorem every_fillChunks {p : Doc → Bool} (hp : FillClosed p) (s : State) (page : Page)
    (chunk : Chunk) {items : List Doc} (h : (Doc.fill items).every p = true) :
    ∀ c ∈ s.fillChunks page chunk items, c.doc.every p = true := by
  have hparts := Doc.every_fill h
  intro c hc
  rcases mem_fillChunks hc with hmem | ⟨content, separator, next, more, rfl, hdoc⟩
  · exact hparts c.doc hmem
  · rw [hdoc, Doc.every, Doc.everyIn_eq, hp content separator next more (Doc.every_self h),
      Bool.true_and, List.all_eq_true]
    intro d hd
    exact hparts d (List.mem_cons_of_mem _ (List.mem_cons_of_mem _ hd))

theorem holds_take {p : Doc → Bool} (hp : FillClosed p) (h : s.Holds p) {chunk : Chunk}
    (hc : chunk.doc.every p = true) : (s.take page chunk).Holds p := by
  obtain ⟨doc, indent, root, flat⟩ := chunk
  cases doc with
  | empty | breakParent | text t => exact h
  | newline b =>
      rcases take_newline s page ⟨.newline b, indent, root, flat⟩ rfl with
        ⟨-, -, he⟩ | ⟨-, ⟨-, he⟩ | ⟨-, -, he⟩ | ⟨-, -, he⟩⟩ <;> rw [he]
      · exact h
      · exact holds_flush (holds_push h _ (by simpa using hc))
      · exact h
      · exact h
  | seq ds =>
      refine holds_push h _ fun c hcs => ?_
      obtain ⟨d, hd, rfl⟩ := List.mem_map.mp hcs
      exact Doc.every_seq hc d hd
  | indent d | align n d | root d =>
      simp only [Doc.every, Bool.and_eq_true] at hc
      exact holds_push h _ (by simpa using hc.2)
  | group d id broken =>
      simp only [Doc.every, Bool.and_eq_true] at hc
      rw [take_group s page _ rfl]
      exact holds_push h [_] (by simpa using hc.2)
  | ifBreak b f id =>
      simp only [Doc.every, Bool.and_eq_true] at hc
      refine holds_push h _ ?_
      rw [List.forall_mem_singleton]
      simp only [Chunk.withDoc]
      split
      · exact hc.2.2
      · exact hc.2.1
  | fill items => exact holds_push h _ (every_fillChunks hp s page _ hc)
  | suffix d =>
      simp only [Doc.every, Bool.and_eq_true] at hc
      intro c hmem
      simp only [take, List.mem_append, List.mem_singleton] at hmem
      rcases hmem with hmem | hmem | rfl
      · exact h c (.inl hmem)
      · exact h c (.inr hmem)
      · exact hc.2

theorem holds_step {p : Doc → Bool} (hp : FillClosed p) (hs : s.step page = some t)
    (h : s.Holds p) : t.Holds p := by
  rcases step_cases hs with ⟨chunk, rest, hstack, rfl⟩ | ⟨-, -, rfl⟩
  · have hrest : { s with stack := rest }.Holds p := by
      intro c hc
      apply h c
      rw [hstack]
      exact hc.imp_left (List.mem_cons_of_mem _)
    exact holds_take hp hrest (h chunk (.inl (by rw [hstack]; exact List.mem_cons_self)))
  · exact holds_flush h

/-! ## Padding -/

/-- The padding of a literal line end is the last thing that has been written. -/
def Padded (s : State) : Prop :=
  ∀ n, s.padding = some n → ∃ before, s.out = List.replicate n ' ' ++ before

theorem padded_of_none (h : s.padding = none) : s.Padded := by
  intro n hn
  rw [h] at hn
  cases hn

theorem padded_endLiteral (s : State) (chunk : Chunk) : (s.endLiteral chunk).Padded := by
  intro n hn
  obtain rfl : chunk.root = n := Option.some.inj hn
  exact ⟨_, rfl⟩

theorem padded_take (h : s.Padded) (chunk : Chunk) : (s.take page chunk).Padded := by
  obtain ⟨doc, indent, root, flat⟩ := chunk
  cases doc with
  | text t => exact padded_of_none rfl
  | newline b =>
      rcases take_newline s page ⟨.newline b, indent, root, flat⟩ rfl with
        ⟨-, -, he⟩ | ⟨-, ⟨-, he⟩ | ⟨-, -, he⟩ | ⟨-, -, he⟩⟩ <;> rw [he]
      · exact padded_of_none rfl
      · exact h
      · exact padded_endLiteral _ _
      · exact padded_of_none rfl
  | group d id broken =>
      rw [take_group s page _ rfl]
      exact h
  | _ => exact h

theorem padded_step (hs : s.step page = some t) (h : s.Padded) : t.Padded := by
  rcases step_cases hs with ⟨chunk, rest, -, rfl⟩ | ⟨-, -, rfl⟩
  · exact padded_take (s := { s with stack := rest }) h chunk
  · exact h

theorem padded_start (d : Doc) : (start d).Padded := padded_of_none rfl

end State

end RubyPretty.Layout
