import RubyPretty.Proofs.Layout.Verbatim
/-!
# Pieces of a line

The parts of a document are the chunks on the stack of a fresh machine (`reaches_parts`). Chunks
that end no line write a piece of it and hold back what waits for its end (`Lays`), wherever they
stand.
A line end further down the stack is reached, however much of the stack is above it
(`exists_reaches_lineEnd`).
-/

namespace RubyPretty

namespace Layout

/-- A document at the left margin, with its groups marked that have to break. -/
def topChunk (d : Doc) : Chunk := ⟨(Doc.settle d).1, 0, 0, false⟩

namespace State

variable {page : Page} {s t u : State}

/-! ## From the first state to the last -/

def fresh (stack : List Chunk) : State := ⟨[], 0, none, [], [], stack⟩

theorem reaches_parts (page : Page) (ds : List Doc) :
    Reaches page (start (Doc.ofParts ds).propagateBreaks) (fresh (ds.map topChunk)) := by
  match ds with
  | [] => exact .single rfl
  | [d] => exact .refl
  | d :: e :: ds =>
      have hsettle : (Doc.ofParts (d :: e :: ds)).propagateBreaks =
          .seq ((d :: e :: ds).map fun d => (Doc.settle d).1) := by
        show (Doc.settle (.seq (d :: e :: ds))).1 = _
        rw [Doc.settle_seq]
      rw [hsettle]
      refine .single ?_
      show some ((fresh []).push (List.map _ (List.map _ _))) = _
      rw [List.map_map, push, fresh, List.append_nil]
      rfl

theorem toList_render_of_reaches {d : Doc} (h : Reaches page (start d.propagateBreaks) t)
    (hstack : t.stack = []) (hnone : t.suffixes = []) :
    (render page d).toList = t.out.reverse := by
  have hlast : t.step page = none := by
    rw [step, hstack, hnone]
    rfl
  rw [render_eq, finish, run_of_reaches h hlast (Nat.le_refl _), text, String.toList_ofList]

/-! ## Line ends -/

theorem take_lineEnd (hnone : s.suffixes = []) :
    s.take page lineEnd =
      { s with out := '\n' :: s.out.dropWhile isTrailingBlank, column := 0, padding := none } := by
  rcases take_newline s page lineEnd rfl with
    ⟨hflat, -, -⟩ | ⟨-, ⟨hsome, -⟩ | ⟨-, hliteral, -⟩ | ⟨-, -, he⟩⟩
  · cases hflat
  · exact absurd hnone hsome
  · cases hliteral
  · exact he

theorem take_lineEnd_of_held (hsome : s.suffixes ≠ []) :
    s.take page lineEnd = (s.push [lineEnd]).flush := by
  rcases take_newline s page lineEnd rfl with
    ⟨hflat, -, -⟩ | ⟨-, ⟨-, he⟩ | ⟨hnone, -⟩ | ⟨hnone, -⟩⟩
  · cases hflat
  · exact he
  · exact absurd hnone hsome
  · exact absurd hnone hsome

theorem exists_stack_flush (s : State) : ∃ cs, s.flush.stack = cs ++ s.stack := ⟨_, rfl⟩

theorem exists_stack_take (s : State) (page : Page) (chunk : Chunk) :
    ∃ cs, (s.take page chunk).stack = cs ++ s.stack := by
  obtain ⟨doc, indent, root, flat⟩ := chunk
  cases doc with
  | newline b =>
      rcases take_newline s page ⟨.newline b, indent, root, flat⟩ rfl with
        ⟨-, -, he⟩ | ⟨-, ⟨-, he⟩ | ⟨-, -, he⟩ | ⟨-, -, he⟩⟩ <;> rw [he]
      · exact ⟨[], rfl⟩
      · obtain ⟨cs, hcs⟩ := exists_stack_flush (s.push [⟨.newline b, indent, root, flat⟩])
        refine ⟨cs ++ [⟨.newline b, indent, root, flat⟩], ?_⟩
        rw [hcs, List.append_assoc]
        rfl
      · exact ⟨[], rfl⟩
      · exact ⟨[], rfl⟩
  | group d id broken =>
      rw [take_group s page _ rfl]
      exact ⟨[_], rfl⟩
  | empty | text | breakParent | suffix => exact ⟨[], rfl⟩
  | _ => exact ⟨_, rfl⟩

/-- A line end on the stack is reached, and nothing is held back any longer behind it. -/
theorem exists_reaches_lineEnd (page : Page) {cs rest : List Chunk} (s : State)
    (hstack : s.stack = cs ++ lineEnd :: rest) :
    ∃ t : State, Reaches page s t ∧ t.stack = rest ∧ t.suffixes = [] ∧
      ∃ lines, t.out = '\n' :: lines := by
  have hnext {t : State} {ds : List Chunk} (hstep : s.step page = some t)
      (htail : t.stack = ds ++ lineEnd :: rest) : ∃ u : State, Reaches page s u ∧ u.stack = rest ∧
        u.suffixes = [] ∧ ∃ lines, u.out = '\n' :: lines := by
    have hlighter := weight_step hstep
    obtain ⟨u, hreaches, hu⟩ := exists_reaches_lineEnd page t htail
    exact ⟨u, .head hstep hreaches, hu⟩
  cases cs with
  | cons c cs =>
      obtain ⟨ds, hds⟩ := exists_stack_take { s with stack := cs ++ lineEnd :: rest } page c
      have hstep : s.step page =
          some ({ s with stack := cs ++ lineEnd :: rest }.take page c) := by
        rw [step, hstack]
        rfl
      exact hnext hstep (hds.trans (List.append_assoc ds cs _).symm)
  | nil =>
      have hstep : s.step page = some ({ s with stack := rest }.take page lineEnd) := by
        rw [step, hstack]
        rfl
      by_cases hnone : s.suffixes = []
      · rw [take_lineEnd (s := { s with stack := rest }) hnone] at hstep
        exact ⟨_, .single hstep, rfl, hnone, _, rfl⟩
      · rw [take_lineEnd_of_held (s := { s with stack := rest }) hnone] at hstep
        exact hnext hstep rfl
termination_by s.weight

/-! ## Pieces of a line -/

/-- The machine has written on its line and held chunks back, and its stack is as it was. -/
structure Adds (x : List Char) (held : List Chunk) (s t : State) : Prop where
  stack : t.stack = s.stack
  out : t.out = x.reverse ++ s.out
  suffixes : t.suffixes = s.suffixes ++ held

/-- Wherever the chunks come next, they write `x` and hold `held` back. -/
def Lays (page : Page) (cs : List Chunk) (x : List Char) (held : List Chunk) : Prop :=
  ∀ s : State, ∃ t, Reaches page (s.push cs) t ∧ Adds x held s t

theorem lays_nil : Lays page [] [] [] :=
  fun s => ⟨s, .refl, rfl, rfl, (List.append_nil _).symm⟩

theorem lays_append {cs cs' held held' : List Chunk} {x x' : List Char}
    (h : Lays page cs x held) (h' : Lays page cs' x' held') :
    Lays page (cs ++ cs') (x ++ x') (held ++ held') := by
  intro s
  obtain ⟨t, hreaches, ht⟩ := h (s.push cs')
  obtain ⟨u, hreaches', hu⟩ := h' { t with stack := s.stack }
  have hpush : { t with stack := s.stack }.push cs' = t := push_of_stack ht.stack
  rw [hpush] at hreaches'
  refine ⟨u, ?_, hu.stack, ?_, ?_⟩
  · rw [push, List.append_assoc]
    exact hreaches.trans hreaches'
  · rw [hu.out, ht.out, List.reverse_append, List.append_assoc]
    rfl
  · rw [hu.suffixes, ht.suffixes, List.append_assoc]
    rfl

theorem lays_flatMap {α : Type} {f : α → List Chunk} {g : α → List Char} {k : α → List Chunk}
    {as : List α} (h : ∀ a ∈ as, Lays page (f a) (g a) (k a)) :
    Lays page (as.flatMap f) (as.flatMap g) (as.flatMap k) := by
  induction as with
  | nil => exact lays_nil
  | cons a as ih =>
      obtain ⟨ha, has⟩ := List.forall_mem_cons.mp h
      rw [List.flatMap_cons, List.flatMap_cons, List.flatMap_cons]
      exact lays_append ha (ih has)

theorem lays_text (x : String) (indent root : Nat) (flat : Bool) :
    Lays page [⟨.text x, indent, root, flat⟩] x.toList [] :=
  fun s => ⟨s.write x, .single rfl, rfl, rfl, (List.append_nil _).symm⟩

theorem lays_ofString (page : Page) (x : String) :
    Lays page ((Doc.ofString x).parts.map topChunk) x.toList [] := by
  by_cases hx : x = ""
  · rw [Doc.ofString, if_pos hx, hx]
    exact lays_nil
  · rw [Doc.ofString, if_neg hx]
    exact lays_text x 0 0 false

theorem lays_ofParts {ds : List Doc} {x : List Char} {held : List Chunk}
    (h : Lays page (ds.map topChunk) x held) : Lays page [topChunk (.ofParts ds)] x held := by
  match ds with
  | [] =>
      intro s
      obtain ⟨t, hreaches, ht⟩ := h s
      exact ⟨t, .head rfl hreaches, ht⟩
  | [d] => exact h
  | d :: e :: ds =>
      intro s
      obtain ⟨t, hreaches, ht⟩ := h s
      refine ⟨t, .head ?_ hreaches, ht⟩
      show (s.push [topChunk (.seq (d :: e :: ds))]).step page = _
      rw [step_push, topChunk, Doc.settle_seq]
      show some (s.push (List.map _ (List.map _ _))) = _
      rw [List.map_map]
      rfl

theorem lays_suffix (d : Doc) :
    Lays page ([.suffix d, .breakParent].map topChunk) [] [topChunk d] := by
  intro s
  refine ⟨{ s with suffixes := s.suffixes ++ [topChunk d] }, ?_, rfl, rfl, rfl⟩
  exact .head (step_push (s.push [topChunk .breakParent]) page _) (.single rfl)

theorem flush_of_unforced (h : ∀ c ∈ s.suffixes, c.doc.hasForcedBreak = false) :
    s.flush = { s with suffixes := [] }.push s.suffixes := by
  have hall : s.suffixes.filter (fun c => !c.doc.hasForcedBreak) = s.suffixes := by
    refine List.filter_eq_self.mpr fun c hc => ?_
    rw [h c hc]
    rfl
  have hnone : s.suffixes.filter (fun c => c.doc.hasForcedBreak) = [] := by
    refine List.filter_eq_nil_iff.mpr fun c hc => ?_
    rw [h c hc]
    exact Bool.false_ne_true
  rw [flush, hall, hnone, List.append_nil]
  rfl

end State

end Layout

/-! ## Documents that are written as they stand -/

namespace Doc

/-- The document is made of texts and literal line ends, and they are the text `s` in a row. -/
def Spells (d : Doc) (s : String) : Prop :=
  (∀ a ∈ d.atoms, (∃ x, a = .text x) ∨ a = .literalLine) ∧ d.written = s.toList

theorem spells_ofString (s : String) : (ofString s).Spells s := by
  refine ⟨fun a ha => .inl ⟨s, ?_⟩, written_ofString s⟩
  rw [atoms_ofString] at ha
  exact eq_text_of_mem_atoms ha

theorem spells_verbatim (s : String) : (verbatim s).Spells s :=
  ⟨fun _ ha => mem_atoms_verbatim ha, written_verbatim s⟩

theorem spells_cat {ds : List Doc} {ss : List String} (h : List.Forall₂ Spells ds ss) :
    (cat ds).Spells (String.join ss) := by
  rw [Spells, atoms_cat, written_cat, String.toList_join]
  induction h with
  | nil => exact ⟨List.forall_mem_nil _, rfl⟩
  | cons hd _ ih =>
      rw [List.flatMap_cons, List.flatMap_cons, List.flatMap_cons, hd.2, ih.2]
      refine ⟨fun a ha => ?_, rfl⟩
      rcases List.mem_append.mp ha with ha | ha
      · exact hd.1 a ha
      · exact ih.1 a ha

theorem Spells.atoms_settle_eq {d : Doc} {s : String} (h : d.Spells s) :
    (settle d).1.atoms = d.atoms := by
  rw [atoms_settle]
  refine (List.map_congr_left fun a ha => ?_).trans (List.map_id _)
  rcases h.1 a ha with ⟨x, rfl⟩ | rfl <;> rfl

end Doc

namespace Layout

open State

/-- Texts and literal line ends are written character by character, in any nesting. -/
theorem render_of_spells (page : Page) {d : Doc} {s : String} (h : d.Spells s) :
    render page d = s := by
  have hplain : ∀ a ∈ d.atoms, a.isPlainAtom = true ∧ a.held? = none := by
    intro a ha
    rcases h.1 a ha with ⟨x, rfl⟩ | rfl <;> exact ⟨rfl, rfl⟩
  have hnone : d.atoms.filterMap Doc.held? = [] :=
    List.filterMap_eq_nil_iff.mpr fun a ha => (hplain a ha).2
  have hemits := emits_doc page (d := (Doc.settle d).1)
    (by rw [h.atoms_settle_eq]; exact fun a ha => (hplain a ha).1) 0 false
  rw [h.atoms_settle_eq] at hemits
  obtain ⟨t, hreaches, hwrote⟩ := hemits (fresh []) rfl (.inr ⟨rfl, hnone⟩)
  obtain ⟨more, hmore, hdocs, -⟩ := hwrote.suffixes
  rw [hnone, List.map_eq_nil_iff] at hdocs
  rw [← String.toList_inj, ← h.2,
    toList_render_of_reaches hreaches hwrote.stack (hmore.trans hdocs), hwrote.out,
    List.reverse_append, List.reverse_reverse]
  rfl

end Layout

end RubyPretty
