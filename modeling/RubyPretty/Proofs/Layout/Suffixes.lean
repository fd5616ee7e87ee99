import RubyPretty.Proofs.Layout.Content
import RubyPretty.Proofs.Layout.Lines
/-!
# Nothing is written behind a comment

What is held back is a comment, or a body that starts on a new line. The characters of comments are
marked, so that they can be told from code. The machine is in one of two phases. As long as the line
is open (`Open`) no mark stands in it, and what waits on the stack is code. When the line ends the
suffixes are flushed, and until a line end has been written nothing but comments comes first on the
stack (`Closing`): bodies go after the comments, and each of them starts with a line end.
-/

namespace RubyPretty

namespace Doc

mutual

/-- The document starts with a hard line end, whatever it is nested in. -/
def opensLine : Doc → Bool
  | .newline b => b.hard
  | .seq ds => opensLineFirst ds
  | .indent d | .align _ d | .group d _ _ | .root d => opensLine d
  | _ => false

def opensLineFirst : List Doc → Bool
  | [] => false
  | d :: _ => opensLine d

end

/-- No character of a text is a line feed or marked. -/
def isUnmarked (mark : Char → Bool) (s : String) : Bool :=
  s.toList.all fun c => c != '\n' && !mark c

/-- A comment: a text of one line in which all ink is marked. -/
def isNote (mark : Char → Bool) : Doc → Bool
  | .text s => s.toList.all fun c => c != '\n' && (!isInk c || mark c)
  | _ => false

mutual

/-- No mark stands outside of comments and no text has a line feed; what is held back is a comment,
or a body that starts with a hard line end and holds nothing back itself. -/
def isCode (mark : Char → Bool) : Doc → Bool
  | .empty | .breakParent => true
  | .text s => isUnmarked mark s
  | .newline b => isUnmarked mark b.flat
  | .seq ds | .fill ds => isCodeAll mark ds
  | .indent d | .align _ d | .group d _ _ | .root d => isCode mark d
  | .ifBreak b f _ => isCode mark b && isCode mark f
  | .suffix d => isNote mark d || (opensLine d && d.every isUnheld && isCode mark d)

def isCodeAll (mark : Char → Bool) : List Doc → Bool
  | [] => true
  | d :: ds => isCode mark d && isCodeAll mark ds

end

variable {mark : Char → Bool}

theorem isCodeAll_eq (ds : List Doc) : isCodeAll mark ds = ds.all (isCode mark) := by
  induction ds with
  | nil => rfl
  | cons d ds ih => rw [isCodeAll, ih, List.all_cons]

theorem isCode_seq {ds : List Doc} :
    (seq ds).isCode mark = true ↔ ∀ d ∈ ds, d.isCode mark = true := by
  rw [isCode, isCodeAll_eq, List.all_eq_true]

theorem isCode_fill {ds : List Doc} :
    (fill ds).isCode mark = true ↔ ∀ d ∈ ds, d.isCode mark = true := by
  rw [isCode, isCodeAll_eq, List.all_eq_true]

theorem isCode_ifBreak {b f : Doc} {id : Option String} :
    (ifBreak b f id).isCode mark = true ↔ b.isCode mark = true ∧ f.isCode mark = true := by
  rw [isCode, Bool.and_eq_true]

theorem isCode_suffix {d : Doc} :
    (suffix d).isCode mark = true ↔
      d.isNote mark = true ∨
        (d.opensLine = true ∧ d.every isUnheld = true) ∧ d.isCode mark = true := by
  rw [isCode, Bool.or_eq_true, Bool.and_eq_true, Bool.and_eq_true]

theorem isUnmarked_iff {s : String} :
    isUnmarked mark s = true ↔ ∀ c ∈ s.toList, c ≠ '\n' ∧ mark c = false := by
  simp only [isUnmarked, List.all_eq_true, Bool.and_eq_true, bne_iff_ne, Bool.not_eq_true']

theorem eq_text_of_isNote {d : Doc} (h : d.isNote mark = true) :
    ∃ s, d = .text s ∧ ∀ c ∈ s.toList, c ≠ '\n' ∧ (isInk c = true → mark c = true) := by
  cases d with
  | text s =>
      refine ⟨s, rfl, fun c hc => ?_⟩
      rw [isNote, List.all_eq_true] at h
      have hchar := h c hc
      rw [Bool.and_eq_true, bne_iff_ne, Bool.or_eq_true, Bool.not_eq_true'] at hchar
      refine ⟨hchar.1, fun hink => hchar.2.resolve_left ?_⟩
      rw [hink]
      exact Bool.true_eq_false.mp
  | _ => cases h

/-! ## Settled code -/

theorem opensLine_settle (d : Doc) : (settle d).1.opensLine = d.opensLine := by
  induction d using Doc.induction with
  | seq ds ih =>
      rw [settle_seq, opensLine, opensLine]
      cases ds with
      | nil => rfl
      | cons d ds => exact ih d List.mem_cons_self
  | fill ds => rw [settle_fill]; rfl
  | indent d ih | align _ d ih | group d _ _ ih | root d ih => exact ih
  | _ => rfl

theorem isCode_settle (d : Doc) (h : d.isCode mark = true) : (settle d).1.isCode mark = true := by
  induction d using Doc.induction with
  | empty | text | newline | breakParent => exact h
  | seq ds ih | fill ds ih =>
      simp only [settle_seq, settle_fill, isCode_seq, isCode_fill, List.forall_mem_map] at h ⊢
      exact fun d hd => ih d hd (h d hd)
  | indent d ih | align _ d ih | group d _ _ ih | root d ih => exact ih h
  | ifBreak b f id ihb ihf =>
      rw [isCode_ifBreak] at h
      rw [settle_ifBreak, isCode_ifBreak]
      exact ⟨ihb h.1, ihf h.2⟩
  | suffix d ih =>
      rw [isCode_suffix] at h
      rw [settle_suffix, isCode_suffix]
      rcases h with hnote | ⟨⟨hopens, hunheld⟩, hcode⟩
      · obtain ⟨s, rfl, -⟩ := eq_text_of_isNote hnote
        exact .inl hnote
      · refine .inr ⟨⟨?_, every_settle isUnheld_settle d hunheld⟩, ih hcode⟩
        rw [opensLine_settle]
        exact hopens

theorem hasForcedBreak_of_opensLine {d : Doc} (h : d.opensLine = true) :
    d.hasForcedBreak = true := by
  induction d using Doc.induction with
  | newline b => exact h
  | seq ds ih =>
      cases ds with
      | nil => cases h
      | cons d ds =>
          rw [hasForcedBreak_seq, List.any_cons, ih d List.mem_cons_self h]
          rfl
  | indent d ih | align _ d ih | group d _ _ ih | root d ih => exact ih h
  | _ => cases h

end Doc

namespace Layout

/-- Where the chunk comes first, the line ends before anything is written. -/
def Chunk.breaksLine (c : Chunk) : Bool := c.doc.opensLine || (!c.flat && c.doc.isBreak)

def BreaksLine (chunks : List Chunk) : Prop := ∀ c ∈ chunks.head?, c.breaksLine = true

def MarksLast (mark : Char → Bool) (line : List Char) : Prop :=
  line.Pairwise fun a b => mark a = true → isInk b = true → mark b = true

theorem marksLast_of_unmarked {mark : Char → Bool} {line : List Char}
    (h : ∀ c ∈ line, mark c = false) : MarksLast mark line := by
  apply List.pairwise_of_forall_mem_list
  intro a ha b _ hmark
  rw [h a ha] at hmark
  cases hmark

theorem MarksLast.append {mark : Char → Bool} {line note : List Char} (h : MarksLast mark line)
    (hnote : ∀ c ∈ note, isInk c = true → mark c = true) : MarksLast mark (line ++ note) := by
  apply List.pairwise_append.mpr
  refine ⟨h, ?_, ?_⟩
  · apply List.pairwise_of_forall_mem_list
    intro a _ b hb _
    exact hnote b hb
  · intro a _ b hb _
    exact hnote b hb

namespace State

variable {page : Page} {s t : State} {mark : Char → Bool}

/-- No mark stands in the line, and no comment comes next. -/
structure Open (mark : Char → Bool) (s : State) : Prop where
  code : ∀ c ∈ s.stack, c.doc.isCode mark = true
  held : ∀ c ∈ s.suffixes, (Doc.suffix c.doc).isCode mark = true
  unmarked : ∀ c ∈ s.line, mark c = false

/-- Comments come next, and then the line ends. -/
structure Closing (mark : Char → Bool) (s : State) : Prop where
  free : s.suffixes = []
  notes_first : ∃ notes rest, s.stack = notes ++ rest ∧
    (∀ c ∈ notes, c.doc.isNote mark = true) ∧ (∀ c ∈ rest, c.doc.isCode mark = true) ∧
    BreaksLine rest

/-- The lines that have been written and the phase of the machine. -/
structure Tidy (mark : Char → Bool) (s : State) : Prop where
  padded : s.Padded
  lines : EveryLine (MarksLast mark) s.out
  phase : s.Open mark ∨ s.Closing mark

theorem Tidy.withModes (h : s.Tidy mark) (modes : Modes) : { s with modes := modes }.Tidy mark where
  padded := h.padded
  lines := h.lines
  phase := h.phase.imp (fun h => ⟨h.code, h.held, h.unmarked⟩) fun h => ⟨h.free, h.notes_first⟩

/-! ## Steps in an open line -/

theorem open_push (h : s.Open mark) {cs : List Chunk}
    (hcs : ∀ c ∈ cs, c.doc.isCode mark = true) : (s.push cs).Open mark where
  code := by
    intro c hc
    rw [push_stack, List.mem_append] at hc
    exact hc.elim (hcs c) (h.code c)
  held := h.held
  unmarked := h.unmarked

theorem open_write (h : s.Open mark) {x : String} (hx : Doc.isUnmarked mark x = true) :
    (s.write x).Open mark := by
  rw [Doc.isUnmarked_iff] at hx
  refine ⟨h.code, h.held, fun c hc => ?_⟩
  rw [line_write fun hmem => (hx _ hmem).1 rfl, List.mem_append, List.mem_reverse] at hc
  exact hc.elim (fun hc => (hx c hc).2) (h.unmarked c)

theorem everyLine_write (h : s.Open mark) {x : String} (hx : Doc.isUnmarked mark x = true)
    (hlines : EveryLine (MarksLast mark) s.out) : EveryLine (MarksLast mark) (s.write x).out := by
  rw [Doc.isUnmarked_iff] at hx
  rw [write_out]
  apply everyLine_append (fun hmem => (hx _ (List.mem_reverse.mp hmem)).1 rfl) hlines
  rw [List.reverse_reverse]
  apply marksLast_of_unmarked
  intro c hc
  rw [List.mem_append, List.mem_reverse] at hc
  exact hc.elim (h.unmarked c) fun hc => (hx c hc).2

theorem everyLine_ended (hblank : mark ' ' = false) (hlines : EveryLine (MarksLast mark) s.out)
    {out : List Char} {n : Nat}
    (hended : ∃ gone before, s.out = gone ++ before ∧ '\n' ∉ gone ∧
      out = List.replicate n ' ' ++ '\n' :: before) :
    EveryLine (MarksLast mark) out ∧ ∀ c ∈ out.takeWhile (· != '\n'), mark c = false := by
  obtain ⟨gone, before, hout, hgone, rfl⟩ := hended
  have hunmarked : ∀ c ∈ List.replicate n ' ', mark c = false := by
    intro c hc
    rw [List.eq_of_mem_replicate hc]
    exact hblank
  rw [hout] at hlines
  constructor
  · apply everyLine_lineFeed ?_ (marksLast_of_unmarked hunmarked)
    exact everyLine_of_append (fun _ _ h => (List.pairwise_append.mp h).1) hgone hlines
  · rw [takeWhile_lineStart]
    exact hunmarked

theorem tidy_endLiteral (hblank : mark ' ' = false) (hpad : s.Padded)
    (hlines : EveryLine (MarksLast mark) s.out) (hcode : ∀ c ∈ s.stack, c.doc.isCode mark = true)
    (hfree : s.suffixes = []) (chunk : Chunk) : (s.endLiteral chunk).Tidy mark := by
  obtain ⟨hlines', hunmarked⟩ := everyLine_ended hblank hlines (out_endLiteral hpad chunk)
  refine ⟨padded_endLiteral s chunk, hlines', .inl ⟨hcode, ?_, hunmarked⟩⟩
  show ∀ c ∈ s.suffixes, _
  rw [hfree]
  exact List.forall_mem_nil _

theorem tidy_endIndented (hblank : mark ' ' = false)
    (hlines : EveryLine (MarksLast mark) s.out) (hcode : ∀ c ∈ s.stack, c.doc.isCode mark = true)
    (hfree : s.suffixes = []) (chunk : Chunk) : (s.endIndented chunk).Tidy mark := by
  obtain ⟨hlines', hunmarked⟩ := everyLine_ended hblank hlines (out_endIndented s chunk)
  refine ⟨padded_of_none rfl, hlines', .inl ⟨hcode, ?_, hunmarked⟩⟩
  show ∀ c ∈ s.suffixes, _
  rw [hfree]
  exact List.forall_mem_nil _

/-- When the suffixes are flushed, the comments come first and then the line ends. -/
theorem closing_flush (hheld : ∀ c ∈ s.suffixes, (Doc.suffix c.doc).isCode mark = true)
    (hcode : ∀ c ∈ s.stack, c.doc.isCode mark = true) (hbreaks : BreaksLine s.stack) :
    s.flush.Closing mark := by
  refine ⟨rfl, _, _, List.append_assoc _ _ _, ?_, ?_, ?_⟩
  · intro c hc
    rw [List.mem_filter, Bool.not_eq_true'] at hc
    rcases Doc.isCode_suffix.mp (hheld c hc.1) with hnote | ⟨⟨hopens, -⟩, -⟩
    · exact hnote
    · rw [Doc.hasForcedBreak_of_opensLine hopens] at hc
      cases hc.2
  · intro c hc
    rw [List.mem_append, List.mem_filter] at hc
    rcases hc with ⟨hmem, hforced⟩ | hmem
    · rcases Doc.isCode_suffix.mp (hheld c hmem) with hnote | ⟨-, hbody⟩
      · obtain ⟨x, hx, -⟩ := Doc.eq_text_of_isNote hnote
        rw [hx] at hforced
        cases hforced
      · exact hbody
    · exact hcode c hmem
  · intro c hc
    cases hbodies : s.suffixes.filter fun c => c.doc.hasForcedBreak with
    | nil =>
        rw [hbodies] at hc
        exact hbreaks c hc
    | cons body bodies =>
        rw [hbodies] at hc
        obtain rfl : body = c := Option.some.inj hc
        have hmem : body ∈ s.suffixes.filter fun c => c.doc.hasForcedBreak := by
          rw [hbodies]
          exact List.mem_cons_self
        rw [List.mem_filter] at hmem
        rcases Doc.isCode_suffix.mp (hheld body hmem.1) with hnote | ⟨⟨hopens, -⟩, -⟩
        · obtain ⟨x, hx, -⟩ := Doc.eq_text_of_isNote hnote
          rw [hx] at hmem
          cases hmem.2
        · rw [Chunk.breaksLine, hopens]
          rfl

theorem tidy_take_open (page : Page) (hblank : mark ' ' = false) (hpad : s.Padded)
    (hlines : EveryLine (MarksLast mark) s.out) (h : s.Open mark) {chunk : Chunk}
    (hchunk : chunk.doc.isCode mark = true) : (s.take page chunk).Tidy mark := by
  obtain ⟨doc, indent, root, flat⟩ := chunk
  -- what is put back on the stack leaves the line as it is
  have hpush (cs : List Chunk) (hcs : ∀ c ∈ cs, c.doc.isCode mark = true) :
      (s.push cs).Tidy mark := ⟨hpad, hlines, .inl (open_push h hcs)⟩
  cases doc with
  | empty | breakParent => exact ⟨hpad, hlines, .inl h⟩
  | text x =>
      exact ⟨padded_of_none rfl, everyLine_write h hchunk hlines, .inl (open_write h hchunk)⟩
  | newline b =>
      rcases take_newline s page ⟨.newline b, indent, root, flat⟩ rfl with
        ⟨-, -, he⟩ | ⟨hends, ⟨-, he⟩ | ⟨hfree, -, he⟩ | ⟨hfree, -, he⟩⟩ <;> rw [he]
      · exact ⟨padded_of_none rfl, everyLine_write h hchunk hlines, .inl (open_write h hchunk)⟩
      · refine ⟨hpad, hlines, .inr (closing_flush h.held ?_ ?_)⟩
        · exact List.forall_mem_cons.mpr ⟨hchunk, h.code⟩
        · intro c hc
          obtain rfl := Option.some.inj hc
          show (b.hard || (!flat && true)) = true
          rcases hends with hflat | hhard
          · simp only at hflat
            simp [hflat]
          · simp [hhard]
      · exact tidy_endLiteral hblank hpad hlines h.code hfree _
      · exact tidy_endIndented hblank hlines h.code hfree _
  | seq ds =>
      apply hpush
      rw [List.forall_mem_map]
      exact Doc.isCode_seq.mp hchunk
  | indent d | align n d | root d => exact hpush _ (List.forall_mem_singleton.mpr hchunk)
  | group d id broken =>
      rw [take_group s page _ rfl]
      exact (hpush [⟨d, _, _, _⟩] (List.forall_mem_singleton.mpr hchunk)).withModes _
  | ifBreak b f id =>
      apply hpush
      rw [List.forall_mem_singleton]
      show (if _ then f else b).isCode mark = true
      split
      · exact (Doc.isCode_ifBreak.mp hchunk).2
      · exact (Doc.isCode_ifBreak.mp hchunk).1
  | fill items =>
      rw [Doc.isCode_fill] at hchunk
      apply hpush
      intro c hc
      rcases mem_fillChunks hc with hmem | ⟨content, separator, next, more, rfl, hdoc⟩
      · exact hchunk c.doc hmem
      · rw [hdoc, Doc.isCode_fill]
        intro d hd
        exact hchunk d (List.mem_cons_of_mem _ (List.mem_cons_of_mem _ hd))
  | suffix d =>
      refine ⟨hpad, hlines, .inl ⟨h.code, ?_, h.unmarked⟩⟩
      intro c hc
      simp only [take, List.mem_append, List.mem_singleton] at hc
      rcases hc with hc | rfl
      · exact h.held c hc
      · exact hchunk

/-! ## Steps in a line that ends -/

/-- A comment is written where all that comes before it in the line may stand before a comment. -/
theorem tidy_take_note (page : Page) (hlines : EveryLine (MarksLast mark) s.out)
    (hclosing : s.Closing mark) {chunk : Chunk} (hnote : chunk.doc.isNote mark = true) :
    (s.take page chunk).Tidy mark := by
  obtain ⟨x, hx, hchars⟩ := Doc.eq_text_of_isNote hnote
  have htake : s.take page chunk = s.write x := by rw [take, hx]
  rw [htake]
  refine ⟨padded_of_none rfl, ?_, .inr ⟨hclosing.free, hclosing.notes_first⟩⟩
  rw [write_out]
  apply everyLine_append (fun hmem => (hchars _ (List.mem_reverse.mp hmem)).1 rfl) hlines
  rw [List.reverse_reverse]
  exact (everyLine_current hlines).append fun c hc => (hchars c hc).2

/-- Where the line is to end it ends, or what comes first on the stack still ends it. -/
theorem tidy_take_breaksLine (page : Page) (hblank : mark ' ' = false) (hpad : s.Padded)
    (hlines : EveryLine (MarksLast mark) s.out) (hfree : s.suffixes = [])
    (hcode : ∀ c ∈ s.stack, c.doc.isCode mark = true) {chunk : Chunk}
    (hchunk : chunk.doc.isCode mark = true) (hbreaks : chunk.breaksLine = true) :
    (s.take page chunk).Tidy mark := by
  obtain ⟨doc, indent, root, flat⟩ := chunk
  rw [Chunk.breaksLine, Bool.or_eq_true, Bool.and_eq_true, Bool.not_eq_true'] at hbreaks
  -- the first of the chunks that are put back starts with a line end
  have hpush {c : Chunk} {cs : List Chunk} (hopens : c.doc.opensLine = true)
      (hcs : ∀ e ∈ c :: cs, e.doc.isCode mark = true) :
      (s.push (c :: cs)).Tidy mark := by
    refine ⟨hpad, hlines, .inr ⟨hfree, [], c :: cs ++ s.stack, rfl, List.forall_mem_nil _, ?_, ?_⟩⟩
    · intro e he
      rw [List.mem_append] at he
      exact he.elim (hcs e) (hcode e)
    · intro e he
      obtain rfl := Option.some.inj he
      rw [Chunk.breaksLine, hopens]
      rfl
  cases doc with
  | newline b =>
      rcases take_newline s page ⟨.newline b, indent, root, flat⟩ rfl with
        ⟨hflat, hsoft, -⟩ | ⟨-, ⟨hsome, -⟩ | ⟨-, -, he⟩ | ⟨-, -, he⟩⟩
      · rcases hbreaks with hhard | ⟨hbroken, -⟩
        · rw [Doc.opensLine, hsoft] at hhard
          cases hhard
        · rw [hflat] at hbroken
          cases hbroken
      · exact absurd hfree hsome
      · rw [he]
        exact tidy_endLiteral hblank hpad hlines hcode hfree _
      · rw [he]
        exact tidy_endIndented hblank hlines hcode hfree _
  | seq ds =>
      have hopens := hbreaks.resolve_right fun h => by cases h.2
      cases ds with
      | nil => cases hopens
      | cons d ds =>
          refine hpush hopens ?_
          rw [Doc.isCode_seq] at hchunk
          rw [List.forall_mem_cons, List.forall_mem_map]
          exact List.forall_mem_cons.mp hchunk
  | indent d | align n d | root d =>
      have hopens := hbreaks.resolve_right fun h => by cases h.2
      exact hpush hopens (List.forall_mem_singleton.mpr hchunk)
  | group d id broken =>
      have hopens := hbreaks.resolve_right fun h => by cases h.2
      rw [take_group s page _ rfl]
      exact (hpush (c := ⟨d, _, _, _⟩) hopens (List.forall_mem_singleton.mpr hchunk)).withModes _
  | empty | breakParent | text | ifBreak | fill | suffix =>
      rcases hbreaks with h | ⟨-, h⟩ <;> cases h

/-! ## Runs -/

theorem tidy_step (hblank : mark ' ' = false) (hs : s.step page = some t) (h : s.Tidy mark) :
    t.Tidy mark := by
  rcases step_cases hs with ⟨chunk, rest, hstack, rfl⟩ | ⟨hstack, hsome, rfl⟩
  · rcases h.phase with hopen | ⟨hfree, notes, code, hparts, hnotes, hcode, hbreaks⟩
    · have hcode := hopen.code
      rw [hstack, List.forall_mem_cons] at hcode
      exact tidy_take_open (s := { s with stack := rest }) page hblank h.padded h.lines
        ⟨hcode.2, hopen.held, hopen.unmarked⟩ hcode.1
    · rw [hstack] at hparts
      cases notes with
      | nil =>
          obtain rfl : chunk :: rest = code := hparts
          rw [List.forall_mem_cons] at hcode
          exact tidy_take_breaksLine (s := { s with stack := rest }) page hblank h.padded h.lines
            hfree hcode.2 hcode.1 (hbreaks chunk rfl)
      | cons note notes =>
          rw [List.cons_append, List.cons.injEq] at hparts
          obtain ⟨rfl, rfl⟩ := hparts
          rw [List.forall_mem_cons] at hnotes
          exact tidy_take_note (s := { s with stack := notes ++ code }) page h.lines
            ⟨hfree, notes, code, rfl, hnotes.2, hcode, hbreaks⟩ hnotes.1
  · rcases h.phase with hopen | hclosing
    · refine ⟨h.padded, h.lines, .inr (closing_flush hopen.held hopen.code ?_)⟩
      intro c hc
      rw [hstack] at hc
      cases hc
    · exact absurd hclosing.free hsome

theorem tidy_start {d : Doc} (h : d.isCode mark = true) : (start d).Tidy mark where
  padded := padded_start d
  lines := by
    intro line hline
    rw [List.mem_singleton.mp hline]
    exact List.Pairwise.nil
  phase := .inl ⟨List.forall_mem_singleton.mpr h, List.forall_mem_nil _, List.forall_mem_nil _⟩

end State

/-- A line suffix never swallows code. Mark any characters other than blanks. If all marked
characters of a document stand in comments that are held back, and what else is held back starts on
a new line, then on no line of the text does anything but marks and blanks stand to the right of a
mark. -/
theorem nothing_follows_comments (mark : Char → Bool) (hmark : ∀ c, mark c = true → isInk c = true)
    (page : Page) (d : Doc) (hd : d.isCode mark = true) :
    ∀ line ∈ Text.lines (render page d),
      line.toList.Pairwise fun a b => mark a = true → isInk b = true → mark b = true := by
  have hblank : mark ' ' = false := by
    rw [← Bool.not_eq_true]
    intro h
    cases hmark ' ' h
  have htidy : (State.finish page d).Tidy mark :=
    State.run_induction page (fun _ _ => State.tidy_step hblank) _ _
      (State.tidy_start (Doc.isCode_settle d hd))
  intro line hline
  rw [State.render_eq] at hline
  exact htidy.lines _ (State.mem_lines_text hline)

/-- A call with a body and a comment held back before its last argument is written. -/
def sampleSuffixes : Doc :=
  .group
    (.seq
      [.text "f(<<~A", .suffix (.group (.seq [.literalLine, .text "A"]) none false), .text ", ",
        .suffix (.text " #!"), .softline, .text "b)", .suffix (.text " ##")])
    none false

def sampleMark (c : Char) : Bool := c == '#' || c == '!'

theorem nothing_follows_comments_sample :
    Text.lines (render ⟨5, 2⟩ sampleSuffixes) = ["f(<<~A,  #!", "A", "b) ##"] ∧
      ∀ line ∈ Text.lines (render ⟨5, 2⟩ sampleSuffixes),
        line.toList.Pairwise fun a b =>
          sampleMark a = true → isInk b = true → sampleMark b = true := by
  refine ⟨by decide +kernel, nothing_follows_comments sampleMark ?_ _ _ (by decide)⟩
  intro c hc
  rw [sampleMark, Bool.or_eq_true, beq_iff_eq, beq_iff_eq] at hc
  rcases hc with rfl | rfl <;> rfl

end Layout

end RubyPretty
