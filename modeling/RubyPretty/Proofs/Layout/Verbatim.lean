import Mathlib.Logic.Relation
import RubyPretty.Proofs.Doc.Atoms
import RubyPretty.Proofs.Layout.Lines
/-!
# Lines with bodies below them

A line of texts, some of which have a body below the line, is written as it stands, whatever it is
nested in: the texts in a row, then the bodies in order. What is nested in indents, alignments and
groups is written as its atoms are (`emits_doc`), since none of these shows where no line breaks,
and a literal line end goes to column zero. So a body comes out character by character, with no
blank more or less (`render_bodies`).
-/

namespace RubyPretty

namespace Text

theorem intercalate_pieces (sep : Char) (cs : List Char) :
    [sep].intercalate (pieces sep cs) = cs := by
  induction cs with
  | nil => rfl
  | cons c cs ih =>
      rw [pieces]
      cases hpieces : pieces sep cs with
      | nil => exact absurd hpieces (pieces_ne_nil sep cs)
      | cons piece more =>
          rw [hpieces] at ih
          split
          · next hc => rw [List.intercalate_cons_cons, ih, hc]; rfl
          · rw [List.modifyHead]
            cases more with
            | nil => rw [← ih]; simp
            | cons next more =>
                rw [List.intercalate_cons_cons] at ih ⊢
                rw [← ih]
                rfl

end Text

namespace Doc

theorem written_joined_literalLine (ls : List (List Char)) :
    (joined literalLine ((ls.map String.ofList).map ofString)).written = ['\n'].intercalate ls := by
  rw [joined, written_cat]
  induction ls with
  | nil => rfl
  | cons l ls ih =>
      cases ls with
      | nil =>
          show (ofString (String.ofList l)).written ++ [] = _
          rw [written_ofString, String.toList_ofList]
          simp
      | cons next ls =>
          rw [List.intercalate_cons_cons, ← ih]
          show (ofString (String.ofList l)).written ++ (['\n'] ++ _) = _
          rw [written_ofString, String.toList_ofList, List.append_assoc]
          rfl

theorem written_verbatim (s : String) : (verbatim s).written = s.toList := by
  rw [verbatim, Text.lines, written_joined_literalLine, Text.intercalate_pieces]

end Doc

namespace Layout.State

variable {page : Page} {s t u : State}

/-! ## Reaching a state -/

/-- The machine comes from one state to another. -/
def Reaches (page : Page) : State → State → Prop :=
  Relation.ReflTransGen fun s t => s.step page = some t

theorem step_push (s : State) (page : Page) (chunk : Chunk) :
    (s.push [chunk]).step page = some (s.take page chunk) := rfl

/-- A run of enough steps ends in the only last state that is reached. -/
theorem run_of_reaches (h : Reaches page s t) (hlast : t.step page = none) {n : Nat}
    (hn : s.weight ≤ n) : s.run page n = t := by
  induction h using Relation.ReflTransGen.head_induction_on generalizing n with
  | refl =>
      cases n with
      | zero => rfl
      | succ n => rw [run, hlast]
  | head hstep _ ih =>
      have hlt := weight_step hstep
      cases n with
      | zero => omega
      | succ n =>
          rw [run, hstep]
          exact ih (by omega)

/-! ## Writing atoms -/

/-- The machine has written atoms and is otherwise as it was, up to its column and the modes of its
groups. What the atoms hold back waits with a root of zero. -/
structure Wrote (atoms : List Doc) (s t : State) : Prop where
  stack : t.stack = s.stack
  out : t.out = (atoms.flatMap Doc.chars).reverse ++ s.out
  suffixes : ∃ more, t.suffixes = s.suffixes ++ more ∧
    more.map (·.doc) = atoms.filterMap Doc.held? ∧ ∀ c ∈ more, c.root = 0
  padding : t.padding.getD 0 = 0

theorem Wrote.nil (h : s.padding.getD 0 = 0) : Wrote [] s s :=
  ⟨rfl, rfl, ⟨[], (List.append_nil _).symm, rfl, List.forall_mem_nil _⟩, h⟩

theorem Wrote.append {as bs : List Doc} (hst : Wrote as s t) (htu : Wrote bs t u) :
    Wrote (as ++ bs) s u := by
  obtain ⟨more, hmore, hdocs, hroots⟩ := hst.suffixes
  obtain ⟨more', hmore', hdocs', hroots'⟩ := htu.suffixes
  refine ⟨htu.stack.trans hst.stack, ?_, ⟨more ++ more', ?_, ?_, ?_⟩, htu.padding⟩
  · rw [htu.out, hst.out, List.flatMap_append, List.reverse_append, List.append_assoc]
  · rw [hmore', hmore, List.append_assoc]
  · rw [List.map_append, hdocs, hdocs', List.filterMap_append]
  · intro c hc
    rcases List.mem_append.mp hc with hc | hc
    · exact hroots c hc
    · exact hroots' c hc

/-- The line does not end in the atoms, or nothing waits for its end. -/
def Ready (atoms : List Doc) (s : State) : Prop :=
  (∀ a ∈ atoms, a.hasForcedBreak = false) ∨ s.suffixes = [] ∧ atoms.filterMap Doc.held? = []

/-- Wherever the chunks come next, they are written as the atoms are. -/
def Emits (page : Page) (chunks : List Chunk) (atoms : List Doc) : Prop :=
  ∀ s : State, s.padding.getD 0 = 0 → s.Ready atoms →
    ∃ t, Reaches page (s.push chunks) t ∧ Wrote atoms s t

theorem emits_nil : Emits page [] [] := fun s hpad _ => ⟨s, .refl, .nil hpad⟩

theorem ready_left {as bs : List Doc} (h : s.Ready (as ++ bs)) : s.Ready as := by
  rcases h with hunforced | ⟨hnone, hheld⟩
  · exact .inl fun a ha => hunforced a (List.mem_append_left _ ha)
  · rw [List.filterMap_append, List.append_eq_nil_iff] at hheld
    exact .inr ⟨hnone, hheld.1⟩

theorem ready_right {as bs : List Doc} (h : s.Ready (as ++ bs)) (hst : Wrote as s t) :
    t.Ready bs := by
  rcases h with hunforced | ⟨hnone, hheld⟩
  · exact .inl fun a ha => hunforced a (List.mem_append_right _ ha)
  · rw [List.filterMap_append, List.append_eq_nil_iff] at hheld
    obtain ⟨more, hmore, hdocs, -⟩ := hst.suffixes
    rw [hheld.1, List.map_eq_nil_iff] at hdocs
    refine .inr ⟨?_, hheld.2⟩
    rw [hmore, hnone, hdocs]
    rfl

theorem push_of_stack {cs rest : List Chunk} (h : t.stack = cs ++ rest) :
    { t with stack := rest }.push cs = t := by
  show { t with stack := cs ++ rest } = t
  rw [← h]

theorem emits_cons {c : Chunk} {cs : List Chunk} {as bs : List Doc} (hc : Emits page [c] as)
    (hcs : Emits page cs bs) : Emits page (c :: cs) (as ++ bs) := by
  intro s hpad hready
  obtain ⟨t, hreaches, hwrote⟩ := hc (s.push cs) hpad (ready_left hready)
  -- the other chunks come next, on a stack like the first one
  have hpush : { t with stack := s.stack }.push cs = t := push_of_stack hwrote.stack
  have hfirst : Wrote as s { t with stack := s.stack } :=
    ⟨rfl, hwrote.out, hwrote.suffixes, hwrote.padding⟩
  obtain ⟨u, hreaches', hwrote'⟩ := hcs _ hfirst.padding (ready_right hready hfirst)
  rw [hpush] at hreaches'
  exact ⟨u, hreaches.trans hreaches', hfirst.append hwrote'⟩

theorem emits_chunks {cs : List Chunk} (h : ∀ c ∈ cs, Emits page [c] c.doc.atoms) :
    Emits page cs ((cs.map (·.doc)).flatMap Doc.atoms) := by
  induction cs with
  | nil => exact emits_nil
  | cons c cs ih =>
      obtain ⟨hc, hcs⟩ := List.forall_mem_cons.mp h
      exact emits_cons hc (ih hcs)

theorem emits_docs {ds : List Doc} {indent : Nat} {flat : Bool}
    (h : ∀ d ∈ ds, Emits page [⟨d, indent, 0, flat⟩] d.atoms) :
    Emits page (ds.map fun d => ⟨d, indent, 0, flat⟩) (ds.flatMap Doc.atoms) := by
  have hdocs : (ds.map fun d => Chunk.mk d indent 0 flat).map (·.doc) = ds := by
    rw [List.map_map]
    exact List.map_id ds
  have hchunks : Emits page (ds.map fun d => ⟨d, indent, 0, flat⟩) _ :=
    emits_chunks (List.forall_mem_map.mpr h)
  rwa [hdocs] at hchunks

theorem emits_of_take {c : Chunk} {as : List Doc}
    (h : ∀ s : State, s.padding.getD 0 = 0 → s.Ready as →
      ∃ t, Reaches page (s.take page c) t ∧ Wrote as s t) : Emits page [c] as := by
  intro s hpad hready
  obtain ⟨t, hreaches, hwrote⟩ := h s hpad hready
  exact ⟨t, .head (step_push s page c) hreaches, hwrote⟩

theorem emits_text (x : String) (indent : Nat) (flat : Bool) :
    Emits page [⟨.text x, indent, 0, flat⟩] (Doc.text x).atoms := by
  refine emits_of_take fun s _ _ => ⟨s.write x, .refl, rfl, ?_, ?_, rfl⟩
  · have hwritten := Doc.written_ofString x
    rw [Doc.written, Doc.atoms_ofString] at hwritten
    rw [hwritten]
    rfl
  · refine ⟨[], (List.append_nil _).symm, ?_, List.forall_mem_nil _⟩
    rw [Doc.atoms]
    split <;> rfl

theorem emits_newline {b : Break} (hhard : b.hard = true) (hliteral : b.literal = true)
    (indent : Nat) (flat : Bool) :
    Emits page [⟨.newline b, indent, 0, flat⟩] [.newline b] := by
  refine emits_of_take fun s hpad hready => ?_
  have hnone : s.suffixes = [] := by
    rcases hready with hunforced | ⟨hnone, -⟩
    · have hbreak := hunforced _ (List.mem_singleton_self _)
      rw [Doc.hasForcedBreak, hhard] at hbreak
      cases hbreak
    · exact hnone
  have htake : s.take page ⟨.newline b, indent, 0, flat⟩ =
      s.endLiteral ⟨.newline b, indent, 0, flat⟩ := by
    rcases take_newline s page ⟨.newline b, indent, 0, flat⟩ rfl with
      ⟨-, hsoft, -⟩ | ⟨-, ⟨hsome, -⟩ | ⟨-, -, he⟩ | ⟨-, hsoft, -⟩⟩
    · rw [hhard] at hsoft
      cases hsoft
    · exact absurd hnone hsome
    · exact he
    · rw [hliteral] at hsoft
      cases hsoft
  rw [htake]
  refine ⟨_, .refl, rfl, ?_, ⟨[], (List.append_nil _).symm, rfl, List.forall_mem_nil _⟩, rfl⟩
  show '\n' :: s.out.drop (s.padding.getD 0) = '\n' :: s.out
  rw [hpad, List.drop_zero]

theorem emits_suffix (d : Doc) (indent : Nat) (flat : Bool) :
    Emits page [⟨.suffix d, indent, 0, flat⟩] [.suffix d] := by
  refine emits_of_take fun s hpad _ => ⟨_, .refl, rfl, rfl, ?_, hpad⟩
  refine ⟨[⟨d, indent, 0, false⟩], rfl, rfl, fun c hc => ?_⟩
  rw [List.mem_singleton.mp hc]

/-- A nested document is written as its atoms are, with the root at column zero. -/
theorem emits_doc (page : Page) {d : Doc} (hd : ∀ a ∈ d.atoms, a.isPlainAtom = true)
    (indent : Nat) (flat : Bool) : Emits page [⟨d, indent, 0, flat⟩] d.atoms := by
  induction d using Doc.induction generalizing indent flat with
  | empty => exact emits_of_take fun s hpad _ => ⟨s, .refl, .nil hpad⟩
  | text x => exact emits_text x indent flat
  | newline b =>
      have hb := hd _ (List.mem_singleton_self _)
      rw [Doc.isPlainAtom, Bool.and_eq_true] at hb
      exact emits_newline hb.1 hb.2 indent flat
  | suffix d => exact emits_suffix d indent flat
  | breakParent | ifBreak | fill | root => exact nomatch hd _ (List.mem_singleton_self _)
  | seq ds ih =>
      rw [Doc.atoms_seq] at hd ⊢
      refine emits_of_take (emits_docs fun d hmem => ?_)
      exact ih d hmem (fun a ha => hd a (List.mem_flatMap.mpr ⟨d, hmem, ha⟩)) indent flat
  | indent d ih | align _ d ih => exact emits_of_take (ih hd _ _)
  | group d id broken ih =>
      refine emits_of_take fun s hpad hready => ?_
      rw [take_group s page _ rfl]
      generalize s.groupFlat page _ d broken = decided
      obtain ⟨t, hreaches, hwrote⟩ :=
        ih hd indent decided { s with modes := s.modes.noting id decided } hpad hready
      exact ⟨t, hreaches, hwrote.stack, hwrote.out, hwrote.suffixes, hwrote.padding⟩

/-! ## Bodies -/

theorem flush_of_forced (h : ∀ c ∈ s.suffixes, c.doc.hasForcedBreak = true) :
    s.flush = { s with suffixes := [] }.push s.suffixes := by
  have hnone : s.suffixes.filter (fun c => !c.doc.hasForcedBreak) = [] := by
    rw [List.filter_eq_nil_iff]
    intro c hc
    rw [h c hc]
    exact Bool.false_ne_true
  have hall : s.suffixes.filter (fun c => c.doc.hasForcedBreak) = s.suffixes :=
    List.filter_eq_self.mpr h
  rw [flush, hnone, hall]
  rfl

def lineEnd : Chunk := ⟨.hardline, 0, 0, false⟩

/-- At the end of the line the bodies that wait are written in their order. -/
theorem reaches_bodies (page : Page) (hne : s.suffixes ≠ [])
    (hpad : s.padding.getD 0 = 0) (hroots : ∀ c ∈ s.suffixes, c.root = 0)
    (hbodies : ∀ c ∈ s.suffixes, c.doc.IsBody) :
    ∃ t : State, Reaches page (s.push [lineEnd]) (t.push [lineEnd]) ∧ t.stack = s.stack ∧
      t.suffixes = [] ∧
      t.out = ((s.suffixes.map (·.doc)).flatMap Doc.written).reverse ++ s.out := by
  have htake : s.take page lineEnd = (s.push [lineEnd]).flush := by
    rcases take_newline s page lineEnd rfl with
      ⟨-, hsoft, -⟩ | ⟨-, ⟨-, he⟩ | ⟨hnone, -⟩ | ⟨hnone, -⟩⟩
    · cases hsoft
    · exact he
    · exact absurd hnone hne
    · exact absurd hnone hne
  have hflush : (s.push [lineEnd]).flush =
      ({ s with suffixes := [] }.push [lineEnd]).push s.suffixes :=
    flush_of_forced (s := s.push [lineEnd]) fun c hc => (hbodies c hc).hasForcedBreak
  have hemits : Emits page s.suffixes ((s.suffixes.map (·.doc)).flatMap Doc.atoms) := by
    refine emits_chunks fun c hc => ?_
    obtain ⟨doc, indent, root, flat⟩ := c
    obtain rfl : root = 0 := hroots _ hc
    exact emits_doc page (hbodies _ hc).isPlainAtom indent flat
  have hheld : ((s.suffixes.map (·.doc)).flatMap Doc.atoms).filterMap Doc.held? = [] := by
    rw [List.filterMap_eq_nil_iff]
    intro a ha
    obtain ⟨d, hd, ha⟩ := List.mem_flatMap.mp ha
    obtain ⟨c, hc, rfl⟩ := List.mem_map.mp hd
    exact List.filterMap_eq_nil_iff.mp (hbodies c hc).filterMap_held? a ha
  obtain ⟨t, hreaches, hwrote⟩ := hemits ({ s with suffixes := [] }.push [lineEnd]) hpad
    (.inr ⟨rfl, hheld⟩)
  obtain ⟨more, hmore, hdocs, -⟩ := hwrote.suffixes
  rw [hheld, List.map_eq_nil_iff] at hdocs
  refine ⟨{ t with stack := s.stack }, ?_, rfl, ?_, ?_⟩
  · rw [push_of_stack hwrote.stack]
    refine .head (step_push s page lineEnd) ?_
    rw [htake, hflush]
    exact hreaches
  · show t.suffixes = []
    rw [hmore, hdocs]
    rfl
  · show t.out = _
    rw [hwrote.out, List.flatMap_assoc]
    rfl

/-- The last line end takes nothing back where the line does not end in a blank. -/
theorem take_hardline (hnone : s.suffixes = []) {c : Char} {before : List Char}
    (hout : s.out = c :: before) (hink : isTrailingBlank c = false) :
    s.take page lineEnd =
      { s with out := '\n' :: s.out, column := 0, padding := none } := by
  have hdrop : s.out.dropWhile isTrailingBlank = s.out := by
    rw [hout, List.dropWhile_cons_of_neg (by rw [hink]; exact Bool.false_ne_true)]
  rcases take_newline s page lineEnd rfl with
    ⟨hflat, -, -⟩ | ⟨-, ⟨hsome, -⟩ | ⟨-, hliteral, -⟩ | ⟨-, -, he⟩⟩
  · cases hflat
  · exact absurd hnone hsome
  · cases hliteral
  · rw [he, endIndented, hdrop]
    rfl

theorem step_start_line (page : Page) (line : List Doc) :
    (start (Doc.seq (line ++ [.hardline])).propagateBreaks).step page =
      some ((⟨[], 0, none, [], [], [lineEnd]⟩ : State).push
        ((line.map fun d => (Doc.settle d).1).map fun d => ⟨d, 0, 0, false⟩)) := by
  rw [Doc.propagateBreaks, Doc.settle_seq, List.map_append]
  show some (push _ ((_ ++ [Doc.hardline]).map fun d => ⟨d, 0, 0, false⟩)) = _
  rw [List.map_append, push, List.append_assoc]
  rfl

/-- The machine comes to the end of a line with its texts written and its bodies waiting. -/
theorem reaches_line (page : Page) {line : List Doc}
    (hline : ∀ a ∈ line.flatMap Doc.atoms, a.IsLineAtom) :
    ∃ s : State,
      Reaches page (start (Doc.seq (line ++ [.hardline])).propagateBreaks) (s.push [lineEnd]) ∧
      s.stack = [] ∧ s.padding.getD 0 = 0 ∧ s.out = (line.flatMap Doc.written).reverse ∧
      s.suffixes.map (·.doc) = (Doc.heldIn line).map (fun d => (Doc.settle d).1) ∧
      ∀ c ∈ s.suffixes, c.root = 0 := by
  have hatoms := Doc.isPlainAtom_of_mem_settled hline
  have hemits : Emits page ((line.map fun d => (Doc.settle d).1).map fun d => ⟨d, 0, 0, false⟩) _ :=
    emits_docs fun d hd =>
      emits_doc page (fun a ha => (hatoms a (List.mem_flatMap.mpr ⟨d, hd, ha⟩)).1) 0 false
  obtain ⟨s, hreaches, hwrote⟩ := hemits ⟨[], 0, none, [], [], [lineEnd]⟩ rfl
    (.inl fun a ha => (hatoms a ha).2)
  obtain ⟨more, hmore, hdocs, hroots⟩ := hwrote.suffixes
  obtain rfl : s.suffixes = more := hmore
  refine ⟨{ s with stack := [] }, ?_, rfl, hwrote.padding, ?_, ?_, hroots⟩
  · rw [push_of_stack hwrote.stack]
    exact .head (step_start_line page line) hreaches
  · show s.out = _
    rw [hwrote.out, Doc.flatMap_chars_settled]
    exact List.append_nil _
  · rw [← Doc.heldIn_settled]
    exact hdocs

/-- After the bodies the machine ends, and takes nothing of the last one back. -/
theorem finish_of_reaches {d : Doc} (hreaches : Reaches page (start d.propagateBreaks)
      (s.push [lineEnd])) (hstack : s.stack = []) (hnone : s.suffixes = []) {cs : List Char}
    {c : Char} (hout : s.out = cs.reverse) (hlast : cs.getLast? = some c)
    (hink : isTrailingBlank c = false) : (finish page d).out = '\n' :: cs.reverse := by
  obtain ⟨before, rfl⟩ := List.getLast?_eq_some_iff.mp hlast
  rw [List.reverse_append] at hout
  have hend := step_push s page lineEnd
  rw [take_hardline hnone hout hink] at hend
  have hdone : ({ s with out := '\n' :: s.out, column := 0, padding := none } : State).step page =
      none := by
    rw [step, hstack, hnone]
    rfl
  rw [finish, run_of_reaches (hreaches.tail hend) hdone (Nat.le_refl _), List.reverse_append]
  exact congrArg ('\n' :: ·) hout

end Layout.State

namespace Layout

open State

/-- A line of texts and of bodies held back, in any nesting, is written as it stands, with the
bodies below it in their order. -/
theorem render_bodies (page : Page) {line : List Doc}
    (hline : ∀ a ∈ line.flatMap Doc.atoms, a.IsLineAtom) {c : Char}
    (hlast : ((Doc.heldIn line).flatMap Doc.written).getLast? = some c)
    (hink : isTrailingBlank c = false) :
    render page (.seq (line ++ [.hardline])) =
      String.ofList (line.flatMap Doc.written ++ (Doc.heldIn line).flatMap Doc.written ++
        ['\n']) := by
  have hbodies := Doc.isBody_of_mem_heldIn hline
  obtain ⟨s, hreaches, hstack, hpad, hline, hdocs, hroots⟩ := reaches_line page hline
  have hwaiting : ∀ c ∈ s.suffixes, c.doc.IsBody := by
    intro c hc
    have hmem : c.doc ∈ s.suffixes.map (·.doc) := List.mem_map_of_mem hc
    rw [hdocs] at hmem
    obtain ⟨d, hd, hsettled⟩ := List.mem_map.mp hmem
    rw [← hsettled]
    exact (hbodies d hd).settled
  have hne : s.suffixes ≠ [] := by
    intro hnone
    rw [hnone, List.map_nil, eq_comm, List.map_eq_nil_iff] at hdocs
    rw [hdocs] at hlast
    cases hlast
  obtain ⟨t, hreaches', hstack', hnone, hout⟩ := reaches_bodies page hne hpad hroots hwaiting
  have hwritten : t.out =
      (line.flatMap Doc.written ++ (Doc.heldIn line).flatMap Doc.written).reverse := by
    rw [hout, hline, hdocs, List.flatMap_map,
      List.flatMap_congr fun d hd => (hbodies d hd).written_settle, List.reverse_append]
  have hend : (line.flatMap Doc.written ++ (Doc.heldIn line).flatMap Doc.written).getLast? =
      some c := by
    rw [List.getLast?_append, hlast]
    rfl
  have hfinish := finish_of_reaches (hreaches.trans hreaches') (hstack'.trans hstack) hnone hwritten
    hend hink
  rw [render_eq, State.text, hfinish, List.reverse_cons, List.reverse_reverse]

end Layout

/-! ## Indentation that can be written -/

namespace Doc

/-- The document is no alignment by more blanks than a text can hold. -/
def isWritable : Doc → Bool
  | .align amount _ => Text.canHoldBlanks amount
  | _ => true

theorem isWritable_settle (d : Doc) (h : d.isWritable = true) :
    (settle d).1.isWritable = true := by
  cases d with
  | seq ds => rw [settle_seq]; rfl
  | fill ds => rw [settle_fill]; rfl
  | align amount d => exact h
  | _ => rfl

end Doc

namespace Layout

open State

theorem fillClosed_isWritable : FillClosed Doc.isWritable := fun _ _ _ _ _ => rfl

theorem State.isTooWide_of_holds {s : State} (h : s.Holds Doc.isWritable) :
    s.isTooWide = false := by
  unfold isTooWide
  split
  · next amount child indent root rest hstack =>
      have hmem : ⟨.align amount child, indent, root, false⟩ ∈ s.stack := by
        rw [hstack]
        exact List.mem_cons_self
      have hamount : Text.canHoldBlanks amount = true := Doc.every_self (h _ (.inl hmem))
      rw [hamount]
      rfl
  · rfl

/-- What a step keeps and what asks for no indentation that is too wide can be written. -/
theorem State.isWritable_of_step {page : Page} {P : State → Prop}
    (hstep : ∀ s t, s.step page = some t → P s → P t)
    (hnarrow : ∀ s, P s → s.isTooWide = false) (n : Nat) {s : State} (h : P s) :
    s.isWritable page n = true := by
  induction n generalizing s with
  | zero => rw [isWritable, hnarrow s h]; rfl
  | succ n ih =>
      rw [isWritable, hnarrow s h]
      cases hs : s.step page with
      | none => rfl
      | some t => exact ih (hstep s t hs h)

theorem State.isWritable_of_holds (page : Page) (n : Nat) {s : State}
    (h : s.Holds Doc.isWritable) : s.isWritable page n = true :=
  isWritable_of_step (fun _ _ => holds_step fillClosed_isWritable)
    (fun _ => isTooWide_of_holds) n h

/-- A document is rendered if no step of indentation in it is too wide for a text. -/
theorem render?_of_isWritable {page : Page} {d : Doc} (htab : Text.canHoldBlanks page.tab = true)
    (hd : d.every Doc.isWritable = true) : render? page d = some (render page d) := by
  have hsettled : d.propagateBreaks.every Doc.isWritable = true :=
    Doc.every_settle Doc.isWritable_settle d hd
  rw [render?, htab, isWritable_of_holds page _ (holds_start hsettled)]
  rfl

end Layout

end RubyPretty
