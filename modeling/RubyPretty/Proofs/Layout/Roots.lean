import RubyPretty.Proofs.Doc.Rebuilt
import RubyPretty.Proofs.Layout.Pieces
import RubyPretty.Proofs.Text.Lines
/-!
# Lines at a root

A literal line end starts the next line at the root of its chunk, and a line that stays empty loses
this padding again. So lines that are written one after the other with literal line ends stand at
the root, except for the empty ones (`reaches_rows`). What the machine would keep if the line ended
literally (`kept`) does not count the padding, and grows by one line at a time.

A body of such lines that is held back goes below its opener at the end of the line, one level
further in than the terminator (`render_reindented`).
-/

namespace RubyPretty

namespace Doc

def nested : Nat → Doc → Doc
  | 0, d => d
  | n + 1, d => .indent (nested n d)

theorem isSettled_nested {d : Doc} (h : d.IsSettled) (n : Nat) : (nested n d).IsSettled := by
  induction n with
  | zero => exact h
  | succ n ih => exact (isSettled_indent _).mpr ih

theorem isSettled_ofParts {ds : List Doc} (h : ∀ d ∈ ds, d.IsSettled) : (ofParts ds).IsSettled := by
  rw [IsSettled, settle_ofParts, List.map_congr_left h, List.map_id']

theorem isSettled_cat {ds : List Doc} (h : ∀ d ∈ ds, d.IsSettled) : (cat ds).IsSettled := by
  rw [IsSettled, settle_cat]
  show cat (ds.map fun d => (settle d).1) = cat ds
  rw [List.map_congr_left h, List.map_id']

def rows (ls : List String) : List Doc := ls.flatMap fun l => .literalLine :: (ofString l).parts

theorem rows_cons (l : String) (ls : List String) :
    rows (l :: ls) = .literalLine :: (ofString l).parts ++ rows ls := List.flatMap_cons

theorem eq_text_of_mem_parts {s : String} {d : Doc} (h : d ∈ (ofString s).parts) :
    d = .text s := by
  unfold ofString at h
  split at h
  · cases h
  · exact List.mem_singleton.mp h

theorem of_mem_rows {ls : List String} {d : Doc} (h : d ∈ rows ls) :
    (∃ l, d = .text l) ∨ d = .literalLine := by
  obtain ⟨l, -, hd⟩ := List.mem_flatMap.mp h
  rcases List.mem_cons.mp hd with hd | hd
  · exact .inr hd
  · exact .inl ⟨l, eq_text_of_mem_parts hd⟩

theorem ofParts_rows_ne_empty {ls : List String} (hne : ls ≠ []) : ofParts (rows ls) ≠ .empty := by
  obtain ⟨l, ls, rfl⟩ := List.exists_cons_of_ne_nil hne
  rw [rows_cons, List.cons_append]
  intro h
  cases hrest : (ofString l).parts ++ rows ls with
  | nil | cons =>
      rw [hrest] at h
      cases h

/-- Strings with a separator between each two and in front, as the parts of a row. -/
theorem cons_intersperse {sep : Doc} (hsep : sep.parts = [sep]) {ls : List String} (hne : ls ≠ []) :
    sep :: ((ls.map ofString).intersperse sep).flatMap parts =
      ls.flatMap fun l => sep :: (ofString l).parts := by
  induction ls with
  | nil => exact absurd rfl hne
  | cons l ls ih =>
      cases ls with
      | nil => simp
      | cons next ls =>
          rw [List.flatMap_cons, ← ih (List.cons_ne_nil _ _), List.map_cons, List.map_cons,
            List.intersperse_cons_cons, List.flatMap_cons, List.flatMap_cons, hsep]
          rfl

theorem cat_literalLine_verbatim (s : String) :
    cat [literalLine, verbatim s] = ofParts (rows (Text.lines s)) := by
  have hrows :
      literalLine :: (((Text.lines s).map ofString).intersperse literalLine).flatMap parts =
        rows (Text.lines s) := cons_intersperse rfl (Text.lines_ne_nil s)
  have hparts : (verbatim s).parts =
      (((Text.lines s).map ofString).intersperse literalLine).flatMap parts := by
    rw [verbatim, joined, cat]
    cases hlist : (((Text.lines s).map ofString).intersperse literalLine).flatMap parts with
    | nil => rfl
    | cons d ds =>
        have hmem : d ∈ rows (Text.lines s) := by
          rw [← hrows, hlist]
          exact List.mem_cons_of_mem _ List.mem_cons_self
        have hself : d.parts = [d] := by
          rcases of_mem_rows hmem with ⟨l, rfl⟩ | rfl <;> rfl
        exact parts_ofParts List.mem_cons_self hself
  rw [← hrows, ← hparts, cat, List.flatMap_cons, List.flatMap_singleton]
  rfl

end Doc

namespace Layout.State

variable {page : Page} {s t : State}

/-! ## Steps on wrappings -/

/-- Documents as chunks in one place. -/
def placed (indent root : Nat) (ds : List Doc) : List Chunk :=
  ds.map fun d => ⟨d, indent, root, false⟩

theorem push_placed_append (s : State) (indent root : Nat) (ds es : List Doc) :
    s.push (placed indent root (ds ++ es)) =
      (s.push (placed indent root es)).push (placed indent root ds) := by
  rw [placed, List.map_append, push, List.append_assoc]
  rfl

theorem reaches_ofParts (page : Page) (s : State) (ds : List Doc) (indent root : Nat) :
    Reaches page (s.push [⟨.ofParts ds, indent, root, false⟩])
      (s.push (placed indent root ds)) := by
  match ds with
  | [] => exact .single rfl
  | [d] => exact .refl
  | d :: e :: ds => exact .single rfl

theorem reaches_parts_of (page : Page) (s : State) (d : Doc) (indent root : Nat) :
    Reaches page (s.push [⟨d, indent, root, false⟩]) (s.push (placed indent root d.parts)) := by
  cases d with
  | empty | seq => exact .single rfl
  | _ => exact .refl

theorem reaches_nested (page : Page) (s : State) (d : Doc) (n indent root : Nat) :
    Reaches page (s.push [⟨.nested n d, indent, root, false⟩])
      (s.push [⟨d, indent + n * page.tab.toNat, root, false⟩]) := by
  induction n generalizing indent with
  | zero =>
      rw [Nat.zero_mul]
      exact .refl
  | succ n ih =>
      have hindent := ih (indent + page.tab.toNat)
      rw [Nat.add_assoc, Nat.add_comm page.tab.toNat, ← Nat.succ_mul] at hindent
      exact .head rfl hindent

theorem reaches_parts_nested (page : Page) (s : State) (d : Doc) (n indent root : Nat) :
    Reaches page (s.push (placed indent root (Doc.nested n d).parts))
      (s.push (placed (indent + n * page.tab.toNat) root d.parts)) := by
  cases n with
  | zero =>
      rw [Nat.zero_mul]
      exact .refl
  | succ n =>
      exact (reaches_nested page s d (n + 1) indent root).trans (reaches_parts_of page s d _ _)

/-! ## Line ends -/

theorem take_hardlineAt (hfree : s.suffixes = []) (indent root : Nat) :
    s.take page ⟨.hardline, indent, root, false⟩ =
      s.endIndented ⟨.hardline, indent, root, false⟩ := by
  rcases take_newline s page ⟨.hardline, indent, root, false⟩ rfl with
    ⟨h, -, -⟩ | ⟨-, ⟨hsome, -⟩ | ⟨-, h, -⟩ | ⟨-, -, he⟩⟩
  · cases h
  · exact absurd hfree hsome
  · cases h
  · exact he

theorem take_literalLine (hfree : s.suffixes = []) (indent root : Nat) :
    s.take page ⟨.literalLine, indent, root, false⟩ =
      s.endLiteral ⟨.literalLine, indent, root, false⟩ := by
  rcases take_newline s page ⟨.literalLine, indent, root, false⟩ rfl with
    ⟨h, -, -⟩ | ⟨-, ⟨hsome, -⟩ | ⟨-, -, he⟩ | ⟨-, h, -⟩⟩
  · cases h
  · exact absurd hfree hsome
  · exact he
  · cases h

theorem reaches_hardline (page : Page) (hfree : s.suffixes = []) (indent root : Nat) :
    Reaches page (s.push [⟨.hardline, indent, root, false⟩])
      (s.endIndented ⟨.hardline, indent, root, false⟩) := by
  have hend := step_push s page ⟨.hardline, indent, root, false⟩
  rw [take_hardlineAt hfree] at hend
  exact .single hend

/-- What stays of the text if the line ends with a literal line end: all but the padding. -/
def kept (s : State) : List Char := s.out.drop (s.padding.getD 0)

theorem kept_endLiteral (s : State) (chunk : Chunk) :
    (s.endLiteral chunk).kept = '\n' :: s.kept := by
  show (List.replicate chunk.root ' ' ++ '\n' :: s.kept).drop chunk.root = _
  exact List.drop_left' List.length_replicate

/-! ## Lines -/

/-- A line at a root; an empty one has no padding. -/
def rootLine (root : Nat) (l : String) : String :=
  if l = "" then "" else Text.blanks root ++ l

def rowsText (root : Nat) (ls : List String) : List Char :=
  ls.flatMap fun l => '\n' :: (rootLine root l).toList

theorem not_mem_rootLine (root : Nat) {l : String} (h : '\n' ∉ l.toList) :
    '\n' ∉ (rootLine root l).toList := by
  by_cases hl : l = ""
  · rw [rootLine, if_pos hl]
    exact List.not_mem_nil
  · rw [rootLine, if_neg hl, String.toList_append, List.mem_append, not_or, Text.blanks,
      String.toList_ofList]
    exact ⟨not_mem_blanks _, h⟩

/-- The machine has written characters behind what it keeps, and waits for nothing. -/
structure Rooted (x : List Char) (s t : State) : Prop where
  stack : t.stack = s.stack
  free : t.suffixes = []
  kept : t.kept = x.reverse ++ s.kept

theorem Rooted.append {x y : List Char} {u : State} (hst : Rooted x s t) (htu : Rooted y t u) :
    Rooted (x ++ y) s u where
  stack := htu.stack.trans hst.stack
  free := htu.free
  kept := by rw [htu.kept, hst.kept, List.reverse_append, List.append_assoc]

theorem reaches_row (page : Page) (hfree : s.suffixes = []) (indent root : Nat) (l : String) :
    ∃ t, Reaches page (s.push (placed indent root (.literalLine :: (Doc.ofString l).parts))) t ∧
      Rooted ('\n' :: (rootLine root l).toList) s t ∧ (l ≠ "" → t.padding = none) := by
  have hend := step_push (s.push (placed indent root (Doc.ofString l).parts)) page
    ⟨.literalLine, indent, root, false⟩
  rw [take_literalLine (s := s.push _) hfree] at hend
  by_cases hl : l = ""
  · subst hl
    exact ⟨_, .single hend, ⟨rfl, hfree, kept_endLiteral s _⟩, fun h => absurd rfl h⟩
  · rw [Doc.ofString, if_neg hl] at hend ⊢
    refine ⟨_, .tail (.single hend) rfl, ⟨rfl, hfree, ?_⟩, fun _ => rfl⟩
    rw [rootLine, if_neg hl]
    show l.toList.reverse ++ (List.replicate root ' ' ++ '\n' :: s.kept) = _
    simp [Text.blanks, String.toList_append, List.reverse_append]

/-- Lines with literal line ends are written at the root, and the empty ones stay empty. -/
theorem reaches_rows (page : Page) (hfree : s.suffixes = []) (indent root : Nat)
    (ls : List String) :
    ∃ t, Reaches page (s.push (placed indent root (Doc.rows ls))) t ∧
      Rooted (rowsText root ls) s t ∧
      ((∃ l ∈ ls.getLast?, l ≠ "") → t.padding = none) := by
  induction ls generalizing s with
  | nil => exact ⟨s, .refl, ⟨rfl, hfree, rfl⟩, fun ⟨_, h, _⟩ => by cases h⟩
  | cons l ls ih =>
      obtain ⟨t, hreaches, hrow, hink⟩ :=
        reaches_row (s := s.push (placed indent root (Doc.rows ls))) page hfree indent root l
      rw [Doc.rows_cons, push_placed_append, rowsText, List.flatMap_cons]
      cases ls with
      | nil =>
          refine ⟨t, hreaches, ?_, fun ⟨m, hm, hne⟩ => ?_⟩
          · rw [List.flatMap_nil, List.append_nil]
            exact hrow
          · obtain rfl := Option.some.inj hm
            exact hink hne
      | cons next ls =>
          -- the other lines come next, on a stack like the one of the first line
          have hfirst : Rooted _ s { t with stack := s.stack } := ⟨rfl, hrow.free, hrow.kept⟩
          obtain ⟨u, hreaches', hrows, hlast⟩ := ih hfirst.free
          rw [push_of_stack hrow.stack] at hreaches'
          exact ⟨u, hreaches.trans hreaches', hfirst.append hrows, hlast⟩

/-! ## A body and its terminator -/

theorem lays_string (page : Page) (x : String) (indent root : Nat) :
    Lays page (placed indent root (Doc.ofString x).parts) x.toList [] := by
  by_cases hx : x = ""
  · rw [Doc.ofString, if_pos hx, hx]
    exact lays_nil
  · rw [Doc.ofString, if_neg hx]
    exact lays_text x indent root false

/-- A text ends in something else than a blank. -/
def EndsInInk (x : List Char) : Prop := ∃ c ∈ x.getLast?, isTrailingBlank c = false

theorem EndsInInk.append_left {y : List Char} (h : EndsInInk y) (x : List Char) :
    EndsInInk (x ++ y) := by
  obtain ⟨c, hc, hink⟩ := h
  refine ⟨c, ?_, hink⟩
  rw [List.getLast?_append, hc]
  rfl

theorem EndsInInk.dropWhile_eq {x : List Char} (h : EndsInInk x) (before : List Char) :
    (x.reverse ++ before).dropWhile isTrailingBlank = x.reverse ++ before := by
  obtain ⟨c, hc, hink⟩ := h
  obtain ⟨start, rfl⟩ := List.getLast?_eq_some_iff.mp hc
  rw [List.reverse_append]
  exact List.dropWhile_cons_of_neg (by rw [hink]; exact Bool.false_ne_true)

theorem ne_empty_of_endsInInk {l : String} (h : EndsInInk l.toList) : l ≠ "" := by
  rintro rfl
  obtain ⟨c, hc, -⟩ := h
  cases hc

theorem endsInInk_rows {ls : List String} {l : String} (hlast : ls.getLast? = some l)
    (hink : EndsInInk l.toList) (root : Nat) :
    EndsInInk (rowsText root ls) := by
  obtain ⟨init, rfl⟩ := List.getLast?_eq_some_iff.mp hlast
  rw [rowsText, List.flatMap_append, List.flatMap_singleton, rootLine,
    if_neg (ne_empty_of_endsInInk hink), String.toList_append]
  exact EndsInInk.append_left (hink.append_left ('\n' :: (Text.blanks root).toList)) _

theorem reaches_indentedRows (page : Page) (hfree : s.suffixes = []) (hpad : s.padding = none)
    {ls : List String} {l : String} (hlast : ls.getLast? = some l) (hne : l ≠ "")
    (indent root : Nat) :
    ∃ t, Reaches page (s.push [⟨.indent (.root (.ofParts (Doc.rows ls))), indent, root, false⟩]) t ∧
      t.stack = s.stack ∧ t.suffixes = [] ∧
      t.out = (rowsText (indent + page.tab.toNat) ls).reverse ++ s.out := by
  let column := indent + page.tab.toNat
  obtain ⟨t, hrows, hrooted, hpadding⟩ := reaches_rows page hfree column column ls
  have hinside : Reaches page
      (s.push [⟨.indent (.root (.ofParts (Doc.rows ls))), indent, root, false⟩])
      (s.push [⟨.ofParts (Doc.rows ls), column, column, false⟩]) :=
    .head (step_push s page _) (.single (step_push s page _))
  have hparts := reaches_ofParts page s (Doc.rows ls) column column
  refine ⟨t, (hinside.trans hparts).trans hrows, hrooted.stack, hrooted.free, ?_⟩
  have hkept := hrooted.kept
  rwa [kept, hpadding ⟨l, hlast, hne⟩, kept, hpad] at hkept

def reindented (ls : List String) (closing : String) : Doc :=
  .cat [.indent (.root (.ofParts (Doc.rows ls))), .hardline, .ofString closing]

theorem reindented_eq (ls : List String) (closing : String) :
    reindented ls closing =
      .ofParts (.indent (.root (.ofParts (Doc.rows ls))) :: .hardline ::
        (Doc.ofString closing).parts) := by
  rw [reindented, Doc.cat, List.flatMap_cons, List.flatMap_cons, List.flatMap_singleton]
  rfl

/-- The lines of a body are written at the root, and the terminator in its own column. -/
theorem reaches_reindented (page : Page) (hfree : s.suffixes = []) (hpad : s.padding = none)
    {ls : List String} {l : String} (hlast : ls.getLast? = some l) (hink : EndsInInk l.toList)
    (closing : String) (indent root : Nat) :
    ∃ t, Reaches page (s.push [⟨reindented ls closing, indent, root, false⟩]) t ∧
      t.stack = s.stack ∧ t.suffixes = [] ∧
      t.out = (rowsText (indent + page.tab.toNat) ls ++
        '\n' :: (Text.blanks indent ++ closing).toList).reverse ++ s.out := by
  -- the state below the body: the line end and the terminator wait on the stack
  let below := s.push (placed indent root (Doc.ofString closing).parts)
  obtain ⟨t, hbody, hstack, hnone, hout⟩ := reaches_indentedRows
    (s := below.push [⟨.hardline, indent, root, false⟩]) page hfree hpad hlast
    (ne_empty_of_endsInInk hink) indent root
  have hend := reaches_hardline (s := { t with stack := below.stack }) page hnone indent root
  rw [push_of_stack hstack] at hend
  obtain ⟨u, hclosing, hadds⟩ := lays_string page closing indent root
    { t.endIndented ⟨.hardline, indent, root, false⟩ with stack := s.stack }
  refine ⟨u, ?_, hadds.stack, ?_, ?_⟩
  · have hparts := reaches_ofParts page s (.indent (.root (.ofParts (Doc.rows ls))) ::
      .hardline :: (Doc.ofString closing).parts) indent root
    rw [← reindented_eq] at hparts
    exact ((hparts.trans hbody).trans hend).trans hclosing
  · rw [hadds.suffixes, List.append_nil]
    exact hnone
  · -- no blank is taken back at the end of the last line
    have hdrop := (endsInInk_rows hlast hink (indent + page.tab.toNat)).dropWhile_eq s.out
    rw [show _ ++ s.out = t.out from hout.symm] at hdrop
    rw [hadds.out]
    show closing.toList.reverse ++ (List.replicate indent ' ' ++ '\n' ::
      t.out.dropWhile isTrailingBlank) = _
    rw [hdrop, hout]
    simp [Text.blanks, String.toList_append, below]

/-! ## The line with the opener -/

theorem flush_singleton {c : Chunk} (h : s.suffixes = [c]) :
    s.flush = { s with suffixes := [] }.push [c] := by
  cases hforced : c.doc.hasForcedBreak <;> simp [flush, push, h, hforced]

theorem reaches_flushed (page : Page) {c : Chunk} (hheld : s.suffixes = [c]) (indent root : Nat) :
    Reaches page (s.push [⟨.hardline, indent, root, false⟩])
      (({ s with suffixes := [] }.push [⟨.hardline, indent, root, false⟩]).push [c]) := by
  have hstep := step_push s page ⟨.hardline, indent, root, false⟩
  have hne : s.suffixes ≠ [] := by
    rw [hheld]
    exact List.cons_ne_nil _ _
  rcases take_newline s page ⟨.hardline, indent, root, false⟩ rfl with
    ⟨h, -, -⟩ | ⟨-, ⟨-, he⟩ | ⟨hnone, -⟩ | ⟨hnone, -⟩⟩
  · cases h
  · rw [he, flush_singleton (s := s.push _) hheld] at hstep
    exact .single hstep
  · exact absurd hnone hne
  · exact absurd hnone hne

/-- The machine on a new line with an opener, which holds a document back. -/
def opened (s : State) (indent root : Nat) (opening : String) (d : Doc) : State :=
  { (s.endIndented ⟨.hardline, indent, root, false⟩).write opening with
    suffixes := s.suffixes ++ [⟨d, indent, root, false⟩] }

theorem reaches_opened (page : Page) (hfree : s.suffixes = []) (indent root : Nat)
    (opening : String) (d : Doc) :
    Reaches page (s.push (placed indent root [.hardline, .text opening, .suffix d]))
      (s.opened indent root opening d) := by
  let held : Chunk := ⟨.suffix d, indent, root, false⟩
  have hend := reaches_hardline
    (s := s.push (placed indent root [.text opening, .suffix d])) page hfree indent root
  generalize hs : s.endIndented ⟨.hardline, indent, root, false⟩ = begun
  have hline : Reaches page (begun.push (placed indent root [.text opening, .suffix d]))
      ((begun.write opening).take page held) :=
    .head (step_push (begun.push [held]) page _)
      (.single (step_push (begun.write opening) page held))
  subst hs
  exact hend.trans hline

/-- At the end of its line the body of an opener is written, with its terminator. -/
theorem reaches_closed (page : Page) (hfree : s.suffixes = []) {ls : List String} {l : String}
    (hlast : ls.getLast? = some l) (hink : EndsInInk l.toList) (opening closing : String)
    (indent root outside : Nat) :
    ∃ t, Reaches page
        ((s.opened indent root opening (reindented ls closing)).push
          [⟨.hardline, outside, root, false⟩]) t ∧
      t.stack = s.stack ∧ t.suffixes = [] ∧
      t.out = List.replicate outside ' ' ++ '\n' ::
        ((rowsText (indent + page.tab.toNat) ls ++
          '\n' :: (Text.blanks indent ++ closing).toList).reverse ++
            (s.opened indent root opening (reindented ls closing)).out).dropWhile
              isTrailingBlank := by
  generalize hw : s.opened indent root opening (reindented ls closing) = waiting
  have hheld : waiting.suffixes = [⟨reindented ls closing, indent, root, false⟩] := by
    rw [← hw, opened, hfree]
    rfl
  have hflush := reaches_flushed page hheld outside root
  obtain ⟨t, hbody, hstack, hnone, hout⟩ := reaches_reindented
    (s := { waiting with suffixes := [] }.push [⟨.hardline, outside, root, false⟩]) page rfl
    (by rw [← hw]; rfl) hlast hink closing indent root
  have hend := reaches_hardline (s := { t with stack := waiting.stack }) page hnone outside root
  rw [push_of_stack hstack] at hend
  refine ⟨_, (hflush.trans hbody).trans hend, ?_, hnone, ?_⟩
  · rw [← hw]
    rfl
  · show List.replicate outside ' ' ++ '\n' :: t.out.dropWhile isTrailingBlank = _
    rw [hout]
    rfl

theorem forall_mem_reindented {P : Doc → Prop} {ls : List String} {closing : String}
    (hbody : P (.indent (.root (.ofParts (Doc.rows ls))))) (hend : P .hardline)
    (htext : ∀ x, P (.text x)) :
    ∀ d ∈ .indent (.root (.ofParts (Doc.rows ls))) :: .hardline :: (Doc.ofString closing).parts,
      P d := by
  refine List.forall_mem_cons.mpr ⟨hbody, List.forall_mem_cons.mpr ⟨hend, fun d hd => ?_⟩⟩
  rw [Doc.eq_text_of_mem_parts hd]
  exact htext closing

theorem isSettled_reindented (ls : List String) (closing : String) :
    (reindented ls closing).IsSettled := by
  have hrows : (Doc.ofParts (Doc.rows ls)).IsSettled := by
    refine Doc.isSettled_ofParts fun d hd => ?_
    rcases Doc.of_mem_rows hd with ⟨l, rfl⟩ | rfl <;> rfl
  rw [reindented_eq]
  exact Doc.isSettled_ofParts (forall_mem_reindented
    ((Doc.isSettled_indent _).mpr ((Doc.isSettled_root _).mpr hrows)) rfl fun _ => rfl)

theorem isWritable_reindented (ls : List String) (closing : String) :
    (reindented ls closing).every Doc.isWritable = true := by
  have hrows : (Doc.ofParts (Doc.rows ls)).every Doc.isWritable = true := by
    refine Doc.every_ofParts rfl (fun _ => rfl) fun d hd => ?_
    rcases Doc.of_mem_rows hd with ⟨l, rfl⟩ | rfl <;> rfl
  rw [reindented_eq]
  exact Doc.every_ofParts rfl (fun _ => rfl) (forall_mem_reindented hrows rfl fun _ => rfl)

end Layout.State

/-! ## A line of its own -/

/-- A document behind a line end, some levels in, where the line may end further out. -/
def Doc.ownLine (outer inner : Nat) (d : Doc) : Doc :=
  nested outer (.cat [nested inner (.cat [.hardline, d]), .hardline])

theorem Doc.isSettled_ownLine {d : Doc} (h : d.IsSettled) (outer inner : Nat) :
    (ownLine outer inner d).IsSettled := by
  have hend : hardline.IsSettled := rfl
  have hline : (cat [.hardline, d]).IsSettled :=
    isSettled_cat (List.forall_mem_cons.mpr ⟨hend, List.forall_mem_singleton.mpr h⟩)
  exact isSettled_nested (isSettled_cat (List.forall_mem_cons.mpr
    ⟨isSettled_nested hline inner, List.forall_mem_singleton.mpr hend⟩)) outer

theorem Doc.isWritable_nested {d : Doc} (h : d.every isWritable = true) (n : Nat) :
    (nested n d).every isWritable = true := by
  induction n with
  | zero => exact h
  | succ n ih => exact ih

theorem Doc.isWritable_ownLine {d : Doc} (h : d.every isWritable = true) (outer inner : Nat) :
    (ownLine outer inner d).every isWritable = true := by
  have hline : (cat [.hardline, d]).every isWritable = true :=
    every_cat rfl (fun _ => rfl) (List.forall_mem_cons.mpr ⟨rfl, List.forall_mem_singleton.mpr h⟩)
  exact isWritable_nested (every_cat rfl (fun _ => rfl) (List.forall_mem_cons.mpr
    ⟨isWritable_nested hline inner, List.forall_mem_singleton.mpr rfl⟩)) outer

namespace Layout

open State

theorem rowsText_append_lineFeed (root : Nat) (ls : List String) :
    rowsText root ls ++ ['\n'] = '\n' :: (Text.unlines (ls.map (rootLine root))).toList := by
  induction ls with
  | nil => rfl
  | cons l ls ih =>
      rw [rowsText] at ih ⊢
      rw [List.flatMap_cons, List.append_assoc, ih, Text.unlines, Text.unlines, List.map_cons,
        List.map_cons, String.join_cons, String.toList_append, String.toList_append,
        List.append_assoc]
      rfl

theorem reverse_dropWhile_lastLine (before body last : List Char) :
    (((body ++ '\n' :: last).reverse ++ before).dropWhile isTrailingBlank).reverse =
      before.reverse ++ (body ++ ['\n'] ++ Text.dropEndWhile isTrailingBlank last) := by
  have hreverse : (body ++ '\n' :: last).reverse ++ before =
      last.reverse ++ '\n' :: (body.reverse ++ before) := by simp
  rw [hreverse, dropWhile_append_cons rfl, Text.dropEndWhile]
  simp

theorem reaches_ownLine (page : Page) {d : Doc} (h : d.IsSettled) (outer inner : Nat) :
    Reaches page (start (Doc.ownLine outer inner d).propagateBreaks)
      (((fresh []).push [⟨.hardline, outer * page.tab.toNat, 0, false⟩]).push
        (placed ((outer + inner) * page.tab.toNat) 0 (.hardline :: d.parts))) := by
  let outside := outer * page.tab.toNat
  let line : Doc := .cat [.hardline, d]
  have hline : line.parts = .hardline :: d.parts := by
    show (Doc.cat [.hardline, d]).parts = _
    rw [Doc.cat, List.flatMap_cons, List.flatMap_singleton]
    exact Doc.parts_ofParts List.mem_cons_self rfl
  have houter := reaches_nested page (fresh []) (.cat [.nested inner line, .hardline]) outer 0 0
  have hrow := reaches_ofParts page (fresh []) ((Doc.nested inner line).parts ++ [.hardline])
    outside 0
  have hinner := reaches_parts_nested page ((fresh []).push [⟨.hardline, outside, 0, false⟩]) line
    inner outside 0
  rw [Nat.zero_add] at houter
  rw [push_placed_append] at hrow
  rw [← Nat.add_mul, hline] at hinner
  rw [Doc.propagateBreaks, Doc.isSettled_ownLine h]
  exact (houter.trans hrow).trans hinner

/-- An opener on its own line is followed by its lines, one level further in, and its terminator. -/
theorem render_reindented (page : Page) {ls : List String} {l : String}
    (hlast : ls.getLast? = some l) (hink : EndsInInk l.toList) (opening closing : String)
    (outer inner : Nat) :
    render page (.ownLine outer inner (.seq [.text opening, .suffix (reindented ls closing)])) =
      "\n" ++ Text.blanks ((outer + inner) * page.tab.toNat : Nat) ++ opening ++ "\n" ++
        Text.unlines (ls.map (rootLine ((outer + inner + 1) * page.tab.toNat))) ++
        Text.trimEndOf isTrailingBlank
          (Text.blanks ((outer + inner) * page.tab.toNat : Nat) ++ closing) ++
        "\n" ++ Text.blanks (outer * page.tab.toNat : Nat) := by
  let indent := (outer + inner) * page.tab.toNat
  let outside := outer * page.tab.toNat
  have hsettled : (Doc.seq [.text opening, .suffix (reindented ls closing)]).IsSettled := by
    refine (Doc.isSettled_seq _).mpr (List.forall_mem_cons.mpr ⟨rfl, ?_⟩)
    exact List.forall_mem_singleton.mpr
      ((Doc.isSettled_suffix _).mpr (isSettled_reindented ls closing))
  have hdown := reaches_ownLine page hsettled outer inner
  have hopened := reaches_opened (s := (fresh []).push [⟨.hardline, outside, 0, false⟩]) page rfl
    indent 0 opening (reindented ls closing)
  obtain ⟨t, hclosed, hstack, hnone, hout⟩ := reaches_closed (s := fresh []) page rfl hlast hink
    opening closing indent 0 outside
  have hopening : (State.opened (fresh []) indent 0 opening (reindented ls closing)).out.reverse =
      ("\n" ++ Text.blanks indent ++ opening).toList := by
    show (opening.toList.reverse ++ (List.replicate indent ' ' ++ ['\n'])).reverse = _
    simp [Text.blanks, String.toList_append]
  rw [← String.toList_inj,
    toList_render_of_reaches ((hdown.trans hopened).trans hclosed) hstack hnone, hout,
    List.reverse_append, List.reverse_cons, reverse_dropWhile_lastLine, hopening,
    rowsText_append_lineFeed, ← Nat.succ_mul]
  simp only [String.toList_append, Text.trimEndOf, String.toList_ofList, Text.blanks,
    List.reverse_replicate, List.append_assoc]
  rfl

end Layout

end RubyPretty
