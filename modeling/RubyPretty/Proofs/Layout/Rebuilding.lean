import Mathlib.Data.List.Basic
import RubyPretty.Proofs.Doc.Rebuilt
import RubyPretty.Proofs.Layout.FlatGroups
import RubyPretty.Proofs.Layout.Verbatim
/-!
# Building a document anew does not change its layout

Two machines run side by side, one on a document and one on the document built anew. Their stacks do
not match chunk by chunk: rows have been joined, what comes to nothing is gone, and of two groups
around each other one is left. They do match once both are opened, that is, once rows and the groups
that flat mode goes through are taken apart (`Similar`). The look-ahead does not see the difference,
so both machines decide alike. Each step of the first is then a step of the second, or the second
waits (`answers_take`), and both write the same text.
-/

namespace RubyPretty

namespace Doc

mutual

/-- The documents that a document is taken apart into before anything is written or decided. In flat
mode these are also those in a group, unless it has a name or a mark. -/
def opened (flat : Bool) : Doc → List Doc
  | .empty => []
  | .seq ds => openedAll flat ds
  | .group d id broken =>
      if flat && (id.isNone && !broken) then opened flat d else [.group d id broken]
  | d => [d]

def openedAll (flat : Bool) : List Doc → List Doc
  | [] => []
  | d :: ds => opened flat d ++ openedAll flat ds

end

theorem openedAll_eq (flat : Bool) (ds : List Doc) :
    openedAll flat ds = ds.flatMap (opened flat) := by
  induction ds with
  | nil => rfl
  | cons d ds ih => rw [openedAll, ih, List.flatMap_cons]

theorem opened_seq (flat : Bool) (ds : List Doc) :
    (seq ds).opened flat = ds.flatMap (opened flat) := openedAll_eq flat ds

theorem opened_flat_group (d : Doc) : (group d none false).opened true = d.opened true := rfl

theorem opened_cat (flat : Bool) (ds : List Doc) :
    (cat ds).opened flat = ds.flatMap (opened flat) :=
  flatMap_cat rfl (opened_seq flat) ds

end Doc

namespace Layout

open Doc (opened)

/-! ## Look-ahead over opened documents -/

section Scan

variable {modes : Modes} {flat : Bool}

theorem scanAll_append (room : Nat) (ds es : List Doc) :
    scanAll modes flat room (ds ++ es) =
      (scanAll modes flat room ds).andThen fun room => scanAll modes flat room es := by
  induction ds generalizing room with
  | nil => rfl
  | cons d ds ih =>
      rw [List.cons_append, scanAll_cons, scanAll_cons, Scan.andThen_assoc]
      exact Scan.andThen_congr _ ih

theorem scanAll_singleton (room : Nat) (d : Doc) :
    scanAll modes flat room [d] = scan modes flat room d := by
  rw [scanAll_cons]
  cases scan modes flat room d <;> rfl

theorem scanAll_flatMap {g : Doc → List Doc} {ds : List Doc}
    (h : ∀ d ∈ ds, ∀ room, scanAll modes flat room (g d) = scan modes flat room d) (room : Nat) :
    scanAll modes flat room (ds.flatMap g) = scanAll modes flat room ds := by
  induction ds generalizing room with
  | nil => rfl
  | cons d ds ih =>
      rw [List.flatMap_cons, scanAll_append, scanAll_cons, h d List.mem_cons_self]
      exact Scan.andThen_congr _ (ih fun e he => h e (List.mem_cons_of_mem d he))

theorem scanAll_map {g : Doc → Doc} {ds : List Doc}
    (h : ∀ d ∈ ds, ∀ room, scan modes flat room (g d) = scan modes flat room d) (room : Nat) :
    scanAll modes flat room (ds.map g) = scanAll modes flat room ds := by
  rw [List.map_eq_flatMap]
  apply scanAll_flatMap
  intro d hd room
  rw [scanAll_singleton, h d hd]

theorem scanAll_opened (d : Doc) (room : Nat) :
    scanAll modes flat room (d.opened flat) = scan modes flat room d := by
  induction d using Doc.induction generalizing room with
  | empty => rfl
  | seq ds ih =>
      rw [Doc.opened_seq]
      exact scanAll_flatMap ih room
  | group d id broken ih =>
      rw [Doc.opened]
      split
      · next h =>
          rw [Bool.and_eq_true, Bool.and_eq_true, Bool.not_eq_true'] at h
          rw [ih, scan, h.2.2, Bool.not_false, Bool.and_true]
      · exact scanAll_singleton room _
  | _ => exact scanAll_singleton room _

theorem scan_cat (room : Nat) (ds : List Doc) :
    scan modes flat room (Doc.cat ds) = scanAll modes flat room ds := by
  rw [← scanAll_opened, Doc.opened_cat]
  exact scanAll_flatMap (fun d _ room => scanAll_opened d room) room

theorem scan_tidied (modes : Modes) (d : Doc) (h : d.every Doc.isMarkedRight = true) (flat : Bool)
    (room : Nat) :
    scan modes flat room d.tidied = scan modes flat room d := by
  have hcat {e : Doc} (he : ∀ flat room, scan modes flat room e.tidied = scan modes flat room e)
      (flat : Bool) (room : Nat) :
      scan modes flat room (Doc.cat [e.tidied]) = scan modes flat room e := by
    rw [scan_cat, scanAll_singleton, he]
  induction d using Doc.induction generalizing flat room with
  | empty | text | newline | breakParent => rfl
  | seq ds ih =>
      rw [Doc.tidied_seq, scan_cat]
      exact scanAll_map (fun d hd room => ih d hd (Doc.every_seq h d hd) flat room) room
  | fill ds ih =>
      rw [Doc.tidied_fill]
      rcases Doc.filled_cases (ds.map Doc.tidied) with ⟨hnil, he⟩ | ⟨-, he⟩
      · rw [he, List.map_eq_nil_iff.mp hnil]
        rfl
      · rw [he]
        exact scanAll_map (fun d hd room => ih d hd (Doc.every_fill h d hd) flat room) room
  | indent d ih =>
      rw [Doc.every, Bool.and_eq_true] at h
      exact (Doc.apply_indented (f := scan modes flat room) (fun _ => rfl) _).trans
        (hcat (ih h.2) flat room)
  | align n d ih =>
      rw [Doc.every, Bool.and_eq_true] at h
      exact (Doc.apply_aligned (f := scan modes flat room) (fun _ _ => rfl) n _).trans
        (hcat (ih h.2) flat room)
  | root d ih =>
      rw [Doc.every, Bool.and_eq_true] at h
      exact (Doc.apply_rooted (f := scan modes flat room) (fun _ => rfl) _).trans
        (hcat (ih h.2) flat room)
  | suffix d ih =>
      show scan modes flat room (Doc.suffixed [d.tidied]) = .left room
      rcases Doc.suffixed_cases [d.tidied] with ⟨-, he⟩ | he
      · rw [he]
        rfl
      · rw [he]
        rfl
  | group d id broken ih =>
      rw [Doc.every, Bool.and_eq_true, Doc.isMarkedRight, Bool.and_eq_true, beq_iff_eq] at h
      show scan modes flat room (Doc.regrouped id broken d.tidied) =
        scan modes (flat && !broken) room d
      rw [← hcat (ih h.2)]
      rcases Doc.regrouped_cases id broken d.tidied with
        ⟨hempty, he⟩ | ⟨⟨e, id', broken', hgroup⟩, he⟩ | he
      · rw [he, hempty]
        rfl
      · -- both groups are marked or none is
        have hmark := (Doc.lone_group_tidied h.2 hgroup).2
        rw [he, hgroup, scan, scan, hmark, h.1.2, Bool.and_assoc, Bool.and_self]
      · rw [he]
        rfl
  | ifBreak b f id ihb ihf =>
      rw [Doc.every, Bool.and_eq_true, Bool.and_eq_true] at h
      show scan modes flat room (Doc.eitherIn id b.tidied f.tidied) = _
      rw [scan, ← ihb h.2.1, ← ihf h.2.2]
      rcases Doc.eitherIn_cases id b.tidied f.tidied with ⟨hb, hf, he⟩ | he
      · rw [he, hb, hf, ite_self]
      · rw [he]
        rfl

theorem scan_cat_tidied (modes : Modes) {d : Doc} (h : d.every Doc.isMarkedRight = true)
    (flat : Bool) (room : Nat) :
    scan modes flat room (Doc.cat [d.tidied]) = scan modes flat room d := by
  rw [scan_cat, scanAll_singleton, scan_tidied modes d h]

end Scan

/-! ## Similar states -/

/-- The chunks that a chunk is taken apart into before anything is written or decided. -/
def Chunk.opened (c : Chunk) : List Chunk := (c.doc.opened c.flat).map c.withDoc

def Chunk.tidied (c : Chunk) : Chunk := c.withDoc c.doc.tidied

/-- Whether the chunk asks for more indentation than a text can hold. -/
def Chunk.isTooWide (c : Chunk) : Bool :=
  match c.doc with
  | .align amount _ => !c.flat && !Text.canHoldBlanks amount
  | _ => false

/-- What is left of a chunk that waits for the end of the line. -/
def Chunk.held? (c : Chunk) : Option Chunk :=
  (Doc.suffixed [c.doc.tidied]).held?.map c.withDoc

namespace Chunk

theorem tidied_eq {c : Chunk} {d : Doc} (h : c.doc.tidied = d) : c.tidied = c.withDoc d :=
  congrArg c.withDoc h

theorem opened_cat_tidied (c : Chunk) :
    (c.withDoc (Doc.cat [c.doc.tidied])).opened = c.tidied.opened := by
  show ((Doc.cat [c.doc.tidied]).opened c.flat).map c.withDoc = _
  rw [Doc.opened_cat, List.flatMap_singleton]
  rfl

theorem opened_of_cat_empty {c : Chunk} (h : Doc.cat [c.doc.tidied] = .empty) :
    c.tidied.opened = [] := by
  rw [← opened_cat_tidied, h]
  rfl

theorem held?_cases (c : Chunk) :
    (Doc.cat [c.doc.tidied] = .empty ∧ c.held? = none) ∨
      c.held? = some (c.withDoc (Doc.cat [c.doc.tidied])) := by
  rcases Doc.suffixed_cases [c.doc.tidied] with ⟨hempty, he⟩ | he
  · exact .inl ⟨hempty, by rw [held?, he]; rfl⟩
  · exact .inr (by rw [held?, he]; rfl)

end Chunk

theorem scanChunks_opened (modes : Modes) (room : Nat) (cs : List Chunk) :
    scanChunks modes room (cs.flatMap Chunk.opened) = scanChunks modes room cs := by
  induction cs generalizing room with
  | nil => rfl
  | cons c cs ih =>
      rw [List.flatMap_cons, Chunk.opened, scanChunks_withDoc, scanAll_opened, scanChunks_cons]
      exact Scan.andThen_congr _ ih

theorem scanChunks_tidied (modes : Modes) (room : Nat) {cs : List Chunk}
    (h : ∀ c ∈ cs, c.doc.every Doc.isMarkedRight = true) :
    scanChunks modes room (cs.map Chunk.tidied) = scanChunks modes room cs := by
  induction cs generalizing room with
  | nil => rfl
  | cons c cs ih =>
      have hc : scan modes c.tidied.flat room c.tidied.doc = scan modes c.flat room c.doc :=
        scan_tidied modes c.doc (h c List.mem_cons_self) c.flat room
      rw [List.map_cons, scanChunks_cons, scanChunks_cons, hc]
      exact Scan.andThen_congr _ fun room' => ih room' fun e he => h e (List.mem_cons_of_mem c he)

namespace State

variable {page : Page} {s s' t : State} {c : Chunk}

/-- The second machine has written the same and waits to write the tidied documents of the first. -/
structure Similar (s s' : State) : Prop where
  out : s'.out = s.out
  column : s'.column = s.column
  padding : s'.padding = s.padding
  modes : s'.modes = s.modes
  suffixes : s'.suffixes = s.suffixes.filterMap Chunk.held?
  stack : s'.stack.flatMap Chunk.opened = s.stack.flatMap fun c => c.tidied.opened

theorem similar_start (d : Doc) : Similar (start d) (start d.tidied) :=
  ⟨rfl, rfl, rfl, rfl, rfl, rfl⟩

namespace Similar

theorem push (h : Similar s s') (cs cs' : List Chunk)
    (hcs : cs'.flatMap Chunk.opened = cs.flatMap fun c => c.tidied.opened) :
    Similar (s.push cs) (s'.push cs') :=
  { h with
    stack := by
      rw [push_stack, push_stack, List.flatMap_append, List.flatMap_append, hcs, h.stack] }

theorem restack (h : Similar s s') {cs : List Chunk}
    (hcs : cs.flatMap Chunk.opened = s'.stack.flatMap Chunk.opened) :
    Similar s { s' with stack := cs } :=
  { h with stack := hcs.trans h.stack }

theorem withStack (h : Similar s s') {cs cs' : List Chunk}
    (hcs : cs'.flatMap Chunk.opened = cs.flatMap fun c => c.tidied.opened) :
    Similar { s with stack := cs } { s' with stack := cs' } :=
  { h with stack := hcs }

theorem write (h : Similar s s') (x : String) : Similar (s.write x) (s'.write x) :=
  { h with
    out := by rw [write_out, write_out, h.out]
    column := by rw [write_column, write_column, h.column]
    padding := rfl }

theorem endLiteral (h : Similar s s') (c : Chunk) : Similar (s.endLiteral c) (s'.endLiteral c) :=
  { h with
    out := by simp only [State.endLiteral, h.out, h.padding]
    column := rfl
    padding := rfl }

theorem endIndented (h : Similar s s') (c : Chunk) : Similar (s.endIndented c) (s'.endIndented c) :=
  { h with
    out := by simp only [State.endIndented, h.out]
    column := rfl
    padding := rfl }

theorem flatMap_held (p : Bool → Bool) (cs : List Chunk) :
    ((cs.filterMap Chunk.held?).filter fun c => p c.doc.hasForcedBreak).flatMap Chunk.opened =
      (cs.filter fun c => p c.doc.hasForcedBreak).flatMap fun c => c.tidied.opened := by
  induction cs with
  | nil => rfl
  | cons c cs ih =>
      rcases c.held?_cases with ⟨hempty, hnone⟩ | hsome
      · rw [List.filterMap_cons_none hnone, ih, List.filter_cons]
        split
        · rw [List.flatMap_cons, Chunk.opened_of_cat_empty hempty, List.nil_append]
        · rfl
      · have hforced : (c.withDoc (Doc.cat [c.doc.tidied])).doc.hasForcedBreak =
            c.doc.hasForcedBreak := Doc.hasForcedBreak_cat_tidied c.doc
        rw [List.filterMap_cons_some hsome, List.filter_cons, List.filter_cons, hforced]
        split
        · rw [List.flatMap_cons, List.flatMap_cons, ih, Chunk.opened_cat_tidied]
        · exact ih

theorem flush (h : Similar s s') : Similar s.flush s'.flush :=
  { h with
    suffixes := rfl
    stack := by
      have hshort := flatMap_held (!·) s.suffixes
      have hlong := flatMap_held id s.suffixes
      simp only [State.flush, List.flatMap_append, h.suffixes, h.stack]
      exact congrArg₂ (· ++ ·) (congrArg₂ (· ++ ·) hshort hlong) rfl }

theorem scanChunks (h : Similar s s')
    (hs : ∀ c ∈ s.stack, c.doc.every Doc.isMarkedRight = true) (modes : Modes) (room : Nat) :
    Layout.scanChunks modes room s'.stack = Layout.scanChunks modes room s.stack := by
  calc Layout.scanChunks modes room s'.stack
      = Layout.scanChunks modes room (s'.stack.flatMap Chunk.opened) :=
        (scanChunks_opened modes room _).symm
    _ = Layout.scanChunks modes room ((s.stack.map Chunk.tidied).flatMap Chunk.opened) := by
        rw [h.stack, List.flatMap_map]
    _ = Layout.scanChunks modes room (s.stack.map Chunk.tidied) := scanChunks_opened modes room _
    _ = Layout.scanChunks modes room s.stack := scanChunks_tidied modes room hs

theorem fits (h : Similar s s') {cs cs' : List Chunk}
    (hcs : ∀ room, Layout.scanChunks s.modes room cs' = Layout.scanChunks s.modes room cs) :
    s'.fits page cs' = s.fits page cs := by
  unfold State.fits Layout.fits
  rw [h.column, h.modes, hcs]

theorem groupFlat (h : Similar s s') (hs : ∀ c ∈ s.stack, c.doc.every Doc.isMarkedRight = true)
    {c c' : Chunk} (hflat : c'.flat = c.flat) {d d' : Doc}
    (hscan : ∀ room, scan s.modes true room d' = scan s.modes true room d) (broken : Bool) :
    s'.groupFlat page c' d' broken = s.groupFlat page c d broken := by
  unfold State.groupFlat
  rw [hflat, h.fits]
  intro room
  rw [scanChunks_cons, scanChunks_cons, hscan]
  exact Scan.andThen_congr _ (h.scanChunks hs s.modes)

theorem fillChunks (h : Similar s s') (page : Page) (c : Chunk) (doc : Doc) {items : List Doc}
    (hitems : ∀ d ∈ items, d.every Doc.isMarkedRight = true) :
    s'.fillChunks page (c.withDoc doc) (items.map Doc.tidied) =
      (s.fillChunks page c items).map Chunk.tidied := by
  have hfits {d e : Doc}
      (hscan : ∀ room, scan s.modes true room e = scan s.modes true room d) :
      s'.fits page [⟨e, c.indent, c.root, true⟩] = s.fits page [⟨d, c.indent, c.root, true⟩] := by
    apply h.fits
    intro room
    rw [scanChunks_cons, scanChunks_cons, hscan]
  have hone {d : Doc} (hd : d ∈ items) := hfits (scan_tidied s.modes d (hitems d hd) true)
  match items with
  | [] => rfl
  | [content] =>
      simp only [State.fillChunks, List.map_cons, List.map_nil, Chunk.withDoc, Chunk.tidied,
        Doc.hasForcedBreak_tidied, hone List.mem_cons_self]
  | [content, separator] =>
      simp only [State.fillChunks, List.map_cons, List.map_nil, Chunk.withDoc, Chunk.tidied,
        Doc.hasForcedBreak_tidied, hone List.mem_cons_self]
  | content :: separator :: next :: more =>
      have hpair := hfits (d := .seq [content, separator, next])
        (e := .seq ([content, separator, next].map Doc.tidied))
        (scanAll_map fun d hd =>
          scan_tidied s.modes d (hitems d (List.mem_append_left more hd)) true)
      simp only [State.fillChunks, List.map_cons, List.map_nil, Chunk.withDoc, Chunk.tidied,
        Doc.hasForcedBreak_tidied, hone List.mem_cons_self] at hpair ⊢
      rw [hpair, Doc.tidied_fill, List.map_cons]
      rfl

/-- Similar machines hold back similar chunks. -/
theorem hold (h : Similar s s') {cs cs' : List Chunk} (hcs : cs' = cs.filterMap Chunk.held?) :
    Similar { s with suffixes := s.suffixes ++ cs } { s' with suffixes := s'.suffixes ++ cs' } :=
  { h with suffixes := by rw [List.filterMap_append, hcs, h.suffixes] }

end Similar

/-! ## What the second machine does -/

/-- The second machine waits with its chunk, or takes it as well. -/
def Answers (page : Page) (c : Chunk) (s s' : State) : Prop :=
  Similar (s.take page c) (s'.push [c.tidied]) ∨
    (c.tidied.opened = [c.tidied] ∧ c.tidied.isTooWide = c.isTooWide ∧
      Similar (s.take page c) (s'.take page c.tidied))

theorem answers_of_push (h : Similar s s') (cs : List Chunk) (htake : s.take page c = s.push cs)
    (hcs : c.tidied.opened = cs.flatMap fun c => c.tidied.opened) : Answers page c s s' := by
  left
  rw [htake]
  apply h.push
  rw [List.flatMap_singleton, hcs]

theorem answers_of_wrap (h : Similar s s') {inner : Chunk} (htake : s.take page c = s.push [inner])
    (hc : (Doc.cat [inner.doc.tidied] = .empty ∧ c.doc.tidied = .empty) ∨
      (c.tidied.opened = [c.tidied] ∧ c.tidied.isTooWide = c.isTooWide ∧
        s'.take page c.tidied = s'.push [inner.withDoc (Doc.cat [inner.doc.tidied])])) :
    Answers page c s s' := by
  rcases hc with ⟨hinner, hempty⟩ | ⟨hopened, hwide, htake'⟩
  · apply answers_of_push h _ htake
    rw [List.flatMap_singleton, Chunk.opened_of_cat_empty hinner, Chunk.tidied_eq hempty]
    rfl
  · right
    rw [htake, htake']
    refine ⟨hopened, hwide, h.push _ _ ?_⟩
    rw [List.flatMap_singleton, List.flatMap_singleton, Chunk.opened_cat_tidied]

theorem flush_of_none (h : s.suffixes = []) : s.flush = s := by
  obtain ⟨out, column, padding, modes, suffixes, stack⟩ := s
  obtain rfl : suffixes = [] := h
  rfl

theorem answers_newline (h : Similar s s') {b : Break} (hc : c.doc = .newline b) :
    Answers page c s s' := by
  have hsame : c.tidied = c := by
    obtain ⟨doc, indent, root, flat⟩ := c
    obtain rfl : doc = .newline b := hc
    rfl
  have hopened : c.opened = [c] := by
    obtain ⟨doc, indent, root, flat⟩ := c
    obtain rfl : doc = .newline b := hc
    rfl
  unfold Answers
  rw [hsame]
  by_cases hwrite : (c.flat && !b.hard) = true
  · have htake (u : State) : u.take page c = u.write b.flat := by
      rw [take, hc]
      exact if_pos hwrite
    rw [htake, htake]
    exact .inr ⟨hopened, rfl, h.write b.flat⟩
  · have htake (u : State) : u.take page c =
        if !u.suffixes.isEmpty then (u.push [c]).flush
        else if b.literal then u.endLiteral c else u.endIndented c := by
      rw [take, hc]
      exact if_neg hwrite
    have hflush : Similar (s.push [c]).flush (s'.push [c]).flush := by
      apply Similar.flush
      apply h.push
      rw [List.flatMap_singleton, List.flatMap_singleton, hsame]
    by_cases hnone : s.suffixes = []
    · have hnone' : s'.suffixes = [] := by rw [h.suffixes, hnone]; rfl
      right
      rw [htake, htake, hnone, hnone']
      refine ⟨hopened, rfl, ?_⟩
      cases b.literal with
      | true => exact h.endLiteral c
      | false => exact h.endIndented c
    · have hwaits : (!s.suffixes.isEmpty) = true := by simp [hnone]
      rw [htake, if_pos hwaits]
      by_cases hnone' : s'.suffixes = []
      · -- all that waits comes to nothing, so there is nothing to do first
        left
        rw [flush_of_none (s := s'.push [c]) hnone'] at hflush
        exact hflush
      · right
        have hwaits' : (!s'.suffixes.isEmpty) = true := by simp [hnone']
        rw [htake, if_pos hwaits']
        exact ⟨hopened, rfl, hflush⟩

theorem take_nameless_group (s : State) (page : Page) (d : Doc) (broken : Bool) (indent root : Nat)
    (flat : Bool) :
    s.take page ⟨.group d none broken, indent, root, flat⟩ =
      s.push [⟨d, indent, root,
        s.groupFlat page ⟨.group d none broken, indent, root, flat⟩ d broken⟩] := rfl

theorem answers_lone_group (h : Similar s s')
    (hs : ∀ c ∈ s.stack, c.doc.every Doc.isMarkedRight = true) {d e : Doc} {broken : Bool}
    (hd : d.every Doc.isMarkedRight = true) (hgroup : Doc.cat [d.tidied] = .group e none broken)
    {indent root : Nat} {flat : Bool}
    (hc : (Doc.group d none broken).tidied = .group e none broken) :
    Answers page ⟨.group d none broken, indent, root, flat⟩ s s' := by
  have htake := take_nameless_group s page d broken indent root flat
  have hopened (f : Bool) : (Doc.group e none broken).opened f = d.tidied.opened f := by
    rw [← hgroup, Doc.opened_cat, List.flatMap_singleton]
  generalize hflat : s.groupFlat page ⟨.group d none broken, indent, root, flat⟩ d broken = chosen
    at htake
  by_cases hsame : chosen = flat
  · -- the inner group is still to be decided, in the same mode
    rw [hsame] at htake
    apply answers_of_push h _ htake
    rw [List.flatMap_singleton]
    show (((Doc.group d none broken).tidied.opened flat).map _) = (d.tidied.opened flat).map _
    rw [hc, hopened]
    rfl
  · -- the inner group is flat because the outer one is
    obtain ⟨rfl, rfl, rfl⟩ : chosen = true ∧ flat = false ∧ broken = false := by
      rw [← hflat, groupFlat] at hsame ⊢
      cases flat <;> cases broken <;> simp_all
    have hscan (room : Nat) : scan s.modes true room e = scan s.modes true room d := by
      rw [← scan_cat_tidied s.modes hd, hgroup, scan]
      rfl
    have hdecided : s'.groupFlat page ⟨.group e none false, indent, root, false⟩ e false = true :=
      (h.groupFlat hs rfl hscan false).trans hflat
    have htake' := take_nameless_group s' page e false indent root false
    rw [hdecided] at htake'
    right
    rw [Chunk.tidied, Chunk.withDoc, hc, htake, htake']
    refine ⟨rfl, rfl, h.push _ _ ?_⟩
    rw [List.flatMap_singleton, List.flatMap_singleton]
    show (e.opened true).map _ = (d.tidied.opened true).map _
    rw [← hopened, Doc.opened_flat_group]
    rfl

theorem answers_group (h : Similar s s') (hs : ∀ c ∈ s.stack, c.doc.every Doc.isMarkedRight = true)
    (d : Doc) (id : Option String) (broken : Bool) (indent root : Nat) (flat : Bool)
    (hd : (Doc.group d id broken).every Doc.isMarkedRight = true) :
    Answers page ⟨.group d id broken, indent, root, flat⟩ s s' := by
  rw [Doc.every, Bool.and_eq_true, Doc.isMarkedRight, Bool.and_eq_true, Option.isNone_iff_eq_none,
    beq_iff_eq] at hd
  obtain ⟨⟨rfl, hmark⟩, hd⟩ := hd
  have htake := take_nameless_group s page d broken indent root flat
  rcases Doc.regrouped_cases none broken d.tidied with
    ⟨hempty, he⟩ | ⟨⟨e, id', broken', hgroup⟩, he⟩ | he
  · exact answers_of_wrap h htake (.inl ⟨hempty, he⟩)
  · obtain ⟨rfl, hmark'⟩ := Doc.lone_group_tidied hd hgroup
    rw [← hmark] at hmark'
    rw [hmark'] at hgroup
    exact answers_lone_group h hs hd hgroup (he.trans hgroup)
  · have hscan (room : Nat) := scan_cat_tidied s.modes hd true room
    have hdecided : s'.groupFlat page ⟨.group (Doc.cat [d.tidied]) none broken, indent, root, flat⟩
        (Doc.cat [d.tidied]) broken =
          s.groupFlat page ⟨.group d none broken, indent, root, flat⟩ d broken :=
      h.groupFlat hs rfl hscan broken
    have htidied : (⟨.group d none broken, indent, root, flat⟩ : Chunk).tidied =
        ⟨.group (Doc.cat [d.tidied]) none broken, indent, root, flat⟩ := Chunk.tidied_eq he
    by_cases hopen : flat = true ∧ broken = false
    · obtain ⟨rfl, rfl⟩ := hopen
      apply answers_of_push h _ htake
      rw [List.flatMap_singleton, htidied, ← Chunk.opened_cat_tidied]
      rfl
    · apply answers_of_wrap h htake
      right
      rw [htidied, take_nameless_group, hdecided]
      refine ⟨?_, rfl, rfl⟩
      cases flat with
      | false => rfl
      | true =>
          obtain rfl : broken = true := by simpa using hopen
          rfl

theorem answers_fill (h : Similar s s') (items : List Doc) (indent root : Nat) (flat : Bool)
    (hitems : ∀ d ∈ items, d.every Doc.isMarkedRight = true) :
    Answers page ⟨.fill items, indent, root, flat⟩ s s' := by
  rcases Doc.filled_cases (items.map Doc.tidied) with ⟨hnil, he⟩ | ⟨-, he⟩
  · obtain rfl : items = [] := List.map_eq_nil_iff.mp hnil
    exact answers_of_push h [] rfl rfl
  · have htidied : (⟨.fill items, indent, root, flat⟩ : Chunk).tidied =
        ⟨.fill (items.map Doc.tidied), indent, root, flat⟩ :=
      Chunk.tidied_eq ((Doc.tidied_fill items).trans he)
    have hchunks : s'.fillChunks page ⟨.fill (items.map Doc.tidied), indent, root, flat⟩
        (items.map Doc.tidied) =
          (s.fillChunks page ⟨.fill items, indent, root, flat⟩ items).map Chunk.tidied :=
      h.fillChunks page ⟨.fill items, indent, root, flat⟩ _ hitems
    right
    rw [htidied]
    refine ⟨rfl, rfl, h.push _ _ ?_⟩
    rw [hchunks, List.flatMap_map]

theorem answers_suffix (h : Similar s s') (d : Doc) (indent root : Nat) (flat : Bool) :
    Answers page ⟨.suffix d, indent, root, flat⟩ s s' := by
  rcases Doc.suffixed_cases [d.tidied] with ⟨-, he⟩ | he
  · -- nothing has to wait
    have hheld : [(⟨d, indent, root, false⟩ : Chunk)].filterMap Chunk.held? = [] := by
      rw [List.filterMap_cons_none (by rw [Chunk.held?, he]; rfl)]
      rfl
    left
    have hhold := h.hold hheld.symm
    rw [List.append_nil] at hhold
    rw [Chunk.tidied_eq (c := ⟨.suffix d, indent, root, flat⟩) he]
    exact hhold.push [] _ rfl
  · have hheld : [(⟨d, indent, root, false⟩ : Chunk)].filterMap Chunk.held? =
        [⟨Doc.cat [d.tidied], indent, root, false⟩] := by
      rw [List.filterMap_cons_some (by rw [Chunk.held?, he]; rfl)]
      rfl
    right
    rw [Chunk.tidied_eq (c := ⟨.suffix d, indent, root, flat⟩) he]
    exact ⟨rfl, rfl, h.hold hheld.symm⟩

theorem answers_ifBreak (h : Similar s s') (b f : Doc) (id : Option String) (indent root : Nat)
    (flat : Bool) : Answers page ⟨.ifBreak b f id, indent, root, flat⟩ s s' := by
  have hside : (if s'.modes.flat flat id then f.tidied else b.tidied) =
      (if s.modes.flat flat id then f else b).tidied := by
    rw [h.modes]
    split
    · rfl
    · rfl
  have hopened := congrArg (fun d => Chunk.opened ⟨d, indent, root, flat⟩) hside
  rcases Doc.eitherIn_cases id b.tidied f.tidied with ⟨hb, hf, he⟩ | he
  · apply answers_of_push h _ rfl
    rw [hb, hf, ite_self] at hopened
    rw [List.flatMap_singleton, Chunk.tidied_eq (c := ⟨.ifBreak b f id, indent, root, flat⟩) he]
    exact hopened
  · right
    rw [Chunk.tidied_eq (c := ⟨.ifBreak b f id, indent, root, flat⟩) he]
    refine ⟨rfl, rfl, h.push _ _ ?_⟩
    rw [List.flatMap_singleton, List.flatMap_singleton]
    exact hopened

/-- Whatever chunk the first machine takes, the second one waits or takes it too. -/
theorem answers_take (page : Page) (h : Similar s s')
    (hs : ∀ c ∈ s.stack, c.doc.every Doc.isMarkedRight = true)
    (hc : c.doc.every Doc.isMarkedRight = true) : Answers page c s s' := by
  obtain ⟨doc, indent, root, flat⟩ := c
  cases doc with
  | empty => exact answers_of_push h [] rfl rfl
  | text x => exact .inr ⟨rfl, rfl, h.write x⟩
  | breakParent => exact .inr ⟨rfl, rfl, h⟩
  | newline b => exact answers_newline h rfl
  | seq ds =>
      apply answers_of_push h _ rfl
      rw [Chunk.tidied, Chunk.opened, Chunk.withDoc, Doc.tidied_seq, Doc.opened_cat,
        List.flatMap_map, List.flatMap_map, List.map_flatMap]
      rfl
  | indent d =>
      apply answers_of_wrap h rfl
      rcases Doc.indented_cases [d.tidied] with he | he
      · exact .inl he
      · rw [Chunk.tidied_eq (c := ⟨.indent d, indent, root, flat⟩) he]
        exact .inr ⟨rfl, rfl, rfl⟩
  | align n d =>
      rcases Doc.aligned_cases n [d.tidied] with he | ⟨rfl, he⟩ | he
      · exact answers_of_wrap h rfl (.inl he)
      · have htake : s.take page ⟨.align 0 d, indent, root, flat⟩ =
            s.push [⟨d, indent, root, flat⟩] := by
          show s.push [⟨d, indent + if flat then 0 else (0 : Int).toNat, root, flat⟩] = _
          rw [Int.toNat_zero, ite_self, Nat.add_zero]
        apply answers_of_push h _ htake
        rw [List.flatMap_singleton, Chunk.tidied_eq (c := ⟨.align 0 d, indent, root, flat⟩) he]
        exact Chunk.opened_cat_tidied ⟨d, indent, root, flat⟩
      · apply answers_of_wrap h rfl
        rw [Chunk.tidied_eq (c := ⟨.align n d, indent, root, flat⟩) he]
        exact .inr ⟨rfl, rfl, rfl⟩
  | root d =>
      apply answers_of_wrap h rfl
      rcases Doc.rooted_cases [d.tidied] with he | he
      · exact .inl he
      · rw [Chunk.tidied_eq (c := ⟨.root d, indent, root, flat⟩) he]
        exact .inr ⟨rfl, rfl, rfl⟩
  | group d id broken => exact answers_group h hs d id broken indent root flat hc
  | ifBreak b f id => exact answers_ifBreak h b f id indent root flat
  | fill items => exact answers_fill h items indent root flat (Doc.every_fill hc)
  | suffix d => exact answers_suffix h d indent root flat

/-! ## Side by side -/

theorem isTooWide_of_stack {rest : List Chunk} (h : s.stack = c :: rest) :
    s.isTooWide = c.isTooWide := by
  obtain ⟨doc, indent, root, flat⟩ := c
  unfold isTooWide
  rw [h]
  cases doc with
  | align n d => cases flat <;> rfl
  | _ => rfl

/-- From one state to another, past chunks that are too wide only if `wide`. -/
def Walks (page : Page) (wide : Prop) : State → State → Prop :=
  Relation.ReflTransGen fun s t => s.step page = some t ∧ (s.isTooWide = true → wide)

variable {wide : Prop}

theorem reaches_of_walks (h : Walks page wide s t) : Reaches page s t :=
  Relation.ReflTransGen.mono (fun _ _ h => h.1) _ _ h

theorem walks_run (n : Nat) (s : State) (h : wide ∨ s.isWritable page n = true) :
    Walks page wide s (s.run page n) := by
  induction n generalizing s with
  | zero => exact .refl
  | succ n ih =>
      cases hs : s.step page with
      | none =>
          rw [run, hs]
          exact .refl
      | some t =>
          rw [run, hs]
          rcases h with hwide | hwritable
          · exact .head ⟨hs, fun _ => hwide⟩ (ih t (.inl hwide))
          · rw [isWritable, hs, Bool.and_eq_true, Bool.not_eq_true'] at hwritable
            refine .head ⟨hs, fun htoo => ?_⟩ (ih t (.inr hwritable.2))
            rw [hwritable.1] at htoo
            cases htoo

theorem isWritable_of_walks (h : Walks page False s t) (hlast : t.step page = none) (n : Nat) :
    s.isWritable page n = true := by
  apply isWritable_of_step (P := fun s => Walks page False s t) _ _ n h
  · intro s u hstep hwalks
    rcases Relation.ReflTransGen.cases_head hwalks with rfl | ⟨v, hv, hrest⟩
    · rw [hlast] at hstep
      cases hstep
    · obtain rfl : v = u := Option.some.inj (hv.1.symm.trans hstep)
      exact hrest
  · intro s hwalks
    rcases Relation.ReflTransGen.cases_head hwalks with rfl | ⟨v, hv, -⟩
    · rw [isTooWide, (done_of_step hlast).1]
    · rw [← Bool.not_eq_true]
      exact hv.2

theorem opened_cases (page : Page) (c : Chunk) :
    c.opened = [c] ∨
      (c.isTooWide = false ∧ ∃ cs, (∀ s : State, s.take page c = s.push cs) ∧
        cs.flatMap Chunk.opened = c.opened) := by
  obtain ⟨doc, indent, root, flat⟩ := c
  cases doc with
  | empty => exact .inr ⟨rfl, [], fun s => rfl, rfl⟩
  | seq ds =>
      refine .inr ⟨rfl, ds.map (Chunk.withDoc ⟨.seq ds, indent, root, flat⟩), fun s => rfl, ?_⟩
      rw [List.flatMap_map, Chunk.opened, Doc.opened_seq, List.map_flatMap]
      rfl
  | group d id broken =>
      by_cases hopen : (flat && (id.isNone && !broken)) = true
      · rw [Bool.and_eq_true, Bool.and_eq_true, Option.isNone_iff_eq_none,
          Bool.not_eq_true'] at hopen
        obtain ⟨rfl, rfl, rfl⟩ := hopen
        exact .inr ⟨rfl, [⟨d, indent, root, true⟩], fun s => rfl, List.flatMap_singleton _ _⟩
      · left
        rw [Chunk.opened, Doc.opened, if_neg hopen]
        rfl
  | _ => exact .inl rfl

/-- A machine can take its chunks apart until the first of them is opened. -/
theorem walks_opened (page : Page) (wide : Prop) (s : State) :
    ∃ cs, Walks page wide s { s with stack := cs } ∧
      cs.flatMap Chunk.opened = s.stack.flatMap Chunk.opened ∧
      ∀ c rest, cs = c :: rest → c.opened = [c] := by
  induction hweight : s.weight using Nat.strongRecOn generalizing s with
  | ind n ih =>
      cases hstack : s.stack with
      | nil =>
          rw [← hstack]
          refine ⟨s.stack, .refl, rfl, ?_⟩
          intro c rest h
          rw [hstack] at h
          cases h
      | cons c rest =>
          rcases opened_cases page c with hone | ⟨hnarrow, cs, htake, hcs⟩
          · rw [← hstack]
            refine ⟨s.stack, .refl, rfl, ?_⟩
            intro c' rest' h
            rw [hstack] at h
            cases h
            exact hone
          · have hstep : s.step page = some ({ s with stack := rest }.push cs) := by
              rw [step, hstack]
              exact congrArg some (htake _)
            have hlt := weight_step hstep
            rw [hweight] at hlt
            obtain ⟨cs', hwalks, hopened, hfirst⟩ := ih _ hlt _ rfl
            refine ⟨cs', .head ⟨hstep, fun htoo => ?_⟩ hwalks, ?_, hfirst⟩
            · rw [isTooWide_of_stack hstack, hnarrow] at htoo
              cases htoo
            · rw [hopened, push_stack, List.flatMap_append, hcs, List.flatMap_cons]

theorem walks_nil (h : s.stack.flatMap Chunk.opened = []) :
    Walks page wide s { s with stack := [] } := by
  obtain ⟨cs, hwalks, hopened, hfirst⟩ := walks_opened page wide s
  cases cs with
  | nil => exact hwalks
  | cons c rest =>
      rw [h, List.flatMap_cons, hfirst c rest rfl] at hopened
      cases hopened

theorem walks_chunk (page : Page) (wide : Prop) (h : Similar s s') {rest : List Chunk}
    (hstack : s.stack = c :: rest) (hone : c.tidied.opened = [c.tidied]) :
    ∃ rest', Walks page wide s' ({ s' with stack := rest' }.push [c.tidied]) ∧
      Similar { s with stack := rest } { s' with stack := rest' } := by
  obtain ⟨cs, hwalks, hopened, hfirst⟩ := walks_opened page wide s'
  rw [h.stack, hstack, List.flatMap_cons, hone] at hopened
  cases cs with
  | nil => cases hopened
  | cons c' rest' =>
      rw [List.flatMap_cons, hfirst c' rest' rfl] at hopened
      obtain ⟨rfl, hrest⟩ := List.cons.inj hopened
      exact ⟨rest', hwalks, h.withStack hrest⟩

/-- A step of the first machine is followed by steps of the second, to a similar state. -/
theorem similar_step (h : Similar s s') (hs : s.Holds Doc.isMarkedRight)
    (hstep : s.step page = some t) (hwide : s.isTooWide = true → wide) :
    ∃ t', Walks page wide s' t' ∧ Similar t t' := by
  rcases step_cases hstep with ⟨c, rest, hstack, rfl⟩ | ⟨hnil, hne, rfl⟩
  · have hc : c.doc.every Doc.isMarkedRight = true :=
      hs c (.inl (by rw [hstack]; exact List.mem_cons_self))
    have hrest : ∀ e ∈ rest, e.doc.every Doc.isMarkedRight = true := fun e he =>
      hs e (.inl (by rw [hstack]; exact List.mem_cons_of_mem c he))
    by_cases hone : c.tidied.opened = [c.tidied]
    · obtain ⟨rest', hwalks, hsimilar⟩ := walks_chunk page wide h hstack hone
      rcases answers_take page hsimilar hrest hc with hwaits | ⟨-, hwidth, htakes⟩
      · exact ⟨_, hwalks, hwaits⟩
      · refine ⟨_, hwalks.tail ⟨step_push _ page _, fun htoo => ?_⟩, htakes⟩
        rw [isTooWide_of_stack rfl, hwidth, ← isTooWide_of_stack hstack] at htoo
        exact hwide htoo
    · have hsimilar : Similar { s with stack := rest }
          { s' with stack := rest.map Chunk.tidied } := h.withStack (by rw [List.flatMap_map])
      rcases answers_take page hsimilar hrest hc with hwaits | ⟨hone', -⟩
      · have hopened : s'.stack.flatMap Chunk.opened =
            ([c.tidied] ++ rest.map Chunk.tidied).flatMap Chunk.opened := by
          rw [h.stack, hstack, ← List.map_singleton, ← List.map_append, List.flatMap_map]
          rfl
        exact ⟨s', .refl, hwaits.restack hopened⟩
      · exact absurd hone' hone
  · have hopened : s'.stack.flatMap Chunk.opened = [] := by
      rw [h.stack, hnil]
      rfl
    have hsimilar : Similar s { s' with stack := [] } := h.restack hopened.symm
    have hwalks : Walks page wide s' { s' with stack := [] } := walks_nil hopened
    by_cases hnone : s'.suffixes = []
    · have hflush := hsimilar.flush
      rw [flush_of_none (s := { s' with stack := [] }) hnone] at hflush
      exact ⟨_, hwalks, hflush⟩
    · refine ⟨_, hwalks.tail ⟨?_, fun htoo => by cases htoo⟩, hsimilar.flush⟩
      rw [step, if_neg (by rw [List.isEmpty_iff]; exact hnone)]

theorem fillClosed_isMarkedRight : FillClosed Doc.isMarkedRight := fun _ _ _ _ _ => rfl

theorem similar_walks (hwalks : Walks page wide s t) (h : Similar s s')
    (hs : s.Holds Doc.isMarkedRight) : ∃ t', Walks page wide s' t' ∧ Similar t t' := by
  induction hwalks using Relation.ReflTransGen.head_induction_on generalizing s' with
  | refl => exact ⟨s', .refl, h⟩
  | head hstep _ ih =>
      obtain ⟨u', hwalks', hsimilar⟩ := similar_step h hs hstep.1 hstep.2
      obtain ⟨t', hmore, hlast⟩ := ih hsimilar (holds_step fillClosed_isMarkedRight hstep.1 hs)
      exact ⟨t', hwalks'.trans hmore, hlast⟩

/-- The machine on the document built anew comes to an end with the same text. -/
theorem walks_finish (page : Page) (wide : Prop) {d : Doc} (hd : d.every Doc.isUntagged = true)
    (h : wide ∨ (start d.propagateBreaks).isWritable page (start d.propagateBreaks).weight = true) :
    ∃ t, Walks page wide (start d.rebuilt.propagateBreaks) t ∧ t.step page = none ∧
      t.out = (finish page d).out := by
  have hsettled : d.rebuilt.propagateBreaks = d.propagateBreaks.tidied :=
    congrArg Prod.fst (Doc.settle_rebuilt d hd)
  obtain ⟨t, hwalks, hsimilar⟩ := similar_walks (walks_run _ _ h)
    (similar_start d.propagateBreaks) (holds_start (Doc.isMarkedRight_settle hd))
  obtain ⟨hstack, hnone⟩ := done_finish page d
  have hopened : t.stack.flatMap Chunk.opened = [] := by
    rw [hsimilar.stack]
    show (finish page d).stack.flatMap _ = []
    rw [hstack]
    rfl
  have hsuffixes : t.suffixes = [] := by
    rw [hsimilar.suffixes]
    show (finish page d).suffixes.filterMap _ = []
    rw [hnone]
    rfl
  rw [hsettled]
  refine ⟨{ t with stack := [] }, hwalks.trans (walks_nil hopened), ?_, hsimilar.out⟩
  rw [step, hsuffixes]
  rfl

end State

open State

theorem render_rebuilt (page : Page) {d : Doc} (hd : d.every Doc.isUntagged = true) :
    render page d.rebuilt = render page d := by
  obtain ⟨t, hwalks, hlast, hout⟩ := walks_finish page True hd (.inl trivial)
  have hfinish : finish page d.rebuilt = t :=
    run_of_reaches (reaches_of_walks hwalks) hlast (Nat.le_refl _)
  rw [render_eq, render_eq, hfinish, text, text, hout]

theorem render?_rebuilt {page : Page} {d : Doc} (hd : d.every Doc.isUntagged = true) {text : String}
    (h : render? page d = some text) : render? page d.rebuilt = some text := by
  rw [eq_render_of_render? h, ← render_rebuilt page hd]
  rw [render?] at h
  split at h
  · next hwritable =>
      rw [Bool.and_eq_true] at hwritable
      obtain ⟨t, hwalks, hlast, -⟩ := walks_finish page False hd (.inr hwritable.2)
      rw [render?, hwritable.1, isWritable_of_walks hwalks hlast]
      rfl
  · cases h

/-- Take a document whose groups have neither names nor marks, and build it anew with the builders
from its innermost parts outwards. On every page both have the same layout. What the original can be
written as, the other can be written as too, and only an alignment too wide for a text can make a
difference: one around nothing is gone when the document has been built anew. -/
theorem rebuilding_keeps_layout (page : Page) (d : Doc) (hd : d.every Doc.isUntagged = true) :
    render page d.rebuilt = render page d ∧
      (∀ text, render? page d = some text → render? page d.rebuilt = some text) ∧
      (d.every Doc.isWritable = true → render? page d.rebuilt = render? page d) := by
  refine ⟨render_rebuilt page hd, fun text => render?_rebuilt hd, fun hwritable => ?_⟩
  cases htab : Text.canHoldBlanks page.tab with
  | true =>
      have hrender := render?_of_isWritable htab hwritable
      rw [hrender]
      exact render?_rebuilt hd hrender
  | false =>
      rw [render?, render?, htab]
      rfl

/-- Rows in rows, a group around a group, and wrappings of every kind that come to nothing. -/
def sampleTangled : Doc :=
  .seq [
    .group (.group (.seq [.seq [.text "a", .empty], .line, .align 0 (.text "b")]) none false) none
      false,
    .root (.fill [.text ",", .line, .seq [.indent .empty, .text "c"]]),
    .ifBreak (.align 3 (.seq [])) .empty none, .group (.root .empty) none false, .fill [],
    .suffix (.seq []), .suffix (.seq [.text " # d"]), .hardline]

theorem rebuilding_keeps_layout_sample :
    sampleTangled.rebuilt =
        .seq [.group (.seq [.text "a", .line, .text "b"]) none false,
          .root (.fill [.text ",", .line, .text "c"]), .suffix (.text " # d"), .hardline] ∧
      render ⟨3, 2⟩ sampleTangled.rebuilt = render ⟨3, 2⟩ sampleTangled ∧
      render? ⟨3, 2⟩ sampleTangled.rebuilt = some "a\nb,\nc # d\n" ∧
      render? ⟨30, 2⟩ sampleTangled.rebuilt = render? ⟨30, 2⟩ sampleTangled := by
  have huntagged : sampleTangled.every Doc.isUntagged = true := by decide
  have hnarrow := rebuilding_keeps_layout ⟨3, 2⟩ sampleTangled huntagged
  have hbroad := rebuilding_keeps_layout ⟨30, 2⟩ sampleTangled huntagged
  exact ⟨rfl, hnarrow.1, hnarrow.2.1 _ (by decide), hbroad.2.2 (by decide)⟩

end Layout

end RubyPretty
