import Mathlib.Data.List.DropRight
import RubyPretty.Comments.Splice
import RubyPretty.Proofs.Doc.Rebuilt
import RubyPretty.Proofs.Layout.Frames
import RubyPretty.Proofs.Layout.Pieces
import RubyPretty.Proofs.Printing.Yields
/-!
# What is written behind a node and its comments

A comment above its node has a line of its own, and one behind its node is held back until the
line ends, so what follows the node goes before it. A comment below its node does not end its
line: what follows the node goes behind the last of these comments and becomes a part of it.
-/

namespace RubyPretty

def Comment.remark (c : Comment) : Doc := .cat [" ", c.doc]

theorem Comment.doc_of_isBlock {c : Comment} (hc : c.isBlock = false) :
    c.doc = .ofString c.text := by
  rw [doc, hc]
  rfl

namespace Comments

open Layout Layout.State

variable {page : Page} {s : State} {endLine : Option Coordinate} {c : Comment}
  {cs rs : List Comment} {d spliced : Doc}

def headings (cs : List Comment) : List Char :=
  (cs.filter (·.leading)).flatMap fun c =>
    c.text.toList.rdropWhile isTrailingBlank ++ ['\n']

/-- The ends of a line that comments behind it make. -/
def remarks (cs : List Comment) : List Char := cs.flatMap fun c => ' ' :: c.text.toList

/-! ## Comments behind -/

theorem lays_remark (page : Page) (hc : c.isBlock = false) :
    Lays page [topChunk c.remark] (' ' :: c.text.toList) [] := by
  refine lays_ofParts ?_
  rw [Comment.doc_of_isBlock hc, List.flatMap_cons, List.flatMap_singleton, List.map_append]
  exact lays_append (lays_ofString page " ") (lays_ofString page c.text)

theorem hasForcedBreak_remark (hc : c.isBlock = false) :
    (topChunk c.remark).doc.hasForcedBreak = false := by
  have htext (x : String) : (Doc.ofString x).hasForcedBreak = false := by
    unfold Doc.ofString
    split <;> rfl
  rw [topChunk, Doc.hasForcedBreak_settle, Comment.remark, Comment.doc_of_isBlock hc,
    Doc.hasForcedBreak_cat, List.any_cons, List.any_cons, htext, htext]
  rfl

/-- The remarks that a line holds back, as they wait for its end. -/
def waiting (rs : List Comment) : List Chunk := rs.flatMap fun c => [topChunk c.remark]

theorem lays_waiting (page : Page) (hrs : ∀ c ∈ rs, c.isBlock = false) :
    Lays page (waiting rs) (remarks rs) [] := by
  have hnone : (rs.flatMap fun _ => ([] : List Chunk)) = [] :=
    List.flatMap_eq_nil_iff.mpr fun _ _ => rfl
  rw [← hnone]
  exact lays_flatMap fun c hc => lays_remark page (hrs c hc)

theorem exists_reaches_remarks (page : Page) (hrs : ∀ c ∈ rs, c.isBlock = false)
    (hstack : s.stack = [lineEnd]) (hwaiting : s.suffixes = waiting rs) :
    ∃ t : State, Reaches page s t ∧ t.stack = [lineEnd] ∧ t.suffixes = [] ∧
      t.out = (remarks rs).reverse ++ s.out := by
  cases rs with
  | nil => exact ⟨s, .refl, hstack, hwaiting, rfl⟩
  | cons c cs =>
      have hsome : s.suffixes ≠ [] := by
        rw [hwaiting]
        exact List.cons_ne_nil _ _
      have hunforced : ∀ chunk ∈ s.suffixes, chunk.doc.hasForcedBreak = false := by
        intro chunk hchunk
        rw [hwaiting] at hchunk
        obtain ⟨r, hr, hchunk⟩ := List.mem_flatMap.mp hchunk
        rw [List.mem_singleton.mp hchunk]
        exact hasForcedBreak_remark (hrs r hr)
      have hstep : s.step page = some (({ s with suffixes := [] }).push (waiting (c :: cs))) := by
        rw [step, hstack]
        show some ({ s with stack := [] }.take page lineEnd) = _
        rw [take_lineEnd_of_held (s := { s with stack := [] }) hsome, push, List.append_nil,
          ← hstack, flush_of_unforced hunforced, hwaiting]
      obtain ⟨t, hreaches, ht⟩ := lays_waiting page hrs { s with suffixes := [] }
      exact ⟨t, .head hstep hreaches, ht.stack.trans hstack, ht.suffixes, ht.out⟩

/-- A last line with remarks: they come behind all that the chunks write on it. -/
theorem exists_reaches_last {cs : List Chunk} {x : List Char} (rs : List Comment)
    (hrs : ∀ c ∈ rs, c.isBlock = false) (hcs : Lays page cs x (waiting rs)) (hstack : s.stack = [])
    (hnone : s.suffixes = []) :
    ∃ t : State, Reaches page (s.push (cs ++ [lineEnd])) t ∧ t.stack = [] ∧ t.suffixes = [] ∧
      t.out.reverse = (s.out.reverse ++ x ++ remarks rs).rdropWhile isTrailingBlank ++
        ['\n'] := by
  obtain ⟨t, hreaches, ht⟩ := hcs (s.push [lineEnd])
  have hwaiting : t.suffixes = waiting rs := by
    rw [ht.suffixes, push_suffixes, hnone, List.nil_append]
  have hend : t.stack = [lineEnd] := by rw [ht.stack, push_stack, hstack]; rfl
  obtain ⟨u, hreaches', hustack, hunone, huout⟩ := exists_reaches_remarks page hrs hend hwaiting
  have hlast : u.step page = some { u with
      out := '\n' :: u.out.dropWhile isTrailingBlank
      column := 0
      padding := none
      stack := [] } := by
    rw [step, hustack]
    exact congrArg some (take_lineEnd (s := { u with stack := [] }) hunone)
  refine ⟨_, (Relation.ReflTransGen.trans ?_ hreaches').tail hlast, rfl, hunone, ?_⟩
  · rw [push, List.append_assoc]
    exact hreaches
  · show ('\n' :: u.out.dropWhile isTrailingBlank).reverse = _
    rw [huout, ht.out, List.rdropWhile, List.reverse_cons]
    simp only [push_out, List.reverse_append, List.reverse_reverse, List.append_assoc]

/-! ## Comments above -/

theorem reaches_heading (page : Page) (hc : c.isBlock = false) (rest : List Chunk) :
    Reaches page (fresh (c.doc.parts.map topChunk ++ lineEnd :: rest))
      ((fresh rest).after ('\n' :: c.text.toList.reverse.dropWhile isTrailingBlank)) := by
  rw [Comment.doc_of_isBlock hc, Doc.ofString]
  split
  · next hempty =>
      rw [hempty]
      exact .single rfl
  · refine .head (b := (fresh (lineEnd :: rest)).write c.text) rfl (.single ?_)
    show some (((fresh rest).write c.text).take page lineEnd) = _
    rw [take_lineEnd rfl, write_out]
    simp only [fresh, write, State.after, List.append_nil, List.nil_append]

theorem isClosed_headings (cs : List Comment) : IsClosed (headings cs).reverse := by
  unfold headings
  induction cs.filter (·.leading) with
  | nil => exact nofun
  | cons c ls ih =>
      rw [List.flatMap_cons, List.reverse_append, List.reverse_append]
      refine isClosed_append ih fun e he => ?_
      cases he
      rfl

theorem reaches_headings (page : Page) (hcs : ∀ c ∈ cs, c.isBlock = false)
    (rest : List Chunk) :
    Reaches page (fresh (((above cs).flatMap Doc.parts).map topChunk ++ rest))
      ((fresh rest).after (headings cs).reverse) := by
  have hleading : ∀ c ∈ cs.filter (·.leading), c.isBlock = false :=
    fun c hc => hcs c (List.mem_filter.mp hc).1
  unfold above headings
  generalize cs.filter (·.leading) = ls at hleading
  induction ls with
  | nil => exact .refl
  | cons c ls ih =>
      obtain ⟨hc, hls⟩ := List.forall_mem_cons.mp hleading
      have hclosed : IsClosed ('\n' :: c.text.toList.reverse.dropWhile isTrailingBlank) := by
        intro e he
        cases he
        rfl
      have hnext := reaches_after hclosed (ih hls) (padded_of_none rfl)
      refine .trans ?_ (hnext.trans ?_)
      · rw [List.flatMap_cons, List.flatMap_append, List.flatMap_cons, List.map_append,
          List.map_append, List.append_assoc, List.append_assoc]
        exact reaches_heading page hc _
      · rw [after_after, List.flatMap_cons, List.reverse_append, List.reverse_append,
          List.rdropWhile, List.reverse_reverse]
        exact .refl

/-! ## Splicing -/

def beside (rs : List Comment) : List Doc := rs.flatMap fun c => [.suffix c.remark, .breakParent]

theorem suffixed_remark (c : Comment) : Doc.suffixed [" ", c.doc] = .suffix c.remark := by
  rcases Doc.suffixed_cases [" ", c.doc] with ⟨hempty, -⟩ | he
  · rw [Doc.cat, List.flatMap_cons, List.flatMap_singleton] at hempty
    change Doc.ofParts (.text " " :: c.doc.parts) = .empty at hempty
    cases hparts : c.doc.parts <;> rw [hparts] at hempty <;> cases hempty
  · exact he

theorem after_of_beside (h : isBelow endLine c = .ok false) :
    after endLine c = .ok [.suffix c.remark, .breakParent] := by
  rw [after, h, ← suffixed_remark]
  rfl

theorem after_of_below (h : isBelow endLine c = .ok true) :
    after endLine c = .ok [.hardline, c.doc] := by
  rw [after, h]
  rfl

theorem mapM_after_of_beside (h : ∀ c ∈ rs, isBelow endLine c = .ok false) :
    ∃ docs, rs.mapM (after endLine) = .ok docs ∧ docs.flatten = beside rs := by
  induction rs with
  | nil => exact ⟨[], rfl, rfl⟩
  | cons c rs ih =>
      obtain ⟨hc, hrs⟩ := List.forall_mem_cons.mp h
      obtain ⟨docs, hdocs, hflat⟩ := ih hrs
      refine ⟨[.suffix c.remark, .breakParent] :: docs, ?_, ?_⟩
      · rw [List.mapM_cons, after_of_beside hc, hdocs]
        rfl
      · rw [List.flatten_cons, hflat]
        rfl

theorem parts_beside (rs : List Comment) : (beside rs).flatMap Doc.parts = beside rs := by
  rw [beside, List.flatMap_assoc]
  rfl

theorem exists_mem_parts {docs : List (List Doc)} (hne : cs ≠ [])
    (h : (cs.filter (!·.leading)).mapM (after endLine) = .ok docs) (d : Doc) :
    ∃ e ∈ (above cs ++ d :: docs.flatten).flatMap Doc.parts, e.parts = [e] := by
  obtain ⟨c, cs', rfl⟩ := List.exists_cons_of_ne_nil hne
  cases hc : c.leading with
  | true =>
      refine ⟨.hardline, List.mem_flatMap.mpr ⟨.hardline, List.mem_append_left _ ?_,
        List.mem_singleton_self _⟩, rfl⟩
      refine List.mem_flatMap.mpr ⟨c, List.mem_filter.mpr ⟨List.mem_cons_self, hc⟩, ?_⟩
      exact List.mem_cons_of_mem _ (List.mem_singleton_self _)
  | false =>
      rw [List.filter_cons_of_pos (by rw [hc]; rfl), List.mapM_cons, Except.bind_eq_ok] at h
      obtain ⟨first, hfirst, h⟩ := h
      obtain ⟨others, -, h⟩ := Except.bind_eq_ok.mp h
      obtain rfl := Except.pure_eq_ok.mp h
      obtain ⟨below, hbelow, -⟩ := Except.bind_eq_ok.mp hfirst
      have hmem {e : Doc} (he : e ∈ first) (hself : e.parts = [e]) :
          ∃ e ∈ (above (c :: cs') ++ d :: (first :: others).flatten).flatMap Doc.parts,
            e.parts = [e] := by
        refine ⟨e, List.mem_flatMap.mpr ⟨e, List.mem_append_right _ ?_, ?_⟩, hself⟩
        · exact List.mem_cons_of_mem _ (List.mem_append_left _ he)
        · rw [hself]
          exact List.mem_singleton_self e
      cases below with
      | true =>
          rw [after_of_below hbelow] at hfirst
          cases hfirst
          exact hmem List.mem_cons_self rfl
      | false =>
          rw [after_of_beside hbelow] at hfirst
          cases hfirst
          exact hmem List.mem_cons_self rfl

theorem parts_splice (h : splice d cs endLine = .ok spliced) :
    ∃ docs, (cs.filter (!·.leading)).mapM (after endLine) = .ok docs ∧
      spliced.parts =
        (above cs).flatMap Doc.parts ++ d.parts ++ docs.flatten.flatMap Doc.parts := by
  cases cs with
  | nil =>
      cases h
      exact ⟨[], rfl, (List.append_nil _).symm⟩
  | cons c cs =>
      obtain ⟨docs, hdocs, h⟩ := Except.bind_eq_ok.mp h
      obtain rfl := Except.pure_eq_ok.mp h
      obtain ⟨e, he, hself⟩ := exists_mem_parts (List.cons_ne_nil c cs) hdocs d
      refine ⟨docs, hdocs, ?_⟩
      rw [Doc.cat, Doc.parts_ofParts he hself, List.flatMap_append, List.flatMap_cons,
        List.append_assoc]

theorem exists_splice {docs : List (List Doc)}
    (h : (cs.filter (!·.leading)).mapM (after endLine) = .ok docs) (d : Doc) :
    ∃ spliced, splice d cs endLine = .ok spliced := by
  cases cs with
  | nil => exact ⟨d, rfl⟩
  | cons c cs =>
      refine ⟨.cat (above (c :: cs) ++ d :: docs.flatten), ?_⟩
      unfold splice
      rw [h]
      rfl

/-! ## What comes behind -/

theorem lays_beside (page : Page) (rs : List Comment) :
    Lays page ((beside rs).map topChunk) [] (waiting rs) := by
  have hnone : (rs.flatMap fun _ => ([] : List Char)) = [] :=
    List.flatMap_eq_nil_iff.mpr fun _ _ => rfl
  rw [beside, List.map_flatMap, ← hnone]
  exact lays_flatMap fun c _ => lays_suffix c.remark

theorem lookAlike_beside (rs : List Comment) (rest : List Chunk) :
    LookAlike rest ((beside rs).map topChunk ++ rest) := by
  refine lookAlike_append (fun chunk hchunk modes room => ?_) rest
  obtain ⟨e, he, rfl⟩ := List.mem_map.mp hchunk
  obtain ⟨c, -, he⟩ := List.mem_flatMap.mp he
  rcases List.mem_cons.mp he with rfl | he
  · rfl
  · rw [List.mem_singleton.mp he]
    rfl

theorem reaches_row (page : Page) (d : Doc) (t : String) :
    Reaches page (start (Doc.cat [d, t, .hardline]).propagateBreaks)
      (fresh (d.parts.map topChunk ++ ((Doc.ofString t).parts.map topChunk ++ [lineEnd]))) := by
  have hreaches := reaches_parts page ([d, t, .hardline].flatMap Doc.parts)
  simp only [List.flatMap_cons, List.flatMap_nil, List.map_append] at hreaches
  exact hreaches

theorem holds_row (hd : d.every Doc.isUnheld = true) (t : String) :
    (fresh (d.parts.map topChunk ++ ((Doc.ofString t).parts.map topChunk ++ [lineEnd]))).Holds
      Doc.isUnheld := by
  have hdocs {ds : List Doc} (h : ∀ e ∈ ds, e.every Doc.isUnheld = true) :
      ∀ chunk ∈ ds.map topChunk, chunk.doc.every Doc.isUnheld = true := by
    intro chunk hchunk
    obtain ⟨e, he, rfl⟩ := List.mem_map.mp hchunk
    exact Doc.every_settle Doc.isUnheld_settle e (h e he)
  have ht : (Doc.ofString t).every Doc.isUnheld = true := by
    unfold Doc.ofString
    split <;> rfl
  intro chunk hchunk
  rcases hchunk with hchunk | hchunk
  · rcases List.mem_append.mp hchunk with hchunk | hchunk
    · exact hdocs (Doc.every_parts hd) chunk hchunk
    · rcases List.mem_append.mp hchunk with hchunk | hchunk
      · exact hdocs (Doc.every_parts ht) chunk hchunk
      · rw [List.mem_singleton.mp hchunk]
        rfl
  · cases hchunk

/-- Comments above a node and behind it leave what follows the node on its own place. -/
theorem exists_render_of_beside (page : Page) (hd : d.every Doc.isUnheld = true)
    (hcs : ∀ c ∈ cs, c.isBlock = false) (t : String)
    (hparts : spliced.parts =
      (above cs).flatMap Doc.parts ++ d.parts ++ beside (cs.filter (!·.leading))) :
    ∃ line,
      (render page (.cat [d, t, .hardline])).toList =
        (line ++ t.toList).rdropWhile isTrailingBlank ++ ['\n'] ∧
      (render page (.cat [spliced, t, .hardline])).toList =
        headings cs ++
          (line ++ t.toList ++ remarks (cs.filter (!·.leading))).rdropWhile isTrailingBlank ++
          ['\n'] := by
  have hrs : ∀ c ∈ cs.filter (!·.leading), c.isBlock = false :=
    fun c hc => hcs c (List.mem_filter.mp hc).1
  generalize cs.filter (!·.leading) = rs at *
  have htext := lays_ofString page t
  generalize hT : (Doc.ofString t).parts.map topChunk = T at htext
  have hlook := lookAlike_beside rs (T ++ [lineEnd])
  obtain ⟨u, hplain, hspliced, hstack, hnone, hpad⟩ := exists_reaches_atop page hlook
    (fresh (d.parts.map topChunk)) rfl (hT ▸ holds_row hd t) (padded_of_none rfl)
  rw [atop_of_stack hstack] at hplain hspliced
  refine ⟨u.out.reverse, ?_, ?_⟩
  · obtain ⟨v, hreaches, hvstack, hvnone, hvout⟩ :=
      exists_reaches_last [] (List.forall_mem_nil _) htext hstack hnone
    have hstart := reaches_row page d t
    rw [hT] at hstart
    rw [toList_render_of_reaches ((hstart.trans hplain).trans hreaches) hvstack hvnone, hvout,
      remarks, List.flatMap_nil, List.append_nil]
  · have hlast : Lays page ((beside rs).map topChunk ++ T) t.toList (waiting rs) := by
      have happend := lays_append (lays_beside page rs) htext
      rwa [List.nil_append, List.append_nil] at happend
    obtain ⟨v, hreaches, hvstack, hvnone, hvout⟩ :=
      exists_reaches_last rs hrs hlast hstack hnone
    have hstart := reaches_row page spliced t
    rw [hT, hparts, List.map_append, List.map_append, List.append_assoc,
      List.append_assoc] at hstart
    rw [List.append_assoc] at hreaches
    have hbelow := reaches_after (isClosed_headings cs) (hspliced.trans hreaches)
      (padded_of_none rfl)
    have hrun := (hstart.trans (reaches_headings page hcs _)).trans hbelow
    rw [toList_render_of_reaches hrun hvstack hvnone, State.after, List.reverse_append,
      List.reverse_reverse, hvout, ← List.append_assoc (headings cs)]

theorem exists_render_of_below (page : Page) {behind : List Comment}
    (hbehind : ∀ r ∈ behind, r.isBlock = false) (hc : c.isBlock = false) (t : String)
    {ds : List Doc} (hparts : spliced.parts = ds ++ .hardline :: (c.doc.parts ++ beside behind)) :
    ∃ lines, (render page (.cat [spliced, t, .hardline])).toList =
      lines ++ '\n' ::
        (c.text.toList ++ t.toList ++ remarks behind).rdropWhile isTrailingBlank ++ ['\n'] := by
  have hcomment : Lays page (c.doc.parts.map topChunk) c.text.toList [] := by
    rw [Comment.doc_of_isBlock hc]
    exact lays_ofString page c.text
  have hlast : Lays page (c.doc.parts.map topChunk ++ ((beside behind).map topChunk ++
      (Doc.ofString t).parts.map topChunk)) (c.text.toList ++ t.toList) (waiting behind) := by
    have happend := lays_append hcomment
      (lays_append (lays_beside page behind) (lays_ofString page t))
    rwa [List.nil_append, List.nil_append, List.append_nil] at happend
  have hstart := reaches_row page spliced t
  rw [hparts, List.map_append, List.map_cons, List.map_append, List.append_assoc,
    List.cons_append, List.append_assoc, ← List.append_assoc (List.map topChunk (beside behind)),
    ← List.append_assoc] at hstart
  generalize c.doc.parts.map topChunk ++ _ = row at hlast hstart
  obtain ⟨u, hreaches, hstack, hnone, lines, hout⟩ :=
    exists_reaches_lineEnd page (fresh (ds.map topChunk ++ lineEnd :: (row ++ [lineEnd]))) rfl
  have hpush : { u with stack := [] }.push (row ++ [lineEnd]) = u := by
    refine push_of_stack ?_
    rw [hstack, List.append_nil]
  obtain ⟨v, hreaches', hvstack, hvnone, hvout⟩ :=
    exists_reaches_last behind hbehind hlast (s := { u with stack := [] }) rfl hnone
  rw [hpush] at hreaches'
  refine ⟨lines.reverse, ?_⟩
  rw [toList_render_of_reaches ((hstart.trans hreaches).trans hreaches') hvstack hvnone, hvout,
    List.rdropWhile, List.rdropWhile]
  simp only [List.reverse_append, List.reverse_reverse, hout]
  rw [← List.append_assoc, dropWhile_append_cons rfl, List.reverse_append, List.reverse_cons]
  simp only [List.append_assoc, List.cons_append, List.nil_append]

theorem mapM_after_split {before behind : List Comment} {docs : List (List Doc)}
    (hc : isBelow endLine c = .ok true) (hbehind : ∀ r ∈ behind, isBelow endLine r = .ok false)
    (h : (before ++ c :: behind).mapM (after endLine) = .ok docs) :
    ∃ first : List (List Doc), docs.flatten.flatMap Doc.parts =
      first.flatten.flatMap Doc.parts ++ .hardline :: (c.doc.parts ++ beside behind) := by
  rw [List.mapM_append, Except.bind_eq_ok] at h
  obtain ⟨first, -, h⟩ := h
  obtain ⟨others, hothers, h⟩ := Except.bind_eq_ok.mp h
  obtain rfl := Except.pure_eq_ok.mp h
  obtain ⟨last, hlast, hflat⟩ := mapM_after_of_beside hbehind
  rw [List.mapM_cons, after_of_below hc, hlast] at hothers
  cases hothers
  refine ⟨first, ?_⟩
  rw [List.flatten_append, List.flatten_cons, hflat, List.flatMap_append, List.flatMap_append,
    parts_beside, List.flatMap_cons, List.flatMap_singleton, List.append_assoc]
  rfl

/-- What follows a node with comments is written where it is written without them, between the
comments above and those behind, as long as no comment goes below the node. Behind comments below
the node it is on the line of the last of them, directly behind its text. -/
theorem text_after_splice (page : Page) (d : Doc) (cs : List Comment)
    (endLine : Option Coordinate) (t : String) (hd : d.every Doc.isUnheld = true)
    (hcs : ∀ c ∈ cs, c.isBlock = false) :
    ((∀ c ∈ cs, c.leading = false → isBelow endLine c = .ok false) →
      ∃ spliced line, splice d cs endLine = .ok spliced ∧
        (render page (.cat [d, t, .hardline])).toList =
          (line ++ t.toList).rdropWhile isTrailingBlank ++ ['\n'] ∧
        (render page (.cat [spliced, t, .hardline])).toList =
          headings cs ++
            (line ++ t.toList ++ remarks (cs.filter (!·.leading))).rdropWhile isTrailingBlank ++
            ['\n']) ∧
    ∀ spliced before c behind, splice d cs endLine = .ok spliced →
      cs.filter (!·.leading) = before ++ c :: behind → isBelow endLine c = .ok true →
      (∀ r ∈ behind, isBelow endLine r = .ok false) →
      ∃ lines, (render page (.cat [spliced, t, .hardline])).toList =
        lines ++ '\n' ::
          (c.text.toList ++ t.toList ++ remarks behind).rdropWhile isTrailingBlank ++ ['\n'] := by
  constructor
  · intro hbeside
    have hrs : ∀ c ∈ cs.filter (!·.leading), isBelow endLine c = .ok false := by
      intro c hc
      obtain ⟨hmem, hleading⟩ := List.mem_filter.mp hc
      exact hbeside c hmem (by simpa using hleading)
    obtain ⟨docs, hdocs, hflat⟩ := mapM_after_of_beside hrs
    obtain ⟨spliced, hspliced⟩ := exists_splice hdocs d
    obtain ⟨docs', hdocs', hparts⟩ := parts_splice hspliced
    obtain rfl : docs = docs' := Except.ok.inj (hdocs.symm.trans hdocs')
    rw [hflat, parts_beside] at hparts
    obtain ⟨line, hplain, hrender⟩ := exists_render_of_beside page hd hcs t hparts
    exact ⟨spliced, line, hspliced, hplain, hrender⟩
  · intro spliced before c behind hspliced hsplit hc hbehind
    obtain ⟨docs, hdocs, hparts⟩ := parts_splice hspliced
    rw [hsplit] at hdocs
    obtain ⟨first, hfirst⟩ := mapM_after_split hc hbehind hdocs
    have hmem : ∀ r ∈ c :: behind, r.isBlock = false := by
      intro r hr
      have hr' : r ∈ cs.filter (!·.leading) := by
        rw [hsplit]
        exact List.mem_append_right _ hr
      exact hcs r (List.mem_filter.mp hr').1
    obtain ⟨hblock, hblocks⟩ := List.forall_mem_cons.mp hmem
    rw [hfirst, ← List.append_assoc] at hparts
    exact exists_render_of_below page hblocks hblock t hparts

/-- An argument with a comma behind it. With comments above and beside it the comma keeps its place;
with one below it the comma is on the line of the comment. -/
theorem text_after_splice_comma :
    (∃ spliced line,
      splice (.text "a") [⟨"# above", true, .int 1⟩, ⟨"# beside", false, .int 2⟩] (some (.int 2)) =
          .ok spliced ∧
        (render ⟨80, 2⟩ (.cat [.text "a", ",", .hardline])).toList =
          (line ++ ",".toList).rdropWhile isTrailingBlank ++ ['\n'] ∧
        (render ⟨80, 2⟩ (.cat [spliced, ",", .hardline])).toList =
          headings [⟨"# above", true, .int 1⟩, ⟨"# beside", false, .int 2⟩] ++
            (line ++ ",".toList ++ remarks [⟨"# beside", false, .int 2⟩]).rdropWhile
              isTrailingBlank ++ ['\n']) ∧
    ∃ spliced lines,
      splice (.text "a") [⟨"# later", false, .int 2⟩] (some (.int 1)) = .ok spliced ∧
        (render ⟨80, 2⟩ (.cat [spliced, ",", .hardline])).toList =
          lines ++ '\n' ::
            ("# later".toList ++ ",".toList ++ remarks []).rdropWhile isTrailingBlank ++
            ['\n'] := by
  constructor
  · refine (text_after_splice ⟨80, 2⟩ (.text "a")
      [⟨"# above", true, .int 1⟩, ⟨"# beside", false, .int 2⟩] (some (.int 2)) "," rfl
      (by decide +kernel)).1 ?_
    have hbeside : isBelow (some (.int 2)) ⟨"# beside", false, .int 2⟩ = .ok false := rfl
    simp [hbeside]
  · have hspliced : splice (.text "a") [⟨"# later", false, .int 2⟩] (some (.int 1)) =
        .ok (.cat [.text "a", .hardline, .text "# later"]) := rfl
    obtain ⟨lines, hlines⟩ := (text_after_splice ⟨80, 2⟩ (.text "a") [⟨"# later", false, .int 2⟩]
      (some (.int 1)) "," rfl (by decide +kernel)).2 _ [] ⟨"# later", false, .int 2⟩ [] hspliced rfl
      rfl (List.forall_mem_nil _)
    exact ⟨_, lines, hspliced, hlines⟩

/-- A comma behind an argument with a comment on the next line becomes a part of the comment. -/
theorem comma_in_comment_below :
    (splice (.text "a") [⟨"# later", false, .int 2⟩] (some (.int 1))).map
        (fun d => render ⟨80, 2⟩ (.cat [d, ",", .hardline])) = .ok "a\n# later,\n" := by
  rfl

end Comments

end RubyPretty
