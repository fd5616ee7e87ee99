import RubyPretty.Proofs.Doc.Flat
import RubyPretty.Proofs.Layout.FlatGroups
import RubyPretty.Proofs.Layout.Verbatim
/-!
# Three ways to write a document flat

A document that forces no line to end can be written on a single line. The look-ahead counts its
flat width (`scan_of_flexible`), a flat group writes its flat text (`flowing_step`), and so does the
flattened document on any page (`plain_step`). In a flat group the separators of a fill are tested
once more; they pass, since all that is left to write fits on the rest of the line.
-/

namespace RubyPretty.Layout

/-! ## Look-ahead -/

def Modes.AllFlat (modes : Modes) : Prop := ∀ id, modes.flat true id = true

theorem Modes.allFlat_nil : Modes.AllFlat [] := by
  intro id
  cases id <;> rfl

theorem Modes.AllFlat.noting {modes : Modes} (h : modes.AllFlat) (id : Option String) :
    (modes.noting id true).AllFlat := by
  cases id with
  | none => exact h
  | some id =>
      intro name
      cases name with
      | none => rfl
      | some name =>
          have hname := h (some name)
          simp only [Modes.flat, Modes.noting, List.lookup_cons] at hname ⊢
          by_cases heq : name == id
          · simp [heq]
          · simpa [heq] using hname

theorem Scan.spend_andThen (room width more : Nat) :
    (Scan.spend room width).andThen (fun room => .spend room more) =
      .spend room (width + more) := by
  unfold Scan.spend
  by_cases hwidth : width ≤ room
  · rw [if_pos hwidth]
    by_cases hmore : more ≤ room - width
    · have hboth : width + more ≤ room := by omega
      simp [Scan.andThen, hmore, hboth, Nat.sub_sub]
    · have hboth : ¬ width + more ≤ room := by omega
      simp [Scan.andThen, hmore, hboth]
  · have hboth : ¬ width + more ≤ room := by omega
    simp [Scan.andThen, hwidth, hboth]

theorem scan_of_flexible {modes : Modes} (hmodes : modes.AllFlat) (d : Doc)
    (h : d.every Doc.isFlexible = true) (room : Nat) :
    scan modes true room d = .spend room d.flatWidth := by
  induction d using Doc.induction generalizing room with
  | empty | breakParent => rfl
  | text s => rfl
  | newline b =>
      have hsoft := Doc.every_self h
      rw [Doc.isFlexible, Bool.not_eq_true'] at hsoft
      simp [scan, Doc.flatWidth, hsoft]
  | seq ds ih | fill ds ih =>
      have hparts : ∀ d ∈ ds, d.every Doc.isFlexible = true := by
        simp only [Doc.every, Doc.everyIn_eq, Bool.and_eq_true, List.all_eq_true] at h
        exact h.2
      clear h
      show scanAll modes true room ds = .spend room (Doc.flatWidthAll ds)
      induction ds generalizing room with
      | nil => rfl
      | cons d ds ihs =>
          rw [List.forall_mem_cons] at hparts
          have htail := fun room =>
            ihs (fun e he => ih e (List.mem_cons_of_mem d he)) room hparts.2
          rw [scanAll_cons, ih d List.mem_cons_self hparts.1, funext htail, Scan.spend_andThen]
          rfl
  | indent d ih | align _ d ih | root d ih =>
      rw [Doc.every, Bool.and_eq_true] at h
      exact ih h.2 room
  | group d id broken ih =>
      rw [Doc.every, Bool.and_eq_true, Doc.isFlexible, Bool.not_eq_true'] at h
      rw [scan, h.1]
      exact ih h.2 room
  | ifBreak b f id ihb ihf =>
      rw [Doc.every, Bool.and_eq_true, Bool.and_eq_true] at h
      rw [scan, if_pos (hmodes id)]
      exact ihf h.2.2 room
  | suffix => cases Doc.every_self h

namespace State

variable {page : Page} {s t : State} {text : List Char}

theorem fits_flexible_iff (hmodes : s.modes.AllFlat) {chunk : Chunk} (hflat : chunk.flat = true)
    (h : chunk.doc.every Doc.isFlexible = true) :
    s.fits page [chunk] = true ↔ (s.column : Int) + chunk.doc.flatWidth ≤ page.width := by
  rw [fits_iff, scanChunks_cons, hflat, scan_of_flexible hmodes chunk.doc h, Scan.spend]
  by_cases hroom : chunk.doc.flatWidth ≤ (page.width - s.column).toNat
  · rw [if_pos hroom]
    simp only [Scan.andThen, scanChunks, ne_eq, reduceCtorEq, not_false_eq_true, and_true]
    omega
  · rw [if_neg hroom]
    simp only [Scan.andThen, ne_eq, not_true_eq_false, and_false, false_iff]
    omega

/-! ## Writing flat text -/

def ahead (s : State) : List Char := s.stack.flatMap fun c => c.doc.flatChars

/-- What has been written, with what comes on a single line. -/
def flatText (s : State) : List Char := s.out.reverse ++ s.ahead

theorem ahead_cons (s : State) (chunk : Chunk) :
    { s with stack := chunk :: s.stack }.ahead = chunk.doc.flatChars ++ s.ahead := rfl

theorem ahead_push (s : State) {cs : List Chunk} {chunk : Chunk}
    (hcs : cs.flatMap (fun c => c.doc.flatChars) = chunk.doc.flatChars) :
    (s.push cs).ahead = { s with stack := chunk :: s.stack }.ahead := by
  rw [ahead_cons, ahead, push_stack, List.flatMap_append, hcs]
  rfl

theorem flatText_push (s : State) {cs : List Chunk} {chunk : Chunk}
    (hcs : cs.flatMap (fun c => c.doc.flatChars) = chunk.doc.flatChars) :
    (s.push cs).flatText = { s with stack := chunk :: s.stack }.flatText := by
  rw [flatText, ahead_push s hcs]
  rfl

theorem flatText_write (s : State) {x : String} {chunk : Chunk}
    (hx : x.toList = chunk.doc.flatChars) :
    (s.write x).flatText = { s with stack := chunk :: s.stack }.flatText := by
  rw [flatText, flatText, ahead_cons, write_out, List.reverse_append, List.reverse_reverse, hx,
    List.append_assoc]
  rfl

/-- All that comes is flexible, in flat mode and fits on the rest of the line. -/
structure Flowing (page : Page) (text : List Char) (s : State) : Prop where
  flexible : ∀ c ∈ s.stack, c.doc.every Doc.isFlexible = true
  flat : ∀ c ∈ s.stack, c.flat = true
  free : s.suffixes = []
  modes : s.modes.AllFlat
  room : (s.column : Int) + s.ahead.length ≤ page.width
  text_eq : s.flatText = text

theorem Flowing.room_cons {chunk : Chunk}
    (h : { s with stack := chunk :: s.stack }.Flowing page text) :
    (s.column : Int) + chunk.doc.flatChars.length + s.ahead.length ≤ page.width := by
  have hroom : (s.column : Int) + (chunk.doc.flatChars ++ s.ahead).length ≤ page.width := h.room
  rw [List.length_append] at hroom
  omega

theorem flowing_push {chunk : Chunk} (h : { s with stack := chunk :: s.stack }.Flowing page text)
    (cs : List Chunk) (hcs : cs.flatMap (fun c => c.doc.flatChars) = chunk.doc.flatChars)
    (hflexible : ∀ c ∈ cs, c.doc.every Doc.isFlexible = true) (hflat : ∀ c ∈ cs, c.flat = true) :
    (s.push cs).Flowing page text where
  flexible := by
    rw [push_stack]
    exact List.forall_mem_append.mpr ⟨hflexible, (List.forall_mem_cons.mp h.flexible).2⟩
  flat := by
    rw [push_stack]
    exact List.forall_mem_append.mpr ⟨hflat, (List.forall_mem_cons.mp h.flat).2⟩
  free := h.free
  modes := h.modes
  room := by
    rw [ahead_push s hcs]
    exact h.room
  text_eq := (flatText_push s hcs).trans h.text_eq

theorem flowing_write {chunk : Chunk} (h : { s with stack := chunk :: s.stack }.Flowing page text)
    {x : String} (hx : x.toList = chunk.doc.flatChars) : (s.write x).Flowing page text where
  flexible := (List.forall_mem_cons.mp h.flexible).2
  flat := (List.forall_mem_cons.mp h.flat).2
  free := h.free
  modes := h.modes
  room := by
    have hroom := h.room_cons
    rw [← hx, String.length_toList] at hroom
    show ((s.column + x.length : Nat) : Int) + s.ahead.length ≤ page.width
    omega
  text_eq := (flatText_write s hx).trans h.text_eq

/-- In a flat chunk that fits, all items of a fill are written flat. -/
theorem flat_fillChunks {chunk : Chunk} (hflat : chunk.flat = true) (hmodes : s.modes.AllFlat)
    {items : List Doc} (hitems : ∀ d ∈ items, d.every Doc.isFlexible = true)
    (hroom : (s.column : Int) + (items.flatMap Doc.flatChars).length ≤ page.width) :
    ∀ c ∈ s.fillChunks page chunk items, c.flat = true := by
  -- the items up to any of them fit, since all of them do
  have hfits : ∀ d : Doc, d.every Doc.isFlexible = true →
      d.flatWidth ≤ (items.flatMap Doc.flatChars).length →
      s.fits page [{ chunk with doc := d, flat := true }] = true := by
    intro d hd hle
    rw [fits_flexible_iff hmodes rfl hd]
    show (s.column : Int) + d.flatWidth ≤ page.width
    omega
  match items with
  | [] => exact List.forall_mem_nil _
  | [content] =>
      rw [fillChunks, List.forall_mem_singleton]
      simp [hflat]
  | [content, separator] =>
      have hcontent := hitems content List.mem_cons_self
      have hle : content.flatWidth ≤ ([content, separator].flatMap Doc.flatChars).length := by
        rw [List.flatMap_cons, List.length_append, Doc.length_flatChars]
        omega
      rw [fillChunks, List.forall_mem_cons, List.forall_mem_singleton,
        hfits content hcontent hle, Doc.hasForcedBreak_of_flexible hcontent]
      exact ⟨rfl, rfl⟩
  | content :: separator :: next :: more =>
      have hpair : (Doc.seq [content, separator, next]).every Doc.isFlexible = true := by
        rw [Doc.every, Doc.everyIn_eq, Bool.and_eq_true, List.all_eq_true]
        refine ⟨rfl, fun d hd => hitems d ?_⟩
        exact List.mem_append_left more hd
      have hle : (Doc.seq [content, separator, next]).flatWidth ≤
          ((content :: separator :: next :: more).flatMap Doc.flatChars).length := by
        rw [← Doc.length_flatChars, Doc.flatChars_seq]
        simp only [List.flatMap_cons, List.flatMap_nil, List.length_append, List.length_nil]
        omega
      rw [fillChunks, List.forall_mem_cons, List.forall_mem_cons, List.forall_mem_singleton,
        hfits _ hpair hle, hflat, Bool.or_true]
      exact ⟨rfl, rfl, hflat⟩

theorem flowing_take (h : { s with stack := chunk :: s.stack }.Flowing page text) :
    (s.take page chunk).Flowing page text := by
  obtain ⟨hflexible, hrest⟩ := List.forall_mem_cons.mp h.flexible
  have hflat := (List.forall_mem_cons.mp h.flat).1
  obtain ⟨doc, indent, root, flat⟩ := chunk
  simp only at hflat
  subst hflat
  cases doc with
  | empty => exact flowing_push h [] rfl (List.forall_mem_nil _) (List.forall_mem_nil _)
  | text x => exact flowing_write h rfl
  | newline b =>
      have hsoft := Doc.every_self hflexible
      rw [Doc.isFlexible, Bool.not_eq_true'] at hsoft
      have htake : s.take page ⟨.newline b, indent, root, true⟩ = s.write b.flat := by
        simp [take, hsoft]
      rw [htake]
      apply flowing_write h
      rw [Doc.flatChars, hsoft]
      rfl
  | breakParent | suffix => cases Doc.every_self hflexible
  | seq ds =>
      apply flowing_push h
      · rw [List.flatMap_map, Doc.flatChars_seq]
        rfl
      · rw [List.forall_mem_map]
        exact Doc.every_seq hflexible
      · rw [List.forall_mem_map]
        exact fun _ _ => rfl
  | indent d | align n d | root d =>
      rw [Doc.every, Bool.and_eq_true] at hflexible
      exact flowing_push h _ (List.append_nil _) (List.forall_mem_singleton.mpr hflexible.2)
        (List.forall_mem_singleton.mpr rfl)
  | group d id broken =>
      rw [Doc.every, Bool.and_eq_true] at hflexible
      rw [take_group s page _ rfl, groupFlat, Bool.true_or]
      have hpush := flowing_push h [⟨d, indent, root, true⟩] (List.append_nil _)
        (List.forall_mem_singleton.mpr hflexible.2) (List.forall_mem_singleton.mpr rfl)
      exact ⟨hpush.flexible, hpush.flat, hpush.free, h.modes.noting id, hpush.room, hpush.text_eq⟩
  | ifBreak b f id =>
      rw [Doc.every, Bool.and_eq_true, Bool.and_eq_true] at hflexible
      have htake : s.take page ⟨.ifBreak b f id, indent, root, true⟩ =
          s.push [⟨f, indent, root, true⟩] := by
        rw [take]
        simp only [h.modes id]
        rfl
      rw [htake]
      exact flowing_push h _ (List.append_nil _) (List.forall_mem_singleton.mpr hflexible.2.2)
        (List.forall_mem_singleton.mpr rfl)
  | fill items =>
      have hitems := Doc.every_fill hflexible
      have hroom := h.room_cons
      rw [Doc.flatChars_fill] at hroom
      apply flowing_push h
      · rw [Doc.flatChars_fill]
        exact flatMap_fillChunks Doc.flatChars Doc.flatChars_fill s page _ items
      · exact every_fillChunks (fun _ _ _ _ _ => rfl) s page _ hflexible
      · exact flat_fillChunks (s := s) rfl h.modes hitems (by omega)

theorem flowing_step (hs : s.step page = some t) (h : s.Flowing page text) :
    t.Flowing page text := by
  rcases step_cases hs with ⟨chunk, rest, hstack, rfl⟩ | ⟨-, hsome, -⟩
  · refine flowing_take (s := { s with stack := rest }) ?_
    show { s with stack := chunk :: rest }.Flowing page text
    rw [← hstack]
    exact h
  · exact absurd h.free hsome

theorem isTooWide_of_flat (h : ∀ c ∈ s.stack, c.flat = true) : s.isTooWide = false := by
  unfold isTooWide
  split
  · next amount child indent root rest hstack =>
      have hflat := h ⟨.align amount child, indent, root, false⟩
      rw [hstack] at hflat
      cases hflat List.mem_cons_self
  · rfl

/-! ## The flat group -/

theorem propagateBreaks_group {d : Doc} (h : d.every Doc.isFlexible = true) :
    (Doc.group d none false).propagateBreaks = .group d none false := by
  rw [Doc.propagateBreaks, Doc.settle_group, Doc.settle_of_flexible d h]
  rfl

/-- The first step on a group decides whether its flat width fits on the page. -/
theorem step_start_group (page : Page) {d : Doc} (h : d.every Doc.isFlexible = true) :
    (start (.group d none false)).step page =
      some { start (.group d none false) with
        stack := [⟨d, 0, 0, decide ((d.flatWidth : Int) ≤ page.width)⟩] } := by
  have hfits : { start (.group d none false) with stack := [] }.fits page [⟨d, 0, 0, true⟩] = true ↔
      ((0 : Nat) : Int) + d.flatWidth ≤ page.width := fits_flexible_iff Modes.allFlat_nil rfl h
  have hflat : { start (.group d none false) with stack := [] }.groupFlat page
      ⟨.group d none false, 0, 0, false⟩ d false = decide ((d.flatWidth : Int) ≤ page.width) := by
    rw [Bool.eq_iff_iff, decide_eq_true_eq, groupFlat]
    simpa [start] using hfits
  show some (take _ page ⟨.group d none false, 0, 0, false⟩) = _
  rw [take_group _ page _ rfl, hflat]
  rfl

/-- The machine has not started on a group yet, or it writes the flat text of the group. -/
def Flows (page : Page) (d : Doc) (s : State) : Prop :=
  s = start (.group d none false) ∨ s.Flowing page d.flatChars

theorem flows_step {d : Doc} (hd : d.every Doc.isFlexible = true)
    (hwidth : (d.flatWidth : Int) ≤ page.width) (hs : s.step page = some t)
    (h : s.Flows page d) : t.Flows page d := by
  rcases h with rfl | h
  · rw [step_start_group page hd, decide_eq_true hwidth] at hs
    obtain rfl := Option.some.inj hs
    right
    exact
      { flexible := List.forall_mem_singleton.mpr hd
        flat := List.forall_mem_singleton.mpr rfl
        free := rfl
        modes := Modes.allFlat_nil
        room := by
          show ((0 : Nat) : Int) + (d.flatChars ++ []).length ≤ page.width
          rw [List.append_nil, Doc.length_flatChars]
          omega
        text_eq := List.append_nil _ }
  · exact .inr (flowing_step hs h)

theorem isTooWide_of_flows {d : Doc} (h : s.Flows page d) : s.isTooWide = false := by
  rcases h with rfl | h
  · rfl
  · exact isTooWide_of_flat h.flat

/-- A group whose flat width fits on the page is written as its flat text. -/
theorem render_group {d : Doc} (hd : d.every Doc.isFlexible = true)
    (hwidth : (d.flatWidth : Int) ≤ page.width) :
    render page (.group d none false) = String.ofList d.flatChars := by
  have hflows : (finish page (.group d none false)).Flows page d := by
    refine run_induction page (fun _ _ => flows_step hd hwidth) _ _ (.inl ?_)
    rw [propagateBreaks_group hd]
  obtain ⟨hstack, -⟩ := done_finish page (.group d none false)
  rcases hflows with hstart | hflowing
  · rw [hstart] at hstack
    cases hstack
  · have htext := hflowing.text_eq
    rw [flatText, ahead, hstack, List.flatMap_nil, List.append_nil] at htext
    rw [render_eq, State.text, htext]

theorem render?_group {d : Doc} (hd : d.every Doc.isFlexible = true)
    (hwidth : (d.flatWidth : Int) ≤ page.width) (htab : Text.canHoldBlanks page.tab = true) :
    render? page (.group d none false) = some (render page (.group d none false)) := by
  have hstart : (start (Doc.group d none false).propagateBreaks).Flows page d := by
    rw [propagateBreaks_group hd]
    exact .inl rfl
  rw [render?, htab, isWritable_of_step (fun _ _ => flows_step hd hwidth)
    (fun _ => isTooWide_of_flows) _ hstart]
  rfl

/-! ## The flattened document -/

theorem plain_take (page : Page) {chunk : Chunk} (hfree : s.suffixes = [])
    (hplain : chunk.doc.isPlain = true) :
    (s.take page chunk).flatText = { s with stack := chunk :: s.stack }.flatText ∧
      (s.take page chunk).suffixes = [] := by
  obtain ⟨doc, indent, root, flat⟩ := chunk
  cases doc with
  | empty => exact ⟨rfl, hfree⟩
  | text x => exact ⟨flatText_write s rfl, hfree⟩
  | seq ds =>
      refine ⟨flatText_push s ?_, hfree⟩
      rw [List.flatMap_map, Doc.flatChars_seq]
      rfl
  | indent d | align n d | root d => exact ⟨flatText_push s (List.append_nil _), hfree⟩
  | _ => cases hplain

theorem plain_step (hs : s.step page = some t) (hplain : s.Holds Doc.isPlain)
    (hfree : s.suffixes = []) : t.flatText = s.flatText ∧ t.suffixes = [] := by
  rcases step_cases hs with ⟨chunk, rest, hstack, rfl⟩ | ⟨-, hsome, -⟩
  · have hmem : chunk ∈ s.stack := by rw [hstack]; exact List.mem_cons_self
    have htake := plain_take (s := { s with stack := rest }) page hfree
      (Doc.every_self (hplain chunk (.inl hmem)))
    simpa only [← hstack] using htake
  · exact absurd hfree hsome

theorem fillClosed_isPlain : FillClosed Doc.isPlain := fun _ _ _ _ h => by cases h

theorem render_plain (page : Page) {d : Doc} (h : d.every Doc.isPlain = true) :
    render page d = String.ofList d.flatChars := by
  have hsettled : d.propagateBreaks.every Doc.isPlain = true := by
    refine Doc.every_settle (fun e he => ?_) d h
    cases e with
    | seq ds => rw [Doc.settle_seq]; rfl
    | fill ds => cases he
    | _ => exact he
  have hrun : (finish page d).Holds Doc.isPlain ∧ (finish page d).suffixes = [] ∧
      (finish page d).flatText = d.flatChars := by
    refine run_induction page
      (P := fun s => s.Holds Doc.isPlain ∧ s.suffixes = [] ∧ s.flatText = d.flatChars)
      (fun s t hs hp => ?_) _ _ ⟨holds_start hsettled, rfl, ?_⟩
    · obtain ⟨htext, hfree⟩ := plain_step hs hp.1 hp.2.1
      exact ⟨holds_step fillClosed_isPlain hs hp.1, hfree, htext.trans hp.2.2⟩
    · show d.propagateBreaks.flatChars ++ [] = d.flatChars
      rw [List.append_nil, Doc.propagateBreaks, Doc.flatChars_settle]
  have htext := hrun.2.2
  rw [flatText, ahead, (done_finish page d).1, List.flatMap_nil, List.append_nil] at htext
  rw [render_eq, State.text, htext]

theorem isWritable_flatten {d : Doc} (hd : d.every Doc.isFlexible = true)
    (h : d.every Doc.isWritable = true) : d.flatten.every Doc.isWritable = true := by
  apply Doc.every_flatten (q := Doc.isWritable) _ _ d hd h
  · intro e _ hnot
    cases e with
    | align => cases hnot
    | _ => rfl
  · exact fun _ _ _ h => h

end State

open State

/-- Three notions of flat agree. Take a document that neither forces a line to end nor holds
anything back. If its flat width fits on the page, then a group of it is written as the flattened
document is on a page of any width, in a text of just that width. If it does not fit, the group is
laid out broken. The texts can really be written unless an indentation is too wide for a text. -/
theorem flat_layouts_agree (page : Page) (d : Doc) (hd : d.every Doc.isFlexible = true) :
    ((d.flatWidth : Int) ≤ page.width →
      (∀ width, render page (.group d none false) = render ⟨width, page.tab⟩ d.flatten) ∧
        (render page (.group d none false)).length = d.flatWidth ∧
        (Text.canHoldBlanks page.tab = true →
          render? page (.group d none false) = some (render page (.group d none false)) ∧
            (d.every Doc.isWritable = true →
              ∀ width, render? page (.group d none false) =
                render? ⟨width, page.tab⟩ d.flatten))) ∧
      (page.width < d.flatWidth →
        (moment page (.group d none false) 1).stack = [⟨d, 0, 0, false⟩]) := by
  constructor
  · intro hwidth
    have hgroup := render_group hd hwidth
    have hflatten (width : Int) : render page (.group d none false) =
        render ⟨width, page.tab⟩ d.flatten := by
      rw [hgroup, render_plain _ (Doc.isPlain_flatten hd), Doc.flatChars_flatten]
    refine ⟨hflatten, ?_, fun htab => ⟨render?_group hd hwidth htab, fun hwritable width => ?_⟩⟩
    · rw [hgroup, String.length_ofList, Doc.length_flatChars]
    · have hplain : render? ⟨width, page.tab⟩ d.flatten =
          some (render ⟨width, page.tab⟩ d.flatten) :=
        render?_of_isWritable htab (isWritable_flatten hd hwritable)
      rw [render?_group hd hwidth htab, hflatten width, hplain]
  · intro hwidth
    have hstep := step_start_group page hd
    rw [decide_eq_false (by omega)] at hstep
    rw [moment_succ]
    show ((start (Doc.group d none false).propagateBreaks).step page |>.getD _).stack = _
    rw [propagateBreaks_group hd, hstep]
    rfl

/-- A named group, a choice that follows it, and a fill that ends in a separator. -/
def sampleFlat : Doc :=
  .seq [
    .group (.seq [.text "a", .line, .text "b"]) (some "ab") false,
    .ifBreak (.text ",") (.text ";") (some "ab"),
    .align 3 (.fill [.text "c", .line, .text "d", .softline])]

theorem flat_layouts_agree_sample :
    (∀ width, render ⟨7, 2⟩ (.group sampleFlat none false) = render ⟨width, 2⟩ sampleFlat.flatten) ∧
      (render ⟨7, 2⟩ (.group sampleFlat none false)).length = 7 ∧
      (∀ width, render? ⟨7, 2⟩ (.group sampleFlat none false) =
        render? ⟨width, 2⟩ sampleFlat.flatten) ∧
      (moment ⟨6, 2⟩ (.group sampleFlat none false) 1).stack = [⟨sampleFlat, 0, 0, false⟩] := by
  have hflexible : sampleFlat.every Doc.isFlexible = true := by decide
  obtain ⟨hrender, hlength, hwritten⟩ :=
    (flat_layouts_agree ⟨7, 2⟩ sampleFlat hflexible).1 (by decide)
  exact ⟨hrender, hlength, (hwritten rfl).2 (by decide),
    (flat_layouts_agree ⟨6, 2⟩ sampleFlat hflexible).2 (by decide)⟩

end RubyPretty.Layout
