import RubyPretty.Proofs.Doc.Settled
import RubyPretty.Proofs.Layout.Lines
/-!
# Groups that are written flat stay on the page

The look-ahead takes every later group for broken, while the machine may find that such a group
fits and write it flat. The look-ahead is right all the same: as long as the line goes on, each step
leaves a stack that fits on the rest of the line (`fits_step`). A broken group looks ahead to the
same texts as before, and a group that is written flat has been looked at anew.
-/

namespace RubyPretty

/-- Neither a fill nor a suffix nor a choice by a named group, and no text with a line feed. -/
def Doc.isSimple : Doc → Bool
  | .fill _ | .suffix _ => false
  | .ifBreak _ _ id => id.isNone
  | .text s => '\n' ∉ s.toList
  | .newline b => '\n' ∉ b.flat.toList
  | _ => true

theorem Doc.isSimple_settle (d : Doc) (h : d.isSimple = true) : (settle d).1.isSimple = true := by
  cases d with
  | fill | suffix => cases h
  | _ => exact h

namespace Layout

/-! ## Look-ahead -/

def Scan.andThen : Scan → (Nat → Scan) → Scan
  | .left room, next => next room
  | done, _ => done

theorem Scan.andThen_assoc (x : Scan) (f g : Nat → Scan) :
    (x.andThen f).andThen g = x.andThen fun room => (f room).andThen g := by
  cases x <;> rfl

theorem Scan.andThen_congr (x : Scan) {f g : Nat → Scan} (h : ∀ room, f room = g room) :
    x.andThen f = x.andThen g :=
  congrArg x.andThen (funext h)

theorem scanAll_cons (modes : Modes) (flat : Bool) (room : Nat) (d : Doc) (ds : List Doc) :
    scanAll modes flat room (d :: ds) =
      (scan modes flat room d).andThen fun room => scanAll modes flat room ds := by
  rw [scanAll]
  cases scan modes flat room d <;> rfl

theorem scanChunks_cons (modes : Modes) (room : Nat) (c : Chunk) (cs : List Chunk) :
    scanChunks modes room (c :: cs) =
      (scan modes c.flat room c.doc).andThen fun room => scanChunks modes room cs := by
  rw [scanChunks]
  cases scan modes c.flat room c.doc <;> rfl

theorem scanChunks_withDoc (modes : Modes) (room : Nat) (chunk : Chunk) (ds : List Doc)
    (cs : List Chunk) :
    scanChunks modes room (ds.map chunk.withDoc ++ cs) =
      (scanAll modes chunk.flat room ds).andThen fun room => scanChunks modes room cs := by
  induction ds generalizing room with
  | nil => rfl
  | cons d ds ih =>
      rw [List.map_cons, List.cons_append, scanChunks_cons, scanAll_cons, Scan.andThen_assoc]
      exact Scan.andThen_congr _ ih

theorem scan_modes (modes modes' : Modes) (d : Doc) (h : d.every Doc.isSimple = true) (flat : Bool)
    (room : Nat) : scan modes flat room d = scan modes' flat room d := by
  induction d using Doc.induction generalizing flat room with
  | empty | text | newline | breakParent => simp only [scan]
  | seq ds ih =>
      have hparts := Doc.every_seq h
      clear h
      simp only [scan]
      induction ds generalizing room with
      | nil => rfl
      | cons d ds ihs =>
          rw [scanAll_cons, scanAll_cons, ih d List.mem_cons_self (hparts d List.mem_cons_self)]
          apply Scan.andThen_congr
          intro room'
          exact ihs (fun e he => ih e (List.mem_cons_of_mem d he)) room'
            (fun e he => hparts e (List.mem_cons_of_mem d he))
  | indent d ih | align n d ih | group d id broken ih | root d ih =>
      simp only [Doc.every, Bool.and_eq_true] at h
      simp only [scan]
      exact ih h.2 _ room
  | ifBreak b f id ihb ihf =>
      simp only [Doc.every, Doc.isSimple, Option.isNone_iff_eq_none, Bool.and_eq_true] at h
      obtain ⟨rfl, hb, hf⟩ := h
      cases flat
      · exact ihb hb false room
      · exact ihf hf true room
  | fill ds ih => cases Doc.every_self h
  | suffix d ih => cases Doc.every_self h

theorem scanChunks_modes (modes modes' : Modes) (room : Nat) (cs : List Chunk)
    (h : ∀ c ∈ cs, c.doc.every Doc.isSimple = true) :
    scanChunks modes room cs = scanChunks modes' room cs := by
  induction cs generalizing room with
  | nil => rfl
  | cons c cs ih =>
      rw [scanChunks_cons, scanChunks_cons, scan_modes modes modes' c.doc (h c List.mem_cons_self)]
      exact Scan.andThen_congr _ fun room' => ih room' fun e he => h e (List.mem_cons_of_mem c he)

namespace State

variable {page : Page} {s t : State}

theorem fits_iff (s : State) (page : Page) (cs : List Chunk) :
    s.fits page cs = true ↔
      (s.column : Int) ≤ page.width ∧
        scanChunks s.modes (page.width - s.column).toNat cs ≠ .overflow := by
  unfold fits Layout.fits
  split
  · next h =>
      constructor
      · intro h'
        cases h'
      · intro h'
        omega
  · next h =>
      rw [bne_iff_ne]
      exact ⟨fun h' => ⟨by omega, h'⟩, fun h' => h'.2⟩

theorem fits_write {x : String} {chunk : Chunk}
    (hscan : ∀ room, scan s.modes chunk.flat room chunk.doc = .spend room x.length)
    (h : s.fits page (chunk :: s.stack) = true) : (s.write x).fits page s.stack = true := by
  rw [fits_iff] at h ⊢
  obtain ⟨hcolumn, hroom⟩ := h
  rw [scanChunks_cons, hscan, Scan.spend] at hroom
  split at hroom
  · next hle =>
      have hleft : (page.width - s.column).toNat - x.length =
          (page.width - ((s.column + x.length : Nat) : Int)).toNat := by omega
      rw [hleft] at hroom
      exact ⟨by rw [write_column]; omega, hroom⟩
  · exact absurd rfl hroom

theorem fits_take_group {chunk : Chunk} {d : Doc} {id : Option String} {broken : Bool}
    (hc : chunk.doc = .group d id broken) (hsimple : chunk.doc.every Doc.isSimple = true)
    (hrest : ∀ c ∈ s.stack, c.doc.every Doc.isSimple = true) :
    (s.take page chunk).fits page (s.take page chunk).stack = true ↔
      s.fits page ({ chunk with doc := d, flat := s.groupFlat page chunk d broken } :: s.stack) =
        true := by
  rw [hc] at hsimple
  simp only [Doc.every, Bool.and_eq_true] at hsimple
  rw [take_group s page chunk hc, fits_iff, fits_iff,
    scanChunks_modes _ s.modes _ _ (List.forall_mem_cons.mpr ⟨hsimple.2, hrest⟩)]

/-- As long as the line goes on, a stack that fits is followed by one that fits. -/
theorem fits_take {chunk : Chunk} (hsimple : chunk.doc.every Doc.isSimple = true)
    (hrest : ∀ c ∈ s.stack, c.doc.every Doc.isSimple = true)
    (hunforced : chunk.flat = true → chunk.doc.ForcesNoBreak)
    (hopen : ∀ b, chunk.doc = .newline b → chunk.flat = true ∧ b.hard = false)
    (h : s.fits page (chunk :: s.stack) = true) :
    (s.take page chunk).fits page (s.take page chunk).stack = true := by
  obtain ⟨doc, indent, root, flat⟩ := chunk
  cases doc with
  | empty | breakParent => simpa [fits_iff, scanChunks_cons, scan, Scan.andThen, take] using h
  | text x => exact fits_write (fun room => rfl) h
  | newline b =>
      obtain ⟨hflat, hhard⟩ := hopen b rfl
      simp only at hflat
      have hwrite : s.take page ⟨.newline b, indent, root, flat⟩ = s.write b.flat := by
        simp [take, hflat, hhard]
      rw [hwrite]
      exact fits_write (fun room => by simp [scan, hflat, hhard]) h
  | seq ds =>
      rw [fits_iff] at h ⊢
      simpa only [take, push_stack, push_column, push_modes, scanChunks_withDoc, scanChunks_cons,
        scan] using h
  | indent d | align n d | root d =>
      rw [fits_iff] at h ⊢
      simpa only [take, push_stack, push_column, push_modes, List.singleton_append,
        scanChunks_cons, scan] using h
  | ifBreak b f id =>
      rw [fits_iff] at h ⊢
      simp only [take, push_stack, push_column, push_modes, List.singleton_append, scanChunks_cons,
        scan, Chunk.withDoc] at h ⊢
      by_cases hside : s.modes.flat flat id = true <;> simpa [hside] using h
  | group d id broken =>
      rw [fits_take_group rfl hsimple hrest]
      cases flat with
      | true =>
          -- inside a flat group nothing is broken
          obtain ⟨rfl, -⟩ := (Doc.forcesNoBreak_group d id broken).mp (hunforced rfl)
          rw [fits_iff] at h ⊢
          simpa [scanChunks_cons, scan, groupFlat] using h
      | false =>
          cases hchosen : s.groupFlat page ⟨.group d id broken, indent, root, false⟩ d broken with
          | true =>
              simp only [groupFlat, Bool.false_or, Bool.and_eq_true] at hchosen
              exact hchosen.2
          | false =>
              rw [fits_iff] at h ⊢
              simpa [scanChunks_cons, scan] using h
  | fill items => cases Doc.every_self hsimple
  | suffix d => cases Doc.every_self hsimple

/-! ## Where flat chunks stand -/

/-- What a chunk leaves on the stack: parts in one mode, which is flat if the chunk was, and which
is flat otherwise only for a group that fits. -/
theorem stack_take (page : Page) {chunk : Chunk} (hsimple : chunk.doc.every Doc.isSimple = true)
    (hrest : ∀ c ∈ s.stack, c.doc.every Doc.isSimple = true) (hfree : s.suffixes = [])
    (hsettled : chunk.doc.IsSettled) (hunforced : chunk.flat = true → chunk.doc.ForcesNoBreak) :
    ∃ parts flat, (s.take page chunk).stack = parts ++ s.stack ∧
      (∀ c ∈ parts, c.flat = flat ∧ c.doc.IsSettled ∧ (flat = true → c.doc.ForcesNoBreak)) ∧
      (chunk.flat = true → flat = true) ∧
      (flat = true →
        chunk.flat = true ∨ (s.take page chunk).fits page (s.take page chunk).stack = true) := by
  obtain ⟨doc, indent, root, flat⟩ := chunk
  cases doc with
  | empty | breakParent | text x => exact ⟨[], flat, rfl, by simp, id, .inl⟩
  | newline b =>
      refine ⟨[], flat, ?_, by simp, id, .inl⟩
      rcases take_newline s page ⟨.newline b, indent, root, flat⟩ rfl with
        ⟨-, -, he⟩ | ⟨-, ⟨hne, -⟩ | ⟨-, -, he⟩ | ⟨-, -, he⟩⟩
      · rw [he]; rfl
      · exact absurd hfree hne
      · rw [he]; rfl
      · rw [he]; rfl
  | seq ds =>
      refine ⟨_, flat, rfl, ?_, id, .inl⟩
      simp only [Doc.isSettled_seq, Doc.forcesNoBreak_seq] at hsettled hunforced
      rw [List.forall_mem_map]
      exact fun d hd => ⟨rfl, hsettled d hd, fun hf => hunforced hf d hd⟩
  | indent d | align n d | root d =>
      refine ⟨[_], flat, rfl, ?_, id, .inl⟩
      simp only [Doc.isSettled_indent, Doc.isSettled_align, Doc.isSettled_root,
        Doc.forcesNoBreak_indent, Doc.forcesNoBreak_align, Doc.forcesNoBreak_root]
        at hsettled hunforced
      rw [List.forall_mem_singleton]
      exact ⟨rfl, hsettled, hunforced⟩
  | ifBreak b f id =>
      refine ⟨[_], flat, rfl, ?_, fun hf => hf, .inl⟩
      simp only [Doc.isSettled_ifBreak, Doc.forcesNoBreak_ifBreak] at hsettled hunforced
      rw [List.forall_mem_singleton]
      simp only [Chunk.withDoc, true_and]
      split
      · exact ⟨hsettled.2, fun hf => (hunforced hf).2⟩
      · exact ⟨hsettled.1, fun hf => (hunforced hf).1⟩
  | group d id broken =>
      rw [Doc.isSettled_group] at hsettled
      refine ⟨
        [⟨d, indent, root, s.groupFlat page ⟨.group d id broken, indent, root, flat⟩ d broken⟩],
        s.groupFlat page ⟨.group d id broken, indent, root, flat⟩ d broken, ?_, ?_, ?_, ?_⟩
      · rw [take_group s page _ rfl]
        rfl
      · rw [List.forall_mem_singleton]
        refine ⟨rfl, hsettled.1, fun hchosen => ?_⟩
        simp only [groupFlat, Bool.or_eq_true, Bool.and_eq_true, Bool.not_eq_true'] at hchosen
        rcases hchosen with hf | ⟨hb, -⟩
        · exact ((Doc.forcesNoBreak_group d id broken).mp (hunforced hf)).2
        · exact hsettled.2 hb
      · intro hf
        simp only at hf
        simp [groupFlat, hf]
      · intro hchosen
        rw [fits_take_group rfl hsimple hrest, hchosen]
        simp only [groupFlat, Bool.or_eq_true, Bool.and_eq_true] at hchosen
        exact hchosen.imp_right And.right
  | fill items => cases Doc.every_self hsimple
  | suffix d => cases Doc.every_self hsimple

/-! ## Runs -/

/-- What is known along the run of a simple document: flat chunks stand above all others and hold
no forced break, the column is the length of the line, and what is flat fits. -/
structure Measured (page : Page) (s : State) : Prop where
  simple : s.Holds Doc.isSimple
  settled : ∀ c ∈ s.stack, c.doc.IsSettled
  unforced : ∀ c ∈ s.stack, c.flat = true → c.doc.ForcesNoBreak
  ordered : s.stack.Pairwise fun c below => below.flat = true → c.flat = true
  free : s.suffixes = []
  padded : s.Padded
  column_eq : s.column = s.line.length
  fitted : ∀ chunk rest, s.stack = chunk :: rest → chunk.flat = true → s.fits page s.stack = true

theorem measured_start (page : Page) {d : Doc} (h : d.every Doc.isSimple = true) :
    (start d.propagateBreaks).Measured page where
  simple := holds_start (Doc.every_settle Doc.isSimple_settle d h)
  settled := by simpa [start] using Doc.isSettled_propagateBreaks d
  unforced := by simp [start]
  ordered := by simp [start]
  free := rfl
  padded := padded_start _
  column_eq := rfl
  fitted := by
    intro chunk rest hstack hflat
    simp only [start, List.cons.injEq] at hstack
    rw [← hstack.1] at hflat
    cases hflat

theorem length_line_write {x : String} (hx : '\n' ∉ x.toList) (s : State) :
    (s.write x).line.length = s.line.length + x.length := by
  rw [line_write hx, List.length_append, List.length_reverse, String.length_toList, Nat.add_comm]

theorem length_line_lineFeed (n : Nat) (out : List Char) :
    ((List.replicate n ' ' ++ '\n' :: out).takeWhile (· != '\n')).length = n := by
  rw [takeWhile_lineStart, List.length_replicate]

theorem column_take {chunk : Chunk} (hsimple : chunk.doc.every Doc.isSimple = true)
    (h : s.column = s.line.length) :
    (s.take page chunk).column = (s.take page chunk).line.length := by
  have hself := Doc.every_self hsimple
  obtain ⟨doc, indent, root, flat⟩ := chunk
  cases doc with
  | text x =>
      rw [Doc.isSimple, decide_eq_true_eq] at hself
      simp only [take]
      rw [length_line_write hself, write_column, h]
  | newline b =>
      rw [Doc.isSimple, decide_eq_true_eq] at hself
      rcases take_newline s page ⟨.newline b, indent, root, flat⟩ rfl with
        ⟨-, -, he⟩ | ⟨-, ⟨-, he⟩ | ⟨-, -, he⟩ | ⟨-, -, he⟩⟩ <;> rw [he]
      · rw [length_line_write hself, write_column, h]
      · exact h
      · exact (length_line_lineFeed _ _).symm
      · exact (length_line_lineFeed _ _).symm
  | group d id broken =>
      rw [take_group s page _ rfl]
      exact h
  | _ => exact h

def endsLine (s : State) : Bool :=
  match s.stack with
  | ⟨.newline b, _, _, flat⟩ :: _ => (!flat || b.hard) && s.suffixes.isEmpty
  | _ => false

theorem newline_of_endsLine {chunk : Chunk} {rest : List Chunk} (hstack : s.stack = chunk :: rest)
    (h : s.endsLine = true) :
    ∃ b, chunk.doc = .newline b ∧ (chunk.flat = false ∨ b.hard = true) := by
  unfold endsLine at h
  split at h
  · next b indent root flat below htop =>
      obtain rfl := (List.cons.inj (hstack.symm.trans htop)).1
      simp only [Bool.and_eq_true, Bool.or_eq_true, Bool.not_eq_true'] at h
      exact ⟨b, rfl, h.1⟩
  · cases h

theorem open_of_endsLine (hm : s.Measured page) {chunk : Chunk} {rest : List Chunk}
    (hstack : s.stack = chunk :: rest) (h : s.endsLine = false) :
    ∀ b, chunk.doc = .newline b → chunk.flat = true ∧ b.hard = false := by
  intro b hb
  obtain ⟨doc, indent, root, flat⟩ := chunk
  simp only at hb
  subst hb
  simpa [endsLine, hstack, hm.free] using h

theorem suffixes_take {chunk : Chunk} (hsimple : chunk.doc.every Doc.isSimple = true)
    (h : s.suffixes = []) : (s.take page chunk).suffixes = [] := by
  obtain ⟨doc, indent, root, flat⟩ := chunk
  cases doc with
  | newline b =>
      rcases take_newline s page ⟨.newline b, indent, root, flat⟩ rfl with
        ⟨-, -, he⟩ | ⟨-, ⟨-, he⟩ | ⟨-, -, he⟩ | ⟨-, -, he⟩⟩ <;> rw [he]
      · exact h
      · rfl
      · exact h
      · exact h
  | group d id broken =>
      rw [take_group s page _ rfl]
      exact h
  | suffix d => cases Doc.every_self hsimple
  | _ => exact h

theorem fillClosed_isSimple : FillClosed Doc.isSimple := fun _ _ _ _ h => by cases h

theorem fits_step (hs : s.step page = some t) (hm : s.Measured page) (hends : s.endsLine = false)
    (h : s.fits page s.stack = true) : t.fits page t.stack = true := by
  rcases step_cases hs with ⟨chunk, rest, hstack, rfl⟩ | ⟨-, hne, -⟩
  · have hmem : ∀ c ∈ chunk :: rest, c ∈ s.stack := fun c hc => hstack ▸ hc
    rw [hstack] at h
    exact fits_take (s := { s with stack := rest })
      (hm.simple chunk (.inl (hmem _ List.mem_cons_self)))
      (fun c hc => hm.simple c (.inl (hmem c (List.mem_cons_of_mem _ hc))))
      (hm.unforced chunk (hmem _ List.mem_cons_self)) (open_of_endsLine hm hstack hends) h
  · exact absurd hm.free hne

theorem endsLine_of_flat (hm : s.Measured page) {chunk : Chunk} {rest : List Chunk}
    (hstack : s.stack = chunk :: rest) (hflat : chunk.flat = true) : s.endsLine = false := by
  have hunforced := hm.unforced chunk (by rw [hstack]; exact List.mem_cons_self) hflat
  unfold endsLine
  split
  · next b indent root flat below htop =>
      obtain rfl : chunk = ⟨.newline b, indent, root, flat⟩ :=
        (List.cons.inj (hstack.symm.trans htop)).1
      simp only [Doc.forcesNoBreak_newline] at hunforced hflat
      simp [hunforced, hflat]
  · rfl

theorem measured_step (hs : s.step page = some t) (hm : s.Measured page) : t.Measured page := by
  rcases step_cases hs with ⟨chunk, rest, hstack, ht⟩ | ⟨-, hne, -⟩
  · have hmem : ∀ c ∈ chunk :: rest, c ∈ s.stack := fun c hc => hstack ▸ hc
    have hhead := hmem chunk List.mem_cons_self
    have hrest : ∀ c ∈ rest, c ∈ s.stack := fun c hc => hmem c (List.mem_cons_of_mem _ hc)
    have hsimple := hm.simple chunk (.inl hhead)
    have hordered := hm.ordered
    rw [hstack, List.pairwise_cons] at hordered
    obtain ⟨parts, flat, hparts, hin, hkeep, hnew⟩ :=
      stack_take (s := { s with stack := rest }) page hsimple
        (fun c hc => hm.simple c (.inl (hrest c hc))) hm.free (hm.settled chunk hhead)
        (hm.unforced chunk hhead)
    rw [← ht] at hparts hnew
    exact
      { simple := holds_step fillClosed_isSimple hs hm.simple
        padded := padded_step hs hm.padded
        free := by
          rw [ht]
          exact suffixes_take hsimple hm.free
        column_eq := by
          rw [ht]
          exact column_take hsimple hm.column_eq
        settled := by
          intro c hc
          rw [hparts, List.mem_append] at hc
          exact hc.elim (fun hc => (hin c hc).2.1) fun hc => hm.settled c (hrest c hc)
        unforced := by
          intro c hc hf
          rw [hparts, List.mem_append] at hc
          rcases hc with hc | hc
          · exact (hin c hc).2.2 ((hin c hc).1 ▸ hf)
          · exact hm.unforced c (hrest c hc) hf
        ordered := by
          rw [hparts, List.pairwise_append]
          refine ⟨List.pairwise_iff_forall_sublist.mpr ?_, hordered.2, ?_⟩
          · intro c below hsub hf
            rw [(hin c (hsub.subset (by simp))).1, ← (hin below (hsub.subset (by simp))).1, hf]
          · intro c hc below hbelow hf
            rw [(hin c hc).1]
            exact hkeep (hordered.1 below hbelow hf)
        fitted := by
          intro top below htop hf
          have hcause : chunk.flat = true ∨ t.fits page t.stack = true := by
            have hmem' : top ∈ parts ++ rest := by
              rw [← hparts, htop]
              exact List.mem_cons_self
            rcases List.mem_append.mp hmem' with hc | hc
            · exact hnew ((hin top hc).1 ▸ hf)
            · exact .inl (hordered.1 top hc hf)
          refine hcause.elim (fun hflat => ?_) id
          exact fits_step hs hm (endsLine_of_flat hm hstack hflat)
            (hm.fitted chunk rest hstack hflat) }
  · exact absurd hm.free hne

theorem run_succ (page : Page) (n : Nat) (s : State) :
    s.run page (n + 1) = ((s.run page n).step page).getD (s.run page n) := by
  induction n generalizing s with
  | zero =>
      simp only [run]
      cases s.step page <;> rfl
  | succ n ih =>
      rw [run]
      cases hs : s.step page with
      | none => simp [run, hs]
      | some t => simpa [run, hs] using ih t

/-- The machine after `n` steps of writing a document. -/
def moment (page : Page) (d : Doc) (n : Nat) : State := (start d.propagateBreaks).run page n

theorem moment_succ (page : Page) (d : Doc) (n : Nat) :
    moment page d (n + 1) = ((moment page d n).step page).getD (moment page d n) :=
  run_succ page n _

theorem measured_moment (page : Page) {d : Doc} (h : d.every Doc.isSimple = true) (n : Nat) :
    (moment page d n).Measured page :=
  run_induction page (fun _ _ => measured_step) n _ (measured_start page h)

theorem run_add (page : Page) (m n : Nat) (s : State) :
    s.run page (m + n) = (s.run page m).run page n := by
  induction n with
  | zero => rfl
  | succ n ih => rw [← Nat.add_assoc, run_succ, run_succ, ih]

theorem run_of_done {s : State} (page : Page) (h : s.step page = none) (n : Nat) :
    s.run page n = s := by
  cases n with
  | zero => rfl
  | succ n => rw [run, h]

theorem run_moment_weight (page : Page) (d : Doc) (n : Nat) :
    (moment page d n).run page (start d.propagateBreaks).weight = finish page d := by
  rw [moment, ← run_add, Nat.add_comm, run_add]
  exact run_of_done page (step_run page _ _ (Nat.le_refl _)) n

/-- The next step finds that a group fits, and writes it flat for that. -/
def choosesFlat (page : Page) (s : State) : Bool :=
  match s.stack with
  | ⟨.group d _ broken, indent, root, false⟩ :: rest =>
      !broken && s.fits page (⟨d, indent, root, true⟩ :: rest)
  | _ => false

theorem fits_moment (page : Page) {d : Doc} (h : d.every Doc.isSimple = true) {n m : Nat}
    (hle : n ≤ m) (hopen : ∀ j, n ≤ j → j < m → (moment page d j).endsLine = false)
    (hfits : (moment page d n).fits page (moment page d n).stack = true) :
    (moment page d m).fits page (moment page d m).stack = true := by
  induction hle with
  | refl => exact hfits
  | step hle ih =>
      next m =>
      have hbefore := ih fun j hj hlt => hopen j hj (Nat.lt_succ_of_lt hlt)
      rw [moment_succ]
      cases hs : (moment page d m).step page with
      | none => exact hbefore
      | some t =>
          exact fits_step hs (measured_moment page h m) (hopen m hle (Nat.lt_succ_self m)) hbefore

/-! ## Lines -/

theorem count_take {chunk : Chunk} (hsimple : chunk.doc.every Doc.isSimple = true)
    (hopen : ∀ b, chunk.doc = .newline b → chunk.flat = true ∧ b.hard = false) :
    (s.take page chunk).out.count '\n' = s.out.count '\n' := by
  have hself := Doc.every_self hsimple
  obtain ⟨doc, indent, root, flat⟩ := chunk
  cases doc with
  | text x =>
      rw [Doc.isSimple, decide_eq_true_eq] at hself
      simp only [take]
      rw [write_out, List.count_append, List.count_reverse, List.count_eq_zero_of_not_mem hself,
        Nat.zero_add]
  | newline b =>
      rw [Doc.isSimple, decide_eq_true_eq] at hself
      obtain ⟨hflat, hhard⟩ := hopen b rfl
      simp only at hflat
      have hwrite : s.take page ⟨.newline b, indent, root, flat⟩ = s.write b.flat := by
        simp [take, hflat, hhard]
      rw [hwrite, write_out, List.count_append, List.count_reverse,
        List.count_eq_zero_of_not_mem hself, Nat.zero_add]
  | group d id broken => rw [take_group s page _ rfl]
  | _ => rfl

/-- Taking blanks off the end of a line keeps its number and makes it no longer. -/
theorem trimmed_line {gone : List Char} (h : '\n' ∉ gone) (before : List Char) :
    before.count '\n' = (gone ++ before).count '\n' ∧
      (before.takeWhile (· != '\n')).length ≤ ((gone ++ before).takeWhile (· != '\n')).length := by
  rw [List.count_append, List.count_eq_zero_of_not_mem h, Nat.zero_add,
    takeWhile_append_of_not_mem h, List.length_append]
  exact ⟨rfl, Nat.le_add_left _ _⟩

/-- The step that ends a line leaves it as it is, but for blanks at its end. -/
theorem ended_take (page : Page) (hpad : s.Padded) (hfree : s.suffixes = []) {chunk : Chunk}
    {b : Break} (hc : chunk.doc = .newline b) (hends : chunk.flat = false ∨ b.hard = true) :
    ∃ before, ('\n' :: before) <:+ (s.take page chunk).out ∧
      before.count '\n' = s.out.count '\n' ∧
      (before.takeWhile (· != '\n')).length ≤ s.line.length := by
  rcases take_newline s page chunk hc with
    ⟨hflat, hhard, -⟩ | ⟨-, ⟨hne, -⟩ | ⟨-, -, he⟩ | ⟨-, -, he⟩⟩
  · rcases hends with hends | hends
    · rw [hflat] at hends
      cases hends
    · rw [hhard] at hends
      cases hends
  · exact absurd hfree hne
  · obtain ⟨gone, before, hout, hgone, hended⟩ := out_endLiteral hpad chunk
    have htrimmed := trimmed_line hgone before
    rw [← hout] at htrimmed
    exact ⟨before, ⟨_, by rw [he, hended]⟩, htrimmed⟩
  · obtain ⟨gone, before, hout, hgone, hended⟩ := out_endIndented s chunk
    have htrimmed := trimmed_line hgone before
    rw [← hout] at htrimmed
    exact ⟨before, ⟨_, by rw [he, hended]⟩, htrimmed⟩

/-- Line `k` keeps to the page: it has ended so, or it is being written and the rest of it fits. -/
def LineFits (page : Page) (k : Nat) (s : State) : Prop :=
  (s.out.count '\n' = k ∧ s.fits page s.stack = true) ∨
    ∃ before, ('\n' :: before) <:+ s.out ∧ before.count '\n' = k ∧
      ((before.takeWhile (· != '\n')).length : Int) ≤ page.width

theorem lineFits_step {k : Nat} (hs : s.step page = some t) (hm : s.Measured page)
    (h : s.LineFits page k) : t.LineFits page k := by
  rcases h with ⟨hk, hfits⟩ | ⟨before, hbefore, hline⟩
  · rcases step_cases hs with ⟨chunk, rest, hstack, rfl⟩ | ⟨-, hne, -⟩
    · by_cases hends : s.endsLine = true
      · obtain ⟨b, hc, hends⟩ := newline_of_endsLine hstack hends
        obtain ⟨before, hended, hcount, hlen⟩ :=
          ended_take (s := { s with stack := rest }) page hm.padded hm.free hc hends
        refine .inr ⟨before, hended, hcount.trans hk, ?_⟩
        have hcolumn := ((fits_iff s page s.stack).mp hfits).1
        rw [hm.column_eq] at hcolumn
        exact Int.le_trans (Int.ofNat_le.mpr hlen) hcolumn
      · rw [Bool.not_eq_true] at hends
        refine .inl ⟨?_, fits_step hs hm hends hfits⟩
        rw [← hk]
        exact count_take (s := { s with stack := rest })
          (hm.simple chunk (.inl (by rw [hstack]; exact List.mem_cons_self)))
          (open_of_endsLine hm hstack hends)
    · exact absurd hm.free hne
  · exact .inr ⟨before, written_step hs hm.padded rfl hbefore, hline⟩

theorem getElem?_lines_of_lineFits {k : Nat} (hm : s.Measured page) (h : s.LineFits page k) :
    ∃ line, (Text.lines s.text)[k]? = some line ∧ (line.length : Int) ≤ page.width := by
  rw [Text.lines, text, String.toList_ofList, List.getElem?_map]
  rcases h with ⟨hk, hfits⟩ | ⟨before, hbefore, hk, hlen⟩
  · rw [← hk, getElem?_pieces_reverse]
    refine ⟨_, rfl, ?_⟩
    have hcolumn := ((fits_iff s page s.stack).mp hfits).1
    rw [hm.column_eq] at hcolumn
    simpa [line] using hcolumn
  · rw [← hk, getElem?_pieces_ended hbefore]
    exact ⟨_, rfl, by simpa using hlen⟩

theorem lineFits_finish (page : Page) {d : Doc} (hd : d.every Doc.isSimple = true) (n k : Nat)
    (h : (moment page d n).LineFits page k) : (finish page d).LineFits page k := by
  rw [← run_moment_weight page d n]
  exact (run_induction page (P := fun s => s.Measured page ∧ s.LineFits page k)
    (fun _ _ hs hp => ⟨measured_step hs hp.1, lineFits_step hs hp.1 hp.2⟩) _ _
    ⟨measured_moment page hd n, h⟩).2

theorem fits_of_choosesFlat {page : Page} {s t : State} (hm : s.Measured page)
    (hs : s.step page = some t) (h : s.choosesFlat page = true) : t.fits page t.stack = true := by
  unfold choosesFlat at h
  split at h
  · next d id broken indent root rest hstack =>
      rw [Bool.and_eq_true] at h
      have hmem : ∀ c ∈ ⟨.group d id broken, indent, root, false⟩ :: rest, c ∈ s.stack :=
        fun c hc => hstack ▸ hc
      obtain rfl : _ = t := Option.some.inj ((by rw [step, hstack] : s.step page = _).symm.trans hs)
      have hflat : { s with stack := rest }.groupFlat page ⟨.group d id broken, indent, root, false⟩
          d broken = true := by
        rw [groupFlat, h.1]
        exact h.2
      rw [fits_take_group rfl (hm.simple _ (.inl (hmem _ List.mem_cons_self)))
        (fun c hc => hm.simple c (.inl (hmem c (List.mem_cons_of_mem _ hc)))), hflat]
      exact h.2
  · cases h

/-- A group that is written flat because it fits really fits: the line on which it stands ends
within the page, whatever comes after the group. So no line that is too long holds anything of a
flat group. -/
theorem flat_groups_keep_to_page (page : Page) (d : Doc) (hd : d.every Doc.isSimple = true)
    (n : Nat) :
    ((moment page d n).choosesFlat page = true →
      ∀ m, n < m → (∀ j, n < j → j < m → (moment page d j).endsLine = false) →
        ((moment page d m).column : Int) ≤ page.width) ∧
      (∀ chunk rest, (moment page d n).stack = chunk :: rest → chunk.flat = true →
        ∃ line, (Text.lines (render page d))[(moment page d n).out.count '\n']? = some line ∧
          (line.length : Int) ≤ page.width) := by
  have hm := measured_moment page hd n
  constructor
  · intro hchosen m hlt hopen
    have hfits : (moment page d (n + 1)).fits page (moment page d (n + 1)).stack = true := by
      rw [moment_succ]
      cases hs : (moment page d n).step page with
      | none =>
          have hdone := (done_of_step hs).1
          rw [choosesFlat, hdone] at hchosen
          cases hchosen
      | some t => exact fits_of_choosesFlat hm hs hchosen
    exact ((fits_iff _ _ _).mp (fits_moment page hd hlt hopen hfits)).1
  · intro chunk rest hstack hflat
    have hline : (moment page d n).LineFits page ((moment page d n).out.count '\n') :=
      .inl ⟨rfl, hm.fitted chunk rest hstack hflat⟩
    have hmeasured : (finish page d).Measured page := measured_moment page hd _
    exact getElem?_lines_of_lineFits hmeasured (lineFits_finish page hd n _ hline)

/-- Two names that just fit on six columns together with what follows them. -/
def sampleTight : Doc :=
  .seq [
    .group (.seq [.text "ab", .line, .group (.seq [.text "c", .softline, .text "d"]) none false])
    none false, .text ")", .line, .text "longer than the page"]

theorem flat_groups_keep_to_page_sample :
    (moment ⟨6, 2⟩ sampleTight 1).choosesFlat ⟨6, 2⟩ = true ∧
      (moment ⟨6, 2⟩ sampleTight 11).endsLine = true ∧
      ((moment ⟨6, 2⟩ sampleTight 11).column : Int) ≤ 6 ∧
      ∃ line, (Text.lines (render ⟨6, 2⟩ sampleTight))[0]? = some line ∧
        (line.length : Int) ≤ 6 := by
  have hsimple : sampleTight.every Doc.isSimple = true := by decide
  have hopen : ∀ j < 11, (moment ⟨6, 2⟩ sampleTight j).endsLine = false := by decide
  refine ⟨by decide, by decide, ?_, ?_⟩
  · exact (flat_groups_keep_to_page ⟨6, 2⟩ sampleTight hsimple 1).1 (by decide) 11 (by decide)
      fun j _ hlt => hopen j hlt
  · exact (flat_groups_keep_to_page ⟨6, 2⟩ sampleTight hsimple 2).2 _ _ rfl rfl

end State

end Layout

end RubyPretty
