import RubyPretty.Proofs.Layout.Spaced
/-!
# A fill of words is wrapped greedily

A fill looks at a word, the break behind it and the next word together, from the column in front of
the first of them. That is the test of greedy wrapping, whether the next word still ends on the
page, so words in a fill are laid out as `Text.wrapped` has them (`reaches_fill`).
-/

namespace RubyPretty

namespace Text

/-- Words behind a word that ends in a column. A word goes on the same line, behind one blank, if
it ends within the width there. Otherwise it starts a new line, behind the blanks of the
indentation. -/
def wrapFrom (width : Int) (indent column : Nat) : List String → String
  | [] => ""
  | w :: ws =>
      if (column + 1 + w.length : Int) ≤ width then
        " " ++ w ++ wrapFrom width indent (column + 1 + w.length) ws
      else
        "\n" ++ blanks indent ++ w ++ wrapFrom width indent (indent + w.length) ws

/-- Words that are wrapped greedily, where the first one starts in the column of the indentation. -/
def wrapped (width : Int) (indent : Nat) : List String → String
  | [] => ""
  | w :: ws => w ++ wrapFrom width indent (indent + w.length) ws

end Text

namespace Layout

namespace State

variable {page : Page} {s : State}

/-- A word and others behind it, with a break in front of each of these. -/
def fillItems (w : String) (ws : List String) : List Doc :=
  .text w :: ws.flatMap fun v => [.line, .text v]

theorem fillItems_eq (w : String) (ws : List String) :
    fillItems w ws = ((w :: ws).map Doc.text).intersperse .line := by
  induction ws generalizing w with
  | nil => rfl
  | cons v vs ih =>
      show _ :: _ :: fillItems v vs = _
      rw [ih]
      rfl

theorem mem_fillItems {d : Doc} {w : String} {ws : List String} (h : d ∈ fillItems w ws) :
    d = .line ∨ ∃ v, d = .text v := by
  rcases List.mem_cons.mp h with rfl | h
  · exact .inr ⟨w, rfl⟩
  · obtain ⟨v, -, h⟩ := List.mem_flatMap.mp h
    rcases List.mem_cons.mp h with rfl | h
    · exact .inl rfl
    · exact .inr ⟨v, List.mem_singleton.mp h⟩

/-- The look-ahead of a fill of words: the next word ends on the page. -/
theorem fits_pair_iff (hmodes : s.modes.AllFlat) (chunk : Chunk) (w v : String) :
    s.fits page [{ chunk with doc := .seq [.text w, .line, .text v], flat := true }] = true ↔
      ((s.column + w.length : Nat) + 1 + v.length : Int) ≤ page.width := by
  rw [fits_flexible_iff hmodes rfl rfl]
  have hwidth : (Doc.seq [.text w, .line, .text v]).flatWidth =
      w.length + (1 + (v.length + 0)) := rfl
  rw [hwidth]
  omega

/-- A break between two words, where the first one does not end in a blank. -/
theorem step_line (page : Page) (hfree : s.suffixes = []) (hink : s.Inked) (chunk : Chunk) :
    (s.push [chunk.withDoc .line]).step page = some
      (if chunk.flat then s.write " "
      else { s with
        out := List.replicate chunk.indent ' ' ++ '\n' :: s.out
        column := chunk.indent
        padding := none }) := by
  rw [step_push]
  rcases take_newline s page (chunk.withDoc .line) rfl with
    ⟨hflat, -, he⟩ | ⟨hends, ⟨hsome, -⟩ | ⟨-, hliteral, -⟩ | ⟨-, -, he⟩⟩
  · have hflat : chunk.flat = true := hflat
    rw [he, if_pos hflat]
  · exact absurd hfree hsome
  · cases hliteral
  · have hbroken : chunk.flat = false := hends.resolve_right Bool.false_ne_true
    rw [he, hbroken, endIndented, hink]
    rfl

/-- The words of a fill are wrapped greedily from the column where the first one starts. The
induction goes with the fill, which puts itself back without its first word and break. -/
theorem reaches_fill (page : Page) (chunk : Chunk) {w : String} {ws : List String}
    (hink : ∀ v ∈ w :: ws, EndsInInk v.toList) (hfree : s.suffixes = [])
    (hmodes : s.modes.AllFlat) :
    ∃ t, Reaches page (s.push [chunk.withDoc (.fill (fillItems w ws))]) t ∧
      Adds (w ++ Text.wrapFrom page.width chunk.indent (s.column + w.length) ws).toList [] s t := by
  induction ws generalizing s w with
  | nil =>
      refine ⟨s.write w, .head rfl (.single rfl), rfl, ?_, (List.append_nil _).symm⟩
      rw [Text.wrapFrom, String.append_empty, write_out]
  | cons v vs ih =>
      obtain ⟨hw, hvs⟩ := List.forall_mem_cons.mp hink
      have hinked : (s.write w).Inked := hw.dropWhile_eq s.out
      let rest : Chunk := chunk.withDoc (.fill (fillItems v vs))
      let fit := s.fits page [{ chunk with doc := .seq [.text w, .line, .text v], flat := true }]
      let sep : Chunk := { chunk with flat := fit }
      have hword : Reaches page (s.push [chunk.withDoc (.fill (fillItems w (v :: vs)))])
          (((s.write w).push [rest]).push [sep.withDoc .line]) :=
        .head rfl (.single rfl)
      have hline := step_line (s := (s.write w).push [rest]) page hfree hinked sep
      by_cases hfit : ((s.column + w.length : Nat) + 1 + v.length : Int) ≤ page.width
      · have hflat : sep.flat = true := (fits_pair_iff hmodes chunk w v).mpr hfit
        rw [if_pos hflat] at hline
        obtain ⟨t, hreaches, ht⟩ := ih (s := (s.write w).write " ") hvs hfree hmodes
        refine ⟨t, hword.trans (.head hline hreaches), ht.stack, ?_, ht.suffixes⟩
        have hcolumn : ((s.write w).write " ").column = s.column + w.length + 1 := rfl
        rw [ht.out, hcolumn, Text.wrapFrom, if_pos hfit]
        simp [write_out]
      · have hflat : sep.flat = false := by
          rw [← Bool.not_eq_true]
          exact fun h => hfit ((fits_pair_iff hmodes chunk w v).mp h)
        rw [if_neg (by simp [hflat])] at hline
        obtain ⟨t, hreaches, ht⟩ := ih (s := { s.write w with
          out := List.replicate chunk.indent ' ' ++ '\n' :: (s.write w).out
          column := chunk.indent
          padding := none }) hvs hfree hmodes
        refine ⟨t, hword.trans (.head hline hreaches), ht.stack, ?_, ht.suffixes⟩
        rw [ht.out, Text.wrapFrom, if_neg hfit]
        simp [write_out, Text.blanks]

end State

open State

/-- A text, and words that are filled in behind it and stay to the right of it on every line. -/
def hanging (p : String) (words : List String) : Doc :=
  .cat [p, .aligned p.length [.filled ((words.map Doc.ofString).intersperse .line)]]

theorem hanging_nil (p : String) : hanging p [] = Doc.ofString p := by
  by_cases hp : p = ""
  · rw [hp]
    rfl
  · rw [hanging, Doc.ofString, if_neg hp]
    rfl

theorem hanging_cons {p w : String} {ws : List String} (hws : ∀ v ∈ w :: ws, v ≠ "") :
    hanging p (w :: ws) =
      if p = "" then .fill (fillItems w ws)
      else .seq [.text p, .align p.length (.fill (fillItems w ws))] := by
  have htexts : (w :: ws).map Doc.ofString = (w :: ws).map Doc.text :=
    List.map_congr_left fun v hv => if_neg (hws v hv)
  rw [hanging, htexts, ← fillItems_eq]
  by_cases hp : p = ""
  · rw [hp]
    rfl
  · have hlength : (p.length : Int) ≠ 0 := by
      rw [Int.natCast_ne_zero_iff_pos, Nat.pos_iff_ne_zero]
      exact fun h => hp (String.length_eq_zero_iff.mp h)
    have haligned : Doc.aligned p.length [.filled (fillItems w ws)] =
        .align p.length (.fill (fillItems w ws)) := if_neg hlength
    rw [haligned, Doc.ofString, if_neg hp, if_neg hp]
    rfl

theorem settle_fill_words (w : String) (ws : List String) :
    (Doc.settle (.fill (fillItems w ws))).1 = .fill (fillItems w ws) := by
  refine (Doc.isSettled_fill _).mpr fun d hd => ?_
  rcases mem_fillItems hd with rfl | ⟨v, rfl⟩ <;> rfl

theorem isWritable_hanging {p : String} {words : List String} (hwords : ∀ w ∈ words, w ≠ "")
    (hp : Text.canHoldBlanks p.length = true) :
    (hanging p words).every Doc.isWritable = true := by
  cases words with
  | nil =>
      rw [hanging_nil, Doc.ofString]
      split <;> rfl
  | cons w ws =>
      have hfill : (Doc.fill (fillItems w ws)).every Doc.isWritable = true := by
        rw [Doc.every, Doc.everyIn_eq, Bool.and_eq_true, List.all_eq_true]
        refine ⟨rfl, fun d hd => ?_⟩
        rcases mem_fillItems hd with rfl | ⟨v, rfl⟩ <;> rfl
      have halign : (Doc.align p.length (.fill (fillItems w ws))).every Doc.isWritable = true := by
        rw [Doc.every, hfill, Bool.and_true]
        exact hp
      rw [hanging_cons hwords]
      split
      · exact hfill
      · rw [Doc.every, Doc.everyIn_eq, List.all_cons, List.all_cons, halign]
        rfl

theorem reaches_hanging (page : Page) {p w : String} {ws : List String}
    (hws : ∀ v ∈ w :: ws, v ≠ "") :
    Reaches page (start (hanging p (w :: ws)).propagateBreaks)
      (((fresh []).write p).push [⟨.fill (fillItems w ws), p.length, 0, false⟩]) := by
  rw [hanging_cons hws]
  by_cases hp : p = ""
  · rw [if_pos hp, hp, Doc.propagateBreaks, settle_fill_words]
    exact .refl
  · rw [if_neg hp]
    have hdown := reaches_parts page [.text p, .align p.length (.fill (fillItems w ws))]
    rw [List.map_cons, List.map_singleton, topChunk, topChunk, Doc.settle_align,
      settle_fill_words] at hdown
    refine hdown.trans (.head rfl (.single ?_))
    show some (((fresh []).write p).push [⟨_, 0 + p.length, 0, false⟩]) = _
    rw [Nat.zero_add]

/-- A fill of words behind a text is greedy word wrap. On every page the text is followed by the
words, of which each goes on the line of the one before it exactly if it ends within the page there,
and otherwise starts a new line below the first word. The whole can really be written unless a tab
or the text is too wide. -/
theorem hanging_words_wrap (page : Page) (p : String) (words : List String)
    (hwords : ∀ w ∈ words, Text.IsWord w.toList) :
    render page (hanging p words) = p ++ Text.wrapped page.width p.length words ∧
      (Text.canHoldBlanks page.tab = true → Text.canHoldBlanks p.length = true →
        render? page (hanging p words) = some (p ++ Text.wrapped page.width p.length words)) := by
  have hink : ∀ w ∈ words, EndsInInk w.toList := fun w hw => endsInInk_of_isWord (hwords w hw)
  have hne : ∀ w ∈ words, w ≠ "" := fun w hw => ne_empty_of_endsInInk (hink w hw)
  have hrender : render page (hanging p words) = p ++ Text.wrapped page.width p.length words := by
    cases words with
    | nil =>
        rw [hanging_nil, render_of_spells page (Doc.spells_ofString p), Text.wrapped,
          String.append_empty]
    | cons w ws =>
        obtain ⟨t, hfill, ht⟩ := reaches_fill (s := (fresh []).write p) page
          ⟨.empty, p.length, 0, false⟩ hink rfl Modes.allFlat_nil
        have hreaches := (reaches_hanging page hne).trans hfill
        rw [← String.toList_inj, toList_render_of_reaches hreaches ht.stack ht.suffixes, ht.out]
        simp [Text.wrapped, fresh]
  refine ⟨hrender, fun htab hp => ?_⟩
  rw [← hrender]
  apply render?_of_isWritable htab
  exact isWritable_hanging hne hp

/-- Predicates of a clause: the second and the third one share a line, and the last one is wider
than the page. -/
def samplePredicates : List String := ["Integer,", "Nil,", "True,", "ActiveSupport::Duration"]

theorem hanging_words_wrap_sample :
    (∀ w ∈ samplePredicates, Text.IsWord w.toList) ∧
      render? ⟨15, 2⟩ (hanging "when " samplePredicates) =
        some "when Integer,\n     Nil, True,\n     ActiveSupport::Duration" := by
  have hwords : ∀ w ∈ samplePredicates, Text.IsWord w.toList := by
    intro w hw
    have hall : samplePredicates.all
        (fun w => !w.toList.isEmpty && w.toList.all fun c => !Text.isBlank c) = true := by decide
    simpa [Text.IsWord] using List.all_eq_true.mp hall w hw
  have hwrapped : "when " ++ Text.wrapped 15 5 samplePredicates =
      "when Integer,\n     Nil, True,\n     ActiveSupport::Duration" := by decide +kernel
  obtain ⟨-, hwritten⟩ := hanging_words_wrap ⟨15, 2⟩ "when " samplePredicates hwords
  exact ⟨hwords, (hwritten (by decide) (by decide)).trans (congrArg some hwrapped)⟩

end Layout

end RubyPretty
