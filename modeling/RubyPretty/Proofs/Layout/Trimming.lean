import RubyPretty.Proofs.Layout.Frames
/-!
# No blanks at the end of a line

An indented line end takes back all blanks in front of it, whatever wrote them: texts, the
indentation of an empty line, breaks that are written flat, or suffixes. It stops at the line feed
before, which is no blank. So behind every line feed there is no blank to be found (`Trimmed`), and
all lines but the last one end in ink.
-/

namespace RubyPretty

/-- No literal line end, and no text with a line feed. -/
def Doc.isTrimmable : Doc → Bool
  | .text s => '\n' ∉ s.toList
  | .newline b => !b.literal && '\n' ∉ b.flat.toList
  | _ => true

theorem Doc.isTrimmable_settle (d : Doc) (h : d.isTrimmable = true) :
    (settle d).1.isTrimmable = true := by
  cases d with
  | seq ds => rw [settle_seq]; rfl
  | fill ds => rw [settle_fill]; rfl
  | _ => exact h

namespace Layout

namespace State

variable {page : Page} {s t : State}

/-- No line that has ended can lose a blank at its end. -/
def Trimmed (out : List Char) : Prop := ∀ before, ('\n' :: before) <:+ out → IsClosed before

theorem Trimmed.suffix {out before : List Char} (h : Trimmed out) (hsuffix : before <:+ out) :
    Trimmed before :=
  fun line hline => h line (hline.trans hsuffix)

theorem Trimmed.append {x out : List Char} (h : Trimmed out) (hx : '\n' ∉ x) :
    Trimmed (x ++ out) := by
  intro before hbefore
  apply h
  induction x with
  | nil => exact hbefore
  | cons c x ih =>
      rw [List.mem_cons, not_or] at hx
      rcases List.suffix_cons_iff.mp hbefore with heq | hrest
      · exact absurd (List.cons.inj heq).1 hx.1
      · exact ih hx.2 hrest

theorem Trimmed.lineFeed {before : List Char} (h : Trimmed before) (hclosed : IsClosed before) :
    Trimmed ('\n' :: before) := by
  intro line hline
  rcases List.suffix_cons_iff.mp hline with heq | hrest
  · rwa [(List.cons.inj heq).2]
  · exact h line hrest

theorem isClosed_dropWhile (out : List Char) : IsClosed (out.dropWhile isTrailingBlank) := by
  intro c hc
  have hhead := List.head?_dropWhile_not isTrailingBlank out
  rw [Option.mem_def.mp hc] at hhead
  simpa using hhead

theorem trimmed_endIndented (h : Trimmed s.out) (chunk : Chunk) :
    Trimmed (s.endIndented chunk).out := by
  have hkept : Trimmed (s.out.dropWhile isTrailingBlank) := h.suffix (List.dropWhile_suffix _)
  exact (hkept.lineFeed (isClosed_dropWhile s.out)).append (not_mem_blanks chunk.indent)

theorem trimmed_take (page : Page) (h : Trimmed s.out) {chunk : Chunk}
    (hc : chunk.doc.isTrimmable = true) : Trimmed (s.take page chunk).out := by
  have hwrite (x : String) (hx : '\n' ∉ x.toList) : Trimmed (s.write x).out :=
    h.append fun hmem => hx (List.mem_reverse.mp hmem)
  obtain ⟨doc, indent, root, flat⟩ := chunk
  cases doc with
  | text x => exact hwrite x (of_decide_eq_true hc)
  | newline b =>
      simp only [Doc.isTrimmable, Bool.and_eq_true, Bool.not_eq_true', decide_eq_true_eq] at hc
      rcases take_newline s page ⟨.newline b, indent, root, flat⟩ rfl with
        ⟨-, -, he⟩ | ⟨-, ⟨-, he⟩ | ⟨-, hliteral, -⟩ | ⟨-, -, he⟩⟩
      · rw [he]
        exact hwrite b.flat hc.2
      · rw [he]
        exact h
      · rw [hc.1] at hliteral
        cases hliteral
      · rw [he]
        exact trimmed_endIndented h _
  | group d id broken =>
      rw [take_group s page _ rfl]
      exact h
  | _ => exact h

theorem fillClosed_isTrimmable : FillClosed Doc.isTrimmable := fun _ _ _ _ _ => rfl

theorem trimmed_step (hs : s.step page = some t) (hholds : s.Holds Doc.isTrimmable)
    (h : Trimmed s.out) : Trimmed t.out := by
  rcases step_cases hs with ⟨chunk, rest, hstack, rfl⟩ | ⟨-, -, rfl⟩
  · have hmem : chunk ∈ s.stack := by
      rw [hstack]
      exact List.mem_cons_self
    have hchunk := Doc.every_self (hholds chunk (.inl hmem))
    exact trimmed_take (s := { s with stack := rest }) page h hchunk
  · exact h

theorem trimmed_finish (page : Page) {d : Doc} (hd : d.every Doc.isTrimmable = true) :
    Trimmed (finish page d).out := by
  have hsettled := Doc.every_settle Doc.isTrimmable_settle d hd
  have hrun := run_induction page (P := fun s => s.Holds Doc.isTrimmable ∧ Trimmed s.out)
    (fun _ _ hs h => ⟨holds_step fillClosed_isTrimmable hs h.1, trimmed_step hs h.1 h.2⟩)
    (start d.propagateBreaks).weight (start d.propagateBreaks)
    ⟨holds_start hsettled, fun _ h => by cases List.suffix_nil.mp h⟩
  exact hrun.2

/-! ## Lines of the text -/

theorem getLast?_pieces_reverse (out : List Char) :
    (Text.pieces '\n' out.reverse).getLast? = some (out.takeWhile (· != '\n')).reverse := by
  rw [List.getLast?_eq_getElem?, Text.length_pieces, List.count_reverse]
  exact getElem?_pieces_reverse out

theorem isClosed_line {out : List Char} (h : IsClosed out) :
    IsClosed (out.takeWhile (· != '\n')) := by
  cases out with
  | nil => exact h
  | cons c out =>
      rw [List.takeWhile_cons]
      split
      · exact h
      · intro d hd
        cases hd

/-- Of a trimmed text each line but the last one has no blank at its end. -/
theorem isClosed_of_mem_pieces {out : List Char} (h : Trimmed out) :
    ∀ line ∈ (Text.pieces '\n' out.reverse).dropLast, IsClosed line.reverse := by
  induction out with
  | nil =>
      intro line hline
      cases hline
  | cons c out ih =>
      have hlines := ih (h.suffix (List.suffix_cons c out))
      rw [List.reverse_cons]
      by_cases hc : c = '\n'
      · -- the last line of `out` has ended
        subst hc
        have hended : Text.pieces '\n' (out.reverse ++ ['\n']) =
            Text.pieces '\n' out.reverse ++ [[]] := by
          rw [Text.pieces_append]
          rfl
        rw [hended, List.dropLast_concat]
        intro line hline
        rw [← List.dropLast_append_getLast? _ (getLast?_pieces_reverse out), List.mem_append,
          List.mem_singleton] at hline
        rcases hline with hline | rfl
        · exact hlines line hline
        · rw [List.reverse_reverse]
          apply isClosed_line
          exact h out (List.suffix_refl _)
      · obtain ⟨init, last, hout, hlonger⟩ := Text.pieces_append_of_not_mem
          (x := [c]) (fun hmem => hc (List.mem_singleton.mp hmem).symm) out.reverse
        rw [hout, List.dropLast_concat] at hlines
        rw [hlonger, List.dropLast_concat]
        exact hlines

end State

open State

/-- Lines that are broken never end in blanks. Take a document without literal line ends whose texts
have no line feeds. On any page each line of it but the last one is empty or ends in a character
other than a blank and a tab. -/
theorem broken_lines_are_trimmed (page : Page) (d : Doc) (hd : d.every Doc.isTrimmable = true) :
    ∀ line ∈ (Text.lines (render page d)).dropLast, ∀ c ∈ line.toList.getLast?,
      c ≠ ' ' ∧ c ≠ '\t' := by
  intro line hline c hc
  rw [Text.lines, ← List.map_dropLast, render_eq, State.text, String.toList_ofList] at hline
  obtain ⟨piece, hpiece, rfl⟩ := List.mem_map.mp hline
  have hclosed := isClosed_of_mem_pieces (trimmed_finish page hd) piece hpiece
  have hink : isTrailingBlank c = false := by
    apply hclosed
    rwa [List.head?_reverse, ← String.toList_ofList (l := piece)]
  constructor <;> rintro rfl <;> cases hink

/-- A comment with blanks behind it, a line of nothing but its indentation, a line that ends in a
break that is written flat, and a last line that ends in a blank. -/
def sampleBlanks : Doc :=
  .seq [.text "a", .suffix (.text " # a \t"),
    .indent (.seq [.hardline, .hardline, .text "b", .group (.seq [.text ",", .line]) none false,
      .hardline, .text "c "])]

theorem broken_lines_are_trimmed_sample :
    sampleBlanks.every Doc.isTrimmable = true ∧
      render ⟨20, 2⟩ sampleBlanks = "a # a\n\n  b,\n  c " ∧
      ∀ line ∈ ["a # a", "", "  b,"], ∀ c ∈ line.toList.getLast?, c ≠ ' ' ∧ c ≠ '\t' := by
  have htrimmable : sampleBlanks.every Doc.isTrimmable = true := by decide
  have hrender : render ⟨20, 2⟩ sampleBlanks = "a # a\n\n  b,\n  c " := by decide +kernel
  have hlines := broken_lines_are_trimmed ⟨20, 2⟩ sampleBlanks htrimmable
  rw [hrender] at hlines
  exact ⟨htrimmable, hrender, hlines⟩

end Layout

end RubyPretty
