import RubyPretty.Proofs.Heredoc.Indentation
import RubyPretty.Proofs.Layout.Roots
import RubyPretty.Proofs.Rules.Heredocs
/-!
# Formatted heredocs keep their value

What a formatter makes of the body of a squiggly heredoc is written one level further in than the
opener. The value of such a heredoc is its body without the common indentation, and this is what the
formatter gave, at any depth: the lines are put in by blanks, which are taken off whole, and empty
lines get none.
-/

namespace RubyPretty.Rules

open Layout Layout.State

/-- A squiggly heredoc without interpolation, and what the formatter of its language makes of it. -/
structure FormattedHeredoc (pr : Printer) where
  place : Place
  opening : String
  content : Value
  parts : List Fragment
  closing : String
  opener : Heredoc.Opener
  language : String
  format : Formatter
  output : String
  body_eq : place.node.body = [.text opening, content, .text closing]
  elements_eq : content.elements? = some (parts.map fun part => .node part.node)
  opener_eq : Heredoc.Opener.parse? opening = some opener
  squiggly : opener.isSquiggly = true
  formatter_eq : pr.formatter = some format
  language_eq : pr.options.languages.lookup opener.tag.toLower = some language
  output_eq : format (Heredoc.dedent (String.join (parts.map (·.text)))) language = .ok output

theorem Fragment.tag_eq (part : Fragment) : part.node.tag = "@tstring_content" := by
  have hplain := part.plain
  unfold Node.plainText? at hplain
  split at hplain
  · next htag => exact htag
  · cases hplain

theorem Fragment.token_eq (part : Fragment) : part.node.token = .ok part.text := by
  have hplain := part.plain
  rw [Node.plainText?, if_pos part.tag_eq] at hplain
  rw [Node.token, hplain]

theorem heredocContent?_fragments (parts : List Fragment) :
    heredocContent? (parts.map fun part => .node part.node) =
      .ok (some (String.join (parts.map (·.text)))) := by
  have hplain : (parts.map fun part => Value.node part.node).allM
      (fun part => do return (← part.asNode).tag == "@tstring_content") =
        (.ok true : Outcome Bool) := by
    induction parts with
    | nil => rfl
    | cons part parts ih =>
        rw [List.map_cons, List.allM]
        show (Except.ok (part.node.tag == "@tstring_content") >>= _) = _
        rw [part.tag_eq]
        exact ih
  have htexts : (parts.map fun part => Value.node part.node).mapM
      (fun part => do (← part.asNode).token) = (.ok (parts.map (·.text)) : Outcome _) := by
    rw [List.mapM_map]
    refine Eq.trans ?_ (List.mapM_pure ..)
    exact congrArg parts.mapM (funext Fragment.token_eq)
  rw [heredocContent?, hplain, Except.ok_bind, if_pos rfl, Shape.plainContent, htexts]
  rfl

namespace FormattedHeredoc

variable {pr : Printer} (h : FormattedHeredoc pr)

/-- The body that is written: the output without the line feeds at its end. -/
def text : String := Text.trimEndOf (· == '\n') h.output

/-- The heredoc as it is printed if its body is not empty. -/
def doc : Doc :=
  .seq [.text h.opening, .suffix (reindented (Text.lines h.text) (Text.trim h.closing))]

theorem opening_ne_empty : h.opening ≠ "" := by
  intro he
  have hopener := h.opener_eq
  rw [he] at hopener
  cases hopener

theorem formattedBody?_eq :
    formattedBody? pr (Heredoc.Opener.parse? h.opening) h.content = .ok (some h.output) := by
  have hlanguage : heredocLanguage? pr.options (some h.opener) = some h.language := h.language_eq
  unfold formattedBody?
  simp only [h.formatter_eq, h.opener_eq, hlanguage, Value.asElements, h.elements_eq]
  rw [Except.ok_bind, heredocContent?_fragments, Except.ok_bind]
  simp only [Option.any_some, h.squiggly, if_true]
  rw [runFormatter, h.output_eq]

theorem formattedHeredoc_eq (hsome : h.text ≠ "") :
    formattedHeredoc true h.opening h.output h.closing = h.doc := by
  have hbody : Doc.indented [.rooted [.literalLine, .verbatim h.text]] =
      .indent (.root (.ofParts (Doc.rows (Text.lines h.text)))) := by
    rw [← Doc.cat_literalLine_verbatim]
    rcases Doc.rooted_cases [.literalLine, .verbatim h.text] with ⟨hempty, -⟩ | hroot
    · rw [Doc.cat_literalLine_verbatim] at hempty
      exact absurd hempty (Doc.ofParts_rows_ne_empty (Text.lines_ne_nil h.text))
    · rw [hroot]
      rfl
  have hsuffix : Doc.suffixed [.indent (.root (.ofParts (Doc.rows (Text.lines h.text)))), .hardline,
      Doc.ofString (Text.trim h.closing)] =
        .suffix (reindented (Text.lines h.text) (Text.trim h.closing)) := by
    rcases Doc.suffixed_cases _ with ⟨hempty, -⟩ | hsuffix
    · rw [← reindented, reindented_eq] at hempty
      cases hempty
    · exact hsuffix
  unfold formattedHeredoc
  simp only [if_true]
  rw [← text, if_neg hsome, hbody, hsuffix, Doc.ofString, if_neg h.opening_ne_empty]
  rfl

theorem heredoc_eq (hsome : h.text ≠ "") : heredoc pr h.place = pure h.doc := by
  unfold heredoc
  rw [h.body_eq]
  simp only [Value.asText, PrintM.lift_ok_bind, h.formattedBody?_eq]
  show (pure (formattedHeredoc _ h.opening h.output h.closing) : PrintM Doc) = _
  rw [h.opener_eq, Option.any_some, h.squiggly, h.formattedHeredoc_eq hsome]

theorem isWritable_doc : h.doc.every Doc.isWritable = true := by
  have hbody := isWritable_reindented (Text.lines h.text) (Text.trim h.closing)
  simp only [doc, Doc.every, Doc.everyIn, hbody]
  rfl

/-- The lines of the body some levels in. -/
def lines (page : Page) (levels : Nat) : List String :=
  (Text.lines h.text).map (rootLine ((levels + 1) * page.tab.toNat))

/-- The line of the terminator, which is as far in as the opener. -/
def terminator (page : Page) (levels : Nat) : String :=
  Text.trimEndOf isTrailingBlank
    (Text.blanks (levels * page.tab.toNat : Nat) ++ Text.trim h.closing)

theorem dedent_lines (hmargin : ∃ l ∈ Text.lines h.text, Heredoc.AtMargin l) (page : Page)
    (levels : Nat) : Heredoc.dedent (Text.unlines (h.lines page levels)) = h.text ++ "\n" := by
  have hblanks :
      Heredoc.IsIndentation (Text.blanks ((levels + 1) * page.tab.toNat : Nat)).toList := by
    intro c hc
    rw [Text.blanks, String.toList_ofList] at hc
    exact .inl (List.eq_of_mem_replicate hc)
  rw [lines, Heredoc.dedent_of_indented hblanks (fun l _ => ?_)
    (fun l hl => Text.not_mem_of_mem_lines hl) hmargin, Text.unlines_lines]
  by_cases hl : l = ""
  · exact .inr ⟨hl, if_pos hl⟩
  · exact .inl (if_neg hl)

theorem exists_atMargin_text (hmargin : ∃ l ∈ Text.lines h.output, Heredoc.AtMargin l) :
    ∃ l ∈ Text.lines h.text, Heredoc.AtMargin l := by
  obtain ⟨l, hl, hat⟩ := hmargin
  refine ⟨l, Text.mem_lines_trimEnd hl ?_, hat⟩
  rintro rfl
  obtain ⟨-, c, hc, -⟩ := hat
  cases hc

theorem endsInInk_last {l : String} (hsome : h.text ≠ "")
    (hl : (Text.lines h.text).getLast? = some l)
    (hends : ∀ c ∈ l.toList.getLast?, c ≠ ' ' ∧ c ≠ '\t') : EndsInInk l.toList := by
  cases hc : l.toList.getLast? with
  | none =>
      have hempty : l = "" := by
        rw [← String.toList_inj]
        exact List.getLast?_eq_none_iff.mp hc
      rw [hempty] at hl
      rcases Text.getLast?_of_last_line_empty hl with he | hfeed
      · exact absurd he hsome
      · have hnot := Text.getLast?_trimEndOf hfeed
        cases hnot
  | some c =>
      refine ⟨c, hc, ?_⟩
      obtain ⟨hspace, htab⟩ := hends c hc
      simp [isTrailingBlank, hspace, htab]

end FormattedHeredoc

/-- A formatted squiggly heredoc keeps the value that its formatter gave. On a line of its own some
levels in, whatever the page, its body is written between the line of the opener and the one of the
terminator. Without the common indentation of its lines it is the output of the formatter, with one
line feed at its end, and its empty lines stay empty. -/
theorem reindented_heredoc_keeps_value (pr : Printer) (h : FormattedHeredoc pr)
    (hmargin : ∃ l ∈ Text.lines h.output, Heredoc.AtMargin l)
    (hends : ∀ l ∈ (Text.lines h.text).getLast?, ∀ c ∈ l.toList.getLast?, c ≠ ' ' ∧ c ≠ '\t')
    (notes : List ChainNote) :
    ∃ doc, (heredoc pr h.place).run notes = .ok (doc, notes) ∧
      ∀ (page : Page) (outer inner : Nat), ∃ body : List String,
        render page (.ownLine outer inner doc) =
          "\n" ++ Text.blanks ((outer + inner) * page.tab.toNat : Nat) ++ h.opening ++ "\n" ++
            Text.unlines body ++ h.terminator page (outer + inner) ++ "\n" ++
            Text.blanks (outer * page.tab.toNat : Nat) ∧
        (Text.canHoldBlanks page.tab = true →
          render? page (.ownLine outer inner doc) = some (render page (.ownLine outer inner doc))) ∧
        Heredoc.dedent (Text.unlines body) = h.text ++ "\n" ∧
        List.Forall₂ (fun line written => '\n' ∉ written.toList ∧ (line = "" → written = ""))
          (Text.lines h.text) body := by
  have htext := h.exists_atMargin_text hmargin
  have hsome : h.text ≠ "" := by
    intro he
    rw [he] at htext
    obtain ⟨l, hl, -, c, hc, -⟩ := htext
    rw [List.mem_singleton.mp hl] at hc
    cases hc
  obtain ⟨l, hlast⟩ := Option.isSome_iff_exists.mp
    (List.getLast?_isSome.mpr (Text.lines_ne_nil h.text))
  have hink := h.endsInInk_last hsome hlast (hends l hlast)
  refine ⟨h.doc, by rw [h.heredoc_eq hsome]; rfl, fun page outer inner =>
    ⟨h.lines page (outer + inner), ?_, fun htab => ?_, h.dedent_lines htext page _, ?_⟩⟩
  · exact render_reindented page hlast hink h.opening (Text.trim h.closing) outer inner
  · exact render?_of_isWritable htab (Doc.isWritable_ownLine h.isWritable_doc outer inner)
  · refine List.forall₂_map_right_iff.mpr (List.forall₂_same.mpr fun line hline => ?_)
    exact ⟨not_mem_rootLine _ (Text.not_mem_of_mem_lines hline), fun he => if_pos he⟩

/-- A formatter that gives lines with tabs and blanks in front, an empty line and a blank one. -/
def sampleFormatter : Formatter := fun _ _ => .ok "a\n\n\t b\n  \n c\n\n"

def samplePrinter : Printer := Registry.default.printer Options.default (some sampleFormatter) 0

def sampleFormatted : FormattedHeredoc samplePrinter where
  place := .root (.plain "heredoc"
    [.text "<<~SQL", .list [.node (.stringPart "  b\n")], .text "  SQL\n"])
  opening := "<<~SQL"
  content := .list [.node (.stringPart "  b\n")]
  parts := [⟨.stringPart "  b\n", "  b\n", rfl⟩]
  closing := "  SQL\n"
  opener := ⟨.squiggly, none, "SQL"⟩
  language := "sql"
  format := sampleFormatter
  output := "a\n\n\t b\n  \n c\n\n"
  body_eq := rfl
  elements_eq := rfl
  opener_eq := by decide +kernel
  squiggly := rfl
  formatter_eq := rfl
  language_eq := by decide +kernel
  output_eq := rfl

theorem reindented_heredoc_keeps_value_sample :
    ∃ doc body, (heredoc samplePrinter sampleFormatted.place).run [] = .ok (doc, []) ∧
      render ⟨3, 2⟩ (.ownLine 1 1 doc) = "\n    <<~SQL\n" ++ Text.unlines body ++ "    SQL\n  " ∧
      render ⟨3, 2⟩ (.ownLine 1 1 doc) =
        "\n    <<~SQL\n      a\n\n      \t b\n        \n       c\n    SQL\n  " ∧
      Heredoc.dedent (Text.unlines body) = "a\n\n\t b\n  \n c\n" := by
  have hmargin : Heredoc.AtMargin "a" := ⟨by decide, 'a', rfl, by decide, by decide⟩
  have hlast : (Text.lines sampleFormatted.text).getLast? = some " c" := by decide +kernel
  have hends : ∀ l ∈ (Text.lines sampleFormatted.text).getLast?, ∀ c ∈ l.toList.getLast?,
      c ≠ ' ' ∧ c ≠ '\t' := by
    intro l hl c hc
    rw [hlast] at hl
    obtain rfl := Option.some.inj hl
    obtain rfl : 'c' = c := Option.some.inj hc
    decide
  obtain ⟨doc, hrun, hall⟩ := reindented_heredoc_keeps_value samplePrinter sampleFormatted
    ⟨"a", by decide +kernel, hmargin⟩ hends []
  obtain ⟨body, hrender, -, hdedent, -⟩ := hall ⟨3, 2⟩ 1 1
  have hprinted := sampleFormatted.heredoc_eq (by decide +kernel)
  rw [hprinted] at hrun
  obtain rfl : sampleFormatted.doc = doc := congrArg Prod.fst (Except.ok.inj hrun)
  refine ⟨_, body, by rw [hprinted]; rfl, hrender.trans ?_, by decide +kernel,
    hdedent.trans (by decide +kernel)⟩
  rw [String.append_assoc, String.append_assoc]
  exact congrArg₂ (fun opened closed => opened ++ Text.unlines body ++ closed)
    (by decide +kernel) (by decide +kernel)

end RubyPretty.Rules
