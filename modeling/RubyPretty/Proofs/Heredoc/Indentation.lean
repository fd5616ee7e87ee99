import RubyPretty.Heredoc.Indentation
import RubyPretty.Proofs.Text.Lines
/-!
# Taking off indentation

Indentation is measured with tab stops, so the widths of two stretches do not add up: the second one
is measured from the column where the first one ends (`widthFrom_append`). A common indentation is
taken off whole, tabs and spaces in any mix (`dedentFrom_append`), so lines that were put in come
out as they were (`dedent_of_indented`). What has lost its common indentation has none left
(`commonIndent_dedent`).
-/

namespace RubyPretty.Heredoc

/-! ## Columns -/

theorem lt_of_advance {column next : Nat} {c : Char} (h : advance column c = some next) :
    column < next := by
  unfold advance at h
  split at h
  · cases h
    exact Nat.lt_succ_self column
  · cases h
    unfold tabStop
    omega
  · cases h

theorem isBlank_of_advance {column next : Nat} {c : Char} (h : advance column c = some next) :
    Text.isBlank c = true := by
  unfold advance at h
  split at h
  · decide
  · decide
  · cases h

theorem advance_eq_none {column : Nat} {c : Char} :
    advance column c = none ↔ c ≠ ' ' ∧ c ≠ '\t' := by
  unfold advance
  split
  · simp
  · simp
  · next hspace htab => exact ⟨fun _ => ⟨hspace, htab⟩, fun _ => rfl⟩

theorem widthFrom_cons {column next : Nat} {c : Char} (h : advance column c = some next)
    (cs : List Char) : widthFrom column (c :: cs) = widthFrom next cs := by
  rw [widthFrom, h]

theorem le_widthFrom (column : Nat) (cs : List Char) : column ≤ widthFrom column cs := by
  induction cs generalizing column with
  | nil => exact Nat.le_refl column
  | cons c cs ih =>
      rw [widthFrom]
      cases hc : advance column c with
      | none => exact Nat.le_refl column
      | some next => exact Nat.le_trans (Nat.le_of_lt (lt_of_advance hc)) (ih next)

def IsIndentation (p : List Char) : Prop := ∀ c ∈ p, c = ' ' ∨ c = '\t'

instance : DecidablePred IsIndentation := fun p =>
  List.decidableBAll (fun c => c = ' ' ∨ c = '\t') p

theorem exists_advance (column : Nat) {c : Char} (h : c = ' ' ∨ c = '\t') :
    ∃ next, advance column c = some next := by
  rcases h with rfl | rfl <;> exact ⟨_, rfl⟩

theorem widthFrom_append (column : Nat) {p : List Char} (hp : IsIndentation p) (cs : List Char) :
    widthFrom column (p ++ cs) = widthFrom (widthFrom column p) cs := by
  induction p generalizing column with
  | nil => rfl
  | cons c p ih =>
      obtain ⟨hc, hp⟩ := List.forall_mem_cons.mp hp
      obtain ⟨next, hnext⟩ := exists_advance column hc
      rw [List.cons_append, widthFrom_cons hnext, widthFrom_cons hnext]
      exact ih next hp

/-! ## Taking off columns -/

theorem dedentFrom_of_le {amount column : Nat} (h : amount ≤ column) (cs : List Char) :
    dedentFrom amount column cs = cs := by
  cases cs with
  | nil => rfl
  | cons c cs => exact if_pos h

theorem dedentFrom_cons {amount column next : Nat} {c : Char} (h : advance column c = some next)
    (hle : next ≤ amount) (cs : List Char) :
    dedentFrom amount column (c :: cs) = dedentFrom amount next cs := by
  have hlt := lt_of_advance h
  simp only [dedentFrom, h, if_neg (Nat.not_le.mpr (Nat.lt_of_lt_of_le hlt hle)),
    if_neg (Nat.not_lt.mpr hle)]

theorem dedentFrom_append {amount column : Nat} {p : List Char} (hp : IsIndentation p)
    (hwidth : widthFrom column p ≤ amount) (cs : List Char) :
    dedentFrom amount column (p ++ cs) = dedentFrom amount (widthFrom column p) cs := by
  induction p generalizing column with
  | nil => rfl
  | cons c p ih =>
      obtain ⟨hc, hp⟩ := List.forall_mem_cons.mp hp
      obtain ⟨next, hnext⟩ := exists_advance column hc
      rw [widthFrom_cons hnext] at hwidth ⊢
      have hle := le_widthFrom next p
      rw [List.cons_append, dedentFrom_cons hnext (Nat.le_trans hle hwidth)]
      exact ih hp hwidth

theorem dedentFrom_suffix (amount column : Nat) (cs : List Char) :
    dedentFrom amount column cs <:+ cs := by
  induction cs generalizing column with
  | nil => exact List.suffix_refl _
  | cons c cs ih =>
      rw [dedentFrom]
      split
      · exact List.suffix_refl _
      · split
        · split
          · exact List.suffix_refl _
          · exact (ih _).trans (List.suffix_cons c cs)
        · exact List.suffix_refl _

theorem all_isBlank_dedentFrom (amount column : Nat) (cs : List Char) :
    (dedentFrom amount column cs).all Text.isBlank = cs.all Text.isBlank := by
  induction cs generalizing column with
  | nil => rfl
  | cons c cs ih =>
      rw [dedentFrom]
      split
      · rfl
      · split
        · next next hnext =>
            split
            · rfl
            · rw [ih, List.all_cons, isBlank_of_advance hnext, Bool.true_and]
        · rfl

theorem widthFrom_dedentFrom (column : Nat) (cs : List Char) :
    widthFrom 0 (dedentFrom (widthFrom column cs) column cs) = 0 := by
  induction cs generalizing column with
  | nil => rfl
  | cons c cs ih =>
      cases hc : advance column c with
      | none =>
          have hzero : advance 0 c = none := advance_eq_none.mpr (advance_eq_none.mp hc)
          rw [widthFrom, hc, dedentFrom_of_le (Nat.le_refl _), widthFrom, hzero]
      | some next =>
          rw [widthFrom_cons hc, dedentFrom_cons hc (le_widthFrom next cs)]
          exact ih next

/-! ## The common indentation -/

/-- The lines that count for the indentation of a body. -/
def countedLines (content : String) : List String :=
  (Text.lines content).dropLast.filter (!isBlankLine ·)

theorem mem_countedLines {content l : String} :
    l ∈ countedLines content ↔ l ∈ (Text.lines content).dropLast ∧ isBlankLine l = false := by
  rw [countedLines, List.mem_filter, Bool.not_eq_true']

theorem commonIndent_of_least {content l : String} (hl : l ∈ countedLines content)
    (hle : ∀ k ∈ countedLines content, indentWidth l ≤ indentWidth k) :
    commonIndent content = indentWidth l := by
  have hleast : ((countedLines content).map indentWidth).min? = some (indentWidth l) :=
    List.min?_eq_some_iff.mpr ⟨List.mem_map_of_mem hl, List.forall_mem_map.mpr hle⟩
  exact congrArg (·.getD 0) hleast

theorem exists_indentWidth_eq {content : String} (h : commonIndent content ≠ 0) :
    ∃ l ∈ countedLines content, indentWidth l = commonIndent content := by
  cases hleast : ((countedLines content).map indentWidth).min? with
  | none => exact absurd (congrArg (·.getD 0) hleast) h
  | some m =>
      obtain ⟨l, hl, hm⟩ := List.mem_map.mp (List.min?_eq_some_iff.mp hleast).1
      exact ⟨l, hl, hm.trans (congrArg (·.getD 0) hleast).symm⟩

theorem dedentLine_zero (line : String) : dedentLine 0 line = line := by
  rw [dedentLine, dedentFrom_of_le (Nat.le_refl 0), String.ofList_toList]

theorem intercalate_dedentLine_zero (content : String) :
    "\n".intercalate ((Text.lines content).map (dedentLine 0)) = content := by
  rw [List.map_congr_left fun line _ => dedentLine_zero line, List.map_id', Text.intercalate_lines]

theorem dedent_eq (content : String) :
    dedent content =
      "\n".intercalate ((Text.lines content).map (dedentLine (commonIndent content))) := by
  unfold dedent
  split
  · next hzero => rw [hzero, intercalate_dedentLine_zero]
  · rfl

theorem dedent_of_commonIndent {content : String} (h : commonIndent content = 0) :
    dedent content = content := by
  rw [dedent_eq, h, intercalate_dedentLine_zero]

theorem lines_dedent (content : String) :
    Text.lines (dedent content) =
      (Text.lines content).map (dedentLine (commonIndent content)) := by
  rw [dedent_eq]
  refine Text.lines_intercalate (by simp [Text.lines_ne_nil]) (List.forall_mem_map.mpr ?_)
  intro line hline hmem
  rw [dedentLine, String.toList_ofList] at hmem
  exact Text.not_mem_of_mem_lines hline ((dedentFrom_suffix _ _ _).subset hmem)

theorem commonIndent_dedent (content : String) : commonIndent (dedent content) = 0 := by
  by_cases hzero : commonIndent content = 0
  · rw [dedent_of_commonIndent hzero, hzero]
  · obtain ⟨l, hl, hwidth⟩ := exists_indentWidth_eq hzero
    obtain ⟨hmem, hink⟩ := mem_countedLines.mp hl
    -- the line that had just the common indentation now starts at the margin
    have hmargin : indentWidth (dedentLine (commonIndent content) l) = 0 := by
      rw [← hwidth, indentWidth, dedentLine, String.toList_ofList]
      exact widthFrom_dedentFrom 0 l.toList
    have hcounted : dedentLine (commonIndent content) l ∈ countedLines (dedent content) := by
      rw [mem_countedLines, lines_dedent, ← List.map_dropLast]
      refine ⟨List.mem_map_of_mem hmem, ?_⟩
      rw [isBlankLine, dedentLine, String.toList_ofList, all_isBlank_dedentFrom]
      exact hink
    rw [commonIndent_of_least hcounted fun k _ => by rw [hmargin]; exact Nat.zero_le _, hmargin]

/-! ## Lines that have been indented -/

/-- The line has text, and it starts in the first column. -/
def AtMargin (line : String) : Prop :=
  isBlankLine line = false ∧ ∃ c ∈ line.toList.head?, c ≠ ' ' ∧ c ≠ '\t'

theorem AtMargin.widthFrom_eq {line : String} (h : AtMargin line) (column : Nat) :
    widthFrom column line.toList = column := by
  obtain ⟨-, c, hc, hne⟩ := h
  obtain ⟨cs, hcs⟩ := List.head?_eq_some_iff.mp hc
  rw [hcs, widthFrom, advance_eq_none.mpr hne]

theorem indentWidth_append {p : String} (hp : IsIndentation p.toList) (line : String) :
    indentWidth (p ++ line) = widthFrom (indentWidth p) line.toList := by
  rw [indentWidth, String.toList_append, widthFrom_append 0 hp]
  rfl

theorem dedentLine_append {p : String} (hp : IsIndentation p.toList) (line : String) :
    dedentLine (indentWidth p) (p ++ line) = line := by
  have hcs : dedentFrom (indentWidth p) 0 (p.toList ++ line.toList) = line.toList := by
    rw [dedentFrom_append hp (Nat.le_refl (indentWidth p))]
    exact dedentFrom_of_le (Nat.le_refl _) _
  rw [dedentLine, String.toList_append, hcs, String.ofList_toList]

section Indented

variable {p : String} {ls : List String} {f : String → String}
  (hp : IsIndentation p.toList) (hf : ∀ l ∈ ls, f l = p ++ l ∨ l = "" ∧ f l = "")
  (hls : ∀ l ∈ ls, '\n' ∉ l.toList) (hmargin : ∃ l ∈ ls, AtMargin l)
include hp hf hls

theorem lines_unlines_indented : Text.lines (Text.unlines (ls.map f)) = ls.map f ++ [""] := by
  refine Text.lines_unlines (List.forall_mem_map.mpr fun l hl hmem => ?_)
  rcases hf l hl with he | ⟨-, he⟩
  · rw [he, String.toList_append, List.mem_append] at hmem
    rcases hmem with hmem | hmem
    · rcases hp _ hmem with h | h <;> cases h
    · exact hls l hl hmem
  · rw [he] at hmem
    cases hmem

include hmargin

theorem commonIndent_unlines_indented :
    commonIndent (Text.unlines (ls.map f)) = indentWidth p := by
  have hcounted (k : String) : k ∈ countedLines (Text.unlines (ls.map f)) ↔
      k ∈ ls.map f ∧ isBlankLine k = false := by
    rw [mem_countedLines, lines_unlines_indented hp hf hls, List.dropLast_concat]
  obtain ⟨l, hl, hline⟩ := hmargin
  have hwidth : indentWidth (p ++ l) = indentWidth p := by
    rw [indentWidth_append hp, hline.widthFrom_eq]
  have hindented : p ++ l ∈ countedLines (Text.unlines (ls.map f)) := by
    have hmem : p ++ l ∈ ls.map f := by
      rcases hf l hl with he | ⟨rfl, -⟩
      · exact he ▸ List.mem_map_of_mem hl
      · cases hline.1
    refine (hcounted _).mpr ⟨hmem, ?_⟩
    rw [isBlankLine, String.toList_append, List.all_append]
    exact Bool.and_eq_false_iff.mpr (.inr hline.1)
  rw [← hwidth]
  refine commonIndent_of_least hindented fun k hk => ?_
  obtain ⟨hmem, hink⟩ := (hcounted k).mp hk
  obtain ⟨m, hm, rfl⟩ := List.mem_map.mp hmem
  rcases hf m hm with he | ⟨-, he⟩
  · rw [hwidth, he, indentWidth_append hp]
    exact le_widthFrom _ _
  · rw [he] at hink
    cases hink

/-- Lines that were put in by the same indentation come out as they were; empty ones may have been
left empty. -/
theorem dedent_of_indented : dedent (Text.unlines (ls.map f)) = Text.unlines ls := by
  rw [dedent_eq, commonIndent_unlines_indented hp hf hls hmargin,
    lines_unlines_indented hp hf hls, List.map_append, Text.unlines_eq ls, List.map_map]
  have hback : ls.map (dedentLine (indentWidth p) ∘ f) = ls := by
    refine (List.map_congr_left fun l hl => ?_).trans (List.map_id ls)
    show dedentLine (indentWidth p) (f l) = l
    rcases hf l hl with he | ⟨rfl, he⟩
    · rw [he, dedentLine_append hp]
    · rw [he]
      rfl
  rw [hback]
  rfl

end Indented

/-- Dedenting undoes indenting: if at least one line of a text starts at the margin, then the text
with spaces and tabs before each of its lines loses just these. And whatever the text, dedenting it
twice is dedenting it once. -/
theorem dedent_undoes_indent :
    (∀ (p : String) (ls : List String), IsIndentation p.toList → (∀ l ∈ ls, '\n' ∉ l.toList) →
      (∃ l ∈ ls, AtMargin l) →
        dedent (Text.unlines (ls.map (p ++ ·))) = Text.unlines ls) ∧
      ∀ s, dedent (dedent s) = dedent s := by
  refine ⟨fun p ls hp hls hmargin => ?_, fun s => ?_⟩
  · exact dedent_of_indented hp (fun _ _ => .inl rfl) hls hmargin
  · exact dedent_of_commonIndent (commonIndent_dedent s)

/-- Tabs in the indentation and behind it, an empty line and a blank one. -/
theorem dedent_undoes_indent_sample :
    Text.unlines (["a", "\t b", "", "  "].map (" \t " ++ ·)) = " \t a\n \t \t b\n \t \n \t   \n" ∧
      dedent (Text.unlines (["a", "\t b", "", "  "].map (" \t " ++ ·))) = "a\n\t b\n\n  \n" := by
  have hmargin : AtMargin "a" := ⟨by decide, 'a', rfl, by decide, by decide⟩
  refine ⟨by decide +kernel, ?_⟩
  rw [dedent_undoes_indent.1 " \t " ["a", "\t b", "", "  "] (by decide +kernel) (by decide +kernel)
    ⟨"a", List.mem_cons_self, hmargin⟩]
  decide +kernel

end RubyPretty.Heredoc
