import RubyPretty.Proofs.Layout.Runs
/-!
# Lines of the text

The characters are written in reverse, so the line that is being written is the start of `out`.
Once a line has ended nothing changes it any more (`written_step`), and its number in the final text
is the number of line feeds before it.
-/

namespace RubyPretty

namespace Text

theorem pieces_ne_nil (sep : Char) (cs : List Char) : pieces sep cs ≠ [] := by
  induction cs with
  | nil => simp [pieces]
  | cons c cs ih =>
      rw [pieces]
      split
      · simp
      · cases h : pieces sep cs with
        | nil => exact absurd h ih
        | cons => simp [List.modifyHead]

theorem pieces_append (sep : Char) (cs ds : List Char) :
    pieces sep (cs ++ sep :: ds) = pieces sep cs ++ pieces sep ds := by
  induction cs with
  | nil => simp [pieces]
  | cons c cs ih =>
      rw [List.cons_append, pieces, pieces, ih]
      split
      · rfl
      · cases h : pieces sep cs with
        | nil => exact absurd h (pieces_ne_nil sep cs)
        | cons => simp [List.modifyHead]

theorem pieces_of_not_mem {sep : Char} {cs : List Char} (h : sep ∉ cs) : pieces sep cs = [cs] := by
  induction cs with
  | nil => rfl
  | cons c cs ih =>
      rw [List.mem_cons, not_or] at h
      rw [pieces, if_neg (Ne.symm h.1), ih h.2]
      rfl

theorem pieces_append_of_not_mem {sep : Char} {x : List Char} (hx : sep ∉ x) (cs : List Char) :
    ∃ init last, pieces sep cs = init ++ [last] ∧ pieces sep (cs ++ x) = init ++ [last ++ x] := by
  induction cs with
  | nil => exact ⟨[], [], rfl, by rw [List.nil_append, pieces_of_not_mem hx]; rfl⟩
  | cons c cs ih =>
      obtain ⟨init, last, hcs, hlonger⟩ := ih
      by_cases hc : c = sep
      · refine ⟨[] :: init, last, ?_, ?_⟩
        · rw [pieces, if_pos hc, hcs, List.cons_append]
        · rw [List.cons_append, pieces, if_pos hc, hlonger, List.cons_append]
      · rw [List.cons_append, pieces, pieces, if_neg hc, if_neg hc, hcs, hlonger]
        cases init with
        | nil => exact ⟨[], c :: last, rfl, rfl⟩
        | cons piece init => exact ⟨(c :: piece) :: init, last, rfl, rfl⟩

theorem length_pieces (sep : Char) (cs : List Char) :
    (pieces sep cs).length = cs.count sep + 1 := by
  induction cs with
  | nil => rfl
  | cons c cs ih =>
      rw [pieces]
      split
      · next hc => rw [List.length_cons, ih, hc, List.count_cons_self]
      · next hc =>
          have hbeq : (c == sep) = false := by simpa using hc
          rw [List.length_modifyHead, ih, List.count_cons, hbeq]
          rfl

end Text

namespace Layout.State

/-- The line that is being written, its last character first. -/
def line (s : State) : List Char := s.out.takeWhile (· != '\n')

/-- The last piece of what has been written is the line that is being written. -/
theorem getElem?_pieces_reverse (out : List Char) :
    (Text.pieces '\n' out.reverse)[out.count '\n']? = some (out.takeWhile (· != '\n')).reverse := by
  have hsplit := List.takeWhile_append_dropWhile (p := (· != '\n')) (l := out)
  have hcurrent : '\n' ∉ out.takeWhile (· != '\n') := by
    intro hmem
    simpa using List.all_eq_true.mp List.all_takeWhile _ hmem
  cases hrest : out.dropWhile (· != '\n') with
  | nil =>
      rw [hrest, List.append_nil] at hsplit
      rw [hsplit] at hcurrent ⊢
      rw [Text.pieces_of_not_mem (by simpa using hcurrent), List.count_eq_zero_of_not_mem hcurrent]
      rfl
  | cons c rest =>
      have hc : c = '\n' := by
        have hhead := List.head?_dropWhile_not (· != '\n') out
        rw [hrest] at hhead
        simpa using hhead
      subst hc
      rw [hrest] at hsplit
      have hcount : out.count '\n' = (Text.pieces '\n' rest.reverse).length := by
        rw [← hsplit, List.count_append, List.count_eq_zero_of_not_mem hcurrent,
          List.count_cons_self, Text.length_pieces, List.count_reverse, Nat.zero_add]
      have hrev : out.reverse =
          rest.reverse ++ '\n' :: (out.takeWhile (· != '\n')).reverse := by
        rw [← List.reverse_inj, List.reverse_reverse, ← hsplit]
        simp [hsplit]
      rw [hcount, hrev, Text.pieces_append, List.getElem?_append_right (Nat.le_refl _),
        Nat.sub_self, Text.pieces_of_not_mem fun h => hcurrent (List.mem_reverse.mp h)]
      rfl

theorem getElem?_pieces_ended {before out : List Char} (h : ('\n' :: before) <:+ out) :
    (Text.pieces '\n' out.reverse)[before.count '\n']? =
      some (before.takeWhile (· != '\n')).reverse := by
  obtain ⟨after, rfl⟩ := h
  have hlt : before.count '\n' < (Text.pieces '\n' before.reverse).length := by
    rw [Text.length_pieces, List.count_reverse]
    omega
  rw [List.reverse_append, List.reverse_cons, List.append_assoc, List.singleton_append,
    Text.pieces_append, List.getElem?_append_left hlt, getElem?_pieces_reverse]

variable {page : Page} {s t : State}

/-! ## The line that is being written -/

theorem not_mem_blanks (n : Nat) : '\n' ∉ List.replicate n ' ' := by simp [List.mem_replicate]

theorem takeWhile_append_of_not_mem {x : List Char} (hx : '\n' ∉ x) (before : List Char) :
    (x ++ before).takeWhile (· != '\n') = x ++ before.takeWhile (· != '\n') := by
  apply List.takeWhile_append_of_pos
  intro c hc
  rw [bne_iff_ne]
  rintro rfl
  exact hx hc

theorem line_write {x : String} (hx : '\n' ∉ x.toList) (s : State) :
    (s.write x).line = x.toList.reverse ++ s.line := by
  rw [line, write_out]
  apply takeWhile_append_of_not_mem
  rwa [List.mem_reverse]

theorem takeWhile_lineStart (n : Nat) (before : List Char) :
    (List.replicate n ' ' ++ '\n' :: before).takeWhile (· != '\n') = List.replicate n ' ' := by
  rw [takeWhile_append_of_not_mem (not_mem_blanks n), List.takeWhile_cons_of_neg (by simp),
    List.append_nil]

/-- A literal line end takes back no more than blanks, and puts a line feed and blanks instead. -/
theorem out_endLiteral (hpad : s.Padded) (chunk : Chunk) :
    ∃ gone before, s.out = gone ++ before ∧ '\n' ∉ gone ∧
      (s.endLiteral chunk).out = List.replicate chunk.root ' ' ++ '\n' :: before := by
  cases hn : s.padding with
  | none => exact ⟨[], s.out, rfl, List.not_mem_nil, by rw [endLiteral, hn]; rfl⟩
  | some n =>
      obtain ⟨before, hout⟩ := hpad n hn
      refine ⟨List.replicate n ' ', before, hout, not_mem_blanks n, ?_⟩
      have hdrop : s.out.drop n = before := by
        rw [hout]
        exact List.drop_left' List.length_replicate
      rw [endLiteral, hn, Option.getD_some, hdrop]

theorem out_endIndented (s : State) (chunk : Chunk) :
    ∃ gone before, s.out = gone ++ before ∧ '\n' ∉ gone ∧
      (s.endIndented chunk).out = List.replicate chunk.indent ' ' ++ '\n' :: before := by
  refine ⟨s.out.takeWhile isTrailingBlank, s.out.dropWhile isTrailingBlank,
    List.takeWhile_append_dropWhile.symm, ?_, rfl⟩
  intro hmem
  have hblank := List.all_eq_true.mp List.all_takeWhile _ hmem
  cases hblank

/-! ## What holds of every line -/

/-- `P` holds of every line of what has been written, its last character first. -/
def EveryLine (P : List Char → Prop) (out : List Char) : Prop :=
  ∀ line ∈ Text.pieces '\n' out.reverse, P line

theorem everyLine_current {P : List Char → Prop} {out : List Char} (h : EveryLine P out) :
    P (out.takeWhile (· != '\n')).reverse :=
  h _ (List.mem_of_getElem? (getElem?_pieces_reverse out))

theorem everyLine_append {P : List Char → Prop} {x out : List Char} (hx : '\n' ∉ x)
    (h : EveryLine P out) (hline : P ((out.takeWhile (· != '\n')).reverse ++ x.reverse)) :
    EveryLine P (x ++ out) := by
  obtain ⟨init, last, hout, hlonger⟩ := Text.pieces_append_of_not_mem
    (fun hmem => hx (List.mem_reverse.mp hmem)) out.reverse
  have hlast : last = (out.takeWhile (· != '\n')).reverse := by
    have hget := getElem?_pieces_reverse out
    have hlength : out.count '\n' = init.length := by
      have hcount := Text.length_pieces '\n' out.reverse
      rw [hout, List.length_append, List.length_singleton, List.count_reverse] at hcount
      omega
    rw [hout, hlength, List.getElem?_concat_length] at hget
    exact Option.some.inj hget
  intro line hmem
  rw [List.reverse_append, hlonger, List.mem_append, List.mem_singleton] at hmem
  rcases hmem with hmem | rfl
  · apply h
    rw [hout]
    exact List.mem_append_left _ hmem
  · rw [hlast]
    exact hline

/-- What holds of the start of a line with it still holds when the end of the line is taken back. -/
theorem everyLine_of_append {P : List Char → Prop} (hP : ∀ start rest, P (start ++ rest) → P start)
    {gone before : List Char} (hgone : '\n' ∉ gone) (h : EveryLine P (gone ++ before)) :
    EveryLine P before := by
  obtain ⟨init, last, hbefore, hlonger⟩ := Text.pieces_append_of_not_mem
    (fun hmem => hgone (List.mem_reverse.mp hmem)) before.reverse
  rw [EveryLine, List.reverse_append, hlonger] at h
  intro line hmem
  rw [hbefore, List.mem_append, List.mem_singleton] at hmem
  rcases hmem with hmem | rfl
  · exact h line (List.mem_append_left _ hmem)
  · exact hP _ _ (h _ (List.mem_append_right _ (List.mem_singleton_self _)))

theorem everyLine_lineFeed {P : List Char → Prop} {before : List Char} (h : EveryLine P before)
    {n : Nat} (hblank : P (List.replicate n ' ')) :
    EveryLine P (List.replicate n ' ' ++ '\n' :: before) := by
  intro line hmem
  rw [List.reverse_append, List.reverse_cons, List.append_assoc, List.singleton_append,
    Text.pieces_append, List.reverse_replicate, Text.pieces_of_not_mem (not_mem_blanks n),
    List.mem_append, List.mem_singleton] at hmem
  rcases hmem with hmem | rfl
  · exact h line hmem
  · exact hblank

theorem mem_lines_text {line : String} (h : line ∈ Text.lines s.text) :
    line.toList ∈ Text.pieces '\n' s.out.reverse := by
  rw [Text.lines, text, String.toList_ofList] at h
  obtain ⟨piece, hmem, rfl⟩ := List.mem_map.mp h
  rwa [String.toList_ofList]

/-! ## What has been written stays -/

theorem dropWhile_append_cons {c : Char} (hc : isTrailingBlank c = false)
    (above below : List Char) :
    (above ++ c :: below).dropWhile isTrailingBlank =
      above.dropWhile isTrailingBlank ++ c :: below := by
  induction above with
  | nil => rw [List.nil_append, List.dropWhile_cons_of_neg (by simp [hc])]; rfl
  | cons a above ih =>
      rw [List.cons_append, List.dropWhile_cons, List.dropWhile_cons]
      split
      · exact ih
      · rfl

theorem drop_padding_append_cons (hpad : s.Padded) {c : Char} (hc : isTrailingBlank c = false)
    {above below : List Char} (hout : s.out = above ++ c :: below) :
    s.out.drop (s.padding.getD 0) = above.drop (s.padding.getD 0) ++ c :: below := by
  cases hn : s.padding with
  | none => simpa using hout
  | some n =>
      obtain ⟨before, hbefore⟩ := hpad n hn
      have hle : n ≤ above.length := by
        refine Nat.le_of_not_lt fun hlt => ?_
        have hget : s.out[above.length]? = some ' ' := by
          rw [hbefore, List.getElem?_append_left (by simpa using hlt), List.getElem?_replicate,
            if_pos hlt]
        rw [hout, List.getElem?_append_right (Nat.le_refl _), Nat.sub_self] at hget
        obtain rfl : c = ' ' := by simpa using hget
        cases hc
      rw [hout, Option.getD_some, List.drop_append_of_le_length hle]

/-- What has been written up to a character that is no blank is never taken back. -/
theorem written_take (page : Page) (hpad : s.Padded) (chunk : Chunk) {c : Char}
    (hc : isTrailingBlank c = false) {below : List Char} (h : (c :: below) <:+ s.out) :
    (c :: below) <:+ (s.take page chunk).out := by
  obtain ⟨doc, indent, root, flat⟩ := chunk
  cases doc with
  | text x => exact h.trans (List.suffix_append _ _)
  | newline b =>
      obtain ⟨above, hout⟩ := h
      rcases take_newline s page ⟨.newline b, indent, root, flat⟩ rfl with
        ⟨-, -, he⟩ | ⟨-, ⟨-, he⟩ | ⟨-, -, he⟩ | ⟨-, -, he⟩⟩ <;> rw [he]
      · exact ⟨b.flat.toList.reverse ++ above, by rw [write_out, ← hout, List.append_assoc]⟩
      · exact ⟨above, hout⟩
      · refine ⟨List.replicate root ' ' ++ '\n' :: above.drop (s.padding.getD 0), ?_⟩
        simp only [endLiteral, drop_padding_append_cons hpad hc hout.symm, List.append_assoc,
          List.cons_append]
      · refine ⟨List.replicate indent ' ' ++ '\n' :: above.dropWhile isTrailingBlank, ?_⟩
        simp only [endIndented, ← hout, dropWhile_append_cons hc, List.append_assoc,
          List.cons_append]
  | group d id broken =>
      rw [take_group s page _ rfl]
      exact h
  | _ => exact h

theorem written_step (hs : s.step page = some t) (hpad : s.Padded) {c : Char}
    (hc : isTrailingBlank c = false) {below : List Char} (h : (c :: below) <:+ s.out) :
    (c :: below) <:+ t.out := by
  rcases step_cases hs with ⟨chunk, rest, -, rfl⟩ | ⟨-, -, rfl⟩
  · exact written_take (s := { s with stack := rest }) page hpad chunk hc h
  · exact h

end Layout.State

end RubyPretty
