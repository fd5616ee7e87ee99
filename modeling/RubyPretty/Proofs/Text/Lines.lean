import RubyPretty.Proofs.Layout.Verbatim
/-!
# Lines with their line feeds

A text is its lines with line feeds between them, and lines that hold no line feed are the lines of
the text they make. Lines that each end in a line feed (`unlines`) are followed by an empty one.
-/

namespace RubyPretty.Text

theorem not_mem_of_mem_pieces {sep : Char} {cs piece : List Char} (h : piece ∈ pieces sep cs) :
    sep ∉ piece := by
  induction cs generalizing piece with
  | nil =>
      rw [List.mem_singleton.mp h]
      exact List.not_mem_nil
  | cons c cs ih =>
      rw [pieces] at h
      split at h
      · rcases List.mem_cons.mp h with rfl | h
        · exact List.not_mem_nil
        · exact ih h
      · next hc =>
          cases hpieces : pieces sep cs with
          | nil => exact absurd hpieces (pieces_ne_nil sep cs)
          | cons first more =>
              rw [hpieces] at h ih
              rcases List.mem_cons.mp h with rfl | h
              · rw [List.mem_cons, not_or]
                exact ⟨Ne.symm hc, ih List.mem_cons_self⟩
              · exact ih (List.mem_cons_of_mem _ h)

theorem not_mem_of_mem_lines {s line : String} (h : line ∈ lines s) : '\n' ∉ line.toList := by
  obtain ⟨piece, hmem, rfl⟩ := List.mem_map.mp h
  rw [String.toList_ofList]
  exact not_mem_of_mem_pieces hmem

theorem lines_ne_nil (s : String) : lines s ≠ [] := fun h =>
  pieces_ne_nil _ _ (List.map_eq_nil_iff.mp h)

theorem intercalate_lines (s : String) : "\n".intercalate (lines s) = s := by
  rw [← String.toList_inj, String.toList_intercalate, lines, List.map_map]
  have hid : String.toList ∘ String.ofList = id := funext fun cs => String.toList_ofList
  rw [hid, List.map_id]
  exact intercalate_pieces '\n' s.toList

theorem lines_append_lineFeed (s t : String) : lines (s ++ "\n" ++ t) = lines s ++ lines t := by
  rw [lines, String.toList_append, String.toList_append, List.append_assoc]
  show List.map _ (pieces '\n' (s.toList ++ '\n' :: t.toList)) = _
  rw [pieces_append, List.map_append]
  rfl

theorem lines_of_not_mem {s : String} (h : '\n' ∉ s.toList) : lines s = [s] := by
  rw [lines, pieces_of_not_mem h, List.map_singleton, String.ofList_toList]

theorem lines_intercalate {ls : List String} (hne : ls ≠ []) (h : ∀ l ∈ ls, '\n' ∉ l.toList) :
    lines ("\n".intercalate ls) = ls := by
  induction ls with
  | nil => exact absurd rfl hne
  | cons l ls ih =>
      obtain ⟨hl, hls⟩ := List.forall_mem_cons.mp h
      cases ls with
      | nil => rw [String.intercalate_singleton, lines_of_not_mem hl]
      | cons next ls =>
          rw [String.intercalate_cons_cons, lines_append_lineFeed, lines_of_not_mem hl,
            ih (List.cons_ne_nil _ _) hls]
          rfl

def unlines (ls : List String) : String := String.join (ls.map (· ++ "\n"))

theorem unlines_eq (ls : List String) : unlines ls = "\n".intercalate (ls ++ [""]) := by
  induction ls with
  | nil => rfl
  | cons l ls ih =>
      rw [List.cons_append, String.intercalate_cons_of_ne_nil (by simp), ← ih]
      exact String.join_cons

theorem lines_unlines {ls : List String} (h : ∀ l ∈ ls, '\n' ∉ l.toList) :
    lines (unlines ls) = ls ++ [""] := by
  rw [unlines_eq]
  refine lines_intercalate (by simp) (List.forall_mem_append.mpr ⟨h, ?_⟩)
  exact List.forall_mem_singleton.mpr List.not_mem_nil

theorem unlines_lines (s : String) : unlines (lines s) = s ++ "\n" := by
  rw [unlines_eq, String.intercalate_append_of_ne_nil (lines_ne_nil s) (by simp),
    intercalate_lines, String.intercalate_singleton, String.append_empty]

/-! ## Texts that end in no line feed -/

theorem exists_append_trimEndOf (p : Char → Bool) (s : String) :
    ∃ x : List Char, s.toList = (trimEndOf p s).toList ++ x ∧ ∀ c ∈ x, p c = true := by
  refine ⟨(s.toList.reverse.takeWhile p).reverse, ?_, fun c hc => ?_⟩
  · rw [trimEndOf, String.toList_ofList, dropEndWhile, ← List.reverse_append,
      List.takeWhile_append_dropWhile, List.reverse_reverse]
  · exact List.all_eq_true.mp List.all_takeWhile c (List.mem_reverse.mp hc)

theorem getLast?_trimEndOf {p : Char → Bool} {s : String} {c : Char}
    (h : (trimEndOf p s).toList.getLast? = some c) : p c = false := by
  rw [trimEndOf, String.toList_ofList, dropEndWhile, List.getLast?_reverse] at h
  have hhead := List.head?_dropWhile_not p s.toList.reverse
  rw [h] at hhead
  exact hhead

theorem mem_lines_trimEnd {s line : String} (h : line ∈ lines s) (hne : line ≠ "") :
    line ∈ lines (trimEndOf (· == '\n') s) := by
  obtain ⟨x, hx, hfeeds⟩ := exists_append_trimEndOf (· == '\n') s
  have hpieces (cs : List Char) : ∀ piece ∈ pieces '\n' (cs ++ x), piece ≠ [] →
      piece ∈ pieces '\n' cs := by
    clear hx
    induction x generalizing cs with
    | nil =>
        intro piece hpiece _
        rwa [List.append_nil] at hpiece
    | cons c x ih =>
        intro piece hpiece hsome
        obtain ⟨hc, hfeeds⟩ := List.forall_mem_cons.mp hfeeds
        rw [eq_of_beq hc, pieces_append] at hpiece
        rcases List.mem_append.mp hpiece with hpiece | hpiece
        · exact hpiece
        · have hnil := ih hfeeds [] piece hpiece hsome
          exact absurd (List.mem_singleton.mp hnil) hsome
  rw [lines, hx] at h
  obtain ⟨piece, hpiece, rfl⟩ := List.mem_map.mp h
  refine List.mem_map.mpr ⟨piece, hpieces _ piece hpiece ?_, rfl⟩
  rintro rfl
  exact hne rfl

/-- A text ends in a line feed or is empty if its last line is empty. -/
theorem getLast?_of_last_line_empty {s : String} (h : (lines s).getLast? = some "") :
    s = "" ∨ s.toList.getLast? = some '\n' := by
  obtain ⟨init, hinit⟩ := List.getLast?_eq_some_iff.mp h
  have hs := intercalate_lines s
  rw [hinit, ← unlines_eq] at hs
  rcases List.eq_nil_or_concat init with rfl | ⟨ls, l, rfl⟩
  · exact .inl hs.symm
  · refine .inr ?_
    rw [← hs, unlines, List.concat_eq_append, List.map_append, String.toList_join,
      List.flatMap_append]
    simp [String.toList_append]

end RubyPretty.Text
