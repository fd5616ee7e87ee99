import Mathlib.Data.List.DropRight
import RubyPretty.Proofs.Doc.MinCount
import RubyPretty.Proofs.Layout.Lines
/-!
# Texts that are written

A text that is counted in the documents that wait stays so until it is written (`waits_take`), and
what has been written of it, without the blanks at its end, is never taken back (`shown_step`). So
the text stands in what is rendered (`render_keeps_text`).
-/

namespace RubyPretty.Layout.State

open Doc

variable {page : Page} {s t : State} {x : String}

def minCountIn (x : String) (chunks : List Chunk) : Nat := minCountAll x (chunks.map (·.doc))

def waits (x : String) (s : State) : Nat := minCountIn x s.stack + minCountIn x s.suffixes

@[simp] theorem minCountIn_nil : minCountIn x [] = 0 := rfl

@[simp] theorem minCountIn_cons (c : Chunk) (cs : List Chunk) :
    minCountIn x (c :: cs) = minCount x c.doc + minCountIn x cs := rfl

@[simp] theorem minCountIn_append (cs ds : List Chunk) :
    minCountIn x (cs ++ ds) = minCountIn x cs + minCountIn x ds := by
  rw [minCountIn, List.map_append, minCountAll_append]
  rfl

theorem minCountIn_perm {cs ds : List Chunk} (h : cs.Perm ds) :
    minCountIn x cs = minCountIn x ds := by
  rw [minCountIn, minCountIn, minCountAll_eq_sum, minCountAll_eq_sum]
  exact ((h.map _).map _).sum_nat

theorem minCountIn_withDoc (chunk : Chunk) (ds : List Doc) :
    minCountIn x (ds.map chunk.withDoc) = minCountAll x ds := by
  rw [minCountIn, List.map_map]
  exact congrArg (minCountAll x) (List.map_id ds)

theorem waits_push (s : State) (cs : List Chunk) :
    (s.push cs).waits x = minCountIn x cs + s.waits x := by
  rw [waits, push_stack, push_suffixes, minCountIn_append, waits, Nat.add_assoc]

theorem waits_flush (s : State) : s.flush.waits x = s.waits x := by
  rw [waits, flush_suffixes, minCountIn_perm (flush_stack_perm s), minCountIn_append,
    minCountIn_nil, waits]
  omega

theorem minCountIn_fillChunks (s : State) (page : Page) (chunk : Chunk) (items : List Doc) :
    minCountIn x (s.fillChunks page chunk items) = minCountAll x items := by
  match items with
  | [] | [_] | [_, _] => rfl
  | _ :: _ :: _ :: _ => simp [fillChunks, Chunk.withDoc]

theorem le_waits_push (s : State) {cs : List Chunk} {n : Nat} (h : n ≤ minCountIn x cs) :
    s.waits x + n ≤ (s.push cs).waits x := by
  rw [waits_push]
  omega

/-- What is counted in a chunk waits on, unless the chunk is the text itself. -/
theorem waits_take (s : State) (page : Page) {chunk : Chunk} (hdoc : chunk.doc ≠ .text x) :
    s.waits x + minCount x chunk.doc ≤ (s.take page chunk).waits x := by
  obtain ⟨doc, indent, root, flat⟩ := chunk
  cases doc with
  | empty | breakParent => exact Nat.le_refl _
  | text y =>
      have hy : y ≠ x := fun h => hdoc (by rw [h])
      exact Nat.le_of_eq (congrArg (s.waits x + ·) (if_neg hy))
  | newline b =>
      rcases take_newline s page ⟨.newline b, indent, root, flat⟩ rfl with
        ⟨-, -, he⟩ | ⟨-, ⟨-, he⟩ | ⟨-, -, he⟩ | ⟨-, -, he⟩⟩
      · exact Nat.le_of_eq (congrArg (waits x) he).symm
      · rw [he, waits_flush]
        exact le_waits_push s (Nat.zero_le _)
      · exact Nat.le_of_eq (congrArg (waits x) he).symm
      · exact Nat.le_of_eq (congrArg (waits x) he).symm
  | seq ds => exact le_waits_push s (Nat.le_of_eq (minCountIn_withDoc _ ds).symm)
  | indent d | align n d | root d => exact le_waits_push s (Nat.le_refl _)
  | group d id broken =>
      rw [take_group s page _ rfl]
      show _ ≤ (s.push [_]).waits x
      exact le_waits_push s (Nat.le_refl _)
  | ifBreak b f id =>
      refine le_waits_push s ?_
      show min (minCount x b) (minCount x f) ≤ minCount x (if _ then f else b)
      split
      · exact Nat.min_le_right _ _
      · exact Nat.min_le_left _ _
  | fill items => exact le_waits_push s (Nat.le_of_eq (minCountIn_fillChunks s page _ items).symm)
  | suffix d =>
      show s.waits x + minCount x d ≤ minCountIn x s.stack + minCountIn x (s.suffixes ++ [_])
      exact Nat.le_of_eq (by rw [minCountIn_append, ← Nat.add_assoc]; rfl)

/-- A text waits, or it has been written with its last character other than a blank. -/
def Shown (x : String) (s : State) : Prop :=
  0 < s.waits x ∨ ∃ below, (x.toList.reverse.dropWhile isTrailingBlank ++ below) <:+ s.out

theorem written_text_step (hs : s.step page = some t) (hpad : s.Padded) {below : List Char}
    (h : (x.toList.reverse.dropWhile isTrailingBlank ++ below) <:+ s.out) :
    ∃ below, (x.toList.reverse.dropWhile isTrailingBlank ++ below) <:+ t.out := by
  cases hink : x.toList.reverse.dropWhile isTrailingBlank with
  | nil => exact ⟨t.out, List.suffix_refl _⟩
  | cons c cs =>
      have hc : isTrailingBlank c = false := by
        have hhead := List.head?_dropWhile_not isTrailingBlank x.toList.reverse
        rw [hink] at hhead
        simpa using hhead
      rw [hink] at h
      exact ⟨below, written_step hs hpad hc h⟩

theorem shown_step (hs : s.step page = some t) (hpad : s.Padded) (h : s.Shown x) : t.Shown x := by
  rcases h with hwaits | ⟨below, hbelow⟩
  · rcases step_cases hs with ⟨chunk, rest, hstack, rfl⟩ | ⟨-, -, rfl⟩
    · have hrest : s.waits x = { s with stack := rest }.waits x + minCount x chunk.doc := by
        show _ = minCountIn x rest + minCountIn x s.suffixes + _
        rw [waits, hstack, minCountIn_cons]
        omega
      by_cases hdoc : chunk.doc = .text x
      · -- the text is written now, with its blanks on top
        obtain ⟨blanks, hblanks⟩ := List.dropWhile_suffix (l := x.toList.reverse) isTrailingBlank
        refine .inr ⟨s.out, blanks, ?_⟩
        rw [← List.append_assoc, hblanks, take, hdoc]
        rfl
      · have htake := waits_take { s with stack := rest } page hdoc
        exact .inl (by omega)
    · exact .inl (by rw [waits_flush]; exact hwaits)
  · exact .inr (written_text_step hs hpad hbelow)

/-- A text that is counted in a document is rendered, without the blanks at its end. -/
theorem render_keeps_text (page : Page) {d : Doc} (h : 0 < minCount x d) :
    x.toList.rdropWhile isTrailingBlank <:+: (render page d).toList := by
  have hstart : (start d.propagateBreaks).Shown x := by
    refine .inl ?_
    show 0 < minCountIn x [⟨d.settle.1, 0, 0, false⟩] + 0
    rw [minCountIn_cons, minCount_settle]
    omega
  obtain ⟨-, hshown⟩ : (finish page d).Padded ∧ (finish page d).Shown x :=
    run_induction page (P := fun s => s.Padded ∧ s.Shown x)
      (fun _ _ hs h => ⟨padded_step hs h.1, shown_step hs h.1 h.2⟩) _ _ ⟨padded_start _, hstart⟩
  rcases hshown with hwaits | ⟨below, above, hout⟩
  · obtain ⟨hstack, hsuffixes⟩ := done_finish page d
    rw [waits, hstack, hsuffixes] at hwaits
    cases hwaits
  · refine ⟨below.reverse, above.reverse, ?_⟩
    rw [render_eq, State.text, String.toList_ofList, ← hout, List.rdropWhile]
    simp

end RubyPretty.Layout.State
