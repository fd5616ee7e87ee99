import RubyPretty.Proofs.Layout.Spaced
import RubyPretty.Proofs.Printing.Yields
import RubyPretty.Proofs.Syntax.Schema
import RubyPretty.Rules.Default
/-!
# Word arrays are read back

A word array is its words with breaks between them. A break is a blank on a single line and a line
end with blanks otherwise, and no word ends in a blank that a line end would take back. So what is
written between the brackets falls into the words again when it is split at its blanks
(`wordsIn_spaced`), on any page.
-/

namespace RubyPretty

/-! ## Splitting at blanks -/

namespace Text

def wordsIn (cs : List Char) : List (List Char) := (cs.splitOnP isBlank).filter (!·.isEmpty)

/-- The words of a text: what is left of it when it is split at blanks. -/
def words (s : String) : List String := (wordsIn s.toList).map String.ofList

theorem wordsIn_append_blank {c : Char} (hc : isBlank c = true) (x y : List Char) :
    wordsIn (x ++ c :: y) = wordsIn x ++ wordsIn y := by
  rw [wordsIn, List.splitOnP_append_cons x y hc, List.filter_append]
  rfl

theorem wordsIn_blanks_append {g : List Char} (hg : ∀ c ∈ g, isBlank c = true) (y : List Char) :
    wordsIn (g ++ y) = wordsIn y := by
  induction g with
  | nil => rfl
  | cons c g ih =>
      obtain ⟨hc, hg⟩ := List.forall_mem_cons.mp hg
      exact (wordsIn_append_blank hc [] (g ++ y)).trans (ih hg)

theorem IsWord.wordsIn_eq {w : List Char} (h : IsWord w) : wordsIn w = [w] := by
  have hsplit : w.splitOnP isBlank = [w] := List.splitOnP_eq_singleton h.2
  rw [wordsIn, hsplit]
  simp [h.1]

theorem wordsIn_append_blanks {w g : List Char} (hw : IsWord w) (hg : ∀ c ∈ g, isBlank c = true) :
    wordsIn (w ++ g) = [w] := by
  cases g with
  | nil => rw [List.append_nil, hw.wordsIn_eq]
  | cons c g =>
      obtain ⟨hc, hg⟩ := List.forall_mem_cons.mp hg
      have hnone := wordsIn_blanks_append hg []
      rw [List.append_nil] at hnone
      rw [wordsIn_append_blank hc, hw.wordsIn_eq, hnone]
      rfl

theorem wordsIn_spaced {g e : List Char} (hg : ∀ c ∈ g, isBlank c = true) (hne : g ≠ [])
    (he : ∀ c ∈ e, isBlank c = true) {w : List Char} {ws : List (List Char)}
    (hws : ∀ x ∈ w :: ws, IsWord x) :
    wordsIn (w ++ (ws.flatMap fun x => g ++ x) ++ e) = w :: ws := by
  induction ws generalizing w with
  | nil =>
      rw [List.flatMap_nil, List.append_nil]
      exact wordsIn_append_blanks (hws w List.mem_cons_self) he
  | cons next ws ih =>
      obtain ⟨hw, hws⟩ := List.forall_mem_cons.mp hws
      obtain ⟨c, g', rfl⟩ := List.exists_cons_of_ne_nil hne
      obtain ⟨hc, hg'⟩ := List.forall_mem_cons.mp hg
      calc wordsIn (w ++ ((next :: ws).flatMap fun x => c :: g' ++ x) ++ e)
          = wordsIn (w ++ c :: (g' ++ (next ++ (ws.flatMap fun x => c :: g' ++ x) ++ e))) := by
            simp [List.append_assoc]
        _ = wordsIn w ++ wordsIn (next ++ (ws.flatMap fun x => c :: g' ++ x) ++ e) := by
            rw [wordsIn_append_blank hc, wordsIn_blanks_append hg']
        _ = w :: next :: ws := by
            rw [hw.wordsIn_eq, ih hws]
            rfl

end Text

namespace Rules

open Layout Layout.State

/-! ## The document of a word array -/

/-- The words of an array with the breaks in front of them. -/
def wordItems : List String → List (Break × String)
  | [] => []
  | w :: ws => (softBreak, w) :: ws.map fun w => (lineBreak, w)

theorem chooseBrackets_of_free {texts : List String} (h : bracketsFree texts ('[', ']') = true) :
    chooseBrackets texts = ('[', ']') := by
  rw [chooseBrackets, wordBrackets, List.find?_cons_of_pos h]
  rfl

theorem parts_joined_words {w : String} {ws : List String} (hne : ∀ x ∈ w :: ws, x ≠ "") :
    (Doc.joined .line ((w :: ws).map Doc.ofString)).parts =
      .text w :: ws.flatMap fun x => [.line, .text x] := by
  have hrow : Doc.line :: (((w :: ws).map Doc.ofString).intersperse .line).flatMap Doc.parts =
      (w :: ws).flatMap fun x => [.line, .text x] := by
    rw [Doc.cons_intersperse rfl (List.cons_ne_nil w ws)]
    refine List.flatMap_congr fun x hx => ?_
    rw [Doc.ofString, if_neg (hne x hx)]
    rfl
  rw [List.flatMap_cons] at hrow
  obtain ⟨-, hrow⟩ := List.cons.inj hrow
  rw [Doc.joined, Doc.cat, hrow]
  exact Doc.parts_ofParts List.mem_cons_self rfl

theorem wordArray_eq {w : String} {ws : List String} (hne : ∀ x ∈ w :: ws, x ≠ "")
    (hfree : bracketsFree (w :: ws) ('[', ']') = true) {start : String} (hstart : start ≠ "") :
    wordArray start ((w :: ws).map Doc.ofString) (w :: ws) =
      .group (bracketed start "[" (wordItems (w :: ws)) "]") none false := by
  have hcat : Doc.cat [.softline, .joined .line ((w :: ws).map Doc.ofString)] =
      .seq (spaced (wordItems (w :: ws))) := by
    rw [Doc.cat, List.flatMap_cons, List.flatMap_singleton, parts_joined_words hne, wordItems,
      spaced, List.flatMap_cons, List.flatMap_map]
    rfl
  rw [wordArray, chooseBrackets_of_free hfree, Doc.indented, hcat, Doc.ofString, if_neg hstart]
  rfl

/-! ## Reading the elements -/

/-- The two kinds of arrays that are written as words. -/
inductive WordKind where
  | string
  | symbol

namespace WordKind

def start : WordKind → String
  | string => "%w"
  | symbol => "%i"

theorem start_ne_empty (kind : WordKind) : kind.start ≠ "" := by
  cases kind <;> decide

def accepts : WordKind → List Value → Outcome Bool
  | string => Shape.isStringArray
  | symbol => Shape.isSymbolArray

/-- The text of an element. -/
def text : WordKind → Value → Outcome String
  | string => stringWordText
  | symbol => symbolWordText

end WordKind

theorem stringWordText_of_isStringWord {v : Value} (h : Shape.isStringWord v = .ok true) :
    ∃ s, stringWordText v = .ok s ∧ Shape.isWord s = true := by
  rw [Shape.isStringWord, Except.bind_eq_ok] at h
  obtain ⟨n, hn, h⟩ := h
  split at h
  · cases h
  · split at h
    · next source parts hbody =>
        rw [Except.bind_eq_ok] at h
        obtain ⟨vs, hvs, h⟩ := h
        split at h
        · next part =>
            rw [Except.bind_eq_ok] at h
            obtain ⟨m, hm, h⟩ := h
            split at h
            · cases h
            · rw [Except.bind_eq_ok] at h
              obtain ⟨s, hs, h⟩ := h
              refine ⟨s, ?_, Except.ok.inj h⟩
              have hchild : n.child 1 = .ok parts := by rw [Node.child_eq_ok, hbody]; rfl
              rw [stringWordText, hn, Except.ok_bind, hchild, Except.ok_bind, hvs,
                Except.ok_bind]
              show (part.asNode >>= Node.token) = _
              rw [hm, Except.ok_bind, hs]
        · cases h
    · cases h

theorem symbolWordText_of_isSymbolWord {v : Value} (h : Shape.isSymbolWord v = .ok true) :
    ∃ s, symbolWordText v = .ok s ∧ Shape.isWord s = true := by
  rw [Shape.isSymbolWord, Except.bind_eq_ok] at h
  obtain ⟨n, hn, h⟩ := h
  split at h
  · cases h
  · rw [Except.bind_eq_ok] at h
    obtain ⟨m, hm, h⟩ := h
    rw [Except.bind_eq_ok] at h
    obtain ⟨s, hs, h⟩ := h
    refine ⟨s, ?_, Except.ok.inj h⟩
    rw [symbolWordText, hn, Except.ok_bind, hm, Except.ok_bind, hs]

theorem isStringWord_of_isSymbolWord {v : Value} (h : Shape.isSymbolWord v = .ok true) :
    Shape.isStringWord v = .ok false := by
  rw [Shape.isSymbolWord, Except.bind_eq_ok] at h
  obtain ⟨n, hn, h⟩ := h
  split at h
  · cases h
  · next htag =>
      simp only [Bool.or_eq_true, decide_eq_true_eq, not_or, ne_eq, Decidable.not_not] at htag
      rw [Shape.isStringWord, hn, Except.ok_bind, htag.1]
      rfl

namespace WordKind

variable {kind : WordKind} {elements : List Value}

theorem two_le_length (h : kind.accepts elements = .ok true) : 2 ≤ elements.length := by
  cases kind with
  | string | symbol =>
      simp only [accepts, Shape.isStringArray, Shape.isSymbolArray] at h
      split at h
      · cases h
      · omega

theorem exists_texts (h : kind.accepts elements = .ok true) :
    ∃ texts, elements.mapM kind.text = .ok texts ∧ texts.length = elements.length ∧
      ∀ s ∈ texts, Shape.isWord s = true := by
  have hlength : ¬elements.length < 2 := Nat.not_lt.mpr (two_le_length h)
  apply Except.exists_mapM_eq_ok
  cases kind with
  | string =>
      rw [accepts, Shape.isStringArray, if_neg hlength] at h
      exact fun v hv => stringWordText_of_isStringWord (Except.allM_eq_ok h v hv)
  | symbol =>
      rw [accepts, Shape.isSymbolArray, if_neg hlength] at h
      exact fun v hv => symbolWordText_of_isSymbolWord (Except.allM_eq_ok h v hv)

theorem asWords?_eq {o : Options} (ho : o.arrayLiteral = true)
    (h : kind.accepts elements = .ok true) {texts : List String}
    (htexts : elements.mapM kind.text = .ok texts) :
    asWords? o elements =
      .ok (some (wordArray kind.start (texts.map Doc.ofString) texts)) := by
  unfold asWords?
  rw [ho]
  cases kind with
  | string =>
      rw [accepts] at h
      rw [text] at htexts
      rw [h, htexts]
      rfl
  | symbol =>
      have hstrings : Shape.isStringArray elements = .ok false := by
        have hlength := two_le_length h
        rw [accepts, Shape.isSymbolArray, if_neg (Nat.not_lt.mpr hlength)] at h
        rw [Shape.isStringArray, if_neg (Nat.not_lt.mpr hlength)]
        cases elements with
        | nil => cases hlength
        | cons v vs =>
            rw [List.allM,
              isStringWord_of_isSymbolWord (Except.allM_eq_ok h v List.mem_cons_self)]
            rfl
      rw [accepts] at h
      rw [text] at htexts
      rw [hstrings, h, htexts]
      rfl

end WordKind

theorem tag_of_argumentNodes {contents : Value} {elements : List Value}
    (h : argumentNodes contents = .ok elements) (hlength : 2 ≤ elements.length) :
    ∃ n, contents = .node n ∧ (n.tag = "args" ∨ n.tag = "args_add_block") := by
  cases contents with
  | null =>
      cases h
      cases hlength
  | node n =>
      obtain ⟨tag, body, comments, loc⟩ := n
      refine ⟨_, rfl, ?_⟩
      by_contra htag
      obtain ⟨hargs, hblock⟩ := not_or.mp htag
      unfold argumentNodes at h
      rw [if_neg hargs, if_neg hblock] at h
      obtain rfl := Except.ok.inj h
      simp at hlength
  | _ => cases h

theorem arrayContents_words {pr : Printer} {p : Place} {kind : WordKind} {contents : Value}
    {elements : List Value} {texts : List String} (hpr : pr.options.arrayLiteral = true)
    (hcontents : argumentNodes contents = .ok elements)
    (haccepts : kind.accepts elements = .ok true)
    (htexts : elements.mapM kind.text = .ok texts) :
    arrayContents pr p contents =
      pure (wordArray kind.start (texts.map Doc.ofString) texts) := by
  obtain ⟨n, rfl, htag⟩ := tag_of_argumentNodes hcontents (WordKind.two_le_length haccepts)
  have hother : ["qwords", "qsymbols", "words", "symbols"].contains n.tag = false := by
    rcases htag with h | h <;> rw [h] <;> decide
  unfold arrayContents
  rw [Value.asNode, PrintM.lift_ok_bind, hother, hcontents, PrintM.lift_ok_bind,
    WordKind.asWords?_eq hpr haccepts htexts]
  rfl

/-! ## Reading back what is written -/

theorem mem_word {s : String} (h : Shape.isWord s = true) {c : Char} (hc : c ∈ s.toList) :
    Text.isBlank c = false ∧ c ≠ '[' ∧ c ≠ ']' ∧ c ≠ '\\' := by
  simp only [Shape.isWord, Bool.not_eq_true', List.any_eq_false, Shape.isWordBreaker,
    Bool.or_eq_true, beq_iff_eq, not_or, Bool.not_eq_true] at h
  obtain ⟨⟨⟨hblank, hslash⟩, hopening⟩, hclosing⟩ := h c hc
  exact ⟨hblank, hopening, hclosing, hslash⟩

theorem bracketsFree_words {texts : List String} (h : ∀ s ∈ texts, Shape.isWord s = true) :
    bracketsFree texts ('[', ']') = true := by
  refine List.all_eq_true.mpr fun s hs => ?_
  have hopening : '[' ∉ s.toList := fun hmem => (mem_word (h s hs) hmem).2.1 rfl
  have hclosing : ']' ∉ s.toList := fun hmem => (mem_word (h s hs) hmem).2.2.1 rfl
  simp [hopening, hclosing]

theorem isWord_toList {s : String} (h : Shape.isWord s = true) (hne : s ≠ "") :
    Text.IsWord s.toList := by
  refine ⟨fun hnil => hne ?_, fun c hc => (mem_word h hc).1⟩
  rw [← String.toList_inj, hnil]
  rfl

section Between

variable {w : String} {ws : List String} (hwords : ∀ x ∈ w :: ws, Shape.isWord x = true)
  (hne : ∀ x ∈ w :: ws, x ≠ "") (flat : Bool) (indent : Nat)

/-- What is written between the brackets. -/
def between (flat : Bool) (indent : Nat) (texts : List String) : List Char :=
  spacedText flat indent (wordItems texts) ++ gap softBreak flat 0

theorem between_cons :
    between flat indent (w :: ws) = gap softBreak flat indent ++
      (w.toList ++ ((ws.map String.toList).flatMap fun x => gap lineBreak flat indent ++ x) ++
        gap softBreak flat 0) := by
  rw [between, wordItems, spacedText, List.flatMap_cons, List.flatMap_map, List.flatMap_map]
  simp only [List.append_assoc]

include hwords in
theorem mem_between {c : Char} (hc : c ∈ between flat indent (w :: ws)) :
    c ≠ '[' ∧ c ≠ ']' ∧ c ≠ '\\' := by
  rw [between_cons] at hc
  have hgap {b : Break} {k : Nat} (hb : ∀ c ∈ b.flat.toList, c = ' ') (hc : c ∈ gap b flat k) :
      c ≠ '[' ∧ c ≠ ']' ∧ c ≠ '\\' := by
    rcases mem_gap hb hc with rfl | rfl <;> decide
  rcases List.mem_append.mp hc with hc | hc
  · exact hgap mem_flat_softBreak hc
  rcases List.mem_append.mp hc with hc | hc
  · rcases List.mem_append.mp hc with hc | hc
    · exact (mem_word (hwords w List.mem_cons_self) hc).2
    · rw [List.flatMap_map] at hc
      obtain ⟨x, hx, hc⟩ := List.mem_flatMap.mp hc
      rcases List.mem_append.mp hc with hc | hc
      · exact hgap mem_flat_lineBreak hc
      · exact (mem_word (hwords x (List.mem_cons_of_mem w hx)) hc).2
  · exact hgap mem_flat_softBreak hc

include hwords hne in
theorem wordsIn_between :
    Text.wordsIn (between flat indent (w :: ws)) = (w :: ws).map String.toList := by
  have hblank {b : Break} {k : Nat} (hb : ∀ c ∈ b.flat.toList, c = ' ') :
      ∀ c ∈ gap b flat k, Text.isBlank c = true := by
    intro c hc
    rcases mem_gap hb hc with rfl | rfl <;> decide
  have hgap : gap lineBreak flat indent ≠ [] := by
    cases flat <;> exact List.cons_ne_nil _ _
  have hall : ∀ x ∈ w.toList :: ws.map String.toList, Text.IsWord x :=
    List.forall_mem_map.mpr fun x hx => isWord_toList (hwords x hx) (hne x hx)
  rw [between_cons, Text.wordsIn_blanks_append (hblank mem_flat_softBreak),
    Text.wordsIn_spaced (hblank mem_flat_lineBreak) hgap
      (hblank mem_flat_softBreak) hall]
  rfl

include hwords hne in
theorem isSpaced_wordItems :
    ∀ i ∈ wordItems (w :: ws), IsSpaced i := by
  have hink (x : String) (hx : x ∈ w :: ws) : EndsInInk x.toList :=
    endsInInk_of_isWord (isWord_toList (hwords x hx) (hne x hx))
  refine List.forall_mem_cons.mpr ⟨⟨rfl, rfl, hink w List.mem_cons_self⟩, ?_⟩
  exact List.forall_mem_map.mpr fun x hx => ⟨rfl, rfl, hink x (List.mem_cons_of_mem w hx)⟩

end Between

/-- Arrays that are written as words are read back. Elements that can be words have texts, and if
none of them is empty, then on every page there stands between `%w[` or `%i[` and a bracket a text
without square brackets and backslashes that falls into these texts when it is split at its blanks,
whether it breaks or not. -/
theorem word_arrays_read_back (pr : Printer) (p : Place) (hpr : pr.options.arrayLiteral = true)
    (kind : WordKind) (contents : Value) (elements : List Value)
    (hcontents : argumentNodes contents = .ok elements)
    (haccepts : kind.accepts elements = .ok true) (notes : List ChainNote) :
    ∃ texts doc, elements.mapM kind.text = .ok texts ∧
      (arrayContents pr p contents).run notes = .ok (doc, notes) ∧
      ((∀ s ∈ texts, s ≠ "") → ∀ page : Page,
        (∃ x, render page doc = kind.start ++ "[" ++ x ++ "]" ∧
          (∀ c ∈ x.toList, c ≠ '[' ∧ c ≠ ']' ∧ c ≠ '\\') ∧ Text.words x = texts) ∧
        (Text.canHoldBlanks page.tab = true → render? page doc = some (render page doc))) := by
  obtain ⟨texts, htexts, hlength, hwords⟩ := WordKind.exists_texts haccepts
  have htwo := WordKind.two_le_length haccepts
  refine ⟨texts, _, htexts, by rw [arrayContents_words hpr hcontents haccepts htexts]; rfl,
    fun hne page => ?_⟩
  have hsome : texts ≠ [] := List.ne_nil_of_length_pos (by omega)
  obtain ⟨w, ws, rfl⟩ := List.exists_cons_of_ne_nil hsome
  have hspaced := isSpaced_wordItems hwords hne
  rw [wordArray_eq hne (bracketsFree_words hwords) kind.start_ne_empty]
  constructor
  · have hopening : EndsInInk "[".toList := ⟨'[', rfl, rfl⟩
    have hclosing : EndsInInk "]".toList := ⟨']', rfl, rfl⟩
    obtain ⟨flat, hrender⟩ := render_bracketed page hspaced hopening hclosing kind.start
    refine ⟨String.ofList (between flat (if flat then 0 else page.tab.toNat) (w :: ws)), ?_, ?_, ?_⟩
    · rw [hrender, ← String.toList_inj]
      simp [between, spacedText, String.toList_append]
    · rw [String.toList_ofList]
      exact fun c hc => mem_between hwords _ _ hc
    · rw [Text.words, String.toList_ofList, wordsIn_between hwords hne, List.map_map]
      refine (List.map_congr_left fun x _ => ?_).trans (List.map_id _)
      exact String.ofList_toList
  · intro htab
    have hwritable :
        (bracketed kind.start "[" (wordItems (w :: ws)) "]").every Doc.isWritable = true :=
      every_bracketed (fun _ => rfl) (fun _ => rfl) (fun _ => rfl) (fun _ _ => rfl)
        (fun i hi => (hspaced i hi).hard) _ _ _
    apply render?_of_isWritable htab
    simp only [Doc.every, hwritable]
    rfl

def sampleString (s : String) : Value :=
  .node (.plain "string_literal" [.text "'", .list [.node (.stringPart s)]])

def sampleStrings : List Value := ["a,", "(b)", "c"].map sampleString

theorem word_arrays_read_back_sample :
    ∃ doc, (arrayContents (Registry.default.printer Options.default none 0)
        (.root ⟨"array", [], [], none⟩) (.node ⟨"args", sampleStrings, [], none⟩)).run [] =
          .ok (doc, []) ∧
      render ⟨13, 2⟩ doc = "%w[a, (b) c]" ∧ render ⟨11, 2⟩ doc = "%w[\n  a,\n  (b)\n  c\n]" ∧
      ∃ x, render ⟨11, 2⟩ doc = "%w" ++ "[" ++ x ++ "]" ∧ Text.words x = ["a,", "(b)", "c"] := by
  obtain ⟨texts, doc, htexts, hrun, hread⟩ := word_arrays_read_back
    (Registry.default.printer Options.default none 0) (.root ⟨"array", [], [], none⟩) rfl .string
    (.node ⟨"args", sampleStrings, [], none⟩) sampleStrings rfl rfl []
  obtain rfl : ["a,", "(b)", "c"] = texts := Except.ok.inj htexts
  obtain rfl : wordArray "%w" (["a,", "(b)", "c"].map Doc.ofString) ["a,", "(b)", "c"] = doc :=
    congrArg Prod.fst (Except.ok.inj hrun)
  obtain ⟨⟨x, hx, -, hwords⟩, -⟩ := hread (by decide) ⟨11, 2⟩
  exact ⟨_, hrun, by decide +kernel, by decide +kernel, x, hx, hwords⟩

end Rules

end RubyPretty
