import Mathlib.Data.List.Infix
import RubyPretty.Proofs.Layout.Pieces
import RubyPretty.Proofs.Printing.Yields
import RubyPretty.Proofs.Syntax.Schema
import RubyPretty.Rules.Strings
/-!
# Other quotes, the same characters

Where a string is given other quotes, all of it is plain text. None of its parts holds an escape or
a mark of interpolation, and the new quote stands in none of them. What is written is the new quote
around the parts in a row, and between single quotes that stands for these characters. The parts are
looked at one by one, so a mark of which one part holds the hash sign and the next one the rest is
not found (`splitsMark`). Between double quotes such a string is another one.
-/

namespace RubyPretty

namespace Text

theorem occursIn_iff {part cs : List Char} : occursIn part cs = true ↔ part <:+: cs := by
  induction cs with
  | nil => rw [occursIn, List.isEmpty_iff, List.infix_nil]
  | cons c cs ih =>
      rw [occursIn, Bool.or_eq_true, List.isPrefixOf_iff_prefix, ih, List.infix_cons_iff]

theorem contains_iff {part s : String} : contains part s = true ↔ part.toList <:+: s.toList :=
  occursIn_iff

end Text

def Quote.char : Quote → Char
  | .single => '\x27'
  | .double => '"'

theorem Quote.toList_text (quote : Quote) : quote.text.toList = [quote.char] := by
  cases quote <;> rfl

namespace Shape

/-! ## Reading a literal -/

/-- What starts an interpolation behind a hash sign. -/
def sigils : List Char := ['\x7b', '@', '$']

def startsMark (c : Char) (cs : List Char) : Bool := c == '#' && cs.head?.any sigils.contains

/-- The characters that a string in single quotes stands for. What is read starts behind the opening
quote and ends with the closing one. A backslash protects a quote or another backslash. -/
def readSingle (quote : Char) : List Char → Option (List Char)
  | [] => none
  | c :: cs =>
      if c = quote then if cs.isEmpty then some [] else none
      else if c = '\\' && cs.head?.any ['\\', quote].contains then
        match cs with
        | d :: rest => (readSingle quote rest).map (d :: ·)
        | [] => none
      else (readSingle quote cs).map (c :: ·)

/-- The characters that a string in double quotes stands for, unless it holds an escape or an
interpolation. -/
def readDouble (quote : Char) : List Char → Option (List Char)
  | [] => none
  | c :: cs =>
      if c = quote then if cs.isEmpty then some [] else none
      else if c = '\\' || startsMark c cs then none
      else (readDouble quote cs).map (c :: ·)

/-- The characters that a string between quotes of a kind stands for, whatever its quote is. -/
def readAs : Quote → Char → List Char → Option (List Char)
  | .single => readSingle
  | .double => readDouble

def hasMark : List Char → Bool
  | [] => false
  | c :: cs => startsMark c cs || hasMark cs

theorem readSingle_closed {quote : Char} {cs : List Char} (hquote : quote ∉ cs)
    (hescape : '\\' ∉ cs) : readSingle quote (cs ++ [quote]) = some cs := by
  induction cs with
  | nil => simp [readSingle]
  | cons c cs ih =>
      rw [List.mem_cons, not_or] at hquote hescape
      have hread := ih hquote.2 hescape.2
      rw [List.cons_append]
      unfold readSingle
      simp [Ne.symm hquote.1, Ne.symm hescape.1, hread]

theorem readDouble_closed {quote : Char} {cs : List Char} (hquote : quote ∉ cs)
    (hescape : '\\' ∉ cs) (hsigil : quote ∉ sigils) :
    readDouble quote (cs ++ [quote]) = if hasMark cs then none else some cs := by
  induction cs with
  | nil => simp [readDouble, hasMark]
  | cons c cs ih =>
      rw [List.mem_cons, not_or] at hquote hescape
      have hread := ih hquote.2 hescape.2
      have hstarts : startsMark c (cs ++ [quote]) = startsMark c cs := by
        cases cs with
        | nil => simp [startsMark, hsigil]
        | cons d cs => rfl
      have hc : decide (c = '\\') = false := by simp [Ne.symm hescape.1]
      rw [List.cons_append, readDouble, if_neg (Ne.symm hquote.1), hstarts, hread, hasMark, hc]
      cases startsMark c cs <;> cases hasMark cs <;> rfl

/-! ## Marks in a row of texts -/

theorem hasMark_append (as bs : List Char) :
    hasMark (as ++ bs) =
      (hasMark as || (as.getLast? == some '#' && bs.head?.any sigils.contains) || hasMark bs) := by
  induction as with
  | nil => simp [hasMark]
  | cons a as ih =>
      rw [List.cons_append, hasMark, hasMark, ih]
      cases as with
      | nil => simp [startsMark, hasMark]
      | cons b as =>
          simp only [List.getLast?_cons_cons, Bool.or_assoc]
          rfl

def interpolationMarks : List String := ["#\x7b", "#@", "#$"]

theorem hasMark_iff {cs : List Char} : hasMark cs = true ↔ ∃ c ∈ sigils, ['#', c] <:+: cs := by
  induction cs with
  | nil => simp [hasMark]
  | cons d ds ih =>
      have hhere : startsMark d ds = true ↔ ∃ c ∈ sigils, ['#', c] <+: d :: ds := by
        cases ds with
        | nil => simp [startsMark, List.prefix_cons_iff]
        | cons e ds =>
            simp only [startsMark, List.head?_cons, Option.any_some, Bool.and_eq_true, beq_iff_eq,
              List.contains_iff_mem, List.cons_prefix_cons, List.nil_prefix, and_true]
            constructor
            · rintro ⟨rfl, he⟩
              exact ⟨e, he, rfl, rfl⟩
            · rintro ⟨_, hc, rfl, rfl⟩
              exact ⟨rfl, hc⟩
      rw [hasMark, Bool.or_eq_true, ih, hhere]
      simp only [List.infix_cons_iff, and_or_left, exists_or]

theorem any_contains_eq_hasMark (s : String) :
    interpolationMarks.any (Text.contains · s) = hasMark s.toList := by
  rw [Bool.eq_iff_iff, hasMark_iff]
  simp [interpolationMarks, sigils, Text.contains_iff]

/-- Whether one of the texts ends in the hash sign of a mark that goes on behind it. -/
def splitsMark : List String → Bool
  | [] => false
  | s :: texts =>
      (s.toList.getLast? == some '#' && (String.join texts).toList.head?.any sigils.contains) ||
        splitsMark texts

/-- Where no text holds a mark, their row holds one only across a boundary. -/
theorem hasMark_join {texts : List String} (h : ∀ s ∈ texts, hasMark s.toList = false) :
    hasMark (String.join texts).toList = splitsMark texts := by
  induction texts with
  | nil => rfl
  | cons s texts ih =>
      obtain ⟨hs, htexts⟩ := List.forall_mem_cons.mp h
      rw [String.toList_join, List.flatMap_cons, hasMark_append, hs, Bool.false_or, splitsMark,
        ← ih htexts, String.toList_join]

theorem hasEscapes_eq_false {s : String} :
    hasEscapes s = false ↔ '\\' ∉ s.toList ∧ hasMark s.toList = false := by
  have hsplit : hasEscapes s =
      (Text.contains "\\" s || interpolationMarks.any (Text.contains · s)) := rfl
  rw [hsplit, Bool.or_eq_false_iff, any_contains_eq_hasMark, ← Bool.not_eq_true, Text.contains_iff]
  show ¬['\\'] <:+: s.toList ∧ _ ↔ _
  rw [List.singleton_infix_iff]

/-! ## The parts -/

theorem isLockedPart_of_anyM {parts : List Value} (h : isQuoteLocked parts = .ok false) :
    ∀ part ∈ parts, isLockedPart part = .ok false := by
  induction parts with
  | nil => exact List.forall_mem_nil _
  | cons part parts ih =>
      rw [isQuoteLocked, List.anyM, Except.bind_eq_ok] at h
      obtain ⟨locked, hlocked, h⟩ := h
      cases locked with
      | true => cases h
      | false => exact List.forall_mem_cons.mpr ⟨hlocked, ih h⟩

theorem token_eq_ok {n : Tree} {s : String} : n.token = .ok s ↔ n.text? = some s := by
  unfold Node.token
  cases n.text? <;> simp

theorem carried_of_text? {n : Tree} {s : String} (h : n.text? = some s) :
    n.carried = .ok (.text s) := by
  unfold Node.text? at h
  split at h
  · next htoken =>
      split at h
      · next t vs hbody =>
          rw [Node.carried, if_pos htoken, Node.child, hbody, ← Option.some.inj h]
          rfl
      · cases h
  · cases h

theorem plainText?_of_unlocked {part : Value} {s : String} (h : isLockedPart part = .ok false)
    (hs : (part.asNode >>= Node.token) = .ok s) :
    part.plainText? = some s ∧ hasEscapes s = false := by
  obtain ⟨n, hn, htoken⟩ := Except.bind_eq_ok.mp hs
  obtain rfl := Value.asNode_eq_ok.mp hn
  have htext := token_eq_ok.mp htoken
  unfold isLockedPart at h
  split at h
  · next hplain =>
      have htag : n.tag = "@tstring_content" := by
        simpa [isPlainPart, Value.tag?, Value.node?] using hplain
      have hescapes : (n.carried >>= holdsEscapes) = .ok false := h
      rw [carried_of_text? htext] at hescapes
      exact ⟨by simp [Value.plainText?, Value.node?, Node.plainText?, htag, htext],
        Except.ok.inj hescapes⟩
  · cases h

theorem plain_of_unlocked {parts : List Value} {texts : List String}
    (h : ∀ part ∈ parts, isLockedPart part = .ok false)
    (htexts : List.Forall₂ (fun part s => (part.asNode >>= Node.token) = .ok s) parts texts) :
    parts.map Value.plainText? = texts.map some ∧ ∀ s ∈ texts, hasEscapes s = false := by
  induction htexts with
  | nil => exact ⟨rfl, List.forall_mem_nil _⟩
  | cons hs _ ih =>
      obtain ⟨hpart, hparts⟩ := List.forall_mem_cons.mp h
      obtain ⟨hplain, hescapes⟩ := plainText?_of_unlocked hpart hs
      obtain ⟨hmap, hall⟩ := ih hparts
      exact ⟨by rw [List.map_cons, List.map_cons, hplain, hmap],
        List.forall_mem_cons.mpr ⟨hescapes, hall⟩⟩

/-- The quote changes only where the parts are plain, and hold neither escapes nor the new quote. -/
theorem of_preferredQuote_ne {source preferred q : String} {parts : List Value}
    (hparts : parts ≠ []) (h : preferredQuote source parts preferred = .ok q) (hq : q ≠ source) :
    q = preferred ∧ ∃ texts : List String, parts.map Value.plainText? = texts.map some ∧
      (∀ s ∈ texts, hasEscapes s = false) ∧
      Text.contains preferred (String.join texts) = false := by
  unfold preferredQuote at h
  rw [if_neg (by simpa using hparts)] at h
  obtain ⟨locked, hlocked, h⟩ := Except.bind_eq_ok.mp h
  cases locked with
  | true => exact absurd (Except.ok.inj h).symm hq
  | false =>
      obtain ⟨content, hcontent, h⟩ := Except.bind_eq_ok.mp h
      obtain ⟨texts, htexts, hjoin⟩ := Except.bind_eq_ok.mp hcontent
      obtain rfl := Except.ok.inj hjoin
      have hchosen := Except.ok.inj h
      split at hchosen
      · exact absurd hchosen.symm hq
      · next hkeeps =>
          obtain ⟨hplain, hescapes⟩ :=
            plain_of_unlocked (isLockedPart_of_anyM hlocked) (Except.mapM_eq_ok htexts)
          rw [keepsQuote, Bool.or_eq_true, not_or, Bool.not_eq_true] at hkeeps
          exact ⟨hchosen.symm, texts, hplain, hescapes, hkeeps.1⟩

/-! ## The literal that is written -/

theorem stringPart_plain (pr : Printer) (p : Place) {part : Value} {s : String}
    (h : part.plainText? = some s) : Rules.stringPart pr p part = pure (.verbatim s) := by
  obtain ⟨n, hn, hplain⟩ := Option.bind_eq_some_iff.mp h
  obtain rfl : part = .node n := by
    cases part <;> cases hn
    rfl
  unfold Node.plainText? at hplain
  split at hplain
  · next htag =>
      unfold Rules.stringPart
      show (if n.tag = "@tstring_content" then _ else _) = _
      rw [if_pos htag, token_eq_ok.mpr hplain]
      rfl
  · cases hplain

theorem stringParts_plain (pr : Printer) (p : Place) {parts : List Value} {texts : List String}
    (h : parts.map Value.plainText? = texts.map some) :
    Rules.stringParts pr p parts = pure (texts.map .verbatim) := by
  unfold Rules.stringParts
  induction parts generalizing texts with
  | nil =>
      obtain rfl : texts = [] := List.map_eq_nil_iff.mp h.symm
      rfl
  | cons part parts ih =>
      cases texts with
      | nil => cases h
      | cons s texts =>
          obtain ⟨hs, htexts⟩ := List.cons.inj h
          rw [List.mapM_cons, stringPart_plain pr p hs, ih htexts]
          rfl

/-- Plain parts between quotes are written in a row, with the quotes around them. -/
theorem spells_quoted (quote : Quote) (texts : List String) :
    (Rules.quoted quote.text (texts.map .verbatim)).Spells
      (quote.text ++ String.join texts ++ quote.text) := by
  have hclosing : closingQuote quote.text = quote.text := by cases quote <;> decide
  have hjoin : quote.text ++ String.join texts ++ quote.text =
      String.join (quote.text :: texts ++ [quote.text]) := by
    simp [← String.toList_inj, String.toList_join]
  rw [hjoin, Rules.quoted, hclosing]
  refine Doc.spells_cat (.cons (Doc.spells_ofString _) ?_)
  refine List.rel_append ?_ (.cons (Doc.spells_ofString _) .nil)
  exact List.forall₂_map_left_iff.mpr (List.forall₂_same.mpr fun s _ => Doc.spells_verbatim s)

theorem stringLiteral_plain (pr : Printer) (p : Place) {source q : String} {v : Value}
    {parts : List Value} {texts : List String} (hbody : p.node.body = [.text source, v])
    (helements : v.asElements = .ok parts) (hparts : parts ≠ [])
    (hq : preferredQuote source parts pr.options.quote.text = .ok q)
    (h : parts.map Value.plainText? = texts.map some) :
    Rules.stringLiteral pr p = pure (Rules.quoted q (texts.map .verbatim)) := by
  have hdocs := stringParts_plain pr p h
  unfold Rules.stringLiteral
  simp only [hbody, helements, Value.asText, PrintM.lift_ok_bind]
  rw [hdocs, pure_bind, hq]
  rfl

/-- Where a string changes its quotes, it is plain text without the new quote and without escapes,
and no part of it holds a mark of interpolation. What is written is the new quote around the text,
and it stands for the text between quotes of either kind. Only a mark that is split between two
parts makes a difference. -/
theorem quote_change_keeps_text (preferred : Quote) (source q : String) (parts : List Value)
    (hparts : parts ≠ []) (h : preferredQuote source parts preferred.text = .ok q)
    (hchange : q ≠ source) :
    q = preferred.text ∧ ∃ texts : List String, parts.map Value.plainText? = texts.map some ∧
      (∀ s ∈ texts, hasEscapes s = false) ∧ '\\' ∉ (String.join texts).toList ∧
      preferred.char ∉ (String.join texts).toList ∧
      interpolationMarks.any (Text.contains · (String.join texts)) = splitsMark texts ∧
      (∀ (pr : Printer) (p : Place) (v : Value), pr.options.quote = preferred →
        p.node.body = [.text source, v] → v.asElements = .ok parts →
        ∃ d, Rules.stringLiteral pr p = pure d ∧
          ∀ page, Layout.render page d = q ++ String.join texts ++ q) ∧
      ∀ kind, readAs kind preferred.char ((String.join texts).toList ++ [preferred.char]) =
        if kind = .double ∧ splitsMark texts = true then none
        else some (String.join texts).toList := by
  obtain ⟨rfl, texts, hplain, hescapes, hquote⟩ := of_preferredQuote_ne hparts h hchange
  have hquote : preferred.char ∉ (String.join texts).toList := by
    rw [← Bool.not_eq_true, Text.contains_iff, preferred.toList_text] at hquote
    rwa [← List.singleton_infix_iff]
  have hescape : '\\' ∉ (String.join texts).toList := by
    rw [String.toList_join]
    intro hmem
    obtain ⟨s, hs, hmem⟩ := List.mem_flatMap.mp hmem
    exact (hasEscapes_eq_false.mp (hescapes s hs)).1 hmem
  have hmark : hasMark (String.join texts).toList = splitsMark texts :=
    hasMark_join fun s hs => (hasEscapes_eq_false.mp (hescapes s hs)).2
  have hsigil : preferred.char ∉ sigils := by cases preferred <;> decide
  refine ⟨rfl, texts, hplain, hescapes, hescape, hquote, ?_, ?_, ?_⟩
  · rw [any_contains_eq_hasMark, hmark]
  · rintro pr p v rfl hbody helements
    exact ⟨_, stringLiteral_plain pr p hbody helements hparts h hplain,
      fun page => Layout.render_of_spells page (spells_quoted _ texts)⟩
  · intro kind
    cases kind with
    | single =>
        rw [readAs, readSingle_closed hquote hescape]
        rfl
    | double =>
        rw [readAs, readDouble_closed hquote hescape hsigil, hmark]
        cases splitsMark texts <;> rfl

def sampleParts (texts : List String) : List Value :=
  texts.map fun s => .node (.stringPart s)

/-- The theorem at a string of two lines, the second of which ends in a hash sign. -/
theorem quote_change_keeps_text_sample :
    preferredQuote "'" (sampleParts ["a \n", "b#"]) "\"" = .ok "\"" ∧
    readAs .double '"' "a \nb#\"".toList = some "a \nb#".toList := by
  have hfires : preferredQuote "'" (sampleParts ["a \n", "b#"]) "\"" = .ok "\"" := rfl
  obtain ⟨-, texts, hplain, -, -, -, -, -, hread⟩ :=
    quote_change_keeps_text .double "'" "\"" (sampleParts ["a \n", "b#"]) (by simp [sampleParts])
      hfires (by decide)
  obtain rfl : texts = ["a \n", "b#"] :=
    List.map_injective_iff.mpr (fun _ _ => Option.some.inj) hplain.symm
  exact ⟨hfires, (hread .double).trans (by decide)⟩

/-- A mark that is split between two parts is not seen, and double quotes bring it to life. -/
theorem quote_change_joins_mark :
    preferredQuote "'" (sampleParts ["#", "\x7bx\x7d"]) "\"" = .ok "\"" ∧
    readAs .single '\x27' ("#\x7bx\x7d'").toList = some "#\x7bx\x7d".toList ∧
    readAs .double '"' ("#\x7bx\x7d\"").toList = none :=
  ⟨rfl, by decide, by decide⟩

end Shape

end RubyPretty
