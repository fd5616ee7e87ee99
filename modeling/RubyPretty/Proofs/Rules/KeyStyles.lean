import RubyPretty.Proofs.Rules.Default
import RubyPretty.Proofs.Shape.Quotes
/-!
# One style for the keys of a hash

The style of the keys is chosen once for a whole list of pairs: labels if every key can be one, and
rockets otherwise. As a label an uncommented symbol is written as its name with a colon behind it. A
quoted symbol can be a label if it is a bare word, but the test lets a line feed through behind the
word (`isBareWord_iff`). Character literals and the marker that ends the code are the only tokens
that are not written as they stand, so nothing is said of a symbol made of one of them.
-/

namespace RubyPretty

open Doc

namespace Shape

/-! ## Words -/

/-- A letter or an underscore, then letters, digits and underscores, then one mark or none. -/
def BareWord (w : String) : Prop :=
  ∃ (c : Char) (cs mark : List Char), w.toList = c :: cs ++ mark ∧ Text.isWordStart c = true ∧
    (∀ d ∈ cs, Text.isWordChar d = true) ∧ mark ∈ [[], ['?'], ['!']]

theorem BareWord.not_mem_line_feed {w : String} (h : BareWord w) : '\n' ∉ w.toList := by
  obtain ⟨c, cs, mark, hw, hc, hcs, hmark⟩ := h
  have hmarks : ∀ mark ∈ [[], ['?'], ['!']], '\n' ∉ mark := by decide
  rw [hw, List.mem_append, List.mem_cons]
  rintro ((rfl | hmem) | hmem)
  · exact absurd hc (by decide)
  · exact absurd (hcs _ hmem) (by decide)
  · exact hmarks mark hmark hmem

theorem isWordEnd_iff {cs : List Char} :
    isWordEnd cs = true ↔ ∃ mark ∈ [[], ['?'], ['!']], cs = mark ∨ cs = mark ++ ['\n'] := by
  rw [isWordEnd, List.contains_iff_mem]
  simp only [List.mem_cons, List.not_mem_nil, or_false, exists_eq_or_imp, exists_eq_left,
    List.nil_append, List.cons_append]
  tauto

theorem dropWhile_isWordChar {cs rest : List Char} (hcs : ∀ d ∈ cs, Text.isWordChar d = true)
    (hrest : isWordEnd rest = true) : (cs ++ rest).dropWhile Text.isWordChar = rest := by
  rw [List.dropWhile_append_of_pos hcs]
  obtain ⟨mark, hmark, h⟩ := isWordEnd_iff.mp hrest
  have hall : ∀ mark ∈ [[], ['?'], ['!']], mark.dropWhile Text.isWordChar = mark ∧
      (mark ++ ['\n']).dropWhile Text.isWordChar = mark ++ ['\n'] := by decide
  rcases h with rfl | rfl
  · exact (hall _ hmark).1
  · exact (hall _ hmark).2

theorem isBareWord_of_toList {s : String} {c : Char} {cs rest : List Char}
    (hs : s.toList = c :: cs ++ rest) (hc : Text.isWordStart c = true)
    (hcs : ∀ d ∈ cs, Text.isWordChar d = true) (hrest : isWordEnd rest = true) :
    isBareWord s = true := by
  rw [isBareWord, hs]
  show (Text.isWordStart c && isWordEnd ((cs ++ rest).dropWhile Text.isWordChar)) = true
  rw [dropWhile_isWordChar hcs hrest, hc, hrest]
  rfl

theorem isBareWord_iff {s : String} :
    isBareWord s = true ↔ BareWord s ∨ ∃ w, BareWord w ∧ s = w ++ "\n" := by
  constructor
  · intro h
    unfold isBareWord at h
    split at h
    · cases h
    · next c cs hs =>
        rw [Bool.and_eq_true] at h
        have hword : ∀ d ∈ cs.takeWhile Text.isWordChar, Text.isWordChar d = true :=
          List.all_eq_true.mp List.all_takeWhile
        obtain ⟨mark, hmark, hend⟩ := isWordEnd_iff.mp h.2
        have hsplit := List.takeWhile_append_dropWhile (p := Text.isWordChar) (l := cs)
        rcases hend with hend | hend
        · rw [hend] at hsplit
          exact .inl ⟨c, _, mark, by rw [hs, List.cons_append, hsplit], h.1, hword, hmark⟩
        · rw [hend] at hsplit
          refine .inr ⟨String.ofList (c :: cs.takeWhile Text.isWordChar ++ mark),
            ⟨c, _, mark, String.toList_ofList, h.1, hword, hmark⟩, ?_⟩
          rw [← String.toList_inj, hs, String.toList_append, String.toList_ofList,
            List.append_assoc, List.cons_append]
          exact congrArg (c :: ·) hsplit.symm
  · rintro (⟨c, cs, mark, hs, hc, hcs, hmark⟩ | ⟨w, ⟨c, cs, mark, hw, hc, hcs, hmark⟩, rfl⟩)
    · exact isBareWord_of_toList hs hc hcs (isWordEnd_iff.mpr ⟨mark, hmark, .inl rfl⟩)
    · have hs : (w ++ "\n").toList = c :: cs ++ (mark ++ ['\n']) := by
        rw [String.toList_append, hw, List.append_assoc]
        rfl
      exact isBareWord_of_toList hs hc hcs (isWordEnd_iff.mpr ⟨mark, hmark, .inr rfl⟩)

/-! ## Keys that can be labels -/

/-- The content of a quoted symbol without interpolation. -/
def PlainContent (key : Tree) (name : String) : Prop :=
  ∃ (source content : Value) (parts : List Value) (texts : List String),
    key.body = [source, content] ∧ content.asElements = .ok parts ∧
    parts.map Value.plainText? = texts.map some ∧ name = String.join texts

/-- A key that can be a label: it is one, or a symbol that starts like a word and does not end in an
equals sign, or a quoted symbol that is a bare word, which a line feed may follow. -/
def CanBeLabel (key : Tree) : Prop :=
  key.tag = "@label" ∨
    (key.tag = "symbol_literal" ∧ ∃ (token : Tree) (name : String),
      key.body[0]? = some (.node token) ∧ token.text? = some name ∧
      (∃ c ∈ name.toList.head?, Text.isWordStart c = true) ∧ name.toList.getLast? ≠ some '=') ∨
    (key.tag = "dyna_symbol" ∧ ∃ name, PlainContent key name ∧
      (BareWord name ∨ ∃ w, BareWord w ∧ name = w ++ "\n"))

theorem plainText?_eq_some {part : Value} {s : String} :
    part.plainText? = some s ↔
      isPlainPart part = true ∧ (part.asNode >>= Node.token) = .ok s := by
  cases part with
  | node n =>
      show n.plainText? = some s ↔ (some n.tag == some "@tstring_content") = true ∧ n.token = .ok s
      rw [token_eq_ok, Node.plainText?]
      split <;> simp_all
  | _ => exact iff_of_false (fun h => by cases h) (fun h => by cases h.1)

theorem plainContent_eq_ok {parts : List Value} {s : String} (hplain : isPlain parts = true)
    (h : plainContent parts = .ok s) :
    ∃ texts : List String, parts.map Value.plainText? = texts.map some ∧ s = String.join texts := by
  obtain ⟨texts, htexts, hjoin⟩ := Except.bind_eq_ok.mp h
  refine ⟨texts, ?_, (Except.ok.inj hjoin).symm⟩
  have hall := Except.mapM_eq_ok htexts
  clear h htexts hjoin
  induction hall with
  | nil => rfl
  | cons hs _ ih =>
      rw [isPlain, List.all_cons, Bool.and_eq_true] at hplain
      rw [List.map_cons, List.map_cons, ih hplain.2, plainText?_eq_some.mpr ⟨hplain.1, hs⟩]

theorem isPlain_of_plainText? {parts : List Value} {texts : List String}
    (h : parts.map Value.plainText? = texts.map some) : isPlain parts = true := by
  refine List.all_eq_true.mpr fun part hpart => ?_
  have hmem : part.plainText? ∈ texts.map some := h ▸ List.mem_map_of_mem hpart
  obtain ⟨s, -, hs⟩ := List.mem_map.mp hmem
  exact (plainText?_eq_some.mp hs.symm).1

theorem quotedSymbolText_eq_ok {key : Tree} {content? : Option String}
    (h : quotedSymbolText key = .ok content?) (name : String) :
    content? = some name ↔ PlainContent key name := by
  unfold quotedSymbolText at h
  split at h
  · next source content hbody =>
      obtain ⟨parts, hparts, h⟩ := Except.bind_eq_ok.mp h
      have hunique : PlainContent key name ↔
          ∃ texts : List String, parts.map Value.plainText? = texts.map some ∧
            name = String.join texts := by
        constructor
        · rintro ⟨_, _, _, texts, hbody', hparts', hplain, hname⟩
          rw [hbody] at hbody'
          cases hbody'
          rw [hparts] at hparts'
          cases hparts'
          exact ⟨texts, hplain, hname⟩
        · rintro ⟨texts, hplain, hname⟩
          exact ⟨source, content, parts, texts, hbody, hparts, hplain, hname⟩
      rw [hunique]
      split at h
      · next hplain =>
          obtain ⟨s, hs, h⟩ := Except.bind_eq_ok.mp h
          obtain rfl := Except.ok.inj h
          obtain ⟨texts, htexts, rfl⟩ := plainContent_eq_ok hplain hs
          constructor
          · intro hname
            exact ⟨texts, htexts, (Option.some.inj hname).symm⟩
          · rintro ⟨texts', htexts', rfl⟩
            rw [htexts] at htexts'
            rw [List.map_injective_iff.mpr (fun _ _ => Option.some.inj) htexts']
      · next hplain =>
          obtain rfl := Except.ok.inj h
          refine iff_of_false (fun h => by cases h) ?_
          rintro ⟨texts, htexts, -⟩
          exact hplain (isPlain_of_plainText? htexts)
  · cases h

theorem isLabelText_iff {s : String} :
    isLabelText s = true ↔ (∃ c ∈ s.toList.head?, Text.isWordStart c = true) ∧
      s.toList.getLast? ≠ some '=' := by
  have hends : Text.endsWith "=" s = true ↔ s.toList.getLast? = some '=' := by
    show ['='].isSuffixOf s.toList = true ↔ _
    rw [List.isSuffixOf_iff_suffix, List.getLast?_eq_some_iff]
    exact exists_congr fun cs => eq_comm
  rw [isLabelText, Bool.and_eq_true, Bool.not_eq_true', ← Bool.not_eq_true, hends,
    Option.any_eq_true]
  rfl

theorem canBeLabel_eq_ok {key : Tree} {b : Bool} (h : canBeLabel key = .ok b) :
    b = true ↔ CanBeLabel key := by
  unfold canBeLabel at h
  unfold CanBeLabel
  split at h
  · next htag =>
      cases h
      exact iff_of_true rfl (.inl htag)
  · next htag =>
      obtain ⟨token, htoken, h⟩ := Except.bind_eq_ok.mp h
      obtain ⟨name, hname, h⟩ := Except.bind_eq_ok.mp h
      obtain rfl := Except.ok.inj h
      have hfirst := Node.childNode_eq_ok.mp htoken
      have htext := token_eq_ok.mp hname
      simp [htag, hfirst, htext, isLabelText_iff]
  · next htag =>
      obtain ⟨content?, hcontent, h⟩ := Except.bind_eq_ok.mp h
      obtain rfl := Except.ok.inj h
      have hiff := quotedSymbolText_eq_ok hcontent
      simp [htag, Option.any_eq_true, isBareWord_iff, hiff]
  · next hlabel hsymbol hquoted =>
      cases h
      refine iff_of_false Bool.false_ne_true ?_
      rintro (h | ⟨h, -⟩ | ⟨h, -⟩)
      exacts [hlabel h, hsymbol h, hquoted h]

def KeyIn (pairs : List Value) (key : Tree) : Prop :=
  ∃ pair : Tree, .node pair ∈ pairs ∧ pair.tag = "assoc_new" ∧ pair.body[0]? = some (.node key)

theorem canUseLabels_eq_ok {pairs : List Value} {b : Bool}
    (hpairs : ∀ v ∈ pairs, v.tag? = some "assoc_new" ∨ v.tag? = some "assoc_splat")
    (h : canUseLabels pairs = .ok b) : b = true ↔ ∀ key, KeyIn pairs key → CanBeLabel key := by
  have hiff : b = true ↔ ∀ v ∈ pairs, ∀ key, KeyIn [v] key → CanBeLabel key := by
    refine Except.allM_eq_ok_iff (fun v hv found hfound => ?_) h
    obtain ⟨pair, hpair, hb⟩ := Except.bind_eq_ok.mp hfound
    obtain rfl := Value.asNode_eq_ok.mp hpair
    split at hb
    · next hsplat =>
        cases hb
        refine iff_of_true rfl ?_
        rintro key ⟨other, hother, htag, -⟩
        obtain rfl : other = pair := by simpa using hother
        rw [hsplat] at htag
        exact absurd htag (by decide)
    · next hnew =>
        have htag : pair.tag = "assoc_new" := by
          rcases hpairs _ hv with htag | htag
          · exact Option.some.inj htag
          · exact absurd (Option.some.inj htag) hnew
        obtain ⟨key, hkey, hlabel⟩ := Except.bind_eq_ok.mp hb
        have hfirst := Node.childNode_eq_ok.mp hkey
        rw [canBeLabel_eq_ok hlabel]
        constructor
        · rintro hlabel _ ⟨other, hother, -, hother'⟩
          obtain rfl : other = pair := by simpa using hother
          rw [hfirst] at hother'
          cases hother'
          exact hlabel
        · exact fun hall => hall key ⟨pair, List.mem_singleton_self _, htag, hfirst⟩
  rw [hiff]
  constructor
  · rintro hall key ⟨pair, hpair, hkey⟩
    exact hall _ hpair key ⟨pair, List.mem_singleton_self _, hkey⟩
  · rintro hall v hv key ⟨pair, hpair, hkey⟩
    obtain rfl := List.mem_singleton.mp hpair
    exact hall key ⟨pair, hv, hkey⟩

end Shape

namespace Rules

open Shape

variable {o : Options} {formatter : Option Formatter} {depth : Nat}

/-! ## Tokens -/

def respelledTags : List String := ["@CHAR", "@__end__"]

theorem rule_of_token {tag : String} {e : Entry} (he : Registry.default.find? tag = some e)
    (htoken : isTokenTag tag = true) (htag : tag ∉ respelledTags) :
    Registry.default.ownComments tag = false ∧
      (e.rule = .ofDoc token ∨ e.rule = .ofDoc stringContent ∨
        tag = "@int" ∧ e.rule = .ofDoc integer) := by
  obtain ⟨x, hx, hmem, rfl⟩ := Registry.mem_all_of_find? he
  rw [Registry.ownComments_of_mem hx hmem]
  have hothers : ∀ x ∈ literals ++ (statements ++ (expressions ++ (collections ++ (calls ++
      (definitions ++ (branches ++ flow)))))), ∀ tag ∈ x.tags, isTokenTag tag = false := by decide
  simp only [all, List.append_assoc] at hx
  rcases List.mem_append.mp hx with hx | hx
  · simp only [tokens, List.mem_cons, List.not_mem_nil, or_false] at hx
    rcases hx with rfl | rfl | rfl | rfl | rfl
    · exact ⟨rfl, .inl rfl⟩
    · exact ⟨rfl, .inr (.inr ⟨List.mem_singleton.mp hmem, rfl⟩)⟩
    · exact ⟨rfl, .inr (.inl rfl)⟩
    · exact absurd (List.mem_singleton.mp hmem ▸ by decide) htag
    · exact absurd (List.mem_singleton.mp hmem ▸ by decide) htag
  · rw [hothers x hx tag hmem] at htoken
    cases htoken

theorem isDigit_of_isWordStart {c : Char} (h : Text.isWordStart c = true) :
    Text.isDigit c = false := by
  have hbounds : 0x3a ≤ c.toNat ∧ c.toNat ≤ 0xb1 := by
    simp only [Text.isWordStart, Text.isAsciiLetter, Bool.or_eq_true, Bool.and_eq_true, beq_iff_eq,
      decide_eq_true_eq, Char.le_def, UInt32.le_iff_toNat_le] at h
    rcases h with rfl | h | h
    · decide
    · change 97 ≤ c.toNat ∧ c.toNat ≤ 122 at h
      omega
    · change 65 ≤ c.toNat ∧ c.toNat ≤ 90 at h
      omega
  have hranges : ∀ r ∈ Text.digitRanges, r.2 < 0x3a ∨ 0xb1 < r.1 := by decide
  refine List.any_eq_false.mpr fun r hr => ?_
  have := hranges r hr
  simp only [Bool.and_eq_true, decide_eq_true_eq]
  omega

/-- A text that starts like a word is no number, and stays as it is. -/
theorem canonicalInt_of_isWordStart {s : String}
    (h : ∃ c ∈ s.toList.head?, Text.isWordStart c = true) : canonicalInt s = s := by
  obtain ⟨c, hc, hstart⟩ := h
  obtain ⟨cs, hs⟩ := List.head?_eq_some_iff.mp hc
  have hdigits : canonicalDigits (c :: cs) = c :: cs := by
    unfold canonicalDigits
    split
    · next heq =>
        cases heq
        cases hstart
    · rfl
    · rw [if_neg]
      rintro ⟨-, hall⟩
      rw [List.all_cons, isDigit_of_isWordStart hstart] at hall
      cases hall
  have hchars : canonicalChars (c :: cs) = c :: cs := by
    unfold canonicalChars
    split
    · next heq =>
        cases heq
        cases hstart
    · next heq =>
        cases heq
        cases hstart
    · exact hdigits
  rw [canonicalInt, hs, hchars, ← hs, String.ofList_toList]

/-- The document has the text of a token. A number is meant that is written as it stands. -/
def SpellsToken (n : Tree) (d : Doc) : Prop :=
  ∃ s, n.text? = some s ∧ ((n.tag = "@int" → canonicalInt s = s) → d.Spells s)

theorem yields_token_rule {rule : Rule} {pr : Printer} {p : Place}
    (hrule : rule = .ofDoc token ∨ rule = .ofDoc stringContent ∨
      p.node.tag = "@int" ∧ rule = .ofDoc integer) :
    Yields (rule pr p) fun printed => SpellsToken p.node printed.doc := by
  rcases hrule with rfl | rfl | ⟨htag, rfl⟩
  · refine .bind (.liftBind fun s hs => .pure ?_) fun d hd => .pure hd
    exact ⟨s, token_eq_ok.mp hs, fun _ => spells_ofString s⟩
  · refine .bind (.liftBind fun s hs => .pure ?_) fun d hd => .pure hd
    exact ⟨s, token_eq_ok.mp hs, fun _ => spells_verbatim s⟩
  · refine .bind (.liftBind fun s hs => .pure ?_) fun d hd => .pure hd
    refine ⟨s, token_eq_ok.mp hs, fun hint => ?_⟩
    rw [hint htag]
    exact spells_ofString s

theorem yields_print_token (p : Place) {n : Tree} (htoken : n.isToken = true)
    (htag : n.tag ∉ respelledTags) :
    Yields ((Registry.default.printer o formatter depth).print p (.node n)) fun d =>
      ∃ base, SpellsToken n base ∧ Comments.splice base n.comments n.endLine? = .ok d := by
  refine .bind (Registry.yields_visit_spliced (p := p.below n) fun e he => ?_) fun printed h =>
    .pure h
  obtain ⟨hown, hrule⟩ := rule_of_token he htoken htag
  exact ⟨hown, fun depth => yields_token_rule hrule⟩

/-! ## Keys -/

/-- The name of a symbol that has no comments in it. -/
def SymbolName (key : Tree) (name : String) : Prop :=
  (key.tag = "symbol_literal" ∧ ∃ token : Tree, key.body[0]? = some (.node token) ∧
      token.comments = [] ∧ token.tag ∉ respelledTags ∧ token.text? = some name) ∨
    (key.tag = "dyna_symbol" ∧ PlainContent key name)

/-- How a key is written: with a rocket behind it, or as a label. A label that was no label before
is a name and a colon. -/
inductive KeyDoc (key : Tree) : Bool → Doc → Prop where
  | rocket (ds : List Doc) : KeyDoc key false (.cat (ds ++ ([" =>"] : List Doc)))
  | label {base d : Doc} (htag : key.tag = "@label") (hbase : SpellsToken key base)
      (hd : Comments.splice base key.comments key.endLine? = .ok d) : KeyDoc key true d
  | symbol {named d : Doc} (htag : key.tag ≠ "@label")
      (hname : ∀ name, SymbolName key name → named.Spells name)
      (hd : Comments.splice (.cat [named, ":"]) key.comments none = .ok d) : KeyDoc key true d

theorem keyDoc_rocketKey (pr : Printer) (p : Place) (key : Tree) :
    Yields (rocketKey pr p key) (KeyDoc key false) := by
  unfold rocketKey
  split
  · exact .liftBind fun text _ => .pure (.rocket [":", _])
  · refine .liftBind fun v _ => .liftBind fun source _ => ?_
    split
    · exact .anyBind fun d => .pure (.rocket [d])
    · exact .anyBind fun d => .pure (.rocket [":", d])
  · exact .anyBind fun d => .pure (.rocket [d])

/-- The token of a symbol that can be a label is printed as the name of the symbol. -/
theorem yields_symbolToken (p : Place) {key : Tree} (htag : key.tag = "symbol_literal")
    (hlabel : CanBeLabel key) :
    Yields ((Registry.default.printer o formatter depth).printChild (p.below key) 0) fun named =>
      ∀ name, SymbolName key name → named.Spells name := by
  by_cases hnamed : ∃ name, SymbolName key name
  · obtain ⟨name, hname⟩ := hnamed
    have hnot : key.tag ≠ "dyna_symbol" := by rw [htag]; decide
    obtain ⟨-, token, hfirst, hbare, hspelled, htext⟩ := hname.resolve_right fun h => hnot h.1
    have hstart : ∃ c ∈ name.toList.head?, Text.isWordStart c = true := by
      have hne : key.tag ≠ "@label" := by rw [htag]; decide
      obtain ⟨-, token', name', hfirst', htext', hstart, -⟩ :=
        (hlabel.resolve_left hne).resolve_right fun h => hnot h.1
      rw [hfirst] at hfirst'
      cases hfirst'
      rw [htext] at htext'
      cases htext'
      exact hstart
    have htoken : token.isToken = true := by
      by_contra hnot
      rw [Node.text?, if_neg hnot] at htext
      cases htext
    refine .liftBind fun v hv => ?_
    obtain rfl := Option.some.inj ((Node.child_eq_ok.mp hv).symm.trans hfirst)
    refine (yields_print_token _ htoken hspelled).mono ?_
    rintro named ⟨base, ⟨s, hs, hbase⟩, hspliced⟩ other hother
    obtain ⟨-, _, hfirst', -, -, htext'⟩ := hother.resolve_right fun h => hnot h.1
    rw [hfirst] at hfirst'
    cases hfirst'
    rw [hs] at htext htext'
    cases htext
    cases htext'
    rw [hbare] at hspliced
    obtain rfl := Except.ok.inj hspliced
    exact hbase fun _ => canonicalInt_of_isWordStart hstart
  · exact fun _ _ _ _ name hname => absurd ⟨name, hname⟩ hnamed

theorem keyDoc_labelKey (p : Place) {key : Tree} (hlabel : CanBeLabel key) :
    Yields (labelKey (Registry.default.printer o formatter depth) p key) fun d =>
      (key.tag = "@label" → KeyDoc key true d) ∧
      (key.tag ≠ "@label" → ∃ named : Doc, d = .cat [named, ":"] ∧
        ∀ name, SymbolName key name → named.Spells name) := by
  unfold labelKey
  split
  · next htag =>
      refine (yields_print_token p (by rw [Node.isToken, htag]; decide)
        (by rw [htag]; decide)).mono fun d hd => ?_
      obtain ⟨base, hbase, hd⟩ := hd
      exact ⟨fun _ => .label htag hbase hd, fun hne => absurd htag hne⟩
  · next htag =>
      refine .bind (yields_symbolToken p htag hlabel) fun named hnamed => .pure ?_
      exact ⟨fun h => by rw [htag] at h; exact absurd h (by decide), fun _ => ⟨named, rfl, hnamed⟩⟩
  · next htag =>
      refine .liftBind fun content? hcontent => ?_
      split
      · next content =>
          have hne : key.tag ≠ "@label" := by rw [htag]; decide
          refine .pure ⟨fun h => absurd h hne, fun _ => ⟨_, rfl, fun name hname => ?_⟩⟩
          have hsymbol : key.tag ≠ "symbol_literal" := by rw [htag]; decide
          obtain ⟨-, hplain⟩ := hname.resolve_left fun h => hsymbol h.1
          obtain rfl := Option.some.inj ((quotedSymbolText_eq_ok hcontent name).mpr hplain)
          exact spells_ofString content
      · exact .throw _
  · exact .throw _

theorem keyDoc_pairKey (p : Place) {labels : Bool} {key : Tree}
    (hlabel : labels = true → CanBeLabel key) :
    Yields (pairKey (Registry.default.printer o formatter depth) p labels key)
      (KeyDoc key labels) := by
  unfold pairKey
  cases labels with
  | false => exact keyDoc_rocketKey _ p key
  | true =>
      refine .bind (keyDoc_labelKey p (hlabel rfl)) fun d hd => ?_
      split
      · next htag => exact .pure (hd.1 htag)
      · next htag =>
          obtain ⟨named, rfl, hnamed⟩ := hd.2 htag
          exact .lift fun d hd => .symbol htag hnamed hd

theorem KeyDoc.spells {key : Tree} {d : Doc} {name : String} (h : KeyDoc key true d)
    (hbare : key.comments = []) (hname : SymbolName key name) : d.Spells (name ++ ":") := by
  cases h with
  | label htag hbase hd =>
      rcases hname with ⟨hother, -⟩ | ⟨hother, -⟩ <;>
      · rw [htag] at hother
        exact absurd hother (by decide)
  | symbol htag hnamed hd =>
      rw [hbare] at hd
      obtain rfl := Except.ok.inj hd
      have hjoin : name ++ ":" = String.join [name, ":"] := by simp
      rw [hjoin]
      exact spells_cat (.cons (hnamed name hname) (.cons (spells_ofString ":") .nil))

/-! ## Pairs -/

/-- The value follows the key on its line, or below it where the line is too long. -/
def PairLayout (key value d : Doc) : Prop :=
  d = .cat [key, " ", value] ∨ d = .grouped [key, " ", value] ∨
    d = .grouped [key, .indented [.line, value]]

/-- A pair is written with its key in a style. An uncommented symbol that is a label is written as
its name with a colon behind it. -/
def PairInner (labels : Bool) (pair : Tree) (d : Doc) : Prop :=
  ∃ (key : Tree) (value : Value) (keyDoc valueDoc : Doc), pair.body = [.node key, value] ∧
    KeyDoc key labels keyDoc ∧
    (labels = true → key.comments = [] → ∀ name, SymbolName key name →
      ∀ page, Layout.render page keyDoc = name ++ ":") ∧
    PairLayout keyDoc valueDoc d

/-- A pair with its comments around it. What is no pair is written in any way. -/
def PairDoc (labels : Bool) (v : Value) (d : Doc) : Prop :=
  ∀ pair : Tree, v = .node pair → pair.tag = "assoc_new" →
    ∃ inner, PairInner labels pair inner ∧
      Comments.splice inner pair.comments pair.endLine? = .ok d

theorem yields_pairWith (p : Place) {labels : Bool}
    (hlabel : labels = true → ∀ key, p.node.body[0]? = some (.node key) → CanBeLabel key) :
    Yields (pairWith labels (Registry.default.printer o formatter depth) p)
      (PairInner labels p.node) := by
  unfold pairWith
  split
  · next v value hbody =>
      refine .liftBind fun key hkey => ?_
      obtain rfl := Value.asNode_eq_ok.mp hkey
      have hfirst : labels = true → CanBeLabel key :=
        fun h => hlabel h key (by rw [hbody]; rfl)
      refine .bind (keyDoc_pairKey p hfirst) fun keyDoc hkeyDoc => .anyBind fun valueDoc => ?_
      have hinner {d : Doc} (hd : PairLayout keyDoc valueDoc d) : PairInner labels p.node d := by
        refine ⟨key, value, keyDoc, valueDoc, hbody, hkeyDoc, ?_, hd⟩
        rintro rfl hbare name hname page
        exact Layout.render_of_spells page (hkeyDoc.spells hbare hname)
      refine .liftBind fun n _ => ?_
      split
      · exact .pure (hinner (.inl rfl))
      · refine .liftBind fun skips _ => ?_
        split
        · exact .pure (hinner (.inr (.inr rfl)))
        · exact .pure (hinner (.inr (.inl rfl)))
  · exact .throw _

theorem pairDoc_pairIn (p : Place) {labels : Bool} {v : Value}
    (hlabel : labels = true → ∀ key, KeyIn [v] key → CanBeLabel key) :
    Yields (pairIn (Registry.default.printer o formatter depth) p labels v) (PairDoc labels v) := by
  refine .liftBind fun n hn => ?_
  obtain rfl := Value.asNode_eq_ok.mp hn
  split
  · next htag =>
      have hown : (Registry.default.printer o formatter depth).ownComments n.tag = false := by
        rw [htag]
        cases depth <;> rfl
      have hinner : Yields (pairWith labels (Registry.default.printer o formatter depth)
          (p.below n)) (PairInner labels n) :=
        yields_pairWith (p.below n) fun h key hkey =>
          hlabel h key ⟨n, List.mem_singleton_self _, htag, hkey⟩
      refine .bind (Registry.yields_apply_spliced (P := PairInner labels n) hown
        (.bind hinner fun inner h => .pure h)) fun printed hprinted => ?_
      refine .pure fun pair hpair _ => ?_
      cases hpair
      exact hprinted
  · next htag =>
      rintro _ d _ - pair hpair hnew
      cases hpair
      exact absurd hnew htag

theorem usesLabels_eq_ok {pairs : List Value} {labels : Bool}
    (hpairs : ∀ v ∈ pairs, v.tag? = some "assoc_new" ∨ v.tag? = some "assoc_splat")
    (h : usesLabels o pairs = .ok labels) :
    labels = true ↔ o.hashLabel = true ∧ ∀ key, KeyIn pairs key → CanBeLabel key := by
  unfold usesLabels at h
  split at h
  · next hon => rw [canUseLabels_eq_ok hpairs h, and_iff_right hon]
  · next hoff =>
      cases h
      exact iff_of_false Bool.false_ne_true fun h => hoff h.1

/-- All keys of a hash are written in one style. They are labels exactly if labels are asked for and
every key can be one, and a label is the name of its symbol with a colon behind it. -/
theorem pairList_one_style (o : Options) (formatter : Option Formatter) (depth : Nat) (p : Place)
    (notes notes' : List ChainNote) (d : Doc)
    (hpairs : ∀ v ∈ p.node.body, v.tag? = some "assoc_new" ∨ v.tag? = some "assoc_splat")
    (h : pairList (Registry.default.printer o formatter depth) p notes = .ok (d, notes')) :
    ∃ (labels : Bool) (docs : List Doc), d = .listed docs ∧
      List.Forall₂ (PairDoc labels) p.node.body docs ∧
      (labels = true ↔ o.hashLabel = true ∧ ∀ key, KeyIn p.node.body key → CanBeLabel key) := by
  suffices hyields : Yields (pairList (Registry.default.printer o formatter depth) p) fun d =>
      ∃ (labels : Bool) (docs : List Doc), d = .listed docs ∧
        List.Forall₂ (PairDoc labels) p.node.body docs ∧
        (labels = true ↔ o.hashLabel = true ∧ ∀ key, KeyIn p.node.body key → CanBeLabel key) from
    hyields notes d notes' h
  refine .liftBind fun labels hlabels => ?_
  rw [Registry.options_printer] at hlabels
  have hiff := usesLabels_eq_ok hpairs hlabels
  refine .bind (Yields.mapM _ fun v hv => pairDoc_pairIn p fun hon key hkey => ?_) fun docs hdocs =>
    .pure ⟨labels, docs, rfl, hdocs, hiff⟩
  obtain ⟨pair, hpair, hrest⟩ := hkey
  refine (hiff.mp hon).2 key ⟨pair, ?_, hrest⟩
  rwa [List.mem_singleton.mp hpair]

def samplePair (name : String) : Value :=
  .node (.plain "assoc_new"
    [.node (.plain "dyna_symbol" [.text ":\"", .list [.node (.stringPart name)]]),
      .node (.plain "@int" [.text "1"])])

/-- The theorem at a hash of two quoted symbols that can be labels. -/
theorem pairList_one_style_sample :
    ∃ d docs, pairList (Registry.default.printer Options.default none 3)
        (.root ⟨"bare_assoc_hash", [samplePair "a1", samplePair "b?"], [], none⟩) [] = .ok (d, []) ∧
      d = .listed docs ∧
      List.Forall₂ (PairDoc true) [samplePair "a1", samplePair "b?"] docs := by
  obtain ⟨labels, docs, hdocs, hpairs, hiff⟩ := pairList_one_style Options.default none 3
    (.root ⟨"bare_assoc_hash", [samplePair "a1", samplePair "b?"], [], none⟩) [] [] _
    (by decide) rfl
  have hlabels : labels = true :=
    hiff.mpr ⟨rfl, (canUseLabels_eq_ok (b := true) (by decide) rfl).mp rfl⟩
  rw [hlabels] at hpairs
  exact ⟨_, docs, rfl, hdocs, hpairs⟩

/-- A line feed behind the word does not keep a quoted symbol from being a label. -/
theorem canUseLabels_line_feed :
    canUseLabels [samplePair "foo\n"] = .ok true ∧ ¬ BareWord "foo\n" :=
  ⟨rfl, fun h => h.not_mem_line_feed (by decide)⟩

end Rules

end RubyPretty
