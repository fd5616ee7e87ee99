import RubyPretty.Proofs.Rules.Literals
/-!
# Arrays and hashes are kept

An array of symbols may be written as an array of words, and the keys of a hash as labels: both
write the names themselves. The rules of the two brackets place the comments of their nodes.
-/

namespace RubyPretty

open Doc Keep

namespace Rules

variable {k : Keep} {pr : Printer}

/-! ## Comments between brackets -/

theorem notes_partitionInner {n : Tree} {inside outside : List Comment}
    (h : Comments.partitionInner n = .ok (inside, outside)) :
    k.notes inside + k.notes outside = k.notes n.comments := by
  unfold Comments.partitionInner at h
  split at h
  · cases h
    rw [notes_nil, Nat.zero_add]
  · split at h
    · cases h
      rw [notes_nil, Nat.zero_add]
    · rw [Except.bind_eq_ok] at h
      obtain ⟨marked, hmarked, h⟩ := h
      rw [List.partition_eq_filter_filter] at h
      have hcomments : marked.map (·.1) = n.comments := by
        have hall := Except.mapM_eq_ok hmarked
        clear hmarked h
        generalize n.comments = cs at hall
        induction hall with
        | nil => rfl
        | cons hc _ ih =>
            rw [Except.bind_eq_ok] at hc
            obtain ⟨b, -, hc⟩ := hc
            cases hc
            rw [List.map_cons, ih]
      cases h
      rw [← notes_append, ← List.map_append, ← hcomments]
      exact notes_perm ((List.filter_append_perm _ _).map _)

theorem notes_le_emptyCollection {n : Tree} {opening closing : String} {d : Doc}
    (h : emptyCollection n opening closing = .ok d) : k.notes n.comments ≤ minCount k.text d := by
  rw [emptyCollection, Except.bind_eq_ok] at h
  obtain ⟨⟨inside, outside⟩, hsplit, h⟩ := h
  have hsum := notes_partitionInner (k := k) hsplit
  have hsplice := minCount_splice (k := k) h
  split at hsplice
  · next hempty =>
      rw [List.isEmpty_iff.mp hempty, notes_nil] at hsum
      omega
  · have hdocs := notes_le_docs (k := k) inside
    have hjoined := minCountAll_le_joined (x := k.text) .hardline (inside.map Comment.doc)
    simp only [minCount_grouped, minCountAll_cons, minCount_indented] at hsplice
    omega

/-! ## Words -/

theorem minCountAll_le_wordArray (start : String) (words : List Doc) (texts : List String) :
    minCountAll k.text words ≤ minCount k.text (wordArray start words texts) := by
  have := minCountAll_le_joined (x := k.text) .line words
  simp [wordArray]
  omega

@[simp] theorem keeps_wordList (start : String) {tags : List String}
    (htags : tags ⊆ ["qwords", "qsymbols", "words", "symbols"]) :
    k.Keeps tags (wordList start) := by
  refine keeps_subset ?_ htags
  refine keeps_of_children (by decide) fun pr p hpr hp hfits htag => ?_
  refine .bind (hpr.printAll p hfits) fun ds hds => .liftBind fun texts _ => .pure ?_
  exact Nat.le_trans hds (minCountAll_le_wordArray start ds texts)

@[simp] theorem keeps_word : k.Keeps ["word"] word := by
  refine keeps_of_children (by decide) fun pr p hpr hp hfits htag => ?_
  exact .bind (yields_stringParts hpr p hfits) fun ds hds => .pure (by simpa using hds)

theorem owed_of_isStringWord {v : Value} (hv : v.Conforms) (h : Shape.isStringWord v = .ok true) :
    k.owed v = 0 := by
  rw [Shape.isStringWord, Except.bind_eq_ok] at h
  obtain ⟨n, hn, h⟩ := h
  obtain rfl := Value.asNode_eq_ok.mp hn
  split at h
  · cases h
  · next htag =>
      have htag : n.tag = "string_literal" := by
        simp only [Bool.or_eq_true, decide_eq_true_eq, not_or, ne_eq, Decidable.not_not] at htag
        exact htag.1
      obtain ⟨howed, hfits⟩ := owed_children (k := k) hv (by rw [htag]; decide)
      split at h
      · next source parts hbody =>
          have hsource : k.owed source = 0 :=
            owed_of_mark hv.isShaped 0 (by rw [htag]; rfl) (by rw [hbody]; rfl)
          have hnode := node?_of_items
            (Node.admits_slot hv.isShaped (i := 1) (v := parts) (by rw [htag]; rfl)
              (by rw [hbody]; rfl))
          rw [Except.bind_eq_ok] at h
          obtain ⟨vs, hvs, h⟩ := h
          have hsum := (owedAll_elements (k := k) (hfits parts (by rw [hbody]; simp)) hnode hvs).1
          split at h
          · rw [Except.bind_eq_ok] at h
            obtain ⟨part, hpart, h⟩ := h
            rw [Value.asNode_eq_ok.mp hpart] at hsum
            split at h
            · cases h
            · next hplain =>
                rw [owedAll_cons, owedAll_nil, owed_plainPart (by simpa using hplain)] at hsum
                rw [howed, hbody]
                simp [hsource, ← hsum]
          · cases h
      · cases h

theorem owed_le_symbolWord {v : Value} (hv : v.Conforms) (h : Shape.isSymbolWord v = .ok true)
    {s : String} (hs : symbolWordText v = .ok s) : k.owed v ≤ minCount k.text (ofString s) := by
  rw [Shape.isSymbolWord, Except.bind_eq_ok] at h
  obtain ⟨n, hn, h⟩ := h
  obtain rfl := Value.asNode_eq_ok.mp hn
  split at h
  · cases h
  · next htag =>
      have htag : n.tag = "symbol_literal" := by
        simp only [Bool.or_eq_true, decide_eq_true_eq, not_or, ne_eq, Decidable.not_not] at htag
        exact htag.1
      obtain ⟨w, hbody, -, howed⟩ := owed_symbolLiteral (k := k) hv htag
      simp only [symbolWordText, Except.bind_eq_ok] at hs
      obtain ⟨n', hn', m, hm, hs⟩ := hs
      obtain rfl : n = n' := Value.node.inj (Value.asNode_eq_ok.mp hn')
      rw [Node.childNode_eq_ok, hbody] at hm
      obtain rfl : w = .node m := Option.some.inj hm
      rw [howed]
      exact owed_le_token hs

theorem owedAll_le_symbolWords {vs : List Value} (hvs : ∀ v ∈ vs, v.Conforms)
    (h : ∀ v ∈ vs, Shape.isSymbolWord v = .ok true) {texts : List String}
    (ht : vs.mapM symbolWordText = .ok texts) :
    k.owedAll vs ≤ minCountAll k.text (texts.map ofString) := by
  have hall := Except.mapM_eq_ok ht
  clear ht
  induction hall with
  | nil => exact Nat.le_refl _
  | @cons v s vs texts hs _ ih =>
      have ih := ih (fun w hw => hvs w (List.mem_cons_of_mem v hw))
        fun w hw => h w (List.mem_cons_of_mem v hw)
      have hword := owed_le_symbolWord (k := k) (hvs v List.mem_cons_self)
        (h v List.mem_cons_self) hs
      rw [owedAll_cons, List.map_cons, minCountAll_cons]
      omega

theorem owedAll_le_asWords? {o : Options} {vs : List Value} (hvs : ∀ v ∈ vs, v.Conforms) {d : Doc}
    (h : asWords? o vs = .ok (some d)) : k.owedAll vs ≤ minCount k.text d := by
  unfold asWords? at h
  split at h
  · cases h
  · rw [Except.bind_eq_ok] at h
    obtain ⟨isStrings, hstrings, h⟩ := h
    split at h
    · next htrue =>
        rw [htrue, Shape.isStringArray] at hstrings
        split at hstrings
        · cases hstrings
        · rw [owedAll_eq_zero fun v hv =>
            owed_of_isStringWord (hvs v hv) (Except.allM_eq_ok hstrings v hv)]
          exact Nat.zero_le _
    · rw [Except.bind_eq_ok] at h
      obtain ⟨isSymbols, hsymbols, h⟩ := h
      split at h
      · next htrue =>
          rw [htrue, Shape.isSymbolArray] at hsymbols
          split at hsymbols
          · cases hsymbols
          · rw [Except.bind_eq_ok] at h
            obtain ⟨texts, htexts, h⟩ := h
            cases h
            exact Nat.le_trans (owedAll_le_symbolWords hvs (Except.allM_eq_ok hsymbols) htexts)
              (minCountAll_le_wordArray _ _ texts)
      · cases h

/-! ## Arrays -/

theorem yields_arrayContents (hpr : k.Sound pr) (p : Place) {v : Value} (hv : v.Conforms) :
    Yields (arrayContents pr p v) fun d => k.owed v ≤ minCount k.text d := by
  refine .liftBind fun n _ => ?_
  split
  · exact hpr.print p hv
  · refine .liftBind fun vs hvs => .liftBind fun words hwords => ?_
    obtain ⟨hsum, hin⟩ := owedAll_argumentNodes v hv hvs
    split
    · rw [← hsum]
      exact .pure (owedAll_le_asWords? hin hwords)
    · refine .bind (yields_argumentList hpr p hv) fun ds hds => .pure ?_
      have hlisted := minCountAll_le_listed (x := k.text) ds
      have henclosed :=
        minCountAll_le_enclosed (x := k.text) "[" [.listed ds, trailingComma pr.options] "]"
      simp only [minCountAll_cons] at henclosed
      omega

/-- A rule keeps also the comments of its node. -/
def Places (k : Keep) (tags : List String) (rule : DocRule) : Prop :=
  ∀ pr p, k.Sound pr → Value.Conforms (.node p.node) → p.node.tag ∈ tags →
    Yields (rule pr p) fun d => k.due p.node ≤ minCount k.text d

@[simp] theorem places_stmts : Places k ["stmts"] stmts :=
  fun _ p hpr hp htag => yields_stmts hpr p hp (List.mem_singleton.mp htag)

theorem due_collection {n : Tree} (hn : Value.Conforms (.node n))
    (htag : n.tag ∈ ["array", "hash"]) :
    ∃ v, n.body = [v] ∧ v.Conforms ∧ k.due n = k.owed v + k.notes n.comments := by
  have hall : ∀ t ∈ ["array", "hash"],
      isPlainProduction t = true ∧ Grammar.arity? t = some 1 ∧ t ≠ "stmts" := by decide
  obtain ⟨hplain, harity, hstmts⟩ := hall _ htag
  obtain ⟨v, hbody, hv, howed⟩ := owed_only (k := k) hn hplain harity
  refine ⟨v, hbody, hv, ?_⟩
  rw [due, howed, own, if_neg fun h => hstmts h.1]

@[simp] theorem places_array : Places k ["array"] array := by
  intro pr p hpr hp htag
  obtain ⟨v, hbody, hv, hdue⟩ := due_collection (k := k) hp (by simp [List.mem_singleton.mp htag])
  rw [hdue]
  refine .firstChild hbody ?_
  split
  · exact .lift fun d hd => by simpa using notes_le_emptyCollection hd
  · refine .bind (yields_arrayContents hpr p hv) fun d hd => .lift fun e he => ?_
    have := minCount_splice (k := k) he
    omega

/-! ## Hashes -/

theorem owed_of_quotedSymbolText {n : Tree} (hn : Value.Conforms (.node n))
    (htag : n.tag = "dyna_symbol") {s : String}
    (h : Shape.quotedSymbolText n = .ok (some s)) : k.owed (.node n) = 0 := by
  obtain ⟨howed, hfits⟩ := owed_children (k := k) hn (by rw [htag]; decide)
  unfold Shape.quotedSymbolText at h
  split at h
  · next source parts hbody =>
      have hsource : k.owed source = 0 :=
        owed_of_mark hn.isShaped 0 (by rw [htag]; rfl) (by rw [hbody]; rfl)
      have hnode := node?_of_items (Node.admits_slot hn.isShaped (i := 1) (v := parts)
        (by rw [htag]; rfl) (by rw [hbody]; rfl))
      rw [Except.bind_eq_ok] at h
      obtain ⟨vs, hvs, h⟩ := h
      have hsum := (owedAll_elements (k := k) (hfits parts (by rw [hbody]; simp)) hnode hvs).1
      split at h
      · next hplain =>
          have hzero : k.owedAll vs = 0 := owedAll_eq_zero fun v hv => by
            have hpart := List.all_eq_true.mp hplain v hv
            cases v with
            | node n =>
                exact owed_plainPart
                  (by simpa [Shape.isPlainPart, Value.tag?, Value.node?] using hpart)
            | _ => cases hpart
          rw [howed, hbody]
          simp [hsource, ← hsum, hzero]
      · cases h
  · cases h

theorem yields_labelKey (hpr : k.Sound pr) (p : Place) {n : Tree} (hn : Value.Conforms (.node n)) :
    Yields (labelKey pr p n) fun d => k.owed (.node n) ≤ minCount k.text d := by
  unfold labelKey
  split
  · exact hpr.print p hn
  · next htag =>
      obtain ⟨w, hbody, hw, howed⟩ := owed_symbolLiteral (k := k) hn htag
      rw [howed]
      exact .bind (hpr.printChild (p.below n) hbody hw) fun d hd => .pure (by simp; omega)
  · next htag =>
      refine .liftBind fun text? htext => ?_
      split
      · rw [owed_of_quotedSymbolText hn htag htext]
        exact .pure (Nat.zero_le _)
      · exact .throw _
  · exact .throw _

theorem yields_rocketKey (hpr : k.Sound pr) (p : Place) {n : Tree} (hn : Value.Conforms (.node n)) :
    Yields (rocketKey pr p n) fun d => k.owed (.node n) ≤ minCount k.text d := by
  have hprinted : Yields (do return .cat [← pr.print p (.node n), " =>"])
      fun d => k.owed (.node n) ≤ minCount k.text d :=
    .bind (hpr.print p hn) fun d hd => .pure (by simp; omega)
  unfold rocketKey
  split
  · next htag =>
      rw [owed_token (by rw [Node.isToken, htag]; decide) (by rw [htag]; decide)]
      exact .liftBind fun _ _ => .pure (Nat.zero_le _)
  · next htag =>
      refine .liftBind fun _ _ => .liftBind fun _ _ => ?_
      split
      · exact hprinted
      · refine .bind (yields_quotedSymbolBody hpr (p.below n) hn htag) fun d hd => .pure ?_
        have hd : k.owed (.node n) ≤ minCount k.text d := hd
        simp
        omega
  · exact hprinted

theorem yields_pairKey (hpr : k.Sound pr) (p : Place) (labels : Bool) {n : Tree}
    (hn : Value.Conforms (.node n)) :
    Yields (pairKey pr p labels n) fun d => k.owed (.node n) ≤ minCount k.text d := by
  unfold pairKey
  split
  · exact yields_rocketKey hpr p hn
  · refine .bind (yields_labelKey hpr p hn) fun d hd => ?_
    split
    · exact .pure hd
    · refine .lift fun e he => ?_
      have := minCount_splice (k := k) he
      omega

theorem keeps_pairWith (labels : Bool) : k.Keeps ["assoc_new"] (pairWith labels) := by
  refine keeps_of_children (by decide) fun pr p hpr hp hfits htag => ?_
  unfold pairWith
  split
  · next key value hbody =>
      rw [hbody] at hfits ⊢
      refine .liftBind fun n hn => ?_
      obtain rfl := Value.asNode_eq_ok.mp hn
      refine .bind (yields_pairKey hpr p labels (hfits _ (by simp))) fun l hl => ?_
      refine .bind (hpr.print p (hfits value (by simp))) fun v hv => .liftBind fun m _ => ?_
      split
      · exact .pure (by simp; omega)
      · refine .liftBind fun stays _ => ?_
        split <;> exact .pure (by simp; omega)
  · exact .throw _

@[simp] theorem keeps_pair : k.Keeps ["assoc_new"] pair := by
  intro pr p hpr hp htag
  exact .liftBind fun labels _ => keeps_pairWith labels pr p hpr hp htag

@[simp] theorem keeps_pairSplat : k.Keeps ["assoc_splat"] pairSplat :=
  keeps_wrapped (by decide) fun d => by simp

theorem yields_pairIn (hpr : k.Sound pr) (p : Place) (labels : Bool) {v : Value} (hv : v.Conforms) :
    Yields (pairIn pr p labels v) fun d => k.owed v ≤ minCount k.text d := by
  refine .liftBind fun n hn => ?_
  obtain rfl := Value.asNode_eq_ok.mp hn
  split
  · next htag =>
      have hrule : Yields (Rule.ofDoc (pairWith labels) pr (p.below n))
          fun printed => k.owed (.node n) ≤ minCount k.text printed.doc :=
        .bind (keeps_pairWith labels pr (p.below n) hpr hv (List.mem_singleton.mpr htag))
          fun d hd => .pure hd
      exact .bind (yields_apply (p.below n) hrule) fun printed h => .pure h
  · exact hpr.print p hv

@[simp] theorem keeps_pairList : k.Keeps ["assoclist_from_args", "bare_assoc_hash"] pairList := by
  refine keeps_of_children (by decide) fun pr p hpr hp hfits htag => ?_
  refine .liftBind fun labels _ => ?_
  refine .bind (yields_mapM _ fun v hv => yields_pairIn hpr p labels (hfits v hv)) fun ds hds => ?_
  exact .pure (Nat.le_trans hds (minCountAll_le_listed ds))

@[simp] theorem places_hash : Places k ["hash"] hash := by
  intro pr p hpr hp htag
  obtain ⟨v, hbody, hv, hdue⟩ := due_collection (k := k) hp (by simp [List.mem_singleton.mp htag])
  rw [hdue]
  refine .firstChild hbody ?_
  split
  · exact .lift fun d hd => by simpa using notes_le_emptyCollection hd
  · refine .bind (hpr.print p hv) fun d hd => .lift fun e he => ?_
    have := minCount_splice (k := k) he
    split at this <;> simp at this <;> omega

end Rules

end RubyPretty
