import RubyPretty.Proofs.Rules.Definitions
/-!
# Tokens, strings and heredocs are kept

A name is printed by the rule of its token. The plain parts of strings are no names, so nothing is
lost where a string is written another way.
-/

namespace RubyPretty

open Doc Keep

namespace Rules

variable {k : Keep} {pr : Printer}

/-! ## Tokens -/

theorem owed_eq_name {n : Tree} (h : n.isToken = true) : k.owed (.node n) = k.name n := by
  have htag : n.tag ≠ "stmts" := by
    intro htag
    rw [isToken_stmts htag] at h
    cases h
  rw [owed_node, here, if_neg htag, h]
  simp

theorem name_le_minCount {n : Tree} {s : String} (h : n.token = .ok s) :
    k.name n ≤ minCount k.text (ofString s) := by
  unfold name
  split
  · next hname =>
      simp only [Bool.and_eq_true, beq_iff_eq] at hname
      rw [Node.token, hname.2] at h
      obtain rfl : k.text = s := Except.ok.inj h
      exact Nat.le_of_eq (minCount_ofString k.text_ne).symm
  · exact Nat.zero_le _

theorem owed_le_token {n : Tree} {s : String} (h : n.token = .ok s) :
    k.owed (.node n) ≤ minCount k.text (ofString s) := by
  have htoken : n.isToken = true := by
    by_contra hnot
    rw [Node.token, Node.text?, if_neg hnot] at h
    cases h
  rw [owed_eq_name htoken]
  exact name_le_minCount h

@[simp] theorem keeps_token (tags : List String) : k.Keeps tags token := by
  intro pr p hpr hp htag
  exact .liftBind fun s hs => .pure (owed_le_token hs)

theorem keeps_unnamed {tags : List String}
    (htags : tags.all (fun t => isTokenTag t && !nameTags.contains t) = true) (rule : DocRule) :
    k.Keeps tags rule := by
  intro pr p hpr hp htag
  have h := List.all_eq_true.mp htags _ htag
  simp only [Bool.and_eq_true, Bool.not_eq_true'] at h
  rw [owed_token h.1 h.2]
  exact fun _ _ _ _ => Nat.zero_le _

/-! ## Parts of strings -/

theorem owed_plainPart {n : Tree} (htag : n.tag = "@tstring_content") : k.owed (.node n) = 0 :=
  owed_token (by rw [Node.isToken, htag]; decide) (by rw [htag]; decide)

theorem yields_stringPart (hpr : k.Sound pr) (p : Place) {v : Value} (hv : v.Conforms) :
    Yields (stringPart pr p v) fun d => k.owed v ≤ minCount k.text d := by
  refine .liftBind fun n hn => ?_
  obtain rfl := Value.asNode_eq_ok.mp hn
  split
  · next htag =>
      rw [owed_plainPart htag]
      exact .liftBind fun _ _ => .pure (Nat.zero_le _)
  · exact hpr.print p hv

theorem yields_stringParts (hpr : k.Sound pr) (p : Place) {vs : List Value}
    (hvs : ∀ v ∈ vs, v.Conforms) :
    Yields (stringParts pr p vs) fun ds => k.owedAll vs ≤ minCountAll k.text ds :=
  yields_mapM vs fun v hv => yields_stringPart hpr p (hvs v hv)

theorem minCountAll_le_quoted (quote : String) (ds : List Doc) :
    minCountAll k.text ds ≤ minCount k.text (quoted quote ds) := by
  simp [quoted]
  omega

@[simp] theorem keeps_stringLiteral : k.Keeps ["string_literal"] stringLiteral := by
  refine keeps_of_children (by decide) fun pr p hpr hp hfits htag => ?_
  have htag := List.mem_singleton.mp htag
  unfold stringLiteral
  split
  · next source parts hbody =>
      have hsource : k.owed source = 0 :=
        owed_of_mark hp 0 (by rw [htag]; rfl) (by rw [hbody]; rfl)
      have hnode := node?_of_items
        (Node.admits_slot hp (i := 1) (v := parts) (by rw [htag]; rfl) (by rw [hbody]; rfl))
      rw [hbody] at hfits ⊢
      refine .liftBind fun vs hvs => ?_
      obtain ⟨hsum, hin⟩ := owedAll_elements (k := k) (hfits parts (by simp)) hnode hvs
      simp only [owedAll_cons, owedAll_nil, hsource, ← hsum, Nat.zero_add, Nat.add_zero]
      split
      · exact .pure (Nat.zero_le _)
      · refine .bind (yields_stringParts hpr p hin) fun ds hds => ?_
        refine .liftBind fun _ _ => .liftBind fun quote _ => .pure ?_
        exact Nat.le_trans hds (minCountAll_le_quoted quote ds)
  · exact .throw _

@[simp] theorem keeps_shellString : k.Keeps ["xstring_literal"] shellString := by
  refine keeps_of_child (by decide) fun pr p v hpr hp htag hbody hv => ?_
  have hnode := node?_of_items (Node.admits_slot hp (i := 0) (v := v)
    (by rw [List.mem_singleton.mp htag]; rfl) (by rw [hbody]; rfl))
  refine .firstChild hbody (.liftBind fun vs hvs => ?_)
  obtain ⟨hsum, hin⟩ := owedAll_elements (k := k) hv hnode hvs
  refine .bind (yields_stringParts hpr p hin) fun ds hds => .pure ?_
  simp
  omega

@[simp] theorem keeps_stringConcat : k.Keeps ["string_concat"] stringConcat := by
  refine keeps_of_children (by decide) fun pr p hpr hp hfits htag => ?_
  unfold stringConcat
  split
  · next left right hbody =>
      rw [hbody] at hfits ⊢
      refine .bind (hpr.print p (hfits left (by simp))) fun l hl => ?_
      refine .bind (hpr.print p (hfits right (by simp))) fun r hr => .pure ?_
      simp
      omega
  · exact .throw _

@[simp] theorem keeps_interpolation : k.Keeps ["string_embexpr"] interpolation := by
  refine keeps_of_child (by decide) fun pr p v hpr _ _ hbody hv => ?_
  refine .bind (hpr.printChild p hbody hv) fun d hd => ?_
  split
  · have := minCount_le_flatten (x := k.text) d
    exact .pure (by simp; omega)
  · have := minCountAll_le_enclosed (x := k.text) "#\x7b" [d] "\x7d"
    exact .pure (by simp at this ⊢; omega)

@[simp] theorem keeps_variableInterpolation : k.Keeps ["string_dvar"] variableInterpolation :=
  keeps_wrapped (by decide) fun d => by simp; omega

@[simp] theorem keeps_symbolLiteral : k.Keeps ["symbol_literal"] symbolLiteral :=
  keeps_wrapped (by decide) fun d => by simp

/-! ## Quoted symbols and regular expressions -/

theorem yields_quotedSymbolBody (hpr : k.Sound pr) (p : Place) (hp : Value.Conforms (.node p.node))
    (htag : p.node.tag = "dyna_symbol") :
    Yields (quotedSymbolBody pr p) fun d => k.owed (.node p.node) ≤ minCount k.text d := by
  obtain ⟨howed, hfits⟩ := owed_children (k := k) hp (by rw [htag]; decide)
  rw [howed]
  unfold quotedSymbolBody
  split
  · next source parts hbody =>
      have hsource : k.owed source = 0 :=
        owed_of_mark hp.isShaped 0 (by rw [htag]; rfl) (by rw [hbody]; rfl)
      have hnode := node?_of_items (Node.admits_slot hp.isShaped (i := 1) (v := parts)
        (by rw [htag]; rfl) (by rw [hbody]; rfl))
      rw [hbody] at hfits ⊢
      refine .liftBind fun _ _ => .liftBind fun vs hvs => ?_
      obtain ⟨hsum, hin⟩ := owedAll_elements (k := k) (hfits parts (by simp)) hnode hvs
      simp only [owedAll_cons, owedAll_nil, hsource, ← hsum, Nat.zero_add, Nat.add_zero]
      refine .bind (yields_stringParts hpr p hin) fun ds hds => ?_
      split
      · exact .pure (Nat.le_trans hds (minCountAll_le_quoted _ ds))
      · exact .liftBind fun _ _ => .pure (Nat.le_trans hds (minCountAll_le_quoted _ ds))
  · exact .throw _

@[simp] theorem keeps_quotedSymbol : k.Keeps ["dyna_symbol"] quotedSymbol := by
  intro pr p hpr hp htag
  refine .bind (yields_quotedSymbolBody hpr p hp (List.mem_singleton.mp htag)) fun d hd => ?_
  refine .liftBind fun _ _ => .liftBind fun _ _ => ?_
  split
  · exact .pure hd
  · exact .pure (by simp; omega)

@[simp] theorem keeps_regexp : k.Keeps ["regexp_literal"] regexp := by
  refine keeps_of_children (by decide) fun pr p hpr hp hfits htag => ?_
  have htag := List.mem_singleton.mp htag
  unfold regexp
  split
  · next opening parts closing hbody =>
      have hopening : k.owed opening = 0 :=
        owed_of_mark hp 0 (by rw [htag]; rfl) (by rw [hbody]; rfl)
      have hclosing : k.owed closing = 0 :=
        owed_of_mark hp 2 (by rw [htag]; rfl) (by rw [hbody]; rfl)
      have hnode := node?_of_items
        (Node.admits_slot hp (i := 1) (v := parts) (by rw [htag]; rfl) (by rw [hbody]; rfl))
      rw [hbody] at hfits ⊢
      refine .liftBind fun vs hvs => ?_
      obtain ⟨hsum, hin⟩ := owedAll_elements (k := k) (hfits parts (by simp)) hnode hvs
      simp only [owedAll_cons, owedAll_nil, hopening, hclosing, ← hsum, Nat.zero_add, Nat.add_zero]
      refine .bind (yields_stringParts hpr p hin) fun ds hds => ?_
      split
      · exact .liftBind fun _ _ => .liftBind fun _ _ => .pure (by simp; omega)
      · refine .liftBind fun _ _ => ?_
        split <;> exact .pure (by simp; omega)
  · exact .throw _

/-! ## Heredocs -/

theorem owedAll_of_heredocContent? {vs : List Value} {content : String}
    (h : heredocContent? vs = .ok (some content)) : k.owedAll vs = 0 := by
  rw [heredocContent?, Except.bind_eq_ok] at h
  obtain ⟨isPlain, hplain, h⟩ := h
  cases isPlain with
  | false => cases h
  | true =>
      refine owedAll_eq_zero fun v hv => ?_
      have hpart := Except.allM_eq_ok hplain v hv
      rw [Except.bind_eq_ok] at hpart
      obtain ⟨n, hn, htag⟩ := hpart
      rw [Value.asNode_eq_ok.mp hn]
      exact owed_plainPart (beq_iff_eq.mp (Except.ok.inj htag))

theorem owed_of_formattedBody? {opener : Option Heredoc.Opener} {v : Value} {content : String}
    (hv : v.Conforms) (hnode : v.node? = none)
    (h : formattedBody? pr opener v = .ok (some content)) : k.owed v = 0 := by
  unfold formattedBody? at h
  split at h
  · split at h
    · simp only [Except.bind_eq_ok] at h
      obtain ⟨vs, hvs, content?, hcontent, h⟩ := h
      split at h
      · rw [← (owedAll_elements hv hnode hvs).1]
        exact owedAll_of_heredocContent? hcontent
      · cases h
    · cases h
  · cases h

theorem yields_heredocPart (hpr : k.Sound pr) (p : Place) {v : Value} (hv : v.Conforms) :
    Yields (heredocPart pr p v) fun d => k.owed v ≤ minCount k.text d := by
  refine .liftBind fun n hn => ?_
  obtain rfl := Value.asNode_eq_ok.mp hn
  split
  · next htag =>
      rw [owed_plainPart htag]
      exact .liftBind fun _ _ => .pure (Nat.zero_le _)
  · exact hpr.print p hv

@[simp] theorem keeps_heredoc : k.Keeps ["heredoc"] heredoc := by
  refine keeps_of_children (by decide) fun pr p hpr hp hfits htag => ?_
  have htag := List.mem_singleton.mp htag
  unfold heredoc
  split
  · next opening parts closing hbody =>
      have hopening : k.owed opening = 0 :=
        owed_of_mark hp 0 (by rw [htag]; rfl) (by rw [hbody]; rfl)
      have hclosing : k.owed closing = 0 :=
        owed_of_mark hp 2 (by rw [htag]; rfl) (by rw [hbody]; rfl)
      have hnode := node?_of_items
        (Node.admits_slot hp (i := 1) (v := parts) (by rw [htag]; rfl) (by rw [hbody]; rfl))
      rw [hbody] at hfits ⊢
      have hparts : parts.Conforms := hfits parts (by simp)
      simp only [owedAll_cons, owedAll_nil, hopening, hclosing, Nat.zero_add, Nat.add_zero]
      refine .liftBind fun opening _ => .liftBind fun formatted hformatted => ?_
      split
      · rw [owed_of_formattedBody? hparts hnode hformatted]
        exact .liftBind fun _ _ => .pure (Nat.zero_le _)
      · refine .liftBind fun vs hvs => ?_
        obtain ⟨hsum, hin⟩ := owedAll_elements (k := k) hparts hnode hvs
        rw [← hsum]
        refine .bind (yields_mapM vs fun v hv => yields_heredocPart hpr p (hin v hv)) ?_
        intro ds hds
        refine .liftBind fun _ _ => .pure ?_
        simp
        omega
  · exact .throw _

end Rules

end RubyPretty
