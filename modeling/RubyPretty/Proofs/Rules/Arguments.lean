import RubyPretty.Proofs.Printing.Sound
/-!
# Arguments are kept

The arguments of a container come out as a list of documents, one or more for each of its children.
-/

namespace RubyPretty

open Doc Keep

namespace Rules

variable {k : Keep} {pr : Printer}

/-! ## What they depend on -/

section

variable {pr' : Printer} (h : ∀ p v, pr'.print p v = pr.print p v)
include h

/-- Arguments depend on a printer by the documents that it gives. -/
theorem arguments_congr (around : List Tree) (v : Value) :
    arguments pr' around v = arguments pr around v := by
  induction v using Value.induction generalizing around with
  | null | bool | int | real | text | list => rfl
  | node n ih =>
      obtain ⟨tag, body, comments, loc⟩ := n
      have hall (p : Place) (vs : List Value) : pr'.printAll p vs = pr.printAll p vs :=
        congrArg (vs.mapM ·) (funext (h p))
      unfold arguments
      rcases body with _ | ⟨args, _ | ⟨block, _ | ⟨more, others⟩⟩⟩
      · simp only [hall]
      · simp only [hall]
      · have hargs := fun around => ih args List.mem_cons_self around
        cases args <;> simp only [hall, h, hargs]
      · simp only [hall]

theorem argumentList_congr (p : Place) (v : Value) :
    argumentList pr' p v = argumentList pr p v := by
  unfold argumentList
  simp only [h, arguments_congr h]

end

/-! ## What they keep -/

theorem minCountAll_spliceLast {cs : List Comment} {ds es : List Doc}
    (h : spliceLast cs ds = .ok es) : minCountAll k.text ds ≤ minCountAll k.text es := by
  induction ds generalizing es with
  | nil => exact Nat.zero_le _
  | cons d ds ih =>
      cases ds with
      | nil =>
          rw [spliceLast, Except.bind_eq_ok] at h
          obtain ⟨e, he, h⟩ := h
          cases h
          have := minCount_splice (k := k) he
          simp only [minCountAll_cons, minCountAll_nil]
          omega
      | cons d' ds =>
          rw [spliceLast, Except.bind_eq_ok] at h
          · obtain ⟨es', he, h⟩ := h
            cases h
            have := ih he
            simp only [minCountAll_cons] at this ⊢
            omega
          · intro hnil
            cases hnil

def isContainer (v : Value) : Bool := v.tag? == some "args" || v.tag? == some "args_add_block"

theorem isContainer_node (n : Tree) :
    isContainer (.node n) = true ↔ n.tag = "args" ∨ n.tag = "args_add_block" := by
  simp [isContainer, Value.tag?, Value.node?]

theorem isPlainProduction_container {n : Tree} (h : isContainer (.node n) = true) :
    isPlainProduction n.tag = true := by
  rcases (isContainer_node n).mp h with h | h <;> rw [h] <;> decide

/-- The arguments behind a block argument stand in a container too, if there are any. -/
theorem isContainer_inner {n : Tree} {args block : Value} (hn : n.isShaped = true)
    (htag : n.tag = "args_add_block") (hbody : n.body = [args, block]) (hargs : args ≠ .null) :
    isContainer args = true := by
  have hslot : Grammar.Slot.arguments.admits args = true :=
    Node.admits_slot hn (i := 0) (by rw [htag]; rfl) (by rw [hbody]; rfl)
  cases args with
  | null => exact absurd rfl hargs
  | node n =>
      simpa [Grammar.Slot.arguments, Grammar.Slot.admits, isContainer, Value.isNull, Value.tag?,
        Value.node?] using hslot
  | _ => cases hslot

theorem yields_arguments (hpr : k.Sound pr) (around : List Tree) (v : Value) (hv : v.Conforms)
    (hc : isContainer v = true) :
    Yields (arguments pr around v) fun ds => k.owed v ≤ minCountAll k.text ds := by
  induction v using Value.induction generalizing around with
  | null | bool | int | real | text | list => exact .throw _
  | node n ih =>
      obtain ⟨howed, hfits⟩ := owed_children (k := k) hv (isPlainProduction_container hc)
      rw [howed]
      obtain ⟨tag, body, comments, loc⟩ := n
      have hsplice : ∀ ds, k.owedAll body ≤ minCountAll k.text ds →
          Yields (liftM (spliceLast comments ds) : PrintM _)
            fun es => k.owedAll body ≤ minCountAll k.text es := by
        intro ds hds
        exact .lift fun es hes => Nat.le_trans hds (minCountAll_spliceLast hes)
      unfold arguments
      split
      · exact .bind (hpr.printAll _ hfits) hsplice
      · next htag =>
          have htag : tag = "args_add_block" :=
            ((isContainer_node _).mp hc).resolve_left htag
          split
          · next args block =>
              have hblock : block.Conforms := hfits block (by simp)
              -- what the inner arguments give is followed by the block argument
              have hrest : ∀ ds, k.owed args ≤ minCountAll k.text ds →
                  Yields
                    (if block.isNull then pure ds >>= fun ds => liftM (spliceLast comments ds)
                    else do
                      let d ← pr.print ⟨⟨tag, [args, block], comments, loc⟩, around⟩ block
                      let ds ← pure (ds ++ [.cat ["&", d]])
                      liftM (spliceLast comments ds))
                    fun es => k.owedAll [args, block] ≤ minCountAll k.text es := by
                intro ds hds
                split
                · next hnull =>
                    have hzero : k.owed block = 0 := by rw [Value.isNull_iff.mp hnull]; rfl
                    exact .pureBind (hsplice ds (by simpa [hzero] using hds))
                · refine .bind (hpr.print _ hblock) fun d hd => .pureBind (hsplice _ ?_)
                  simp only [owedAll_cons, owedAll_nil, minCountAll_append, minCountAll_cons,
                    minCount_cat, minCountAll_nil]
                  omega
              have hinner : args ≠ .null →
                  Yields (arguments pr (⟨tag, [args, block], comments, loc⟩ :: around) args)
                    fun ds => k.owed args ≤ minCountAll k.text ds :=
                fun hne => ih args (by simp) _ (hfits args (by simp))
                  (isContainer_inner hv.isShaped htag rfl hne)
              cases args with
              | null => exact .pureBind (hrest [] (Nat.le_refl _))
              | _ => exact .bind (hinner Value.noConfusion) hrest
          · exact .throw _

theorem yields_argumentList (hpr : k.Sound pr) (p : Place) {v : Value} (hv : v.Conforms) :
    Yields (argumentList pr p v) fun ds => k.owed v ≤ minCountAll k.text ds := by
  cases v with
  | null => exact .pure (Nat.le_refl _)
  | node n =>
      show Yields (if containerTags.contains n.tag then arguments pr (p.node :: p.around) (.node n)
        else do return [← pr.print p (.node n)]) _
      split
      · next h =>
          exact yields_arguments hpr _ _ hv
            ((isContainer_node n).mpr (by simpa [containerTags] using h))
      · exact .bind (hpr.print p hv) fun d hd => .pure (by simpa using hd)
  | _ => exact .throw _

theorem owedAll_argumentNodes (v : Value) (hv : v.Conforms) {vs : List Value}
    (h : argumentNodes v = .ok vs) : k.owedAll vs = k.owed v ∧ ∀ w ∈ vs, w.Conforms := by
  induction v using Value.induction generalizing vs with
  | bool | int | real | text | list => cases h
  | null =>
      cases h
      exact ⟨rfl, by simp⟩
  | node n ih =>
      obtain ⟨tag, body, comments, loc⟩ := n
      unfold argumentNodes at h
      split at h
      · next htag =>
          obtain ⟨howed, hfits⟩ := owed_children (k := k) hv
            (isPlainProduction_container ((isContainer_node _).mpr (.inl htag)))
          cases h
          exact ⟨howed.symm, hfits⟩
      · split at h
        · next htag =>
            obtain ⟨howed, hin⟩ := owed_children (k := k) hv
              (isPlainProduction_container ((isContainer_node _).mpr (.inr htag)))
            split at h
            · next args block =>
                rw [Except.bind_eq_ok] at h
                obtain ⟨nodes, hnodes, h⟩ := h
                have hblock := hin block (by simp)
                obtain ⟨hsum, hfits⟩ := ih args (by simp) (hin args (by simp)) hnodes
                cases h
                split
                · next hnull =>
                    have hzero : k.owed block = 0 := by rw [Value.isNull_iff.mp hnull]; rfl
                    exact ⟨by simp [howed, hsum, hzero], hfits⟩
                · refine ⟨by simp [howed, hsum], ?_⟩
                  simpa [or_imp, forall_and] using ⟨hfits, hblock⟩
            · cases h
        · cases h
          exact ⟨by simp, by simpa using hv⟩

theorem minCountAll_parenthesized {contents : Value} {ds : List Doc} {d : Doc}
    (h : parenthesized pr contents ds = .ok d) (hforward : contents.tag? ≠ some "@args_forward") :
    minCountAll k.text ds ≤ minCount k.text d := by
  rw [parenthesized, if_neg hforward, Except.bind_eq_ok] at h
  obtain ⟨comma, -, h⟩ := h
  cases h
  have henclosed := minCountAll_le_enclosed (x := k.text) "(" [.listed ds, comma] ")"
  have hlisted := minCountAll_le_listed (x := k.text) ds
  simp only [minCountAll_cons] at henclosed
  omega

theorem owed_forwarded {v : Value} (h : v.tag? = some "@args_forward") : k.owed v = 0 := by
  cases v with
  | node n =>
      have htag : n.tag = "@args_forward" := Option.some.inj h
      exact owed_token (by rw [Node.isToken, htag]; decide) (by rw [htag]; decide)
  | _ => cases h

theorem owed_le_parenthesized {contents : Value} {ds : List Doc} {d : Doc}
    (h : parenthesized pr contents ds = .ok d) (hds : k.owed contents ≤ minCountAll k.text ds) :
    k.owed contents ≤ minCount k.text d := by
  by_cases hforward : contents.tag? = some "@args_forward"
  · rw [owed_forwarded hforward]
    exact Nat.zero_le _
  · exact Nat.le_trans hds (minCountAll_parenthesized h hforward)

/-! ## Rules -/

@[simp] theorem keeps_args : k.Keeps ["args", "args_add_block"] args := by
  intro pr p hpr hp htag
  refine .bind (yields_arguments hpr p.around _ hp ((isContainer_node _).mpr (by simpa using htag)))
    fun ds hds => .pure (Nat.le_trans hds (minCountAll_le_joined _ ds))

@[simp] theorem keeps_argParen : k.Keeps ["arg_paren"] argParen := by
  refine keeps_of_child (by decide) fun pr p contents hpr _ _ hbody hcontents => ?_
  refine .firstChild hbody ?_
  split
  · exact .pure (Nat.zero_le _)
  · refine .bind (yields_argumentList hpr p hcontents) fun ds hds => ?_
    exact .lift fun d hd => owed_le_parenthesized hd hds

@[simp] theorem keeps_argStar : k.Keeps ["arg_star"] argStar :=
  keeps_wrapped (by decide) fun d => by simp

@[simp] theorem keeps_blockArg : k.Keeps ["blockarg"] blockArg :=
  keeps_wrapped (by decide) fun d => by simp

end Rules

end RubyPretty
