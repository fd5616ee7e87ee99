import RubyPretty.Proofs.Comments.Anchors
import RubyPretty.Proofs.Printing.Yields
/-!
# Placing comments

A comment is placed on a statement or on an empty statement list (`holds_place`), and without a
fault all comments are placed (`placeAll_spec`). So each of them counts (`notes_le_attach`).
-/

namespace RubyPretty

namespace Comments

/-! ## One comment -/

theorem mem_of_firstLeast {α : Type} {key : α → Nat} {as : List α} {a : α}
    (h : firstLeast key as = some a) : a ∈ as := by
  induction as generalizing a with
  | nil => cases h
  | cons b bs ih =>
      unfold firstLeast at h
      split at h
      · cases h
        exact List.mem_cons_self
      · split at h <;> cases h
        · exact List.mem_cons_self
        · exact List.mem_cons_of_mem b (ih ‹_›)

theorem mem_of_firstGreatest {α : Type} {key : α → Nat} {as : List α} {a : α}
    (h : firstGreatest key as = some a) : a ∈ as := by
  induction as generalizing a with
  | nil => cases h
  | cons b bs ih =>
      unfold firstGreatest at h
      split at h
      · cases h
        exact List.mem_cons_self
      · split at h <;> cases h
        · exact List.mem_cons_self
        · exact List.mem_cons_of_mem b (ih ‹_›)

theorem mem_of_filterAuxM {α : Type} {p : α → Outcome Bool} {as acc bs : List α}
    (h : as.filterAuxM p acc = .ok bs) : ∀ b ∈ bs, b ∈ as ∨ b ∈ acc := by
  induction as generalizing acc with
  | nil =>
      cases h
      exact fun b hb => .inr hb
  | cons a as ih =>
      rw [List.filterAuxM, Except.bind_eq_ok] at h
      obtain ⟨keep, -, h⟩ := h
      intro b hb
      rcases ih h b hb with hmem | hmem
      · exact .inl (List.mem_cons_of_mem a hmem)
      · cases keep with
        | false => exact .inr hmem
        | true =>
            rcases List.mem_cons.mp hmem with rfl | hmem
            · exact .inl List.mem_cons_self
            · exact .inr hmem

theorem mem_of_filterM {α : Type} {p : α → Outcome Bool} {as bs : List α}
    (h : as.filterM p = .ok bs) : ∀ b ∈ bs, b ∈ as := by
  rw [List.filterM, Except.bind_eq_ok] at h
  obtain ⟨cs, hcs, h⟩ := h
  obtain rfl := Except.pure_eq_ok.mp h
  intro b hb
  rcases mem_of_filterAuxM hcs b (List.mem_reverse.mp hb) with hmem | hmem
  · exact hmem
  · cases hmem

theorem mem_of_innermost? {line : Coordinate} {lists : List StatementList} {entry : StatementList}
    (h : innermost? line lists = .ok (some entry)) : entry ∈ lists := by
  rw [innermost?, Except.bind_eq_ok] at h
  obtain ⟨around, haround, h⟩ := h
  split at h
  · exact List.mem_of_mem_head? (Except.pure_eq_ok.mp h)
  · exact mem_of_filterM haround entry (mem_of_firstGreatest (Except.pure_eq_ok.mp h))

/-- A comment within a list goes to one of its statements, or to the list if there are none. -/
theorem holds_placeIn {line : Coordinate} {entry : StatementList} {placement : Placement}
    (h : placeIn line entry = .ok placement) : entry.Holds placement.position := by
  unfold placeIn at h
  split at h
  · split at h
    case h_1 hnone =>
      obtain rfl := Except.pure_eq_ok.mp h
      exact .inr ⟨hnone, rfl⟩
    case h_2 stmt rest hsome =>
      obtain rfl := Except.pure_eq_ok.mp h
      exact .inl ⟨stmt, hsome ▸ List.mem_cons_self, rfl⟩
  case h_2 first more hreal =>
    have hmem : ∀ s ∈ first :: more, s ∈ entry.statements :=
      fun s hs => List.mem_of_mem_filter (hreal ▸ hs)
    rw [Except.bind_eq_ok] at h
    obtain ⟨after, hafter, h⟩ := h
    split at h
    case h_1 next _ =>
      obtain rfl := Except.pure_eq_ok.mp h
      exact .inl ⟨next, hmem next (mem_of_filterM hafter next List.mem_cons_self), rfl⟩
    case h_2 =>
      rw [Except.bind_eq_ok] at h
      obtain ⟨preceding, hpreceding, h⟩ := h
      obtain rfl := Except.pure_eq_ok.mp h
      refine .inl ⟨_, hmem _ ?_, rfl⟩
      cases hlast : preceding.getLast? with
      | none => exact List.getLast_mem _
      | some s => exact mem_of_filterM hpreceding s (List.mem_of_getLast? hlast)

theorem holds_place {line : Coordinate} {lists : List StatementList} {placement : Placement}
    (h : place line lists = .ok placement) : ∃ e ∈ lists, e.Holds placement.position := by
  unfold place at h
  split at h
  case h_1 depth stmt hleast =>
    obtain rfl := Except.pure_eq_ok.mp h
    have hmem := mem_of_firstLeast hleast
    simp only [endingOn, List.mem_flatMap, List.mem_map, List.mem_filter] at hmem
    obtain ⟨e, he, s, ⟨hs, -⟩, hpair⟩ := hmem
    cases hpair
    exact ⟨e, he, .inl ⟨_, hs, rfl⟩⟩
  case h_2 =>
    rw [Except.bind_eq_ok] at h
    obtain ⟨found, hfound, h⟩ := h
    split at h
    case h_1 entry => exact ⟨entry, mem_of_innermost? hfound, holds_placeIn h⟩
    case h_2 => cases h

/-! ## All comments -/

theorem perm_insertByLine {c : Comment} {cs ds : List Comment} (h : insertByLine c cs = .ok ds) :
    ds.Perm (c :: cs) := by
  induction cs generalizing ds with
  | nil =>
      cases h
      exact .refl _
  | cons d cs ih =>
      rw [insertByLine, Except.bind_eq_ok] at h
      obtain ⟨isBefore, -, h⟩ := h
      split at h
      · rw [Except.bind_eq_ok] at h
        obtain ⟨rest, hrest, h⟩ := h
        obtain rfl := Except.pure_eq_ok.mp h
        exact ((ih hrest).cons d).trans (.swap c d cs)
      · cases h
        exact .refl _

theorem perm_sortByLine {cs ds : List Comment} (h : sortByLine cs = .ok ds) : ds.Perm cs := by
  induction cs generalizing ds with
  | nil =>
      cases h
      exact .refl _
  | cons c cs ih =>
      rw [sortByLine, Except.bind_eq_ok] at h
      obtain ⟨sorted, hsorted, h⟩ := h
      exact (perm_insertByLine h).trans ((ih hsorted).cons c)

theorem perm_schedule {tree : Tree} {cs ds : List Comment} (h : schedule tree cs = .ok ds) :
    ds.Perm cs := by
  unfold schedule at h
  cases hempty : (statementLists tree).isEmpty with
  | true =>
      rw [hempty] at h
      cases h
  | false =>
      rw [hempty] at h
      cases hnull : cs.find? (·.line.isNull) with
      | none =>
          simp only [hnull] at h
          exact perm_sortByLine h
      | some c =>
          simp only [hnull] at h
          cases h

theorem placeAll_spec {lists : List StatementList} {cs : List Comment}
    (h : (placeAll lists cs).2 = none) :
    (placeAll lists cs).1.map (·.comment.text) = cs.map (·.text) ∧
      ∀ a ∈ (placeAll lists cs).1, ∃ e ∈ lists, e.Holds a.placement.position := by
  induction cs with
  | nil => exact ⟨rfl, fun a ha => by cases ha⟩
  | cons c cs ih =>
      unfold placeAll at h ⊢
      cases hplace : place c.line lists with
      | error cause => simp [hplace] at h
      | ok placement =>
          simp only [hplace] at h ⊢
          obtain ⟨htexts, hholds⟩ := ih h
          refine ⟨by rw [List.map_cons, List.map_cons, htexts], fun a ha => ?_⟩
          rcases List.mem_cons.mp ha with rfl | ha
          · exact holds_place hplace
          · exact hholds a ha

end Comments

namespace Keep

variable {k : Keep}

theorem notes_eq_count (cs : List Comment) :
    k.notes cs = if k.comments then (cs.map (·.text)).count k.text else 0 := by
  rw [notes, List.count, List.countP_map]
  rfl

theorem notes_eq_of_texts {cs ds : List Comment}
    (h : (cs.map (·.text)).Perm (ds.map (·.text))) : k.notes cs = k.notes ds := by
  rw [notes_eq_count, notes_eq_count, h.count_eq]

theorem notes_cons (c : Comment) (cs : List Comment) :
    k.notes (c :: cs) = k.notes [c] + k.notes cs :=
  notes_append [c] cs

theorem sum_here_addAll (hnames : k.names = false) (attached : List Comments.Attached) (tree : Tree)
    (h : ∀ a ∈ attached, ((Value.node tree).anchors false)[a.placement.position]? = some true) :
    ((attached.foldl (fun t a => t.addComment a.comment a.placement.position) tree).walk.map
        k.here).sum =
      (tree.walk.map k.here).sum + k.notes (attached.map (·.comment)) := by
  induction attached generalizing tree with
  | nil => simp
  | cons a attached ih =>
      have hanchors := Value.anchors_addComment a.comment (.node tree) a.placement.position false
      rw [← Node.node_addComment] at hanchors
      rw [List.foldl_cons, ih, sum_here_addComment hnames tree a.comment _ (h a List.mem_cons_self),
        List.map_cons, notes_cons _ (attached.map _)]
      · omega
      · intro b hb
        rw [hanchors]
        exact h b (List.mem_cons_of_mem a hb)

theorem notes_le_attach (hnames : k.names = false) {tree : Tree} {cs : List Comment}
    (hgrammar : tree.followsGrammar = true) (h : (Comments.attach tree cs).fault? = none) :
    k.notes cs ≤ ((Comments.attach tree cs).tree.walk.map k.here).sum := by
  unfold Comments.attach at h ⊢
  cases hschedule : Comments.schedule tree cs with
  | error cause => simp [hschedule] at h
  | ok ds =>
      simp only [hschedule] at h ⊢
      obtain ⟨htexts, hholds⟩ := Comments.placeAll_spec h
      revert htexts hholds
      generalize (Comments.placeAll (Comments.statementLists tree) ds).1 = attached
      intro htexts hholds
      have hanchors : ∀ a ∈ attached,
          ((Value.node tree).anchors false)[a.placement.position]? = some true := by
        intro a ha
        obtain ⟨e, he, hposition⟩ := hholds a ha
        obtain ⟨i, hi, hanchor⟩ := Comments.anchored (.node tree) (Node.conforms hgrammar) _ _ _
          false e he _ hposition
        rw [hi, Nat.zero_add]
        exact hanchor
      have hnotes : k.notes (attached.map (·.comment)) = k.notes cs := by
        refine notes_eq_of_texts ?_
        rw [List.map_map]
        exact htexts ▸ (Comments.perm_schedule hschedule).map _
      rw [sum_here_addAll hnames attached tree hanchors, hnotes]
      exact Nat.le_add_left _ _

end Keep

end RubyPretty
