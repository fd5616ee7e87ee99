import Mathlib.Data.List.Induction
import RubyPretty.Proofs.Comments.Lines
import RubyPretty.Proofs.Comments.Positions
/-!
# Conservation of comments

Attaching comments to a tree either fails at once, and then nothing of the tree has changed, or it
gives every comment to exactly one node. What the nodes get, in the order of the walk, are the
`deliveries`: each is a part of the sorted comments, and together they are all of them.
-/

namespace RubyPretty

namespace Comments

/-! ## Places in a tree -/

theorem isWhole_of_mem_statementLists {tree : Tree} (h : tree.hasWholeLocations = true) :
    ∀ e ∈ statementLists tree, e.IsWhole := by
  have hloc : ∀ n ∈ tree.walk, ∀ span, n.loc = some span → span.isWhole = true := by
    intro n hn span hspan
    have hall := List.all_eq_true.mp h n hn
    rwa [hspan] at hall
  intro e he
  have hin := isIn_of_mem (.node tree) none 0 0 e he
  refine ⟨fun span hspan => ?_, fun s hs span hspan => ?_⟩
  · rcases hin.span span hspan with hnone | ⟨n, hn, hn'⟩
    · cases hnone
    · exact hloc n hn span hn'
  · obtain ⟨i, -, hstands⟩ := hin.statements s hs
    refine hloc s.node (hstands.subset ?_) span hspan
    rw [Value.walk_node]
    exact List.mem_cons_self

theorem lt_of_holds {tree : Tree} {e : StatementList} (he : e ∈ statementLists tree)
    {position : Nat} (h : e.Holds position) : position < tree.walk.length := by
  have hin := isIn_of_mem (.node tree) none 0 0 e he
  rcases h with ⟨s, hs, rfl⟩ | ⟨-, rfl⟩
  · obtain ⟨i, hi, hstands⟩ := hin.statements s hs
    have hlt : i < tree.walk.length := hstands.lt
    omega
  · obtain ⟨i, n, hi, hstands, -⟩ := hin.list
    have hlt : i < tree.walk.length := hstands.lt
    omega

/-! ## All comments -/

/-- What a comment says and where: all of it but the side of the node that it is on. -/
def note (c : Comment) : String × Coordinate := (c.text, c.line)

theorem placeAll_of_place {lists : List StatementList} {cs : List Comment}
    (h : ∀ c ∈ cs, ∃ placement, place c.line lists = .ok placement) :
    (placeAll lists cs).2 = none ∧
      (placeAll lists cs).1.map (fun a => note a.comment) = cs.map note := by
  induction cs with
  | nil => exact ⟨rfl, rfl⟩
  | cons c cs ih =>
      obtain ⟨placement, hplacement⟩ := h c List.mem_cons_self
      obtain ⟨hfault, hnotes⟩ := ih fun d hd => h d (List.mem_cons_of_mem c hd)
      unfold placeAll
      rw [hplacement]
      refine ⟨hfault, ?_⟩
      rw [List.map_cons, List.map_cons, hnotes]
      rfl

/-! ## Deliveries -/

def deliveries (nodes : Nat) (attached : List Attached) : List (List Comment) :=
  attached.foldl (fun css a => css.modify a.placement.position (· ++ [a.comment]))
    (List.replicate nodes [])

@[simp] theorem deliveries_nil (nodes : Nat) : deliveries nodes [] = List.replicate nodes [] := rfl

theorem deliveries_concat (nodes : Nat) (attached : List Attached) (a : Attached) :
    deliveries nodes (attached ++ [a]) =
      (deliveries nodes attached).modify a.placement.position (· ++ [a.comment]) := by
  rw [deliveries, List.foldl_append]
  rfl

@[simp] theorem length_deliveries (nodes : Nat) (attached : List Attached) :
    (deliveries nodes attached).length = nodes := by
  induction attached using List.reverseRecOn with
  | nil => rw [deliveries_nil, List.length_replicate]
  | append_singleton attached a ih => rw [deliveries_concat, List.length_modify, ih]

theorem forall_mem_modify {α : Type} {P : α → Prop} {f : α → α} {l : List α} (i : Nat)
    (h : ∀ a ∈ l, P a) (hf : ∀ a ∈ l, P (f a)) : ∀ a ∈ l.modify i f, P a := by
  induction l generalizing i with
  | nil => simp
  | cons a l ih =>
      rw [List.forall_mem_cons] at h hf
      cases i with
      | zero =>
          rw [List.modify_zero_cons, List.forall_mem_cons]
          exact ⟨hf.1, h.2⟩
      | succ i =>
          rw [List.modify_succ_cons, List.forall_mem_cons]
          exact ⟨h.1, ih i h.2 hf.2⟩

theorem sublist_of_mem_deliveries (nodes : Nat) (attached : List Attached) :
    ∀ cs ∈ deliveries nodes attached, cs.Sublist (attached.map (·.comment)) := by
  induction attached using List.reverseRecOn with
  | nil =>
      intro cs hcs
      rw [List.eq_of_mem_replicate hcs]
      exact List.nil_sublist _
  | append_singleton attached a ih =>
      rw [deliveries_concat, List.map_append]
      apply forall_mem_modify
      · exact fun cs hcs => (ih cs hcs).trans (List.sublist_append_left _ _)
      · exact fun cs hcs => (ih cs hcs).append (List.Sublist.refl _)

theorem flatten_modify_perm (css : List (List Comment)) (c : Comment) (i : Nat)
    (hi : i < css.length) : (css.modify i (· ++ [c])).flatten.Perm (css.flatten ++ [c]) := by
  induction css generalizing i with
  | nil => cases hi
  | cons cs css ih =>
      cases i with
      | zero =>
          rw [List.modify_zero_cons, List.flatten_cons, List.flatten_cons, List.append_assoc,
            List.append_assoc]
          exact List.Perm.append_left cs List.perm_append_comm
      | succ i =>
          rw [List.modify_succ_cons, List.flatten_cons, List.flatten_cons, List.append_assoc]
          exact (ih i (Nat.lt_of_succ_lt_succ hi)).append_left cs

theorem flatten_deliveries_perm (nodes : Nat) (attached : List Attached)
    (h : ∀ a ∈ attached, a.placement.position < nodes) :
    (deliveries nodes attached).flatten.Perm (attached.map (·.comment)) := by
  induction attached using List.reverseRecOn with
  | nil => simp
  | append_singleton attached a ih =>
      have hrest := ih fun b hb => h b (List.mem_append_left _ hb)
      have ha : a.placement.position < (deliveries nodes attached).length := by
        rw [length_deliveries]
        exact h a (by simp)
      rw [deliveries_concat, List.map_append]
      exact (flatten_modify_perm _ _ _ ha).trans (hrest.append_right _)

theorem zipWith_append_modify (css dss : List (List Comment)) (c : Comment) (i : Nat) :
    List.zipWith (· ++ ·) css (dss.modify i (· ++ [c])) =
      (List.zipWith (· ++ ·) css dss).modify i (· ++ [c]) := by
  induction css generalizing dss i with
  | nil => simp
  | cons cs css ih =>
      cases dss with
      | nil => simp
      | cons ds dss =>
          cases i with
          | zero => simp
          | succ i => simp [ih]

theorem zipWith_append_replicate (css : List (List Comment)) :
    List.zipWith (· ++ ·) css (List.replicate css.length []) = css := by
  induction css with
  | nil => rfl
  | cons cs css ih =>
      rw [List.length_cons, List.replicate_succ, List.zipWith_cons_cons, ih, List.append_nil]

theorem commentLists_addAll (attached : List Attached) (tree : Tree) :
    (attached.foldl (fun t a => t.addComment a.comment a.placement.position) tree).walk.map
        (·.comments) =
      List.zipWith (· ++ ·) (tree.walk.map (·.comments))
        (deliveries tree.walk.length attached) := by
  induction attached using List.reverseRecOn with
  | nil =>
      have hnone := zipWith_append_replicate (tree.walk.map (·.comments))
      rw [List.length_map] at hnone
      rw [List.foldl_nil, deliveries_nil, hnone]
  | append_singleton attached a ih =>
      rw [List.foldl_append, deliveries_concat, zipWith_append_modify, ← ih]
      have hadd := Value.commentLists_addComment a.comment (.node (attached.foldl
        (fun t a => t.addComment a.comment a.placement.position) tree)) a.placement.position
      rw [← Node.node_addComment] at hadd
      exact hadd

/-! ## Attaching -/

theorem schedule_of_no_stmts {tree : Tree} (h : ∀ n ∈ tree.walk, n.tag ≠ "stmts")
    (comments : List Comment) : schedule tree comments = .error (.noStatementList tree) := by
  rw [schedule, (statementLists_eq_nil_iff tree).mpr h]
  rfl

theorem isEmpty_statementLists {tree : Tree} (h : ∃ n ∈ tree.walk, n.tag = "stmts") :
    (statementLists tree).isEmpty = false := by
  obtain ⟨n, hn, htag⟩ := h
  rw [List.isEmpty_eq_false_iff]
  intro hnil
  exact (statementLists_eq_nil_iff tree).mp hnil n hn htag

theorem schedule_of_missing_line {tree : Tree} (h : ∃ n ∈ tree.walk, n.tag = "stmts")
    {comments : List Comment} (hnull : ∃ c ∈ comments, c.line = .null) :
    ∃ c ∈ comments, c.line = .null ∧
      schedule tree comments = .error (.commentWithoutLine c.text) := by
  obtain ⟨d, hd, hline⟩ := hnull
  obtain ⟨c, hc⟩ : ∃ c, comments.find? (·.line.isNull) = some c := by
    rw [← Option.isSome_iff_exists, List.find?_isSome]
    exact ⟨d, hd, by rw [hline]; rfl⟩
  have hcnull : c.line.isNull = true := List.find?_some (p := fun d : Comment => d.line.isNull) hc
  refine ⟨c, List.mem_of_find?_eq_some hc, ?_, ?_⟩
  · cases hcline : c.line with
    | null => rfl
    | _ => simp [hcline, Json.isNull] at hcnull
  · rw [schedule, isEmpty_statementLists h, hc]
    rfl

theorem schedule_of_lines {tree : Tree} (h : ∃ n ∈ tree.walk, n.tag = "stmts")
    {comments : List Comment} (hlines : ∀ c ∈ comments, Coordinate.isWhole c.line = true) :
    schedule tree comments = sortByLine comments := by
  have hnone : comments.find? (·.line.isNull) = none := by
    rw [List.find?_eq_none]
    intro c hc
    obtain ⟨n, hn⟩ := Coordinate.exists_int (hlines c hc)
    rw [hn]
    exact Bool.false_ne_true
  rw [schedule, isEmpty_statementLists h, hnone]
  rfl

theorem attach_of_schedule {tree : Tree} {comments sorted : List Comment}
    (hschedule : schedule tree comments = .ok sorted)
    (hplaces : ∀ c ∈ sorted, ∃ placement, place c.line (statementLists tree) = .ok placement) :
    ∃ attached : List Attached, (attach tree comments).fault? = none ∧
      (attach tree comments).tree =
        attached.foldl (fun t a => t.addComment a.comment a.placement.position) tree ∧
      attached.map (fun a => note a.comment) = sorted.map note ∧
      ∀ a ∈ attached, a.placement.position < tree.walk.length := by
  obtain ⟨hfault, hnotes⟩ := placeAll_of_place hplaces
  obtain ⟨-, hholds⟩ := placeAll_spec hfault
  refine ⟨(placeAll (statementLists tree) sorted).1, ?_, ?_, hnotes, fun a ha => ?_⟩
  · rw [attach, hschedule]
    exact hfault
  · rw [attach, hschedule]
  · obtain ⟨e, he, hposition⟩ := hholds a ha
    exact lt_of_holds he hposition

theorem pairwise_noLater_of_notes {cs ds : List Comment} (h : cs.map note = ds.map note)
    (hds : ds.Pairwise NoLater) : cs.Pairwise NoLater := by
  have hlines : (ds.map note).Pairwise fun x y => Coordinate.le x.2 y.2 = .ok true :=
    List.pairwise_map.mpr hds
  rw [← h] at hlines
  exact (List.pairwise_map (f := note)).mp hlines

/-- Comments are conserved. Without a statement list, or with a comment that has no line, nothing
is attached at all. Otherwise the tree stays as it was, each node gets comments behind those that
it had, in the order of their lines, and all nodes together get every comment once. The order in
which comments of different lines are given does not matter. -/
theorem attach_conserves_comments (tree : Tree) (comments : List Comment)
    (hlocations : tree.hasWholeLocations = true)
    (hlines : ∀ c ∈ comments, c.line = .null ∨ Coordinate.isWhole c.line = true) :
    ((∀ n ∈ tree.walk, n.tag ≠ "stmts") →
      attach tree comments = ⟨tree, [], some (.noStatementList tree)⟩) ∧
    ((∃ n ∈ tree.walk, n.tag = "stmts") → (∃ c ∈ comments, c.line = .null) →
      ∃ c ∈ comments, c.line = .null ∧
        attach tree comments = ⟨tree, [], some (.commentWithoutLine c.text)⟩) ∧
    ((∃ n ∈ tree.walk, n.tag = "stmts") → (∀ c ∈ comments, c.line ≠ .null) →
      (attach tree comments).fault? = none ∧
      (attach tree comments).tree.bare = tree.bare ∧
      (∃ added : List (List Comment), added.length = tree.walk.length ∧
        (attach tree comments).tree.walk.map (·.comments) =
          List.zipWith (· ++ ·) (tree.walk.map (·.comments)) added ∧
        (∀ new ∈ added, new.Pairwise NoLater) ∧
        (added.flatten.map note).Perm (comments.map note)) ∧
      ((comments.map (·.line)).Nodup → ∀ other, other.Perm comments →
        (attach tree other).tree = (attach tree comments).tree)) := by
  refine ⟨fun hnone => ?_, fun hsome hnull => ?_, fun hsome hlined => ?_⟩
  · rw [attach, schedule_of_no_stmts hnone]
  · obtain ⟨c, hc, hline, hschedule⟩ := schedule_of_missing_line hsome hnull
    exact ⟨c, hc, hline, by rw [attach, hschedule]⟩
  · have hwhole : ∀ c ∈ comments, Coordinate.isWhole c.line = true := fun c hc =>
      (hlines c hc).resolve_left (hlined c hc)
    have hne : statementLists tree ≠ [] := by
      rw [← List.isEmpty_eq_false_iff]
      exact isEmpty_statementLists hsome
    obtain ⟨sorted, hsorted, horder⟩ := exists_sortByLine hwhole
    have hschedule := (schedule_of_lines hsome hwhole).trans hsorted
    have hperm := perm_sortByLine hsorted
    have hplaces : ∀ c ∈ sorted, ∃ placement, place c.line (statementLists tree) = .ok placement :=
      fun c hc => exists_place (hwhole c (hperm.mem_iff.mp hc))
        (isWhole_of_mem_statementLists hlocations) hne
    obtain ⟨attached, hfault, htree, hnotes, hpositions⟩ := attach_of_schedule hschedule hplaces
    have hcomments : (attached.map (·.comment)).map note = sorted.map note := by
      rw [List.map_map]
      exact hnotes
    refine ⟨hfault, bare_attach tree comments, ?_, fun hnodup other hother => ?_⟩
    · refine ⟨deliveries tree.walk.length attached, length_deliveries _ _, ?_, ?_, ?_⟩
      · rw [htree]
        exact commentLists_addAll attached tree
      · intro new hnew
        exact (pairwise_noLater_of_notes hcomments horder).sublist
          (sublist_of_mem_deliveries _ _ new hnew)
      · calc ((deliveries tree.walk.length attached).flatten.map note)
            |>.Perm ((attached.map (·.comment)).map note) :=
              (flatten_deliveries_perm _ _ hpositions).map note
          _ = sorted.map note := hcomments
          List.Perm _ (comments.map note) := hperm.map note
    · have hwhole' : ∀ c ∈ other, Coordinate.isWhole c.line = true := fun c hc =>
        hwhole c (hother.mem_iff.mp hc)
      have hsame : schedule tree other = schedule tree comments := by
        rw [schedule_of_lines hsome hwhole', schedule_of_lines hsome hwhole,
          sortByLine_eq_of_perm hother hwhole hnodup]
      rw [attach, attach, hsame]

/-- A call on the first line, and an empty block from the second to the fourth. -/
def sampleLists : Tree :=
  let called : Tree := { Node.variableCall "a" with
    comments := [⟨"# old", true, .null⟩], loc := some ⟨.int 1, .int 0, .int 1, .int 1⟩ }
  let block : Tree := { Node.plain "BEGIN" [.node (.statements [])] with
    loc := some ⟨.int 2, .int 0, .int 4, .int 1⟩ }
  .program [called, block]

theorem attach_conserves_comments_sample :
    sampleLists.hasWholeLocations = true ∧
      (attach sampleLists [⟨"# c", false, .int 5⟩, ⟨"# b", false, .int 3⟩,
        ⟨"# a", false, .int 1⟩]).tree.walk.map (·.comments) =
        [[], [], [⟨"# old", true, .null⟩, ⟨"# a", false, .int 1⟩], [], [⟨"# c", false, .int 5⟩],
          [⟨"# b", false, .int 3⟩]] ∧
      (attach sampleLists [⟨"# a", false, .int 1⟩, ⟨"# c", false, .int 5⟩,
          ⟨"# b", false, .int 3⟩]).tree =
        (attach sampleLists [⟨"# c", false, .int 5⟩, ⟨"# b", false, .int 3⟩,
          ⟨"# a", false, .int 1⟩]).tree := by
  obtain ⟨-, -, hattached⟩ := attach_conserves_comments sampleLists
    [⟨"# c", false, .int 5⟩, ⟨"# b", false, .int 3⟩, ⟨"# a", false, .int 1⟩] (by decide)
    (by simp [Coordinate.isWhole])
  obtain ⟨-, -, -, hperm⟩ := hattached ⟨_, .tail _ (.head _), rfl⟩ (by simp)
  refine ⟨by decide, by rfl, hperm (by simp) _ ?_⟩
  exact (List.perm_append_singleton _ [_, _]).symm

end Comments

end RubyPretty
